import Fireworq.MySQL.Tenure

namespace Fireworq.MySQL.Activator

open NamedLock Execution Function

variable {w w' : World} {n call : ℕ} {v v' : Node} {a : Action} {s t : State} {es : List Event}
  {e : Event}

section Cancellation

theorem Acts.cancelled (h : Acts w n v a v' w') {k : ℕ} (hk : w.cancelled k = true) :
    w'.cancelled k = true := by
  cases h with
  | lockCanceled =>
    rw [World.abandon_eq]
    exact hk
  | retry | disconnect =>
    rw [World.close_eq]
    exact hk
  | @callCancel call j =>
    by_cases hkj : k = j
    · exact hkj ▸ update_self _ _ _
    · exact (update_of_ne hkj _ _).trans hk
  | _ => exact hk

theorem cancelled_step (h : step s e = some t) {k : ℕ} (hk : s.world.cancelled k = true) :
    t.world.cancelled k = true := by
  cases e with
  | node m a =>
    obtain ⟨v, w, hacts, rfl⟩ := node_step h
    exact hacts.cancelled hk
  | lose c => obtain ⟨-, rfl⟩ := lose_step h; exact hk
  | reap c => obtain ⟨-, rfl⟩ := reap_step h; exact hk
  | grantAbandoned c => obtain ⟨-, server, -, rfl⟩ := grantAbandoned_step h; exact hk

/-- What the calls of `stop` and a round of `getLock` have seen of each other. A
round that is past its load of `stopped` has `cancel` for its own context, and the
calls that have loaded `cancel` since have loaded just that. -/
structure Handshake (w : World) (v : Node) : Prop where
  flagged : ∀ call, v.stops call ≠ .idle → v.stopped = true
  stored : ∀ k, v.pc = .locking k ∨ v.pc = .issued k → v.cancel = some k
  loaded : ∀ call cancel k, v.stops call = .loaded cancel → v.pc = .issued k → cancel = some k
  returned : ∀ call k, v.stops call = .returned → v.pc = .issued k → w.cancelled k = true

theorem Handshake.stopped (hi : Handshake w v) {pc : StopPc} (hs : v.stops call = pc)
    (hpc : pc ≠ .idle) : v.stopped = true :=
  hi.flagged call fun hidle ↦ hpc (hs.symm.trans hidle)

theorem Handshake.mono (hi : Handshake w v)
    (h : ∀ k, w.cancelled k = true → w'.cancelled k = true) : Handshake w' v where
  flagged := hi.flagged
  stored := hi.stored
  loaded := hi.loaded
  returned call k hs hpc := h k (hi.returned call k hs hpc)

theorem Handshake.elsewhere (hi : Handshake w v) (hstops : v'.stops = v.stops)
    (hstopped : v'.stopped = v.stopped) (hlocking : ∀ k, v'.pc ≠ .locking k)
    (hissued : ∀ k, v'.pc ≠ .issued k) : Handshake w' v' where
  flagged call hs := by
    rw [hstops] at hs
    rw [hstopped]
    exact hi.flagged call hs
  stored k hpc := by
    rcases hpc with hpc | hpc
    · exact absurd hpc (hlocking k)
    · exact absurd hpc (hissued k)
  loaded _ _ k _ hpc := absurd hpc (hissued k)
  returned _ k _ hpc := absurd hpc (hissued k)

/-- A round reads `stopped` after its context is in `cancel`. -/
theorem Handshake.loadStopped (hi : Handshake w v) {k : ℕ} (hpc : v.pc = .locking k) :
    Handshake w { v with pc := if v.stopped then .leaving else .issued k } := by
  cases hs : v.stopped with
  | true => exact hi.elsewhere rfl hs.symm (by simp) (by simp)
  | false =>
    have hidle (call : ℕ) : v.stops call = .idle := by
      by_contra hne
      rw [hi.flagged call hne] at hs
      cases hs
    refine ⟨fun call hne ↦ absurd (hidle call) hne, fun j hj ↦ ?_, fun call cancel j hc ↦ ?_,
      fun call j hc ↦ ?_⟩
    · rcases hj with hj | hj
      · cases hj
      · cases hj
        exact hi.stored k (.inl hpc)
    · cases (hidle call).symm.trans hc
    · cases (hidle call).symm.trans hc

theorem Handshake.stop (hi : Handshake w v) {stopped : Bool} {pc : StopPc}
    (hstopped : stopped = true) (hc : ∀ k, w.cancelled k = true → w'.cancelled k = true)
    (hloaded : ∀ cancel k, pc = .loaded cancel → v.pc = .issued k → cancel = some k)
    (hreturned : ∀ k, pc = .returned → v.pc = .issued k → w'.cancelled k = true) :
    Handshake w' { v with stopped := stopped, stops := update v.stops call pc } where
  flagged _ _ := hstopped
  stored := hi.stored
  loaded call' cancel k hs hpc := by
    by_cases hcall : call' = call
    · subst hcall
      exact hloaded cancel k ((update_self _ _ _).symm.trans hs) hpc
    · exact hi.loaded call' cancel k ((update_of_ne hcall _ _).symm.trans hs) hpc
  returned call' k hs hpc := by
    by_cases hcall : call' = call
    · subst hcall
      exact hreturned k ((update_self _ _ _).symm.trans hs) hpc
    · exact hc k (hi.returned call' k ((update_of_ne hcall _ _).symm.trans hs) hpc)

theorem Handshake.acts (hi : Handshake w v) (h : Acts w n v a v' w') : Handshake w' v' := by
  have hcancelled (k : ℕ) (hk : w.cancelled k = true) : w'.cancelled k = true := h.cancelled hk
  cases h with
  | begin | lockCanceled =>
    refine hi.elsewhere rfl rfl ?_ ?_ <;> cases v.stopped <;> simp
  | dial => exact ⟨hi.flagged, hi.stored, hi.loaded, hi.returned⟩
  | storeCancel =>
    refine ⟨hi.flagged, fun k hpc ↦ ?_, fun _ _ k _ hpc ↦ ?_, fun _ k _ hpc ↦ ?_⟩
    · rcases hpc with hpc | hpc
      · cases hpc
        rfl
      · cases hpc
    · cases hpc
    · cases hpc
  | loadStopped hpc => exact hi.loadStopped hpc
  | setStopped => exact hi.stop rfl hcancelled (by simp) (by simp)
  | loadCancel hs =>
    refine hi.stop (hi.stopped hs (by simp)) hcancelled (fun cancel k hl hpc ↦ ?_) (by simp)
    cases hl
    exact hi.stored k (.inr hpc)
  | @callCancel call j hs =>
    refine hi.stop (hi.stopped hs (by simp)) hcancelled (by simp) fun k _ hpc ↦ ?_
    cases hi.loaded call _ k hs hpc
    exact update_self _ _ _
  | noCancel hs =>
    refine hi.stop (hi.stopped hs (by simp)) hcancelled (by simp) fun k _ hpc ↦ ?_
    cases hi.loaded _ _ k hs hpc
  | _ => exact hi.elsewhere rfl rfl (by simp) (by simp)

theorem Handshake.step (hi : Handshake s.world (s.nodes n)) (h : step s e = some t) :
    Handshake t.world (t.nodes n) := by
  rcases node_moves h n with ⟨hsame, -⟩ | ⟨a, -, hacts⟩
  · rw [hsame]
    exact hi.mono fun k hk ↦ cancelled_step h hk
  · exact hi.acts hacts

theorem Run.handshake (h : Run es s) (n : ℕ) : Handshake s.world (s.nodes n) := by
  refine invariant (fun u ↦ Handshake u.world (u.nodes n)) (fun _ _ _ hi hstep ↦ hi.step hstep) h ?_
  exact ⟨fun _ hs ↦ absurd rfl hs, by simp [State.initial], by simp [State.initial],
    by simp [State.initial]⟩

end Cancellation

section Leaving

/-- Once `stopped` is set, no load of it lets a round go on to its query. -/
theorem Acts.issued {k : ℕ} (h : Acts w n v a v' w') (hs : v.stopped = true)
    (hpc : v'.pc = .issued k) : v.pc = .issued k := by
  cases h with
  | begin | loadStopped | lockCanceled => simp [hs] at hpc
  | dial | setStopped | loadCancel | callCancel | noCancel => exact hpc
  | _ => cases hpc

theorem Acts.returned (h : Acts w n v a v' w') (hr : v.stops call = .returned) :
    v'.stops call = .returned := by
  have hother {call' : ℕ} {pc : StopPc} (hne : v.stops call' ≠ .returned) :
      update v.stops call' pc call = .returned := by
    have hcall : call ≠ call' := fun heq ↦ hne (heq ▸ hr)
    exact (update_of_ne hcall _ _).trans hr
  cases h with
  | setStopped hs | loadCancel hs | callCancel hs | noCancel hs => exact hother (by simp [hs])
  | _ => exact hr

def Action.inLoop : Action → Bool
  | .dial | .setStopped _ | .loadCancel _ | .callCancel _ => false
  | _ => true

/-- How many steps the loop has left at most when it is to stop. -/
def Pc.remaining : Pc → ℕ
  | .ended => 0
  | .signalling => 1
  | .disconnecting => 2
  | .leaving => 3
  | .waiting | .locking _ => 4
  | .failed | .recovered | .storing => 5
  | .activating | .checked _ => 6
  | .granted | .checking => 7
  | .issued _ | .connecting => 8

theorem Pc.remaining_le (pc : Pc) : pc.remaining ≤ 8 := by
  cases pc <;> simp [Pc.remaining]

def Pc.ahead : Pc → ℕ
  | .issued _ | .granted => 1
  | _ => 0

theorem Pc.ahead_le (pc : Pc) : pc.ahead ≤ 1 := by
  cases pc <;> simp [Pc.ahead]

theorem Acts.remaining (h : Acts w n v a v' w') (hs : v.stopped = true) :
    v'.pc.remaining ≤ v.pc.remaining ∧
      (a.inLoop = true → v'.pc.remaining < v.pc.remaining) := by
  cases h with
  | dial | setStopped | loadCancel | callCancel | noCancel => simp [Action.inLoop]
  | _ => simp [*, Pc.remaining]

theorem Acts.ahead (h : Acts w n v a v' w') (hs : v.stopped = true) :
    v'.pc.ahead ≤ v.pc.ahead ∧ (a = .onActivating → v'.pc.ahead < v.pc.ahead) := by
  cases h with
  | dial | setStopped | loadCancel | callCancel | noCancel => simp
  | _ => simp [*, Pc.ahead]

structure Returned (n call : ℕ) (s : State) : Prop where
  returned : (s.nodes n).stops call = .returned
  handshake : Handshake s.world (s.nodes n)

theorem Returned.stopped (hr : Returned n call s) : (s.nodes n).stopped = true :=
  hr.handshake.stopped hr.returned (by simp)

theorem Returned.stays (hr : Returned n call s) (h : step s e = some t) : Returned n call t where
  returned := by
    rcases node_moves h n with ⟨hsame, -⟩ | ⟨a, -, hacts⟩
    · rw [hsame]
      exact hr.returned
    · exact hacts.returned hr.returned
  handshake := hr.handshake.step h

theorem Returned.issued (hr : Returned n call s) (h : step s e = some t) {k : ℕ}
    (hpc : (t.nodes n).pc = .issued k) : (s.nodes n).pc = .issued k := by
  rcases node_moves h n with ⟨hsame, -⟩ | ⟨a, -, hacts⟩
  · rwa [← hsame]
  · exact hacts.issued hr.stopped hpc

def Event.inLoop (n : ℕ) : Event → Bool
  | .node m a => decide (m = n) && a.inLoop
  | _ => false

theorem Returned.remaining (hr : Returned n call s) (h : step s e = some t) :
    (t.nodes n).pc.remaining ≤ (s.nodes n).pc.remaining ∧
      (e.inLoop n = true → (t.nodes n).pc.remaining < (s.nodes n).pc.remaining) := by
  rcases node_moves h n with ⟨hsame, hother⟩ | ⟨a, rfl, hacts⟩
  · refine ⟨Nat.le_of_eq (by rw [hsame]), fun he ↦ ?_⟩
    cases e with
    | node m a =>
      have hm : m = n := of_decide_eq_true (Bool.and_eq_true_iff.mp he).1
      exact absurd (hm ▸ rfl) (hother a)
    | lose | reap | grantAbandoned => cases he
  · obtain ⟨hle, hlt⟩ := hacts.remaining hr.stopped
    exact ⟨hle, fun he ↦ hlt (Bool.and_eq_true_iff.mp he).2⟩

theorem Returned.ahead (hr : Returned n call s) (h : step s e = some t) :
    (t.nodes n).pc.ahead ≤ (s.nodes n).pc.ahead ∧
      (e = .node n .onActivating → (t.nodes n).pc.ahead < (s.nodes n).pc.ahead) := by
  rcases node_moves h n with ⟨hsame, hother⟩ | ⟨a, rfl, hacts⟩
  · exact ⟨Nat.le_of_eq (by rw [hsame]), fun he ↦ absurd he (hother _)⟩
  · obtain ⟨hle, hlt⟩ := hacts.ahead hr.stopped
    refine ⟨hle, fun he ↦ hlt ?_⟩
    cases he
    rfl

/-- The loop can go on as long as it has not ended: a query whose context is
cancelled fails. -/
theorem exists_inLoop (hpc : v.pc ≠ .ended)
    (hissued : ∀ k, v.pc = .issued k → w.cancelled k = true) :
    ∃ a, a.inLoop = true ∧ (act w n v a).isSome = true := by
  cases hv : v.pc with
  | waiting => exact ⟨.begin, rfl, by simp [act, hv]⟩
  | connecting =>
    cases hdb : v.db with
    | closed | opened => exact ⟨.connect true, rfl, by simp [act, hv, hdb]⟩
  | checking => exact ⟨.hasLock false, rfl, by simp [act, hv]⟩
  | checked hasLock =>
    cases hasLock with
    | true | false => exact ⟨.swapActive, rfl, by simp [act, hv]⟩
  | storing => exact ⟨.storeCancel, rfl, by simp [act, hv]⟩
  | locking => exact ⟨.loadStopped, rfl, by simp [act, hv]⟩
  | issued k => exact ⟨.lockFailed false true, rfl, by simp [act, hv, hissued k hv]⟩
  | failed | disconnecting => exact ⟨.disconnect, rfl, by simp [act, hv]⟩
  | granted => exact ⟨.onActivating, rfl, by simp [act, hv]⟩
  | activating => exact ⟨.activated, rfl, by simp [act, hv]⟩
  | recovered => exact ⟨.storeActive, rfl, by simp [act, hv]⟩
  | leaving => exact ⟨.clearActive, rfl, by simp [act, hv]⟩
  | signalling => exact ⟨.signal, rfl, by simp [act, hv]⟩
  | ended => exact absurd hv hpc

/-- After `stop` the loop comes to its end by its own steps. -/
theorem Returned.leads (hr : Returned n call s) :
    Leads step (Event.inLoop n · = true)
      (fun t ↦ Returned n call t ∧ (t.nodes n).pc = .ended) s := by
  refine leads_of_weight (Returned n call) (fun u ↦ (u.nodes n).pc = .ended) _
    (fun u ↦ (u.nodes n).pc.remaining) (fun u hu hpc ↦ ?_) hr
  obtain ⟨a, ha, hsome⟩ := exists_inLoop (n := n) hpc (hu.handshake.returned call · hu.returned)
  obtain ⟨⟨v, w⟩, hact⟩ := Option.isSome_iff_exists.mp hsome
  have he : Event.inLoop n (.node n a) = true := by simp [Event.inLoop, ha]
  have hstep : step u (.node n a) = some ⟨w, update u.nodes n v⟩ :=
    Option.map_eq_some_iff.mpr ⟨(v, w), hact, rfl⟩
  exact ⟨.node n a, _, he, hstep, hu.stays hstep, (hu.remaining hstep).2 he⟩

end Leaving

section Ending

def World.Closed (w : World) (c : ℕ) : Prop := w.server.live c = false ∨ w.abandoned c = true

def Pooled (w : World) (n : ℕ) (v : Node) : Prop :=
  ∀ c, w.dialer c = some n → w.Closed c ∨ v.db.connection = some c

variable {c : ℕ}

theorem World.Closed.server {server : Server} (h : w.Closed c)
    (hlive : w.server.live c = false → server.live c = false) :
    World.Closed { w with server := server } c := by
  rcases h with h | h
  · exact .inl (hlive h)
  · exact .inr h

theorem World.close_closed {db : DB} (h : db.connection = some c) : (w.close db).Closed c := by
  rw [World.close_eq, h]
  exact .inl (update_self _ _ _)

theorem World.abandon_closed {db : DB} (h : db.connection = some c) :
    (w.abandon db).Closed c := by
  rw [World.abandon_eq, h]
  exact .inr (update_self _ _ _)

theorem Acts.abandoned (h : Acts w n v a v' w') (hc : w.abandoned c = true) :
    w'.abandoned c = true := by
  cases h with
  | lockCanceled =>
    rw [World.abandon_eq]
    cases v.db.connection with
    | none => exact hc
    | some d =>
      by_cases hcd : c = d
      · exact hcd ▸ update_self _ _ _
      · exact (update_of_ne hcd _ _).trans hc
  | retry | disconnect =>
    rw [World.close_eq]
    exact hc
  | _ => exact hc

/-- A connection that has ended does so for good, and only a dial makes a new one. -/
theorem Acts.closed (h : Acts w n v a v' w') (hne : c ≠ w.server.next ∨ a ≠ .dial)
    (hc : w.Closed c) : w'.Closed c := by
  rcases hc with hc | hc
  · exact .inl (h.dead hne hc)
  · exact .inr (h.abandoned hc)

theorem Acts.dialer (h : Acts w n v a v' w') (hne : c ≠ w.server.next ∨ a ≠ .dial) :
    w'.dialer c = w.dialer c := by
  cases h with
  | dial => exact update_of_ne (hne.resolve_right (by simp)) _ _
  | lockCanceled => rw [World.abandon_eq]
  | retry | disconnect => rw [World.close_eq]
  | _ => rfl

theorem Acts.pooled (h : Acts w n v a v' w') (hdial : a ≠ .dial)
    (hc : v.db.connection = some c) : w'.Closed c ∨ v'.db.connection = some c := by
  cases h with
  | dial => exact absurd rfl hdial
  | connect _ hdb => rw [hdb] at hc; cases hc
  | lockCanceled => exact .inl (World.abandon_closed hc)
  | retry | disconnect => exact .inl (World.close_closed hc)
  | _ => exact .inr hc

theorem dial_dead (h : act w n v .dial = some (v', w')) (hc : v.db.connection = some c) :
    w.server.live c = false := by
  simp only [act] at h
  have hd : w.dial n v = some (v', w') := by
    split at h
    · exact h
    · exact h
    · cases h
  unfold World.dial at hd
  split at hd
  · cases hd
  · next connection hdb =>
    rw [hdb] at hc
    cases (show connection = some c from hc)
    split at hd
    · cases hd
    · next hlive => simpa using hlive

theorem Pooled.acts (hp : Pooled w n v) (h : Acts w n v a v' w')
    (hdead : a = .dial → ∀ c, v.db.connection = some c → w.server.live c = false) :
    Pooled w' n v' := by
  intro c hd
  by_cases hnew : c = w.server.next ∧ a = .dial
  · obtain ⟨rfl, rfl⟩ := hnew
    cases h
    exact .inr rfl
  · have hne := not_and_or.mp hnew
    rcases hp c ((h.dialer hne).symm.trans hd) with hc | hc
    · exact .inl (h.closed hne hc)
    · by_cases ha : a = .dial
      · exact .inl (h.closed hne (.inl (hdead ha c hc)))
      · exact h.pooled ha hc

theorem Pooled.other {m : ℕ} {u u' : Node} (hp : Pooled w n v) (h : Acts w m u a u' w')
    (hm : n ≠ m) : Pooled w' n v := by
  intro c hd
  by_cases hnew : c = w.server.next ∧ a = .dial
  · obtain ⟨rfl, rfl⟩ := hnew
    cases h
    cases (update_self _ _ _).symm.trans hd
    exact absurd rfl hm
  · have hne := not_and_or.mp hnew
    exact (hp c ((h.dialer hne).symm.trans hd)).imp_left (h.closed hne)

theorem Pooled.step (hp : Pooled s.world n (s.nodes n)) (h : step s e = some t) :
    Pooled t.world n (t.nodes n) := by
  cases e with
  | node m a =>
    obtain ⟨⟨v, w⟩, hact, ht⟩ := Option.map_eq_some_iff.mp h
    obtain rfl : t = ⟨w, update s.nodes m v⟩ := ht.symm
    by_cases hn : n = m
    · subst hn
      have hown : Pooled w n v := hp.acts (act_acts hact) fun ha c hc ↦ by
        subst ha
        exact dial_dead hact hc
      simpa only [update_self] using hown
    · have hother : Pooled w n (s.nodes n) := hp.other (act_acts hact) hn
      simpa only [update_of_ne hn] using hother
  | lose d =>
    obtain ⟨-, rfl⟩ := lose_step h
    exact fun c hd ↦ (hp c hd).imp_left fun hc ↦ hc.server close_live
  | reap d =>
    obtain ⟨-, rfl⟩ := reap_step h
    exact fun c hd ↦ (hp c hd).imp_left fun hc ↦ hc.server close_live
  | grantAbandoned d =>
    obtain ⟨-, server, hg, rfl⟩ := grantAbandoned_step h
    refine fun c hd ↦ (hp c hd).imp_left fun hc ↦ hc.server fun hl ↦ ?_
    rwa [(grant_cases hg).2.2.2.1]

structure Ends (v : Node) : Prop where
  cleared : v.pc = .disconnecting ∨ v.pc = .signalling ∨ v.pc = .ended → v.active = 0
  closed : v.pc = .signalling ∨ v.pc = .ended → v.db = .closed

theorem Ends.acts (hi : Ends v) (h : Acts w n v a v' w') : Ends v' := by
  cases h with
  | begin | loadStopped | lockCanceled => constructor <;> cases v.stopped <;> simp
  | dial hpc => constructor <;> rcases hpc with hpc | ⟨k, hpc⟩ <;> simp [hpc]
  | disconnect hpc => exact ⟨fun _ ↦ hi.cleared (.inl hpc), fun _ ↦ rfl⟩
  | clearActive => exact ⟨fun _ ↦ rfl, by simp⟩
  | signal hpc =>
    exact ⟨fun _ ↦ hi.cleared (.inr (.inl hpc)), fun _ ↦ hi.closed (.inl hpc)⟩
  | setStopped | loadCancel | callCancel | noCancel => exact ⟨hi.cleared, hi.closed⟩
  | _ => exact ⟨by simp, by simp⟩

theorem Run.ends (h : Run es s) (n : ℕ) :
    Ends (s.nodes n) ∧ Pooled s.world n (s.nodes n) := by
  refine invariant (fun u ↦ Ends (u.nodes n) ∧ Pooled u.world n (u.nodes n))
    (fun u e t hi hstep ↦ ⟨?_, hi.2.step hstep⟩) h ⟨⟨?_, ?_⟩, ?_⟩
  · rcases node_moves hstep n with ⟨hsame, -⟩ | ⟨a, -, hacts⟩
    · rw [hsame]
      exact hi.1
    · exact hi.1.acts hacts
  all_goals simp [Pooled, State.initial]

theorem Acts.ended (h : Acts w n v a v' w') (hend : v.pc = .ended ∨ a = .signal) :
    v'.pc = .ended := by
  cases h <;> simp_all

theorem Run.signalled (h : Run es s) (hmem : .node n .signal ∈ es) :
    (s.nodes n).pc = .ended := by
  refine history (fun es s ↦ .node n .signal ∈ es → (s.nodes n).pc = .ended) (by simp)
    (fun xs u e t _ ih hstep hmem ↦ ?_) h hmem
  rcases node_moves hstep n with ⟨hsame, hother⟩ | ⟨a, rfl, hacts⟩
  · rw [hsame]
    refine ih ?_
    rcases List.mem_append.mp hmem with hmem | hmem
    · exact hmem
    · exact absurd (List.mem_singleton.mp hmem).symm (hother _)
  · rcases List.mem_append.mp hmem with hmem | hmem
    · exact hacts.ended (.inl (ih hmem))
    · cases List.mem_singleton.mp hmem
      exact hacts.ended (.inr rfl)

end Ending

/-- What a call of `stop` of node `n` has achieved when it returns: the events `xs`
have led to its return in state `s`, and then the events `ys` to state `t`. -/
structure StopsFor (n : ℕ) (xs : List Event) (s : State) (ys : List Event) (t : State) :
    Prop where
  /-- A query is `issued` from the load of `stopped` that lets its round go on until
  its answer is there. -/
  cancelled : ∀ k, (t.nodes n).pc = .issued k → s.world.cancelled k = true
  noIssue : ∀ zs e ws u v, ys = zs ++ e :: ws → exec step s zs = some u → step u e = some v →
    ∀ k, (v.nodes n).pc = .issued k → (u.nodes n).pc = .issued k
  activations : ys.count (.node n .onActivating) ≤ 1
  signalled : .node n .signal ∈ xs ++ ys → (t.nodes n).active = 0 ∧ (t.nodes n).db = .closed ∧
    ∀ c, t.world.dialer c = some n → t.world.Closed c
  /-- The loop makes at most eight more steps of its own, and they lead to its end. -/
  steps : ys.countP (Event.inLoop n) ≤ 8
  ends : Leads step (Event.inLoop n · = true) (fun u ↦ (u.nodes n).pc = .ended) t

theorem stop_never_missed {xs ys : List Event} (h : Run xs s)
    (hstop : (s.nodes n).stops call = .returned) (ht : exec step s ys = some t) :
    StopsFor n xs s ys t := by
  have hr : Returned n call s := ⟨hstop, h.handshake n⟩
  have hreturned {zs : List Event} {u : State} (hu : exec step s zs = some u) :
      Returned n call u := invariant (Returned n call) (fun _ _ _ hi hs ↦ hi.stays hs) hu hr
  have hrun : Run (xs ++ ys) t := exec_append.mpr ⟨s, h, ht⟩
  refine ⟨fun k hk ↦ ?_, fun zs e ws u v _ hu hv k hk ↦ (hreturned hu).issued hv hk, ?_,
    fun hmem ↦ ?_, ?_, ?_⟩
  · -- The query was past its check before `stop` returned.
    have hissued : (s.nodes n).pc = .issued k := by
      refine (invariant (fun u ↦ Returned n call u ∧ ((u.nodes n).pc = .issued k →
        (s.nodes n).pc = .issued k)) (fun u e v hu hv ↦ ?_) ht ⟨hr, id⟩).2 hk
      exact ⟨hu.1.stays hv, fun hpc ↦ hu.2 (hu.1.issued hv hpc)⟩
    exact hr.handshake.returned call k hstop hissued
  · have hcount := countP_add_weight_le (Returned n call) (· == .node n .onActivating)
      (fun u ↦ (u.nodes n).pc.ahead) (fun u e v hu hv ↦ ?_) ht hr
    · have hle := (s.nodes n).pc.ahead_le
      rw [List.count]
      omega
    · obtain ⟨hle, hlt⟩ := hu.ahead hv
      exact ⟨hu.stays hv, hle, fun he ↦ hlt (eq_of_beq he)⟩
  · have hended := hrun.signalled hmem
    obtain ⟨hends, hpooled⟩ := hrun.ends n
    have hdb := hends.closed (.inr hended)
    refine ⟨hends.cleared (.inr (.inr hended)), hdb, fun c hc ↦ (hpooled c hc).resolve_right ?_⟩
    rw [hdb]
    intro hc
    cases hc
  · have hcount := countP_add_weight_le (Returned n call) (Event.inLoop n)
      (fun u ↦ (u.nodes n).pc.remaining) (fun u e v hu hv ↦ ⟨hu.stays hv, hu.remaining hv⟩) ht hr
    have hle := (s.nodes n).pc.remaining_le
    omega
  · obtain ⟨es, u, hu, hes, -, hpc⟩ := (hreturned ht).leads
    exact ⟨es, u, hu, hes, hpc⟩

/-- The query of node 0 is issued when its `stop` begins. -/
def stopWhileLocking : List Event :=
  [.begin, .connect true, .dial, .hasLock false, .swapActive, .storeCancel, .loadStopped,
    .setStopped 0, .loadCancel 0, .callCancel 0].map (.node 0)

def grantedLate : List Event :=
  [.lockGranted, .onActivating, .activated, .storeActive, .begin, .clearActive, .disconnect,
    .signal].map (.node 0)

theorem stop_never_missed_grantedLate : ∃ s t, Run stopWhileLocking s ∧
    (s.nodes 0).pc = .issued 0 ∧ (s.nodes 0).stops 0 = .returned ∧
    exec step s grantedLate = some t ∧ t.world.dialer 0 = some 0 ∧ t.world.server.live 0 = false ∧
    StopsFor 0 stopWhileLocking s grantedLate t := by
  obtain ⟨s, hs, hval⟩ := Option.map_eq_some_iff.mp
    (show (exec step .initial stopWhileLocking).map (fun s ↦ ((s.nodes 0).pc, (s.nodes 0).stops 0,
      (exec step s grantedLate).map fun t ↦ (t.world.dialer 0, t.world.server.live 0))) =
        some (.issued 0, .returned, some (some 0, false)) by decide +kernel)
  obtain ⟨hpc, hval⟩ := Prod.mk.inj hval
  obtain ⟨hstop, hval⟩ := Prod.mk.inj hval
  obtain ⟨t, ht, hval⟩ := Option.map_eq_some_iff.mp hval
  obtain ⟨hdialer, hlive⟩ := Prod.mk.inj hval
  exact ⟨s, t, hs, hpc, hstop, ht, hdialer, hlive, stop_never_missed hs hstop ht⟩

end Fireworq.MySQL.Activator
