import Fireworq.MySQL.Primary

namespace Fireworq.MySQL.Activator

open NamedLock Execution Function

variable {w w' : World} {n : ℕ} {v v' : Node} {s t : State} {es : List Event}

def Acquires (c : ℕ) (s t : State) : Prop :=
  s.world.server.owner ≠ some c ∧ t.world.server.owner = some c

/-- Connection `c` has acquired the lock, and the events `zs` have followed. -/
def Tenure (es : List Event) (c : ℕ) (zs : List Event) : Prop :=
  ∃ xs e u v, es = xs ++ e :: zs ∧ Run xs u ∧ step u e = some v ∧ Acquires c u v

def Recovers (n : ℕ) (zs : List Event) : Prop :=
  ∃ z₁ z₂ z₃, zs = z₁ ++ .node n .onActivating :: (z₂ ++ .node n .activated :: z₃)

theorem Recovers.snoc {zs : List Event} (h : Recovers n zs) (e : Event) :
    Recovers n (zs ++ [e]) := by
  obtain ⟨z₁, z₂, z₃, rfl⟩ := h
  exact ⟨z₁, z₂, z₃ ++ [e], by simp⟩

theorem Tenure.snoc {c : ℕ} {zs : List Event} (h : Tenure es c zs) (e : Event) :
    Tenure (es ++ [e]) c (zs ++ [e]) := by
  obtain ⟨xs, f, u, v, rfl, hu, hv, hacq⟩ := h
  exact ⟨xs, f, u, v, by simp, hu, hv, hacq⟩

theorem tenure_snoc {c : ℕ} {zs : List Event} {e : Event} (hs : Run es s)
    (hstep : step s e = some t) (h : Tenure (es ++ [e]) c zs) :
    (∃ zs', zs = zs' ++ [e] ∧ Tenure es c zs') ∨ zs = [] ∧ Acquires c s t := by
  obtain ⟨xs, f, u, v, hsplit, hu, hv, hacq⟩ := h
  rcases List.eq_nil_or_concat zs with rfl | ⟨zs, g, rfl⟩
  · obtain ⟨rfl, he⟩ := List.append_inj' hsplit rfl
    cases he
    cases Option.some.inj (hs.symm.trans hu)
    cases Option.some.inj (hstep.symm.trans hv)
    exact .inr ⟨rfl, hacq⟩
  · have hsplit' : es ++ [e] = (xs ++ f :: zs) ++ [g] := by simpa using hsplit
    obtain ⟨hes, he⟩ := List.append_inj' hsplit' rfl
    cases he
    exact .inl ⟨zs, by simp, xs, f, u, v, hes, hu, hv, hacq⟩

theorem Run.tenure (h : Run es s) {c : ℕ} (hc : s.world.server.owner = some c) :
    ∃ zs, Tenure es c zs := by
  refine history (fun es s ↦ s.world.server.owner = some c → ∃ zs, Tenure es c zs) ?_ ?_ h hc
  · intro hc
    cases hc
  · intro xs u e v hu ih hstep hv
    by_cases hown : u.world.server.owner = some c
    · obtain ⟨zs, hzs⟩ := ih hown
      exact ⟨zs ++ [e], hzs.snoc e⟩
    · exact ⟨[], xs, e, u, v, rfl, hu, hstep, hown, hv⟩

theorem Acts.acquires {a : Action} {c : ℕ} (h : Acts w n v a v' w')
    (hbefore : w.server.owner ≠ some c) (hafter : w'.server.owner = some c) :
    v.db.connection = some c ∧ ∃ k, v.pc = .issued k := by
  have hfail {k : ℕ} {server : Server} (hpc : v.pc = .issued k)
      (hs : server = w.server ∨ ∃ c, v.db.connection = some c ∧ w.server.grant c = some server)
      (ho : server.owner = some c) : v.db.connection = some c ∧ ∃ k, v.pc = .issued k := by
    rcases hs with rfl | ⟨d, hd, hg⟩
    · exact absurd ho hbefore
    · rw [(grant_cases hg).2.2.1] at ho
      exact ⟨hd.trans ho, k, hpc⟩
  cases h with
  | lockGranted hpc hd hg => exact hfail hpc (.inr ⟨_, hd, hg⟩) hafter
  | lockFailed hpc hs => exact hfail hpc hs hafter
  | lockCanceled hpc hs =>
    rw [World.abandon_eq] at hafter
    exact hfail hpc hs hafter
  | retry | disconnect =>
    unfold World.close at hafter
    split at hafter
    · exact absurd (owner_of_close hafter) hbefore
    · exact absurd hafter hbefore
  | _ => exact absurd hafter hbefore

theorem not_acquires {e : Event} (h : step s e = some t) (hi : Inv s) {c : ℕ}
    (hc : (s.nodes n).db.connection = some c) (hpc : ∀ k, (s.nodes n).pc ≠ .issued k) :
    ¬ Acquires c s t := by
  rintro ⟨hbefore, hafter⟩
  have hown := (hi.nodes n).pooled c hc
  cases e with
  | node m a =>
    obtain ⟨v, w, hacts, rfl⟩ := node_step h
    obtain ⟨hm, k, hk⟩ := hacts.acquires hbefore hafter
    have hmn : m = n := by
      have hown' := (hi.nodes m).pooled c hm
      exact Option.some.inj (hown'.2.1.symm.trans hown.2.1)
    exact hpc k (hmn ▸ hk)
  | lose d =>
    obtain ⟨-, rfl⟩ := lose_step h
    exact hbefore (owner_of_close hafter)
  | reap d =>
    obtain ⟨-, rfl⟩ := reap_step h
    exact hbefore (owner_of_close hafter)
  | grantAbandoned d =>
    obtain ⟨hd, server, hg, rfl⟩ := grantAbandoned_step h
    rw [show server.owner = some d from (grant_cases hg).2.2.1] at hafter
    exact hown.ne hd (Option.some.inj hafter).symm

theorem Acts.pc_cases {a : Action} (h : Acts w n v a v' w') :
    (v'.pc = v.pc ∧ v'.db = v.db) ∨
      match v'.pc with
      | .granted => a = .lockGranted ∧ v'.db.connection = w'.server.owner ∧
          v'.db.connection.isSome
      | .activating => a = .onActivating ∧ v.pc = .granted ∧ v'.db = v.db
      | .recovered => a = .activated ∧ v.pc = .activating ∧ v'.db = v.db
      | _ => True := by
  cases h with
  | begin | loadStopped | lockCanceled => cases v.stopped <;> exact .inr trivial
  | dial hpc => rcases hpc with hpc | ⟨k, hpc⟩ <;> simp [hpc]
  | lockGranted _ hc hg =>
    exact .inr ⟨rfl, hc.trans (grant_cases hg).2.2.1.symm, by simp [hc]⟩
  | onActivating hpc => exact .inr ⟨rfl, hpc, rfl⟩
  | activated hpc => exact .inr ⟨rfl, hpc, rfl⟩
  | setStopped | loadCancel | callCancel | noCancel => exact .inl ⟨rfl, rfl⟩
  | _ => exact .inr trivial

theorem node_moves {e : Event} (h : step s e = some t) (n : ℕ) :
    (t.nodes n = s.nodes n ∧ ∀ a, e ≠ .node n a) ∨
      ∃ a, e = .node n a ∧ Acts s.world n (s.nodes n) a (t.nodes n) t.world := by
  cases e with
  | node m a =>
    obtain ⟨v, w, hacts, rfl⟩ := node_step h
    by_cases hn : n = m
    · subst hn
      exact .inr ⟨a, rfl, by simpa only [update_self] using hacts⟩
    · refine .inl ⟨update_of_ne hn _ _, fun b he ↦ ?_⟩
      cases he
      exact hn rfl
  | lose c => obtain ⟨-, rfl⟩ := lose_step h; exact .inl ⟨rfl, by simp⟩
  | reap c => obtain ⟨-, rfl⟩ := reap_step h; exact .inl ⟨rfl, by simp⟩
  | grantAbandoned c =>
    obtain ⟨-, server, -, rfl⟩ := grantAbandoned_step h
    exact .inl ⟨rfl, by simp⟩

def Pc.tenured : Pc → Bool
  | .granted | .activating | .recovered => true
  | _ => false

/-- What the events since the acquisition of the lock are known to contain at
the points around the recovery. -/
def Since (n : ℕ) : Pc → List Event → Prop
  | .activating, zs => .node n .onActivating ∈ zs
  | .recovered, zs => Recovers n zs
  | _, _ => True

theorem Since.snoc {pc : Pc} {zs : List Event} (h : Since n pc zs) (e : Event) :
    Since n pc (zs ++ [e]) := by
  cases pc with
  | activating => exact List.mem_append_left _ h
  | recovered => exact Recovers.snoc h e
  | _ => trivial

def TenureInv (es : List Event) (n : ℕ) (v : Node) : Prop :=
  v.pc.tenured = true → ∃ c, v.db.connection = some c ∧ (∃ zs, Tenure es c zs) ∧
    ∀ zs, Tenure es c zs → Since n v.pc zs

/-- A step from one of the points around the recovery to the next adds its
event to what has followed the acquisition. -/
theorem TenureInv.advance {e : Event} (hi : TenureInv es n (s.nodes n)) (hs : Run es s)
    (hstep : step s e = some t) (hpc : (s.nodes n).pc.tenured = true)
    (hdb : (t.nodes n).db = (s.nodes n).db)
    (hnew : ∀ zs, Since n (s.nodes n).pc zs → Since n (t.nodes n).pc (zs ++ [e])) :
    TenureInv (es ++ [e]) n (t.nodes n) := by
  intro _
  obtain ⟨c, hc, ⟨zs, hzs⟩, hall⟩ := hi hpc
  refine ⟨c, hdb ▸ hc, ⟨zs ++ [e], hzs.snoc e⟩, fun ys hys ↦ ?_⟩
  rcases tenure_snoc hs hstep hys with ⟨ys', rfl, hold⟩ | ⟨-, hacq⟩
  · exact hnew ys' (hall ys' hold)
  · refine absurd hacq (not_acquires hstep (Run.inv hs) hc fun k hk ↦ ?_)
    rw [hk] at hpc
    cases hpc

theorem TenureInv.step {e : Event} (hi : TenureInv es n (s.nodes n)) (hs : Run es s)
    (hstep : step s e = some t) : TenureInv (es ++ [e]) n (t.nodes n) := by
  intro hten
  rcases node_moves hstep n with ⟨hsame, -⟩ | ⟨a, rfl, hacts⟩
  · have hpc : (s.nodes n).pc.tenured = true := by rwa [← hsame]
    exact hi.advance hs hstep hpc (by rw [hsame]) (fun zs hzs ↦ hsame ▸ hzs.snoc e) hten
  · rcases hacts.pc_cases with ⟨hpc, hdb⟩ | hmove
    · exact hi.advance hs hstep (by rwa [← hpc]) hdb (fun zs hzs ↦ hpc ▸ hzs.snoc _) hten
    · cases hpc : (t.nodes n).pc with
      | granted =>
        rw [hpc] at hmove
        obtain ⟨-, howner, hsome⟩ := hmove
        obtain ⟨c, hc⟩ := Option.isSome_iff_exists.mp hsome
        have ht : Run (es ++ [.node n a]) t := exec_snoc.mpr ⟨s, hs, hstep⟩
        exact ⟨c, hc, ht.tenure (howner.symm.trans hc), fun _ _ ↦ trivial⟩
      | activating =>
        rw [hpc] at hmove
        obtain ⟨rfl, hgranted, hdb⟩ := hmove
        have hadv := hi.advance hs hstep (by rw [hgranted]; rfl) hdb
          (fun zs _ ↦ by rw [hpc]; exact List.mem_append_right _ (List.mem_singleton_self _)) hten
        rwa [hpc] at hadv
      | recovered =>
        rw [hpc] at hmove
        obtain ⟨rfl, hact, hdb⟩ := hmove
        have hadv := hi.advance hs hstep (by rw [hact]; rfl) hdb ?_ hten
        · rwa [hpc] at hadv
        · intro zs hzs
          rw [hact] at hzs
          obtain ⟨z₁, z₂, rfl⟩ := List.append_of_mem hzs
          rw [hpc]
          exact ⟨z₁, z₂, [], by simp⟩
      | _ => rw [hpc] at hten; cases hten

theorem Run.tenureInv (h : Run es s) : TenureInv es n (s.nodes n) := by
  refine history (fun es s ↦ TenureInv es n (s.nodes n)) ?_ ?_ h
  · intro hten
    cases hten
  · intro xs u e v hu ih hstep
    exact ih.step hu hstep

/-- Only the store after `onActivating` raises `active`. -/
theorem Acts.raises {a : Action} (h : Acts w n v a v' w') (hi : NodeInv w n v)
    (hbefore : v.active ≤ 0) (hafter : 0 < v'.active) : a = .storeActive ∧ v.pc = .recovered := by
  cases h with
  | storeActive hpc => exact ⟨rfl, hpc⟩
  | stay hpc =>
    have := hi.primary hpc
    omega
  | backup | clearActive => exact absurd hafter (Int.lt_irrefl 0)
  | _ => exact absurd hafter (Int.not_lt.mpr hbefore)

theorem recovery_before_service {e : Event} (h : Run es s) (hstep : step s e = some t)
    (hbefore : (s.nodes n).active ≤ 0) (hafter : 0 < (t.nodes n).active) :
    e = .node n .storeActive ∧ ∃ c, (s.nodes n).db.connection = some c ∧
      (∃ zs, Tenure es c zs) ∧ ∀ zs, Tenure es c zs → Recovers n zs := by
  rcases node_moves hstep n with ⟨hsame, -⟩ | ⟨a, rfl, hacts⟩
  · rw [hsame] at hafter
    omega
  · obtain ⟨rfl, hpc⟩ := hacts.raises (h.inv.nodes n) hbefore hafter
    obtain ⟨c, hc, hten, hall⟩ := h.tenureInv (n := n) (by rw [hpc]; rfl)
    rw [hpc] at hall
    exact ⟨rfl, c, hc, hten, hall⟩

def relapse : List Event :=
  promote 0 ++ ([.begin, .connect true, .hasLock false, .swapActive, .storeCancel, .loadStopped,
    .lockGranted, .onActivating, .activated] : List Action).map (.node 0)

theorem recovery_before_service_relapse : ∃ s t, Run relapse s ∧
    step s (.node 0 .storeActive) = some t ∧ (s.nodes 0).active = 0 ∧ (t.nodes 0).active = 1 ∧
    ∃ c, (s.nodes 0).db.connection = some c ∧ (∃ zs, Tenure relapse c zs) ∧
      ∀ zs, Tenure relapse c zs → Recovers 0 zs := by
  obtain ⟨s, hs, hval⟩ := Option.map_eq_some_iff.mp
    (show (exec step .initial relapse).map (fun s ↦ ((s.nodes 0).active,
      (step s (.node 0 .storeActive)).map fun t ↦ (t.nodes 0).active)) = some (0, some 1) by
      decide +kernel)
  obtain ⟨hbefore, hval⟩ := Prod.mk.inj hval
  obtain ⟨t, ht, hafter⟩ := Option.map_eq_some_iff.mp hval
  refine ⟨s, t, hs, ht, hbefore, hafter, ?_⟩
  exact (recovery_before_service hs ht (by omega) (by omega)).2

end Fireworq.MySQL.Activator
