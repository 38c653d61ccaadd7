import Fireworq.Repository.Calls

namespace Fireworq.Repository

open Execution

def Call.between (κ : Key) : Call → Bool
  | .addThrottle q _ => κ = .queue q.name
  | _ => false

/-- Giving up the call is harmless: an `Add` has changed no row yet, and no
`Add` is between its statements on the rows that a `Delete` is about. -/
def State.spares (s : State) (c : Call) : Bool :=
  if c.isAdd then !c.owes
  else match c.key with
    | some κ => s.calls.all fun c' ↦ !c'.between κ
    | none => true

def Call.idle (col : FloatColumn) (t : Tables) (c : Call) : Bool :=
  match c.exec col t, c.key with
  | some p, some κ => t.sameRows p.1 κ
  | _, _ => true

/-- What may fail: calls that may be given up, and the answer to an update of a
revision. -/
def Cautious (col : FloatColumn) (s : State) : Event → Prop
  | .call _ | .exec _ => True
  | .fail k => ∀ c ∈ s.calls[k]?, s.spares c = true
  | .lose k => ∀ c ∈ s.calls[k]?, c.isRevision = true ∨
    s.spares c = true ∧ (c.isAdd = true → c.idle col s.tables = true)

instance (col : FloatColumn) (s : State) : (e : Event) → Decidable (Cautious col s e)
  | .call _ | .exec _ => isTrue trivial
  | .fail k => inferInstanceAs (Decidable (∀ c ∈ s.calls[k]?, s.spares c = true))
  | .lose k => inferInstanceAs (Decidable (∀ c ∈ s.calls[k]?, c.isRevision = true ∨
    s.spares c = true ∧ (c.isAdd = true → c.idle col s.tables = true)))

def State.Dirty (s : State) (κ : Key) : Prop :=
  ∃ r, s.changedAt κ = some r ∧ s.tables.revision κ ≤ r

variable {col : FloatColumn} {s s' : State} {e : Event} {es : List Event} {t : Tables}
  {c : Call} {next : Call ⊕ Result} {r : Result} {κ : Key} {xs ys : List Call}

/-- Who makes up for a change that has no new revision yet. -/
structure Repairable (s : State) : Prop where
  le : ∀ κ r, s.changedAt κ = some r → r ≤ s.tables.revision κ
  owed : ∀ κ, s.Dirty κ →
    (∃ c ∈ s.calls, c.key = some κ ∧ c.owes = true) ∨ s.latest κ = some false
  gap : ∀ κ, s.Dirty κ →
    (∃ c ∈ s.calls, c.key = some κ ∧ c.owes = true ∧ c.isAdd = true) ∨ s.tables.gap κ
  between : ∀ q, Call.addThrottle q false ∈ s.calls → s.Dirty (.queue q.name) →
    s.tables.queue.lookup q.name ≠ none ∨
      ∃ c ∈ s.calls, c.key = some (.queue q.name) ∧ c.owes = true

theorem initial_repairable : Repairable (.initial t) :=
  ⟨nofun, nofun, nofun, nofun⟩

theorem dirty_reply (hle : ∀ κ r, s.changedAt κ = some r → r ≤ s.tables.revision κ)
    (hmono : s.tables.revision κ ≤ t.revision κ) (hd : (s.reply xs ys c t next).Dirty κ) :
    s.tables.sameRows t κ = false ∨
      s.tables.sameRows t κ = true ∧ s.Dirty κ ∧ t.revision κ = s.tables.revision κ := by
  obtain ⟨r, hr, hrev⟩ := hd
  simp only [State.reply] at hr hrev
  split at hr
  · rename_i hsame
    have hle := hle κ r hr
    exact .inr ⟨hsame, ⟨r, hr, by omega⟩, by omega⟩
  · rename_i hsame
    exact .inl (by simpa using hsame)

theorem reply_le (hle : ∀ κ r, s.changedAt κ = some r → r ≤ s.tables.revision κ)
    (hmono : s.tables.revision κ ≤ t.revision κ) {r : ℕ}
    (hr : (s.reply xs ys c t next).changedAt κ = some r) : r ≤ t.revision κ := by
  simp only [State.reply] at hr
  split at hr
  · exact (hle κ r hr).trans hmono
  · cases hr
    exact le_rfl

/-- A call that owes an update goes on to owe it, as long as it is not made. -/
theorem owing_exec (hs : s.calls = xs ++ c :: ys) (hx : Executes col s.tables c t next)
    (hrev : t.revision κ = s.tables.revision κ) {d : Call} (hd : d ∈ s.calls)
    (hκ : d.key = some κ) (ho : d.owes = true) :
    ∃ d' ∈ succeed xs next ys, d'.key = some κ ∧ d'.owes = true ∧ d'.isAdd = d.isAdd := by
  rw [hs, List.mem_append, List.mem_cons] at hd
  rcases hd with hd | rfl | hd
  · exact ⟨d, mem_succeed.mpr (.inl hd), hκ, ho, rfl⟩
  · cases next with
    | inl c' =>
      obtain ⟨hkey, hadd, howes⟩ := hx.follow
      exact ⟨c', mem_succeed.mpr (.inr (.inl rfl)), hkey.trans hκ, howes ho, hadd⟩
    | inr r =>
      have hbump := hx.bump ho hκ
      omega
  · exact ⟨d, mem_succeed.mpr (.inr (.inr hd)), hκ, ho, rfl⟩

theorem owing_changed (hx : Executes col s.tables c t next)
    (hsame : s.tables.sameRows t κ = false) :
    ∃ d ∈ succeed xs next ys, d.key = some κ ∧ d.owes = true ∧ d.isAdd = c.isAdd := by
  obtain ⟨hkey, -, ⟨c', rfl, ho⟩, -⟩ := hx.change hsame
  obtain ⟨hkey', hadd, -⟩ := hx.follow
  exact ⟨c', mem_succeed.mpr (.inr (.inl rfl)), hkey'.trans hkey, ho, hadd⟩

/-- An `Add` that returns without an update leaves no dirty rows to itself. -/
theorem Repairable.unowed (hi : Repairable s) (hx : Executes col s.tables c t (.inr r))
    (hs : s.calls = xs ++ c :: ys) (hok : r.ok = true) (hκ : c.key = some κ)
    (ho : c.owes = false) (hd : s.Dirty κ) :
    ∃ d ∈ succeed xs (.inr r) ys, d.key = some κ ∧ d.owes = true := by
  obtain ⟨rfl, -, hgap⟩ := hx.same hok ho hκ
  have hother {d : Call} (hd : d ∈ s.calls) (hdκ : d.key = some κ) (hdo : d.owes = true) :
      ∃ d ∈ succeed xs (.inr r) ys, d.key = some κ ∧ d.owes = true := by
    obtain ⟨d', hd', hκ', ho', -⟩ := owing_exec hs hx rfl hd hdκ hdo
    exact ⟨d', hd', hκ', ho'⟩
  rcases hi.gap κ hd with ⟨d, hdmem, hdκ, hdo, -⟩ | hg
  · exact hother hdmem hdκ hdo
  · obtain ⟨q, rfl, rfl, hnone⟩ := hgap hg
    rcases hi.between q (by rw [hs]; simp) hd with hsome | ⟨d, hdmem, hdκ, hdo⟩
    · exact absurd hnone hsome
    · exact hother hdmem hdκ hdo

theorem Repairable.exec (hi : Repairable s) (hs : s.calls = xs ++ c :: ys)
    (hx : Executes col s.tables c t next) :
    Repairable (s.reply xs ys c t next) where
  le κ r hr := reply_le hi.le hx.revision_le hr
  owed κ hd := by
    rcases dirty_reply hi.le hx.revision_le hd with hsame | ⟨-, hdirty, hrev⟩
    · obtain ⟨d, hd, hκ, ho, -⟩ := owing_changed hx hsame
      exact .inl ⟨d, hd, hκ, ho⟩
    · rcases hi.owed κ hdirty with ⟨d, hdmem, hκ, ho⟩ | hlatest
      · obtain ⟨d', hd', hκ', ho', -⟩ := owing_exec hs hx hrev hdmem hκ ho
        exact .inl ⟨d', hd', hκ', ho'⟩
      · cases next with
        | inl c' => exact .inr hlatest
        | inr r =>
          by_cases hκ : c.key = some κ
          · cases hok : r.ok with
            | false => exact .inr (by simp [State.reply, settle, hκ, hok])
            | true =>
              cases ho : c.owes with
              | true =>
                have hbump := hx.bump ho hκ
                omega
              | false => exact .inl (hi.unowed hx hs hok hκ ho hdirty)
          · exact .inr (by simp [State.reply, settle, hκ, hlatest])
  gap κ hd := by
    rcases dirty_reply hi.le hx.revision_le hd with hsame | ⟨hsame, hd, hrev⟩
    · rcases (hx.change hsame).2.2.2 with hadd | hgap
      · obtain ⟨d, hd, hκ, ho, hadd'⟩ := owing_changed hx hsame
        exact .inl ⟨d, hd, hκ, ho, hadd'.trans hadd⟩
      · exact .inr hgap
    · rcases hi.gap κ hd with ⟨d, hdmem, hκ, ho, hadd⟩ | hgap
      · obtain ⟨d', hd', hκ', ho', hadd'⟩ := owing_exec hs hx hrev hdmem hκ ho
        exact .inl ⟨d', hd', hκ', ho', hadd'.trans hadd⟩
      · exact .inr (gap_of_sameRows hsame hgap)
  between q hq hd := by
    rcases dirty_reply hi.le hx.revision_le hd with hsame | ⟨hsame, hd, hrev⟩
    · obtain ⟨d, hd, hκ, ho, -⟩ := owing_changed hx hsame
      exact .inr ⟨d, hd, hκ, ho⟩
    · have hold (hq : Call.addThrottle q false ∈ s.calls) :
          t.queue.lookup q.name ≠ none ∨
            ∃ c ∈ succeed xs next ys, c.key = some (.queue q.name) ∧ c.owes = true := by
        rcases hi.between q hq hd with hrow | ⟨d, hdmem, hκ, ho⟩
        · rw [sameRows_iff] at hsame
          exact .inl (by rwa [hsame.1])
        · obtain ⟨d', hd', hκ', ho', -⟩ := owing_exec hs hx hrev hdmem hκ ho
          exact .inr ⟨d', hd', hκ', ho'⟩
      rcases mem_succeed.mp hq with hq | rfl | hq
      · exact hold (by rw [hs]; simp [hq])
      · generalize hnext : Call.addThrottle q false = c' at hx
        cases hx with
        | addQueue hrow =>
          injection hnext with hq hflag
          subst hq
          exact .inl (ne_of_eq_of_ne lookup_upsert (Option.some_ne_none _))
        | _ => cases hnext
      · exact hold (by rw [hs]; simp [hq])

theorem owes_of_spares (h : s.spares c = true) (hadd : c.isAdd = true) : c.owes = false := by
  simpa [State.spares, hadd] using h

theorem notMem_of_spares (h : s.spares c = true) (hadd : c.isAdd = false) {q : Queue}
    {updated : Bool} (hκ : c.key = some (.queue q.name)) :
    Call.addThrottle q updated ∉ s.calls := by
  intro hq
  simp only [State.spares, hadd, hκ, Bool.false_eq_true, if_false, List.all_eq_true] at h
  have hbetween := h _ hq
  simp [Call.between] at hbetween

theorem Repairable.abandon (hi : Repairable s) (hs : s.calls = xs ++ c :: ys)
    (hmono : ∀ κ, s.tables.revision κ ≤ t.revision κ)
    (hchange : ∀ κ, s.tables.sameRows t κ = false →
      c.key = some κ ∧ c.isAdd = false ∧ t.revision κ = s.tables.revision κ ∧ t.gap κ)
    (hspares : ∀ κ, c.key = some κ → t.revision κ = s.tables.revision κ → s.spares c = true) :
    Repairable (s.reply xs ys c t (.inr .failed)) := by
  have hlatest {κ : Key} (hκ : c.key = some κ) :
      (s.reply xs ys c t (.inr .failed)).latest κ = some false := by
    simp [State.reply, settle, hκ, Result.ok]
  refine ⟨fun κ r hr ↦ reply_le hi.le (hmono κ) hr, fun κ hd ↦ ?_, fun κ hd ↦ ?_,
    fun q hq hd ↦ ?_⟩
  · by_cases hκ : c.key = some κ
    · exact .inr (hlatest hκ)
    · rcases dirty_reply hi.le (hmono κ) hd with hsame | ⟨-, hdirty, -⟩
      · exact absurd (hchange κ hsame).1 hκ
      · rcases hi.owed κ hdirty with ⟨d, hdmem, hdκ, ho⟩ | hl
        · exact .inl ⟨d, mem_succeed_of_ne hs hdmem (by rintro rfl; exact hκ hdκ), hdκ, ho⟩
        · exact .inr (by simp [State.reply, settle, hκ, hl])
  · rcases dirty_reply hi.le (hmono κ) hd with hsame | ⟨hsame, hdirty, hrev⟩
    · exact .inr (hchange κ hsame).2.2.2
    · rcases hi.gap κ hdirty with ⟨d, hdmem, hdκ, ho, hadd⟩ | hgap
      · refine .inl ⟨d, mem_succeed_of_ne hs hdmem ?_, hdκ, ho, hadd⟩
        rintro rfl
        rw [owes_of_spares (hspares κ hdκ hrev) hadd] at ho
        cases ho
      · exact .inr (gap_of_sameRows hsame hgap)
  · have hold := (mem_of_succeed hs hq nofun).2
    rcases dirty_reply hi.le (hmono _) hd with hsame | ⟨hsame, hdirty, hrev⟩
    · obtain ⟨hκ, hadd, hrev, -⟩ := hchange _ hsame
      exact absurd hold (notMem_of_spares (hspares _ hκ hrev) hadd hκ)
    · rcases hi.between q hold hdirty with hrow | ⟨d, hdmem, hdκ, ho⟩
      · rw [sameRows_iff] at hsame
        exact .inl (ne_of_eq_of_ne hsame.1 hrow)
      · refine .inr ⟨d, mem_succeed_of_ne hs hdmem ?_, hdκ, ho⟩
        rintro rfl
        have hsp := hspares _ hdκ hrev
        cases hadd : d.isAdd with
        | true =>
          rw [owes_of_spares hsp hadd] at ho
          cases ho
        | false => exact absurd hold (notMem_of_spares hsp hadd hdκ)

theorem Repairable.step (hi : Repairable s) (hc : Cautious col s e)
    (h : step col s e = some s') : Repairable s' := by
  cases step_moves h with
  | @call c hfirst =>
    have hsub {d : Call} (hd : d ∈ s.calls) : d ∈ s.calls ++ [c] := List.mem_append_left _ hd
    refine ⟨hi.le, fun κ hd ↦ ?_, fun κ hd ↦ ?_, fun q hq hd ↦ ?_⟩
    · exact (hi.owed κ hd).imp_left fun ⟨d, hdmem, hd⟩ ↦ ⟨d, hsub hdmem, hd⟩
    · exact (hi.gap κ hd).imp_left fun ⟨d, hdmem, hd⟩ ↦ ⟨d, hsub hdmem, hd⟩
    · rcases List.mem_append.mp hq with hq | hq
      · exact (hi.between q hq hd).imp_right fun ⟨d, hdmem, hd⟩ ↦ ⟨d, hsub hdmem, hd⟩
      · cases List.mem_singleton.mp hq
        cases hfirst
  | exec _ hs he => exact hi.exec hs (exec_executes he)
  | fail hk hs =>
    refine hi.abandon hs (fun _ ↦ le_rfl) (fun κ hsame ↦ ?_) fun _ _ _ ↦ hc _ hk
    rw [sameRows_refl] at hsame
    cases hsame
  | @lose _ _ _ c t next hk hs he =>
    have hx := exec_executes he
    refine hi.abandon hs (fun _ ↦ hx.revision_le) (fun κ hsame ↦ ?_) fun κ hκ hrev ↦ ?_
    · obtain ⟨hκ, hrev, -, hgap⟩ := hx.change hsame
      have hadd : c.isAdd = false := by
        rcases hc _ hk with hr | ⟨-, hidle⟩
        · have hbump := hx.revision hr hκ
          omega
        · by_contra hadd
          have hidle := hidle (by simpa using hadd)
          simp only [Call.idle, he, hκ] at hidle
          rw [hsame] at hidle
          cases hidle
      exact ⟨hκ, hadd, hrev, hgap.resolve_left (by simp [hadd])⟩
    · rcases hc _ hk with hr | ⟨hspares, -⟩
      · have hbump := hx.revision hr hκ
        omega
      · exact hspares

/-- If nothing fails but what may fail, a nil error means that the last change
to the rows has a newer revision. -/
theorem nil_error_means_bumped (h : Run col t es s)
    (hc : Along (step col) (Cautious col) (.initial t) es) (hquiet : s.calls = [])
    (hnil : s.latest κ = some true) {r : ℕ} (hr : s.changedAt κ = some r) :
    r < s.tables.revision κ := by
  have hi : Repairable s := hc.invariant Repairable (fun _ _ _ hi hc h ↦ hi.step hc h) h
    initial_repairable
  by_contra hlt
  rcases hi.owed κ ⟨r, hr, by omega⟩ with ⟨d, hd, -⟩ | hlatest
  · rw [hquiet] at hd
    cases hd
  · rw [hnil] at hlatest
    cases hlatest

def sample : Queue := ⟨"mail", 100, 2, 0, 0⟩

def retriedDelete : List Event :=
  [.call (.addQueue sample), .exec 0, .exec 0, .exec 0, .call (.deleteQueue "mail"), .exec 0,
    .fail 0, .call (.deleteQueue "mail"), .exec 0, .exec 0, .exec 0]

theorem nil_error_means_bumped_delete :
    ∃ s, Run .exact .empty retriedDelete s ∧
      Along (step .exact) (Cautious .exact) (.initial .empty) retriedDelete ∧ s.calls = [] ∧
      s.latest (.queue "mail") = some true ∧ s.changedAt (.queue "mail") = some 1 ∧
      1 < s.tables.revision (.queue "mail") := by
  obtain ⟨s, h, hs⟩ := Option.map_eq_some_iff.mp
    (show (exec (step .exact) (.initial .empty) retriedDelete).map
      (fun s ↦ (s.calls, s.latest (.queue "mail"), s.changedAt (.queue "mail"))) =
        some ([], some true, some 1) by decide +kernel)
  simp only [Prod.mk.injEq] at hs
  obtain ⟨hquiet, hnil, hr⟩ := hs
  have hc : Along (step .exact) (Cautious .exact) (.initial .empty) retriedDelete := by
    decide +kernel
  exact ⟨s, h, hc, hquiet, hnil, hr, nil_error_means_bumped h hc hquiet hnil hr⟩

def retriedAdd : List Event :=
  [.call (.addQueue sample), .exec 0, .exec 0, .fail 0, .call (.addQueue sample), .exec 0, .exec 0]

def retriedRouting : List Event :=
  [.call (.addQueue sample), .exec 0, .exec 0, .exec 0, .call (.routingExists "send" "mail"),
    .exec 0, .exec 0, .fail 0, .call (.routingExists "send" "mail"), .exec 0, .exec 0]

theorem retried_add_not_bumped :
    (∃ s, Run .exact .empty retriedAdd s ∧ s.calls = [] ∧
      s.latest (.queue "mail") = some true ∧ s.changedAt (.queue "mail") = some 0 ∧
      s.tables.revision (.queue "mail") = 0) ∧
    ∃ s, Run .exact .empty retriedRouting s ∧ s.calls = [] ∧
      s.latest (.routing "send") = some true ∧ s.changedAt (.routing "send") = some 0 ∧
      s.tables.revision (.routing "send") = 0 := by
  have hview (es : List Event) (κ : Key)
      (hes : (exec (step .exact) (.initial .empty) es).map (fun s ↦ (s.calls, s.latest κ,
        s.changedAt κ, s.tables.revision κ)) = some ([], some true, some 0, 0)) :
      ∃ s, Run .exact .empty es s ∧ s.calls = [] ∧ s.latest κ = some true ∧
        s.changedAt κ = some 0 ∧ s.tables.revision κ = 0 := by
    obtain ⟨s, h, hs⟩ := Option.map_eq_some_iff.mp hes
    simp only [Prod.mk.injEq] at hs
    exact ⟨s, h, hs⟩
  exact ⟨hview _ _ (by decide +kernel), hview _ _ (by decide +kernel)⟩

end Fireworq.Repository
