import Fireworq.Routing.Cache

namespace Fireworq.Routing

open Execution Repository

variable {N : ℕ} {col : FloatColumn} {t t' : Tables} {v v' : Node} {a : Action} {k : ℕ}
  {s s' : State N} {e : Event N} {es : List (Event N)} {r r' : Table String}

def sameTable (r r' : Table String) : Bool :=
  r.entries.all (fun e ↦ r'.lookup e.1 = some e.2) && r'.entries.all fun e ↦ r.lookup e.1 = some e.2

theorem sameTable_iff :
    sameTable r r' = true ↔ ∀ category, r.lookup category = r'.lookup category := by
  simp only [sameTable, Bool.and_eq_true, List.all_eq_true, decide_eq_true_eq]
  constructor
  · rintro ⟨h, h'⟩ category
    cases hr : r.lookup category with
    | some queueName => exact (h ⟨category, queueName⟩ (AList.mem_lookup_iff.mp hr)).symm
    | none =>
      cases hr' : r'.lookup category with
      | none => rfl
      | some queueName =>
        rw [h' ⟨category, queueName⟩ (AList.mem_lookup_iff.mp hr')] at hr
        cases hr
  · intro h
    refine ⟨fun e he ↦ ?_, fun e he ↦ ?_⟩
    · rw [← h]
      exact AList.mem_lookup_iff.mpr he
    · rw [h]
      exact AList.mem_lookup_iff.mpr he

theorem sameTable_refl : sameTable r r = true := sameTable_iff.mpr fun _ ↦ rfl

theorem sameTable_congr (hrows : ∀ category, t.sameRows t' (.routing category) = true)
    (h : sameTable r t.routing = true) : sameTable r t'.routing = true := by
  rw [sameTable_iff] at h ⊢
  intro category
  rw [sameRows_iff.mp (hrows category), h]

def State.Quiet (s : State N) : Prop :=
  ∀ n, (s.nodes n).ops = [] ∧ ((s.nodes n).watcher = .off ∨ (s.nodes n).watcher = .idle)

instance (s : State N) : Decidable s.Quiet :=
  inferInstanceAs (Decidable (∀ n, (s.nodes n).ops = [] ∧
    ((s.nodes n).watcher = .off ∨ (s.nodes n).watcher = .idle)))

def State.Pending (s : State N) : Prop := ∃ n, (s.nodes n).pending = true

instance (s : State N) : Decidable s.Pending :=
  inferInstanceAs (Decidable (∃ n, (s.nodes n).pending = true))

/-- A `FindAll` that stores its rows while the watcher has nothing to notice stores
the rows of the table, and so has the map when the watcher reads its first
revision. -/
def Node.storesCurrent (t : Tables) (v : Node) : Action → Bool
  | .lock k => match v.ops[k]?, v.watcher with
    | some (.storing rows), .idle =>
      v.lastRevision ≠ t.routingRevision || sameTable rows t.routing
    | _, _ => true
  | .readRevision => match v.watcher with
    | .loaded => sameTable v.routings t.routing
    | _ => true
  | _ => true

def Current (s : State N) : Event N → Prop
  | .act n a => ¬ s.Pending → (s.nodes n).storesCurrent s.tables a = true
  | .queue _ => True

instance (s : State N) : (e : Event N) → Decidable (Current s e)
  | .act n a => inferInstanceAs
    (Decidable (¬ s.Pending → (s.nodes n).storesCurrent s.tables a = true))
  | .queue _ => inferInstanceAs (Decidable True)

def Op.routes : Op → Bool
  | .calling c => match c with
    | .routingExists _ _ | .routingInsert _ _ | .routingDelete _ => true
    | _ => false
  | .locking c | .locked c => match c with
    | .routingAddRevision _ _ | .routingDeleteRevision _ => true
    | _ => false
  | .selecting | .storing _ => true

def Node.Routes (v : Node) : Prop := ∀ op ∈ v.ops, op.routes = true

theorem Node.Routes.at {op : Op} (hi : v.Routes) (hk : v.ops[k]? = some op) : op.routes = true :=
  hi op (List.mem_of_getElem? hk)

theorem Node.Routes.set {op : Op} (hi : v.Routes) (hop : op.routes = true) :
    ∀ x ∈ v.ops.set k op, x.routes = true := by
  intro x hx
  rcases List.mem_or_eq_of_mem_set hx with hx | rfl
  · exact hi x hx
  · exact hop

theorem Node.Routes.erase (hi : v.Routes) : ∀ x ∈ v.ops.eraseIdx k, x.routes = true :=
  fun x hx ↦ hi x (List.mem_of_mem_eraseIdx hx)

theorem Node.Routes.acts (hi : v.Routes) (h : Acts col t v a t' v') : v'.Routes := by
  cases h with
  | @call r =>
    intro op hop
    rcases List.mem_append.mp hop with hop | hop
    · exact hi op hop
    · cases List.mem_singleton.mp hop
      cases r <;> rfl
  | @exec _ c _ next hk hx =>
    have hc := hi.at hk
    cases next with
    | inr => exact hi.erase
    | inl c' =>
      refine hi.set ?_
      cases hx <;> first | rfl | cases hc
  | selectRows => exact hi.set rfl
  | @writeMap _ c hk =>
    have hc : (Op.locking c).routes = true := hi.at hk
    exact hi.set hc
  | bump | storeRows => exact hi.erase
  | load | reload | loaded | reloaded | readFirst | readSame | readNew => exact hi

theorem pending_iff :
    v.pending = true ↔ ∃ (j : ℕ) (op : Op), v.ops[j]? = some op ∧ op.pending = true := by
  simp only [Node.pending, List.any_eq_true]
  constructor
  · rintro ⟨op, hop, hp⟩
    obtain ⟨j, hj⟩ := List.getElem?_of_mem hop
    exact ⟨j, op, hj, hp⟩
  · rintro ⟨j, op, hj, hp⟩
    exact ⟨op, List.mem_of_getElem? hj, hp⟩

theorem pending_of_mem {op : Op} (hop : op ∈ v.ops) (hp : op.pending = true) :
    v.pending = true := by
  simp only [Node.pending, List.any_eq_true]
  exact ⟨op, hop, hp⟩

theorem mem_set_self {op op' : Op} {l : List Op} (hk : l[k]? = some op) : op' ∈ l.set k op' :=
  List.mem_set (List.getElem?_eq_some_iff.mp hk).1 _

/-- A call with a revision to update makes it, whatever the other calls do. -/
theorem Acts.pending (hi : v.Routes) (h : Acts col t v a t' v') (hp : v.pending = true) :
    v'.pending = true ∨ t.routingRevision < t'.routingRevision := by
  obtain ⟨j, op, hj, hop⟩ := pending_iff.mp hp
  have hset {k : ℕ} {op' : Op} (hne : k ≠ j) (hv : v'.ops = v.ops.set k op') :
      v'.pending = true := by
    refine pending_iff.mpr ⟨j, op, ?_, hop⟩
    rw [hv, List.getElem?_set_ne hne, hj]
  have herase {k : ℕ} (hne : k ≠ j) (hv : v'.ops = v.ops.eraseIdx k) : v'.pending = true := by
    refine pending_of_mem ?_ hop
    rw [hv]
    exact List.mem_eraseIdx_iff_getElem?.mpr ⟨j, hne.symm, hj⟩
  have hne {k : ℕ} {op' : Op} (hk : v.ops[k]? = some op') (hop' : op'.pending = false) :
      k ≠ j := by
    rintro rfl
    rw [hj] at hk
    cases hk
    rw [hop] at hop'
    cases hop'
  cases h with
  | call =>
    exact .inl (pending_of_mem (List.mem_append_left _ (List.mem_of_getElem? hj)) hop)
  | @exec k _ _ next hk hx =>
    refine .inl ?_
    cases next with
    | inl => exact hset (hne hk rfl) rfl
    | inr => exact herase (hne hk rfl) rfl
  | @bump k c _ _ hk hx =>
    by_cases heq : k = j
    · subst heq
      refine .inr ?_
      have hc : (Op.locked c).routes = true := hi.at hk
      have hrev : t'.routingRevision = t.routingRevision + 1 := by
        cases hx <;> first | rfl | cases hc
      omega
    · exact .inl (herase heq rfl)
  | selectRows hk => exact .inl (hset (hne hk rfl) rfl)
  | writeMap hk => exact .inl (pending_of_mem (mem_set_self hk) rfl)
  | storeRows hk => exact .inl (herase (hne hk rfl) rfl)
  | load | reload | loaded | reloaded | readFirst | readSame | readNew => exact .inl hp

theorem Acts.rows (hi : v.Routes) (h : Acts col t v a t' v') :
    (∀ category, t.sameRows t' (.routing category) = true) ∨ v'.pending = true := by
  have hsame (category : String) : t.sameRows t (.routing category) = true := sameRows_refl
  cases h with
  | @exec k c _ next hk hx =>
    have hc := hi.at hk
    cases hx with
    | routingInsert | routingDelete => exact .inr (pending_of_mem (mem_set_self hk) rfl)
    | routingExists | routingNone | routingSame => exact .inl hsame
    | _ => cases hc
  | @bump k c _ next hk hx =>
    have hc : (Op.locked c).routes = true := hi.at hk
    cases hx with
    | routingAddRevision | routingDeleteRevision => exact .inl hsame
    | _ => cases hc
  | _ => exact .inl hsame

theorem Acts.revision_le (h : Acts col t v a t' v') :
    t.routingRevision ≤ t'.routingRevision := by
  cases h with
  | exec _ hx | bump _ hx => exact hx.revision_le (κ := .routing "")
  | _ => exact le_rfl

/-- What a node relies on: the map when the watcher is in its `select`, and the rows
that the watcher is about to store. -/
def Node.View (t : Tables) (v : Node) : Prop :=
  match v.watcher with
  | .idle => sameTable v.routings t.routing = true
  | .storing rows => sameTable rows t.routing = true
  | _ => True

theorem Node.View.congr (hv : v.View t) (hw : v'.watcher = v.watcher)
    (hr : v'.routings = v.routings)
    (hrows : ∀ category, t.sameRows t' (.routing category) = true) : v'.View t' := by
  unfold Node.View at hv ⊢
  rw [hw]
  split at hv
  · rw [hr]
    exact sameTable_congr hrows hv
  · exact sameTable_congr hrows hv
  · trivial

theorem Node.View.acts (hv : v.View t) (hl : v.lastRevision = t.routingRevision)
    (hc : v.storesCurrent t a = true) (hp : v'.pending = false) (h : Acts col t v a t' v')
    (hrows : ∀ category, t.sameRows t' (.routing category) = true) : v'.View t' := by
  cases h with
  | call | exec | bump | selectRows | readSame => exact hv.congr rfl rfl hrows
  | writeMap hk =>
    rw [pending_of_mem (mem_set_self hk) rfl] at hp
    cases hp
  | @storeRows k rows hk =>
    simp only [Node.storesCurrent, hk] at hc
    unfold Node.View at hv ⊢
    cases hw : v.watcher with
    | idle => simpa [hw, hl] using hc
    | storing =>
      rw [hw] at hv
      exact hv
    | off | loading | loaded | reloading => trivial
  | reload => exact sameTable_refl
  | reloaded hw =>
    rw [Node.View, hw] at hv
    exact hv
  | readFirst hw =>
    rw [Node.storesCurrent, hw] at hc
    exact hc
  | load | loaded | readNew => exact trivial

theorem Acts.lastRevision (h : Acts col t v a t' v') : v'.lastRevision = v.lastRevision ∨
    t' = t ∧ v'.lastRevision = t.routingRevision ∧ (v.storesCurrent t a = true → v'.View t) := by
  cases h with
  | readFirst hw =>
    refine .inr ⟨rfl, rfl, fun hc ↦ ?_⟩
    rw [Node.storesCurrent, hw] at hc
    exact hc
  | readNew => exact .inr ⟨rfl, rfl, fun _ ↦ trivial⟩
  | _ => exact .inl rfl

def WellFormed (s : State N) : Prop := ∀ n, (s.nodes n).Routes

theorem wellFormed_step (hi : WellFormed s) (h : step col s e = some s') : WellFormed s' := by
  intro n
  rcases node_step h n with ⟨a, -, ha⟩ | heq
  · exact (hi n).acts ha
  · rw [heq]
    exact hi n

theorem pending_step (hi : WellFormed s) (h : step col s e = some s') (hp : s.Pending) :
    s'.Pending ∨ s.tables.routingRevision < s'.tables.routingRevision := by
  obtain ⟨n, hp⟩ := hp
  rcases node_step h n with ⟨a, -, ha⟩ | heq
  · exact (ha.pending (hi n) hp).imp_left fun hp ↦ ⟨n, hp⟩
  · exact .inl ⟨n, heq ▸ hp⟩

theorem rows_step (hi : WellFormed s) (h : step col s e = some s') (hp : ¬ s'.Pending)
    (category : String) : s.tables.sameRows s'.tables (.routing category) = true := by
  cases step_steps h with
  | @act n a t v ha =>
    refine (ha.rows (hi n)).resolve_right (fun hpn ↦ hp ⟨n, ?_⟩) category
    simpa only [Function.update_self] using hpn
  | queue hc hx =>
    refine hx.sameRows fun hκ ↦ ?_
    simp [isQueueCall, hκ] at hc

theorem revision_step (h : step col s e = some s') :
    s.tables.routingRevision ≤ s'.tables.routingRevision := by
  cases step_steps h with
  | act ha => exact ha.revision_le
  | queue _ hx => exact hx.revision_le (κ := .routing "")

theorem view_step {n : Fin N} (hi : WellFormed s) (hc : Current s e)
    (h : step col s e = some s') (hp : ¬ s.Pending) (hp' : ¬ s'.Pending)
    (hl : (s.nodes n).lastRevision = s.tables.routingRevision)
    (hv : (s.nodes n).View s.tables) : (s'.nodes n).View s'.tables := by
  have hrows := rows_step hi h hp'
  rcases node_step h n with ⟨a, rfl, ha⟩ | heq
  · refine hv.acts hl (hc hp) ?_ ha hrows
    exact Bool.eq_false_iff.mpr fun hpn ↦ hp' ⟨n, hpn⟩
  · rw [heq]
    exact hv.congr rfl rfl hrows

theorem routings_tracked (n : Fin N) :
    Revision.Tracks (step col) Current WellFormed State.Pending
      (fun s ↦ (s.nodes n).View s.tables) (fun s ↦ s.tables.routingRevision)
      (fun s ↦ (s.nodes n).lastRevision) where
  keeps _ _ _ hi _ h := wellFormed_step hi h
  grows _ _ _ h := revision_step h
  bumps _ _ _ hi _ h hp := pending_step hi h hp
  reads s e s' hi hc h := by
    rcases node_step h n with ⟨a, rfl, ha⟩ | heq
    · refine ha.lastRevision.imp_right fun ⟨ht, hl, hv⟩ ↦ ?_
      rw [ht]
      refine ⟨hl, fun hp' ↦ hv (hc fun hp ↦ ?_)⟩
      rcases pending_step hi h hp with hp | hlt
      · exact hp' hp
      · rw [ht] at hlt
        exact Nat.lt_irrefl _ hlt
    · exact .inl (congrArg Node.lastRevision heq)
  follows _ _ _ hi hc h hp hp' hl hv := view_step hi hc h hp hp' hl hv

/-- If no stale rows are stored in a node that is up to date, a node that has read
the stored revision has the stored routings whenever no operation is in
progress. -/
theorem routings_converge {t : Tables} (h : Run col t es s)
    (hc : Along (step col) Current (.initial t) es) (hq : s.Quiet) {n : Fin N}
    (hidle : (s.nodes n).watcher = .idle)
    (hr : (s.nodes n).lastRevision = s.tables.routingRevision) (category : String) :
    (s.nodes n).routings.lookup category = s.tables.routing.lookup category ∧
      (s.nodes n).findQueueNameByJobCategory category =
        (s.tables.routing.lookup category).getD "" := by
  have hp : ¬ s.Pending := by
    rintro ⟨m, hp⟩
    rw [Node.pending, (hq m).1] at hp
    cases hp
  have hview : (s.nodes n).View s.tables := (routings_tracked n).view hc h
    (fun _ _ hop ↦ by cases hop) (Nat.zero_le _) trivial hp hr
  rw [Node.View, hidle] at hview
  have hlookup := sameTable_iff.mp hview category
  exact ⟨hlookup, congrArg (Option.getD · "") hlookup⟩

def oneQueue : Tables :=
  { Tables.empty with queue := (∅ : Table QueueRow).insert "default" ⟨100, 20⟩ }

def bootActions : List Action := [.select, .store, .readRevision]

def addActions : List Action :=
  [.call (.add "mail" "default"), .exec 0, .exec 0, .lock 0, .exec 0]

def noticed : List (Event 2) :=
  bootActions.map (.act 0) ++ bootActions.map (.act 1) ++ addActions.map (.act 0) ++
    [Action.call .findAll, .exec 0, .lock 0, .readRevision, .select, .store].map (.act 1)

theorem routings_converge_noticed : ∃ s : State 2, Run .exact oneQueue noticed s ∧ s.Quiet ∧
    (s.nodes 1).routings.lookup "mail" = s.tables.routing.lookup "mail" ∧
      (s.nodes 1).findQueueNameByJobCategory "mail" =
        (s.tables.routing.lookup "mail").getD "" := by
  obtain ⟨s, h, hs⟩ := Option.map_eq_some_iff.mp
    (show (exec (step .exact) (.initial oneQueue) noticed).map (fun s : State 2 ↦
      (decide s.Quiet, (s.nodes 1).watcher, (s.nodes 1).lastRevision, s.tables.routingRevision)) =
      some (true, .idle, 1, 1) by decide +kernel)
  simp only [Prod.mk.injEq, decide_eq_true_eq] at hs
  obtain ⟨hq, hw, hl, hr⟩ := hs
  have hc : Along (step .exact) Current (.initial oneQueue) noticed := by decide +kernel
  exact ⟨s, h, hq, routings_converge h hc hq hw (hl.trans hr.symm) "mail"⟩

/-- A `FindAll` stores its rows after `Add` has updated the revision and the watcher
has reloaded. -/
def staleRows : List (Event 1) :=
  bootActions.map (.act 0) ++
    [Action.call .findAll, .exec 0, .call (.add "mail" "default"), .exec 1, .exec 1, .lock 1,
      .exec 1, .readRevision, .select, .store, .lock 0].map (.act 0)

/-- `Add` updates the revision after `NewRoutingRepository` of another node has
loaded its map and before the watcher of that node reads its first revision. -/
def staleStart : List (Event 2) :=
  bootActions.map (.act 0) ++ [Action.select, .store].map (.act 1) ++ addActions.map (.act 0) ++
    [.act 1 .readRevision]

theorem stale_rows_stay :
    (∃ s : State 1, Run .exact oneQueue staleRows s ∧ s.Quiet ∧ (s.nodes 0).watcher = .idle ∧
      (s.nodes 0).lastRevision = s.tables.routingRevision ∧
      (s.nodes 0).routings.lookup "mail" = none ∧
      s.tables.routing.lookup "mail" = some "default") ∧
    ∃ s : State 2, Run .exact oneQueue staleStart s ∧ s.Quiet ∧ (s.nodes 1).watcher = .idle ∧
      (s.nodes 1).lastRevision = s.tables.routingRevision ∧
      (s.nodes 1).routings.lookup "mail" = none ∧
      s.tables.routing.lookup "mail" = some "default" := by
  constructor
  · obtain ⟨s, h, hs⟩ := Option.map_eq_some_iff.mp
      (show (exec (step .exact) (.initial oneQueue) staleRows).map (fun s : State 1 ↦
        decide (s.Quiet ∧ (s.nodes 0).watcher = .idle ∧
          (s.nodes 0).lastRevision = s.tables.routingRevision ∧
          (s.nodes 0).routings.lookup "mail" = none ∧
          s.tables.routing.lookup "mail" = some "default")) = some true by decide +kernel)
    exact ⟨s, h, of_decide_eq_true hs⟩
  · obtain ⟨s, h, hs⟩ := Option.map_eq_some_iff.mp
      (show (exec (step .exact) (.initial oneQueue) staleStart).map (fun s : State 2 ↦
        decide (s.Quiet ∧ (s.nodes 1).watcher = .idle ∧
          (s.nodes 1).lastRevision = s.tables.routingRevision ∧
          (s.nodes 1).routings.lookup "mail" = none ∧
          s.tables.routing.lookup "mail" = some "default")) = some true by decide +kernel)
    exact ⟨s, h, of_decide_eq_true hs⟩

end Fireworq.Routing
