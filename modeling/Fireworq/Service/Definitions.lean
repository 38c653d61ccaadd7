import Fireworq.Service.Cluster

namespace Fireworq.Service

open Execution Repository
open Dispatcher (System)

variable {N : ℕ} {cfg : Config} {col : FloatColumn} {t t' : Tables} {v v' : Node} {a : Action}
  {s s' : State N} {e : Event N} {es : List (Event N)}

def Tables.holds (col : FloatColumn) (t : Tables) (q : Queue) : Bool :=
  match q.row, q.throttleRow col with
  | some row, some trow =>
    t.queue.lookup q.name = some row ∧ t.queueThrottle.lookup q.name = some trow
  | _, _ => false

def Node.inSync (cfg : Config) (col : FloatColumn) (t : Tables) (v : Node) : Action → Bool
  | .advance => match v.holder with
    | some ⟨.add q, .awaitReaders⟩ => match cfg.prepare q with
      | .ok q' => !Tables.holds col t q' || v.runs q'.name = some q'
      | .error _ => true
    | _ => true
  | _ => true

def Node.adding (v : Node) (κ : Key) : Bool :=
  match v.holder with
  | some ⟨.add q, _⟩ => κ = .queue q.name
  | _ => false

def Node.writes (v : Node) : Action → Option Key
  | .exec | .lose => match v.holder with
    | some ⟨_, .calling c⟩ => c.key
    | _ => none
  | _ => none

/-- The node of an `AddJobQueue` has noticed what other nodes have defined, and no
other node is about to write the rows that it is defining. -/
def Undisturbed (cfg : Config) (col : FloatColumn) (s : State N) (e : Event N) : Prop :=
  (s.nodes e.node).inSync cfg col s.tables e.action = true ∧
    ∀ κ ∈ (s.nodes e.node).writes e.action, ∀ n, n ≠ e.node → (s.nodes n).adding κ = false

instance (cfg : Config) (col : FloatColumn) (s : State N) (e : Event N) :
    Decidable (Undisturbed cfg col s e) :=
  inferInstanceAs (Decidable (_ ∧ ∀ κ ∈ (s.nodes e.node).writes e.action, ∀ _, _ → _))

theorem holds_iff {q : Queue} : Tables.holds col t q = true ↔
    ∃ row trow, q.row = some row ∧ q.throttleRow col = some trow ∧
      t.queue.lookup q.name = some row ∧ t.queueThrottle.lookup q.name = some trow := by
  unfold Tables.holds
  split
  · rename_i row trow hrow htrow
    simp [hrow, htrow]
  · rename_i hnone
    simp only [Bool.false_eq_true, false_iff]
    rintro ⟨row, trow, hrow, htrow, -⟩
    exact hnone row trow hrow htrow

theorem holds_congr {q : Queue} (h : t.sameRows t' (.queue q.name) = true) :
    Tables.holds col t' q = Tables.holds col t q := by
  rw [sameRows_iff] at h
  simp only [Tables.holds, h.1, h.2]

/-- What is known while `AddJobQueue` runs. The first statement has left the tables
as they were if it affected no row. -/
def Adding (cfg : Config) (col : FloatColumn) (t : Tables) (v : Node) (q : Queue) : Pc → Prop
  | .lockJob | .awaitReaders | .returning false => True
  | .calling (.addQueue q') =>
    cfg.prepare q = .ok q' ∧ (Tables.holds col t q' = true → v.runs q'.name = some q')
  | .calling (.addThrottle q' updated) => cfg.prepare q = .ok q' ∧ (updated = false →
    (∃ row, q'.row = some row ∧ t.queue.lookup q'.name = some row) ∧
      (Tables.holds col t q' = true → v.runs q'.name = some q'))
  | .calling (.addRevision q') | .putting q' none | .stopping _ _ (some q') none =>
    cfg.prepare q = .ok q'
  | .returning true => ∃ q', cfg.prepare q = .ok q' ∧ v.runs q'.name = some q'
  | _ => False

def AddInv (cfg : Config) (col : FloatColumn) (t : Tables) (v : Node) : Prop :=
  ∀ q pc, v.holder = some ⟨.add q, pc⟩ → Adding cfg col t v q pc

theorem Adding.congr {q : Queue} {pc : Pc} (h : Adding cfg col t v q pc)
    (hruns : v'.runs = v.runs) : Adding cfg col t v' q pc := by
  unfold Adding at h ⊢
  rwa [hruns]

theorem Adding.sameRows {q : Queue} {pc : Pc} (h : Adding cfg col t v q pc)
    (hsame : t.sameRows t' (.queue q.name) = true) : Adding cfg col t' v q pc := by
  cases pc with
  | calling c =>
    cases c with
    | addQueue q' =>
      refine ⟨h.1, ?_⟩
      rw [holds_congr (prepare_name h.1 ▸ hsame)]
      exact h.2
    | addThrottle q' updated =>
      refine ⟨h.1, fun hu ↦ ?_⟩
      have hsame : t.sameRows t' (.queue q'.name) = true := prepare_name h.1 ▸ hsame
      rw [holds_congr hsame, (sameRows_iff.mp hsame).1]
      exact h.2 hu
    | _ => exact h
  | putting _ rest => cases rest <;> exact h
  | stopping _ _ q' rest => cases q' <;> cases rest <;> exact h
  | returning ok => cases ok <;> exact h
  | _ => exact h

theorem AddInv.goto {task : Task} {pc pc' : Pc} (hi : AddInv cfg col t v)
    (hh : v.holder = some ⟨task, pc⟩) (hh' : v'.holder = some ⟨task, pc'⟩)
    (hc : ∀ q, Adding cfg col t v q pc → Adding cfg col t' v' q pc') : AddInv cfg col t' v' := by
  intro q pc'' hh''
  rw [hh'] at hh''
  cases hh''
  exact hc q (hi q pc hh)

theorem AddInv.lockedJob {task : Task} (hh : v.holder = some ⟨task, .awaitReaders⟩)
    (hsync : v.inSync cfg col t .advance = true) : AddInv cfg col t (v.lockedJob cfg task) := by
  intro q pc hh'
  cases task with
  | add q =>
    simp only [Node.inSync, hh] at hsync
    simp only [Node.lockedJob] at hh' ⊢
    split at hh'
    · rename_i q' hq'
      cases hh'
      simp only [hq', Bool.or_eq_true, Bool.not_eq_true', decide_eq_true_eq] at hsync
      refine ⟨hq', fun hholds ↦ ?_⟩
      exact hsync.resolve_left (by simp [hholds])
    · cases hh'
      exact trivial
  | delete | push | reload | startup => cases hh'

theorem AddInv.returned {task : Task} {c : Call} {r : Result} (hi : AddInv cfg col t v)
    (hh : v.holder = some ⟨task, .calling c⟩) (hx : Executes col t c t' (.inr r)) :
    AddInv cfg col t' (v.returned task c r) := by
  cases hx with
  | addSame hrow hsame =>
    refine hi.goto hh rfl fun q h ↦ ?_
    obtain ⟨⟨row, hq, hlookup⟩, hruns⟩ := h.2 rfl
    exact ⟨_, h.1, hruns (holds_iff.mpr ⟨row, _, hq, hrow, hlookup, hsame⟩)⟩
  | addRevision => exact hi.goto hh rfl fun q h ↦ h
  | _ => exact hi.goto hh rfl fun q h ↦ h.elim

theorem AddInv.failed {task : Task} {c : Call} (hi : AddInv cfg col t v)
    (hh : v.holder = some ⟨task, .calling c⟩) :
    AddInv cfg col t' (v.returned task c .failed) := by
  cases task with
  | reload | startup =>
    intro q pc hh'
    cases hh.symm.trans hh'
  | add | delete | push => exact hi.goto hh rfl fun _ _ ↦ trivial

theorem AddInv.exec {task : Task} {c : Call} {next : Call ⊕ Result} (hi : AddInv cfg col t v)
    (hh : v.holder = some ⟨task, .calling c⟩) (hx : Executes col t c t' next) :
    AddInv cfg col t' (v.answered task c next) := by
  cases next with
  | inr r => exact hi.returned hh hx
  | inl c' =>
    refine hi.goto hh rfl fun q h ↦ ?_
    cases hx with
    | @addQueue q' row hrow =>
      refine ⟨h.1, fun hflag ↦ ?_⟩
      obtain ⟨hsame, hlookup⟩ := upsert_same hflag
      rw [hsame]
      exact ⟨⟨row, hrow, hlookup⟩, h.2⟩
    | addThrottle => exact h.1
    | _ => exact h.elim

theorem AddInv.advance (hi : AddInv cfg col t v) (hsync : v.inSync cfg col t .advance = true)
    (h : Advances cfg v v') : AddInv cfg col t v' := by
  cases h with
  | deactivated hh => exact hi.goto hh rfl fun _ h ↦ h.elim
  | lockJob hh => exact hi.goto hh rfl fun _ _ ↦ trivial
  | lockedJob hh => exact AddInv.lockedJob hh hsync
  | destroy hh | startNext hh => exact hi.goto hh rfl fun _ h ↦ h.elim
  | @startLast task hh =>
    intro q pc hh'
    cases task with
    | add q' => exact (hi q' _ hh).elim
    | delete | push | reload | startup =>
      unfold Node.initDefaultQueue at hh'
      split at hh'
      · cases hh'
      · split at hh'
        · cases hh'
        · cases hh.symm.trans hh'
  | @replace _ _ rest _ hh _ =>
    refine hi.goto hh rfl fun _ h ↦ ?_
    cases rest with
    | none => exact h
    | some => exact h.elim
  | @start _ _ rest hh _ =>
    refine hi.goto hh rfl fun _ h ↦ ?_
    cases rest with
    | none => exact ⟨_, h, runs_start⟩
    | some => exact h.elim
  | remove hh _ | removeNone hh _ => exact hi.goto hh rfl fun _ h ↦ h.elim
  | unlock hh => exact fun _ _ hh' ↦ by cases hh'

theorem AddInv.deactivated {i : ℕ} (hi : AddInv cfg col t v) :
    AddInv cfg col t (v.deactivated i) := by
  unfold Node.deactivated
  split
  · rename_i hh
    exact hi.goto hh rfl fun _ h ↦ h.elim
  · rename_i q rest hh
    refine hi.goto hh rfl fun _ h ↦ ?_
    cases q <;> cases rest <;> first | exact h | exact h.elim
  · exact hi

theorem AddInv.same (hi : AddInv cfg col t v) (hh : v'.holder = v.holder)
    (hruns : v'.runs = v.runs) : AddInv cfg col t v' :=
  fun q pc hh' ↦ (hi q pc (hh ▸ hh')).congr hruns

theorem AddInv.acts (hi : AddInv cfg col t v) (hsync : v.inSync cfg col t a = true)
    (h : Acts cfg col t v a t' v') : AddInv cfg col t' v' := by
  cases h with
  | boot => exact fun _ _ hh ↦ by cases hh
  | readSame => exact hi
  | readNew | push | rlock | found | missing => exact hi.same rfl (runs_congr rfl rfl)
  | lock => exact fun _ _ hh ↦ by cases hh; exact trivial
  | lockPush | lockReload => exact fun _ _ hh ↦ by cases hh
  | advance h => exact hi.advance hsync h
  | exec hh hx => exact hi.exec hh hx
  | fail hh | lose hh _ => exact hi.failed hh
  | dispatch hq => exact hi.same rfl (runs_set rfl hq rfl)
  | receive hq => exact AddInv.deactivated (hi.same rfl (runs_set rfl hq rfl))

theorem Acts.sameRows {κ : Key} (h : Acts cfg col t v a t' v') (hκ : κ ∉ v.writes a) :
    t.sameRows t' κ = true := by
  cases h with
  | exec hh hx | lose hh hx =>
    simp only [Node.writes, hh, Option.mem_def] at hκ
    exact hx.sameRows hκ
  | _ => exact sameRows_refl

theorem addInv_step (hi : ∀ n, AddInv cfg col s.tables (s.nodes n))
    (hc : Undisturbed cfg col s e) (h : step cfg col s e = some s') (n : Fin N) :
    AddInv cfg col s'.tables (s'.nodes n) := by
  rcases node_step h n with ⟨rfl, ha⟩ | ⟨hne, heq⟩
  · exact (hi _).acts hc.1 ha
  · rw [heq]
    intro q pc hh
    obtain ⟨-, t, v, ha, rfl⟩ := step_acts h
    refine (hi n q pc hh).sameRows (ha.sameRows fun hκ ↦ ?_)
    have hfalse := hc.2 _ hκ n hne
    simp [Node.adding, hh] at hfalse

/-- `AddJobQueue` starts what it defines, if the node runs what is stored already
and no other node defines the queue at the same time. -/
theorem add_starts_definition (h : Run cfg col t es s)
    (hc : Along (step cfg col) (Undisturbed cfg col) (.initial t) es) {n : Fin N} {q : Queue}
    (hh : (s.nodes n).holder = some ⟨.add q, .returning true⟩) :
    ∃ q', cfg.prepare q = .ok q' ∧ (s.nodes n).runs q.name = some q' := by
  have hinv : ∀ n, AddInv cfg col s.tables (s.nodes n) :=
    hc.invariant (fun s : State N ↦ ∀ n, AddInv cfg col s.tables (s.nodes n))
      (fun _ _ _ hi hc h ↦ addInv_step hi hc h) h fun _ _ _ hh ↦ by cases hh
  obtain ⟨q', hq', hruns⟩ := hinv n q _ hh
  exact ⟨q', hq', prepare_name hq' ▸ hruns⟩

def addSame (q : Queue) : List Action := [.lock (.add q), .advance, .advance, .exec, .exec]

def defineOther (i j : Fin 2) : List (Event 2) :=
  bootActions.map (⟨i, ·⟩) ++ bootActions.map (⟨j, ·⟩) ++
    (addNew mailQueue).map (⟨i, ·⟩) ++ (addNew ⟨"log", 0, 0, 0, 0⟩).map (⟨j, ·⟩)

theorem add_starts_definition_of_two : ∃ s : State 2, Run plain .exact .empty (defineOther 0 1) s ∧
    Along (step plain .exact) (Undisturbed plain .exact) (.initial .empty) (defineOther 0 1) ∧
    ∃ q', plain.prepare ⟨"log", 0, 0, 0, 0⟩ = .ok q' ∧ (s.nodes 1).runs "log" = some q' := by
  obtain ⟨s, h, hs⟩ := Option.map_eq_some_iff.mp
    (show (exec (step plain .exact) (.initial .empty) (defineOther 0 1)).map
      (fun s : State 2 ↦ (s.nodes 1).holder) =
        some (some ⟨.add ⟨"log", 0, 0, 0, 0⟩, .returning true⟩) by decide +kernel)
  have hc : Along (step plain .exact) (Undisturbed plain .exact) (.initial .empty)
      (defineOther 0 1) := by
    decide +kernel
  exact ⟨s, h, hc, add_starts_definition h hc hs⟩

def defineSame (i j : Fin 2) : List (Event 2) :=
  bootActions.map (⟨i, ·⟩) ++ bootActions.map (⟨j, ·⟩) ++
    (addNew mailQueue).map (⟨i, ·⟩) ++ (addSame mailQueue).map (⟨j, ·⟩)

theorem add_starts_nothing : ∃ s : State 2, Run plain .exact .empty (defineSame 0 1) s ∧
    (s.nodes 1).holder = some ⟨.add mailQueue, .returning true⟩ ∧
    plain.prepare mailQueue = .ok ⟨"mail", 100, 20, 0, 0⟩ ∧
    (s.nodes 1).runs mailQueue.name = none := by
  obtain ⟨s, h, hs⟩ := Option.map_eq_some_iff.mp
    (show (exec (step plain .exact) (.initial .empty) (defineSame 0 1)).map
      (fun s : State 2 ↦ ((s.nodes 1).holder, (s.nodes 1).runs "mail")) =
        some (some ⟨.add mailQueue, .returning true⟩, none) by decide +kernel)
  simp only [Prod.mk.injEq] at hs
  exact ⟨s, h, hs.1, by decide +kernel, hs.2⟩

end Fireworq.Service
