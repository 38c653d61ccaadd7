import Fireworq.Service.Cluster

namespace Fireworq.Service

open Execution Repository
open Dispatcher (System)

variable {N : ℕ} {cfg : Config} {col : FloatColumn} {t t' : Tables} {v v' : Node} {a : Action}
  {s s' : State N} {e : Event N} {es : List (Event N)}

def Task.reloads : Task → Bool
  | .reload | .startup => true
  | _ => false

def Clear (task : Task) (running : Table ℕ) : Pc → Prop
  | .lockJob | .awaitReaders => task = .startup → running = ∅
  | .calling .findQueues => running = ∅
  | .calling (.findThrottles qs) => running = ∅ ∧ (qs.map Queue.name).Nodup
  | .calling (.addQueue q) | .calling (.addThrottle q _) | .calling (.addRevision q) =>
    running.lookup q.name = none
  | .starting qs =>
    (qs.map Queue.name).Nodup ∧ ∀ q ∈ qs, running.lookup q.name = none
  | .putting q rest =>
    ((q :: rest.getD []).map Queue.name).Nodup ∧
      ∀ q' ∈ q :: rest.getD [], running.lookup q'.name = none
  | .calling _ | .removing _ | .stopping _ _ _ _ => False
  | .deactivating _ => task ≠ .startup
  | .destroying | .returning _ => True

structure StartsClear (v : Node) : Prop where
  off : v.watcher = .off → v.holder = none ∧ v.running = ∅ ∧ v.pushes = []
  clear : ∀ task pc, v.holder = some ⟨task, pc⟩ → task.reloads = true → Clear task v.running pc

theorem StartsClear.other (hi : StartsClear v) (hw : v'.watcher = v.watcher)
    {task : Task} {pc pc' : Pc} (hh : v.holder = some ⟨task, pc⟩)
    (hh' : v'.holder = some ⟨task, pc'⟩)
    (hc : task.reloads = true → Clear task v.running pc → Clear task v'.running pc') :
    StartsClear v' where
  off hoff := by
    rw [(hi.off (hw ▸ hoff)).1] at hh
    cases hh
  clear task' pc'' hh'' hr := by
    rw [hh'] at hh''
    cases hh''
    exact hc hr (hi.clear task pc hh hr)

theorem StartsClear.initDefaultQueue {task : Task} (hi : StartsClear v)
    (hh : v.holder = some ⟨task, .starting []⟩) : StartsClear (v.initDefaultQueue cfg task) := by
  unfold Node.initDefaultQueue
  split
  · exact hi.other rfl hh rfl fun _ _ ↦ trivial
  · rename_i hnone
    simp only [not_or, Option.not_isSome_iff_eq_none] at hnone
    split
    · rename_i q hq
      refine hi.other rfl hh rfl fun _ _ ↦ ?_
      rw [Clear, prepare_name hq]
      exact hnone.2
    · exact ⟨hi.off, hi.clear⟩

theorem StartsClear.lockedJob {task : Task} (hi : StartsClear v)
    (hh : v.holder = some ⟨task, .awaitReaders⟩) : StartsClear (v.lockedJob cfg task) := by
  cases task with
  | add q =>
    simp only [Node.lockedJob]
    split
    · exact hi.other rfl hh rfl nofun
    · exact hi.other rfl hh rfl nofun
  | delete | push => exact hi.other rfl hh rfl nofun
  | reload => exact hi.other rfl hh rfl fun _ _ ↦ trivial
  | startup => exact hi.other rfl hh rfl fun _ hc ↦ hc rfl

theorem StartsClear.start {task : Task} {q : Queue} {rest : Option (List Queue)}
    (hi : StartsClear v) (hh : v.holder = some ⟨task, .putting q rest⟩) :
    StartsClear ((v.startJobQueue q).goto task (Node.afterPut rest)) := by
  refine hi.other rfl hh rfl fun _ hc ↦ ?_
  cases rest with
  | none => trivial
  | some qs =>
    obtain ⟨hnodup, hnone⟩ := hc
    rw [Option.getD_some, List.map_cons, List.nodup_cons] at hnodup
    refine ⟨hnodup.2, fun q' hq' ↦ ?_⟩
    have hne : q'.name ≠ q.name := by
      intro heq
      exact hnodup.1 (heq ▸ List.mem_map_of_mem hq')
    exact (AList.lookup_insert_ne hne).trans (hnone q' (List.mem_cons_of_mem _ hq'))

theorem StartsClear.unlock {task : Task} {ok : Bool} (hi : StartsClear v)
    (hh : v.holder = some ⟨task, .returning ok⟩) : StartsClear (v.unlock task) where
  off hoff := by
    have hsome : v.watcher ≠ .off := by
      intro hoff
      rw [(hi.off hoff).1] at hh
      cases hh
    cases task with
    | reload | startup => cases hoff
    | add | delete | push => exact absurd hoff hsome
  clear _ _ hh' := by cases hh'

theorem StartsClear.advance (hi : StartsClear v) (h : Advances cfg v v') : StartsClear v' := by
  cases h with
  | deactivated hh => exact hi.other rfl hh rfl fun _ hc hs ↦ absurd hs hc
  | lockJob hh => exact hi.other rfl hh rfl fun _ hc ↦ hc
  | lockedJob hh => exact hi.lockedJob hh
  | destroy hh => exact hi.other rfl hh rfl fun _ _ ↦ rfl
  | startNext hh => exact hi.other rfl hh rfl fun _ hc ↦ hc
  | startLast hh => exact hi.initDefaultQueue hh
  | replace hh hsome =>
    refine hi.other rfl hh rfl fun _ hc ↦ ?_
    rw [hc.2 _ List.mem_cons_self] at hsome
    cases hsome
  | start hh _ => exact hi.start hh
  | remove hh _ => exact hi.other rfl hh rfl fun _ hc ↦ hc
  | removeNone hh _ => exact hi.other rfl hh rfl fun _ _ ↦ trivial
  | unlock hh => exact hi.unlock hh

def Fits (running : Table ℕ) : Result → Prop
  | .found _ | .deleted => False
  | .foundAll qs => (qs.map Queue.name).Nodup ∧ ∀ q ∈ qs, running.lookup q.name = none
  | _ => True

theorem StartsClear.returned {task : Task} {c : Call} {r : Result} (hi : StartsClear v)
    (hh : v.holder = some ⟨task, .calling c⟩)
    (hc : Clear task v.running (.calling c) → Fits v.running r) :
    StartsClear (v.returned task c r) := by
  have hret (ok : Bool) : StartsClear (v.goto task (.returning ok)) :=
    hi.other rfl hh rfl fun _ _ ↦ trivial
  cases r with
  | added updated =>
    cases updated with
    | false => exact hret true
    | true =>
      simp only [Node.returned]
      split
      · refine hi.other rfl hh rfl fun _ hnone ↦ ⟨List.nodup_singleton _, fun q' hq' ↦ ?_⟩
        cases List.mem_singleton.mp hq'
        exact hnone
      · exact hret true
  | deleted =>
    simp only [Node.returned]
    split
    · exact hi.other rfl hh rfl fun _ hcl ↦ (hc hcl).elim
    · exact hret true
  | found q => exact hi.other rfl hh rfl fun _ hcl ↦ (hc hcl).elim
  | foundAll qs => exact hi.other rfl hh rfl fun _ hcl ↦ hc hcl
  | notFound => exact hret false
  | failed =>
    cases task with
    | reload | startup => exact ⟨hi.off, hi.clear⟩
    | add | delete | push => exact hret false

theorem Clear.call {task : Task} {running : Table ℕ} {c c' : Call}
    (hc : Clear task running (.calling c)) (hx : Executes col t c t' (.inl c')) :
    Clear task running (.calling c') := by
  cases hx with
  | findQueues => exact ⟨hc, Tables.queues_nodup _⟩
  | _ => exact hc

theorem Clear.fits {task : Task} {running : Table ℕ} {c : Call} {r : Result}
    (hc : Clear task running (.calling c)) (hx : Executes col t c t' (.inr r)) :
    Fits running r := by
  cases hx with
  | findEmpty => exact ⟨List.nodup_nil, nofun⟩
  | @findThrottles qs =>
    have hnames : (qs.map t.withThrottle).map Queue.name = qs.map Queue.name := by
      simp only [List.map_map, Function.comp_def, Tables.withThrottle_name]
    exact ⟨hnames ▸ hc.2, fun q _ ↦ by rw [hc.1]; rfl⟩
  | addSame | addRevision | findNone => exact trivial
  | _ => exact hc.elim

theorem StartsClear.exec {task : Task} {c : Call} {next : Call ⊕ Result} (hi : StartsClear v)
    (hh : v.holder = some ⟨task, .calling c⟩) (hx : Executes col t c t' next) :
    StartsClear (v.answered task c next) := by
  cases next with
  | inl c' => exact hi.other rfl hh rfl fun _ hc ↦ hc.call hx
  | inr r => exact hi.returned hh fun hc ↦ hc.fits hx

theorem StartsClear.up_of_push {k : ℕ} {p : Push} (hi : StartsClear v)
    (hk : v.pushes[k]? = some p) : v.watcher ≠ .off := by
  intro hoff
  rw [(hi.off hoff).2.2] at hk
  cases hk

theorem StartsClear.deactivated {i : ℕ} (hi : StartsClear v) : StartsClear (v.deactivated i) := by
  unfold Node.deactivated
  split
  · rename_i hh
    exact hi.other rfl hh rfl fun _ hc ↦ hc
  · rename_i hh
    exact hi.other rfl hh rfl fun _ hc ↦ False.elim hc
  · exact hi

/-- A queue that `startup` puts is not running, whatever the other threads and the
other nodes do. -/
theorem StartsClear.acts (hi : StartsClear v) (h : Acts cfg col t v a t' v') : StartsClear v' := by
  cases h with
  | boot hw => exact ⟨nofun, fun _ _ hh _ ↦ by cases hh; exact fun _ ↦ (hi.off hw).2.1⟩
  | readSame => exact hi
  | readNew hw => exact ⟨nofun, hi.clear⟩
  | @lock task hup hh hm =>
    refine ⟨fun hoff ↦ ?_, fun _ _ hh' hr ↦ ?_⟩
    · simp only [Node.goto] at hoff
      simp [Node.up, hoff] at hup
    · cases hh'
      cases task with
      | add | delete | push => cases hr
      | reload | startup => cases hm
  | lockPush hk hp hh =>
    exact ⟨fun hoff ↦ absurd hoff (hi.up_of_push hk), fun _ _ hh' hr ↦ by cases hh'; cases hr⟩
  | lockReload hw hh =>
    refine ⟨fun hoff ↦ ?_, fun _ _ hh' hr ↦ ?_⟩
    · simp only [Node.goto, hw] at hoff
      cases hoff
    · cases hh'
      exact nofun
  | advance h => exact hi.advance h
  | exec hh hx => exact hi.exec hh hx
  | fail hh | lose hh _ => exact hi.returned hh fun _ ↦ trivial
  | push hup =>
    refine ⟨fun hoff ↦ ?_, hi.clear⟩
    simp only at hoff
    simp [Node.up, hoff] at hup
  | rlock hk | found hk | missing hk =>
    exact ⟨fun hoff ↦ absurd hoff (hi.up_of_push hk), hi.clear⟩
  | dispatch => exact ⟨hi.off, hi.clear⟩
  | receive => exact StartsClear.deactivated ⟨hi.off, hi.clear⟩

theorem startsClear_initial : StartsClear .initial where
  off _ := ⟨rfl, rfl, rfl⟩
  clear _ _ hh := by cases hh

theorem startsClear_step (hi : ∀ n, StartsClear (s.nodes n)) (h : step cfg col s e = some s') :
    ∀ n, StartsClear (s'.nodes n) :=
  nodes_step StartsClear h (fun _ _ ha ↦ (hi e.node).acts ha) hi

theorem Run.startsClear (h : Run cfg col t es s) : ∀ n, StartsClear (s.nodes n) :=
  invariant (fun s : State N ↦ ∀ n, StartsClear (s.nodes n))
    (fun _ _ _ hi h ↦ startsClear_step hi h) h fun _ ↦ startsClear_initial

def Indexed (v : Node) : Prop :=
  ∀ name i, v.running.lookup name = some i → i < v.queues.length

theorem Acts.length_le (h : Acts cfg col t v a t' v') : v.queues.length ≤ v'.queues.length := by
  rcases h.queues with heq | ⟨q, heq⟩ | ⟨i, e, q, d, -, -, heq⟩
  · rw [heq]
  · rw [heq, List.length_append]
    exact Nat.le_add_right _ _
  · rw [heq, List.length_set]

theorem lookup_erase_sub {r : Table ℕ} {name name' : String} {i : ℕ}
    (h : (r.erase name).lookup name' = some i) : r.lookup name' = some i := by
  by_cases heq : name' = name
  · rw [heq, AList.lookup_erase] at h
    cases h
  · rwa [AList.lookup_erase_ne heq] at h

theorem deactivated_running {i : ℕ} {name : String} {j : ℕ}
    (h : (v.deactivated i).running.lookup name = some j) : v.running.lookup name = some j := by
  unfold Node.deactivated at h
  split at h
  · exact h
  · exact lookup_erase_sub h
  · exact h

theorem Indexed.acts (hi : Indexed v) (h : Acts cfg col t v a t' v') : Indexed v' := by
  have hkeep (hsub : ∀ name i, v'.running.lookup name = some i → v.running.lookup name = some i) :
      Indexed v' := fun name i hn ↦ (hi name i (hsub name i hn)).trans_le h.length_le
  cases h with
  | advance h =>
    cases h with
    | lockedJob => exact hkeep fun _ _ hn ↦ (v.lockedJob_fields cfg _).2.1 ▸ hn
    | startLast => exact hkeep fun _ _ hn ↦ (v.initDefaultQueue_fields cfg _).2.1 ▸ hn
    | destroy => exact fun _ _ hn ↦ by cases hn
    | @start _ q _ hh _ =>
      intro name i hn
      simp only [Node.goto, Node.startJobQueue, List.length_append, List.length_singleton] at hn ⊢
      by_cases heq : name = q.name
      · rw [heq, AList.lookup_insert] at hn
        cases hn
        exact Nat.lt_succ_self _
      · rw [AList.lookup_insert_ne heq] at hn
        exact (hi name i hn).trans (Nat.lt_succ_self _)
    | _ => exact hkeep fun _ _ hn ↦ hn
  | @exec _ _ _ next =>
    cases next with
    | inl => exact hkeep fun _ _ hn ↦ hn
    | inr r => exact hkeep fun _ _ hn ↦ (v.returned_fields _ _ r).2.1 ▸ hn
  | fail | lose => exact hkeep fun _ _ hn ↦ (v.returned_fields _ _ _).2.1 ▸ hn
  | receive => exact hkeep fun _ _ hn ↦ (deactivated_running hn :)
  | _ => exact hkeep fun _ _ hn ↦ hn

theorem indexed_step (hi : ∀ n, Indexed (s.nodes n)) (h : step cfg col s e = some s') :
    ∀ n, Indexed (s'.nodes n) :=
  nodes_step Indexed h (fun _ _ ha ↦ (hi e.node).acts ha) hi

theorem Run.indexed (h : Run cfg col t es s) : ∀ n, Indexed (s.nodes n) :=
  invariant (fun s : State N ↦ ∀ n, Indexed (s.nodes n)) (fun _ _ _ hi h ↦ indexed_step hi h) h
    fun _ _ _ hn ↦ by cases hn

def Watches (v : Node) : Prop :=
  ∀ th, v.holder = some th → v.watcher = .idle → th.task.reloads = false

theorem Watches.goto {task : Task} {pc pc' : Pc} (hi : Watches v)
    (hh : v.holder = some ⟨task, pc⟩) (hw : v'.watcher = v.watcher)
    (hh' : v'.holder = some ⟨task, pc'⟩) : Watches v' := by
  intro th hth hidle
  rw [hh'] at hth
  cases hth
  exact hi ⟨task, pc⟩ hh (hw ▸ hidle)

theorem Watches.returned {task : Task} {c : Call} {r : Result} (hi : Watches v)
    (hh : v.holder = some ⟨task, .calling c⟩) : Watches (v.returned task c r) := by
  unfold Node.returned
  split
  · split <;> exact hi.goto hh rfl rfl
  · exact hi.goto hh rfl rfl
  · split <;> exact hi.goto hh rfl rfl
  · exact hi.goto hh rfl rfl
  · exact hi.goto hh rfl rfl
  · exact hi.goto hh rfl rfl
  · split
    · exact hi
    · exact hi
    · exact hi.goto hh rfl rfl

theorem Watches.advance (hi : Watches v) (h : Advances cfg v v') : Watches v' := by
  cases h with
  | deactivated hh | lockJob hh | destroy hh | startNext hh | replace hh | start hh | remove hh
  | removeNone hh => exact hi.goto hh rfl rfl
  | @lockedJob task hh =>
    cases task with
    | add q =>
      simp only [Node.lockedJob]
      split <;> exact hi.goto hh rfl rfl
    | delete | push | reload | startup => exact hi.goto hh rfl rfl
  | startLast hh =>
    unfold Node.initDefaultQueue
    split
    · exact hi.goto hh rfl rfl
    · split
      · exact hi.goto hh rfl rfl
      · exact hi
  | unlock => exact fun _ hth ↦ by cases hth

theorem Watches.deactivated {i : ℕ} (hi : Watches v) : Watches (v.deactivated i) := by
  unfold Node.deactivated
  split
  · rename_i hh
    exact hi.goto hh rfl rfl
  · rename_i hh
    exact hi.goto hh rfl rfl
  · exact hi

theorem Watches.acts (hi : Watches v) (h : Acts cfg col t v a t' v') : Watches v' := by
  cases h with
  | boot => exact fun _ _ hw ↦ by cases hw
  | readNew => exact fun _ _ hw ↦ by cases hw
  | lockReload hw => exact fun _ _ hidle ↦ by rw [Node.goto, hw] at hidle; cases hidle
  | @lock task _ _ hm =>
    intro th hth _
    cases hth
    cases task with
    | add | delete | push => rfl
    | reload | startup => cases hm
  | lockPush =>
    intro th hth _
    cases hth
    rfl
  | advance h => exact hi.advance h
  | @exec _ _ _ next hh _ =>
    cases next with
    | inl => exact hi.goto hh rfl rfl
    | inr => exact hi.returned hh
  | fail hh | lose hh => exact hi.returned hh
  | receive => exact Watches.deactivated hi
  | readSame | push | rlock | found | missing | dispatch => exact hi

theorem watches_step (hi : ∀ n, Watches (s.nodes n)) (h : step cfg col s e = some s') :
    ∀ n, Watches (s'.nodes n) :=
  nodes_step Watches h (fun _ _ ha ↦ (hi e.node).acts ha) hi

end Fireworq.Service
