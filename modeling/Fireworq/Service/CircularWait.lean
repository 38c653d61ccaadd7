import Fireworq.Service.Startup

namespace Fireworq.Service

open Execution Repository
open Dispatcher (System)

variable {N : ℕ} {cfg : Config} {col : FloatColumn} {t t' : Tables} {v v' : Node} {a : Action}
  {s s' : State N} {e : Event N} {es : List (Event N)}

def Pc.stops (i : ℕ) : Pc → Bool
  | .stopping _ j _ _ => i = j
  | _ => false

def Node.asks (v : Node) (i : ℕ) : Bool :=
  v.pushes.any fun p ↦ p.pc = .rlock ∧ p.caller.map Prod.fst = some i

/-- A management operation that holds `muJob` waits for a worker, and the worker's
`Push` waits for `muJob`. -/
def Node.CircularWait (v : Node) : Prop :=
  ∃ th i k p, v.holder = some th ∧ th.pc.stops i = true ∧ v.working i k = true ∧ p ∈ v.pushes ∧
    p.caller = some (i, k) ∧ p.pc = .rlock

def Node.stopsNext (v : Node) : Option ℕ :=
  match v.holder with
  | some ⟨_, .putting q _⟩ => v.running.lookup q.name
  | some ⟨_, .removing name⟩ => v.running.lookup name
  | _ => none

/-- The thread stops no queue that a worker waiting for `muJob` belongs to, and no
worker of a queue that it stops calls `Push`. -/
def Node.considerate (v : Node) (th : Thread) : Action → Bool
  | .advance => v.stopsNext.all fun i ↦ !v.asks i
  | .push _ (some (i, _)) => !th.pc.stops i
  | _ => true

def Considerate (s : State N) (e : Event N) : Prop :=
  ∀ th ∈ (s.nodes e.node).holder, th.task.reloads = false →
    (s.nodes e.node).considerate th e.action = true

instance (s : State N) (e : Event N) : Decidable (Considerate s e) :=
  inferInstanceAs (Decidable (∀ th ∈ (s.nodes e.node).holder, _ → _))

def Node.Safe (v : Node) : Prop :=
  ∀ th i, v.holder = some th → th.pc.stops i = true → v.asks i = false

theorem Node.Safe.not_circularWait (h : v.Safe) : ¬ v.CircularWait := by
  rintro ⟨th, i, k, p, hh, hs, -, hp, hc, hpc⟩
  have hasks := h th i hh hs
  simp only [Node.asks, List.any_eq_false] at hasks
  exact hasks p hp (by simp [hpc, hc])

theorem asks_mono {i : ℕ} (hsub : ∀ p ∈ v'.pushes, p.pc = .rlock → p ∈ v.pushes)
    (h : v.asks i = false) : v'.asks i = false := by
  simp only [Node.asks, List.any_eq_false] at h ⊢
  intro p hp hask
  simp only [decide_eq_true_eq] at hask
  exact h p (hsub p hp hask.1) (by simpa using hask)

theorem safe_of_goto {task : Task} {pc : Pc} (hh : v.holder = some ⟨task, pc⟩)
    (hpc : ∀ i, pc.stops i = false) : v.Safe := by
  intro th i hth hs
  rw [hh] at hth
  cases hth
  rw [hpc i] at hs
  cases hs

theorem Node.Safe.same (h : v.Safe) (hh : v'.holder = v.holder)
    (hsub : ∀ p ∈ v'.pushes, p.pc = .rlock → p ∈ v.pushes) : v'.Safe :=
  fun th i hth hs ↦ asks_mono hsub (h th i (hh ▸ hth) hs)

theorem returned_safe {task : Task} {c : Call} (r : Result)
    (hh : v.holder = some ⟨task, .calling c⟩) : (v.returned task c r).Safe := by
  unfold Node.returned
  split
  · split <;> exact safe_of_goto rfl fun _ ↦ rfl
  · exact safe_of_goto rfl fun _ ↦ rfl
  · split <;> exact safe_of_goto rfl fun _ ↦ rfl
  · exact safe_of_goto rfl fun _ ↦ rfl
  · exact safe_of_goto rfl fun _ ↦ rfl
  · exact safe_of_goto rfl fun _ ↦ rfl
  · split
    · exact safe_of_goto hh fun _ ↦ rfl
    · exact safe_of_goto hh fun _ ↦ rfl
    · exact safe_of_goto rfl fun _ ↦ rfl

theorem lockedJob_safe (task : Task) : (v.lockedJob cfg task).Safe := by
  unfold Node.lockedJob
  split
  · split <;> exact safe_of_goto rfl fun _ ↦ rfl
  all_goals exact safe_of_goto rfl fun _ ↦ rfl

theorem initDefaultQueue_safe {task : Task} (hh : v.holder = some ⟨task, .starting []⟩) :
    (v.initDefaultQueue cfg task).Safe := by
  unfold Node.initDefaultQueue
  split
  · exact safe_of_goto rfl fun _ ↦ rfl
  · split
    · exact safe_of_goto rfl fun _ ↦ rfl
    · exact safe_of_goto hh fun _ ↦ rfl

theorem advance_safe (h : Advances cfg v v')
    (hasks : ∀ task pc, v.holder = some ⟨task, pc⟩ → ∀ i ∈ v.stopsNext, v.asks i = false) :
    v'.Safe := by
  have hstop {task : Task} {pc pc' : Pc} {i : ℕ} (hh : v.holder = some ⟨task, pc⟩)
      (hn : v.stopsNext = some i) (hpc : ∀ j, pc'.stops j = true → j = i) :
      (v.goto task pc').Safe := by
    intro th j hth hs
    cases hth
    cases hpc j hs
    exact asks_mono (fun _ hp _ ↦ hp) (hasks task pc hh i hn)
  cases h with
  | lockedJob hh => exact lockedJob_safe _
  | startLast hh => exact initDefaultQueue_safe hh
  | replace hh hi =>
    exact hstop hh (by simp only [Node.stopsNext, hh]; exact hi) fun j hj ↦ by
      simpa [Pc.stops] using hj
  | remove hh hi =>
    exact hstop hh (by simp only [Node.stopsNext, hh]; exact hi) fun j hj ↦ by
      simpa [Pc.stops] using hj
  | @start _ _ rest hh _ =>
    refine safe_of_goto rfl fun _ ↦ ?_
    cases rest <;> rfl
  | unlock hh => exact fun _ _ hth ↦ by cases hth
  | _ => exact safe_of_goto rfl fun _ ↦ rfl

theorem deactivated_safe {i : ℕ} (h : v.Safe) : (v.deactivated i).Safe := by
  unfold Node.deactivated
  split
  · exact safe_of_goto rfl fun _ ↦ rfl
  · refine safe_of_goto rfl fun _ ↦ ?_
    split <;> rfl
  · exact h

theorem StartsClear.not_stops {th : Thread} {i : ℕ} (hi : StartsClear v) (hh : v.holder = some th)
    (hr : th.task.reloads = true) : ¬ (th.pc.stops i = true ∨ v.stopsNext = some i) := by
  obtain ⟨task, pc⟩ := th
  have hc := hi.clear task pc hh hr
  simp only [Node.stopsNext, hh]
  cases pc with
  | putting q rest =>
    rintro (hs | hs)
    · cases hs
    · cases (hc.2 q List.mem_cons_self).symm.trans hs
  | removing | stopping => exact hc.elim
  | _ => rintro (hs | hs) <;> cases hs

theorem mem_of_set {k : ℕ} {p p' : Push} (hp : p' ∈ v.pushes.set k p) (hpc : p'.pc = .rlock)
    (hne : p.pc ≠ .rlock) : p' ∈ v.pushes := by
  rcases List.mem_or_eq_of_mem_set hp with hp | rfl
  · exact hp
  · exact absurd hpc hne

theorem Node.Safe.acts {n : Fin N} (hi : (s.nodes n).Safe) (hclear : StartsClear (s.nodes n))
    (hc : Considerate s ⟨n, a⟩) (h : Acts cfg col t (s.nodes n) a t' v') : v'.Safe := by
  have hreload {th : Thread} {i : ℕ} (hh : (s.nodes n).holder = some th)
      (hs : th.pc.stops i = true ∨ (s.nodes n).stopsNext = some i) : th.task.reloads = false := by
    by_contra hr
    exact hclear.not_stops hh (by simpa using hr) hs
  cases h with
  | boot => exact safe_of_goto rfl fun _ ↦ rfl
  | readSame => exact hi
  | readNew => exact hi.same rfl fun _ hp _ ↦ hp
  | lock | lockPush | lockReload => exact safe_of_goto rfl fun _ ↦ rfl
  | advance h =>
    refine advance_safe h fun task pc hh i hn ↦ ?_
    simpa using (Option.all_eq_true _ _).mp (hc _ hh (hreload hh (.inr hn))) i hn
  | exec hh hx =>
    cases ‹Call ⊕ Result› with
    | inl c' => exact safe_of_goto rfl fun _ ↦ rfl
    | inr r => exact returned_safe r hh
  | fail hh | lose hh _ => exact returned_safe _ hh
  | @push name caller hup _ =>
    intro th i hh hs
    have hc := hc th hh (hreload hh (.inl hs))
    have hold := hi th i hh hs
    simp only [Node.asks, List.any_eq_false, List.mem_append, List.mem_singleton] at hold ⊢
    rintro p (hp | rfl)
    · exact hold p hp
    · cases caller with
      | none => simp
      | some c =>
        intro hask
        have heq : c.1 = i := by simpa using hask
        subst heq
        simp [Node.considerate, hs] at hc
  | rlock | missing => exact hi.same rfl fun _ hp hpc ↦ mem_of_set hp hpc (by simp)
  | found => exact hi.same rfl fun _ hp _ ↦ List.mem_of_mem_eraseIdx hp
  | dispatch => exact hi.same rfl fun _ hp _ ↦ hp
  | receive => exact deactivated_safe (hi.same rfl fun _ hp _ ↦ hp)

theorem safe_step (hclear : ∀ n, StartsClear (s.nodes n)) (hi : ∀ n, (s.nodes n).Safe)
    (hc : Considerate s e) (h : step cfg col s e = some s') : ∀ n, (s'.nodes n).Safe :=
  nodes_step Node.Safe h (fun _ _ ha ↦ (hi e.node).acts (hclear e.node) hc ha) hi

def busy : List Action :=
  bootActions ++ addNew ⟨"mail", 100, 1, 0, 0⟩ ++ [.advance, .dispatch 0 .newTicker,
    .dispatch 0 .tick, .dispatch 0 .kick, .dispatch 0 (.inner .request),
    .dispatch 0 (.inner (.popReturn (some [()]))), .dispatch 0 (.inner .send),
    .dispatch 0 (.inner .send), .dispatch 0 (.inner .receive), .dispatch 0 (.inner .acquire),
    .dispatch 0 (.inner .spawn), .dispatch 0 (.inner (.limiter 0 true))]

def replace : List Action :=
  addNew ⟨"mail", 100, 2, 0, 0⟩ ++ [.dispatch 0 .callStop]

/-- There is no circular wait if no worker of a queue calls `Push` while `AddJobQueue`,
`DeleteJobQueue` or a `Push` stops the queue. A reload waits for its dispatchers before
it asks for `muJob`, so that it needs no such condition. -/
theorem no_circular_wait (h : Run cfg col t es s)
    (hc : Along (step cfg col) Considerate (.initial t) es) (n : Fin N) :
    ¬ (s.nodes n).CircularWait := by
  have hinv : (∀ n, StartsClear (s.nodes n)) ∧ ∀ n, (s.nodes n).Safe :=
    hc.invariant (fun s : State N ↦ (∀ n, StartsClear (s.nodes n)) ∧ ∀ n, (s.nodes n).Safe)
      (fun _ _ _ hi hc h ↦ ⟨startsClear_step hi.1 h, safe_step hi.1 hi.2 hc h⟩) h
      ⟨fun _ ↦ startsClear_initial, fun _ _ _ hh ↦ by cases hh⟩
  exact (hinv.2 n).not_circularWait

def pushedBefore (i : Fin 1) : List (Event 1) :=
  (busy ++ [Action.push "mail" (some (0, 0)), .rlock 0, .lookup 0] ++ replace).map (⟨i, ·⟩)

theorem no_circular_wait_pushed_before : ∃ s : State 1,
    Run plain .exact .empty (pushedBefore 0) s ∧
    Along (step plain .exact) Considerate (.initial .empty) (pushedBefore 0) ∧
    (s.nodes 0).working 0 0 = true ∧ ¬ (s.nodes 0).CircularWait := by
  obtain ⟨s, h, hs⟩ := Option.map_eq_some_iff.mp
    (show (exec (step plain .exact) (.initial .empty) (pushedBefore 0)).map
      (fun s : State 1 ↦ (s.nodes 0).working 0 0) = some true by decide +kernel)
  have hc : Along (step plain .exact) Considerate (.initial .empty) (pushedBefore 0) := by
    decide +kernel
  exact ⟨s, h, hc, hs, no_circular_wait h hc 0⟩

def Dispatched (cfg : Config) (v : Node) : Prop :=
  ∀ q ∈ v.queues, ∃ es, System.Run ⟨cfg.minBufferSize, q.definition.maxWorkers⟩
    q.definition.pollingInterval es q.dispatcher

theorem Dispatched.acts (hi : Dispatched cfg v) (h : Acts cfg col t v a t' v') :
    Dispatched cfg v' := by
  rcases h.queues with heq | ⟨q, heq⟩ | ⟨i, e, q, d, hq, hd, heq⟩ <;> intro q' hq' <;>
    rw [heq] at hq'
  · exact hi q' hq'
  · rcases List.mem_append.mp hq' with hq' | hq'
    · exact hi q' hq'
    · cases List.mem_singleton.mp hq'
      exact ⟨[], rfl⟩
  · rcases List.mem_or_eq_of_mem_set hq' with hq' | rfl
    · exact hi q' hq'
    · obtain ⟨es, hes⟩ := hi q (List.mem_of_getElem? hq)
      exact ⟨es ++ [e], exec_snoc.mpr ⟨_, hes, hd⟩⟩

theorem working_iff {i k : ℕ} : v.working i k = true ↔
    ∃ q j, v.queues[i]? = some q ∧ q.dispatcher.core.workers[k]? = some ⟨j, .working⟩ := by
  unfold Node.working
  constructor
  · intro h
    split at h
    · rename_i q hq
      split at h
      · rename_i w hw
        obtain ⟨j, pc⟩ := w
        cases of_decide_eq_true h
        exact ⟨q, j, hq, hw⟩
      · cases h
    · cases h
  · rintro ⟨q, j, hq, hk⟩
    simp [hq, hk]

theorem Node.CircularWait.acts (hw : v.CircularWait) (hi : StartsClear v) (hd : Dispatched cfg v)
    (h : Acts cfg col t v a t' v') : v'.CircularWait := by
  obtain ⟨⟨task, pc⟩, i, k, p, hh, hs, hwork, hp, hc, hpc⟩ := hw
  cases pc with
  | stopping name i' q' rest =>
    obtain rfl : i = i' := by simpa [Pc.stops] using hs
    obtain ⟨q, j, hq, hk⟩ := working_iff.mp hwork
    have hkeep {v' : Node} (hh' : v'.holder = v.holder) (hwork' : v'.working i k = true)
        (hp' : p ∈ v'.pushes) : v'.CircularWait :=
      ⟨_, i, k, p, hh'.trans hh, hs, hwork', hp', hc, hpc⟩
    have hmem {k' : ℕ} {p' : Push} (hk' : v.pushes[k']? = some p') (hne : p'.pc ≠ .rlock) :
        ∃ j, j ≠ k' ∧ v.pushes[j]? = some p := by
      obtain ⟨j, hj⟩ := List.getElem?_of_mem hp
      refine ⟨j, ?_, hj⟩
      rintro rfl
      rw [hj] at hk'
      cases hk'
      exact hne hpc
    cases h with
    | boot hw =>
      rw [(hi.off hw).1] at hh
      cases hh
    | readSame | readNew => exact hkeep rfl hwork hp
    | lock _ hnone _ | lockPush _ _ hnone | lockReload _ hnone =>
      rw [hnone] at hh
      cases hh
    | advance h =>
      cases h with
      | deactivated hh' | lockJob hh' | lockedJob hh' | destroy hh' | startNext hh' | startLast hh'
      | replace hh' _ | start hh' _ | remove hh' _ | removeNone hh' _ | unlock hh' =>
        rw [hh] at hh'
        cases hh'
    | exec hh' _ | fail hh' | lose hh' _ =>
      rw [hh] at hh'
      cases hh'
    | push => exact hkeep rfl hwork (List.mem_append_left _ hp)
    | rlock _ _ hr => cases hr _ hh
    | found hk' hpc' =>
      obtain ⟨j, hj, hjp⟩ := hmem hk' (by simp [hpc'])
      exact hkeep rfl hwork (List.mem_eraseIdx_iff_getElem?.mpr ⟨j, hj, hjp⟩)
    | missing hk' hpc' =>
      obtain ⟨j, hj, hjp⟩ := hmem hk' (by simp [hpc'])
      refine hkeep rfl hwork (List.mem_of_getElem? (i := j) ?_)
      rw [List.getElem?_set_ne (Ne.symm hj), hjp]
    | @dispatch i' e q' d hq' hperm _ hd' =>
      refine hkeep rfl (working_iff.mpr ?_) hp
      by_cases heq : i' = i
      · subst heq
        rw [hq] at hq'
        cases hq'
        have hne : e ≠ .inner (.work k) := by
          rintro rfl
          have hpush : v.pushing i' k = true := by
            simp only [Node.pushing, Bool.or_eq_true, List.any_eq_true]
            exact .inl ⟨p, hp, by simp [hc]⟩
          simp [Node.permits, hpush] at hperm
        refine ⟨_, j, List.getElem?_set_self (List.getElem?_eq_some_iff.mp hq).1, ?_⟩
        exact System.working_step hd' hk hne
      · exact ⟨q, j, by rw [List.getElem?_set_ne heq, hq], hk⟩
    | receive hq' hh' ha hd' =>
      rw [hh] at hh'
      cases hh'
      obtain rfl : _ = i := by simpa [Pc.awaits] using ha
      rw [hq] at hq'
      cases hq'
      obtain ⟨es, hes⟩ := hd q (List.mem_of_getElem? hq)
      cases (System.step_moves hd').2 with
      | receive hready =>
        cases hes.workers_ended (.inl hready) _ (List.mem_of_getElem? hk)
  | _ => cases hs

theorem dispatched_step (hi : ∀ n, Dispatched cfg (s.nodes n)) (h : step cfg col s e = some s') :
    ∀ n, Dispatched cfg (s'.nodes n) :=
  nodes_step (Dispatched cfg) h (fun _ _ ha ↦ (hi e.node).acts ha) hi

theorem Run.dispatched (h : Run cfg col t es s) : ∀ n, Dispatched cfg (s.nodes n) :=
  invariant (fun s : State N ↦ ∀ n, Dispatched cfg (s.nodes n))
    (fun _ _ _ hi h ↦ dispatched_step hi h) h fun _ _ hq ↦ by cases hq

theorem circularWait_step {n : Fin N} (hi : StartsClear (s.nodes n))
    (hd : Dispatched cfg (s.nodes n)) (hw : (s.nodes n).CircularWait)
    (h : step cfg col s e = some s') : (s'.nodes n).CircularWait := by
  rcases node_step h n with ⟨-, ha⟩ | ⟨-, heq⟩
  · exact hw.acts hi hd ha
  · rwa [heq]

/-- The thread and the worker wait for each other for ever. -/
theorem circular_wait_persists (h : Run cfg col t es s) {n : Fin N}
    (hw : (s.nodes n).CircularWait) {es' : List (Event N)}
    (h' : exec (step cfg col) s es' = some s') : (s'.nodes n).CircularWait := by
  refine history (fun (_ : List (Event N)) (u : State N) ↦ (u.nodes n).CircularWait) hw
    (fun xs u e w hu ih hw ↦ ?_) h'
  have hrun : Run cfg col t (es ++ xs) u := exec_append.mpr ⟨s, h, hu⟩
  exact circularWait_step (hrun.startsClear n) (hrun.dispatched n) ih hw

def replaced (i : Fin 1) : List (Event 1) :=
  (busy ++ replace ++ [Action.push "mail" (some (0, 0))]).map (⟨i, ·⟩)

theorem worker_push_deadlocks : ∃ s : State 1, Run plain .exact .empty (replaced 0) s ∧
    (s.nodes 0).CircularWait ∧
    ∀ es s', exec (step plain .exact) s es = some s' → (s'.nodes 0).CircularWait := by
  obtain ⟨s, h, hs⟩ := Option.map_eq_some_iff.mp
    (show (exec (step plain .exact) (.initial .empty) (replaced 0)).map (fun s : State 1 ↦
      ((s.nodes 0).holder, (s.nodes 0).working 0 0, (s.nodes 0).pushes)) =
        some (some ⟨.add ⟨"mail", 100, 2, 0, 0⟩,
          .stopping "mail" 0 (some ⟨"mail", 100, 2, 0, 0⟩) none⟩, true,
          [⟨"mail", some (0, 0), .rlock⟩]) by decide +kernel)
  simp only [Prod.mk.injEq] at hs
  obtain ⟨hh, hwork, hp⟩ := hs
  have hw : (s.nodes 0).CircularWait :=
    ⟨_, 0, 0, _, hh, rfl, hwork, by rw [hp]; exact List.mem_singleton_self _, rfl, rfl⟩
  exact ⟨s, h, hw, fun es s' h' ↦ circular_wait_persists h hw h'⟩

end Fireworq.Service
