import Fireworq.BinaryHeap
import Fireworq.Execution
import Fireworq.JobQueue.Completion
import Mathlib.Data.List.Basic
import Mathlib.Logic.Function.Basic

namespace Fireworq.InMemory

open JobQueue GoInt Execution Function

/-- A job object. The queue and the holders of a popped job share it. -/
structure Job where
  incoming : IncomingJob
  id : ℕ
  createdAt : ℕ
  nextTry : ℕ
  retryCount : ℕ
  failCount : ℕ
  deriving DecidableEq

structure CompleteCall where
  job : ℕ
  taken : Completion
  done : Bool
  deriving DecidableEq

/-- A queue of pointers, which are positions in `objects`. The jobs in `held`
are popped and not completed yet. -/
structure State where
  now : ℕ
  lastId : ℕ
  objects : List Job
  queue : Array ℕ
  held : List ℕ
  completes : ℕ → Option CompleteCall

def State.initial : State where
  now := 0
  lastId := 0
  objects := []
  queue := #[]
  held := []
  completes := fun _ ↦ none

/-- The last id is shared with other queues, which take ids in between. -/
inductive Event
  | tick (ms : ℕ)
  | takeId
  | push (j : IncomingJob)
  | pop (limit : ℕ)
  | complete (k p : ℕ) (res : Result)
  | finish (k : ℕ)
  deriving DecidableEq

def nextTry (objects : List Job) (p : ℕ) : ℕ := (objects[p]?.map Job.nextTry).getD 0

def less (objects : List Job) (p q : ℕ) : Bool := nextTry objects p < nextTry objects q

def State.retryCount (s : State) (p : ℕ) : ℕ := (s.objects[p]?.map Job.retryCount).getD 0

def newJob (now id : ℕ) (j : IncomingJob) : Job where
  incoming := j
  id := id
  createdAt := now
  nextTry := uint64 (now + j.nextDelay)
  retryCount := j.retryCount
  failCount := 0

def push (s : State) (j : IncomingJob) : State :=
  let id := uint64 (s.lastId + 1)
  let objects := s.objects ++ [newJob s.now id j]
  { s with
    lastId := id
    objects := objects
    queue := BinaryHeap.push (less objects) s.queue s.objects.length }

def popLoop (objects : List Job) (now : ℕ) : ℕ → Array ℕ → Array ℕ × List ℕ
  | 0, queue => (queue, [])
  | i + 1, queue =>
    match queue[0]?, BinaryHeap.pop (less objects) queue with
    | some top, some (p, queue') =>
      if nextTry objects top > now then (queue, [])
      else ((popLoop objects now i queue').1, p :: (popLoop objects now i queue').2)
    | _, _ => (queue, [])

def pop (s : State) (limit : ℕ) : Option State :=
  if makes 16 limit then
    some { s with
      queue := (popLoop s.objects s.now limit s.queue).1
      held := s.held ++ (popLoop s.objects s.now limit s.queue).2 }
  else none

def update (s : State) (p : ℕ) (next : NextInfo) : State :=
  let objects := s.objects.modify p fun j ↦ { j with
    nextTry := uint64 (s.now + next.nextDelay)
    retryCount := next.retryCount
    failCount := next.failCount }
  { s with objects := objects, queue := BinaryHeap.push (less objects) s.queue p }

def complete (s : State) (k p : ℕ) (res : Result) : Option State :=
  if p ∈ s.held ∧ s.completes k = none then
    some { s with
      held := s.held.erase p
      completes := Function.update s.completes k
        (some ⟨p, completion res (s.retryCount p), false⟩) }
  else none

/-- The rest of `Complete`. `Delete` does nothing, since the job has left the
queue with `Pop`, and there is no failure log. -/
def finish (s : State) (k : ℕ) : Option State :=
  match s.completes k with
  | some ⟨p, .retry, false⟩ =>
    s.objects[p]?.map fun j ↦
      update { s with completes := Function.update s.completes k (some ⟨p, .retry, true⟩) } p
        (nextJob j.incoming.retryDelay j.retryCount j.failCount)
  | some ⟨p, taken, false⟩ =>
    some { s with completes := Function.update s.completes k (some ⟨p, taken, true⟩) }
  | _ => none

def step (s : State) : Event → Option State
  | .tick ms => some { s with now := s.now + ms }
  | .takeId => some { s with lastId := uint64 (s.lastId + 1) }
  | .push j => some (push s j)
  | .pop limit => pop s limit
  | .complete k p res => complete s k p res
  | .finish k => finish s k

def Run (es : List Event) (s : State) : Prop := exec step .initial es = some s

theorem popLoop_perm (objects : List Job) (now limit : ℕ) (queue : Array ℕ) :
    queue.toList.Perm ((popLoop objects now limit queue).1.toList ++
      (popLoop objects now limit queue).2) := by
  induction limit generalizing queue with
  | zero => simp [popLoop]
  | succ i ih =>
    rw [popLoop]
    split
    next top p queue' _ hpop =>
      split
      · simp
      · refine (BinaryHeap.pop_perm hpop).trans (((ih queue').cons p).trans ?_)
        exact List.perm_middle.symm
    next => simp

def State.live (s : State) : List ℕ := s.queue.toList ++ s.held

def State.updating (s : State) (k p : ℕ) : Prop := s.completes k = some ⟨p, .retry, false⟩

section Steps

variable {s t : State} {k p : ℕ}

theorem push_live (j : IncomingJob) :
    (push s j).live.Perm (s.objects.length :: s.live) :=
  (BinaryHeap.push_perm s.queue s.objects.length).append_right s.held

theorem pop_live {limit : ℕ} (h : pop s limit = some t) :
    t.live.Perm s.live ∧ t.objects = s.objects ∧ t.completes = s.completes := by
  unfold pop at h
  split at h <;> cases h
  refine ⟨?_, rfl, rfl⟩
  have hperm := (popLoop_perm s.objects s.now limit s.queue).append_right s.held
  refine List.Perm.trans ?_ hperm.symm
  simp only [State.live, List.append_assoc]
  exact List.perm_append_comm.append_left _

theorem complete_live {res : Result} (h : complete s k p res = some t) :
    s.live.Perm (p :: t.live) ∧ t.objects = s.objects ∧ s.completes k = none ∧
      t.completes = Function.update s.completes k
        (some ⟨p, completion res (s.retryCount p), false⟩) := by
  unfold complete at h
  split at h <;> cases h
  have hheld : p ∈ s.held ∧ s.completes k = none := ‹_›
  refine ⟨?_, rfl, hheld.2, rfl⟩
  exact ((List.perm_cons_erase hheld.1).append_left _).trans List.perm_middle

theorem finish_cases (h : finish s k = some t) :
    (∃ q taken, s.completes k = some ⟨q, taken, false⟩ ∧ taken ≠ .retry ∧ t = { s with
      completes := Function.update s.completes k (some ⟨q, taken, true⟩) }) ∨
    ∃ q j, s.updating k q ∧ s.objects[q]? = some j ∧ t = update { s with
      completes := Function.update s.completes k (some ⟨q, .retry, true⟩) } q
        (nextJob j.incoming.retryDelay j.retryCount j.failCount) := by
  unfold finish at h
  split at h
  next q hk =>
    obtain ⟨j, hj, rfl⟩ := Option.map_eq_some_iff.mp h
    exact .inr ⟨q, j, hk, hj, rfl⟩
  next q taken hne hk =>
    cases h
    exact .inl ⟨q, taken, hk, hne, rfl⟩
  next => cases h

theorem update_live (next : NextInfo) : (update s p next).live.Perm (p :: s.live) :=
  (BinaryHeap.push_perm s.queue p).append_right s.held

theorem update_objects {q : ℕ} {next : NextInfo} (h : q ≠ p) :
    (update s p next).objects[q]? = s.objects[q]? := by
  simp [update, h.symm]

theorem retryCount_update {j : Job} {next : NextInfo} (h : s.objects[p]? = some j) :
    (update s p next).retryCount p = next.retryCount := by
  simp only [State.retryCount, update, List.getElem?_modify_eq, h, Option.map_eq_map,
    Option.map_some, Option.getD_some]

theorem retryCount_finish (hk : s.updating k p) (hpos : 0 < s.retryCount p)
    (hlt : s.retryCount p < 2 ^ 64) (h : finish s k = some t) :
    t.retryCount p = s.retryCount p - 1 := by
  rcases finish_cases h with ⟨q, taken, hk', hne, -⟩ | ⟨q, j, hk', hj, rfl⟩
  · rw [State.updating, hk'] at hk
    cases hk
    exact absurd rfl hne
  · cases Option.some.inj (hk.symm.trans hk')
    have hj' : s.retryCount p = j.retryCount := by rw [State.retryCount, hj]; rfl
    rw [hj'] at hpos hlt ⊢
    exact (retryCount_update hj).trans (uint64_pred hpos hlt)

end Steps

structure Inv (s : State) : Prop where
  nodup : s.live.Nodup
  alloc : ∀ p ∈ s.live, p < s.objects.length
  updating : ∀ k p, s.updating k p →
    p ∉ s.live ∧ p < s.objects.length ∧ ∀ i, s.updating i p → i = k

structure Retired (s : State) (p : ℕ) : Prop where
  alloc : p < s.objects.length
  notLive : p ∉ s.live
  notUpdating : ∀ k, ¬ s.updating k p

section Invariant

variable {s t : State} {k p : ℕ}

theorem updating_update {completes : ℕ → Option CompleteCall} {c : CompleteCall} {i q : ℕ}
    (h : Function.update completes k (some c) i = some ⟨q, .retry, false⟩) :
    i = k ∧ c = ⟨q, .retry, false⟩ ∨ i ≠ k ∧ completes i = some ⟨q, .retry, false⟩ := by
  by_cases hi : i = k
  · subst hi
    rw [Function.update_self] at h
    exact .inl ⟨rfl, Option.some.inj h⟩
  · rw [Function.update_of_ne hi] at h
    exact .inr ⟨hi, h⟩

theorem updating_of_done {completes : ℕ → Option CompleteCall} {taken : Completion} {i p q : ℕ}
    (h : Function.update completes k (some ⟨p, taken, true⟩) i = some ⟨q, .retry, false⟩) :
    i ≠ k ∧ completes i = some ⟨q, .retry, false⟩ := by
  refine (updating_update h).resolve_left fun hi ↦ ?_
  cases hi.2

theorem Inv.push (h : Inv s) (j : IncomingJob) : Inv (push s j) := by
  have hlive := push_live (s := s) j
  have hlen : (InMemory.push s j).objects.length = s.objects.length + 1 := by simp [InMemory.push]
  refine ⟨?_, fun p hp ↦ ?_, fun k p hk ↦ ?_⟩
  · rw [hlive.nodup_iff, List.nodup_cons]
    exact ⟨fun hp ↦ Nat.lt_irrefl _ (h.alloc _ hp), h.nodup⟩
  · rw [hlive.mem_iff, List.mem_cons] at hp
    rw [hlen]
    rcases hp with rfl | hp
    · exact Nat.lt_succ_self _
    · exact Nat.lt_succ_of_lt (h.alloc p hp)
  · obtain ⟨hp, hlt, hone⟩ := h.updating k p hk
    refine ⟨?_, by omega, hone⟩
    rw [hlive.mem_iff, List.mem_cons]
    rintro (rfl | hq)
    · exact Nat.lt_irrefl _ hlt
    · exact hp hq

theorem Inv.of_perm (h : Inv s) (hlive : t.live.Perm s.live) (hobj : t.objects = s.objects)
    (hcalls : ∀ i q, t.updating i q → s.updating i q) : Inv t := by
  refine ⟨hlive.nodup_iff.mpr h.nodup, fun q hq ↦ ?_, fun i q hi ↦ ?_⟩
  · rw [hobj]
    exact h.alloc q (hlive.mem_iff.mp hq)
  · obtain ⟨hq, hlt, hone⟩ := h.updating i q (hcalls i q hi)
    exact ⟨mt hlive.mem_iff.mp hq, hobj ▸ hlt, fun i' hi' ↦ hone i' (hcalls i' q hi')⟩

theorem Inv.complete {res : Result} (h : Inv s) (hc : complete s k p res = some t) : Inv t := by
  obtain ⟨hlive, hobj, hk, hcalls⟩ := complete_live hc
  have hnd := hlive.nodup_iff.mp h.nodup
  rw [List.nodup_cons] at hnd
  have hmem {q : ℕ} (hq : q ∈ t.live) : q ∈ s.live := hlive.mem_iff.mpr (by simp [hq])
  have hp : p ∈ s.live := hlive.mem_iff.mpr (by simp)
  have hold {i q : ℕ} (hi : t.updating i q) : i = k ∧ p = q ∨ i ≠ k ∧ s.updating i q := by
    rw [State.updating, hcalls] at hi
    exact (updating_update hi).imp_left fun hi ↦ ⟨hi.1, congrArg CompleteCall.job hi.2⟩
  refine ⟨hnd.2, fun q hq ↦ hobj ▸ h.alloc q (hmem hq), fun i q hi ↦ ?_⟩
  rcases hold hi with ⟨rfl, rfl⟩ | ⟨hne, hi⟩
  · refine ⟨hnd.1, hobj ▸ h.alloc p hp, fun i' hi' ↦ ?_⟩
    rcases hold hi' with ⟨rfl, -⟩ | ⟨-, hi'⟩
    · rfl
    · exact absurd hp (h.updating i' p hi').1
  · obtain ⟨hq, hlt, hone⟩ := h.updating i q hi
    refine ⟨mt hmem hq, hobj ▸ hlt, fun i' hi' ↦ ?_⟩
    rcases hold hi' with ⟨-, rfl⟩ | ⟨-, hi'⟩
    · exact absurd hp hq
    · exact hone i' hi'

theorem Inv.finish (h : Inv s) (hf : finish s k = some t) : Inv t := by
  rcases finish_cases hf with ⟨q, taken, hk, hne, rfl⟩ | ⟨q, j, hk, hj, rfl⟩
  · exact h.of_perm .rfl rfl fun i p hi ↦ (updating_of_done hi).2
  · have hlive := update_live (s := { s with
      completes := Function.update s.completes k (some ⟨q, .retry, true⟩) }) (p := q)
        (nextJob j.incoming.retryDelay j.retryCount j.failCount)
    obtain ⟨hq, hlt, hone⟩ := h.updating k q hk
    refine ⟨?_, fun p hp ↦ ?_, fun i p hi ↦ ?_⟩
    · rw [hlive.nodup_iff]
      exact List.nodup_cons.mpr ⟨hq, h.nodup⟩
    · rw [hlive.mem_iff, List.mem_cons] at hp
      simp only [update, List.length_modify]
      exact hp.elim (fun he ↦ he ▸ hlt) (h.alloc p)
    · obtain ⟨hik, hp⟩ := updating_of_done hi
      obtain ⟨hpl, hplt, hpone⟩ := h.updating i p hp
      refine ⟨?_, by simpa only [update, List.length_modify] using hplt, fun i' hi' ↦ ?_⟩
      · rw [hlive.mem_iff, List.mem_cons]
        rintro (rfl | hpl')
        · exact hik (hone i hp)
        · exact hpl hpl'
      · exact hpone i' (updating_of_done hi').2

theorem step_inv {e : Event} (h : Inv s) (he : step s e = some t) : Inv t := by
  cases e with
  | tick ms => cases he; exact h.of_perm .rfl rfl fun _ _ ↦ id
  | takeId => cases he; exact h.of_perm .rfl rfl fun _ _ ↦ id
  | push j => cases he; exact h.push j
  | pop limit =>
    obtain ⟨hlive, hobj, hcalls⟩ := pop_live he
    exact h.of_perm hlive hobj fun i q hi ↦ by rwa [State.updating, ← hcalls]
  | complete k p res => exact h.complete he
  | finish k => exact h.finish he

theorem initial_inv : Inv .initial := by
  refine ⟨List.nodup_nil, ?_, ?_⟩
  · intro p hp
    cases hp
  · intro k p hk
    cases hk

theorem Run.inv {es : List Event} (h : Run es s) : Inv s :=
  invariant Inv (fun _ _ _ ↦ step_inv) h initial_inv

theorem retired_of_complete {res : Result} (hinv : Inv s) (h : complete s k p res = some t)
    (htaken : completion res (s.retryCount p) ≠ .retry) : Retired t p := by
  obtain ⟨hlive, hobj, -, hcalls⟩ := complete_live h
  have hnd := List.nodup_cons.mp (hlive.nodup_iff.mp hinv.nodup)
  have hp : p ∈ s.live := hlive.mem_iff.mpr (by simp)
  refine ⟨hobj ▸ hinv.alloc p hp, hnd.1, fun i hi ↦ ?_⟩
  rw [State.updating, hcalls] at hi
  rcases updating_update hi with ⟨-, hc⟩ | ⟨-, hi⟩
  · exact htaken (congrArg CompleteCall.taken hc)
  · exact (hinv.updating i p hi).1 hp

/-- The object of a retired job is not written any more. -/
theorem retired_step {e : Event} (h : Retired s p) (he : step s e = some t) :
    Retired t p ∧ t.retryCount p = s.retryCount p := by
  have hkeep (hlive : p ∉ t.live) (hobj : t.objects[p]? = s.objects[p]?)
      (hcalls : ∀ i, ¬ t.updating i p) : Retired t p ∧ t.retryCount p = s.retryCount p := by
    refine ⟨⟨?_, hlive, hcalls⟩, by rw [State.retryCount, hobj, State.retryCount]⟩
    have hsome := List.getElem?_eq_getElem h.alloc
    rw [← hobj] at hsome
    exact (List.getElem?_eq_some_iff.mp hsome).1
  cases e with
  | tick ms => cases he; exact hkeep h.notLive rfl h.notUpdating
  | takeId => cases he; exact hkeep h.notLive rfl h.notUpdating
  | push j =>
    cases he
    refine hkeep ?_ (List.getElem?_append_left h.alloc) h.notUpdating
    rw [(push_live j).mem_iff, List.mem_cons]
    exact not_or_intro (Nat.ne_of_lt h.alloc) h.notLive
  | pop limit =>
    obtain ⟨hlive, hobj, hcalls⟩ := pop_live he
    refine hkeep (mt hlive.mem_iff.mp h.notLive) (by rw [hobj]) fun i hi ↦ ?_
    rw [State.updating, hcalls] at hi
    exact h.notUpdating i hi
  | complete k q res =>
    obtain ⟨hlive, hobj, -, hcalls⟩ := complete_live he
    have hpq : ¬ q = p := fun hq ↦ h.notLive (hlive.mem_iff.mpr (by simp [hq]))
    refine hkeep (fun hp ↦ h.notLive (hlive.mem_iff.mpr (by simp [hp]))) (by rw [hobj]) ?_
    intro i hi
    rw [State.updating, hcalls] at hi
    rcases updating_update hi with ⟨-, hc⟩ | ⟨-, hi⟩
    · exact hpq (congrArg CompleteCall.job hc)
    · exact h.notUpdating i hi
  | finish k =>
    rcases finish_cases he with ⟨q, taken, -, -, rfl⟩ | ⟨q, j, hk, -, rfl⟩
    · exact hkeep h.notLive rfl fun i hi ↦ h.notUpdating i (updating_of_done hi).2
    · have hpq : p ≠ q := fun hq ↦ h.notUpdating k (hq ▸ hk)
      refine hkeep ?_ (update_objects hpq) fun i hi ↦ ?_
      · rw [(update_live _).mem_iff, List.mem_cons]
        exact not_or_intro hpq h.notLive
      · exact h.notUpdating i (updating_of_done hi).2

end Invariant

def Finished (s : State) (p : ℕ) : Prop :=
  ∃ k taken done, s.completes k = some ⟨p, taken, done⟩ ∧ taken ≠ .retry

def Present (s : State) (p : ℕ) : Prop := p ∈ s.live ∨ ∃ k, s.updating k p

def Located (s : State) : Prop := ∀ p < s.objects.length, Present s p ∨ Finished s p

section Located

variable {s t : State} {e : Event} {k p : ℕ}

/-- What was pushed with a job, and its id, stay with its object. -/
theorem object_step {j : Job} (h : step s e = some t) (hj : s.objects[p]? = some j) :
    ∃ j', t.objects[p]? = some j' ∧ j'.incoming = j.incoming ∧ j'.id = j.id := by
  have hlt : p < s.objects.length := (List.getElem?_eq_some_iff.mp hj).1
  cases e with
  | tick | takeId => cases h; exact ⟨j, hj, rfl, rfl⟩
  | push i =>
    cases h
    exact ⟨j, (List.getElem?_append_left hlt).trans hj, rfl, rfl⟩
  | pop limit => exact ⟨j, (pop_live h).2.1 ▸ hj, rfl, rfl⟩
  | complete k q res => exact ⟨j, (complete_live h).2.1 ▸ hj, rfl, rfl⟩
  | finish k =>
    rcases finish_cases h with ⟨q, taken, -, -, rfl⟩ | ⟨q, j', -, -, rfl⟩
    · exact ⟨j, hj, rfl, rfl⟩
    · by_cases hpq : p = q
      · subst hpq
        simp only [update, List.getElem?_modify_eq, hj, Option.map_eq_map, Option.map_some,
          Option.some.injEq]
        exact ⟨_, rfl, rfl, rfl⟩
      · exact ⟨j, (update_objects hpq).trans hj, rfl, rfl⟩

theorem Finished.step (hf : Finished s p) (h : step s e = some t) : Finished t p := by
  obtain ⟨i, taken, done, hi, hne⟩ := hf
  have hset {k : ℕ} {c : CompleteCall}
      (ht : t.completes = Function.update s.completes k (some c))
      (hc : k = i → c.job = p ∧ c.taken = taken) : Finished t p := by
    by_cases hk : i = k
    · subst hk
      obtain ⟨rfl, rfl⟩ := hc rfl
      exact ⟨i, c.taken, c.done, by rw [ht, Function.update_self], hne⟩
    · exact ⟨i, taken, done, by rw [ht, Function.update_of_ne hk, hi], hne⟩
  cases e with
  | tick | takeId | push => cases h; exact ⟨i, taken, done, hi, hne⟩
  | pop limit =>
    rw [Finished, (pop_live h).2.2]
    exact ⟨i, taken, done, hi, hne⟩
  | complete k q res =>
    obtain ⟨-, -, hk, ht⟩ := complete_live h
    refine hset ht fun hki ↦ ?_
    rw [hki, hi] at hk
    cases hk
  | finish k =>
    rcases finish_cases h with ⟨q, taken', hk, -, rfl⟩ | ⟨q, j, hk, -, rfl⟩
    · refine hset rfl fun hki ↦ ?_
      rw [hki, hi] at hk
      cases hk
      exact ⟨rfl, rfl⟩
    · refine hset rfl fun hki ↦ ?_
      rw [State.updating, hki, hi] at hk
      cases hk
      exact absurd rfl hne

theorem Located.step (hl : Located s) (h : InMemory.step s e = some t) : Located t := by
  have hsame (hobj : t.objects = s.objects)
      (hkeep : ∀ q, Present s q → Present t q ∨ Finished t q) : Located t := fun q hq ↦ by
    rcases hl q (hobj ▸ hq) with hp | hf
    · exact hkeep q hp
    · exact .inr (hf.step h)
  cases e with
  | tick | takeId => cases h; exact hl
  | push j =>
    cases h
    have hlive := push_live (s := s) j
    intro q hq
    rcases Nat.lt_or_eq_of_le (Nat.le_of_lt_succ (by simpa [push] using hq)) with hlt | rfl
    · rcases hl q hlt with (hp | hp) | hf
      · exact .inl (.inl (hlive.mem_iff.mpr (List.mem_cons_of_mem _ hp)))
      · exact .inl (.inr hp)
      · exact .inr hf
    · exact .inl (.inl (hlive.mem_iff.mpr List.mem_cons_self))
  | pop limit =>
    obtain ⟨hlive, hobj, hcalls⟩ := pop_live h
    refine hsame hobj fun q hq ↦ .inl ?_
    rcases hq with hq | ⟨k, hk⟩
    · exact .inl (hlive.mem_iff.mpr hq)
    · exact .inr ⟨k, by rwa [State.updating, hcalls]⟩
  | complete k p res =>
    obtain ⟨hlive, hobj, hk, ht⟩ := complete_live h
    refine hsame hobj fun q hq ↦ ?_
    rcases hq with hq | ⟨i, hi⟩
    · rcases List.mem_cons.mp (hlive.mem_iff.mp hq) with rfl | hq
      · by_cases hc : completion res (s.retryCount q) = .retry
        · exact .inl (.inr ⟨k, by rw [State.updating, ht, Function.update_self, hc]⟩)
        · exact .inr ⟨k, _, _, by rw [ht, Function.update_self], hc⟩
      · exact .inl (.inl hq)
    · refine .inl (.inr ⟨i, ?_⟩)
      have hik : i ≠ k := by
        intro heq
        rw [State.updating, heq, hk] at hi
        cases hi
      rw [State.updating, ht, Function.update_of_ne hik]
      exact hi
  | finish k =>
    rcases finish_cases h with ⟨q, taken, hk, hne, rfl⟩ | ⟨q, j, hk, hj, rfl⟩
    · refine hsame rfl fun p hp ↦ .inl ?_
      rcases hp with hp | ⟨i, hi⟩
      · exact .inl hp
      · refine .inr ⟨i, ?_⟩
        have hik : i ≠ k := by
          intro heq
          rw [State.updating, heq, hk] at hi
          cases hi
          exact hne rfl
        exact (Function.update_of_ne hik _ _).trans hi
    · have hlive := update_live (s := { s with
        completes := Function.update s.completes k (some ⟨q, .retry, true⟩) }) (p := q)
          (nextJob j.incoming.retryDelay j.retryCount j.failCount)
      intro p hp
      simp only [update, List.length_modify] at hp
      rcases hl p hp with (hp | ⟨i, hi⟩) | hf
      · exact .inl (.inl (hlive.mem_iff.mpr (List.mem_cons_of_mem _ hp)))
      · by_cases hik : i = k
        · rw [State.updating, hik, hk] at hi
          cases hi
          exact .inl (.inl (hlive.mem_iff.mpr List.mem_cons_self))
        · exact .inl (.inr ⟨i, (Function.update_of_ne hik _ _).trans hi⟩)
      · exact .inr (hf.step h)

theorem located_initial : Located .initial := fun _ hp ↦ absurd hp (Nat.not_lt_zero _)

end Located

end Fireworq.InMemory
