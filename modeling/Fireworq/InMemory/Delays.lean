import Fireworq.InMemory.Queue

namespace Fireworq.InMemory

open JobQueue GoInt Execution

def State.popped (s : State) (limit : ℕ) : List ℕ :=
  (popLoop s.objects s.now limit s.queue).2

def Waits (p : ℕ) (s : State) (es : List Event) : Prop :=
  Along step (fun u e ↦ ∀ limit, e = .pop limit → p ∉ u.popped limit) s es

/-- From a state on, the next `Pop` that returns the job is not before a time. -/
def NotBefore (time p : ℕ) (s : State) : Prop :=
  ∀ es t limit, exec step s es = some t → Waits p s es → p ∈ t.popped limit → time ≤ t.now

section Waiting

variable {s t : State} {e : Event} {p time : ℕ}

theorem popLoop_due {objects : List Job} {now limit : ℕ} {queue : Array ℕ}
    (h : p ∈ (popLoop objects now limit queue).2) : nextTry objects p ≤ now := by
  induction limit generalizing queue with
  | zero => cases h
  | succ i ih =>
    rw [popLoop] at h
    split at h
    next top q queue' htop hpop =>
      have hroot : top = q := Option.some.inj (htop.symm.trans (BinaryHeap.pop_root hpop))
      split at h
      · cases h
      · rename_i hdue
        rcases List.mem_cons.mp h with rfl | h
        · rw [← hroot]
          exact Nat.not_lt.mp hdue
        · exact ih h
    next => cases h

structure Queued (time p : ℕ) (s : State) : Prop where
  inv : Inv s
  mem : p ∈ s.queue.toList
  nextTry : nextTry s.objects p = time

theorem Queued.step (hq : Queued time p s) (he : ∀ limit, e = .pop limit → p ∉ s.popped limit)
    (h : step s e = some t) : Queued time p t := by
  have hlive : p ∈ s.live := List.mem_append_left _ hq.mem
  have hlen := hq.inv.alloc p hlive
  refine ⟨step_inv hq.inv h, ?_, ?_⟩
  · cases e with
    | tick | takeId => cases h; exact hq.mem
    | push j =>
      cases h
      exact (BinaryHeap.push_perm _ _).mem_iff.mpr (List.mem_cons_of_mem _ hq.mem)
    | pop limit =>
      have hmem := (popLoop_perm s.objects s.now limit s.queue).mem_iff.mp hq.mem
      rcases List.mem_append.mp hmem with hmem | hmem
      · simp only [InMemory.step, pop] at h
        split at h <;> cases h
        exact hmem
      · exact absurd hmem (he limit rfl)
    | complete k q res =>
      simp only [InMemory.step, complete] at h
      split at h <;> cases h
      exact hq.mem
    | finish k =>
      rcases finish_cases h with ⟨q, taken, -, -, rfl⟩ | ⟨q, j, -, -, rfl⟩
      · exact hq.mem
      · exact (BinaryHeap.push_perm _ _).mem_iff.mpr (List.mem_cons_of_mem _ hq.mem)
  · have hobject : t.objects[p]? = s.objects[p]? := by
      cases e with
      | tick | takeId => cases h; rfl
      | push j => cases h; exact List.getElem?_append_left hlen
      | pop limit => rw [(pop_live h).2.1]
      | complete k q res => rw [(complete_live h).2.1]
      | finish k =>
        rcases finish_cases h with ⟨q, taken, -, -, rfl⟩ | ⟨q, j, hk, -, rfl⟩
        · rfl
        · exact update_objects fun hpq ↦ (hq.inv.updating k q hk).1 (hpq ▸ hlive)
    rw [InMemory.nextTry, hobject]
    exact hq.nextTry

theorem Queued.notBefore (hq : Queued time p s) : NotBefore time p s := by
  intro es t limit ht hwaits hmem
  have hlast := hwaits.invariant (Queued time p) (fun _ _ _ hs hC h ↦ hs.step hC h) ht hq
  rw [← hlast.nextTry]
  exact popLoop_due hmem

end Waiting

section Scheduling

variable {s t : State} {k p : ℕ} {j : Job}

theorem push_queued (hinv : Inv s) (i : IncomingJob) :
    Queued (uint64 (s.now + i.nextDelay)) s.objects.length (push s i) where
  inv := hinv.push i
  mem := (BinaryHeap.push_perm _ _).mem_iff.mpr List.mem_cons_self
  nextTry := by simp [nextTry, push, newJob]

theorem nextTry_update {next : NextInfo} (h : s.objects[p]? = some j) :
    nextTry (update s p next).objects p = uint64 (s.now + next.nextDelay) := by
  simp only [nextTry, update, List.getElem?_modify_eq, h, Option.map_eq_map, Option.map_some,
    Option.getD_some]

theorem mem_update {next : NextInfo} : p ∈ (update s p next).queue.toList :=
  (BinaryHeap.push_perm _ _).mem_iff.mpr List.mem_cons_self

theorem finish_queued (hinv : Inv s) (hk : s.updating k p) (hj : s.objects[p]? = some j)
    (h : finish s k = some t) :
    Queued (uint64 (s.now + nextDelay j.incoming.retryDelay)) p t := by
  have hinv' : Inv t := hinv.finish h
  rcases finish_cases h with ⟨q, taken, hk', hne, -⟩ | ⟨q, i, hk', hi, rfl⟩
  · cases hk.symm.trans hk'
    exact absurd rfl hne
  · cases hk.symm.trans hk'
    cases hj.symm.trans hi
    refine ⟨hinv', mem_update, ?_⟩
    rw [← nextJob_nextDelay _ j.retryCount j.failCount]
    exact nextTry_update hj

end Scheduling

end Fireworq.InMemory
