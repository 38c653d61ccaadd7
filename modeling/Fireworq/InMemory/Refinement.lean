import Fireworq.InMemory.Queue
import Fireworq.JobQueue.Spec

namespace Fireworq.InMemory

open JobQueue GoInt Execution Function Refinement BinaryHeap

structure Popped (objects : List Job) (now limit : ℕ) (queue rest : Array ℕ) (out : List ℕ) :
    Prop where
  heap : IsHeap (less objects) rest.size rest
  sorted : out.Pairwise fun p q ↦ nextTry objects p ≤ nextTry objects q
  due : ∀ p ∈ out, nextTry objects p ≤ now
  earliest : ∀ p ∈ out, ∀ q ∈ rest, nextTry objects p ≤ nextTry objects q
  length : out.length = min limit (queue.toList.countP fun p ↦ nextTry objects p ≤ now)

section Heap

variable {objects : List Job} {now limit p q : ℕ} {queue rest : Array ℕ} {out : List ℕ}

theorem less_eq_false : less objects p q = false ↔ nextTry objects q ≤ nextTry objects p := by
  rw [less, decide_eq_false_iff_not, Nat.not_lt]

theorem less_weak (objects : List Job) : Weak (less objects) := by
  refine ⟨fun p q h ↦ ?_, fun p q r h₁ h₂ ↦ ?_⟩
  · rw [less, decide_eq_true_eq] at h
    exact less_eq_false.mpr (Nat.le_of_lt h)
  · rw [less_eq_false] at *
    exact Nat.le_trans h₁ h₂

theorem Popped.none (h : IsHeap (less objects) queue.size queue)
    (hnone : limit = 0 ∨ ∀ p ∈ queue, now < nextTry objects p) :
    Popped objects now limit queue queue [] := by
  refine ⟨h, .nil, nofun, nofun, ?_⟩
  rcases hnone with rfl | hnone
  · rw [Nat.zero_min, List.length_nil]
  · have hcount : queue.toList.countP (fun p ↦ nextTry objects p ≤ now) = 0 := by
      rw [List.countP_eq_zero]
      intro p hp
      have hlt := hnone p (Array.mem_toList_iff.mp hp)
      simpa using hlt
    rw [hcount, Nat.min_zero, List.length_nil]

theorem Popped.cons {queue' : Array ℕ} (h : Popped objects now limit queue' rest out)
    (hheap : IsHeap (less objects) queue.size queue)
    (hpop : BinaryHeap.pop (less objects) queue = some (p, queue')) (hdue : nextTry objects p ≤ now)
    (hperm : queue'.toList.Perm (rest.toList ++ out)) :
    Popped objects now (limit + 1) queue rest (p :: out) := by
  have hmin : ∀ q ∈ queue, nextTry objects p ≤ nextTry objects q := fun q hq ↦
    less_eq_false.mp (pop_minimum (less_weak objects) hheap hpop hq)
  have hsub : ∀ q ∈ rest.toList ++ out, q ∈ queue := by
    intro q hq
    have hq' := (pop_perm hpop).mem_iff.mpr (List.mem_cons_of_mem p (hperm.mem_iff.mpr hq))
    exact Array.mem_toList_iff.mp hq'
  refine ⟨h.heap, ?_, ?_, ?_, ?_⟩
  · rw [List.pairwise_cons]
    exact ⟨fun q hq ↦ hmin q (hsub q (List.mem_append_right _ hq)), h.sorted⟩
  · intro q hq
    rcases List.mem_cons.mp hq with rfl | hq
    · exact hdue
    · exact h.due q hq
  · intro q hq r hr
    rcases List.mem_cons.mp hq with rfl | hq
    · exact hmin r (hsub r (List.mem_append_left _ (Array.mem_toList_iff.mpr hr)))
    · exact h.earliest q hq r hr
  · rw [(pop_perm hpop).countP_eq, List.countP_cons_of_pos (by simpa using hdue), List.length_cons,
      h.length]
    omega

theorem popLoop_popped (limit : ℕ) (h : IsHeap (less objects) queue.size queue) :
    Popped objects now limit queue (popLoop objects now limit queue).1
      (popLoop objects now limit queue).2 := by
  induction limit generalizing queue with
  | zero => exact .none h (.inl rfl)
  | succ i ih =>
    rw [popLoop]
    cases hpop : BinaryHeap.pop (less objects) queue with
    | none =>
      rw [pop_eq_none hpop]
      refine .none (pop_eq_none hpop ▸ h) (.inr ?_)
      intro p hp
      cases Array.not_mem_empty p hp
    | some popped =>
      obtain ⟨p, queue'⟩ := popped
      rw [pop_root hpop]
      dsimp only
      split
      · rename_i hlate
        refine .none h (.inr fun q hq ↦ ?_)
        exact Nat.lt_of_lt_of_le hlate
          (less_eq_false.mp (pop_minimum (less_weak objects) h hpop hq))
      · rename_i hdue
        exact (ih (pop_isHeap (less_weak objects) h hpop)).cons h hpop (Nat.not_lt.mp hdue)
          (popLoop_perm objects now i queue')

end Heap

def Job.view (key : ℕ) (j : Job) : Spec.Job where
  key := key
  id := j.id
  category := j.incoming.category
  url := j.incoming.url
  payload := j.incoming.payload
  timeout := j.incoming.timeout
  retryDelay := j.incoming.retryDelay
  failureUrl := j.incoming.failureUrl
  createdAt := j.createdAt
  nextTry := j.nextTry
  retryCount := j.retryCount
  failCount := j.failCount

def view (objects : List Job) (p : ℕ) : Spec.Job :=
  (objects[p]?.map (Job.view p)).getD (Spec.accept 0 p 0 ⟨"", "", "", 0, 0, 0, 0, ""⟩)

section View

variable {objects : List Job} {p q : ℕ} {j : Job}

theorem view_of_some (h : objects[p]? = some j) : view objects p = j.view p := by
  rw [view, h, Option.map_some, Option.getD_some]

@[simp] theorem view_key (objects : List Job) (p : ℕ) : (view objects p).key = p := by
  rw [view]
  cases objects[p]? <;> rfl

theorem view_nextTry (objects : List Job) (p : ℕ) :
    (view objects p).nextTry = nextTry objects p := by
  rw [view, nextTry]
  cases objects[p]? <;> rfl

theorem view_retryCount (s : State) (p : ℕ) : (view s.objects p).retryCount = s.retryCount p := by
  rw [view, State.retryCount]
  cases s.objects[p]? <;> rfl

theorem view_injective (objects : List Job) : Injective (view objects) := by
  intro p q h
  rw [← view_key objects p, h, view_key]

theorem view_congr {objects' : List Job} {ps : List ℕ}
    (h : ∀ p ∈ ps, objects'[p]? = objects[p]?) :
    ps.map (view objects') = ps.map (view objects) := by
  refine List.map_congr_left fun p hp ↦ ?_
  rw [view, view, h p hp]

theorem less_congr {objects' : List Job} (hp : objects'[p]? = objects[p]?)
    (hq : objects'[q]? = objects[q]?) : less objects' p q = less objects p q := by
  rw [less, less, nextTry, nextTry, nextTry, nextTry, hp, hq]

end View

/-- An operation of the queue with its answer. The jobs of a call of `Pop` are
the ones that it adds to the held jobs. -/
inductive Does : State → Spec.Label → State → Prop
  | tick {s t : State} {ms : ℕ} : step s (.tick ms) = some t → Does s (.tick ms) t
  | takeId {s t : State} : step s .takeId = some t → Does s (.tick 0) t
  | push {s t : State} {i : IncomingJob} : step s (.push i) = some t →
      Does s (.push i s.objects.length (uint64 (s.lastId + 1))) t
  | pop {s t : State} {limit : ℕ} {out : List ℕ} : step s (.pop limit) = some t →
      t.held = s.held ++ out → Does s (.pop limit (out.map (view s.objects))) t
  | complete {s t : State} {k p : ℕ} {res : Result} :
      exec step s [.complete k p res, .finish k] = some t →
      Does s (.complete (view s.objects p) res) t

structure Represents (s : State) (a : Spec.State) : Prop where
  now : a.now = s.now
  waiting : a.waiting = s.queue.toList.map (view s.objects)
  held : a.held = s.held.map (view s.objects)
  used : ∀ key ∈ a.used, key < s.objects.length
  heap : IsHeap (less s.objects) s.queue.size s.queue

structure Related (s : State) (a : Spec.State) : Prop extends Represents s a where
  inv : Inv s
  keys : Spec.KeyInv a
  counts : Spec.CountInv (2 ^ 64) a
  calls : ∃ n, ∀ k, n ≤ k → s.completes k = none

section Simulation

variable {s t : State} {a : Spec.State} {l : Spec.Label}

theorem Related.initial : Related .initial .initial where
  now := rfl
  waiting := rfl
  held := rfl
  used := nofun
  heap := nofun
  inv := initial_inv
  keys := .initial
  counts := nofun
  calls := ⟨0, fun _ _ ↦ rfl⟩

theorem newJob_view {now key id : ℕ} {i : IncomingJob} (h : now + i.nextDelay < 2 ^ 64) :
    (newJob now id i).view key = Spec.accept now key id i := by
  have hnext : uint64 ((now : ℤ) + i.nextDelay) = now + i.nextDelay := by
    rw [show (now : ℤ) + i.nextDelay = (now + i.nextDelay : ℕ) by omega, uint64_natCast h]
  simp only [Job.view, newJob, Spec.accept, hnext]

theorem Represents.enqueue {p : ℕ} {used : Set ℕ} (h : Represents s a)
    (hold : ∀ q ∈ s.live, t.objects[q]? = s.objects[q]?) (hnow : t.now = s.now)
    (hqueue : t.queue = BinaryHeap.push (less t.objects) s.queue p) (hheld : t.held = s.held)
    (hused : ∀ key ∈ used, key < t.objects.length) :
    Represents t { a with waiting := view t.objects p ::ₘ a.waiting, used := used } := by
  have hsame : ∀ q ∈ s.queue.toList, t.objects[q]? = s.objects[q]? :=
    fun q hq ↦ hold q (List.mem_append_left _ hq)
  refine ⟨hnow ▸ h.now, ?_, ?_, hused, ?_⟩
  · have hperm : t.queue.toList.Perm (p :: s.queue.toList) :=
      hqueue ▸ BinaryHeap.push_perm s.queue p
    rw [h.waiting, ← view_congr hsame, Multiset.cons_coe, ← List.map_cons]
    exact Multiset.coe_eq_coe.mpr (hperm.symm.map _)
  · rw [hheld, view_congr fun q hq ↦ hold q (List.mem_append_right _ hq)]
    exact h.held
  · rw [hqueue]
    refine BinaryHeap.push_isHeap (less_weak _) (h.heap.congr fun q hq r hr ↦ ?_) _
    exact less_congr (hsame q (Array.mem_toList_iff.mpr hq)) (hsame r (Array.mem_toList_iff.mpr hr))

theorem Represents.push {i : IncomingJob} (h : Represents s a) (hinv : Inv s)
    (hlt : s.now + i.nextDelay < 2 ^ 64) :
    Represents (push s i) { a with
      waiting := Spec.accept a.now s.objects.length (uint64 (s.lastId + 1)) i ::ₘ a.waiting
      used := insert s.objects.length a.used } := by
  have hold : ∀ p ∈ s.live, (InMemory.push s i).objects[p]? = s.objects[p]? :=
    fun p hp ↦ List.getElem?_append_left (hinv.alloc p hp)
  have hnew : view (InMemory.push s i).objects s.objects.length =
      Spec.accept s.now s.objects.length (uint64 (s.lastId + 1)) i := by
    rw [view_of_some (j := newJob s.now (uint64 (s.lastId + 1)) i), newJob_view hlt]
    exact List.getElem?_concat_length
  rw [← h.now] at hnew
  rw [← hnew]
  refine h.enqueue hold rfl rfl rfl fun key hkey ↦ ?_
  have hlen : (InMemory.push s i).objects.length = s.objects.length + 1 := by
    simp [InMemory.push]
  rw [hlen]
  rcases Set.mem_insert_iff.mp hkey with rfl | hkey
  · exact Nat.lt_succ_self _
  · exact Nat.lt_succ_of_lt (h.used key hkey)

theorem Represents.pop {limit : ℕ} {out : List ℕ} (h : Represents s a) (hkeys : Spec.KeyInv a)
    (hpop : pop s limit = some t) (hout : t.held = s.held ++ out) :
    ∃ rest, Spec.Pops a.now limit a.waiting (out.map (view s.objects)) rest ∧
      Represents t { a with waiting := rest, held := a.held + out.map (view s.objects) } := by
  unfold InMemory.pop at hpop
  split at hpop <;> cases hpop
  obtain rfl := List.append_cancel_left hout
  have hp : Popped s.objects s.now limit s.queue _ _ := popLoop_popped limit h.heap
  have hperm := popLoop_perm s.objects s.now limit s.queue
  generalize popLoop s.objects s.now limit s.queue = popped at hp hperm ⊢
  obtain ⟨queue, out⟩ := popped
  have hsplit : a.waiting = (out.map (view s.objects) : List Spec.Job) +
      (queue.toList.map (view s.objects) : List Spec.Job) := by
    rw [h.waiting, Multiset.coe_add, ← List.map_append, Multiset.coe_eq_coe]
    exact (hperm.trans List.perm_append_comm).map _
  refine ⟨_, ⟨hsplit, hkeys.nodup_out hsplit, ?_, ?_, ?_, ?_⟩, h.now, rfl, ?_, h.used, hp.heap⟩
  · rw [List.pairwise_map]
    simpa only [view_nextTry] using hp.sorted
  · rw [List.length_map, hp.length, h.waiting, Multiset.coe_countP, List.countP_map, h.now]
    simp only [comp_def, view_nextTry]
  · intro j hj
    obtain ⟨p, hmem, rfl⟩ := List.mem_map.mp hj
    rw [view_nextTry, h.now]
    exact hp.due p hmem
  · intro j hj i hi _
    obtain ⟨p, hmem, rfl⟩ := List.mem_map.mp hj
    obtain ⟨q, hrest, rfl⟩ := List.mem_map.mp (Multiset.mem_coe.mp hi)
    rw [view_nextTry, view_nextTry]
    exact hp.earliest p hmem q (Array.mem_toList_iff.mp hrest)
  · dsimp only
    rw [h.held, Multiset.coe_add, ← List.map_append]

/-- A whole call of `Complete`. -/
theorem completed_cases {k p : ℕ} {res : Result}
    (h : exec step s [.complete k p res, .finish k] = some t) :
    p ∈ s.held ∧ ∃ calls : ℕ → Option CompleteCall, (∀ i, i ≠ k → calls i = s.completes i) ∧
      (completion res (s.retryCount p) ≠ .retry ∧
        t = { s with held := s.held.erase p, completes := calls } ∨
      completion res (s.retryCount p) = .retry ∧ ∃ j, s.objects[p]? = some j ∧
        t = update { s with held := s.held.erase p, completes := calls } p
          (nextJob j.incoming.retryDelay j.retryCount j.failCount)) := by
  obtain ⟨u, hu, h⟩ := exec_cons h
  obtain ⟨v, hv, h⟩ := exec_cons h
  cases h
  change complete s k p res = some u at hu
  unfold complete at hu
  split at hu <;> cases hu
  rename_i hheld
  refine ⟨hheld.1, ?_⟩
  have hothers {taken : Completion} {c : CompleteCall} (i : ℕ) (hi : i ≠ k) :
      Function.update (Function.update s.completes k (some ⟨p, taken, false⟩)) k (some c) i =
        s.completes i := by
    rw [Function.update_of_ne hi, Function.update_of_ne hi]
  rcases finish_cases hv with ⟨q, taken, hk, hne, rfl⟩ | ⟨q, j, hk, hj, rfl⟩
  · dsimp only at hk
    rw [Function.update_self] at hk
    cases hk
    exact ⟨_, hothers, .inl ⟨hne, rfl⟩⟩
  · dsimp only [State.updating] at hk
    rw [Function.update_self] at hk
    obtain ⟨rfl, hr, -⟩ := CompleteCall.mk.inj (Option.some.inj hk)
    exact ⟨_, hothers, .inr ⟨hr, j, hj, rfl⟩⟩

theorem Represents.erase {p : ℕ} (h : Represents s a) (calls : ℕ → Option CompleteCall) :
    Represents { s with held := s.held.erase p, completes := calls }
      { a with held := a.held.erase (view s.objects p) } := by
  refine ⟨h.now, h.waiting, ?_, h.used, h.heap⟩
  rw [h.held, Multiset.coe_erase, ← List.map_erase (view_injective s.objects)]

theorem nextJob_view {now key : ℕ} {j : Job} (hpos : 0 < j.retryCount)
    (hcount : j.retryCount + j.failCount < 2 ^ 64)
    (hlt : now + nextDelay j.incoming.retryDelay < 2 ^ 64) :
    Job.view key { j with
      nextTry := uint64 (now +
        (nextJob j.incoming.retryDelay j.retryCount j.failCount).nextDelay)
      retryCount := (nextJob j.incoming.retryDelay j.retryCount j.failCount).retryCount
      failCount := (nextJob j.incoming.retryDelay j.retryCount j.failCount).failCount } =
    (j.view key).retry now := by
  have hnext : uint64 ((now : ℤ) + nextDelay j.incoming.retryDelay) =
      now + nextDelay j.incoming.retryDelay := by
    rw [show (now : ℤ) + nextDelay j.incoming.retryDelay =
      (now + nextDelay j.incoming.retryDelay : ℕ) by omega, uint64_natCast hlt]
  have hretry : uint64 ((j.retryCount : ℤ) - 1) = j.retryCount - 1 :=
    uint64_pred hpos (by omega)
  have hfail : uint64 ((j.failCount : ℤ) + 1) = j.failCount + 1 := by
    rw [show (j.failCount : ℤ) + 1 = (j.failCount + 1 : ℕ) by omega, uint64_natCast (by omega)]
  simp only [Job.view, nextJob, Spec.Job.retry, hnext, hretry, hfail]

theorem Represents.update {p : ℕ} {j : Job} {next : NextInfo} (h : Represents s a)
    (hp : p ∉ s.live) (hj : s.objects[p]? = some j)
    (hview : Job.view p { j with
      nextTry := uint64 (s.now + next.nextDelay)
      retryCount := next.retryCount
      failCount := next.failCount } = (j.view p).retry s.now) :
    Represents (update s p next) { a with
      waiting := (view s.objects p).retry a.now ::ₘ a.waiting } := by
  have hold : ∀ q ∈ s.live, (InMemory.update s p next).objects[q]? = s.objects[q]? := by
    intro q hq
    refine update_objects ?_
    rintro rfl
    exact hp hq
  have hnew : view (InMemory.update s p next).objects p = (view s.objects p).retry s.now := by
    rw [view_of_some hj, ← hview]
    refine view_of_some ?_
    simp only [InMemory.update, List.getElem?_modify_eq, hj, Option.map_eq_map, Option.map_some]
  rw [← h.now] at hnew
  rw [← hnew]
  refine h.enqueue hold rfl rfl rfl ?_
  simpa only [InMemory.update, List.length_modify] using h.used

theorem Related.mem_held {p : ℕ} (h : Related s a) :
    view s.objects p ∈ a.held ↔ p ∈ s.held := by
  rw [h.held, Multiset.mem_coe, List.mem_map_of_injective (view_injective s.objects)]

theorem Related.complete {k p : ℕ} {res : Result} (h : Related s a)
    (hl : (Spec.Label.complete (view s.objects p) res).InRange s.now)
    (hc : exec step s [.complete k p res, .finish k] = some t) :
    ∃ b, Spec.Steps a (.complete (view s.objects p) res) b ∧ Represents t b := by
  obtain ⟨hheld, calls, -, ⟨hne, rfl⟩ | ⟨hr, j, hj, rfl⟩⟩ := completed_cases hc
  · rw [← view_retryCount] at hne
    exact ⟨_, .delete (h.mem_held.mpr hheld) hne, h.toRepresents.erase calls⟩
  · rw [← view_retryCount] at hr
    refine ⟨_, .retry (h.mem_held.mpr hheld) hr, ?_⟩
    have hlt := hl hr
    have hpos := retryCount_pos hr
    have hcount := h.counts _ (Multiset.mem_add.mpr (.inr (h.mem_held.mpr hheld)))
    rw [view_of_some hj] at hlt hpos hcount
    have hp : p ∉ State.live { s with held := s.held.erase p, completes := calls } := by
      have hperm : s.live.Perm (p :: (s.queue.toList ++ s.held.erase p)) :=
        ((List.perm_cons_erase hheld).append_left _).trans List.perm_middle
      exact (List.nodup_cons.mp (hperm.nodup_iff.mp h.inv.nodup)).1
    exact (h.toRepresents.erase calls).update hp hj (nextJob_view hpos hcount hlt)

theorem Related.follow (h : Related s a) (hl : l.InRange s.now) (hd : Does s l t) :
    ∃ b, Spec.Steps a l b ∧ Represents t b := by
  cases hd with
  | tick ht =>
    cases ht
    refine ⟨_, .tick, ?_, h.waiting, h.held, h.used, h.heap⟩
    exact congrArg (· + _) h.now
  | takeId ht => cases ht; exact ⟨_, .tick, h.now, h.waiting, h.held, h.used, h.heap⟩
  | push ht =>
    cases ht
    refine ⟨_, .push fun hused ↦ ?_, h.toRepresents.push h.inv hl.1⟩
    exact Nat.lt_irrefl _ (h.used _ hused)
  | pop ht hout =>
    obtain ⟨rest, hp, ht⟩ := h.toRepresents.pop h.keys ht hout
    exact ⟨_, .pop hp, ht⟩
  | complete ht => exact h.complete hl ht

/-- An operation is an execution of the queue, in which at most one call of
`Complete` starts. -/
theorem Does.exec (hd : Does s l t) : ∃ es, exec step s es = some t ∧
    ∃ k, ∀ i, i ≠ k → t.completes i = s.completes i := by
  cases hd with
  | tick ht | takeId ht | push ht =>
    refine ⟨[_], by rw [Execution.exec, ht]; rfl, 0, fun i _ ↦ ?_⟩
    cases ht
    rfl
  | pop ht =>
    obtain ⟨-, -, hcalls⟩ := pop_live ht
    exact ⟨[_], by rw [Execution.exec]; exact Option.bind_eq_some_iff.mpr ⟨_, ht, rfl⟩, 0,
      fun i _ ↦ by rw [hcalls]⟩
  | @complete _ k p res ht =>
    refine ⟨_, ht, k, ?_⟩
    obtain ⟨-, calls, hcalls, ⟨-, rfl⟩ | ⟨-, j, -, rfl⟩⟩ := completed_cases ht <;> exact hcalls

theorem simulates :
    Simulates (fun s l t ↦ l.InRange s.now ∧ Does s l t) Spec.Steps Related := by
  intro s a l t h ⟨hl, hd⟩
  obtain ⟨b, hb, ht⟩ := h.follow hl hd
  obtain ⟨es, hes, k, hk⟩ := hd.exec
  refine ⟨b, hb, ⟨ht, invariant Inv (fun _ _ _ ↦ step_inv) hes h.inv, h.keys.step hb, ?_, ?_⟩⟩
  · refine h.counts.step hb fun i key id he ↦ ?_
    subst he
    exact hl.2
  · obtain ⟨n, hn⟩ := h.calls
    refine ⟨max n (k + 1), fun i hi ↦ ?_⟩
    rw [hk i (by omega)]
    exact hn i (by omega)

theorem finish_returns {k p : ℕ} {taken : Completion} (hk : s.completes k = some ⟨p, taken, false⟩)
    (hp : p < s.objects.length) : ∃ t, finish s k = some t := by
  unfold finish
  rw [hk]
  cases taken with
  | succeed | failPermanently => exact ⟨_, rfl⟩
  | retry =>
    dsimp only
    rw [List.getElem?_eq_getElem hp]
    exact ⟨_, rfl⟩

/-- `Pop` returns whenever it can allocate its answer, and `Push` and
`Complete` always return. -/
theorem Related.responds (h : Related s a) :
    Spec.Responds Does (fun _ ↦ True) s a.held where
  push i _ := ⟨_, _, _, .push rfl⟩
  pop limit hm := ⟨_, _, .pop (if_pos hm) rfl⟩
  complete j hj res := by
    rw [h.held, Multiset.mem_coe, List.mem_map] at hj
    obtain ⟨p, hp, rfl⟩ := hj
    obtain ⟨n, hn⟩ := h.calls
    have hc : InMemory.complete s n p res = some { s with
        held := s.held.erase p
        completes := Function.update s.completes n
          (some ⟨p, completion res (s.retryCount p), false⟩) } :=
      if_pos ⟨hp, hn n (Nat.le_refl n)⟩
    obtain ⟨t, ht⟩ := finish_returns (s := { s with
        held := s.held.erase p
        completes := Function.update s.completes n
          (some ⟨p, completion res (s.retryCount p), false⟩) })
      (Function.update_self n _ _) (h.inv.alloc p (List.mem_append_right _ hp))
    refine ⟨t, .complete (k := n) ?_⟩
    refine Option.bind_eq_some_iff.mpr ⟨_, hc, ?_⟩
    exact Option.bind_eq_some_iff.mpr ⟨t, ht, rfl⟩

end Simulation

end Fireworq.InMemory
