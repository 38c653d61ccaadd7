import Fireworq.InMemory.Queue
import Fireworq.MySQL.Accounting
import Fireworq.MySQL.Fencing

namespace Fireworq.InMemory

open JobQueue GoInt Execution Function

variable {s t : State} {es : List Event} {k p : ℕ}

/-- Go's `uint` bounds the retries of a job. -/
def Event.typed : Event → Prop
  | .push j => j.retryCount < 2 ^ 64
  | _ => True

structure AccountInv (es : List Event) (s : State) : Prop where
  object : ∀ (p : ℕ) (j : Job), s.objects[p]? = some j → .push j.incoming ∈ es ∧
    j.incoming.retryCount < 2 ^ 64 ∧ j.retryCount + j.failCount = j.incoming.retryCount
  updating : ∀ k p, s.updating k p → 0 < s.retryCount p

theorem AccountInv.of_objects {e : Event} (ha : AccountInv es s) (hobj : t.objects = s.objects)
    (hcalls : ∀ i q, t.updating i q → 0 < s.retryCount q) : AccountInv (es ++ [e]) t where
  object q j hq := by
    rw [hobj] at hq
    obtain ⟨hpush, hsum⟩ := ha.object q j hq
    exact ⟨List.mem_append_left _ hpush, hsum⟩
  updating i q hi := by
    rw [State.retryCount, hobj]
    exact hcalls i q hi

theorem AccountInv.push {i : IncomingJob} (ha : AccountInv es s) (hi : Inv s)
    (hlt : i.retryCount < 2 ^ 64) : AccountInv (es ++ [.push i]) (push s i) where
  object q j hq := by
    simp only [InMemory.push] at hq
    rcases Nat.lt_trichotomy q s.objects.length with hlen | rfl | hlen
    · rw [List.getElem?_append_left hlen] at hq
      obtain ⟨hpush, hsum⟩ := ha.object q j hq
      exact ⟨List.mem_append_left _ hpush, hsum⟩
    · simp only [List.getElem?_concat_length, Option.some.injEq] at hq
      subst hq
      exact ⟨by simp [newJob], hlt, rfl⟩
    · rw [List.getElem?_eq_none (by simp; omega)] at hq
      cases hq
  updating k q hk := by
    obtain ⟨-, hlen, -⟩ := hi.updating k q hk
    have hpos := ha.updating k q hk
    simp only [State.retryCount, InMemory.push] at hpos ⊢
    rwa [List.getElem?_append_left hlen]

theorem AccountInv.complete {res : Result} (ha : AccountInv es s)
    (h : complete s k p res = some t) : AccountInv (es ++ [.complete k p res]) t := by
  obtain ⟨-, hobj, -, hcalls⟩ := complete_live h
  refine ha.of_objects hobj fun i q hi ↦ ?_
  rw [State.updating, hcalls] at hi
  rcases updating_update hi with ⟨-, hc⟩ | ⟨-, hi⟩
  · obtain rfl : p = q := congrArg CompleteCall.job hc
    exact retryCount_pos (congrArg CompleteCall.taken hc)
  · exact ha.updating i q hi

theorem AccountInv.finish (ha : AccountInv es s) (hi : Inv s) (h : finish s k = some t) :
    AccountInv (es ++ [.finish k]) t := by
  rcases finish_cases h with ⟨q, taken, -, -, rfl⟩ | ⟨q, j, hk, hj, rfl⟩
  · exact ha.of_objects rfl fun i q hi ↦ ha.updating i q (updating_of_done hi).2
  · obtain ⟨-, -, hone⟩ := hi.updating k q hk
    have hpos : 0 < j.retryCount := by
      have hpos := ha.updating k q hk
      rwa [State.retryCount, hj] at hpos
    obtain ⟨hpush, hlt, hsum⟩ := ha.object q j hj
    refine ⟨fun i j' hi ↦ ?_, fun l i hl ↦ ?_⟩
    · by_cases hiq : i = q
      · subst hiq
        simp only [update, List.getElem?_modify_eq, hj, Option.map_eq_map, Option.map_some,
          Option.some.injEq] at hi
        subst hi
        refine ⟨List.mem_append_left _ hpush, hlt, ?_⟩
        have hretry : uint64 ((j.retryCount : ℤ) - 1) = j.retryCount - 1 :=
          uint64_pred hpos (by omega)
        have hfail : uint64 ((j.failCount : ℤ) + 1) = j.failCount + 1 := by
          rw [show (j.failCount : ℤ) + 1 = (j.failCount + 1 : ℕ) by omega,
            uint64_natCast (by omega)]
        simp only [nextJob, hretry, hfail]
        omega
      · rw [update_objects hiq] at hi
        obtain ⟨hpush', hsum'⟩ := ha.object i j' hi
        exact ⟨List.mem_append_left _ hpush', hsum'⟩
    · obtain ⟨hlk, hl'⟩ := updating_of_done hl
      have hiq : i ≠ q := by
        rintro rfl
        exact hlk (hone l hl')
      rw [State.retryCount, update_objects hiq]
      exact ha.updating l i hl'

theorem AccountInv.step {e : Event} (ha : AccountInv es s) (hi : Inv s) (he : e.typed)
    (h : step s e = some t) : AccountInv (es ++ [e]) t := by
  cases e with
  | tick | takeId => cases h; exact ha.of_objects rfl ha.updating
  | push j => cases h; exact ha.push hi he
  | pop limit =>
    obtain ⟨-, hobj, hcalls⟩ := pop_live h
    refine ha.of_objects hobj fun i q hq ↦ ha.updating i q ?_
    rwa [State.updating, ← hcalls]
  | complete k p res => exact ha.complete h
  | finish k => exact ha.finish hi h

theorem Run.accountInv (h : Run es s) (ht : ∀ e ∈ es, e.typed) : AccountInv es s := by
  refine history (fun es s ↦ (∀ e ∈ es, e.typed) → AccountInv es s) (fun _ ↦ ?_)
    (fun xs u e v hu ih hstep ht ↦ ?_) h ht
  · constructor
    · intro p j hj; cases hj
    · intro k p hk; cases hk
  · exact (ih fun f hf ↦ ht f (List.mem_append_left _ hf)).step (Run.inv hu) (ht e (by simp)) hstep

structure Accounted (es : List Event) (s : State) : Prop where
  stored : ∀ j ∈ s.objects, .push j.incoming ∈ es ∧
    j.retryCount + j.failCount = j.incoming.retryCount
  written : ∀ k p, s.updating k p → 0 < s.retryCount p

end Fireworq.InMemory

namespace Fireworq.JobQueue

open Execution

variable {es : List MySQL.Cluster.Event} {s : MySQL.Cluster.State} {es' : List InMemory.Event}
  {s' : InMemory.State}

/-- Retry accounting in both drivers. -/
theorem retries_accounted (h : MySQL.Cluster.Run es s) (h' : InMemory.Run es' s')
    (ht : ∀ e ∈ es', e.typed) :
    MySQL.Cluster.Accounted es s ∧ InMemory.Accounted es' s' := by
  refine ⟨h.accounted, fun j hj ↦ ?_, (h'.accountInv ht).updating⟩
  obtain ⟨p, hp⟩ := List.getElem?_of_mem hj
  obtain ⟨hpush, -, hsum⟩ := (h'.accountInv ht).object p j hp
  exact ⟨hpush, hsum⟩

def completedTwice : List MySQL.Cluster.Event :=
  MySQL.Cluster.takeover ++
    [.complete 1 ⟨⟨1, 8⟩, MySQL.Job.scan MySQL.Cluster.sampleRow⟩ MySQL.Cluster.failure,
      .update 1 true,
      .complete 0 ⟨⟨0, 7⟩, MySQL.Job.scan MySQL.Cluster.sampleRow⟩ MySQL.Cluster.failure,
      .update 0 true]

def retriedOnce : List InMemory.Event :=
  [.push MySQL.Cluster.sampleJob, .pop 1, .complete 0 0 MySQL.Cluster.failure, .finish 0]

theorem retries_accounted_twice : ∃ s s', MySQL.Cluster.Run completedTwice s ∧
    InMemory.Run retriedOnce s' ∧ MySQL.Cluster.Accounted completedTwice s ∧
    InMemory.Accounted retriedOnce s' := by
  obtain ⟨s, hs⟩ := Option.isSome_iff_exists.mp
    (show (exec MySQL.Cluster.step .initial completedTwice).isSome = true by decide +kernel)
  obtain ⟨s', hs'⟩ := Option.isSome_iff_exists.mp
    (show (exec InMemory.step .initial retriedOnce).isSome = true by decide +kernel)
  refine ⟨s, s', hs, hs', retries_accounted hs hs' ?_⟩
  simp [retriedOnce, InMemory.Event.typed, MySQL.Cluster.sampleJob]

end Fireworq.JobQueue
