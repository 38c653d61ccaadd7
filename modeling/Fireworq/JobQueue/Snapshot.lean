import Mathlib.Algebra.Order.Group.Abs
import Mathlib.Algebra.Order.Group.Int
import Fireworq.Counters
import Fireworq.JobQueue.Completion

namespace Fireworq.JobQueue.Snapshot

open Counters Execution GoInt

inductive Counter
  | pushes
  | pops
  | successes
  | failures
  | permanentFailures
  | completes
  | elapsed
  deriving DecidableEq

inductive Op
  | push
  | pop (results : ℕ)
  | complete (taken : Completion) (elapsed : ℤ)
  deriving DecidableEq

def Op.adds : Op → List (Counter × ℤ)
  | .push => [(.pushes, 1)]
  | .pop results => [(.pops, results)]
  | .complete .succeed elapsed => [(.successes, 1), (.completes, 1), (.elapsed, elapsed)]
  | .complete .failPermanently elapsed =>
    [(.failures, 1), (.permanentFailures, 1), (.completes, 1), (.elapsed, elapsed)]
  | .complete .retry _ => [(.failures, 1)]

structure Stats extends Totals where
  totalElapsed : ℤ

/-- `export` loads one total after the other, while other calls go on. -/
def Exports (s : State Counter Op) (r : Stats) (u : State Counter Op) : Prop :=
  Loads Op.adds s
    [.pushes, .pops, .successes, .failures, .permanentFailures, .completes, .elapsed]
    [r.totalPushes, r.totalPops, r.totalSuccesses, r.totalFailures, r.totalPermanentFailures,
      r.totalCompletes, r.totalElapsed] u

def Op.finishes : Op → Bool
  | .complete .succeed _ | .complete .failPermanently _ => true
  | _ => false

def Op.fails : Op → Bool
  | .complete .failPermanently _ | .complete .retry _ => true
  | _ => false

def Op.retries : Op → Bool
  | .complete .retry _ => true
  | _ => false

def indicator (b : Bool) : ℤ := if b then 1 else 0

def finished (p : Op → Bool) (s u : State Counter Op) : ℤ :=
  tally Op.adds true s u fun op ↦ indicator (p op)

def overlapping (p : Op → Bool) (s u : State Counter Op) : ℤ :=
  tally Op.adds false s u fun op ↦ indicator (p op)

section Totals

theorem total_completes : total Op.adds .completes = fun op ↦ indicator op.finishes := by
  funext op
  rcases op with _ | _ | ⟨_ | _ | _, _⟩ <;> rfl

theorem total_failures : total Op.adds .failures = fun op ↦ indicator op.fails := by
  funext op
  rcases op with _ | _ | ⟨_ | _ | _, _⟩ <;> rfl

theorem total_successes : total Op.adds .successes =
    fun op ↦ indicator op.finishes - total Op.adds .permanentFailures op := by
  funext op
  rcases op with _ | _ | ⟨_ | _ | _, _⟩ <;> rfl

theorem total_permanentFailures : total Op.adds .permanentFailures =
    fun op ↦ indicator op.fails - indicator op.retries := by
  funext op
  rcases op with _ | _ | ⟨_ | _ | _, _⟩ <;> rfl

def Counter.single : Counter → Bool
  | .successes | .failures | .permanentFailures | .completes => true
  | _ => false

variable {k : Counter}

theorem grows_of_single (hk : k.single = true) : Grows Op.adds k := by
  intro op a ha hak
  subst hak
  rcases op with _ | _ | ⟨_ | _ | _, _⟩ <;>
    simp only [Op.adds, List.mem_cons, List.not_mem_nil, or_false] at ha
  · rw [ha]; decide
  · rw [ha]; exact Int.natCast_nonneg _
  · obtain rfl | rfl | rfl := ha
    · decide
    · decide
    · cases hk
  · obtain rfl | rfl | rfl | rfl := ha
    · decide
    · decide
    · decide
    · cases hk
  · rw [ha]; decide

theorem total_le_one (hk : k.single = true) (op : Op) : total Op.adds k op ≤ 1 := by
  cases k
  case pushes | pops | elapsed => cases hk
  all_goals rcases op with _ | _ | ⟨_ | _ | _, _⟩ <;> simp [total, added, Op.adds]

theorem total_nonneg (hk : k.single = true) (op : Op) : 0 ≤ total Op.adds k op :=
  (grows_of_single hk).added_nonneg

end Totals

section Export

variable {es : List (Event Op)} {s u : State Counter Op} {r : Stats}

theorem loaded_bounds {ks : List Counter} {vs : List ℤ}
    (h : exec (step Op.adds) .initial es = some s) (hr : Loads Op.adds s ks vs u)
    (hlen : u.calls.length < 2 ^ 63) {k : Counter} {v : ℤ} (hk : k.single = true)
    (hv : (k, v) ∈ ks.zip vs) :
    tally Op.adds true s u (total Op.adds k) ≤ v ∧
      v ≤ tally Op.adds true s u (total Op.adds k) + tally Op.adds false s u (total Op.adds k) := by
  obtain ⟨y, hy, h₀, h₁⟩ := hr.bounds (.refl s) h (k, v) hv (grows_of_single hk)
  dsimp only at hy h₀ h₁
  have hpos : 0 ≤ tally Op.adds true s u (total Op.adds k) :=
    tally_nonneg true (total_nonneg hk)
  have hle : tally Op.adds true s u (total Op.adds k) +
      tally Op.adds false s u (total Op.adds k) ≤ u.calls.length :=
    tally_le_length (total_le_one hk)
  rw [hy, int64_of_range (by omega) (by omega)]
  exact ⟨h₀, h₁⟩

/-- What `export` returns while other calls go on is wrong by no more than the
number of calls of `Complete` that overlap. -/
theorem export_error (h : exec (step Op.adds) .initial es = some s) (hr : Exports s r u)
    (hlen : u.calls.length < 2 ^ 63) :
    |r.totalCompletes - (r.totalSuccesses + r.totalPermanentFailures)| ≤
        overlapping Op.finishes s u ∧
      |r.totalFailures - r.totalPermanentFailures - finished Op.retries s u| ≤
        overlapping Op.fails s u := by
  have hc := loaded_bounds h hr hlen (k := .completes) (v := r.totalCompletes) rfl (by simp)
  have hs := loaded_bounds h hr hlen (k := .successes) (v := r.totalSuccesses) rfl (by simp)
  have hf := loaded_bounds h hr hlen (k := .failures) (v := r.totalFailures) rfl (by simp)
  have hp := loaded_bounds h hr hlen (k := .permanentFailures) (v := r.totalPermanentFailures) rfl
    (by simp)
  have hretries : 0 ≤ overlapping Op.retries s u :=
    tally_nonneg false fun op ↦ by unfold indicator; split <;> decide
  rw [total_completes] at hc
  rw [total_failures] at hf
  simp only [total_successes, total_permanentFailures, tally_sub] at hs hp
  unfold overlapping at hretries
  simp only [overlapping, finished, abs_le]
  omega

def started : State Counter Op := ⟨fun _ ↦ 0, [⟨.complete .succeed 5, 0⟩]⟩

def counted : State Counter Op :=
  (exec (step Op.adds) started [.add 0, .add 0]).getD started

/-- A `Complete` counts between the loads of the successes and of the completions. -/
theorem export_error_between : Exports started ⟨⟨0, 0, 0, 0, 0, 1⟩, 0⟩ counted ∧
    |(1 : ℤ) - (0 + 0)| ≤ overlapping Op.finishes started counted := by
  have hr : Exports started ⟨⟨0, 0, 0, 0, 0, 1⟩, 0⟩ counted :=
    .now (.now (.now (.now (.now
      (.cons (show exec (step Op.adds) started [.add 0, .add 0] = some counted from rfl)
        (.now (.nil counted)))))))
  have h : exec (step Op.adds) .initial [.start (.complete .succeed 5)] = some started := rfl
  exact ⟨hr, (export_error h hr (by decide)).1⟩

end Export

end Fireworq.JobQueue.Snapshot
