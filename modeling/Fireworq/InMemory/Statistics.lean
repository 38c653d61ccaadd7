import Fireworq.InMemory.Queue

namespace Fireworq.InMemory

open JobQueue GoInt Execution

structure Counted where
  queue : State
  stats : Totals
  retries : ℕ
  calls : ℕ

def Counted.initial : Counted := ⟨.initial, .zero, 0, 0⟩

/-- The calls on a `jobQueue`, and what happens between them. A call of `Complete`
is given a job that was popped and is not completed yet. -/
inductive Call
  | tick (ms : ℕ)
  | takeId
  | push (j : IncomingJob)
  | pop (limit : ℕ)
  | complete (p : ℕ) (res : Result)
  deriving DecidableEq

def Counted.call (c : Counted) : Call → Option Counted
  | .tick ms => (step c.queue (.tick ms)).map fun t ↦ { c with queue := t }
  | .takeId => (step c.queue .takeId).map fun t ↦ { c with queue := t }
  | .push j =>
    (step c.queue (.push j)).map fun t ↦ { c with queue := t, stats := c.stats.push 1 }
  | .pop limit =>
    (step c.queue (.pop limit)).map fun t ↦
      let results := (popLoop c.queue.objects c.queue.now limit c.queue.queue).2
      { c with queue := t, stats := c.stats.pop results.length }
  | .complete p res =>
    (step c.queue (.complete c.calls p res)).bind fun t ↦
      (step t (.finish c.calls)).map fun u ↦
        let taken := completion res (c.queue.retryCount p)
        { queue := u
          stats := c.stats.completed taken
          retries := if taken = .retry then c.retries + 1 else c.retries
          calls := c.calls + 1 }

def Counts (es : List Call) (c : Counted) : Prop := exec Counted.call .initial es = some c

structure Balanced (wrap : ℤ → ℤ) (c : Counted) : Prop where
  completes : c.stats.totalCompletes =
    wrap (c.stats.totalSuccesses + c.stats.totalPermanentFailures)
  retries : wrap (c.stats.totalFailures - c.stats.totalPermanentFailures) = wrap c.retries
  pops : c.stats.totalPops =
    wrap (c.stats.totalCompletes + c.retries + c.queue.held.length)
  pushes : c.stats.totalPushes =
    wrap (c.stats.totalCompletes + c.queue.queue.size + c.queue.held.length)

section Tally

variable {c d : Counted} {es : List Call}

structure Tally (n successes failures : ℕ) (c : Counted) : Prop where
  totalSuccesses : c.stats.totalSuccesses = int64 successes
  totalPermanentFailures : c.stats.totalPermanentFailures = int64 failures
  totalCompletes : c.stats.totalCompletes = int64 (successes + failures)
  totalFailures : c.stats.totalFailures = int64 (failures + c.retries)
  totalPops : c.stats.totalPops =
    int64 (successes + failures + c.retries + c.queue.held.length)
  totalPushes : c.stats.totalPushes =
    int64 (successes + failures + c.queue.queue.size + c.queue.held.length)
  calls : successes + failures + c.retries ≤ n
  pushes : successes + failures + c.queue.queue.size + c.queue.held.length ≤ n

theorem pop_counts {s t : State} {limit : ℕ} (h : pop s limit = some t) :
    t.held.length = s.held.length + (popLoop s.objects s.now limit s.queue).2.length ∧
      s.queue.size = t.queue.size + (popLoop s.objects s.now limit s.queue).2.length := by
  have hperm := (popLoop_perm s.objects s.now limit s.queue).length_eq
  unfold pop at h
  split at h <;> cases h
  constructor
  · exact List.length_append
  · simpa using hperm

theorem finish_counts {s t u : State} {k p : ℕ} {res : Result}
    (h : complete s k p res = some t) (hf : finish t k = some u) :
    s.held.length = u.held.length + 1 ∧
      u.queue.size = s.queue.size +
        if completion res (s.retryCount p) = .retry then 1 else 0 := by
  obtain ⟨-, -, -, hcompletes⟩ := complete_live h
  have hcall : t.completes k = some ⟨p, completion res (s.retryCount p), false⟩ := by
    rw [hcompletes, Function.update_self]
  have hheld : s.held.length = t.held.length + 1 ∧ t.queue = s.queue := by
    unfold complete at h
    split at h <;> cases h
    have hmem : p ∈ s.held := ‹p ∈ s.held ∧ _›.1
    have hpos := List.length_pos_of_mem hmem
    simp only [List.length_erase_of_mem hmem, and_true]
    omega
  rcases finish_cases hf with ⟨q, taken, hk, hne, rfl⟩ | ⟨q, j, hk, -, rfl⟩
  · cases hcall.symm.trans hk
    exact ⟨hheld.1, by rw [if_neg hne, hheld.2]; rfl⟩
  · have htaken : completion res (s.retryCount p) = .retry :=
      congrArg CompleteCall.taken (Option.some.inj (hcall.symm.trans hk))
    exact ⟨hheld.1, by rw [if_pos htaken, ← hheld.2]; exact BinaryHeap.size_push _ _⟩

theorem Tally.mono {m n x y : ℕ} (h : Tally m x y c) (hle : m ≤ n) : Tally n x y c :=
  { h with calls := Nat.le_trans h.calls hle, pushes := Nat.le_trans h.pushes hle }

theorem Tally.push {n x y : ℕ} {j : IncomingJob} (h : Tally n x y c)
    (hd : c.call (.push j) = some d) : Tally (n + 1) x y d := by
  cases hd
  have hsize : (InMemory.push c.queue j).queue.size = c.queue.queue.size + 1 :=
    BinaryHeap.size_push _ _
  have hheld : (InMemory.push c.queue j).held = c.queue.held := rfl
  have hpushes := h.pushes
  refine ⟨h.totalSuccesses, h.totalPermanentFailures, h.totalCompletes, h.totalFailures,
    h.totalPops, ?_, Nat.le_succ_of_le h.calls, ?_⟩
  · simp only [Totals.push, h.totalPushes, int64_int64_add, hsize, hheld]
    exact congrArg int64 (by omega)
  · simp only [hsize, hheld]
    omega

theorem Tally.pop {n x y limit : ℕ} (h : Tally n x y c) (hd : c.call (.pop limit) = some d) :
    Tally n x y d := by
  obtain ⟨t, ht, rfl⟩ := Option.map_eq_some_iff.mp hd
  obtain ⟨hheld, hsize⟩ := pop_counts ht
  have hpushes := h.pushes
  refine ⟨h.totalSuccesses, h.totalPermanentFailures, h.totalCompletes, h.totalFailures,
    ?_, ?_, h.calls, ?_⟩
  · simp only [Totals.pop, h.totalPops, int64_int64_add, hheld]
    exact congrArg int64 (by omega)
  · simp only [Totals.pop, h.totalPushes]
    exact congrArg int64 (by omega)
  · simp only
    omega

theorem Tally.complete {n x y p : ℕ} {res : Result} (h : Tally n x y c)
    (hd : c.call (.complete p res) = some d) :
    ∃ x' y', Tally (n + 1) x' y' d := by
  obtain ⟨t, ht, hd⟩ := Option.bind_eq_some_iff.mp hd
  obtain ⟨u, hu, rfl⟩ := Option.map_eq_some_iff.mp hd
  obtain ⟨hheld, hsize⟩ := finish_counts ht hu
  obtain ⟨h₁, h₂, h₃, h₄, h₅, h₆, hcalls, hpushes⟩ := h
  cases htaken : completion res (c.queue.retryCount p) <;>
    simp only [htaken, reduceCtorEq, if_true, if_false] at hsize ⊢
  · refine ⟨x + 1, y, ?_⟩
    constructor <;> simp only [Totals.completed, Totals.succeed, Totals.complete, h₁, h₂, h₃, h₄,
      h₅, h₆, int64_int64_add] <;> first | omega | exact congrArg int64 (by omega)
  · refine ⟨x, y + 1, ?_⟩
    constructor <;> simp only [Totals.completed, Totals.fail, Totals.permanentlyFail,
      Totals.complete, h₁, h₂, h₃, h₄, h₅, h₆, int64_int64_add] <;>
      first | omega | exact congrArg int64 (by omega)
  · refine ⟨x, y, ?_⟩
    constructor <;> simp only [Totals.completed, Totals.fail, h₁, h₂, h₃, h₄, h₅, h₆,
      int64_int64_add] <;> first | omega | exact congrArg int64 (by omega)

theorem Tally.call {n x y : ℕ} {e : Call} (h : Tally n x y c) (hd : c.call e = some d) :
    ∃ x' y', Tally (n + 1) x' y' d := by
  cases e with
  | tick ms | takeId =>
    cases hd
    exact ⟨x, y, { h.mono (Nat.le_succ n) with }⟩
  | push j => exact ⟨x, y, h.push hd⟩
  | pop limit => exact ⟨x, y, (h.pop hd).mono (Nat.le_succ n)⟩
  | complete p res => exact h.complete hd

theorem Counts.tally (h : Counts es c) : ∃ x y, Tally es.length x y c := by
  refine history (fun es c ↦ ∃ x y, Tally es.length x y c) ⟨0, 0, ?_⟩ ?_ h
  · constructor <;> decide
  · intro xs u e v _ ih hv
    obtain ⟨x, y, ih⟩ := ih
    rw [List.length_append]
    exact ih.call hv

end Tally

section Returns

variable {c d : Counted} {es : List Call} {p : ℕ}

structure Sound (c : Counted) : Prop where
  inv : Inv c.queue
  fresh : ∀ k, c.calls ≤ k → c.queue.completes k = none

theorem Sound.call {e : Call} (h : Sound c) (hd : c.call e = some d) : Sound d := by
  cases e with
  | tick ms =>
    cases hd
    exact ⟨step_inv (e := .tick ms) h.inv rfl, h.fresh⟩
  | takeId =>
    cases hd
    exact ⟨step_inv (e := .takeId) h.inv rfl, h.fresh⟩
  | push j =>
    cases hd
    exact ⟨step_inv (e := .push j) h.inv rfl, h.fresh⟩
  | pop limit =>
    obtain ⟨t, ht, rfl⟩ := Option.map_eq_some_iff.mp hd
    refine ⟨step_inv h.inv ht, fun k hk ↦ ?_⟩
    rw [(pop_live ht).2.2]
    exact h.fresh k hk
  | complete p res =>
    obtain ⟨t, ht, hd⟩ := Option.bind_eq_some_iff.mp hd
    obtain ⟨u, hu, rfl⟩ := Option.map_eq_some_iff.mp hd
    refine ⟨step_inv (step_inv h.inv ht) hu, fun k hk ↦ ?_⟩
    have hne : k ≠ c.calls := Nat.ne_of_gt hk
    have hnone : t.completes k = none := by
      rw [(complete_live ht).2.2.2, Function.update_of_ne hne]
      exact h.fresh k (Nat.le_of_succ_le hk)
    rcases finish_cases hu with ⟨q, taken, -, -, rfl⟩ | ⟨q, j, -, -, rfl⟩ <;>
      exact (Function.update_of_ne hne _ _).trans hnone

theorem Counts.sound (h : Counts es c) : Sound c :=
  invariant Sound (fun _ _ _ hs hd ↦ hs.call hd) h ⟨initial_inv, fun _ _ ↦ rfl⟩

theorem Counts.complete_returns (h : Counts es c) (hp : p ∈ c.queue.held) (res : Result) :
    ∃ d, c.call (.complete p res) = some d := by
  have hlen : p < c.queue.objects.length :=
    h.sound.inv.alloc p (List.mem_append_right _ hp)
  have hcomplete : p ∈ c.queue.held ∧ c.queue.completes c.calls = none :=
    ⟨hp, h.sound.fresh _ (Nat.le_refl _)⟩
  simp only [Counted.call, step, complete, if_pos hcomplete, Option.bind_some, finish,
    Function.update_self]
  split <;> simp_all

end Returns

/-- The totals balance after every call: as `int64` values in every run, and as
numbers in every run of fewer than 2^62 calls. -/
theorem statistics_balance (es : List Call) (c : Counted) (h : Counts es c) :
    Balanced int64 c ∧ (es.length < 2 ^ 62 → Balanced id c) := by
  obtain ⟨x, y, h₁, h₂, h₃, h₄, h₅, h₆, hcalls, hpushes⟩ := h.tally
  constructor
  · constructor
    · rw [h₁, h₂, h₃, int64_int64_add, int64_add_int64]
    · rw [h₂, h₄, int64_int64_sub, int64_sub_int64]
      exact congrArg int64 (by omega)
    · rw [h₃, h₅, add_assoc (int64 _), int64_int64_add, ← add_assoc]
    · rw [h₃, h₆, add_assoc (int64 _), int64_int64_add, ← add_assoc]
  · intro hlen
    have hexact {z : ℤ} (h₀ : 0 ≤ z) (h₁ : z < 2 ^ 63) : int64 z = z :=
      int64_of_range (by omega) h₁
    rw [hexact (by omega) (by omega)] at h₁ h₂ h₃ h₄ h₅ h₆
    constructor <;> simp only [id, h₁, h₂, h₃, h₄, h₅, h₆]
    omega

def failingTwice : List Call :=
  [.push ⟨"test", "http://localhost/", "1", 0, 0, 0, 1, ""⟩, .pop 1,
    .complete 0 ⟨resultStatusFailure, 500, ""⟩, .pop 1,
    .complete 0 ⟨resultStatusFailure, 500, ""⟩]

theorem statistics_balance_failingTwice :
    ∃ c, Counts failingTwice c ∧ c.stats = ⟨1, 2, 0, 2, 1, 1⟩ ∧ c.retries = 1 ∧
      Balanced int64 c ∧ Balanced id c := by
  have hrun : ∃ c, Counts failingTwice c ∧ c.stats = ⟨1, 2, 0, 2, 1, 1⟩ ∧ c.retries = 1 :=
    ⟨_, rfl, by decide +kernel, by decide +kernel⟩
  obtain ⟨c, hc, hstats, hretries⟩ := hrun
  have hbalance := statistics_balance failingTwice c hc
  exact ⟨c, hc, hstats, hretries, hbalance.1, hbalance.2 (by decide)⟩

end Fireworq.InMemory
