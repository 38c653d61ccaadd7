import Fireworq.GoInt

namespace Fireworq.JobQueue

open GoInt

structure Result where
  status : String
  code : ℤ
  message : String
  deriving DecidableEq

def resultStatusSuccess : String := "success"

def resultStatusFailure : String := "failure"

def resultStatusPermanentFailure : String := "permanent-failure"

def Result.isSuccess (r : Result) : Bool := r.status == resultStatusSuccess

def Result.isPermanentFailure (r : Result) : Bool := r.status == resultStatusPermanentFailure

structure IncomingJob where
  category : String
  url : String
  payload : String
  nextDelay : ℕ
  timeout : ℕ
  retryDelay : ℕ
  retryCount : ℕ
  failureUrl : String
  deriving DecidableEq

/-- `uint64(time.Duration(retryDelay) * time.Second / time.Millisecond)` -/
def nextDelay (retryDelay : ℕ) : ℕ :=
  uint64 (Int.tdiv (int64 (int64 retryDelay * 10 ^ 9)) (10 ^ 6))

/-- The conversion is exact as long as the nanoseconds fit a `time.Duration`. -/
theorem nextDelay_exact {d : ℕ} (h : d ≤ 9223372036) : nextDelay d = 1000 * d := by
  have hd : int64 d = d := int64_of_range (by omega) (by omega)
  have hm : int64 ((d : ℤ) * 10 ^ 9) = d * 10 ^ 9 := int64_of_range (by omega) (by omega)
  have hq : Int.tdiv ((d : ℤ) * 10 ^ 9) (10 ^ 6) = (1000 * d : ℕ) := by
    rw [Int.tdiv_eq_ediv_of_nonneg (by omega)]
    omega
  rw [nextDelay, hd, hm, hq, uint64_natCast (by omega)]

theorem nextDelay_eq {d : ℕ} (h : d < 2 ^ 32) : nextDelay d = 1000 * d :=
  nextDelay_exact (by omega)

structure NextInfo where
  nextDelay : ℕ
  retryCount : ℕ
  failCount : ℕ
  deriving DecidableEq

def nextJob (retryDelay retryCount failCount : ℕ) : NextInfo where
  nextDelay := nextDelay retryDelay
  retryCount := uint64 (retryCount - 1)
  failCount := uint64 (failCount + 1)

theorem nextJob_nextDelay (d r f : ℕ) : (nextJob d r f).nextDelay = nextDelay d := by
  rw [nextJob]

theorem nextJob_eq {d r f : ℕ} (hd : d < 2 ^ 32) (hpos : 0 < r) (hr : r < 2 ^ 32)
    (hf : f < 2 ^ 32) : nextJob d r f = ⟨1000 * d, r - 1, f + 1⟩ := by
  have hr' : uint64 ((r : ℤ) - 1) = r - 1 := uint64_pred hpos (by omega)
  have hf' : uint64 ((f : ℤ) + 1) = f + 1 := by
    rw [show (f : ℤ) + 1 = (f + 1 : ℕ) by omega, uint64_natCast (by omega)]
  rw [nextJob, nextDelay_eq hd, hr', hf']

inductive Completion
  | succeed
  | failPermanently
  | retry
  deriving DecidableEq

def canRetry (retryCount : ℕ) : Bool := decide (0 < retryCount)

def completion (res : Result) (retryCount : ℕ) : Completion :=
  if res.isSuccess then .succeed
  else if res.isPermanentFailure || !canRetry retryCount then .failPermanently
  else .retry

def finishes (res : Result) (retryCount : ℕ) : Bool :=
  res.isSuccess || res.isPermanentFailure || decide (retryCount = 0)

theorem completion_retry_iff {res : Result} {n : ℕ} :
    completion res n = .retry ↔ finishes res n = false := by
  unfold completion finishes canRetry
  cases res.isSuccess <;> cases res.isPermanentFailure <;> cases n <;> simp

theorem completion_succeed {res : Result} {n : ℕ} :
    completion res n = .succeed ↔ res.isSuccess = true := by
  unfold completion
  cases res.isSuccess <;> simp
  split <;> nofun

theorem retryCount_pos {res : Result} {n : ℕ} (h : completion res n = .retry) : 0 < n := by
  rw [completion_retry_iff] at h
  simp only [finishes, Bool.or_eq_false_iff, decide_eq_false_iff_not] at h
  omega

structure Totals where
  totalPushes : ℤ
  totalPops : ℤ
  totalSuccesses : ℤ
  totalFailures : ℤ
  totalPermanentFailures : ℤ
  totalCompletes : ℤ
  deriving DecidableEq

namespace Totals

def zero : Totals := ⟨0, 0, 0, 0, 0, 0⟩

variable (s : Totals) (num : ℤ)

def push : Totals := { s with totalPushes := int64 (s.totalPushes + num) }

def pop : Totals := { s with totalPops := int64 (s.totalPops + num) }

def succeed : Totals := { s with totalSuccesses := int64 (s.totalSuccesses + num) }

def fail : Totals := { s with totalFailures := int64 (s.totalFailures + num) }

def permanentlyFail : Totals :=
  { s with totalPermanentFailures := int64 (s.totalPermanentFailures + num) }

def complete : Totals := { s with totalCompletes := int64 (s.totalCompletes + num) }

def completed : Completion → Totals
  | .succeed => (s.succeed 1).complete 1
  | .failPermanently => ((s.fail 1).permanentlyFail 1).complete 1
  | .retry => s.fail 1

end Totals

end Fireworq.JobQueue
