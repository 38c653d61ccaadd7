import Fireworq.InMemory.Delays

namespace Fireworq.Web

open JobQueue GoInt InMemory Execution

/-- A job as `POST /job` decodes it, with its decoded payload. The last field
states the range of the `uint` fields. -/
structure IncomingJob where
  category : String
  url : String
  payload : String
  runAfter : ℕ
  timeout : ℕ
  retryDelay : ℕ
  maxRetries : ℕ
  failureUrl : String
  fits : runAfter < 2 ^ 64 ∧ timeout < 2 ^ 64 ∧ retryDelay < 2 ^ 64 ∧ maxRetries < 2 ^ 64

namespace IncomingJob

variable (job : IncomingJob)

/-- `uint64(job.RunAfterField * 1000)` -/
def nextDelay : ℕ := uint64 (job.runAfter * 1000)

def incoming : JobQueue.IncomingJob where
  category := job.category
  url := job.url
  payload := job.payload
  nextDelay := job.nextDelay
  timeout := job.timeout
  retryDelay := job.retryDelay
  retryCount := job.maxRetries
  failureUrl := job.failureUrl

end IncomingJob

/-- `time.Duration(seconds) * time.Second` -/
def duration (seconds : ℕ) : ℤ := int64 (int64 seconds * 10 ^ 9)

/-- `HTTPWorker.Work`: the timeout of its client in nanoseconds. -/
def clientTimeout (j : JobQueue.IncomingJob) : ℤ := duration j.timeout

/-- The delays of a job that is pushed at one time and fails at another, both
in milliseconds. -/
structure ExactDelays (job : IncomingJob) (pushedAt failedAt : ℕ) : Prop where
  first : ∀ es s, Run es s → s.now = pushedAt →
    NotBefore (pushedAt + 1000 * job.runAfter) s.objects.length (push s job.incoming)
  retry : ∀ es s k p j t, Run es s → s.now = failedAt → s.updating k p → s.objects[p]? = some j →
    j.incoming = job.incoming → finish s k = some t →
      NotBefore (failedAt + 1000 * job.retryDelay) p t
  timeout : job.timeout ≠ 0 → clientTimeout job.incoming = job.timeout * 10 ^ 9 ∧
    0 < clientTimeout job.incoming
  runAfter : job.nextDelay = 1000 * job.runAfter
  pushed : uint64 (pushedAt + job.nextDelay) = pushedAt + job.nextDelay
  retryDelay : duration job.retryDelay = job.retryDelay * 10 ^ 9
  retried : uint64 (failedAt + nextDelay job.retryDelay) = failedAt + nextDelay job.retryDelay

section Conversions

variable {job : IncomingJob} {pushedAt failedAt : ℕ}

theorem duration_eq_iff {seconds : ℕ} :
    duration seconds = seconds * 10 ^ 9 ↔ seconds ≤ 9223372036 := by
  constructor
  · intro h
    have hrange := (int64_range (int64 seconds * 10 ^ 9)).2
    rw [← duration, h] at hrange
    omega
  · intro h
    have hseconds : int64 seconds = seconds := int64_of_range (by omega) (by omega)
    rw [duration, hseconds, int64_of_range (by omega) (by omega)]

theorem nextDelay_eq_iff : job.nextDelay = 1000 * job.runAfter ↔ 1000 * job.runAfter < 2 ^ 64 := by
  have hcast : (job.runAfter : ℤ) * 1000 = (1000 * job.runAfter : ℕ) := by omega
  rw [IncomingJob.nextDelay, hcast, uint64_eq_iff]

theorem clientTimeout_iff :
    (job.timeout ≠ 0 → clientTimeout job.incoming = job.timeout * 10 ^ 9 ∧
      0 < clientTimeout job.incoming) ↔ job.timeout ≤ 9223372036 := by
  have hduration : clientTimeout job.incoming = duration job.timeout := rfl
  rw [hduration]
  constructor
  · intro h
    rcases Nat.eq_zero_or_pos job.timeout with hzero | hpos
    · omega
    · exact duration_eq_iff.mp (h (Nat.ne_of_gt hpos)).1
  · intro h hne
    have heq := duration_eq_iff.mpr h
    refine ⟨heq, ?_⟩
    rw [heq]
    omega

/-- The delays of a job are exact if and only if its seconds fit the types that
they are converted to. -/
theorem exactDelays_iff (job : IncomingJob) (pushedAt failedAt : ℕ) :
    ExactDelays job pushedAt failedAt ↔
      pushedAt + 1000 * job.runAfter < 2 ^ 64 ∧ job.retryDelay ≤ 9223372036 ∧
        failedAt + 1000 * job.retryDelay < 2 ^ 64 ∧ job.timeout ≤ 9223372036 := by
  constructor
  · intro h
    have hretry := duration_eq_iff.mp h.retryDelay
    have hpushed := uint64_add_eq_iff.mp h.pushed
    have hretried := uint64_add_eq_iff.mp h.retried
    rw [h.runAfter] at hpushed
    rw [nextDelay_exact hretry] at hretried
    exact ⟨hpushed, hretry, hretried, clientTimeout_iff.mp h.timeout⟩
  · intro h
    obtain ⟨hpush, hdelay, hretry, htimeout⟩ := h
    have hnext : job.nextDelay = 1000 * job.runAfter := nextDelay_eq_iff.mpr (by omega)
    have hpushed := uint64_add_eq_iff.mpr hpush
    have hretried := uint64_add_eq_iff.mpr hretry
    refine ⟨fun es s hs hnow ↦ ?_, fun es s k p j t hs hnow hk hj hjob ht ↦ ?_,
      clientTimeout_iff.mpr htimeout, hnext, ?_, duration_eq_iff.mpr hdelay, ?_⟩
    · have hqueued := push_queued hs.inv job.incoming
      have hincoming : job.incoming.nextDelay = 1000 * job.runAfter := hnext
      rw [hnow, hincoming, hpushed] at hqueued
      exact hqueued.notBefore
    · have hqueued := finish_queued hs.inv hk hj ht
      have hincoming : job.incoming.retryDelay = job.retryDelay := rfl
      rw [hnow, hjob, hincoming, nextDelay_exact hdelay, hretried] at hqueued
      exact hqueued.notBefore
    · rw [hnext, hpushed]
    · rw [nextDelay_exact hdelay, hretried]

def patient : IncomingJob where
  category := "test"
  url := "http://localhost/"
  payload := "1"
  runAfter := 18446744073709552
  timeout := 9223372037
  retryDelay := 0
  maxRetries := 0
  failureUrl := ""
  fits := by decide

/-- The job is popped after 384 milliseconds, and its timeout is negative. -/
theorem patient_runs_at_once :
    (∃ s, Run [.push patient.incoming, .tick 384, .pop 1] s ∧ s.held = [0] ∧
      s.now < 1000 * patient.runAfter) ∧
      clientTimeout patient.incoming = -9223372036709551616 ∧ ¬ ExactDelays patient 0 0 := by
  refine ⟨⟨_, rfl, by decide +kernel, by decide +kernel⟩, by decide +kernel, fun h ↦ ?_⟩
  exact absurd h.runAfter (by decide +kernel)

end Conversions

end Fireworq.Web
