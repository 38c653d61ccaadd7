import Fireworq.Relational
import Fireworq.JobQueue.Completion

namespace Fireworq.MySQL

open Relational JobQueue

inductive Status
  | claimed
  | grabbed
  deriving DecidableEq

/-- A row of a job table. The last field states the ranges of the unsigned
integer columns, outside of which the server refuses to store a value. -/
structure Row where
  jobId : ℕ
  nextTry : ℕ
  grabberId : Option ℕ
  status : Status
  createdAt : ℕ
  retryCount : ℕ
  retryDelay : ℕ
  failCount : ℕ
  category : String
  url : String
  payload : String
  timeout : ℕ
  failureUrl : Option String
  fits : jobId < 2 ^ 64 ∧ nextTry < 2 ^ 64 ∧ createdAt < 2 ^ 64 ∧ retryCount < 2 ^ 32 ∧
    retryDelay < 2 ^ 32 ∧ failCount < 2 ^ 32 ∧ timeout < 2 ^ 32
  deriving DecidableEq

abbrev JobTable := AutoTable Row.jobId

/-- `insert_job.sql`: the row that a push adds, unless a column cannot hold
its value. The omitted columns take their defaults. -/
def insertJob (now id : ℕ) (j : IncomingJob) : Option Row :=
  if h : id < 2 ^ 64 ∧ now + j.nextDelay < 2 ^ 64 ∧ j.retryCount < 2 ^ 32 ∧
      j.retryDelay < 2 ^ 32 ∧ j.timeout < 2 ^ 32 then
    some {
      jobId := id
      nextTry := now + j.nextDelay
      grabberId := none
      status := .claimed
      createdAt := now
      retryCount := j.retryCount
      retryDelay := j.retryDelay
      failCount := 0
      category := j.category
      url := j.url
      payload := j.payload
      timeout := j.timeout
      failureUrl := some j.failureUrl
      fits := by omega }
  else none

theorem insertJob_jobId {now id : ℕ} {j : IncomingJob} {r : Row}
    (h : insertJob now id j = some r) : r.jobId = id := by
  unfold insertJob at h
  split at h <;> cases h
  rfl

theorem insertJob_claimed {now id : ℕ} {j : IncomingJob} {r : Row}
    (h : insertJob now id j = some r) : r.status = .claimed ∧ r.grabberId = none := by
  unfold insertJob at h
  split at h <;> cases h
  exact ⟨rfl, rfl⟩

/-- The `WHERE` of `grab_jobs.sql`. -/
def grabJobs (now : ℕ) (r : Row) : Prop := r.status = .claimed ∧ r.nextTry ≤ now

instance (now : ℕ) : DecidablePred (grabJobs now) := fun _ ↦ inferInstanceAs (Decidable (_ ∧ _))

/-- The `WHERE` of `grabbed_jobs.sql`. -/
def grabbedJobs (status : Status) (ids : List ℕ) (r : Row) : Prop :=
  r.status = status ∧ r.jobId ∈ ids

instance (status : Status) (ids : List ℕ) : DecidablePred (grabbedJobs status ids) :=
  fun _ ↦ inferInstanceAs (Decidable (_ ∧ _))

/-- `grabber_id != CONNECTION_ID()`, which is not true of a `NULL`. -/
def otherGrabber (connectionId : ℕ) (r : Row) : Bool :=
  r.grabberId.any fun g ↦ g ≠ connectionId

/-- The `WHERE` of `orphan_jobs.sql`. -/
def orphanJobs (connectionId : ℕ) (r : Row) : Prop :=
  r.status = .grabbed ∧ otherGrabber connectionId r = true

instance (connectionId : ℕ) : DecidablePred (orphanJobs connectionId) :=
  fun _ ↦ inferInstanceAs (Decidable (_ ∧ _))

def launchJobs (connectionId : ℕ) (ids : List ℕ) (r : Row) : Row :=
  if r.jobId ∈ ids then { r with status := .grabbed, grabberId := some connectionId } else r

def recoverJobs (connectionId : ℕ) (ids : List ℕ) (r : Row) : Row :=
  if orphanJobs connectionId r ∧ r.jobId ∈ ids then
    { r with status := .claimed, grabberId := none }
  else r

def storable (now : ℕ) (next : NextInfo) : Prop :=
  now + next.nextDelay < 2 ^ 64 ∧ next.retryCount < 2 ^ 32 ∧ next.failCount < 2 ^ 32

instance (now : ℕ) (next : NextInfo) : Decidable (storable now next) :=
  inferInstanceAs (Decidable (_ ∧ _))

/-- `update_job.sql`. A value that its column cannot hold makes the statement
fail, which leaves the row as it is. -/
def updateJob (now id : ℕ) (next : NextInfo) (r : Row) : Row :=
  if h : r.jobId = id ∧ storable now next then
    { r with
      grabberId := none
      status := .claimed
      nextTry := now + next.nextDelay
      retryCount := next.retryCount
      failCount := next.failCount
      fits := by have := r.fits; have := h.2; unfold storable at this; omega }
  else r

def Row.fixed (r : Row) : ℕ × String × String × String × ℕ × ℕ × Option String × ℕ :=
  (r.jobId, r.category, r.url, r.payload, r.timeout, r.retryDelay, r.failureUrl, r.createdAt)

theorem launchJobs_fixed (c : ℕ) (ids : List ℕ) (r : Row) :
    (launchJobs c ids r).fixed = r.fixed := by
  unfold launchJobs
  split <;> rfl

theorem recoverJobs_fixed (c : ℕ) (ids : List ℕ) (r : Row) :
    (recoverJobs c ids r).fixed = r.fixed := by
  unfold recoverJobs
  split <;> rfl

theorem updateJob_fixed (now id : ℕ) (next : NextInfo) (r : Row) :
    (updateJob now id next r).fixed = r.fixed := by
  unfold updateJob
  split <;> rfl

theorem jobId_of_fixed {q r : Row} (h : q.fixed = r.fixed) : q.jobId = r.jobId :=
  congrArg Prod.fst h

theorem updateJob_of_ne {now id : ℕ} {next : NextInfo} {r : Row} (h : r.jobId ≠ id) :
    updateJob now id next r = r := by
  simp [updateJob, h]

theorem updateJob_nextTry {now id : ℕ} {next : NextInfo} {r : Row} (hid : r.jobId = id)
    (hs : storable now next) : (updateJob now id next r).nextTry = now + next.nextDelay :=
  congrArg Row.nextTry (dif_pos ⟨hid, hs⟩)

theorem recoverJobs_of_not_mem {c : ℕ} {ids : List ℕ} {r : Row} (h : r.jobId ∉ ids) :
    recoverJobs c ids r = r := by
  simp [recoverJobs, h]

structure Job where
  id : ℕ
  category : String
  url : String
  payload : String
  status : Status
  createdAt : ℕ
  nextTry : ℕ
  timeout : ℕ
  retryDelay : ℕ
  retryCount : ℕ
  failCount : ℕ
  failureUrl : String
  deriving DecidableEq

/-- The scan of a row by `Pop`, which already marks the job as grabbed. -/
def Job.scan (r : Row) : Job where
  id := r.jobId
  category := r.category
  url := r.url
  payload := r.payload
  status := .grabbed
  createdAt := r.createdAt
  nextTry := r.nextTry
  timeout := r.timeout
  retryDelay := r.retryDelay
  retryCount := r.retryCount
  failCount := r.failCount
  failureUrl := r.failureUrl.getD ""

/-- The loop of `Pop` over the locked rows. It overwrites the preselected ids
from the left while it appends to the results. -/
def scanRows (ids : List ℕ) (results : List Job) (i : ℕ) : List Row → List ℕ × List Job
  | [] => (ids, results)
  | r :: rows => scanRows (ids.set i r.jobId) (results ++ [Job.scan r]) (i + 1) rows

theorem scanRows_results (ids : List ℕ) (results : List Job) (i : ℕ) (rows : List Row) :
    (scanRows ids results i rows).2 = results ++ rows.map Job.scan := by
  induction rows generalizing ids results i with
  | nil => simp [scanRows]
  | cons r rows ih => simp [scanRows, ih]

/-- As long as no more rows are locked than ids were preselected, no write is
out of bounds and the truncated array holds the ids of the locked rows. -/
theorem scanRows_ids (ids : List ℕ) (results : List Job) (i : ℕ) (rows : List Row)
    (h : i + rows.length ≤ ids.length) :
    (scanRows ids results i rows).1.take (i + rows.length) =
      ids.take i ++ rows.map Row.jobId := by
  induction rows generalizing ids results i with
  | nil => simp [scanRows]
  | cons r rows ih =>
    simp only [List.length_cons] at h
    have hi : i < ids.length := by omega
    have hr := ih (ids.set i r.jobId) (results ++ [Job.scan r]) (i + 1) (by simp; omega)
    have ht : (ids.set i r.jobId).take (i + 1) = ids.take i ++ [r.jobId] := by
      rw [List.take_succ_eq_append_getElem (by simpa using hi), List.getElem_set_self,
        List.take_set_of_le (Nat.le_refl i)]
    simp only [scanRows, List.length_cons, List.map_cons]
    rw [show i + (rows.length + 1) = i + 1 + rows.length by omega, hr, ht]
    simp

end Fireworq.MySQL
