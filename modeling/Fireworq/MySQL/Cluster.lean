import Fireworq.Execution
import Fireworq.MySQL.JobTable
import Mathlib.Logic.Function.Basic

namespace Fireworq.MySQL.Cluster

open Relational JobQueue Execution Function

/-- A connection of a node's `dbPop` while it lasts. The server may give the
same connection id to a later session; the serial number never comes back. -/
structure Session where
  serial : ℕ
  connectionId : ℕ
  deriving DecidableEq

structure FailedRow where
  failureId : ℕ
  jobId : ℕ
  category : String
  url : String
  payload : String
  result : Result
  failCount : ℕ
  failedAt : ℕ
  createdAt : ℕ
  deriving DecidableEq

def failedRow (failureId failedAt : ℕ) (j : Job) (res : Result) : FailedRow where
  failureId := failureId
  jobId := j.id
  category := j.category
  url := j.url
  payload := j.payload
  result := res
  failCount := j.failCount + 1
  failedAt := failedAt
  createdAt := j.createdAt

structure Grab where
  session : Session
  job : Job
  deriving DecidableEq

/-- How far a call of `Pop` has come. Row versions written by an open
transaction are `pending` until it commits. -/
inductive PopPhase
  | started
  | preselected (ids : List ℕ)
  | begun (session : Session) (ids : List ℕ)
  | selected (session : Session) (ids : List ℕ) (results : List Job)
  | launched (session : Session) (results : List Job) (pending : List Row)
  | committed (session : Session) (results : List Job)
  | returned (grabs : List Grab)
  | failed
  deriving DecidableEq

structure PopCall where
  node : ℕ
  limit : ℕ
  phase : PopPhase
  deriving DecidableEq

inductive CompletePhase
  | deleting
  | logging (res : Result)
  | updating (next : NextInfo)
  | done
  deriving DecidableEq

structure CompleteCall where
  grab : Grab
  phase : CompletePhase
  deriving DecidableEq

inductive RecoverPhase
  | idle
  | selecting
  | updating (ids : List ℕ)
  | returned
  | failed
  deriving DecidableEq

/-- The nodes that share one job table. `table` holds the committed row
versions, `locks` the open transaction that has locked a row, and `owner` the
session that grabbed a row last. -/
structure State where
  now : ℕ
  table : JobTable
  failures : AutoTable FailedRow.failureId
  locks : ℕ → Option ℕ
  pops : ℕ → Option PopCall
  completes : ℕ → Option CompleteCall
  held : List Grab
  sessions : ℕ → Option Session
  nextSerial : ℕ
  owner : ℕ → Option Session
  recovers : ℕ → RecoverPhase

def State.initial : State where
  now := 0
  table := .empty _
  failures := .empty _
  locks := fun _ ↦ none
  pops := fun _ ↦ none
  completes := fun _ ↦ none
  held := []
  sessions := fun _ ↦ none
  nextSerial := 0
  owner := fun _ ↦ none
  recovers := fun _ ↦ .idle

/-- The atomic steps: statements as the server executes them, and the steps
of the calls around them. Lists of ids and rows are answers of the server. -/
inductive Event
  | tick (ms : ℕ)
  | push (j : IncomingJob) (acknowledged : Bool)
  | popStart (p node limit : ℕ)
  | preselect (p : ℕ) (ids : List ℕ)
  | beginTx (p : ℕ)
  | selectForUpdate (p : ℕ) (rows : List Row)
  | launch (p : ℕ)
  | commit (p : ℕ)
  | commitLost (p : ℕ)
  | popReturn (p : ℕ) (jobs : List Job)
  | popFail (p : ℕ)
  | complete (k : ℕ) (grab : Grab) (res : Result)
  | addFailure (k failedAt : ℕ) (ok : Bool)
  | delete (k : ℕ) (ok : Bool)
  | update (k : ℕ) (ok : Bool)
  | inspectorDelete (id : ℕ)
  | deleteFailure (failureId : ℕ)
  | connect (node connectionId : ℕ)
  | disconnect (node : ℕ)
  | recover (node : ℕ)
  | orphans (node : ℕ) (ids : List ℕ)
  | reclaim (node : ℕ)
  | recoverFail (node : ℕ)
  | activate (node : ℕ)
  deriving DecidableEq

def push (s : State) (j : IncomingJob) : Option State :=
  (insertJob s.now s.table.next j).map fun r ↦ { s with table := s.table.insert r }

def State.setPop (s : State) (p : ℕ) (c : PopCall) (phase : PopPhase) : State :=
  { s with pops := update s.pops p (some { c with phase := phase }) }

def popStart (s : State) (p node limit : ℕ) : Option State :=
  match s.pops p with
  | none => some { s with pops := update s.pops p (some ⟨node, limit, .started⟩) }
  | some _ => none

/-- `grab_jobs.sql`, a read without locks. -/
def preselect (s : State) (p : ℕ) (ids : List ℕ) : Option State :=
  match s.pops p with
  | some ⟨node, limit, .started⟩ =>
    if (ids.filterMap s.table.find).map Row.jobId = ids ∧
        TopAnswer (grabJobs s.now) (fun q r ↦ q.nextTry ≤ r.nextTry) limit s.table.rows
          (ids.filterMap s.table.find) then
      some (s.setPop p ⟨node, limit, .started⟩ (.preselected ids))
    else none
  | _ => none

def beginTx (s : State) (p : ℕ) : Option State :=
  match s.pops p with
  | some ⟨node, limit, .preselected (id :: ids)⟩ =>
    (s.sessions node).map fun session ↦
      s.setPop p ⟨node, limit, .preselected (id :: ids)⟩ (.begun session (id :: ids))
  | _ => none

/-- `grabbed_jobs.sql ... FOR UPDATE`. It waits for rows that another
transaction has locked and locks the rows it returns. -/
def selectForUpdate (s : State) (p : ℕ) (rows : List Row) : Option State :=
  match s.pops p with
  | some ⟨node, limit, .begun session ids⟩ =>
    if s.sessions node = some session ∧ (∀ id ∈ ids, s.locks id = none) ∧
        Answer (grabbedJobs .claimed ids) s.table.rows rows then
      let (ids', results) := scanRows ids [] 0 rows
      some { s.setPop p ⟨node, limit, .begun session ids⟩
          (.selected session (ids'.take results.length) results) with
        locks := fun id ↦ if id ∈ rows.map Row.jobId then some p else s.locks id }
    else none
  | _ => none

/-- `launch_jobs.sql` inside the transaction. -/
def launch (s : State) (p : ℕ) : Option State :=
  match s.pops p with
  | some ⟨node, limit, .selected session ids (job :: results)⟩ =>
    if s.sessions node = some session then
      some (s.setPop p ⟨node, limit, .selected session ids (job :: results)⟩
        (.launched session (job :: results)
          ((s.table.rows.filter fun r ↦ r.jobId ∈ ids).map
            (launchJobs session.connectionId ids))))
    else none
  | _ => none

def State.release (s : State) (p : ℕ) : State :=
  { s with locks := fun id ↦ if s.locks id = some p then none else s.locks id }

def publish (pending : List Row) (r : Row) : Row :=
  (pending.find? fun q ↦ q.jobId = r.jobId).getD r

theorem publish_jobId (pending : List Row) (r : Row) :
    (publish pending r).jobId = r.jobId := by
  unfold publish
  cases h : pending.find? fun q ↦ q.jobId = r.jobId with
  | none => rfl
  | some q => simpa using List.find?_some h

def commit (s : State) (p : ℕ) : Option State :=
  match s.pops p with
  | some ⟨node, limit, .launched session results pending⟩ =>
    if s.sessions node = some session then
      some { (s.setPop p ⟨node, limit, .launched session results pending⟩
          (.committed session results)).release p with
        table := s.table.update (publish pending) (publish_jobId pending)
        owner := fun id ↦ if id ∈ pending.map Row.jobId then some session else s.owner id }
    else none
  | _ => none

/-- A commit that fails, so that the server rolls the transaction back. `Pop`
ignores the error. -/
def commitLost (s : State) (p : ℕ) : Option State :=
  match s.pops p with
  | some ⟨node, limit, .launched session results pending⟩ =>
    some ((s.setPop p ⟨node, limit, .launched session results pending⟩
      (.committed session results)).release p)
  | _ => none

/-- `Pop` returns, after sorting the results by their next try. An empty
selection is rolled back first. -/
def popReturn (s : State) (p : ℕ) (jobs : List Job) : Option State :=
  match s.pops p with
  | some ⟨node, limit, .preselected []⟩ =>
    if jobs = [] then some (s.setPop p ⟨node, limit, .preselected []⟩ (.returned [])) else none
  | some ⟨node, limit, .selected session ids []⟩ =>
    if jobs = [] then
      some ((s.setPop p ⟨node, limit, .selected session ids []⟩ (.returned [])).release p)
    else none
  | some ⟨node, limit, .committed session results⟩ =>
    if jobs.Perm results ∧ jobs.Pairwise (fun i j ↦ i.nextTry ≤ j.nextTry) then
      some { s.setPop p ⟨node, limit, .committed session results⟩
          (.returned (jobs.map (Grab.mk session))) with
        held := s.held ++ jobs.map (Grab.mk session) }
    else none
  | _ => none

def PopPhase.running : PopPhase → Bool
  | .started | .preselected _ | .begun _ _ | .selected _ _ _ | .launched _ _ _ => true
  | .committed _ _ | .returned _ | .failed => false

def popFail (s : State) (p : ℕ) : Option State :=
  match s.pops p with
  | some c => if c.phase.running then some ((s.setPop p c .failed).release p) else none
  | none => none

def completePhase (g : Grab) (res : Result) : CompletePhase :=
  match completion res g.job.retryCount with
  | .succeed => .deleting
  | .failPermanently => .logging res
  | .retry => .updating (nextJob g.job.retryDelay g.job.retryCount g.job.failCount)

def complete (s : State) (k : ℕ) (g : Grab) (res : Result) : Option State :=
  if g ∈ s.held ∧ s.completes k = none then
    some { s with
      held := s.held.erase g
      completes := update s.completes k (some ⟨g, completePhase g res⟩) }
  else none

def addFailure (s : State) (k failedAt : ℕ) (ok : Bool) : Option State :=
  match s.completes k with
  | some ⟨g, .logging res⟩ =>
    let row := failedRow s.failures.next failedAt g.job res
    some { s with
      failures := if ok then s.failures.insert row else s.failures
      completes := update s.completes k (some ⟨g, .deleting⟩) }
  | _ => none

/-- `delete_job.sql` on behalf of `Complete`. -/
def delete (s : State) (k : ℕ) (ok : Bool) : Option State :=
  match s.completes k with
  | some ⟨g, .deleting⟩ =>
    if ok = false ∨ s.locks g.job.id = none then
      some { s with
        table := if ok then s.table.delete g.job.id else s.table
        completes := update s.completes k (some ⟨g, .done⟩) }
    else none
  | _ => none

theorem updateJob_jobId (now id : ℕ) (next : NextInfo) (r : Row) :
    (updateJob now id next r).jobId = r.jobId := jobId_of_fixed (updateJob_fixed now id next r)

/-- `update_job.sql` on behalf of `Complete`. -/
def updateStmt (s : State) (k : ℕ) (ok : Bool) : Option State :=
  match s.completes k with
  | some ⟨g, .updating next⟩ =>
    if ok = false ∨ s.locks g.job.id = none then
      some { s with
        table := if ok then
          s.table.update (updateJob s.now g.job.id next) (updateJob_jobId s.now g.job.id next)
          else s.table
        completes := update s.completes k (some ⟨g, .done⟩) }
    else none
  | _ => none

def inspectorDelete (s : State) (id : ℕ) : Option State :=
  if s.locks id = none then some { s with table := s.table.delete id } else none

def connect (s : State) (node connectionId : ℕ) : Option State :=
  match s.sessions node with
  | none => some { s with
      sessions := update s.sessions node (some ⟨s.nextSerial, connectionId⟩)
      nextSerial := s.nextSerial + 1 }
  | some _ => none

def State.setRecover (s : State) (node : ℕ) (phase : RecoverPhase) : State :=
  { s with recovers := update s.recovers node phase }

def recover (s : State) (node : ℕ) : Option State :=
  if s.recovers node = .idle then some (s.setRecover node .selecting) else none

/-- `orphan_jobs.sql`. `Recover` returns when it finds no orphan. -/
def orphans (s : State) (node : ℕ) (ids : List ℕ) : Option State :=
  match s.recovers node, s.sessions node with
  | .selecting, some session =>
    if (ids.filterMap s.table.find).map Row.jobId = ids ∧
        TopAnswer (orphanJobs session.connectionId) (fun _ _ ↦ True) 1000 s.table.rows
          (ids.filterMap s.table.find) then
      some (s.setRecover node (if ids = [] then .returned else .updating ids))
    else none
  | _, _ => none

theorem recoverJobs_jobId (c : ℕ) (ids : List ℕ) (r : Row) :
    (recoverJobs c ids r).jobId = r.jobId := jobId_of_fixed (recoverJobs_fixed c ids r)

/-- `recover_jobs.sql`. -/
def reclaim (s : State) (node : ℕ) : Option State :=
  match s.recovers node, s.sessions node with
  | .updating ids, some session =>
    if ∀ id ∈ ids, s.locks id = none then
      some { s.setRecover node .selecting with
        table := s.table.update (recoverJobs session.connectionId ids)
          (recoverJobs_jobId session.connectionId ids) }
    else none
  | _, _ => none

def recoverFail (s : State) (node : ℕ) : Option State :=
  match s.recovers node with
  | .selecting | .updating _ => some (s.setRecover node .failed)
  | _ => none

/-- The activator sets `active` to 1 after `Recover` has returned, whatever
`Recover` did. -/
def activate (s : State) (node : ℕ) : Option State :=
  match s.recovers node with
  | .returned | .failed => some (s.setRecover node .idle)
  | _ => none

def step (s : State) : Event → Option State
  | .tick ms => some { s with now := s.now + ms }
  | .push j _ => push s j
  | .popStart p node limit => popStart s p node limit
  | .preselect p ids => preselect s p ids
  | .beginTx p => beginTx s p
  | .selectForUpdate p rows => selectForUpdate s p rows
  | .launch p => launch s p
  | .commit p => commit s p
  | .commitLost p => commitLost s p
  | .popReturn p jobs => popReturn s p jobs
  | .popFail p => popFail s p
  | .complete k g res => complete s k g res
  | .addFailure k failedAt ok => addFailure s k failedAt ok
  | .delete k ok => delete s k ok
  | .update k ok => updateStmt s k ok
  | .inspectorDelete id => inspectorDelete s id
  | .deleteFailure failureId => some { s with failures := s.failures.delete failureId }
  | .connect node connectionId => connect s node connectionId
  | .disconnect node => some { s with sessions := update s.sessions node none }
  | .recover node => recover s node
  | .orphans node ids => orphans s node ids
  | .reclaim node => reclaim s node
  | .recoverFail node => recoverFail s node
  | .activate node => activate s node

def Run (es : List Event) (s : State) : Prop := exec step .initial es = some s

end Fireworq.MySQL.Cluster
