import Fireworq.MySQL.Grabbing

namespace Fireworq.MySQL.FailureLog

open Relational JobQueue Execution Cluster Function

inductive AnyJob
  | job (j : Job)
  | other (retryDelay retryCount failCount : ℕ)

def AnyJob.retryCount : AnyJob → ℕ
  | .job j => j.retryCount
  | .other _ retryCount _ => retryCount

def AnyJob.next : AnyJob → NextInfo
  | .job j => nextJob j.retryDelay j.retryCount j.failCount
  | .other retryDelay retryCount failCount => nextJob retryDelay retryCount failCount

/-- How an `Exec` turns out. The server may have executed a statement whose
caller gets an error. -/
inductive ExecReply
  | ok
  | unacknowledged
  | failed
  deriving DecidableEq

def ExecReply.executed : ExecReply → Bool
  | .ok | .unacknowledged => true
  | .failed => false

structure Replies where
  marshal : Bool
  insert : ExecReply
  delete : ExecReply
  update : ExecReply

inductive AddError
  | invalidJob
  | marshal
  deriving DecidableEq

abbrev Failures := AutoTable FailedRow.failureId

/-- `failureLog.Add` with the error that it returns. The error of the insertion
is bound to a variable of its own, which shadows the one that is returned. -/
def add (re : Replies) (failedAt : ℕ) (failed : AnyJob) (res : Result) (F : Failures) :
    Option AddError × Failures :=
  match failed with
  | .other .. => (some .invalidJob, F)
  | .job j =>
    if re.marshal then
      (none, if re.insert.executed then F.insert (failedRow F.next failedAt j res) else F)
    else (some .marshal, F)

structure Store where
  now : ℕ
  table : JobTable
  failures : Failures

def delete (re : Replies) (completed : AnyJob) (S : Store) : Option Store :=
  match completed with
  | .other .. => none
  | .job j =>
    some { S with table := if re.delete.executed then S.table.delete j.id else S.table }

def update (re : Replies) (completed : AnyJob) (next : NextInfo) (S : Store) : Option Store :=
  match completed with
  | .other .. => none
  | .job j =>
    some { S with
      table := if re.update.executed then
        S.table.update (updateJob S.now j.id next) (updateJob_jobId S.now j.id next)
        else S.table }

/-- `Complete`. The error of `Add` is logged, and the job is deleted whatever
`Add` returns. -/
def complete (re : Replies) (failedAt : ℕ) (j : AnyJob) (res : Result) (S : Store) :
    Option Store :=
  match completion res j.retryCount with
  | .succeed => delete re j S
  | .failPermanently =>
    delete re j { S with failures := (add re failedAt j res S.failures).2 }
  | .retry => update re j j.next S

variable {re : Replies} {failedAt : ℕ} {j : Job} {res : Result} {S T : Store}

def Store.logged (S : Store) (id : ℕ) : Prop := ∃ f ∈ S.failures.rows, f.jobId = id

def Store.stored (S : Store) (id : ℕ) : Prop := ∃ r, S.table.find id = some r

/-- The job has not vanished when `Complete` returns, and `Add` reports it when
it has inserted nothing. -/
structure Kept (re : Replies) (failedAt : ℕ) (j : Job) (res : Result) (S : Store) : Prop where
  kept : ∃ T, complete re failedAt (.job j) res S = some T ∧ (T.logged j.id ∨ T.stored j.id)
  reported : (add re failedAt (.job j) res S.failures).2 = S.failures →
    (add re failedAt (.job j) res S.failures).1 ≠ none

theorem insert_ne {F : Failures} (failedAt : ℕ) (j : Job) (res : Result) :
    F.insert (failedRow F.next failedAt j res) ≠ F := by
  intro h
  have hnext := AutoTable.next_insert (T := F) (r := failedRow F.next failedAt j res) rfl
  rw [h] at hnext
  omega

theorem complete_permanently (re : Replies) (failedAt : ℕ) (S : Store)
    (h : completion res j.retryCount = .failPermanently) :
    complete re failedAt (.job j) res S = some { S with
      failures := (add re failedAt (.job j) res S.failures).2
      table := if re.delete.executed then S.table.delete j.id else S.table } := by
  simp only [complete, AnyJob.retryCount, h, delete]

/-- A permanently failed job is kept and its absence reported if and only if
the insertion into the failure log is executed. -/
theorem kept_iff (h : completion res j.retryCount = .failPermanently) :
    Kept re failedAt j res S ↔
      re.marshal = true ∧ re.insert.executed = true ∨
      re.marshal = false ∧
        (S.logged j.id ∨ S.stored j.id ∧ re.delete.executed = false) := by
  have hcomplete := complete_permanently re failedAt S h
  cases hm : re.marshal with
  | true =>
    cases hi : re.insert.executed with
    | true =>
      refine iff_of_true ⟨⟨_, hcomplete, .inl ?_⟩, fun heq ↦ ?_⟩ (.inl ⟨rfl, rfl⟩)
      · refine ⟨failedRow S.failures.next failedAt j res, ?_, rfl⟩
        simp only [add, hm, hi, if_true]
        rw [AutoTable.rows_insert rfl]
        simp
      · simp only [add, hm, hi, if_true] at heq
        exact absurd heq (insert_ne failedAt j res)
    | false =>
      refine iff_of_false (fun hk ↦ ?_) (by simp)
      have hadd : add re failedAt (.job j) res S.failures = (none, S.failures) := by
        simp [add, hm, hi]
      exact hk.reported (by rw [hadd]) (by rw [hadd])
  | false =>
    have hadd : add re failedAt (.job j) res S.failures = (some .marshal, S.failures) := by
      simp [add, hm]
    rw [hadd] at hcomplete
    have hstored : (∃ T, complete re failedAt (.job j) res S = some T ∧
        (T.logged j.id ∨ T.stored j.id)) ↔
        S.logged j.id ∨ S.stored j.id ∧ re.delete.executed = false := by
      rw [hcomplete]
      cases hd : re.delete.executed with
      | true => simp [Store.logged, Store.stored, AutoTable.find_delete]
      | false => simp [Store.logged, Store.stored]
    constructor
    · exact fun hk ↦ .inr ⟨rfl, hstored.mp hk.kept⟩
    · rintro (⟨⟨⟩, -⟩ | ⟨-, hkept⟩)
      refine ⟨hstored.mpr hkept, fun _ ↦ ?_⟩
      rw [hadd]
      exact Option.some_ne_none _

def broken : Result := ⟨"permanent-failure", 1, "broken"⟩

def lostInsert : Replies where
  marshal := true
  insert := .failed
  delete := .ok
  update := .ok

def sampleStore : Store where
  now := 5
  table := (AutoTable.empty _).insert sampleRow
  failures := .empty _

theorem kept_iff_sample :
    completion broken (Job.scan sampleRow).retryCount = .failPermanently ∧
      (Kept lostInsert 6 (Job.scan sampleRow) broken sampleStore ↔
        lostInsert.marshal = true ∧ lostInsert.insert.executed = true ∨
        lostInsert.marshal = false ∧ (sampleStore.logged (Job.scan sampleRow).id ∨
          sampleStore.stored (Job.scan sampleRow).id ∧ lostInsert.delete.executed = false)) ∧
      Kept { lostInsert with insert := .ok } 6 (Job.scan sampleRow) broken sampleStore :=
  ⟨by decide, kept_iff (by decide), (kept_iff (by decide)).mpr (.inl ⟨rfl, rfl⟩)⟩

/-- The insertion fails. `Add` returns no error and the row is deleted. -/
theorem job_vanishes :
    completion broken (Job.scan sampleRow).retryCount = .failPermanently ∧
      sampleStore.stored (Job.scan sampleRow).id ∧
      (add lostInsert 6 (.job (Job.scan sampleRow)) broken sampleStore.failures).1 = none ∧
      (complete lostInsert 6 (.job (Job.scan sampleRow)) broken sampleStore).map
        (fun T ↦ (T.table.rows, T.failures.rows)) = some ([], []) ∧
      ¬ Kept lostInsert 6 (Job.scan sampleRow) broken sampleStore := by
  refine ⟨by decide, ⟨sampleRow, by decide⟩, rfl, by decide, fun h ↦ ?_⟩
  exact h.reported rfl rfl

section Steps

variable {s : State} {g : Grab} {k : ℕ}

def storeOf (s : State) : Store := ⟨s.now, s.table, s.failures⟩

theorem complete_step (res : Result) (hg : g ∈ s.held) (hk : s.completes k = none) :
    step s (.complete k g res) = some { s with
      held := s.held.erase g
      completes := Function.update s.completes k (some ⟨g, completePhase g res⟩) } := by
  simp only [step, Cluster.complete, if_pos (And.intro hg hk)]

theorem delete_step (hk : s.completes k = some ⟨g, .deleting⟩) (hl : s.locks g.job.id = none)
    (ok : Bool) : step s (.delete k ok) = some { s with
      table := if ok then s.table.delete g.job.id else s.table
      completes := Function.update s.completes k (some ⟨g, .done⟩) } := by
  simp only [step, Cluster.delete, hk, if_pos (Or.inr hl : ok = false ∨ _)]

theorem update_step {next : NextInfo} (hk : s.completes k = some ⟨g, .updating next⟩)
    (hl : s.locks g.job.id = none) (ok : Bool) : step s (.update k ok) = some { s with
      table := if ok then
        s.table.update (updateJob s.now g.job.id next) (updateJob_jobId s.now g.job.id next)
        else s.table
      completes := Function.update s.completes k (some ⟨g, .done⟩) } := by
  simp only [step, updateStmt, hk, if_pos (Or.inr hl : ok = false ∨ _)]

theorem addFailure_step (hk : s.completes k = some ⟨g, .logging res⟩) (failedAt : ℕ) (ok : Bool) :
    step s (.addFailure k failedAt ok) = some { s with
      failures := if ok then s.failures.insert (failedRow s.failures.next failedAt g.job res)
        else s.failures
      completes := Function.update s.completes k (some ⟨g, .deleting⟩) } := by
  simp only [step, addFailure, hk]

theorem add_snd (re : Replies) (failedAt : ℕ) (j : Job) (res : Result) (F : Failures) :
    (add re failedAt (.job j) res F).2 =
      if re.marshal && re.insert.executed then F.insert (failedRow F.next failedAt j res)
      else F := by
  cases hm : re.marshal <;> simp [add, hm]

def Ends (s : State) (k : ℕ) (g : Grab) (S : Store) : Prop :=
  Leads step (fun e ↦ e.completeCall = some k)
    (fun t ↦ t.completes k = some ⟨g, .done⟩ ∧ storeOf t = S) s

theorem Ends.delete (hk : s.completes k = some ⟨g, .deleting⟩) (hl : s.locks g.job.id = none)
    (h : delete re (.job g.job) (storeOf s) = some S) : Ends s k g S := by
  cases h
  exact .of_step (delete_step hk hl re.delete.executed) rfl (.here ⟨update_self _ _ _, rfl⟩)

theorem Ends.update {next : NextInfo} (hk : s.completes k = some ⟨g, .updating next⟩)
    (hl : s.locks g.job.id = none)
    (h : update re (.job g.job) next (storeOf s) = some S) : Ends s k g S := by
  cases h
  exact .of_step (update_step hk hl re.update.executed) rfl (.here ⟨update_self _ _ _, rfl⟩)

/-- `Complete` takes the steps of a call. -/
theorem complete_ends (hg : g ∈ s.held) (hk : s.completes k = none)
    (hl : s.locks g.job.id = none)
    (h : complete re failedAt (.job g.job) res (storeOf s) = some S) : Ends s k g S := by
  have hstep := complete_step res hg hk
  unfold complete at h
  unfold completePhase at hstep
  cases hc : completion res g.job.retryCount with
  | succeed =>
    simp only [AnyJob.retryCount, hc] at h hstep
    exact .of_step hstep rfl (Ends.delete (update_self _ _ _) hl h)
  | failPermanently =>
    simp only [AnyJob.retryCount, hc] at h hstep
    rw [add_snd] at h
    refine .of_step hstep rfl (.of_step (addFailure_step (update_self _ _ _) failedAt
      (re.marshal && re.insert.executed)) rfl ?_)
    exact Ends.delete (update_self _ _ _) hl h
  | retry =>
    simp only [AnyJob.retryCount, hc] at h hstep
    exact .of_step hstep rfl (Ends.update (update_self _ _ _) hl h)

end Steps

end Fireworq.MySQL.FailureLog
