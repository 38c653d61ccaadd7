import Fireworq.MySQL.Durability
import Fireworq.MySQL.Inspector

namespace Fireworq.MySQL.Cluster

open Relational JobQueue Execution Function

variable {s t : State} {es : List Event} {id n : ℕ} {j j' : IncomingJob}

def Pushed (es : List Event) (id : ℕ) (j : IncomingJob) : Prop :=
  ∃ xs a ys u v, es = xs ++ .push j a :: ys ∧ Run xs u ∧ step u (.push j a) = some v ∧
    u.table.next = id

theorem Pushed.snoc {e : Event} (h : Pushed es id j) : Pushed (es ++ [e]) id j := by
  obtain ⟨xs, a, ys, u, v, rfl, hu, hv, hid⟩ := h
  exact ⟨xs, a, ys ++ [e], u, v, by simp, hu, hv, hid⟩

theorem next_lt_of_push {xs ys : List Event} {a : Bool} (hs : Run xs s)
    (ht : Run (xs ++ .push j a :: ys) t) : s.table.next < t.table.next := by
  obtain ⟨u, v, hu, hv, hys⟩ := exec_split ht
  cases Option.some.inj (Eq.trans (Eq.symm hs) hu)
  obtain ⟨r, hr, rfl⟩ := push_cases hv
  have hlt : s.table.next < (s.table.insert r).next := by
    rw [AutoTable.next_insert (insertJob_jobId hr)]
    exact Nat.lt_succ_self _
  refine invariant (fun t ↦ s.table.next < t.table.next) (fun u e v hu hv ↦ ?_) hys hlt
  exact Nat.lt_of_lt_of_le hu (next_step hv)

theorem Pushed.unique (h : Pushed es id j) (h' : Pushed es id j') : j = j' := by
  obtain ⟨xs, a, ys, u, v, rfl, hu, -, rfl⟩ := h
  obtain ⟨xs', a', ys', u', v', heq, hu', -, hid⟩ := h'
  rcases List.append_eq_append_iff.mp heq with ⟨zs, rfl, hys⟩ | ⟨zs, rfl, hys⟩
  · cases zs with
    | nil =>
      rw [List.nil_append, List.cons.injEq, Event.push.injEq] at hys
      exact hys.1.1
    | cons e zs =>
      rw [List.cons_append, List.cons.injEq] at hys
      rw [← hys.1] at hu'
      exact absurd hid (Nat.ne_of_gt (next_lt_of_push hu hu'))
  · cases zs with
    | nil =>
      rw [List.nil_append, List.cons.injEq, Event.push.injEq] at hys
      exact hys.1.1.symm
    | cons e zs =>
      rw [List.cons_append, List.cons.injEq] at hys
      rw [← hys.1] at hu
      exact absurd hid (Nat.ne_of_lt (next_lt_of_push hu' hu))

def MaxRetries (es : List Event) (id n : ℕ) : Prop := ∃ j, Pushed es id j ∧ n = j.retryCount

theorem MaxRetries.snoc {e : Event} (h : MaxRetries es id n) : MaxRetries (es ++ [e]) id n :=
  h.imp fun _ hj ↦ ⟨hj.1.snoc, hj.2⟩

def Job.retries (j : Job) : ℕ := j.retryCount + j.failCount

structure AccountInv (es : List Event) (s : State) : Prop where
  row : ∀ id r, s.table.find id = some r → MaxRetries es id (r.retryCount + r.failCount)
  popped : ∀ p phase, s.phase p = some phase → ∀ j ∈ phase.jobs, MaxRetries es j.id (Job.retries j)
  held : ∀ g ∈ s.held, MaxRetries es g.job.id (Job.retries g.job)
  completing : ∀ k c, s.completes k = some c →
    MaxRetries es c.grab.job.id (Job.retries c.grab.job)
  logged : ∀ f ∈ s.failures.rows, ∃ n, MaxRetries es f.jobId n ∧ 1 ≤ f.failCount ∧
    f.failCount ≤ n + 1

theorem RowStep.retries {e : Event} {r q : Row} (hj : JobsInv s) (ha : AccountInv es s)
    (hr : s.table.find id = some r) (h : RowStep s e r q) :
    MaxRetries es id (q.retryCount + q.failCount) := by
  cases h with
  | same | grab | reclaim => exact ha.row id r hr
  | @reschedule k g next r q hk hid _ _ _ _ _ hretry hfail =>
    obtain ⟨hpos, -⟩ := hj.rescheduling k g next hk
    have hsum : q.retryCount + q.failCount = Job.retries g.job := by
      rw [hretry, hfail, hj.next_eq hk, Job.retries]
      dsimp only
      omega
    rw [hsum, ← Table.find_key hr, hid]
    exact ha.completing k _ hk

theorem failures_frame {e : Event} (h : step s e = some t)
    (hadd : ∀ k failedAt ok, e ≠ .addFailure k failedAt ok)
    (hdel : ∀ failureId, e ≠ .deleteFailure failureId) : t.failures = s.failures := by
  cases e with
  | addFailure k failedAt ok => exact absurd rfl (hadd k failedAt ok)
  | deleteFailure failureId => exact absurd rfl (hdel failureId)
  | tick | disconnect => cases h; rfl
  | push => obtain ⟨r, -, rfl⟩ := push_cases h; rfl
  | popStart => obtain ⟨-, rfl⟩ := popStart_cases h; rfl
  | preselect => obtain ⟨c, -, -, -, -, rfl⟩ := preselect_cases h; rfl
  | beginTx => obtain ⟨c, ids, session, -, -, -, -, rfl⟩ := beginTx_cases h; rfl
  | selectForUpdate =>
    obtain ⟨c, session, ids, -, -, -, -, -, rfl⟩ := selectForUpdate_cases h
    rfl
  | launch => obtain ⟨c, session, ids, results, -, -, -, -, rfl⟩ := launch_cases h; rfl
  | commit => obtain ⟨c, session, results, pending, -, -, -, rfl⟩ := commit_cases h; rfl
  | commitLost => obtain ⟨c, session, results, pending, -, -, rfl⟩ := commitLost_cases h; rfl
  | popReturn =>
    rcases popReturn_cases h with ⟨c, -, -, -, rfl⟩ | ⟨c, session, ids, -, -, -, rfl⟩ |
      ⟨c, session, results, -, -, -, -, rfl⟩ <;> rfl
  | popFail => obtain ⟨c, -, -, rfl⟩ := popFail_cases h; rfl
  | complete => obtain ⟨-, -, rfl⟩ := complete_cases h; rfl
  | delete => obtain ⟨g, -, -, rfl⟩ := delete_cases h; rfl
  | update => obtain ⟨g, next, -, -, rfl⟩ := updateStmt_cases h; rfl
  | inspectorDelete => obtain ⟨-, rfl⟩ := inspectorDelete_cases h; rfl
  | connect => obtain ⟨-, rfl⟩ := connect_cases h; rfl
  | recover => obtain ⟨-, rfl⟩ := recover_cases h; rfl
  | orphans => obtain ⟨session, -, -, -, -, rfl⟩ := orphans_cases h; rfl
  | reclaim => obtain ⟨session, ids, -, -, -, rfl⟩ := reclaim_cases h; rfl
  | recoverFail => cases recoverFail_cases h; rfl
  | activate => obtain ⟨-, rfl⟩ := activate_cases h; rfl

/-- An entry of the failure log is an old one or that of a job that has just failed
for good. -/
theorem failures_step {e : Event} (h : step s e = some t) {f : FailedRow}
    (hf : f ∈ t.failures.rows) : f ∈ s.failures.rows ∨ ∃ k g res,
      s.completes k = some ⟨g, .logging res⟩ ∧ f.jobId = g.job.id ∧
        f.failCount = g.job.failCount + 1 := by
  cases e with
  | addFailure k failedAt ok =>
    simp only [step, addFailure] at h
    split at h
    · rename_i g res hk
      cases h
      cases ok with
      | false => exact .inl hf
      | true =>
        rcases AutoTable.mem_insert hf with hf | rfl
        · exact .inl hf
        · exact .inr ⟨k, g, res, hk, rfl, rfl⟩
    · cases h
  | deleteFailure failureId =>
    cases h
    exact .inl (Table.mem_delete.mp hf).1
  | _ =>
    rw [failures_frame h nofun nofun] at hf
    exact .inl hf

theorem AccountInv.step {e : Event} (ha : AccountInv es s) (hu : Run es s)
    (h : step s e = some t) : AccountInv (es ++ [e]) t where
  row id q hq := by
    rcases row_step hu.popInv h hq with ⟨r, hr, hrow⟩ | ⟨-, hid, i, a, rfl, hins⟩
    · exact (hrow.retries hu.jobsInv ha hr).snoc
    · refine ⟨i, ⟨es, a, [], s, t, rfl, hu, h, hid.symm⟩, ?_⟩
      unfold insertJob at hins
      split at hins <;> cases hins
      rfl
  popped p phase hp i hi := by
    rcases jobs_step h hp hi with ⟨before, hb, hi⟩ | ⟨rows, rfl, r, hr, rfl⟩
    · exact (ha.popped p before hb i hi).snoc
    · obtain ⟨c, session, ids, -, -, -, -, hans, -⟩ := selectForUpdate_cases h
      exact (ha.row _ r (Table.find_of_mem (hans.mem.mp hr).1)).snoc
  held g hg := by
    rcases held_step h hg with hg | ⟨p, results, hp, hg⟩
    · exact (ha.held g hg).snoc
    · exact (ha.popped p _ hp g.job hg).snoc
  completing k c hc := by
    rcases completes_step h k with heq | ⟨d, heq, hm⟩
    · exact (ha.completing k c (heq ▸ hc)).snoc
    · rw [hc] at heq
      cases heq
      cases hm with
      | start hg => exact (ha.held _ hg).snoc
      | log hk | delete hk | update hk => exact (ha.completing k _ hk).snoc
  logged f hf := by
    rcases failures_step h hf with hf | ⟨k, g, res, hk, hid, hfail⟩
    · obtain ⟨n, hn, hle⟩ := ha.logged f hf
      exact ⟨n, hn.snoc, hle⟩
    · refine ⟨_, hid ▸ (ha.completing k _ hk).snoc, ?_⟩
      rw [hfail, Job.retries]
      dsimp only
      omega

theorem Run.accountInv (h : Run es s) : AccountInv es s := by
  refine history AccountInv ?_ (fun _ _ _ _ hu ha hs ↦ ha.step hu hs) h
  constructor
  · intro id r hr; cases hr
  · intro p phase hp; cases hp
  · intro g hg; cases hg
  · intro k c hc; cases hc
  · intro f hf; cases hf

/-- The retries of every job are accounted for: in its row, in what the inspector
shows, in the failure log, and in what `Complete` writes. -/
structure Accounted (es : List Event) (s : State) : Prop where
  unique : ∀ id j j', Pushed es id j → Pushed es id j' → j = j'
  stored : ∀ r ∈ s.table.rows, ∃ j, Pushed es r.jobId j ∧
    r.retryCount + r.failCount = j.retryCount
  inspected : ∀ json, ∀ r ∈ s.table.rows, ∃ j, Pushed es r.jobId j ∧
    (Inspector.scan json r).maxRetries = j.retryCount
  written : ∀ k g next, s.completes k = some ⟨g, .updating next⟩ →
    next.retryCount + 1 = g.job.retryCount
  logged : ∀ f ∈ s.failures.rows, ∃ j, Pushed es f.jobId j ∧ 1 ≤ f.failCount ∧
    f.failCount ≤ j.retryCount + 1

theorem Run.accounted (h : Run es s) : Accounted es s where
  unique _ _ _ hj hj' := hj.unique hj'
  stored r hr := h.accountInv.row _ r (Table.find_of_mem hr)
  inspected json r hr := by
    obtain ⟨j, hj, hsum⟩ := h.accountInv.row _ r (Table.find_of_mem hr)
    exact ⟨j, hj, (Nat.add_comm _ _).trans hsum⟩
  written k g next hk := by
    obtain ⟨hpos, -⟩ := h.jobsInv.rescheduling k g next hk
    rw [h.jobsInv.next_eq hk]
    dsimp only
    omega
  logged f hf := by
    obtain ⟨n, ⟨j, hj, rfl⟩, hle⟩ := h.accountInv.logged f hf
    exact ⟨j, hj, hle⟩

end Fireworq.MySQL.Cluster
