import Fireworq.MySQL.Cluster

namespace Fireworq.MySQL.Cluster

open Relational JobQueue Execution Function

variable {s t : State}

theorem push_cases {j : IncomingJob} (h : push s j = some t) :
    ∃ r, insertJob s.now s.table.next j = some r ∧ t = { s with table := s.table.insert r } := by
  obtain ⟨r, hr, ht⟩ := Option.map_eq_some_iff.mp h
  exact ⟨r, hr, ht.symm⟩

theorem popStart_cases {p node limit : ℕ} (h : popStart s p node limit = some t) :
    s.pops p = none ∧
      t = { s with pops := update s.pops p (some ⟨node, limit, .started⟩) } := by
  unfold popStart at h
  split at h
  · next hp => exact ⟨hp, (Option.some.inj h).symm⟩
  · cases h

theorem preselect_cases {p : ℕ} {ids : List ℕ} (h : preselect s p ids = some t) :
    ∃ c, s.pops p = some c ∧ c.phase = .started ∧
      (ids.filterMap s.table.find).map Row.jobId = ids ∧
      TopAnswer (grabJobs s.now) (fun q r ↦ q.nextTry ≤ r.nextTry) c.limit s.table.rows
        (ids.filterMap s.table.find) ∧
      t = s.setPop p c (.preselected ids) := by
  unfold preselect at h
  split at h
  · next node limit hp =>
    split at h
    · next ha => exact ⟨_, hp, rfl, ha.1, ha.2, (Option.some.inj h).symm⟩
    · cases h
  · cases h

theorem beginTx_cases {p : ℕ} (h : beginTx s p = some t) :
    ∃ c ids session, s.pops p = some c ∧ c.phase = .preselected ids ∧ ids ≠ [] ∧
      s.sessions c.node = some session ∧ t = s.setPop p c (.begun session ids) := by
  unfold beginTx at h
  split at h
  · next node limit id ids hp =>
    obtain ⟨session, hs, ht⟩ := Option.map_eq_some_iff.mp h
    exact ⟨_, _, session, hp, rfl, by simp, hs, ht.symm⟩
  · cases h

theorem selectForUpdate_cases {p : ℕ} {rows : List Row} (h : selectForUpdate s p rows = some t) :
    ∃ c session ids, s.pops p = some c ∧ c.phase = .begun session ids ∧
      s.sessions c.node = some session ∧ (∀ id ∈ ids, s.locks id = none) ∧
      Answer (grabbedJobs .claimed ids) s.table.rows rows ∧
      t = { s.setPop p c (.selected session
          ((scanRows ids [] 0 rows).1.take (scanRows ids [] 0 rows).2.length)
          (scanRows ids [] 0 rows).2) with
        locks := fun id ↦ if id ∈ rows.map Row.jobId then some p else s.locks id } := by
  unfold selectForUpdate at h
  split at h
  · next node limit session ids hp =>
    split at h
    · next ha => exact ⟨_, session, ids, hp, rfl, ha.1, ha.2.1, ha.2.2, (Option.some.inj h).symm⟩
    · cases h
  · cases h

theorem launch_cases {p : ℕ} (h : launch s p = some t) :
    ∃ c session ids results, s.pops p = some c ∧ c.phase = .selected session ids results ∧
      results ≠ [] ∧ s.sessions c.node = some session ∧
      t = s.setPop p c (.launched session results
        ((s.table.rows.filter fun r ↦ r.jobId ∈ ids).map
          (launchJobs session.connectionId ids))) := by
  unfold launch at h
  split at h
  · next node limit session ids job results hp =>
    split at h
    · next hs => exact ⟨_, session, ids, _, hp, rfl, by simp, hs, (Option.some.inj h).symm⟩
    · cases h
  · cases h

theorem commit_cases {p : ℕ} (h : commit s p = some t) :
    ∃ c session results pending, s.pops p = some c ∧
      c.phase = .launched session results pending ∧ s.sessions c.node = some session ∧
      t = { (s.setPop p c (.committed session results)).release p with
        table := s.table.update (publish pending) (publish_jobId pending)
        owner := fun id ↦ if id ∈ pending.map Row.jobId then some session else s.owner id } := by
  unfold commit at h
  split at h
  · next node limit session results pending hp =>
    split at h
    · next hs => exact ⟨_, session, results, pending, hp, rfl, hs, (Option.some.inj h).symm⟩
    · cases h
  · cases h

theorem commitLost_cases {p : ℕ} (h : commitLost s p = some t) :
    ∃ c session results pending, s.pops p = some c ∧
      c.phase = .launched session results pending ∧
      t = (s.setPop p c (.committed session results)).release p := by
  unfold commitLost at h
  split at h
  · next node limit session results pending hp =>
    exact ⟨_, session, results, pending, hp, rfl, (Option.some.inj h).symm⟩
  · cases h

theorem popReturn_cases {p : ℕ} {jobs : List Job} (h : popReturn s p jobs = some t) :
    (∃ c, s.pops p = some c ∧ c.phase = .preselected [] ∧ jobs = [] ∧
      t = s.setPop p c (.returned [])) ∨
    (∃ c session ids, s.pops p = some c ∧ c.phase = .selected session ids [] ∧ jobs = [] ∧
      t = (s.setPop p c (.returned [])).release p) ∨
    (∃ c session results, s.pops p = some c ∧ c.phase = .committed session results ∧
      jobs.Perm results ∧ jobs.Pairwise (fun i j ↦ i.nextTry ≤ j.nextTry) ∧
      t = { s.setPop p c (.returned (jobs.map (Grab.mk session))) with
        held := s.held ++ jobs.map (Grab.mk session) }) := by
  unfold popReturn at h
  split at h
  · next hp =>
    split at h
    · next hj => exact .inl ⟨_, hp, rfl, hj, (Option.some.inj h).symm⟩
    · cases h
  · next session ids hp =>
    split at h
    · next hj => exact .inr (.inl ⟨_, session, ids, hp, rfl, hj, (Option.some.inj h).symm⟩)
    · cases h
  · next session results hp =>
    split at h
    · next hj =>
      exact .inr (.inr ⟨_, session, results, hp, rfl, hj.1, hj.2, (Option.some.inj h).symm⟩)
    · cases h
  · cases h

theorem popFail_cases {p : ℕ} (h : popFail s p = some t) :
    ∃ c, s.pops p = some c ∧ c.phase.running = true ∧
      t = (s.setPop p c .failed).release p := by
  unfold popFail at h
  split at h
  · next c hp =>
    split at h
    · next hr => exact ⟨c, hp, hr, (Option.some.inj h).symm⟩
    · cases h
  · cases h

theorem complete_cases {k : ℕ} {g : Grab} {res : Result} (h : complete s k g res = some t) :
    g ∈ s.held ∧ s.completes k = none ∧
      t = { s with
        held := s.held.erase g
        completes := update s.completes k (some ⟨g, completePhase g res⟩) } := by
  unfold complete at h
  split at h
  · next hg => exact ⟨hg.1, hg.2, (Option.some.inj h).symm⟩
  · cases h

theorem addFailure_cases {k failedAt : ℕ} {ok : Bool} (h : addFailure s k failedAt ok = some t) :
    ∃ g res failures, s.completes k = some ⟨g, .logging res⟩ ∧
      t = { s with
        failures := failures
        completes := update s.completes k (some ⟨g, .deleting⟩) } := by
  unfold addFailure at h
  split at h
  · next g res hk => exact ⟨g, res, _, hk, (Option.some.inj h).symm⟩
  · cases h

theorem delete_cases {k : ℕ} {ok : Bool} (h : delete s k ok = some t) :
    ∃ g, s.completes k = some ⟨g, .deleting⟩ ∧ (ok = false ∨ s.locks g.job.id = none) ∧
      t = { s with
        table := if ok then s.table.delete g.job.id else s.table
        completes := update s.completes k (some ⟨g, .done⟩) } := by
  unfold delete at h
  split at h
  · next g hk =>
    split at h
    · next hl => exact ⟨g, hk, hl, (Option.some.inj h).symm⟩
    · cases h
  · cases h

theorem updateStmt_cases {k : ℕ} {ok : Bool} (h : updateStmt s k ok = some t) :
    ∃ g next, s.completes k = some ⟨g, .updating next⟩ ∧
      (ok = false ∨ s.locks g.job.id = none) ∧
      t = { s with
        table := if ok then
          s.table.update (updateJob s.now g.job.id next) (updateJob_jobId s.now g.job.id next)
          else s.table
        completes := update s.completes k (some ⟨g, .done⟩) } := by
  unfold updateStmt at h
  split at h
  · next g nxt hk =>
    split at h
    · next hl => exact ⟨g, nxt, hk, hl, (Option.some.inj h).symm⟩
    · cases h
  · cases h

theorem inspectorDelete_cases {id : ℕ} (h : inspectorDelete s id = some t) :
    s.locks id = none ∧ t = { s with table := s.table.delete id } := by
  unfold inspectorDelete at h
  split at h
  · next hl => exact ⟨hl, (Option.some.inj h).symm⟩
  · cases h

theorem connect_cases {node connectionId : ℕ} (h : connect s node connectionId = some t) :
    s.sessions node = none ∧
      t = { s with
        sessions := update s.sessions node (some ⟨s.nextSerial, connectionId⟩)
        nextSerial := s.nextSerial + 1 } := by
  unfold connect at h
  split at h
  · next hs => exact ⟨hs, (Option.some.inj h).symm⟩
  · cases h

theorem recover_cases {node : ℕ} (h : recover s node = some t) :
    s.recovers node = .idle ∧ t = s.setRecover node .selecting := by
  unfold recover at h
  split at h
  · next hr => exact ⟨hr, (Option.some.inj h).symm⟩
  · cases h

theorem orphans_cases {node : ℕ} {ids : List ℕ} (h : orphans s node ids = some t) :
    ∃ session, s.recovers node = .selecting ∧ s.sessions node = some session ∧
      (ids.filterMap s.table.find).map Row.jobId = ids ∧
      TopAnswer (orphanJobs session.connectionId) (fun _ _ ↦ True) 1000 s.table.rows
        (ids.filterMap s.table.find) ∧
      t = s.setRecover node (if ids = [] then .returned else .updating ids) := by
  unfold orphans at h
  split at h
  · next session hr hs =>
    split at h
    · next ha => exact ⟨session, hr, hs, ha.1, ha.2, (Option.some.inj h).symm⟩
    · cases h
  · cases h

theorem reclaim_cases {node : ℕ} (h : reclaim s node = some t) :
    ∃ session ids, s.recovers node = .updating ids ∧ s.sessions node = some session ∧
      (∀ id ∈ ids, s.locks id = none) ∧
      t = { s.setRecover node .selecting with
        table := s.table.update (recoverJobs session.connectionId ids)
          (recoverJobs_jobId session.connectionId ids) } := by
  unfold reclaim at h
  split at h
  · next ids session hr hs =>
    split at h
    · next hl => exact ⟨session, ids, hr, hs, hl, (Option.some.inj h).symm⟩
    · cases h
  · cases h

theorem recoverFail_cases {node : ℕ} (h : recoverFail s node = some t) :
    t = s.setRecover node .failed := by
  unfold recoverFail at h
  split at h
  · exact (Option.some.inj h).symm
  · exact (Option.some.inj h).symm
  · cases h

theorem activate_cases {node : ℕ} (h : activate s node = some t) :
    (s.recovers node = .returned ∨ s.recovers node = .failed) ∧ t = s.setRecover node .idle := by
  unfold activate at h
  split at h
  · next hr => exact ⟨.inl hr, (Option.some.inj h).symm⟩
  · next hr => exact ⟨.inr hr, (Option.some.inj h).symm⟩
  · cases h

/-- Everything a step can do to the job table, with what the statement that
does it has checked. -/
inductive Writes (s : State) : Event → JobTable → Prop
  | same (e : Event) : Writes s e s.table
  | insert {j : IncomingJob} {acknowledged : Bool} {r : Row} :
      insertJob s.now s.table.next j = some r →
      Writes s (.push j acknowledged) (s.table.insert r)
  | publish {p : ℕ} {c : PopCall} {session : Session} {results : List Job} {pending : List Row} :
      s.pops p = some c → c.phase = .launched session results pending →
      Writes s (.commit p) (s.table.update (publish pending) (publish_jobId pending))
  | delete {k : ℕ} {g : Grab} :
      s.completes k = some ⟨g, .deleting⟩ → s.locks g.job.id = none →
      Writes s (.delete k true) (s.table.delete g.job.id)
  | update {k : ℕ} {g : Grab} {next : NextInfo} :
      s.completes k = some ⟨g, .updating next⟩ → s.locks g.job.id = none →
      Writes s (.update k true)
        (s.table.update (updateJob s.now g.job.id next) (updateJob_jobId s.now g.job.id next))
  | inspectorDelete {id : ℕ} :
      s.locks id = none → Writes s (.inspectorDelete id) (s.table.delete id)
  | reclaim {node : ℕ} {session : Session} {ids : List ℕ} :
      s.recovers node = .updating ids → s.sessions node = some session →
      (∀ id ∈ ids, s.locks id = none) →
      Writes s (.reclaim node)
        (s.table.update (recoverJobs session.connectionId ids)
          (recoverJobs_jobId session.connectionId ids))

theorem step_writes {e : Event} (h : step s e = some t) : Writes s e t.table := by
  cases e with
  | tick ms => cases h; exact .same _
  | push j a => obtain ⟨r, hr, rfl⟩ := push_cases h; exact .insert hr
  | popStart p node limit => obtain ⟨-, rfl⟩ := popStart_cases h; exact .same _
  | preselect p ids => obtain ⟨c, -, -, -, -, rfl⟩ := preselect_cases h; exact .same _
  | beginTx p => obtain ⟨c, ids, session, -, -, -, -, rfl⟩ := beginTx_cases h; exact .same _
  | selectForUpdate p rows =>
    obtain ⟨c, session, ids, -, -, -, -, -, rfl⟩ := selectForUpdate_cases h
    exact .same _
  | launch p => obtain ⟨c, session, ids, results, -, -, -, -, rfl⟩ := launch_cases h; exact .same _
  | commit p =>
    obtain ⟨c, session, results, pending, hp, hc, -, rfl⟩ := commit_cases h
    exact .publish hp hc
  | commitLost p =>
    obtain ⟨c, session, results, pending, -, -, rfl⟩ := commitLost_cases h
    exact .same _
  | popReturn p jobs =>
    rcases popReturn_cases h with ⟨c, -, -, -, rfl⟩ | ⟨c, session, ids, -, -, -, rfl⟩ |
      ⟨c, session, results, -, -, -, -, rfl⟩ <;> exact .same _
  | popFail p => obtain ⟨c, -, -, rfl⟩ := popFail_cases h; exact .same _
  | complete k g res => obtain ⟨-, -, rfl⟩ := complete_cases h; exact .same _
  | addFailure k failedAt ok => obtain ⟨g, res, f, -, rfl⟩ := addFailure_cases h; exact .same _
  | delete k ok =>
    obtain ⟨g, hk, hl, rfl⟩ := delete_cases h
    cases ok with
    | false => exact .same _
    | true => exact .delete hk (hl.resolve_left (by decide))
  | update k ok =>
    obtain ⟨g, next, hk, hl, rfl⟩ := updateStmt_cases h
    cases ok with
    | false => exact .same _
    | true => exact .update hk (hl.resolve_left (by decide))
  | inspectorDelete id => obtain ⟨hl, rfl⟩ := inspectorDelete_cases h; exact .inspectorDelete hl
  | deleteFailure failureId => cases h; exact .same _
  | connect node c => obtain ⟨-, rfl⟩ := connect_cases h; exact .same _
  | disconnect node => cases h; exact .same _
  | recover node => obtain ⟨-, rfl⟩ := recover_cases h; exact .same _
  | orphans node ids => obtain ⟨session, -, -, -, -, rfl⟩ := orphans_cases h; exact .same _
  | reclaim node =>
    obtain ⟨session, ids, hr, hs, hl, rfl⟩ := reclaim_cases h
    exact .reclaim hr hs hl
  | recoverFail node => cases recoverFail_cases h; exact .same _
  | activate node => obtain ⟨-, rfl⟩ := activate_cases h; exact .same _

def Event.popCall : Event → Option ℕ
  | .popStart p _ _ | .preselect p _ | .beginTx p | .selectForUpdate p _ | .launch p | .commit p
  | .commitLost p | .popReturn p _ | .popFail p => some p
  | _ => none

def Event.completeCall : Event → Option ℕ
  | .complete k _ _ | .addFailure k _ _ | .delete k _ | .update k _ => some k
  | _ => none

def Event.sessionNode : Event → Option ℕ
  | .connect node _ | .disconnect node => some node
  | _ => none

def Event.recoverNode : Event → Option ℕ
  | .recover node | .orphans node _ | .reclaim node | .recoverFail node | .activate node =>
    some node
  | _ => none

/-- What a step leaves alone. -/
structure Frame (s : State) (e : Event) (t : State) : Prop where
  pops : e.popCall = none → t.pops = s.pops
  locks : e.popCall = none → t.locks = s.locks
  completes : e.completeCall = none → t.completes = s.completes
  held : (∀ p jobs, e ≠ .popReturn p jobs) → (∀ k g res, e ≠ .complete k g res) →
    t.held = s.held
  sessions : e.sessionNode = none → t.sessions = s.sessions
  serial : e.sessionNode = none → t.nextSerial = s.nextSerial
  recovers : e.recoverNode = none → t.recovers = s.recovers
  owner : (∀ p, e ≠ .commit p) → t.owner = s.owner
  now : (∀ ms, e ≠ .tick ms) → t.now = s.now

theorem step_frame {e : Event} (h : step s e = some t) : Frame s e t := by
  cases e with
  | tick ms =>
    cases h
    constructor <;> intros <;> first | rfl | exact absurd rfl (‹∀ n, Event.tick ms ≠ .tick n› ms)
  | push j a => obtain ⟨r, -, rfl⟩ := push_cases h; constructor <;> intros <;> rfl
  | popStart p node limit =>
    obtain ⟨-, rfl⟩ := popStart_cases h
    constructor <;> intros <;> first | rfl | cases ‹_ = none›
  | preselect p ids =>
    obtain ⟨c, -, -, -, -, rfl⟩ := preselect_cases h
    constructor <;> intros <;> first | rfl | cases ‹_ = none›
  | beginTx p =>
    obtain ⟨c, ids, session, -, -, -, -, rfl⟩ := beginTx_cases h
    constructor <;> intros <;> first | rfl | cases ‹_ = none›
  | selectForUpdate p rows =>
    obtain ⟨c, session, ids, -, -, -, -, -, rfl⟩ := selectForUpdate_cases h
    constructor <;> intros <;> first | rfl | cases ‹_ = none›
  | launch p =>
    obtain ⟨c, session, ids, results, -, -, -, -, rfl⟩ := launch_cases h
    constructor <;> intros <;> first | rfl | cases ‹_ = none›
  | commit p =>
    obtain ⟨c, session, results, pending, -, -, -, rfl⟩ := commit_cases h
    constructor <;> intros <;>
      first | rfl | cases ‹_ = none› | exact absurd rfl (‹∀ q, Event.commit p ≠ .commit q› p)
  | commitLost p =>
    obtain ⟨c, session, results, pending, -, -, rfl⟩ := commitLost_cases h
    constructor <;> intros <;> first | rfl | cases ‹_ = none›
  | popReturn p jobs =>
    rcases popReturn_cases h with ⟨c, -, -, -, rfl⟩ | ⟨c, session, ids, -, -, -, rfl⟩ |
      ⟨c, session, results, -, -, -, -, rfl⟩ <;>
    constructor <;> intros <;> first | rfl | cases ‹_ = none› |
      exact absurd rfl (‹∀ q js, Event.popReturn p jobs ≠ .popReturn q js› p jobs)
  | popFail p =>
    obtain ⟨c, -, -, rfl⟩ := popFail_cases h
    constructor <;> intros <;> first | rfl | cases ‹_ = none›
  | complete k g res =>
    obtain ⟨-, -, rfl⟩ := complete_cases h
    constructor <;> intros <;> first | rfl | cases ‹_ = none› |
      exact absurd rfl (‹∀ l g' r, Event.complete k g res ≠ .complete l g' r› k g res)
  | addFailure k f ok =>
    obtain ⟨g, res, f, -, rfl⟩ := addFailure_cases h
    constructor <;> intros <;> first | rfl | cases ‹_ = none›
  | delete k ok =>
    obtain ⟨g, -, -, rfl⟩ := delete_cases h
    constructor <;> intros <;> first | rfl | cases ‹_ = none›
  | update k ok =>
    obtain ⟨g, n, -, -, rfl⟩ := updateStmt_cases h
    constructor <;> intros <;> first | rfl | cases ‹_ = none›
  | inspectorDelete id =>
    obtain ⟨-, rfl⟩ := inspectorDelete_cases h
    constructor <;> intros <;> rfl
  | deleteFailure failureId => cases h; constructor <;> intros <;> rfl
  | connect node c =>
    obtain ⟨-, rfl⟩ := connect_cases h
    constructor <;> intros <;> first | rfl | cases ‹_ = none›
  | disconnect node => cases h; constructor <;> intros <;> first | rfl | cases ‹_ = none›
  | recover node =>
    obtain ⟨-, rfl⟩ := recover_cases h
    constructor <;> intros <;> first | rfl | cases ‹_ = none›
  | orphans node ids =>
    obtain ⟨c, -, -, -, -, rfl⟩ := orphans_cases h
    constructor <;> intros <;> first | rfl | cases ‹_ = none›
  | reclaim node =>
    obtain ⟨c, ids, -, -, -, rfl⟩ := reclaim_cases h
    constructor <;> intros <;> first | rfl | cases ‹_ = none›
  | recoverFail node =>
    cases recoverFail_cases h
    constructor <;> intros <;> first | rfl | cases ‹_ = none›
  | activate node =>
    obtain ⟨-, rfl⟩ := activate_cases h
    constructor <;> intros <;> first | rfl | cases ‹_ = none›

theorem now_step {e : Event} (h : step s e = some t) : s.now ≤ t.now := by
  by_cases he : ∃ ms, e = .tick ms
  · obtain ⟨ms, rfl⟩ := he
    cases h
    exact Nat.le_add_right _ _
  · exact Nat.le_of_eq ((step_frame h).now fun ms hms ↦ he ⟨ms, hms⟩).symm

inductive PopMove : Event → Option PopPhase → PopPhase → Prop
  | start {p node limit : ℕ} : PopMove (.popStart p node limit) none .started
  | preselect {p : ℕ} {ids : List ℕ} :
      PopMove (.preselect p ids) (some .started) (.preselected ids)
  | begin {p : ℕ} {session : Session} {ids : List ℕ} :
      PopMove (.beginTx p) (some (.preselected ids)) (.begun session ids)
  | select {p : ℕ} {session : Session} {ids ids' : List ℕ} {rows : List Row} :
      PopMove (.selectForUpdate p rows) (some (.begun session ids))
        (.selected session ids' (rows.map Job.scan))
  | launch {p : ℕ} {session : Session} {ids : List ℕ} {results : List Job} {pending : List Row} :
      PopMove (.launch p) (some (.selected session ids results))
        (.launched session results pending)
  | commit {p : ℕ} {session : Session} {results : List Job} {pending : List Row} :
      PopMove (.commit p) (some (.launched session results pending)) (.committed session results)
  | commitLost {p : ℕ} {session : Session} {results : List Job} {pending : List Row} :
      PopMove (.commitLost p) (some (.launched session results pending))
        (.committed session results)
  | returnNone {p : ℕ} : PopMove (.popReturn p []) (some (.preselected [])) (.returned [])
  | returnEmpty {p : ℕ} {session : Session} {ids : List ℕ} :
      PopMove (.popReturn p []) (some (.selected session ids [])) (.returned [])
  | return {p : ℕ} {session : Session} {results jobs : List Job} : jobs.Perm results →
      PopMove (.popReturn p jobs) (some (.committed session results))
        (.returned (jobs.map (Grab.mk session)))
  | fail {p : ℕ} {phase : PopPhase} : phase.running = true →
      PopMove (.popFail p) (some phase) .failed

def State.phase (s : State) (p : ℕ) : Option PopPhase := (s.pops p).map PopCall.phase

theorem State.phase_of {p : ℕ} {c : PopCall} {phase : PopPhase} (hp : s.pops p = some c)
    (hc : c.phase = phase) : s.phase p = some phase := by
  rw [State.phase, hp, Option.map_some, hc]

theorem step_moves {e : Event} {p : ℕ} (h : step s e = some t) (he : e.popCall = some p) :
    ∃ c, t.pops = update s.pops p (some c) ∧
      PopMove e (s.phase p) c.phase := by
  unfold State.phase
  cases e with
  | popStart q node limit =>
    cases he
    obtain ⟨hp, rfl⟩ := popStart_cases h
    exact ⟨_, rfl, hp ▸ .start⟩
  | preselect q ids =>
    cases he
    obtain ⟨c, hp, hc, -, -, rfl⟩ := preselect_cases h
    exact ⟨_, rfl, by simpa only [hp, Option.map_some, hc] using .preselect⟩
  | beginTx q =>
    cases he
    obtain ⟨c, ids, session, hp, hc, -, -, rfl⟩ := beginTx_cases h
    exact ⟨_, rfl, by simpa only [hp, Option.map_some, hc] using .begin⟩
  | selectForUpdate q rows =>
    cases he
    obtain ⟨c, session, ids, hp, hc, -, -, -, rfl⟩ := selectForUpdate_cases h
    refine ⟨_, rfl, ?_⟩
    simpa only [hp, Option.map_some, hc, scanRows_results, List.nil_append] using .select
  | launch q =>
    cases he
    obtain ⟨c, session, ids, results, hp, hc, -, -, rfl⟩ := launch_cases h
    exact ⟨_, rfl, by simpa only [hp, Option.map_some, hc] using .launch⟩
  | commit q =>
    cases he
    obtain ⟨c, session, results, pending, hp, hc, -, rfl⟩ := commit_cases h
    exact ⟨_, rfl, by simpa only [hp, Option.map_some, hc] using .commit⟩
  | commitLost q =>
    cases he
    obtain ⟨c, session, results, pending, hp, hc, rfl⟩ := commitLost_cases h
    exact ⟨_, rfl, by simpa only [hp, Option.map_some, hc] using .commitLost⟩
  | popReturn q jobs =>
    cases he
    rcases popReturn_cases h with ⟨c, hp, hc, rfl, rfl⟩ | ⟨c, session, ids, hp, hc, rfl, rfl⟩ |
      ⟨c, session, results, hp, hc, hperm, -, rfl⟩
    · exact ⟨_, rfl, by simpa only [hp, Option.map_some, hc] using .returnNone⟩
    · exact ⟨_, rfl, by simpa only [hp, Option.map_some, hc] using .returnEmpty⟩
    · exact ⟨_, rfl, by simpa only [hp, Option.map_some, hc] using .return hperm⟩
  | popFail q =>
    cases he
    obtain ⟨c, hp, hrun, rfl⟩ := popFail_cases h
    exact ⟨_, rfl, by simpa only [hp, Option.map_some] using .fail hrun⟩
  | _ => cases he

theorem phase_step {e : Event} (h : step s e = some t) (p : ℕ) :
    t.phase p = s.phase p ∨
      e.popCall = some p ∧ ∃ phase, t.phase p = some phase ∧ PopMove e (s.phase p) phase := by
  cases he : e.popCall with
  | none => exact .inl (by rw [State.phase, (step_frame h).pops he]; rfl)
  | some q =>
    obtain ⟨c, hpops, hm⟩ := step_moves h he
    by_cases hpq : p = q
    · subst hpq
      exact .inr ⟨rfl, c.phase, by simp [State.phase, hpops], hm⟩
    · exact .inl (by simp [State.phase, hpops, hpq])

inductive CompleteMove (s : State) (k : ℕ) : Event → CompleteCall → Prop
  | start {g : Grab} {res : Result} : g ∈ s.held → s.completes k = none →
      CompleteMove s k (.complete k g res) ⟨g, completePhase g res⟩
  | log {g : Grab} {res : Result} {failedAt : ℕ} {ok : Bool} :
      s.completes k = some ⟨g, .logging res⟩ →
      CompleteMove s k (.addFailure k failedAt ok) ⟨g, .deleting⟩
  | delete {g : Grab} {ok : Bool} : s.completes k = some ⟨g, .deleting⟩ →
      CompleteMove s k (.delete k ok) ⟨g, .done⟩
  | update {g : Grab} {next : NextInfo} {ok : Bool} : s.completes k = some ⟨g, .updating next⟩ →
      CompleteMove s k (.update k ok) ⟨g, .done⟩

theorem completes_step {e : Event} (h : step s e = some t) (k : ℕ) :
    t.completes k = s.completes k ∨ ∃ c, t.completes k = some c ∧ CompleteMove s k e c := by
  have hset {l : ℕ} {c : CompleteCall} (ht : t.completes = update s.completes l (some c))
      (hm : l = k → CompleteMove s k e c) :
      t.completes k = s.completes k ∨ ∃ c, t.completes k = some c ∧ CompleteMove s k e c := by
    by_cases hk : k = l
    · exact .inr ⟨c, by rw [ht, hk, update_self], hm hk.symm⟩
    · exact .inl (by rw [ht, update_of_ne hk])
  cases e with
  | complete l g res =>
    obtain ⟨hg, hl, rfl⟩ := complete_cases h
    exact hset rfl (by rintro rfl; exact .start hg hl)
  | addFailure l f ok =>
    obtain ⟨g, res, failures, hl, rfl⟩ := addFailure_cases h
    exact hset rfl (by rintro rfl; exact .log hl)
  | delete l ok =>
    obtain ⟨g, hl, -, rfl⟩ := delete_cases h
    exact hset rfl (by rintro rfl; exact .delete hl)
  | update l ok =>
    obtain ⟨g, next, hl, -, rfl⟩ := updateStmt_cases h
    exact hset rfl (by rintro rfl; exact .update hl)
  | _ => exact .inl (by rw [(step_frame h).completes rfl])

/-- A job that is held after a step was held before it or has been returned
by the step. -/
theorem held_step {e : Event} (h : step s e = some t) {g : Grab} (hg : g ∈ t.held) :
    g ∈ s.held ∨ ∃ p results, s.phase p = some (.committed g.session results) ∧
      g.job ∈ results := by
  cases e with
  | popReturn p jobs =>
    rcases popReturn_cases h with ⟨c, -, -, -, rfl⟩ | ⟨c, session, ids, -, -, -, rfl⟩ |
      ⟨c, session, results, hp, hc, hperm, -, rfl⟩
    · exact .inl hg
    · exact .inl hg
    · rcases List.mem_append.mp hg with hg | hg
      · exact .inl hg
      · obtain ⟨j, hj, rfl⟩ := List.mem_map.mp hg
        exact .inr ⟨p, results, State.phase_of hp hc, hperm.mem_iff.mp hj⟩
  | complete k g' res =>
    obtain ⟨-, -, rfl⟩ := complete_cases h
    exact .inl (List.mem_of_mem_erase hg)
  | _ => exact .inl (by rwa [(step_frame h).held nofun nofun] at hg)

end Fireworq.MySQL.Cluster
