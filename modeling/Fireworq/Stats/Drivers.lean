import Fireworq.InMemory.Queue
import Fireworq.MySQL.Cluster
import Fireworq.Stats.JobQueue

namespace Fireworq.Stats

open JobQueue Execution Function

def inMemory : Queue InMemory.State InMemory.Event ℕ where
  initial := .initial
  step := InMemory.step
  starts
    | .complete k p res => some (k, p, res)
    | _ => none
  taken s k := (s.completes k).map InMemory.CompleteCall.taken
  returned s k := (s.completes k).any InMemory.CompleteCall.done
  retryCount := InMemory.State.retryCount
  failureUrl s p := (s.objects[p]?.map fun j ↦ j.incoming.failureUrl).getD ""
  taken_eq s e t k p res h hs := by
    cases e with
    | complete k' p' res' =>
      cases hs
      obtain ⟨-, -, -, hcalls⟩ := InMemory.complete_live h
      rw [hcalls, update_self, Option.map_some]
    | _ => cases hs

def branch : MySQL.Cluster.CompletePhase → Option Completion
  | .deleting => some .succeed
  | .logging _ => some .failPermanently
  | .updating _ => some .retry
  | .done => none

theorem branch_completePhase (g : MySQL.Cluster.Grab) (res : Result) :
    branch (MySQL.Cluster.completePhase g res) = some (completion res g.job.retryCount) := by
  unfold MySQL.Cluster.completePhase
  cases completion res g.job.retryCount <;> rfl

def mysql : Queue MySQL.Cluster.State MySQL.Cluster.Event MySQL.Cluster.Grab where
  initial := .initial
  step := MySQL.Cluster.step
  starts
    | .complete k g res => some (k, g, res)
    | _ => none
  taken s k := (s.completes k).bind fun c ↦ branch c.phase
  returned s k := (s.completes k).any fun c ↦ c.phase = .done
  retryCount _ g := g.job.retryCount
  failureUrl _ g := g.job.failureUrl
  taken_eq s e t k g res h hs := by
    cases e with
    | complete k' g' res' =>
      cases hs
      simp only [MySQL.Cluster.step, MySQL.Cluster.complete] at h
      split at h <;> cases h
      simp only [update_self, Option.bind_some, branch_completePhase]
    | _ => cases hs

section InMemory

variable {x : Extractor} {s t : State InMemory.State ℕ} {es : List (Event InMemory.Event)}

/-- A job that is queued again has a retry left when the decorator asks for
it, unless the result or the lack of retries has settled the call before. -/
def Keeps (s : State InMemory.State ℕ) : Event InMemory.Event → Prop
  | .inner _ => True
  | .record k => ∀ c, s.calls k = some c → c.recorded →
      c.res.isSuccess = true ∨ c.res.isPermanentFailure = true ∨ c.retryCount = 0 ∨
        s.inner.retryCount c.job ≠ 0

instance : (s : State InMemory.State ℕ) → (e : Event InMemory.Event) → Decidable (Keeps s e)
  | _, .inner _ => isTrue trivial
  | s, .record k =>
    match h : s.calls k with
    | none => isTrue fun c hc ↦ by rw [h] at hc; cases hc
    | some d => decidable_of_iff (d.recorded → d.res.isSuccess = true ∨
        d.res.isPermanentFailure = true ∨ d.retryCount = 0 ∨ s.inner.retryCount d.job ≠ 0)
        ⟨fun hd c hc ↦ by rw [h] at hc; cases hc; exact hd, fun hk ↦ hk d h⟩

structure Settled (s : State InMemory.State ℕ) : Prop where
  inner : InMemory.Inv s.inner
  retired : ∀ k c, s.calls k = some c → c.taken ≠ .retry →
    InMemory.Retired s.inner c.job ∧ s.inner.retryCount c.job = c.retryCount

theorem Settled.step {e : Event InMemory.Event} (hs : Settled s)
    (h : step inMemory x s e = some t) : Settled t := by
  cases e with
  | inner e =>
    obtain ⟨hinner, -, hcalls⟩ := delegate_cases h
    refine ⟨InMemory.step_inv hs.inner hinner, fun k c hc hne ↦ ?_⟩
    rcases hcalls k c hc with ⟨hc, -⟩ | ⟨hstart, hcount, htaken⟩
    · obtain ⟨hret, heq⟩ := hs.retired k c hc hne
      obtain ⟨hret', heq'⟩ := InMemory.retired_step hret hinner
      exact ⟨hret', heq'.trans heq⟩
    · cases e with
      | complete k' p res =>
        cases hstart
        rw [htaken, hcount] at hne
        obtain ⟨-, hobj, -⟩ := InMemory.complete_live hinner
        refine ⟨InMemory.retired_of_complete hs.inner hinner hne, ?_⟩
        rw [hcount, InMemory.State.retryCount, hobj]
        rfl
      | _ => cases hstart
  | record k =>
    obtain ⟨-, -, hinner, hcalls, -⟩ := record_cases h
    refine ⟨hinner ▸ hs.inner, fun i c hc hne ↦ ?_⟩
    rw [hcalls] at hc
    by_cases hi : i = k
    · rw [hi, update_self] at hc
      cases hc
    · rw [hinner]
      exact hs.retired i c ((update_of_ne hi _ _).symm.trans hc) hne

theorem Run.settled (h : Run inMemory x es s) : Settled s :=
  invariant Settled (fun _ _ _ ↦ Settled.step) h
    ⟨InMemory.initial_inv, fun k c hc ↦ by cases hc⟩

theorem retains_iff_keeps (h : Run inMemory x es s) (e : Event InMemory.Event) :
    Retains inMemory s e ↔ Keeps s e := by
  cases e with
  | inner e => exact Iff.rfl
  | record k =>
    refine forall_congr' fun c ↦ forall_congr' fun hc ↦ forall_congr' fun _ ↦ ?_
    refine or_congr_right' fun hs ↦ or_congr_right' fun hp ↦ ?_
    have hzero (h₀ : c.retryCount = 0) : s.inner.retryCount c.job = 0 := by
      have htaken : c.taken ≠ .retry := fun hr ↦ by
        rw [h.decided k c hc] at hr
        have := retryCount_pos hr
        omega
      rw [(h.settled.retired k c hc htaken).2, h₀]
    exact ⟨fun hr ↦ (Decidable.em _).imp_right fun h₀ ↦ mt hr.mpr h₀,
      fun hk ↦ ⟨hzero, fun h₀ ↦ hk.resolve_right (not_not_intro h₀)⟩⟩

/-- If nothing comes between, it is the last retry that is misjudged. -/
theorem keeps_undisturbed {u : State InMemory.State ℕ} {k p : ℕ} {res : Result}
    (hlt : s.inner.retryCount p < 2 ^ 64)
    (hretry : completion res (s.inner.retryCount p) = .retry)
    (hstart : step inMemory x s (.inner (.complete k p res)) = some t)
    (hfinish : step inMemory x t (.inner (.finish k)) = some u) :
    Keeps u (.record k) ↔ ∀ c, u.calls k = some c → c.recorded → s.inner.retryCount p ≠ 1 := by
  obtain ⟨hinner, -, hcalls⟩ := delegate_cases (x := x) hstart
  obtain ⟨hinner', -, hcalls'⟩ := delegate_cases (x := x) hfinish
  obtain ⟨-, hobj, -, hcompletes⟩ := InMemory.complete_live hinner
  have hpos := retryCount_pos hretry
  have hsame : t.inner.retryCount p = s.inner.retryCount p := by
    rw [InMemory.State.retryCount, hobj, InMemory.State.retryCount]
  have hcount : u.inner.retryCount p = s.inner.retryCount p - 1 := by
    rw [← hsame]
    refine InMemory.retryCount_finish ?_ (by omega) (by omega) hinner'
    rw [InMemory.State.updating, hcompletes, update_self, hretry]
  refine forall_congr' fun c ↦ forall_congr' fun hc ↦ forall_congr' fun _ ↦ ?_
  obtain ⟨rfl, rfl, hc₀, hres⟩ : c.job = p ∧ c.res = res ∧
      c.retryCount = s.inner.retryCount p ∧ finishes c.res (s.inner.retryCount p) = false := by
    rcases hcalls' k c hc with ⟨hc, -⟩ | ⟨hs, -⟩
    · rcases hcalls k c hc with ⟨-, hs⟩ | ⟨hs, hc₀, -⟩
      · exact absurd rfl (hs p res)
      · cases hs
        exact ⟨rfl, rfl, hc₀, completion_retry_iff.mp hretry⟩
    · cases hs
  simp only [finishes, Bool.or_eq_false_iff] at hres
  simp only [hres, hc₀, hcount, Bool.false_eq_true, false_or]
  omega

end InMemory

/-- The statistics of the MySQL driver mirror the completions in every run.
Those of the in-memory driver do so exactly in the runs in which no job that
was queued again is out of retries when its call is classified. -/
theorem dispatch_mirrors (x : Extractor) :
    (∀ es s, Run mysql x es s → Mirrors s.log) ∧
      ∀ es s, Run inMemory x es s →
        (Mirrors s.log ↔ Along (step inMemory x) Keeps (.initial inMemory) es) := by
  constructor
  · intro es s h
    rw [h.mirrors_iff]
    refine Along.of_split fun xs e ys u _ hu ↦ ?_
    cases e with
    | inner e => trivial
    | record k =>
      intro c hc _
      have hcount : c.retryCount = c.job.job.retryCount :=
        Run.calls (P := fun c ↦ c.retryCount = c.job.job.retryCount) (fun _ _ hcount _ ↦ hcount)
          hu k c hc
      exact .inr (.inr (by rw [hcount]; rfl))
  · intro es s h
    rw [h.mirrors_iff]
    constructor
    · intro ha
      refine Along.of_split fun xs e ys u hsplit hu ↦ ?_
      subst hsplit
      exact (retains_iff_keeps hu e).mp (ha.at hu)
    · intro ha
      refine Along.of_split fun xs e ys u hsplit hu ↦ ?_
      subst hsplit
      exact (retains_iff_keeps hu e).mpr (ha.at hu)

section Samples

def failureUrl : String := "http://localhost/failed?org_id=200&target_env=test"

def extractor : Extractor where
  orgId url := if url = failureUrl then "200" else ""
  targetEnv url := if url = failureUrl then "test" else ""

def trackedJob (retryCount : ℕ) : IncomingJob where
  category := "mail"
  url := "http://localhost/worker"
  payload := "1"
  nextDelay := 0
  timeout := 10
  retryDelay := 60
  retryCount := retryCount
  failureUrl := failureUrl

def failed : Result where
  status := resultStatusFailure
  code := 500
  message := ""

def failInMemory (retryCount : ℕ) : List (Event InMemory.Event) :=
  [.inner (.push (trackedJob retryCount)), .inner (.pop 10), .inner (.complete 0 0 failed),
    .inner (.finish 0), .record 0]

def trackedRow : MySQL.Row where
  jobId := 1
  nextTry := 0
  grabberId := none
  status := .claimed
  createdAt := 0
  retryCount := 1
  retryDelay := 60
  failCount := 0
  category := "mail"
  url := "http://localhost/worker"
  payload := "1"
  timeout := 10
  failureUrl := some failureUrl
  fits := by decide

def failMySQL : List (Event MySQL.Cluster.Event) :=
  [.connect 0 7, .push (trackedJob 1) true, .popStart 0 0 10, .preselect 0 [1], .beginTx 0,
    .selectForUpdate 0 [trackedRow], .launch 0, .commit 0,
    .popReturn 0 [MySQL.Job.scan trackedRow],
    .complete 0 ⟨⟨0, 7⟩, MySQL.Job.scan trackedRow⟩ failed, .update 0 true].map .inner ++
    [.record 0]

end Samples

theorem dispatch_mirrors_retry :
    (∃ s, Run mysql extractor failMySQL s ∧
      s.log = [⟨.retry, ⟨"test", "200", false, false⟩⟩] ∧ Mirrors s.log) ∧
    ∃ s, Run inMemory extractor (failInMemory 2) s ∧
      s.log = [⟨.retry, ⟨"test", "200", false, false⟩⟩] ∧ Mirrors s.log := by
  constructor
  · obtain ⟨s, hs, hlog⟩ := Option.map_eq_some_iff.mp
      (show (exec (step mysql extractor) (.initial mysql) failMySQL).map State.log =
        some [⟨.retry, ⟨"test", "200", false, false⟩⟩] by decide +kernel)
    exact ⟨s, hs, hlog, (dispatch_mirrors extractor).1 failMySQL s hs⟩
  · obtain ⟨s, hs, hlog⟩ := Option.map_eq_some_iff.mp
      (show (exec (step inMemory extractor) (.initial inMemory) (failInMemory 2)).map State.log =
        some [⟨.retry, ⟨"test", "200", false, false⟩⟩] by decide +kernel)
    refine ⟨s, hs, hlog, ((dispatch_mirrors extractor).2 (failInMemory 2) s hs).mpr ?_⟩
    decide +kernel

/-- A job with one retry left fails. It is queued again, and counted as
permanently failed. -/
theorem last_retry_counted_as_permanent :
    ∃ s, Run inMemory extractor (failInMemory 1) s ∧
      s.log = [⟨.retry, ⟨"test", "200", false, true⟩⟩] ∧
      (counters "test" "200" (s.log.map Entry.dispatch)).permanentFail = 1 ∧ ¬ Mirrors s.log := by
  obtain ⟨s, hs, hlog⟩ := Option.map_eq_some_iff.mp
    (show (exec (step inMemory extractor) (.initial inMemory) (failInMemory 1)).map State.log =
      some [⟨.retry, ⟨"test", "200", false, true⟩⟩] by decide +kernel)
  refine ⟨s, hs, hlog, by rw [hlog]; decide, fun h ↦ ?_⟩
  rw [hlog] at h
  have := agrees_iff_outcome.mp (h.agrees _ List.mem_cons_self)
  exact absurd this (by decide)

end Fireworq.Stats
