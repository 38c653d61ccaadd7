import Fireworq.Execution
import Fireworq.JobQueue.Completion

namespace Fireworq.Stats

open JobQueue Execution Function

variable {σ ε ρ : Type}

/-- A job queue as a decorator of its `Complete` sees it. An event may start a
call of `Complete`, which takes a branch and returns later; the methods of the
job read the state they are called in. -/
structure Queue (σ ε ρ : Type) where
  initial : σ
  step : σ → ε → Option σ
  starts : ε → Option (ℕ × ρ × Result)
  taken : σ → ℕ → Option Completion
  returned : σ → ℕ → Bool
  retryCount : σ → ρ → ℕ
  failureUrl : σ → ρ → String
  taken_eq : ∀ s e t k j res, step s e = some t → starts e = some (k, j, res) →
    taken t k = some (completion res (retryCount s j))

structure Extractor where
  orgId : String → String
  targetEnv : String → String

/-- A call of the decorated `Complete`, with what it has read before it
delegated the call and the branch that the inner queue took. -/
structure Call (ρ : Type) where
  job : ρ
  res : Result
  retryCount : ℕ
  taken : Completion
  orgId : String
  targetEnv : String

structure Dispatch where
  targetEnv : String
  orgId : String
  isSuccess : Bool
  isPermanentFail : Bool
  deriving DecidableEq

structure Entry where
  taken : Completion
  dispatch : Dispatch
  deriving DecidableEq

structure State (σ ρ : Type) where
  inner : σ
  calls : ℕ → Option (Call ρ)
  log : List Entry

inductive Event (ε : Type)
  | inner (e : ε)
  | record (k : ℕ)
  deriving DecidableEq

def State.initial (Q : Queue σ ε ρ) : State σ ρ := ⟨Q.initial, fun _ ↦ none, []⟩

def Call.recorded (c : Call ρ) : Prop := ¬ (c.orgId = "" ∨ c.targetEnv = "")

instance (c : Call ρ) : Decidable c.recorded := inferInstanceAs (Decidable (¬ _))

def Call.dispatch (c : Call ρ) (retryCount : ℕ) : Dispatch where
  targetEnv := c.targetEnv
  orgId := c.orgId
  isSuccess := c.res.isSuccess
  isPermanentFail := c.res.isPermanentFailure || (!c.res.isSuccess && retryCount == 0)

def delegate (Q : Queue σ ε ρ) (x : Extractor) (s : State σ ρ) (e : ε) : Option (State σ ρ) :=
  (Q.step s.inner e).map fun t ↦
    match Q.starts e with
    | some (k, j, res) =>
      { s with
        inner := t
        calls := update s.calls k ((Q.taken t k).map fun taken ↦ {
          job := j
          res := res
          retryCount := Q.retryCount s.inner j
          taken := taken
          orgId := x.orgId (Q.failureUrl s.inner j)
          targetEnv := x.targetEnv (Q.failureUrl s.inner j) }) }
    | none => { s with inner := t }

def record (Q : Queue σ ε ρ) (s : State σ ρ) (k : ℕ) : Option (State σ ρ) :=
  match s.calls k with
  | some c =>
    if Q.returned s.inner k then
      some { s with
        calls := update s.calls k none
        log := if c.recorded then
          s.log ++ [⟨c.taken, c.dispatch (Q.retryCount s.inner c.job)⟩] else s.log }
    else none
  | none => none

def step (Q : Queue σ ε ρ) (x : Extractor) (s : State σ ρ) : Event ε → Option (State σ ρ)
  | .inner e => delegate Q x s e
  | .record k => record Q s k

def Run (Q : Queue σ ε ρ) (x : Extractor) (es : List (Event ε)) (s : State σ ρ) : Prop :=
  exec (step Q x) (.initial Q) es = some s

section Counters

structure Counters where
  total : ℕ
  success : ℕ
  fail : ℕ
  permanentFail : ℕ
  deriving DecidableEq

def Counters.add (c : Counters) (isSuccess isPermanentFail : Bool) : Counters :=
  if isSuccess then { c with total := c.total + 1, success := c.success + 1 }
  else if isPermanentFail then
    { c with
      total := c.total + 1
      fail := c.fail + 1
      permanentFail := c.permanentFail + 1 }
  else { c with total := c.total + 1, fail := c.fail + 1 }

def counters (targetEnv orgId : String) (ds : List Dispatch) : Counters :=
  (ds.filter fun d ↦ d.targetEnv = targetEnv ∧ d.orgId = orgId).foldl
    (fun c d ↦ c.add d.isSuccess d.isPermanentFail) ⟨0, 0, 0, 0⟩

end Counters

structure Agrees (y : Entry) : Prop where
  success : y.dispatch.isSuccess = true ↔ y.taken = .succeed
  permanent : y.dispatch.isSuccess = false ∧ y.dispatch.isPermanentFail = true ↔
    y.taken = .failPermanently
  retried : y.dispatch.isSuccess = false ∧ y.dispatch.isPermanentFail = false ↔ y.taken = .retry

structure Mirrors (log : List Entry) : Prop where
  agrees : ∀ y ∈ log, Agrees y
  permanentFail : ∀ targetEnv orgId,
    (counters targetEnv orgId (log.map Entry.dispatch)).permanentFail =
      log.countP fun y ↦ y.dispatch.targetEnv = targetEnv ∧ y.dispatch.orgId = orgId ∧
        y.taken = .failPermanently

theorem counters_permanentFail (targetEnv orgId : String) (ds : List Dispatch) :
    (counters targetEnv orgId ds).permanentFail = ds.countP fun d ↦ d.targetEnv = targetEnv ∧
      d.orgId = orgId ∧ d.isSuccess = false ∧ d.isPermanentFail = true := by
  have hfold (c : Counters) (ds : List Dispatch) :
      (ds.foldl (fun c d ↦ c.add d.isSuccess d.isPermanentFail) c).permanentFail =
        c.permanentFail + ds.countP fun d ↦ d.isSuccess = false ∧ d.isPermanentFail = true := by
    induction ds generalizing c with
    | nil => simp
    | cons d ds ih =>
      rw [List.foldl_cons, ih, List.countP_cons, Counters.add]
      cases d.isSuccess <;> cases d.isPermanentFail <;> simp
      omega
  rw [counters, hfold, Nat.zero_add, List.countP_filter]
  refine List.countP_congr fun d _ ↦ ?_
  simp only [Bool.and_eq_true, decide_eq_true_eq]
  exact ⟨fun h ↦ ⟨h.2.1, h.2.2, h.1⟩, fun h ↦ ⟨h.2.2, h.1, h.2.1⟩⟩

theorem mirrors_iff_agrees {log : List Entry} : Mirrors log ↔ ∀ y ∈ log, Agrees y := by
  refine ⟨Mirrors.agrees, fun h ↦ ⟨h, fun targetEnv orgId ↦ ?_⟩⟩
  rw [counters_permanentFail, List.countP_map]
  refine List.countP_congr fun y hy ↦ ?_
  simp only [comp_apply, decide_eq_true_eq]
  rw [(h y hy).permanent]

section Decorated

variable {Q : Queue σ ε ρ} {x : Extractor} {s t : State σ ρ}

def Dispatch.outcome (d : Dispatch) : Completion :=
  if d.isSuccess then .succeed else if d.isPermanentFail then .failPermanently else .retry

theorem agrees_iff_outcome {y : Entry} : Agrees y ↔ y.dispatch.outcome = y.taken := by
  obtain ⟨taken, ⟨targetEnv, orgId, isSuccess, isPermanentFail⟩⟩ := y
  constructor
  · rintro ⟨h₁, h₂, h₃⟩
    cases isSuccess <;> cases isPermanentFail <;> simp_all [Dispatch.outcome]
  · intro h
    simp only at h
    subst h
    constructor <;> cases isSuccess <;> cases isPermanentFail <;> simp [Dispatch.outcome]

theorem dispatch_outcome (c : Call ρ) (n : ℕ) : (c.dispatch n).outcome = completion c.res n := by
  unfold Dispatch.outcome Call.dispatch completion canRetry
  cases c.res.isSuccess <;> cases c.res.isPermanentFailure <;> cases n <;> simp

theorem completion_eq_iff {res : Result} {m n : ℕ} :
    completion res m = completion res n ↔
      res.isSuccess = true ∨ res.isPermanentFailure = true ∨ (m = 0 ↔ n = 0) := by
  simp only [completion, canRetry]
  cases res.isSuccess <;> cases res.isPermanentFailure <;> cases m <;> cases n <;> simp

def Retains (Q : Queue σ ε ρ) (s : State σ ρ) : Event ε → Prop
  | .inner _ => True
  | .record k => ∀ c, s.calls k = some c → c.recorded →
      c.res.isSuccess = true ∨ c.res.isPermanentFailure = true ∨
        (c.retryCount = 0 ↔ Q.retryCount s.inner c.job = 0)

theorem delegate_cases {e : ε} (h : delegate Q x s e = some t) :
    Q.step s.inner e = some t.inner ∧ t.log = s.log ∧
      ∀ i c, t.calls i = some c →
        s.calls i = some c ∧ (∀ j res, Q.starts e ≠ some (i, j, res)) ∨
        Q.starts e = some (i, c.job, c.res) ∧ c.retryCount = Q.retryCount s.inner c.job ∧
          c.taken = completion c.res c.retryCount := by
  obtain ⟨u, hu, rfl⟩ := Option.map_eq_some_iff.mp h
  cases hs : Q.starts e with
  | none => exact ⟨hu, rfl, fun i c hc ↦ .inl ⟨hc, fun _ _ h ↦ by cases h⟩⟩
  | some call =>
    obtain ⟨k, j, res⟩ := call
    refine ⟨hu, rfl, fun i c hc ↦ ?_⟩
    by_cases hi : i = k
    · subst hi
      simp only [update_self, Q.taken_eq _ _ _ _ _ _ hu hs, Option.map_some,
        Option.some.injEq] at hc
      subst hc
      exact .inr ⟨rfl, rfl, rfl⟩
    · refine .inl ⟨(update_of_ne hi _ _).symm.trans hc, fun _ _ h ↦ hi ?_⟩
      cases h
      rfl

theorem record_cases {k : ℕ} (h : record Q s k = some t) :
    ∃ c, s.calls k = some c ∧ t.inner = s.inner ∧ t.calls = update s.calls k none ∧
      t.log = if c.recorded then s.log ++ [⟨c.taken, c.dispatch (Q.retryCount s.inner c.job)⟩]
        else s.log := by
  unfold record at h
  split at h
  next c hc =>
    split at h <;> cases h
    exact ⟨c, hc, rfl, rfl, rfl⟩
  next => cases h

/-- What every call satisfies when it starts, every call satisfies. -/
theorem calls_step {P : Call ρ → Prop} {e : Event ε}
    (hstart : ∀ s c, c.retryCount = Q.retryCount s c.job →
      c.taken = completion c.res c.retryCount → P c)
    (hs : ∀ k c, s.calls k = some c → P c) (h : step Q x s e = some t) :
    ∀ k c, t.calls k = some c → P c := by
  intro k c hc
  cases e with
  | inner e =>
    rcases (delegate_cases h).2.2 k c hc with ⟨hc, -⟩ | ⟨-, hcount, htaken⟩
    · exact hs k c hc
    · exact hstart s.inner c hcount htaken
  | record k' =>
    obtain ⟨-, -, -, hcalls, -⟩ := record_cases h
    rw [hcalls] at hc
    by_cases hk : k = k'
    · rw [hk, update_self] at hc
      cases hc
    · exact hs k c ((update_of_ne hk _ _).symm.trans hc)

theorem Run.calls {P : Call ρ → Prop} {es : List (Event ε)}
    (hstart : ∀ s c, c.retryCount = Q.retryCount s c.job →
      c.taken = completion c.res c.retryCount → P c)
    (h : Run Q x es s) : ∀ k c, s.calls k = some c → P c :=
  invariant (fun s ↦ ∀ k c, s.calls k = some c → P c) (fun _ _ _ ↦ calls_step hstart) h
    fun k c hc ↦ by cases hc

def Decided (s : State σ ρ) : Prop :=
  ∀ k c, s.calls k = some c → c.taken = completion c.res c.retryCount

theorem Decided.step {e : Event ε} (hs : Decided s) (h : step Q x s e = some t) : Decided t :=
  calls_step (fun _ _ _ htaken ↦ htaken) hs h

theorem Run.decided {es : List (Event ε)} (h : Run Q x es s) : Decided s :=
  h.calls fun _ _ _ htaken ↦ htaken

theorem agrees_step {e : Event ε} (hs : Decided s) (h : step Q x s e = some t) :
    (∀ y ∈ t.log, Agrees y) ↔ (∀ y ∈ s.log, Agrees y) ∧ Retains Q s e := by
  cases e with
  | inner e =>
    rw [(delegate_cases h).2.1]
    exact (and_iff_left trivial).symm
  | record k =>
    obtain ⟨c, hc, -, -, hlog⟩ := record_cases h
    have hretains : Retains Q s (.record k) ↔
        (c.recorded → Agrees ⟨c.taken, c.dispatch (Q.retryCount s.inner c.job)⟩) := by
      rw [agrees_iff_outcome, dispatch_outcome, hs k c hc, eq_comm, completion_eq_iff]
      simp only [Retains, hc, Option.some.injEq]
      exact ⟨fun h ↦ h c rfl, fun h d hd ↦ hd ▸ h⟩
    rw [hlog, hretains]
    split
    · have hrec : c.recorded := ‹_›
      simp only [List.mem_append, List.mem_singleton, or_imp, forall_and, forall_eq, hrec,
        forall_const]
    · have hrec : ¬ c.recorded := ‹_›
      simp only [hrec, false_implies, and_true]

theorem agrees_run {es : List (Event ε)} (hs : Decided s) (h : exec (step Q x) s es = some t) :
    (∀ y ∈ t.log, Agrees y) ↔
      (∀ y ∈ s.log, Agrees y) ∧ Along (step Q x) (Retains Q) s es := by
  induction es generalizing s with
  | nil =>
    cases h
    exact (and_iff_left trivial).symm
  | cons e es ih =>
    obtain ⟨u, hu, h⟩ := exec_cons h
    rw [ih (hs.step hu) h, agrees_step hs hu, and_assoc]
    refine and_congr_right fun _ ↦ and_congr_right fun _ ↦ ⟨fun ha v hv ↦ ?_, fun ha ↦ ha u hu⟩
    rw [hu] at hv
    cases hv
    exact ha

theorem Run.mirrors_iff {es : List (Event ε)} (h : Run Q x es s) :
    Mirrors s.log ↔ Along (step Q x) (Retains Q) (.initial Q) es := by
  have hdec : Decided (State.initial Q) := by
    intro k c hc
    cases hc
  rw [mirrors_iff_agrees, agrees_run hdec h]
  exact and_iff_right fun y hy ↦ by cases hy

end Decorated

end Fireworq.Stats
