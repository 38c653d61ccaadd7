import Fireworq.Execution
import Mathlib.Algebra.Group.Nat.Defs
import Mathlib.Data.List.Perm.Basic

namespace Fireworq.Dispatcher

open Execution

structure Config where
  minBufferSize : ℕ
  maxWorkers : ℕ

def defaultMinBufferSize : ℕ := 1000

def Config.bufferSize (cfg : Config) : ℕ :=
  let bufferSize := if cfg.minBufferSize = 0 then defaultMinBufferSize else cfg.minBufferSize
  if cfg.maxWorkers > bufferSize then cfg.maxWorkers else bufferSize

/-- Where the goroutine of a worker is: in `limiter.Wait`, in `Work`, in
`Complete`, at the two deferred calls, or at its end. -/
inductive WorkerPc
  | limiter
  | working
  | completing
  | releasing
  | finishing
  | ended
  deriving DecidableEq

/-- A job is named by its place among all the jobs that `Pop` has returned. -/
structure Worker where
  job : ℕ
  pc : WorkerPc
  deriving DecidableEq

inductive LoopPc
  | select
  | popJobs
  | popping (reqn : ℕ)
  | sending (jobs : List ℕ)
  | acquiring (job : ℕ)
  | spawning (job : ℕ)
  | cancelling
  | waiting
  | stopping
  | ended
  deriving DecidableEq

variable {α : Type}

/-- `popped`, `calls` and `completed` are the histories of the jobs returned by
`Pop`, of the calls of `Complete` and of their returns. -/
structure State (α : Type) where
  loop : LoopPc
  jobBuffer : List ℕ
  sem : ℕ
  wg : ℕ
  cancelled : Bool
  workers : List Worker
  pops : ℕ
  popped : List α
  calls : List ℕ
  completed : List ℕ
  deriving DecidableEq

def State.initial : State α where
  loop := .select
  jobBuffer := []
  sem := 0
  wg := 0
  cancelled := false
  workers := []
  pops := 0
  popped := []
  calls := []
  completed := []

/-- One event is one channel operation, one call or the return of one call. -/
inductive Event (α : Type)
  | kick
  | request
  | popReturn (res : Option (List α))
  | send
  | receive
  | acquire
  | spawn
  | stop
  | cancel
  | wait
  | sendStopped
  | limiter (k : ℕ) (ok : Bool)
  | work (k : ℕ)
  | complete (k : ℕ)
  | release (k : ℕ)
  | finish (k : ℕ)

section Loop

variable (cfg : Config) (s : State α)

def fromSelect (next : LoopPc) : Option (State α) :=
  if s.loop = .select then some { s with loop := next } else none

def request : Option (State α) :=
  if s.loop = .popJobs then
    if s.jobBuffer.length < cfg.bufferSize then
      some { s with loop := .popping (cfg.bufferSize - s.jobBuffer.length), pops := s.pops + 1 }
    else some { s with loop := .select }
  else none

def popReturn (res : Option (List α)) : Option (State α) :=
  match s.loop, res with
  | .popping _, none => some { s with loop := .select }
  | .popping reqn, some jobs =>
    let kept := if jobs.length > reqn then jobs.take reqn else jobs
    some { s with
      popped := s.popped ++ jobs
      loop := .sending (List.range' s.popped.length kept.length) }
  | _, _ => none

def send : Option (State α) :=
  match s.loop with
  | .sending [] => some { s with loop := .select }
  | .sending (j :: jobs) =>
    if s.jobBuffer.length < cfg.bufferSize then
      some { s with jobBuffer := s.jobBuffer ++ [j], loop := .sending jobs }
    else none
  | _ => none

def receive : Option (State α) :=
  match s.loop, s.jobBuffer with
  | .select, j :: jobs => some { s with jobBuffer := jobs, wg := s.wg + 1, loop := .acquiring j }
  | _, _ => none

def acquire : Option (State α) :=
  match s.loop with
  | .acquiring j =>
    if s.sem < cfg.maxWorkers then some { s with sem := s.sem + 1, loop := .spawning j } else none
  | _ => none

def spawn : Option (State α) :=
  match s.loop with
  | .spawning j => some { s with workers := s.workers ++ [⟨j, .limiter⟩], loop := .select }
  | _ => none

def cancel : Option (State α) :=
  if s.loop = .cancelling then some { s with cancelled := true, loop := .waiting } else none

def wait : Option (State α) :=
  if s.loop = .waiting ∧ s.wg = 0 then some { s with loop := .stopping } else none

def sendStopped : Option (State α) :=
  if s.loop = .stopping then some { s with loop := .ended } else none

def advance (k : ℕ) (before after : WorkerPc) (f : ℕ → State α → State α) : Option (State α) :=
  match s.workers[k]? with
  | some w =>
    if w.pc = before then
      some (f w.job { s with workers := s.workers.set k ⟨w.job, after⟩ })
    else none
  | none => none

end Loop

def step (cfg : Config) (s : State α) : Event α → Option (State α)
  | .kick => fromSelect s .popJobs
  | .request => request cfg s
  | .popReturn res => popReturn s res
  | .send => send cfg s
  | .receive => receive s
  | .acquire => acquire cfg s
  | .spawn => spawn s
  | .stop => fromSelect s .cancelling
  | .cancel => cancel s
  | .wait => wait s
  | .sendStopped => sendStopped s
  | .limiter k true => advance s k .limiter .working fun _ t ↦ t
  | .limiter k false => advance s k .limiter .releasing fun _ t ↦ t
  | .work k => advance s k .working .completing fun j t ↦ { t with calls := t.calls ++ [j] }
  | .complete k =>
    advance s k .completing .releasing fun j t ↦ { t with completed := t.completed ++ [j] }
  | .release k =>
    if 0 < s.sem then advance s k .releasing .finishing fun _ t ↦ { t with sem := t.sem - 1 }
    else none
  | .finish k =>
    if 0 < s.wg then advance s k .finishing .ended fun _ t ↦ { t with wg := t.wg - 1 } else none

def Run (cfg : Config) (es : List (Event α)) (s : State α) : Prop :=
  exec (step cfg) .initial es = some s

inductive Moves (cfg : Config) (s : State α) : Event α → State α → Prop
  | kick (hl : s.loop = .select) : Moves cfg s .kick { s with loop := .popJobs }
  | request (hl : s.loop = .popJobs) (hb : s.jobBuffer.length < cfg.bufferSize) :
    Moves cfg s .request
      { s with loop := .popping (cfg.bufferSize - s.jobBuffer.length), pops := s.pops + 1 }
  | full (hl : s.loop = .popJobs) (hb : ¬ s.jobBuffer.length < cfg.bufferSize) :
    Moves cfg s .request { s with loop := .select }
  | popError {reqn : ℕ} (hl : s.loop = .popping reqn) :
    Moves cfg s (.popReturn none) { s with loop := .select }
  | popReturn {reqn n : ℕ} {jobs : List α} (hl : s.loop = .popping reqn) (hn : n ≤ reqn)
    (hjobs : n ≤ jobs.length) (hall : jobs.length ≤ reqn → n = jobs.length) :
    Moves cfg s (.popReturn (some jobs))
      { s with
        popped := s.popped ++ jobs
        loop := .sending (List.range' s.popped.length n) }
  | sent (hl : s.loop = .sending []) : Moves cfg s .send { s with loop := .select }
  | send {j : ℕ} {jobs : List ℕ} (hl : s.loop = .sending (j :: jobs))
    (hb : s.jobBuffer.length < cfg.bufferSize) :
    Moves cfg s .send { s with jobBuffer := s.jobBuffer ++ [j], loop := .sending jobs }
  | receive {j : ℕ} {jobs : List ℕ} (hl : s.loop = .select) (hb : s.jobBuffer = j :: jobs) :
    Moves cfg s .receive { s with jobBuffer := jobs, wg := s.wg + 1, loop := .acquiring j }
  | acquire {j : ℕ} (hl : s.loop = .acquiring j) (hs : s.sem < cfg.maxWorkers) :
    Moves cfg s .acquire { s with sem := s.sem + 1, loop := .spawning j }
  | spawn {j : ℕ} (hl : s.loop = .spawning j) :
    Moves cfg s .spawn { s with workers := s.workers ++ [⟨j, .limiter⟩], loop := .select }
  | stop (hl : s.loop = .select) : Moves cfg s .stop { s with loop := .cancelling }
  | cancel (hl : s.loop = .cancelling) :
    Moves cfg s .cancel { s with cancelled := true, loop := .waiting }
  | wait (hl : s.loop = .waiting) (hw : s.wg = 0) : Moves cfg s .wait { s with loop := .stopping }
  | sendStopped (hl : s.loop = .stopping) : Moves cfg s .sendStopped { s with loop := .ended }
  | limiter {k j : ℕ} (hk : s.workers[k]? = some ⟨j, .limiter⟩) :
    Moves cfg s (.limiter k true) { s with workers := s.workers.set k ⟨j, .working⟩ }
  | limiterError {k j : ℕ} (hk : s.workers[k]? = some ⟨j, .limiter⟩) :
    Moves cfg s (.limiter k false) { s with workers := s.workers.set k ⟨j, .releasing⟩ }
  | work {k j : ℕ} (hk : s.workers[k]? = some ⟨j, .working⟩) :
    Moves cfg s (.work k)
      { s with workers := s.workers.set k ⟨j, .completing⟩, calls := s.calls ++ [j] }
  | complete {k j : ℕ} (hk : s.workers[k]? = some ⟨j, .completing⟩) :
    Moves cfg s (.complete k)
      { s with workers := s.workers.set k ⟨j, .releasing⟩, completed := s.completed ++ [j] }
  | release {k j : ℕ} (hk : s.workers[k]? = some ⟨j, .releasing⟩) (hs : 0 < s.sem) :
    Moves cfg s (.release k)
      { s with workers := s.workers.set k ⟨j, .finishing⟩, sem := s.sem - 1 }
  | finish {k j : ℕ} (hk : s.workers[k]? = some ⟨j, .finishing⟩) (hw : 0 < s.wg) :
    Moves cfg s (.finish k)
      { s with workers := s.workers.set k ⟨j, .ended⟩, wg := s.wg - 1 }

variable {cfg : Config} {s t : State α} {e : Event α} {es : List (Event α)}

theorem fromSelect_cases {next : LoopPc} (h : fromSelect s next = some t) :
    s.loop = .select ∧ t = { s with loop := next } := by
  unfold fromSelect at h
  split at h
  · cases h
    exact ⟨‹_›, rfl⟩
  · cases h

theorem request_moves (h : request cfg s = some t) : Moves cfg s .request t := by
  unfold request at h
  split at h
  · rename_i hl
    split at h <;> cases h
    · exact .request hl ‹_›
    · exact .full hl ‹_›
  · cases h

theorem popReturn_moves {res : Option (List α)} (h : popReturn s res = some t) :
    Moves cfg s (.popReturn res) t := by
  unfold popReturn at h
  split at h
  · cases h
    exact .popError ‹_›
  · rename_i reqn jobs hl
    cases h
    refine .popReturn hl ?_ ?_ fun hle ↦ ?_
    · split
      · exact List.length_take_le _ _
      · omega
    · split
      · exact List.length_take_le' _ _
      · exact Nat.le_refl _
    · rw [if_neg (by omega)]
  · cases h

theorem send_moves (h : send cfg s = some t) : Moves cfg s .send t := by
  unfold send at h
  split at h
  · cases h
    exact .sent ‹_›
  · split at h <;> cases h
    exact .send ‹_› ‹_›
  · cases h

theorem advance_cases {k : ℕ} {before after : WorkerPc} {f : ℕ → State α → State α}
    (h : advance s k before after f = some t) :
    ∃ j, s.workers[k]? = some ⟨j, before⟩ ∧
      t = f j { s with workers := s.workers.set k ⟨j, after⟩ } := by
  unfold advance at h
  split at h
  · rename_i w hw
    split at h <;> cases h
    rename_i hpc
    exact ⟨w.job, by rw [hw, ← hpc], rfl⟩
  · cases h

theorem step_moves (h : step cfg s e = some t) : Moves cfg s e t := by
  cases e with
  | kick =>
    obtain ⟨hl, rfl⟩ := fromSelect_cases h
    exact .kick hl
  | request => exact request_moves h
  | popReturn res => exact popReturn_moves h
  | send => exact send_moves h
  | receive =>
    simp only [step, receive] at h
    split at h <;> cases h
    exact .receive ‹_› ‹_›
  | acquire =>
    simp only [step, acquire] at h
    split at h
    · split at h <;> cases h
      exact .acquire ‹_› ‹_›
    · cases h
  | spawn =>
    simp only [step, spawn] at h
    split at h <;> cases h
    exact .spawn ‹_›
  | stop =>
    obtain ⟨hl, rfl⟩ := fromSelect_cases h
    exact .stop hl
  | cancel =>
    simp only [step, cancel] at h
    split at h <;> cases h
    exact .cancel ‹_›
  | wait =>
    simp only [step, wait] at h
    split at h <;> cases h
    rename_i hw
    exact .wait hw.1 hw.2
  | sendStopped =>
    simp only [step, sendStopped] at h
    split at h <;> cases h
    exact .sendStopped ‹_›
  | limiter k ok =>
    cases ok with
    | true =>
      simp only [step] at h
      obtain ⟨j, hk, rfl⟩ := advance_cases h
      exact .limiter hk
    | false =>
      simp only [step] at h
      obtain ⟨j, hk, rfl⟩ := advance_cases h
      exact .limiterError hk
  | work k =>
    simp only [step] at h
    obtain ⟨j, hk, rfl⟩ := advance_cases h
    exact .work hk
  | complete k =>
    simp only [step] at h
    obtain ⟨j, hk, rfl⟩ := advance_cases h
    exact .complete hk
  | release k =>
    simp only [step] at h
    split at h
    · obtain ⟨j, hk, rfl⟩ := advance_cases h
      exact .release hk ‹_›
    · cases h
  | finish k =>
    simp only [step] at h
    split at h
    · obtain ⟨j, hk, rfl⟩ := advance_cases h
      exact .finish hk ‹_›
    · cases h

end Fireworq.Dispatcher
