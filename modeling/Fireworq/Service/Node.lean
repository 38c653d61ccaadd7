import Mathlib.Logic.Function.Basic
import Fireworq.Dispatcher.Shutdown
import Fireworq.Repository.Calls

namespace Fireworq.Service

open Execution Repository
open Dispatcher (System)

structure Config where
  queueDefault : String
  queueDefaultPollingInterval : ℕ
  queueDefaultMaxWorkers : ℕ
  minBufferSize : ℕ

def throttleQueuePollingInterval : ℕ := 100

/-- `addJobQueue` before it calls the repository. -/
def Config.prepare (cfg : Config) (q : Queue) : Except String Queue := do
  let q ←
    if 0 < q.maxDispatchesPerSecond then
      if q.maxBurstSize = 0 then
        throw "Cannot configure MaxDispatchesPerSecond without MaxBurstSize"
      else pure { q with pollingInterval := throttleQueuePollingInterval }
    else if q.maxDispatchesPerSecond < 0 then
      throw "MaxDispatchesPerSecond should be non-negative"
    else if q.maxBurstSize ≠ 0 then
      throw "Cannot configure MaxBurstSize without MaxDispatchesPerSecond"
    else pure q
  let q :=
    if q.pollingInterval = 0 then { q with pollingInterval := cfg.queueDefaultPollingInterval }
    else q
  return if q.maxWorkers = 0 then { q with maxWorkers := cfg.queueDefaultMaxWorkers } else q

structure RunningQueue where
  definition : Queue
  dispatcher : System Unit

/-- A `Push` before it has found its queue: it waits for `muJob`, holds `muJob` for
reading, or waits for `mu`. -/
inductive PushPc
  | rlock
  | reading
  | lockMu
  deriving DecidableEq

structure Push where
  name : String
  caller : Option (ℕ × ℕ)
  pc : PushPc
  deriving DecidableEq

inductive Task
  | add (q : Queue)
  | delete (name : String)
  | push (name : String) (caller : Option (ℕ × ℕ))
  | reload
  | startup
  deriving DecidableEq

/-- Where the thread that holds `mu` is. From `destroying` on it holds `muJob` too.
`rest` are the queues that the loop of `startup` has still to put, if it is in
that loop. -/
inductive Pc
  | deactivating (is : List ℕ)
  | lockJob
  | awaitReaders
  | destroying
  | calling (c : Call)
  | starting (qs : List Queue)
  | putting (q : Queue) (rest : Option (List Queue))
  | removing (name : String)
  | stopping (name : String) (i : ℕ) (q : Option Queue) (rest : Option (List Queue))
  | returning (ok : Bool)
  deriving DecidableEq

structure Thread where
  task : Task
  pc : Pc
  deriving DecidableEq

inductive WatcherPc
  | off
  | starting
  | idle
  | reloading
  deriving DecidableEq

/-- A service. `mu` is held by `holder`; `queues` are the queues it has started and
`running` says which of them are in `runningQueues`. -/
structure Node where
  watcher : WatcherPc
  lastRevision : ℕ
  holder : Option Thread
  pushes : List Push
  running : Table ℕ
  queues : List RunningQueue
  crashed : Bool

def Node.initial : Node := ⟨.off, 0, none, [], ∅, [], false⟩

namespace Pc

def blocksReaders : Pc → Bool
  | .deactivating _ | .lockJob => false
  | _ => true

def awaits (i : ℕ) : Pc → Bool
  | .deactivating is => i ∈ is
  | .stopping _ j _ _ => i = j
  | _ => false

end Pc

namespace Node

variable (cfg : Config) (v : Node)

def get (name : String) : Option RunningQueue := (v.running.lookup name).bind fun i ↦ v.queues[i]?

def runs (name : String) : Option Queue := (v.get name).map RunningQueue.definition

def goto (task : Task) (pc : Pc) : Node := { v with holder := some ⟨task, pc⟩ }

def afterPut : Option (List Queue) → Pc
  | some qs => .starting qs
  | none => .returning true

def startJobQueue (q : Queue) : Node :=
  { v with
    queues := v.queues ++ [⟨q, .initial⟩]
    running := v.running.insert q.name v.queues.length }

def putJobQueue (task : Task) (q : Queue) (rest : Option (List Queue)) : Node :=
  match v.running.lookup q.name with
  | some i => v.goto task (.stopping q.name i (some q) rest)
  | none => (v.startJobQueue q).goto task (afterPut rest)

def initDefaultQueue (task : Task) : Node :=
  if cfg.queueDefault = "" ∨ (v.running.lookup cfg.queueDefault).isSome then
    v.goto task (.returning true)
  else match cfg.prepare ⟨cfg.queueDefault, 0, 0, 0, 0⟩ with
    | .ok q => v.goto task (.calling (.addQueue q))
    | .error _ => { v with crashed := true }

theorem initDefaultQueue_fields (task : Task) :
    (v.initDefaultQueue cfg task).queues = v.queues ∧
      (v.initDefaultQueue cfg task).running = v.running ∧
        (v.initDefaultQueue cfg task).lastRevision = v.lastRevision := by
  unfold initDefaultQueue
  split
  · exact ⟨rfl, rfl, rfl⟩
  · split <;> exact ⟨rfl, rfl, rfl⟩

def lockedJob : Task → Node
  | .add q => match cfg.prepare q with
    | .ok q' => v.goto (.add q) (.calling (.addQueue q'))
    | .error _ => v.goto (.add q) (.returning false)
  | .delete name => v.goto (.delete name) (.calling (.deleteQueue name))
  | .push name caller => v.goto (.push name caller) (.calling (.findQueue name))
  | .reload => v.goto .reload .destroying
  | .startup => v.goto .startup (.calling .findQueues)

theorem lockedJob_fields (task : Task) :
    (v.lockedJob cfg task).queues = v.queues ∧ (v.lockedJob cfg task).running = v.running ∧
      (v.lockedJob cfg task).lastRevision = v.lastRevision := by
  unfold lockedJob
  split
  · split <;> exact ⟨rfl, rfl, rfl⟩
  all_goals exact ⟨rfl, rfl, rfl⟩

def returned (task : Task) (c : Call) : Result → Node
  | .added true => match c with
    | .addRevision q => v.goto task (.putting q none)
    | _ => v.goto task (.returning true)
  | .added false => v.goto task (.returning true)
  | .deleted => match c with
    | .deleteRevision name => v.goto task (.removing name)
    | _ => v.goto task (.returning true)
  | .found q => v.goto task (.putting q none)
  | .foundAll qs => v.goto task (.starting qs)
  | .notFound => v.goto task (.returning false)
  | .failed => match task with
    | .reload | .startup => { v with crashed := true }
    | _ => v.goto task (.returning false)

theorem returned_fields (task : Task) (c : Call) (r : Result) :
    (v.returned task c r).queues = v.queues ∧ (v.returned task c r).running = v.running ∧
      (v.returned task c r).lastRevision = v.lastRevision := by
  unfold returned
  split
  · split <;> exact ⟨rfl, rfl, rfl⟩
  · exact ⟨rfl, rfl, rfl⟩
  · split <;> exact ⟨rfl, rfl, rfl⟩
  · exact ⟨rfl, rfl, rfl⟩
  · exact ⟨rfl, rfl, rfl⟩
  · exact ⟨rfl, rfl, rfl⟩
  · split <;> exact ⟨rfl, rfl, rfl⟩

def unlock (task : Task) : Node :=
  { v with
    holder := none
    watcher := match task with
      | .reload | .startup => .idle
      | _ => v.watcher }

def advance : Option Node :=
  match v.holder with
  | none => none
  | some ⟨task, pc⟩ => match pc with
    | .deactivating is => if is = [] then some (v.goto task .lockJob) else none
    | .lockJob => some (v.goto task .awaitReaders)
    | .awaitReaders =>
      if v.pushes.all fun p ↦ p.pc ≠ .reading then some (v.lockedJob cfg task) else none
    | .destroying => some { v.goto task (.calling .findQueues) with running := ∅ }
    | .calling _ => none
    | .starting [] => some (v.initDefaultQueue cfg task)
    | .starting (q :: qs) => some (v.goto task (.putting q (some qs)))
    | .putting q rest => some (v.putJobQueue task q rest)
    | .removing name => match v.running.lookup name with
      | some i => some (v.goto task (.stopping name i none none))
      | none => some (v.goto task (.returning true))
    | .stopping _ _ _ _ => none
    | .returning _ => some (v.unlock task)

def deactivated (i : ℕ) : Node :=
  match v.holder with
  | some ⟨task, .deactivating is⟩ => v.goto task (.deactivating (is.erase i))
  | some ⟨task, .stopping name _ q rest⟩ =>
    { v.goto task (match q with
        | some q => .putting q rest
        | none => .returning true) with
      running := v.running.erase name }
  | _ => v

theorem deactivated_fields (i : ℕ) :
    (v.deactivated i).queues = v.queues ∧ (v.deactivated i).lastRevision = v.lastRevision := by
  unfold deactivated
  split <;> exact ⟨rfl, rfl⟩

def pushing (i k : ℕ) : Bool :=
  v.pushes.any (fun p ↦ p.caller = some (i, k)) ||
    match v.holder with
    | some ⟨.push _ caller, _⟩ => caller = some (i, k)
    | _ => false

def working (i k : ℕ) : Bool :=
  match v.queues[i]? with
  | some q => match q.dispatcher.core.workers[k]? with
    | some w => w.pc = .working
    | none => false
  | none => false

/-- A worker returns after the `Push` it waits for. Stopping a dispatcher and
receiving its answer is up to the thread that waits for it. -/
def permits (i : ℕ) : System.Event Unit → Bool
  | .callStop | .receive => match v.holder with
    | some th => th.pc.awaits i
    | none => false
  | .inner (.work k) => !v.pushing i k
  | _ => true

def dispatch (i : ℕ) (e : System.Event Unit) : Option Node := do
  let q ← v.queues[i]?
  if v.permits i e then
    let d ← System.step ⟨cfg.minBufferSize, q.definition.maxWorkers⟩ q.definition.pollingInterval
      q.dispatcher e
    let v' := { v with queues := v.queues.set i ⟨q.definition, d⟩, crashed := d.crashed }
    return match e with
      | .receive => v'.deactivated i
      | _ => v'
  else none

end Node

theorem prepare_name {cfg : Config} {q q' : Queue} (h : cfg.prepare q = .ok q') :
    q'.name = q.name := by
  simp only [Config.prepare] at h
  split at h
  · split at h
    · cases h
    · cases h
      split <;> split <;> rfl
  · split at h
    · cases h
    · split at h
      · cases h
      · cases h
        split <;> split <;> rfl

section Runs

variable {v v' : Node} {name : String} {q : Queue}

theorem runs_congr (hr : v'.running = v.running) (hq : v'.queues = v.queues) :
    v'.runs = v.runs := by
  funext name
  simp only [Node.runs, Node.get, hr, hq]

theorem runs_set {i : ℕ} {r : RunningQueue} {d : System Unit} (hr : v'.running = v.running)
    (hi : v.queues[i]? = some r) (hq : v'.queues = v.queues.set i ⟨r.definition, d⟩) :
    v'.runs = v.runs := by
  funext name
  simp only [Node.runs, Node.get, hr, hq]
  cases v.running.lookup name with
  | none => rfl
  | some j =>
    simp only [Option.bind_some]
    by_cases heq : i = j
    · subst heq
      rw [List.getElem?_set_self (List.getElem?_eq_some_iff.mp hi).1, hi]
      rfl
    · rw [List.getElem?_set_ne heq]

theorem runs_start : (v.startJobQueue q).runs q.name = some q := by
  simp [Node.startJobQueue, Node.runs, Node.get]

theorem runs_none (h : v.running.lookup name = none) : v.runs name = none := by
  simp [Node.runs, Node.get, h]

end Runs

end Fireworq.Service
