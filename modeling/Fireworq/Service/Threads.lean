import Fireworq.JobQueue.Completion
import Fireworq.Repository.Agreement
import Fireworq.Service.Node

namespace Fireworq.Service.Lifecycle

open Execution Repository
open JobQueue (IncomingJob)

inductive Act
  | push
  | pushed (id : Option ℕ)
  | deactivate
  | deactivated
  | stop
  | stopped
  deriving DecidableEq

structure RunningQueue where
  definition : Queue
  acts : List Act
  deriving DecidableEq

namespace RunningQueue

variable (q : RunningQueue)

def name : String := q.definition.name

def dispatching : Bool := .deactivated ∉ q.acts

def unstopped : Bool := .stopped ∉ q.acts

def act (a : Act) : RunningQueue := { q with acts := q.acts ++ [a] }

end RunningQueue

inductive Task
  | add (q : Queue)
  | delete (name : String)
  | push (name : String) (job : IncomingJob)
  | reload
  | startup
  | stop
  deriving DecidableEq

/-- The queues that a thread deactivates and stops: all of them, or the one that
it has found under a name. `q` is what `putJobQueue` starts in its place, and
`rest` is what the loop of `startup` has still to put, if it is in that loop. -/
inductive Scope
  | all
  | one (name : String) (i : ℕ) (q : Option Queue) (rest : Option (List Queue))
  deriving DecidableEq

/-- Where the thread that holds `mu` is. While it deactivates or stops queues, the
queues in `todo` have still to be called and those in `waiting` have not answered. -/
inductive Pc
  | deactivating (todo waiting : List ℕ) (scope : Scope)
  | lockJob
  | awaitReaders
  | stopping (todo waiting : List ℕ) (scope : Scope)
  | calling (m : Method)
  | starting (qs : List Queue)
  | putting (q : Queue) (rest : Option (List Queue))
  | creating (q : Queue) (rest : Option (List Queue))
  | storing (i : ℕ) (q : Queue) (rest : Option (List Queue))
  | removing (name : String)
  | pushing (i : ℕ) (job : IncomingJob)
  | returning
  deriving DecidableEq

structure Thread where
  task : Task
  pc : Pc
  deriving DecidableEq

inductive ReaderPc
  | rlock
  | reading
  | pushing (i : ℕ) (job : IncomingJob)
  | lockMu
  deriving DecidableEq

/-- A call of `Push` that has not got `mu`, or a call of `GetJobQueue`, which has no job. -/
structure Reader where
  name : String
  job : Option IncomingJob
  pc : ReaderPc
  deriving DecidableEq

inductive WatcherPc
  | off
  | idle
  | reloading
  | ended
  | dead
  deriving DecidableEq

inductive StopPc
  | notCalled
  | awaitQueueWatcher
  | awaitRoutingWatcher
  | lockMu
  | locked
  | stopped
  deriving DecidableEq

/-- A service. `queues` are the queues that it has ever started, and `running` says
which of them are in `runningQueues`. -/
structure State where
  watcher : WatcherPc
  stop : StopPc
  holder : Option Thread
  readers : List Reader
  running : Table ℕ
  queues : List RunningQueue

def State.initial : State := ⟨.off, .notCalled, some ⟨.startup, .calling .findAll⟩, [], ∅, []⟩

def Task.manages : Task → Bool
  | .add _ | .delete _ => true
  | _ => false

def Task.wholesale : Task → Bool
  | .reload | .stop => true
  | _ => false

def Pc.shares : Pc → Bool
  | .deactivating _ _ .all | .lockJob => true
  | _ => false

def Pc.exclusive : Pc → Bool
  | .deactivating _ _ .all | .lockJob | .awaitReaders => false
  | _ => true

def Reader.inside (r : Reader) : Bool :=
  match r.pc with
  | .reading | .pushing _ _ => true
  | .rlock | .lockMu => false

namespace State

variable (cfg : Config) (v : State)

def up : Bool := v.watcher ≠ .off

def goto (task : Task) (pc : Pc) : State := { v with holder := some ⟨task, pc⟩ }

def record (i : ℕ) (a : Act) : State := { v with queues := v.queues.modify i (·.act a) }

def all : List ℕ := v.running.entries.map fun e ↦ e.2

/-- A panic in `startup`. The deferred calls release the locks, and the other
threads may go on until the process has ended. -/
def panic (task : Task) : State :=
  { v with
    holder := none
    watcher := if task = .reload then .dead else v.watcher }

def lockedJob : Task → State
  | .add q => match cfg.prepare q with
    | .ok q' => v.goto (.add q) (.calling (.add q'))
    | .error _ => v.goto (.add q) .returning
  | .delete name => v.goto (.delete name) (.calling (.deleteByName name))
  | .push name job => v.goto (.push name job) (.calling (.findByName name))
  | .startup => v.goto .startup (.calling .findAll)
  | .reload => v.goto .reload (.stopping v.all [] .all)
  | .stop => v.goto .stop (.stopping v.all [] .all)

def initDefaultQueue (task : Task) : State :=
  if cfg.queueDefault = "" ∨ (v.running.lookup cfg.queueDefault).isSome then
    v.goto task .returning
  else match cfg.prepare ⟨cfg.queueDefault, 0, 0, 0, 0⟩ with
    | .ok q => v.goto task (.calling (.add q))
    | .error _ => v.panic task

def afterPut (task : Task) (i : ℕ) : Option (List Queue) → State
  | some qs => v.goto task (.starting qs)
  | none => match task with
    | .push _ job => (v.goto task (.pushing i job)).record i .push
    | _ => v.goto task .returning

def unlock (task : Task) : State :=
  { v with
    holder := none
    watcher := if task = .reload ∨ task = .startup then .idle else v.watcher
    stop := if task = .stop then .stopped else v.stop }

def failed (task : Task) : State :=
  match task with
  | .reload | .startup => v.panic task
  | _ => v.goto task .returning

def answered (task : Task) : Method → Option Answer → Option State
  | _, none => some (v.failed task)
  | .add q, some (.added updated) =>
    some (v.goto task (if updated then .putting q none else .returning))
  | .deleteByName name, some .deleted => some (v.goto task (.removing name))
  | .findByName name, some (.found (some q)) =>
    if q.name = name then some (v.goto task (.putting q none)) else none
  | .findByName _, some (.found none) => some (v.goto task .returning)
  | .findAll, some (.foundAll qs) => some (v.goto task (.starting qs))
  | _, _ => none

def advance : Option State :=
  match v.holder with
  | none => none
  | some ⟨task, pc⟩ => match pc with
    | .deactivating [] [] .all => some (v.goto task .lockJob)
    | .deactivating [] [] (.one name i q rest) =>
      some (v.goto task (.stopping [i] [] (.one name i q rest)))
    | .deactivating _ _ _ => none
    | .lockJob => some (v.goto task .awaitReaders)
    | .awaitReaders => if v.readers.all fun r ↦ !r.inside then some (v.lockedJob cfg task) else none
    | .stopping [] [] .all =>
      some { v.goto task (if task = .reload then .calling .findAll else .returning) with
        running := ∅ }
    | .stopping [] [] (.one name _ q rest) =>
      some { v.goto task (match q with
          | some q => .creating q rest
          | none => .returning) with
        running := v.running.erase name }
    | .stopping _ _ _ => none
    | .calling _ => none
    | .starting [] => some (v.initDefaultQueue cfg task)
    | .starting (q :: qs) => some (v.goto task (.putting q (some qs)))
    | .putting q rest => match v.running.lookup q.name with
      | some i => some (v.goto task (.deactivating [i] [] (.one q.name i (some q) rest)))
      | none => some (v.goto task (.creating q rest))
    | .creating q rest =>
      some { v.goto task (.storing v.queues.length q rest) with queues := v.queues ++ [⟨q, []⟩] }
    | .storing i q rest =>
      some ({ v with running := v.running.insert q.name i }.afterPut task i rest)
    | .removing name => match v.running.lookup name with
      | some i => some (v.goto task (.deactivating [i] [] (.one name i none none)))
      | none => some (v.goto task .returning)
    | .pushing _ _ => none
    | .returning => some (v.unlock task)

def begin (i : ℕ) : Option State :=
  match v.holder with
  | some ⟨task, .deactivating todo waiting scope⟩ =>
    if i ∈ todo then
      some ((v.goto task (.deactivating (todo.erase i) (i :: waiting) scope)).record i .deactivate)
    else none
  | some ⟨task, .stopping todo waiting scope⟩ =>
    if i ∈ todo then
      some ((v.goto task (.stopping (todo.erase i) (i :: waiting) scope)).record i .stop)
    else none
  | _ => none

def finish (i : ℕ) : Option State :=
  match v.holder with
  | some ⟨task, .deactivating todo waiting scope⟩ =>
    if i ∈ waiting then
      some ((v.goto task (.deactivating todo (waiting.erase i) scope)).record i .deactivated)
    else none
  | some ⟨task, .stopping todo waiting scope⟩ =>
    if i ∈ waiting then
      some ((v.goto task (.stopping todo (waiting.erase i) scope)).record i .stopped)
    else none
  | _ => none

def stored (id : Option ℕ) : Option State :=
  match v.holder with
  | some ⟨task, .pushing i _⟩ => some ((v.goto task .returning).record i (.pushed id))
  | _ => none

def lock (task : Task) : Option State :=
  if v.up ∧ v.holder = none ∧ task.manages then some (v.goto task .lockJob) else none

def notice : Option State :=
  if v.watcher = .idle then some { v with watcher := .reloading } else none

def lockReload : Option State :=
  if v.watcher = .reloading ∧ v.holder = none then
    some (v.goto .reload (.deactivating v.all [] .all))
  else none

def callStop : Option State :=
  if v.up ∧ v.stop = .notCalled then some { v with stop := .awaitQueueWatcher } else none

def endWatcher : Option State :=
  if v.watcher = .idle ∧ v.stop = .awaitQueueWatcher then
    some { v with watcher := .ended, stop := .awaitRoutingWatcher }
  else none

def endRoutingWatcher : Option State :=
  if v.stop = .awaitRoutingWatcher then some { v with stop := .lockMu } else none

def lockStop : Option State :=
  if v.stop = .lockMu ∧ v.holder = none then
    some { v.goto .stop (.deactivating v.all [] .all) with stop := .locked }
  else none

def call (name : String) (job : Option IncomingJob) : Option State :=
  if v.up then some { v with readers := v.readers ++ [⟨name, job, .rlock⟩] } else none

def rlock (k : ℕ) : Option State := do
  let r ← v.readers[k]?
  if r.pc = .rlock ∧ v.holder.all fun th ↦ th.pc.shares then
    some { v with readers := v.readers.set k { r with pc := .reading } }
  else none

def lookup (k : ℕ) : Option State := do
  let r ← v.readers[k]?
  if r.pc = .reading then
    some (match r.job, v.running.lookup r.name with
      | none, _ => { v with readers := v.readers.eraseIdx k }
      | some job, some i =>
        { v with readers := v.readers.set k { r with pc := .pushing i job } }.record i .push
      | some _, none => { v with readers := v.readers.set k { r with pc := .lockMu } })
  else none

def pushed (k : ℕ) (id : Option ℕ) : Option State := do
  let r ← v.readers[k]?
  match r.pc with
  | .pushing i _ => some ({ v with readers := v.readers.eraseIdx k }.record i (.pushed id))
  | _ => none

def lockPush (k : ℕ) : Option State := do
  let r ← v.readers[k]?
  let job ← r.job
  if r.pc = .lockMu ∧ v.holder = none then
    some { v.goto (.push r.name job) .lockJob with readers := v.readers.eraseIdx k }
  else none

end State

inductive Event
  | lock (task : Task)
  | notice
  | lockReload
  | callStop
  | endWatcher
  | endRoutingWatcher
  | lockStop
  | advance
  | answer (a : Option Answer)
  | begin (i : ℕ)
  | finish (i : ℕ)
  | stored (id : Option ℕ)
  | call (name : String) (job : Option IncomingJob)
  | rlock (k : ℕ)
  | lookup (k : ℕ)
  | pushed (k : ℕ) (id : Option ℕ)
  | lockPush (k : ℕ)
  deriving DecidableEq

def step (cfg : Config) (v : State) : Event → Option State
  | .lock task => v.lock task
  | .notice => v.notice
  | .lockReload => v.lockReload
  | .callStop => v.callStop
  | .endWatcher => v.endWatcher
  | .endRoutingWatcher => v.endRoutingWatcher
  | .lockStop => v.lockStop
  | .advance => v.advance cfg
  | .answer a => match v.holder with
    | some ⟨task, .calling m⟩ => v.answered task m a
    | _ => none
  | .begin i => v.begin i
  | .finish i => v.finish i
  | .stored id => v.stored id
  | .call name job => v.call name job
  | .rlock k => v.rlock k
  | .lookup k => v.lookup k
  | .pushed k id => v.pushed k id
  | .lockPush k => v.lockPush k

def Run (cfg : Config) (es : List Event) (v : State) : Prop := exec (step cfg) .initial es = some v

inductive Advances (cfg : Config) (v : State) (task : Task) : Pc → State → Prop
  | deactivated : Advances cfg v task (.deactivating [] [] .all) (v.goto task .lockJob)
  | deactivatedOne {name : String} {i : ℕ} {q : Option Queue} {rest : Option (List Queue)} :
    Advances cfg v task (.deactivating [] [] (.one name i q rest))
      (v.goto task (.stopping [i] [] (.one name i q rest)))
  | lockJob : Advances cfg v task .lockJob (v.goto task .awaitReaders)
  | lockedJob (hr : ∀ r ∈ v.readers, r.inside = false) :
    Advances cfg v task .awaitReaders (v.lockedJob cfg task)
  | stopped : Advances cfg v task (.stopping [] [] .all)
      { v.goto task (if task = .reload then .calling .findAll else .returning) with running := ∅ }
  | replaced {name : String} {i : ℕ} {q : Queue} {rest : Option (List Queue)} :
    Advances cfg v task (.stopping [] [] (.one name i (some q) rest))
      { v.goto task (.creating q rest) with running := v.running.erase name }
  | removed {name : String} {i : ℕ} {rest : Option (List Queue)} :
    Advances cfg v task (.stopping [] [] (.one name i none rest))
      { v.goto task .returning with running := v.running.erase name }
  | startLast : Advances cfg v task (.starting []) (v.initDefaultQueue cfg task)
  | startNext {q : Queue} {qs : List Queue} :
    Advances cfg v task (.starting (q :: qs)) (v.goto task (.putting q (some qs)))
  | replace {q : Queue} {rest : Option (List Queue)} {i : ℕ}
    (hi : v.running.lookup q.name = some i) :
    Advances cfg v task (.putting q rest)
      (v.goto task (.deactivating [i] [] (.one q.name i (some q) rest)))
  | put {q : Queue} {rest : Option (List Queue)} (hi : v.running.lookup q.name = none) :
    Advances cfg v task (.putting q rest) (v.goto task (.creating q rest))
  | create {q : Queue} {rest : Option (List Queue)} :
    Advances cfg v task (.creating q rest)
      { v.goto task (.storing v.queues.length q rest) with queues := v.queues ++ [⟨q, []⟩] }
  | store {i : ℕ} {q : Queue} {rest : Option (List Queue)} :
    Advances cfg v task (.storing i q rest)
      ({ v with running := v.running.insert q.name i }.afterPut task i rest)
  | remove {name : String} {i : ℕ} (hi : v.running.lookup name = some i) :
    Advances cfg v task (.removing name)
      (v.goto task (.deactivating [i] [] (.one name i none none)))
  | removeNone {name : String} (hi : v.running.lookup name = none) :
    Advances cfg v task (.removing name) (v.goto task .returning)
  | unlock : Advances cfg v task .returning (v.unlock task)

theorem advance_cases {cfg : Config} {v v' : State} (h : v.advance cfg = some v') :
    ∃ task pc, v.holder = some ⟨task, pc⟩ ∧ Advances cfg v task pc v' := by
  unfold State.advance at h
  split at h
  · cases h
  · rename_i task pc hh
    refine ⟨task, pc, hh, ?_⟩
    split at h
    · cases h; exact .deactivated
    · cases h; exact .deactivatedOne
    · cases h
    · cases h; exact .lockJob
    · split at h
      · cases h
        have hall := List.all_eq_true.mp ‹_›
        exact .lockedJob fun r hr ↦ (Bool.not_eq_true' _).mp (hall r hr)
      · cases h
    · cases h; exact .stopped
    · split at h <;> cases h
      · exact .replaced
      · exact .removed
    · cases h
    · cases h
    · cases h; exact .startLast
    · cases h; exact .startNext
    · split at h <;> cases h
      · exact .replace ‹_›
      · exact .put ‹_›
    · cases h; exact .create
    · cases h; exact .store
    · split at h <;> cases h
      · exact .remove ‹_›
      · exact .removeNone ‹_›
    · cases h
    · cases h; exact .unlock

inductive Steps (cfg : Config) (v : State) : Event → State → Prop
  | lock {task : Task} (hh : v.holder = none) (hm : task.manages = true) :
    Steps cfg v (.lock task) (v.goto task .lockJob)
  | notice : Steps cfg v .notice { v with watcher := .reloading }
  | lockReload (hh : v.holder = none) :
    Steps cfg v .lockReload (v.goto .reload (.deactivating v.all [] .all))
  | callStop : Steps cfg v .callStop { v with stop := .awaitQueueWatcher }
  | endWatcher : Steps cfg v .endWatcher { v with watcher := .ended, stop := .awaitRoutingWatcher }
  | endRoutingWatcher : Steps cfg v .endRoutingWatcher { v with stop := .lockMu }
  | lockStop (hh : v.holder = none) :
    Steps cfg v .lockStop { v.goto .stop (.deactivating v.all [] .all) with stop := .locked }
  | advance {task : Task} {pc : Pc} {v' : State} (hh : v.holder = some ⟨task, pc⟩)
    (h : Advances cfg v task pc v') : Steps cfg v .advance v'
  | answer {task : Task} {m : Method} {a : Option Answer} {v' : State}
    (hh : v.holder = some ⟨task, .calling m⟩) (h : v.answered task m a = some v') :
    Steps cfg v (.answer a) v'
  | deactivate {i : ℕ} {task : Task} {todo waiting : List ℕ} {scope : Scope}
    (hh : v.holder = some ⟨task, .deactivating todo waiting scope⟩) (hi : i ∈ todo) :
    Steps cfg v (.begin i)
      ((v.goto task (.deactivating (todo.erase i) (i :: waiting) scope)).record i .deactivate)
  | stop {i : ℕ} {task : Task} {todo waiting : List ℕ} {scope : Scope}
    (hh : v.holder = some ⟨task, .stopping todo waiting scope⟩) (hi : i ∈ todo) :
    Steps cfg v (.begin i)
      ((v.goto task (.stopping (todo.erase i) (i :: waiting) scope)).record i .stop)
  | deactivated {i : ℕ} {task : Task} {todo waiting : List ℕ} {scope : Scope}
    (hh : v.holder = some ⟨task, .deactivating todo waiting scope⟩) (hi : i ∈ waiting) :
    Steps cfg v (.finish i)
      ((v.goto task (.deactivating todo (waiting.erase i) scope)).record i .deactivated)
  | stopped {i : ℕ} {task : Task} {todo waiting : List ℕ} {scope : Scope}
    (hh : v.holder = some ⟨task, .stopping todo waiting scope⟩) (hi : i ∈ waiting) :
    Steps cfg v (.finish i)
      ((v.goto task (.stopping todo (waiting.erase i) scope)).record i .stopped)
  | stored {i : ℕ} {job : IncomingJob} {id : Option ℕ} {task : Task}
    (hh : v.holder = some ⟨task, .pushing i job⟩) :
    Steps cfg v (.stored id) ((v.goto task .returning).record i (.pushed id))
  | call {name : String} {job : Option IncomingJob} :
    Steps cfg v (.call name job) { v with readers := v.readers ++ [⟨name, job, .rlock⟩] }
  | rlock {k : ℕ} {r : Reader} (hk : v.readers[k]? = some r)
    (hh : ∀ th, v.holder = some th → th.pc.shares = true) :
    Steps cfg v (.rlock k) { v with readers := v.readers.set k { r with pc := .reading } }
  | get {k : ℕ} {r : Reader} (hk : v.readers[k]? = some r) :
    Steps cfg v (.lookup k) { v with readers := v.readers.eraseIdx k }
  | found {k i : ℕ} {r : Reader} {job : IncomingJob} (hk : v.readers[k]? = some r)
    (hp : r.pc = .reading) (hi : v.running.lookup r.name = some i) :
    Steps cfg v (.lookup k)
      ({ v with readers := v.readers.set k { r with pc := .pushing i job } }.record i .push)
  | missing {k : ℕ} {r : Reader} (hk : v.readers[k]? = some r)
    (hi : v.running.lookup r.name = none) :
    Steps cfg v (.lookup k) { v with readers := v.readers.set k { r with pc := .lockMu } }
  | pushed {k i : ℕ} {job : IncomingJob} {id : Option ℕ} {r : Reader}
    (hk : v.readers[k]? = some r) (hp : r.pc = .pushing i job) :
    Steps cfg v (.pushed k id) ({ v with readers := v.readers.eraseIdx k }.record i (.pushed id))
  | lockPush {k : ℕ} {r : Reader} {job : IncomingJob} (hk : v.readers[k]? = some r)
    (hj : r.job = some job) (hh : v.holder = none) :
    Steps cfg v (.lockPush k)
      { v.goto (.push r.name job) .lockJob with readers := v.readers.eraseIdx k }

theorem step_cases {cfg : Config} {v v' : State} {e : Event} (h : step cfg v e = some v') :
    Steps cfg v e v' := by
  cases e with
  | lock task =>
    simp only [step, State.lock, Option.ite_none_right_eq_some, Option.some.injEq] at h
    obtain ⟨⟨-, hh, hm⟩, rfl⟩ := h
    exact .lock hh hm
  | notice =>
    simp only [step, State.notice, Option.ite_none_right_eq_some, Option.some.injEq] at h
    obtain ⟨-, rfl⟩ := h
    exact .notice
  | lockReload =>
    simp only [step, State.lockReload, Option.ite_none_right_eq_some, Option.some.injEq] at h
    obtain ⟨⟨-, hh⟩, rfl⟩ := h
    exact .lockReload hh
  | callStop =>
    simp only [step, State.callStop, Option.ite_none_right_eq_some, Option.some.injEq] at h
    obtain ⟨-, rfl⟩ := h
    exact .callStop
  | endWatcher =>
    simp only [step, State.endWatcher, Option.ite_none_right_eq_some, Option.some.injEq] at h
    obtain ⟨-, rfl⟩ := h
    exact .endWatcher
  | endRoutingWatcher =>
    simp only [step, State.endRoutingWatcher, Option.ite_none_right_eq_some,
      Option.some.injEq] at h
    obtain ⟨-, rfl⟩ := h
    exact .endRoutingWatcher
  | lockStop =>
    simp only [step, State.lockStop, Option.ite_none_right_eq_some, Option.some.injEq] at h
    obtain ⟨⟨-, hh⟩, rfl⟩ := h
    exact .lockStop hh
  | advance =>
    obtain ⟨task, pc, hh, ha⟩ := advance_cases h
    exact .advance hh ha
  | answer a =>
    simp only [step] at h
    split at h
    · exact .answer ‹_› h
    · cases h
  | begin i =>
    simp only [step, State.begin] at h
    split at h
    · split at h <;> cases h
      exact .deactivate ‹_› ‹_›
    · split at h <;> cases h
      exact .stop ‹_› ‹_›
    · cases h
  | finish i =>
    simp only [step, State.finish] at h
    split at h
    · split at h <;> cases h
      exact .deactivated ‹_› ‹_›
    · split at h <;> cases h
      exact .stopped ‹_› ‹_›
    · cases h
  | stored id =>
    simp only [step, State.stored] at h
    split at h <;> cases h
    exact .stored ‹_›
  | call name job =>
    simp only [step, State.call, Option.ite_none_right_eq_some, Option.some.injEq] at h
    obtain ⟨-, rfl⟩ := h
    exact .call
  | rlock k =>
    simp only [step, State.rlock] at h
    obtain ⟨r, hk, h⟩ := Option.bind_eq_some_iff.mp h
    split at h <;> cases h
    rename_i hr
    exact .rlock hk fun th hth ↦ (Option.all_eq_true _ _).mp hr.2 th hth
  | lookup k =>
    simp only [step, State.lookup] at h
    obtain ⟨r, hk, h⟩ := Option.bind_eq_some_iff.mp h
    split at h
    · rename_i hp
      cases h
      split
      · exact .get hk
      · exact .found hk hp ‹_›
      · exact .missing hk ‹_›
    · cases h
  | pushed k id =>
    simp only [step, State.pushed] at h
    obtain ⟨r, hk, h⟩ := Option.bind_eq_some_iff.mp h
    split at h <;> cases h
    exact .pushed hk ‹_›
  | lockPush k =>
    simp only [step, State.lockPush] at h
    obtain ⟨r, hk, h⟩ := Option.bind_eq_some_iff.mp h
    obtain ⟨job, hj, h⟩ := Option.bind_eq_some_iff.mp h
    split at h
    · rename_i hp
      cases h
      exact .lockPush hk hj hp.2
    · cases h

end Fireworq.Service.Lifecycle
