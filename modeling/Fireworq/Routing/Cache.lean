import Mathlib.Logic.Function.Basic
import Fireworq.Revision
import Fireworq.Repository.Calls

namespace Fireworq.Routing

open Execution Repository

/-- A call of the routing repository of a node. `Add` and `DeleteByJobCategory`
reach their next statement, wait for the mutex with a revision to update, or
hold it and have written the map. `FindAll` reaches its statement, or waits for
the mutex with the rows it has got. -/
inductive Op
  | calling (c : Call)
  | locking (c : Call)
  | locked (c : Call)
  | selecting
  | storing (rows : Table String)
  deriving DecidableEq

/-- `NewRoutingRepository` loads the map, then `newConfigWatcher` reads the revision.
In its loop the watcher calls `Reload` when the revision has changed. -/
inductive WatcherPc
  | off
  | loading (rows : Table String)
  | loaded
  | idle
  | reloading
  | storing (rows : Table String)
  deriving DecidableEq

structure Node where
  routings : Table String
  ops : List Op
  watcher : WatcherPc
  lastRevision : ℕ

def Node.initial : Node := ⟨∅, [], .off, 0⟩

structure State (N : ℕ) where
  tables : Tables
  nodes : Fin N → Node

def State.initial {N : ℕ} (t : Tables) : State N := ⟨t, fun _ ↦ .initial⟩

inductive Request
  | add (category queueName : String)
  | deleteByJobCategory (category : String)
  | findAll

def Request.start : Request → Op
  | .add category queueName => .calling (.routingExists category queueName)
  | .deleteByJobCategory category => .calling (.routingDelete category)
  | .findAll => .selecting

/-- A call goes on with its statement (`exec`), which succeeds, or with the mutex
(`lock`). The actions without a number are those of the watcher. -/
inductive Action
  | call (r : Request)
  | exec (k : ℕ)
  | lock (k : ℕ)
  | select
  | store
  | readRevision

inductive Event (N : ℕ)
  | act (n : Fin N) (a : Action)
  | queue (c : Call)

def Op.holdsMutex : Op → Bool
  | .locked _ => true
  | _ => false

def Op.pending : Op → Bool
  | .locking _ | .locked _ => true
  | _ => false

def write (routings : Table String) : Call → Table String
  | .routingAddRevision category queueName => routings.insert category queueName
  | .routingDeleteRevision category => routings.erase category
  | _ => routings

def resume (ops : List Op) (k : ℕ) : Call ⊕ Result → List Op
  | .inl c => ops.set k (if c.isRevision then .locking c else .calling c)
  | .inr _ => ops.eraseIdx k

namespace Node

variable (col : FloatColumn) (t : Tables) (v : Node)

def findQueueNameByJobCategory (category : String) : String := (v.routings.lookup category).getD ""

def up : Bool :=
  match v.watcher with
  | .idle | .reloading | .storing _ => true
  | _ => false

def free : Bool := v.ops.all fun op ↦ !op.holdsMutex

def pending : Bool := v.ops.any Op.pending

def call (r : Request) : Option Node :=
  if v.up then some { v with ops := v.ops ++ [r.start] } else none

def exec (k : ℕ) : Option (Tables × Node) := do
  match ← v.ops[k]? with
  | .calling c =>
    let (t', next) ← c.exec col t
    some (t', { v with ops := resume v.ops k next })
  | .locked c =>
    let (t', _) ← c.exec col t
    some (t', { v with ops := v.ops.eraseIdx k })
  | .selecting => some (t, { v with ops := v.ops.set k (.storing t.routing) })
  | _ => none

def lock (k : ℕ) : Option Node := do
  let op ← v.ops[k]?
  if v.free then
    match op with
    | .locking c => some { v with routings := write v.routings c, ops := v.ops.set k (.locked c) }
    | .storing rows => some { v with routings := rows, ops := v.ops.eraseIdx k }
    | _ => none
  else none

def select : Option Node :=
  match v.watcher with
  | .off => some { v with watcher := .loading t.routing }
  | .reloading => some { v with watcher := .storing t.routing }
  | _ => none

def store : Option Node :=
  if v.free then
    match v.watcher with
    | .loading rows => some { v with watcher := .loaded, routings := rows }
    | .storing rows => some { v with watcher := .idle, routings := rows }
    | _ => none
  else none

def readRevision : Option Node :=
  match v.watcher with
  | .loaded => some { v with watcher := .idle, lastRevision := t.routingRevision }
  | .idle =>
    if t.routingRevision = 0 ∨ t.routingRevision = v.lastRevision then some v
    else some { v with watcher := .reloading, lastRevision := t.routingRevision }
  | _ => none

def act : Action → Option (Tables × Node)
  | .call r => (v.call r).map fun v ↦ (t, v)
  | .exec k => v.exec col t k
  | .lock k => (v.lock k).map fun v ↦ (t, v)
  | .select => (v.select t).map fun v ↦ (t, v)
  | .store => v.store.map fun v ↦ (t, v)
  | .readRevision => (v.readRevision t).map fun v ↦ (t, v)

end Node

def isQueueCall (c : Call) : Bool :=
  match c.key with
  | some (.routing _) => false
  | _ => true

variable {N : ℕ}

def step (col : FloatColumn) (s : State N) : Event N → Option (State N)
  | .act n a => ((s.nodes n).act col s.tables a).map fun (t, v) ↦
    ⟨t, Function.update s.nodes n v⟩
  | .queue c =>
    if isQueueCall c then (c.exec col s.tables).map fun (t, _) ↦ { s with tables := t } else none

def Run (col : FloatColumn) (t : Tables) (es : List (Event N)) (s : State N) : Prop :=
  Execution.exec (step col) (.initial t) es = some s

inductive Acts (col : FloatColumn) (t : Tables) (v : Node) : Action → Tables → Node → Prop
  | call {r : Request} (hup : v.up = true) :
    Acts col t v (.call r) t { v with ops := v.ops ++ [r.start] }
  | exec {k : ℕ} {c : Call} {t' : Tables} {next : Call ⊕ Result}
    (hk : v.ops[k]? = some (.calling c)) (hx : Executes col t c t' next) :
    Acts col t v (.exec k) t' { v with ops := resume v.ops k next }
  | bump {k : ℕ} {c : Call} {t' : Tables} {next : Call ⊕ Result}
    (hk : v.ops[k]? = some (.locked c)) (hx : Executes col t c t' next) :
    Acts col t v (.exec k) t' { v with ops := v.ops.eraseIdx k }
  | selectRows {k : ℕ} (hk : v.ops[k]? = some .selecting) :
    Acts col t v (.exec k) t { v with ops := v.ops.set k (.storing t.routing) }
  | writeMap {k : ℕ} {c : Call} (hk : v.ops[k]? = some (.locking c)) (hm : v.free = true) :
    Acts col t v (.lock k) t
      { v with routings := write v.routings c, ops := v.ops.set k (.locked c) }
  | storeRows {k : ℕ} {rows : Table String} (hk : v.ops[k]? = some (.storing rows))
    (hm : v.free = true) :
    Acts col t v (.lock k) t { v with routings := rows, ops := v.ops.eraseIdx k }
  | load (hw : v.watcher = .off) : Acts col t v .select t { v with watcher := .loading t.routing }
  | reload (hw : v.watcher = .reloading) :
    Acts col t v .select t { v with watcher := .storing t.routing }
  | loaded {rows : Table String} (hw : v.watcher = .loading rows) (hm : v.free = true) :
    Acts col t v .store t { v with watcher := .loaded, routings := rows }
  | reloaded {rows : Table String} (hw : v.watcher = .storing rows) (hm : v.free = true) :
    Acts col t v .store t { v with watcher := .idle, routings := rows }
  | readFirst (hw : v.watcher = .loaded) :
    Acts col t v .readRevision t { v with watcher := .idle, lastRevision := t.routingRevision }
  | readSame (hw : v.watcher = .idle) : Acts col t v .readRevision t v
  | readNew (hw : v.watcher = .idle) :
    Acts col t v .readRevision t
      { v with watcher := .reloading, lastRevision := t.routingRevision }

variable {col : FloatColumn} {t t' : Tables} {v v' : Node} {a : Action} {k : ℕ}
  {s s' : State N} {e : Event N} {es : List (Event N)}

theorem exec_acts (h : v.exec col t k = some (t', v')) : Acts col t v (.exec k) t' v' := by
  obtain ⟨op, hk, h⟩ := Option.bind_eq_some_iff.mp h
  cases op with
  | calling c =>
    obtain ⟨⟨t, next⟩, hx, h⟩ := Option.bind_eq_some_iff.mp h
    cases h
    exact .exec hk (exec_executes hx)
  | locked c =>
    obtain ⟨⟨t, next⟩, hx, h⟩ := Option.bind_eq_some_iff.mp h
    cases h
    exact .bump hk (exec_executes hx)
  | selecting => cases h; exact .selectRows hk
  | locking | storing => cases h

theorem lock_acts (h : v.lock k = some v') : Acts col t v (.lock k) t v' := by
  obtain ⟨op, hk, h⟩ := Option.bind_eq_some_iff.mp h
  split at h
  · cases op with
    | locking c => cases h; exact .writeMap hk ‹_›
    | storing rows => cases h; exact .storeRows hk ‹_›
    | calling | locked | selecting => cases h
  · cases h

theorem select_acts (h : v.select t = some v') : Acts col t v .select t v' := by
  unfold Node.select at h
  split at h <;> cases h
  · exact .load ‹_›
  · exact .reload ‹_›

theorem store_acts (h : v.store = some v') : Acts col t v .store t v' := by
  unfold Node.store at h
  split at h
  · split at h <;> cases h
    · exact .loaded ‹_› ‹_›
    · exact .reloaded ‹_› ‹_›
  · cases h

theorem readRevision_acts (h : v.readRevision t = some v') :
    Acts col t v .readRevision t v' := by
  unfold Node.readRevision at h
  split at h
  · cases h; exact .readFirst ‹_›
  · split at h <;> cases h
    · exact .readSame ‹_›
    · exact .readNew ‹_›
  · cases h

theorem act_acts (h : v.act col t a = some (t', v')) : Acts col t v a t' v' := by
  cases a with
  | call r =>
    obtain ⟨hw, rfl⟩ := local_step h
    unfold Node.call at hw
    split at hw <;> cases hw
    exact .call ‹_›
  | exec => exact exec_acts h
  | lock => obtain ⟨hw, rfl⟩ := local_step h; exact lock_acts hw
  | select => obtain ⟨hw, rfl⟩ := local_step h; exact select_acts hw
  | store => obtain ⟨hw, rfl⟩ := local_step h; exact store_acts hw
  | readRevision => obtain ⟨hw, rfl⟩ := local_step h; exact readRevision_acts hw

inductive Steps (col : FloatColumn) (s : State N) : Event N → State N → Prop
  | act {n : Fin N} {a : Action} {t : Tables} {v : Node}
    (ha : Acts col s.tables (s.nodes n) a t v) :
    Steps col s (.act n a) ⟨t, Function.update s.nodes n v⟩
  | queue {c : Call} {t : Tables} {next : Call ⊕ Result} (hc : isQueueCall c = true)
    (hx : Executes col s.tables c t next) : Steps col s (.queue c) { s with tables := t }

theorem step_steps (h : step col s e = some s') : Steps col s e s' := by
  cases e with
  | act n a =>
    obtain ⟨⟨t, v⟩, ha, h⟩ := Option.map_eq_some_iff.mp h
    cases h
    exact .act (act_acts ha)
  | queue c =>
    simp only [step] at h
    split at h
    · obtain ⟨⟨t, next⟩, hx, h⟩ := Option.map_eq_some_iff.mp h
      cases h
      exact .queue ‹_› (exec_executes hx)
    · cases h

theorem node_step (h : step col s e = some s') (n : Fin N) :
    (∃ a, e = .act n a ∧ Acts col s.tables (s.nodes n) a s'.tables (s'.nodes n)) ∨
      s'.nodes n = s.nodes n := by
  cases step_steps h with
  | @act m a t v ha =>
    by_cases heq : n = m
    · subst heq
      exact .inl ⟨a, rfl, by simpa only [Function.update_self] using ha⟩
    · exact .inr (Function.update_of_ne heq _ _)
  | queue => exact .inr rfl

end Fireworq.Routing
