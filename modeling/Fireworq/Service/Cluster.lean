import Fireworq.Service.Node

namespace Fireworq.Service

open Execution Repository
open Dispatcher (System)

structure State (N : ℕ) where
  tables : Tables
  nodes : Fin N → Node

def State.initial {N : ℕ} (t : Tables) : State N := ⟨t, fun _ ↦ .initial⟩

inductive Action
  | boot
  | readRevision
  | lock (task : Task)
  | lockPush (k : ℕ)
  | lockReload
  | advance
  | exec
  | fail
  | lose
  | push (name : String) (caller : Option (ℕ × ℕ))
  | rlock (k : ℕ)
  | lookup (k : ℕ)
  | dispatch (i : ℕ) (e : System.Event Unit)

structure Event (N : ℕ) where
  node : Fin N
  action : Action

def Task.manages : Task → Bool
  | .add _ | .delete _ => true
  | _ => false

namespace Node

variable (cfg : Config) (col : FloatColumn) (t : Tables) (v : Node)

def up : Bool := v.watcher = .idle ∨ v.watcher = .reloading

/-- `newConfigWatcher` reads the revision, then `NewService` takes both locks. -/
def boot : Option Node :=
  if v.watcher = .off then
    some
      { v with
        watcher := .starting
        lastRevision := t.queueRevision
        holder := some ⟨.startup, .lockJob⟩ }
  else none

/-- The watcher compares the revision with the last one. A revision without a
row is an error. -/
def readRevision : Option Node :=
  if v.watcher = .idle then
    if t.queueRevision = 0 ∨ t.queueRevision = v.lastRevision then some v
    else some { v with watcher := .reloading, lastRevision := t.queueRevision }
  else none

def lock (task : Task) : Option Node :=
  if v.up ∧ v.holder = none ∧ task.manages then some (v.goto task .lockJob) else none

def lockPush (k : ℕ) : Option Node := do
  let p ← v.pushes[k]?
  if p.pc = .lockMu ∧ v.holder = none then
    some { v.goto (.push p.name p.caller) .lockJob with pushes := v.pushes.eraseIdx k }
  else none

def lockReload : Option Node :=
  if v.watcher = .reloading ∧ v.holder = none then
    some (v.goto .reload (.deactivating (v.running.entries.map fun e ↦ e.2)))
  else none

def push (name : String) (caller : Option (ℕ × ℕ)) : Option Node :=
  if v.up ∧ caller.all fun c ↦ v.working c.1 c.2 && !v.pushing c.1 c.2 then
    some { v with pushes := v.pushes ++ [⟨name, caller, .rlock⟩] }
  else none

def rlock (k : ℕ) : Option Node := do
  let p ← v.pushes[k]?
  if p.pc = .rlock ∧ v.holder.all fun th ↦ !th.pc.blocksReaders then
    some { v with pushes := v.pushes.set k { p with pc := .reading } }
  else none

def lookup (k : ℕ) : Option Node := do
  let p ← v.pushes[k]?
  if p.pc = .reading then
    some
      { v with
        pushes :=
          if (v.running.lookup p.name).isSome then v.pushes.eraseIdx k
          else v.pushes.set k { p with pc := .lockMu } }
  else none

/-- The statement that the thread has reached: the thread, its call, and the
effect. -/
def statement : Option (Task × Call × Tables × (Call ⊕ Result)) :=
  match v.holder with
  | some ⟨task, .calling c⟩ => (c.exec col t).map fun p ↦ (task, c, p.1, p.2)
  | _ => none

def answered (task : Task) (c : Call) : Call ⊕ Result → Node
  | .inl c' => v.goto task (.calling c')
  | .inr r => v.returned task c r

def act : Action → Option (Tables × Node)
  | .boot => (v.boot t).map fun v ↦ (t, v)
  | .readRevision => (v.readRevision t).map fun v ↦ (t, v)
  | .lock task => (v.lock task).map fun v ↦ (t, v)
  | .lockPush k => (v.lockPush k).map fun v ↦ (t, v)
  | .lockReload => v.lockReload.map fun v ↦ (t, v)
  | .advance => (v.advance cfg).map fun v ↦ (t, v)
  | .exec => (v.statement col t).map fun (task, c, t', next) ↦ (t', v.answered task c next)
  | .fail => match v.holder with
    | some ⟨task, .calling c⟩ => some (t, v.returned task c .failed)
    | _ => none
  | .lose => (v.statement col t).map fun (task, c, t', _) ↦ (t', v.returned task c .failed)
  | .push name caller => (v.push name caller).map fun v ↦ (t, v)
  | .rlock k => (v.rlock k).map fun v ↦ (t, v)
  | .lookup k => (v.lookup k).map fun v ↦ (t, v)
  | .dispatch i e => (v.dispatch cfg i e).map fun v ↦ (t, v)

end Node

variable {N : ℕ}

def step (cfg : Config) (col : FloatColumn) (s : State N) (e : Event N) : Option (State N) :=
  if (s.nodes e.node).crashed then none
  else ((s.nodes e.node).act cfg col s.tables e.action).map fun (t, v) ↦
    ⟨t, Function.update s.nodes e.node v⟩

def Run (cfg : Config) (col : FloatColumn) (t : Tables) (es : List (Event N)) (s : State N) :
    Prop :=
  exec (step cfg col) (.initial t) es = some s

inductive Advances (cfg : Config) (v : Node) : Node → Prop
  | deactivated {task : Task} (hh : v.holder = some ⟨task, .deactivating []⟩) :
    Advances cfg v (v.goto task .lockJob)
  | lockJob {task : Task} (hh : v.holder = some ⟨task, .lockJob⟩) :
    Advances cfg v (v.goto task .awaitReaders)
  | lockedJob {task : Task} (hh : v.holder = some ⟨task, .awaitReaders⟩)
    (hr : ∀ p ∈ v.pushes, p.pc ≠ .reading) :
    Advances cfg v (v.lockedJob cfg task)
  | destroy {task : Task} (hh : v.holder = some ⟨task, .destroying⟩) :
    Advances cfg v { v.goto task (.calling .findQueues) with running := ∅ }
  | startNext {task : Task} {q : Queue} {qs : List Queue}
    (hh : v.holder = some ⟨task, .starting (q :: qs)⟩) :
    Advances cfg v (v.goto task (.putting q (some qs)))
  | startLast {task : Task} (hh : v.holder = some ⟨task, .starting []⟩) :
    Advances cfg v (v.initDefaultQueue cfg task)
  | replace {task : Task} {q : Queue} {rest : Option (List Queue)} {i : ℕ}
    (hh : v.holder = some ⟨task, .putting q rest⟩) (hi : v.running.lookup q.name = some i) :
    Advances cfg v (v.goto task (.stopping q.name i (some q) rest))
  | start {task : Task} {q : Queue} {rest : Option (List Queue)}
    (hh : v.holder = some ⟨task, .putting q rest⟩) (hi : v.running.lookup q.name = none) :
    Advances cfg v ((v.startJobQueue q).goto task (Node.afterPut rest))
  | remove {task : Task} {name : String} {i : ℕ} (hh : v.holder = some ⟨task, .removing name⟩)
    (hi : v.running.lookup name = some i) :
    Advances cfg v (v.goto task (.stopping name i none none))
  | removeNone {task : Task} {name : String} (hh : v.holder = some ⟨task, .removing name⟩)
    (hi : v.running.lookup name = none) : Advances cfg v (v.goto task (.returning true))
  | unlock {task : Task} {ok : Bool} (hh : v.holder = some ⟨task, .returning ok⟩) :
    Advances cfg v (v.unlock task)

inductive Acts (cfg : Config) (col : FloatColumn) (t : Tables) (v : Node) :
    Action → Tables → Node → Prop
  | boot (hw : v.watcher = .off) :
    Acts cfg col t v .boot t
      { v with
        watcher := .starting
        lastRevision := t.queueRevision
        holder := some ⟨.startup, .lockJob⟩ }
  | readSame (hw : v.watcher = .idle) : Acts cfg col t v .readRevision t v
  | readNew (hw : v.watcher = .idle) :
    Acts cfg col t v .readRevision t
      { v with watcher := .reloading, lastRevision := t.queueRevision }
  | lock {task : Task} (hup : v.up = true) (hh : v.holder = none) (hm : task.manages = true) :
    Acts cfg col t v (.lock task) t (v.goto task .lockJob)
  | lockPush {k : ℕ} {p : Push} (hk : v.pushes[k]? = some p) (hp : p.pc = .lockMu)
    (hh : v.holder = none) :
    Acts cfg col t v (.lockPush k) t
      { v.goto (.push p.name p.caller) .lockJob with pushes := v.pushes.eraseIdx k }
  | lockReload (hw : v.watcher = .reloading) (hh : v.holder = none) :
    Acts cfg col t v .lockReload t
      (v.goto .reload (.deactivating (v.running.entries.map fun e ↦ e.2)))
  | advance {v' : Node} (h : Advances cfg v v') : Acts cfg col t v .advance t v'
  | exec {task : Task} {c : Call} {t' : Tables} {next : Call ⊕ Result}
    (hh : v.holder = some ⟨task, .calling c⟩) (hx : Executes col t c t' next) :
    Acts cfg col t v .exec t' (v.answered task c next)
  | fail {task : Task} {c : Call} (hh : v.holder = some ⟨task, .calling c⟩) :
    Acts cfg col t v .fail t (v.returned task c .failed)
  | lose {task : Task} {c : Call} {t' : Tables} {next : Call ⊕ Result}
    (hh : v.holder = some ⟨task, .calling c⟩) (hx : Executes col t c t' next) :
    Acts cfg col t v .lose t' (v.returned task c .failed)
  | push {name : String} {caller : Option (ℕ × ℕ)} (hup : v.up = true)
    (hc : ∀ c ∈ caller, v.working c.1 c.2 = true ∧ v.pushing c.1 c.2 = false) :
    Acts cfg col t v (.push name caller) t
      { v with pushes := v.pushes ++ [⟨name, caller, .rlock⟩] }
  | rlock {k : ℕ} {p : Push} (hk : v.pushes[k]? = some p) (hp : p.pc = .rlock)
    (hr : ∀ th ∈ v.holder, th.pc.blocksReaders = false) :
    Acts cfg col t v (.rlock k) t
      { v with pushes := v.pushes.set k { p with pc := .reading } }
  | found {k i : ℕ} {p : Push} (hk : v.pushes[k]? = some p) (hp : p.pc = .reading)
    (hi : v.running.lookup p.name = some i) :
    Acts cfg col t v (.lookup k) t { v with pushes := v.pushes.eraseIdx k }
  | missing {k : ℕ} {p : Push} (hk : v.pushes[k]? = some p) (hp : p.pc = .reading)
    (hi : v.running.lookup p.name = none) :
    Acts cfg col t v (.lookup k) t
      { v with pushes := v.pushes.set k { p with pc := .lockMu } }
  | dispatch {i : ℕ} {e : System.Event Unit} {q : RunningQueue} {d : System Unit}
    (hq : v.queues[i]? = some q) (hp : v.permits i e = true) (hne : e ≠ .receive)
    (hd : System.step ⟨cfg.minBufferSize, q.definition.maxWorkers⟩ q.definition.pollingInterval
      q.dispatcher e = some d) :
    Acts cfg col t v (.dispatch i e) t
      { v with queues := v.queues.set i ⟨q.definition, d⟩, crashed := d.crashed }
  | receive {i : ℕ} {q : RunningQueue} {d : System Unit} {th : Thread}
    (hq : v.queues[i]? = some q) (hh : v.holder = some th) (ha : th.pc.awaits i = true)
    (hd : System.step ⟨cfg.minBufferSize, q.definition.maxWorkers⟩ q.definition.pollingInterval
      q.dispatcher .receive = some d) :
    Acts cfg col t v (.dispatch i .receive) t
      (Node.deactivated
        { v with queues := v.queues.set i ⟨q.definition, d⟩, crashed := d.crashed } i)

variable {cfg : Config} {col : FloatColumn} {t t' : Tables} {v v' : Node} {a : Action}

theorem advance_advances (h : v.advance cfg = some v') : Advances cfg v v' := by
  unfold Node.advance at h
  split at h
  · cases h
  · rename_i task pc hh
    cases pc with
    | deactivating is =>
      simp only at h
      split at h
      · rename_i his
        subst his
        cases h
        exact .deactivated hh
      · cases h
    | lockJob => cases h; exact .lockJob hh
    | awaitReaders =>
      simp only at h
      split at h <;> cases h
      rename_i hall
      exact .lockedJob hh fun p hp ↦ of_decide_eq_true (List.all_eq_true.mp hall p hp)
    | destroying => cases h; exact .destroy hh
    | starting qs =>
      cases qs with
      | nil => cases h; exact .startLast hh
      | cons q qs => cases h; exact .startNext hh
    | putting q rest =>
      cases h
      cases hi : v.running.lookup q.name with
      | none => simp only [Node.putJobQueue, hi]; exact .start hh hi
      | some i => simp only [Node.putJobQueue, hi]; exact .replace hh hi
    | removing name =>
      simp only at h
      split at h <;> cases h
      · exact .remove hh ‹_›
      · exact .removeNone hh ‹_›
    | returning ok => cases h; exact .unlock hh
    | calling | stopping => cases h

theorem statement_cases {task : Task} {c : Call} {next : Call ⊕ Result}
    (h : v.statement col t = some (task, c, t', next)) :
    v.holder = some ⟨task, .calling c⟩ ∧ Executes col t c t' next := by
  unfold Node.statement at h
  split at h
  · obtain ⟨p, hp, h⟩ := Option.map_eq_some_iff.mp h
    cases h
    exact ⟨‹_›, exec_executes hp⟩
  · cases h

theorem lockPush_acts {k : ℕ} (h : v.lockPush k = some v') :
    Acts cfg col t v (.lockPush k) t v' := by
  obtain ⟨p, hk, h⟩ := Option.bind_eq_some_iff.mp h
  split at h <;> cases h
  rename_i hp
  exact .lockPush hk hp.1 hp.2

theorem rlock_acts {k : ℕ} (h : v.rlock k = some v') : Acts cfg col t v (.rlock k) t v' := by
  obtain ⟨p, hk, h⟩ := Option.bind_eq_some_iff.mp h
  split at h <;> cases h
  rename_i hp
  exact .rlock hk hp.1 (by simpa [Option.all_eq_true] using hp.2)

theorem lookup_acts {k : ℕ} (h : v.lookup k = some v') : Acts cfg col t v (.lookup k) t v' := by
  obtain ⟨p, hk, h⟩ := Option.bind_eq_some_iff.mp h
  split at h <;> cases h
  split
  · rename_i hp hsome
    obtain ⟨i, hi⟩ := Option.isSome_iff_exists.mp hsome
    exact .found hk hp hi
  · rename_i hp hnone
    exact .missing hk hp (Option.not_isSome_iff_eq_none.mp hnone)

theorem dispatch_acts {i : ℕ} {e : System.Event Unit} (h : v.dispatch cfg i e = some v') :
    Acts cfg col t v (.dispatch i e) t v' := by
  obtain ⟨q, hq, h⟩ := Option.bind_eq_some_iff.mp h
  split at h
  · rename_i hp
    obtain ⟨d, hd, h⟩ := Option.bind_eq_some_iff.mp h
    cases h
    by_cases he : e = .receive
    · subst he
      simp only [Node.permits] at hp
      split at hp
      · exact .receive hq ‹_› hp hd
      · cases hp
    · split
      · exact absurd rfl he
      · exact .dispatch hq hp he hd
  · cases h

theorem boot_acts (h : v.boot t = some v') : Acts cfg col t v .boot t v' := by
  unfold Node.boot at h
  split at h <;> cases h
  exact .boot ‹_›

theorem readRevision_acts (h : v.readRevision t = some v') :
    Acts cfg col t v .readRevision t v' := by
  unfold Node.readRevision at h
  split at h
  · split at h <;> cases h
    · exact .readSame ‹_›
    · exact .readNew ‹_›
  · cases h

theorem lock_acts {task : Task} (h : v.lock task = some v') :
    Acts cfg col t v (.lock task) t v' := by
  unfold Node.lock at h
  split at h <;> cases h
  rename_i hp
  exact .lock hp.1 hp.2.1 hp.2.2

theorem lockReload_acts (h : v.lockReload = some v') : Acts cfg col t v .lockReload t v' := by
  unfold Node.lockReload at h
  split at h <;> cases h
  rename_i hp
  exact .lockReload hp.1 hp.2

theorem push_acts {name : String} {caller : Option (ℕ × ℕ)} (h : v.push name caller = some v') :
    Acts cfg col t v (.push name caller) t v' := by
  unfold Node.push at h
  split at h <;> cases h
  rename_i hp
  exact .push hp.1 fun c hc ↦ by simpa [hc] using (Option.all_eq_true _ _).mp hp.2 c hc

theorem act_acts (h : v.act cfg col t a = some (t', v')) : Acts cfg col t v a t' v' := by
  cases a with
  | boot => obtain ⟨hw, rfl⟩ := local_step h; exact boot_acts hw
  | readRevision => obtain ⟨hw, rfl⟩ := local_step h; exact readRevision_acts hw
  | lock => obtain ⟨hw, rfl⟩ := local_step h; exact lock_acts hw
  | lockPush => obtain ⟨hw, rfl⟩ := local_step h; exact lockPush_acts hw
  | lockReload => obtain ⟨hw, rfl⟩ := local_step h; exact lockReload_acts hw
  | advance => obtain ⟨hw, rfl⟩ := local_step h; exact .advance (advance_advances hw)
  | push => obtain ⟨hw, rfl⟩ := local_step h; exact push_acts hw
  | rlock => obtain ⟨hw, rfl⟩ := local_step h; exact rlock_acts hw
  | lookup => obtain ⟨hw, rfl⟩ := local_step h; exact lookup_acts hw
  | dispatch => obtain ⟨hw, rfl⟩ := local_step h; exact dispatch_acts hw
  | exec =>
    obtain ⟨⟨task, c, u, next⟩, hs, h⟩ := Option.map_eq_some_iff.mp h
    cases h
    obtain ⟨hh, hx⟩ := statement_cases hs
    exact .exec hh hx
  | fail =>
    simp only [Node.act] at h
    split at h <;> cases h
    exact .fail ‹_›
  | lose =>
    obtain ⟨⟨task, c, u, next⟩, hs, h⟩ := Option.map_eq_some_iff.mp h
    cases h
    obtain ⟨hh, hx⟩ := statement_cases hs
    exact .lose hh hx

theorem step_acts {s s' : State N} {e : Event N} (h : step cfg col s e = some s') :
    (s.nodes e.node).crashed = false ∧ ∃ t v,
      Acts cfg col s.tables (s.nodes e.node) e.action t v ∧
        s' = ⟨t, Function.update s.nodes e.node v⟩ := by
  unfold step at h
  split at h
  · cases h
  · rename_i halive
    obtain ⟨⟨t, v⟩, ha, h⟩ := Option.map_eq_some_iff.mp h
    cases h
    exact ⟨by simpa using halive, t, v, act_acts ha, rfl⟩

theorem Advances.queues (h : Advances cfg v v') :
    v'.queues = v.queues ∨ ∃ q, v'.queues = v.queues ++ [⟨q, .initial⟩] := by
  cases h with
  | lockedJob => exact .inl (v.lockedJob_fields cfg _).1
  | startLast => exact .inl (v.initDefaultQueue_fields cfg _).1
  | start => exact .inr ⟨_, rfl⟩
  | _ => exact .inl rfl

/-- A node starts queues and runs their dispatchers. -/
theorem Acts.queues (h : Acts cfg col t v a t' v') :
    v'.queues = v.queues ∨ (∃ q, v'.queues = v.queues ++ [⟨q, .initial⟩]) ∨
      ∃ i e q d, v.queues[i]? = some q ∧
        System.step ⟨cfg.minBufferSize, q.definition.maxWorkers⟩ q.definition.pollingInterval
          q.dispatcher e = some d ∧ v'.queues = v.queues.set i ⟨q.definition, d⟩ := by
  cases h with
  | advance h => exact h.queues.imp_right .inl
  | @exec _ _ _ next =>
    cases next with
    | inl => exact .inl rfl
    | inr r => exact .inl (v.returned_fields _ _ r).1
  | fail | lose => exact .inl (v.returned_fields _ _ _).1
  | dispatch hq _ _ hd => exact .inr (.inr ⟨_, _, _, _, hq, hd, rfl⟩)
  | receive hq _ _ hd => exact .inr (.inr ⟨_, _, _, _, hq, hd, (Node.deactivated_fields _ _).1⟩)
  | _ => exact .inl rfl

theorem node_step {s s' : State N} {e : Event N} (h : step cfg col s e = some s') (n : Fin N) :
    n = e.node ∧ Acts cfg col s.tables (s.nodes n) e.action s'.tables (s'.nodes n) ∨
      n ≠ e.node ∧ s'.nodes n = s.nodes n := by
  obtain ⟨-, t, v, ha, rfl⟩ := step_acts h
  by_cases heq : n = e.node
  · subst heq
    exact .inl ⟨rfl, by simpa only [Function.update_self] using ha⟩
  · exact .inr ⟨heq, Function.update_of_ne heq _ _⟩

theorem nodes_step {s s' : State N} {e : Event N} (P : Node → Prop)
    (h : step cfg col s e = some s')
    (hact : ∀ t v, Acts cfg col s.tables (s.nodes e.node) e.action t v → P v)
    (hs : ∀ n, P (s.nodes n)) (n : Fin N) : P (s'.nodes n) := by
  rcases node_step h n with ⟨rfl, ha⟩ | ⟨-, heq⟩
  · exact hact _ _ ha
  · rw [heq]
    exact hs n

def plain : Config := ⟨"", 100, 20, 1000⟩

def bootActions : List Action := [.boot, .advance, .advance, .exec, .advance, .advance]

def addNew (q : Queue) : List Action :=
  [.lock (.add q), .advance, .advance, .exec, .exec, .exec, .advance]

def mailQueue : Queue := ⟨"mail", 0, 0, 0, 0⟩

end Fireworq.Service
