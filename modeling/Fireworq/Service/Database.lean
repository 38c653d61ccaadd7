import Fireworq.GoString
import Fireworq.MySQL.Isolation
import Fireworq.MySQL.Orphans
import Fireworq.Service.Driver

namespace Fireworq.Service.Lifecycle.Database

open Execution Function
open JobQueue (IncomingJob)
open MySQL (TableName newTableName)
open MySQL.Cluster (Grab KeptInv push_kept)
open Repository (Queue)

def table (name : String) : TableName := newTableName (GoString.bytes name)

/-- The tables of all queues, the value of `IsActive` of each running queue, and the
jobs that its dispatcher has got from `Pop` and whose `Complete` has not ended. -/
structure Store where
  fleet : MySQL.Fleet.State
  active : ℕ → Bool
  popped : ℕ → List Grab

inductive Op
  | tick (ms : ℕ)
  | push (name : String) (job : IncomingJob) (acknowledged : Bool)
  | own (i : ℕ) (name : String) (e : MySQL.Cluster.Event)
  | backup (i : ℕ)
  | inspect (name : String) (e : MySQL.Cluster.Event)
  deriving DecidableEq

def handle (c : MySQL.Cluster.State) (gs : List Grab) : MySQL.Cluster.Event → List Grab
  | .popReturn p jobs => match c.pops p with
    | some ⟨_, _, .committed session _⟩ => gs ++ jobs.map (Grab.mk session)
    | _ => gs
  | .delete k _ | .update k _ => match c.completes k with
    | some call => gs.erase call.grab
    | none => gs
  | _ => gs

def onFleet (s : Store) (e : MySQL.Fleet.Event) : Option Store :=
  (MySQL.Fleet.step s.fleet e).map fun fleet ↦ { s with fleet := fleet }

def does (s : Store) : Op → Option Store
  | .tick ms => onFleet s (.tick ms)
  | .push name job acknowledged =>
    onFleet s (.op (GoString.bytes name) (.push job acknowledged))
  | .own i name e => (onFleet s (.op (GoString.bytes name) e)).map fun t ↦
    { t with
      active := if e = .activate i then update s.active i true else s.active
      popped := update s.popped i (handle (s.fleet (table name)) (s.popped i) e) }
  | .backup i => some { s with active := update s.active i false }
  | .inspect name e => onFleet s (.op (GoString.bytes name) e)

def permits (s : Store) (q : RunningQueue) (i : ℕ) : MySQL.Cluster.Event → Bool
  | .popStart _ node _ => node = i && q.dispatching && s.active i
  | .preselect p _ | .beginTx p | .selectForUpdate p _ | .launch p | .commit p | .commitLost p
  | .popReturn p _ | .popFail p => ((s.fleet (table q.name)).pops p).any fun c ↦ c.node = i
  | .complete _ g _ => g ∈ s.popped i && q.dispatching
  | .addFailure k _ _ | .delete k _ | .update k _ =>
    ((s.fleet (table q.name)).completes k).any fun c ↦ c.grab ∈ s.popped i
  | .connect node _ | .disconnect node | .recover node | .orphans node _ | .reclaim node
  | .recoverFail node | .activate node => node = i
  | .tick _ | .push _ _ | .inspectorDelete _ | .deleteFailure _ => false

/-- The driver `mysql`. The queues of one name use the same tables one after the
other, each on connections of its own, which `Stop` closes. -/
@[reducible] def driver : Driver where
  Store := Store
  Op := Op
  initial := ⟨.initial, fun _ ↦ false, fun _ ↦ []⟩
  does := does
  pushes s q _ job id op := match id with
    | some id =>
      op = some (.push q.name job true) ∧ id = (s.fleet (table q.name)).table.next
    | none => op = none ∨ op = some (.push q.name job false)
  owns s q i op := match op with
    | .own j name e => j = i && name = q.name && permits s q i e
    | .backup j => j = i
    | _ => false
  free op := match op with
    | .tick _ | .inspect _ (.inspectorDelete _) | .inspect _ (.deleteFailure _) => true
    | _ => false
  closed s q i := (s.fleet (table q.name)).sessions i = none

def Op.on (tn : TableName) : Op → Option MySQL.Cluster.Event
  | .tick ms => some (.tick ms)
  | .push name job acknowledged => if table name = tn then some (.push job acknowledged) else none
  | .own _ name e | .inspect name e => if table name = tn then some e else none
  | .backup _ => none

def history (tn : TableName) (es : List driver.Event) : List MySQL.Cluster.Event :=
  es.filterMap fun e ↦ e.op.bind (Op.on tn)

variable {cfg : Config} {s t : Store} {op : Op} {i : ℕ} {w w' : driver.World}
  {e : driver.Event} {es : List driver.Event} {q : RunningQueue} {tn : TableName}

theorem onFleet_step {name : String} {e : MySQL.Cluster.Event}
    (h : onFleet s (.op (GoString.bytes name) e) = some t) (tn : TableName) :
    (table name = tn ∧ MySQL.Cluster.step (s.fleet tn) e = some (t.fleet tn)) ∨
      table name ≠ tn ∧ t.fleet tn = s.fleet tn := by
  obtain ⟨fleet, hf, rfl⟩ := Option.map_eq_some_iff.mp h
  obtain ⟨-, c, hc, rfl⟩ := MySQL.Fleet.op_cases hf
  by_cases htn : table name = tn
  · subst htn
    refine .inl ⟨rfl, ?_⟩
    dsimp only [table]
    rw [update_self, hc]
  · exact .inr ⟨htn, update_of_ne (Ne.symm htn) _ _⟩

/-- A step is one of the cluster of nodes that share the tables, or leaves them
alone. -/
theorem does_on (h : does s op = some t) (tn : TableName) :
    (∃ e, op.on tn = some e ∧ MySQL.Cluster.step (s.fleet tn) e = some (t.fleet tn)) ∨
      op.on tn = none ∧ t.fleet tn = s.fleet tn := by
  have hop {name : String} {e : MySQL.Cluster.Event} {u : Store}
      (hon : op.on tn = if table name = tn then some e else none)
      (hu : onFleet s (.op (GoString.bytes name) e) = some u) (ht : t.fleet = u.fleet) :
      (∃ e, op.on tn = some e ∧ MySQL.Cluster.step (s.fleet tn) e = some (t.fleet tn)) ∨
        op.on tn = none ∧ t.fleet tn = s.fleet tn := by
    rw [hon, ht]
    rcases onFleet_step hu tn with ⟨htn, hc⟩ | ⟨htn, hc⟩
    · exact .inl ⟨e, if_pos htn, hc⟩
    · exact .inr ⟨if_neg htn, hc⟩
  cases op with
  | tick ms =>
    cases h
    exact .inl ⟨.tick ms, rfl, rfl⟩
  | push name job acknowledged => exact hop rfl h rfl
  | own j name e =>
    obtain ⟨u, hu, rfl⟩ := Option.map_eq_some_iff.mp h
    exact hop rfl hu rfl
  | backup j =>
    cases h
    exact .inr ⟨rfl, rfl⟩
  | inspect name e => exact hop rfl h rfl

theorem history_snoc (tn : TableName) (es : List driver.Event) (e : driver.Event) :
    history tn (es ++ [e]) = history tn es ++ (e.op.bind (Op.on tn)).toList := by
  rw [history, List.filterMap_append, List.filterMap_cons, List.filterMap_nil]
  cases e.op.bind (Op.on tn) <;> rfl

theorem tables_step (h : driver.step cfg w e = some w') (tn : TableName) :
    (∃ c, e.op.bind (Op.on tn) = some c ∧
      MySQL.Cluster.step (w.store.fleet tn) c = some (w'.store.fleet tn)) ∨
    e.op.bind (Op.on tn) = none ∧ w'.store.fleet tn = w.store.fleet tn := by
  cases Driver.step_moves h with
  | push _ _ _ _ ht =>
    obtain ⟨rfl, rfl⟩ | ⟨o, rfl, ht⟩ := ht
    · exact .inr ⟨rfl, rfl⟩
    · exact does_on ht tn
  | quiet => exact .inr ⟨rfl, rfl⟩
  | own _ _ _ ht => exact does_on ht tn
  | free _ ht => exact does_on ht tn

/-- The running queues of one service, which come and go, are the nodes of a
cluster. -/
theorem Run.tables (h : driver.Run cfg es w) (tn : TableName) :
    MySQL.Cluster.Run (history tn es) (w.store.fleet tn) := by
  refine Execution.history
    (fun es (w : driver.World) ↦ MySQL.Cluster.Run (history tn es) (w.store.fleet tn)) ?_
    (fun xs u e v _ ih hv ↦ ?_) h
  · exact (rfl : MySQL.Cluster.Run [] .initial)
  rw [history_snoc]
  rcases tables_step hv tn with ⟨c, hc, hstep⟩ | ⟨hc, heq⟩
  · rw [hc]
    exact exec_snoc.mpr ⟨_, ih, hstep⟩
  · rw [hc, heq, Option.toList_none, List.append_nil]
    exact ih

/-- A job that a queue has accepted has its row, unless it has been completed or
deleted. -/
theorem Run.kept (h : driver.Run cfg es w) (hq : w.service.queues[i]? = some q) {id : ℕ}
    (hid : .pushed (some id) ∈ q.acts) :
    KeptInv id (history (table q.name) es) (w.store.fleet (table q.name)) := by
  refine Execution.history (fun es (w : driver.World) ↦ ∀ (i : ℕ) (q : RunningQueue) (id : ℕ),
    w.service.queues[i]? = some q → .pushed (some id) ∈ q.acts →
      KeptInv id (history (table q.name) es) (w.store.fleet (table q.name)))
    (fun i q id hq ↦ by cases hq) (fun xs u e v hu ih hstep i q id hq hid ↦ ?_) h i q id hq hid
  have hold {p : RunningQueue} (hp : u.service.queues[i]? = some p) (hn : p.name = q.name)
      (hid : .pushed (some id) ∈ p.acts) :
      KeptInv id (history (table q.name) (xs ++ [e])) (v.store.fleet (table q.name)) := by
    have hk := ih i p id hp hid
    rw [hn] at hk
    rw [history_snoc]
    rcases tables_step hstep (table q.name) with ⟨c, hc, hcs⟩ | ⟨hc, heq⟩
    · rw [hc]
      exact hk.step (Run.tables hu _).popInv hcs
    · rw [hc, heq, Option.toList_none, List.append_nil]
      exact hk
  cases Driver.step_moves hstep with
  | @push e op v t j job id' p hv hret hp hpush ht =>
    rcases accepted_step hv hq hid with ⟨p', hp', hn, hid⟩ | ⟨p', job', hp', hn, hret'⟩
    · exact hold hp' (congrArg Queue.name hn) hid
    · cases hret.symm.trans hret'
      cases hp.symm.trans hp'
      have hname : p.name = q.name := congrArg Queue.name hn
      obtain ⟨rfl, rfl⟩ := of_decide_eq_true hpush
      obtain ⟨-, hnone⟩ | ⟨o, ho, ht⟩ := ht
      · cases hnone
      · cases ho
        rcases onFleet_step ht (table q.name) with ⟨-, hcs⟩ | ⟨hne, -⟩
        · rw [hname]
          exact (push_kept (Run.tables hu _).jobsInv hcs).mono (List.nil_subset _)
        · exact absurd (congrArg table hname) hne
  | quiet hv hret =>
    rcases accepted_step hv hq hid with ⟨p, hp, hn, hid⟩ | ⟨p, job', -, -, hret'⟩
    · exact hold hp (congrArg Queue.name hn) hid
    · cases hret.symm.trans hret'
  | own => exact hold hq rfl hid
  | free => exact hold hq rfl hid

end Fireworq.Service.Lifecycle.Database
