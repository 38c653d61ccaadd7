import Fireworq.Execution
import Fireworq.NamedLock
import Mathlib.Data.Int.Notation

namespace Fireworq.MySQL.Activator

open NamedLock Execution Function

inductive DB
  | closed
  | opened (connection : Option ℕ)
  deriving DecidableEq

def DB.connection : DB → Option ℕ
  | .closed => none
  | .opened connection => connection

inductive Pc
  | waiting
  | connecting
  | checking
  | checked (hasLock : Bool)
  | storing
  | locking (context : ℕ)
  | issued (context : ℕ)
  | failed
  | granted
  | activating
  | recovered
  | leaving
  | disconnecting
  | signalling
  | ended
  deriving DecidableEq

inductive StopPc
  | idle
  | flagged
  | loaded (cancel : Option ℕ)
  | returned
  deriving DecidableEq

/-- An activator. The last field is the connection on which `hasLock` or
`getLock` has last succeeded. -/
structure Node where
  stopped : Bool
  active : ℤ
  db : DB
  pc : Pc
  cancel : Option ℕ
  stops : ℕ → StopPc
  acquired : Option ℕ

/-- What the activators share: the server, the contexts that are cancelled,
and of each connection the node that has opened it, whether the server has
lost it, and whether its node has abandoned it to the server. -/
structure World where
  server : Server
  cancelled : ℕ → Bool
  nextContext : ℕ
  dialer : ℕ → Option ℕ
  lost : ℕ → Bool
  abandoned : ℕ → Bool

structure State where
  world : World
  nodes : ℕ → Node

def State.initial : State where
  world := {
    server := .initial
    cancelled := fun _ ↦ false
    nextContext := 0
    dialer := fun _ ↦ none
    lost := fun _ ↦ false
    abandoned := fun _ ↦ false }
  nodes := fun _ ↦ {
    stopped := false
    active := -1
    db := .closed
    pc := .waiting
    cancel := none
    stops := fun _ ↦ .idle
    acquired := none }

/-- The atomic steps of an activator and of the calls of its `stop`. Flags say
whether a call succeeds, whether the server has granted the lock although the
client sees an error, and whether that error is the cancellation. -/
inductive Action
  | begin
  | connect (ok : Bool)
  | dial
  | hasLock (ok : Bool)
  | swapActive
  | storeCancel
  | loadStopped
  | lockGranted
  | lockFailed (granted canceled : Bool)
  | lockTimeout
  | lockNull
  | disconnect
  | onActivating
  | activated
  | storeActive
  | clearActive
  | signal
  | setStopped (call : ℕ)
  | loadCancel (call : ℕ)
  | callCancel (call : ℕ)
  deriving DecidableEq

inductive Event
  | node (n : ℕ) (a : Action)
  | lose (connection : ℕ)
  | reap (connection : ℕ)
  | grantAbandoned (connection : ℕ)
  deriving DecidableEq

def World.close (w : World) (db : DB) : World :=
  match db.connection with
  | some c => { w with server := w.server.close c }
  | none => w

def World.dial (w : World) (n : ℕ) (v : Node) : Option (Node × World) :=
  match v.db with
  | .closed => none
  | .opened connection =>
    if connection.any w.server.live then none
    else some ({ v with db := .opened (some w.server.next) },
      { w with
        server := w.server.dial
        dialer := update w.dialer w.server.next (some n) })

def World.grant (w : World) (v : Node) : Option (ℕ × World) :=
  match v.db.connection with
  | some c => (w.server.grant c).map fun server ↦ (c, { w with server := server })
  | none => none

def World.abandon (w : World) (db : DB) : World :=
  match db.connection with
  | some c => { w with abandoned := update w.abandoned c true }
  | none => w

def act (w : World) (n : ℕ) (v : Node) : Action → Option (Node × World)
  | .begin =>
    match v.pc with
    | .waiting => some ({ v with pc := if v.stopped then .leaving else .connecting }, w)
    | _ => none
  | .connect ok =>
    match v.pc, v.db with
    | .connecting, .opened _ => some ({ v with pc := .checking }, w)
    | .connecting, .closed =>
      if ok then some ({ v with db := .opened none, pc := .checking }, w)
      else some ({ v with pc := .waiting }, w)
    | _, _ => none
  | .dial =>
    match v.pc with
    | .checking | .issued _ => w.dial n v
    | _ => none
  | .hasLock ok =>
    match v.pc, ok, v.db.connection with
    | .checking, false, _ => some ({ v with pc := .checked false }, w)
    | .checking, true, some c =>
      if w.server.live c then
        if w.server.owner = some c then
          some ({ v with pc := .checked true, acquired := some c }, w)
        else some ({ v with pc := .checked false }, w)
      else none
    | _, _, _ => none
  | .swapActive =>
    match v.pc with
    | .checked true => some ({ v with active := 1, pc := .waiting }, w)
    | .checked false => some ({ v with active := 0, pc := .storing }, w)
    | _ => none
  | .storeCancel =>
    match v.pc with
    | .storing => some ({ v with cancel := some w.nextContext, pc := .locking w.nextContext },
        { w with nextContext := w.nextContext + 1 })
    | _ => none
  | .loadStopped =>
    match v.pc with
    | .locking k => some ({ v with pc := if v.stopped then .leaving else .issued k }, w)
    | _ => none
  | .lockGranted =>
    match v.pc with
    | .issued _ => (w.grant v).map fun (c, w) ↦ ({ v with pc := .granted, acquired := some c }, w)
    | _ => none
  | .lockFailed granted canceled =>
    match v.pc with
    | .issued k =>
      (if granted then (w.grant v).map Prod.snd else some w).bind fun w ↦
        if canceled then
          if w.cancelled k then
            some ({ v with db := .opened none, pc := if v.stopped then .leaving else .failed },
              w.abandon v.db)
          else none
        else some ({ v with pc := .failed }, w)
    | _ => none
  | .lockTimeout =>
    match v.pc, v.db.connection with
    | .issued _, some c =>
      if w.server.live c ∧ w.server.owner ≠ some c then some ({ v with pc := .waiting }, w)
      else none
    | _, _ => none
  | .lockNull =>
    match v.pc, v.db.connection with
    | .issued _, some c => if w.server.live c then some ({ v with pc := .failed }, w) else none
    | _, _ => none
  | .disconnect =>
    match v.pc with
    | .failed => some ({ v with db := .closed, pc := .waiting }, w.close v.db)
    | .disconnecting => some ({ v with db := .closed, pc := .signalling }, w.close v.db)
    | _ => none
  | .onActivating =>
    match v.pc with
    | .granted => some ({ v with pc := .activating }, w)
    | _ => none
  | .activated =>
    match v.pc with
    | .activating => some ({ v with pc := .recovered }, w)
    | _ => none
  | .storeActive =>
    match v.pc with
    | .recovered => some ({ v with active := 1, pc := .waiting }, w)
    | _ => none
  | .clearActive =>
    match v.pc with
    | .leaving => some ({ v with active := 0, pc := .disconnecting }, w)
    | _ => none
  | .signal =>
    match v.pc with
    | .signalling => some ({ v with pc := .ended }, w)
    | _ => none
  | .setStopped call =>
    match v.stops call with
    | .idle => some ({ v with stopped := true, stops := update v.stops call .flagged }, w)
    | _ => none
  | .loadCancel call =>
    match v.stops call with
    | .flagged => some ({ v with stops := update v.stops call (.loaded v.cancel) }, w)
    | _ => none
  | .callCancel call =>
    match v.stops call with
    | .loaded (some k) =>
      some ({ v with stops := update v.stops call .returned },
        { w with cancelled := update w.cancelled k true })
    | .loaded none => some ({ v with stops := update v.stops call .returned }, w)
    | _ => none

/-- The server loses a connection that its node still uses, notices that a
connection was abandoned, or grants the lock to an abandoned connection whose
query is still in its queue. -/
def step (s : State) : Event → Option State
  | .node n a => (act s.world n (s.nodes n) a).map fun (v, w) ↦ ⟨w, update s.nodes n v⟩
  | .lose c =>
    if s.world.server.live c ∧ ¬ s.world.abandoned c then
      some { s with world := { s.world with
        server := s.world.server.close c
        lost := update s.world.lost c true } }
    else none
  | .reap c =>
    if s.world.server.live c ∧ s.world.abandoned c then
      some { s with world := { s.world with server := s.world.server.close c } }
    else none
  | .grantAbandoned c =>
    if s.world.abandoned c then
      (s.world.server.grant c).map fun server ↦
        { s with world := { s.world with server := server } }
    else none

def Run (es : List Event) (s : State) : Prop := exec step .initial es = some s

def Node.isActive (v : Node) : Bool := decide (0 < v.active)

end Fireworq.MySQL.Activator
