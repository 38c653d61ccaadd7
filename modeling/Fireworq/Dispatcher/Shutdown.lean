import Fireworq.Dispatcher.Conservation
import Fireworq.GoInt
import Mathlib.Algebra.GroupWithZero.Nat

namespace Fireworq.Dispatcher

open Execution

/-- Where the loop of a `pollingKicker` is. In `kicking` it is inside
`Kick`, which sends on the unbuffered channel `kick`. -/
inductive KickerPc
  | starting
  | select
  | kicking
  | stopping
  | ended
  deriving DecidableEq

inductive StopperPc
  | idle
  | stopKicker
  | awaitKicker
  | sendStop
  | awaitLoop
  | ready
  | ended
  deriving DecidableEq

/-- A dispatcher with its kicker and its stopper. `kickerStop` and
`kickerStopped` are the values in the channels of the kicker. -/
structure System (α : Type) where
  core : State α
  kicker : KickerPc
  kickerStop : Bool
  kickerStopped : Bool
  stopper : StopperPc
  crashed : Bool

namespace System

variable {α : Type}

def initial : System α where
  core := .initial
  kicker := .starting
  kickerStop := false
  kickerStopped := false
  stopper := .idle
  crashed := false

inductive Event (α : Type)
  | newTicker
  | tick
  | kick
  | receiveStop
  | sendStopped
  | callStop
  | stopKicker
  | awaitKicker
  | sendStop
  | awaitLoop
  | receive
  | inner (e : Dispatcher.Event α)

def rendezvous : Dispatcher.Event α → Bool
  | .kick | .stop | .sendStopped => true
  | _ => false

def Event.internal : Event α → Bool
  | .tick | .callStop | .receive => false
  | _ => true

def tickerDuration (interval : ℕ) : ℤ := GoInt.int64 (GoInt.int64 interval * 1000000)

section Steps

variable (cfg : Config) (interval : ℕ) (s : System α)

/-- `time.NewTicker` panics if its duration is not positive. A panic in a
goroutine ends the process. -/
def newTicker : Option (System α) :=
  if s.kicker = .starting then
    if 0 < tickerDuration interval then some { s with kicker := .select }
    else some { s with crashed := true }
  else none

def kick : Option (System α) :=
  if s.kicker = .kicking then
    (Dispatcher.step cfg s.core .kick).map fun c ↦ { s with core := c, kicker := .select }
  else none

def receiveStop : Option (System α) :=
  if s.kicker = .select ∧ s.kickerStop = true then
    some { s with kicker := .stopping, kickerStop := false }
  else none

def sendStopped : Option (System α) :=
  if s.kicker = .stopping ∧ s.kickerStopped = false then
    some { s with kicker := .ended, kickerStopped := true }
  else none

def stopKicker : Option (System α) :=
  if s.stopper = .stopKicker ∧ s.kickerStop = false then
    some { s with stopper := .awaitKicker, kickerStop := true }
  else none

def awaitKicker : Option (System α) :=
  if s.stopper = .awaitKicker ∧ s.kickerStopped = true then
    some { s with stopper := .sendStop, kickerStopped := false }
  else none

def sendStop : Option (System α) :=
  if s.stopper = .sendStop then
    (Dispatcher.step cfg s.core .stop).map fun c ↦ { s with core := c, stopper := .awaitLoop }
  else none

def awaitLoop : Option (System α) :=
  if s.stopper = .awaitLoop then
    (Dispatcher.step cfg s.core .sendStopped).map fun c ↦ { s with core := c, stopper := .ready }
  else none

def inner (e : Dispatcher.Event α) : Option (System α) :=
  if rendezvous e then none
  else (Dispatcher.step cfg s.core e).map fun c ↦ { s with core := c }

end Steps

def step (cfg : Config) (interval : ℕ) (s : System α) (e : Event α) : Option (System α) :=
  if s.crashed then none
  else match e with
    | .newTicker => newTicker interval s
    | .tick => if s.kicker = .select then some { s with kicker := .kicking } else none
    | .kick => kick cfg s
    | .receiveStop => receiveStop s
    | .sendStopped => sendStopped s
    | .callStop => if s.stopper = .idle then some { s with stopper := .stopKicker } else none
    | .stopKicker => stopKicker s
    | .awaitKicker => awaitKicker s
    | .sendStop => sendStop cfg s
    | .awaitLoop => awaitLoop cfg s
    | .receive => if s.stopper = .ready then some { s with stopper := .ended } else none
    | .inner e => inner cfg s e

def Run (cfg : Config) (interval : ℕ) (es : List (Event α)) (s : System α) : Prop :=
  exec (step cfg interval) .initial es = some s

inductive Moves (cfg : Config) (interval : ℕ) (s : System α) : Event α → System α → Prop
  | newTicker (hk : s.kicker = .starting) (hd : 0 < tickerDuration interval) :
    Moves cfg interval s .newTicker { s with kicker := .select }
  | crash (hk : s.kicker = .starting) (hd : ¬ 0 < tickerDuration interval) :
    Moves cfg interval s .newTicker { s with crashed := true }
  | tick (hk : s.kicker = .select) : Moves cfg interval s .tick { s with kicker := .kicking }
  | kick {c : State α} (hk : s.kicker = .kicking)
    (hc : Dispatcher.step cfg s.core .kick = some c) :
    Moves cfg interval s .kick { s with core := c, kicker := .select }
  | receiveStop (hk : s.kicker = .select) (hv : s.kickerStop = true) :
    Moves cfg interval s .receiveStop { s with kicker := .stopping, kickerStop := false }
  | sendStopped (hk : s.kicker = .stopping) (hv : s.kickerStopped = false) :
    Moves cfg interval s .sendStopped { s with kicker := .ended, kickerStopped := true }
  | callStop (hs : s.stopper = .idle) :
    Moves cfg interval s .callStop { s with stopper := .stopKicker }
  | stopKicker (hs : s.stopper = .stopKicker) (hv : s.kickerStop = false) :
    Moves cfg interval s .stopKicker { s with stopper := .awaitKicker, kickerStop := true }
  | awaitKicker (hs : s.stopper = .awaitKicker) (hv : s.kickerStopped = true) :
    Moves cfg interval s .awaitKicker { s with stopper := .sendStop, kickerStopped := false }
  | sendStop {c : State α} (hs : s.stopper = .sendStop)
    (hc : Dispatcher.step cfg s.core .stop = some c) :
    Moves cfg interval s .sendStop { s with core := c, stopper := .awaitLoop }
  | awaitLoop {c : State α} (hs : s.stopper = .awaitLoop)
    (hc : Dispatcher.step cfg s.core .sendStopped = some c) :
    Moves cfg interval s .awaitLoop { s with core := c, stopper := .ready }
  | receive (hs : s.stopper = .ready) :
    Moves cfg interval s .receive { s with stopper := .ended }
  | inner {e : Dispatcher.Event α} {c : State α} (he : rendezvous e = false)
    (hc : Dispatcher.step cfg s.core e = some c) :
    Moves cfg interval s (.inner e) { s with core := c }

variable {cfg : Config} {interval : ℕ} {s t : System α} {e : Event α} {es : List (Event α)}

theorem step_moves (h : step cfg interval s e = some t) :
    s.crashed = false ∧ Moves cfg interval s e t := by
  unfold step at h
  split at h
  · cases h
  · rename_i halive
    refine ⟨by simpa using halive, ?_⟩
    cases e with
    | newTicker =>
      simp only [System.newTicker] at h
      split at h
      · split at h <;> cases h
        · exact .newTicker ‹_› ‹_›
        · exact .crash ‹_› ‹_›
      · cases h
    | tick =>
      simp only at h
      split at h <;> cases h
      exact .tick ‹_›
    | kick =>
      simp only [System.kick] at h
      split at h
      · obtain ⟨c, hc, rfl⟩ := Option.map_eq_some_iff.mp h
        exact .kick ‹_› hc
      · cases h
    | receiveStop =>
      simp only [System.receiveStop] at h
      split at h <;> cases h
      rename_i hv
      exact .receiveStop hv.1 hv.2
    | sendStopped =>
      simp only [System.sendStopped] at h
      split at h <;> cases h
      rename_i hv
      exact .sendStopped hv.1 hv.2
    | callStop =>
      simp only at h
      split at h <;> cases h
      exact .callStop ‹_›
    | stopKicker =>
      simp only [System.stopKicker] at h
      split at h <;> cases h
      rename_i hv
      exact .stopKicker hv.1 hv.2
    | awaitKicker =>
      simp only [System.awaitKicker] at h
      split at h <;> cases h
      rename_i hv
      exact .awaitKicker hv.1 hv.2
    | sendStop =>
      simp only [System.sendStop] at h
      split at h
      · obtain ⟨c, hc, rfl⟩ := Option.map_eq_some_iff.mp h
        exact .sendStop ‹_› hc
      · cases h
    | awaitLoop =>
      simp only [System.awaitLoop] at h
      split at h
      · obtain ⟨c, hc, rfl⟩ := Option.map_eq_some_iff.mp h
        exact .awaitLoop ‹_› hc
      · cases h
    | receive =>
      simp only at h
      split at h <;> cases h
      exact .receive ‹_›
    | inner e =>
      simp only [System.inner] at h
      split at h
      · cases h
      · rename_i he
        obtain ⟨c, hc, rfl⟩ := Option.map_eq_some_iff.mp h
        exact .inner (by simpa using he) hc

end System

section Core

variable {α : Type} {cfg : Config} {s t : State α} {e : Event α} {es : List (Event α)}

inductive Stage
  | serving
  | draining
  | ended
  deriving DecidableEq

def LoopPc.stage : LoopPc → Stage
  | .cancelling | .waiting | .stopping => .draining
  | .ended => .ended
  | _ => .serving

theorem stage_step (he : System.rendezvous e = false) (h : step cfg s e = some t) :
    t.loop.stage = s.loop.stage := by
  cases step_moves h with
  | kick | stop | sendStopped => cases he
  | limiter | limiterError | work | complete | release | finish => rfl
  | request hl _ | full hl _ | popError hl | popReturn hl _ _ _ | sent hl | send hl _
  | receive hl _ | acquire hl _ | spawn hl | cancel hl | wait hl _ => rw [hl]; rfl

def Drained (s : State α) : Prop := s.loop = .stopping ∨ s.loop = .ended → s.wg = 0

theorem Drained.step (hd : Drained s) (h : step cfg s e = some t) : Drained t := by
  cases step_moves h with
  | wait _ hw => exact fun _ ↦ hw
  | sendStopped hl => exact fun _ ↦ hd (.inl hl)
  | limiter | limiterError | work | complete | release => exact hd
  | finish _ hw =>
    intro hl
    have hzero := hd hl
    omega
  | _ => exact nofun

theorem Run.drained (h : Run cfg es s) : Drained s :=
  invariant Drained (fun _ _ _ hd h ↦ hd.step h) h nofun

theorem Run.workers_ended (h : Run cfg es s) (hl : s.loop = .ended) :
    ∀ w ∈ s.workers, w.pc = .ended := by
  intro w hw
  have hwg := h.bounded.wg_eq
  rw [h.drained (.inr hl), hl] at hwg
  have hlive : ¬ w.live := List.countP_eq_zero.mp (by omega) w hw
  unfold Worker.live at hlive
  split at hlive
  · assumption
  · exact absurd rfl hlive

/-- A worker works until its own call of `Work` returns. -/
theorem working_step {k j : ℕ} (h : step cfg s e = some t) (hk : s.workers[k]? = some ⟨j, .working⟩)
    (he : e ≠ .work k) : t.workers[k]? = some ⟨j, .working⟩ := by
  have hset {k' : ℕ} {w : Worker} (hne : k' ≠ k) :
      (s.workers.set k' w)[k]? = some ⟨j, .working⟩ := by
    rw [List.getElem?_set_ne hne, hk]
  have hother {k' j' : ℕ} {pc : WorkerPc} (hk' : s.workers[k']? = some ⟨j', pc⟩)
      (hpc : pc ≠ .working) : k' ≠ k := by
    rintro rfl
    rw [hk] at hk'
    cases hk'
    exact hpc rfl
  cases step_moves h with
  | work => exact hset fun heq ↦ he (by rw [heq])
  | limiter hk' | limiterError hk' | complete hk' | release hk' _ | finish hk' _ =>
    exact hset (hother hk' (by simp))
  | spawn =>
    rw [List.getElem?_append_left (List.getElem?_eq_some_iff.mp hk).1]
    exact hk
  | _ => exact hk

theorem advance_eq {k : ℕ} {w : Worker} {before after : WorkerPc} {f : ℕ → State α → State α}
    (hk : s.workers[k]? = some w) (hpc : w.pc = before) :
    advance s k before after f =
      some (f w.job { s with workers := s.workers.set k ⟨w.job, after⟩ }) := by
  simp only [advance, hk]
  rw [if_pos hpc]

theorem worker_progress (hb : Bounded cfg s) (h : 0 < s.workers.countP Worker.live) :
    ∃ e t, System.rendezvous e = false ∧ step cfg s e = some t := by
  obtain ⟨w, hw, hlive⟩ := List.countP_pos_iff.mp h
  obtain ⟨k, hk⟩ := List.getElem?_of_mem hw
  cases hpc : w.pc with
  | limiter => exact ⟨.limiter k true, _, rfl, by simp only [step]; exact advance_eq hk hpc⟩
  | working => exact ⟨.work k, _, rfl, by simp only [step]; exact advance_eq hk hpc⟩
  | completing => exact ⟨.complete k, _, rfl, by simp only [step]; exact advance_eq hk hpc⟩
  | releasing =>
    have hrun : 0 < s.workers.countP Worker.running :=
      List.countP_pos_iff.mpr ⟨w, hw, by simp only [Worker.running, hpc]⟩
    have hsem := hb.sem_eq
    exact ⟨.release k, _, rfl, (if_pos (by omega)).trans (advance_eq hk hpc)⟩
  | finishing =>
    have hwg := hb.wg_eq
    exact ⟨.finish k, _, rfl, (if_pos (by omega)).trans (advance_eq hk hpc)⟩
  | ended =>
    simp only [Worker.live, hpc] at hlive
    cases hlive

/-- The loop goes on by itself, or a worker does, unless the loop waits for a
kick, a stop or the stopper. -/
theorem loop_progress (hmax : 1 ≤ cfg.maxWorkers) (hb : Bounded cfg s) (hselect : s.loop ≠ .select)
    (hstopping : s.loop ≠ .stopping) (hended : s.loop ≠ .ended) :
    ∃ e t, System.rendezvous e = false ∧ step cfg s e = some t := by
  have hroom := hb.room
  have hsem := hb.sem_eq
  have hwg := hb.wg_eq
  cases hl : s.loop with
  | select => exact absurd hl hselect
  | stopping => exact absurd hl hstopping
  | ended => exact absurd hl hended
  | popJobs =>
    refine ⟨.request, ?_⟩
    simp only [step, request, hl, if_true]
    split <;> exact ⟨_, rfl, rfl⟩
  | popping reqn => exact ⟨.popReturn none, _, rfl, by simp only [step, popReturn, hl]; rfl⟩
  | sending jobs =>
    refine ⟨.send, ?_⟩
    simp only [step, send, hl]
    cases jobs with
    | nil => exact ⟨_, rfl, rfl⟩
    | cons j jobs =>
      rw [hl] at hroom
      simp only [LoopPc.reserved, List.length_cons] at hroom
      exact ⟨_, rfl, if_pos (by omega)⟩
  | acquiring j =>
    by_cases hfree : s.sem < cfg.maxWorkers
    · exact ⟨.acquire, _, rfl, by simp only [step, acquire, hl]; rw [if_pos hfree]⟩
    · refine worker_progress hb ?_
      rw [hl] at hsem
      simp only [LoopPc.tokens] at hsem
      have hle : s.workers.countP Worker.running ≤ s.workers.countP Worker.live :=
        List.countP_mono_left fun w _ hw ↦ by
          unfold Worker.running at hw
          unfold Worker.live
          split at hw <;> simp_all
      omega
  | spawning j => exact ⟨.spawn, _, rfl, by simp only [step, spawn, hl]; rfl⟩
  | cancelling => exact ⟨.cancel, _, rfl, if_pos hl⟩
  | waiting =>
    by_cases hzero : s.wg = 0
    · exact ⟨.wait, _, rfl, if_pos ⟨hl, hzero⟩⟩
    · refine worker_progress hb ?_
      rw [hl] at hwg
      simp only [LoopPc.added] at hwg
      omega

def Worker.weight (w : Worker) : ℕ :=
  match w.pc with
  | .limiter => 5
  | .working => 4
  | .completing => 3
  | .releasing => 2
  | .finishing => 1
  | .ended => 0

/-- A bound for the steps that the loop can take before it is back at its
`select`, or at its end. A job in the buffer counts eight. -/
def LoopPc.weight (cfg : Config) : LoopPc → ℕ
  | .select => 4
  | .popJobs => 7 + 9 * cfg.bufferSize
  | .popping reqn => 6 + 9 * reqn
  | .sending jobs => 5 + 9 * jobs.length
  | .acquiring _ => 11
  | .spawning _ => 10
  | .cancelling => 3
  | .waiting => 2
  | .stopping => 1
  | .ended => 0

def State.weight (cfg : Config) (s : State α) : ℕ :=
  s.loop.weight cfg + 8 * s.jobBuffer.length + (s.workers.map Worker.weight).sum

theorem sum_set {l : List Worker} {k : ℕ} {w : Worker} (h : l[k]? = some w) (w' : Worker) :
    ((l.set k w').map Worker.weight).sum + w.weight = (l.map Worker.weight).sum + w'.weight := by
  obtain ⟨xs, ys, hl, hset⟩ := set_split h w'
  rw [hset, hl]
  simp only [List.map_append, List.map_cons, List.sum_append, List.sum_cons]
  omega

theorem weight_step (h : step cfg s e = some t) (he : e ≠ .kick) :
    t.weight cfg < s.weight cfg := by
  cases step_moves h with
  | kick => exact absurd rfl he
  | request hl _ | full hl _ | popError hl | sent hl | acquire hl _ | stop hl | cancel hl
  | wait hl _ | sendStopped hl =>
    simp only [State.weight, hl, LoopPc.weight, List.length_nil]
    omega
  | popReturn hl _ _ _ =>
    simp only [State.weight, hl, LoopPc.weight, List.length_range']
    omega
  | send hl _ =>
    simp only [State.weight, hl, LoopPc.weight, List.length_cons, List.length_append,
      List.length_nil]
    omega
  | receive hl hj =>
    simp only [State.weight, hl, hj, LoopPc.weight, List.length_cons]
    omega
  | spawn hl =>
    simp only [State.weight, hl, LoopPc.weight, List.map_append, List.map_cons, List.map_nil,
      List.sum_append, List.sum_cons, List.sum_nil, Worker.weight]
    omega
  | @limiter _ j hk =>
    have hsum := sum_set hk ⟨j, .working⟩
    simp only [Worker.weight] at hsum
    simp only [State.weight]
    omega
  | @limiterError _ j hk | @complete _ j hk =>
    have hsum := sum_set hk ⟨j, .releasing⟩
    simp only [Worker.weight] at hsum
    simp only [State.weight]
    omega
  | @work _ j hk =>
    have hsum := sum_set hk ⟨j, .completing⟩
    simp only [Worker.weight] at hsum
    simp only [State.weight]
    omega
  | @release _ j hk _ =>
    have hsum := sum_set hk ⟨j, .finishing⟩
    simp only [Worker.weight] at hsum
    simp only [State.weight]
    omega
  | @finish _ j hk _ =>
    have hsum := sum_set hk ⟨j, .ended⟩
    simp only [Worker.weight] at hsum
    simp only [State.weight]
    omega

theorem step_ended (hl : s.loop = .ended) (hw : ∀ w ∈ s.workers, w.pc = .ended) :
    step cfg s e = none := by
  have hworker {k j : ℕ} {pc : WorkerPc} (hk : s.workers[k]? = some ⟨j, pc⟩) : pc = .ended :=
    hw _ (List.mem_of_getElem? hk)
  cases h : step cfg s e with
  | none => rfl
  | some t =>
    cases step_moves h with
    | limiter hk | limiterError hk | work hk | complete hk | release hk _ | finish hk _ =>
      cases hworker hk
    | kick hl' | request hl' _ | full hl' _ | popError hl' | popReturn hl' _ _ _ | sent hl'
    | send hl' _ | receive hl' _ | acquire hl' _ | spawn hl' | stop hl' | cancel hl' | wait hl' _
    | sendStopped hl' =>
      rw [hl] at hl'
      cases hl'

theorem weight_kick (h : step cfg s .kick = some t) :
    t.weight cfg = s.weight cfg + 3 + 9 * cfg.bufferSize := by
  cases step_moves h with
  | kick hl =>
    simp only [State.weight, hl, LoopPc.weight]
    omega

end Core

namespace System

variable {α : Type} {cfg : Config} {interval : ℕ} {s t : System α} {e : Event α}
  {es : List (Event α)}

theorem Run.core (h : Run cfg interval es s) : ∃ es', Dispatcher.Run cfg es' s.core := by
  have hmore {xs : List (Dispatcher.Event α)} {c d : State α} {e : Dispatcher.Event α}
      (hxs : Dispatcher.Run cfg xs c) (hd : Dispatcher.step cfg c e = some d) :
      ∃ es', Dispatcher.Run cfg es' d :=
    ⟨xs ++ [e], exec_snoc.mpr ⟨c, hxs, hd⟩⟩
  refine invariant (fun s : System α ↦ ∃ es', Dispatcher.Run cfg es' s.core) ?_ h ⟨[], rfl⟩
  rintro u e v ⟨xs, hxs⟩ hv
  cases (step_moves hv).2 with
  | kick _ hc | sendStop _ hc | awaitLoop _ hc | inner _ hc => exact hmore hxs hc
  | _ => exact ⟨xs, hxs⟩

theorem alive_step (hd : 0 < tickerDuration interval) (h : step cfg interval s e = some t) :
    t.crashed = false := by
  obtain ⟨halive, hm⟩ := step_moves h
  cases hm with
  | crash _ hneg => exact absurd hd hneg
  | _ => exact halive

theorem Run.alive (hd : 0 < tickerDuration interval) (h : Run cfg interval es s) :
    s.crashed = false :=
  invariant (fun s ↦ s.crashed = false) (fun _ _ _ _ h ↦ alive_step hd h) h rfl

def polling : KickerPc → Bool
  | .starting | .select | .kicking => true
  | .stopping | .ended => false

inductive Phase : KickerPc → Bool → Bool → StopperPc → Stage → Prop
  | idle {k : KickerPc} (hk : polling k) : Phase k false false .idle .serving
  | called {k : KickerPc} (hk : polling k) : Phase k false false .stopKicker .serving
  | asked {k : KickerPc} (hk : polling k) : Phase k true false .awaitKicker .serving
  | stopping : Phase .stopping false false .awaitKicker .serving
  | stopped : Phase .ended false true .awaitKicker .serving
  | sending : Phase .ended false false .sendStop .serving
  | draining : Phase .ended false false .awaitLoop .draining
  | ready : Phase .ended false false .ready .ended
  | closed : Phase .ended false false .ended .ended

namespace Phase

variable {k k' : KickerPc} {a b : Bool} {p : StopperPc} {l : Stage}

theorem poll (h : Phase k a b p l) (hk : polling k) (hk' : polling k') : Phase k' a b p l := by
  cases h with
  | idle => exact .idle hk'
  | called => exact .called hk'
  | asked => exact .asked hk'
  | _ => cases hk

theorem receiveStop (h : Phase k true b p l) : Phase .stopping false b p l := by
  cases h with
  | asked => exact .stopping

theorem sendStopped (h : Phase .stopping a b p l) : Phase .ended a true p l := by
  cases h with
  | stopping => exact .stopped
  | idle hk | called hk | asked hk => cases hk

theorem callStop (h : Phase k a b .idle l) : Phase k a b .stopKicker l := by
  cases h with
  | idle hk => exact .called hk

theorem stopKicker (h : Phase k a b .stopKicker l) : Phase k true b .awaitKicker l := by
  cases h with
  | called hk => exact .asked hk

theorem awaitKicker (h : Phase k a true p l) : Phase k a false .sendStop l := by
  cases h with
  | stopped => exact .sending

theorem sendStop (h : Phase k a b .sendStop l) : Phase k a b .awaitLoop .draining := by
  cases h with
  | sending => exact .draining

theorem awaitLoop (h : Phase k a b .awaitLoop l) : Phase k a b .ready .ended := by
  cases h with
  | draining => exact .ready

theorem receive (h : Phase k a b .ready l) : Phase k a b .ended l := by
  cases h with
  | ready => exact .closed

theorem ended (h : Phase k a b p l) (hp : p = .ready ∨ p = .ended) : k = .ended ∧ l = .ended := by
  cases h with
  | ready | closed => exact ⟨rfl, rfl⟩
  | _ => rcases hp with hp | hp <;> cases hp

end Phase

def InPhase (s : System α) : Prop :=
  Phase s.kicker s.kickerStop s.kickerStopped s.stopper s.core.loop.stage

theorem InPhase.step (hp : InPhase s) (h : step cfg interval s e = some t) : InPhase t := by
  unfold InPhase at hp ⊢
  cases (step_moves h).2 with
  | newTicker hk _ => exact hp.poll (by rw [hk]; rfl) rfl
  | crash => exact hp
  | tick hk => exact hp.poll (by rw [hk]; rfl) rfl
  | kick hk hc =>
    cases Dispatcher.step_moves hc with
    | kick hl =>
      rw [hl] at hp
      exact hp.poll (by rw [hk]; rfl) rfl
  | receiveStop _ hv =>
    rw [hv] at hp
    exact hp.receiveStop
  | sendStopped hk _ =>
    rw [hk] at hp
    exact hp.sendStopped
  | callStop hs =>
    rw [hs] at hp
    exact hp.callStop
  | stopKicker hs _ =>
    rw [hs] at hp
    exact hp.stopKicker
  | awaitKicker _ hv =>
    rw [hv] at hp
    exact hp.awaitKicker
  | sendStop hs hc =>
    rw [hs] at hp
    cases Dispatcher.step_moves hc with
    | stop => exact hp.sendStop
  | awaitLoop hs hc =>
    rw [hs] at hp
    cases Dispatcher.step_moves hc with
    | sendStopped => exact hp.awaitLoop
  | receive hs =>
    rw [hs] at hp
    exact hp.receive
  | inner he hc =>
    rw [← stage_step he hc] at hp
    exact hp

theorem Run.inPhase (h : Run cfg interval es s) : InPhase s :=
  invariant InPhase (fun _ _ _ hp h ↦ hp.step h) h (Phase.idle rfl)

def kickerWeight (cfg : Config) : KickerPc → ℕ
  | .starting => 4
  | .select => 3
  | .kicking => 7 + 9 * cfg.bufferSize
  | .stopping => 2
  | .ended => 0

def stopperWeight : StopperPc → ℕ
  | .idle => 5
  | .stopKicker => 4
  | .awaitKicker => 3
  | .sendStop => 2
  | .awaitLoop => 1
  | .ready | .ended => 0

def weight (cfg : Config) (s : System α) : ℕ :=
  s.core.weight cfg + kickerWeight cfg s.kicker + stopperWeight s.stopper +
    (if s.crashed then 0 else 1)

theorem weight_step (he : e.internal) (h : step cfg interval s e = some t) :
    t.weight cfg < s.weight cfg := by
  obtain ⟨halive, hm⟩ := step_moves h
  simp only [weight, halive]
  cases hm with
  | tick | callStop | receive => cases he
  | crash => simp
  | newTicker hk _ | receiveStop hk _ | sendStopped hk _ =>
    simp only [hk, halive, kickerWeight]
    omega
  | stopKicker hs _ | awaitKicker hs _ =>
    simp only [hs, halive, stopperWeight]
    omega
  | kick hk hc =>
    have hkick := weight_kick hc
    simp only [hk, halive, kickerWeight]
    omega
  | sendStop hs hc | awaitLoop hs hc =>
    have hlt := Dispatcher.weight_step hc (by simp)
    simp only [hs, halive, stopperWeight]
    omega
  | inner hr hc =>
    have hlt := Dispatcher.weight_step hc (by rintro rfl; cases hr)
    simp only [halive]
    omega

def Ready (s : System α) : Prop := s.stopper = .ready ∨ s.stopper = .ended

theorem inner_progress (halive : s.crashed = false)
    (h : ∃ e t, rendezvous e = false ∧ Dispatcher.step cfg s.core e = some t) :
    ∃ e t, e.internal = true ∧ step cfg interval s e = some t := by
  obtain ⟨e, c, he, hc⟩ := h
  exact ⟨.inner e, { s with core := c }, rfl, by simp [step, System.inner, halive, he, hc]⟩

theorem Run.loop_progress (hmax : 1 ≤ cfg.maxWorkers) (halive : s.crashed = false)
    (h : Run cfg interval es s) (hselect : s.core.loop ≠ .select)
    (hstopping : s.core.loop ≠ .stopping) (hended : s.core.loop ≠ .ended) :
    ∃ e t, e.internal = true ∧ step cfg interval s e = some t := by
  obtain ⟨es', hcore⟩ := h.core
  exact inner_progress halive
    (Dispatcher.loop_progress hmax hcore.bounded hselect hstopping hended)

def Event.outer : Event α → Bool
  | .inner _ => false
  | _ => true

/-- The kicker, the stopper and the loop can take their next common step, unless
the loop is on its way. -/
theorem Run.handshake (hd : 0 < tickerDuration interval) (h : Run cfg interval es s)
    (hcalled : s.stopper ≠ .idle) (hready : ¬ Ready s) :
    (∃ e t, e.outer = true ∧ e.internal = true ∧ step cfg interval s e = some t) ∨
      s.core.loop ≠ .select ∧ s.core.loop ≠ .stopping ∧ s.core.loop ≠ .ended := by
  have halive := h.alive hd
  have hp := h.inPhase
  unfold InPhase at hp
  generalize hk : s.kicker = k at hp
  generalize ha : s.kickerStop = a at hp
  generalize hb : s.kickerStopped = b at hp
  generalize hs : s.stopper = p at hp
  generalize hl : s.core.loop.stage = l at hp
  have hne {l' : LoopPc} (h : l ≠ l'.stage) : s.core.loop ≠ l' := by
    rintro rfl
    exact h hl.symm
  cases hp with
  | idle => exact absurd hs hcalled
  | called =>
    exact .inl ⟨.stopKicker, _, rfl, rfl, by simp [step, System.stopKicker, halive, hs, ha]; rfl⟩
  | asked hpoll =>
    cases k with
    | starting =>
      exact .inl ⟨.newTicker, _, rfl, rfl, by simp [step, System.newTicker, halive, hk, hd]; rfl⟩
    | select =>
      exact .inl ⟨.receiveStop, _, rfl, rfl, by
        simp [step, System.receiveStop, halive, hk, ha]; rfl⟩
    | kicking =>
      by_cases hselect : s.core.loop = .select
      · exact .inl ⟨.kick, _, rfl, rfl, by
          simp [step, System.kick, Dispatcher.step, fromSelect, halive, hk, hselect]; rfl⟩
      · exact .inr ⟨hselect, hne (by decide), hne (by decide)⟩
    | stopping | ended => cases hpoll
  | stopping =>
    exact .inl ⟨.sendStopped, _, rfl, rfl, by
      simp [step, System.sendStopped, halive, hk, hb]; rfl⟩
  | stopped =>
    exact .inl ⟨.awaitKicker, _, rfl, rfl, by
      simp [step, System.awaitKicker, halive, hs, hb]; rfl⟩
  | sending =>
    by_cases hselect : s.core.loop = .select
    · exact .inl ⟨.sendStop, _, rfl, rfl, by
        simp [step, System.sendStop, Dispatcher.step, fromSelect, halive, hs, hselect]; rfl⟩
    · exact .inr ⟨hselect, hne (by decide), hne (by decide)⟩
  | draining =>
    by_cases hstopping : s.core.loop = .stopping
    · exact .inl ⟨.awaitLoop, _, rfl, rfl, by
        simp [step, System.awaitLoop, Dispatcher.step, Dispatcher.sendStopped, halive, hs,
          hstopping]
        rfl⟩
    · exact .inr ⟨hne (by decide), hstopping, hne (by decide)⟩
  | ready => exact absurd (.inl hs) hready
  | closed => exact absurd (.inr hs) hready

/-- Whatever the other goroutines wait for, one of them can go on. -/
theorem Run.progress (hmax : 1 ≤ cfg.maxWorkers) (hd : 0 < tickerDuration interval)
    (h : Run cfg interval es s) (hcalled : s.stopper ≠ .idle) (hready : ¬ Ready s) :
    ∃ e t, e.internal = true ∧ step cfg interval s e = some t := by
  rcases h.handshake hd hcalled hready with ⟨e, t, -, he, ht⟩ | ⟨hselect, hstopping, hended⟩
  · exact ⟨e, t, he, ht⟩
  · exact h.loop_progress hmax (h.alive hd) hselect hstopping hended

theorem Run.ready_ended (h : Run cfg interval es s) (hready : Ready s) :
    s.kicker = .ended ∧ s.core.loop = .ended := by
  obtain ⟨hk, hl⟩ := h.inPhase.ended hready
  refine ⟨hk, ?_⟩
  cases hloop : s.core.loop with
  | ended => rfl
  | _ => rw [hloop] at hl; cases hl

theorem Run.workers_ended (h : Run cfg interval es s) (hready : Ready s) :
    ∀ w ∈ s.core.workers, w.pc = .ended := by
  obtain ⟨es', hcore⟩ := h.core
  exact hcore.workers_ended (h.ready_ended hready).2

theorem Run.core_fixed (h : Run cfg interval es s) (hready : Ready s) {es' : List (Event α)}
    (h' : exec (step cfg interval) s es' = some t) : t.core = s.core := by
  refine invariant (fun t : System α ↦ t.core = s.core) ?_ h' rfl
  intro u e v hu hv
  have hnone (f : Dispatcher.Event α) : Dispatcher.step cfg u.core f = none := by
    rw [hu]
    exact step_ended (h.ready_ended hready).2 (h.workers_ended hready)
  cases (step_moves hv).2 with
  | kick _ hc | sendStop _ hc | awaitLoop _ hc | inner _ hc =>
    rw [hnone] at hc
    cases hc
  | _ => exact hu

theorem working_step {k j : ℕ} (h : step cfg interval s e = some t)
    (hk : s.core.workers[k]? = some ⟨j, .working⟩) (he : e ≠ .inner (.work k)) :
    t.core.workers[k]? = some ⟨j, .working⟩ := by
  cases (step_moves h).2 with
  | kick _ hc | sendStop _ hc | awaitLoop _ hc => exact Dispatcher.working_step hc hk (by simp)
  | inner _ hc => exact Dispatcher.working_step hc hk fun heq ↦ he (by rw [heq])
  | _ => exact hk

structure ShutsDown (cfg : Config) (interval : ℕ) (s : System α) : Prop where
  progress : s.stopper ≠ .idle → ¬ Ready s →
    ∃ e t, e.internal = true ∧ step cfg interval s e = some t
  bounded : ∀ es t, exec (step cfg interval) s es = some t → (∀ e ∈ es, e.internal = true) →
    es.length ≤ s.weight cfg
  ended : Ready s → s.kicker = .ended ∧ ∀ w ∈ s.core.workers, w.pc = .ended
  quiet : Ready s → ∀ es t, exec (step cfg interval) s es = some t →
    t.core.pops = s.core.pops ∧ t.core.calls = s.core.calls

/-- The shutdown protocol completes, provided that the kicker gets its ticker. -/
theorem shutdown (hmax : 1 ≤ cfg.maxWorkers) (hd : 0 < tickerDuration interval)
    (h : Run cfg interval es s) : ShutsDown cfg interval s where
  progress := h.progress hmax hd
  bounded _ _ h' hes := length_le_weight (weight cfg) (fun e he _ _ ↦ weight_step (hes e he)) h'
  ended hready := ⟨(h.ready_ended hready).1, h.workers_ended hready⟩
  quiet hready _ _ h' := by
    rw [h.core_fixed hready h']
    exact ⟨rfl, rfl⟩

def busy : List (Event Unit) :=
  [.newTicker, .tick, .kick, .inner .request, .inner (.popReturn (some [(), ()])), .inner .send,
    .inner .send, .inner .send, .inner .receive, .inner .acquire, .inner .spawn,
    .inner (.limiter 0 true), .inner .receive, .tick, .callStop, .stopKicker]

theorem shutdown_busy : ∃ s : System Unit, Run ⟨2, 1⟩ 100 busy s ∧
    (s.kicker = .kicking ∧ s.core.loop = .acquiring 1 ∧ s.core.workers = [⟨0, .working⟩]) ∧
    ShutsDown ⟨2, 1⟩ 100 s := by
  obtain ⟨s, h, hs⟩ := Option.map_eq_some_iff.mp
    (show (exec (step ⟨2, 1⟩ 100) .initial busy).map
      (fun s ↦ (s.kicker, s.core.loop, s.core.workers)) =
        some (.kicking, .acquiring 1, [⟨0, .working⟩]) by decide +kernel)
  simp only [Prod.mk.injEq] at hs
  exact ⟨s, h, hs, shutdown (by decide) (by decide) h⟩

/-- A kicker without an interval takes the process down, with `Stop` waiting. -/
theorem zero_interval_crashes : ∃ s : System Unit, Run ⟨2, 1⟩ 0 [.callStop, .newTicker] s ∧
    s.stopper ≠ .idle ∧ ¬ Ready s ∧ ∀ e, step ⟨2, 1⟩ 0 s e = none :=
  ⟨{ (initial : System Unit) with stopper := .stopKicker, crashed := true }, rfl, nofun,
    by simp [Ready], fun _ ↦ rfl⟩

end System

end Fireworq.Dispatcher
