import Fireworq.Dispatcher.Shutdown

namespace Fireworq.Dispatcher

open Execution

/-- `limiter.Wait` fails at once if a single event exceeds the burst. -/
def refuses (maxBurstSize : ℕ) : Bool := decide (GoInt.int64 maxBurstSize < 1)

def grants {α : Type} : Event α → Bool
  | .limiter _ true => true
  | _ => false

section Core

variable {α : Type} {cfg : Config} {maxBurstSize : ℕ} {s t : State α} {e : Event α}
  {es : List (Event α)}

/-- With a finite rate, `limiter.Wait` returns when it is granted a token or when
the context is cancelled. -/
def admits (maxBurstSize : ℕ) (s : State α) : Event α → Bool
  | .limiter _ true => !refuses maxBurstSize
  | .limiter _ false => refuses maxBurstSize || s.cancelled
  | _ => true

def LoopPc.cancels : LoopPc → Bool
  | .waiting | .stopping | .ended => true
  | _ => false

theorem cancels_step (hc : s.cancelled = s.loop.cancels) (h : step cfg s e = some t) :
    t.cancelled = t.loop.cancels := by
  cases step_moves h with
  | cancel => rfl
  | limiter | limiterError | work | complete | release | finish => exact hc
  | kick hl | request hl _ | full hl _ | popError hl | popReturn hl _ _ _ | sent hl | send hl _
  | receive hl _ | acquire hl _ | spawn hl | stop hl | wait hl _ | sendStopped hl =>
    rw [hl] at hc
    exact hc

theorem Run.cancels (h : Run cfg es s) : s.cancelled = s.loop.cancels :=
  invariant (fun s ↦ s.cancelled = s.loop.cancels) (fun _ _ _ ↦ cancels_step) h rfl

def Idle (s : State α) : Prop := ∀ w ∈ s.workers, w.pc ≠ .working ∧ w.pc ≠ .completing

def Worker.waits (w : Worker) : Bool := w.pc = .limiter

/-- The loop has taken a job from the buffer, and every slot of the semaphore
belongs to a worker that waits for the rate limiter. -/
structure Blocked (cfg : Config) (maxBurstSize : ℕ) (s : State α) : Prop where
  limited : refuses maxBurstSize = false
  taken : ∃ j, s.loop = .acquiring j
  full : s.workers.countP Worker.waits = cfg.maxWorkers

theorem Idle.set {k j : ℕ} {pc : WorkerPc} (hi : Idle s) (hw : pc ≠ .working)
    (hc : pc ≠ .completing) (ht : t.workers = s.workers.set k ⟨j, pc⟩) : Idle t := by
  intro w hmem
  rw [ht] at hmem
  rcases List.mem_or_eq_of_mem_set hmem with hmem | rfl
  · exact hi w hmem
  · exact ⟨hw, hc⟩

/-- Without a token the workers that wait cannot begin to work. -/
theorem Idle.step (hi : Idle s) (he : grants e = false) (h : step cfg s e = some t) :
    Idle t ∧ t.calls = s.calls := by
  have hat {k j : ℕ} {pc : WorkerPc} (hk : s.workers[k]? = some ⟨j, pc⟩) :
      pc ≠ .working ∧ pc ≠ .completing := hi ⟨j, pc⟩ (List.mem_of_getElem? hk)
  cases step_moves h with
  | limiter => cases he
  | work hk => exact absurd rfl (hat hk).1
  | complete hk => exact absurd rfl (hat hk).2
  | limiterError | release | finish => exact ⟨hi.set (by simp) (by simp) rfl, rfl⟩
  | spawn =>
    refine ⟨fun w hw ↦ ?_, rfl⟩
    rcases List.mem_append.mp hw with hw | hw
    · exact hi w hw
    · rw [List.mem_singleton.mp hw]
      exact ⟨by simp, by simp⟩
  | _ => exact ⟨hi, rfl⟩

theorem waits_le_running (l : List Worker) : l.countP Worker.waits ≤ l.countP Worker.running :=
  List.countP_mono_left fun w _ hw ↦ by
    simp only [Worker.waits, decide_eq_true_eq] at hw
    simp only [Worker.running, hw]

theorem Bounded.waits_le (hb : Bounded cfg s) : s.workers.countP Worker.waits ≤ cfg.maxWorkers := by
  have hle := waits_le_running s.workers
  have hsem := hb.sem_eq
  have hmax := hb.sem_le
  omega

theorem waits_set {l : List Worker} {k j : ℕ} {pc pc' : WorkerPc} (hk : l[k]? = some ⟨j, pc⟩)
    (hpc : pc' ≠ .limiter) :
    (l.set k ⟨j, pc'⟩).countP Worker.waits + (if pc = .limiter then 1 else 0) =
      l.countP Worker.waits := by
  have hset := countP_set Worker.waits hk ⟨j, pc'⟩
  simpa [Worker.waits, hpc] using hset

theorem waits_set_of_ne {l : List Worker} {k j : ℕ} {pc pc' : WorkerPc}
    (hk : l[k]? = some ⟨j, pc⟩) (hpc : pc ≠ .limiter) (hpc' : pc' ≠ .limiter) :
    (l.set k ⟨j, pc'⟩).countP Worker.waits = l.countP Worker.waits := by
  have hset := waits_set hk hpc'
  rwa [if_neg hpc] at hset

theorem unblocked_step (hb : Bounded cfg s) (hn : ¬ Blocked cfg maxBurstSize s)
    (he : grants e = false) (hr : e ≠ .receive) (h : step cfg s e = some t) :
    ¬ Blocked cfg maxBurstSize t := by
  rintro ⟨hlim, ⟨j, hj⟩, hfull⟩
  cases step_moves h with
  | receive => exact hr rfl
  | limiter => cases he
  | limiterError hk =>
    have hle := hb.waits_le
    have hset := waits_set hk (show WorkerPc.releasing ≠ .limiter by simp)
    rw [if_pos rfl] at hset
    change (s.workers.set _ _).countP Worker.waits = _ at hfull
    omega
  | work hk | complete hk | release hk _ | finish hk _ =>
    exact hn ⟨hlim, ⟨j, hj⟩, (waits_set_of_ne hk (by simp) (by simp)).symm.trans hfull⟩
  | _ => cases hj

/-- Nothing but a token moves a blocked loop. -/
theorem Blocked.step (hbl : Blocked cfg maxBurstSize s) (hb : Bounded cfg s)
    (hc : s.cancelled = s.loop.cancels) (ha : admits maxBurstSize s e = true)
    (he : grants e = false) (h : step cfg s e = some t) : Blocked cfg maxBurstSize t := by
  obtain ⟨hlim, ⟨j, hj⟩, hfull⟩ := hbl
  have hsem := hb.sem_eq
  have hmax := hb.sem_le
  simp only [hj, LoopPc.tokens, Nat.add_zero] at hsem
  have hother {k i : ℕ} {pc : WorkerPc} (hk : s.workers[k]? = some ⟨i, pc⟩) (hpc : pc ≠ .limiter)
      (hrun : Worker.running ⟨i, pc⟩ = true) : False := by
    have hle := waits_le_running (s.workers.set k ⟨i, .ended⟩)
    have hwait := waits_set_of_ne hk hpc (show WorkerPc.ended ≠ .limiter by simp)
    have hset := countP_set Worker.running hk ⟨i, .ended⟩
    rw [if_pos hrun, if_neg (by simp [Worker.running])] at hset
    omega
  cases step_moves h with
  | limiter => cases he
  | limiterError =>
    rw [admits, hlim, hc, hj] at ha
    cases ha
  | acquire _ hs =>
    have hle := waits_le_running s.workers
    omega
  | work hk | complete hk | release hk _ => exact (hother hk (by simp) rfl).elim
  | finish hk _ =>
    exact ⟨hlim, ⟨j, hj⟩, (waits_set_of_ne hk (by simp) (by simp)).trans hfull⟩
  | kick hl | request hl _ | full hl _ | popError hl | popReturn hl _ _ _ | sent hl | send hl _
  | receive hl _ | spawn hl | stop hl | cancel hl | wait hl _ | sendStopped hl =>
    rw [hj] at hl
    cases hl

def Drains (cfg : Config) (maxBurstSize : ℕ) (s : State α) : Prop :=
  ∃ e t, System.rendezvous e = false ∧ grants e = false ∧ e ≠ .receive ∧
    admits maxBurstSize s e = true ∧ step cfg s e = some t

theorem worker_drains {w : Worker} (hb : Bounded cfg s) (hi : Idle s) (hw : w ∈ s.workers)
    (hlive : w.live = true)
    (hwait : w.pc = .limiter → refuses maxBurstSize = true ∨ s.cancelled = true) :
    Drains cfg maxBurstSize s := by
  obtain ⟨k, hk⟩ := List.getElem?_of_mem hw
  cases hpc : w.pc with
  | limiter =>
    have hadmits : admits maxBurstSize s (.limiter k false) = true := by
      simpa only [admits, Bool.or_eq_true] using hwait hpc
    exact ⟨.limiter k false, _, rfl, rfl, by simp, hadmits, by
      simp only [step]; exact advance_eq hk hpc⟩
  | working => exact absurd hpc (hi w hw).1
  | completing => exact absurd hpc (hi w hw).2
  | releasing =>
    have hrun : 0 < s.workers.countP Worker.running :=
      List.countP_pos_iff.mpr ⟨w, hw, by simp only [Worker.running, hpc]⟩
    have hsem := hb.sem_eq
    exact ⟨.release k, _, rfl, rfl, by simp, rfl, (if_pos (by omega)).trans (advance_eq hk hpc)⟩
  | finishing =>
    have hpos : 0 < s.workers.countP Worker.live := List.countP_pos_iff.mpr ⟨w, hw, hlive⟩
    have hwg := hb.wg_eq
    exact ⟨.finish k, _, rfl, rfl, by simp, rfl, (if_pos (by omega)).trans (advance_eq hk hpc)⟩
  | ended =>
    simp only [Worker.live, hpc] at hlive
    cases hlive

/-- A full semaphore is not the end if a worker is about to give up its slot. -/
theorem acquiring_drains {j : ℕ} (hmax : 1 ≤ cfg.maxWorkers) (hb : Bounded cfg s) (hi : Idle s)
    (hn : ¬ Blocked cfg maxBurstSize s) (hl : s.loop = .acquiring j)
    (hfull : ¬ s.sem < cfg.maxWorkers) : Drains cfg maxBurstSize s := by
  have hsem := hb.sem_eq
  simp only [hl, LoopPc.tokens, Nat.add_zero] at hsem
  have hlive {w : Worker} (hw : w.running = true) : w.live = true := by
    unfold Worker.running at hw
    unfold Worker.live
    split at hw <;> simp_all
  by_cases href : refuses maxBurstSize = true
  · obtain ⟨w, hw, hrun⟩ := List.countP_pos_iff.mp
      (show 0 < s.workers.countP Worker.running by omega)
    exact worker_drains hb hi hw (hlive hrun) fun _ ↦ .inl href
  · have hne : s.workers.countP Worker.waits ≠ cfg.maxWorkers :=
      fun heq ↦ hn ⟨by simpa using href, ⟨j, hl⟩, heq⟩
    have hle := hb.waits_le
    obtain ⟨w, hw, hrun, hwait⟩ : ∃ w ∈ s.workers, w.running = true ∧ w.pc ≠ .limiter := by
      by_contra hall
      push Not at hall
      have hge : s.workers.countP Worker.running ≤ s.workers.countP Worker.waits :=
        List.countP_mono_left fun w hw hrun ↦ by simpa [Worker.waits] using hall w hw hrun
      omega
    exact worker_drains hb hi hw (hlive hrun) fun hpc ↦ absurd hpc hwait

theorem loop_drains (hmax : 1 ≤ cfg.maxWorkers) (hb : Bounded cfg s) (hi : Idle s)
    (hc : s.cancelled = s.loop.cancels) (hn : ¬ Blocked cfg maxBurstSize s)
    (hselect : s.loop ≠ .select) (hstopping : s.loop ≠ .stopping) (hended : s.loop ≠ .ended) :
    Drains cfg maxBurstSize s := by
  have hroom := hb.room
  have hwg := hb.wg_eq
  cases hl : s.loop with
  | select => exact absurd hl hselect
  | stopping => exact absurd hl hstopping
  | ended => exact absurd hl hended
  | popJobs =>
    refine ⟨.request, ?_⟩
    simp only [step, request, hl, if_true]
    split <;> exact ⟨_, rfl, rfl, by simp, rfl, rfl⟩
  | popping reqn =>
    exact ⟨.popReturn none, _, rfl, rfl, by simp, rfl, by simp only [step, popReturn, hl]; rfl⟩
  | sending jobs =>
    refine ⟨.send, ?_⟩
    simp only [step, send, hl]
    cases jobs with
    | nil => exact ⟨_, rfl, rfl, by simp, rfl, rfl⟩
    | cons j jobs =>
      rw [hl] at hroom
      simp only [LoopPc.reserved, List.length_cons] at hroom
      exact ⟨_, rfl, rfl, by simp, rfl, if_pos (by omega)⟩
  | acquiring j =>
    by_cases hfree : s.sem < cfg.maxWorkers
    · exact ⟨.acquire, _, rfl, rfl, by simp, rfl, by
        simp only [step, acquire, hl]; rw [if_pos hfree]⟩
    · exact acquiring_drains hmax hb hi hn hl hfree
  | spawning j => exact ⟨.spawn, _, rfl, rfl, by simp, rfl, by simp only [step, spawn, hl]; rfl⟩
  | cancelling => exact ⟨.cancel, _, rfl, rfl, by simp, rfl, if_pos hl⟩
  | waiting =>
    by_cases hzero : s.wg = 0
    · exact ⟨.wait, _, rfl, rfl, by simp, rfl, if_pos ⟨hl, hzero⟩⟩
    · simp only [hl, LoopPc.added, Nat.add_zero] at hwg
      obtain ⟨w, hw, hlive⟩ := List.countP_pos_iff.mp
        (show 0 < s.workers.countP Worker.live by omega)
      exact worker_drains hb hi hw hlive fun _ ↦ .inr (by rw [hc, hl]; rfl)

end Core

namespace System

variable {α : Type} {cfg : Config} {interval maxBurstSize : ℕ} {s t : System α} {e : Event α}
  {es : List (Event α)}

def Event.grants : Event α → Bool
  | .inner e => Dispatcher.grants e
  | _ => false

def throttledStep (cfg : Config) (interval maxBurstSize : ℕ) (s : System α) (e : Event α) :
    Option (System α) :=
  match e with
  | .inner e => if admits maxBurstSize s.core e then step cfg interval s (.inner e) else none
  | e => step cfg interval s e

def ThrottledRun (cfg : Config) (interval maxBurstSize : ℕ) (es : List (Event α))
    (s : System α) : Prop :=
  exec (throttledStep cfg interval maxBurstSize) .initial es = some s

def StopsUnthrottled (cfg : Config) (interval maxBurstSize : ℕ) (s : System α) : Prop :=
  ∃ es t, exec (throttledStep cfg interval maxBurstSize) s es = some t ∧
    (∀ e ∈ es, e.internal = true ∧ e.grants = false) ∧
    t.core.cancelled = true ∧ Ready t ∧ t.core.calls = s.core.calls

theorem throttledStep_step (h : throttledStep cfg interval maxBurstSize s e = some t) :
    step cfg interval s e = some t := by
  unfold throttledStep at h
  split at h
  · split at h
    · exact h
    · cases h
  · exact h

theorem throttledStep_admits {e : Dispatcher.Event α}
    (h : throttledStep cfg interval maxBurstSize s (.inner e) = some t) :
    admits maxBurstSize s.core e = true := by
  unfold throttledStep at h
  split at h
  · next heq =>
    cases heq
    split at h
    · assumption
    · cases h
  · next hne => exact absurd rfl (hne _)

theorem ThrottledRun.run (h : ThrottledRun cfg interval maxBurstSize es s) :
    Run cfg interval es s := by
  induction es using List.reverseRecOn generalizing s with
  | nil => exact h
  | append_singleton es e ih =>
    obtain ⟨u, hu, he⟩ := exec_snoc.mp h
    exact exec_snoc.mpr ⟨u, ih hu, throttledStep_step he⟩

theorem called_step (hs : s.stopper ≠ .idle) (h : step cfg interval s e = some t) :
    t.stopper ≠ .idle := by
  cases (step_moves h).2 with
  | callStop | stopKicker | awaitKicker | sendStop | awaitLoop | receive => simp
  | _ => exact hs

structure Unblocked (cfg : Config) (interval maxBurstSize : ℕ) (s : System α) : Prop where
  run : ∃ es, ThrottledRun cfg interval maxBurstSize es s
  called : s.stopper ≠ .idle
  idle : Idle s.core
  unblocked : ¬ Blocked cfg maxBurstSize s.core

theorem Unblocked.step (hu : Unblocked cfg interval maxBurstSize s) (he : e.grants = false)
    (hr : e ≠ .inner .receive) (h : throttledStep cfg interval maxBurstSize s e = some t) :
    Unblocked cfg interval maxBurstSize t ∧ t.core.calls = s.core.calls := by
  obtain ⟨es, hes⟩ := hu.run
  have hrun : ∃ es, ThrottledRun cfg interval maxBurstSize es t :=
    ⟨es ++ [e], exec_snoc.mpr ⟨s, hes, h⟩⟩
  have hstep := throttledStep_step h
  have hcalled := called_step hu.called hstep
  obtain ⟨es', hcore⟩ := hes.run.core
  have hinner {e : Dispatcher.Event α} {c : State α} (he : Dispatcher.grants e = false)
      (hr : e ≠ .receive) (hc : Dispatcher.step cfg s.core e = some c) :
      (Idle c ∧ c.calls = s.core.calls) ∧ ¬ Blocked cfg maxBurstSize c :=
    ⟨hu.idle.step he hc, unblocked_step hcore.bounded hu.unblocked he hr hc⟩
  cases (step_moves hstep).2 with
  | kick _ hc | sendStop _ hc | awaitLoop _ hc =>
    obtain ⟨⟨hi, hcalls⟩, hn⟩ := hinner rfl (by simp) hc
    exact ⟨⟨hrun, hcalled, hi, hn⟩, hcalls⟩
  | inner _ hc =>
    obtain ⟨⟨hi, hcalls⟩, hn⟩ := hinner he (fun heq ↦ hr (by rw [heq])) hc
    exact ⟨⟨hrun, hcalled, hi, hn⟩, hcalls⟩
  | _ => exact ⟨⟨hrun, hcalled, hu.idle, hu.unblocked⟩, rfl⟩

def Event.drains (e : Event α) : Prop :=
  e.internal = true ∧ e.grants = false ∧ e ≠ .inner .receive

theorem Unblocked.loop_drains (hu : Unblocked cfg interval maxBurstSize s)
    (hmax : 1 ≤ cfg.maxWorkers) (halive : s.crashed = false) (hselect : s.core.loop ≠ .select)
    (hstopping : s.core.loop ≠ .stopping) (hended : s.core.loop ≠ .ended) :
    ∃ e t, e.drains ∧ throttledStep cfg interval maxBurstSize s e = some t := by
  obtain ⟨es, hes⟩ := hu.run
  obtain ⟨es', hcore⟩ := hes.run.core
  obtain ⟨e, c, he, hg, hr, ha, hc⟩ := Dispatcher.loop_drains hmax hcore.bounded hu.idle
    hcore.cancels hu.unblocked hselect hstopping hended
  refine ⟨.inner e, { s with core := c }, ⟨rfl, hg, by simpa using hr⟩, ?_⟩
  simp [throttledStep, ha, System.step, System.inner, halive, he, hc]

theorem Unblocked.progress (hu : Unblocked cfg interval maxBurstSize s)
    (hmax : 1 ≤ cfg.maxWorkers) (hd : 0 < tickerDuration interval) (hready : ¬ Ready s) :
    ∃ e t, e.drains ∧ throttledStep cfg interval maxBurstSize s e = some t := by
  obtain ⟨es, hes⟩ := hu.run
  rcases hes.run.handshake hd hu.called hready with
    ⟨e, t, hout, he, ht⟩ | ⟨hselect, hstopping, hended⟩
  · cases e with
    | inner => cases hout
    | _ => exact ⟨_, t, ⟨he, rfl, by simp⟩, ht⟩
  · exact hu.loop_drains hmax (hes.run.alive hd) hselect hstopping hended

theorem Unblocked.stops (hu : Unblocked cfg interval maxBurstSize s) (hmax : 1 ≤ cfg.maxWorkers)
    (hd : 0 < tickerDuration interval) : StopsUnthrottled cfg interval maxBurstSize s := by
  have hprogress (u : System α) (huu : Unblocked cfg interval maxBurstSize u ∧
      u.core.calls = s.core.calls) (hready : ¬ Ready u) :
      ∃ e v, e.drains ∧ throttledStep cfg interval maxBurstSize u e = some v ∧
        (Unblocked cfg interval maxBurstSize v ∧ v.core.calls = s.core.calls) ∧
          v.weight cfg < u.weight cfg := by
    obtain ⟨e, v, he, hv⟩ := huu.1.progress hmax hd hready
    obtain ⟨huv, hcv⟩ := huu.1.step he.2.1 he.2.2 hv
    exact ⟨e, v, he, hv, ⟨huv, hcv.trans huu.2⟩, weight_step he.1 (throttledStep_step hv)⟩
  obtain ⟨es, t, ht, hes, ⟨hut, hcalls⟩, hready⟩ :=
    leads_of_weight _ Ready Event.drains (weight cfg) hprogress ⟨hu, rfl⟩
  refine ⟨es, t, ht, fun e he ↦ ⟨(hes e he).1, (hes e he).2.1⟩, ?_, hready, hcalls⟩
  obtain ⟨xs, hxs⟩ := hut.run
  obtain ⟨ys, hcore⟩ := hxs.run.core
  rw [hcore.cancels, (hxs.run.ready_ended hready).2]
  rfl

/-- Without a ticker the kicker never comes to its `select`. -/
theorem Run.starting (hd : ¬ 0 < tickerDuration interval) (h : Run cfg interval es s) :
    s.kicker = .starting := by
  refine invariant (fun s : System α ↦ s.kicker = .starting) ?_ h rfl
  intro u e v hu hv
  cases (step_moves hv).2 with
  | newTicker _ hpos => exact absurd hpos hd
  | tick hk | kick hk _ | receiveStop hk _ | sendStopped hk _ =>
    rw [hu] at hk
    cases hk
  | _ => exact hu

theorem blocked_exec {es' : List (Event α)} (h : ThrottledRun cfg interval maxBurstSize es s)
    (hbl : Blocked cfg maxBurstSize s.core)
    (ht : exec (throttledStep cfg interval maxBurstSize) s es' = some t)
    (hes' : ∀ e ∈ es', e.grants = false) : Blocked cfg maxBurstSize t.core := by
  induction es' generalizing s es with
  | nil => cases ht; exact hbl
  | cons e es' ih =>
    obtain ⟨u, hu, ht⟩ := exec_cons ht
    rw [List.forall_mem_cons] at hes'
    refine ih (exec_snoc.mpr ⟨s, h, hu⟩) ?_ ht hes'.2
    obtain ⟨xs, hcore⟩ := h.run.core
    cases (step_moves (throttledStep_step hu)).2 with
    | inner _ hc =>
      exact hbl.step hcore.bounded hcore.cancels (throttledStep_admits hu) hes'.1 hc
    | kick _ hc | sendStop _ hc | awaitLoop _ hc =>
      exact hbl.step hcore.bounded hcore.cancels rfl rfl hc
    | _ => exact hbl

/-- A stop needs no token exactly if the kicker gets its ticker and the loop is
not blocked in front of a semaphore all of whose slots wait for tokens. -/
theorem stops_unthrottled_iff (hmax : 1 ≤ cfg.maxWorkers)
    (h : ThrottledRun cfg interval maxBurstSize es s) (hcalled : s.stopper ≠ .idle)
    (hidle : Idle s.core) :
    StopsUnthrottled cfg interval maxBurstSize s ↔
      0 < tickerDuration interval ∧ ¬ Blocked cfg maxBurstSize s.core := by
  constructor
  · rintro ⟨es', t, ht, hes', -, hready, -⟩
    have hrun : ThrottledRun cfg interval maxBurstSize (es ++ es') t :=
      exec_append.mpr ⟨s, h, ht⟩
    obtain ⟨hk, hl⟩ := hrun.run.ready_ended hready
    constructor
    · by_contra hd
      rw [hrun.run.starting hd] at hk
      cases hk
    · intro hbl
      obtain ⟨-, ⟨j, hj⟩, -⟩ := blocked_exec h hbl ht fun e he ↦ (hes' e he).2
      rw [hl] at hj
      cases hj
  · rintro ⟨hd, hn⟩
    exact Unblocked.stops ⟨⟨es, h⟩, hcalled, hidle, hn⟩ hmax hd

/-- Three jobs are popped, one of them has got the only token of the burst and is
done, and the next one waits in `limiter.Wait`. -/
def throttled : List (Event Unit) :=
  [.newTicker, .tick, .kick, .inner .request, .inner (.popReturn (some [(), (), ()])),
    .inner .send, .inner .send, .inner .send, .inner .send, .inner .receive, .inner .acquire,
    .inner .spawn, .inner (.limiter 0 true), .inner (.work 0), .inner (.complete 0),
    .inner (.release 0), .inner (.finish 0), .inner .receive, .inner .acquire, .inner .spawn]

theorem stops_unthrottled_iff_kicking : ∃ s : System Unit,
    ThrottledRun ⟨3, 1⟩ 100 1 (throttled ++ [.tick, .callStop, .stopKicker]) s ∧
      (s.kicker = .kicking ∧ s.core.loop = .select ∧
        s.core.workers = [⟨0, .ended⟩, ⟨1, .limiter⟩]) ∧
      StopsUnthrottled ⟨3, 1⟩ 100 1 s := by
  obtain ⟨s, h, hs⟩ := Option.map_eq_some_iff.mp
    (show (exec (throttledStep ⟨3, 1⟩ 100 1) .initial
      (throttled ++ [.tick, .callStop, .stopKicker])).map
        (fun s ↦ (s.kicker, s.core.loop, s.core.workers, s.stopper)) =
          some (.kicking, .select, [⟨0, .ended⟩, ⟨1, .limiter⟩], .awaitKicker) by decide +kernel)
  simp only [Prod.mk.injEq] at hs
  obtain ⟨hk, hl, hw, hp⟩ := hs
  refine ⟨s, h, ⟨hk, hl, hw⟩, ?_⟩
  refine (stops_unthrottled_iff (by decide) h (by rw [hp]; simp) ?_).mpr ⟨by decide, ?_⟩
  · rw [Idle, hw]
    decide
  · rintro ⟨-, ⟨j, hj⟩, -⟩
    rw [hl] at hj
    cases hj

/-- The loop takes the third job before `Stop` reaches it. From then on nothing
but a token gets the stop any further. -/
theorem token_holds_up_stop : ∃ s : System Unit,
    ThrottledRun ⟨3, 1⟩ 100 1 (throttled ++ [.inner .receive, .callStop, .stopKicker,
      .receiveStop, .sendStopped, .awaitKicker]) s ∧
      s.stopper ≠ .idle ∧ ¬ Ready s ∧ s.core.workers = [⟨0, .ended⟩, ⟨1, .limiter⟩] ∧
      ∀ e t, throttledStep ⟨3, 1⟩ 100 1 s e = some t → e.grants = true := by
  obtain ⟨s, h, hs⟩ := Option.map_eq_some_iff.mp
    (show (exec (throttledStep ⟨3, 1⟩ 100 1) .initial
      (throttled ++ [.inner .receive, .callStop, .stopKicker, .receiveStop, .sendStopped,
        .awaitKicker])).map
        (fun s ↦ (s.kicker, s.core.loop, s.core.workers, s.stopper, s.core.sem)) =
          some (.ended, .acquiring 2, [⟨0, .ended⟩, ⟨1, .limiter⟩], .sendStop, 1) by
            decide +kernel)
  simp only [Prod.mk.injEq] at hs
  obtain ⟨hk, hl, hw, hp, hsem⟩ := hs
  refine ⟨s, h, by rw [hp]; simp, by simp [Ready, hp], hw, fun e t ht ↦ ?_⟩
  have hworker {k j : ℕ} {pc : WorkerPc} (hk : s.core.workers[k]? = some ⟨j, pc⟩) :
      pc = .ended ∨ pc = .limiter := by
    have hmem := List.mem_of_getElem? hk
    simp only [hw, List.mem_cons, Worker.mk.injEq, List.not_mem_nil, or_false] at hmem
    exact hmem.imp And.right And.right
  cases (step_moves (throttledStep_step ht)).2 with
  | newTicker hk' _ | crash hk' _ | tick hk' | kick hk' _ | receiveStop hk' _
  | sendStopped hk' _ =>
    rw [hk] at hk'
    cases hk'
  | callStop hs | stopKicker hs _ | awaitKicker hs _ | awaitLoop hs _ | receive hs =>
    rw [hp] at hs
    cases hs
  | sendStop _ hc =>
    cases Dispatcher.step_moves hc with
    | stop hl' =>
      rw [hl] at hl'
      cases hl'
  | inner _ hc =>
    have ha := throttledStep_admits ht
    obtain ⟨xs, hcore⟩ := (ThrottledRun.run h).core
    cases Dispatcher.step_moves hc with
    | limiter => rfl
    | limiterError =>
      rw [admits, hcore.cancels, hl] at ha
      cases ha
    | acquire _ hs =>
      rw [hsem] at hs
      exact absurd hs (by decide)
    | work hk' | complete hk' | release hk' _ | finish hk' _ =>
      rcases hworker hk' with h' | h' <;> cases h'
    | kick hl' | request hl' _ | full hl' _ | popError hl' | popReturn hl' _ _ _ | sent hl'
    | send hl' _ | receive hl' _ | spawn hl' | stop hl' | cancel hl' | wait hl' _
    | sendStopped hl' =>
      rw [hl] at hl'
      cases hl'

end System

end Fireworq.Dispatcher
