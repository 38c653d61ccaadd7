import Fireworq.Service.Lifecycle

namespace Fireworq.Service.Lifecycle

open Execution Repository
open JobQueue (IncomingJob)

section Acts

variable {cfg : Config} {v v' : State} {e : Event}

def State.returns (v : State) : Event → Option (ℕ × IncomingJob × Option ℕ)
  | .stored id => match v.holder with
    | some ⟨_, .pushing i job⟩ => some (i, job, id)
    | _ => none
  | .pushed k id => match v.readers[k]? with
    | some ⟨_, _, .pushing i job⟩ => some (i, job, id)
    | _ => none
  | _ => none

def State.stops (v : State) : Event → Option ℕ
  | .finish i => match v.holder with
    | some ⟨_, .stopping _ _ _⟩ => some i
    | _ => none
  | _ => none

theorem stops_of_returns {x : ℕ × IncomingJob × Option ℕ} (h : v.returns e = some x) :
    v.stops e = none := by
  cases e with
  | finish => cases h
  | _ => rfl

inductive Grows (v : State) (e : Event) : List RunningQueue → Prop
  | same : Grows v e v.queues
  | start {task : Task} {q : Queue} {rest : Option (List Queue)}
    (hh : v.holder = some ⟨task, .creating q rest⟩) : Grows v e (v.queues ++ [⟨q, []⟩])
  | act {i : ℕ} {a : Act} (hstop : a = .stopped → v.stops e = some i)
    (hpush : ∀ id, a = .pushed id → ∃ job, v.returns e = some (i, job, id)) :
    Grows v e (v.queues.modify i (·.act a))

theorem Advances.grows {task : Task} {pc : Pc} (hh : v.holder = some ⟨task, pc⟩)
    (h : Advances cfg v task pc v') : Grows v e v'.queues := by
  cases h with
  | lockedJob =>
    unfold State.lockedJob
    split
    · split <;> exact .same
    all_goals exact .same
  | startLast =>
    unfold State.initDefaultQueue
    split
    · exact .same
    · split <;> exact .same
  | create => exact .start hh
  | @store i q rest =>
    unfold State.afterPut
    split
    · exact .same
    · split
      · exact .act nofun nofun
      · exact .same
  | _ => exact .same

theorem answered_queues {task : Task} {m : Method} {a : Option Answer}
    (h : v.answered task m a = some v') : v'.queues = v.queues := by
  unfold State.answered at h
  split at h
  · cases h
    unfold State.failed
    split <;> rfl
  · cases h
    rfl
  · cases h
    rfl
  · split at h <;> cases h
    rfl
  · cases h
    rfl
  · cases h
    rfl
  · cases h

theorem step_grows (h : step cfg v e = some v') : Grows v e v'.queues := by
  cases step_cases h with
  | advance hh h => exact h.grows hh
  | answer _ h =>
    rw [answered_queues h]
    exact .same
  | deactivate | stop | deactivated | found => exact .act nofun nofun
  | stopped hh _ =>
    refine .act (fun _ ↦ ?_) nofun
    simp only [State.stops, hh]
  | @stored i job id task hh =>
    refine .act nofun fun id' heq ↦ ⟨job, ?_⟩
    cases heq
    simp only [State.returns, hh]
  | @pushed k i job id r hk hp =>
    refine .act nofun fun id' heq ↦ ⟨job, ?_⟩
    cases heq
    obtain ⟨name, j, pc⟩ := r
    cases hp
    simp only [State.returns, hk]
  | _ => exact .same

/-- The queue at a position, before and after a step. -/
theorem Grows.cases {queues : List RunningQueue} {i : ℕ} {q : RunningQueue} (h : Grows v e queues)
    (hq : queues[i]? = some q) :
    v.queues[i]? = some q ∨
      (i = v.queues.length ∧ q.acts = [] ∧
        ∃ task rest, v.holder = some ⟨task, .creating q.definition rest⟩) ∨
      ∃ p a, v.queues[i]? = some p ∧ q = p.act a ∧ (a = .stopped → v.stops e = some i) ∧
        ∀ id, a = .pushed id → ∃ job, v.returns e = some (i, job, id) := by
  cases h with
  | same => exact .inl hq
  | @start task d rest hh =>
    rcases Nat.lt_trichotomy i v.queues.length with hlt | rfl | hgt
    · rw [List.getElem?_append_left hlt] at hq
      exact .inl hq
    · rw [List.getElem?_concat_length] at hq
      cases hq
      exact .inr (.inl ⟨rfl, rfl, task, rest, hh⟩)
    · rw [List.getElem?_eq_none (by simp; omega)] at hq
      cases hq
  | @act j a hstop hpush =>
    by_cases hij : i = j
    · subst hij
      rw [List.getElem?_modify_eq] at hq
      obtain ⟨p, hp, rfl⟩ := Option.map_eq_some_iff.mp hq
      exact .inr (.inr ⟨p, a, hp, rfl, hstop, hpush⟩)
    · rw [List.getElem?_modify_ne _ _ (Ne.symm hij)] at hq
      exact .inl hq

/-- A job that a queue has accepted after a step was accepted before it, or the
step lets its `Push` return. -/
theorem accepted_step {i : ℕ} {q : RunningQueue} {id : Option ℕ} (h : step cfg v e = some v')
    (hq : v'.queues[i]? = some q) (hid : .pushed id ∈ q.acts) :
    (∃ p, v.queues[i]? = some p ∧ p.definition = q.definition ∧ .pushed id ∈ p.acts) ∨
      ∃ p job, v.queues[i]? = some p ∧ p.definition = q.definition ∧
        v.returns e = some (i, job, id) := by
  rcases (step_grows h).cases hq with hq | ⟨-, hnil, -⟩ | ⟨p, a, hp, rfl, -, hpush⟩
  · exact .inl ⟨q, hq, rfl, hid⟩
  · rw [hnil] at hid
    cases hid
  · rcases List.mem_append.mp hid with hid | hid
    · exact .inl ⟨p, hp, rfl, hid⟩
    · obtain ⟨job, hret⟩ := hpush id (List.mem_singleton.mp hid).symm
      exact .inr ⟨p, job, hp, rfl, hret⟩

theorem Grows.kept {queues : List RunningQueue} {i : ℕ} {q : RunningQueue} (h : Grows v e queues)
    (hq : v.queues[i]? = some q) :
    queues[i]? = some q ∨
      ∃ a, queues[i]? = some (q.act a) ∧ (a = .stopped → v.stops e = some i) := by
  cases h with
  | same => exact .inl hq
  | start =>
    rw [List.getElem?_append_left (List.getElem?_eq_some_iff.mp hq).1]
    exact .inl hq
  | @act j a hstop hpush =>
    by_cases hij : i = j
    · subst hij
      refine .inr ⟨a, ?_, hstop⟩
      rw [List.getElem?_modify_eq, hq]
      rfl
    · rw [List.getElem?_modify_ne _ _ (Ne.symm hij)]
      exact .inl hq

variable {i : ℕ} {q : RunningQueue}

theorem unstopped_act {a : Act} :
    (q.act a).unstopped = true ↔ q.unstopped = true ∧ a ≠ .stopped := by
  rw [RunningQueue.unstopped, RunningQueue.unstopped, decide_eq_true_iff, decide_eq_true_iff,
    RunningQueue.act, List.mem_append, List.mem_singleton, not_or]
  exact Iff.and Iff.rfl ne_comm

theorem Inv.found_phase {name : String} (hi : Inv v) (hname : v.running.lookup name = some i)
    (hq : v.queues[i]? = some q) : q.name = name ∧ q.In (v.phase i) := by
  obtain ⟨p, hp, hpn, hin⟩ := hi.phases.found name i hname
  rw [hq] at hp
  cases hp
  exact ⟨hpn, hin⟩

theorem Inv.returns_unstopped {job : IncomingJob} {id : Option ℕ} (hi : Inv v)
    (h : v.returns e = some (i, job, id)) (hq : v.queues[i]? = some q) : q.unstopped = true := by
  unfold State.returns at h
  split at h
  · split at h <;> cases h
    rename_i hh
    obtain ⟨name, hname⟩ : ∃ name, v.running.lookup name = some i := hi.shape _ hh
    have hin := (hi.found_phase hname hq).2
    rw [phase_eq hh] at hin
    exact hin.unstopped.mpr nofun
  · split at h <;> cases h
    rename_i hk
    have hmem := List.mem_of_getElem? hk
    have hname := hi.pushing _ hmem i job rfl
    refine (hi.found_phase hname hq).2.unstopped.mpr fun hph ↦ ?_
    have hnext := push_next (hi.inside _ hmem rfl) (.inl rfl) i
    rw [hph] at hnext
    cases hnext
  · cases h

theorem Inv.running_of_acts {a : Act} (hi : Inv v) (hq : v.queues[i]? = some q)
    (ha : a ∈ q.acts) (hu : q.unstopped = true) : v.running.lookup q.name = some i := by
  rcases hi.located hq hu with hr | ⟨hfresh, -⟩
  · exact hr
  · obtain ⟨⟨task, pc⟩, hh, hpc⟩ := Option.bind_eq_some_iff.mp hfresh
    cases pc with
    | storing j d rest =>
      cases hpc
      have hshape : v.queues[i]? = some ⟨d, []⟩ ∧ v.running.lookup d.name = none := hi.shape _ hh
      rw [hq] at hshape
      cases hshape.1
      cases ha
    | _ => cases hpc

/-- While no operation is in progress, the dispatchers of the queues are running. -/
theorem Inv.dispatching {name : String} (hi : Inv v) (hh : v.holder = none)
    (hname : v.running.lookup name = some i) (hq : v.queues[i]? = some q) :
    q.dispatching = true := by
  have hin := (hi.found_phase hname hq).2
  rw [State.phase, hh] at hin
  exact hin.dispatching.mpr (.inl rfl)

def State.Serves (v : State) (name : String) (i : ℕ) : Prop :=
  v.running.lookup name = some i ∧
    ∃ q, v.queues[i]? = some q ∧ q.name = name ∧ (v.holder = none → q.dispatching = true)

theorem Inv.serves {name : String} (hi : Inv v) (hname : v.running.lookup name = some i) :
    v.Serves name i := by
  obtain ⟨q, hq, hqn, -⟩ := hi.phases.found name i hname
  exact ⟨hname, q, hq, hqn, fun hh ↦ hi.dispatching hh hname hq⟩

end Acts

/-- A driver as the running queues of a service use it. `pushes` says by which step
`Push` of a queue gives its answer, `owns` which other steps an unstopped queue may
make, `free` which steps nobody makes, and `closed` that `Stop` has done its work. -/
structure Driver where
  Store : Type
  Op : Type
  initial : Store
  does : Store → Op → Option Store
  pushes : Store → RunningQueue → ℕ → IncomingJob → Option ℕ → Option Op → Bool
  owns : Store → RunningQueue → ℕ → Op → Bool
  free : Op → Bool
  closed : Store → RunningQueue → ℕ → Bool

namespace Driver

structure World (D : Driver) where
  service : State
  store : D.Store

def World.initial (D : Driver) : World D := ⟨.initial, D.initial⟩

inductive Event (D : Driver)
  | service (e : Lifecycle.Event) (op : Option D.Op)
  | own (i : ℕ) (op : D.Op)
  | free (op : D.Op)

def Event.op {D : Driver} : Event D → Option D.Op
  | .service _ op => op
  | .own _ op | .free op => some op

variable (D : Driver) (cfg : Config)

def fits (w : World D) (e : Lifecycle.Event) (op : Option D.Op) : Bool :=
  match w.service.returns e with
  | some (i, job, id) => w.service.queues[i]?.any fun q ↦ D.pushes w.store q i job id op
  | none => op.isNone && (w.service.stops e).all fun i ↦
      w.service.queues[i]?.any fun q ↦ D.closed w.store q i

def step (w : World D) : Event D → Option (World D)
  | .service e op =>
    if D.fits w e op then
      (Lifecycle.step cfg w.service e).bind fun v ↦
        match op with
        | some op => (D.does w.store op).map (⟨v, ·⟩)
        | none => some ⟨v, w.store⟩
    else none
  | .own i op =>
    if w.service.queues[i]?.any fun q ↦ q.unstopped && D.owns w.store q i op then
      (D.does w.store op).map (⟨w.service, ·⟩)
    else none
  | .free op => if D.free op then (D.does w.store op).map (⟨w.service, ·⟩) else none

def Run (es : List (Event D)) (w : World D) : Prop :=
  exec (D.step cfg) (World.initial D) es = some w

inductive Moves (w : World D) : Event D → World D → Prop
  | push {e : Lifecycle.Event} {op : Option D.Op} {v : State} {s : D.Store} {i : ℕ}
    {job : IncomingJob} {id : Option ℕ} {q : RunningQueue}
    (hv : Lifecycle.step cfg w.service e = some v) (hret : w.service.returns e = some (i, job, id))
    (hq : w.service.queues[i]? = some q) (hp : D.pushes w.store q i job id op = true)
    (hs : s = w.store ∧ op = none ∨ ∃ o, op = some o ∧ D.does w.store o = some s) :
    Moves w (.service e op) ⟨v, s⟩
  | quiet {e : Lifecycle.Event} {v : State} (hv : Lifecycle.step cfg w.service e = some v)
    (hret : w.service.returns e = none)
    (hstop : ∀ i, w.service.stops e = some i → ∃ q, w.service.queues[i]? = some q ∧
      D.closed w.store q i = true) : Moves w (.service e none) ⟨v, w.store⟩
  | own {i : ℕ} {op : D.Op} {s : D.Store} {q : RunningQueue}
    (hq : w.service.queues[i]? = some q) (hu : q.unstopped = true)
    (ho : D.owns w.store q i op = true) (hs : D.does w.store op = some s) :
    Moves w (.own i op) ⟨w.service, s⟩
  | free {op : D.Op} {s : D.Store} (hf : D.free op = true) (hs : D.does w.store op = some s) :
    Moves w (.free op) ⟨w.service, s⟩

variable {D cfg} {w w' : World D} {e : Event D} {es : List (Event D)}

theorem step_moves (h : D.step cfg w e = some w') : Moves D cfg w e w' := by
  cases e with
  | service e op =>
    simp only [step] at h
    split at h
    · rename_i hfit
      obtain ⟨v, hv, h⟩ := Option.bind_eq_some_iff.mp h
      unfold fits at hfit
      split at hfit
      · rename_i i job id hret
        obtain ⟨q, hq, hp⟩ := (Option.any_eq_true _ _).mp hfit
        split at h
        · obtain ⟨s, hs, rfl⟩ := Option.map_eq_some_iff.mp h
          exact .push hv hret hq hp (.inr ⟨_, rfl, hs⟩)
        · cases h
          exact .push hv hret hq hp (.inl ⟨rfl, rfl⟩)
      · rename_i hret
        rw [Bool.and_eq_true, Option.isNone_iff_eq_none] at hfit
        obtain ⟨rfl, hstop⟩ := hfit
        cases h
        refine .quiet hv hret fun i hi ↦ ?_
        exact (Option.any_eq_true _ _).mp ((Option.all_eq_true _ _).mp hstop i hi)
    · cases h
  | own i op =>
    simp only [step] at h
    split at h
    · rename_i hown
      obtain ⟨q, hq, ho⟩ := (Option.any_eq_true _ _).mp hown
      rw [Bool.and_eq_true] at ho
      obtain ⟨s, hs, rfl⟩ := Option.map_eq_some_iff.mp h
      exact .own hq ho.1 ho.2 hs
    · cases h
  | free op =>
    simp only [step] at h
    split at h
    · obtain ⟨s, hs, rfl⟩ := Option.map_eq_some_iff.mp h
      exact .free ‹_› hs
    · cases h

theorem Moves.inv (h : Moves D cfg w e w') (hi : Inv w.service) : Inv w'.service := by
  cases h with
  | push hv | quiet hv => exact hi.step hv
  | own | free => exact hi

theorem Run.inv (h : D.Run cfg es w) : Inv w.service :=
  invariant (fun w : World D ↦ Inv w.service) (fun _ _ _ hi hs ↦ (step_moves hs).inv hi) h
    inv_initial

end Driver

def alone {D : Driver} (es : List Event) : List D.Event := es.map (.service · none)

end Fireworq.Service.Lifecycle
