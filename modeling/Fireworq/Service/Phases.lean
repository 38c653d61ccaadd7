import Fireworq.Service.Threads

namespace Fireworq.Service.Lifecycle

open Execution Repository

section Phases

inductive Phase
  | active
  | deactivating
  | deactivated
  | stopping
  | stopped
  deriving DecidableEq

def Phase.next : Phase → Act → Option Phase
  | .active, .push | .active, .pushed _ => some .active
  | .active, .deactivate => some .deactivating
  | .deactivating, .push | .deactivating, .pushed _ => some .deactivating
  | .deactivating, .deactivated => some .deactivated
  | .deactivated, .push | .deactivated, .pushed _ => some .deactivated
  | .deactivated, .stop => some .stopping
  | .stopping, .stopped => some .stopped
  | _, _ => none

def RunningQueue.In (q : RunningQueue) (ph : Phase) : Prop :=
  exec Phase.next .active q.acts = some ph

variable {q : RunningQueue} {ph ph' : Phase} {a : Act}

theorem RunningQueue.In.act (h : q.In ph) (ha : ph.next a = some ph') : (q.act a).In ph' :=
  exec_snoc.mpr ⟨ph, h, ha⟩

theorem RunningQueue.In.unique (h : q.In ph) (h' : q.In ph') : ph = ph' :=
  Option.some.inj (h.symm.trans h')

structure Reached (acts : List Act) (ph : Phase) : Prop where
  deactivate : acts.count .deactivate = if ph = .active then 0 else 1
  deactivated : .deactivated ∈ acts ↔ ph = .deactivated ∨ ph = .stopping ∨ ph = .stopped
  stop : acts.count .stop = if ph = .stopping ∨ ph = .stopped then 1 else 0
  stopped : .stopped ∈ acts ↔ ph = .stopped

theorem RunningQueue.In.reached (h : q.In ph) : Reached q.acts ph := by
  refine history Reached ⟨rfl, by simp, rfl, by simp⟩ (fun acts ph a ph' _ hr hstep ↦ ?_) h
  obtain ⟨h₁, h₂, h₃, h₄⟩ := hr
  unfold Phase.next at hstep
  split at hstep <;> cases hstep <;> constructor <;>
    simp_all [List.count_append]

theorem RunningQueue.In.unstopped (h : q.In ph) : q.unstopped = true ↔ ph ≠ .stopped := by
  simp [RunningQueue.unstopped, h.reached.stopped]

theorem RunningQueue.In.dispatching (h : q.In ph) :
    q.dispatching = true ↔ ph = .active ∨ ph = .deactivating := by
  rw [RunningQueue.dispatching, decide_eq_true_iff, h.reached.deactivated]
  cases ph <;> simp

theorem stopping_exec {acts : List Act} (h : exec Phase.next .stopping acts = some ph) :
    acts = [] ∨ acts = [.stopped] := by
  cases acts with
  | nil => exact .inl rfl
  | cons a acts =>
    obtain ⟨ph₁, ha, h⟩ := exec_cons h
    cases a <;> cases ha
    cases acts with
    | nil => exact .inr rfl
    | cons b acts =>
      obtain ⟨ph₂, hb, -⟩ := exec_cons h
      cases b <;> cases hb

/-- `Stop` comes after the deactivation, and no `Push` comes after `Stop`. -/
theorem RunningQueue.In.stop_split {xs ys : List Act} (h : q.In ph)
    (hq : q.acts = xs ++ .stop :: ys) : .deactivated ∈ xs ∧ (ys = [] ∨ ys = [.stopped]) := by
  rw [RunningQueue.In, hq] at h
  obtain ⟨ph₁, hxs, h⟩ := exec_append.mp h
  obtain ⟨ph₂, hstop, h⟩ := exec_cons h
  have hreached := RunningQueue.In.reached (q := ⟨q.definition, xs⟩) hxs
  cases ph₁ <;> cases hstop
  exact ⟨hreached.deactivated.mpr (.inl rfl), stopping_exec h⟩

end Phases

def Scope.covers (i : ℕ) : Scope → Bool
  | .all => true
  | .one _ j _ _ => i = j

def Scope.phase (scope : Scope) (before during after : Phase) (todo waiting : List ℕ) (i : ℕ) :
    Phase :=
  if i ∈ todo then before
  else if i ∈ waiting then during
  else if scope.covers i then after
  else .active

def Pc.phase (task : Task) (i : ℕ) : Pc → Phase
  | .deactivating todo waiting scope =>
    scope.phase .active .deactivating .deactivated todo waiting i
  | .lockJob | .awaitReaders => if task.wholesale then .deactivated else .active
  | .stopping todo waiting scope => scope.phase .deactivated .stopping .stopped todo waiting i
  | _ => .active

def Pc.fresh : Pc → Option ℕ
  | .storing i _ _ => some i
  | _ => none

def State.phase (v : State) (i : ℕ) : Phase :=
  match v.holder with
  | some th => th.pc.phase th.task i
  | none => .active

def State.fresh (v : State) : Option ℕ := v.holder.bind fun th ↦ th.pc.fresh

/-- A queue in `runningQueues` is there under its own name and in the phase that
`f` gives, and every other queue has been stopped, apart from a fresh one. -/
structure Phases (running : Table ℕ) (queues : List RunningQueue) (fresh : Option ℕ)
    (f : ℕ → Phase) : Prop where
  found : ∀ name i, running.lookup name = some i →
    ∃ q, queues[i]? = some q ∧ q.name = name ∧ q.In (f i)
  others : ∀ i q, queues[i]? = some q → running.lookup q.name = some i ∨
    (fresh = some i ∧ running.lookup q.name = none ∧ q.In .active) ∨ q.In .stopped

section Phases

variable {running : Table ℕ} {queues : List RunningQueue} {fresh : Option ℕ} {f g : ℕ → Phase}
  {name : String} {i : ℕ}

theorem Phases.congr (h : Phases running queues fresh f)
    (hfg : ∀ name i, running.lookup name = some i → g i = f i) :
    Phases running queues fresh g where
  found name i hi := by
    obtain ⟨q, hq, hname, hin⟩ := h.found name i hi
    exact ⟨q, hq, hname, hfg name i hi ▸ hin⟩
  others := h.others

theorem Phases.act {a : Act} {ph : Phase} (h : Phases running queues fresh f)
    (hi : running.lookup name = some i) (ha : (f i).next a = some ph) :
    Phases running (queues.modify i (·.act a)) fresh (Function.update f i ph) where
  found name' j hj := by
    obtain ⟨q, hq, hname, hin⟩ := h.found name' j hj
    by_cases hji : j = i
    · subst hji
      refine ⟨q.act a, ?_, hname, ?_⟩
      · rw [List.getElem?_modify_eq, hq]
        rfl
      · rw [Function.update_self]
        exact hin.act ha
    · refine ⟨q, ?_, hname, ?_⟩
      · rw [List.getElem?_modify_ne _ _ (Ne.symm hji), hq]
      · rwa [Function.update_of_ne hji]
  others j q hq := by
    by_cases hji : j = i
    · subst hji
      obtain ⟨p, hp, hname, -⟩ := h.found name j hi
      rw [List.getElem?_modify_eq, hp] at hq
      cases hq
      exact .inl (hname ▸ hi)
    · rw [List.getElem?_modify_ne _ _ (Ne.symm hji)] at hq
      exact h.others j q hq

theorem Phases.create (h : Phases running queues none f) {d : Queue}
    (hd : running.lookup d.name = none) :
    Phases running (queues ++ [⟨d, []⟩]) (some queues.length) f where
  found name i hi := by
    obtain ⟨q, hq, hname, hin⟩ := h.found name i hi
    refine ⟨q, ?_, hname, hin⟩
    rw [List.getElem?_append_left (List.getElem?_eq_some_iff.mp hq).1, hq]
  others i q hq := by
    rcases Nat.lt_trichotomy i queues.length with hlt | rfl | hgt
    · rw [List.getElem?_append_left hlt] at hq
      rcases h.others i q hq with hr | ⟨hnone, -⟩ | hst
      · exact .inl hr
      · cases hnone
      · exact .inr (.inr hst)
    · rw [List.getElem?_concat_length] at hq
      cases hq
      exact .inr (.inl ⟨rfl, hd, rfl⟩)
    · rw [List.getElem?_eq_none (by simp; omega)] at hq
      cases hq

theorem Phases.store (h : Phases running queues (some i) f) {q : RunningQueue}
    (hq : queues[i]? = some q) (hname : running.lookup q.name = none) (hin : q.In .active)
    (hf : ∀ j, f j = .active) : Phases (running.insert q.name i) queues none f where
  found name' j hj := by
    by_cases hn : name' = q.name
    · rw [hn, AList.lookup_insert] at hj
      cases hj
      exact ⟨q, hq, hn.symm, hf i ▸ hin⟩
    · rw [AList.lookup_insert_ne hn] at hj
      exact h.found name' j hj
  others j p hp := by
    rcases h.others j p hp with hr | ⟨hfresh, -, -⟩ | hst
    · refine .inl ?_
      rw [AList.lookup_insert_ne, hr]
      intro hn
      rw [hn, hname] at hr
      cases hr
    · cases hfresh
      rw [hq] at hp
      cases hp
      exact .inl (AList.lookup_insert _)
    · exact .inr (.inr hst)

theorem Phases.forget {running' : Table ℕ} (h : Phases running queues none f)
    (hsub : ∀ name i, running'.lookup name = some i → running.lookup name = some i)
    (hgone : ∀ name i, running.lookup name = some i → running'.lookup name ≠ some i →
      f i = .stopped) : Phases running' queues none f where
  found name i hi := h.found name i (hsub name i hi)
  others i q hq := by
    rcases h.others i q hq with hr | ⟨hfresh, -, -⟩ | hst
    · by_cases hr' : running'.lookup q.name = some i
      · exact .inl hr'
      · obtain ⟨p, hp, -, hin⟩ := h.found q.name i hr
        rw [hq] at hp
        cases hp
        exact .inr (.inr (hgone _ i hr hr' ▸ hin))
    · cases hfresh
    · exact .inr (.inr hst)

end Phases

structure Covered (running : Table ℕ) (task : Task) (todo waiting : List ℕ) (scope : Scope) :
    Prop where
  nodup : (todo ++ waiting).Nodup
  found : ∀ i ∈ todo ++ waiting, scope.covers i = true ∧ ∃ name, running.lookup name = some i
  wholesale : scope = .all → task.wholesale = true
  one : ∀ name i q rest, scope = .one name i q rest → running.lookup name = some i ∧
    ∀ d ∈ q, d.name = name

def Shape (running : Table ℕ) (queues : List RunningQueue) (task : Task) : Pc → Prop
  | .deactivating todo waiting scope | .stopping todo waiting scope =>
    Covered running task todo waiting scope
  | .creating q _ => running.lookup q.name = none
  | .storing i q _ => queues[i]? = some ⟨q, []⟩ ∧ running.lookup q.name = none
  | .pushing i _ => ∃ name, running.lookup name = some i
  | _ => True

structure Inv (v : State) : Prop where
  phases : Phases v.running v.queues v.fresh v.phase
  shape : ∀ th, v.holder = some th → Shape v.running v.queues th.task th.pc
  inside : ∀ r ∈ v.readers, r.inside = true →
    ∀ th, v.holder = some th → th.pc.exclusive = false
  pushing : ∀ r ∈ v.readers, ∀ i job, r.pc = .pushing i job → v.running.lookup r.name = some i

section Scope

variable {running : Table ℕ} {task : Task} {todo waiting : List ℕ} {scope : Scope} {i : ℕ}
  {before during after : Phase}

theorem Scope.phase_begin (hn : (todo ++ waiting).Nodup) (hi : i ∈ todo) :
    scope.phase before during after (todo.erase i) (i :: waiting) =
      Function.update (scope.phase before during after todo waiting) i during := by
  have htodo := (List.nodup_append.mp hn).1
  funext j
  by_cases hj : j = i
  · subst hj
    rw [Function.update_self, Scope.phase, if_neg htodo.not_mem_erase, if_pos List.mem_cons_self]
  · rw [Function.update_of_ne hj]
    simp only [Scope.phase, List.mem_erase_of_ne hj, List.mem_cons, hj, false_or]

theorem Scope.phase_finish (hn : (todo ++ waiting).Nodup) (hi : i ∈ waiting)
    (hc : scope.covers i = true) :
    scope.phase before during after todo (waiting.erase i) =
      Function.update (scope.phase before during after todo waiting) i after := by
  obtain ⟨-, hwaiting, hdisj⟩ := List.nodup_append.mp hn
  have htodo : i ∉ todo := fun h ↦ hdisj i h i hi rfl
  funext j
  by_cases hj : j = i
  · subst hj
    rw [Function.update_self, Scope.phase, if_neg htodo, if_neg hwaiting.not_mem_erase, if_pos hc]
  · rw [Function.update_of_ne hj]
    simp only [Scope.phase, List.mem_erase_of_ne hj]

theorem Scope.phase_waiting (hn : (todo ++ waiting).Nodup) (hi : i ∈ waiting) :
    scope.phase before during after todo waiting i = during := by
  have htodo : i ∉ todo := fun h ↦ (List.nodup_append.mp hn).2.2 i h i hi rfl
  rw [Scope.phase, if_neg htodo, if_pos hi]

theorem Covered.begin (h : Covered running task todo waiting scope) (hi : i ∈ todo) :
    Covered running task (todo.erase i) (i :: waiting) scope := by
  have hperm : (todo.erase i ++ i :: waiting).Perm (todo ++ waiting) :=
    List.perm_middle.trans ((List.perm_cons_erase hi).symm.append_right waiting)
  exact ⟨hperm.nodup_iff.mpr h.nodup, fun j hj ↦ h.found j (hperm.mem_iff.mp hj), h.wholesale,
    h.one⟩

theorem Covered.finish (h : Covered running task todo waiting scope) :
    Covered running task todo (waiting.erase i) scope := by
  have hsub : (todo ++ waiting.erase i).Sublist (todo ++ waiting) :=
    List.erase_sublist.append_left todo
  exact ⟨h.nodup.sublist hsub, fun j hj ↦ h.found j (hsub.subset hj), h.wholesale, h.one⟩

theorem Covered.single {name : String} {q : Option Queue} {rest : Option (List Queue)}
    (hi : running.lookup name = some i) (hq : ∀ d ∈ q, d.name = name) :
    Covered running task [i] [] (.one name i q rest) where
  nodup := List.nodup_singleton i
  found j hj := by
    cases List.mem_singleton.mp hj
    exact ⟨decide_eq_true rfl, name, hi⟩
  wholesale hs := by cases hs
  one _ _ _ _ hs := by
    cases hs
    exact ⟨hi, hq⟩

end Scope

variable {v v' : State} {task : Task} {pc pc' : Pc} {i : ℕ} {name : String}

theorem mem_all : i ∈ v.all ↔ ∃ name, v.running.lookup name = some i := by
  simp only [State.all, List.mem_map]
  constructor
  · intro ⟨⟨name, j⟩, hmem, hj⟩
    cases hj
    exact ⟨name, AList.mem_lookup_iff.mpr hmem⟩
  · intro ⟨name, hi⟩
    exact ⟨⟨name, i⟩, AList.mem_lookup_iff.mp hi, rfl⟩

/-- A queue is in `runningQueues` once, since it knows its name. -/
theorem Inv.nodup_all (hi : Inv v) : v.all.Nodup := by
  refine (List.NodupKeys.nodup v.running.nodupKeys).map_on fun a ha b hb hab ↦ ?_
  obtain ⟨n, i⟩ := a
  obtain ⟨m, j⟩ := b
  cases hab
  obtain ⟨p, hp, hn, -⟩ := hi.phases.found n i (AList.mem_lookup_iff.mpr ha)
  obtain ⟨q, hq, hm, -⟩ := hi.phases.found m i (AList.mem_lookup_iff.mpr hb)
  rw [hp] at hq
  cases hq
  rw [← hn, ← hm]

theorem Inv.covered_all (hi : Inv v) (ht : task.wholesale = true) :
    Covered v.running task v.all [] .all where
  nodup := by
    rw [List.append_nil]
    exact hi.nodup_all
  found i h := ⟨rfl, mem_all.mp (by simpa using h)⟩
  wholesale _ := ht
  one _ _ _ _ hs := by cases hs

theorem Inv.same (hi : Inv v) (hrun : v'.running = v.running) (hq : v'.queues = v.queues)
    (hfresh : v'.fresh = v.fresh)
    (hph : ∀ name i, v.running.lookup name = some i → v'.phase i = v.phase i)
    (hshape : ∀ th, v'.holder = some th → Shape v.running v.queues th.task th.pc)
    (hinside : ∀ r ∈ v'.readers, r.inside = true →
      ∀ th, v'.holder = some th → th.pc.exclusive = false)
    (hpushing : ∀ r ∈ v'.readers, ∀ i job, r.pc = .pushing i job →
      v.running.lookup r.name = some i) :
    Inv v' where
  phases := by
    rw [hrun, hq, hfresh]
    exact hi.phases.congr hph
  shape := by
    rw [hrun, hq]
    exact hshape
  inside := hinside
  pushing := by
    rw [hrun]
    exact hpushing

theorem Inv.goto (hi : Inv v) (hh : v.holder = some ⟨task, pc⟩) (hfresh : pc'.fresh = pc.fresh)
    (hph : ∀ name i, v.running.lookup name = some i → pc'.phase task i = pc.phase task i)
    (hshape : Shape v.running v.queues task pc')
    (hexcl : pc'.exclusive = true → pc.exclusive = true ∨ ∀ r ∈ v.readers, r.inside = false) :
    Inv (v.goto task pc') := by
  refine hi.same rfl rfl ?_ (fun name i h ↦ ?_) ?_ (fun r hr hin th hth ↦ ?_) hi.pushing
  · simp only [State.fresh, State.goto, hh, Option.bind_some, hfresh]
  · simp only [State.phase, State.goto, hh, hph name i h]
  · intro th hth
    cases hth
    exact hshape
  · cases hth
    rw [← Bool.not_eq_true]
    intro hex
    rcases hexcl hex with hex' | hout
    · rw [hi.inside r hr hin _ hh] at hex'
      cases hex'
    · rw [hout r hr] at hin
      cases hin

theorem Inv.acquire (hi : Inv v) (hh : v.holder = none) (hh' : v'.holder = some ⟨task, pc⟩)
    (hrun : v'.running = v.running) (hq : v'.queues = v.queues)
    (hsub : ∀ r ∈ v'.readers, r ∈ v.readers) (hfresh : pc.fresh = none)
    (hph : ∀ name i, v.running.lookup name = some i → pc.phase task i = .active)
    (hshape : Shape v.running v.queues task pc) (hexcl : pc.exclusive = false) : Inv v' := by
  refine hi.same hrun hq ?_ (fun name i h ↦ ?_) ?_ ?_ fun r hr ↦ hi.pushing r (hsub r hr)
  · simp only [State.fresh, hh, hh', Option.bind_some, Option.bind_none, hfresh]
  · simp only [State.phase, hh, hh', hph name i h]
  · intro th hth
    rw [hh'] at hth
    cases hth
    exact hshape
  · intro _ _ _ th hth
    rw [hh'] at hth
    cases hth
    exact hexcl

theorem Inv.release (hi : Inv v) (hh : v.holder = some ⟨task, pc⟩) (hh' : v'.holder = none)
    (hrun : v'.running = v.running) (hq : v'.queues = v.queues) (hr : v'.readers = v.readers)
    (hfresh : pc.fresh = none) (hph : ∀ i, pc.phase task i = .active) : Inv v' := by
  refine hi.same hrun hq ?_ (fun name i h ↦ ?_) ?_ ?_ (by rw [hr]; exact hi.pushing)
  · simp only [State.fresh, hh, hh', Option.bind_some, Option.bind_none, hfresh]
  · simp only [State.phase, hh, hh', hph]
  · intro th hth
    rw [hh'] at hth
    cases hth
  · intro _ _ _ th hth
    rw [hh'] at hth
    cases hth

theorem Inv.record (hi : Inv v) {a : Act} (ph : Phase) (hname : v.running.lookup name = some i)
    (ha : (v.phase i).next a = some ph) (hrun : v'.running = v.running)
    (hq : v'.queues = v.queues) (hfresh : v'.fresh = v.fresh)
    (hph : v'.phase = Function.update v.phase i ph)
    (hshape : ∀ th, v'.holder = some th →
      Shape v.running (v.queues.modify i (·.act a)) th.task th.pc)
    (hinside : ∀ r ∈ v'.readers, r.inside = true →
      ∀ th, v'.holder = some th → th.pc.exclusive = false)
    (hpushing : ∀ r ∈ v'.readers, ∀ i job, r.pc = .pushing i job →
      v.running.lookup r.name = some i) :
    Inv (v'.record i a) where
  phases := by
    change Phases v'.running (v'.queues.modify i _) v'.fresh v'.phase
    rw [hrun, hq, hfresh, hph]
    exact hi.phases.act hname ha
  shape := by
    change ∀ th, v'.holder = some th → Shape v'.running (v'.queues.modify i _) th.task th.pc
    rw [hrun, hq]
    exact hshape
  inside := hinside
  pushing := by
    change ∀ r ∈ v'.readers, ∀ i job, r.pc = .pushing i job → v'.running.lookup r.name = some i
    rw [hrun]
    exact hpushing

theorem Inv.alter (hi : Inv v) (hh : v.holder = some ⟨task, pc⟩) (hex : pc.exclusive = true)
    {running : Table ℕ} {queues : List RunningQueue}
    (hphases : Phases running queues pc'.fresh fun i ↦ pc'.phase task i)
    (hshape : Shape running queues task pc') :
    Inv { v.goto task pc' with running := running, queues := queues } := by
  have hout : ∀ r ∈ v.readers, r.inside = false := fun r hr ↦ by
    rw [← Bool.not_eq_true]
    intro hin
    rw [hi.inside r hr hin _ hh] at hex
    cases hex
  refine ⟨hphases, ?_, fun r hr hin ↦ ?_, fun r hr i job hp ↦ ?_⟩
  · intro th hth
    cases hth
    exact hshape
  · rw [hout r hr] at hin
    cases hin
  · have hin := hout r hr
    rw [Reader.inside, hp] at hin
    cases hin

theorem phase_eq (hh : v.holder = some ⟨task, pc⟩) : v.phase = fun i ↦ pc.phase task i := by
  funext i
  rw [State.phase, hh]

theorem fresh_eq (hh : v.holder = some ⟨task, pc⟩) : v.fresh = pc.fresh := by
  rw [State.fresh, hh, Option.bind_some]

/-- While readers may get in, `Push` is in order. -/
theorem push_next (hex : ∀ th, v.holder = some th → th.pc.exclusive = false) {a : Act}
    (ha : a = .push ∨ ∃ id, a = .pushed id) (i : ℕ) :
    (v.phase i).next a = some (v.phase i) := by
  have hstop : v.phase i ≠ .stopping ∧ v.phase i ≠ .stopped := by
    unfold State.phase
    split
    · rename_i th hth
      obtain ⟨task, pc⟩ := th
      have hex := hex _ hth
      cases pc with
      | deactivating todo waiting scope =>
        simp only [Pc.phase, Scope.phase]
        split_ifs <;> simp
      | lockJob | awaitReaders =>
        simp only [Pc.phase]
        split_ifs <;> simp
      | _ => cases hex
    · simp
  rcases ha with rfl | ⟨id, rfl⟩ <;> cases hp : v.phase i <;> simp_all [Phase.next]

/-- Only a thread that is alone relies on the acts of a queue. -/
theorem Shape.acts {running : Table ℕ} {queues queues' : List RunningQueue}
    (h : Shape running queues task pc) (hex : pc.exclusive = false) :
    Shape running queues' task pc := by
  cases pc with
  | storing => cases hex
  | _ => exact h

end Fireworq.Service.Lifecycle
