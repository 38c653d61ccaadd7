import Fireworq.Service.Cluster
import Fireworq.Service.Database
import Fireworq.Service.Memory

namespace Fireworq.Service.Lifecycle

open Execution Repository
open JobQueue (IncomingJob)

def Event.pushing : Event → Bool
  | .call _ (some _) | .rlock _ | .lookup _ | .pushed _ _ | .lockPush _ | .advance | .stored _
  | .answer (some (.found (some _))) => true
  | _ => false

/-- A `Push` that has not found its queue gets `mu` before another one has started
it. -/
def Unhurried (v : State) : Event → Prop
  | .lockPush k => ∀ r, v.readers[k]? = some r → v.running.lookup r.name = none
  | _ => True

instance (v : State) : (e : Event) → Decidable (Unhurried v e)
  | .lockPush k =>
    inferInstanceAs (Decidable (∀ r ∈ v.readers[k]?, v.running.lookup r.name = none))
  | .lock _ | .notice | .lockReload | .callStop | .endWatcher | .endRoutingWatcher | .lockStop
  | .advance | .answer _ | .begin _ | .finish _ | .stored _ | .call _ _ | .rlock _ | .lookup _
  | .pushed _ _ => .isTrue trivial

def Pc.Placid (running : Table ℕ) (name : String) : Pc → Prop
  | .lockJob | .awaitReaders => running.lookup name = none
  | .calling m => m = .findByName name ∧ running.lookup name = none
  | .putting q rest | .creating q rest | .storing _ q rest =>
    q.name = name ∧ rest = none ∧ running.lookup name = none
  | .pushing i _ => running.lookup name = some i
  | .returning => True
  | _ => False

def Placid (v : State) : Prop :=
  ∀ th, v.holder = some th → ∃ name job, th.task = .push name job ∧ th.pc.Placid v.running name

def Act.gentle : Act → Bool
  | .push | .pushed _ => true
  | _ => false

structure Extends (v v' : State) : Prop where
  running : ∀ name i, v.running.lookup name = some i → v'.running.lookup name = some i
  kept : ∀ (i : ℕ) (q : RunningQueue), v.queues[i]? = some q →
    ∃ acts, v'.queues[i]? = some ⟨q.definition, q.acts ++ acts⟩
  spared : ∀ (i : ℕ) (q : RunningQueue) a, v'.queues[i]? = some q → a ∈ q.acts →
    a.gentle = false → ∃ p, v.queues[i]? = some p ∧ a ∈ p.acts

section Extends

variable {cfg : Config} {v v' v'' : State} {e : Event} {name : String} {i : ℕ}

theorem Extends.same (hr : v'.running = v.running) (hq : v'.queues = v.queues) : Extends v v' where
  running name i hi := by rwa [hr]
  kept i q hi := ⟨[], by rw [hq, hi, List.append_nil]⟩
  spared i q a hi ha _ := ⟨q, by rwa [hq] at hi, ha⟩

theorem Extends.refl (v : State) : Extends v v := .same rfl rfl

theorem Extends.trans (h : Extends v v') (h' : Extends v' v'') : Extends v v'' where
  running name i hi := h'.running name i (h.running name i hi)
  kept i q hq := by
    obtain ⟨acts, hq⟩ := h.kept i q hq
    obtain ⟨acts', hq⟩ := h'.kept i _ hq
    exact ⟨acts ++ acts', by rw [hq, List.append_assoc]⟩
  spared i q a hq ha hg := by
    obtain ⟨p, hp, ha⟩ := h'.spared i q a hq ha hg
    exact h.spared i p a hp ha hg

theorem Extends.act {a : Act} (hr : v'.running = v.running)
    (hqs : v'.queues = v.queues.modify i (·.act a)) (ha : a.gentle = true) : Extends v v' where
  running name j hj := by rwa [hr]
  kept j q hq := by
    rw [hqs]
    by_cases hij : j = i
    · subst hij
      refine ⟨[a], ?_⟩
      rw [List.getElem?_modify_eq, hq]
      rfl
    · refine ⟨[], ?_⟩
      rw [List.getElem?_modify_ne _ _ (Ne.symm hij), hq, List.append_nil]
  spared j q b hq hb hg := by
    rw [hqs] at hq
    by_cases hij : j = i
    · subst hij
      rw [List.getElem?_modify_eq] at hq
      obtain ⟨p, hp, rfl⟩ := Option.map_eq_some_iff.mp hq
      rcases List.mem_append.mp hb with hb | hb
      · exact ⟨p, hp, hb⟩
      · rw [List.mem_singleton.mp hb, ha] at hg
        cases hg
    · rw [List.getElem?_modify_ne _ _ (Ne.symm hij)] at hq
      exact ⟨q, hq, hb⟩

theorem Extends.start (v : State) (d : Queue) :
    Extends v { v with queues := v.queues ++ [⟨d, []⟩] } where
  running name j hj := hj
  kept j q hq := by
    refine ⟨[], ?_⟩
    dsimp only
    rw [List.getElem?_append_left (List.getElem?_eq_some_iff.mp hq).1, hq, List.append_nil]
  spared j q a hq ha _ := by
    rcases Nat.lt_trichotomy j v.queues.length with hlt | rfl | hgt
    · dsimp only at hq
      rw [List.getElem?_append_left hlt] at hq
      exact ⟨q, hq, ha⟩
    · dsimp only at hq
      rw [List.getElem?_concat_length] at hq
      cases hq
      cases ha
    · dsimp only at hq
      rw [List.getElem?_eq_none (by simp; omega)] at hq
      cases hq

theorem Extends.insert (hn : v.running.lookup name = none) :
    Extends v { v with running := v.running.insert name i } where
  running name' j hj := by
    dsimp only
    rw [AList.lookup_insert_ne, hj]
    intro hname
    rw [hname, hn] at hj
    cases hj
  kept j q hq := ⟨[], by rw [hq, List.append_nil]⟩
  spared j q a hq ha _ := ⟨q, hq, ha⟩

theorem Placid.advance {task : Task} {pc : Pc} (hp : Placid v) (hh : v.holder = some ⟨task, pc⟩)
    (h : Advances cfg v task pc v') : Placid v' ∧ Extends v v' := by
  obtain ⟨name, job, htask, hpc⟩ := hp _ hh
  cases htask
  have hgoto {pc' : Pc} (hpc' : pc'.Placid v.running name) :
      Placid (v.goto (.push name job) pc') ∧ Extends v (v.goto (.push name job) pc') := by
    refine ⟨fun th hth ↦ ?_, .same rfl rfl⟩
    cases hth
    exact ⟨name, job, rfl, hpc'⟩
  cases h with
  | deactivated | deactivatedOne | stopped | replaced | removed | startLast | startNext | remove
  | removeNone => exact hpc.elim
  | lockJob => exact hgoto hpc
  | lockedJob => exact hgoto ⟨rfl, hpc⟩
  | @replace q rest i hi =>
    obtain ⟨rfl, -, hnone⟩ := hpc
    cases hnone.symm.trans hi
  | put => exact hgoto hpc
  | @create q rest =>
    refine ⟨fun th hth ↦ ?_, .trans (.start v q) (.same rfl rfl)⟩
    cases hth
    exact ⟨name, job, rfl, hpc⟩
  | @store i q rest =>
    obtain ⟨rfl, rfl, hnone⟩ := hpc
    refine ⟨fun th hth ↦ ?_, ?_⟩
    · cases hth
      exact ⟨_, job, rfl, AList.lookup_insert _⟩
    · exact (Extends.insert hnone).trans (.act (i := i) rfl rfl rfl)
  | unlock => exact ⟨nofun, .same rfl rfl⟩

theorem Placid.step (hp : Placid v) (he : e.pushing = true) (hu : Unhurried v e)
    (h : step cfg v e = some v') : Placid v' ∧ Extends v v' := by
  cases step_cases h with
  | lock | notice | lockReload | callStop | endWatcher | endRoutingWatcher | lockStop | deactivate
  | stop | deactivated | stopped => cases he
  | advance hh h => exact hp.advance hh h
  | @answer task m a v' hh h =>
    obtain ⟨name, job, htask, rfl, hnone⟩ := hp _ hh
    cases htask
    cases a with
    | none => cases he
    | some a =>
      cases a with
      | found q =>
        cases q with
        | none => cases he
        | some q =>
          simp only [State.answered, Option.ite_none_right_eq_some, Option.some.injEq] at h
          obtain ⟨hname, rfl⟩ := h
          refine ⟨fun th hth ↦ ?_, .same rfl rfl⟩
          cases hth
          exact ⟨name, job, rfl, hname, rfl, hnone⟩
      | _ => cases he
  | @stored i job id task hh =>
    obtain ⟨name, job', htask, -⟩ := hp _ hh
    cases htask
    refine ⟨fun th hth ↦ ?_, .act (i := i) rfl rfl rfl⟩
    cases hth
    exact ⟨name, job', rfl, trivial⟩
  | call | rlock | get | missing => exact ⟨hp, .same rfl rfl⟩
  | @found k i r job hk => exact ⟨hp, .act (i := i) rfl rfl rfl⟩
  | @pushed k i job id r hk => exact ⟨hp, .act (i := i) rfl rfl rfl⟩
  | @lockPush k r job hk hj hh =>
    refine ⟨fun th hth ↦ ?_, .same rfl rfl⟩
    cases hth
    exact ⟨r.name, job, rfl, hu r hk⟩

def Pending (name : String) (v : State) : Prop :=
  (∃ i, v.running.lookup name = some i) ∨ (∃ r ∈ v.readers, r.name = name ∧ r.job ≠ none) ∨
    ∃ job pc, v.holder = some ⟨.push name job, pc⟩ ∧ pc ≠ .returning

theorem mem_set_of_mem {l : List Reader} {k : ℕ} {r r₀ : Reader} (hk : l[k]? = some r₀)
    (hr : r ∈ l) (r₁ : Reader) : r = r₀ ∨ r ∈ l.set k r₁ := by
  obtain ⟨j, hj⟩ := List.getElem?_of_mem hr
  by_cases hjk : j = k
  · subst hjk
    exact .inl (Option.some.inj (hj.symm.trans hk))
  · refine .inr (List.mem_of_getElem? (i := j) ?_)
    rw [List.getElem?_set_ne (Ne.symm hjk), hj]

theorem mem_eraseIdx_of_mem {l : List Reader} {k : ℕ} {r r₀ : Reader} (hk : l[k]? = some r₀)
    (hr : r ∈ l) : r = r₀ ∨ r ∈ l.eraseIdx k := by
  obtain ⟨j, hj⟩ := List.getElem?_of_mem hr
  by_cases hjk : j = k
  · subst hjk
    exact .inl (Option.some.inj (hj.symm.trans hk))
  · exact .inr (List.mem_eraseIdx_iff_getElem?.mpr ⟨j, hjk, hj⟩)

theorem lookup_reader {k : ℕ} {r : Reader} (h : v.lookup k = some v') (hr : r ∈ v.readers)
    (hj : r.job ≠ none) : ∃ r' ∈ v'.readers, r'.name = r.name ∧ r'.job = r.job := by
  obtain ⟨r₀, hk, h⟩ := Option.bind_eq_some_iff.mp h
  have hset (pc : ReaderPc) :
      ∃ r' ∈ v.readers.set k { r₀ with pc := pc }, r'.name = r.name ∧ r'.job = r.job := by
    rcases mem_set_of_mem hk hr { r₀ with pc := pc } with rfl | hr
    · exact ⟨_, List.mem_set (List.getElem?_eq_some_iff.mp hk).1 _, rfl, rfl⟩
    · exact ⟨r, hr, rfl, rfl⟩
  split at h
  · cases h
    split
    · next hjob =>
      rcases mem_eraseIdx_of_mem hk hr with rfl | hr
      · exact absurd hjob hj
      · exact ⟨r, hr, rfl, rfl⟩
    · exact hset _
    · exact hset _
  · cases h

theorem Pending.of_readers (hp : Pending name v) (hr : v'.running = v.running)
    (hh : v'.holder = v.holder)
    (hreaders : ∀ r ∈ v.readers, r.name = name → r.job ≠ none →
      ∃ r' ∈ v'.readers, r'.name = name ∧ r'.job ≠ none) : Pending name v' := by
  rcases hp with hi | ⟨r, hmem, hname, hj⟩ | hth
  · exact .inl (by rwa [hr])
  · exact .inr (.inl (hreaders r hmem hname hj))
  · exact .inr (.inr (by rwa [hh]))

theorem Pending.of_holder {task : Task} {pc pc' : Pc} (hp : Pending name v)
    (hx : ∀ name i, v.running.lookup name = some i → v'.running.lookup name = some i)
    (hreaders : v'.readers = v.readers) (hh : v.holder = some ⟨task, pc⟩)
    (hh' : v'.holder = some ⟨task, pc'⟩)
    (hpc : ∀ job, task = .push name job → pc ≠ .returning →
      pc' ≠ .returning ∨ ∃ i, v'.running.lookup name = some i) : Pending name v' := by
  rcases hp with ⟨i, hi⟩ | hr | ⟨job, pc₀, hth, hne⟩
  · exact .inl ⟨i, hx name i hi⟩
  · exact .inr (.inl (by rwa [hreaders]))
  · cases hh.symm.trans hth
    rcases hpc job rfl hne with hne' | hi
    · exact .inr (.inr ⟨job, pc', hh', hne'⟩)
    · exact .inl hi

theorem Pending.advance {task : Task} {pc : Pc} (hp : Pending name v) (hpl : Placid v)
    (hh : v.holder = some ⟨task, pc⟩) (h : Advances cfg v task pc v') : Pending name v' := by
  have hx := (hpl.advance hh h).2.running
  obtain ⟨name', job', htask, hpc⟩ := hpl _ hh
  cases htask
  cases h with
  | deactivated | deactivatedOne | stopped | replaced | removed | startLast | startNext | remove
  | removeNone => exact hpc.elim
  | lockJob => exact hp.of_holder hx rfl hh rfl fun _ _ _ ↦ .inl nofun
  | lockedJob => exact hp.of_holder hx rfl hh rfl fun _ _ _ ↦ .inl nofun
  | replace => exact hp.of_holder hx rfl hh rfl fun _ _ _ ↦ .inl nofun
  | put => exact hp.of_holder hx rfl hh rfl fun _ _ _ ↦ .inl nofun
  | create => exact hp.of_holder hx rfl hh rfl fun _ _ _ ↦ .inl nofun
  | @store i q rest =>
    obtain ⟨rfl, rfl, -⟩ := hpc
    exact hp.of_holder hx rfl hh rfl fun _ _ _ ↦ .inl nofun
  | unlock =>
    rcases hp with hi | hr | ⟨job, pc, hth, hne⟩
    · exact .inl hi
    · exact .inr (.inl hr)
    · cases hh.symm.trans hth
      exact absurd rfl hne

theorem Pending.step (hp : Pending name v) (hi : Inv v) (hpl : Placid v)
    (he : e.pushing = true) (hu : Unhurried v e) (h : step cfg v e = some v') :
    Pending name v' := by
  have hx := (hpl.step he hu h).2.running
  have hsteps := step_cases h
  cases hsteps with
  | lock | notice | lockReload | callStop | endWatcher | endRoutingWatcher | lockStop | deactivate
  | stop | deactivated | stopped => cases he
  | advance hh h => exact hp.advance hpl hh h
  | @answer task m a v' hh h =>
    obtain ⟨name', job, htask, rfl, -⟩ := hpl _ hh
    cases htask
    cases a with
    | none => cases he
    | some a =>
      cases a with
      | found q =>
        cases q with
        | none => cases he
        | some q =>
          simp only [State.answered, Option.ite_none_right_eq_some, Option.some.injEq] at h
          obtain ⟨-, rfl⟩ := h
          exact hp.of_holder hx rfl hh rfl fun _ _ _ ↦ .inl nofun
      | _ => cases he
  | @stored i job id task hh =>
    obtain ⟨name', job', htask, hlookup⟩ := hpl _ hh
    cases htask
    refine hp.of_holder hx rfl hh rfl fun job'' htask _ ↦ .inr ⟨i, ?_⟩
    cases htask
    exact hlookup
  | call =>
    refine hp.of_readers rfl rfl fun r hr hname hj ↦ ⟨r, ?_, hname, hj⟩
    exact List.mem_append_left _ hr
  | @rlock k r₀ hk =>
    refine hp.of_readers rfl rfl fun r hr hname hj ↦ ?_
    rcases mem_set_of_mem hk hr { r₀ with pc := .reading } with rfl | hr
    · exact ⟨_, List.mem_set (List.getElem?_eq_some_iff.mp hk).1 _, hname, hj⟩
    · exact ⟨r, hr, hname, hj⟩
  | get | found | missing =>
    refine hp.of_readers rfl rfl fun r hr hname hj ↦ ?_
    obtain ⟨r', hr', hname', hj'⟩ := lookup_reader h hr hj
    exact ⟨r', hr', hname'.trans hname, hj' ▸ hj⟩
  | @pushed k i job id r₀ hk hpc =>
    rcases hp with hi' | ⟨r, hr, hname, hj⟩ | hth
    · exact .inl hi'
    · rcases mem_eraseIdx_of_mem hk hr with rfl | hr
      · exact .inl ⟨i, hname ▸ hi.pushing r hr i job hpc⟩
      · exact .inr (.inl ⟨r, hr, hname, hj⟩)
    · exact .inr (.inr hth)
  | @lockPush k r₀ job hk hj₀ hh =>
    rcases hp with hi' | ⟨r, hr, hname, hj⟩ | ⟨job', pc, hth, -⟩
    · exact .inl hi'
    · rcases mem_eraseIdx_of_mem hk hr with rfl | hr
      · exact .inr (.inr ⟨job, .lockJob, by rw [← hname]; rfl, nofun⟩)
      · exact .inr (.inl ⟨r, hr, hname, hj⟩)
    · cases hh.symm.trans hth

end Extends

namespace Driver

variable {D : Driver} {cfg : Config} {name : String} {u w : D.World} {e : D.Event}
  {xs ys : List D.Event}

def Event.pushing : D.Event → Bool
  | .service e _ => e.pushing
  | .own _ _ | .free _ => true

def Unhurried (w : D.World) : D.Event → Prop
  | .service e _ => Lifecycle.Unhurried w.service e
  | .own _ _ | .free _ => True

instance (w : D.World) : (e : D.Event) → Decidable (Unhurried w e)
  | .service e _ => inferInstanceAs (Decidable (Lifecycle.Unhurried w.service e))
  | .own _ _ | .free _ => .isTrue trivial

theorem placid_step (hp : Placid u.service) (he : e.pushing = true) (hu : Unhurried u e)
    (h : D.step cfg u e = some w) : Placid w.service ∧ Extends u.service w.service := by
  cases step_moves h with
  | push hv => exact hp.step he hu hv
  | quiet hv => exact hp.step he hu hv
  | own => exact ⟨hp, .refl _⟩
  | free => exact ⟨hp, .refl _⟩

theorem placid_exec (hp : Placid u.service) (hys : ∀ e ∈ ys, e.pushing = true)
    (hu : Along (D.step cfg) Unhurried u ys) (h : exec (D.step cfg) u ys = some w) :
    Placid w.service ∧ Extends u.service w.service := by
  induction ys generalizing u with
  | nil =>
    cases h
    exact ⟨hp, .refl _⟩
  | cons e ys ih =>
    obtain ⟨t, ht, h⟩ := exec_cons h
    obtain ⟨hp', hx⟩ := placid_step hp (hys e List.mem_cons_self) hu.1 ht
    obtain ⟨hp'', hx'⟩ := ih hp' (fun f hf ↦ hys f (List.mem_cons_of_mem _ hf)) (hu.2 t ht) h
    exact ⟨hp'', hx.trans hx'⟩

theorem pending_step (hn : Pending name u.service) (hi : Inv u.service) (hp : Placid u.service)
    (he : e.pushing = true) (hu : Unhurried u e) (h : D.step cfg u e = some w) :
    Pending name w.service := by
  cases step_moves h with
  | push hv => exact hn.step hi hp he hu hv
  | quiet hv => exact hn.step hi hp he hu hv
  | own => exact hn
  | free => exact hn

theorem pending_call {job : IncomingJob} {op : Option D.Op}
    (h : D.step cfg u (.service (.call name (some job)) op) = some w) :
    Pending name w.service := by
  have hcall {v : State} (hv : Lifecycle.step cfg u.service (.call name (some job)) = some v) :
      Pending name v := by
    cases step_cases hv with
    | call => exact .inr (.inl ⟨_, List.mem_append_right _ List.mem_cons_self, rfl, nofun⟩)
  cases step_moves h with
  | push hv => exact hcall hv
  | quiet hv => exact hcall hv

/-- Once `Push` has been called for the name, its queue is running or going to be
started. -/
theorem pending_exec (hi : Inv u.service) (hp : Placid u.service)
    (hys : ∀ e ∈ ys, e.pushing = true) (hu : Along (D.step cfg) Unhurried u ys)
    (h : exec (D.step cfg) u ys = some w)
    (hn : Pending name u.service ∨ ∃ job op, .service (.call name (some job)) op ∈ ys) :
    Pending name w.service := by
  induction ys generalizing u with
  | nil =>
    cases h
    rcases hn with hn | ⟨job, op, hmem⟩
    · exact hn
    · cases hmem
  | cons e ys ih =>
    obtain ⟨t, ht, h⟩ := exec_cons h
    have he := hys e List.mem_cons_self
    refine ih ((step_moves ht).inv hi) (placid_step hp he hu.1 ht).1
      (fun f hf ↦ hys f (List.mem_cons_of_mem _ hf)) (hu.2 t ht) h ?_
    rcases hn with hn | ⟨job, op, hmem⟩
    · exact .inl (pending_step hn hi hp he hu.1 ht)
    · rcases List.mem_cons.mp hmem with rfl | hmem
      · exact .inl (pending_call ht)
      · exact .inr ⟨job, op, hmem⟩

/-- What calls of `Push` to a name lead to that was not running. -/
structure StartedOnce (cfg : Config) (name : String) (u : D.World) (ys : List D.Event)
    (w : D.World) : Prop where
  unique : ∀ (i j : ℕ) (p q : RunningQueue), u.service.queues.length ≤ i →
    u.service.queues.length ≤ j → w.service.queues[i]? = some p → w.service.queues[j]? = some q →
    p.name = name → q.name = name → i = j
  started : w.service.holder = none → w.service.readers = [] →
    (∃ job op, .service (.call name (some job)) op ∈ ys) →
    ∃ i, u.service.queues.length ≤ i ∧ w.service.Serves name i
  running : ∀ as bs v, ys = as ++ bs → exec (D.step cfg) u as = some v →
    ∀ n i, v.service.running.lookup n = some i → w.service.running.lookup n = some i
  spared : ∀ (i : ℕ) (q : RunningQueue), w.service.queues[i]? = some q →
    .deactivate ∈ q.acts ∨ .stop ∈ q.acts →
    ∃ p, u.service.queues[i]? = some p ∧ (.deactivate ∈ p.acts ∨ .stop ∈ p.acts)

structure Idle (name : String) (v : State) : Prop where
  missing : v.running.lookup name = none
  unlocked : v.holder = none

theorem Idle.placid {v : State} (h : Idle name v) : Placid v := by
  intro th hth
  cases h.unlocked.symm.trans hth

theorem Idle.stopped {v : State} {i : ℕ} {q : RunningQueue} (h : Idle name v) (hi : Inv v)
    (hq : v.queues[i]? = some q) (hname : q.name = name) : q.In .stopped := by
  rcases hi.phases.others i q hq with hr | ⟨hfresh, -⟩ | hin
  · rw [hname, h.missing] at hr
    cases hr
  · rw [State.fresh, h.unlocked] at hfresh
    cases hfresh
  · exact hin

theorem Idle.unstopped {v v' : State} {i : ℕ} {q : RunningQueue} {a : Act} (h : Idle name v)
    (hi : Inv v) (hi' : Inv v') (hx : Extends v v') (hq : v'.queues[i]? = some q)
    (hname : q.name = name) (ha : a ∈ q.acts)
    (hold : ∀ p, v.queues[i]? = some p → a ∉ p.acts) : q.unstopped = true := by
  by_contra hst
  have hmem : .stopped ∈ q.acts := by
    simpa [RunningQueue.unstopped] using hst
  obtain ⟨p, hp, -⟩ := hx.spared i q .stopped hq hmem rfl
  obtain ⟨acts, hq'⟩ := hx.kept i p hp
  cases hq.symm.trans hq'
  obtain ⟨ph, hin⟩ := hi'.in_phase (List.mem_of_getElem? hq)
  have hstopped : p.In .stopped := h.stopped hi hp hname
  obtain ⟨ph', hp', hacts⟩ := exec_append.mp hin
  cases hp'.symm.trans hstopped
  cases acts with
  | nil => exact hold p hp (by simpa using ha)
  | cons b acts =>
    obtain ⟨ph'', hb, -⟩ := exec_cons hacts
    cases b <;> cases hb

theorem startedOnce (hr : D.Run cfg xs u) (hid : Idle name u.service)
    (hys : ∀ e ∈ ys, e.pushing = true) (hu : Along (D.step cfg) Unhurried u ys)
    (h : exec (D.step cfg) u ys = some w) : StartedOnce cfg name u ys w := by
  have hi : Inv u.service := Run.inv hr
  have hi' : Inv w.service := Run.inv (exec_append.mpr ⟨u, hr, h⟩)
  obtain ⟨hp, hx⟩ := placid_exec hid.placid hys hu h
  have hnew {i : ℕ} {q : RunningQueue} (hlen : u.service.queues.length ≤ i)
      (hq : w.service.queues[i]? = some q) : q.unstopped = true := by
    by_contra hst
    obtain ⟨p, hp, -⟩ := hx.spared i q .stopped hq (by simpa [RunningQueue.unstopped] using hst) rfl
    have := (List.getElem?_eq_some_iff.mp hp).1
    omega
  refine ⟨?_, ?_, ?_, ?_⟩
  · intro i j p q hil hjl hp hq hpn hqn
    exact hi'.unique hp hq (hpn.trans hqn.symm) (hnew hil hp) (hnew hjl hq)
  · intro hh hreaders hcall
    have hn := pending_exec hi hid.placid hys hu h (.inr hcall)
    obtain ⟨i, hlookup⟩ : ∃ i, w.service.running.lookup name = some i := by
      rcases hn with hlookup | ⟨r, hr, -⟩ | ⟨job, pc, hth, -⟩
      · exact hlookup
      · rw [hreaders] at hr
        cases hr
      · cases hh.symm.trans hth
    refine ⟨i, ?_, hi'.serves hlookup⟩
    by_contra hlt
    have hlt : i < u.service.queues.length := by omega
    obtain ⟨p, hp⟩ : ∃ p, u.service.queues[i]? = some p := ⟨_, List.getElem?_eq_getElem hlt⟩
    obtain ⟨acts, hq⟩ := hx.kept i p hp
    obtain ⟨hname, hin⟩ := hi'.found_phase hlookup hq
    have hstopped := (hid.stopped hi hp hname).reached.stopped.mpr rfl
    rw [State.phase, hh] at hin
    have hactive := hin.reached.stopped.mp (List.mem_append_left _ hstopped)
    cases hactive
  · intro as bs v hsplit hv n i hn
    subst hsplit
    obtain ⟨v', hv', hw⟩ := exec_append.mp h
    cases Option.some.inj (hv.symm.trans hv')
    obtain ⟨hua, hub⟩ := hu.split hv
    have hpv := (placid_exec hid.placid (fun e he ↦ hys e (List.mem_append_left _ he)) hua hv).1
    exact (placid_exec hpv (fun e he ↦ hys e (List.mem_append_right _ he)) hub hw).2.running n i hn
  · intro i q hq hacts
    rcases hacts with ha | ha
    · obtain ⟨p, hp, ha⟩ := hx.spared i q _ hq ha rfl
      exact ⟨p, hp, .inl ha⟩
    · obtain ⟨p, hp, ha⟩ := hx.spared i q _ hq ha rfl
      exact ⟨p, hp, .inr ha⟩

end Driver

/-- A queue that is not running is started on demand once, however many calls of
`Push` ask for it, as long as none of them gets `mu` after the queue has been started.
All jobs that they push are with it. -/
theorem started_on_demand_once {cfg : Config} {name : String} :
    (∀ xs ys u w, Memory.driver.Run cfg xs u → Driver.Idle name u.service →
      exec (Memory.driver.step cfg) u ys = some w → (∀ e ∈ ys, e.pushing = true) →
      Along (Memory.driver.step cfg) Driver.Unhurried u ys →
      Driver.StartedOnce cfg name u ys w ∧
      ∀ (i : ℕ) (q : RunningQueue) id, w.service.queues[i]? = some q → q.name = name →
        .pushed (some id) ∈ q.acts →
        (∀ p, u.service.queues[i]? = some p → .pushed (some id) ∉ p.acts) →
        Memory.Holds w name i id) ∧
    ∀ xs ys u w, Database.driver.Run cfg xs u → Driver.Idle name u.service →
      exec (Database.driver.step cfg) u ys = some w → (∀ e ∈ ys, e.pushing = true) →
      Along (Database.driver.step cfg) Driver.Unhurried u ys →
      Driver.StartedOnce cfg name u ys w ∧
      ∀ (i : ℕ) (q : RunningQueue) id, w.service.queues[i]? = some q → q.name = name →
        .pushed (some id) ∈ q.acts →
        (∀ p, u.service.queues[i]? = some p → .pushed (some id) ∉ p.acts) →
        w.service.Serves name i ∧
          ((∃ r, (w.store.fleet (Database.table name)).table.find id = some r) ∨
            MySQL.Cluster.Removed (Database.history (Database.table name) (xs ++ ys)) id) := by
  constructor
  · intro xs ys u w hr hid h hys hu
    refine ⟨Driver.startedOnce hr hid hys hu h, fun i q id hq hname hmem hold ↦ ?_⟩
    have hrun : Memory.driver.Run cfg (xs ++ ys) w := exec_append.mpr ⟨u, hr, h⟩
    have hx := (Driver.placid_exec hid.placid hys hu h).2
    have hunst := hid.unstopped (Driver.Run.inv hr) (Driver.Run.inv hrun) hx hq hname hmem hold
    exact hname ▸ Memory.holds_of_unstopped (Driver.Run.inv hrun) (Memory.Run.storeInv hrun) hq hmem
      hunst
  · intro xs ys u w hr hid h hys hu
    refine ⟨Driver.startedOnce hr hid hys hu h, fun i q id hq hname hmem hold ↦ ?_⟩
    have hrun : Database.driver.Run cfg (xs ++ ys) w := exec_append.mpr ⟨u, hr, h⟩
    have hinv : Inv w.service := Driver.Run.inv hrun
    have hx := (Driver.placid_exec hid.placid hys hu h).2
    have hunst := hid.unstopped (Driver.Run.inv hr) hinv hx hq hname hmem hold
    refine ⟨hname ▸ hinv.serves (hinv.running_of_acts hq hmem hunst), ?_⟩
    exact hname ▸ (Database.Run.kept hrun hq hmem).kept

def bare {D : Driver} : List D.Event :=
  alone ([.answer (some (.foundAll [])), .advance, .advance])

def starting {D : Driver} : List D.Event :=
  alone [.lockPush 0, .advance, .advance, .answer (some (.found (some mail))), .advance, .advance,
    .advance]

namespace Memory

def rushed : List driver.Event :=
  alone [.call "mail" (some letter), .call "mail" (some letter), .rlock 0, .rlock 1, .lookup 0,
    .lookup 1] ++ starting ++
  [.service (.stored (some 1)) (some (Op.push 0 letter)), .service .advance none] ++
  alone [.lockPush 0, .advance, .advance, .answer (some (.found (some mail))), .advance, .begin 0,
    .finish 0, .advance, .begin 0, .finish 0, .advance, .advance, .advance] ++
  [.service (.stored (some 2)) (some (Op.push 1 letter)), .service .advance none]

theorem pushed_to_replaced_queue : ∃ u w, driver.Run plain bare u ∧ Driver.Idle "mail" u.service ∧
    exec (driver.step plain) u rushed = some w ∧
    w.service.queues = [⟨mail, [.push, .pushed (some 1), .deactivate, .deactivated, .stop,
      .stopped]⟩, ⟨mail, [.push, .pushed (some 2)]⟩] ∧
    w.service.running.lookup "mail" = some 1 ∧ ¬ Holds w "mail" 0 1 := by
  obtain ⟨u, hu, hidle⟩ := Option.map_eq_some_iff.mp
    (show (exec (driver.step plain) (Driver.World.initial _) bare).map
      (fun u ↦ (u.service.running.lookup "mail", u.service.holder)) = some (none, none) by
      decide +kernel)
  have hrun : (exec (driver.step plain) (Driver.World.initial _) (bare ++ rushed)).map (fun w ↦
      (w.service.queues, w.service.running.lookup "mail",
        (w.store 0).objects[0]?.map InMemory.Job.id)) =
      some ([⟨mail, [.push, .pushed (some 1), .deactivate, .deactivated, .stop, .stopped]⟩,
        ⟨mail, [.push, .pushed (some 2)]⟩], some 1, some 1) := by
    decide +kernel
  have hcompletes (k : ℕ) : (exec (driver.step plain) (Driver.World.initial _)
      (bare ++ rushed)).map (fun w ↦ (w.store 0).completes k) = some none := rfl
  obtain ⟨w, hw, hrun⟩ := Option.map_eq_some_iff.mp hrun
  simp only [Prod.mk.injEq] at hidle hrun
  obtain ⟨hqueues, hlookup, hobj⟩ := hrun
  obtain ⟨u', hu', huw⟩ := exec_append.mp hw
  cases Option.some.inj (hu.symm.trans hu')
  obtain ⟨j, hj, hid⟩ := Option.map_eq_some_iff.mp hobj
  refine ⟨u, w, hu, ⟨hidle.1, hidle.2⟩, huw, hqueues, hlookup, fun hholds ↦ ?_⟩
  rcases hholds.2 0 ⟨j, hj, hid⟩ with ⟨k, taken, done, hk, -⟩ | ⟨-, hserves, -⟩
  · have hnone := hcompletes k
    rw [hw, Option.map_some, hk] at hnone
    cases hnone
  · cases hserves.symm.trans hlookup

def patient : List driver.Event :=
  alone [.call "mail" (some letter), .call "mail" (some letter), .rlock 0, .lookup 0] ++ starting ++
  [.service (.stored (some 1)) (some (Op.push 0 letter)), .service .advance none,
    .service (.rlock 0) none, .service (.lookup 0) none,
    .service (.pushed 0 (some 2)) (some (Op.push 0 letter))]

end Memory

namespace Database

def patient : List driver.Event :=
  alone [.call "mail" (some letter), .call "mail" (some letter), .rlock 0, .lookup 0] ++ starting ++
  [.service (.stored (some 1)) (some (Op.push "mail" letter true)), .service .advance none,
    .service (.rlock 0) none, .service (.lookup 0) none,
    .service (.pushed 0 (some 2)) (some (Op.push "mail" letter true))]

end Database

theorem started_on_demand_once_patient :
    (∃ u w, Memory.driver.Run plain bare u ∧
      exec (Memory.driver.step plain) u Memory.patient = some w ∧
      Driver.StartedOnce plain "mail" u Memory.patient w ∧ Memory.Holds w "mail" 0 1) ∧
    ∃ u w, Database.driver.Run plain bare u ∧
      exec (Database.driver.step plain) u Database.patient = some w ∧
      Driver.StartedOnce plain "mail" u Database.patient w ∧ w.service.Serves "mail" 0 := by
  have hsplit {D : Driver} (ys : List D.Event) (x : RunningQueue)
      (hu : (exec (D.step plain) (Driver.World.initial _) bare).map (fun u ↦
        (u.service.running.lookup "mail", u.service.holder, u.service.queues.length)) =
        some (none, none, 0))
      (hw : (exec (D.step plain) (Driver.World.initial _) (bare ++ ys)).map
        (fun w ↦ w.service.queues[0]?) = some (some x))
      (hh : Along (D.step plain) Driver.Unhurried (Driver.World.initial _) (bare ++ ys)) :
      ∃ u w, D.Run plain bare u ∧ exec (D.step plain) u ys = some w ∧
        Driver.Idle "mail" u.service ∧ u.service.queues.length = 0 ∧
        w.service.queues[0]? = some x ∧ Along (D.step plain) Driver.Unhurried u ys := by
    obtain ⟨u, hu, hidle⟩ := Option.map_eq_some_iff.mp hu
    obtain ⟨w, hw, hx⟩ := Option.map_eq_some_iff.mp hw
    simp only [Prod.mk.injEq] at hidle
    obtain ⟨u', hu', huw⟩ := exec_append.mp hw
    cases Option.some.inj (hu.symm.trans hu')
    exact ⟨u, w, hu, huw, ⟨hidle.1, hidle.2.1⟩, hidle.2.2, hx, (hh.split hu).2⟩
  have hnone {D : Driver} {u : D.World} (hlen : u.service.queues.length = 0) (a : Act)
      (p : RunningQueue) (hp : u.service.queues[0]? = some p) : a ∉ p.acts := by
    have := (List.getElem?_eq_some_iff.mp hp).1
    omega
  constructor
  · obtain ⟨u, w, hu, hw, hidle, hlen, hq, hh⟩ := hsplit Memory.patient
      ⟨mail, [.push, .pushed (some 1), .push, .pushed (some 2)]⟩ (by decide +kernel)
      (by decide +kernel) (by decide +kernel)
    have hall : Memory.patient.all (·.pushing) = true := by decide
    obtain ⟨hstarted, hheld⟩ := started_on_demand_once.1 _ _ u w hu hidle hw
      (List.all_eq_true.mp hall) hh
    exact ⟨u, w, hu, hw, hstarted, hheld 0 _ 1 hq rfl (by decide) (hnone hlen _)⟩
  · obtain ⟨u, w, hu, hw, hidle, hlen, hq, hh⟩ := hsplit Database.patient
      ⟨mail, [.push, .pushed (some 1), .push, .pushed (some 2)]⟩ (by decide +kernel)
      (by decide +kernel) (by decide +kernel)
    have hall : Database.patient.all (·.pushing) = true := by decide
    obtain ⟨hstarted, hheld⟩ := started_on_demand_once.2 _ _ u w hu hidle hw
      (List.all_eq_true.mp hall) hh
    exact ⟨u, w, hu, hw, hstarted, (hheld 0 _ 1 hq rfl (by decide) (hnone hlen _)).1⟩

end Fireworq.Service.Lifecycle
