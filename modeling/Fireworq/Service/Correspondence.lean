import Fireworq.Service.Cluster
import Fireworq.Service.Threads

namespace Fireworq.Service.Lifecycle

open Execution Repository
open JobQueue (IncomingJob)

section Views

def method : Call → Option Method
  | .addQueue q | .addThrottle q _ | .addRevision q => some (.add q)
  | .deleteQueue name | .deleteThrottle name | .deleteRevision name => some (.deleteByName name)
  | .findQueue name => some (.findByName name)
  | .findThrottle q => some (.findByName q.name)
  | .findQueues | .findThrottles _ => some .findAll
  | _ => none

theorem method_follow {col : FloatColumn} {t t' : Tables} {c c' : Call}
    (h : Executes col t c t' (.inl c')) : method c' = method c := by
  cases h <;> rfl

variable (job : IncomingJob)

def Task.of : Service.Task → Task
  | .add q => .add q
  | .delete name => .delete name
  | .push name _ => .push name job
  | .reload => .reload
  | .startup => .startup

def WatcherPc.of : Service.WatcherPc → WatcherPc
  | .off | .starting => .off
  | .idle => .idle
  | .reloading => .reloading

def ReaderPc.of : PushPc → ReaderPc
  | .rlock => .rlock
  | .reading => .reading
  | .lockMu => .lockMu

def Reader.of (p : Push) : Reader := ⟨p.name, some job, .of p.pc⟩

/-- Where a thread with whole calls is when one with single statements is at a point.
The queues that a thread deactivates are stopped in the same step. -/
inductive At (task : Service.Task) (running : Table ℕ) : Service.Pc → Pc → Prop
  | deactivating (is : List ℕ) : At task running (.deactivating is) (.deactivating is [] .all)
  | lockJob : At task running .lockJob .lockJob
  | awaitReaders : At task running .awaitReaders .awaitReaders
  | destroying (htask : task = .reload) :
    At task running .destroying (.stopping (running.entries.map fun e ↦ e.2) [] .all)
  | calling {c : Call} {m : Method} (hm : method c = some m) :
    At task running (.calling c) (.calling m)
  | starting (qs : List Queue) : At task running (.starting qs) (.starting qs)
  | putting (q : Queue) (rest : Option (List Queue)) :
    At task running (.putting q rest) (.putting q rest)
  | creating {q : Queue} {rest : Option (List Queue)} (hq : running.lookup q.name = none) :
    At task running (.putting q rest) (.creating q rest)
  | removing (name : String) : At task running (.removing name) (.removing name)
  | stopping {name : String} {i : ℕ} {q : Option Queue} {rest : Option (List Queue)}
    (hq : ∀ d ∈ q, d.name = name) :
    At task running (.stopping name i q rest) (.deactivating [i] [] (.one name i q rest))
  | returning (ok : Bool) : At task running (.returning ok) .returning

structure Alike (v : Node) (w : State) : Prop where
  watcher : w.watcher = .of v.watcher
  stop : w.stop = .notCalled
  readers : w.readers = v.pushes.map (.of job)
  running : w.running = v.running
  queues : w.queues.map RunningQueue.definition = v.queues.map Service.RunningQueue.definition

inductive Holding (v : Node) (w : State) : Prop
  | off (hw : v.watcher = .off) (hh : v.holder = none) (hp : v.pushes = [])
    (hw' : w.holder = some ⟨.startup, .calling .findAll⟩)
  | booting {pc : Service.Pc} (hw : v.watcher = .starting) (hh : v.holder = some ⟨.startup, pc⟩)
    (hpc : pc = .lockJob ∨ pc = .awaitReaders) (hp : v.pushes = [])
    (hw' : w.holder = some ⟨.startup, .calling .findAll⟩)
  | free (hup : v.up = true) (hh : v.holder = none) (hw : w.holder = none)
  | held {task : Service.Task} {pc : Service.Pc} {pc' : Pc}
    (hup : task = .startup ∧ v.watcher = .starting ∨ v.up = true)
    (hh : v.holder = some ⟨task, pc⟩) (hw : w.holder = some ⟨.of job task, pc'⟩)
    (hpc : At task v.running pc pc')

/-- The threads of a node, with all of its details, and the same threads without the
statements of the repository and the insides of the dispatchers. -/
structure Shows (v : Node) (w : State) : Prop extends Alike job v w where
  holding : Holding job v w

end Views

section Moves

variable {cfg : Config} {job : IncomingJob} {v v' : Node} {w w' u : State} {i k : ℕ}
  {task : Task} {task' : Service.Task} {pc : Pc} {pc' : Service.Pc} {e : Event}

def Follows (cfg : Config) (job : IncomingJob) (w : State) (v : Node) : Prop :=
  ∃ es w', exec (step cfg) w es = some w' ∧ Shows job v w'

theorem Shows.stays (h : Shows job v w) : Follows cfg job w v := ⟨[], w, rfl, h⟩

theorem Follows.after (hstep : step cfg w e = some u) (h : Follows cfg job u v) :
    Follows cfg job w v := by
  obtain ⟨es, w', hes, hw'⟩ := h
  exact ⟨e :: es, w', (exec_cons_of_step hstep es).trans hes, hw'⟩

theorem Shows.after (hstep : step cfg w e = some w') (h : Shows job v w') : Follows cfg job w v :=
  h.stays.after hstep

theorem Follows.afterAll {es : List Event} (hes : exec (step cfg) w es = some u)
    (h : Follows cfg job u v) : Follows cfg job w v := by
  obtain ⟨es', w', hes', hw'⟩ := h
  exact ⟨es ++ es', w', exec_append.mpr ⟨u, hes, hes'⟩, hw'⟩

theorem Alike.goto (h : Alike job v w) (task : Task) (pc : Pc) : Alike job v (w.goto task pc) :=
  ⟨h.watcher, h.stop, h.readers, h.running, h.queues⟩

theorem Alike.node (h : Alike job v w) (task : Service.Task) (pc : Service.Pc) :
    Alike job (v.goto task pc) w :=
  ⟨h.watcher, h.stop, h.readers, h.running, h.queues⟩

theorem Alike.shows (h : Alike job v w)
    (hup : task' = .startup ∧ v.watcher = .starting ∨ v.up = true)
    (hat : At task' v.running pc' pc) : Shows job (v.goto task' pc') (w.goto (.of job task') pc) :=
  ⟨(h.node task' pc').goto _ pc, .held hup rfl rfl hat⟩

theorem definitions_record (w : State) (i : ℕ) (a : Act) :
    (w.record i a).queues.map RunningQueue.definition =
      w.queues.map RunningQueue.definition := by
  apply List.ext_getElem?
  intro j
  simp only [State.record, List.getElem?_map, List.getElem?_modify]
  cases w.queues[j]? with
  | none => rfl
  | some q => by_cases hj : i = j <;> simp [hj, RunningQueue.act]

theorem Alike.record (h : Alike job v w) (i : ℕ) (a : Act) : Alike job v (w.record i a) :=
  ⟨h.watcher, h.stop, h.readers, h.running, (definitions_record w i a).trans h.queues⟩

theorem Alike.up (h : Alike job v w) (hup : v.up = true) : w.up = true := by
  have hw := h.watcher
  simp only [Node.up, Bool.decide_or, Bool.or_eq_true, decide_eq_true_eq] at hup
  rcases hup with hup | hup <;> simp [State.up, hw, hup, WatcherPc.of]

theorem Alike.reader {p : Push} (h : Alike job v w) (hk : v.pushes[k]? = some p) :
    w.readers[k]? = some (.of job p) := by
  rw [h.readers, List.getElem?_map, hk]
  rfl

theorem Shows.free (h : Shows job v w) (hh : v.holder = none) (hup : v.up = true) :
    w.holder = none := by
  cases h.holding with
  | off hw => simp [Node.up, hw] at hup
  | free _ _ hw => exact hw
  | booting _ hh' | held _ hh' => cases hh.symm.trans hh'

theorem Shows.thread (h : Shows job v w) (hh : v.holder = some ⟨task', pc'⟩) :
    (task' = .startup ∧ (pc' = .lockJob ∨ pc' = .awaitReaders) ∧ v.watcher = .starting ∧
      v.pushes = [] ∧ w.holder = some ⟨.startup, .calling .findAll⟩) ∨
    ∃ pc, w.holder = some ⟨.of job task', pc⟩ ∧ At task' v.running pc' pc ∧
      (task' = .startup ∧ v.watcher = .starting ∨ v.up = true) := by
  cases h.holding with
  | off _ hh' | free _ hh' => cases hh'.symm.trans hh
  | booting hw hh' hpc hp hw' =>
    cases hh.symm.trans hh'
    exact .inl ⟨rfl, hpc, hw, hp, hw'⟩
  | held hup hh' hw hat =>
    cases hh.symm.trans hh'
    exact .inr ⟨_, hw, hat, hup⟩

theorem Shows.held (h : Shows job v w) (hh : v.holder = some ⟨task', pc'⟩)
    (hlock : pc' ≠ .lockJob) (hawait : pc' ≠ .awaitReaders) :
    ∃ pc, w.holder = some ⟨.of job task', pc⟩ ∧ At task' v.running pc' pc ∧
      (task' = .startup ∧ v.watcher = .starting ∨ v.up = true) := by
  rcases h.thread hh with ⟨-, hpc, -⟩ | hheld
  · exact absurd hpc (not_or.mpr ⟨hlock, hawait⟩)
  · exact hheld

theorem Holding.congr (h : Holding job v w) (hh : v'.holder = v.holder)
    (hr : v'.running = v.running) (hw : w'.holder = w.holder)
    (hup : v.up = true ∧ v'.up = true ∨
      v'.watcher = v.watcher ∧ (v.pushes = [] → v'.pushes = [])) : Holding job v' w' := by
  rcases hup with ⟨hup, hup'⟩ | ⟨hwatcher, hpushes⟩
  · cases h with
    | off hoff => simp [Node.up, hoff] at hup
    | booting hstarting => simp [Node.up, hstarting] at hup
    | free _ hnone hnone' => exact .free hup' (hh.trans hnone) (hw.trans hnone')
    | held _ hsome hsome' hat =>
      exact .held (.inr hup') (hh.trans hsome) (hw.trans hsome') (hr ▸ hat)
  · have hup : v'.up = v.up := by simp only [Node.up, hwatcher]
    cases h with
    | off hoff hnone hnil hstart =>
      exact .off (hwatcher.trans hoff) (hh.trans hnone) (hpushes hnil) (hw.trans hstart)
    | booting hstarting hsome hpc hnil hstart =>
      exact .booting (hwatcher.trans hstarting) (hh.trans hsome) hpc (hpushes hnil)
        (hw.trans hstart)
    | free hv hnone hnone' => exact .free (hup.trans hv) (hh.trans hnone) (hw.trans hnone')
    | held hv hsome hsome' hat =>
      refine .held ?_ (hh.trans hsome) (hw.trans hsome') (hr ▸ hat)
      rwa [hwatcher, hup]

end Moves

section Waiting

variable {job : IncomingJob} {v : Node} {w : State} {i : ℕ} {task : Task} {is : List ℕ}
  {scope : Scope}

theorem exec_deactivate (cfg : Config)
    (hh : w.holder = some ⟨task, .deactivating is [] scope⟩) (hi : i ∈ is) :
    exec (step cfg) w [.begin i, .finish i] =
      some (((w.record i .deactivate).record i .deactivated).goto task
        (.deactivating (is.erase i) [] scope)) := by
  simp [exec, step, State.begin, State.finish, hh, hi, State.goto, State.record]

theorem exec_stop (cfg : Config) (hh : w.holder = some ⟨task, .stopping is [] scope⟩)
    (hi : i ∈ is) :
    exec (step cfg) w [.begin i, .finish i] = some
      (((w.record i .stop).record i .stopped).goto task (.stopping (is.erase i) [] scope)) := by
  simp [exec, step, State.begin, State.finish, hh, hi, State.goto, State.record]

theorem exec_stop_all (cfg : Config) (h : Alike job v w)
    (hh : w.holder = some ⟨task, .stopping is [] scope⟩) :
    ∃ es u, exec (step cfg) w es = some u ∧ u.holder = some ⟨task, .stopping [] [] scope⟩ ∧
      Alike job v u := by
  induction is generalizing w with
  | nil => exact ⟨[], w, rfl, hh, h⟩
  | cons i is ih =>
    have hstop := exec_stop cfg hh List.mem_cons_self
    rw [List.erase_cons_head] at hstop
    obtain ⟨es, u, hes, hu, halike⟩ := ih (((h.record i .stop).record i .stopped).goto task _) rfl
    exact ⟨_, u, exec_append.mpr ⟨_, hstop, hes⟩, hu, halike⟩

end Waiting

section Thread

variable {cfg : Config} {col : FloatColumn} {job : IncomingJob} {v v' : Node} {w : State}
  {t t' : Tables} {i : ℕ} {task : Service.Task} {c : Call} {r : Result} {q : Queue}
  {rest : Option (List Queue)}

theorem Shows.deactivated {th : Service.Thread} (h : Shows job v w) (hh : v.holder = some th)
    (ha : th.pc.awaits i = true) : Follows cfg job w (v.deactivated i) := by
  obtain ⟨task, pc⟩ := th
  cases pc with
  | deactivating is =>
    obtain ⟨pc, hw, hat, hup⟩ := h.held hh (by simp) (by simp)
    cases hat
    simp only [Node.deactivated, hh]
    refine .afterAll (exec_deactivate cfg hw (of_decide_eq_true ha)) (Shows.stays ?_)
    exact ((h.record i _).record i _).shows hup (.deactivating _)
  | stopping name j q rest =>
    obtain rfl : i = j := of_decide_eq_true ha
    obtain ⟨pc, hw, hat, hup⟩ := h.held hh (by simp) (by simp)
    obtain _ | _ | _ | _ | _ | _ | _ | _ | _ | hq | _ := hat
    refine .afterAll (exec_deactivate cfg hw List.mem_cons_self) ?_
    rw [List.erase_cons_head]
    refine Follows.after (e := .advance) rfl ?_
    refine .afterAll (exec_stop cfg rfl List.mem_cons_self) ?_
    rw [List.erase_cons_head]
    have halike := ((((h.record i .deactivate).record i .deactivated).record i .stop).record i
      .stopped)
    refine Shows.after (e := .advance) rfl ⟨?_, ?_⟩
    · simp only [Node.deactivated, hh]
      exact ⟨halike.watcher, halike.stop, halike.readers,
        congrArg (AList.erase name) halike.running, halike.queues⟩
    · cases q with
      | none =>
        simp only [Node.deactivated, hh]
        exact .held hup rfl rfl (.returning true)
      | some q =>
        simp only [Node.deactivated, hh]
        refine .held hup rfl rfl (.creating ?_)
        rw [hq q rfl]
        exact AList.lookup_erase _ _
  | _ => cases ha

theorem Shows.returned (h : Shows job v w) (hh : v.holder = some ⟨task, .calling c⟩)
    (hx : Executes col t c t' (.inr r)) : Follows cfg job w (v.returned task c r) := by
  obtain ⟨pc, hw, hat, hup⟩ := h.held hh (by simp) (by simp)
  obtain _ | _ | _ | _ | hm | _ | _ | _ | _ | _ | _ := hat
  have hstep {m : Method} {a : Option Answer} (hw : w.holder = some ⟨.of job task, .calling m⟩) :
      step cfg w (.answer a) = w.answered (.of job task) m a := by
    simp only [step, hw]
  cases hx with
  | addSame =>
    cases hm
    exact Shows.after (hstep (a := some (.added false)) hw) (h.shows hup (.returning true))
  | addRevision =>
    cases hm
    exact Shows.after (hstep (a := some (.added true)) hw) (h.shows hup (.putting _ none))
  | deleteRevision =>
    cases hm
    exact Shows.after (hstep (a := some .deleted) hw) (h.shows hup (.removing _))
  | findNone =>
    cases hm
    exact Shows.after (hstep (a := some (.found none)) hw) (h.shows hup (.returning false))
  | @findThrottle q =>
    cases hm
    refine Shows.after ((hstep (a := some (.found (some (t.withThrottle q)))) hw).trans ?_)
      (h.shows hup (.putting _ none))
    exact if_pos (Tables.withThrottle_name q)
  | findEmpty =>
    cases hm
    exact Shows.after (hstep (a := some (.foundAll [])) hw) (h.shows hup (.starting []))
  | findThrottles =>
    cases hm
    exact Shows.after (hstep (a := some (.foundAll _)) hw) (h.shows hup (.starting _))
  | _ => cases hm

theorem Shows.failed (h : Shows job v w) (hh : v.holder = some ⟨task, .calling c⟩)
    (hc : (v.returned task c .failed).crashed = false) :
    Follows cfg job w (v.returned task c .failed) := by
  obtain ⟨pc, hw, hat, hup⟩ := h.held hh (by simp) (by simp)
  obtain _ | _ | _ | _ | hm | _ | _ | _ | _ | _ | _ := hat
  have hstep : step cfg w (.answer none) = some (w.failed (.of job task)) := by
    simp only [step, hw, State.answered]
  cases task with
  | reload | startup => cases hc
  | add | delete | push => exact Shows.after hstep (h.shows hup (.returning false))

theorem step_advance {T : Task} {pc : Pc} (hw : w.holder = some ⟨T, pc⟩) :
    step cfg w .advance = State.advance cfg { w with holder := some ⟨T, pc⟩ } := by
  rw [step, ← hw]

theorem Shows.lockJob (h : Shows job v w) (hh : v.holder = some ⟨task, .lockJob⟩) :
    Follows cfg job w (v.goto task .awaitReaders) := by
  rcases h.thread hh with ⟨rfl, -, hstarting, hp, hw⟩ | ⟨pc, hw, hat, hup⟩
  · exact Shows.stays ⟨h.node _ _, .booting hstarting rfl (.inr rfl) hp hw⟩
  · cases hat
    exact Shows.after (step_advance hw) (h.shows hup .awaitReaders)

theorem Shows.lockedJob (h : Shows job v w) (hh : v.holder = some ⟨task, .awaitReaders⟩)
    (hr : ∀ p ∈ v.pushes, p.pc ≠ .reading) : Follows cfg job w (v.lockedJob cfg task) := by
  rcases h.thread hh with ⟨rfl, -, hstarting, -, hw⟩ | ⟨pc, hw, hat, hup⟩
  · exact Shows.stays ⟨h.node _ _, .held (.inl ⟨rfl, hstarting⟩) rfl hw (.calling rfl)⟩
  · cases hat
    have hall : (w.readers.all fun r ↦ !r.inside) = true := by
      rw [h.readers, List.all_map, List.all_eq_true]
      intro p hp
      have hne := hr p hp
      obtain ⟨name, caller, pc⟩ := p
      cases pc with
      | reading => exact absurd rfl hne
      | rlock | lockMu => rfl
    have hstep : step cfg w .advance = some (w.lockedJob cfg (.of job task)) := by
      simp only [step, State.advance, hw]
      exact if_pos hall
    refine Shows.after hstep ?_
    cases task with
    | add q =>
      simp only [Node.lockedJob, State.lockedJob, Task.of]
      cases cfg.prepare q with
      | ok q' => exact h.shows hup (.calling rfl)
      | error => exact h.shows hup (.returning false)
    | delete name => exact h.shows hup (.calling rfl)
    | push name caller => exact h.shows hup (.calling rfl)
    | reload =>
      simp only [Node.lockedJob, State.lockedJob, Task.of, State.all, h.running]
      exact h.shows hup (.destroying rfl)
    | startup => exact h.shows hup (.calling rfl)

theorem Shows.destroy (h : Shows job v w) (hh : v.holder = some ⟨task, .destroying⟩) :
    Follows cfg job w { v.goto task (.calling .findQueues) with running := ∅ } := by
  obtain ⟨pc, hw, hat, hup⟩ := h.held hh (by simp) (by simp)
  obtain _ | _ | _ | rfl | _ | _ | _ | _ | _ | _ | _ := hat
  obtain ⟨es, u, hes, hu, halike⟩ := exec_stop_all cfg h.toAlike hw
  refine .afterAll hes (Shows.after (step_advance hu) ⟨?_, .held hup rfl rfl (.calling rfl)⟩)
  exact ⟨halike.watcher, halike.stop, halike.readers, rfl, halike.queues⟩

theorem Shows.startLast (h : Shows job v w) (hh : v.holder = some ⟨task, .starting []⟩)
    (hc : (v.initDefaultQueue cfg task).crashed = false) :
    Follows cfg job w (v.initDefaultQueue cfg task) := by
  obtain ⟨pc, hw, hat, hup⟩ := h.held hh (by simp) (by simp)
  cases hat
  have hstep : step cfg w .advance = some (w.initDefaultQueue cfg (.of job task)) := by
    simp only [step, State.advance, hw]
  refine Shows.after hstep ?_
  simp only [Node.initDefaultQueue, State.initDefaultQueue, h.running] at hc ⊢
  split
  · exact h.shows hup (.returning true)
  · rename_i hnone
    rw [if_neg hnone] at hc
    cases hq : cfg.prepare ⟨cfg.queueDefault, 0, 0, 0, 0⟩ with
    | ok q => exact h.shows hup (.calling rfl)
    | error =>
      rw [hq] at hc
      cases hc

theorem Alike.length (h : Alike job v w) : w.queues.length = v.queues.length := by
  simpa using congrArg List.length h.queues

theorem Shows.create (h : Alike job v w) (hw : w.holder = some ⟨.of job task, .creating q rest⟩)
    (hup : task = .startup ∧ v.watcher = .starting ∨ v.up = true) :
    Follows cfg job w ((v.startJobQueue q).goto task (Node.afterPut rest)) := by
  refine .after (step_advance hw) (.after (e := .advance) rfl ?_)
  have halike : Alike job (v.startJobQueue q)
      { w with
        queues := w.queues ++ [⟨q, []⟩]
        running := w.running.insert q.name w.queues.length } := by
    refine ⟨h.watcher, h.stop, h.readers, ?_, ?_⟩
    · rw [Node.startJobQueue, h.running, h.length]
    · rw [Node.startJobQueue, List.map_append, List.map_append, h.queues]
      rfl
  cases rest with
  | some qs => exact Shows.stays (halike.shows hup (.starting qs))
  | none =>
    cases task with
    | push name caller =>
      refine Shows.after (e := .stored none) rfl ?_
      exact ((halike.record _ .push).record _ (.pushed none)).shows hup (.returning true)
    | add | delete | reload | startup => exact Shows.stays (halike.shows hup (.returning true))

theorem Shows.unlock {ok : Bool} (h : Shows job v w) (hh : v.holder = some ⟨task, .returning ok⟩) :
    Follows cfg job w (v.unlock task) := by
  obtain ⟨pc, hw, hat, hup⟩ := h.held hh (by simp) (by simp)
  cases hat
  refine Shows.after (step_advance hw) ?_
  have hfree (hne : task ≠ .startup) : v.up = true := hup.resolve_left fun hs ↦ hne hs.1
  cases task with
  | reload | startup => exact ⟨⟨rfl, h.stop, h.readers, h.running, h.queues⟩, .free rfl rfl rfl⟩
  | add | delete | push =>
    exact ⟨⟨h.watcher, h.stop, h.readers, h.running, h.queues⟩, .free (hfree (by simp)) rfl rfl⟩

theorem Shows.advances (h : Shows job v w) (ha : Service.Advances cfg v v')
    (hc : v'.crashed = false) : Follows cfg job w v' := by
  cases ha with
  | lockJob hh => exact h.lockJob hh
  | lockedJob hh hr => exact h.lockedJob hh hr
  | destroy hh => exact h.destroy hh
  | startLast hh => exact h.startLast hh hc
  | unlock hh => exact h.unlock hh
  | deactivated hh =>
    obtain ⟨pc, hw, hat, hup⟩ := h.held hh (by simp) (by simp)
    cases hat
    exact Shows.after (step_advance hw) (h.shows hup .lockJob)
  | startNext hh =>
    obtain ⟨pc, hw, hat, hup⟩ := h.held hh (by simp) (by simp)
    cases hat
    exact Shows.after (step_advance hw) (h.shows hup (.putting _ _))
  | replace hh hi =>
    obtain ⟨pc, hw, hat, hup⟩ := h.held hh (by simp) (by simp)
    rw [← h.running] at hi
    cases hat with
    | putting =>
      refine Shows.after (e := .advance) ?_ (h.shows hup (.stopping (by simp)))
      simp only [step, State.advance, hw, hi]
    | creating hnone => cases (h.running ▸ hi).symm.trans hnone
  | @start task q rest hh hi =>
    obtain ⟨pc, hw, hat, hup⟩ := h.held hh (by simp) (by simp)
    cases hat with
    | putting =>
      have hstep : step cfg w .advance = some (w.goto (.of job task) (.creating q rest)) := by
        rw [← h.running] at hi
        simp only [step, State.advance, hw, hi]
      exact .after hstep (Shows.create (h.goto _ _) rfl hup)
    | creating => exact Shows.create h.toAlike hw hup
  | remove hh hi =>
    obtain ⟨pc, hw, hat, hup⟩ := h.held hh (by simp) (by simp)
    rw [← h.running] at hi
    cases hat
    refine Shows.after (e := .advance) ?_ (h.shows hup (.stopping (by simp)))
    simp only [step, State.advance, hw, hi]
  | removeNone hh hi =>
    obtain ⟨pc, hw, hat, hup⟩ := h.held hh (by simp) (by simp)
    rw [← h.running] at hi
    cases hat
    refine Shows.after (e := .advance) ?_ (h.shows hup (.returning true))
    simp only [step, State.advance, hw, hi]

end Thread

section Run

variable {N : ℕ} {cfg : Config} {col : FloatColumn} {job : IncomingJob} {v v' : Node} {w : State}
  {t t' : Tables} {a : Action}

theorem Shows.setReaders {ps : List Push} {rs : List Reader} (h : Shows job v w)
    (hup : v.up = true ∨ v.pushes ≠ []) (hrs : rs = ps.map (.of job)) :
    Shows job { v with pushes := ps } { w with readers := rs } := by
  refine ⟨⟨h.watcher, h.stop, hrs, h.running, h.queues⟩, h.holding.congr rfl rfl rfl ?_⟩
  rcases hup with hup | hne
  · exact .inl ⟨hup, hup⟩
  · exact .inr ⟨rfl, fun hnil ↦ absurd hnil hne⟩

theorem Shows.setQueues {qs : List Service.RunningQueue} {crashed : Bool} (h : Shows job v w)
    (hqs : qs.map Service.RunningQueue.definition = v.queues.map Service.RunningQueue.definition) :
    Shows job { v with queues := qs, crashed := crashed } w :=
  ⟨⟨h.watcher, h.stop, h.readers, h.running, h.queues.trans hqs.symm⟩,
    h.holding.congr rfl rfl rfl (.inr ⟨rfl, id⟩)⟩

theorem definitions_set {qs : List Service.RunningQueue} {i : ℕ} {q : Service.RunningQueue}
    {d : Dispatcher.System Unit} (hq : qs[i]? = some q) :
    (qs.set i ⟨q.definition, d⟩).map Service.RunningQueue.definition =
      qs.map Service.RunningQueue.definition := by
  apply List.ext_getElem?
  intro j
  rw [List.getElem?_map, List.getElem?_map]
  by_cases hj : i = j
  · subst hj
    rw [List.getElem?_set_self (List.getElem?_eq_some_iff.mp hq).1, hq]
    rfl
  · rw [List.getElem?_set_ne hj]

theorem Shows.record (h : Shows job v w) (i : ℕ) (a : Act) : Shows job v (w.record i a) :=
  ⟨h.toAlike.record i a, h.holding.congr rfl rfl rfl (.inr ⟨rfl, id⟩)⟩

theorem At.shares {task : Service.Task} {running : Table ℕ} {pc : Service.Pc} {pc' : Pc}
    (h : At task running pc pc') (hpc : pc.blocksReaders = false) : pc'.shares = true := by
  cases h with
  | deactivating | lockJob => rfl
  | _ => cases hpc

section Push

variable {k i : ℕ} {p : Push}

theorem pushes_ne_nil (hk : v.pushes[k]? = some p) : v.pushes ≠ [] := by
  rintro hnil
  simp [hnil] at hk

theorem Shows.lockPush (h : Shows job v w) (hk : v.pushes[k]? = some p) (hp : p.pc = .lockMu)
    (hh : v.holder = none) : Follows cfg job w
      { v.goto (.push p.name p.caller) .lockJob with pushes := v.pushes.eraseIdx k } := by
  cases h.holding with
  | off _ _ hnil | booting _ _ _ hnil => exact absurd hnil (pushes_ne_nil hk)
  | held _ hh' => cases hh.symm.trans hh'
  | free hup _ hw =>
    have hstep : step cfg w (.lockPush k) =
        some { w.goto (.push p.name job) .lockJob with readers := w.readers.eraseIdx k } := by
      simp [step, State.lockPush, h.reader hk, Reader.of, hp, ReaderPc.of, hw]
    refine Shows.after hstep ⟨⟨h.watcher, h.stop, ?_, h.running, h.queues⟩,
      .held (.inr hup) rfl rfl .lockJob⟩
    change w.readers.eraseIdx k = (v.pushes.eraseIdx k).map (.of job)
    rw [h.readers, List.eraseIdx_map]

theorem Shows.rlock (h : Shows job v w) (hk : v.pushes[k]? = some p) (hp : p.pc = .rlock)
    (hr : ∀ th ∈ v.holder, th.pc.blocksReaders = false) :
    Follows cfg job w { v with pushes := v.pushes.set k { p with pc := .reading } } := by
  have hshares : (w.holder.all fun th ↦ th.pc.shares) = true := by
    cases h.holding with
    | off _ _ hnil | booting _ _ _ hnil => exact absurd hnil (pushes_ne_nil hk)
    | free _ _ hw =>
      rw [hw]
      rfl
    | held _ hh hw hat =>
      rw [hw]
      exact hat.shares (hr _ hh)
  have hstep : step cfg w (.rlock k) =
      some { w with readers := w.readers.set k (.of job { p with pc := .reading }) } := by
    simp [step, State.rlock, h.reader hk, Reader.of, hp, ReaderPc.of, hshares]
  refine Shows.after hstep (h.setReaders (.inr (pushes_ne_nil hk)) ?_)
  rw [h.readers, List.map_set]

theorem Shows.found (h : Shows job v w) (hk : v.pushes[k]? = some p) (hp : p.pc = .reading)
    (hi : v.running.lookup p.name = some i) :
    Follows cfg job w { v with pushes := v.pushes.eraseIdx k } := by
  have hr := h.reader hk
  have hlt := (List.getElem?_eq_some_iff.mp hr).1
  let r : Reader := { Reader.of job p with pc := .pushing i job }
  have hlookup : step cfg w (.lookup k) =
      some ({ w with readers := w.readers.set k r }.record i .push) := by
    rw [← h.running] at hi
    simp [step, State.lookup, hr, Reader.of, hp, ReaderPc.of, hi, r]
  have hpushed : step cfg ({ w with readers := w.readers.set k r }.record i .push)
      (.pushed k none) =
        some (({ w with readers := w.readers.eraseIdx k }.record i .push).record i
          (.pushed none)) := by
    simp [step, State.pushed, State.record, hlt, r, List.eraseIdx_set_eq]
  refine Follows.after hlookup (Shows.after hpushed ?_)
  refine ((h.setReaders (.inr (pushes_ne_nil hk)) ?_).record i _).record i _
  rw [h.readers, List.eraseIdx_map]

theorem Shows.missing (h : Shows job v w) (hk : v.pushes[k]? = some p) (hp : p.pc = .reading)
    (hi : v.running.lookup p.name = none) :
    Follows cfg job w { v with pushes := v.pushes.set k { p with pc := .lockMu } } := by
  have hstep : step cfg w (.lookup k) =
      some { w with readers := w.readers.set k (.of job { p with pc := .lockMu }) } := by
    rw [← h.running] at hi
    simp [step, State.lookup, h.reader hk, Reader.of, hp, ReaderPc.of, hi]
  refine Shows.after hstep (h.setReaders (.inr (pushes_ne_nil hk)) ?_)
  rw [h.readers, List.map_set]

end Push

/-- Each action of a node is answered by steps of its threads. -/
theorem Shows.acts (h : Shows job v w) (ha : Acts cfg col t v a t' v')
    (hc : v'.crashed = false) : Follows cfg job w v' := by
  cases ha with
  | boot hoff =>
    cases h.holding with
    | off _ _ hp hw' =>
      refine Shows.stays ⟨⟨?_, h.stop, h.readers, h.running, h.queues⟩,
        .booting rfl rfl (.inl rfl) hp hw'⟩
      rw [h.watcher, hoff]
      rfl
    | booting hw => cases hoff.symm.trans hw
    | free hup => simp [Node.up, hoff] at hup
    | held hup => simp [Node.up, hoff] at hup
  | readSame => exact h.stays
  | readNew hidle =>
    have hw : w.watcher = .idle := by rw [h.watcher, hidle]; rfl
    have hup : v.up = true := by simp [Node.up, hidle]
    exact Shows.after (e := .notice) (if_pos hw)
      ⟨⟨rfl, h.stop, h.readers, h.running, h.queues⟩, h.holding.congr rfl rfl rfl (.inl ⟨hup, rfl⟩)⟩
  | @lock task hup hh hm =>
    have hmanages : (Task.of job task).manages = true := by
      cases task with
      | add | delete => rfl
      | _ => cases hm
    exact Shows.after (e := .lock (.of job task)) (if_pos ⟨h.up hup, h.free hh hup, hmanages⟩)
      (h.shows (.inr hup) .lockJob)
  | lockReload hreloading hh =>
    have hw : w.watcher = .reloading := by rw [h.watcher, hreloading]; rfl
    have hup : v.up = true := by simp [Node.up, hreloading]
    refine Shows.after (e := .lockReload) (if_pos ⟨hw, h.free hh hup⟩) ?_
    rw [State.all, h.running]
    exact h.shows (.inr hup) (.deactivating _)
  | advance hadv => exact h.advances hadv hc
  | @exec task c t' next hh hx =>
    cases next with
    | inr r => exact h.returned hh hx
    | inl c' =>
      obtain ⟨pc, hw, hat, hup⟩ := h.held hh (by simp) (by simp)
      obtain _ | _ | _ | _ | hm | _ | _ | _ | _ | _ | _ := hat
      exact Shows.stays ⟨h.node _ _, .held hup rfl hw (.calling ((method_follow hx).trans hm))⟩
  | fail hh | lose hh => exact h.failed hh hc
  | @push name caller hup =>
    refine Shows.after (e := .call name (some job)) (if_pos (h.up hup)) (h.setReaders (.inl hup) ?_)
    rw [h.toAlike.readers, List.map_append]
    rfl
  | lockPush hk hp hh => exact h.lockPush hk hp hh
  | rlock hk hp hr => exact h.rlock hk hp hr
  | found hk hp hi => exact h.found hk hp hi
  | missing hk hp hi => exact h.missing hk hp hi
  | dispatch hq => exact (h.setQueues (definitions_set hq)).stays
  | receive hq hh ha => exact (h.setQueues (definitions_set hq)).deactivated hh ha

theorem shows_initial (job : IncomingJob) : Shows job .initial .initial where
  watcher := rfl
  stop := rfl
  readers := rfl
  running := rfl
  queues := rfl
  holding := .off rfl rfl rfl rfl

/-- Every run of the nodes over one repository is, at each node that has not crashed, a
run of the threads of one service. -/
theorem node_runs_threads {es : List (Service.Event N)} {s : Service.State N}
    (h : Service.Run cfg col t es s) (job : IncomingJob) (n : Fin N)
    (hc : (s.nodes n).crashed = false) :
    ∃ fs w, Run cfg fs w ∧ Shows job (s.nodes n) w := by
  refine invariant (fun s ↦ (s.nodes n).crashed = false → ∃ fs w, Run cfg fs w ∧
    Shows job (s.nodes n) w) ?_ h ?_ hc
  · intro s e s' ih hstep hc
    rcases node_step hstep n with ⟨rfl, ha⟩ | ⟨-, heq⟩
    · obtain ⟨fs, w, hw, hshows⟩ := ih (step_acts hstep).1
      obtain ⟨fs', w', hw', hshows'⟩ := hshows.acts ha hc
      exact ⟨fs ++ fs', w', exec_append.mpr ⟨w, hw, hw'⟩, hshows'⟩
    · rw [heq] at hc ⊢
      exact ih hc
  · exact fun _ ↦ ⟨[], .initial, rfl, shows_initial job⟩

end Run

end Fireworq.Service.Lifecycle
