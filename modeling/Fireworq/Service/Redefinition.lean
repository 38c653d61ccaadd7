import Fireworq.Service.Cluster
import Fireworq.Service.Memory
import Fireworq.Service.Takeover

namespace Fireworq.Service.Lifecycle

open Execution Repository

section Lasting

variable {cfg : Config} {name : String} {v v' : State} {e : Event} {task : Task} {pc : Pc}

/-- The queue of the name stays defined: nobody deletes it or stops the service, and
whoever asks for all definitions gets an answer with the name in it. -/
def Stays (name : String) (v : State) : Event → Prop
  | .lock (.delete name') => name' ≠ name
  | .lockStop => False
  | .answer none => ∀ task, v.holder ≠ some ⟨task, .calling .findAll⟩
  | .answer (some (.foundAll qs)) => name ∈ qs.map Queue.name
  | _ => True

instance (name : String) (v : State) : (e : Event) → Decidable (Stays name v e)
  | .lock (.delete _) => inferInstanceAs (Decidable (¬ _))
  | .lockStop => .isFalse id
  | .answer none =>
    decidable_of_iff (∀ th ∈ v.holder, th.pc ≠ .calling .findAll)
      ⟨fun h _ hh ↦ h _ hh rfl, fun h ⟨task, _⟩ hh hpc ↦ h task (hpc ▸ hh)⟩
  | .answer (some (.foundAll qs)) => inferInstanceAs (Decidable (name ∈ qs.map Queue.name))
  | .answer (some (.added _)) | .answer (some .deleted) | .answer (some (.found _))
  | .answer (some (.revision _)) | .lock (.add _) | .lock (.push _ _) | .lock .reload
  | .lock .startup | .lock .stop | .notice | .lockReload | .callStop | .endWatcher
  | .endRoutingWatcher | .advance | .begin _ | .finish _ | .stored _ | .call _ _ | .rlock _
  | .lookup _ | .pushed _ _ | .lockPush _ => .isTrue trivial

def Starts (name : String) (q : Queue) (rest : Option (List Queue)) : Prop :=
  q.name = name ∨ ∃ qs, rest = some qs ∧ name ∈ qs.map Queue.name

def Scope.Brings (name : String) : Scope → Prop
  | .one _ _ (some q) rest => Starts name q rest
  | _ => False

def Pc.Brings (name : String) (task : Task) : Pc → Prop
  | .deactivating _ _ scope => scope.Brings name
  | .stopping _ _ scope => scope.Brings name ∨ task = .reload ∧ scope = .all
  | .calling .findAll => True
  | .starting qs => name ∈ qs.map Queue.name
  | .putting q rest | .creating q rest | .storing _ q rest => Starts name q rest
  | _ => False

def Scope.removes : Scope → Option String
  | .one name _ none _ => some name
  | _ => none

def Pc.removes : Pc → Option String
  | .deactivating _ _ scope | .stopping _ _ scope => scope.removes
  | .calling (.deleteByName name) | .removing name => some name
  | _ => none

structure Lasting (name : String) (v : State) : Prop where
  there : (∃ i, v.running.lookup name = some i) ∨
    ∃ th, v.holder = some th ∧ th.pc.Brings name th.task
  spared : ∀ th, v.holder = some th → th.task ≠ .stop ∧ th.task ≠ .delete name ∧
    th.pc.removes ≠ some name

/-- The same queues are running, and the thread has gone on to where it still brings
the name. -/
theorem Lasting.move {pc' : Pc} (hl : Lasting name v) (hh : v.holder = some ⟨task, pc⟩)
    (hh' : v'.holder = some ⟨task, pc'⟩) (hr : v'.running = v.running)
    (hb : pc.Brings name task → pc'.Brings name task)
    (hrem : pc'.removes = some name → pc.removes = some name) : Lasting name v' where
  there := by
    rw [hr]
    rcases hl.there with hi | ⟨th, hth, hth'⟩
    · exact .inl hi
    · cases hh.symm.trans hth
      exact .inr ⟨_, hh', hb hth'⟩
  spared th hth := by
    cases hh'.symm.trans hth
    obtain ⟨hstop, hdel, hpc⟩ := hl.spared _ hh
    exact ⟨hstop, hdel, fun h ↦ hpc (hrem h)⟩

theorem Lasting.running (hl : Lasting name v)
    (hb : ∀ th, v.holder = some th → ¬ th.pc.Brings name th.task) :
    ∃ i, v.running.lookup name = some i := by
  rcases hl.there with hi | ⟨th, hth, hth'⟩
  · exact hi
  · exact absurd hth' (hb th hth)

theorem Lasting.release (hl : Lasting name v) (hh : v.holder = some ⟨task, pc⟩)
    (hh' : v'.holder = none) (hr : v'.running = v.running) (hb : ¬ pc.Brings name task) :
    Lasting name v' where
  there := by
    rw [hr]
    refine .inl (hl.running fun th hth ↦ ?_)
    cases hh.symm.trans hth
    exact hb
  spared th hth := by
    cases hh'.symm.trans hth

theorem Lasting.acquire (hl : Lasting name v) (hh : v.holder = none)
    (hh' : v'.holder = some ⟨task, pc⟩) (hr : v'.running = v.running) (hstop : task ≠ .stop)
    (hdel : task ≠ .delete name) (hrem : pc.removes = none) : Lasting name v' where
  there := by
    rw [hr]
    refine .inl (hl.running fun th hth ↦ ?_)
    cases hh.symm.trans hth
  spared th hth := by
    cases hh'.symm.trans hth
    refine ⟨hstop, hdel, ?_⟩
    rw [hrem]
    nofun

theorem Lasting.lockedJob (hl : Lasting name v) (hh : v.holder = some ⟨task, .awaitReaders⟩) :
    Lasting name (v.lockedJob cfg task) := by
  obtain ⟨-, hdel, -⟩ := hl.spared _ hh
  have hgo {pc' : Pc} (hrem : pc'.removes = none) : Lasting name (v.goto task pc') := by
    refine hl.move hh rfl rfl False.elim fun h ↦ ?_
    cases hrem.symm.trans h
  cases task with
  | add q =>
    rw [State.lockedJob]
    split
    · exact hgo rfl
    · exact hgo rfl
  | delete name' =>
    refine hl.move hh rfl rfl False.elim fun h ↦ ?_
    exact absurd (congrArg Task.delete (Option.some.inj h)) hdel
  | push | startup | reload | stop => exact hgo rfl

theorem Lasting.advance (hl : Lasting name v) (hi : Inv v) (hh : v.holder = some ⟨task, pc⟩)
    (h : Advances cfg v task pc v') : Lasting name v' := by
  cases h with
  | deactivated => exact hl.move hh rfl rfl nofun nofun
  | deactivatedOne => exact hl.move hh rfl rfl .inl id
  | lockJob => exact hl.move hh rfl rfl nofun nofun
  | lockedJob => exact hl.lockedJob hh
  | stopped =>
    obtain ⟨hstop, hdel, -⟩ := hl.spared _ hh
    have hshape : Covered _ task _ _ _ := hi.shape _ hh
    have hreload : task = .reload := by
      have hw := hshape.wholesale rfl
      cases task <;> first | rfl | cases hw
      exact absurd rfl hstop
    subst hreload
    refine ⟨.inr ⟨_, rfl, trivial⟩, fun th hth ↦ ?_⟩
    cases hth
    exact ⟨hstop, hdel, nofun⟩
  | @replaced name' i q rest =>
    obtain ⟨hstop, hdel, -⟩ := hl.spared _ hh
    have hshape : Covered _ task _ _ _ := hi.shape _ hh
    have hname : q.name = name' := (hshape.one _ _ _ _ rfl).2 q rfl
    refine ⟨?_, fun th hth ↦ ?_⟩
    · by_cases hn : name = name'
      · exact .inr ⟨_, rfl, .inl (hname.trans hn.symm)⟩
      · rcases hl.there with ⟨j, hj⟩ | ⟨th, hth, hb⟩
        · exact .inl ⟨j, by rwa [AList.lookup_erase_ne hn]⟩
        · cases hh.symm.trans hth
          exact .inr ⟨_, rfl, hb.resolve_right nofun⟩
    · cases hth
      exact ⟨hstop, hdel, nofun⟩
  | @removed name' i rest =>
    obtain ⟨hstop, hdel, hrem⟩ := hl.spared _ hh
    have hn : name ≠ name' := fun hn ↦ hrem (congrArg some hn.symm)
    obtain ⟨j, hj⟩ := hl.running fun th hth ↦ by
      cases hh.symm.trans hth
      exact not_or.mpr ⟨id, nofun⟩
    refine ⟨.inl ⟨j, ?_⟩, fun th hth ↦ ?_⟩
    · dsimp only
      rwa [AList.lookup_erase_ne hn]
    · cases hth
      exact ⟨hstop, hdel, nofun⟩
  | startLast =>
    unfold State.initDefaultQueue
    split
    · exact hl.move hh rfl rfl nofun nofun
    · split
      · exact hl.move hh rfl rfl nofun nofun
      · exact hl.release hh rfl rfl nofun
  | @startNext q qs =>
    refine hl.move hh rfl rfl (fun h ↦ ?_) nofun
    rcases List.mem_cons.mp h with h | h
    · exact .inl h.symm
    · exact .inr ⟨qs, rfl, h⟩
  | replace => exact hl.move hh rfl rfl id nofun
  | put => exact hl.move hh rfl rfl id nofun
  | create => exact hl.move hh rfl rfl id nofun
  | @store i q rest =>
    obtain ⟨hstop, hdel, -⟩ := hl.spared _ hh
    have hthere : (∃ j, (v.running.insert q.name i).lookup name = some j) ∨
        ∃ qs, rest = some qs ∧ name ∈ qs.map Queue.name := by
      by_cases hn : name = q.name
      · exact .inl ⟨i, by rw [hn, AList.lookup_insert]⟩
      · rcases hl.there with ⟨j, hj⟩ | ⟨th, hth, hb⟩
        · exact .inl ⟨j, by rwa [AList.lookup_insert_ne hn]⟩
        · cases hh.symm.trans hth
          rcases hb with hb | hb
          · exact absurd hb.symm hn
          · exact .inr hb
    cases rest with
    | some qs =>
      refine ⟨?_, fun th hth ↦ ?_⟩
      · rcases hthere with hj | ⟨qs', hqs, hmem⟩
        · exact .inl hj
        · cases hqs
          exact .inr ⟨_, rfl, hmem⟩
      · cases hth
        exact ⟨hstop, hdel, nofun⟩
    | none =>
      have hj : ∃ j, (v.running.insert q.name i).lookup name = some j :=
        hthere.resolve_right nofun
      unfold State.afterPut
      dsimp only
      split
      · refine ⟨.inl hj, fun th hth ↦ ?_⟩
        cases hth
        exact ⟨nofun, nofun, nofun⟩
      · refine ⟨.inl hj, fun th hth ↦ ?_⟩
        cases hth
        exact ⟨hstop, hdel, nofun⟩
  | remove => exact hl.move hh rfl rfl nofun id
  | removeNone => exact hl.move hh rfl rfl nofun nofun
  | unlock => exact hl.release hh rfl rfl nofun

theorem Lasting.answered {m : Method} {a : Option Answer} (hl : Lasting name v)
    (hs : Stays name v (.answer a)) (hh : v.holder = some ⟨task, .calling m⟩)
    (h : v.answered task m a = some v') : Lasting name v' := by
  unfold State.answered at h
  split at h
  · cases h
    have hb : ¬ (Pc.calling m).Brings name task := by
      intro hb
      cases m with
      | findAll => exact hs task hh
      | _ => exact hb
    unfold State.failed
    split
    · exact hl.release hh rfl rfl hb
    · exact hl.release hh rfl rfl hb
    · exact hl.move hh rfl rfl (fun h ↦ absurd h hb) nofun
  · cases h
    split
    · exact hl.move hh rfl rfl nofun nofun
    · exact hl.move hh rfl rfl nofun nofun
  · cases h
    exact hl.move hh rfl rfl nofun id
  · split at h <;> cases h
    exact hl.move hh rfl rfl nofun nofun
  · cases h
    exact hl.move hh rfl rfl nofun nofun
  · cases h
    exact hl.move hh rfl rfl (fun _ ↦ hs) nofun
  · cases h

theorem Lasting.step (hl : Lasting name v) (hi : Inv v) (hs : Stays name v e)
    (h : step cfg v e = some v') : Lasting name v' := by
  cases step_cases h with
  | @lock task hh hm =>
    refine hl.acquire hh rfl rfl ?_ ?_ rfl
    · intro htask
      subst htask
      cases hm
    · intro htask
      subst htask
      exact hs rfl
  | lockReload hh => exact hl.acquire hh rfl rfl nofun nofun rfl
  | lockStop => exact hs.elim
  | lockPush _ _ hh => exact hl.acquire hh rfl rfl nofun nofun rfl
  | advance hh h => exact hl.advance hi hh h
  | answer hh h => exact hl.answered hs hh h
  | deactivate hh => exact hl.move hh rfl rfl id id
  | deactivated hh => exact hl.move hh rfl rfl id id
  | stop hh => exact hl.move hh rfl rfl id id
  | stopped hh => exact hl.move hh rfl rfl id id
  | stored hh => exact hl.move hh rfl rfl nofun nofun
  | notice | callStop | endWatcher | endRoutingWatcher | call | rlock | get | found | missing
  | pushed => exact ⟨hl.there, hl.spared⟩

end Lasting

namespace Memory

open InMemory (Finished)

variable {cfg : Config} {name : String} {w w' : driver.World} {e : driver.Event}
  {es : List driver.Event}

def StopsOnly (P : InMemory.State → ℕ → Prop) (name : String) (w : driver.World) :
    driver.Event → Prop
  | .service e _ => ∀ i q, w.service.stops e = some i → w.service.queues[i]? = some q →
    q.name = name → ∀ p < (w.store i).objects.length, P (w.store i) p
  | _ => True

instance (P : InMemory.State → ℕ → Prop) [∀ s p, Decidable (P s p)] (name : String)
    (w : driver.World) : (e : driver.Event) → Decidable (StopsOnly P name w e)
  | .service e _ =>
    decidable_of_iff (∀ i ∈ w.service.stops e, ∀ q ∈ w.service.queues[i]?, q.name = name →
        ∀ p < (w.store i).objects.length, P (w.store i) p)
      ⟨fun h i q hi hq ↦ h i hi q hq, fun h i hi q hq ↦ h i q hi hq⟩
  | .own _ _ | .free _ => .isTrue trivial

def Spares : String → driver.World → driver.Event → Prop := StopsOnly Finished

def Spared (name : String) (w : driver.World) : Prop :=
  ∀ (i : ℕ) (q : RunningQueue), w.service.queues[i]? = some q → q.name = name →
    q.unstopped = false → ∀ p < (w.store i).objects.length, Finished (w.store i) p

theorem Spared.frame {t : ℕ → InMemory.State} {op : Op} (hs : Spared name w)
    (h : does w.store op = some t)
    (hop : ∀ (i : ℕ) (q : RunningQueue), w.service.queues[i]? = some q → q.unstopped = false →
      op.on i = false) : Spared name ⟨w.service, t⟩ := by
  intro i q hq hname hu p hp
  obtain ⟨hobj, hcomp⟩ := does_frame h (hop i q hq hu)
  dsimp only at hp ⊢
  rw [hobj] at hp
  rw [Finished, hcomp]
  exact hs i q hq hname hu p hp

theorem Spared.service {v : State} {f : Event} (hs : Spared name w)
    (h : Lifecycle.step cfg w.service f = some v)
    (hstop : ∀ i q, w.service.stops f = some i → w.service.queues[i]? = some q →
      q.name = name → ∀ p < (w.store i).objects.length, Finished (w.store i) p) :
    Spared name ⟨v, w.store⟩ := by
  intro i q hq hname hu
  rcases (step_grows h).cases hq with hq | ⟨-, hnil, -⟩ | ⟨p, a, hp, rfl, hact, -⟩
  · exact hs i q hq hname hu
  · rw [RunningQueue.unstopped, hnil] at hu
    cases hu
  · by_cases ha : a = .stopped
    · exact hstop i p (hact ha) hp hname
    · refine hs i p hp hname ?_
      rw [Bool.eq_false_iff] at hu ⊢
      intro hup
      exact hu (unstopped_act.mpr ⟨hup, ha⟩)

theorem Spared.step (hs : Spared name w) (hi : Inv w.service) (he : Spares name w e)
    (h : driver.step cfg w e = some w') : Spared name w' := by
  cases Driver.step_moves h with
  | @push f op v t i job id q hv hret hq hp ht =>
    obtain ⟨rfl, -⟩ := of_decide_eq_true hp
    obtain ⟨-, hnone⟩ | ⟨o, ho, ht⟩ := ht
    · cases hnone
    · cases ho
      have ht : does w.store (.push i job) = some t := ht
      have hframe := hs.frame ht fun j q' hq' hu ↦ by
        refine decide_eq_false fun hij ↦ ?_
        subst hij
        rw [hi.returns_unstopped hret hq'] at hu
        cases hu
      refine hframe.service hv fun j q' hj ↦ ?_
      rw [stops_of_returns hret] at hj
      cases hj
  | quiet hv => exact hs.service hv he
  | @own i op t q hq hu ho ht =>
    refine hs.frame ht fun j q' hq' hu' ↦ owns_on ho fun hij ↦ ?_
    subst hij
    cases hq.symm.trans hq'
    rw [hu] at hu'
    cases hu'
  | @free op t hf ht =>
    refine hs.frame ht fun j q' _ _ ↦ ?_
    cases op with
    | tick => rfl
    | push | own => cases hf

theorem Run.spared (h : driver.Run cfg es w)
    (hs : Along (driver.step cfg) (Spares name) (Driver.World.initial _) es) : Spared name w := by
  have hP := hs.invariant (fun w ↦ Inv w.service ∧ Spared name w)
    (fun u e u' ⟨hi, hsp⟩ he hstep ↦ ⟨(Driver.step_moves hstep).inv hi, hsp.step hi he hstep⟩) h
    ⟨inv_initial, fun i q hq ↦ by cases hq⟩
  exact hP.2

theorem Run.holds (h : driver.Run cfg es w)
    (hs : Along (driver.step cfg) (Spares name) (Driver.World.initial _) es) {i id : ℕ}
    {q : RunningQueue} (hq : w.service.queues[i]? = some q) (hname : q.name = name)
    (hid : .pushed (some id) ∈ q.acts) : Holds w name i id := by
  have hstore := Run.storeInv h
  cases hu : q.unstopped with
  | true => exact hname ▸ holds_of_unstopped (Driver.Run.inv h) hstore hq hid hu
  | false =>
    refine ⟨hstore.accepted i q id hq hid, fun p ⟨j, hj, _⟩ ↦ .inl ?_⟩
    exact Run.spared h hs i q hq hname hu p (List.getElem?_eq_some_iff.mp hj).1

end Memory

namespace Database

open MySQL.Cluster (Removed)

variable {cfg : Config} {name : String} {u w : driver.World} {es xs ys : List driver.Event}

def Defined (name : String) (w : driver.World) : driver.Event → Prop
  | .service e _ => Stays name w.service e
  | _ => True

instance (name : String) (w : driver.World) : (e : driver.Event) → Decidable (Defined name w e)
  | .service e _ => inferInstanceAs (Decidable (Stays name w.service e))
  | .own _ _ | .free _ => .isTrue trivial

/-- The job has its row, which the queue that serves the name can pop or is working
on as soon as it is active, unless the job has been completed or deleted. -/
def Keeps (es : List driver.Event) (w : driver.World) (name : String) (id : ℕ) : Prop :=
  Removed (history (table name) es) id ∨ ∃ j r, w.service.Serves name j ∧
    (w.store.fleet (table name)).table.find id = some r ∧
    (w.store.active j = true → r.status = .claimed ∨ Hand w.store (table name) j id)

theorem lasting_exec (hi : Inv u.service) (hl : Lasting name u.service)
    (hd : Along (driver.step cfg) (Defined name) u ys)
    (h : exec (driver.step cfg) u ys = some w) : Lasting name w.service := by
  have hP := hd.invariant (fun w ↦ Inv w.service ∧ Lasting name w.service) ?_ h ⟨hi, hl⟩
  · exact hP.2
  · intro w e w' ⟨hi, hl⟩ he hstep
    have hmoves := Driver.step_moves hstep
    refine ⟨hmoves.inv hi, ?_⟩
    cases hmoves with
    | push hv => exact hl.step hi he hv
    | quiet hv => exact hl.step hi he hv
    | own => exact hl
    | free => exact hl

/-- While the steps are steady, a queue that serves its name and an accepted job
that is still in the tables are together. -/
theorem Run.keeps (h : driver.Run cfg es w)
    (hs : Along (driver.step cfg) (Steady (table name)) (Driver.World.initial _) es) {i j id : ℕ}
    {q : RunningQueue} (hq : w.service.queues[i]? = some q) (hname : q.name = name)
    (hid : .pushed (some id) ∈ q.acts) (hh : w.service.holder = none)
    (hj : w.service.running.lookup name = some j) : Keeps es w name id := by
  have hinv : Inv w.service := Driver.Run.inv h
  have hkept := (Run.kept h hq hid).kept
  rw [hname] at hkept
  rcases hkept with ⟨r, hr⟩ | hrem
  · refine .inr ⟨j, r, hinv.serves hj, hr, fun ha ↦ ?_⟩
    obtain ⟨p, hp, hpn, hin⟩ := hinv.phases.found name j hj
    cases hst : r.status with
    | claimed => exact .inl rfl
    | grabbed =>
      rw [State.phase, hh] at hin
      have hactive : p.In .active := hin
      have hlive : Live w.service (table name) j :=
        ⟨p, hp, hactive.unstopped.mpr (by decide), congrArg table hpn⟩
      exact .inr ((Run.tableInv h hs).active j hlive ha id r hr hst)
  · exact .inl hrem

end Database

/-- Whatever queues are defined, deleted and reloaded, a job that the queue of a name
has accepted is completed or with the queue that serves the name: in memory if the
queues of the name are stopped without a job, in the database if the steps are steady
and the name stays defined. -/
theorem redefinition_keeps_jobs {cfg : Config} {name : String} :
    (∀ es w, Memory.driver.Run cfg es w →
      Along (Memory.driver.step cfg) (Memory.Spares name) (Driver.World.initial _) es →
      ∀ (i : ℕ) (q : RunningQueue) id, w.service.queues[i]? = some q → q.name = name →
        .pushed (some id) ∈ q.acts → Memory.Holds w name i id) ∧
    ∀ xs ys u w, Database.driver.Run cfg xs u →
      exec (Database.driver.step cfg) u ys = some w →
      (∃ j, u.service.running.lookup name = some j) → u.service.holder = none →
      Along (Database.driver.step cfg) (Database.Steady (Database.table name))
        (Driver.World.initial _) (xs ++ ys) →
      Along (Database.driver.step cfg) (Database.Defined name) u ys → w.service.holder = none →
      ∀ (i : ℕ) (q : RunningQueue) id, w.service.queues[i]? = some q → q.name = name →
        .pushed (some id) ∈ q.acts → Database.Keeps (xs ++ ys) w name id := by
  refine ⟨fun es w h hs i q id hq hname hid ↦ Memory.Run.holds h hs hq hname hid, ?_⟩
  intro xs ys u w hu hw hj hh hs hd hhw i q id hq hname hid
  have hl : Lasting name u.service := by
    refine ⟨.inl hj, fun th hth ↦ ?_⟩
    cases hh.symm.trans hth
  obtain ⟨j, hj⟩ := (Database.lasting_exec (Driver.Run.inv hu) hl hd hw).running fun th hth ↦ by
    cases hhw.symm.trans hth
  exact Database.Run.keeps (exec_append.mpr ⟨u, hu, hw⟩) hs hq hname hid hhw hj

section Runs

def news : Queue := { mail with name := "news" }

def opening : List Event :=
  .answer (some (.foundAll [mail])) :: List.replicate 6 .advance ++
    [.call "mail" (some letter), .rlock 0, .lookup 0]

def adding : List Event :=
  [.lock (.add news), .advance, .advance, .answer (some (.added true))] ++
    List.replicate 4 .advance ++ [.notice, .lockReload, .begin 0, .begin 1, .finish 0, .finish 1,
    .advance, .advance, .advance, .begin 0, .begin 1]

def reloading : List Event :=
  [.finish 0, .finish 1, .advance, .answer (some (.foundAll [mail, news]))] ++
    List.replicate 10 .advance

end Runs

namespace Memory

open InMemory (Finished)

def dropped : List driver.Event :=
  alone opening ++ .service (.pushed 0 (some 1)) (some (Op.push 0 letter)) ::
    alone (adding ++ reloading)

theorem redefinition_drops_job : ∃ w q, driver.Run plain dropped w ∧ w.service.holder = none ∧
    w.service.queues[0]? = some q ∧ q.name = "mail" ∧ .pushed (some 1) ∈ q.acts ∧
    w.service.running.lookup "mail" = some 2 ∧ (w.store 2).objects.length = 0 ∧
    ¬ Finished (w.store 0) 0 ∧ ¬ Holds w "mail" 0 1 := by
  have hrun : (exec (driver.step plain) (Driver.World.initial _) dropped).map (fun w ↦
      (w.service.holder, w.service.queues[0]?, w.service.running.lookup "mail",
        (w.store 2).objects.length, (w.store 0).objects[0]?.map InMemory.Job.id)) =
      some (none, some ⟨mail, [.push, .pushed (some 1), .deactivate, .deactivated, .stop,
        .stopped]⟩, some 2, 0, some 1) := by
    decide +kernel
  have hcompletes (k : ℕ) : (exec (driver.step plain) (Driver.World.initial _) dropped).map
      (fun w ↦ (w.store 0).completes k) = some none := rfl
  obtain ⟨w, hw, hrun⟩ := Option.map_eq_some_iff.mp hrun
  simp only [Prod.mk.injEq] at hrun
  obtain ⟨hh, hq, hlookup, hempty, hobj⟩ := hrun
  have hfin : ¬ Finished (w.store 0) 0 := by
    intro ⟨k, taken, done, hk, _⟩
    have hnone := hcompletes k
    rw [hw, Option.map_some, hk] at hnone
    cases hnone
  obtain ⟨j, hj, hid⟩ := Option.map_eq_some_iff.mp hobj
  refine ⟨w, _, hw, hh, hq, rfl, by decide, hlookup, hempty, hfin, fun hholds ↦ ?_⟩
  rcases hholds.2 0 ⟨j, hj, hid⟩ with hf | ⟨-, hserves, -⟩
  · exact hfin hf
  · cases hserves.symm.trans hlookup

def delivered : List driver.Event :=
  alone opening ++ [.service (.pushed 0 (some 1)) (some (Op.push 0 letter)),
    .own 0 (Op.own 0 (.pop 1)), .own 0 (Op.own 0 (.complete 0 0 ⟨"success", 200, ""⟩)),
    .own 0 (Op.own 0 (.finish 0))] ++ alone (adding ++ reloading)

theorem delivered_spares :
    Along (driver.step plain) (Spares "mail") (Driver.World.initial _) delivered := by
  have hdone : Along (driver.step plain)
      (StopsOnly (fun s p ↦ ∃ c ∈ s.completes p, c.job = p ∧ c.taken ≠ .retry) "mail")
      (Driver.World.initial _) delivered := by
    decide +kernel
  refine hdone.mono fun w e he ↦ ?_
  cases e with
  | service e op =>
    intro i q hi hq hname p hp
    obtain ⟨⟨p', taken, done⟩, hc, rfl, htaken⟩ := he i q hi hq hname p hp
    exact ⟨p', taken, done, hc, htaken⟩
  | own | free => trivial

end Memory

namespace Database

open MySQL (TableName)

def pushedMail : List driver.Event :=
  alone (opening.take 7) ++ [.own 0 (Op.own 0 "mail" (.connect 0 7)),
    .own 0 (Op.own 0 "mail" (.recover 0)), .own 0 (Op.own 0 "mail" (.orphans 0 [])),
    .own 0 (Op.own 0 "mail" (.activate 0))] ++ alone (opening.drop 7) ++
    [.service (.pushed 0 (some 1)) (some (Op.push "mail" letter true))]

def addedNews : List driver.Event :=
  alone adding ++ .own 0 (Op.own 0 "mail" (.disconnect 0)) :: alone reloading

def connects (tn : TableName) (e : driver.Event) : Bool :=
  match e.op.bind (Op.on tn) with
  | some (.connect _ _) => true
  | _ => false

theorem addedNews_steady : Along (driver.step plain) (Steady (table "mail"))
    (Driver.World.initial _) (pushedMail ++ addedNews) := by
  have hcalm : Along (driver.step plain) (fun w e ↦
      (∀ c ∈ e.op.bind (Op.on (table "mail")),
        CalmWith (fun _ ↦ True) (w.store.fleet (table "mail")) c) ∧
      Apart (table "mail") w.service) (Driver.World.initial _) (pushedMail ++ addedNews) := by
    decide +kernel
  have hone : (pushedMail ++ addedNews).countP (connects (table "mail")) = 1 := by
    decide +kernel
  refine Along.of_split fun xs e ys w hsplit hw ↦ ?_
  rw [hsplit] at hcalm hone
  obtain ⟨hcalm, hapart⟩ := hcalm.at hw
  refine ⟨fun c hc ↦ ?_, hapart⟩
  have hcalm := hcalm c hc
  cases c with
  | connect node id =>
    refine ⟨hcalm.1, fun m session hm ↦ ?_, hcalm.2.2⟩
    have hmem := MySQL.Cluster.Run.connect_mem (Run.tables hw (table "mail")) hm
    obtain ⟨f, hf, hfc⟩ := List.mem_filterMap.mp hmem
    have hpos : 0 < xs.countP (connects (table "mail")) :=
      List.countP_pos_iff.mpr ⟨f, hf, by rw [connects, hfc]⟩
    have hcons : connects (table "mail") e = true := by rw [connects, hc]
    rw [List.countP_append, List.countP_cons_of_pos hcons] at hone
    omega
  | _ => exact hcalm

end Database

theorem redefinition_keeps_jobs_added :
    (∃ w, Memory.driver.Run plain Memory.delivered w ∧ Memory.Holds w "mail" 0 1) ∧
    ∃ w, Database.driver.Run plain (Database.pushedMail ++ Database.addedNews) w ∧
      Database.Keeps (Database.pushedMail ++ Database.addedNews) w "mail" 1 := by
  constructor
  · obtain ⟨w, hw, hq⟩ := Option.map_eq_some_iff.mp
      (show (exec (Memory.driver.step plain) (Driver.World.initial _) Memory.delivered).map
        (fun w ↦ w.service.queues[0]?) = some (some ⟨mail, [.push, .pushed (some 1), .deactivate,
          .deactivated, .stop, .stopped]⟩) by decide +kernel)
    exact ⟨w, hw, redefinition_keeps_jobs.1 _ w hw Memory.delivered_spares 0 _ 1 hq rfl
      (by decide)⟩
  · obtain ⟨u, hu, hstart⟩ := Option.map_eq_some_iff.mp
      (show (exec (Database.driver.step plain) (Driver.World.initial _) Database.pushedMail).map
        (fun u ↦ (u.service.running.lookup "mail", u.service.holder)) = some (some 0, none) by
        decide +kernel)
    obtain ⟨w, hw, hend⟩ := Option.map_eq_some_iff.mp
      (show (exec (Database.driver.step plain) (Driver.World.initial _)
        (Database.pushedMail ++ Database.addedNews)).map
        (fun w ↦ (w.service.queues[0]?, w.service.holder)) = some (some ⟨mail, [.push,
          .pushed (some 1), .deactivate, .deactivated, .stop, .stopped]⟩, none) by
        decide +kernel)
    obtain ⟨u', hu', hw'⟩ := exec_append.mp hw
    cases Option.some.inj (hu.symm.trans hu')
    obtain ⟨hlookup, hh⟩ := Prod.mk.inj hstart
    obtain ⟨hq, hhw⟩ := Prod.mk.inj hend
    have hdefined : Along (Database.driver.step plain) (Database.Defined "mail")
        (Driver.World.initial _) (Database.pushedMail ++ Database.addedNews) := by
      decide +kernel
    exact ⟨w, hw, redefinition_keeps_jobs.2 _ _ u w hu hw' ⟨0, hlookup⟩ hh
      Database.addedNews_steady (hdefined.split hu).2 hhw 0 _ 1 hq rfl (by decide)⟩

end Fireworq.Service.Lifecycle
