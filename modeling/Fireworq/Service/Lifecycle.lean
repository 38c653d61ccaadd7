import Fireworq.Service.Cluster
import Fireworq.Service.Phases

namespace Fireworq.Service.Lifecycle

open Execution Repository
open JobQueue (IncomingJob)

variable {cfg : Config} {v v' : State} {e : Event} {es : List Event} {task : Task} {pc pc' : Pc}
  {i : ℕ} {name : String}

section Thread

variable {todo waiting : List ℕ} {scope : Scope} {rest : Option (List Queue)} {q : Queue}

theorem Inv.move (hi : Inv v) (hh : v.holder = some ⟨task, pc⟩) (pc' : Pc) {a : Act} (ph : Phase)
    (hname : v.running.lookup name = some i) (ha : (pc.phase task i).next a = some ph)
    (hfresh : pc'.fresh = pc.fresh)
    (hph : (fun j ↦ pc'.phase task j) = Function.update (fun j ↦ pc.phase task j) i ph)
    (hshape : Shape v.running (v.queues.modify i (·.act a)) task pc')
    (hex : pc'.exclusive = pc.exclusive) : Inv ((v.goto task pc').record i a) := by
  refine hi.record ph hname ?_ rfl rfl ?_ ?_ ?_ (fun r hr hin th hth ↦ ?_) hi.pushing
  · rw [phase_eq hh]
    exact ha
  · rw [fresh_eq hh]
    exact hfresh
  · rw [phase_eq hh]
    exact hph
  · intro th hth
    cases hth
    exact hshape
  · cases hth
    rw [hex]
    exact hi.inside r hr hin _ hh

theorem Inv.deactivate (hi : Inv v)
    (hh : v.holder = some ⟨task, .deactivating todo waiting scope⟩) (hmem : i ∈ todo) :
    Inv ((v.goto task (.deactivating (todo.erase i) (i :: waiting) scope)).record i
      .deactivate) := by
  have hc : Covered v.running task todo waiting scope := hi.shape _ hh
  obtain ⟨-, name, hname⟩ := hc.found i (List.mem_append_left _ hmem)
  refine hi.move hh _ .deactivating hname ?_ rfl (Scope.phase_begin hc.nodup hmem)
    (hc.begin hmem) ?_
  · rw [Pc.phase, Scope.phase, if_pos hmem]
    rfl
  · cases scope <;> rfl

theorem Inv.deactivated (hi : Inv v)
    (hh : v.holder = some ⟨task, .deactivating todo waiting scope⟩) (hmem : i ∈ waiting) :
    Inv ((v.goto task (.deactivating todo (waiting.erase i) scope)).record i .deactivated) := by
  have hc : Covered v.running task todo waiting scope := hi.shape _ hh
  obtain ⟨hcov, name, hname⟩ := hc.found i (List.mem_append_right _ hmem)
  refine hi.move hh _ .deactivated hname ?_ rfl (Scope.phase_finish hc.nodup hmem hcov) hc.finish ?_
  · rw [Pc.phase, Scope.phase_waiting hc.nodup hmem]
    rfl
  · cases scope <;> rfl

theorem Inv.stop (hi : Inv v) (hh : v.holder = some ⟨task, .stopping todo waiting scope⟩)
    (hmem : i ∈ todo) :
    Inv ((v.goto task (.stopping (todo.erase i) (i :: waiting) scope)).record i .stop) := by
  have hc : Covered v.running task todo waiting scope := hi.shape _ hh
  obtain ⟨-, name, hname⟩ := hc.found i (List.mem_append_left _ hmem)
  refine hi.move hh _ .stopping hname ?_ rfl (Scope.phase_begin hc.nodup hmem) (hc.begin hmem) rfl
  rw [Pc.phase, Scope.phase, if_pos hmem]
  rfl

theorem Inv.stopped (hi : Inv v) (hh : v.holder = some ⟨task, .stopping todo waiting scope⟩)
    (hmem : i ∈ waiting) :
    Inv ((v.goto task (.stopping todo (waiting.erase i) scope)).record i .stopped) := by
  have hc : Covered v.running task todo waiting scope := hi.shape _ hh
  obtain ⟨hcov, name, hname⟩ := hc.found i (List.mem_append_right _ hmem)
  refine hi.move hh _ .stopped hname ?_ rfl (Scope.phase_finish hc.nodup hmem hcov) hc.finish rfl
  rw [Pc.phase, Scope.phase_waiting hc.nodup hmem]
  rfl

theorem Inv.stored {job : IncomingJob} (hi : Inv v) (hh : v.holder = some ⟨task, .pushing i job⟩)
    (id : Option ℕ) :
    Inv ((v.goto task .returning).record i (.pushed id)) := by
  obtain ⟨name, hname⟩ : ∃ name, v.running.lookup name = some i := hi.shape _ hh
  exact hi.move hh _ .active hname rfl rfl (Function.update_eq_self i _).symm trivial rfl

theorem Inv.forget (hi : Inv v) (hh : v.holder = some ⟨task, .stopping [] [] scope⟩)
    {running : Table ℕ}
    (hlookup : ∀ name i, running.lookup name = some i ↔
      v.running.lookup name = some i ∧ scope.covers i = false)
    (hfresh : pc'.fresh = none) (hph : ∀ i, pc'.phase task i = .active)
    (hshape : Shape running v.queues task pc') :
    Inv { v.goto task pc' with running := running } := by
  have hphases := hi.phases
  rw [fresh_eq hh, phase_eq hh] at hphases
  have hkept := hphases.forget (fun name i h ↦ ((hlookup name i).mp h).1) fun name i h hne ↦ by
    have hcov : scope.covers i = true := by
      rw [← Bool.not_eq_false]
      exact fun hc ↦ hne ((hlookup name i).mpr ⟨h, hc⟩)
    simp [Pc.phase, Scope.phase, hcov]
  refine hi.alter hh rfl ?_ hshape
  rw [hfresh]
  refine hkept.congr fun name i h ↦ ?_
  rw [hph]
  simp [Pc.phase, Scope.phase, ((hlookup name i).mp h).2]

theorem Inv.forgetAll (hi : Inv v) (hh : v.holder = some ⟨task, .stopping [] [] .all⟩)
    (hfresh : pc'.fresh = none) (hph : ∀ i, pc'.phase task i = .active)
    (hshape : Shape ∅ v.queues task pc') : Inv { v.goto task pc' with running := ∅ } := by
  refine hi.forget hh (fun name i ↦ iff_of_false ?_ ?_) hfresh hph hshape
  · rw [AList.lookup_empty]
    nofun
  · exact fun h ↦ by cases h.2

theorem Inv.forgetOne {d : Option Queue} (hi : Inv v)
    (hh : v.holder = some ⟨task, .stopping [] [] (.one name i d rest)⟩)
    (hfresh : pc'.fresh = none) (hph : ∀ i, pc'.phase task i = .active)
    (hshape : Shape (v.running.erase name) v.queues task pc') :
    Inv { v.goto task pc' with running := v.running.erase name } := by
  have hc : Covered v.running task [] [] (.one name i d rest) := hi.shape _ hh
  have hname := (hc.one name i d rest rfl).1
  refine hi.forget hh (fun name' j ↦ ?_) hfresh hph hshape
  by_cases hn : name' = name
  · subst hn
    refine iff_of_false (by rw [AList.lookup_erase]; nofun) fun h ↦ ?_
    rw [hname] at h
    cases h.1
    simp [Scope.covers] at h
  · rw [AList.lookup_erase_ne hn]
    refine ⟨fun h ↦ ⟨h, decide_eq_false fun hj ↦ ?_⟩, And.left⟩
    subst hj
    obtain ⟨p, hp, hpn, -⟩ := hi.phases.found name' j h
    obtain ⟨p', hp', hpn', -⟩ := hi.phases.found name j hname
    rw [hp] at hp'
    cases hp'
    exact hn (hpn.symm.trans hpn')

theorem Inv.create (hi : Inv v) (hh : v.holder = some ⟨task, .creating q rest⟩) :
    Inv { v.goto task (.storing v.queues.length q rest) with queues := v.queues ++ [⟨q, []⟩] } := by
  have hname : v.running.lookup q.name = none := hi.shape _ hh
  have hphases := hi.phases
  rw [fresh_eq hh, phase_eq hh] at hphases
  exact hi.alter hh rfl (hphases.create hname) ⟨List.getElem?_concat_length, hname⟩

theorem Inv.store (hi : Inv v) (hh : v.holder = some ⟨task, .storing i q rest⟩) :
    Inv ({ v with running := v.running.insert q.name i }.afterPut task i rest) := by
  obtain ⟨hq, hname⟩ : v.queues[i]? = some ⟨q, []⟩ ∧ v.running.lookup q.name = none :=
    hi.shape _ hh
  have hphases := hi.phases
  rw [fresh_eq hh, phase_eq hh] at hphases
  have hstored := hphases.store hq hname rfl fun _ ↦ rfl
  have hinv (pc' : Pc) (hfresh : pc'.fresh = none) (hph : ∀ j, pc'.phase task j = .active)
      (hshape : Shape (v.running.insert q.name i) v.queues task pc') :
      Inv ({ v with running := v.running.insert q.name i }.goto task pc') := by
    refine hi.alter hh rfl ?_ hshape
    rw [hfresh]
    exact hstored.congr fun _ j _ ↦ hph j
  cases rest with
  | some qs => exact hinv _ rfl (fun _ ↦ rfl) trivial
  | none =>
    cases task with
    | push name job =>
      have hret := hinv .returning rfl (fun _ ↦ rfl) trivial
      exact hret.move rfl (.pushing i job) .active (AList.lookup_insert _) rfl rfl
        (Function.update_eq_self i _).symm ⟨_, AList.lookup_insert _⟩ rfl
    | _ => exact hinv _ rfl (fun _ ↦ rfl) trivial

theorem Inv.proceed (hi : Inv v) (hh : v.holder = some ⟨task, pc⟩) (hex : pc.exclusive = true)
    (hfresh : pc.fresh = none) (hph : ∀ i, pc.phase task i = .active) (hfresh' : pc'.fresh = none)
    (hph' : ∀ i, pc'.phase task i = .active) (hshape : Shape v.running v.queues task pc') :
    Inv (v.goto task pc') :=
  hi.goto hh (hfresh'.trans hfresh.symm) (fun _ i _ ↦ (hph' i).trans (hph i).symm) hshape
    fun _ ↦ .inl hex

theorem Inv.panic (hi : Inv v) (hh : v.holder = some ⟨task, pc⟩) (hfresh : pc.fresh = none)
    (hph : ∀ i, pc.phase task i = .active) : Inv (v.panic task) :=
  hi.release hh rfl rfl rfl rfl hfresh hph

theorem Inv.lockedJob (hi : Inv v) (hh : v.holder = some ⟨task, .awaitReaders⟩)
    (hr : ∀ r ∈ v.readers, r.inside = false) : Inv (v.lockedJob cfg task) := by
  have hgo {pc' : Pc} (hw : task.wholesale = false) (hfresh : pc'.fresh = none)
      (hph : ∀ i, pc'.phase task i = .active) (hshape : Shape v.running v.queues task pc') :
      Inv (v.goto task pc') :=
    hi.goto hh hfresh (fun _ i _ ↦ (hph i).trans (by rw [Pc.phase, hw]; rfl)) hshape fun _ ↦ .inr hr
  have hstop (hw : task.wholesale = true) : Inv (v.goto task (.stopping v.all [] .all)) := by
    refine hi.goto hh rfl (fun name i h ↦ ?_) (hi.covered_all hw) fun _ ↦ .inr hr
    simp [Pc.phase, Scope.phase, mem_all.mpr ⟨name, h⟩, hw]
  cases task with
  | add q =>
    rw [State.lockedJob]
    split <;> exact hgo rfl rfl (fun _ ↦ rfl) trivial
  | delete | push | startup => exact hgo rfl rfl (fun _ ↦ rfl) trivial
  | reload | stop => exact hstop rfl

theorem Inv.initDefaultQueue (hi : Inv v) (hh : v.holder = some ⟨task, .starting []⟩) :
    Inv (v.initDefaultQueue cfg task) := by
  unfold State.initDefaultQueue
  split
  · exact hi.proceed hh rfl rfl (fun _ ↦ rfl) rfl (fun _ ↦ rfl) trivial
  · split
    · exact hi.proceed hh rfl rfl (fun _ ↦ rfl) rfl (fun _ ↦ rfl) trivial
    · exact hi.panic hh rfl fun _ ↦ rfl

theorem Inv.advances (hi : Inv v) (hh : v.holder = some ⟨task, pc⟩)
    (h : Advances cfg v task pc v') : Inv v' := by
  cases h with
  | deactivated =>
    have hc : Covered v.running task [] [] .all := hi.shape _ hh
    refine hi.goto hh rfl (fun _ i _ ↦ ?_) trivial (absurd · Bool.false_ne_true)
    simp [Pc.phase, Scope.phase, Scope.covers, hc.wholesale rfl]
  | @deactivatedOne name i q rest =>
    have hc : Covered v.running task [] [] (.one name i q rest) := hi.shape _ hh
    obtain ⟨hname, hq⟩ := hc.one name i q rest rfl
    refine hi.goto hh rfl (fun _ j _ ↦ ?_) (Covered.single hname hq) fun _ ↦ .inl rfl
    by_cases hj : j = i <;> simp [Pc.phase, Scope.phase, Scope.covers, hj]
  | lockJob => exact hi.goto hh rfl (fun _ _ _ ↦ rfl) trivial (absurd · Bool.false_ne_true)
  | lockedJob hr => exact hi.lockedJob hh hr
  | stopped =>
    split_ifs <;> exact hi.forgetAll hh rfl (fun _ ↦ rfl) trivial
  | @replaced name i q rest =>
    have hc : Covered v.running task [] [] (.one name i (some q) rest) := hi.shape _ hh
    refine hi.forgetOne hh rfl (fun _ ↦ rfl) ?_
    rw [Shape, (hc.one name i _ rest rfl).2 q rfl, AList.lookup_erase]
  | removed => exact hi.forgetOne hh rfl (fun _ ↦ rfl) trivial
  | startLast => exact hi.initDefaultQueue hh
  | startNext => exact hi.proceed hh rfl rfl (fun _ ↦ rfl) rfl (fun _ ↦ rfl) trivial
  | @replace q rest i hname =>
    refine hi.goto hh rfl (fun _ j _ ↦ ?_) (Covered.single hname ?_) fun _ ↦ .inl rfl
    · by_cases hj : j = i <;> simp [Pc.phase, Scope.phase, Scope.covers, hj]
    · exact fun d hd ↦ by cases hd; rfl
  | put hname => exact hi.proceed hh rfl rfl (fun _ ↦ rfl) rfl (fun _ ↦ rfl) hname
  | create => exact hi.create hh
  | store => exact hi.store hh
  | @remove name i hname =>
    refine hi.goto hh rfl (fun _ j _ ↦ ?_) (Covered.single hname ?_) fun _ ↦ .inl rfl
    · by_cases hj : j = i <;> simp [Pc.phase, Scope.phase, Scope.covers, hj]
    · exact fun d hd ↦ by cases hd
  | removeNone => exact hi.proceed hh rfl rfl (fun _ ↦ rfl) rfl (fun _ ↦ rfl) trivial
  | unlock => exact hi.release hh rfl rfl rfl rfl rfl fun _ ↦ rfl

theorem Inv.answered {m : Method} {a : Option Answer} (hi : Inv v)
    (hh : v.holder = some ⟨task, .calling m⟩) (h : v.answered task m a = some v') : Inv v' := by
  have hgo {pc' : Pc} (hfresh : pc'.fresh = none) (hph : ∀ i, pc'.phase task i = .active)
      (hshape : Shape v.running v.queues task pc') : Inv (v.goto task pc') :=
    hi.proceed hh rfl rfl (fun _ ↦ rfl) hfresh hph hshape
  unfold State.answered at h
  split at h
  · cases h
    unfold State.failed
    split
    · exact hi.panic hh rfl fun _ ↦ rfl
    · exact hi.panic hh rfl fun _ ↦ rfl
    · exact hgo rfl (fun _ ↦ rfl) trivial
  · cases h
    split_ifs <;> exact hgo rfl (fun _ ↦ rfl) trivial
  · cases h
    exact hgo rfl (fun _ ↦ rfl) trivial
  · split at h <;> cases h
    exact hgo rfl (fun _ ↦ rfl) trivial
  · cases h
    exact hgo rfl (fun _ ↦ rfl) trivial
  · cases h
    exact hgo rfl (fun _ ↦ rfl) trivial
  · cases h

end Thread

section Readers

variable {k : ℕ} {r : Reader}

theorem mem_set_reader {r' p : Reader} (hp : p ∈ v.readers.set k r') : p ∈ v.readers ∨ p = r' :=
  List.mem_or_eq_of_mem_set hp

theorem Inv.readers (hi : Inv v) {readers : List Reader}
    (hsub : ∀ r ∈ readers, r ∈ v.readers ∨ (∀ i job, r.pc ≠ .pushing i job) ∧
      (r.inside = true → ∀ th, v.holder = some th → th.pc.exclusive = false)) :
    Inv { v with readers := readers } := by
  refine hi.same rfl rfl rfl (fun _ _ _ ↦ rfl) hi.shape (fun r hr hin ↦ ?_) fun r hr i job hp ↦ ?_
  · rcases hsub r hr with hr | ⟨-, hex⟩
    · exact hi.inside r hr hin
    · exact hex hin
  · rcases hsub r hr with hr | ⟨hne, -⟩
    · exact hi.pushing r hr i job hp
    · exact absurd hp (hne i job)

theorem Inv.readerPush (hi : Inv v) (job : IncomingJob) {readers : List Reader} {a : Act}
    (hk : v.readers[k]? = some r) (hin : r.inside = true)
    (hname : v.running.lookup r.name = some i) (ha : a = .push ∨ ∃ id, a = .pushed id)
    (hsub : ∀ p ∈ readers, p ∈ v.readers ∨ p = { r with pc := .pushing i job }) :
    Inv ({ v with readers := readers }.record i a) := by
  have hex := hi.inside r (List.mem_of_getElem? hk) hin
  refine hi.record (v.phase i) hname (push_next hex ha i) rfl rfl rfl
    (Function.update_eq_self i v.phase).symm (fun th hth ↦ (hi.shape th hth).acts (hex th hth))
    (fun p hp hin' ↦ ?_) fun p hp j job' hpc ↦ ?_
  · rcases hsub p hp with hp | rfl
    · exact hi.inside p hp hin'
    · exact hex
  · rcases hsub p hp with hp | rfl
    · exact hi.pushing p hp j job' hpc
    · cases hpc
      exact hname

end Readers

theorem Inv.step (hi : Inv v) (h : step cfg v e = some v') : Inv v' := by
  cases step_cases h with
  | lock hh hm =>
    refine hi.acquire hh rfl rfl rfl (fun _ hr ↦ hr) rfl (fun _ i _ ↦ ?_) trivial rfl
    rw [Pc.phase, if_neg]
    cases ‹Task› <;> cases hm <;> exact Bool.false_ne_true
  | notice | callStop | endWatcher | endRoutingWatcher =>
    exact hi.same rfl rfl rfl (fun _ _ _ ↦ rfl) hi.shape hi.inside hi.pushing
  | lockReload hh =>
    refine hi.acquire hh rfl rfl rfl (fun _ hr ↦ hr) rfl (fun name i h ↦ ?_)
      (hi.covered_all rfl) rfl
    rw [Pc.phase, Scope.phase, if_pos (mem_all.mpr ⟨name, h⟩)]
  | lockStop hh =>
    refine hi.acquire hh rfl rfl rfl (fun _ hr ↦ hr) rfl (fun name i h ↦ ?_)
      (hi.covered_all rfl) rfl
    rw [Pc.phase, Scope.phase, if_pos (mem_all.mpr ⟨name, h⟩)]
  | advance hh h => exact hi.advances hh h
  | answer hh h => exact hi.answered hh h
  | deactivate hh hmem => exact hi.deactivate hh hmem
  | stop hh hmem => exact hi.stop hh hmem
  | deactivated hh hmem => exact hi.deactivated hh hmem
  | stopped hh hmem => exact hi.stopped hh hmem
  | stored hh => exact hi.stored hh _
  | call =>
    refine hi.readers fun r hr ↦ ?_
    rcases List.mem_append.mp hr with hr | hr
    · exact .inl hr
    · cases List.mem_singleton.mp hr
      exact .inr ⟨fun _ _ ↦ ReaderPc.noConfusion, (absurd · Bool.false_ne_true)⟩
  | rlock hk hh =>
    refine hi.readers fun r hr ↦ ?_
    rcases mem_set_reader hr with hr | rfl
    · exact .inl hr
    · refine .inr ⟨fun _ _ ↦ ReaderPc.noConfusion, fun _ th hth ↦ ?_⟩
      obtain ⟨task, pc⟩ := th
      have hs := hh _ hth
      cases pc with
      | deactivating todo waiting scope =>
        cases scope with
        | all => rfl
        | one => cases hs
      | lockJob => rfl
      | _ => cases hs
  | get => exact hi.readers fun r hr ↦ .inl (List.mem_of_mem_eraseIdx hr)
  | missing =>
    refine hi.readers fun r hr ↦ ?_
    rcases mem_set_reader hr with hr | rfl
    · exact .inl hr
    · exact .inr ⟨fun _ _ ↦ ReaderPc.noConfusion, (absurd · Bool.false_ne_true)⟩
  | @found k i r job hk hp hname =>
    exact hi.readerPush job hk (by rw [Reader.inside, hp]) hname (.inl rfl)
      fun p hp ↦ mem_set_reader hp
  | @pushed k i job id r hk hp =>
    have hname := hi.pushing r (List.mem_of_getElem? hk) i job hp
    exact hi.readerPush job hk (by rw [Reader.inside, hp]) hname (.inr ⟨id, rfl⟩) fun p hp ↦
      .inl (List.mem_of_mem_eraseIdx hp)
  | lockPush hk hj hh =>
    exact hi.acquire hh rfl rfl rfl (fun _ hr ↦ List.mem_of_mem_eraseIdx hr) rfl (fun _ _ _ ↦ rfl)
      trivial rfl

theorem inv_initial : Inv .initial := by
  refine ⟨⟨fun name i h ↦ ?_, nofun⟩, fun th hth ↦ ?_, nofun, nofun⟩
  · rw [State.initial, AList.lookup_empty] at h
    cases h
  · cases hth
    trivial

theorem Run.inv (h : Run cfg es v) : Inv v :=
  invariant Inv (fun _ _ _ hi hs ↦ hi.step hs) h inv_initial

/-- The life of the running queues of a service. -/
structure Orderly (v : State) : Prop where
  unique : ∀ (i j : ℕ) (p q : RunningQueue), v.queues[i]? = some p → v.queues[j]? = some q →
    p.name = q.name → p.unstopped = true → q.unstopped = true → i = j
  once : ∀ q ∈ v.queues, q.acts.count .deactivate ≤ 1 ∧ q.acts.count .stop ≤ 1
  ordered : ∀ q ∈ v.queues, ∀ xs ys, q.acts = xs ++ .stop :: ys → .deactivated ∈ xs
  /-- The exception is `putJobQueue` between its last two statements. -/
  found : ∀ (i : ℕ) (q : RunningQueue), v.queues[i]? = some q → q.unstopped = true →
    v.fresh ≠ some i → v.running.lookup q.name = some i
  pushes : ∀ q ∈ v.queues, ∀ xs ys, q.acts = xs ++ .stop :: ys →
    .push ∉ ys ∧ ∀ id, .pushed id ∉ ys

theorem Inv.in_phase (hi : Inv v) {q : RunningQueue} (hq : q ∈ v.queues) : ∃ ph, q.In ph := by
  obtain ⟨i, hq⟩ := List.getElem?_of_mem hq
  rcases hi.phases.others i q hq with hr | ⟨-, -, hin⟩ | hin
  · obtain ⟨p, hp, -, hin⟩ := hi.phases.found q.name i hr
    rw [hq] at hp
    cases hp
    exact ⟨_, hin⟩
  · exact ⟨_, hin⟩
  · exact ⟨_, hin⟩

/-- An unstopped queue is in `runningQueues`, or about to be put there. -/
theorem Inv.located (hi : Inv v) {q : RunningQueue} (hq : v.queues[i]? = some q)
    (hu : q.unstopped = true) :
    v.running.lookup q.name = some i ∨ v.fresh = some i ∧ v.running.lookup q.name = none := by
  rcases hi.phases.others i q hq with hr | ⟨hfresh, hnone, -⟩ | hin
  · exact .inl hr
  · exact .inr ⟨hfresh, hnone⟩
  · exact absurd rfl (hin.unstopped.mp hu)

theorem Inv.unique (hi : Inv v) {j : ℕ} {p q : RunningQueue} (hp : v.queues[i]? = some p)
    (hq : v.queues[j]? = some q) (hname : p.name = q.name) (hup : p.unstopped = true)
    (huq : q.unstopped = true) : i = j := by
  have hpl := hi.located hp hup
  have hql := hi.located hq huq
  rw [hname] at hpl
  rcases hpl with hpl | ⟨hpf, hpl⟩ <;> rcases hql with hql | ⟨hqf, hql⟩ <;> rw [hpl] at hql
  · exact Option.some.inj hql
  · cases hql
  · cases hql
  · exact Option.some.inj (hpf.symm.trans hqf)

/-- The lifecycle of the running queues, in every interleaving of the operations. -/
theorem running_queue_lifecycle (h : Run cfg es v) : Orderly v where
  unique _ _ _ _ := h.inv.unique
  once q hq := by
    obtain ⟨ph, hin⟩ := h.inv.in_phase hq
    rw [hin.reached.deactivate, hin.reached.stop]
    split_ifs <;> simp
  ordered q hq xs ys hxs := by
    obtain ⟨ph, hin⟩ := h.inv.in_phase hq
    exact (hin.stop_split hxs).1
  found i q hq hu hfresh := by
    rcases h.inv.located hq hu with hr | ⟨hf, -⟩
    · exact hr
    · exact absurd hf hfresh
  pushes q hq xs ys hxs := by
    obtain ⟨ph, hin⟩ := h.inv.in_phase hq
    rcases (hin.stop_split hxs).2 with rfl | rfl <;> simp

def mail : Queue := ⟨"mail", 100, 1, 0, 0⟩

def letter : IncomingJob := ⟨"mail", "http://localhost/worker", "1", 0, 10, 5, 2, ""⟩

def lived : List Event :=
  [.answer (some (.foundAll [mail]))] ++ List.replicate 6 .advance ++
  [.call "mail" (some letter), .rlock 0, .lookup 0, .lock (.add { mail with maxWorkers := 2 }),
    .pushed 0 (some 1), .advance, .advance, .answer (some (.added true)), .advance, .begin 0,
    .finish 0, .advance, .begin 0, .finish 0, .advance, .advance, .advance, .advance, .notice,
    .lockReload, .begin 1, .call "mail" (some letter), .rlock 0, .lookup 0, .pushed 0 (some 2),
    .finish 1, .advance, .advance, .advance, .begin 1, .finish 1, .advance,
    .answer (some (.foundAll [])), .advance, .advance, .callStop, .endWatcher,
    .endRoutingWatcher, .lockStop] ++ List.replicate 5 .advance

theorem running_queue_lifecycle_lived : ∃ v, Run plain lived v ∧
    v.queues.map RunningQueue.acts =
      [[.push, .pushed (some 1), .deactivate, .deactivated, .stop, .stopped],
        [.deactivate, .push, .pushed (some 2), .deactivated, .stop, .stopped]] ∧ Orderly v := by
  obtain ⟨v, h, hv⟩ := Option.map_eq_some_iff.mp
    (show (exec (step plain) .initial lived).map
        (fun v ↦ v.queues.map RunningQueue.acts) = some
      [[.push, .pushed (some 1), .deactivate, .deactivated, .stop, .stopped],
        [.deactivate, .push, .pushed (some 2), .deactivated, .stop, .stopped]] by decide +kernel)
  exact ⟨v, h, hv, running_queue_lifecycle h⟩

end Fireworq.Service.Lifecycle
