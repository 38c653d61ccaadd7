import Fireworq.Revision
import Fireworq.Service.Startup

namespace Fireworq.Service

open Execution Repository
open Dispatcher (System)

variable {N : ℕ} {cfg : Config} {col : FloatColumn} {t t' : Tables} {v v' : Node} {a : Action}
  {s s' : State N} {e : Event N} {es : List (Event N)} {q : Queue} {qs : List Queue}

def Action.succeeds : Action → Bool
  | .fail | .lose => false
  | _ => true

def State.Quiet (s : State N) : Prop :=
  ∀ n, (s.nodes n).holder = none ∧ (s.nodes n).pushes = [] ∧
    ((s.nodes n).watcher = .off ∨ (s.nodes n).watcher = .idle)

instance (s : State N) : Decidable s.Quiet :=
  inferInstanceAs (Decidable (∀ n, (s.nodes n).holder = none ∧ (s.nodes n).pushes = [] ∧
    ((s.nodes n).watcher = .off ∨ (s.nodes n).watcher = .idle)))

section Runs

theorem runs_start_ne {name : String} (hx : Indexed v) (hne : name ≠ q.name) :
    (v.startJobQueue q).runs name = v.runs name := by
  simp only [Node.startJobQueue, Node.runs, Node.get, AList.lookup_insert_ne hne]
  cases hl : v.running.lookup name with
  | none => rfl
  | some i => rw [Option.bind_some, Option.bind_some, List.getElem?_append_left (hx name i hl)]

theorem runs_erase {name : String} (hr : v'.running = v.running.erase name) :
    v'.runs name = none := by
  simp [Node.runs, Node.get, hr]

theorem runs_erase_ne {name name' : String} (hr : v'.running = v.running.erase name)
    (hq : v'.queues = v.queues) (hne : name' ≠ name) : v'.runs name' = v.runs name' := by
  simp only [Node.runs, Node.get, hr, hq, AList.lookup_erase_ne hne]

theorem runs_isSome {name : String} (hx : Indexed v) : (v.runs name).isSome ↔ name ∈ v.running := by
  rw [← AList.lookup_isSome]
  cases hl : v.running.lookup name with
  | none => simp [runs_none hl]
  | some i =>
    simp [Node.runs, Node.get, hl, List.getElem?_eq_getElem (hx name i hl)]

end Runs

structure Covers (t : Tables) (v : Node) (qs : List Queue) : Prop where
  named : ∀ name d, v.runs name = some d → d.name = name
  stored : ∀ d, t.findByName d.name = some d ↔ v.runs d.name = some d ∨ d ∈ qs

theorem findByName_congr (hrows : ∀ name, t.sameRows t' (.queue name) = true) (name : String) :
    t'.findByName name = t.findByName name := by
  have hsame := sameRows_iff.mp (hrows name)
  unfold Tables.findByName
  rw [hsame.1]
  cases t.queue.lookup name with
  | none => rfl
  | some row => simp only [Option.map_some, Tables.withThrottle, Tables.ofRow, hsame.2]

theorem mem_queues_congr (hrows : ∀ name, t.sameRows t' (.queue name) = true) :
    q ∈ t'.queues ↔ q ∈ t.queues := by
  rw [Tables.mem_queues, Tables.mem_queues, (sameRows_iff.mp (hrows q.name)).1]

theorem Covers.congr (hc : Covers t v qs) (hruns : v'.runs = v.runs)
    (hrows : ∀ name, t.sameRows t' (.queue name) = true) : Covers t' v' qs where
  named := by
    rw [hruns]
    exact hc.named
  stored d := by
    rw [hruns, findByName_congr hrows]
    exact hc.stored d

theorem Covers.empty (hr : v.running = ∅) (hqs : ∀ d, t.findByName d.name = some d ↔ d ∈ qs) :
    Covers t v qs := by
  have hnone (name : String) : v.runs name = none := runs_none (by rw [hr]; rfl)
  refine ⟨fun name d hd ↦ ?_, fun d ↦ ?_⟩
  · rw [hnone] at hd
    cases hd
  · simp [hnone, hqs]

theorem Covers.found (hc : Covers t v []) (hq : t.findByName q.name = some q) :
    Covers t v [q] := by
  refine ⟨hc.named, fun d ↦ ⟨fun hd ↦ ?_, ?_⟩⟩
  · exact ((hc.stored d).mp hd).imp_right fun hnil ↦ by cases hnil
  · rintro (hd | hd)
    · exact (hc.stored d).mpr (.inl hd)
    · cases List.mem_singleton.mp hd
      exact hq

theorem Covers.unique (hc : Covers t v (q :: qs)) {d : Queue} (hd : t.findByName d.name = some d)
    (hname : d.name = q.name) : d = q := by
  have hq := (hc.stored q).mpr (.inr List.mem_cons_self)
  rw [hname, hq] at hd
  exact (Option.some.inj hd).symm

theorem Covers.start (hc : Covers t v (q :: qs)) (hx : Indexed v) :
    Covers t (v.startJobQueue q) qs := by
  refine ⟨fun name d hd ↦ ?_, fun d ↦ ?_⟩
  · by_cases heq : name = q.name
    · rw [heq, runs_start] at hd
      cases hd
      exact heq.symm
    · rw [runs_start_ne hx heq] at hd
      exact hc.named name d hd
  · by_cases heq : d.name = q.name
    · constructor
      · intro hd
        rw [hc.unique hd heq, runs_start]
        exact .inl rfl
      · rintro (hd | hd)
        · rw [heq, runs_start] at hd
          cases hd
          exact (hc.stored q).mpr (.inr List.mem_cons_self)
        · exact (hc.stored d).mpr (.inr (List.mem_cons_of_mem _ hd))
    · have hne : d ≠ q := fun hd ↦ heq (by rw [hd])
      rw [hc.stored, runs_start_ne hx heq, List.mem_cons, or_iff_right hne]

theorem Covers.erase (hc : Covers t v (q :: qs)) (hr : v'.running = v.running.erase q.name)
    (hq : v'.queues = v.queues) : Covers t v' (q :: qs) := by
  refine ⟨fun name d hd ↦ ?_, fun d ↦ ?_⟩
  · by_cases heq : name = q.name
    · rw [heq, runs_erase hr] at hd
      cases hd
    · rw [runs_erase_ne hr hq heq] at hd
      exact hc.named name d hd
  · by_cases heq : d.name = q.name
    · rw [heq, runs_erase hr, ← heq]
      constructor
      · intro hd
        rw [hc.unique hd heq]
        exact .inr List.mem_cons_self
      · rintro (hd | hd)
        · cases hd
        · exact (hc.stored d).mpr (.inr hd)
    · rw [hc.stored, runs_erase_ne hr hq heq]

theorem Covers.runs (hc : Covers t v []) (name : String) : v.runs name = t.findByName name := by
  cases hd : t.findByName name with
  | some d =>
    obtain rfl := Tables.findByName_name hd
    exact ((hc.stored d).mp hd).resolve_right (by simp)
  | none =>
    cases hr : v.runs name with
    | none => rfl
    | some d =>
      obtain rfl := hc.named name d hr
      rw [(hc.stored d).mpr (.inl hr)] at hd
      cases hd

/-- What a node whose last revision is the stored one knows while a thread holds
`mu`. -/
def Consistent (t : Tables) (v : Node) (task : Task) : Pc → Prop
  | .deactivating _ | .destroying => task.reloads = true
  | .lockJob | .awaitReaders => task.reloads = false → Covers t v []
  | .calling .findQueues => v.running = ∅
  | .calling (.findThrottles qs) => v.running = ∅ ∧ ∀ q, q ∈ qs ↔ q ∈ t.queues
  | .calling (.findThrottle q) => Covers t v [] ∧ q ∈ t.queues
  | .calling _ | .returning _ => Covers t v []
  | .starting qs => Covers t v qs
  | .putting q rest => Covers t v (q :: rest.getD [])
  | .stopping name _ (some q) rest => name = q.name ∧ Covers t v (q :: rest.getD [])
  | .removing _ | .stopping _ _ none _ => False

/-- Nothing is known between the moment the watcher has noticed a revision and its
reload. -/
structure View (t : Tables) (v : Node) : Prop where
  rest : v.holder = none → v.watcher = .idle → Covers t v []
  busy : ∀ task pc, v.holder = some ⟨task, pc⟩ → v.watcher = .idle ∨ task.reloads = true →
    Consistent t v task pc

theorem Consistent.congr {task : Task} {pc : Pc} (hc : Consistent t v task pc)
    (hr : v'.running = v.running) (hruns : v'.runs = v.runs)
    (hrows : ∀ name, t.sameRows t' (.queue name) = true) : Consistent t' v' task pc := by
  cases pc with
  | deactivating | destroying | removing => exact hc
  | lockJob | awaitReaders => exact fun ht ↦ (hc ht).congr hruns hrows
  | calling c =>
    cases c with
    | findQueues => exact hr.trans hc
    | findThrottles qs =>
      exact ⟨hr.trans hc.1, fun q ↦ (hc.2 q).trans (mem_queues_congr hrows).symm⟩
    | findThrottle q => exact ⟨hc.1.congr hruns hrows, (mem_queues_congr hrows).mpr hc.2⟩
    | _ => exact Covers.congr hc hruns hrows
  | starting | putting | returning => exact Covers.congr hc hruns hrows
  | stopping _ _ q _ =>
    cases q with
    | none => exact hc
    | some q => exact ⟨hc.1, hc.2.congr hruns hrows⟩

theorem View.same (hv : View t v) (hw : v'.watcher = v.watcher) (hh : v'.holder = v.holder)
    (hr : v'.running = v.running) (hruns : v'.runs = v.runs)
    (hrows : ∀ name, t.sameRows t' (.queue name) = true) : View t' v' where
  rest hnone hidle := (hv.rest (hh ▸ hnone) (hw ▸ hidle)).congr hruns hrows
  busy task pc hsome ht := (hv.busy task pc (hh ▸ hsome) (hw ▸ ht)).congr hr hruns hrows

theorem View.goto {task : Task} {pc pc' : Pc} (hv : View t v) (hh : v.holder = some ⟨task, pc⟩)
    (hw : v'.watcher = v.watcher) (hh' : v'.holder = some ⟨task, pc'⟩)
    (hc : Consistent t v task pc → Consistent t' v' task pc') : View t' v' where
  rest hnone := by rw [hh'] at hnone; cases hnone
  busy task' pc'' hsome ht := by
    rw [hh'] at hsome
    cases hsome
    exact hc (hv.busy task pc hh (hw ▸ ht))

def Node.Pending (v : Node) : Prop :=
  ∃ task c name, v.holder = some ⟨task, .calling c⟩ ∧ c.owes = true ∧ c.key = some (.queue name)

theorem View.exec {task : Task} {c : Call} {next : Call ⊕ Result} (hv : View t v)
    (hnp : ¬ v.Pending) (hh : v.holder = some ⟨task, .calling c⟩) (hx : Executes col t c t' next)
    (hrows : ∀ name, t.sameRows t' (.queue name) = true) : View t' (v.answered task c next) := by
  have hpending {name : String} (ho : c.owes = true) (hκ : c.key = some (.queue name)) :
      View t' (v.answered task c next) := absurd ⟨task, c, name, hh, ho, hκ⟩ hnp
  cases hx with
  | addRevision | deleteQueue | deleteThrottle | deleteRevision => exact hpending rfl rfl
  | addQueue | addThrottle | addSame | findNone | routingExists | routingNone | routingInsert
  | routingSame | routingAddRevision | routingDelete | routingDeleteRevision =>
    exact hv.goto hh rfl rfl fun hc ↦ Covers.congr hc rfl hrows
  | findQueue hrow =>
    exact hv.goto hh rfl rfl fun hc ↦
      ⟨Covers.congr hc rfl hrows, Tables.mem_queues.mpr ⟨_, hrow, rfl⟩⟩
  | findThrottle =>
    refine hv.goto hh rfl rfl fun hc ↦ Covers.congr (hc.1.found ?_) rfl hrows
    exact Tables.mem_findAll.mp (List.mem_map_of_mem hc.2)
  | findQueues => exact hv.goto hh rfl rfl fun hc ↦ ⟨hc, fun _ ↦ Iff.rfl⟩
  | findEmpty hnil =>
    refine hv.goto hh rfl rfl fun hc ↦ Covers.empty hc fun d ↦ ?_
    rw [← Tables.mem_findAll, Tables.findAll, hnil, List.map_nil]
  | findThrottles =>
    refine hv.goto hh rfl rfl fun hc ↦ Covers.empty hc.1 fun d ↦ ?_
    simp only [← Tables.mem_findAll, Tables.findAll, List.mem_map, hc.2]

theorem View.lockedJob {task : Task} (hv : View t v) (hs : StartsClear v)
    (hh : v.holder = some ⟨task, .awaitReaders⟩) : View t (v.lockedJob cfg task) := by
  cases task with
  | add q =>
    simp only [Node.lockedJob]
    split
    · exact hv.goto hh rfl rfl fun hc ↦ (hc rfl).congr rfl fun _ ↦ sameRows_refl
    · exact hv.goto hh rfl rfl fun hc ↦ (hc rfl).congr rfl fun _ ↦ sameRows_refl
  | delete | push =>
    exact hv.goto hh rfl rfl fun hc ↦ (hc rfl).congr rfl fun _ ↦ sameRows_refl
  | reload => exact hv.goto hh rfl rfl fun _ ↦ rfl
  | startup => exact hv.goto hh rfl rfl fun _ ↦ hs.clear _ _ hh rfl rfl

theorem View.advance (hv : View t v) (hs : StartsClear v) (hx : Indexed v)
    (h : Advances cfg v v') : View t v' := by
  have hsame (name : String) : t.sameRows t (.queue name) = true := sameRows_refl
  cases h with
  | deactivated hh =>
    exact hv.goto hh rfl rfl fun hc ht ↦ absurd (hc.symm.trans ht) (by decide)
  | lockJob hh => exact hv.goto hh rfl rfl fun hc ht ↦ (hc ht).congr rfl hsame
  | lockedJob hh => exact hv.lockedJob hs hh
  | destroy hh => exact hv.goto hh rfl rfl fun _ ↦ rfl
  | startNext hh => exact hv.goto hh rfl rfl fun hc ↦ Covers.congr hc rfl hsame
  | startLast hh =>
    unfold Node.initDefaultQueue
    split
    · exact hv.goto hh rfl rfl fun hc ↦ Covers.congr hc rfl hsame
    · split
      · exact hv.goto hh rfl rfl fun hc ↦ Covers.congr hc rfl hsame
      · exact hv.same rfl rfl rfl rfl hsame
  | replace hh => exact hv.goto hh rfl rfl fun hc ↦ ⟨rfl, Covers.congr hc rfl hsame⟩
  | @start _ q rest hh =>
    refine hv.goto hh rfl rfl fun hc ↦ ?_
    have hstart : Covers t (v.startJobQueue q) (rest.getD []) := Covers.start hc hx
    cases rest with
    | none => exact hstart.congr rfl hsame
    | some => exact hstart.congr rfl hsame
  | remove hh | removeNone hh => exact hv.goto hh rfl rfl fun hc ↦ False.elim hc
  | @unlock task ok hh =>
    refine ⟨fun _ hidle ↦ ?_, fun _ _ hsome ↦ by cases hsome⟩
    have hc : Consistent t v task (.returning ok) := by
      refine hv.busy task _ hh ?_
      cases task with
      | add | delete | push => exact .inl hidle
      | reload | startup => exact .inr rfl
    exact Covers.congr hc rfl hsame

theorem View.deactivated {i : ℕ} (hv : View t v) : View t (v.deactivated i) := by
  unfold Node.deactivated
  split
  · rename_i hh
    exact hv.goto hh rfl rfl fun hc ↦ hc
  · rename_i q rest hh
    refine hv.goto hh rfl rfl fun hc ↦ ?_
    cases q with
    | none => exact False.elim hc
    | some q =>
      obtain ⟨rfl, hc⟩ := hc
      exact hc.erase rfl rfl
  · exact hv

theorem View.boot (hh : v.holder = some ⟨.startup, .lockJob⟩) : View t v where
  rest hnone := by rw [hh] at hnone; cases hnone
  busy _ _ hsome _ := by
    rw [hh] at hsome
    cases hsome
    exact nofun

theorem View.reloading (hw : Watches v) (hidle : v.watcher = .idle) (hh : v'.holder = v.holder)
    (hr : v'.watcher = .reloading) : View t v' where
  rest _ hrest := by rw [hr] at hrest; cases hrest
  busy task pc hsome ht := by
    rw [hh] at hsome
    rw [hr, hw _ hsome hidle] at ht
    rcases ht with ht | ht <;> cases ht

theorem View.locked {task : Task} (hv : View t v) (hnone : v.holder = none)
    (hw : v'.watcher = v.watcher) (hh : v'.holder = some ⟨task, .lockJob⟩)
    (hruns : v'.runs = v.runs) : View t v' where
  rest hnone' := by rw [hh] at hnone'; cases hnone'
  busy _ _ hsome ht := by
    rw [hh] at hsome
    cases hsome
    intro hr
    rw [hr, hw] at ht
    exact (hv.rest hnone (ht.resolve_right (by decide))).congr hruns fun _ ↦ sameRows_refl

theorem View.acts (hv : View t v) (hs : StartsClear v) (hx : Indexed v) (hw : Watches v)
    (hnp : ¬ v.Pending) (hok : a.succeeds = true) (h : Acts cfg col t v a t' v')
    (hrows : ∀ name, t.sameRows t' (.queue name) = true) : View t' v' := by
  cases h with
  | boot => exact .boot rfl
  | readNew hidle => exact .reloading hw hidle rfl rfl
  | readSame | push | rlock | found | missing => exact hv.same rfl rfl rfl rfl hrows
  | lock _ hh _ => exact hv.locked hh rfl rfl rfl
  | lockPush _ _ hh => exact hv.locked hh rfl rfl rfl
  | lockReload hr =>
    refine ⟨nofun, fun _ _ hsome _ ↦ ?_⟩
    cases hsome
    exact rfl
  | advance h => exact hv.advance hs hx h
  | exec hh hx => exact hv.exec hnp hh hx hrows
  | fail | lose => cases hok
  | dispatch hq => exact hv.same rfl rfl rfl (runs_set rfl hq rfl) hrows
  | receive hq => exact View.deactivated (hv.same rfl rfl rfl (runs_set rfl hq rfl) hrows)

theorem Acts.lastRevision (hw : Watches v) (h : Acts cfg col t v a t' v') :
    v'.lastRevision = v.lastRevision ∨ v'.lastRevision = t'.queueRevision ∧ View t' v' := by
  cases h with
  | boot => exact .inr ⟨rfl, .boot rfl⟩
  | readNew hidle => exact .inr ⟨rfl, .reloading hw hidle rfl rfl⟩
  | advance h =>
    cases h with
    | lockedJob => exact .inl (v.lockedJob_fields cfg _).2.2
    | startLast => exact .inl (v.initDefaultQueue_fields cfg _).2.2
    | _ => exact .inl rfl
  | @exec _ _ _ next =>
    cases next with
    | inl => exact .inl rfl
    | inr r => exact .inl (v.returned_fields _ _ r).2.2
  | fail | lose => exact .inl (v.returned_fields _ _ _).2.2
  | receive => exact .inl (Node.deactivated_fields _ _).2
  | _ => exact .inl rfl

theorem Acts.revision_le (h : Acts cfg col t v a t' v') : t.queueRevision ≤ t'.queueRevision := by
  cases h with
  | exec _ hx | lose _ hx => exact hx.revision_le (κ := .queue "")
  | _ => exact le_rfl

/-- A statement that changes rows leaves its call with a revision to update. -/
theorem Acts.rows (hok : a.succeeds = true) (h : Acts cfg col t v a t' v') :
    (∀ name, t.sameRows t' (.queue name) = true) ∨ v'.Pending := by
  cases h with
  | @exec task c _ next hh hx =>
    refine or_iff_not_imp_left.mpr fun hne ↦ ?_
    obtain ⟨name, hname⟩ := not_forall.mp hne
    obtain ⟨hκ, -, ⟨c', rfl, ho⟩, -⟩ := hx.change (by simpa using hname)
    exact ⟨task, c', name, rfl, ho, hx.follow.1.trans hκ⟩
  | lose => cases hok
  | _ => exact .inl fun _ ↦ sameRows_refl

/-- What is pending stays so until the revision is updated. -/
theorem Acts.pending (hs : StartsClear v) (hok : a.succeeds = true)
    (h : Acts cfg col t v a t' v') (hp : v.Pending) :
    v'.Pending ∨ t.queueRevision < t'.queueRevision := by
  obtain ⟨task, c, name, hh, ho, hκ⟩ := hp
  have hkeep (hh' : v'.holder = v.holder) : v'.Pending ∨ t.queueRevision < t'.queueRevision :=
    .inl ⟨task, c, name, hh'.trans hh, ho, hκ⟩
  cases h with
  | boot hw =>
    rw [(hs.off hw).1] at hh
    cases hh
  | lock _ hnone _ | lockPush _ _ hnone | lockReload _ hnone =>
    rw [hnone] at hh
    cases hh
  | advance h =>
    cases h with
    | deactivated hh' | lockJob hh' | lockedJob hh' | destroy hh' | startNext hh' | startLast hh'
    | replace hh' _ | start hh' _ | remove hh' _ | removeNone hh' _ | unlock hh' =>
      rw [hh] at hh'
      cases hh'
  | @exec _ _ _ next hh' hx =>
    rw [hh] at hh'
    cases hh'
    cases next with
    | inl c' =>
      obtain ⟨hkey, -, howes⟩ := hx.follow
      exact .inl ⟨task, c', name, rfl, howes ho, hkey.trans hκ⟩
    | inr r =>
      refine .inr ?_
      have hbump : t'.queueRevision = t.queueRevision + 1 := hx.bump ho hκ
      omega
  | fail | lose => cases hok
  | receive _ hh' ha =>
    rw [hh] at hh'
    cases hh'
    cases ha
  | readSame | readNew | push | rlock | found | missing | dispatch => exact hkeep rfl

def State.Pending (s : State N) : Prop := ∃ n, (s.nodes n).Pending

structure WellFormed (s : State N) : Prop where
  startsClear : ∀ n, StartsClear (s.nodes n)
  indexed : ∀ n, Indexed (s.nodes n)
  watches : ∀ n, Watches (s.nodes n)

theorem wellFormed_initial : WellFormed (.initial t : State N) where
  startsClear _ := startsClear_initial
  indexed _ _ _ hn := by cases hn
  watches _ _ hth := by cases hth

theorem wellFormed_step (hi : WellFormed s) (h : step cfg col s e = some s') : WellFormed s' where
  startsClear := startsClear_step hi.startsClear h
  indexed := indexed_step hi.indexed h
  watches := watches_step hi.watches h

theorem pending_step (hi : WellFormed s) (hok : e.action.succeeds = true)
    (h : step cfg col s e = some s') (hp : s.Pending) :
    s'.Pending ∨ s.tables.queueRevision < s'.tables.queueRevision := by
  obtain ⟨n, hp⟩ := hp
  rcases node_step h n with ⟨-, ha⟩ | ⟨-, heq⟩
  · exact (ha.pending (hi.startsClear n) hok hp).imp_left fun hp ↦ ⟨n, hp⟩
  · exact .inl ⟨n, heq ▸ hp⟩

theorem rows_step (hok : e.action.succeeds = true) (h : step cfg col s e = some s')
    (hp : ¬ s'.Pending) (name : String) : s.tables.sameRows s'.tables (.queue name) = true := by
  rcases node_step h e.node with ⟨-, ha⟩ | ⟨hne, -⟩
  · exact (ha.rows hok).resolve_right (fun hpn ↦ hp ⟨_, hpn⟩) name
  · exact absurd rfl hne

theorem view_step {n : Fin N} (hi : WellFormed s) (hok : e.action.succeeds = true)
    (h : step cfg col s e = some s') (hp : ¬ s.Pending) (hp' : ¬ s'.Pending)
    (hv : View s.tables (s.nodes n)) : View s'.tables (s'.nodes n) := by
  have hrows := rows_step hok h hp'
  rcases node_step h n with ⟨-, ha⟩ | ⟨-, heq⟩
  · exact hv.acts (hi.startsClear n) (hi.indexed n) (hi.watches n) (fun hpn ↦ hp ⟨n, hpn⟩) hok ha
      hrows
  · rw [heq]
    exact hv.same rfl rfl rfl rfl hrows

/-- A revision that is read is not newer than the rows that are read after it. -/
theorem definitions_tracked (n : Fin N) :
    Revision.Tracks (step cfg col) (fun _ e ↦ e.action.succeeds = true) WellFormed State.Pending
      (fun s ↦ View s.tables (s.nodes n)) (fun s ↦ s.tables.queueRevision)
      (fun s ↦ (s.nodes n).lastRevision) where
  keeps _ _ _ hi _ h := wellFormed_step hi h
  grows s e s' h := by
    obtain ⟨-, t, v, ha, rfl⟩ := step_acts h
    exact ha.revision_le
  bumps _ _ _ hi hok h hp := pending_step hi hok h hp
  reads s e s' hi hok h := by
    rcases node_step h n with ⟨-, ha⟩ | ⟨-, heq⟩
    · exact (ha.lastRevision (hi.watches n)).imp_right fun hr ↦ ⟨hr.1, fun _ ↦ hr.2⟩
    · exact .inl (congrArg Node.lastRevision heq)
  follows _ _ _ hi hok h hp hp' _ hv := view_step hi hok h hp hp' hv

theorem view_initial : View t .initial where
  rest _ hidle := by cases hidle
  busy _ _ hh := by cases hh

/-- A node that has read the stored revision runs the stored queues, each with its
stored definition, whenever no operation is in progress. -/
theorem definitions_converge (h : Run cfg col t es s)
    (hok : ∀ e ∈ es, e.action.succeeds = true) (hq : s.Quiet) {n : Fin N}
    (hidle : (s.nodes n).watcher = .idle)
    (hr : (s.nodes n).lastRevision = s.tables.queueRevision) (name : String) :
    (name ∈ (s.nodes n).running ↔ name ∈ s.tables.queue) ∧
      (s.nodes n).runs name = s.tables.findByName name := by
  have hp : ¬ s.Pending := by
    rintro ⟨m, task, c, name, hh, -⟩
    rw [(hq m).1] at hh
    cases hh
  have hview : View s.tables (s.nodes n) := (definitions_tracked n).view
    (Along.of_forall (fun e he _ ↦ hok e he) _) h wellFormed_initial (Nat.zero_le _) view_initial
    hp hr
  have hruns := (hview.rest (hq n).1 hidle).runs name
  refine ⟨?_, hruns⟩
  rw [← runs_isSome (h.indexed n), hruns, ← AList.lookup_isSome, Tables.findByName,
    Option.isSome_map]

def noticed (i j : Fin 2) : List (Event 2) :=
  bootActions.map (⟨i, ·⟩) ++ bootActions.map (⟨j, ·⟩) ++
    (addNew mailQueue ++ [Action.advance]).map (⟨i, ·⟩) ++
    [Action.readRevision, .lockReload, .advance, .advance, .advance, .advance, .exec, .exec,
      .advance, .advance, .advance, .advance].map (⟨j, ·⟩)

theorem definitions_converge_noticed : ∃ s : State 2, Run plain .exact .empty (noticed 0 1) s ∧
    s.Quiet ∧ ("mail" ∈ (s.nodes 1).running ↔ "mail" ∈ s.tables.queue) ∧
      (s.nodes 1).runs "mail" = s.tables.findByName "mail" := by
  obtain ⟨s, h, hs⟩ := Option.map_eq_some_iff.mp
    (show (exec (step plain .exact) (.initial .empty) (noticed 0 1)).map (fun s : State 2 ↦
      (decide s.Quiet, (s.nodes 1).watcher, (s.nodes 1).lastRevision, s.tables.queueRevision)) =
      some (true, .idle, 1, 1) by decide +kernel)
  simp only [Prod.mk.injEq, decide_eq_true_eq] at hs
  obtain ⟨hq, hw, hl, hr⟩ := hs
  exact ⟨s, h, hq, definitions_converge h (by decide) hq hw (hl.trans hr.symm) "mail"⟩

end Fireworq.Service
