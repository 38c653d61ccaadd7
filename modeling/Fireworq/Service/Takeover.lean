import Fireworq.Service.Database

namespace Fireworq.Service.Lifecycle.Database

open Execution Function
open MySQL (TableName Row Job storable)
open MySQL.Cluster (Session Grab PopPhase Careful OwnerInv)

section Queues

variable {cfg : Config} {v v' : State} {e : Event} {tn : TableName} {i j : ℕ}

def Uses (v : State) (tn : TableName) (i : ℕ) : Prop :=
  ∃ q, v.queues[i]? = some q ∧ table q.name = tn

def Live (v : State) (tn : TableName) (i : ℕ) : Prop :=
  ∃ q, v.queues[i]? = some q ∧ q.unstopped = true ∧ table q.name = tn

theorem Live.uses (h : Live v tn i) : Uses v tn i := by
  obtain ⟨q, hq, -, htn⟩ := h
  exact ⟨q, hq, htn⟩

theorem Uses.kept (hu : Uses v tn i) (h : step cfg v e = some v') : Uses v' tn i := by
  obtain ⟨q, hq, htn⟩ := hu
  rcases (step_grows h).kept hq with hq | ⟨a, hq, -⟩
  · exact ⟨q, hq, htn⟩
  · exact ⟨_, hq, htn⟩

theorem Live.kept (hl : Live v tn i) (h : step cfg v e = some v') :
    Live v' tn i ∨ v.stops e = some i := by
  obtain ⟨q, hq, hu, htn⟩ := hl
  rcases (step_grows h).kept hq with hq | ⟨a, hq, hstop⟩
  · exact .inl ⟨q, hq, hu, htn⟩
  · by_cases ha : a = .stopped
    · exact .inr (hstop ha)
    · exact .inl ⟨_, hq, unstopped_act.mpr ⟨hu, ha⟩, htn⟩

theorem unstopped_step {q : RunningQueue} (h : step cfg v e = some v')
    (hq : v'.queues[i]? = some q) (hu : q.unstopped = true) :
    (∃ p, v.queues[i]? = some p ∧ p.name = q.name ∧ p.unstopped = true) ∨
      i = v.queues.length ∧ ∃ task rest, v.holder = some ⟨task, .creating q.definition rest⟩ := by
  rcases (step_grows h).cases hq with hq | ⟨hi, -, task, rest, hh⟩ | ⟨p, a, hp, rfl, -, -⟩
  · exact .inl ⟨q, hq, rfl, hu⟩
  · exact .inr ⟨hi, task, rest, hh⟩
  · exact .inl ⟨p, hp, rfl, (unstopped_act.mp hu).1⟩

end Queues

def creates : Pc → Option Repository.Queue
  | .creating q _ => some q
  | _ => none

theorem creates_eq_some {pc : Pc} {q : Repository.Queue} (h : creates pc = some q) :
    ∃ rest, pc = .creating q rest := by
  cases pc with
  | creating q' rest =>
    cases h
    exact ⟨rest, rfl⟩
  | _ => cases h

/-- No statement of `Recover` or `Complete` fails, a connection id is a fresh one, and
a connection stays from the end of `Recover` to the activation. -/
def CalmWith (fresh : ℕ → Prop) (c : MySQL.Cluster.State) : MySQL.Cluster.Event → Prop
  | .recoverFail _ => False
  | .connect node id => c.recovers node ≠ .returned ∧ fresh id ∧
    ∀ r ∈ c.table.rows, r.status = .grabbed → r.grabberId ≠ some id
  | .disconnect node => c.recovers node ≠ .returned
  | .delete _ ok => ok = true
  | .update k ok => ok = true ∧
    ∀ g next, c.completes k = some ⟨g, .updating next⟩ → storable c.now next
  | _ => True

instance (c : MySQL.Cluster.State) (k : ℕ) :
    Decidable (∀ g next, c.completes k = some ⟨g, .updating next⟩ → storable c.now next) :=
  match c.completes k with
  | some ⟨_, .updating next⟩ => decidable_of_iff (storable c.now next) (by simp)
  | some ⟨_, .deleting⟩ | some ⟨_, .logging _⟩ | some ⟨_, .done⟩ | none => .isTrue (by simp)

instance (fresh : ℕ → Prop) [DecidablePred fresh] (c : MySQL.Cluster.State) :
    (e : MySQL.Cluster.Event) → Decidable (CalmWith fresh c e)
  | .recoverFail _ => .isFalse id
  | .connect _ _ | .update _ _ => inferInstanceAs (Decidable (_ ∧ _))
  | .disconnect _ => inferInstanceAs (Decidable (¬ _))
  | .delete _ _ => inferInstanceAs (Decidable (_ = _))
  | .tick _ | .push _ _ | .popStart _ _ _ | .preselect _ _ | .beginTx _ | .selectForUpdate _ _
  | .launch _ | .commit _ | .commitLost _ | .popReturn _ _ | .popFail _ | .complete _ _ _
  | .addFailure _ _ _ | .inspectorDelete _ | .deleteFailure _ | .recover _ | .orphans _ _
  | .reclaim _ | .activate _ => .isTrue trivial

def Calm (c : MySQL.Cluster.State) : MySQL.Cluster.Event → Prop :=
  CalmWith (fun id ↦ ∀ m session, c.sessions m = some session → session.connectionId ≠ id) c

def Apart (tn : TableName) (v : State) : Prop :=
  ∀ task q rest (i : ℕ) (p : RunningQueue), v.holder = some ⟨task, .creating q rest⟩ →
    table q.name = tn → v.queues[i]? = some p → p.unstopped = true → table p.name = tn →
    p.name = q.name

instance (tn : TableName) (v : State) : Decidable (Apart tn v) :=
  decidable_of_iff (∀ th ∈ v.holder, ∀ q ∈ creates th.pc, table q.name = tn →
      ∀ p ∈ v.queues, p.unstopped = true → table p.name = tn → p.name = q.name) (by
    constructor
    · intro h task q rest i p hh htn hp hu hn
      exact h _ hh q rfl htn p (List.mem_of_getElem? hp) hu hn
    · rintro h ⟨task, pc⟩ hh q hq htn p hp hu hn
      obtain ⟨i, hi⟩ := List.mem_iff_getElem?.mp hp
      obtain ⟨rest, rfl⟩ := creates_eq_some hq
      exact h task q rest i p hh htn hi hu hn)

structure Steady (tn : TableName) (w : driver.World) (e : driver.Event) : Prop where
  calm : ∀ c, e.op.bind (Op.on tn) = some c → Calm (w.store.fleet tn) c
  apart : Apart tn w.service

def Hand (s : Store) (tn : TableName) (i id : ℕ) : Prop :=
  (∃ p c session results, (s.fleet tn).pops p = some c ∧ c.node = i ∧
    c.phase = .committed session results ∧ id ∈ results.map Job.id) ∨
  ∃ g ∈ s.popped i, g.job.id = id

inductive Effect (v : State) (tn : TableName) (s t : Store) : Option MySQL.Cluster.Event → Prop
  | own {i : ℕ} {q : RunningQueue} {c : MySQL.Cluster.Event} (hq : v.queues[i]? = some q)
    (hu : q.unstopped = true) (htn : table q.name = tn) (hp : permits s q i c = true)
    (hc : MySQL.Cluster.step (s.fleet tn) c = some (t.fleet tn))
    (ha : t.active = if c = .activate i then update s.active i true else s.active)
    (hg : t.popped = update s.popped i (handle (s.fleet tn) (s.popped i) c)) :
    Effect v tn s t (some c)
  | other {c : MySQL.Cluster.Event} (hp : c.popCall = none) (hs : c.sessionNode = none)
    (hc : MySQL.Cluster.step (s.fleet tn) c = some (t.fleet tn)) (ha : t.active = s.active)
    (hg : t.popped = s.popped) : Effect v tn s t (some c)
  | none (hf : t.fleet tn = s.fleet tn)
    (ha : ∀ i, Uses v tn i → t.active i = true → s.active i = true)
    (hg : ∀ i, Uses v tn i → t.popped i = s.popped i) : Effect v tn s t none

variable {cfg : Config} {v : State} {s t : Store} {op : Op} {i : ℕ} {w w' : driver.World}
  {e : driver.Event} {es : List driver.Event} {q : RunningQueue} {tn : TableName}

theorem onFleet_rest {f : MySQL.Fleet.Event} (h : onFleet s f = some t) :
    t.active = s.active ∧ t.popped = s.popped := by
  obtain ⟨fleet, -, rfl⟩ := Option.map_eq_some_iff.mp h
  exact ⟨rfl, rfl⟩

theorem effect_other {name : String} {c : MySQL.Cluster.Event} (hp : c.popCall = none)
    (hs : c.sessionNode = none) (h : onFleet s (.op (GoString.bytes name) c) = some t) :
    Effect v tn s t (if table name = tn then some c else none) := by
  obtain ⟨ha, hg⟩ := onFleet_rest h
  rcases onFleet_step h tn with ⟨htn, hc⟩ | ⟨htn, hf⟩
  · rw [if_pos htn]
    exact .other hp hs hc ha hg
  · rw [if_neg htn]
    exact .none hf (fun i _ hi ↦ by rwa [ha] at hi) (fun i _ ↦ by rw [hg])

theorem effect_own (hq : v.queues[i]? = some q) (hu : q.unstopped = true)
    (ho : driver.owns s q i op = true) (h : does s op = some t) : Effect v tn s t (op.on tn) := by
  cases op with
  | own j name c =>
    simp only [Bool.and_eq_true, decide_eq_true_eq] at ho
    obtain ⟨⟨rfl, rfl⟩, hp⟩ := ho
    obtain ⟨u, hu', rfl⟩ := Option.map_eq_some_iff.mp h
    rw [Op.on]
    rcases onFleet_step hu' tn with ⟨htn, hc⟩ | ⟨htn, hf⟩
    · rw [if_pos htn]
      subst htn
      exact .own hq hu rfl hp hc rfl rfl
    · rw [if_neg htn]
      have hne {k : ℕ} (hk : Uses v tn k) : k ≠ j := by
        intro hkj
        subst hkj
        obtain ⟨q', hq', htn'⟩ := hk
        cases hq.symm.trans hq'
        exact htn htn'
      refine .none hf (fun k hk hact ↦ ?_) fun k hk ↦ update_of_ne (hne hk) _ _
      dsimp only at hact
      split at hact
      · rwa [update_of_ne (hne hk)] at hact
      · exact hact
  | backup j =>
    cases h
    refine .none rfl (fun k _ hact ↦ ?_) fun _ _ ↦ rfl
    by_cases hk : k = j
    · subst hk
      simp at hact
    · dsimp only at hact
      rwa [update_of_ne hk] at hact
  | tick | push | inspect => cases ho

theorem effect_free (hf : driver.free op = true) (h : does s op = some t) :
    Effect v tn s t (op.on tn) := by
  cases op with
  | tick ms =>
    cases h
    exact .other rfl rfl rfl rfl rfl
  | inspect name c =>
    cases c with
    | inspectorDelete | deleteFailure => exact effect_other rfl rfl h
    | _ => cases hf
  | push | own | backup => cases hf

theorem push_cases {job : JobQueue.IncomingJob} {id : Option ℕ} {o : Option Op}
    (hp : driver.pushes s q i job id o = true)
    (h : t = s ∧ o = none ∨ ∃ op, o = some op ∧ does s op = some t) :
    t = s ∧ o = none ∨ ∃ acknowledged, o = some (.push q.name job acknowledged) ∧
      onFleet s (.op (GoString.bytes q.name) (.push job acknowledged)) = some t := by
  refine h.imp_right fun ⟨op, ho, hdo⟩ ↦ ?_
  subst ho
  cases id with
  | some id =>
    cases (of_decide_eq_true hp).1
    exact ⟨true, rfl, hdo⟩
  | none =>
    have hp : some op = none ∨ some op = some (.push q.name job false) := of_decide_eq_true hp
    cases hp.resolve_left nofun
    exact ⟨false, rfl, hdo⟩

theorem push_active {job : JobQueue.IncomingJob} {id : Option ℕ} {o : Option Op}
    (hp : driver.pushes s q i job id o = true)
    (h : t = s ∧ o = none ∨ ∃ op, o = some op ∧ does s op = some t) : t.active = s.active := by
  rcases push_cases hp h with ⟨rfl, -⟩ | ⟨acknowledged, -, h⟩
  · rfl
  · exact (onFleet_rest h).1

theorem effect_push {job : JobQueue.IncomingJob} {id : Option ℕ} {o : Option Op}
    (hp : driver.pushes s q i job id o = true)
    (h : t = s ∧ o = none ∨ ∃ op, o = some op ∧ does s op = some t) :
    Effect v tn s t (o.bind (Op.on tn)) := by
  rcases push_cases hp h with ⟨rfl, rfl⟩ | ⟨acknowledged, rfl, hdo⟩
  · exact .none rfl (fun _ _ ha ↦ ha) fun _ _ ↦ rfl
  · exact effect_other rfl rfl hdo

theorem Hand.of_popped {g : Grab} {id : ℕ} (hg : g ∈ s.popped i) (hid : g.job.id = id) :
    Hand s tn i id := .inr ⟨g, hg, hid⟩

theorem committed_step {c c' : MySQL.Cluster.State} {f : MySQL.Cluster.Event} {p : ℕ}
    {call : MySQL.Cluster.PopCall} {session : Session} {results : List Job}
    (h : MySQL.Cluster.step c f = some c') (hp : c.pops p = some call)
    (hph : call.phase = .committed session results) :
    c'.pops p = some call ∨ ∃ jobs, f = .popReturn p jobs ∧ jobs.Perm results := by
  cases hf : f.popCall with
  | none => exact .inl (by rw [(MySQL.Cluster.step_frame h).pops hf, hp])
  | some p' =>
    obtain ⟨d, hpops, hmove⟩ := MySQL.Cluster.step_moves h hf
    by_cases hpp : p = p'
    · subst hpp
      rw [MySQL.Cluster.State.phase_of hp hph] at hmove
      generalize d.phase = phase at hmove
      cases hmove with
      | «return» hperm =>
        cases hf
        exact .inr ⟨_, rfl, hperm⟩
      | fail hrun => cases hrun
    · exact .inl (by rw [hpops, update_of_ne hpp, hp])

/-- The row of a job whose `Complete` ends calmly is not grabbed any more. -/
theorem ended_claimed {c c' : MySQL.Cluster.State} {f : MySQL.Cluster.Event} {k : ℕ} {ok : Bool}
    {call : MySQL.Cluster.CompleteCall} {r : Row} (h : MySQL.Cluster.step c f = some c')
    (hf : f = .delete k ok ∨ f = .update k ok) (hcalm : Calm c f)
    (hk : c.completes k = some call) (hr : c'.table.find call.grab.job.id = some r) :
    r.status = .claimed := by
  rcases hf with rfl | rfl
  · cases (hcalm : ok = true)
    obtain ⟨g, hg, -, rfl⟩ := MySQL.Cluster.delete_cases h
    cases hk.symm.trans hg
    simp [Relational.AutoTable.find_delete] at hr
  · obtain ⟨rfl, hstorable⟩ : ok = true ∧ _ := hcalm
    obtain ⟨g, next, hg, -, rfl⟩ := MySQL.Cluster.updateStmt_cases h
    cases hk.symm.trans hg
    simp only [if_true, Relational.AutoTable.find_update] at hr
    obtain ⟨r₀, hr₀, rfl⟩ := Option.map_eq_some_iff.mp hr
    rw [MySQL.updateJob, dif_pos ⟨Relational.Table.find_key hr₀, hstorable g next hg⟩]

/-- A job stays in the hands of a queue as long as its row is grabbed. -/
theorem Hand.step {id : ℕ} {r : Row} {c : Option MySQL.Cluster.Event} (hh : Hand s tn i id)
    (hu : Uses v tn i) (h : Effect v tn s t c) (hcalm : ∀ f, c = some f → Calm (s.fleet tn) f)
    (hr : (t.fleet tn).table.find id = some r) (hst : r.status = .grabbed) : Hand t tn i id := by
  cases h with
  | @own j q f hq _ htn hp hc ha hg =>
    subst htn
    rcases hh with ⟨p, call, session, results, hcall, hnode, hph, hid⟩ | ⟨g, hmem, hid⟩
    · rcases committed_step hc hcall hph with hcall' | ⟨jobs, rfl, hperm⟩
      · exact .inl ⟨p, call, session, results, hcall', hnode, hph, hid⟩
      · have hij : call.node = j := by simpa [permits, hcall] using hp
        subst hnode
        subst hij
        obtain ⟨job, hjob, hjid⟩ := List.mem_map.mp hid
        refine Hand.of_popped (g := ⟨session, job⟩) ?_ hjid
        obtain ⟨node, limit, phase⟩ := call
        cases hph
        rw [hg, update_self]
        simp only [handle, hcall, List.mem_append, List.mem_map]
        exact .inr ⟨job, hperm.mem_iff.mpr hjob, rfl⟩
    · by_cases hij : i = j
      · subst hij
        refine Hand.of_popped (g := g) ?_ hid
        rw [hg, update_self]
        have hend {k : ℕ} {ok : Bool} (hf : f = .delete k ok ∨ f = .update k ok)
            (call : MySQL.Cluster.CompleteCall)
            (hk : (s.fleet (table q.name)).completes k = some call) : g ≠ call.grab := by
          intro hgc
          subst hid
          rw [hgc] at hr
          rw [ended_claimed hc hf (hcalm f rfl) hk hr] at hst
          cases hst
        unfold handle
        split
        · split
          · exact List.mem_append_left _ hmem
          · exact hmem
        · split
          · exact (List.mem_erase_of_ne (hend (.inl rfl) _ ‹_›)).mpr hmem
          · exact hmem
        · split
          · exact (List.mem_erase_of_ne (hend (.inr rfl) _ ‹_›)).mpr hmem
          · exact hmem
        · exact hmem
      · refine Hand.of_popped (g := g) ?_ hid
        rw [hg, update_of_ne hij]
        exact hmem
  | other hp hs hc ha hg =>
    rcases hh with ⟨p, call, session, results, hcall, hnode, hph, hid⟩ | ⟨g, hmem, hid⟩
    · refine .inl ⟨p, call, session, results, ?_, hnode, hph, hid⟩
      rw [(MySQL.Cluster.step_frame hc).pops hp, hcall]
    · exact Hand.of_popped (g := g) (by rwa [hg]) hid
  | none hf ha hg =>
    rcases hh with ⟨p, call, session, results, hcall, hnode, hph, hid⟩ | ⟨g, hmem, hid⟩
    · exact .inl ⟨p, call, session, results, by rwa [hf], hnode, hph, hid⟩
    · exact Hand.of_popped (g := g) (by rwa [hg i hu]) hid

/-- One queue at a time uses the tables. Each grabbed row is in the hands of a queue
whose session was the last to grab it, and of the unstopped queue if that is active. -/
structure TableInv (tn : TableName) (v : State) (s : Store) : Prop where
  sessions : ∀ i session, (s.fleet tn).sessions i = some session → Live v tn i
  single : ∀ i j, Live v tn i → Live v tn j → i = j
  hands : ∀ id r, (s.fleet tn).table.find id = some r → r.status = .grabbed →
    ∃ i session, Uses v tn i ∧ Hand s tn i id ∧ (s.fleet tn).owner id = some session ∧
      session.serial < (s.fleet tn).nextSerial ∧
      ∀ m, (s.fleet tn).sessions m = some session → m = i
  active : ∀ i, Live v tn i → s.active i = true → ∀ id r,
    (s.fleet tn).table.find id = some r → r.status = .grabbed → Hand s tn i id

section Effects

variable {c : Option MySQL.Cluster.Event} {id m : ℕ} {r : Row} {session : Session}

theorem Effect.sessions (h : Effect v tn s t c)
    (hm : (t.fleet tn).sessions m = some session) :
    (s.fleet tn).sessions m = some session ∨
      Live v tn m ∧ session.serial = (s.fleet tn).nextSerial := by
  cases h with
  | @own i q f hq hu htn hp hc ha hg =>
    rcases MySQL.Cluster.sessions_step hc m with heq | ⟨-, heq⟩ | ⟨cid, rfl, heq⟩
    · exact .inl (heq.symm.trans hm)
    · cases hm.symm.trans heq
    · cases hm.symm.trans heq
      cases of_decide_eq_true hp
      exact .inr ⟨⟨q, hq, hu, htn⟩, rfl⟩
  | other _ hs hc =>
    rw [(MySQL.Cluster.step_frame hc).sessions hs] at hm
    exact .inl hm
  | none hf =>
    rw [hf] at hm
    exact .inl hm

theorem Effect.nextSerial_le (h : Effect v tn s t c) :
    (s.fleet tn).nextSerial ≤ (t.fleet tn).nextSerial := by
  cases h with
  | own _ _ _ _ hc => exact MySQL.Cluster.nextSerial_le hc
  | other _ _ hc => exact MySQL.Cluster.nextSerial_le hc
  | none hf => rw [hf]

/-- A row that is grabbed after a step was so before it, or a queue that is not
stopped has just grabbed it. -/
theorem Effect.grabbed (h : Effect v tn s t c) (hi : MySQL.Cluster.PopInv (s.fleet tn))
    (hr : (t.fleet tn).table.find id = some r) (hst : r.status = .grabbed) :
    ((s.fleet tn).table.find id = some r ∧ (t.fleet tn).owner id = (s.fleet tn).owner id) ∨
      ∃ j session, Live v tn j ∧ (s.fleet tn).sessions j = some session ∧
        (t.fleet tn).owner id = some session ∧ Hand t tn j id := by
  cases h with
  | @own i q f hq hu htn hp hc ha hg =>
    rcases MySQL.Cluster.grabbed_cases hi hc hr hst with
      hold | ⟨p, call, session, results, rfl, hcall, hs, -, howner, hid, hcall'⟩
    · exact .inl hold
    · subst htn
      have hnode : call.node = i := by simpa [permits, hcall] using hp
      subst hnode
      exact .inr ⟨call.node, session, ⟨q, hq, hu, rfl⟩, hs, howner,
        .inl ⟨p, _, session, results, hcall', rfl, rfl, hid⟩⟩
  | @other f hp _ hc =>
    rcases MySQL.Cluster.grabbed_cases hi hc hr hst with hold | ⟨p, call, session, results, rfl, -⟩
    · exact .inl hold
    · cases hp
  | none hf =>
    rw [hf] at hr
    exact .inl ⟨hr, by rw [hf]⟩

/-- The steps are careful, because no two queues use the tables at once. -/
theorem Effect.careful {f : MySQL.Cluster.Event} (h : Effect v tn s t (some f))
    (hi : TableInv tn v s) (ho : OwnerInv (s.fleet tn)) (hcalm : Calm (s.fleet tn) f) :
    Careful (s.fleet tn) f := by
  refine ⟨fun node hf ↦ ?_, fun node cid hf ↦ ?_, fun node hf ↦ ?_,
    fun p call node hf hcall hn ↦ ?_⟩
  · subst hf
    exact hcalm
  · subst hf
    exact hcalm
  · subst hf
    exact hcalm
  · subst hf
    cases h with
    | @own i q f hq hu htn hp =>
      subst htn
      have hnode : call.node = i := by simpa [permits, hcall] using hp
      obtain ⟨session, hs, -⟩ := ho.returned node hn
      exact hi.single _ _ (hnode ▸ ⟨q, hq, hu, rfl⟩) (hi.sessions node session hs)
    | other hp => cases hp

theorem Effect.owner (h : Effect v tn s t c) (hi : TableInv tn v s) (ho : OwnerInv (s.fleet tn))
    (hp : MySQL.Cluster.PopInv (s.fleet tn))
    (hcons : ∀ id r, (s.fleet tn).table.find id = some r → MySQL.Cluster.Consistent r)
    (hcalm : ∀ f, c = some f → Calm (s.fleet tn) f) : OwnerInv (t.fleet tn) := by
  cases c with
  | none =>
    cases h with
    | none hf =>
      rw [hf]
      exact ho
  | some f =>
    have hcare := h.careful hi ho (hcalm f rfl)
    cases h with
    | own _ _ _ _ hc => exact ho.step hp hcons hcare hc
    | other _ _ hc => exact ho.step hp hcons hcare hc

theorem Effect.active (h : Effect v tn s t c) (hu : Uses v tn i) (ha : t.active i = true) :
    s.active i = true ∨ MySQL.Cluster.step (s.fleet tn) (.activate i) = some (t.fleet tn) := by
  cases h with
  | @own j q f hq _ htn hp hc hact =>
    rw [hact] at ha
    split at ha
    · rename_i hf
      subst hf
      by_cases hij : i = j
      · subst hij
        exact .inr hc
      · rw [update_of_ne hij] at ha
        exact .inl ha
    · exact .inl ha
  | other _ _ _ hact =>
    rw [hact] at ha
    exact .inl ha
  | none _ hact => exact .inl (hact i hu ha)

/-- When a queue is activated, all grabbed rows are in its hands. -/
theorem TableInv.activated (hi : TableInv tn v s) (ho : OwnerInv (s.fleet tn))
    (h : MySQL.Cluster.step (s.fleet tn) (.activate i) = some (t.fleet tn))
    (hr : (t.fleet tn).table.find id = some r) (hst : r.status = .grabbed) : Hand s tn i id := by
  obtain ⟨hph, ht⟩ := MySQL.Cluster.activate_cases h
  rw [ht] at hr
  obtain ⟨session, hs, hall⟩ := ho.returned i (hph.resolve_right (ho.succeeded i))
  obtain ⟨j, session', -, hhand, howner, -, hm⟩ := hi.hands id r hr hst
  cases howner.symm.trans (hall id r hr hst)
  rwa [hm i hs]

theorem TableInv.effect (hi : TableInv tn v s) (h : Effect v tn s t c)
    (ho : OwnerInv (s.fleet tn)) (hp : MySQL.Cluster.PopInv (s.fleet tn))
    (hserial : ∀ m session, (s.fleet tn).sessions m = some session →
      session.serial < (s.fleet tn).nextSerial)
    (hcalm : ∀ f, c = some f → Calm (s.fleet tn) f) : TableInv tn v t where
  sessions m session hm := by
    rcases h.sessions hm with hm | ⟨hl, -⟩
    · exact hi.sessions m session hm
    · exact hl
  single := hi.single
  hands id r hr hst := by
    have hold {m : ℕ} {session : Session} (hlt : session.serial < (s.fleet tn).nextSerial)
        (hm : (t.fleet tn).sessions m = some session) :
        (s.fleet tn).sessions m = some session := by
      rcases h.sessions hm with hm | ⟨-, heq⟩
      · exact hm
      · omega
    rcases h.grabbed hp hr hst with ⟨hr', howner⟩ | ⟨j, session, hl, hs, howner, hhand⟩
    · obtain ⟨i, session, hu, hhand, howner', hlt, hm⟩ := hi.hands id r hr' hst
      exact ⟨i, session, hu, hhand.step hu h hcalm hr hst, howner.trans howner',
        hlt.trans_le h.nextSerial_le, fun m hm' ↦ hm m (hold hlt hm')⟩
    · have hlt := hserial j session hs
      refine ⟨j, session, hl.uses, hhand, howner, hlt.trans_le h.nextSerial_le, fun m hm ↦ ?_⟩
      exact hi.single m j (hi.sessions m session (hold hlt hm)) hl
  active i hl ha id r hr hst := by
    rcases h.active hl.uses ha with ha | hact
    · rcases h.grabbed hp hr hst with ⟨hr', -⟩ | ⟨j, session, hj, -, -, hhand⟩
      · exact (hi.active i hl ha id r hr' hst).step hl.uses h hcalm hr hst
      · rwa [hi.single i j hl hj]
    · exact (hi.activated ho hact hr hst).step hl.uses h hcalm hr hst

end Effects

/-- A step of the service keeps the invariant, if a queue is started on the tables
only in place of one of its name. -/
theorem TableInv.service {v' : State} {e : Event} (hi : TableInv tn v s)
    (h : step cfg v e = some v') (hv : Inv v')
    (hapart : ∀ task q rest (i : ℕ) (p : RunningQueue),
      v.holder = some ⟨task, .creating q rest⟩ → table q.name = tn → v.queues[i]? = some p →
      p.unstopped = true → table p.name = tn → p.name = q.name)
    (hclosed : ∀ i, v.stops e = some i → ∃ q, v.queues[i]? = some q ∧
      (s.fleet (table q.name)).sessions i = none)
    (hactive : ∀ i, s.active i = true → i < v.queues.length) : TableInv tn v' s where
  sessions i session hs := by
    rcases (hi.sessions i session hs).kept h with hl | hstop
    · exact hl
    · obtain ⟨q, hq, hnone⟩ := hclosed i hstop
      obtain ⟨p, hp, -, htn⟩ := hi.sessions i session hs
      cases hp.symm.trans hq
      rw [htn, hs] at hnone
      cases hnone
  single i j := by
    intro ⟨p, hp, hup, htp⟩ ⟨q, hq, huq, htq⟩
    rcases unstopped_step h hp hup with ⟨p₀, hp₀, hpn, hup₀⟩ | ⟨hil, task, rest, hh⟩ <;>
      rcases unstopped_step h hq huq with ⟨q₀, hq₀, hqn, huq₀⟩ | ⟨hjl, task', rest', hh'⟩
    · exact hi.single i j ⟨p₀, hp₀, hup₀, hpn ▸ htp⟩ ⟨q₀, hq₀, huq₀, hqn ▸ htq⟩
    · have hname := hapart _ _ _ i p₀ hh' htq hp₀ hup₀ (hpn ▸ htp)
      exact hv.unique hp hq (hpn.symm.trans hname) hup huq
    · have hname := hapart _ _ _ j q₀ hh htp hq₀ huq₀ (hqn ▸ htq)
      exact hv.unique hp hq (hname.symm.trans hqn) hup huq
    · rw [hil, hjl]
  hands id r hr hst := by
    obtain ⟨i, session, hu, hrest⟩ := hi.hands id r hr hst
    exact ⟨i, session, hu.kept h, hrest⟩
  active i hl ha := by
    obtain ⟨q, hq, hu, htn⟩ := hl
    rcases unstopped_step h hq hu with ⟨p, hp, hn, hup⟩ | ⟨hil, -⟩
    · exact hi.active i ⟨p, hp, hup, hn ▸ htn⟩ ha
    · have := hactive i ha
      omega

theorem length_le_step {v' : State} {e : Event} (h : step cfg v e = some v') :
    v.queues.length ≤ v'.queues.length := by
  have hgrows := step_grows h
  generalize v'.queues = queues at hgrows
  cases hgrows with
  | same => exact le_rfl
  | start => simp
  | act => simp

theorem does_active (h : does s op = some t) (ha : t.active i = true) :
    s.active i = true ∨ ∃ name c, op = .own i name c := by
  cases op with
  | own j name c =>
    obtain ⟨u, -, rfl⟩ := Option.map_eq_some_iff.mp h
    by_cases hij : i = j
    · subst hij
      exact .inr ⟨name, c, rfl⟩
    · dsimp only at ha
      split at ha
      · rw [update_of_ne hij] at ha
        exact .inl ha
      · exact .inl ha
  | backup j =>
    cases h
    by_cases hij : i = j
    · subst hij
      simp at ha
    · dsimp only at ha
      rw [update_of_ne hij] at ha
      exact .inl ha
  | tick =>
    cases h
    exact .inl ha
  | push | inspect =>
    rw [(onFleet_rest h).1] at ha
    exact .inl ha

theorem Run.active_lt (h : driver.Run cfg es w) (ha : w.store.active i = true) :
    i < w.service.queues.length := by
  refine invariant (fun w : driver.World ↦ ∀ i, w.store.active i = true →
    i < w.service.queues.length) (fun u e u' ih hstep i ha ↦ ?_) h (fun i ha ↦ by cases ha) i ha
  cases Driver.step_moves hstep with
  | push hv hret hq hp ht =>
    rw [push_active hp ht] at ha
    exact lt_of_lt_of_le (ih i ha) (length_le_step hv)
  | quiet hv => exact lt_of_lt_of_le (ih i ha) (length_le_step hv)
  | @own j op t q hq hu ho ht =>
    rcases does_active ht ha with ha | ⟨name, c, rfl⟩
    · exact ih i ha
    · simp only [Bool.and_eq_true, decide_eq_true_eq] at ho
      obtain ⟨⟨rfl, -⟩, -⟩ := ho
      exact (List.getElem?_eq_some_iff.mp hq).1
  | free hf ht =>
    rcases does_active ht ha with ha | ⟨name, c, rfl⟩
    · exact ih i ha
    · cases hf

/-- In a steady run, the queue that uses the tables takes over all rows that its
predecessors have left grabbed. -/
theorem Run.tableInv (h : driver.Run cfg es w)
    (hs : Along (driver.step cfg) (Steady tn) (Driver.World.initial _) es) :
    TableInv tn w.service w.store := by
  refine (hs.history (fun _ (w : driver.World) ↦
    TableInv tn w.service w.store ∧ OwnerInv (w.store.fleet tn)) ?_ ?_ h).1
  · have hrun : MySQL.Cluster.Run [] .initial := rfl
    refine ⟨⟨nofun, ?_, nofun, ?_⟩, hrun.ownerInv trivial⟩
    · intro i j ⟨q, hq, _⟩
      cases hq
    · intro i ⟨q, hq, _⟩
      cases hq
  · intro xs u e u' hu ⟨hi, ho⟩ hsteady hstep
    have hrun := Run.tables hu tn
    have heffect {t : Store} (he : Effect u.service tn u.store t (e.op.bind (Op.on tn))) :
        TableInv tn u.service t ∧ OwnerInv (t.fleet tn) :=
      ⟨hi.effect he ho hrun.popInv (fun _ _ hm ↦ MySQL.Cluster.serial_lt hrun hm) hsteady.calm,
        he.owner hi ho hrun.popInv hrun.consistent hsteady.calm⟩
    have hinv : Inv u'.service := Driver.Run.inv (exec_snoc.mpr ⟨u, hu, hstep⟩)
    cases Driver.step_moves hstep with
    | push hv hret hq hp ht =>
      obtain ⟨hi', ho'⟩ := heffect (effect_push hp ht)
      refine ⟨hi'.service hv hinv hsteady.apart (fun i hi ↦ ?_) fun i hact ↦ ?_, ho'⟩
      · rw [stops_of_returns hret] at hi
        cases hi
      · rw [push_active hp ht] at hact
        exact Run.active_lt hu hact
    | quiet hv hret hstop =>
      refine ⟨hi.service hv hinv hsteady.apart (fun i hi ↦ ?_) fun i ha ↦ Run.active_lt hu ha, ho⟩
      obtain ⟨q, hq, hclosed⟩ := hstop i hi
      exact ⟨q, hq, of_decide_eq_true hclosed⟩
    | own hq hu ho ht => exact heffect (effect_own hq hu ho ht)
    | free hf ht => exact heffect (effect_free hf ht)

end Fireworq.Service.Lifecycle.Database
