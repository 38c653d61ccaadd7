import Fireworq.MySQL.Steps

namespace Fireworq.MySQL.Cluster

open Relational JobQueue Execution Function

variable {s t : State}

/-- The transaction of call `p` has locked the rows of its results, and they
are still as it has read them. -/
def Holds (s : State) (p : ℕ) (results : List Job) : Prop :=
  ∀ j ∈ results, s.locks j.id = some p ∧
    ∃ r, s.table.find j.id = some r ∧ r.status = .claimed ∧ Job.scan r = j

def PopOk (s : State) (p : ℕ) (c : PopCall) : Prop :=
  match c.phase with
  | .started | .failed => True
  | .preselected ids | .begun _ ids => ids.Nodup ∧ ids.length ≤ c.limit
  | .selected _ ids results =>
    ids = results.map Job.id ∧ ids.Nodup ∧ results.length ≤ c.limit ∧ Holds s p results
  | .launched session results pending =>
    (results.map Job.id).Nodup ∧ results.length ≤ c.limit ∧ Holds s p results ∧
      (∀ id, id ∈ pending.map Row.jobId ↔ id ∈ results.map Job.id) ∧
      ∀ q ∈ pending, ∃ r, s.table.find q.jobId = some r ∧
        q = { r with status := .grabbed, grabberId := some session.connectionId }
  | .committed _ results => (results.map Job.id).Nodup ∧ results.length ≤ c.limit
  | .returned grabs =>
    (grabs.map fun g ↦ g.job.id).Nodup ∧ grabs.length ≤ c.limit ∧
      grabs.Pairwise fun g h ↦ g.job.nextTry ≤ h.job.nextTry

def PopInv (s : State) : Prop := ∀ p c, s.pops p = some c → PopOk s p c

theorem Holds.transfer {p : ℕ} {results : List Job} (h : Holds s p results)
    (hlocks : ∀ id, s.locks id = some p → t.locks id = some p)
    (hfind : ∀ id r, s.locks id = some p → s.table.find id = some r → t.table.find id = some r) :
    Holds t p results := by
  intro j hj
  obtain ⟨hl, r, hr, hst, hsc⟩ := h j hj
  exact ⟨hlocks _ hl, r, hfind _ _ hl hr, hst, hsc⟩

theorem PopOk.transfer {p : ℕ} {c : PopCall} (h : PopOk s p c)
    (hlocks : ∀ id, s.locks id = some p → t.locks id = some p)
    (hfind : ∀ id r, s.locks id = some p → s.table.find id = some r → t.table.find id = some r) :
    PopOk t p c := by
  obtain ⟨node, limit, phase⟩ := c
  cases phase with
  | started | preselected ids | begun session ids | committed session results
  | returned grabs | failed => exact h
  | selected session ids results =>
    exact ⟨h.1, h.2.1, h.2.2.1, h.2.2.2.transfer hlocks hfind⟩
  | launched session results pending =>
    obtain ⟨hn, hlen, hh, hids, hpend⟩ := h
    refine ⟨hn, hlen, hh.transfer hlocks hfind, hids, ?_⟩
    intro q hq
    obtain ⟨r, hr, he⟩ := hpend q hq
    obtain ⟨j, hj, hid⟩ := List.mem_map.mp ((hids _).mp (List.mem_map_of_mem hq))
    exact ⟨r, hfind _ _ (hid ▸ (hh j hj).1) hr, he⟩

theorem publish_of_not_mem {pending : List Row} {r : Row}
    (h : r.jobId ∉ pending.map Row.jobId) : publish pending r = r := by
  have hn : (pending.find? fun q ↦ q.jobId = r.jobId) = none := by
    rw [List.find?_eq_none]
    intro q hq he
    exact h (List.mem_map.mpr ⟨q, hq, by simpa using he⟩)
  rw [publish, hn, Option.getD_none]

/-- No statement changes a row that the transaction of another call has
locked. -/
theorem Writes.find_locked {e : Event} {T : JobTable} (hw : Writes s e T) (hi : PopInv s)
    {p : ℕ} (he : e ≠ .commit p) {id : ℕ} {r : Row} (hl : s.locks id = some p)
    (hr : s.table.find id = some r) : T.find id = some r := by
  have hid : r.jobId = id := Table.find_key hr
  have hne {k : ℕ} (hk : s.locks k = none) : id ≠ k := by
    rintro rfl
    rw [hl] at hk
    cases hk
  cases hw with
  | same => exact hr
  | @insert j a q hq =>
    have hne := AutoTable.lt_next hr
    rw [AutoTable.find_insert (insertJob_jobId hq), if_neg (by omega), hr]
  | @publish q c session results pending hp hc =>
    have hqp : q ≠ p := fun h ↦ he (h ▸ rfl)
    have hok := hi q c hp
    simp only [PopOk, hc] at hok
    obtain ⟨-, -, hh, hids, -⟩ := hok
    have hnot : r.jobId ∉ pending.map Row.jobId := by
      intro hm
      obtain ⟨j, hj, hji⟩ := List.mem_map.mp ((hids _).mp hm)
      have hlj := (hh j hj).1
      rw [hji, hid, hl] at hlj
      exact hqp (Option.some.inj hlj).symm
    rw [AutoTable.find_update, hr, Option.map_some, publish_of_not_mem hnot]
  | delete hk hd => rw [AutoTable.find_delete, if_neg (hne hd), hr]
  | update hk hd =>
    rw [AutoTable.find_update, hr, Option.map_some, updateJob_of_ne (hid ▸ hne hd)]
  | inspectorDelete hd => rw [AutoTable.find_delete, if_neg (hne hd), hr]
  | reclaim hrec hs hd =>
    have hnot : r.jobId ∉ _ := fun hm ↦ hne (hd _ hm) hid.symm
    rw [AutoTable.find_update, hr, Option.map_some, recoverJobs_of_not_mem hnot]

/-- Steps of other components keep the invariant of the calls of `Pop`. -/
theorem inv_of_other {e : Event} (h : step s e = some t) (he : e.popCall = none)
    (hi : PopInv s) : PopInv t := by
  intro p c hp
  rw [(step_frame h).pops he] at hp
  refine (hi p c hp).transfer (fun _ hl ↦ ?_) (fun _ _ hl hr ↦ ?_)
  · rwa [(step_frame h).locks he]
  exact (step_writes h).find_locked hi (by rintro rfl; cases he) hl hr

theorem inv_of_pop {e : Event} {p : ℕ} {c : PopCall} (h : step s e = some t)
    (he : e.popCall = some p) (hpops : t.pops = update s.pops p (some c))
    (hlocks : ∀ id q, q ≠ p → s.locks id = some q → t.locks id = some q)
    (hi : PopInv s) (hc : PopOk t p c) : PopInv t := by
  intro q d hq
  rw [hpops] at hq
  by_cases hqp : q = p
  · subst hqp
    rw [update_self] at hq
    cases hq
    exact hc
  · rw [update_of_ne hqp] at hq
    refine (hi q d hq).transfer (fun id ↦ hlocks id q hqp) (fun _ _ hl hr ↦ ?_)
    refine (step_writes h).find_locked hi ?_ hl hr
    rintro rfl
    exact hqp (Option.some.inj he)

theorem release_locks {p id q : ℕ} (hq : q ≠ p) (h : s.locks id = some q) :
    (s.release p).locks id = some q := by
  have hne : ¬ some q = some p := fun he ↦ hq (Option.some.inj he)
  simp only [State.release, h, if_neg hne]

theorem preselect_ok {T : JobTable} {now limit : ℕ} {ids : List ℕ}
    (hids : (ids.filterMap T.find).map Row.jobId = ids)
    (ha : TopAnswer (grabJobs now) (fun q r ↦ q.nextTry ≤ r.nextTry) limit T.rows
      (ids.filterMap T.find)) : ids.Nodup ∧ ids.length ≤ limit := by
  constructor
  · rw [← hids]
    exact ha.1.map_on fun q hq r hr he ↦
      Table.eq_of_key (ha.2.1 q hq).1 (ha.2.1 r hr).1 he
  · have hl := ha.length_le
    rwa [← List.length_map, hids] at hl

theorem scan_answer {T : JobTable} {ids : List ℕ} {rows : List Row}
    (ha : Answer (grabbedJobs .claimed ids) T.rows rows) :
    (scanRows ids [] 0 rows).2 = rows.map Job.scan ∧
      (scanRows ids [] 0 rows).1.take (scanRows ids [] 0 rows).2.length = rows.map Row.jobId ∧
      (rows.map Row.jobId).Nodup ∧ rows.length ≤ ids.length := by
  have hres := scanRows_results ids [] 0 rows
  have hn : (rows.map Row.jobId).Nodup :=
    (ha.map Row.jobId).nodup_iff.mpr (T.nodup.sublist (List.filter_sublist.map Row.jobId))
  have hsub : rows.map Row.jobId ⊆ ids := by
    intro id hid
    obtain ⟨r, hr, rfl⟩ := List.mem_map.mp hid
    exact (ha.mem.mp hr).2.2
  have hlen : rows.length ≤ ids.length := by
    simpa using (List.subperm_of_subset hn hsub).length_le
  have hids := scanRows_ids ids [] 0 rows (by omega)
  refine ⟨by simpa using hres, ?_, hn, hlen⟩
  rw [hres]
  simpa using hids

theorem selectForUpdate_inv {p : ℕ} {rows : List Row}
    (h : step s (.selectForUpdate p rows) = some t) (hi : PopInv s) : PopInv t := by
  obtain ⟨c, session, ids, hp, hc, -, hfree, ha, rfl⟩ := selectForUpdate_cases h
  have hok := hi p c hp
  simp only [PopOk, hc] at hok
  obtain ⟨hres, hids, hn, hlen⟩ := scan_answer ha
  refine inv_of_pop h rfl rfl ?_ hi ?_
  · intro id q hq hl
    have hnot : id ∉ rows.map Row.jobId := by
      intro hm
      obtain ⟨r, hr, rfl⟩ := List.mem_map.mp hm
      rw [hfree _ (ha.mem.mp hr).2.2] at hl
      cases hl
    simpa only [if_neg hnot] using hl
  · simp only [PopOk]
    rw [hres, List.length_map] at hids
    rw [hres, List.length_map]
    refine ⟨by rw [hids, List.map_map]; rfl, by rw [hids]; exact hn, by omega, ?_⟩
    intro j hj
    obtain ⟨r, hr, rfl⟩ := List.mem_map.mp hj
    have hmem := ha.mem.mp hr
    refine ⟨if_pos (List.mem_map_of_mem hr), r, ?_, hmem.2.1, rfl⟩
    exact Table.find_of_mem hmem.1

theorem launch_inv {p : ℕ} (h : step s (.launch p) = some t) (hi : PopInv s) : PopInv t := by
  obtain ⟨c, session, ids, results, hp, hc, -, -, rfl⟩ := launch_cases h
  have hok := hi p c hp
  simp only [PopOk, hc] at hok
  obtain ⟨rfl, hn, hlen, hh⟩ := hok
  refine inv_of_pop h rfl rfl (fun _ _ _ hl ↦ hl) hi ?_
  refine ⟨hn, hlen, hh, ?_, ?_⟩
  · intro id
    constructor
    · intro hm
      obtain ⟨q, hq, rfl⟩ := List.mem_map.mp hm
      obtain ⟨r, hr, rfl⟩ := List.mem_map.mp hq
      rw [jobId_of_fixed (launchJobs_fixed _ _ r)]
      simpa using (List.mem_filter.mp hr).2
    · intro hm
      obtain ⟨j, hj, rfl⟩ := List.mem_map.mp hm
      obtain ⟨-, r, hr, -, -⟩ := hh j hj
      obtain ⟨hrow, hid⟩ := Table.find_eq_some_iff.mp hr
      refine List.mem_map.mpr ⟨launchJobs session.connectionId (results.map Job.id) r, ?_, ?_⟩
      · exact List.mem_map_of_mem (List.mem_filter.mpr ⟨hrow, by simpa [hid] using ⟨j, hj, rfl⟩⟩)
      · exact (jobId_of_fixed (launchJobs_fixed _ _ r)).trans hid
  · intro q hq
    obtain ⟨r, hr, rfl⟩ := List.mem_map.mp hq
    have hm : r.jobId ∈ results.map Job.id := by simpa using (List.mem_filter.mp hr).2
    refine ⟨r, ?_, by rw [launchJobs, if_pos hm]⟩
    rw [jobId_of_fixed (launchJobs_fixed _ _ r)]
    exact Table.find_of_mem (List.mem_filter.mp hr).1

theorem commit_inv {p : ℕ} (h : step s (.commit p) = some t) (hi : PopInv s) : PopInv t := by
  obtain ⟨c, session, results, pending, hp, hc, -, rfl⟩ := commit_cases h
  have hok := hi p c hp
  simp only [PopOk, hc] at hok
  exact inv_of_pop h rfl rfl (fun _ _ hq hl ↦ release_locks hq hl) hi ⟨hok.1, hok.2.1⟩

theorem popReturn_inv {p : ℕ} {jobs : List Job} (h : step s (.popReturn p jobs) = some t)
    (hi : PopInv s) : PopInv t := by
  have hnil (c : PopCall) : PopOk t p { c with phase := .returned [] } :=
    ⟨List.nodup_nil, Nat.zero_le _, List.Pairwise.nil⟩
  rcases popReturn_cases h with ⟨c, hp, hc, -, rfl⟩ | ⟨c, session, ids, hp, hc, -, rfl⟩ |
    ⟨c, session, results, hp, hc, hperm, hsort, rfl⟩
  · exact inv_of_pop h rfl rfl (fun _ _ _ hl ↦ hl) hi (hnil c)
  · exact inv_of_pop h rfl rfl (fun _ _ hq hl ↦ release_locks hq hl) hi (hnil c)
  · have hok := hi p c hp
    simp only [PopOk, hc] at hok
    refine inv_of_pop h rfl rfl (fun _ _ _ hl ↦ hl) hi ⟨?_, ?_, ?_⟩
    · rw [List.map_map]
      exact (hperm.map Job.id).nodup_iff.mpr hok.1
    · rw [List.length_map, hperm.length_eq]
      exact hok.2
    · exact List.pairwise_map.mpr hsort

theorem step_inv {e : Event} (h : step s e = some t) (hi : PopInv s) : PopInv t := by
  cases e with
  | popStart p node limit =>
    obtain ⟨-, rfl⟩ := popStart_cases h
    exact inv_of_pop h rfl rfl (fun _ _ _ hl ↦ hl) hi trivial
  | preselect p ids =>
    obtain ⟨c, -, -, hids, ha, rfl⟩ := preselect_cases h
    exact inv_of_pop h rfl rfl (fun _ _ _ hl ↦ hl) hi (preselect_ok hids ha)
  | beginTx p =>
    obtain ⟨c, ids, session, hp, hc, -, -, rfl⟩ := beginTx_cases h
    have hok := hi p c hp
    simp only [PopOk, hc] at hok
    exact inv_of_pop h rfl rfl (fun _ _ _ hl ↦ hl) hi hok
  | selectForUpdate p rows => exact selectForUpdate_inv h hi
  | launch p => exact launch_inv h hi
  | commit p => exact commit_inv h hi
  | commitLost p =>
    obtain ⟨c, session, results, pending, hp, hc, rfl⟩ := commitLost_cases h
    have hok := hi p c hp
    simp only [PopOk, hc] at hok
    exact inv_of_pop h rfl rfl (fun _ _ hq hl ↦ release_locks hq hl) hi ⟨hok.1, hok.2.1⟩
  | popReturn p jobs => exact popReturn_inv h hi
  | popFail p =>
    obtain ⟨c, -, -, rfl⟩ := popFail_cases h
    exact inv_of_pop h rfl rfl (fun _ _ hq hl ↦ release_locks hq hl) hi trivial
  | _ => exact inv_of_other h rfl hi

theorem initial_inv : PopInv .initial := by
  intro p c hp
  cases hp

theorem Run.popInv {es : List Event} (h : Run es s) : PopInv s :=
  invariant PopInv (fun _ _ _ hi hs ↦ step_inv hs hi) h initial_inv

inductive RowStep (s : State) : Event → Row → Row → Prop
  | same (e : Event) (r : Row) : RowStep s e r r
  | grab {p : ℕ} {session : Session} {results : List Job} {pending : List Row} {r : Row} :
      s.phase p = some (.launched session results pending) → r.jobId ∈ results.map Job.id →
      RowStep s (.commit p) r
        { r with status := .grabbed, grabberId := some session.connectionId }
  | reschedule {k : ℕ} {g : Grab} {next : NextInfo} {r q : Row} :
      s.completes k = some ⟨g, .updating next⟩ → r.jobId = g.job.id → storable s.now next →
      q.fixed = r.fixed → q.status = .claimed → q.grabberId = none →
      q.nextTry = s.now + next.nextDelay → q.retryCount = next.retryCount →
      q.failCount = next.failCount → RowStep s (.update k true) r q
  | reclaim {node : ℕ} {session : Session} {ids : List ℕ} {r : Row} :
      s.recovers node = .updating ids → s.sessions node = some session → r.jobId ∈ ids →
      orphanJobs session.connectionId r →
      RowStep s (.reclaim node) r { r with status := .claimed, grabberId := none }

/-- A published row is the version that the transaction has written over the
one it has locked. -/
theorem publish_rowStep {p : ℕ} {c : PopCall} {session : Session} {results : List Job}
    {pending : List Row} (hi : PopInv s) (hp : s.pops p = some c)
    (hc : c.phase = .launched session results pending) {id : ℕ} {r : Row}
    (hr : s.table.find id = some r) :
    (id ∈ results.map Job.id → publish pending r =
      { r with status := .grabbed, grabberId := some session.connectionId }) ∧
    (id ∉ results.map Job.id → publish pending r = r) := by
  have hid : r.jobId = id := Table.find_key hr
  have hok := hi p c hp
  simp only [PopOk, hc] at hok
  obtain ⟨-, -, -, hids, hpend⟩ := hok
  constructor
  · intro hm
    cases hf : pending.find? fun q ↦ q.jobId = r.jobId with
    | none =>
      obtain ⟨q, hq, hqi⟩ := List.mem_map.mp ((hids id).mpr hm)
      exact absurd (List.find?_eq_none.mp hf q hq) (by simp [hqi, hid])
    | some q =>
      have hqi : q.jobId = r.jobId := by simpa using List.find?_some hf
      obtain ⟨r', hr', rfl⟩ := hpend q (List.mem_of_find?_eq_some hf)
      rw [hqi, hid, hr] at hr'
      cases hr'
      rw [publish, hf, Option.getD_some]
  · intro hm
    refine publish_of_not_mem ?_
    rw [hids, hid]
    exact hm

theorem updateJob_rowStep {k : ℕ} {g : Grab} {next : NextInfo}
    (hk : s.completes k = some ⟨g, .updating next⟩) (r : Row) :
    RowStep s (.update k true) r (updateJob s.now g.job.id next r) := by
  unfold updateJob
  split
  · next h => exact .reschedule hk h.1 h.2 rfl rfl rfl rfl rfl rfl
  · exact .same _ _

theorem recoverJobs_rowStep {node : ℕ} {session : Session} {ids : List ℕ}
    (hn : s.recovers node = .updating ids) (hs : s.sessions node = some session) (r : Row) :
    RowStep s (.reclaim node) r (recoverJobs session.connectionId ids r) := by
  unfold recoverJobs
  split
  · next h => exact .reclaim hn hs h.2 h.1
  · exact .same _ _

/-- A row either stays in the table, or it is removed by a statement that
names it. -/
theorem row_kept {e : Event} (hi : PopInv s) (h : step s e = some t) {id : ℕ} {r : Row}
    (hr : s.table.find id = some r) :
    (∃ q, t.table.find id = some q ∧ RowStep s e r q) ∨
      t.table.find id = none ∧ (e = .inspectorDelete id ∨
        ∃ k g, e = .delete k true ∧ s.completes k = some ⟨g, .deleting⟩ ∧ g.job.id = id) := by
  have hw := step_writes h
  generalize t.table = T at hw ⊢
  cases hw with
  | same => exact .inl ⟨r, hr, .same _ _⟩
  | insert hn =>
    refine .inl ⟨r, ?_, .same _ _⟩
    rw [AutoTable.find_insert (insertJob_jobId hn),
      if_neg (by have := AutoTable.lt_next hr; omega), hr]
  | @publish p c session results pending hp hc =>
    rw [AutoTable.find_update, hr, Option.map_some]
    obtain ⟨hin, hout⟩ := publish_rowStep hi hp hc hr
    refine .inl ⟨_, rfl, ?_⟩
    by_cases hm : id ∈ results.map Job.id
    · rw [hin hm]
      refine .grab (State.phase_of hp hc) ?_
      rwa [Table.find_key hr]
    · rw [hout hm]
      exact .same _ _
  | @delete k g hk hd =>
    rw [AutoTable.find_delete]
    split
    · next he => exact .inr ⟨rfl, .inr ⟨k, g, rfl, hk, he.symm⟩⟩
    · exact .inl ⟨r, hr, .same _ _⟩
  | update hk hd =>
    rw [AutoTable.find_update, hr, Option.map_some]
    exact .inl ⟨_, rfl, updateJob_rowStep hk r⟩
  | inspectorDelete hd =>
    rw [AutoTable.find_delete]
    split
    · next he => exact .inr ⟨rfl, .inl (by rw [he])⟩
    · exact .inl ⟨r, hr, .same _ _⟩
  | reclaim hrec hs hd =>
    rw [AutoTable.find_update, hr, Option.map_some]
    exact .inl ⟨_, rfl, recoverJobs_rowStep hrec hs r⟩

/-- A row that is in the table after a step was there before it, unless the
step has pushed it under the next id. -/
theorem row_step {e : Event} (hi : PopInv s) (h : step s e = some t) {id : ℕ} {q : Row}
    (hq : t.table.find id = some q) :
    (∃ r, s.table.find id = some r ∧ RowStep s e r q) ∨
      s.table.find id = none ∧ id = s.table.next ∧
        ∃ j a, e = .push j a ∧ insertJob s.now id j = some q := by
  cases hr : s.table.find id with
  | some r =>
    rcases row_kept hi h hr with ⟨q', hq', hstep⟩ | ⟨hnone, -⟩
    · rw [hq] at hq'
      cases hq'
      exact .inl ⟨r, rfl, hstep⟩
    · rw [hq] at hnone
      cases hnone
  | none =>
    have hw := step_writes h
    generalize t.table = T at hw hq
    cases hw with
    | same => rw [hr] at hq; cases hq
    | @insert j a n hn =>
      rw [AutoTable.find_insert (insertJob_jobId hn)] at hq
      split at hq
      · next he =>
        cases hq
        subst he
        exact .inr ⟨rfl, rfl, j, a, rfl, hn⟩
      · rw [hr] at hq
        cases hq
    | publish => rw [AutoTable.find_update, hr] at hq; cases hq
    | delete => rw [AutoTable.find_delete, hr, ite_self] at hq; cases hq
    | update => rw [AutoTable.find_update, hr] at hq; cases hq
    | inspectorDelete => rw [AutoTable.find_delete, hr, ite_self] at hq; cases hq
    | reclaim => rw [AutoTable.find_update, hr] at hq; cases hq

end Fireworq.MySQL.Cluster
