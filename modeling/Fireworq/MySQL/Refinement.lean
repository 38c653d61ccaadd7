import Fireworq.MySQL.Locking
import Fireworq.JobQueue.Spec

namespace Fireworq.MySQL

open Relational JobQueue GoInt Execution Function Refinement

def Job.view (j : Job) : Spec.Job where
  key := j.id
  id := j.id
  category := j.category
  url := j.url
  payload := j.payload
  timeout := j.timeout
  retryDelay := j.retryDelay
  failureUrl := j.failureUrl
  createdAt := j.createdAt
  nextTry := j.nextTry
  retryCount := j.retryCount
  failCount := j.failCount

def Row.view (r : Row) : Spec.Job := (Job.scan r).view

def claimedRows (rows : List Row) : List Row := rows.filter fun r ↦ r.status = .claimed

section Rows

variable {rows : List Row} {f : Row → Row} {ids : List ℕ} {r : Row}

theorem insertJob_view {now id : ℕ} {i : IncomingJob} (h : insertJob now id i = some r) :
    r.view = Spec.accept now id id i := by
  unfold insertJob at h
  split at h <;> cases h
  rfl

theorem insertJob_retryCount {now id : ℕ} {i : IncomingJob} (h : insertJob now id i = some r) :
    i.retryCount < 2 ^ 32 := by
  unfold insertJob at h
  split at h
  · rename_i hfits
    exact hfits.2.2.1
  · cases h

theorem claimedRows_grab (hin : ∀ r ∈ rows, r.jobId ∈ ids → (f r).status = .grabbed)
    (hout : ∀ r ∈ rows, r.jobId ∉ ids → f r = r) :
    claimedRows (rows.map f) = (claimedRows rows).filter fun r ↦ r.jobId ∉ ids := by
  induction rows with
  | nil => rfl
  | cons q rows ih =>
    have ih := ih (fun r hr ↦ hin r (List.mem_cons_of_mem _ hr))
      fun r hr ↦ hout r (List.mem_cons_of_mem _ hr)
    unfold claimedRows at ih ⊢
    rw [List.map_cons, List.filter_cons, List.filter_cons, ih]
    by_cases hq : q.jobId ∈ ids
    · rw [if_neg (by simp [hin q List.mem_cons_self hq])]
      split
      · rw [List.filter_cons_of_neg (by simp [hq])]
      · rfl
    · rw [hout q List.mem_cons_self hq]
      split
      · rw [List.filter_cons_of_pos (by simp [hq])]
      · rfl

theorem claimedRows_claim (hn : (rows.map Row.jobId).Nodup) (hr : r ∈ rows)
    (hgrabbed : r.status = .grabbed) (hclaimed : (f r).status = .claimed)
    (hother : ∀ q ∈ rows, q.jobId ≠ r.jobId → f q = q) :
    (claimedRows (rows.map f)).Perm (f r :: claimedRows rows) := by
  have hperm := List.perm_cons_erase hr
  have hne : ∀ q ∈ rows.erase r, f q = q := by
    intro q hq
    refine hother q (List.mem_of_mem_erase hq) fun he ↦ ?_
    have hn' := (hperm.map Row.jobId).nodup_iff.mp hn
    rw [List.map_cons, List.nodup_cons] at hn'
    exact hn'.1 (he ▸ List.mem_map_of_mem hq)
  have hrest : claimedRows ((rows.erase r).map f) = claimedRows (rows.erase r) := by
    rw [List.map_congr_left hne, List.map_id']
  have hafter : (claimedRows (rows.map f)).Perm (f r :: claimedRows (rows.erase r)) := by
    refine ((hperm.map f).filter _).trans ?_
    rw [List.map_cons, List.filter_cons_of_pos (by simp [hclaimed])]
    exact List.Perm.of_eq (congrArg (f r :: ·) hrest)
  have hbefore : (claimedRows rows).Perm (claimedRows (rows.erase r)) := by
    refine (hperm.filter _).trans ?_
    rw [List.filter_cons_of_neg (by simp [hgrabbed])]
    exact .rfl
  exact hafter.trans (hbefore.symm.cons _)

theorem claimedRows_delete {T : JobTable} {id : ℕ} (hr : T.find id = some r)
    (hgrabbed : r.status = .grabbed) :
    claimedRows (T.delete id).rows = claimedRows T.rows := by
  obtain ⟨hmem, rfl⟩ := Table.find_eq_some_iff.mp hr
  unfold claimedRows
  change (T.rows.filter _).filter _ = _
  rw [List.filter_filter]
  refine List.filter_congr fun q hq ↦ ?_
  by_cases he : q.jobId = r.jobId
  · rw [Table.eq_of_key hq hmem he, hgrabbed]
    simp
  · simp [he]

end Rows

namespace Cluster

/-- The rows that `Pop` locks are the ones it has preselected, as long as
nothing happens in between. -/
theorem locked_perm {T : JobTable} {now limit : ℕ} {ids : List ℕ} {rows : List Row}
    (htop : TopAnswer (grabJobs now) (fun q r ↦ q.nextTry ≤ r.nextTry) limit T.rows
      (ids.filterMap T.find))
    (ha : Answer (grabbedJobs .claimed ids) T.rows rows) :
    rows.Perm (ids.filterMap T.find) := by
  have hn := (scan_answer ha).2.2.1.of_map
  refine (List.perm_ext_iff_of_nodup hn htop.1).mpr fun r ↦ ?_
  rw [ha.mem, List.mem_filterMap]
  constructor
  · rintro ⟨hr, -, hid⟩
    exact ⟨r.jobId, hid, Table.find_of_mem hr⟩
  · rintro ⟨id, hid, hfind⟩
    obtain ⟨hr, rfl⟩ := Table.find_eq_some_iff.mp hfind
    have hgrab := htop.2.1 r (List.mem_filterMap.mpr ⟨r.jobId, hid, hfind⟩)
    exact ⟨hr, hgrab.2.1, hid⟩

/-- An operation of a node with its answer, when no statement fails and no
other call is under way. -/
inductive Does (node : ℕ) : State → Spec.Label → State → Prop
  | tick {s t : State} {ms : ℕ} : step s (.tick ms) = some t → Does node s (.tick ms) t
  | push {s t : State} {i : IncomingJob} : step s (.push i true) = some t →
      Does node s (.push i s.table.next s.table.next) t
  | popNone {s t : State} {p limit : ℕ} : makes 16 limit →
      exec step s [.popStart p node limit, .preselect p [], .popReturn p []] = some t →
      Does node s (.pop limit []) t
  | popEmpty {s t : State} {p limit : ℕ} {ids : List ℕ} : makes 16 limit →
      exec step s ([.popStart p node limit, .preselect p ids, .beginTx p,
        .selectForUpdate p []] ++ [.popReturn p []]) = some t →
      Does node s (.pop limit []) t
  | pop {s t : State} {p limit : ℕ} {ids : List ℕ} {rows : List Row} {jobs : List Job} :
      makes 16 limit →
      exec step s ([.popStart p node limit, .preselect p ids, .beginTx p,
        .selectForUpdate p rows] ++ [.launch p, .commit p, .popReturn p jobs]) = some t →
      Does node s (.pop limit (jobs.map Job.view)) t
  | succeed {s t : State} {k : ℕ} {g : Grab} {res : Result} :
      exec step s [.complete k g res, .delete k true] = some t →
      Does node s (.complete g.job.view res) t
  | fail {s t : State} {k failedAt : ℕ} {g : Grab} {res : Result} :
      exec step s [.complete k g res, .addFailure k failedAt true, .delete k true] = some t →
      Does node s (.complete g.job.view res) t
  | retry {s t : State} {k : ℕ} {g : Grab} {res : Result} :
      exec step s [.complete k g res, .update k true] = some t →
      Does node s (.complete g.job.view res) t

/-- The jobs of the abstract queue, in a table. The row of a held job stays as
`Pop` has read it. -/
structure Represents (s : State) (a : Spec.State) : Prop where
  now : a.now = s.now
  waiting : a.waiting = (claimedRows s.table.rows).map Row.view
  held : a.held = s.held.map fun g ↦ g.job.view
  used : ∀ key ∈ a.used, key < s.table.next
  grabbed : ∀ g ∈ s.held, ∃ r, s.table.find g.job.id = some r ∧ r.status = .grabbed ∧
    Job.scan r = g.job

structure Related (node : ℕ) (s : State) (a : Spec.State) : Prop extends Represents s a where
  inv : PopInv s
  keys : Spec.KeyInv a
  counts : Spec.CountInv (2 ^ 32) a
  unlocked : ∀ id, s.locks id = none
  connected : ∃ session, s.sessions node = some session
  calls : ∃ n, ∀ k, n ≤ k → s.pops k = none ∧ s.completes k = none

theorem update_inj {β : Type} {calls : ℕ → Option β} {k : ℕ} {c d : β}
    (h : update calls k (some c) k = some d) : c = d := by
  rw [update_self] at h
  exact Option.some.inj h

section Pop

variable {s t : State} {a : Spec.State} {node p limit : ℕ} {ids : List ℕ} {rows : List Row}
  {jobs : List Job}

theorem selected_cases
    (h : exec step s [.popStart p node limit, .preselect p ids, .beginTx p,
      .selectForUpdate p rows] = some t) :
    ∃ session calls, s.sessions node = some session ∧ calls p = some ⟨node, limit,
        .selected session (rows.map Row.jobId) (rows.map Job.scan)⟩ ∧
      (ids.filterMap s.table.find).map Row.jobId = ids ∧
      TopAnswer (grabJobs s.now) (fun q r ↦ q.nextTry ≤ r.nextTry) limit s.table.rows
        (ids.filterMap s.table.find) ∧
      Answer (grabbedJobs .claimed ids) s.table.rows rows ∧
      t = { s with
        pops := calls
        locks := fun id ↦ if id ∈ rows.map Row.jobId then some p else s.locks id } := by
  obtain ⟨s₁, h₁, h⟩ := exec_cons h
  obtain ⟨s₂, h₂, h⟩ := exec_cons h
  obtain ⟨s₃, h₃, h⟩ := exec_cons h
  obtain ⟨s₄, h₄, h⟩ := exec_cons h
  cases h
  obtain ⟨-, rfl⟩ := popStart_cases h₁
  obtain ⟨c, hc, -, hids, htop, rfl⟩ := preselect_cases h₂
  cases update_inj hc
  obtain ⟨c, ids', session, hc, hphase, -, hsession, rfl⟩ := beginTx_cases h₃
  cases update_inj hc
  cases hphase
  obtain ⟨c, session', ids', hc, hphase, -, -, ha, rfl⟩ := selectForUpdate_cases h₄
  cases update_inj hc
  cases hphase
  obtain ⟨hres, htake, -, -⟩ := scan_answer ha
  refine ⟨session, _, hsession, ?_, hids, htop, ha, rfl⟩
  dsimp only [State.setPop]
  rw [update_self, htake, hres]

theorem launched_cases {session : Session} {results : List Job} (hi : PopInv s)
    (hp : s.pops p = some ⟨node, limit, .selected session ids results⟩)
    (h : exec step s [.launch p, .commit p, .popReturn p jobs] = some t) :
    ∃ f hf, t.table = s.table.update f hf ∧
      (∀ r ∈ s.table.rows, r.jobId ∈ results.map Job.id →
        f r = { r with status := .grabbed, grabberId := some session.connectionId }) ∧
      (∀ r ∈ s.table.rows, r.jobId ∉ results.map Job.id → f r = r) ∧
      jobs.Perm results ∧ jobs.Pairwise (fun i j ↦ i.nextTry ≤ j.nextTry) ∧
      t.held = s.held ++ jobs.map (Grab.mk session) ∧ t.now = s.now ∧
      t.locks = fun id ↦ if s.locks id = some p then none else s.locks id := by
  obtain ⟨s₁, h₁, h⟩ := exec_cons h
  obtain ⟨s₂, h₂, h⟩ := exec_cons h
  obtain ⟨s₃, h₃, h⟩ := exec_cons h
  cases h
  have hi₁ := step_inv h₁ hi
  obtain ⟨c, session', ids', results', hc, hphase, -, -, rfl⟩ := launch_cases h₁
  rw [hp] at hc
  cases hc
  cases hphase
  obtain ⟨c, session', results', pending, hc, hphase, -, rfl⟩ := commit_cases h₂
  have hrow (r : Row) (hr : r ∈ s.table.rows) :=
    publish_rowStep (r := r) hi₁ hc hphase (Table.find_of_mem hr)
  cases update_inj hc
  cases hphase
  rcases popReturn_cases h₃ with ⟨c, hc, hphase, -⟩ | ⟨c, session', ids', hc, hphase, -⟩ |
    ⟨c, session', results', hc, hphase, hperm, hsorted, rfl⟩
  · cases update_inj hc
    cases hphase
  · cases update_inj hc
    cases hphase
  · cases update_inj hc
    cases hphase
    exact ⟨_, _, rfl, fun r hr ↦ (hrow r hr).1, fun r hr ↦ (hrow r hr).2, hperm, hsorted, rfl,
      rfl, rfl⟩

/-- The two reads of `Pop` and its sort give the answer of the abstract queue. -/
theorem Represents.pops (h : Represents s a) (hkeys : Spec.KeyInv a)
    (hids : (ids.filterMap s.table.find).map Row.jobId = ids)
    (htop : TopAnswer (grabJobs s.now) (fun q r ↦ q.nextTry ≤ r.nextTry) limit s.table.rows
      (ids.filterMap s.table.find))
    (ha : Answer (grabbedJobs .claimed ids) s.table.rows rows)
    (hjobs : jobs.Perm (rows.map Job.scan))
    (hsorted : jobs.Pairwise fun i j ↦ i.nextTry ≤ j.nextTry) :
    Spec.Pops a.now limit a.waiting (jobs.map Job.view)
      (((claimedRows s.table.rows).filter fun r ↦ r.jobId ∉ rows.map Row.jobId).map Row.view) := by
  have hperm := locked_perm htop ha
  have hmem (id : ℕ) : id ∈ rows.map Row.jobId ↔ id ∈ ids := by
    rw [(hperm.map Row.jobId).mem_iff, hids]
  have hrows : rows.Perm
      ((claimedRows s.table.rows).filter fun r ↦ r.jobId ∈ rows.map Row.jobId) := by
    refine ha.trans (.of_eq ?_)
    rw [claimedRows, List.filter_filter]
    refine List.filter_congr fun r _ ↦ ?_
    rw [Bool.eq_iff_iff, decide_eq_true_eq]
    simp only [hmem, grabbedJobs, decide_eq_true_eq, Bool.and_eq_true, and_comm]
  have hparts : (claimedRows s.table.rows).Perm (rows ++
      (claimedRows s.table.rows).filter fun r ↦ r.jobId ∉ rows.map Row.jobId) := by
    refine (List.filter_append_perm (fun r ↦ r.jobId ∈ rows.map Row.jobId) _).symm.trans ?_
    refine (hrows.symm.append_right _).trans (.of_eq ?_)
    simp only [decide_not]
  have hview : (jobs.map Job.view).Perm (rows.map Row.view) := by
    refine (hjobs.map Job.view).trans (.of_eq ?_)
    rw [List.map_map]
    rfl
  have hsplit : a.waiting = (jobs.map Job.view : List Spec.Job) +
      (((claimedRows s.table.rows).filter fun r ↦ r.jobId ∉ rows.map Row.jobId).map Row.view :
        List Spec.Job) := by
    rw [h.waiting, Multiset.coe_add, Multiset.coe_eq_coe]
    refine (hparts.map Row.view).trans ?_
    rw [List.map_append]
    exact hview.symm.append_right _
  have hout {j : Spec.Job} (hj : j ∈ jobs.map Job.view) :
      ∃ r ∈ ids.filterMap s.table.find, r.view = j := by
    obtain ⟨r, hr, he⟩ := List.mem_map.mp (hview.mem_iff.mp hj)
    exact ⟨r, hperm.mem_iff.mp hr, he⟩
  refine ⟨hsplit, hkeys.nodup_out hsplit, List.pairwise_map.mpr hsorted, ?_, ?_, ?_⟩
  · rw [hview.length_eq, List.length_map, hperm.length_eq, htop.2.2.1, h.waiting,
      Multiset.coe_countP, List.countP_map, claimedRows, List.countP_filter, h.now]
    congr 1
    refine List.countP_congr fun r _ ↦ ?_
    rw [comp_apply, Bool.and_eq_true, decide_eq_true_eq, decide_eq_true_eq, decide_eq_true_eq]
    exact and_comm
  · intro j hj
    obtain ⟨r, hr, rfl⟩ := hout hj
    rw [h.now]
    exact (htop.2.1 r hr).2.2
  · intro j hj i hi hdue
    obtain ⟨r, hr, rfl⟩ := hout hj
    obtain ⟨q, hq, rfl⟩ := List.mem_map.mp (Multiset.mem_coe.mp hi)
    simp only [claimedRows, List.mem_filter, decide_eq_true_eq] at hq
    rw [h.now] at hdue
    refine htop.2.2.2.2 r hr q hq.1.1 ⟨hq.1.2, hdue⟩ fun hmem' ↦ hq.2 ?_
    exact List.mem_map_of_mem (hperm.mem_iff.mpr hmem')

end Pop

section Represents

variable {s t : State} {a : Spec.State}

theorem Represents.push {i : IncomingJob} {r : Row} (h : Represents s a)
    (hr : insertJob s.now s.table.next i = some r) :
    Represents { s with table := s.table.insert r } { a with
      waiting := Spec.accept a.now s.table.next s.table.next i ::ₘ a.waiting
      used := insert s.table.next a.used } := by
  have hid := insertJob_jobId hr
  refine ⟨h.now, ?_, h.held, fun key hkey ↦ ?_, fun g hg ↦ ?_⟩
  · dsimp only
    rw [AutoTable.rows_insert hid, claimedRows, List.filter_append,
      List.filter_cons_of_pos (by simp [(insertJob_claimed hr).1]), List.filter_nil,
      List.map_append, h.waiting, h.now, ← insertJob_view hr, Multiset.cons_coe,
      Multiset.coe_eq_coe]
    exact (List.perm_append_singleton _ _).symm
  · dsimp only
    rw [AutoTable.next_insert hid]
    rcases Set.mem_insert_iff.mp hkey with rfl | hkey
    · exact Nat.lt_succ_self _
    · exact Nat.lt_succ_of_lt (h.used key hkey)
  · obtain ⟨q, hq, hstatus, hscan⟩ := h.grabbed g hg
    refine ⟨q, ?_, hstatus, hscan⟩
    have hlt := AutoTable.lt_next hq
    dsimp only
    rw [AutoTable.find_insert hid, if_neg (by omega), hq]

theorem Represents.grab {rows : List Row} {jobs : List Job} {session : Session} {f : Row → Row}
    {hf : ∀ r, (f r).jobId = r.jobId} (h : Represents s a)
    (hrows : ∀ r ∈ rows, r ∈ s.table.rows ∧ r.status = .claimed)
    (hin : ∀ r ∈ s.table.rows, r.jobId ∈ rows.map Row.jobId →
      f r = { r with status := .grabbed, grabberId := some session.connectionId })
    (hout : ∀ r ∈ s.table.rows, r.jobId ∉ rows.map Row.jobId → f r = r)
    (hjobs : jobs.Perm (rows.map Job.scan)) (hnow : t.now = s.now)
    (htable : t.table = s.table.update f hf)
    (hheld : t.held = s.held ++ jobs.map (Grab.mk session)) :
    Represents t { a with
      waiting := ((claimedRows s.table.rows).filter
        fun r ↦ r.jobId ∉ rows.map Row.jobId).map Row.view
      held := a.held + jobs.map Job.view } := by
  refine ⟨hnow ▸ h.now, ?_, ?_, ?_, fun g hg ↦ ?_⟩
  · rw [htable]
    refine congrArg (fun l : List Row ↦ (l.map Row.view : Multiset Spec.Job)) (Eq.symm ?_)
    exact claimedRows_grab (fun r hr hid ↦ by rw [hin r hr hid]) hout
  · dsimp only
    rw [hheld, h.held, Multiset.coe_add, List.map_append, List.map_map]
    rfl
  · rw [htable]
    exact h.used
  · rw [hheld, List.mem_append, List.mem_map] at hg
    rw [htable]
    rcases hg with hg | ⟨j, hj, rfl⟩
    · obtain ⟨r, hr, hstatus, hscan⟩ := h.grabbed g hg
      refine ⟨r, ?_, hstatus, hscan⟩
      obtain ⟨hmem, hid⟩ := Table.find_eq_some_iff.mp hr
      have hnot : r.jobId ∉ rows.map Row.jobId := by
        intro hm
        obtain ⟨q, hq, he⟩ := List.mem_map.mp hm
        have hclaimed := (hrows q hq).2
        rw [Table.eq_of_key (hrows q hq).1 hmem he, hstatus] at hclaimed
        cases hclaimed
      rw [AutoTable.find_update, hr, Option.map_some, hout r hmem hnot]
    · obtain ⟨r, hr, rfl⟩ := List.mem_map.mp (hjobs.mem_iff.mp hj)
      have hf' := hin r (hrows r hr).1 (List.mem_map_of_mem hr)
      refine ⟨f r, ?_, by rw [hf'], by rw [hf']; rfl⟩
      have hfind : s.table.find (Job.scan r).id = some r := Table.find_of_mem (hrows r hr).1
      rw [AutoTable.find_update, hfind, Option.map_some]

variable {g : Grab}

theorem Represents.cons_held (h : Represents s a) (hg : g ∈ s.held) :
    a.held = g.job.view ::ₘ ((s.held.erase g).map fun g ↦ g.job.view : List Spec.Job) := by
  rw [h.held, Multiset.cons_coe, Multiset.coe_eq_coe]
  exact (List.perm_cons_erase hg).map _

theorem Represents.id_ne (h : Represents s a) (hkeys : Spec.KeyInv a) (hg : g ∈ s.held)
    {g' : Grab} (hg' : g' ∈ s.held.erase g) : g'.job.id ≠ g.job.id := by
  have hnodup := hkeys.nodup
  rw [Spec.State.jobs, h.cons_held hg, Multiset.add_cons, Multiset.map_cons,
    Multiset.nodup_cons] at hnodup
  intro he
  refine hnodup.1 (Multiset.mem_map.mpr ⟨g'.job.view, ?_, he⟩)
  refine Multiset.mem_add.mpr (.inr ?_)
  exact Multiset.mem_coe.mpr (List.mem_map_of_mem (f := fun g : Grab ↦ g.job.view) hg')

theorem Represents.erase_held (h : Represents s a) (hg : g ∈ s.held) :
    a.held.erase g.job.view = ((s.held.erase g).map fun g ↦ g.job.view : List Spec.Job) := by
  rw [h.cons_held hg, Multiset.erase_cons_head]

theorem Represents.delete (h : Represents s a) (hkeys : Spec.KeyInv a) (hg : g ∈ s.held)
    (hnow : t.now = s.now) (htable : t.table = s.table.delete g.job.id)
    (hheld : t.held = s.held.erase g) :
    Represents t { a with held := a.held.erase g.job.view } := by
  obtain ⟨r, hr, hstatus, -⟩ := h.grabbed g hg
  refine ⟨hnow ▸ h.now, ?_, ?_, ?_, fun g' hg' ↦ ?_⟩
  · rw [htable, claimedRows_delete hr hstatus]
    exact h.waiting
  · rw [hheld]
    exact h.erase_held hg
  · rw [htable]
    exact h.used
  · rw [hheld] at hg'
    rw [htable, AutoTable.find_delete, if_neg (h.id_ne hkeys hg hg')]
    exact h.grabbed g' (List.mem_of_mem_erase hg')

theorem updateJob_view {now : ℕ} {next : NextInfo} {r : Row} (hs : storable now next) :
    (updateJob now r.jobId next r).status = .claimed ∧
      (updateJob now r.jobId next r).view = { r.view with
        nextTry := now + next.nextDelay
        retryCount := next.retryCount
        failCount := next.failCount } := by
  rw [updateJob, dif_pos ⟨rfl, hs⟩]
  exact ⟨rfl, rfl⟩

theorem Represents.retry {next : NextInfo} (h : Represents s a) (hkeys : Spec.KeyInv a)
    (hg : g ∈ s.held) (hs : storable s.now next)
    (hnext : { g.job.view with
      nextTry := s.now + next.nextDelay
      retryCount := next.retryCount
      failCount := next.failCount } = g.job.view.retry s.now)
    (hnow : t.now = s.now)
    (htable : t.table = s.table.update (updateJob s.now g.job.id next)
      (updateJob_jobId s.now g.job.id next))
    (hheld : t.held = s.held.erase g) :
    Represents t { a with
      waiting := g.job.view.retry a.now ::ₘ a.waiting
      held := a.held.erase g.job.view } := by
  obtain ⟨r, hr, hstatus, hscan⟩ := h.grabbed g hg
  obtain ⟨hmem, hid⟩ := Table.find_eq_some_iff.mp hr
  obtain ⟨hclaimed, hview⟩ := updateJob_view (r := r) hs
  rw [hid] at hclaimed hview
  refine ⟨hnow ▸ h.now, ?_, ?_, ?_, fun g' hg' ↦ ?_⟩
  · have hperm := claimedRows_claim (f := updateJob s.now g.job.id next) s.table.nodup hmem hstatus
      hclaimed fun q _ hne ↦ updateJob_of_ne (hid ▸ hne)
    have hjob : r.view = g.job.view := congrArg Job.view hscan
    rw [hjob, hnext] at hview
    rw [htable, h.waiting, h.now, ← hview, Multiset.cons_coe, Multiset.coe_eq_coe]
    exact (hperm.map Row.view).symm
  · rw [hheld]
    exact h.erase_held hg
  · rw [htable]
    exact h.used
  · rw [hheld] at hg'
    obtain ⟨q, hq, hstatus', hscan'⟩ := h.grabbed g' (List.mem_of_mem_erase hg')
    refine ⟨q, ?_, hstatus', hscan'⟩
    have hne : q.jobId ≠ g.job.id := by
      rw [Table.find_key hq]
      exact h.id_ne hkeys hg hg'
    rw [htable, AutoTable.find_update, hq, Option.map_some, updateJob_of_ne hne]

end Represents

end Cluster

end Fireworq.MySQL
