import Fireworq.MySQL.Orphans

namespace Fireworq.MySQL.Cluster

open Relational JobQueue Execution Function

variable {s t : State} {es : List Event} {n c : ℕ} {ids : List ℕ} {e : Event}

section Locks

def PopPhase.locked : PopPhase → List Job
  | .selected _ _ results | .launched _ results _ => results
  | _ => []

def LockInv (s : State) : Prop :=
  ∀ id p, s.locks id = some p → ∃ phase, s.phase p = some phase ∧ id ∈ phase.locked.map Job.id

theorem release_locks_eq {id p q : ℕ} (h : (s.release p).locks id = some q) :
    q ≠ p ∧ s.locks id = some q := by
  simp only [State.release] at h
  split at h
  · cases h
  · next hne =>
    refine ⟨?_, h⟩
    rintro rfl
    exact hne h

theorem setPop_phase (p : ℕ) (call : PopCall) (phase : PopPhase) :
    (s.setPop p call phase).phase p = some phase := by
  simp [State.phase, State.setPop]

theorem LockInv.step (hl : LockInv s) (h : step s e = some t) : LockInv t := by
  have hother {p q id : ℕ} (he : e.popCall = some p) (hq : q ≠ p) (hid : s.locks id = some q) :
      ∃ phase, t.phase q = some phase ∧ id ∈ phase.locked.map Job.id := by
    obtain ⟨phase, hphase, hmem⟩ := hl id q hid
    rcases phase_step h q with heq | ⟨he', -⟩
    · exact ⟨phase, heq.trans hphase, hmem⟩
    · exact absurd (Option.some.inj (he'.symm.trans he)) hq
  have hsame {p id : ℕ} {call : PopCall} {after : PopPhase} (hs : s.pops p = some call)
      (ht : t.phase p = some after) (he : e.popCall = some p)
      (hj : call.phase.locked = [] ∨ call.phase.locked = after.locked) {q : ℕ}
      (hid : s.locks id = some q) :
      ∃ phase, t.phase q = some phase ∧ id ∈ phase.locked.map Job.id := by
    by_cases hq : q = p
    · subst hq
      obtain ⟨phase, hphase, hmem⟩ := hl id q hid
      cases (State.phase_of hs rfl).symm.trans hphase
      rcases hj with hj | hj
      · simp [hj] at hmem
      · exact ⟨after, ht, hj ▸ hmem⟩
    · exact hother he hq hid
  intro id q hq
  cases e with
  | popStart p node limit =>
    obtain ⟨hp, rfl⟩ := popStart_cases h
    by_cases hqp : q = p
    · obtain ⟨phase, hphase, -⟩ := hl id q hq
      rw [hqp, State.phase, hp] at hphase
      cases hphase
    · exact hother rfl hqp hq
  | preselect p ids =>
    obtain ⟨call, hp, hc, -, -, rfl⟩ := preselect_cases h
    exact hsame hp (setPop_phase p call _) rfl (.inl (by rw [hc]; rfl)) hq
  | beginTx p =>
    obtain ⟨call, ids, session, hp, hc, -, -, rfl⟩ := beginTx_cases h
    exact hsame hp (setPop_phase p call _) rfl (.inl (by rw [hc]; rfl)) hq
  | selectForUpdate p rows =>
    obtain ⟨call, session, ids, hp, hc, -, -, ha, rfl⟩ := selectForUpdate_cases h
    have hphase := setPop_phase (s := s) p call (.selected session
      ((scanRows ids [] 0 rows).1.take (scanRows ids [] 0 rows).2.length)
      (scanRows ids [] 0 rows).2)
    by_cases hid : id ∈ rows.map Row.jobId
    · simp only [if_pos hid, Option.some.injEq] at hq
      subst hq
      refine ⟨_, hphase, ?_⟩
      rw [PopPhase.locked, (scan_answer ha).1, List.map_map]
      exact hid
    · simp only [if_neg hid] at hq
      exact hsame hp hphase rfl (.inl (by rw [hc]; rfl)) hq
  | launch p =>
    obtain ⟨call, session, ids, results, hp, hc, -, -, rfl⟩ := launch_cases h
    exact hsame hp (setPop_phase p call _) rfl (.inr (by rw [hc]; rfl)) hq
  | commit p =>
    obtain ⟨call, session, results, pending, -, -, -, rfl⟩ := commit_cases h
    obtain ⟨hne, hid⟩ := release_locks_eq hq
    exact hother rfl hne hid
  | commitLost p =>
    obtain ⟨call, session, results, pending, -, -, rfl⟩ := commitLost_cases h
    obtain ⟨hne, hid⟩ := release_locks_eq hq
    exact hother rfl hne hid
  | popReturn p jobs =>
    rcases popReturn_cases h with ⟨call, hp, hc, -, rfl⟩ | ⟨call, session, ids, -, -, -, rfl⟩ |
      ⟨call, session, results, hp, hc, -, -, rfl⟩
    · exact hsame hp (setPop_phase p call _) rfl (.inl (by rw [hc]; rfl)) hq
    · obtain ⟨hne, hid⟩ := release_locks_eq hq
      exact hother rfl hne hid
    · exact hsame hp (setPop_phase p call _) rfl (.inl (by rw [hc]; rfl)) hq
  | popFail p =>
    obtain ⟨call, -, -, rfl⟩ := popFail_cases h
    obtain ⟨hne, hid⟩ := release_locks_eq hq
    exact hother rfl hne hid
  | _ =>
    rw [(step_frame h).locks rfl] at hq
    obtain ⟨phase, hphase, hmem⟩ := hl id q hq
    exact ⟨phase, by rw [State.phase, (step_frame h).pops rfl]; exact hphase, hmem⟩

theorem Run.lockInv (h : Run es s) : LockInv s := by
  refine invariant LockInv (fun _ _ _ hl hs ↦ hl.step hs) h ?_
  intro id p hp
  cases hp

/-- Nobody has locked a grabbed row. -/
theorem Run.unlocked_of_grabbed (h : Run es s) {id : ℕ} {r : Row} (hr : s.table.find id = some r)
    (hst : r.status = .grabbed) : s.locks id = none := by
  cases hl : s.locks id with
  | none => rfl
  | some p =>
    obtain ⟨phase, hphase, hmem⟩ := h.lockInv id p hl
    obtain ⟨call, hp, rfl⟩ := Option.map_eq_some_iff.mp hphase
    have hok := h.popInv p call hp
    have hholds : Holds s p call.phase.locked := by
      cases hc : call.phase with
      | selected session ids results =>
        simp only [PopOk, hc] at hok
        exact hok.2.2.2
      | launched session results pending =>
        simp only [PopOk, hc] at hok
        exact hok.2.2.1
      | _ => exact fun j hj ↦ by cases hj
    obtain ⟨j, hj, rfl⟩ := List.mem_map.mp hmem
    obtain ⟨-, q, hq, hclaimed, -⟩ := hholds j hj
    rw [hr] at hq
    cases hq
    rw [hst] at hclaimed
    cases hclaimed

end Locks

section Counting

def leftJobs (c : ℕ) (ids : List ℕ) (r : Row) : Prop := orphanJobs c r ∧ r.jobId ∉ ids

instance (c : ℕ) (ids : List ℕ) : DecidablePred (leftJobs c ids) :=
  fun _ ↦ inferInstanceAs (Decidable (_ ∧ _))

def State.left (s : State) (c : ℕ) (ids : List ℕ) : ℕ := s.table.rows.countP (leftJobs c ids)

def State.orphanCount (s : State) (c : ℕ) : ℕ := s.table.rows.countP (orphanJobs c)

theorem left_nil : s.left c [] = s.orphanCount c := by
  simp [State.left, State.orphanCount, leftJobs]

theorem not_leftJobs_of_claimed {r : Row} (h : r.status = .claimed) : ¬ leftJobs c ids r := by
  rintro ⟨⟨hst, -⟩, -⟩
  rw [h] at hst
  cases hst

theorem leftJobs_updateJob {now id : ℕ} {next : NextInfo} {r : Row}
    (h : leftJobs c ids (updateJob now id next r)) : leftJobs c ids r := by
  unfold updateJob at h
  split at h
  · exact absurd h (not_leftJobs_of_claimed rfl)
  · exact h

/-- An `UPDATE` for the ids leaves the orphans that it does not name. -/
theorem orphanJobs_recoverJobs (c : ℕ) (ids : List ℕ) (r : Row) :
    orphanJobs c (recoverJobs c ids r) ↔ leftJobs c ids r := by
  unfold recoverJobs
  split
  · next h =>
    refine iff_of_false (fun horphan ↦ ?_) fun hleft ↦ hleft.2 h.2
    cases horphan.1
  · next h => exact ⟨fun horphan ↦ ⟨horphan, fun hid ↦ h ⟨horphan, hid⟩⟩, And.left⟩

theorem countP_map_le {f : Row → Row} {p : Row → Prop} [DecidablePred p] {l : List Row}
    (h : ∀ r, p (f r) → p r) : (l.map f).countP p ≤ l.countP p := by
  rw [List.countP_map]
  exact List.countP_mono_left fun r _ hr ↦ by simpa using h r (by simpa using hr)

/-- What may happen between two statements of the `Recover` of a node: its own
statements, pushes, completions and deletions by any node. -/
def Meanwhile (n : ℕ) : Event → Prop
  | .tick _ | .push _ _ | .complete _ _ _ | .addFailure _ _ _ | .delete _ _ | .update _ _
  | .inspectorDelete _ | .deleteFailure _ => True
  | .orphans m _ | .reclaim m => m = n
  | _ => False

theorem Meanwhile.popCall (he : Meanwhile n e) : e.popCall = none := by
  cases e <;> first | rfl | exact he.elim

theorem Meanwhile.sessionNode (he : Meanwhile n e) : e.sessionNode = none := by
  cases e <;> first | rfl | exact he.elim

/-- Nobody grabs meanwhile, so the orphans do not increase. -/
theorem left_le (he : Meanwhile n e) (hr : ∀ m, e ≠ .reclaim m) (h : step s e = some t) :
    t.left c ids ≤ s.left c ids := by
  have hw := step_writes h
  unfold State.left
  generalize t.table = T at hw ⊢
  cases hw with
  | same => exact Nat.le_refl _
  | insert hn =>
    rw [AutoTable.rows_insert (insertJob_jobId hn), List.countP_append, List.countP_singleton,
      if_neg (by simpa using not_leftJobs_of_claimed (insertJob_claimed hn).1)]
    exact Nat.le_refl _
  | publish => exact he.elim
  | delete | inspectorDelete => exact List.filter_sublist.countP_le
  | update => exact countP_map_le fun r ↦ leftJobs_updateJob
  | @reclaim m => exact absurd rfl (hr m)

theorem orphanCount_reclaim {σ : Session} (hs : s.sessions n = some σ)
    (hr : s.recovers n = .updating ids) (h : step s (.reclaim n) = some t) :
    t.orphanCount σ.connectionId = s.left σ.connectionId ids := by
  obtain ⟨τ, ids', hr', hs', -, rfl⟩ := reclaim_cases h
  cases hr.symm.trans hr'
  cases hs.symm.trans hs'
  change (s.table.rows.map _).countP _ = s.table.rows.countP _
  rw [List.countP_map]
  refine List.countP_congr fun r _ ↦ ?_
  simpa using orphanJobs_recoverJobs σ.connectionId ids r

/-- The ids that the `SELECT` of `Recover` returns are those of so many orphans. -/
theorem left_add_length {limit : ℕ} (hids : (ids.filterMap s.table.find).map Row.jobId = ids)
    (ha : TopAnswer (orphanJobs c) (fun _ _ ↦ True) limit s.table.rows
      (ids.filterMap s.table.find)) : s.left c ids + ids.length = s.orphanCount c := by
  have hsplit := List.countP_eq_countP_filter_add s.table.rows (fun r ↦ decide (orphanJobs c r))
    (fun r ↦ decide (r.jobId ∈ ids))
  have hmem {r : Row} (hr : r ∈ s.table.rows) (hid : r.jobId ∈ ids) :
      r ∈ ids.filterMap s.table.find :=
    List.mem_filterMap.mpr ⟨r.jobId, hid, Table.find_of_mem hr⟩
  have hperm : (s.table.rows.filter fun r ↦ orphanJobs c r ∧ r.jobId ∈ ids).Perm
      (ids.filterMap s.table.find) := by
    refine (List.perm_ext_iff_of_nodup (s.table.nodup.of_map.filter _) ha.1).mpr fun r ↦ ?_
    rw [List.mem_filter, decide_eq_true_eq]
    refine ⟨fun hr ↦ hmem hr.1 hr.2.2, fun hr ↦ ?_⟩
    refine ⟨(ha.2.1 r hr).1, (ha.2.1 r hr).2, ?_⟩
    rw [← hids]
    exact List.mem_map_of_mem hr
  have hlen : ids.length = (ids.filterMap s.table.find).length := by
    conv_lhs => rw [← hids, List.length_map]
  have hleft : s.left c ids =
      s.table.rows.countP fun r ↦ decide (orphanJobs c r) && !decide (r.jobId ∈ ids) :=
    List.countP_congr fun r _ ↦ by rw [decide_eq_true_eq]; simp [leftJobs]
  rw [List.countP_filter, List.countP_filter, ← hleft] at hsplit
  rw [← hperm.length_eq, ← List.countP_eq_length_filter] at hlen
  simp only [Bool.decide_and] at hlen
  rw [State.orphanCount]
  omega

end Counting

section Loop

variable {σ : Session}

def LoopOk (c : ℕ) (s : State) : RecoverPhase → Prop
  | .selecting => True
  | .updating ids => ids ≠ [] ∧ ∀ id ∈ ids, s.locks id = none
  | .returned => s.orphanCount c = 0
  | .idle | .failed => False

structure Recovering (n : ℕ) (σ : Session) (s : State) : Prop where
  run : ∃ es, Run es s
  session : s.sessions n = some σ
  loop : LoopOk σ.connectionId s (s.recovers n)

/-- A bound for the statements that the loop can still execute. -/
def recoverWeight (c : ℕ) (s : State) : RecoverPhase → ℕ
  | .selecting => 2 * s.orphanCount c + 1
  | .updating ids => 2 * s.left c ids + 2
  | _ => 0

def roundsLeft (c : ℕ) (s : State) : RecoverPhase → ℕ
  | .selecting => (s.orphanCount c + 999) / 1000
  | .updating ids => (s.left c ids + 999) / 1000 + 1
  | _ => 0

theorem Recovering.orphans (hr : Recovering n σ s) (h : step s (.orphans n ids) = some t) :
    Recovering n σ t ∧ t.table = s.table ∧
      recoverWeight σ.connectionId t (t.recovers n) <
        recoverWeight σ.connectionId s (s.recovers n) ∧
      roundsLeft σ.connectionId t (t.recovers n) =
        roundsLeft σ.connectionId s (s.recovers n) := by
  obtain ⟨es, hes⟩ := hr.run
  obtain ⟨τ, hsel, hs, hids, ha, rfl⟩ := orphans_cases h
  cases hr.session.symm.trans hs
  have hcount := left_add_length hids ha
  have hlen : ids.length = min 1000 (s.orphanCount σ.connectionId) := by
    have hlen := ha.2.2.1
    rwa [← List.length_map (f := Row.jobId), hids] at hlen
  have hphase : (s.setRecover n (if ids = [] then .returned else .updating ids)).recovers n =
      if ids = [] then .returned else .updating ids := update_self _ _ _
  have hrun : ∃ es, Run es (s.setRecover n (if ids = [] then .returned else .updating ids)) :=
    ⟨es ++ [.orphans n ids], exec_snoc.mpr ⟨s, hes, h⟩⟩
  rw [hsel, hphase]
  by_cases hnil : ids = []
  · subst hnil
    have hzero : s.orphanCount σ.connectionId = 0 := by
      simp only [List.length_nil] at hlen
      omega
    refine ⟨⟨hrun, hs, by rw [hphase, if_pos rfl]; exact hzero⟩, rfl, ?_, ?_⟩
    · simp only [if_pos, recoverWeight]
      omega
    · simp only [if_pos, roundsLeft, hzero]
  · have hpos : 0 < ids.length := List.length_pos_iff.mpr hnil
    refine ⟨⟨hrun, hs, ?_⟩, rfl, ?_, ?_⟩
    · rw [hphase, if_neg hnil]
      refine ⟨hnil, fun id hid ↦ ?_⟩
      rw [← hids] at hid
      obtain ⟨r, hr, rfl⟩ := List.mem_map.mp hid
      obtain ⟨hrow, horphan⟩ := ha.2.1 r hr
      exact hes.unlocked_of_grabbed (Table.find_of_mem hrow) horphan.1
    · simp only [if_neg hnil, recoverWeight]
      change 2 * s.left σ.connectionId ids + 2 < _
      omega
    · simp only [if_neg hnil, roundsLeft]
      change (s.left σ.connectionId ids + 999) / 1000 + 1 = _
      omega

theorem Recovering.reclaim (hr : Recovering n σ s) (h : step s (.reclaim n) = some t) :
    Recovering n σ t ∧
      recoverWeight σ.connectionId t (t.recovers n) <
        recoverWeight σ.connectionId s (s.recovers n) ∧
      roundsLeft σ.connectionId t (t.recovers n) + 1 =
        roundsLeft σ.connectionId s (s.recovers n) := by
  obtain ⟨es, hes⟩ := hr.run
  have hframe := step_frame h
  obtain ⟨τ, ids, hupd, -, -, ht⟩ := reclaim_cases h
  have hphase : t.recovers n = .selecting := by
    rw [ht]
    exact update_self _ _ _
  have hcount := orphanCount_reclaim hr.session hupd h
  refine ⟨⟨⟨es ++ [.reclaim n], exec_snoc.mpr ⟨s, hes, h⟩⟩, ?_, ?_⟩, ?_, ?_⟩
  · rw [hframe.sessions rfl, hr.session]
  · rw [hphase]
    trivial
  · rw [hupd, hphase, recoverWeight, recoverWeight, hcount]
    omega
  · rw [hupd, hphase, roundsLeft, roundsLeft, hcount]

/-- What the others do does not keep the loop going. -/
theorem Recovering.meanwhile (hr : Recovering n σ s) (he : Meanwhile n e)
    (hn : e.recoverNode ≠ some n) (h : step s e = some t) :
    Recovering n σ t ∧
      recoverWeight σ.connectionId t (t.recovers n) ≤
        recoverWeight σ.connectionId s (s.recovers n) := by
  obtain ⟨es, hes⟩ := hr.run
  have hframe := step_frame h
  have hnode : e.recoverNode = none := by
    cases e with
    | orphans m ids | reclaim m =>
      cases he
      exact absurd rfl hn
    | recover | recoverFail | activate => exact he.elim
    | _ => rfl
  have hle (ids : List ℕ) : t.left σ.connectionId ids ≤ s.left σ.connectionId ids :=
    left_le he (by rintro m rfl; cases hnode) h
  have hle' := hle []
  rw [left_nil, left_nil] at hle'
  have hloop := hr.loop
  have hphase : t.recovers n = s.recovers n := by rw [hframe.recovers hnode]
  refine ⟨⟨⟨es ++ [e], exec_snoc.mpr ⟨s, hes, h⟩⟩, ?_, ?_⟩, ?_⟩
  · rw [hframe.sessions he.sessionNode, hr.session]
  · rw [hphase]
    unfold LoopOk at hloop ⊢
    rw [hframe.locks he.popCall]
    split at hloop
    · trivial
    · exact hloop
    · omega
    · exact hloop
    · exact hloop
  · rw [hphase]
    unfold recoverWeight
    split
    · omega
    · have := hle ‹_›
      omega
    · exact Nat.le_refl _

theorem Recovering.step (hr : Recovering n σ s) (he : Meanwhile n e) (h : step s e = some t) :
    Recovering n σ t ∧
      recoverWeight σ.connectionId t (t.recovers n) +
          (if e.recoverNode = some n then 1 else 0) ≤
        recoverWeight σ.connectionId s (s.recovers n) := by
  by_cases hn : e.recoverNode = some n
  · rw [if_pos hn]
    cases e with
    | orphans m ids =>
      cases hn
      obtain ⟨ht, -, hlt, -⟩ := hr.orphans h
      exact ⟨ht, hlt⟩
    | reclaim m =>
      cases hn
      obtain ⟨ht, hlt, -⟩ := hr.reclaim h
      exact ⟨ht, hlt⟩
    | recover | recoverFail | activate => exact he.elim
    | _ => cases hn
  · rw [if_neg hn]
    exact hr.meanwhile he hn h

/-- The loop executes no more statements than its weight allows. -/
theorem Recovering.statements (hr : Recovering n σ s) (h : exec Cluster.step s es = some t)
    (hes : ∀ e ∈ es, Meanwhile n e) :
    Recovering n σ t ∧
      recoverWeight σ.connectionId t (t.recovers n) +
          es.countP (fun e ↦ e.recoverNode = some n) ≤
        recoverWeight σ.connectionId s (s.recovers n) := by
  induction es generalizing s with
  | nil => cases h; exact ⟨hr, Nat.le_refl _⟩
  | cons e es ih =>
    obtain ⟨u, hu, h⟩ := exec_cons h
    rw [List.forall_mem_cons] at hes
    obtain ⟨hru, hle⟩ := hr.step hes.1 hu
    obtain ⟨hrt, hle'⟩ := ih hru h hes.2
    refine ⟨hrt, ?_⟩
    rw [List.countP_cons]
    simp only [decide_eq_true_eq]
    omega

theorem Recovering.rounds (hr : Recovering n σ s) (h : exec Cluster.step s es = some t)
    (hes : ∀ e ∈ es, Meanwhile n e ∧ e.recoverNode = some n) :
    roundsLeft σ.connectionId t (t.recovers n) + es.count (.reclaim n) =
      roundsLeft σ.connectionId s (s.recovers n) := by
  induction es generalizing s with
  | nil => cases h; rfl
  | cons e es ih =>
    obtain ⟨u, hu, ht⟩ := exec_cons h
    rw [List.forall_mem_cons] at hes
    cases e with
    | orphans m ids =>
      cases hes.1.2
      obtain ⟨hru, -, -, heq⟩ := hr.orphans hu
      rw [List.count_cons_of_ne (by simp), ih hru ht hes.2, heq]
    | reclaim m =>
      cases hes.1.2
      obtain ⟨hru, -, heq⟩ := hr.reclaim hu
      have hcount := ih hru ht hes.2
      rw [List.count_cons_self]
      omega
    | recover | recoverFail | activate => exact hes.1.1.elim
    | _ => cases hes.1.2

/-- The loop is never stuck. -/
theorem Recovering.progress (hr : Recovering n σ s) (hn : s.recovers n ≠ .returned) :
    ∃ e t, Meanwhile n e ∧ e.recoverNode = some n ∧ Cluster.step s e = some t := by
  have hloop := hr.loop
  cases hp : s.recovers n with
  | selecting =>
    obtain ⟨out, htop⟩ : ∃ out, TopAnswer (orphanJobs σ.connectionId) (fun _ _ ↦ True) 1000
        s.table.rows out :=
      exists_topAnswer _ (fun _ _ _ _ _ ↦ trivial) (fun _ _ ↦ .inl trivial) 1000
        s.table.nodup.of_map
    have hout : (out.map Row.jobId).filterMap s.table.find = out :=
      Table.filterMap_find fun r hr ↦ (htop.2.1 r hr).1
    have hsome : (Cluster.step s (.orphans n (out.map Row.jobId))).isSome = true := by
      simp only [Cluster.step, Cluster.orphans, hp, hr.session]
      rw [if_pos ⟨by rw [hout], by rw [hout]; exact htop⟩]
      rfl
    obtain ⟨t, ht⟩ := Option.isSome_iff_exists.mp hsome
    exact ⟨.orphans n _, t, rfl, rfl, ht⟩
  | updating ids =>
    rw [hp] at hloop
    have hsome : (Cluster.step s (.reclaim n)).isSome = true := by
      simp only [Cluster.step, Cluster.reclaim, hp, hr.session]
      rw [if_pos hloop.2]
      rfl
    obtain ⟨t, ht⟩ := Option.isSome_iff_exists.mp hsome
    exact ⟨.reclaim n, t, rfl, rfl, ht⟩
  | returned => exact absurd hp hn
  | idle | failed =>
    rw [hp] at hloop
    exact hloop.elim

theorem recover_rows (hs : s.sessions n = some σ) (he : Meanwhile n e)
    (hn : e.recoverNode = some n) (h : step s e = some t) (id : ℕ) :
    t.table.find id = s.table.find id ∨
      ∃ r, s.table.find id = some r ∧ orphanJobs σ.connectionId r ∧
        t.table.find id = some { r with status := .claimed, grabberId := none } := by
  cases e with
  | orphans m ids =>
    obtain ⟨τ, -, -, -, -, rfl⟩ := orphans_cases h
    exact .inl rfl
  | reclaim m =>
    cases hn
    obtain ⟨τ, ids, -, hs', -, rfl⟩ := reclaim_cases h
    cases hs.symm.trans hs'
    change (s.table.update _ _).find id = _ ∨ _
    rw [AutoTable.find_update]
    cases hr : s.table.find id with
    | none => exact .inl rfl
    | some r =>
      rw [Option.map_some, recoverJobs]
      split
      · next horphan => exact .inr ⟨r, rfl, horphan.1, rfl⟩
      · exact .inl rfl
  | recover | recoverFail | activate => exact he.elim
  | _ => cases hn

theorem Recovering.clean (hr : Recovering n σ s) (hn : s.recovers n = .returned) {r : Row}
    (hmem : r ∈ s.table.rows) (hst : r.status = .grabbed) :
    r.grabberId = some σ.connectionId := by
  obtain ⟨es, hes⟩ := hr.run
  have hloop := hr.loop
  rw [hn] at hloop
  have hnot : ¬ orphanJobs σ.connectionId r := fun horphan ↦
    List.countP_eq_zero.mp hloop r hmem (by simpa using horphan)
  rcases hes.consistent _ r (Table.find_of_mem hmem) with ⟨hclaimed, -⟩ | ⟨-, hgr⟩
  · rw [hst] at hclaimed
    cases hclaimed
  · obtain ⟨g, hg⟩ := Option.ne_none_iff_exists'.mp hgr
    by_contra hne
    refine hnot ⟨hst, ?_⟩
    rw [hg, Option.some.injEq] at hne
    simp [otherGrabber, hg, hne]

/-- What the `Recover` of a node, called in `s`, has done to the job table when
the events `es` have led to `t`. -/
structure RecoversExactly (n : ℕ) (σ : Session) (s : State) (es : List Event) (t : State) :
    Prop where
  /-- The loop can go on until it returns. -/
  progress : t.recovers n ≠ .returned →
    ∃ e u, Meanwhile n e ∧ e.recoverNode = some n ∧ step t e = some u
  /-- It does not go on for ever. -/
  bounded : es.countP (fun e ↦ e.recoverNode = some n) ≤ 2 * s.orphanCount σ.connectionId + 1
  clean : t.recovers n = .returned →
    ∀ r ∈ t.table.rows, r.status = .grabbed → r.grabberId = some σ.connectionId
  exact : ∀ xs e ys u v, es = xs ++ e :: ys → exec step s xs = some u → step u e = some v →
    e.recoverNode = some n → ∀ id, v.table.find id = u.table.find id ∨
      ∃ r, u.table.find id = some r ∧ r.status = .grabbed ∧
        (∃ g, r.grabberId = some g ∧ g ≠ σ.connectionId) ∧
        v.table.find id = some { r with status := .claimed, grabberId := none }
  rounds : (∀ e ∈ es, e.recoverNode = some n) → t.recovers n = .returned →
    es.count (.reclaim n) = (s.orphanCount σ.connectionId + 999) / 1000

/-- `Recover` is exact and terminates. -/
theorem recover_exact {es' : List Event} {u : State} (h : Run es s) (hs : s.sessions n = some σ)
    (hu : step s (.recover n) = some u) (ht : exec step u es' = some t)
    (hes : ∀ e ∈ es', Meanwhile n e) : RecoversExactly n σ u es' t := by
  obtain ⟨-, rfl⟩ := recover_cases hu
  have hphase : (s.setRecover n .selecting).recovers n = .selecting := update_self _ _ _
  have hr : Recovering n σ (s.setRecover n .selecting) := by
    refine ⟨⟨es ++ [.recover n], exec_snoc.mpr ⟨s, h, hu⟩⟩, hs, ?_⟩
    rw [hphase]
    trivial
  obtain ⟨hrt, hbound⟩ := hr.statements ht hes
  rw [hphase, recoverWeight] at hbound
  refine ⟨hrt.progress, by omega, hrt.clean, ?_, fun hown hret ↦ ?_⟩
  · rintro xs e ys v w rfl hv hw hn id
    have hv' := (hr.statements hv fun f hf ↦ hes f (by simp [hf])).1
    rcases recover_rows hv'.session (hes e (by simp)) hn hw id with heq | ⟨r, hr', horphan, heq⟩
    · exact .inl heq
    · refine .inr ⟨r, hr', horphan.1, ?_, heq⟩
      simpa [otherGrabber, Option.any_eq_true] using horphan.2
  · have hrounds := hr.rounds ht fun e he ↦ ⟨hes e he, hown e he⟩
    rw [hphase, hret] at hrounds
    simpa [roundsLeft] using hrounds

theorem recover_exact_crash :
    ∃ s u t, Run (crash ++ [.connect 1 8]) s ∧ step s (.recover 1) = some u ∧
      exec step u [.orphans 1 [1], .push sampleJob true, .reclaim 1, .orphans 1 []] = some t ∧
      RecoversExactly 1 ⟨1, 8⟩ u
        [.orphans 1 [1], .push sampleJob true, .reclaim 1, .orphans 1 []] t := by
  have hrun : ((exec step .initial (crash ++ [.connect 1 8])).bind fun s ↦
      (step s (.recover 1)).map fun u ↦ (decide (s.sessions 1 = some ⟨1, 8⟩),
        (exec step u [.orphans 1 [1], .push sampleJob true, .reclaim 1,
          .orphans 1 []]).isSome)) = some (true, true) := by decide +kernel
  obtain ⟨s, hs, h⟩ := Option.bind_eq_some_iff.mp hrun
  obtain ⟨u, hu, h⟩ := Option.map_eq_some_iff.mp h
  obtain ⟨hσ, ht⟩ := Prod.mk.inj h
  obtain ⟨t, ht⟩ := Option.isSome_iff_exists.mp ht
  exact ⟨s, u, t, hs, hu, ht,
    recover_exact hs (of_decide_eq_true hσ) hu ht (by simp [Meanwhile])⟩

end Loop

end Fireworq.MySQL.Cluster
