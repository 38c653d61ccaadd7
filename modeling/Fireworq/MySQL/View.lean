import Fireworq.MySQL.Accounting
import Fireworq.MySQL.Fencing

namespace Fireworq.MySQL.Cluster

open Relational JobQueue Execution Function

variable {s t : State} {es : List Event} {e : Event} {id : ℕ}

def PopPhase.copy (id : ℕ) : PopPhase → Option Job
  | .committed _ results => results.find? fun j ↦ j.id = id
  | _ => none

def CompletePhase.active : CompletePhase → Bool
  | .done => false
  | _ => true

/-- Where a job is: its row, its copies in calls of `Pop` and in the hands of
workers, and the calls of `Complete` for it. -/
@[ext]
structure View where
  row : Option Row
  copies : ℕ → Option Job
  held : List Grab
  calls : ℕ → Option CompleteCall

def State.view (s : State) (id : ℕ) : View where
  row := s.table.find id
  copies p := (s.phase p).bind (PopPhase.copy id)
  held := s.held.filter fun g ↦ g.job.id = id
  calls k := (s.completes k).filter fun c ↦ c.grab.job.id = id && c.phase.active

def Event.result (id : ℕ) : Event → Option Result
  | .complete _ g res => if g.job.id = id then some res else none
  | _ => none

def State.entry (id : ℕ) (s : State) : Event → List FailedRow
  | .addFailure k failedAt true =>
    match s.completes k with
    | some ⟨g, .logging res⟩ =>
      if g.job.id = id then [failedRow s.failures.next failedAt g.job res] else []
    | _ => []
  | _ => []

/-- One active node and no fail-over, as far as the job is concerned: no commit
that grabs it is lost, no statement of its completion fails, nobody deletes it
through the inspector, and no recovery takes it from the connection that has
grabbed it. -/
structure Calm (id : ℕ) (s : State) (e : Event) : Prop where
  commits : ∀ p session results pending, e = .commitLost p →
    s.phase p = some (.launched session results pending) → id ∉ results.map Job.id
  completes : ∀ k c, s.completes k = some c → c.grab.job.id = id →
    (∀ failedAt, e ≠ .addFailure k failedAt false) ∧ e ≠ .delete k false ∧ e ≠ .update k false
  storable : ∀ k g next, e = .update k true → s.completes k = some ⟨g, .updating next⟩ →
    g.job.id = id → storable s.now next
  inspects : e ≠ .inspectorDelete id
  recovers : ∀ node session r, e = .reclaim node → s.sessions node = some session →
    s.table.find id = some r → ¬ orphanJobs session.connectionId r

/-- What a calm step does to the place of a job, with the result that it is
given and the entries that are added to the failure log. -/
inductive JobMove (now id : ℕ) : View → Option Result → List FailedRow → View → Prop
  | same {v : View} : JobMove now id v none [] v
  | grab {v : View} {r : Row} {p c : ℕ} : v.row = some r → r.status = .claimed →
      JobMove now id v none [] { v with
        row := some { r with status := .grabbed, grabberId := some c }
        copies := update v.copies p (some (Job.scan r)) }
  | hand {v : View} {p : ℕ} {g : Grab} : v.copies p = some g.job →
      JobMove now id v none [] { v with
        copies := update v.copies p none
        held := v.held ++ [g] }
  | complete {v : View} {k : ℕ} {g : Grab} {res : Result} : g ∈ v.held → v.calls k = none →
      JobMove now id v (some res) [] { v with
        held := v.held.erase g
        calls := update v.calls k (some ⟨g, completePhase g res⟩) }
  | log {v : View} {k : ℕ} {g : Grab} {res : Result} {f : FailedRow} :
      v.calls k = some ⟨g, .logging res⟩ → f.jobId = id → f.result = res →
      f.failCount = g.job.failCount + 1 →
      JobMove now id v none [f] { v with calls := update v.calls k (some ⟨g, .deleting⟩) }
  | delete {v : View} {k : ℕ} {g : Grab} : v.calls k = some ⟨g, .deleting⟩ →
      JobMove now id v none [] { v with row := none, calls := update v.calls k none }
  | retry {v : View} {k : ℕ} {g : Grab} {next : NextInfo} : v.calls k = some ⟨g, .updating next⟩ →
      storable now next →
      JobMove now id v none [] { v with
        row := v.row.map (updateJob now id next)
        calls := update v.calls k none }

theorem JobMove.of_same (hres : e.result id = none) (hentry : s.entry id e = [])
    (hrow : t.table.find id = s.table.find id) (hcopies : (t.view id).copies = (s.view id).copies)
    (hheld : (t.view id).held = (s.view id).held)
    (hcalls : (t.view id).calls = (s.view id).calls) :
    JobMove s.now id (s.view id) (e.result id) (s.entry id e) (t.view id) := by
  have hview : t.view id = s.view id := View.ext hrow hcopies hheld hcalls
  rw [hres, hentry, hview]
  exact .same

theorem copies_frame (h : step s e = some t) (he : e.popCall = none) :
    (t.view id).copies = (s.view id).copies := by
  simp only [State.view, State.phase, (step_frame h).pops he]

theorem calls_frame (h : step s e = some t) (he : e.completeCall = none) :
    (t.view id).calls = (s.view id).calls := by
  simp only [State.view, (step_frame h).completes he]

theorem held_frame (h : step s e = some t) (hret : ∀ p jobs, e ≠ .popReturn p jobs)
    (hcom : ∀ k g res, e ≠ .complete k g res) : (t.view id).held = (s.view id).held := by
  simp only [State.view, (step_frame h).held hret hcom]

theorem copies_step (id : ℕ) {p : ℕ} (h : step s e = some t) (he : e.popCall = some p) :
    ∃ phase, PopMove e (s.phase p) phase ∧
      (t.view id).copies = update (s.view id).copies p (phase.copy id) := by
  obtain ⟨c, hpops, hm⟩ := step_moves h he
  refine ⟨c.phase, hm, funext fun q ↦ ?_⟩
  by_cases hq : q = p
  · subst hq
    simp only [State.view, State.phase, hpops, update_self, Option.map_some, Option.bind_some]
  · simp only [State.view, State.phase, hpops, update_of_ne hq]

theorem view_unlaunched {p : ℕ} (h : step s e = some t) (he : e.popCall = some p)
    (hcommit : e ≠ .commit p) (hlost : e ≠ .commitLost p) (hret : ∀ jobs, e ≠ .popReturn p jobs) :
    JobMove s.now id (s.view id) (e.result id) (s.entry id e) (t.view id) := by
  have hcom : e.completeCall = none := by cases e <;> first | rfl | cases he
  have hres : e.result id = none := by cases e <;> first | rfl | cases he
  have hentry : s.entry id e = [] := by cases e <;> first | rfl | cases he
  have hrow : t.table.find id = s.table.find id := by
    have hw := step_writes h
    generalize t.table = T at hw ⊢
    cases hw with
    | same => rfl
    | publish => cases he; exact absurd rfl hcommit
    | insert | delete | update | inspectorDelete | reclaim => cases he
  obtain ⟨phase, hm, hcopies⟩ := copies_step id h he
  refine .of_same hres hentry hrow (hcopies.trans ?_) (held_frame h ?_ ?_) (calls_frame h hcom)
  · have hcopy : phase.copy id = (s.view id).copies p := by
      change _ = (s.phase p).bind _
      generalize s.phase p = before at hm
      cases hm with
      | start | preselect | begin | select | launch => rfl
      | commit | commitLost | returnNone | returnEmpty | «return» => cases he; simp at *
      | @fail q before hrun => cases before <;> first | rfl | cases hrun
    rw [hcopy, update_eq_self]
  · intro q jobs hq
    subst hq
    cases he
    exact hret jobs rfl
  · intro k g res hk
    subst hk
    cases he

theorem find_copy {results : List Job} {j : Job} (hn : (results.map Job.id).Nodup)
    (hj : j ∈ results) (hid : j.id = id) :
    results.find? (fun j ↦ j.id = id) = some j := by
  cases h : results.find? fun j ↦ j.id = id with
  | none => exact absurd hid (by simpa using List.find?_eq_none.mp h j hj)
  | some i =>
    have hi : i.id = id := by simpa using List.find?_some h
    rw [List.inj_on_of_nodup_map hn (List.mem_of_find?_eq_some h) hj (hi.trans hid.symm)]

theorem find_copy_none {results : List Job} (h : id ∉ results.map Job.id) :
    results.find? (fun j ↦ j.id = id) = none := by
  rw [List.find?_eq_none]
  intro j hj he
  exact h (List.mem_map.mpr ⟨j, hj, by simpa using he⟩)

theorem view_commit {p : ℕ} (hi : PopInv s) (h : step s (.commit p) = some t) :
    JobMove s.now id (s.view id) none [] (t.view id) := by
  obtain ⟨c, session, results, pending, hp, hc, -, ht⟩ := commit_cases h
  obtain ⟨phase, hm, hcopies⟩ := copies_step id h rfl
  rw [State.phase_of hp hc] at hm
  have hcopy : (s.view id).copies p = none := by
    change (s.phase p).bind _ = none
    rw [State.phase_of hp hc]
    rfl
  have hheld : (t.view id).held = (s.view id).held := held_frame h nofun nofun
  have hcalls : (t.view id).calls = (s.view id).calls := calls_frame h rfl
  have hok := hi p c hp
  simp only [PopOk, hc] at hok
  obtain ⟨hn, -, hholds, -⟩ := hok
  have hfind : t.table.find id = (s.table.find id).map (publish pending) := by
    rw [ht]
    exact AutoTable.find_update id
  cases hm with
  | commit =>
    by_cases hid : id ∈ results.map Job.id
    · obtain ⟨j, hj, hjid⟩ := List.mem_map.mp hid
      obtain ⟨-, r, hr, hst, rfl⟩ := hholds j hj
      rw [hjid] at hr
      have hpub := (publish_rowStep hi hp hc hr).1 hid
      have hview : t.view id = { s.view id with
          row := some { r with status := .grabbed, grabberId := some session.connectionId }
          copies := update (s.view id).copies p (some (Job.scan r)) } := by
        refine View.ext ?_ ?_ hheld hcalls
        · exact hfind.trans (by rw [hr, Option.map_some, hpub])
        · rw [hcopies, PopPhase.copy, find_copy hn hj hjid]
      rw [hview]
      exact .grab hr hst
    · refine .of_same (e := .commit p) rfl rfl ?_ ?_ hheld hcalls
      · rw [hfind]
        cases hr : s.table.find id with
        | none => rfl
        | some r => rw [Option.map_some, (publish_rowStep hi hp hc hr).2 hid]
      · rw [hcopies, PopPhase.copy, find_copy_none hid, ← hcopy, update_eq_self]

theorem view_commitLost {p : ℕ} (hc : Calm id s (.commitLost p))
    (h : step s (.commitLost p) = some t) : JobMove s.now id (s.view id) none [] (t.view id) := by
  obtain ⟨c, session, results, pending, hp, hph, ht⟩ := commitLost_cases h
  have hphase := State.phase_of hp hph
  obtain ⟨phase, hm, hcopies⟩ := copies_step id h rfl
  have hid := hc.commits p session results pending rfl hphase
  have hcopy : (s.view id).copies p = none := by
    change (s.phase p).bind _ = none
    rw [hphase]
    rfl
  rw [hphase] at hm
  cases hm with
  | commitLost =>
    refine .of_same (e := .commitLost p) rfl rfl (by rw [ht]; rfl) ?_ (held_frame h nofun nofun)
      (calls_frame h rfl)
    rw [hcopies, PopPhase.copy, find_copy_none hid, ← hcopy, update_eq_self]

theorem filter_copy {jobs : List Job} {j : Job} (hn : (jobs.map Job.id).Nodup) (hj : j ∈ jobs) :
    jobs.filter (fun i ↦ i.id = j.id) = [j] := by
  induction jobs with
  | nil => cases hj
  | cons i jobs ih =>
    rw [List.map_cons, List.nodup_cons] at hn
    rcases List.mem_cons.mp hj with rfl | hj
    · rw [List.filter_cons_of_pos (by simp), List.filter_eq_nil_iff.mpr]
      intro i hi he
      exact hn.1 (List.mem_map.mpr ⟨i, hi, by simpa using he⟩)
    · rw [List.filter_cons_of_neg, ih hn.2 hj]
      intro he
      exact hn.1 (List.mem_map.mpr ⟨j, hj, by simpa using (of_decide_eq_true he).symm⟩)

theorem filter_copy_none {jobs : List Job} (h : id ∉ jobs.map Job.id) :
    jobs.filter (fun i ↦ i.id = id) = [] := by
  rw [List.filter_eq_nil_iff]
  intro i hi he
  exact h (List.mem_map.mpr ⟨i, hi, by simpa using he⟩)

theorem view_popReturn {p : ℕ} {jobs : List Job} (hi : PopInv s)
    (h : step s (.popReturn p jobs) = some t) :
    JobMove s.now id (s.view id) none [] (t.view id) := by
  obtain ⟨phase, hm, hcopies⟩ := copies_step id h rfl
  have hcalls : (t.view id).calls = (s.view id).calls := calls_frame h rfl
  have hcopy : phase.copy id = none := by
    generalize s.phase p = before at hm
    cases hm <;> rfl
  have hempty (hbefore : (s.view id).copies p = none) (hrow : t.table = s.table)
      (hheld : t.held = s.held) : JobMove s.now id (s.view id) none [] (t.view id) := by
    refine .of_same (e := .popReturn p jobs) rfl rfl (by rw [hrow]) ?_ ?_ hcalls
    · rw [hcopies, hcopy, ← hbefore, update_eq_self]
    · change t.held.filter _ = s.held.filter _
      rw [hheld]
  rcases popReturn_cases h with ⟨c, hp, hc, -, rfl⟩ | ⟨c, session, ids, hp, hc, -, rfl⟩ |
    ⟨c, session, results, hp, hc, hperm, -, ht⟩
  · refine hempty ?_ rfl rfl
    change (s.phase p).bind _ = none
    rw [State.phase_of hp hc]
    rfl
  · refine hempty ?_ rfl rfl
    change (s.phase p).bind _ = none
    rw [State.phase_of hp hc]
    rfl
  · have hphase := State.phase_of hp hc
    have hok := hi p c hp
    simp only [PopOk, hc] at hok
    have hn : (jobs.map Job.id).Nodup := (hperm.map Job.id).nodup_iff.mpr hok.1
    have hbefore : (s.view id).copies p = results.find? fun j ↦ j.id = id := by
      change (s.phase p).bind _ = _
      rw [hphase]
      rfl
    have hheld : (t.view id).held =
        (s.view id).held ++ (jobs.filter fun j ↦ j.id = id).map (Grab.mk session) := by
      rw [ht]
      change (s.held ++ jobs.map (Grab.mk session)).filter _ = _
      rw [List.filter_append, List.filter_map]
      rfl
    by_cases hid : id ∈ jobs.map Job.id
    · obtain ⟨j, hj, rfl⟩ := List.mem_map.mp hid
      rw [filter_copy hn hj] at hheld
      rw [find_copy hok.1 (hperm.mem_iff.mp hj) rfl] at hbefore
      have hview : t.view j.id = { s.view j.id with
          copies := update (s.view j.id).copies p none
          held := (s.view j.id).held ++ [⟨session, j⟩] } := by
        refine View.ext ?_ (by rw [hcopies, hcopy]) hheld hcalls
        rw [ht]
        rfl
      rw [hview]
      exact .hand hbefore
    · have hid' : id ∉ results.map Job.id := fun hmem ↦ hid ((hperm.map Job.id).mem_iff.mpr hmem)
      rw [filter_copy_none hid, List.map_nil, List.append_nil] at hheld
      rw [find_copy_none hid'] at hbefore
      refine .of_same (e := .popReturn p jobs) rfl rfl (by rw [ht]; rfl) ?_ hheld hcalls
      rw [hcopies, hcopy, ← hbefore, update_eq_self]

def CompleteCall.pending (id : ℕ) (c : CompleteCall) : Option CompleteCall :=
  if c.grab.job.id = id && c.phase.active then some c else none

theorem calls_eq (id : ℕ) {k : ℕ} {c : CompleteCall} (hk : s.completes k = some c) :
    (s.view id).calls k = c.pending id := by
  simp only [State.view, hk, Option.filter, CompleteCall.pending]

theorem calls_update {k : ℕ} {c : CompleteCall} (h : t.completes = update s.completes k (some c)) :
    (t.view id).calls = update (s.view id).calls k (c.pending id) := by
  funext l
  by_cases hl : l = k
  · subst hl
    rw [update_self]
    exact calls_eq id (by rw [h, update_self])
  · simp only [State.view, h, update_of_ne hl]

theorem CompleteCall.pending_of_ne {c : CompleteCall} (h : c.grab.job.id ≠ id) :
    c.pending id = none := by
  simp [CompleteCall.pending, h]

theorem completePhase_active (g : Grab) (res : Result) : (completePhase g res).active = true := by
  unfold completePhase
  split <;> rfl

theorem view_complete {k : ℕ} {g : Grab} {res : Result}
    (h : step s (.complete k g res) = some t) :
    JobMove s.now id (s.view id) ((Event.complete k g res).result id) [] (t.view id) := by
  obtain ⟨hg, hk, ht⟩ := complete_cases h
  have hcopies : (t.view id).copies = (s.view id).copies := copies_frame h rfl
  have hcalls : (t.view id).calls =
      update (s.view id).calls k (CompleteCall.pending id ⟨g, completePhase g res⟩) :=
    calls_update (by rw [ht])
  have hnone : (s.view id).calls k = none := by
    change (s.completes k).filter _ = none
    rw [hk]
    rfl
  have hrow : t.table.find id = s.table.find id := by rw [ht]
  by_cases hid : g.job.id = id
  · have hview : t.view id = { s.view id with
        held := (s.view id).held.erase g
        calls := update (s.view id).calls k (some ⟨g, completePhase g res⟩) } := by
      refine View.ext hrow hcopies ?_ ?_
      · rw [ht]
        change (s.held.erase g).filter _ = (s.held.filter _).erase g
        rw [List.erase_filter]
      · rw [hcalls, CompleteCall.pending, if_pos (by simp [hid, completePhase_active])]
    rw [hview, Event.result, if_pos hid]
    refine .complete ?_ hnone
    exact List.mem_filter.mpr ⟨hg, by simpa using hid⟩
  · refine .of_same (e := .complete k g res) (if_neg hid) rfl hrow hcopies ?_ ?_
    · rw [ht]
      change (s.held.erase g).filter _ = s.held.filter _
      rw [← List.erase_filter, List.erase_of_not_mem]
      simp [hid]
    · rw [hcalls, CompleteCall.pending_of_ne hid, ← hnone, update_eq_self]

theorem view_addFailure {k failedAt : ℕ} {ok : Bool} (hc : Calm id s (.addFailure k failedAt ok))
    (h : step s (.addFailure k failedAt ok) = some t) :
    JobMove s.now id (s.view id) none (s.entry id (.addFailure k failedAt ok)) (t.view id) := by
  obtain ⟨g, res, failures, hk, ht⟩ := addFailure_cases h
  have hcopies : (t.view id).copies = (s.view id).copies := copies_frame h rfl
  have hheld : (t.view id).held = (s.view id).held := held_frame h nofun nofun
  have hbefore := calls_eq id hk
  have hcalls : (t.view id).calls =
      update (s.view id).calls k (CompleteCall.pending id ⟨g, .deleting⟩) :=
    calls_update (by rw [ht])
  have hrow : t.table.find id = s.table.find id := by rw [ht]
  by_cases hid : g.job.id = id
  · obtain rfl : ok = true := by
      cases ok with
      | true => rfl
      | false => exact absurd rfl ((hc.completes k _ hk hid).1 failedAt)
    rw [CompleteCall.pending, if_pos (by simp [hid, CompletePhase.active])] at hbefore hcalls
    have hview : t.view id = { s.view id with
        calls := update (s.view id).calls k (some ⟨g, .deleting⟩) } :=
      View.ext hrow hcopies hheld hcalls
    rw [hview]
    simp only [State.entry, hk, if_pos hid]
    exact .log hbefore hid rfl rfl
  · rw [CompleteCall.pending_of_ne hid] at hbefore hcalls
    refine .of_same (e := .addFailure k failedAt ok) rfl ?_ hrow hcopies hheld ?_
    · cases ok with
      | false => rfl
      | true => simp only [State.entry, hk, if_neg hid]
    · rw [hcalls, ← hbefore, update_eq_self]

theorem calls_done (id : ℕ) {k : ℕ} {g : Grab} {phase : CompletePhase}
    (hk : s.completes k = some ⟨g, phase⟩) (hactive : phase.active = true)
    (ht : t.completes = update s.completes k (some ⟨g, .done⟩)) :
    (t.view id).calls = update (s.view id).calls k none ∧
      (g.job.id = id → (s.view id).calls k = some ⟨g, phase⟩) ∧
      (g.job.id ≠ id → (t.view id).calls = (s.view id).calls) := by
  have hbefore := calls_eq id hk
  have hcalls : (t.view id).calls = update (s.view id).calls k none := by
    rw [calls_update ht, CompleteCall.pending, if_neg]
    simp [CompletePhase.active]
  refine ⟨hcalls, fun hid ↦ ?_, fun hid ↦ ?_⟩
  · rw [hbefore, CompleteCall.pending, if_pos (by simp [hid, hactive])]
  · rw [CompleteCall.pending_of_ne hid] at hbefore
    rw [hcalls, ← hbefore, update_eq_self]

theorem view_delete {k : ℕ} {ok : Bool} (hc : Calm id s (.delete k ok))
    (h : step s (.delete k ok) = some t) : JobMove s.now id (s.view id) none [] (t.view id) := by
  obtain ⟨g, hk, -, ht⟩ := delete_cases h
  have hcopies : (t.view id).copies = (s.view id).copies := copies_frame h rfl
  have hheld : (t.view id).held = (s.view id).held := held_frame h nofun nofun
  obtain ⟨hcalls, hbefore, hother⟩ := calls_done (t := t) id hk rfl (by rw [ht])
  by_cases hid : g.job.id = id
  · obtain rfl : ok = true := by
      cases ok with
      | true => rfl
      | false => exact absurd rfl (hc.completes k _ hk hid).2.1
    have hview : t.view id = { s.view id with
        row := none, calls := update (s.view id).calls k none } := by
      refine View.ext ?_ hcopies hheld hcalls
      rw [ht]
      exact (AutoTable.find_delete g.job.id id).trans (if_pos hid.symm)
    rw [hview]
    exact .delete (hbefore hid)
  · refine .of_same (e := .delete k ok) rfl rfl ?_ hcopies hheld (hother hid)
    exact find_of_completeCall hk rfl h (Ne.symm hid)

theorem view_update {k : ℕ} {ok : Bool} (hc : Calm id s (.update k ok))
    (h : step s (.update k ok) = some t) : JobMove s.now id (s.view id) none [] (t.view id) := by
  obtain ⟨g, next, hk, -, ht⟩ := updateStmt_cases h
  have hcopies : (t.view id).copies = (s.view id).copies := copies_frame h rfl
  have hheld : (t.view id).held = (s.view id).held := held_frame h nofun nofun
  obtain ⟨hcalls, hbefore, hother⟩ := calls_done (t := t) id hk rfl (by rw [ht])
  by_cases hid : g.job.id = id
  · obtain rfl : ok = true := by
      cases ok with
      | true => rfl
      | false => exact absurd rfl (hc.completes k _ hk hid).2.2
    have hview : t.view id = { s.view id with
        row := (s.view id).row.map (updateJob s.now id next)
        calls := update (s.view id).calls k none } := by
      refine View.ext ?_ hcopies hheld hcalls
      rw [ht, ← hid]
      exact AutoTable.find_update g.job.id
    rw [hview]
    exact .retry (hbefore hid) (hc.storable k g next rfl hk hid)
  · refine .of_same (e := .update k ok) rfl rfl ?_ hcopies hheld (hother hid)
    exact find_of_completeCall hk rfl h (Ne.symm hid)

theorem view_other (h : step s e = some t) (hp : e.popCall = none) (hk : e.completeCall = none)
    (hrow : t.table.find id = s.table.find id) :
    JobMove s.now id (s.view id) (e.result id) (s.entry id e) (t.view id) := by
  have hres : e.result id = none := by cases e <;> first | rfl | cases hk
  have hentry : s.entry id e = [] := by cases e <;> first | rfl | cases hk
  refine .of_same hres hentry hrow (copies_frame h hp) (held_frame h ?_ ?_) (calls_frame h hk)
  · intro p jobs he
    rw [he] at hp
    cases hp
  · intro k g res he
    rw [he] at hk
    cases hk

theorem view_step (hi : PopInv s) (hid : id < s.table.next) (hc : Calm id s e)
    (h : step s e = some t) :
    JobMove s.now id (s.view id) (e.result id) (s.entry id e) (t.view id) := by
  cases e with
  | tick | disconnect | deleteFailure => cases h; exact view_other rfl rfl rfl rfl
  | push i a =>
    obtain ⟨r, hr, rfl⟩ := push_cases h
    refine view_other h rfl rfl ((AutoTable.find_insert (insertJob_jobId hr) id).trans ?_)
    exact if_neg (Nat.ne_of_lt hid)
  | popStart | preselect | beginTx | selectForUpdate | launch | popFail =>
    exact view_unlaunched h rfl nofun nofun nofun
  | commit p => exact view_commit hi h
  | commitLost p => exact view_commitLost hc h
  | popReturn p jobs => exact view_popReturn hi h
  | complete k g res => exact view_complete h
  | addFailure k failedAt ok => exact view_addFailure hc h
  | delete k ok => exact view_delete hc h
  | update k ok => exact view_update hc h
  | inspectorDelete i =>
    obtain ⟨-, rfl⟩ := inspectorDelete_cases h
    refine view_other h rfl rfl ((AutoTable.find_delete i id).trans (if_neg ?_))
    rintro rfl
    exact hc.inspects rfl
  | connect => obtain ⟨-, rfl⟩ := connect_cases h; exact view_other h rfl rfl rfl
  | recover => obtain ⟨-, rfl⟩ := recover_cases h; exact view_other h rfl rfl rfl
  | orphans => obtain ⟨σ, -, -, -, -, rfl⟩ := orphans_cases h; exact view_other h rfl rfl rfl
  | recoverFail => cases recoverFail_cases h; exact view_other h rfl rfl rfl
  | activate => obtain ⟨-, rfl⟩ := activate_cases h; exact view_other h rfl rfl rfl
  | reclaim node =>
    obtain ⟨session, ids, -, hs, -, rfl⟩ := reclaim_cases h
    refine view_other h rfl rfl ((AutoTable.find_update id).trans ?_)
    cases hr : s.table.find id with
    | none => rfl
    | some r =>
      have hnot := hc.recovers node session r rfl hs hr
      rw [Option.map_some, recoverJobs, if_neg fun hand ↦ hnot hand.1]

end Fireworq.MySQL.Cluster
