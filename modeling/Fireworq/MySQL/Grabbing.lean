import Fireworq.MySQL.Locking

namespace Fireworq.MySQL.Cluster

open Relational JobQueue Execution Function

variable {s t : State} {es : List Event}

def Turns (s t : State) (id : ℕ) (q : Row) : Prop :=
  (∃ r, s.table.find id = some r ∧ r.status = .claimed) ∧
    t.table.find id = some q ∧ q.status = .grabbed

def Launched (es xs : List Event) (p id : ℕ) (q : Row) : Prop :=
  ∃ ys u v, es = xs ++ .commit p :: ys ∧ Run xs u ∧ step u (.commit p) = some v ∧ Turns u v id q

def PopPhase.report : PopPhase → List Grab
  | .committed session results => results.map (Grab.mk session)
  | .returned grabs => grabs
  | _ => []

def State.report (s : State) (p : ℕ) : List Grab := (s.phase p).elim [] PopPhase.report

theorem turns_commit {e : Event} (hi : PopInv s) (h : step s e = some t) {id : ℕ} {q : Row}
    (hq : Turns s t id q) : ∃ p, e = .commit p := by
  obtain ⟨⟨r, hr, hclaimed⟩, hfind, hgrabbed⟩ := hq
  rcases row_step hi h hfind with ⟨r', hr', hstep⟩ | ⟨hnone, -⟩
  · rw [hr] at hr'
    cases hr'
    cases hstep with
    | same => rw [hclaimed] at hgrabbed; cases hgrabbed
    | @grab p => exact ⟨p, rfl⟩
    | reschedule _ _ _ _ hst => rw [hst] at hgrabbed; cases hgrabbed
    | reclaim => cases hgrabbed
  · rw [hr] at hnone
    cases hnone

/-- A commit turns exactly the rows of the results, and gives them the
connection id of the transaction. -/
theorem commit_turns {p : ℕ} {c : PopCall} {session : Session} {results : List Job}
    {pending : List Row} (hi : PopInv s) (hp : s.pops p = some c)
    (hc : c.phase = .launched session results pending)
    (ht : t.table = s.table.update (publish pending) (publish_jobId pending)) (id : ℕ) (q : Row) :
    Turns s t id q ↔ id ∈ results.map Job.id ∧ ∃ r, s.table.find id = some r ∧
      q = { r with status := .grabbed, grabberId := some session.connectionId } := by
  have hpub {r : Row} (hr : s.table.find id = some r) := publish_rowStep hi hp hc hr
  unfold Turns
  rw [ht, AutoTable.find_update]
  constructor
  · rintro ⟨⟨r, hr, hclaimed⟩, hfind, hgrabbed⟩
    rw [hr, Option.map_some] at hfind
    by_cases hm : id ∈ results.map Job.id
    · exact ⟨hm, r, hr, by rw [← Option.some.inj hfind, (hpub hr).1 hm]⟩
    · rw [(hpub hr).2 hm] at hfind
      rw [← Option.some.inj hfind, hclaimed] at hgrabbed
      cases hgrabbed
  · rintro ⟨hm, r, hr, rfl⟩
    have hok := hi p c hp
    simp only [PopOk, hc] at hok
    obtain ⟨j, hj, rfl⟩ := List.mem_map.mp hm
    obtain ⟨-, r', hr', hclaimed, -⟩ := hok.2.2.1 j hj
    exact ⟨⟨r', hr', hclaimed⟩, by rw [hr, Option.map_some, (hpub hr).1 hm], rfl⟩

/-- Only a commit, lost or not, adds to what a call reports. -/
theorem report_step {e : Event} (h : step s e = some t) (p : ℕ) (hc : e ≠ .commit p)
    (hl : e ≠ .commitLost p) (g : Grab) : g ∈ t.report p ↔ g ∈ s.report p := by
  unfold State.report
  rcases phase_step h p with heq | ⟨he, phase, heq, hm⟩
  · rw [heq]
  · rw [heq]
    generalize s.phase p = before at hm
    cases hm with
    | commit => cases he; exact absurd rfl hc
    | commitLost => cases he; exact absurd rfl hl
    | start | preselect | begin | select | launch | returnNone | returnEmpty => rfl
    | «return» hperm => exact (hperm.map _).mem_iff
    | @fail q before hrun => cases before <;> first | rfl | cases hrun

theorem settled_step {e : Event} (h : step s e = some t) {p : ℕ} {before : PopPhase}
    (hp : s.phase p = some before) (hrun : before.running = false) :
    ∃ after, t.phase p = some after ∧ after.running = false := by
  rcases phase_step h p with heq | ⟨-, phase, heq, hm⟩
  · exact ⟨before, heq.trans hp, hrun⟩
  · refine ⟨phase, heq, ?_⟩
    rw [hp] at hm
    cases hm with
    | «return» hperm => rfl
    | fail hf => rw [hf] at hrun; cases hrun
    | _ => cases hrun

theorem launched_snoc {xs : List Event} {e : Event} {p id : ℕ} {q : Row}
    (h : Launched (es ++ [e]) xs p id q) :
    Launched es xs p id q ∨ xs = es ∧ e = .commit p := by
  obtain ⟨ys, u, v, hsplit, hu, hv, hq⟩ := h
  rcases List.eq_nil_or_concat ys with rfl | ⟨ys, f, rfl⟩
  · obtain ⟨hxs, he⟩ := List.append_inj' hsplit rfl
    exact .inr ⟨hxs.symm, by simpa using he⟩
  · refine .inl ⟨ys, u, v, ?_, hu, hv, hq⟩
    have hc : es ++ [e] = (xs ++ .commit p :: ys) ++ [f] := by simpa using hsplit
    exact (List.append_inj' hc rfl).1

theorem Launched.snoc {xs : List Event} {e : Event} {p id : ℕ} {q : Row}
    (h : Launched es xs p id q) : Launched (es ++ [e]) xs p id q := by
  obtain ⟨ys, u, v, rfl, hu, hv, hq⟩ := h
  exact ⟨ys ++ [e], u, v, by simp, hu, hv, hq⟩

/-- The history of the commits: each call commits at most once, and it
reports what its commit has turned. -/
structure CommitInv (es : List Event) (s : State) : Prop where
  settled : ∀ p, .commit p ∈ es → ∃ phase, s.phase p = some phase ∧ phase.running = false
  once : ∀ p, es.count (.commit p) ≤ 1
  sound : ∀ p, ∀ g ∈ s.report p, ∃ xs q, Launched es xs p g.job.id q ∧
    q.grabberId = some g.session.connectionId
  complete : ∀ p xs id q, Launched es xs p id q → ∃ g ∈ s.report p, g.job.id = id ∧
    q.grabberId = some g.session.connectionId

theorem CommitInv.other {e : Event} (hi : CommitInv es s) (h : step s e = some t)
    (hc : ∀ p, e ≠ .commit p) (hl : ∀ p, e ≠ .commitLost p) : CommitInv (es ++ [e]) t where
  settled p hp := by
    rcases List.mem_append.mp hp with hp | hp
    · obtain ⟨phase, hphase, hrun⟩ := hi.settled p hp
      exact settled_step h hphase hrun
    · exact absurd (List.mem_singleton.mp hp).symm (hc p)
  once p := by
    rw [List.count_append, List.count_singleton, if_neg (by simpa using hc p)]
    exact hi.once p
  sound p g hg := by
    obtain ⟨xs, q, hq, hcon⟩ := hi.sound p g ((report_step h p (hc p) (hl p) g).mp hg)
    exact ⟨xs, q, hq.snoc, hcon⟩
  complete p xs id q hq := by
    rcases launched_snoc hq with hq | ⟨-, he⟩
    · obtain ⟨g, hg, hid⟩ := hi.complete p xs id q hq
      exact ⟨g, (report_step h p (hc p) (hl p) g).mpr hg, hid⟩
    · exact absurd he (hc p)

theorem CommitInv.commit {p : ℕ} (hi : CommitInv es s) (hrun : Run es s)
    (h : step s (.commit p) = some t) : CommitInv (es ++ [.commit p]) t := by
  obtain ⟨c, session, results, pending, hp, hph, -, ht⟩ := commit_cases h
  have hphase : s.phase p = some (.launched session results pending) := State.phase_of hp hph
  have hafter : t.phase p = some (.committed session results) := by
    rw [ht]
    simp [State.phase, State.release, State.setPop]
  have hturns := commit_turns hrun.popInv hp hph (show t.table = _ by rw [ht])
  have hnew : Event.commit p ∉ es := by
    intro hm
    obtain ⟨phase, heq, hr⟩ := hi.settled p hm
    rw [hphase] at heq
    cases heq
    cases hr
  have hreport (g : Grab) : g ∈ t.report p ↔ ∃ j ∈ results, g = ⟨session, j⟩ := by
    simp only [State.report, hafter, Option.elim_some, PopPhase.report, List.mem_map, eq_comm]
  have hother {r : ℕ} (hr : r ≠ p) (g : Grab) : g ∈ t.report r ↔ g ∈ s.report r :=
    report_step h r (fun he ↦ hr (Event.commit.inj he).symm) (by simp) g
  constructor
  · intro r hr
    rcases List.mem_append.mp hr with hr | hr
    · obtain ⟨phase, heq, hsettled⟩ := hi.settled r hr
      exact settled_step h heq hsettled
    · cases List.mem_singleton.mp hr
      exact ⟨_, hafter, rfl⟩
  · intro r
    rw [List.count_append]
    by_cases hr : r = p
    · subst hr
      rw [List.count_eq_zero_of_not_mem hnew]
      simp
    · rw [List.count_singleton, if_neg (by simpa using fun he ↦ hr he.symm)]
      exact hi.once r
  · intro r g hg
    by_cases hr : r = p
    · subst hr
      obtain ⟨j, hj, rfl⟩ := (hreport g).mp hg
      have hok := hrun.popInv r c hp
      simp only [PopOk, hph] at hok
      obtain ⟨-, row, hrow, -, -⟩ := hok.2.2.1 j hj
      have hturn := (hturns j.id _).mpr ⟨List.mem_map_of_mem hj, row, hrow, rfl⟩
      exact ⟨es, _, ⟨[], s, t, rfl, hrun, h, hturn⟩, rfl⟩
    · obtain ⟨xs, q, hq, hcon⟩ := hi.sound r g ((hother hr g).mp hg)
      exact ⟨xs, q, hq.snoc, hcon⟩
  · intro r xs id q hq
    rcases launched_snoc hq with hq' | ⟨rfl, he⟩
    · have hr : r ≠ p := by
        rintro rfl
        obtain ⟨ys, -, -, rfl, -⟩ := hq'
        exact hnew (by simp)
      obtain ⟨g, hg, hid⟩ := hi.complete r xs id q hq'
      exact ⟨g, (hother hr g).mpr hg, hid⟩
    · cases he
      obtain ⟨-, u, v, -, hu, hv, hturn⟩ := hq
      cases Option.some.inj (hu.symm.trans hrun)
      cases Option.some.inj (hv.symm.trans h)
      obtain ⟨hm, row, -, rfl⟩ := (hturns id q).mp hturn
      obtain ⟨j, hj, rfl⟩ := List.mem_map.mp hm
      exact ⟨⟨session, j⟩, (hreport _).mpr ⟨j, hj, rfl⟩, rfl, rfl⟩

theorem Run.commitInv (h : Run es s) (hc : ∀ p, .commitLost p ∉ es) : CommitInv es s := by
  have hP : (∀ p, .commitLost p ∉ es) → CommitInv es s := by
    refine history (fun es s ↦ (∀ p, .commitLost p ∉ es) → CommitInv es s) ?_ ?_ h
    · intro _
      exact ⟨nofun, by simp, nofun, by rintro p xs id q ⟨ys, u, v, hsplit, -⟩; simp at hsplit⟩
    · intro xs u e v hrun ih hstep hlost
      have hi := ih fun p hp ↦ hlost p (List.mem_append_left _ hp)
      by_cases he : ∃ p, e = .commit p
      · obtain ⟨p, rfl⟩ := he
        exact hi.commit hrun hstep
      · refine hi.other hstep (fun p hp ↦ he ⟨p, hp⟩) fun p hp ↦ hlost p ?_
        simp [hp]
  exact hP hc

/-- What exclusive grabbing means for the calls of `Pop` in a run. -/
structure Exclusive (es : List Event) (s : State) : Prop where
  transition : ∀ xs e ys u v id q, es = xs ++ e :: ys → Run xs u → step u e = some v →
    Turns u v id q → ∃! p, Launched es xs p id q ∧ ∃ g ∈ s.report p, g.job.id = id
  own : ∀ p, ∀ g ∈ s.report p, ∃! xs, ∃ q, Launched es xs p g.job.id q ∧
    q.grabberId = some g.session.connectionId
  all : ∀ p xs id q, Launched es xs p id q → ∃ g ∈ s.report p, g.job.id = id ∧
    q.grabberId = some g.session.connectionId
  returned : ∀ p node limit grabs, s.pops p = some ⟨node, limit, .returned grabs⟩ →
    s.report p = grabs ∧ grabs.length ≤ limit ∧ (grabs.map fun g ↦ g.job.id).Nodup ∧
      grabs.Pairwise fun g h ↦ g.job.nextTry ≤ h.job.nextTry

theorem exclusive_grabbing (h : Run es s) (hc : ∀ p, .commitLost p ∉ es) : Exclusive es s := by
  have hi := h.commitInv hc
  constructor
  · rintro xs e ys u v id q rfl hu hv hturn
    obtain ⟨p, rfl⟩ := turns_commit hu.popInv hv hturn
    have hq : Launched (xs ++ .commit p :: ys) xs p id q := ⟨ys, u, v, rfl, hu, hv, hturn⟩
    obtain ⟨g, hg, hid, -⟩ := hi.complete p xs id q hq
    refine ⟨p, ⟨hq, g, hg, hid⟩, ?_⟩
    rintro p' ⟨⟨ys', -, -, hsplit, -⟩, -⟩
    obtain ⟨hp, -⟩ := List.cons.inj (List.append_cancel_left hsplit)
    exact (Event.commit.inj hp).symm
  · intro p g hg
    obtain ⟨xs, q, hq⟩ := hi.sound p g hg
    refine ⟨xs, ⟨q, hq⟩, ?_⟩
    rintro xs' ⟨q', ⟨ys', -, -, hsplit', -⟩, -⟩
    obtain ⟨⟨ys, -, -, hsplit, -⟩, -⟩ := hq
    have honce := hi.once p
    rw [hsplit', List.count_append, List.count_cons_self] at honce
    have hx : Event.commit p ∉ xs' := List.count_eq_zero.mp (by omega)
    have hy : Event.commit p ∉ ys' := List.count_eq_zero.mp (by omega)
    exact ((List.append_cons_inj_of_notMem hx hy).mp (hsplit'.symm.trans hsplit)).1
  · exact hi.complete
  · intro p node limit grabs hp
    obtain ⟨hnodup, hlen, hsort⟩ := h.popInv p _ hp
    exact ⟨by simp [State.report, State.phase, hp, PopPhase.report], hlen, hnodup, hsort⟩

def sampleJob : IncomingJob where
  category := "mail"
  url := "http://localhost/worker"
  payload := "1"
  nextDelay := 0
  timeout := 10
  retryDelay := 60
  retryCount := 3
  failureUrl := ""

def sampleRow : Row where
  jobId := 1
  nextTry := 5
  grabberId := none
  status := .claimed
  createdAt := 5
  retryCount := 3
  retryDelay := 60
  failCount := 0
  category := "mail"
  url := "http://localhost/worker"
  payload := "1"
  timeout := 10
  failureUrl := some ""
  fits := by decide

/-- Two calls on two connections preselect the same row, which only the first
of them finds claimed. -/
def race : List Event :=
  [.connect 0 7, .connect 1 8, .tick 5, .push sampleJob true,
    .popStart 0 0 10, .popStart 1 1 10, .preselect 0 [1], .preselect 1 [1],
    .beginTx 0, .beginTx 1, .selectForUpdate 0 [sampleRow], .launch 0, .commit 0,
    .selectForUpdate 1 [], .popReturn 1 [], .popReturn 0 [Job.scan sampleRow]]

theorem exclusive_grabbing_race : ∃ s, Run race s ∧ Exclusive race s := by
  obtain ⟨s, hs⟩ := Option.isSome_iff_exists.mp
    (show (exec step .initial race).isSome = true by decide +kernel)
  exact ⟨s, hs, exclusive_grabbing hs (by simp [race])⟩

end Fireworq.MySQL.Cluster
