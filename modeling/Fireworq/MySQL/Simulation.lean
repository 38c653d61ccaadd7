import Fireworq.MySQL.Refinement

namespace Fireworq.MySQL.Cluster

open Relational JobQueue GoInt Execution Function Refinement

section Simulation

variable {node : ℕ} {s t : State} {a : Spec.State} {l : Spec.Label}

theorem Related.initial {connectionId : ℕ}
    (h : step .initial (.connect node connectionId) = some s) : Related node s .initial := by
  cases h
  exact {
    now := rfl
    waiting := rfl
    held := rfl
    used := nofun
    grabbed := nofun
    inv := nofun
    keys := .initial
    counts := nofun
    unlocked := fun _ ↦ rfl
    connected := ⟨_, update_self node _ _⟩
    calls := ⟨0, fun _ _ ↦ ⟨rfl, rfl⟩⟩ }

theorem Related.pop_nil {limit : ℕ} {ids : List ℕ} (h : Related node s a)
    (hids : (ids.filterMap s.table.find).map Row.jobId = ids)
    (htop : TopAnswer (grabJobs s.now) (fun q r ↦ q.nextTry ≤ r.nextTry) limit s.table.rows
      (ids.filterMap s.table.find))
    (ha : Answer (grabbedJobs .claimed ids) s.table.rows []) (hnow : t.now = s.now)
    (htable : t.table = s.table) (hheld : t.held = s.held) :
    ∃ b, Spec.Steps a (.pop limit []) b ∧ Represents t b := by
  have hp := h.toRepresents.pops h.keys hids htop ha .rfl .nil
  have hrest : ((claimedRows s.table.rows).filter
      fun r ↦ r.jobId ∉ ([] : List Row).map Row.jobId) = claimedRows s.table.rows := by simp
  rw [hrest, ← h.waiting] at hp
  refine ⟨_, .pop hp, hnow ▸ h.now, htable ▸ h.waiting, ?_, htable ▸ h.used, ?_⟩
  · dsimp only
    rw [Multiset.coe_nil, Multiset.add_zero, hheld]
    exact h.held
  · rw [hheld, htable]
    exact h.grabbed

theorem Related.popNone {p limit : ℕ} (h : Related node s a)
    (he : exec step s [.popStart p node limit, .preselect p [], .popReturn p []] = some t) :
    (∃ b, Spec.Steps a (.pop limit []) b ∧ Represents t b) ∧ ∀ id, t.locks id = none := by
  obtain ⟨s₁, h₁, he⟩ := exec_cons he
  obtain ⟨s₂, h₂, he⟩ := exec_cons he
  obtain ⟨s₃, h₃, he⟩ := exec_cons he
  cases he
  obtain ⟨-, rfl⟩ := popStart_cases h₁
  obtain ⟨c, hc, -, hids, htop, rfl⟩ := preselect_cases h₂
  cases update_inj hc
  have ha : Answer (grabbedJobs .claimed []) s.table.rows [] := by simp [Answer, grabbedJobs]
  rcases popReturn_cases h₃ with ⟨c, -, -, -, rfl⟩ | ⟨c, session, ids, hc, hphase, -⟩ |
    ⟨c, session, results, hc, hphase, -⟩
  · exact ⟨h.pop_nil hids htop ha rfl rfl rfl, h.unlocked⟩
  all_goals
    cases update_inj hc
    cases hphase

theorem Related.popEmpty {p limit : ℕ} {ids : List ℕ} (h : Related node s a)
    (he : exec step s ([.popStart p node limit, .preselect p ids, .beginTx p,
      .selectForUpdate p []] ++ [.popReturn p []]) = some t) :
    (∃ b, Spec.Steps a (.pop limit []) b ∧ Represents t b) ∧ ∀ id, t.locks id = none := by
  obtain ⟨u, hu, he⟩ := exec_snoc.mp he
  obtain ⟨session, calls, -, hcall, hids, htop, ha, rfl⟩ := selected_cases hu
  rcases popReturn_cases he with ⟨c, hc, hphase, -⟩ | ⟨c, session', ids', -, -, -, rfl⟩ |
    ⟨c, session', results, hc, hphase, -⟩
  · cases hcall.symm.trans hc
    cases hphase
  · refine ⟨h.pop_nil hids htop ha rfl rfl rfl, fun id ↦ ?_⟩
    simp only [State.release, State.setPop, List.map_nil, List.not_mem_nil, if_false, h.unlocked,
      ite_self]
  · cases hcall.symm.trans hc
    cases hphase

theorem Related.pop {p limit : ℕ} {ids : List ℕ} {rows : List Row} {jobs : List Job}
    (h : Related node s a)
    (he : exec step s ([.popStart p node limit, .preselect p ids, .beginTx p,
      .selectForUpdate p rows] ++ [.launch p, .commit p, .popReturn p jobs]) = some t) :
    (∃ b, Spec.Steps a (.pop limit (jobs.map Job.view)) b ∧ Represents t b) ∧
      ∀ id, t.locks id = none := by
  obtain ⟨u, hu, he⟩ := exec_append.mp he
  have hinv := invariant PopInv (fun _ _ _ hi hs ↦ step_inv hs hi) hu h.inv
  obtain ⟨session, calls, -, hcall, hids, htop, ha, rfl⟩ := selected_cases hu
  obtain ⟨f, hf, htable, hin, hout, hperm, hsorted, hheld, hnow, hlocks⟩ :=
    launched_cases hinv hcall he
  have hresults : (rows.map Job.scan).map Job.id = rows.map Row.jobId := by
    rw [List.map_map]
    rfl
  rw [hresults] at hin hout
  refine ⟨⟨_, .pop (h.toRepresents.pops h.keys hids htop ha hperm hsorted), ?_⟩, fun id ↦ ?_⟩
  · refine h.toRepresents.grab (fun r hr ↦ ?_) hin hout hperm hnow htable hheld
    exact ⟨(ha.mem.mp hr).1, (ha.mem.mp hr).2.1⟩
  · rw [hlocks]
    dsimp only
    split
    · exact if_pos rfl
    · rw [h.unlocked, ite_self]

theorem completePhase_of_retry {g : Grab} {res : Result}
    (h : completion res g.job.retryCount = .retry) : completePhase g res =
      .updating (nextJob g.job.retryDelay g.job.retryCount g.job.failCount) := by
  rw [completePhase, h]

theorem Related.mem_held {g : Grab} (h : Related node s a) (hg : g ∈ s.held) :
    g.job.view ∈ a.held := by
  rw [h.cons_held hg]
  exact Multiset.mem_cons_self _ _

theorem Related.delete {g : Grab} {res : Result} (h : Related node s a) (hg : g ∈ s.held)
    (hne : completion res g.job.retryCount ≠ .retry) (hnow : t.now = s.now)
    (htable : t.table = s.table.delete g.job.id) (hheld : t.held = s.held.erase g) :
    ∃ b, Spec.Steps a (.complete g.job.view res) b ∧ Represents t b :=
  ⟨_, .delete (h.mem_held hg) hne, h.toRepresents.delete h.keys hg hnow htable hheld⟩

theorem Related.succeed {k : ℕ} {g : Grab} {res : Result} (h : Related node s a)
    (he : exec step s [.complete k g res, .delete k true] = some t) :
    (∃ b, Spec.Steps a (.complete g.job.view res) b ∧ Represents t b) ∧
      ∀ id, t.locks id = none := by
  obtain ⟨s₁, h₁, he⟩ := exec_cons he
  obtain ⟨s₂, h₂, he⟩ := exec_cons he
  cases he
  obtain ⟨hg, -, rfl⟩ := complete_cases h₁
  obtain ⟨g', hk, -, rfl⟩ := delete_cases h₂
  obtain ⟨rfl, hphase⟩ := CompleteCall.mk.inj (update_inj hk)
  refine ⟨h.delete hg (fun hr ↦ ?_) rfl rfl rfl, h.unlocked⟩
  rw [completePhase_of_retry hr] at hphase
  cases hphase

theorem Related.fail {k failedAt : ℕ} {g : Grab} {res : Result} (h : Related node s a)
    (he : exec step s [.complete k g res, .addFailure k failedAt true, .delete k true] = some t) :
    (∃ b, Spec.Steps a (.complete g.job.view res) b ∧ Represents t b) ∧
      ∀ id, t.locks id = none := by
  obtain ⟨s₁, h₁, he⟩ := exec_cons he
  obtain ⟨s₂, h₂, he⟩ := exec_cons he
  obtain ⟨s₃, h₃, he⟩ := exec_cons he
  cases he
  obtain ⟨hg, -, rfl⟩ := complete_cases h₁
  obtain ⟨g', res', failures, hk, rfl⟩ := addFailure_cases h₂
  obtain ⟨rfl, hphase⟩ := CompleteCall.mk.inj (update_inj hk)
  obtain ⟨g', hk', -, rfl⟩ := delete_cases h₃
  cases update_inj hk'
  refine ⟨h.delete hg (fun hr ↦ ?_) rfl rfl rfl, h.unlocked⟩
  rw [completePhase_of_retry hr] at hphase
  cases hphase

theorem Related.nextJob {g : Grab} (h : Related node s a) (hg : g ∈ s.held)
    (hpos : 0 < g.job.retryCount) (hlt : s.now + nextDelay g.job.retryDelay < 2 ^ 64) :
    nextJob g.job.retryDelay g.job.retryCount g.job.failCount =
        ⟨nextDelay g.job.retryDelay, g.job.retryCount - 1, g.job.failCount + 1⟩ ∧
      storable s.now ⟨nextDelay g.job.retryDelay, g.job.retryCount - 1, g.job.failCount + 1⟩ := by
  have hcount : g.job.retryCount + g.job.failCount < 2 ^ 32 :=
    h.counts _ (Multiset.mem_add.mpr (.inr (h.mem_held hg)))
  obtain ⟨r, -, -, hscan⟩ := h.grabbed g hg
  have hdelay : g.job.retryDelay < 2 ^ 32 := by
    rw [← hscan]
    exact r.fits.2.2.2.2.1
  constructor
  · rw [nextJob_eq hdelay hpos (by omega) (by omega), nextDelay_eq hdelay]
  · unfold storable
    dsimp only
    omega

theorem Related.retry {k : ℕ} {g : Grab} {res : Result} (h : Related node s a)
    (hl : (Spec.Label.complete g.job.view res).InRange s.now)
    (he : exec step s [.complete k g res, .update k true] = some t) :
    (∃ b, Spec.Steps a (.complete g.job.view res) b ∧ Represents t b) ∧
      ∀ id, t.locks id = none := by
  obtain ⟨s₁, h₁, he⟩ := exec_cons he
  obtain ⟨s₂, h₂, he⟩ := exec_cons he
  cases he
  obtain ⟨hg, -, rfl⟩ := complete_cases h₁
  obtain ⟨g', next, hk, -, rfl⟩ := updateStmt_cases h₂
  obtain ⟨rfl, hphase⟩ := CompleteCall.mk.inj (update_inj hk)
  have hr : completion res g.job.retryCount = .retry := by
    unfold completePhase at hphase
    split at hphase
    · cases hphase
    · cases hphase
    · assumption
  rw [completePhase_of_retry hr] at hphase
  obtain rfl := CompletePhase.updating.inj hphase
  obtain ⟨hnext, hstorable⟩ := h.nextJob hg (retryCount_pos hr) (hl hr)
  rw [hnext]
  refine ⟨⟨_, .retry (h.mem_held hg) hr, ?_⟩, h.unlocked⟩
  refine h.toRepresents.retry h.keys hg hstorable ?_ rfl rfl rfl
  rw [Spec.Job.retry, Job.view]

theorem Related.follow (h : Related node s a) (hl : l.InRange s.now) (hd : Does node s l t) :
    (∃ b, Spec.Steps a l b ∧ Represents t b) ∧ ∀ id, t.locks id = none := by
  cases hd with
  | tick ht =>
    cases ht
    refine ⟨⟨_, .tick, ?_, h.waiting, h.held, h.used, h.grabbed⟩, h.unlocked⟩
    exact congrArg (· + _) h.now
  | push ht =>
    obtain ⟨r, hr, rfl⟩ := push_cases ht
    refine ⟨⟨_, .push fun hused ↦ ?_, h.toRepresents.push hr⟩, h.unlocked⟩
    exact Nat.lt_irrefl _ (h.used _ hused)
  | popNone _ ht => exact h.popNone ht
  | popEmpty _ ht => exact h.popEmpty ht
  | pop _ ht => exact h.pop ht
  | succeed ht => exact h.succeed ht
  | fail ht => exact h.fail ht
  | retry ht => exact h.retry hl ht

/-- An operation is an execution of the cluster in which the node stays connected. -/
theorem Does.exec (hd : Does node s l t) :
    ∃ es, exec step s es = some t ∧ ∀ e ∈ es, e.sessionNode = none := by
  cases hd with
  | tick ht | push ht =>
    exact ⟨[_], by rw [exec_cons_of_step ht]; rfl, by simp [Event.sessionNode]⟩
  | popNone _ ht | popEmpty _ ht | pop _ ht | succeed ht | fail ht | retry ht =>
    exact ⟨_, ht, by simp [Event.sessionNode]⟩

theorem sessions_exec {es : List Event} (h : Execution.exec step s es = some t)
    (hes : ∀ e ∈ es, e.sessionNode = none) : t.sessions = s.sessions := by
  refine Along.invariant (C := fun _ e ↦ e.sessionNode = none) (fun u ↦ u.sessions = s.sessions)
    (fun u e v hu he hv ↦ ?_) (Along.of_forall (fun e he _ ↦ hes e he) s) h rfl
  rw [(step_frame hv).sessions he, hu]

theorem calls_step {e : Event} (h : ∃ n, ∀ k, n ≤ k → s.pops k = none ∧ s.completes k = none)
    (he : step s e = some t) : ∃ n, ∀ k, n ≤ k → t.pops k = none ∧ t.completes k = none := by
  obtain ⟨n, hn⟩ := h
  refine ⟨max n (max (e.popCall.elim 0 (· + 1)) (e.completeCall.elim 0 (· + 1))), fun k hk ↦ ?_⟩
  obtain ⟨hpop, hcomplete⟩ := hn k (by omega)
  constructor
  · cases hp : e.popCall with
    | none => rw [(step_frame he).pops hp, hpop]
    | some p =>
      obtain ⟨c, hpops, -⟩ := step_moves he hp
      rw [hp, Option.elim_some] at hk
      rw [hpops, update_of_ne (by omega), hpop]
  · rcases completes_step he k with hsame | ⟨c, -, hmove⟩
    · rw [hsame, hcomplete]
    · have hcall : e.completeCall = some k := by
        cases hmove <;> rfl
      rw [hcall, Option.elim_some] at hk
      omega

theorem simulates (node : ℕ) :
    Simulates (fun s l t ↦ l.InRange s.now ∧ Does node s l t) Spec.Steps (Related node) := by
  intro s a l t h ⟨hl, hd⟩
  obtain ⟨⟨b, hb, ht⟩, hlocks⟩ := h.follow hl hd
  obtain ⟨es, hes, hsession⟩ := hd.exec
  refine ⟨b, hb, ⟨ht, ?_, h.keys.step hb, ?_, hlocks, ?_, ?_⟩⟩
  · exact invariant PopInv (fun _ _ _ hi hs ↦ step_inv hs hi) hes h.inv
  · refine h.counts.step hb fun i key id he ↦ ?_
    subst he
    cases hd with
    | push hpush =>
      obtain ⟨r, hr, -⟩ := push_cases hpush
      exact insertJob_retryCount hr
  · rw [sessions_exec hes hsession]
    exact h.connected
  · exact invariant (fun u ↦ ∃ n, ∀ k, n ≤ k → u.pops k = none ∧ u.completes k = none)
      (fun _ _ _ ↦ calls_step) hes h.calls

end Simulation

section Responds

variable {node p limit : ℕ} {s : State} {a : Spec.State} {ids : List ℕ} {rows : List Row}
  {jobs : List Job} {session : Session}

theorem selected_returns (hp : s.pops p = none) (hs : s.sessions node = some session)
    (hlocks : ∀ id, s.locks id = none) (hne : ids ≠ [])
    (hids : (ids.filterMap s.table.find).map Row.jobId = ids)
    (htop : TopAnswer (grabJobs s.now) (fun q r ↦ q.nextTry ≤ r.nextTry) limit s.table.rows
      (ids.filterMap s.table.find))
    (ha : Answer (grabbedJobs .claimed ids) s.table.rows rows) :
    ∃ t, exec step s [.popStart p node limit, .preselect p ids, .beginTx p,
      .selectForUpdate p rows] = some t := by
  obtain ⟨id, ids, rfl⟩ := List.exists_cons_of_ne_nil hne
  refine Option.isSome_iff_exists.mp ?_
  simp only [exec, step, popStart, hp, Option.bind_some, preselect, update_self]
  rw [if_pos ⟨hids, htop⟩]
  simp only [Option.bind_some, beginTx, State.setPop, update_self, hs, Option.map_some,
    selectForUpdate, hlocks]
  rw [if_pos ⟨trivial, fun _ _ ↦ trivial, ha⟩]
  rfl

theorem launched_returns {results : List Job}
    (hp : s.pops p = some ⟨node, limit, .selected session ids results⟩)
    (hs : s.sessions node = some session) (hne : results ≠ []) (hperm : jobs.Perm results)
    (hsorted : jobs.Pairwise fun i j ↦ i.nextTry ≤ j.nextTry) :
    ∃ t, exec step s [.launch p, .commit p, .popReturn p jobs] = some t := by
  obtain ⟨job, results, rfl⟩ := List.exists_cons_of_ne_nil hne
  refine Option.isSome_iff_exists.mp ?_
  simp only [exec, step, launch, hp, hs, if_true, Option.bind_some, commit, State.setPop,
    update_self, popReturn, State.release]
  rw [if_pos ⟨hperm, hsorted⟩]
  rfl

theorem Related.pop_returns (h : Related node s a) (hm : makes 16 limit) :
    ∃ out t, Does node s (.pop limit out) t := by
  obtain ⟨session, hs⟩ := h.connected
  obtain ⟨n, hn⟩ := h.calls
  have hp := (hn n (Nat.le_refl n)).1
  obtain ⟨out, htop⟩ : ∃ out, TopAnswer (grabJobs s.now) (fun q r ↦ q.nextTry ≤ r.nextTry) limit
      s.table.rows out := by
    refine exists_topAnswer _ (fun q r u hqr hru ↦ ?_) (fun q r ↦ ?_) limit s.table.nodup.of_map
    · exact Nat.le_trans hqr hru
    · exact Nat.le_total _ _
  have hout : (out.map Row.jobId).filterMap s.table.find = out :=
    Table.filterMap_find fun r hr ↦ (htop.2.1 r hr).1
  obtain ⟨ids, hids⟩ : ∃ ids, ids = out.map Row.jobId := ⟨_, rfl⟩
  rw [← hids] at hout
  rw [← hout] at htop hids
  by_cases hne : ids = []
  · subst hne
    refine ⟨[], ?_⟩
    have hsome : ∃ t, exec step s
        [.popStart n node limit, .preselect n [], .popReturn n []] = some t := by
      refine Option.isSome_iff_exists.mp ?_
      simp only [exec, step, popStart, hp, Option.bind_some, preselect, update_self]
      rw [if_pos ⟨hids.symm, htop⟩]
      simp only [Option.bind_some, popReturn, State.setPop, update_self, if_true]
      rfl
    obtain ⟨t, ht⟩ := hsome
    exact ⟨t, .popNone hm ht⟩
  · have ha : Answer (grabbedJobs .claimed ids) s.table.rows
        (s.table.rows.filter (grabbedJobs .claimed ids)) := List.Perm.refl _
    obtain ⟨u, hu⟩ := selected_returns hp hs h.unlocked hne hids.symm htop ha
    obtain ⟨session', calls, hs', hcall, -, -, -, hu'⟩ := selected_cases hu
    obtain ⟨jobs, hperm, hsorted⟩ : ∃ jobs : List Job,
        jobs.Perm ((s.table.rows.filter (grabbedJobs .claimed ids)).map Job.scan) ∧
        jobs.Pairwise fun i j ↦ i.nextTry ≤ j.nextTry := by
      refine exists_sorted (fun i j k hij hjk ↦ ?_) (fun i j ↦ ?_) _
      · exact Nat.le_trans hij hjk
      · exact Nat.le_total _ _
    have hrows : (s.table.rows.filter (grabbedJobs .claimed ids)).map Job.scan ≠ [] := by
      intro hnil
      have hlen := (locked_perm htop ha).length_eq
      rw [List.map_eq_nil_iff.mp hnil, List.length_nil] at hlen
      refine hne ?_
      rw [hids, List.eq_nil_of_length_eq_zero hlen.symm, List.map_nil]
    obtain ⟨t, ht⟩ := launched_returns (s := u) (by rw [hu']; exact hcall)
      (by rw [hu']; exact hs') hrows hperm hsorted
    exact ⟨_, t, .pop hm (exec_append.mpr ⟨_, hu, ht⟩)⟩

theorem Related.complete_returns {j : Spec.Job} (h : Related node s a) (hj : j ∈ a.held)
    (res : Result) : ∃ t, Does node s (.complete j res) t := by
  rw [h.held, Multiset.mem_coe, List.mem_map] at hj
  obtain ⟨g, hg, rfl⟩ := hj
  obtain ⟨n, hn⟩ := h.calls
  have hc : step s (.complete n g res) = some { s with
      held := s.held.erase g
      completes := update s.completes n (some ⟨g, completePhase g res⟩) } :=
    if_pos ⟨hg, (hn n (Nat.le_refl n)).2⟩
  cases hr : completion res g.job.retryCount with
  | succeed =>
    have hsome : ∃ t, exec step s [.complete n g res, .delete n true] = some t := by
      refine Option.isSome_iff_exists.mp ?_
      rw [exec_cons_of_step hc]
      simp [exec, step, Cluster.delete, completePhase, hr, h.unlocked]
    obtain ⟨t, ht⟩ := hsome
    exact ⟨t, .succeed ht⟩
  | failPermanently =>
    have hsome : ∃ t, exec step s
        [.complete n g res, .addFailure n s.now true, .delete n true] = some t := by
      refine Option.isSome_iff_exists.mp ?_
      rw [exec_cons_of_step hc]
      simp [exec, step, addFailure, Cluster.delete, completePhase, hr, h.unlocked]
    obtain ⟨t, ht⟩ := hsome
    exact ⟨t, .fail ht⟩
  | retry =>
    have hsome : ∃ t, exec step s [.complete n g res, .update n true] = some t := by
      refine Option.isSome_iff_exists.mp ?_
      rw [exec_cons_of_step hc]
      simp [exec, step, updateStmt, completePhase, hr, h.unlocked]
    obtain ⟨t, ht⟩ := hsome
    exact ⟨t, .retry ht⟩

/-- Every operation returns, unless its statement fails or it cannot allocate
its answer. -/
theorem Related.responds (h : Related node s a) :
    Spec.Responds (Does node) (fun i ↦ (insertJob s.now s.table.next i).isSome) s a.held where
  push i hi := by
    obtain ⟨r, hr⟩ := Option.isSome_iff_exists.mp hi
    exact ⟨_, _, _, .push (Option.map_eq_some_iff.mpr ⟨r, hr, rfl⟩)⟩
  pop _ hm := h.pop_returns hm
  complete _ hj res := h.complete_returns hj res

end Responds

end Fireworq.MySQL.Cluster
