import Fireworq.MySQL.Grabbing

namespace Fireworq.MySQL.Cluster

open Relational JobQueue Execution Function

variable {s t : State} {es : List Event}

def PopPhase.jobs : PopPhase → List Job
  | .selected _ _ results | .launched _ results _ | .committed _ results => results
  | .returned grabs => grabs.map Grab.job
  | _ => []

def PopPhase.preselection : PopPhase → List ℕ
  | .preselected ids | .begun _ ids => ids
  | _ => []

theorem RowStep.fixed_eq {e : Event} {r q : Row} (h : RowStep s e r q) : q.fixed = r.fixed := by
  cases h with
  | same => rfl
  | grab => rfl
  | reschedule _ _ _ hf => exact hf
  | reclaim => rfl

theorem RowStep.retryDelay_eq {e : Event} {r q : Row} (h : RowStep s e r q) :
    q.retryDelay = r.retryDelay := by
  have hf := h.fixed_eq
  simp only [Row.fixed, Prod.mk.injEq] at hf
  exact hf.2.2.2.2.2.1

theorem RowStep.nextTry_cases {e : Event} {r q : Row} (h : RowStep s e r q) :
    q.nextTry = r.nextTry ∨ ∃ k g next, e = .update k true ∧
      s.completes k = some ⟨g, .updating next⟩ ∧ r.jobId = g.job.id ∧
      q.nextTry = s.now + next.nextDelay := by
  cases h with
  | same => exact .inl rfl
  | grab => exact .inl rfl
  | @reschedule k g next r q hk hid _ _ _ _ hn => exact .inr ⟨k, g, next, rfl, hk, hid, hn⟩
  | reclaim => exact .inl rfl

theorem next_step {e : Event} (h : step s e = some t) : s.table.next ≤ t.table.next := by
  have hw := step_writes h
  generalize t.table = T at hw ⊢
  cases hw with
  | insert hn => rw [AutoTable.next_insert (insertJob_jobId hn)]; exact Nat.le_succ _
  | _ => exact Nat.le_refl _

theorem jobs_step {e : Event} (h : step s e = some t) {p : ℕ} {phase : PopPhase}
    (hp : t.phase p = some phase) {j : Job} (hj : j ∈ phase.jobs) :
    (∃ before, s.phase p = some before ∧ j ∈ before.jobs) ∨
      ∃ rows, e = .selectForUpdate p rows ∧ ∃ r ∈ rows, j = Job.scan r := by
  rcases phase_step h p with heq | ⟨he, after, heq, hm⟩
  · exact .inl ⟨phase, heq ▸ hp, hj⟩
  · rw [hp] at heq
    cases heq
    generalize hb : s.phase p = before at hm
    cases hm with
    | start | preselect | begin | returnNone | returnEmpty | fail => cases hj
    | select =>
      cases he
      obtain ⟨r, hr, rfl⟩ := List.mem_map.mp hj
      exact .inr ⟨_, rfl, r, hr, rfl⟩
    | launch | commit | commitLost => exact .inl ⟨_, rfl, hj⟩
    | «return» hperm =>
      obtain ⟨g, hg, rfl⟩ := List.mem_map.mp hj
      obtain ⟨i, hi, rfl⟩ := List.mem_map.mp hg
      exact .inl ⟨_, rfl, hperm.mem_iff.mp hi⟩

def Known (s : State) (j : Job) : Prop :=
  j.id < s.table.next ∧ (∃ r, Job.scan r = j) ∧
    ∀ r, s.table.find j.id = some r → r.retryDelay = j.retryDelay

theorem Known.step {e : Event} {j : Job} (hk : Known s j) (hi : PopInv s)
    (h : step s e = some t) : Known t j := by
  obtain ⟨hlt, hd, hrow⟩ := hk
  refine ⟨Nat.lt_of_lt_of_le hlt (next_step h), hd, fun q hq ↦ ?_⟩
  rcases row_step hi h hq with ⟨r, hr, hstep⟩ | ⟨-, hnext, -⟩
  · exact hstep.retryDelay_eq.trans (hrow r hr)
  · omega

structure JobsInv (s : State) : Prop where
  popped : ∀ p phase, s.phase p = some phase → ∀ j ∈ phase.jobs, Known s j
  held : ∀ g ∈ s.held, Known s g.job
  completing : ∀ k c, s.completes k = some c → Known s c.grab.job
  rescheduling : ∀ k g next, s.completes k = some ⟨g, .updating next⟩ →
    0 < g.job.retryCount ∧ next = nextJob g.job.retryDelay g.job.retryCount g.job.failCount

theorem completePhase_updating {g : Grab} {res : Result} {next : NextInfo}
    (h : completePhase g res = .updating next) :
    0 < g.job.retryCount ∧
      next = nextJob g.job.retryDelay g.job.retryCount g.job.failCount := by
  unfold completePhase at h
  split at h
  · cases h
  · cases h
  · next hr => exact ⟨retryCount_pos hr, (CompletePhase.updating.inj h).symm⟩

theorem JobsInv.step {e : Event} (hj : JobsInv s) (hi : PopInv s) (h : step s e = some t) :
    JobsInv t where
  popped p phase hp j hm := by
    rcases jobs_step h hp hm with ⟨before, hb, hm⟩ | ⟨rows, rfl, r, hr, rfl⟩
    · exact (hj.popped p before hb j hm).step hi h
    · obtain ⟨c, session, ids, -, -, -, -, ha, -⟩ := selectForUpdate_cases h
      have hfind : s.table.find r.jobId = some r := Table.find_of_mem (ha.mem.mp hr).1
      refine Known.step ⟨AutoTable.lt_next hfind, ⟨r, rfl⟩, fun q hq ↦ ?_⟩ hi h
      rw [show (Job.scan r).id = r.jobId from rfl, hfind] at hq
      cases hq
      rfl
  held g hg := by
    rcases held_step h hg with hg | ⟨p, results, hp, hg⟩
    · exact (hj.held g hg).step hi h
    · exact (hj.popped p _ hp g.job hg).step hi h
  completing k c hc := by
    rcases completes_step h k with heq | ⟨d, heq, hm⟩
    · exact (hj.completing k c (heq ▸ hc)).step hi h
    · rw [hc] at heq
      cases heq
      cases hm with
      | start hg => exact (hj.held _ hg).step hi h
      | log hk | delete hk | update hk => exact (hj.completing k _ hk).step hi h
  rescheduling k g next hc := by
    rcases completes_step h k with heq | ⟨d, heq, hm⟩
    · exact hj.rescheduling k g next (heq ▸ hc)
    · rw [hc] at heq
      cases heq
      generalize hph : CompletePhase.updating next = phase at hm
      cases hm with
      | start => exact completePhase_updating hph.symm
      | log | delete | update => cases hph

/-- The values that `Update` writes, as far as the job it completes determines
them. -/
theorem JobsInv.next_eq {k : ℕ} {g : Grab} {next : NextInfo} (hj : JobsInv s)
    (hk : s.completes k = some ⟨g, .updating next⟩) :
    next = ⟨1000 * g.job.retryDelay, g.job.retryCount - 1, g.job.failCount + 1⟩ := by
  obtain ⟨hpos, hnext⟩ := hj.rescheduling k g next hk
  obtain ⟨-, ⟨r, hr⟩, -⟩ := hj.completing k _ hk
  have hfits := r.fits
  rw [hnext, ← hr]
  rw [← hr] at hpos
  exact nextJob_eq hfits.2.2.2.2.1 hpos hfits.2.2.2.1 hfits.2.2.2.2.2.1

theorem Run.jobsInv (h : Run es s) : JobsInv s := by
  refine history (fun _ s ↦ JobsInv s) ?_ (fun _ _ _ _ hu hj hs ↦ hj.step (Run.popInv hu) hs) h
  constructor
  · intro p phase hp; cases hp
  · intro g hg; cases hg
  · intro k c hc; cases hc
  · intro k g next hc; cases hc

/-- No failure with a retry delay is recorded for a job that a call of `Pop`
has preselected and not yet locked. -/
def Unhurried (s : State) (e : Event) : Prop :=
  ∀ k g next, e = .update k true → s.completes k = some ⟨g, .updating next⟩ →
    0 < g.job.retryDelay → ∀ p phase, s.phase p = some phase → g.job.id ∉ phase.preselection

structure DueInv (s : State) : Prop where
  preselected : ∀ p phase, s.phase p = some phase → ∀ id ∈ phase.preselection,
    id < s.table.next ∧ ∀ r, s.table.find id = some r → r.nextTry ≤ s.now
  locked : ∀ p phase, s.phase p = some phase → ∀ j ∈ phase.jobs, j.nextTry ≤ s.now

theorem DueInv.step {e : Event} (hd : DueInv s) (hj : JobsInv s) (hi : PopInv s)
    (hc : Unhurried s e) (h : step s e = some t) : DueInv t where
  preselected p phase hp id hid := by
    rcases phase_step h p with heq | ⟨he, after, heq, hm⟩
    · rw [heq] at hp
      obtain ⟨hlt, hrow⟩ := hd.preselected p phase hp id hid
      refine ⟨Nat.lt_of_lt_of_le hlt (next_step h), fun q hq ↦ Nat.le_trans ?_ (now_step h)⟩
      rcases row_step hi h hq with ⟨r, hr, hstep⟩ | ⟨-, hnext, -⟩
      · rcases hstep.nextTry_cases with hsame | ⟨k, g, next, he, hk, hg, hnew⟩
        · rw [hsame]
          exact hrow r hr
        · have hzero : ¬ 0 < g.job.retryDelay := by
            intro hpos
            refine hc k g next he hk hpos p phase hp ?_
            rwa [← hg, Table.find_key hr]
          have hdelay := congrArg NextInfo.nextDelay (hj.next_eq hk)
          dsimp only at hdelay
          omega
      · omega
    · rw [hp] at heq
      cases heq
      generalize hb : s.phase p = before at hm
      cases hm with
      | @preselect q ids =>
        obtain ⟨c, -, -, hids, ha, rfl⟩ := preselect_cases h
        rw [PopPhase.preselection, ← hids] at hid
        obtain ⟨r, hr, rfl⟩ := List.mem_map.mp hid
        obtain ⟨hmem, hgrab⟩ := ha.2.1 r hr
        have hfind : s.table.find r.jobId = some r := Table.find_of_mem hmem
        refine ⟨AutoTable.lt_next hfind, fun q hq ↦ ?_⟩
        cases Option.some.inj (hfind.symm.trans hq)
        exact hgrab.2
      | begin =>
        obtain ⟨c, ids, session, -, -, -, -, rfl⟩ := beginTx_cases h
        exact hd.preselected p _ hb id hid
      | _ => cases hid
  locked p phase hp j hm := by
    refine Nat.le_trans ?_ (now_step h)
    rcases jobs_step h hp hm with ⟨before, hb, hm⟩ | ⟨rows, rfl, r, hr, rfl⟩
    · exact hd.locked p before hb j hm
    · obtain ⟨c, session, ids, hp, hph, -, -, ha, -⟩ := selectForUpdate_cases h
      obtain ⟨hmem, -, hid⟩ := ha.mem.mp hr
      have hphase : s.phase p = some (.begun session ids) := State.phase_of hp hph
      exact (hd.preselected p _ hphase r.jobId hid).2 r (Table.find_of_mem hmem)

theorem Run.dueInv (h : Run es s) (hc : Along step Unhurried .initial es) : DueInv s := by
  have hP : PopInv s ∧ JobsInv s ∧ DueInv s := by
    refine hc.invariant (fun s ↦ PopInv s ∧ JobsInv s ∧ DueInv s) ?_ h ?_
    · rintro s e t ⟨hi, hj, hd⟩ hu hs
      exact ⟨step_inv hs hi, hj.step hi hs, hd.step hj hi hu hs⟩
    · refine ⟨initial_inv, @Run.jobsInv _ [] rfl, ?_⟩
      constructor
      · intro p phase hp; cases hp
      · intro p phase hp; cases hp
  exact hP.2.2

def LockedAt (es : List Event) (p : ℕ) (u : State) (r : Row) : Prop :=
  ∃ xs rows ys, es = xs ++ .selectForUpdate p rows :: ys ∧ Run xs u ∧ r ∈ rows

theorem Run.lockedAt (h : Run es s) {p : ℕ} {phase : PopPhase} (hp : s.phase p = some phase)
    {j : Job} (hj : j ∈ phase.jobs) : ∃ u r, LockedAt es p u r ∧ j = Job.scan r := by
  refine history (fun es s ↦ ∀ phase, s.phase p = some phase → ∀ j ∈ phase.jobs,
    ∃ u r, LockedAt es p u r ∧ j = Job.scan r) ?_ ?_ h phase hp j hj
  · intro phase hp
    cases hp
  · intro xs u e v hu ih hstep phase hp j hj
    rcases jobs_step hstep hp hj with ⟨before, hb, hj⟩ | ⟨rows, rfl, r, hr, rfl⟩
    · obtain ⟨w, r, ⟨ys, rows, zs, rfl, hw, hr⟩, rfl⟩ := ih before hb j hj
      exact ⟨w, r, ⟨ys, rows, zs ++ [e], by simp, hw, hr⟩, rfl⟩
    · exact ⟨u, r, ⟨xs, rows, [], rfl, hu, hr⟩, rfl⟩

structure Waits (id time delay : ℕ) (s : State) : Prop where
  now : time ≤ s.now
  known : id < s.table.next
  later : ∀ r, s.table.find id = some r → r.retryDelay = delay ∧ time + 1000 * delay ≤ r.nextTry

theorem Waits.step {id time delay : ℕ} {e : Event} (hw : Waits id time delay s) (hj : JobsInv s)
    (hi : PopInv s) (h : step s e = some t) : Waits id time delay t where
  now := Nat.le_trans hw.now (now_step h)
  known := Nat.lt_of_lt_of_le hw.known (next_step h)
  later q hq := by
    rcases row_step hi h hq with ⟨r, hr, hstep⟩ | ⟨-, hnext, -⟩
    · obtain ⟨hdelay, hlater⟩ := hw.later r hr
      refine ⟨hstep.retryDelay_eq.trans hdelay, ?_⟩
      rcases hstep.nextTry_cases with hsame | ⟨k, g, next, he, hk, hg, hnew⟩
      · rwa [hsame]
      · have hrow := (hj.completing k _ hk).2.2 r (by rwa [← hg, Table.find_key hr])
        have hnext : next.nextDelay = 1000 * delay := by rw [hj.next_eq hk, ← hrow, hdelay]
        have := hw.now
        omega
    · have := hw.known
      omega

theorem update_waits {k : ℕ} {g : Grab} {next : NextInfo} (hj : JobsInv s) (hi : PopInv s)
    (h : step s (.update k true) = some t) (hk : s.completes k = some ⟨g, .updating next⟩)
    (hs : storable s.now next) : Waits g.job.id s.now g.job.retryDelay t := by
  obtain ⟨hlt, -, hrow⟩ := (hj.completing k _ hk).step hi h
  refine ⟨now_step h, hlt, fun q hq ↦ ⟨hrow q hq, ?_⟩⟩
  obtain ⟨g', next', hk', -, rfl⟩ := updateStmt_cases h
  rw [hk] at hk'
  cases hk'
  simp only [if_true, AutoTable.find_update, Option.map_eq_some_iff] at hq
  obtain ⟨r, hr, rfl⟩ := hq
  have hid : r.jobId = g.job.id := Table.find_key hr
  have hnext := hj.next_eq hk
  subst hnext
  exact Nat.le_of_eq (updateJob_nextTry hid hs).symm

theorem Waits.run {id time delay : ℕ} {ys : List Event} (hw : Waits id time delay s)
    (hj : JobsInv s) (hi : PopInv s) (h : exec Cluster.step s ys = some t) :
    Waits id time delay t := by
  have hP := invariant (fun s ↦ PopInv s ∧ JobsInv s ∧ Waits id time delay s) ?_ h ⟨hi, hj, hw⟩
  · exact hP.2.2
  · rintro u e v ⟨hi, hj, hw⟩ hstep
    exact ⟨step_inv hstep hi, hj.step hi hstep, hw.step hj hi hstep⟩

theorem LockedAt.due {p : ℕ} {u : State} {r : Row} (hl : LockedAt es p u r) (h : Run es s)
    (hc : Along step Unhurried .initial es) : r.nextTry ≤ u.now := by
  obtain ⟨xs, rows, ys, rfl, hu, hr⟩ := hl
  obtain ⟨u', v, hu', hstep, -⟩ := exec_split h
  cases Option.some.inj (hu.symm.trans hu')
  obtain ⟨c, session, ids, hp, hph, -, -, ha, -⟩ := selectForUpdate_cases hstep
  obtain ⟨hmem, -, hid⟩ := ha.mem.mp hr
  have hdue := (Run.dueInv hu (hc.split hu).1).preselected p _ (State.phase_of hp hph) _ hid
  exact hdue.2 r (Table.find_of_mem hmem)

theorem commit_due {p id : ℕ} {q : Row} (h : Run es s)
    (hc : Along step Unhurried .initial es) (hstep : step s (.commit p) = some t)
    (hturn : Turns s t id q) : ∃ r, s.table.find id = some r ∧ r.nextTry ≤ s.now := by
  obtain ⟨c, session, results, pending, hp, hph, -, rfl⟩ := commit_cases hstep
  obtain ⟨hm, r, hr, -⟩ := (commit_turns h.popInv hp hph rfl id q).mp hturn
  obtain ⟨j, hj, rfl⟩ := List.mem_map.mp hm
  have hok := h.popInv p c hp
  simp only [PopOk, hph] at hok
  obtain ⟨-, r', hr', -, hscan⟩ := hok.2.2.1 j hj
  cases Option.some.inj (hr.symm.trans hr')
  have hdue := (h.dueInv hc).locked p _ (State.phase_of hp hph) j hj
  rw [← hscan] at hdue
  exact ⟨r, hr, hdue⟩

structure Timely (es : List Event) (s : State) : Prop where
  due : ∀ p u r, LockedAt es p u r → r.nextTry ≤ u.now
  locked : ∀ p, ∀ g ∈ s.report p, ∃ u r, LockedAt es p u r ∧ g.job = Job.scan r
  retried : ∀ xs ys zs k g next p u v w q,
    es = xs ++ .update k true :: (ys ++ .commit p :: zs) → Run xs u →
    u.completes k = some ⟨g, .updating next⟩ → storable u.now next →
    Run (xs ++ .update k true :: ys) v → step v (.commit p) = some w →
    Turns v w g.job.id q → u.now + 1000 * g.job.retryDelay ≤ v.now

theorem no_early_dispatch (h : Run es s) (hc : Along step Unhurried .initial es) :
    Timely es s := by
  constructor
  · exact fun p u r hl ↦ hl.due h hc
  · intro p g hg
    unfold State.report at hg
    cases hp : s.phase p with
    | none => rw [hp] at hg; cases hg
    | some phase =>
      rw [hp] at hg
      refine h.lockedAt hp ?_
      cases phase with
      | committed session results =>
        obtain ⟨j, hj, rfl⟩ := List.mem_map.mp hg
        exact hj
      | returned grabs => exact List.mem_map_of_mem hg
      | _ => cases hg
  · rintro xs ys zs k g next p u v w q rfl hu hk hs hv hstep hturn
    obtain ⟨u', u₁, hu', hupd, hys⟩ := exec_split hv
    cases Option.some.inj (hu.symm.trans hu')
    have hu₁ : Run (xs ++ [.update k true]) u₁ := exec_snoc.mpr ⟨u, hu, hupd⟩
    have hwaits : Waits g.job.id u.now g.job.retryDelay v :=
      (update_waits (Run.jobsInv hu) (Run.popInv hu) hupd hk hs).run hu₁.jobsInv hu₁.popInv hys
    have hv' : Along step Unhurried .initial (xs ++ .update k true :: ys) := by
      rw [← List.cons_append, ← List.append_assoc] at hc
      exact (hc.split hv).1
    obtain ⟨r, hr, hdue⟩ := commit_due hv hv' hstep hturn
    exact Nat.le_trans (hwaits.later r hr).2 hdue

def failure : Result where
  status := resultStatusFailure
  code := 500
  message := ""

def retriedRow : Row where
  jobId := 1
  nextTry := 60005
  grabberId := none
  status := .claimed
  createdAt := 5
  retryCount := 2
  retryDelay := 60
  failCount := 1
  category := "mail"
  url := "http://localhost/worker"
  payload := "1"
  timeout := 10
  failureUrl := some ""
  fits := by decide

def firstTry : List Event :=
  [.connect 0 7, .tick 5, .push sampleJob true, .popStart 0 0 10, .preselect 0 [1], .beginTx 0,
    .selectForUpdate 0 [sampleRow], .launch 0, .commit 0, .popReturn 0 [Job.scan sampleRow],
    .complete 0 ⟨⟨0, 7⟩, Job.scan sampleRow⟩ failure]

def secondTry : List Event :=
  [.tick 60000, .popStart 1 0 10, .preselect 1 [1], .beginTx 1, .selectForUpdate 1 [retriedRow],
    .launch 1, .commit 1, .popReturn 1 [Job.scan retriedRow]]

theorem Run.popStart_mem (h : Run es s) {p : ℕ} {phase : PopPhase}
    (hp : s.phase p = some phase) : ∃ node limit, .popStart p node limit ∈ es := by
  refine history (fun es s ↦ ∀ phase, s.phase p = some phase →
    ∃ node limit, .popStart p node limit ∈ es) ?_ ?_ h phase hp
  · intro phase hp
    cases hp
  · intro xs u e v hu ih hstep phase hp
    have hmem {before : PopPhase} (hb : u.phase p = some before) :
        ∃ node limit, .popStart p node limit ∈ xs ++ [e] := by
      obtain ⟨node, limit, hm⟩ := ih before hb
      exact ⟨node, limit, List.mem_append_left _ hm⟩
    rcases phase_step hstep p with heq | ⟨he, after, -, hm⟩
    · exact hmem (heq ▸ hp)
    · generalize hb : u.phase p = before at hm
      cases hm with
      | @start q node limit => cases he; exact ⟨node, limit, by simp⟩
      | _ => exact hmem hb

theorem no_early_dispatch_retry :
    ∃ s, Run (firstTry ++ .update 0 true :: secondTry) s ∧
      Timely (firstTry ++ .update 0 true :: secondTry) s := by
  obtain ⟨s, hs⟩ := Option.isSome_iff_exists.mp
    (show (exec step .initial (firstTry ++ .update 0 true :: secondTry)).isSome = true by
      decide +kernel)
  refine ⟨s, hs, no_early_dispatch hs ?_⟩
  refine (Along.of_forall ?_ _).append fun u hu ↦ ⟨?_, fun t _ ↦ Along.of_forall ?_ t⟩
  · intro e he s k g next h
    simp [firstTry, h] at he
  · intro k g next _ hk _ p phase hp
    obtain ⟨node, limit, hm⟩ := Run.popStart_mem hu hp
    have hzero : p = 0 := by
      simp [firstTry] at hm
      exact hm.1
    obtain ⟨u', hu', hpre⟩ := Option.map_eq_some_iff.mp
      (show (exec step .initial firstTry).map (fun s ↦ (s.phase 0).map PopPhase.preselection) =
        some (some []) by decide +kernel)
    cases Option.some.inj (hu.symm.trans hu')
    rw [hzero] at hp
    rw [hp, Option.map_some] at hpre
    rw [Option.some.inj hpre]
    simp
  · intro e he s k g next h
    simp [secondTry, h] at he

/-- Call 0 preselects the job; before it locks the row, call 1 grabs the job,
which then fails and is to be retried a minute later. -/
def overtaken : List Event :=
  [.connect 0 7, .connect 1 8, .tick 5, .push sampleJob true,
    .popStart 0 0 10, .popStart 1 1 10, .preselect 0 [1], .preselect 1 [1],
    .beginTx 1, .selectForUpdate 1 [sampleRow], .launch 1, .commit 1,
    .popReturn 1 [Job.scan sampleRow],
    .complete 0 ⟨⟨1, 8⟩, Job.scan sampleRow⟩ failure, .update 0 true, .beginTx 0]

theorem overtaken_grabs_early : ∃ s u g r,
    Run (overtaken ++ [.selectForUpdate 0 [retriedRow], .launch 0, .commit 0,
      .popReturn 0 [Job.scan retriedRow]]) s ∧
    LockedAt (overtaken ++ [.selectForUpdate 0 [retriedRow], .launch 0, .commit 0,
      .popReturn 0 [Job.scan retriedRow]]) 0 u r ∧
    g ∈ s.report 0 ∧ g.job = Job.scan r ∧ u.now < r.nextTry := by
  obtain ⟨u, hu, hnow⟩ := Option.map_eq_some_iff.mp
    (show (exec step .initial overtaken).map State.now = some 5 by decide +kernel)
  obtain ⟨s, hs, hreport⟩ := Option.map_eq_some_iff.mp
    (show (exec step .initial (overtaken ++ [.selectForUpdate 0 [retriedRow], .launch 0,
      .commit 0, .popReturn 0 [Job.scan retriedRow]])).map (fun s ↦ s.report 0) =
        some [⟨⟨0, 7⟩, Job.scan retriedRow⟩] by decide +kernel)
  refine ⟨s, u, ⟨⟨0, 7⟩, Job.scan retriedRow⟩, retriedRow, hs, ⟨_, _, _, rfl, hu, by simp⟩, ?_,
    rfl, ?_⟩
  · rw [hreport]
    simp
  · rw [hnow]
    decide

end Fireworq.MySQL.Cluster
