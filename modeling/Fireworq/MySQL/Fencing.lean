import Fireworq.MySQL.Durability

namespace Fireworq.MySQL.Cluster

open Relational JobQueue Execution Function

variable {s t : State} {es : List Event}

/-- The statements that can change or remove a grabbed row: a deletion through
the inspector, a statement of some `Complete` for the job, and a recovery on
another connection id than the one stored in the row. -/
def Touches (s : State) (e : Event) (id : ℕ) : Prop :=
  e = .inspectorDelete id ∨
    (∃ k c, (e = .update k true ∨ e = .delete k true) ∧ s.completes k = some c ∧
      c.grab.job.id = id) ∨
    ∃ node session r, e = .reclaim node ∧ s.sessions node = some session ∧
      s.table.find id = some r ∧ orphanJobs session.connectionId r

theorem grabbed_step {e : Event} (hi : PopInv s) (h : step s e = some t) {id : ℕ} {r : Row}
    (hr : s.table.find id = some r) (hst : r.status = .grabbed) (he : ¬ Touches s e id) :
    t.table.find id = some r := by
  rcases row_kept hi h hr with ⟨q, hq, hrow⟩ | ⟨-, rfl | ⟨k, g, rfl, hk, hid⟩⟩
  · cases hrow with
    | same => exact hq
    | @grab p session results pending r hp hm =>
      obtain ⟨c, hc, hph⟩ := Option.map_eq_some_iff.mp hp
      have hok := hi p c hc
      simp only [PopOk, hph] at hok
      obtain ⟨j, hj, hjid⟩ := List.mem_map.mp hm
      obtain ⟨-, r', hr', hclaimed, -⟩ := hok.2.2.1 j hj
      rw [hjid, Table.find_key hr, hr] at hr'
      cases hr'
      rw [hst] at hclaimed
      cases hclaimed
    | @reschedule k g next r q hk hid =>
      exact absurd (.inr (.inl ⟨k, _, .inl rfl, hk, hid.symm.trans (Table.find_key hr)⟩)) he
    | @reclaim node session ids r hn hs hm horphan =>
      exact absurd (.inr (.inr ⟨node, session, r, rfl, hs, hr, horphan⟩)) he
  · exact absurd (.inl rfl) he
  · exact absurd (.inr (.inl ⟨k, _, .inr rfl, hk, hid⟩)) he

/-- A call of `Complete` writes no row but that of its job. -/
theorem find_of_completeCall {k id : ℕ} {c : CompleteCall} {e : Event} (hk : s.completes k = some c)
    (he : e.completeCall = some k) (h : step s e = some t) (hid : id ≠ c.grab.job.id) :
    t.table.find id = s.table.find id := by
  have hw := step_writes h
  generalize t.table = T at hw ⊢
  cases hw with
  | same => rfl
  | insert | publish | inspectorDelete | reclaim => cases he
  | @delete l g hl =>
    cases he
    rw [hk] at hl
    cases hl
    rw [AutoTable.find_delete, if_neg hid]
  | @update l g next hl =>
    cases he
    rw [hk] at hl
    cases hl
    rw [AutoTable.find_update]
    cases hr : s.table.find id with
    | none => rfl
    | some r =>
      have hne : r.jobId ≠ g.job.id := by rwa [Table.find_key hr]
      rw [Option.map_some, updateJob_of_ne hne]

/-- What the statements of `Complete` do to the job table. None of them reads
the status or the grabber of a row. -/
structure Unfenced (s : State) : Prop where
  update : ∀ k g next t r, s.completes k = some ⟨g, .updating next⟩ →
    step s (.update k true) = some t → storable s.now next → s.table.find g.job.id = some r →
    ∃ q, t.table.find g.job.id = some q ∧ q.status = .claimed ∧ q.grabberId = none ∧
      q.nextTry = s.now + 1000 * g.job.retryDelay ∧ q.retryCount = g.job.retryCount - 1 ∧
      q.failCount = g.job.failCount + 1 ∧ q.fixed = r.fixed
  delete : ∀ k g t, s.completes k = some ⟨g, .deleting⟩ → step s (.delete k true) = some t →
    t.table.find g.job.id = none
  other : ∀ k c e t id, s.completes k = some c → e.completeCall = some k → step s e = some t →
    id ≠ c.grab.job.id → t.table.find id = s.table.find id
  absent : ∀ k e t id, e.completeCall = some k → step s e = some t →
    s.table.find id = none → t.table.find id = none
  grabbed : ∀ ys t id r, exec step s ys = some t → s.table.find id = some r →
    r.status = .grabbed → Along step (fun u e ↦ ¬ Touches u e id) s ys →
    t.table.find id = some r

theorem completion_unfenced (h : Run es s) : Unfenced s := by
  have hi := h.popInv
  have hj := h.jobsInv
  constructor
  · intro k g next t r hk hstep hs hr
    obtain ⟨g', next', hk', -, rfl⟩ := updateStmt_cases hstep
    rw [hk] at hk'
    cases hk'
    refine ⟨updateJob s.now g.job.id next r, by simp [AutoTable.find_update, hr], ?_⟩
    have hnext := hj.next_eq hk
    subst hnext
    rw [updateJob, dif_pos ⟨Table.find_key hr, hs⟩]
    exact ⟨rfl, rfl, rfl, rfl, rfl, rfl⟩
  · intro k g t hk hstep
    obtain ⟨g', hk', -, rfl⟩ := delete_cases hstep
    rw [hk] at hk'
    cases hk'
    simp [AutoTable.find_delete]
  · exact fun k c e t id hk he hstep hid ↦ find_of_completeCall hk he hstep hid
  · intro k e t id he hstep hnone
    cases ht : t.table.find id with
    | none => rfl
    | some q =>
      rcases row_step hi hstep ht with ⟨r, hr, -⟩ | ⟨-, -, j, a, rfl, -⟩
      · rw [hnone] at hr
        cases hr
      · cases he
  · intro ys t id r hys hr hst hfree
    have hP := hfree.invariant (fun s ↦ PopInv s ∧ s.table.find id = some r) ?_ hys ⟨hi, hr⟩
    · exact hP.2
    · rintro u e v ⟨hu, hur⟩ hnot hstep
      exact ⟨step_inv hstep hu, grabbed_step hu hstep hur hst hnot⟩

def takeover : List Event :=
  [.connect 0 7, .tick 5, .push sampleJob true, .popStart 0 0 10, .preselect 0 [1], .beginTx 0,
    .selectForUpdate 0 [sampleRow], .launch 0, .commit 0, .popReturn 0 [Job.scan sampleRow],
    .disconnect 0, .connect 1 8, .recover 1, .orphans 1 [1], .reclaim 1, .orphans 1 [],
    .activate 1, .popStart 1 1 10, .preselect 1 [1], .beginTx 1, .selectForUpdate 1 [sampleRow],
    .launch 1, .commit 1, .popReturn 1 [Job.scan sampleRow]]

theorem completion_unfenced_takeover : ∃ s, Run takeover s ∧ Unfenced s := by
  obtain ⟨s, hs⟩ := Option.isSome_iff_exists.mp
    (show (exec step .initial takeover).isSome = true by decide +kernel)
  exact ⟨s, hs, completion_unfenced hs⟩

def success : Result where
  status := resultStatusSuccess
  code := 200
  message := ""

/-- While the job is grabbed by the connection of node 1, a completion of
node 0 puts it back, or removes it. -/
theorem stale_completion_takes_effect :
    (∃ s t, Run (takeover ++ [.complete 0 ⟨⟨0, 7⟩, Job.scan sampleRow⟩ failure]) s ∧
      (s.table.find 1).map (fun r ↦ (r.status, r.grabberId)) = some (.grabbed, some 8) ∧
      step s (.update 0 true) = some t ∧
      (t.table.find 1).map (fun r ↦ (r.status, r.grabberId)) = some (.claimed, none)) ∧
    ∃ s t, Run (takeover ++ [.complete 0 ⟨⟨0, 7⟩, Job.scan sampleRow⟩ success]) s ∧
      (s.table.find 1).map (fun r ↦ (r.status, r.grabberId)) = some (.grabbed, some 8) ∧
      step s (.delete 0 true) = some t ∧ t.table.find 1 = none := by
  constructor
  · obtain ⟨s, hs, hrow⟩ := Option.map_eq_some_iff.mp
      (show (exec step .initial (takeover ++
          [.complete 0 ⟨⟨0, 7⟩, Job.scan sampleRow⟩ failure])).map
          (fun s ↦ ((s.table.find 1).map (fun r ↦ (r.status, r.grabberId)),
            (step s (.update 0 true)).map fun t ↦
              (t.table.find 1).map (fun r ↦ (r.status, r.grabberId)))) =
        some (some (.grabbed, some 8), some (some (.claimed, none))) by decide +kernel)
    obtain ⟨hbefore, hafter⟩ := Prod.mk.inj hrow
    obtain ⟨t, ht, hclaimed⟩ := Option.map_eq_some_iff.mp hafter
    exact ⟨s, t, hs, hbefore, ht, hclaimed⟩
  · obtain ⟨s, hs, hrow⟩ := Option.map_eq_some_iff.mp
      (show (exec step .initial (takeover ++
          [.complete 0 ⟨⟨0, 7⟩, Job.scan sampleRow⟩ success])).map
          (fun s ↦ ((s.table.find 1).map (fun r ↦ (r.status, r.grabberId)),
            (step s (.delete 0 true)).map fun t ↦ t.table.find 1)) =
        some (some (.grabbed, some 8), some none) by decide +kernel)
    obtain ⟨hbefore, hafter⟩ := Prod.mk.inj hrow
    obtain ⟨t, ht, hgone⟩ := Option.map_eq_some_iff.mp hafter
    exact ⟨s, t, hs, hbefore, ht, hgone⟩

end Fireworq.MySQL.Cluster
