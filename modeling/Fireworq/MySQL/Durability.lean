import Fireworq.MySQL.Due

namespace Fireworq.MySQL.Cluster

open Relational JobQueue Execution Function

variable {s t : State} {es : List Event}

/-- The events that may end the life of a job: a completion that finishes it,
and a deletion through the inspector. -/
def Removed (es : List Event) (id : ℕ) : Prop :=
  .inspectorDelete id ∈ es ∨ ∃ k g res, .complete k g res ∈ es ∧ g.job.id = id ∧
    finishes res g.job.retryCount = true

theorem Removed.mono {id : ℕ} {es' : List Event} (h : Removed es id) (hes : es ⊆ es') :
    Removed es' id := by
  rcases h with h | ⟨k, g, res, h, hid, hf⟩
  · exact .inl (hes h)
  · exact .inr ⟨k, g, res, hes h, hid, hf⟩

theorem Removed.snoc {id : ℕ} {e : Event} (h : Removed es id) : Removed (es ++ [e]) id :=
  h.mono (List.subset_append_left _ _)

def CompletePhase.removing : CompletePhase → Bool
  | .deleting | .logging _ => true
  | .updating _ | .done => false

theorem completePhase_removing (g : Grab) (res : Result) :
    (completePhase g res).removing = finishes res g.job.retryCount := by
  unfold completePhase
  cases hc : completion res g.job.retryCount with
  | retry => exact (completion_retry_iff.mp hc).symm
  | succeed | failPermanently =>
    have hne : completion res g.job.retryCount ≠ .retry := by rw [hc]; nofun
    rw [Ne, completion_retry_iff, Bool.not_eq_false] at hne
    exact hne.symm

structure KeptInv (id : ℕ) (es : List Event) (s : State) : Prop where
  kept : (∃ r, s.table.find id = some r) ∨ Removed es id
  finished : ∀ k c, s.completes k = some c → c.grab.job.id = id → c.phase.removing = true →
    ∃ l res, .complete l c.grab res ∈ es ∧ finishes res c.grab.job.retryCount = true

theorem KeptInv.mono {id : ℕ} {es' : List Event} (h : KeptInv id es s) (hes : es ⊆ es') :
    KeptInv id es' s := by
  refine ⟨h.kept.imp_right fun hr ↦ hr.mono hes, fun k c hc hid hph ↦ ?_⟩
  obtain ⟨l, res, hm, hf⟩ := h.finished k c hc hid hph
  exact ⟨l, res, hes hm, hf⟩

theorem KeptInv.step {id : ℕ} {e : Event} (hk : KeptInv id es s) (hi : PopInv s)
    (h : step s e = some t) : KeptInv id (es ++ [e]) t where
  kept := by
    rcases hk.kept with ⟨r, hr⟩ | hrem
    · rcases row_kept hi h hr with ⟨q, hq, -⟩ | ⟨-, rfl | ⟨k, g, rfl, hg, hid⟩⟩
      · exact .inl ⟨q, hq⟩
      · exact .inr (.inl (by simp))
      · obtain ⟨l, res, hm, hf⟩ := hk.finished k _ hg hid rfl
        exact .inr (.inr ⟨l, g, res, List.mem_append_left _ hm, hid, hf⟩)
    · exact .inr hrem.snoc
  finished k c hc hid hph := by
    have hold {d : CompleteCall} (hd : s.completes k = some d) (hg : d.grab = c.grab)
        (hr : d.phase.removing = true) : ∃ l res, .complete l c.grab res ∈ es ++ [e] ∧
          finishes res c.grab.job.retryCount = true := by
      obtain ⟨l, res, hm, hf⟩ := hk.finished k d hd (hg ▸ hid) hr
      exact ⟨l, res, List.mem_append_left _ (hg ▸ hm), hg ▸ hf⟩
    rcases completes_step h k with heq | ⟨d, heq, hm⟩
    · exact hold (heq ▸ hc) rfl hph
    · rw [hc] at heq
      cases heq
      cases hm with
      | @start g res hg => exact ⟨k, res, by simp, by rwa [completePhase_removing] at hph⟩
      | log hl => exact hold hl rfl rfl
      | delete | update => cases hph

theorem push_kept {j : IncomingJob} {a : Bool} (hj : JobsInv s)
    (h : step s (.push j a) = some t) : KeptInv s.table.next [] t := by
  obtain ⟨r, hr, rfl⟩ := push_cases h
  refine ⟨.inl ⟨r, ?_⟩, fun k c hc hid ↦ ?_⟩
  · rw [AutoTable.find_insert (insertJob_jobId hr), if_pos rfl]
  · have := (hj.completing k c hc).1
    omega

def Consistent (r : Row) : Prop :=
  r.status = .claimed ∧ r.grabberId = none ∨ r.status = .grabbed ∧ r.grabberId ≠ none

theorem RowStep.consistent {e : Event} {r q : Row} (h : RowStep s e r q) (hr : Consistent r) :
    Consistent q := by
  cases h with
  | same => exact hr
  | grab => exact .inr ⟨rfl, nofun⟩
  | reschedule _ _ _ _ hst hgr => exact .inl ⟨hst, hgr⟩
  | reclaim => exact .inl ⟨rfl, rfl⟩

theorem consistent_step {e : Event} (hi : PopInv s) (h : step s e = some t)
    (hs : ∀ id r, s.table.find id = some r → Consistent r) (id : ℕ) (q : Row)
    (hq : t.table.find id = some q) : Consistent q := by
  rcases row_step hi h hq with ⟨r, hr, hrow⟩ | ⟨-, -, j, a, -, hins⟩
  · exact hrow.consistent (hs id r hr)
  · exact .inl (insertJob_claimed hins)

theorem Run.consistent (h : Run es s) (id : ℕ) (r : Row) (hr : s.table.find id = some r) :
    Consistent r := by
  refine history (fun _ s ↦ ∀ id r, s.table.find id = some r → Consistent r) ?_ ?_ h id r hr
  · intro id r hr
    cases hr
  · intro xs u e v hu ih hstep
    exact consistent_step (Run.popInv hu) hstep ih

/-- No step but the insertion writes the fixed columns of a row. -/
theorem fixed_eq {u : State} (hi : PopInv u) (h : exec step u es = some s) {id : ℕ}
    (hid : id < u.table.next) {q : Row} (hq : s.table.find id = some q) :
    ∃ r, u.table.find id = some r ∧ q.fixed = r.fixed := by
  have hP := invariant (fun s ↦ PopInv s ∧ id < s.table.next ∧ ∀ q, s.table.find id = some q →
    ∃ r, u.table.find id = some r ∧ q.fixed = r.fixed) ?_ h
    ⟨hi, hid, fun q hq ↦ ⟨q, hq, rfl⟩⟩
  · exact hP.2.2 q hq
  · rintro s e t ⟨hi, hlt, ih⟩ hstep
    refine ⟨step_inv hstep hi, Nat.lt_of_lt_of_le hlt (next_step hstep), fun q hq ↦ ?_⟩
    rcases row_step hi hstep hq with ⟨r, hr, hrow⟩ | ⟨-, hnext, -⟩
    · obtain ⟨r₀, hr₀, hfix⟩ := ih r hr
      exact ⟨r₀, hr₀, hrow.fixed_eq.trans hfix⟩
    · omega

/-- What it means that no accepted job is lost in a run. -/
structure Durable (es : List Event) (s : State) : Prop where
  kept : ∀ xs j ys u v, es = xs ++ .push j true :: ys → Run xs u →
    step u (.push j true) = some v → ¬ Removed ys u.table.next →
    s.table.rows.countP (fun r ↦ r.jobId = u.table.next) = 1
  consistent : ∀ r ∈ s.table.rows,
    r.status = .claimed ∧ r.grabberId = none ∨ r.status = .grabbed ∧ r.grabberId ≠ none
  pushed : ∀ xs j a ys u v, es = xs ++ .push j a :: ys → Run xs u →
    step u (.push j a) = some v → ∃ r, insertJob u.now u.table.next j = some r ∧
      ∀ q, s.table.find u.table.next = some q → q.fixed = r.fixed
  fixed : ∀ xs ys u id r q, es = xs ++ ys → Run xs u → u.table.find id = some r →
    s.table.find id = some q → q.fixed = r.fixed

theorem no_job_lost (h : Run es s) : Durable es s := by
  constructor
  · rintro xs j ys u v rfl hu hpush hrem
    obtain ⟨u', v', hu', hv', hys⟩ := exec_split h
    cases Option.some.inj (hu.symm.trans hu')
    cases Option.some.inj (hpush.symm.trans hv')
    have hv : Run (xs ++ [.push j true]) v := exec_snoc.mpr ⟨u, hu, hpush⟩
    have hP : PopInv s ∧ KeptInv u.table.next ys s := by
      refine history (fun ys s ↦ PopInv s ∧ KeptInv u.table.next ys s)
        ⟨hv.popInv, push_kept (Run.jobsInv hu) hpush⟩ ?_ hys
      rintro zs w e w' - ⟨hi, hk⟩ hstep
      exact ⟨step_inv hstep hi, hk.step hi hstep⟩
    obtain ⟨r, hr⟩ := hP.2.kept.resolve_right hrem
    rw [Table.countP_key, hr]
    rfl
  · intro r hr
    exact h.consistent _ r (Table.find_of_mem hr)
  · rintro xs j a ys u v rfl hu hpush
    obtain ⟨u', v', hu', hv', hys⟩ := exec_split h
    cases Option.some.inj (hu.symm.trans hu')
    cases Option.some.inj (hpush.symm.trans hv')
    have hv : Run (xs ++ [.push j a]) v := exec_snoc.mpr ⟨u, hu, hpush⟩
    obtain ⟨r, hr, rfl⟩ := push_cases hpush
    have hfind : (u.table.insert r).find u.table.next = some r := by
      rw [AutoTable.find_insert (insertJob_jobId hr), if_pos rfl]
    refine ⟨r, hr, fun q hq ↦ ?_⟩
    obtain ⟨r', hr', hfix⟩ := fixed_eq hv.popInv hys (AutoTable.lt_next hfind) hq
    cases Option.some.inj (hfind.symm.trans hr')
    exact hfix
  · rintro xs ys u id r q rfl hu hr hq
    obtain ⟨u', hu', hys⟩ := exec_append.mp h
    cases Option.some.inj (hu.symm.trans hu')
    obtain ⟨r', hr', hfix⟩ := fixed_eq (Run.popInv hu) hys (AutoTable.lt_next hr) hq
    cases Option.some.inj (hr.symm.trans hr')
    exact hfix

def failover : List Event :=
  [.connect 0 7, .tick 5, .push sampleJob true, .popStart 0 0 10, .preselect 0 [1], .beginTx 0,
    .selectForUpdate 0 [sampleRow], .launch 0, .commit 0, .disconnect 0, .connect 1 8,
    .recover 1, .orphans 1 [1], .reclaim 1, .orphans 1 [], .activate 1]

theorem no_job_lost_failover : ∃ s, Run failover s ∧ Durable failover s := by
  obtain ⟨s, hs⟩ := Option.isSome_iff_exists.mp
    (show (exec step .initial failover).isSome = true by decide +kernel)
  exact ⟨s, hs, no_job_lost hs⟩

end Fireworq.MySQL.Cluster
