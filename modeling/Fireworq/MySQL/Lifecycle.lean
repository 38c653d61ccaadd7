import Fireworq.JobQueue.Attempts
import Fireworq.MySQL.View

namespace Fireworq.MySQL.Cluster

open Relational JobQueue GoInt GoEncoding Execution Function

variable {s t : State} {es : List Event} {e : Event} {id : ℕ} {i : IncomingJob}

def tried (id : ℕ) (es : List Event) : List Result := es.filterMap (Event.result id)

theorem tried_snoc (id : ℕ) (es : List Event) (e : Event) :
    tried id (es ++ [e]) = tried id es ++ (e.result id).toList := by
  rw [tried, List.filterMap_append, tried]
  cases h : e.result id <;> simp [h]

def logged (id : ℕ) (es : List Event) : List FailedRow :=
  collect (State.entry id) step .initial es

section Stage

structure Counted (id : ℕ) (i : IncomingJob) (n : ℕ) (r : Row) : Prop where
  jobId : r.jobId = id
  retryDelay : r.retryDelay = i.retryDelay
  retryCount : r.retryCount = i.retryCount - n
  failCount : r.failCount = n

def Logged (id : ℕ) (rs : List Result) (res : Result) (log : List FailedRow) : Prop :=
  if res.isSuccess then log = []
  else ∃ f, log = [f] ∧ f.jobId = id ∧ f.result = res ∧ f.failCount = rs.length + 1

def only {α : Type} (k : ℕ) (a : α) : ℕ → Option α := update (fun _ ↦ none) k (some a)

/-- Where a job is after attempts with these results and these entries in the
failure log. -/
inductive Stage (id : ℕ) (i : IncomingJob) : List Result → List FailedRow → View → Prop
  | waiting {rs : List Result} {r : Row} : Going i.retryCount rs → Counted id i rs.length r →
      r.status = .claimed → Stage id i rs [] ⟨some r, fun _ ↦ none, [], fun _ ↦ none⟩
  | popped {rs : List Result} {r : Row} {p : ℕ} : Going i.retryCount rs →
      Counted id i rs.length r → r.status = .grabbed →
      Stage id i rs [] ⟨some r, only p (Job.scan r), [], fun _ ↦ none⟩
  | held {rs : List Result} {r : Row} {g : Grab} : Going i.retryCount rs →
      Counted id i rs.length r → r.status = .grabbed → g.job = Job.scan r →
      Stage id i rs [] ⟨some r, fun _ ↦ none, [g], fun _ ↦ none⟩
  | updating {rs : List Result} {r : Row} {k : ℕ} {g : Grab} {res : Result} :
      Going i.retryCount rs → Counted id i rs.length r → r.status = .grabbed →
      completion res (i.retryCount - rs.length) = .retry →
      Stage id i (rs ++ [res]) [] ⟨some r, fun _ ↦ none, [],
        only k ⟨g, .updating (nextJob r.retryDelay r.retryCount r.failCount)⟩⟩
  | logging {rs : List Result} {r : Row} {k : ℕ} {g : Grab} {res : Result} :
      Going i.retryCount rs → r.status = .grabbed → g.job.failCount = rs.length →
      completion res (i.retryCount - rs.length) = .failPermanently →
      Stage id i (rs ++ [res]) [] ⟨some r, fun _ ↦ none, [], only k ⟨g, .logging res⟩⟩
  | deleting {rs : List Result} {r : Row} {k : ℕ} {g : Grab} {res : Result}
      {log : List FailedRow} : Going i.retryCount rs → r.status = .grabbed →
      completion res (i.retryCount - rs.length) ≠ .retry → Logged id rs res log →
      Stage id i (rs ++ [res]) log ⟨some r, fun _ ↦ none, [], only k ⟨g, .deleting⟩⟩
  | gone {rs : List Result} {res : Result} {log : List FailedRow} : Going i.retryCount rs →
      completion res (i.retryCount - rs.length) ≠ .retry → Logged id rs res log →
      Stage id i (rs ++ [res]) log ⟨none, fun _ ↦ none, [], fun _ ↦ none⟩

theorem only_eq {α : Type} {k l : ℕ} {a b : α} (h : only k a l = some b) : l = k ∧ b = a := by
  by_cases hl : l = k
  · subst hl
    rw [only, update_self] at h
    exact ⟨rfl, (Option.some.inj h).symm⟩
  · rw [only, update_of_ne hl] at h
    cases h

theorem only_self {α : Type} (k : ℕ) (a : α) : only k a k = some a := update_self ..

theorem only_update {α : Type} (k : ℕ) (a b : α) : update (only k a) k (some b) = only k b :=
  update_idem _ _ _

theorem only_remove {α : Type} (k : ℕ) (a : α) : update (only k a) k none = fun _ ↦ none := by
  rw [only, update_idem, update_eq_self_iff]

variable {rs : List Result} {fs : List FailedRow} {v : View} {k p now : ℕ} {g : Grab} {r : Row}

theorem Stage.grab {c : ℕ} (h : Stage id i rs fs v) (hr : v.row = some r)
    (hst : r.status = .claimed) :
    Stage id i rs fs { v with
      row := some { r with status := .grabbed, grabberId := some c }
      copies := update v.copies p (some (Job.scan r)) } := by
  cases h with
  | waiting hg hc _ =>
    cases hr
    exact .popped hg ⟨hc.jobId, hc.retryDelay, hc.retryCount, hc.failCount⟩ rfl
  | popped _ _ hgr | held _ _ hgr | updating _ _ hgr | logging _ hgr | deleting _ hgr =>
    cases hr
    rw [hst] at hgr
    cases hgr
  | gone => cases hr

theorem Stage.hand (h : Stage id i rs fs v) (hp : v.copies p = some g.job) :
    Stage id i rs fs { v with
      copies := update v.copies p none
      held := v.held ++ [g] } := by
  cases h with
  | popped hg hc hgr =>
    obtain ⟨rfl, hj⟩ := only_eq hp
    dsimp only
    rw [only_remove]
    exact .held hg hc hgr hj
  | waiting | held | updating | logging | deleting | gone => cases hp

theorem Stage.complete {res : Result} (h : Stage id i rs fs v) (hg : g ∈ v.held) :
    Stage id i (rs ++ [res]) fs { v with
      held := v.held.erase g
      calls := update v.calls k (some ⟨g, completePhase g res⟩) } := by
  cases h with
  | @held _ r g' hgo hc hgr hj =>
    obtain rfl := List.mem_singleton.mp hg
    have hretry : g.job.retryCount = i.retryCount - rs.length := by
      rw [hj]
      exact hc.retryCount
    have hfail : g.job.failCount = rs.length := by
      rw [hj]
      exact hc.failCount
    dsimp only
    rw [List.erase_cons_head, completePhase, hretry]
    cases hcom : completion res (i.retryCount - rs.length) with
    | succeed =>
      refine .deleting hgo hgr (by rw [hcom]; nofun) ?_
      rw [Logged, if_pos (completion_succeed.mp hcom)]
    | failPermanently => exact .logging hgo hgr hfail hcom
    | retry =>
      have hnext : nextJob g.job.retryDelay (i.retryCount - rs.length) g.job.failCount =
          nextJob r.retryDelay r.retryCount r.failCount := by
        rw [hj, ← hc.retryCount]
        rfl
      rw [hnext]
      exact .updating hgo hc hgr hcom
  | waiting | popped | updating | logging | deleting | gone => cases hg

theorem Stage.log {res : Result} {f : FailedRow} (h : Stage id i rs fs v)
    (hk : v.calls k = some ⟨g, .logging res⟩) (hid : f.jobId = id) (hres : f.result = res)
    (hf : f.failCount = g.job.failCount + 1) :
    Stage id i rs (fs ++ [f]) { v with calls := update v.calls k (some ⟨g, .deleting⟩) } := by
  cases h with
  | logging hgo hgr hfail hcom =>
    obtain ⟨rfl, hc⟩ := only_eq hk
    cases hc
    dsimp only
    rw [only_update]
    refine .deleting hgo hgr (by rw [hcom]; nofun) ?_
    have hfailed : ¬ res.isSuccess = true := fun hs ↦ by
      rw [completion_succeed.mpr hs] at hcom
      cases hcom
    rw [Logged, if_neg hfailed]
    exact ⟨f, rfl, hid, hres, by rw [hf, hfail]⟩
  | updating | deleting => cases (only_eq hk).2
  | waiting | popped | held | gone => cases hk

theorem Stage.delete (h : Stage id i rs fs v) (hk : v.calls k = some ⟨g, .deleting⟩) :
    Stage id i rs fs { v with row := none, calls := update v.calls k none } := by
  cases h with
  | deleting hgo _ hcom hlog =>
    obtain ⟨rfl, -⟩ := only_eq hk
    dsimp only
    rw [only_remove]
    exact .gone hgo hcom hlog
  | updating | logging => cases (only_eq hk).2
  | waiting | popped | held | gone => cases hk

/-- `Update` counts the attempt and makes the job wait for its retry delay. -/
theorem Stage.retry {next : NextInfo} (h : Stage id i rs fs v)
    (hk : v.calls k = some ⟨g, .updating next⟩) (hs : storable now next) :
    Stage id i rs fs { v with
      row := v.row.map (updateJob now id next)
      calls := update v.calls k none } := by
  cases h with
  | @updating rs r _ _ res hgo hc hgr hcom =>
    obtain ⟨rfl, hcall⟩ := only_eq hk
    rw [CompleteCall.mk.injEq, CompletePhase.updating.injEq] at hcall
    obtain ⟨-, rfl⟩ := hcall
    have hfits := r.fits
    have hpos : 0 < r.retryCount := by
      rw [hc.retryCount]
      exact retryCount_pos hcom
    have hnext := nextJob_eq (d := r.retryDelay) (r := r.retryCount) (f := r.failCount)
      (by omega) hpos (by omega) (by omega)
    dsimp only
    rw [only_remove, Option.map_some, updateJob, dif_pos ⟨hc.jobId, hs⟩]
    refine .waiting (hgo.snoc hcom) ⟨hc.jobId, hc.retryDelay, ?_, ?_⟩ rfl
    · dsimp only
      rw [hnext, hc.retryCount, List.length_append, List.length_singleton]
      dsimp only
      omega
    · dsimp only
      rw [hnext, hc.failCount, List.length_append, List.length_singleton]
  | logging | deleting => cases (only_eq hk).2
  | waiting | popped | held | gone => cases hk

theorem Stage.step {out : Option Result} {entries : List FailedRow} {v' : View}
    (h : Stage id i rs fs v) (hm : JobMove now id v out entries v') :
    Stage id i (rs ++ out.toList) (fs ++ entries) v' := by
  cases hm with
  | same => simpa using h
  | grab hr hst => simpa using h.grab hr hst
  | hand hp => simpa using h.hand hp
  | complete hg _ => simpa using h.complete hg
  | log hk hid hres hf => simpa using h.log hk hid hres hf
  | delete hk => simpa using h.delete hk
  | retry hk hs => simpa using h.retry hk hs

theorem Stage.going_or_ended (h : Stage id i rs fs v) :
    Going i.retryCount rs ∨ Ended i.retryCount rs := by
  cases h with
  | waiting hg | popped hg | held hg => exact .inl hg
  | updating hg _ _ hcom => exact .inl (hg.snoc hcom)
  | logging hg _ _ hcom => exact .inr (hg.ended (by rw [hcom]; nofun))
  | deleting hg _ hcom | gone hg hcom => exact .inr (hg.ended hcom)

theorem Stage.held_eq (h : Stage id i rs fs v) (hg : g ∈ v.held) :
    v.held = [g] ∧ Going i.retryCount rs ∧ g.job.failCount = rs.length ∧ rs.length < 2 ^ 32 := by
  cases h with
  | @held _ r g' hgo hc _ hj =>
    obtain rfl := List.mem_singleton.mp hg
    have hfail : g.job.failCount = r.failCount := by
      rw [hj]
      rfl
    have hfits := r.fits
    have hlen := hc.failCount
    exact ⟨rfl, hgo, hfail.trans hlen, by omega⟩
  | waiting | popped | updating | logging | deleting | gone => cases hg

theorem Stage.kept (h : Stage id i rs fs v) (hne : ¬ Ended i.retryCount rs) :
    ∃ r, v.row = some r ∧ (r.status = .claimed ∨ (∃ p j, v.copies p = some j) ∨ (∃ g, g ∈ v.held) ∨
      ∃ k g next, v.calls k = some ⟨g, .updating next⟩) := by
  cases h with
  | waiting _ _ hst => exact ⟨_, rfl, .inl hst⟩
  | @popped _ r p => exact ⟨_, rfl, .inr (.inl ⟨p, Job.scan r, only_self ..⟩)⟩
  | @held _ _ g => exact ⟨_, rfl, .inr (.inr (.inl ⟨g, List.mem_cons_self⟩))⟩
  | @updating _ r k g => exact ⟨_, rfl, .inr (.inr (.inr ⟨k, g, _, only_self ..⟩))⟩
  | logging hg _ _ hcom => exact absurd (hg.ended (by rw [hcom]; nofun)) hne
  | deleting hg _ hcom | gone hg hcom => exact absurd (hg.ended hcom) hne

theorem Stage.removed (h : Stage id i rs fs v) (hne : ¬ Going i.retryCount rs) :
    (∀ p, v.copies p = none) ∧ v.held = [] ∧ (v.row = none ∨ ∃ k g phase,
      v.calls k = some ⟨g, phase⟩ ∧ (phase = .deleting ∨ ∃ res, phase = .logging res)) := by
  cases h with
  | waiting hg | popped hg | held hg => exact absurd hg hne
  | updating hg _ _ hcom => exact absurd (hg.snoc hcom) hne
  | @logging _ _ k g res =>
    exact ⟨fun _ ↦ rfl, rfl, .inr ⟨k, g, _, only_self .., .inr ⟨res, rfl⟩⟩⟩
  | @deleting _ _ k g => exact ⟨fun _ ↦ rfl, rfl, .inr ⟨k, g, _, only_self .., .inl rfl⟩⟩
  | gone => exact ⟨fun _ ↦ rfl, rfl, .inl rfl⟩

theorem Stage.entries (h : Stage id i rs fs v) : (fs = [] ∧ v.row ≠ none) ∨
    ∃ init last, rs = init ++ [last] ∧ Ended i.retryCount rs ∧ Logged id init last fs := by
  cases h with
  | waiting | popped | held | updating | logging => exact .inl ⟨rfl, nofun⟩
  | deleting hg _ hcom hlog | gone hg hcom hlog => exact .inr ⟨_, _, rfl, hg.ended hcom, hlog⟩

theorem Stage.entries_last {results : ℕ → Result} {n : ℕ} (h : Stage id i rs fs v)
    (hrec : Recorded results rs) (hn : n = attempts i.retryCount results) :
    (fs = [] ∧ v.row ≠ none) ∨ rs.length = n ∧ if (results n).isSuccess then fs = []
      else ∃ f, fs = [f] ∧ f.jobId = id ∧ f.result = results n ∧ f.failCount = n := by
  rcases h.entries with hnil | ⟨init, last, rfl, hend, hlog⟩
  · exact .inl hnil
  · have hlen : init.length + 1 = n := by
      rw [hn, ← hend.eq_attempts hrec, List.length_append, List.length_singleton]
    have hres : last = results n := by
      rw [← hlen]
      exact hrec init.length last (by simp)
    refine .inr ⟨by rw [List.length_append, List.length_singleton, hlen], ?_⟩
    rwa [Logged, hres, hlen] at hlog

theorem Stage.rescheduled {next : NextInfo} (h : Stage id i rs fs v)
    (hk : v.calls k = some ⟨g, .updating next⟩) :
    Going i.retryCount rs ∧ (∃ r, v.row = some r ∧ r.jobId = id) ∧
      next.nextDelay = 1000 * i.retryDelay ∧ next.failCount = rs.length := by
  cases h with
  | @updating rs r _ _ res hgo hc hgr hcom =>
    obtain ⟨-, hcall⟩ := only_eq hk
    rw [CompleteCall.mk.injEq, CompletePhase.updating.injEq] at hcall
    have hfits := r.fits
    have hpos : 0 < r.retryCount := by
      rw [hc.retryCount]
      exact retryCount_pos hcom
    rw [hcall.2, nextJob_eq (by omega) hpos (by omega) (by omega), List.length_append,
      List.length_singleton, hc.retryDelay, hc.failCount]
    exact ⟨hgo.snoc hcom, ⟨r, rfl, hc.jobId⟩, rfl, rfl⟩
  | logging | deleting => cases (only_eq hk).2
  | waiting | popped | held | gone => cases hk

end Stage

section Log

variable {f : FailedRow}

theorem entry_addFailure (id : ℕ) {k failedAt : ℕ} {ok : Bool}
    (h : step s (.addFailure k failedAt ok) = some t) :
    (t.failures = s.failures ∧ s.entry id (.addFailure k failedAt ok) = []) ∨
      ∃ f, f.failureId = s.failures.next ∧ t.failures = s.failures.insert f ∧
        s.entry id (.addFailure k failedAt ok) = if f.jobId = id then [f] else [] := by
  simp only [step, addFailure] at h
  split at h
  · rename_i g res hk
    cases h
    cases ok with
    | false => exact .inl ⟨rfl, rfl⟩
    | true =>
      refine .inr ⟨_, rfl, rfl, ?_⟩
      simp only [State.entry, hk]
      rfl
  · cases h

theorem mem_failures_step (h : step s e = some t) (hid : f.jobId = id)
    (hf : f ∈ t.failures.rows) : f ∈ s.failures.rows ∨ f ∈ s.entry id e := by
  cases e with
  | addFailure k failedAt ok =>
    rcases entry_addFailure id h with ⟨ht, -⟩ | ⟨f', -, ht, hentry⟩
    · exact .inl (ht ▸ hf)
    · rw [ht] at hf
      rcases AutoTable.mem_insert hf with hf | rfl
      · exact .inl hf
      · rw [hentry, if_pos hid]
        exact .inr List.mem_cons_self
  | deleteFailure failureId =>
    cases h
    exact .inl (Table.mem_delete.mp hf).1
  | _ =>
    rw [failures_frame h nofun nofun] at hf
    exact .inl hf

theorem entry_mem (h : step s e = some t) (hf : f ∈ s.entry id e) : f ∈ t.failures.rows := by
  cases e with
  | addFailure k failedAt ok =>
    rcases entry_addFailure id h with ⟨-, hentry⟩ | ⟨f', hnext, ht, hentry⟩
    · rw [hentry] at hf
      cases hf
    · rw [hentry] at hf
      split at hf
      · cases List.mem_singleton.mp hf
        rw [ht, AutoTable.rows_insert hnext]
        simp
      · cases hf
  | _ => cases hf

theorem failures_kept (h : step s e = some t) (hf : f ∈ s.failures.rows) :
    f ∈ t.failures.rows ∨ e = .deleteFailure f.failureId := by
  cases e with
  | addFailure k failedAt ok =>
    rcases entry_addFailure f.jobId h with ⟨ht, -⟩ | ⟨f', hnext, ht, -⟩
    · exact .inl (ht ▸ hf)
    · rw [ht, AutoTable.rows_insert hnext]
      exact .inl (List.mem_append_left _ hf)
  | deleteFailure failureId =>
    cases h
    by_cases hid : f.failureId = failureId
    · exact .inr (by rw [hid])
    · exact .inl (Table.mem_delete.mpr ⟨hf, hid⟩)
  | _ =>
    rw [failures_frame h nofun nofun]
    exact .inl hf

/-- The log has the entries that the run has added, up to those that were deleted. -/
theorem Run.mem_logged (id : ℕ) (h : Run es s) :
    (∀ f ∈ s.failures.rows, f.jobId = id → f ∈ logged id es) ∧
      ∀ f ∈ logged id es, f ∈ s.failures.rows ∨ .deleteFailure f.failureId ∈ es := by
  refine history (fun es s ↦ (∀ f ∈ s.failures.rows, f.jobId = id → f ∈ logged id es) ∧
    ∀ f ∈ logged id es, f ∈ s.failures.rows ∨ .deleteFailure f.failureId ∈ es) ?_
    (fun xs u e v hu ih hv ↦ ?_) h
  · exact ⟨nofun, nofun⟩
  have hlog : logged id (xs ++ [e]) = logged id xs ++ u.entry id e :=
    collect_snoc (State.entry id) hu e
  rw [hlog]
  refine ⟨fun f hf hid ↦ ?_, fun f hf ↦ ?_⟩
  · rcases mem_failures_step hv hid hf with hf | hf
    · exact List.mem_append_left _ (ih.1 f hf hid)
    · exact List.mem_append_right _ hf
  · rcases List.mem_append.mp hf with hf | hf
    · rcases ih.2 f hf with hf | hdel
      · rcases failures_kept hv hf with hf | rfl
        · exact .inl hf
        · exact .inr (List.mem_append_right _ List.mem_cons_self)
      · exact .inr (List.mem_append_left _ hdel)
    · exact .inl (entry_mem hv hf)

end Log

section Runs

variable {results : ℕ → Result}

theorem untried_step (hj : JobsInv s) (hid : s.table.next ≤ id) (h : step s e = some t) :
    e.result id = none ∧ s.entry id e = [] := by
  cases e with
  | complete k g res =>
    obtain ⟨hg, -, -⟩ := complete_cases h
    have hlt := (hj.held g hg).1
    exact ⟨if_neg (by omega), rfl⟩
  | addFailure k failedAt ok =>
    refine ⟨rfl, ?_⟩
    obtain ⟨g, res, failures, hk, -⟩ := addFailure_cases h
    have hlt : g.job.id < s.table.next := (hj.completing k _ hk).1
    cases ok with
    | false => rfl
    | true => simp only [State.entry, hk, if_neg (show g.job.id ≠ id by omega)]
  | _ => exact ⟨rfl, rfl⟩

theorem view_fresh (hj : JobsInv s) (hid : s.table.next ≤ id) :
    s.view id = ⟨none, fun _ ↦ none, [], fun _ ↦ none⟩ := by
  refine View.ext (AutoTable.find_eq_none hid) (funext fun p ↦ ?_) ?_ (funext fun k ↦ ?_)
  · change (s.phase p).bind _ = none
    cases hp : s.phase p with
    | none => rfl
    | some phase =>
      cases phase with
      | committed session results =>
        refine find_copy_none fun hmem ↦ ?_
        obtain ⟨j, hj', rfl⟩ := List.mem_map.mp hmem
        exact absurd (hj.popped p _ hp j hj').1 (Nat.not_lt.mpr hid)
      | _ => rfl
  · refine List.filter_eq_nil_iff.mpr fun g hg ↦ ?_
    have hlt := (hj.held g hg).1
    simp only [decide_eq_true_eq]
    omega
  · change (s.completes k).filter _ = none
    cases hk : s.completes k with
    | none => rfl
    | some c =>
      have hlt := (hj.completing k c hk).1
      rw [Option.filter_eq_none_iff]
      intro c' hc'
      cases hc'
      simp only [Bool.and_eq_true, decide_eq_true_eq]
      omega

theorem next_push (h : step s e = some t) (hs : s.table.next ≤ id) (ht : id < t.table.next) :
    ∃ i a r, e = .push i a ∧ s.table.next = id ∧ insertJob s.now id i = some r ∧
      t = { s with table := s.table.insert r } := by
  have hw := step_writes h
  generalize hT : t.table = T at hw ht
  cases hw with
  | @insert i a r hn =>
    rw [AutoTable.next_insert (insertJob_jobId hn)] at ht
    obtain rfl : s.table.next = id := by omega
    obtain ⟨r, hr, ht⟩ := push_cases h
    exact ⟨i, a, r, rfl, rfl, hr, ht⟩
  | same | publish | delete | update | inspectorDelete | reclaim =>
    exact absurd ht (Nat.not_lt.mpr hs)

structure StageInv (id : ℕ) (es : List Event) (s : State) : Prop where
  fresh : s.table.next ≤ id → tried id es = [] ∧ logged id es = []
  stage : 0 < id → id < s.table.next →
    ∃ i, Pushed es id i ∧ Stage id i (tried id es) (logged id es) (s.view id)

def CalmRun (id : ℕ) (es : List Event) : Prop :=
  Along step (fun s e ↦ id < s.table.next → Calm id s e) .initial es

/-- Events that neither lose nor refuse a statement, delete nothing by hand and
recover nothing are calm. -/
theorem along_calm (hlost : ∀ p, .commitLost p ∉ es)
    (hadd : ∀ k failedAt, .addFailure k failedAt false ∉ es) (hdel : ∀ k, .delete k false ∉ es)
    (hupdate : ∀ k ok, .update k ok ∉ es) (hins : .inspectorDelete id ∉ es)
    (hreclaim : ∀ node, .reclaim node ∉ es) (s : State) :
    Along step (fun s e ↦ id < s.table.next → Calm id s e) s es := by
  refine Along.of_forall (fun e he s _ ↦ ⟨?_, ?_, ?_, ?_, ?_⟩) s
  · intro p _ _ _ h
    exact absurd (h ▸ he) (hlost p)
  · intro k _ _ _
    exact ⟨fun failedAt h ↦ hadd k failedAt (h ▸ he), fun h ↦ hdel k (h ▸ he),
      fun h ↦ hupdate k false (h ▸ he)⟩
  · intro k _ _ h
    exact absurd (h ▸ he) (hupdate k true)
  · intro h
    exact hins (h ▸ he)
  · intro node _ _ h
    exact absurd (h ▸ he) (hreclaim node)

theorem StageInv.step (hi : StageInv id es s) (hs : Run es s)
    (hc : id < s.table.next → Calm id s e) (h : step s e = some t) :
    StageInv id (es ++ [e]) t := by
  have hlog : logged id (es ++ [e]) = logged id es ++ s.entry id e :=
    collect_snoc (State.entry id) hs e
  have hle := next_step h
  rcases Nat.lt_or_ge id s.table.next with hlt | hge
  · refine ⟨fun hge ↦ absurd (Nat.lt_of_lt_of_le hlt hle) (Nat.not_lt.mpr hge), fun hpos _ ↦ ?_⟩
    obtain ⟨i, hpush, hstage⟩ := hi.stage hpos hlt
    refine ⟨i, hpush.snoc, ?_⟩
    rw [tried_snoc, hlog]
    exact hstage.step (view_step hs.popInv hlt (hc hlt) h)
  · obtain ⟨hres, hentry⟩ := untried_step hs.jobsInv hge h
    obtain ⟨htried, hlogged⟩ := hi.fresh hge
    have hnone : tried id (es ++ [e]) = [] ∧ logged id (es ++ [e]) = [] := by
      rw [tried_snoc, hlog, hres, hentry, htried, hlogged]
      exact ⟨rfl, rfl⟩
    refine ⟨fun _ ↦ hnone, fun _ hlt ↦ ?_⟩
    obtain ⟨i, a, r, rfl, hid, hr, ht⟩ := next_push h hge hlt
    refine ⟨i, ⟨es, a, [], s, t, rfl, hs, h, hid⟩, ?_⟩
    have hview : t.view id = ⟨some r, fun _ ↦ none, [], fun _ ↦ none⟩ := by
      have hbefore := view_fresh hs.jobsInv hge
      have hcopies : (s.view id).copies = fun _ ↦ none := congrArg View.copies hbefore
      have hheld : (s.view id).held = [] := congrArg View.held hbefore
      have hcalls : (s.view id).calls = fun _ ↦ none := congrArg View.calls hbefore
      rw [ht]
      refine View.ext ?_ hcopies hheld hcalls
      refine (AutoTable.find_insert ((insertJob_jobId hr).trans hid.symm) id).trans ?_
      exact if_pos hid.symm
    rw [hnone.1, hnone.2, hview]
    refine .waiting .nil ?_ (insertJob_claimed hr).1
    unfold insertJob at hr
    split at hr <;> cases hr
    exact ⟨rfl, rfl, rfl, rfl⟩

theorem Run.stageInv (h : Run es s) (hc : CalmRun id es) : StageInv id es s := by
  refine Along.history (StageInv id) ?_ (fun xs u e v hu hi hcalm hv ↦ hi.step hu hcalm hv) hc h
  exact ⟨fun _ ↦ ⟨rfl, rfl⟩, fun hpos hlt ↦ absurd (Nat.lt_one_iff.mp hlt) (Nat.ne_of_gt hpos)⟩

theorem next_pos (h : Run es s) : 0 < s.table.next := by
  refine invariant (fun s ↦ 0 < s.table.next) (fun u e v hu hv ↦ ?_) h Nat.one_pos
  exact Nat.lt_of_lt_of_le hu (next_step hv)

theorem Run.stage (h : Run es s) (hc : CalmRun id es) (hp : Pushed es id i) :
    Stage id i (tried id es) (logged id es) (s.view id) := by
  have hid : 0 < id ∧ id < s.table.next := by
    obtain ⟨xs, a, ys, u, v, rfl, hu, -, rfl⟩ := hp
    exact ⟨next_pos hu, next_lt_of_push hu h⟩
  obtain ⟨j, hpush, hstage⟩ := (h.stageInv hc).stage hid.1 hid.2
  rwa [hp.unique hpush]

/-- The attempts of a job whose attempts have the given results, in a state that
the run `es` reaches. -/
structure Lifecycle (results : ℕ → Result) (id : ℕ) (i : IncomingJob) (es : List Event)
    (s : State) : Prop where
  bounded : (tried id es).length ≤ attempts i.retryCount results
  /-- A worker that has the job makes the next attempt. -/
  attempt : ∀ g ∈ s.held, g.job.id = id → (s.held.countP fun g ↦ g.job.id = id) = 1 ∧
    (tried id es).length < attempts i.retryCount results ∧
    xAttempt g.job.failCount = formatUint ((tried id es).length + 1)
  /-- Before the last attempt the job waits, is on its way to a worker, or is
  going to wait again by the call that completes it. -/
  kept : (tried id es).length < attempts i.retryCount results →
    ∃ r, s.table.find id = some r ∧ (r.status = .claimed ∨
      (∃ p j, (s.phase p).bind (PopPhase.copy id) = some j) ∨ (∃ g ∈ s.held, g.job.id = id) ∨
      ∃ k g next, s.completes k = some ⟨g, .updating next⟩ ∧ g.job.id = id)
  /-- After the last attempt nobody has the job, and its row is gone as soon as
  the call that completes it is done. -/
  removed : (tried id es).length = attempts i.retryCount results →
    (∀ p, (s.phase p).bind (PopPhase.copy id) = none) ∧ (∀ g ∈ s.held, g.job.id ≠ id) ∧
    (s.table.find id = none ∨ ∃ k g phase, s.completes k = some ⟨g, phase⟩ ∧ g.job.id = id ∧
      (phase = .deleting ∨ ∃ res, phase = .logging res))
  rescheduled : ∀ xs k ys u v g next, es = xs ++ .update k true :: ys → Run xs u →
    step u (.update k true) = some v → u.completes k = some ⟨g, .updating next⟩ →
    g.job.id = id →
    (tried id xs).length < attempts i.retryCount results ∧ ∃ r, v.table.find id = some r ∧
      r.status = .claimed ∧ r.nextTry = u.now + 1000 * i.retryDelay ∧
      r.failCount = (tried id xs).length
  /-- The log gets at most one entry for the job, after the last attempt. -/
  entries : (logged id es).length ≤ 1 ∧ ∀ f ∈ logged id es,
    (tried id es).length = attempts i.retryCount results ∧ f.jobId = id ∧
    f.result = results (attempts i.retryCount results) ∧ f.result.isSuccess = false ∧
    f.failCount = attempts i.retryCount results
  /-- It has got one when the job is gone, unless the last attempt was a success. -/
  written : s.table.find id = none →
    ((logged id es).length = 1 ↔ (results (attempts i.retryCount results)).isSuccess = false)
  stored : ∀ f, f.jobId = id → (f ∈ s.failures.rows → f ∈ logged id es) ∧
    (f ∈ logged id es → f ∈ s.failures.rows ∨ .deleteFailure f.failureId ∈ es)

theorem calls_some {k : ℕ} {c : CompleteCall} (h : (s.view id).calls k = some c) :
    s.completes k = some c ∧ c.grab.job.id = id := by
  obtain ⟨hk, hc⟩ := Option.filter_eq_some_iff.mp h
  simp only [Bool.and_eq_true, decide_eq_true_eq] at hc
  exact ⟨hk, hc.1⟩

theorem mem_view_held {g : Grab} : g ∈ (s.view id).held ↔ g ∈ s.held ∧ g.job.id = id := by
  simp [State.view]

theorem Pushed.before {xs ys : List Event} {k : ℕ} {c : CompleteCall}
    (h : Pushed (xs ++ ys) id i) (hs : Run xs s) (hk : s.completes k = some c)
    (hid : c.grab.job.id = id) : Pushed xs id i := by
  have hlt : id < s.table.next := hid ▸ (hs.jobsInv.completing k c hk).1
  obtain ⟨zs, a, ws, u, v, heq, hu, hv, rfl⟩ := h
  rcases List.append_eq_append_iff.mp heq with ⟨as, rfl, -⟩ | ⟨as, rfl, has⟩
  · obtain ⟨s', hs', has⟩ := exec_append.mp hu
    cases Option.some.inj (Eq.trans (Eq.symm hs) hs')
    have hle := invariant (fun t ↦ s.table.next ≤ t.table.next)
      (fun u e v hu hv ↦ Nat.le_trans hu (next_step hv)) has (Nat.le_refl _)
    omega
  · cases as with
    | nil =>
      rw [List.append_nil] at hs
      cases Option.some.inj (Eq.trans (Eq.symm hs) hu)
      exact absurd hlt (Nat.lt_irrefl _)
    | cons e as =>
      rw [List.cons_append, List.cons.injEq] at has
      rw [← has.1]
      exact ⟨zs, a, as, u, v, rfl, hu, hv, rfl⟩

theorem Run.rescheduled {k : ℕ} {g : Grab} {next : NextInfo} (h : Run es s) (hc : CalmRun id es)
    (hp : Pushed es id i) (hcalm : Calm id s (.update k true))
    (hstep : step s (.update k true) = some t) (hk : s.completes k = some ⟨g, .updating next⟩)
    (hid : g.job.id = id) (hrec : Recorded results (tried id es)) :
    (tried id es).length < attempts i.retryCount results ∧ ∃ r, t.table.find id = some r ∧
      r.status = .claimed ∧ r.nextTry = s.now + 1000 * i.retryDelay ∧
      r.failCount = (tried id es).length := by
  have hcall : (s.view id).calls k = some ⟨g, .updating next⟩ := by
    rw [calls_eq id hk, CompleteCall.pending, if_pos (by simp [hid, CompletePhase.active])]
  obtain ⟨hgo, ⟨r, hr, hrid⟩, hdelay, hfail⟩ := (h.stage hc hp).rescheduled hcall
  have hs := hcalm.storable k g next rfl hk hid
  refine ⟨hgo.lt_attempts hrec, updateJob s.now id next r, ?_, ?_⟩
  · obtain ⟨g', next', hk', -, rfl⟩ := updateStmt_cases hstep
    cases Option.some.inj (hk.symm.trans hk')
    refine (AutoTable.find_update id).trans ?_
    change (s.view id).row.map _ = _
    rw [hr, Option.map_some, hid]
  · rw [updateJob, dif_pos ⟨hrid, hs⟩, ← hdelay, ← hfail]
    exact ⟨rfl, rfl, rfl⟩

/-- The lifecycle of a job on one active node without fail-over. -/
theorem Run.lifecycle (h : Run es s) (hc : CalmRun id es) (hp : Pushed es id i)
    (hrec : Recorded results (tried id es)) : Lifecycle results id i es s := by
  have hstage := h.stage hc hp
  have hlt (hg : Going i.retryCount (tried id es)) := hg.lt_attempts hrec
  have heq (he : Ended i.retryCount (tried id es)) := he.eq_attempts hrec
  have hentries := hstage.entries_last hrec rfl
  refine ⟨?_, fun g hg hid ↦ ?_, fun hl ↦ ?_, fun hl ↦ ?_, ?_, ?_, fun hgone ↦ ?_, fun f hf ↦ ?_⟩
  · rcases hstage.going_or_ended with hg | he
    · exact Nat.le_of_lt (hlt hg)
    · exact Nat.le_of_eq (heq he)
  · obtain ⟨hheld, hgo, hfail, hlen⟩ := hstage.held_eq (mem_view_held.mpr ⟨hg, hid⟩)
    refine ⟨?_, hlt hgo, ?_⟩
    · rw [List.countP_eq_length_filter]
      exact congrArg List.length hheld
    · rw [hfail, xAttempt_eq (by omega)]
  · have hne : ¬ Ended i.retryCount (tried id es) := fun he ↦ absurd (heq he) (Nat.ne_of_lt hl)
    obtain ⟨r, hr, hplace⟩ := hstage.kept hne
    refine ⟨r, hr, hplace.imp_right (.imp_right (.imp ?_ ?_))⟩
    · exact fun ⟨g, hg⟩ ↦ ⟨g, mem_view_held.mp hg⟩
    · exact fun ⟨k, g, next, hk⟩ ↦ ⟨k, g, next, calls_some hk⟩
  · have hne : ¬ Going i.retryCount (tried id es) := fun hg ↦ absurd hl (Nat.ne_of_lt (hlt hg))
    obtain ⟨hcopies, hheld, hrow⟩ := hstage.removed hne
    refine ⟨hcopies, fun g hg hid ↦ ?_, hrow.imp_right ?_⟩
    · have hmem := mem_view_held.mpr ⟨hg, hid⟩
      rw [hheld] at hmem
      cases hmem
    · exact fun ⟨k, g, phase, hk, hphase⟩ ↦
        ⟨k, g, phase, (calls_some hk).1, (calls_some hk).2, hphase⟩
  · intro xs k ys u v g next hes hu hv hk hid
    subst hes
    have hrec' : Recorded results (tried id xs) := by
      rw [tried, List.filterMap_append] at hrec
      exact hrec.of_append
    have hlt := hid ▸ (hu.jobsInv.completing k _ hk).1
    exact hu.rescheduled (hc.split hu).1 (hp.before hu hk hid) (hc.at hu hlt) hv hk hid hrec'
  · rcases hentries with ⟨hnil, -⟩ | ⟨hlen, hlog⟩
    · rw [hnil]
      exact ⟨Nat.zero_le 1, nofun⟩
    · split at hlog
      · rw [hlog]
        exact ⟨Nat.zero_le 1, nofun⟩
      · next hfailed =>
        obtain ⟨f, hfs, hid, hres, hfail⟩ := hlog
        rw [hfs]
        refine ⟨Nat.le_refl 1, fun f' hf' ↦ ?_⟩
        cases List.mem_singleton.mp hf'
        refine ⟨hlen, hid, hres, ?_, hfail⟩
        rw [hres]
        exact Bool.eq_false_iff.mpr hfailed
  · rcases hentries with ⟨-, hrow⟩ | ⟨-, hlog⟩
    · exact absurd hgone hrow
    · split at hlog
      · next hsuccess => rw [hlog, hsuccess]; simp
      · next hfailed =>
        obtain ⟨f, hfs, -⟩ := hlog
        rw [hfs, Bool.eq_false_iff.mpr hfailed]
        simp
  · have hlog := h.mem_logged id
    exact ⟨fun hmem ↦ hlog.1 f hmem hf, hlog.2 f⟩

end Runs

end Fireworq.MySQL.Cluster
