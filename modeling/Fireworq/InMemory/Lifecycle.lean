import Fireworq.JobQueue.Accounting
import Fireworq.JobQueue.Attempts

namespace Fireworq.InMemory

open JobQueue GoInt GoEncoding Execution Function

variable {s t : State} {es : List Event} {e : Event} {k p : ℕ} {j : Job}

def Event.result (p : ℕ) : Event → Option Result
  | .complete _ q res => if q = p then some res else none
  | _ => none

def tried (p : ℕ) (es : List Event) : List Result := es.filterMap (Event.result p)

theorem tried_snoc (p : ℕ) (es : List Event) (e : Event) :
    tried p (es ++ [e]) = tried p es ++ (e.result p).toList := by
  rw [tried, List.filterMap_append, tried]
  cases h : e.result p <;> simp [h]

theorem tried_of_none (h : e.result p = none) : tried p (es ++ [e]) = tried p es := by
  rw [tried_snoc, h, Option.toList_none, List.append_nil]

structure Placed (p m failCount : ℕ) (rs : List Result) (s : State) : Prop where
  live : p ∈ s.live → Going m rs ∧ rs.length = failCount
  updating : ∀ k, s.updating k p → Going m rs ∧ rs.length = failCount + 1
  retired : Retired s p → Ended m rs

structure LifeInv (es : List Event) (s : State) : Prop where
  fresh : ∀ p, s.objects.length ≤ p → tried p es = []
  placed : ∀ p j, s.objects[p]? = some j →
    Placed p j.incoming.retryCount j.failCount (tried p es) s

theorem Placed.congr {m n : ℕ} {rs : List Result} (h : Placed p m n rs s)
    (hlive : p ∈ t.live ↔ p ∈ s.live) (hcalls : ∀ k, t.updating k p ↔ s.updating k p)
    (hlen : t.objects.length = s.objects.length) : Placed p m n rs t where
  live hp := h.live (hlive.mp hp)
  updating k hk := h.updating k ((hcalls k).mp hk)
  retired hr := h.retired ⟨hlen ▸ hr.alloc, mt hlive.mpr hr.notLive,
    fun k hk ↦ hr.notUpdating k ((hcalls k).mpr hk)⟩

theorem LifeInv.of_objects (hl : LifeInv es s) (he : ∀ p, e.result p = none)
    (hlive : t.live.Perm s.live) (hobj : t.objects = s.objects)
    (hcalls : ∀ k p, t.updating k p ↔ s.updating k p) : LifeInv (es ++ [e]) t where
  fresh p hp := by
    rw [tried_of_none (he p)]
    exact hl.fresh p (hobj ▸ hp)
  placed p j hj := by
    rw [hobj] at hj
    rw [tried_of_none (he p)]
    exact (hl.placed p j hj).congr hlive.mem_iff (fun k ↦ hcalls k p) (by rw [hobj])

theorem LifeInv.push {i : IncomingJob} (hl : LifeInv es s) (hi : Inv s) :
    LifeInv (es ++ [.push i]) (push s i) where
  fresh p hp := by
    rw [tried_of_none rfl]
    refine hl.fresh p (Nat.le_trans ?_ hp)
    simp [InMemory.push]
  placed p j hj := by
    have hlive : p ∈ (InMemory.push s i).live ↔ p = s.objects.length ∨ p ∈ s.live := by
      rw [(push_live i).mem_iff, List.mem_cons]
    rw [tried_of_none rfl]
    simp only [InMemory.push] at hj
    rcases Nat.lt_trichotomy p s.objects.length with hlt | rfl | hlt
    · rw [List.getElem?_append_left hlt] at hj
      have hp := hl.placed p j hj
      have hne := Nat.ne_of_lt hlt
      refine ⟨fun hmem ↦ hp.live ((hlive.mp hmem).resolve_left hne), hp.updating, fun hr ↦ ?_⟩
      exact hp.retired ⟨hlt, fun hmem ↦ hr.notLive (hlive.mpr (.inr hmem)), hr.notUpdating⟩
    · rw [List.getElem?_concat_length, Option.some.injEq] at hj
      subst hj
      rw [hl.fresh _ (Nat.le_refl _)]
      refine ⟨fun _ ↦ ⟨.nil, rfl⟩, fun k hk ↦ ?_, fun hr ↦ ?_⟩
      · exact absurd (hi.updating k _ hk).2.1 (Nat.lt_irrefl _)
      · exact absurd (hlive.mpr (.inl rfl)) hr.notLive
    · rw [List.getElem?_eq_none (by simp; omega)] at hj
      cases hj

/-- A job that is completed leaves the holders. It is queued again or it has
ended. -/
theorem LifeInv.complete {res : Result} (hl : LifeInv es s) (hi : Inv s) (ha : AccountInv es s)
    (h : complete s k p res = some t) : LifeInv (es ++ [.complete k p res]) t := by
  obtain ⟨hlive, hobj, hk, hcalls⟩ := complete_live h
  have hnd := hlive.nodup_iff.mp hi.nodup
  have hp : p ∈ s.live := hlive.mem_iff.mpr List.mem_cons_self
  have hself : (Event.complete k p res).result p = some res := if_pos rfl
  have hother {q : ℕ} (hq : q ≠ p) : (Event.complete k p res).result q = none := if_neg hq.symm
  refine ⟨fun q hq ↦ ?_, fun q j hj ↦ ?_⟩
  · have hne : q ≠ p := by
      rintro rfl
      have hlt := hi.alloc q hp
      rw [hobj] at hq
      omega
    rw [tried_of_none (hother hne)]
    exact hl.fresh q (hobj ▸ hq)
  rw [hobj] at hj
  by_cases hq : q = p
  · subst hq
    obtain ⟨hgoing, hlen⟩ := (hl.placed q j hj).live hp
    obtain ⟨-, -, hsum⟩ := ha.object q j hj
    have hleft : s.retryCount q = j.incoming.retryCount - (tried q es).length := by
      rw [State.retryCount, hj, Option.map_some, Option.getD_some]
      omega
    rw [tried_snoc, hself, Option.toList_some]
    refine ⟨fun hmem ↦ absurd hmem (List.nodup_cons.mp hnd).1, fun i hi' ↦ ?_, fun hr ↦ ?_⟩
    · rw [State.updating, hcalls] at hi'
      rcases updating_update hi' with ⟨-, hc⟩ | ⟨-, hi'⟩
      · refine ⟨hgoing.snoc ?_, by rw [List.length_append, hlen]; rfl⟩
        rw [← hleft]
        exact congrArg CompleteCall.taken hc
      · exact absurd hp (hi.updating i q hi').1
    · refine hgoing.ended fun hretry ↦ hr.notUpdating k ?_
      rw [State.updating, hcalls, update_self, hleft, hretry]
  · have hq' := hl.placed q j hj
    rw [tried_of_none (hother hq)]
    refine hq'.congr ?_ (fun i ↦ ?_) (by rw [hobj])
    · rw [hlive.mem_iff, List.mem_cons]
      exact ⟨.inr, fun hmem ↦ hmem.resolve_left hq⟩
    · rw [State.updating, hcalls, State.updating]
      constructor
      · intro hi'
        rcases updating_update hi' with ⟨-, hc⟩ | ⟨-, hi'⟩
        · exact absurd (congrArg CompleteCall.job hc).symm hq
        · exact hi'
      · intro hi'
        rw [update_of_ne, hi']
        rintro rfl
        rw [hk] at hi'
        cases hi'

theorem LifeInv.finish (hl : LifeInv es s) (hi : Inv s) (ha : AccountInv es s)
    (h : finish s k = some t) : LifeInv (es ++ [.finish k]) t := by
  rcases finish_cases h with ⟨q, taken, hk, hne, rfl⟩ | ⟨q, j, hk, hj, rfl⟩
  · refine hl.of_objects (fun _ ↦ rfl) .rfl rfl fun i p ↦ ⟨fun hi' ↦ (updating_of_done hi').2, ?_⟩
    intro hi'
    change Function.update s.completes k _ i = _
    rw [update_of_ne, hi']
    rintro rfl
    cases hk.symm.trans hi'
    exact hne rfl
  have hlive := update_live (s := { s with
    completes := Function.update s.completes k (some ⟨q, .retry, true⟩) }) (p := q)
      (nextJob j.incoming.retryDelay j.retryCount j.failCount)
  obtain ⟨hql, hlt, hone⟩ := hi.updating k q hk
  refine ⟨fun p hp ↦ ?_, fun p j' hj' ↦ ?_⟩
  · rw [tried_of_none rfl]
    refine hl.fresh p ?_
    simpa only [update, List.length_modify] using hp
  rw [tried_of_none rfl]
  by_cases hpq : p = q
  · subst hpq
    obtain ⟨hgoing, hlen⟩ := (hl.placed p j hj).updating k hk
    obtain ⟨-, hm, -⟩ := ha.object p j hj
    have hle := hgoing.length
    have hfail : uint64 ((j.failCount : ℤ) + 1) = j.failCount + 1 := by
      rw [show (j.failCount : ℤ) + 1 = (j.failCount + 1 : ℕ) by omega, uint64_natCast (by omega)]
    simp only [update, List.getElem?_modify_eq, hj, Option.map_eq_map, Option.map_some,
      Option.some.injEq] at hj'
    subst hj'
    refine ⟨fun _ ↦ ⟨hgoing, hlen.trans hfail.symm⟩, fun i hi' ↦ ?_, fun hr ↦ ?_⟩
    · obtain ⟨hne, hi'⟩ := updating_of_done hi'
      exact absurd (hone i hi') hne
    · exact absurd (hlive.mem_iff.mpr List.mem_cons_self) hr.notLive
  · rw [update_objects hpq] at hj'
    refine (hl.placed p j' hj').congr ?_ (fun i ↦ ⟨fun hi' ↦ (updating_of_done hi').2, ?_⟩) ?_
    · rw [hlive.mem_iff, List.mem_cons]
      exact ⟨fun hmem ↦ hmem.resolve_left hpq, .inr⟩
    · intro hi'
      change Function.update s.completes k _ i = _
      rw [update_of_ne, hi']
      rintro rfl
      cases hk.symm.trans hi'
      exact hpq rfl
    · simp only [update, List.length_modify]

theorem LifeInv.step (hl : LifeInv es s) (hi : Inv s) (ha : AccountInv es s)
    (h : step s e = some t) : LifeInv (es ++ [e]) t := by
  cases e with
  | tick | takeId => cases h; exact hl.of_objects (fun _ ↦ rfl) .rfl rfl fun _ _ ↦ .rfl
  | push i => cases h; exact hl.push hi
  | pop limit =>
    obtain ⟨hlive, hobj, hcalls⟩ := pop_live h
    exact hl.of_objects (fun _ ↦ rfl) hlive hobj fun k p ↦ by rw [State.updating, hcalls]; rfl
  | complete k p res => exact hl.complete hi ha h
  | finish k => exact hl.finish hi ha h

theorem Run.lifeInv (h : Run es s) (ht : ∀ e ∈ es, e.typed) : LifeInv es s := by
  refine history (fun es s ↦ (∀ e ∈ es, e.typed) → LifeInv es s) (fun _ ↦ ?_)
    (fun xs u e v hu ih hstep ht ↦ ?_) h ht
  · exact ⟨fun _ _ ↦ rfl, nofun⟩
  · have hxs : ∀ f ∈ xs, f.typed := fun f hf ↦ ht f (List.mem_append_left _ hf)
    exact (ih hxs).step (Run.inv hu) (Run.accountInv hu hxs) hstep

structure Lifecycle (results : ℕ → Result) (p : ℕ) (i : IncomingJob) (es : List Event)
    (s : State) : Prop where
  bounded : (tried p es).length ≤ attempts i.retryCount results
  /-- A worker that has the job makes the next attempt. -/
  attempt : p ∈ s.held → s.held.count p = 1 ∧
    (tried p es).length < attempts i.retryCount results ∧
    ∃ j, s.objects[p]? = some j ∧ xAttempt j.failCount = formatUint ((tried p es).length + 1)
  /-- Before the last attempt the job is queued, or is going to be by the call
  that completes it. -/
  kept : (tried p es).length < attempts i.retryCount results → p ∈ s.live ∨ ∃ k, s.updating k p
  removed : (tried p es).length = attempts i.retryCount results → Retired s p
  rescheduled : ∀ xs k ys u v, es = xs ++ .finish k :: ys → Run xs u →
    step u (.finish k) = some v → u.updating k p →
    (tried p xs).length < attempts i.retryCount results ∧ p ∈ v.live ∧
      ∃ j, v.objects[p]? = some j ∧ j.nextTry = uint64 (u.now + 1000 * i.retryDelay) ∧
        j.failCount = (tried p xs).length

variable {results : ℕ → Result}

theorem incoming_exec (h : exec step s es = some t) (hj : s.objects[p]? = some j) :
    ∃ j', t.objects[p]? = some j' ∧ j'.incoming = j.incoming := by
  refine invariant (fun u ↦ ∃ j', u.objects[p]? = some j' ∧ j'.incoming = j.incoming)
    (fun u e v hu hv ↦ ?_) h ⟨j, hj, rfl⟩
  obtain ⟨j', hj', heq⟩ := hu
  obtain ⟨j'', hj'', heq', -⟩ := object_step hv hj'
  exact ⟨j'', hj'', heq'.trans heq⟩

theorem Run.rescheduled (h : Run es s) (ht : ∀ e ∈ es, e.typed)
    (hstep : step s (.finish k) = some t)
    (hk : s.updating k p) (hj : s.objects[p]? = some j) (hd : j.incoming.retryDelay ≤ 9223372036)
    (hrec : Recorded results (tried p es)) :
    (tried p es).length < attempts j.incoming.retryCount results ∧ p ∈ t.live ∧
      ∃ j', t.objects[p]? = some j' ∧
        j'.nextTry = uint64 (s.now + 1000 * j.incoming.retryDelay) ∧
        j'.failCount = (tried p es).length := by
  have hl := h.lifeInv ht
  obtain ⟨hgoing, hlen⟩ := (hl.placed p j hj).updating k hk
  obtain ⟨-, hm, -⟩ := (h.accountInv ht).object p j hj
  have hle := hgoing.length
  have hfail : uint64 ((j.failCount : ℤ) + 1) = j.failCount + 1 := by
    rw [show (j.failCount : ℤ) + 1 = (j.failCount + 1 : ℕ) by omega, uint64_natCast (by omega)]
  rcases finish_cases hstep with ⟨q, taken, hk', hne, rfl⟩ | ⟨q, j', hk', hj', rfl⟩
  · cases hk.symm.trans hk'
    exact absurd rfl hne
  · cases hk.symm.trans hk'
    cases hj.symm.trans hj'
    refine ⟨hgoing.lt_attempts hrec, (update_live _).mem_iff.mpr List.mem_cons_self, ?_⟩
    simp only [update, List.getElem?_modify_eq, hj, Option.map_eq_map, Option.map_some,
      Option.some.injEq]
    refine ⟨_, rfl, ?_, hfail.trans hlen.symm⟩
    dsimp only
    rw [nextJob_nextDelay, nextDelay_exact hd]
    congr 1

/-- The lifecycle of a job whose retry delay fits a `time.Duration`. -/
theorem Run.lifecycle (h : Run es s) (ht : ∀ e ∈ es, e.typed) (hj : s.objects[p]? = some j)
    (hm : j.incoming.retryCount + 1 < 2 ^ 64) (hd : j.incoming.retryDelay ≤ 9223372036)
    (hrec : Recorded results (tried p es)) : Lifecycle results p j.incoming es s := by
  have hp := (h.lifeInv ht).placed p j hj
  have hi := Run.inv h
  have hlt : p < s.objects.length := (List.getElem?_eq_some_iff.mp hj).1
  have hcases : p ∈ s.live ∨ (∃ k, s.updating k p) ∨ Retired s p := by
    by_cases hlive : p ∈ s.live
    · exact .inl hlive
    by_cases hk : ∃ k, s.updating k p
    · exact .inr (.inl hk)
    exact .inr (.inr ⟨hlt, hlive, fun k hk' ↦ hk ⟨k, hk'⟩⟩)
  have hgoing (hg : Going j.incoming.retryCount (tried p es)) := hg.lt_attempts hrec
  have hended (hr : Retired s p) := (hp.retired hr).eq_attempts hrec
  refine ⟨?_, fun hheld ↦ ?_, fun hlt ↦ ?_, fun heq ↦ ?_, ?_⟩
  · rcases hcases with hlive | ⟨k, hk⟩ | hr
    · exact Nat.le_of_lt (hgoing (hp.live hlive).1)
    · exact Nat.le_of_lt (hgoing (hp.updating k hk).1)
    · exact Nat.le_of_eq (hended hr)
  · have hlive : p ∈ s.live := List.mem_append_right _ hheld
    obtain ⟨hg, hlen⟩ := hp.live hlive
    have hle := hg.length
    refine ⟨?_, hgoing hg, j, hj, ?_⟩
    · exact List.count_eq_one_of_mem (hi.nodup.sublist (List.sublist_append_right _ _)) hheld
    · rw [← hlen, xAttempt_eq (by omega)]
  · rcases hcases with hlive | hk | hr
    · exact .inl hlive
    · exact .inr hk
    · exact absurd (hended hr) (Nat.ne_of_lt hlt)
  · rcases hcases with hlive | ⟨k, hk⟩ | hr
    · exact absurd heq (Nat.ne_of_lt (hgoing (hp.live hlive).1))
    · exact absurd heq (Nat.ne_of_lt (hgoing (hp.updating k hk).1))
    · exact hr
  · rintro xs k ys u v rfl hu hv hk
    have hxs : ∀ e ∈ xs, e.typed := fun e he ↦ ht e (List.mem_append_left _ he)
    obtain ⟨u', v', hu', hv', hys⟩ := exec_split h
    cases Option.some.inj (hu.symm.trans hu')
    obtain ⟨j', hj'⟩ : ∃ j', u.objects[p]? = some j' :=
      ⟨_, List.getElem?_eq_getElem ((Run.inv hu).updating k p hk).2.1⟩
    have hsame : j.incoming = j'.incoming := by
      obtain ⟨j'', hj'', heq⟩ := incoming_exec (exec_cons_of_step hv' ys ▸ hys) hj'
      cases hj.symm.trans hj''
      exact heq
    rw [hsame] at hd ⊢
    refine Run.rescheduled hu hxs hv hk hj' hd ?_
    rw [tried, List.filterMap_append] at hrec
    exact hrec.of_append

end Fireworq.InMemory
