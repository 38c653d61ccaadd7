import Fireworq.MySQL.Durability

namespace Fireworq.MySQL.Cluster

open Relational JobQueue Execution Function

variable {s t : State} {es : List Event}

/-- What has to hold at each step for a recovery to leave no orphan. No
statement of `Recover` fails. A new connection id is neither in use nor stored
in a grabbed row. From the moment a node's `Recover` has seen no orphan until
the node is activated, its session stays and no other node commits a grab. -/
structure Careful (s : State) (e : Event) : Prop where
  recovers : ∀ node, e ≠ .recoverFail node
  connects : ∀ node id, e = .connect node id → s.recovers node ≠ .returned ∧
    (∀ m session, s.sessions m = some session → session.connectionId ≠ id) ∧
    ∀ r ∈ s.table.rows, r.status = .grabbed → r.grabberId ≠ some id
  disconnects : ∀ node, e = .disconnect node → s.recovers node ≠ .returned
  commits : ∀ p c node, e = .commit p → s.pops p = some c → s.recovers node = .returned →
    c.node = node

structure OwnerInv (s : State) : Prop where
  unique : ∀ m n σ τ, s.sessions m = some σ → s.sessions n = some τ →
    σ.connectionId = τ.connectionId → m = n
  owned : ∀ m σ id r, s.sessions m = some σ → s.table.find id = some r → r.status = .grabbed →
    r.grabberId = some σ.connectionId → s.owner id = some σ
  returned : ∀ n, s.recovers n = .returned → ∃ σ, s.sessions n = some σ ∧
    ∀ id r, s.table.find id = some r → r.status = .grabbed → s.owner id = some σ
  succeeded : ∀ n, s.recovers n ≠ .failed

/-- A row that is grabbed after a step was grabbed before it under the same
owner, or the step has committed the grab. -/
theorem grabbed_cases {e : Event} (hi : PopInv s) (h : step s e = some t) {id : ℕ} {q : Row}
    (hq : t.table.find id = some q) (hst : q.status = .grabbed) :
    (s.table.find id = some q ∧ t.owner id = s.owner id) ∨
      ∃ p c session results, e = .commit p ∧ s.pops p = some c ∧
        s.sessions c.node = some session ∧ q.grabberId = some session.connectionId ∧
        t.owner id = some session ∧ id ∈ results.map Job.id ∧
        t.pops p = some { c with phase := .committed session results } := by
  by_cases he : ∃ p, e = .commit p
  · obtain ⟨p, rfl⟩ := he
    obtain ⟨c, session, results, pending, hp, hph, hs, rfl⟩ := commit_cases h
    have hok := hi p c hp
    simp only [PopOk, hph] at hok
    rw [AutoTable.find_update] at hq
    obtain ⟨r, hr, rfl⟩ := Option.map_eq_some_iff.mp hq
    obtain ⟨hin, hout⟩ := publish_rowStep hi hp hph hr
    by_cases hm : id ∈ results.map Job.id
    · refine .inr ⟨p, c, session, results, rfl, hp, hs, by rw [hin hm], ?_, hm, update_self _ _ _⟩
      exact if_pos ((hok.2.2.2.1 id).mpr hm)
    · refine .inl ⟨by rw [hout hm]; exact hr, ?_⟩
      exact if_neg fun hpend ↦ hm ((hok.2.2.2.1 id).mp hpend)
  · have howner := (step_frame h).owner fun p hp ↦ he ⟨p, hp⟩
    rcases row_step hi h hq with ⟨r, hr, hrow⟩ | ⟨-, -, j, a, -, hins⟩
    · cases hrow with
      | same => exact .inl ⟨hr, by rw [howner]⟩
      | @grab p => exact absurd ⟨p, rfl⟩ he
      | reschedule _ _ _ _ hclaimed => rw [hclaimed] at hst; cases hst
      | reclaim => cases hst
    · rw [(insertJob_claimed hins).1] at hst
      cases hst

theorem sessions_step {e : Event} (h : step s e = some t) (n : ℕ) :
    t.sessions n = s.sessions n ∨ e = .disconnect n ∧ t.sessions n = none ∨
      ∃ id, e = .connect n id ∧ t.sessions n = some ⟨s.nextSerial, id⟩ := by
  cases e with
  | connect m id =>
    obtain ⟨-, rfl⟩ := connect_cases h
    by_cases hn : n = m
    · subst hn
      exact .inr (.inr ⟨id, rfl, update_self _ _ _⟩)
    · exact .inl (update_of_ne hn _ _)
  | disconnect m =>
    cases h
    by_cases hn : n = m
    · subst hn
      exact .inr (.inl ⟨rfl, update_self _ _ _⟩)
    · exact .inl (update_of_ne hn _ _)
  | _ => exact .inl (by rw [(step_frame h).sessions rfl])

theorem nextSerial_le {e : Event} (h : step s e = some t) : s.nextSerial ≤ t.nextSerial := by
  cases e with
  | connect m id =>
    obtain ⟨-, rfl⟩ := connect_cases h
    exact Nat.le_succ _
  | disconnect m =>
    cases h
    exact Nat.le_refl _
  | _ => exact Nat.le_of_eq ((step_frame h).serial rfl).symm

theorem serial_lt (h : Run es s) {n : ℕ} {σ : Session} (hn : s.sessions n = some σ) :
    σ.serial < s.nextSerial := by
  refine invariant (fun s ↦ ∀ n σ, s.sessions n = some σ → σ.serial < s.nextSerial) ?_ h ?_ n σ hn
  · intro u e v hu hv n σ hn
    rcases sessions_step hv n with hn' | ⟨-, hn'⟩ | ⟨id, rfl, hn'⟩
    · exact Nat.lt_of_lt_of_le (hu n σ (hn'.symm.trans hn)) (nextSerial_le hv)
    · cases hn.symm.trans hn'
    · cases hn.symm.trans hn'
      obtain ⟨-, rfl⟩ := connect_cases hv
      exact Nat.lt_succ_self _
  · intro n σ hn
    cases hn

def Event.recovery : Event → Option (ℕ × RecoverPhase)
  | .recover node | .reclaim node => some (node, .selecting)
  | .orphans node ids => some (node, if ids = [] then .returned else .updating ids)
  | .recoverFail node => some (node, .failed)
  | .activate node => some (node, .idle)
  | _ => none

theorem recovers_step {e : Event} (h : step s e = some t) (n : ℕ) :
    t.recovers n = s.recovers n ∨ e.recovery = some (n, t.recovers n) := by
  have hset {m : ℕ} {phase : RecoverPhase} (ht : t.recovers = update s.recovers m phase)
      (he : e.recovery = some (m, phase)) :
      t.recovers n = s.recovers n ∨ e.recovery = some (n, t.recovers n) := by
    by_cases hnm : n = m
    · exact .inr (by rw [ht, hnm, update_self, he])
    · exact .inl (by rw [ht, update_of_ne hnm])
  cases e with
  | recover m => obtain ⟨-, rfl⟩ := recover_cases h; exact hset rfl rfl
  | orphans m ids => obtain ⟨session, -, -, -, -, rfl⟩ := orphans_cases h; exact hset rfl rfl
  | reclaim m => obtain ⟨session, ids, -, -, -, rfl⟩ := reclaim_cases h; exact hset rfl rfl
  | recoverFail m => cases recoverFail_cases h; exact hset rfl rfl
  | activate m => obtain ⟨-, rfl⟩ := activate_cases h; exact hset rfl rfl
  | _ => exact .inl (by rw [(step_frame h).recovers rfl])

theorem recovery_returned {e : Event} {n : ℕ} (h : e.recovery = some (n, .returned)) :
    e = .orphans n [] := by
  cases e with
  | orphans m ids =>
    obtain ⟨rfl, hids⟩ := Prod.mk.inj (Option.some.inj h)
    split at hids
    · next hnil => rw [hnil]
    · cases hids
  | _ => cases h

theorem recovery_failed {e : Event} {n : ℕ} (h : e.recovery = some (n, .failed)) :
    e = .recoverFail n := by
  cases e with
  | recoverFail m => cases h; rfl
  | orphans m ids =>
    obtain ⟨-, hids⟩ := Prod.mk.inj (Option.some.inj h)
    split at hids <;> cases hids
  | _ => cases h

/-- After a `SELECT` that finds no orphan, every grabbed row belongs to the
session that has asked. -/
theorem orphans_none {n : ℕ} (hi : OwnerInv s)
    (hc : ∀ id r, s.table.find id = some r → Consistent r)
    (h : step s (.orphans n []) = some t) :
    ∃ σ, t.sessions n = some σ ∧
      ∀ id r, t.table.find id = some r → r.status = .grabbed → t.owner id = some σ := by
  obtain ⟨σ, -, hs, -, ha, rfl⟩ := orphans_cases h
  refine ⟨σ, hs, fun id r hr hst ↦ hi.owned n σ id r hs hr hst ?_⟩
  have hgr : r.grabberId ≠ none := by
    rcases hc id r hr with ⟨hclaimed, -⟩ | ⟨-, hgr⟩
    · rw [hst] at hclaimed
      cases hclaimed
    · exact hgr
  obtain ⟨g, hg⟩ := Option.ne_none_iff_exists'.mp hgr
  have hnot : ¬ orphanJobs σ.connectionId r := fun horphan ↦ by
    have hmem := ha.complete (by simp) (Table.find_eq_some_iff.mp hr).1 horphan
    simp at hmem
  have heq : g = σ.connectionId := by
    by_contra hne
    exact hnot ⟨hst, by simp [otherGrabber, hg, hne]⟩
  rw [hg, heq]

theorem OwnerInv.step {e : Event} (ho : OwnerInv s) (hi : PopInv s)
    (hcons : ∀ id r, s.table.find id = some r → Consistent r) (hc : Careful s e)
    (h : step s e = some t) : OwnerInv t where
  unique m n σ τ hm hn hid := by
    rcases sessions_step h m with hm' | ⟨-, hm'⟩ | ⟨i, he, hm'⟩
    · rw [hm'] at hm
      rcases sessions_step h n with hn' | ⟨-, hn'⟩ | ⟨j, he, hn'⟩
      · exact ho.unique m n σ τ hm (hn'.symm.trans hn) hid
      · rw [hn] at hn'
        cases hn'
      · rw [hn] at hn'
        cases hn'
        exact absurd hid ((hc.connects n j he).2.1 m σ hm)
    · rw [hm] at hm'
      cases hm'
    · rw [hm] at hm'
      cases hm'
      rcases sessions_step h n with hn' | ⟨-, hn'⟩ | ⟨j, he', hn'⟩
      · exact absurd hid.symm ((hc.connects m i he).2.1 n τ (hn'.symm.trans hn))
      · rw [hn] at hn'
        cases hn'
      · rw [he] at he'
        cases he'
        rfl
  owned m σ id r hm hr hst hgr := by
    rcases grabbed_cases hi h hr hst with
      ⟨hr', howner⟩ | ⟨p, c, session, results, rfl, hp, hs, hq, howner, -⟩
    · rw [howner]
      rcases sessions_step h m with hm' | ⟨-, hm'⟩ | ⟨i, he, hm'⟩
      · exact ho.owned m σ id r (hm'.symm.trans hm) hr' hst hgr
      · rw [hm] at hm'
        cases hm'
      · rw [hm] at hm'
        cases hm'
        exact absurd hgr ((hc.connects m i he).2.2 r (Table.find_eq_some_iff.mp hr').1 hst)
    · rw [howner]
      rw [(step_frame h).sessions rfl] at hm
      rw [hgr] at hq
      have hnode := ho.unique m c.node σ session hm hs (Option.some.inj hq)
      rw [hnode, hs] at hm
      exact hm
  returned n hn := by
    rcases recovers_step h n with hsame | he
    · rw [hsame] at hn
      obtain ⟨σ, hs, hall⟩ := ho.returned n hn
      have hs' : t.sessions n = some σ := by
        rcases sessions_step h n with hs' | ⟨he, -⟩ | ⟨i, he, -⟩
        · exact hs'.trans hs
        · exact absurd hn (hc.disconnects n he)
        · exact absurd hn (hc.connects n i he).1
      refine ⟨σ, hs', fun id r hr hst ↦ ?_⟩
      rcases grabbed_cases hi h hr hst with
        ⟨hr', howner⟩ | ⟨p, c, session, results, he, hp, hcs, -, howner, -⟩
      · rw [howner]
        exact hall id r hr' hst
      · rw [hc.commits p c n he hp hn, hs] at hcs
        rw [howner, hcs]
    · rw [hn] at he
      cases recovery_returned he
      exact orphans_none ho hcons h
  succeeded n hn := by
    rcases recovers_step h n with hsame | he
    · exact ho.succeeded n (hsame.symm.trans hn)
    · rw [hn] at he
      exact hc.recovers n (recovery_failed he)

theorem Run.ownerInv (h : Run es s) (hc : Along step Careful .initial es) : OwnerInv s := by
  have hP := hc.invariant (fun s ↦ PopInv s ∧ (∀ id r, s.table.find id = some r → Consistent r) ∧
    OwnerInv s) ?_ h ⟨initial_inv, ?_, ?_⟩
  · exact hP.2.2
  · rintro s e t ⟨hi, hcons, ho⟩ hcare hstep
    exact ⟨step_inv hstep hi, consistent_step hi hstep hcons, ho.step hi hcons hcare hstep⟩
  · intro id r hr
    cases hr
  · constructor
    · intro m n σ τ hm; cases hm
    · intro m σ id r hm; cases hm
    · intro n hn; cases hn
    · intro n hn; cases hn

theorem no_orphan_survives {n : ℕ} (h : Run es s) (hc : Along step Careful .initial es)
    (hstep : step s (.activate n) = some t) : ∃ σ, t.sessions n = some σ ∧
      ∀ id r, t.table.find id = some r → r.status = .grabbed → t.owner id = some σ := by
  have ho := h.ownerInv hc
  obtain ⟨hr, rfl⟩ := activate_cases hstep
  exact ho.returned n (hr.resolve_right (ho.succeeded n))

def crash : List Event :=
  [.connect 0 7, .tick 5, .push sampleJob true, .popStart 0 0 10, .preselect 0 [1], .beginTx 0,
    .selectForUpdate 0 [sampleRow], .launch 0, .commit 0, .disconnect 0]

/-- Node 1 is activated while the row is grabbed for the session of node 0:
because a statement of its `Recover` has failed, or because the restarted
server has given it the connection id of that session. -/
theorem orphan_survives :
    (∃ s t, Run (crash ++ [.connect 1 8, .recover 1, .recoverFail 1]) s ∧
      step s (.activate 1) = some t ∧ t.sessions 1 = some ⟨1, 8⟩ ∧
      (t.table.find 1).map Row.status = some .grabbed ∧ t.owner 1 = some ⟨0, 7⟩) ∧
    ∃ s t, Run (crash ++ [.connect 1 7, .recover 1, .orphans 1 []]) s ∧
      step s (.activate 1) = some t ∧ t.sessions 1 = some ⟨1, 7⟩ ∧
      (t.table.find 1).map Row.status = some .grabbed ∧ t.owner 1 = some ⟨0, 7⟩ := by
  have hrun (es : List Event) (x : Option Session × Option Status × Option Session)
      (h : ((exec step .initial es).map fun s ↦ (step s (.activate 1)).map fun t ↦
        (t.sessions 1, (t.table.find 1).map Row.status, t.owner 1)) = some (some x)) :
      ∃ s t, Run es s ∧ step s (.activate 1) = some t ∧ t.sessions 1 = x.1 ∧
        (t.table.find 1).map Row.status = x.2.1 ∧ t.owner 1 = x.2.2 := by
    obtain ⟨s, hs, hx⟩ := Option.map_eq_some_iff.mp h
    obtain ⟨t, ht, rfl⟩ := Option.map_eq_some_iff.mp hx
    exact ⟨s, t, hs, ht, rfl, rfl, rfl⟩
  exact ⟨hrun _ (some ⟨1, 8⟩, some .grabbed, some ⟨0, 7⟩) (by decide +kernel),
    hrun _ (some ⟨1, 7⟩, some .grabbed, some ⟨0, 7⟩) (by decide +kernel)⟩

theorem Run.connect_mem (h : Run es s) {m : ℕ} {σ : Session} (hm : s.sessions m = some σ) :
    .connect m σ.connectionId ∈ es := by
  refine history (fun es s ↦ ∀ σ, s.sessions m = some σ → .connect m σ.connectionId ∈ es)
    ?_ ?_ h σ hm
  · intro σ hm
    cases hm
  · intro xs u e v hu ih hstep σ hm
    rcases sessions_step hstep m with hm' | ⟨-, hm'⟩ | ⟨id, rfl, hm'⟩
    · exact List.mem_append_left _ (ih σ (hm'.symm.trans hm))
    · rw [hm] at hm'
      cases hm'
    · rw [hm] at hm'
      cases hm'
      simp

theorem recovers_run {u : State} (h : exec step u es = some s)
    (hes : ∀ e ∈ es, e.recoverNode = none) : s.recovers = u.recovers := by
  induction es generalizing u with
  | nil => cases h; rfl
  | cons e es ih =>
    obtain ⟨v, hv, h⟩ := exec_cons h
    rw [ih h fun f hf ↦ hes f (List.mem_cons_of_mem _ hf),
      (step_frame hv).recovers (hes e List.mem_cons_self)]

theorem crash_careful : Along step Careful .initial crash := by
  refine ⟨⟨nofun, ?_, nofun, nofun⟩, fun v hv ↦ Along.of_split fun xs e ys u hsplit hu ↦ ?_⟩
  · intro node id _
    exact ⟨nofun, nofun, nofun⟩
  · have hall : ∀ f ∈ xs ++ e :: ys, f.recoverNode = none := by
      rw [← hsplit]
      decide
    have hidle (n : ℕ) : u.recovers n ≠ .returned := by
      rw [recovers_run hu fun f hf ↦ hall f (List.mem_append_left _ hf),
        (step_frame hv).recovers rfl]
      nofun
    have he : e ∈ xs ++ e :: ys := by simp
    refine ⟨?_, ?_, fun node _ ↦ hidle node, fun p c node _ _ hn ↦ absurd hn (hidle node)⟩
    · rintro node rfl
      cases hall _ he
    · rintro node id rfl
      rw [← hsplit] at he
      simp at he

theorem no_orphan_survives_crash :
    ∃ s t σ, Run (crash ++ .connect 1 8 ::
        [.recover 1, .orphans 1 [1], .reclaim 1, .orphans 1 []]) s ∧
      step s (.activate 1) = some t ∧ t.sessions 1 = some σ ∧
      ∀ id r, t.table.find id = some r → r.status = .grabbed → t.owner id = some σ := by
  obtain ⟨s, hs, ht⟩ := Option.map_eq_some_iff.mp
    (show (exec step .initial (crash ++ .connect 1 8 ::
      [.recover 1, .orphans 1 [1], .reclaim 1, .orphans 1 []])).map
      (fun s ↦ (step s (.activate 1)).isSome) = some true by decide +kernel)
  obtain ⟨t, ht⟩ := Option.isSome_iff_exists.mp ht
  have hcare : Along step Careful .initial (crash ++ .connect 1 8 ::
      [.recover 1, .orphans 1 [1], .reclaim 1, .orphans 1 []]) := by
    refine crash_careful.append fun u hu ↦ ⟨?_, fun v _ ↦ Along.of_forall ?_ v⟩
    · refine ⟨nofun, fun node id he ↦ ?_, nofun, nofun⟩
      cases he
      refine ⟨?_, fun m σ hm ↦ ?_, ?_⟩
      · rw [recovers_run hu (by decide)]
        nofun
      · have hmem := Run.connect_mem hu hm
        simp [crash] at hmem
        omega
      · obtain ⟨u', hu', hrows⟩ := Option.map_eq_some_iff.mp
          (show (exec step .initial crash).map
            (fun s ↦ s.table.rows.all fun r ↦ decide (r.grabberId ≠ some 8)) = some true by
            decide +kernel)
        cases Option.some.inj (hu.symm.trans hu')
        intro r hr _
        exact of_decide_eq_true (List.all_eq_true.mp hrows r hr)
    · intro e he s
      simp at he
      rcases he with rfl | rfl | rfl | rfl <;> exact ⟨nofun, nofun, nofun, nofun⟩
  obtain ⟨σ, hσ, hall⟩ := no_orphan_survives hs hcare ht
  exact ⟨s, t, σ, hs, ht, hσ, hall⟩

end Fireworq.MySQL.Cluster
