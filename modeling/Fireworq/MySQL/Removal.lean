import Fireworq.MySQL.Durability
import Fireworq.MySQL.Fencing

namespace Fireworq.MySQL.Cluster

open Relational JobQueue Execution Function

variable {s t u : State} {es es' : List Event} {id : ℕ}

/-- A node has the job in its hands: it holds it, or a `Pop` that has committed
is about to return it. -/
def Possessed (s : State) (g : Grab) : Prop :=
  g ∈ s.held ∨ ∃ p results, s.phase p = some (.committed g.session results) ∧ g.job ∈ results

/-- What has become of a job some time after its row was removed: the row has not
come back, and only those who had the job in their hands then may still process
it. -/
structure Gone (id : ℕ) (u s : State) : Prop where
  row : s.table.find id = none
  possessed : ∀ g, Possessed s g → g.job.id = id → Possessed u g
  completing : ∀ k c, s.completes k = some c → c.grab.job.id = id →
    Possessed u c.grab ∨ ∃ d, u.completes k = some d ∧ d.grab = c.grab

theorem Gone.refl (h : u.table.find id = none) : Gone id u u :=
  ⟨h, fun _ hg _ ↦ hg, fun _ c hc _ ↦ .inr ⟨c, hc, rfl⟩⟩

theorem find_of_launched {p : ℕ} {session : Session} {results : List Job} {pending : List Row}
    (hi : PopInv s) (h : s.phase p = some (.launched session results pending)) {j : Job}
    (hj : j ∈ results) : ∃ r, s.table.find j.id = some r := by
  obtain ⟨c, hc, hphase⟩ := Option.map_eq_some_iff.mp h
  have hok := hi p c hc
  rw [PopOk, hphase] at hok
  obtain ⟨-, r, hr, -⟩ := hok.2.2.1 j hj
  exact ⟨r, hr⟩

theorem possessed_step {e : Event} (hi : PopInv s) (h : step s e = some t)
    (hrow : s.table.find id = none) {g : Grab} (hg : Possessed t g) (hid : g.job.id = id) :
    Possessed s g := by
  rcases hg with hg | ⟨p, results, hp, hg⟩
  · exact held_step h hg
  · rcases phase_step h p with heq | ⟨-, phase, heq, hmove⟩
    · exact .inr ⟨p, results, heq ▸ hp, hg⟩
    · rw [hp] at heq
      cases heq
      generalize hs : s.phase p = before at hmove
      cases hmove with
      | commit | commitLost =>
        obtain ⟨r, hr⟩ := find_of_launched hi hs hg
        rw [hid, hrow] at hr
        cases hr

theorem gone_step {e : Event} (hgone : Gone id u s) (hid : id < s.table.next) (hi : PopInv s)
    (h : step s e = some t) : Gone id u t where
  row := by
    cases hq : t.table.find id with
    | none => rfl
    | some q =>
      rcases row_step hi h hq with ⟨r, hr, -⟩ | ⟨-, hnext, -⟩
      · rw [hgone.row] at hr
        cases hr
      · omega
  possessed g hg hgid := hgone.possessed g (possessed_step hi h hgone.row hg hgid) hgid
  completing k c hc hcid := by
    rcases completes_step h k with heq | ⟨d, heq, hmove⟩
    · exact hgone.completing k c (heq ▸ hc) hcid
    · rw [hc] at heq
      cases heq
      cases hmove with
      | start hg => exact .inl (hgone.possessed _ (.inl hg) hcid)
      | log hd | delete hd | update hd =>
        have hold := hgone.completing k _ hd
        exact hold hcid

theorem gone_run (hid : id < u.table.next) (hi : PopInv u) (hrow : u.table.find id = none)
    (h : exec step u es = some t) : Gone id u t ∧ PopInv t ∧ id < t.table.next := by
  refine invariant (fun t ↦ Gone id u t ∧ PopInv t ∧ id < t.table.next) ?_ h
    ⟨.refl hrow, hi, hid⟩
  intro s e t hs hstep
  exact ⟨gone_step hs.1 hs.2.2 hs.2.1 hstep, step_inv hstep hs.2.1,
    Nat.lt_of_lt_of_le hs.2.2 (next_step hstep)⟩

/-- A job that was removed from the table, because it was completed or deleted
through the inspector, never comes back: no statement of any node restores its
row, and nobody processes it who had not grabbed it before. -/
theorem removed_for_good (h : Run es u) (hid : id < u.table.next)
    (hrow : u.table.find id = none) (h' : exec step u es' = some t) :
    Gone id u t ∧ ∀ k g res, .complete k g res ∈ es' → g.job.id = id → Possessed u g := by
  refine ⟨(gone_run hid h.popInv hrow h').1, fun k g res hmem hgid ↦ ?_⟩
  obtain ⟨xs, ys, rfl⟩ := List.append_of_mem hmem
  obtain ⟨s, s', hs, hstep, -⟩ := exec_split h'
  obtain ⟨hheld, -, -⟩ := complete_cases hstep
  exact (gone_run hid h.popInv hrow hs).1.possessed g (.inl hheld) hgid

/-- The node that took over completes the job. The one that had grabbed it before
fails afterwards, and cannot put it back. -/
theorem removed_for_good_takeover : ∃ u t,
    Run (takeover ++ [.complete 1 ⟨⟨1, 8⟩, Job.scan sampleRow⟩ success, .delete 1 true]) u ∧
      exec step u [.complete 0 ⟨⟨0, 7⟩, Job.scan sampleRow⟩ failure, .update 0 true] = some t ∧
      Gone 1 u t := by
  obtain ⟨t, ht⟩ := Option.isSome_iff_exists.mp
    (show (exec step .initial (takeover ++
      [.complete 1 ⟨⟨1, 8⟩, Job.scan sampleRow⟩ success, .delete 1 true] ++
      [.complete 0 ⟨⟨0, 7⟩, Job.scan sampleRow⟩ failure, .update 0 true])).isSome = true by
        decide +kernel)
  obtain ⟨u, hu, hut⟩ := exec_append.mp ht
  have htable : (exec step .initial (takeover ++
      [.complete 1 ⟨⟨1, 8⟩, Job.scan sampleRow⟩ success, .delete 1 true])).map
        (fun u ↦ (u.table.next, u.table.find 1)) = some (2, none) := by
    decide +kernel
  rw [hu, Option.map_some, Option.some.injEq, Prod.mk.injEq] at htable
  exact ⟨u, t, hu, hut, (removed_for_good hu (by omega) htable.2 hut).1⟩

end Fireworq.MySQL.Cluster
