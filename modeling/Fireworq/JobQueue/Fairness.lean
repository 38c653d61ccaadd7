import Mathlib.Algebra.GroupWithZero.Nat
import Fireworq.InMemory.Refinement
import Fireworq.MySQL.Due
import Fireworq.MySQL.Simulation

namespace Fireworq.JobQueue.Spec

open Refinement

def Label.limit : Label → ℕ
  | .pop limit _ => limit
  | _ => 0

def Label.Gives (j : Job) : Label → Prop
  | .pop _ out => j ∈ out
  | _ => False

def ahead (waiting : Multiset Job) (j : Job) : ℕ := waiting.countP fun i ↦ i.nextTry ≤ j.nextTry

section Steps

variable {s t : State} {l : Label} {ls : List Label} {j : Job}

theorem ahead_pos {waiting : Multiset Job} (h : j ∈ waiting) : 0 < ahead waiting j :=
  Multiset.countP_pos.mpr ⟨j, h, Nat.le_refl _⟩

theorem ahead_cons {waiting : Multiset Job} {i : Job} (h : j.nextTry < i.nextTry) :
    ahead (i ::ₘ waiting) j = ahead waiting j :=
  Multiset.countP_cons_of_neg _ (Nat.not_le.mpr h)

/-- A due job that is left behind shows that the limit was reached. -/
theorem Pops.length_eq {now limit : ℕ} {waiting rest : Multiset Job} {out : List Job}
    (h : Pops now limit waiting out rest) (hj : j ∈ rest) (hdue : j.nextTry ≤ now) :
    out.length = limit := by
  have hout : (out : Multiset Job).countP (fun i ↦ i.nextTry ≤ now) = out.length := by
    rw [Multiset.countP_eq_card.mpr h.due, Multiset.coe_card]
  have hrest : 0 < rest.countP fun i ↦ i.nextTry ≤ now := Multiset.countP_pos.mpr ⟨j, hj, hdue⟩
  have hlength := h.length
  rw [h.split, Multiset.countP_add, hout] at hlength
  omega

theorem Pops.ahead {now limit : ℕ} {waiting rest : Multiset Job} {out : List Job}
    (h : Pops now limit waiting out rest) (hj : j ∈ rest) (hdue : j.nextTry ≤ now) :
    Spec.ahead rest j + limit = Spec.ahead waiting j := by
  have hout : Spec.ahead (out : Multiset Job) j = out.length := by
    rw [Spec.ahead, Multiset.countP_eq_card.mpr fun i hi ↦ h.earliest i hi j hj hdue,
      Multiset.coe_card]
  have hsplit : Spec.ahead waiting j = Spec.ahead (out : Multiset Job) j + Spec.ahead rest j := by
    rw [h.split]
    exact Multiset.countP_add _ _ _
  rw [hsplit, hout, h.length_eq hj hdue, Nat.add_comm]

/-- Nothing overtakes an overdue job but the jobs that are ahead of it. -/
theorem Steps.ahead (h : Steps s l t) (hj : j ∈ s.waiting) (hdue : j.nextTry < s.now)
    (hl : ¬ l.Gives j) :
    j ∈ t.waiting ∧ s.now ≤ t.now ∧ ahead t.waiting j + l.limit = ahead s.waiting j := by
  cases h with
  | tick => exact ⟨hj, Nat.le_add_right _ _, rfl⟩
  | @push i key id =>
    have hlate : j.nextTry < (accept s.now key id i).nextTry :=
      Nat.lt_of_lt_of_le hdue (Nat.le_add_right _ _)
    exact ⟨Multiset.mem_cons_of_mem hj, Nat.le_refl _, ahead_cons hlate⟩
  | @pop limit out rest hp =>
    have hrest : j ∈ rest := by
      rw [hp.split] at hj
      exact (Multiset.mem_add.mp hj).resolve_left hl
    exact ⟨hrest, Nat.le_refl _, hp.ahead hrest (Nat.le_of_lt hdue)⟩
  | @retry i res =>
    have hlate : j.nextTry < (i.retry s.now).nextTry :=
      Nat.lt_of_lt_of_le hdue (Nat.le_add_right _ _)
    exact ⟨Multiset.mem_cons_of_mem hj, Nat.le_refl _, ahead_cons hlate⟩
  | delete => exact ⟨hj, Nat.le_refl _, rfl⟩

theorem trace_ahead (h : Trace Steps s ls t) (hj : j ∈ s.waiting) (hdue : j.nextTry < s.now)
    (hls : ∀ l ∈ ls, ¬ l.Gives j) :
    j ∈ t.waiting ∧ ahead t.waiting j + (ls.map Label.limit).sum = ahead s.waiting j := by
  induction h with
  | nil => exact ⟨hj, rfl⟩
  | cons hl _ ih =>
    obtain ⟨hl₀, hls⟩ := List.forall_mem_cons.mp hls
    obtain ⟨hmem, hnow, hstep⟩ := hl.ahead hj hdue hl₀
    obtain ⟨hmem, hrest⟩ := ih hmem (Nat.lt_of_lt_of_le hdue hnow) hls
    refine ⟨hmem, ?_⟩
    rw [List.map_cons, List.sum_cons]
    omega

/-- An overdue job is popped as soon as the limits of the calls of `Pop` add up
to the jobs that are ahead of it. -/
theorem exists_gives (h : Trace Steps s ls t) (hj : j ∈ s.waiting) (hdue : j.nextTry < s.now)
    (hlimits : ahead s.waiting j ≤ (ls.map Label.limit).sum) : ∃ l ∈ ls, l.Gives j := by
  by_contra hnone
  push Not at hnone
  obtain ⟨hmem, heq⟩ := trace_ahead h hj hdue hnone
  have hpos := ahead_pos hmem
  omega

end Steps

/-- No state that a driver reaches by whole operations in range has an overdue job
that is passed over. -/
def Prompt {σ : Type} (does : σ → Label → σ → Prop) (now : σ → ℕ) (waiting : σ → Multiset Job)
    (s₀ : σ) : Prop :=
  ∀ xs s ys t j, Trace (fun s l t ↦ l.InRange (now s) ∧ does s l t) s₀ xs s →
    Trace (fun s l t ↦ l.InRange (now s) ∧ does s l t) s ys t →
    j ∈ waiting s → j.nextTry < now s → ahead (waiting s) j ≤ (ys.map Label.limit).sum →
    ∃ l ∈ ys, l.Gives j

theorem Prompt.of_simulates {σ : Type} {does : σ → Label → σ → Prop} {now : σ → ℕ}
    {waiting : σ → Multiset Job} {s₀ : σ} {Rel : σ → State → Prop}
    (hsim : Simulates (fun s l t ↦ l.InRange (now s) ∧ does s l t) Steps Rel)
    (hrel : ∀ s a, Rel s a → a.now = now s ∧ a.waiting = waiting s) {a₀ : State}
    (h₀ : Rel s₀ a₀) : Prompt does now waiting s₀ := by
  intro xs s ys t j hxs hys hj hdue hlimits
  obtain ⟨a, -, ha⟩ := hsim.trace hxs h₀
  obtain ⟨b, hab, -⟩ := hsim.trace hys ha
  obtain ⟨hnow, hwaiting⟩ := hrel s a ha
  rw [← hwaiting] at hj hlimits
  rw [← hnow] at hdue
  exact exists_gives hab hj hdue hlimits

theorem Prompt.pops_singleton {σ : Type} {does : σ → Label → σ → Prop} {now : σ → ℕ}
    {waiting : σ → Multiset Job} {s₀ s t : σ} {xs : List Label} {j : Job} {out : List Job}
    (h : Prompt does now waiting s₀)
    (hxs : Trace (fun s l t ↦ l.InRange (now s) ∧ does s l t) s₀ xs s) (hj : waiting s = {j})
    (hdue : j.nextTry < now s) (hpop : does s (.pop 1 out) t) : j ∈ out := by
  have hahead : ahead {j} j = 1 := Multiset.countP_eq_card.mpr (by simp)
  obtain ⟨l, hl, hout⟩ := h xs s [.pop 1 out] t j hxs (.cons ⟨trivial, hpop⟩ (.nil t))
    (by simp [hj]) hdue (by simp [hj, hahead, Label.limit])
  rwa [List.mem_singleton.mp hl] at hout

end Fireworq.JobQueue.Spec

namespace Fireworq.JobQueue

open Spec Refinement

/-- In both drivers an overdue job is popped after at most as many jobs as were
due no later than it, if the operations succeed and their delays do not wrap around. -/
theorem overdue_jobs_popped {node connectionId : ℕ} {s₀ : MySQL.Cluster.State}
    (hc : MySQL.Cluster.step .initial (.connect node connectionId) = some s₀) :
    Prompt InMemory.Does InMemory.State.now
        (fun s ↦ s.queue.toList.map (InMemory.view s.objects)) .initial ∧
      Prompt (MySQL.Cluster.Does node) MySQL.Cluster.State.now
        (fun s ↦ (MySQL.claimedRows s.table.rows).map MySQL.Row.view) s₀ :=
  ⟨.of_simulates InMemory.simulates (fun _ _ h ↦ ⟨h.now, h.waiting⟩) .initial,
    .of_simulates (MySQL.Cluster.simulates node) (fun _ _ h ↦ ⟨h.now, h.waiting⟩) (.initial hc)⟩

section Overdue

open MySQL.Cluster (sampleJob)

def overdue (key : ℕ) : List Label := [.tick 5, .push sampleJob key 1, .tick 1]

theorem inMemory_overdue :
    ∃ s, Trace (fun s l t ↦ l.InRange s.now ∧ InMemory.Does s l t) .initial (overdue 0) s ∧
      s.now = 6 ∧ (s.queue.toList.map (InMemory.view s.objects) : Multiset Job) =
        {accept 5 0 1 sampleJob} ∧
      ∃ out t, InMemory.Does s (.pop 1 out) t := by
  have hs : Trace (fun s l t ↦ l.InRange s.now ∧ InMemory.Does s l t) .initial (overdue 0) _ :=
    .cons ⟨trivial, .tick rfl⟩ (.cons ⟨⟨by decide, by decide⟩, .push rfl⟩
      (.cons ⟨trivial, .tick rfl⟩ (.nil _)))
  obtain ⟨a, -, ha⟩ := InMemory.simulates.trace hs .initial
  exact ⟨_, hs, rfl, rfl, ha.responds.pop 1 (by decide)⟩

theorem mysql_overdue : ∃ s₀ s, MySQL.Cluster.step .initial (.connect 0 7) = some s₀ ∧
    Trace (fun s l t ↦ l.InRange s.now ∧ MySQL.Cluster.Does 0 s l t) s₀ (overdue 1) s ∧
      s.now = 6 ∧ ((MySQL.claimedRows s.table.rows).map MySQL.Row.view : Multiset Job) =
        {accept 5 1 1 sampleJob} ∧
      ∃ out t, MySQL.Cluster.Does 0 s (.pop 1 out) t := by
  obtain ⟨s₀, s, hc, hs, hnow, hwaiting⟩ : ∃ s₀ s,
      MySQL.Cluster.step .initial (.connect 0 7) = some s₀ ∧
      Trace (fun s l t ↦ l.InRange s.now ∧ MySQL.Cluster.Does 0 s l t) s₀ (overdue 1) s ∧
      s.now = 6 ∧ ((MySQL.claimedRows s.table.rows).map MySQL.Row.view : Multiset Job) =
        {accept 5 1 1 sampleJob} := by
    refine ⟨_, _, rfl, .cons ⟨trivial, .tick rfl⟩ (.cons ⟨⟨?_, ?_⟩, .push rfl⟩
      (.cons ⟨trivial, .tick rfl⟩ (.nil _))), rfl, rfl⟩ <;> decide
  obtain ⟨a, -, ha⟩ := (MySQL.Cluster.simulates 0).trace hs (.initial hc)
  exact ⟨s₀, s, hc, hs, hnow, hwaiting, ha.responds.pop 1 (by decide)⟩

theorem overdue_jobs_popped_sample : ∃ s₀ s out t s' out' t',
    MySQL.Cluster.step .initial (.connect 0 7) = some s₀ ∧
    Trace (fun s l t ↦ l.InRange s.now ∧ InMemory.Does s l t) .initial (overdue 0) s ∧
    InMemory.Does s (.pop 1 out) t ∧ accept 5 0 1 sampleJob ∈ out ∧
    Trace (fun s l t ↦ l.InRange s.now ∧ MySQL.Cluster.Does 0 s l t) s₀ (overdue 1) s' ∧
    MySQL.Cluster.Does 0 s' (.pop 1 out') t' ∧ accept 5 1 1 sampleJob ∈ out' := by
  obtain ⟨s, hs, hnow, hwaiting, out, t, hpop⟩ := inMemory_overdue
  obtain ⟨s₀, s', hc, hs', hnow', hwaiting', out', t', hpop'⟩ := mysql_overdue
  obtain ⟨hmemory, hmysql⟩ := overdue_jobs_popped hc
  refine ⟨s₀, s, out, t, s', out', t', hc, hs, hpop, ?_, hs', hpop', ?_⟩
  · exact hmemory.pops_singleton hs hwaiting (by rw [hnow]; decide) hpop
  · exact hmysql.pops_singleton hs' hwaiting' (by rw [hnow']; decide) hpop'

end Overdue

end Fireworq.JobQueue
