import Fireworq.InMemory.Refinement
import Fireworq.MySQL.Due
import Fireworq.MySQL.Simulation

namespace Fireworq.JobQueue

open Execution Refinement Spec

variable {ls ls' : List Label} {s : InMemory.State} {node connectionId : ℕ}
  {s₀ s' : MySQL.Cluster.State}

/-- Both drivers refine the abstract queue. -/
theorem drivers_refine
    (h : Trace (fun s l t ↦ l.InRange s.now ∧ InMemory.Does s l t) .initial ls s)
    (hc : MySQL.Cluster.step .initial (.connect node connectionId) = some s₀)
    (h' : Trace (fun s l t ↦ l.InRange s.now ∧ MySQL.Cluster.Does node s l t) s₀ ls' s') :
    (∃ a, Conforms ls a ∧ InMemory.Represents s a ∧
      Responds InMemory.Does (fun _ ↦ True) s a.held) ∧
    ∃ a, Conforms ls' a ∧ MySQL.Cluster.Represents s' a ∧
      Responds (MySQL.Cluster.Does node)
        (fun i ↦ (MySQL.insertJob s'.now s'.table.next i).isSome) s' a.held := by
  obtain ⟨a, ha, hr⟩ := InMemory.simulates.trace h .initial
  obtain ⟨a', ha', hr'⟩ := (MySQL.Cluster.simulates node).trace h' (.initial hc)
  exact ⟨⟨a, conforms ha, hr.toRepresents, hr.responds⟩,
    a', conforms ha', hr'.toRepresents, hr'.responds⟩

def tried (key : ℕ) : List Label :=
  [.tick 5, .push MySQL.Cluster.sampleJob key 1,
    .pop 10 [Spec.accept 5 key 1 MySQL.Cluster.sampleJob],
    .complete (Spec.accept 5 key 1 MySQL.Cluster.sampleJob) MySQL.Cluster.failure]

theorem tried_inRange (key : ℕ) :
    (Label.complete (Spec.accept 5 key 1 MySQL.Cluster.sampleJob) MySQL.Cluster.failure).InRange
      5 := by
  intro _
  change 5 + nextDelay 60 < 2 ^ 64
  decide +kernel

theorem inMemory_tries :
    ∃ s, Trace (fun s l t ↦ l.InRange s.now ∧ InMemory.Does s l t) .initial (tried 0) s := by
  obtain ⟨v, hv⟩ := Option.isSome_iff_exists.mp
    (show (exec InMemory.step .initial ([.tick 5, .push MySQL.Cluster.sampleJob, .pop 10] ++
      [.complete 0 0 MySQL.Cluster.failure, .finish 0])).isSome = true by decide +kernel)
  obtain ⟨u, hu, hv⟩ := exec_append.mp hv
  obtain ⟨u', hu', he⟩ := Option.map_eq_some_iff.mp
    (show (exec InMemory.step .initial [.tick 5, .push MySQL.Cluster.sampleJob, .pop 10]).map
      (fun s ↦ (s.now, s.held)) = some (5, [0]) by decide +kernel)
  cases hu.symm.trans hu'
  obtain ⟨hnow, hheld⟩ := Prod.mk.inj he
  obtain ⟨s₁, h₁, hu⟩ := exec_cons hu
  cases h₁
  obtain ⟨s₂, h₂, hu⟩ := exec_cons hu
  cases h₂
  obtain ⟨s₃, h₃, hu⟩ := exec_cons hu
  cases hu
  have hview : InMemory.view (InMemory.push
      { InMemory.State.initial with now := InMemory.State.initial.now + 5 }
      MySQL.Cluster.sampleJob).objects 0 = Spec.accept 5 0 1 MySQL.Cluster.sampleJob := by
    decide +kernel
  have hpop := InMemory.Does.pop h₃ hheld
  have hcomplete := InMemory.Does.complete hv
  rw [(InMemory.pop_live h₃).2.1, hview] at hcomplete
  rw [List.map_singleton, hview] at hpop
  refine ⟨v, .cons ⟨trivial, .tick rfl⟩ (.cons ⟨?_, .push rfl⟩ (.cons ⟨trivial, hpop⟩
    (.cons ⟨?_, hcomplete⟩ (.nil v))))⟩
  · exact ⟨by decide, by decide⟩
  · rw [hnow]
    exact tried_inRange 0

def firstTry : List MySQL.Cluster.Event :=
  [.tick 5, .push MySQL.Cluster.sampleJob true] ++
    ([.popStart 0 0 10, .preselect 0 [1], .beginTx 0,
      .selectForUpdate 0 [MySQL.Cluster.sampleRow]] ++
      [.launch 0, .commit 0, .popReturn 0 [MySQL.Job.scan MySQL.Cluster.sampleRow]])

theorem mysql_tries : ∃ s₀ s, MySQL.Cluster.step .initial (.connect 0 7) = some s₀ ∧
    Trace (fun s l t ↦ l.InRange s.now ∧ MySQL.Cluster.Does 0 s l t) s₀ (tried 1) s := by
  obtain ⟨v, hv⟩ := Option.isSome_iff_exists.mp
    (show (exec MySQL.Cluster.step .initial ((.connect 0 7 :: firstTry) ++
      [.complete 0 ⟨⟨0, 7⟩, MySQL.Job.scan MySQL.Cluster.sampleRow⟩ MySQL.Cluster.failure,
        .update 0 true])).isSome = true by decide +kernel)
  obtain ⟨u, hu, hv⟩ := exec_append.mp hv
  obtain ⟨u', hu', hnow⟩ := Option.map_eq_some_iff.mp
    (show (exec MySQL.Cluster.step .initial (.connect 0 7 :: firstTry)).map
      MySQL.Cluster.State.now = some 5 by decide +kernel)
  cases hu.symm.trans hu'
  obtain ⟨s₀, h₀, hu⟩ := exec_cons hu
  refine ⟨s₀, v, h₀, ?_⟩
  cases h₀
  obtain ⟨s₂, h₂, hu⟩ := exec_append.mp hu
  obtain ⟨s₁, h₁, h₂⟩ := exec_cons h₂
  cases h₁
  obtain ⟨s₂, h₂, he⟩ := exec_cons h₂
  cases he
  have hview : (MySQL.Job.scan MySQL.Cluster.sampleRow).view =
      Spec.accept 5 1 1 MySQL.Cluster.sampleJob := rfl
  have hpop := MySQL.Cluster.Does.pop (by decide) hu
  have hcomplete : MySQL.Cluster.Does 0 u _ v := .retry hv
  rw [List.map_singleton, hview] at hpop
  rw [hview] at hcomplete
  refine .cons ⟨trivial, .tick rfl⟩ (.cons ⟨?_, .push h₂⟩ (.cons ⟨trivial, hpop⟩
    (.cons ⟨?_, hcomplete⟩ (.nil v))))
  · exact ⟨by decide, by decide⟩
  · rw [hnow]
    exact tried_inRange 1

theorem drivers_refine_tried : ∃ s s₀ s',
    Trace (fun s l t ↦ l.InRange s.now ∧ InMemory.Does s l t) .initial (tried 0) s ∧
    MySQL.Cluster.step .initial (.connect 0 7) = some s₀ ∧
    Trace (fun s l t ↦ l.InRange s.now ∧ MySQL.Cluster.Does 0 s l t) s₀ (tried 1) s' ∧
    (∃ a, Conforms (tried 0) a ∧ InMemory.Represents s a ∧
      Responds InMemory.Does (fun _ ↦ True) s a.held) ∧
    ∃ a, Conforms (tried 1) a ∧ MySQL.Cluster.Represents s' a ∧
      Responds (MySQL.Cluster.Does 0)
        (fun i ↦ (MySQL.insertJob s'.now s'.table.next i).isSome) s' a.held := by
  obtain ⟨s, hs⟩ := inMemory_tries
  obtain ⟨s₀, s', hc, hs'⟩ := mysql_tries
  exact ⟨s, s₀, s', hs, hc, hs', drivers_refine hs hc hs'⟩

/-- One job is due, but `Pop` panics while it allocates its answer. -/
theorem oversized_pop_panics : ∃ s,
    Trace (fun s l t ↦ l.InRange s.now ∧ InMemory.Does s l t) .initial
      [.push MySQL.Cluster.sampleJob 0 1] s ∧
    InMemory.nextTry s.objects 0 ≤ s.now ∧ 0 ∈ s.queue ∧
    ∀ out t, ¬ InMemory.Does s (.pop (2 ^ 44 + 1) out) t := by
  refine ⟨_, .cons ⟨⟨by decide, by decide⟩, .push rfl⟩ (.nil _), by decide +kernel,
    by decide +kernel, fun out t h ↦ ?_⟩
  generalize hl : Label.pop (2 ^ 44 + 1) out = l at h
  cases h with
  | pop ht =>
    obtain ⟨rfl, -⟩ := Label.pop.inj hl
    change InMemory.pop _ (2 ^ 44 + 1) = some t at ht
    rw [InMemory.pop, if_neg (by decide)] at ht
    cases ht
  | tick | takeId | push | complete => cases hl

end Fireworq.JobQueue
