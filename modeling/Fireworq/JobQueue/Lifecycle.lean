import Fireworq.InMemory.Lifecycle
import Fireworq.MySQL.Lifecycle

namespace Fireworq.JobQueue

open Execution

/-- The attempts of a job in both drivers. In memory its retry delay has to fit a
`time.Duration`, which the column of the table ensures in MySQL. -/
theorem retry_lifecycle (results : ℕ → Result) :
    (∀ es s p j, InMemory.Run es s → (∀ e ∈ es, e.typed) → s.objects[p]? = some j →
      j.incoming.retryCount + 1 < 2 ^ 64 → j.incoming.retryDelay ≤ 9223372036 →
      Recorded results (InMemory.tried p es) → InMemory.Lifecycle results p j.incoming es s) ∧
    ∀ es s id i, MySQL.Cluster.Run es s → MySQL.Cluster.CalmRun id es →
      MySQL.Cluster.Pushed es id i → Recorded results (MySQL.Cluster.tried id es) →
      MySQL.Cluster.Lifecycle results id i es s := by
  constructor
  · intro es s p j h ht hj hm hd hrec
    exact h.lifecycle ht hj hm hd hrec
  · intro es s id i h hc hp hrec
    exact h.lifecycle hc hp hrec

def triedTwice : List MySQL.Cluster.Event :=
  MySQL.Cluster.firstTry ++ .update 0 true :: MySQL.Cluster.secondTry

theorem triedTwice_calm : MySQL.Cluster.CalmRun 1 triedTwice := by
  refine Along.append (MySQL.Cluster.along_calm ?_ ?_ ?_ ?_ ?_ ?_ _) fun u hu ↦
    ⟨fun _ ↦ ⟨by simp, ?_, ?_, by simp, by simp⟩,
      fun t _ ↦ MySQL.Cluster.along_calm ?_ ?_ ?_ ?_ ?_ ?_ t⟩
  case refine_7 =>
    intro k _ _ _
    simp
  case refine_8 =>
    intro k g next hk hcall _
    cases hk
    obtain ⟨u', hu', hstate⟩ := Option.map_eq_some_iff.mp
      (show (exec MySQL.Cluster.step .initial MySQL.Cluster.firstTry).map (fun s ↦
        (s.now, (s.completes 0).map MySQL.Cluster.CompleteCall.phase)) =
          some (5, some (.updating ⟨60000, 2, 1⟩)) by decide +kernel)
    cases Option.some.inj (hu.symm.trans hu')
    obtain ⟨hnow, hphase⟩ := Prod.mk.inj hstate
    rw [hcall] at hphase
    cases hphase
    rw [hnow]
    decide
  all_goals simp [MySQL.Cluster.firstTry, MySQL.Cluster.secondTry]

theorem retry_lifecycle_sample :
    (∃ s, InMemory.Run retriedOnce s ∧
      InMemory.Lifecycle (fun _ ↦ MySQL.Cluster.failure) 0 MySQL.Cluster.sampleJob retriedOnce s) ∧
    ∃ s, MySQL.Cluster.Run triedTwice s ∧
      MySQL.Cluster.Lifecycle (fun _ ↦ MySQL.Cluster.failure) 1 MySQL.Cluster.sampleJob
        triedTwice s := by
  constructor
  · obtain ⟨s, hs, hj⟩ := Option.map_eq_some_iff.mp
      (show (exec InMemory.step .initial retriedOnce).map (fun s ↦ s.objects[0]?.map fun j ↦
        decide (j.incoming = MySQL.Cluster.sampleJob)) = some (some true) by decide +kernel)
    obtain ⟨j, hj, hin⟩ := Option.map_eq_some_iff.mp hj
    have hin := of_decide_eq_true hin
    have hl := (retry_lifecycle fun _ ↦ MySQL.Cluster.failure).1 retriedOnce s 0 j hs
      (by simp [retriedOnce, InMemory.Event.typed, MySQL.Cluster.sampleJob]) hj
      (by rw [hin]; decide) (by rw [hin]; decide) ?_
    · rw [hin] at hl
      exact ⟨s, hs, hl⟩
    · intro i r hr
      exact (List.mem_singleton.mp (List.mem_of_getElem? hr))
  · obtain ⟨s, hs⟩ := Option.isSome_iff_exists.mp
      (show (exec MySQL.Cluster.step .initial triedTwice).isSome = true by decide +kernel)
    refine ⟨s, hs, (retry_lifecycle _).2 _ s 1 _ hs triedTwice_calm ?_ ?_⟩
    · obtain ⟨u, v, hu, hv, -⟩ := exec_split (show exec MySQL.Cluster.step .initial
        ([.connect 0 7, .tick 5] ++ .push MySQL.Cluster.sampleJob true :: _) = some s from hs)
      obtain ⟨u', hu', hnext⟩ := Option.map_eq_some_iff.mp
        (show (exec MySQL.Cluster.step .initial [.connect 0 7, .tick 5]).map
          (fun s ↦ s.table.next) = some 1 by decide +kernel)
      cases Option.some.inj (hu.symm.trans hu')
      exact ⟨_, true, _, u, v, rfl, hu, hv, hnext⟩
    · intro i r hr
      exact List.mem_singleton.mp (List.mem_of_getElem? hr)

def longDelay : IncomingJob := { MySQL.Cluster.sampleJob with retryDelay := 10000000000 }

def longTry : List InMemory.Event :=
  [.push longDelay, .pop 1, .complete 0 0 MySQL.Cluster.failure]

/-- The job is not scheduled for the end of its retry delay. -/
theorem longDelay_overflows : ∃ s, InMemory.Run (longTry ++ [.finish 0]) s ∧
    (∀ e ∈ longTry ++ [.finish 0], e.typed) ∧
    Recorded (fun _ ↦ MySQL.Cluster.failure) (InMemory.tried 0 (longTry ++ [.finish 0])) ∧
    ¬ InMemory.Lifecycle (fun _ ↦ MySQL.Cluster.failure) 0 longDelay (longTry ++ [.finish 0])
      s := by
  obtain ⟨s, hs⟩ := Option.isSome_iff_exists.mp
    (show (exec InMemory.step .initial (longTry ++ [.finish 0])).isSome = true by decide +kernel)
  refine ⟨s, hs, ?_, ?_, fun hl ↦ ?_⟩
  · simp [longTry, InMemory.Event.typed, longDelay, MySQL.Cluster.sampleJob]
  · intro i r hr
    exact List.mem_singleton.mp (List.mem_of_getElem? hr)
  · obtain ⟨u, v, hu, hv, hvs⟩ := exec_split hs
    cases hvs
    obtain ⟨u', hu', hcall⟩ := Option.map_eq_some_iff.mp
      (show (exec InMemory.step .initial longTry).map (fun s ↦ (s.now, s.completes 0)) =
        some (0, some ⟨0, .retry, false⟩) by decide +kernel)
    cases Option.some.inj (hu.symm.trans hu')
    obtain ⟨hnow, hcall⟩ := Prod.mk.inj hcall
    obtain ⟨-, -, j, hj, htry, -⟩ := hl.rescheduled longTry 0 [] u s rfl hu hv hcall
    obtain ⟨v', hv', hdelay⟩ := Option.map_eq_some_iff.mp
      (show (exec InMemory.step .initial (longTry ++ [.finish 0])).map
        (fun s ↦ s.objects[0]?.map InMemory.Job.nextTry) = some (some 18446735626965477907) by
        decide +kernel)
    cases Option.some.inj (hs.symm.trans hv')
    rw [hj, Option.map_some, htry, hnow] at hdelay
    exact absurd hdelay (by decide +kernel)

end Fireworq.JobQueue
