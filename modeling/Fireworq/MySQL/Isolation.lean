import Fireworq.MySQL.Cluster
import Fireworq.MySQL.TableName
import Fireworq.MySQL.Grabbing

namespace Fireworq.MySQL.Fleet

open Execution Function

/-- The queues of one database. What the nodes of a queue do is a matter of
the tables that the name of the queue leads to. -/
abbrev State := TableName → Cluster.State

def State.initial : State := fun _ ↦ .initial

inductive Event
  | tick (ms : ℕ)
  | op (queue : List UInt8) (e : Cluster.Event)
  deriving DecidableEq

def Event.queue : Event → Option (List UInt8)
  | .tick _ => none
  | .op queue _ => some queue

def step (s : State) : Event → Option State
  | .tick ms => some fun tn ↦ { s tn with now := (s tn).now + ms }
  | .op _ (.tick _) => none
  | .op queue e =>
    (Cluster.step (s (newTableName queue)) e).map (update s (newTableName queue))

def Run (es : List Event) (s : State) : Prop := exec step .initial es = some s

variable {s t : State} {a b : List UInt8}

theorem op_cases {queue : List UInt8} {e : Cluster.Event} (h : step s (.op queue e) = some t) :
    (∀ u, step u (.op queue e) =
      (Cluster.step (u (newTableName queue)) e).map (update u (newTableName queue))) ∧
    ∃ c, Cluster.step (s (newTableName queue)) e = some c ∧
      t = update s (newTableName queue) c := by
  have heq (u : State) : step u (.op queue e) =
      (Cluster.step (u (newTableName queue)) e).map (update u (newTableName queue)) := by
    cases e with
    | tick ms => cases h
    | _ => rfl
  rw [heq] at h
  obtain ⟨c, hc, rfl⟩ := Option.map_eq_some_iff.mp h
  exact ⟨heq, c, hc, rfl⟩

/-- The two queues use different tables, and whatever happens to `a`, the
tables of `b` and the calls on them are as if it had not happened. -/
structure Isolated (a b : List UInt8) : Prop where
  jobQueue : (newTableName a).jobQueue ≠ (newTableName b).jobQueue
  failure : (newTableName a).failure ≠ (newTableName b).failure
  crossed : (newTableName a).jobQueue ≠ (newTableName b).failure ∧
    (newTableName a).failure ≠ (newTableName b).jobQueue
  unaffected : ∀ es s, (∀ e ∈ es, e.queue = none ∨ e.queue = some a ∨ e.queue = some b) →
    Run es s → ∃ t, Run (es.filter fun e ↦ e.queue ≠ some a) t ∧
      t (newTableName b) = s (newTableName b)

theorem step_of_view {e : Event} {s₁ s₂ t₁ : State}
    (hview : s₂ (newTableName b) = s₁ (newTableName b)) (he : e.queue = none ∨ e.queue = some b)
    (h : step s₁ e = some t₁) :
    ∃ t₂, step s₂ e = some t₂ ∧ t₂ (newTableName b) = t₁ (newTableName b) := by
  cases e with
  | tick ms =>
    cases h
    exact ⟨_, rfl, by rw [hview]⟩
  | op queue e =>
    obtain rfl : queue = b := by simpa [Event.queue] using he
    obtain ⟨heq, c, hc, rfl⟩ := op_cases h
    refine ⟨update s₂ (newTableName queue) c, ?_, by simp⟩
    rw [heq, hview, hc, Option.map_some]

theorem unaffected_of_ne (hne : newTableName a ≠ newTableName b) {es : List Event}
    (hes : ∀ e ∈ es, e.queue = none ∨ e.queue = some a ∨ e.queue = some b) (h : Run es s) :
    ∃ t, Run (es.filter fun e ↦ e.queue ≠ some a) t ∧
      t (newTableName b) = s (newTableName b) := by
  refine exec_filter (fun s₁ s₂ ↦ s₂ (newTableName b) = s₁ (newTableName b))
    (fun e ↦ e.queue ≠ some a) ?_ ?_ rfl h
  · intro e he hk s₁ s₂ t₁ hview hstep
    refine step_of_view hview ?_ hstep
    rcases hes e he with hq | hq | hq
    · exact .inl hq
    · simp [hq] at hk
    · exact .inr hq
  · intro e _ hk s₁ s₂ t₁ hview hstep
    cases e with
    | tick ms => cases hk
    | op queue e =>
      obtain rfl : queue = a := by simpa [Event.queue] using hk
      obtain ⟨-, c, -, rfl⟩ := op_cases hstep
      rw [update_of_ne hne.symm, hview]

theorem isolated_iff (a b : List UInt8) : Isolated a b ↔ ¬ Confusable a b := by
  constructor
  · intro h hc
    exact h.jobQueue ((jobQueue_eq_iff a b).mpr hc)
  · intro hc
    have hjob := fun h ↦ hc ((jobQueue_eq_iff a b).mp h)
    have hfail := fun h ↦ hc ((failure_eq_iff a b).mp h)
    refine ⟨hjob, hfail, ⟨jobQueue_ne_failure a b, (jobQueue_ne_failure b a).symm⟩, ?_⟩
    intro es s hes h
    exact unaffected_of_ne (fun he ↦ hjob (congrArg TableName.jobQueue he)) hes h

def hyphenated : List UInt8 := [0x61, 0x2D, 0x62]

def underscored : List UInt8 := [0x61, 0x5F, 0x62]

def crossing : List Event :=
  .tick 5 ::
    ([.connect 0 7, .push Cluster.sampleJob true, .popStart 0 0 10, .preselect 0 [1], .beginTx 0,
      .selectForUpdate 0 [Cluster.sampleRow], .launch 0, .commit 0,
      .popReturn 0 [Job.scan Cluster.sampleRow]] : List Cluster.Event).map (.op hyphenated) ++
    ([.connect 1 8, .recover 1, .orphans 1 [1]] : List Cluster.Event).map (.op underscored)

theorem recover_crosses_queues :
    Admitted hyphenated ∧ Admitted underscored ∧ hyphenated ≠ underscored ∧
    ∃ s t, Run crossing s ∧ step s (.op underscored (.reclaim 1)) = some t ∧
      ((s (newTableName hyphenated)).table.find 1).map Row.status = some .grabbed ∧
      ((t (newTableName hyphenated)).table.find 1).map Row.status = some .claimed := by
  refine ⟨by decide, by decide, by decide, ?_⟩
  obtain ⟨s, hs, hval⟩ := Option.map_eq_some_iff.mp
    (show (exec step .initial crossing).map (fun s ↦
      (((s (newTableName hyphenated)).table.find 1).map Row.status,
        (step s (.op underscored (.reclaim 1))).map fun t ↦
          ((t (newTableName hyphenated)).table.find 1).map Row.status)) =
      some (some .grabbed, some (some .claimed)) by decide +kernel)
  obtain ⟨hbefore, hval⟩ := Prod.mk.inj hval
  obtain ⟨t, ht, hafter⟩ := Option.map_eq_some_iff.mp hval
  exact ⟨s, t, hs, ht, hbefore, hafter⟩

end Fireworq.MySQL.Fleet
