import Fireworq.InMemory.Queue
import Fireworq.Service.Driver

namespace Fireworq.Service.Lifecycle.Memory

open Execution GoInt
open JobQueue (IncomingJob)
open InMemory (Present Finished Located)

inductive Op
  | tick (ms : ℕ)
  | push (i : ℕ) (job : IncomingJob)
  | own (i : ℕ) (e : InMemory.Event)
  deriving DecidableEq

def does (s : ℕ → InMemory.State) : Op → Option (ℕ → InMemory.State)
  | .tick ms => some fun i ↦ { s i with now := (s i).now + ms }
  | .push i job => some fun j ↦
    if j = i then InMemory.push (s j) job else { s j with lastId := uint64 ((s j).lastId + 1) }
  | .own i e => (InMemory.step (s i) e).map (Function.update s i)

/-- The driver `in-memory`: `New` makes an empty queue for each running queue, the
dispatcher pops and completes jobs, and `Stop` does nothing. -/
@[reducible] def driver : Driver where
  Store := ℕ → InMemory.State
  Op := Op
  initial := fun _ ↦ .initial
  does := does
  pushes s _ i job id op := op = some (.push i job) ∧ id = some (uint64 ((s i).lastId + 1))
  owns _ q i op := match op with
    | .own j (.pop _) | .own j (.complete _ _ _) => j = i && q.dispatching
    | .own j (.finish _) => j = i
    | _ => false
  free op := match op with
    | .tick _ => true
    | _ => false
  closed _ _ _ := true

def Op.on (i : ℕ) : Op → Bool
  | .tick _ => false
  | .push j _ | .own j _ => j = i

variable {cfg : Config} {s t : ℕ → InMemory.State} {op : Op} {i : ℕ} {w w' : driver.World}
  {e : driver.Event} {es : List driver.Event} {q : RunningQueue}

theorem does_step (h : does s op = some t) (i : ℕ) :
    t i = s i ∨ ∃ e, InMemory.step (s i) e = some (t i) := by
  cases op with
  | tick ms =>
    cases h
    exact .inr ⟨.tick ms, rfl⟩
  | push j job =>
    cases h
    dsimp only
    by_cases hij : i = j
    · exact .inr ⟨.push job, by rw [if_pos hij]; rfl⟩
    · exact .inr ⟨.takeId, by rw [if_neg hij]; rfl⟩
  | own j e =>
    obtain ⟨u, hu, rfl⟩ := Option.map_eq_some_iff.mp h
    by_cases hij : i = j
    · subst hij
      exact .inr ⟨e, by rw [Function.update_self, hu]⟩
    · exact .inl (Function.update_of_ne hij _ _)

theorem does_frame (h : does s op = some t) (hi : op.on i = false) :
    (t i).objects = (s i).objects ∧ (t i).completes = (s i).completes := by
  cases op with
  | tick ms => cases h; exact ⟨rfl, rfl⟩
  | push j job =>
    cases h
    dsimp only
    rw [if_neg fun hij ↦ of_decide_eq_false hi hij.symm]
    exact ⟨rfl, rfl⟩
  | own j e =>
    obtain ⟨u, hu, rfl⟩ := Option.map_eq_some_iff.mp h
    rw [Function.update_of_ne fun hij ↦ of_decide_eq_false hi hij.symm]
    exact ⟨rfl, rfl⟩

theorem owns_on (h : driver.owns s q i op = true) {j : ℕ} (hj : j ≠ i) : op.on j = false := by
  cases op with
  | own k e =>
    have hk : k = i := by
      cases e with
      | finish => exact of_decide_eq_true h
      | pop | complete => exact of_decide_eq_true (Bool.and_eq_true_iff.mp h).1
      | tick | takeId | push => cases h
    exact decide_eq_false (hk ▸ hj.symm)
  | tick | push => cases h

def Has (s : ℕ → InMemory.State) (i id p : ℕ) : Prop :=
  ∃ j, (s i).objects[p]? = some j ∧ j.id = id

theorem Has.does {id p : ℕ} (hh : Has s i id p) (h : does s op = some t) : Has t i id p := by
  obtain ⟨j, hj, hid⟩ := hh
  rcases does_step h i with heq | ⟨e, he⟩
  · exact ⟨j, heq ▸ hj, hid⟩
  · obtain ⟨j', hj', -, hid'⟩ := InMemory.object_step he hj
    exact ⟨j', hj', hid'.trans hid⟩

structure StoreInv (w : driver.World) : Prop where
  located : ∀ i, Located (w.store i)
  accepted : ∀ (i : ℕ) (q : RunningQueue) (id : ℕ), w.service.queues[i]? = some q →
    .pushed (some id) ∈ q.acts → ∃ p, Has w.store i id p

theorem located_does (hl : ∀ i, Located (s i)) (h : does s op = some t) : ∀ i, Located (t i) := by
  intro i
  rcases does_step h i with heq | ⟨e, he⟩
  · exact heq ▸ hl i
  · exact (hl i).step he

theorem push_has {job : IncomingJob} (h : does s (.push i job) = some t) :
    Has t i (uint64 ((s i).lastId + 1)) (s i).objects.length := by
  cases h
  simp only [Has, if_pos, InMemory.push, List.getElem?_concat_length]
  exact ⟨_, rfl, rfl⟩

theorem StoreInv.step (hs : StoreInv w) (h : driver.step cfg w e = some w') : StoreInv w' := by
  cases Driver.step_moves h with
  | @push e op v t i job id q hv hret hq hp ht =>
    obtain ⟨rfl, rfl⟩ := of_decide_eq_true hp
    obtain ⟨-, hnone⟩ | ⟨o, ho, ht⟩ := ht
    · cases hnone
    · cases ho
      have ht : does w.store (.push i job) = some t := ht
      refine ⟨located_does hs.located ht, fun j q' id' hq' hid ↦ ?_⟩
      rcases accepted_step hv hq' hid with ⟨p, hp, -, hid⟩ | ⟨p, job', -, -, hret'⟩
      · obtain ⟨pos, hhas⟩ := hs.accepted j p id' hp hid
        exact ⟨pos, hhas.does ht⟩
      · cases hret.symm.trans hret'
        exact ⟨_, push_has ht⟩
  | quiet hv hret =>
    refine ⟨hs.located, fun j q' id' hq' hid ↦ ?_⟩
    rcases accepted_step hv hq' hid with ⟨p, hp, -, hid⟩ | ⟨p, job', -, -, hret'⟩
    · exact hs.accepted j p id' hp hid
    · cases hret.symm.trans hret'
  | own _ _ _ ht | free _ ht =>
    refine ⟨located_does hs.located ht, fun j q' id' hq' hid ↦ ?_⟩
    obtain ⟨pos, hhas⟩ := hs.accepted j q' id' hq' hid
    exact ⟨pos, hhas.does ht⟩

theorem Run.storeInv (h : driver.Run cfg es w) : StoreInv w :=
  invariant StoreInv (fun _ _ _ hs h ↦ hs.step h) h
    ⟨fun _ ↦ InMemory.located_initial, fun _ _ _ hq ↦ by cases hq⟩

/-- Queue `i`, which has accepted the job, is the one that serves the name and has
the job, unless the job has been completed. -/
def Holds (w : driver.World) (name : String) (i id : ℕ) : Prop :=
  (∃ p, Has w.store i id p) ∧ ∀ p, Has w.store i id p →
    Finished (w.store i) p ∨ Present (w.store i) p ∧ w.service.Serves name i

theorem holds_of_unstopped (hi : Inv w.service) (hs : StoreInv w) {id : ℕ}
    (hq : w.service.queues[i]? = some q) (hid : .pushed (some id) ∈ q.acts)
    (hu : q.unstopped = true) : Holds w q.name i id := by
  refine ⟨hs.accepted i q id hq hid, fun p ⟨j, hj, hjid⟩ ↦ ?_⟩
  rcases hs.located i p (List.getElem?_eq_some_iff.mp hj).1 with hp | hf
  · exact .inr ⟨hp, hi.serves (hi.running_of_acts hq hid hu)⟩
  · exact .inl hf

end Fireworq.Service.Lifecycle.Memory
