import Fireworq.JobQueue.Completion
import Fireworq.Refinement
import Mathlib.Data.Multiset.AddSub
import Mathlib.Data.Multiset.Count
import Mathlib.Data.Multiset.MapFold
import Mathlib.Data.Multiset.UnionInter
import Mathlib.Data.Set.Insert

namespace Fireworq.JobQueue.Spec

open GoInt Refinement

/-- A job of the abstract queue. The key tells jobs apart, also those that an
implementation gives the same id. -/
structure Job where
  key : ℕ
  id : ℕ
  category : String
  url : String
  payload : String
  timeout : ℕ
  retryDelay : ℕ
  failureUrl : String
  createdAt : ℕ
  nextTry : ℕ
  retryCount : ℕ
  failCount : ℕ
  deriving DecidableEq

def accept (now key id : ℕ) (i : IncomingJob) : Job where
  key := key
  id := id
  category := i.category
  url := i.url
  payload := i.payload
  timeout := i.timeout
  retryDelay := i.retryDelay
  failureUrl := i.failureUrl
  createdAt := now
  nextTry := now + i.nextDelay
  retryCount := i.retryCount
  failCount := 0

def Job.retry (now : ℕ) (j : Job) : Job :=
  { j with
    nextTry := now + nextDelay j.retryDelay
    retryCount := j.retryCount - 1
    failCount := j.failCount + 1 }

@[simp] theorem accept_key (now key id : ℕ) (i : IncomingJob) : (accept now key id i).key = key :=
  rfl

@[simp] theorem Job.retry_key (now : ℕ) (j : Job) : (j.retry now).key = j.key := by
  rw [Job.retry]

/-- Jobs wait, or are held by whoever has popped them. A used key is not given
to another job. -/
structure State where
  now : ℕ
  waiting : Multiset Job
  held : Multiset Job
  used : Set ℕ

def State.initial : State where
  now := 0
  waiting := 0
  held := 0
  used := ∅

inductive Label
  | tick (ms : ℕ)
  | push (i : IncomingJob) (key id : ℕ)
  | pop (limit : ℕ) (out : List Job)
  | complete (j : Job) (res : Result)

/-- What `Pop` returns and what it leaves behind. -/
structure Pops (now limit : ℕ) (waiting : Multiset Job) (out : List Job) (rest : Multiset Job) :
    Prop where
  split : waiting = out + rest
  nodup : (out.map Job.key).Nodup
  sorted : out.Pairwise fun i j ↦ i.nextTry ≤ j.nextTry
  length : out.length = min limit (waiting.countP fun j ↦ j.nextTry ≤ now)
  due : ∀ j ∈ out, j.nextTry ≤ now
  earliest : ∀ j ∈ out, ∀ i ∈ rest, i.nextTry ≤ now → j.nextTry ≤ i.nextTry

inductive Steps : State → Label → State → Prop
  | tick {s : State} {ms : ℕ} : Steps s (.tick ms) { s with now := s.now + ms }
  | push {s : State} {i : IncomingJob} {key id : ℕ} : key ∉ s.used →
      Steps s (.push i key id) { s with
        waiting := accept s.now key id i ::ₘ s.waiting
        used := insert key s.used }
  | pop {s : State} {limit : ℕ} {out : List Job} {rest : Multiset Job} :
      Pops s.now limit s.waiting out rest →
      Steps s (.pop limit out) { s with waiting := rest, held := s.held + out }
  | retry {s : State} {j : Job} {res : Result} : j ∈ s.held →
      completion res j.retryCount = .retry →
      Steps s (.complete j res) { s with
        waiting := j.retry s.now ::ₘ s.waiting
        held := s.held.erase j }
  | delete {s : State} {j : Job} {res : Result} : j ∈ s.held →
      completion res j.retryCount ≠ .retry →
      Steps s (.complete j res) { s with held := s.held.erase j }

def State.jobs (s : State) : Multiset Job := s.waiting + s.held

structure KeyInv (s : State) : Prop where
  nodup : (s.jobs.map Job.key).Nodup
  used : ∀ j ∈ s.jobs, j.key ∈ s.used

def CountInv (bound : ℕ) (s : State) : Prop := ∀ j ∈ s.jobs, j.retryCount + j.failCount < bound

structure Gone (key : ℕ) (s : State) : Prop where
  used : key ∈ s.used
  absent : ∀ j ∈ s.jobs, j.key ≠ key

section Steps

variable {s t : State} {l : Label} {j : Job} {key : ℕ}

theorem jobs_step (h : Steps s l t) :
    (∃ i key id, l = .push i key id ∧ key ∉ s.used ∧ t.used = insert key s.used ∧
      t.jobs = accept s.now key id i ::ₘ s.jobs) ∨
    t.used = s.used ∧ (t.jobs = s.jobs ∨
      (∃ j res, l = .complete j res ∧ completion res j.retryCount = .retry ∧
        ∃ rest, s.jobs = j ::ₘ rest ∧ t.jobs = j.retry s.now ::ₘ rest) ∨
      ∃ j res, l = .complete j res ∧ completion res j.retryCount ≠ .retry ∧
        s.jobs = j ::ₘ t.jobs) := by
  cases h with
  | tick => exact .inr ⟨rfl, .inl rfl⟩
  | @push i key id hkey =>
    exact .inl ⟨i, key, id, rfl, hkey, rfl, Multiset.cons_add _ _ _⟩
  | @pop limit out rest hp =>
    refine .inr ⟨rfl, .inl ?_⟩
    simp only [State.jobs, hp.split]
    rw [Multiset.add_comm (out : Multiset Job) rest, Multiset.add_assoc,
      Multiset.add_comm (out : Multiset Job) s.held]
  | @retry j res hj hr =>
    refine .inr ⟨rfl, .inr (.inl ⟨j, res, rfl, hr, s.waiting + s.held.erase j, ?_, ?_⟩)⟩
    · rw [← Multiset.add_cons, Multiset.cons_erase hj, State.jobs]
    · exact Multiset.cons_add _ _ _
  | @delete j res hj hr =>
    refine .inr ⟨rfl, .inr (.inr ⟨j, res, rfl, hr, ?_⟩)⟩
    rw [State.jobs, State.jobs, ← Multiset.add_cons, Multiset.cons_erase hj]

theorem KeyInv.initial : KeyInv .initial := ⟨Multiset.nodup_zero, nofun⟩

theorem KeyInv.step (hi : KeyInv s) (h : Steps s l t) : KeyInv t := by
  rcases jobs_step h with ⟨i, key, id, rfl, hkey, hused, ht⟩ |
    ⟨hused, ht | ⟨j, res, rfl, -, rest, hs, ht⟩ | ⟨j, res, rfl, -, hs⟩⟩
  · refine ⟨?_, fun j hj ↦ ?_⟩
    · rw [ht, Multiset.map_cons, Multiset.nodup_cons]
      refine ⟨fun hmem ↦ ?_, hi.nodup⟩
      obtain ⟨j, hj, hjk⟩ := Multiset.mem_map.mp hmem
      rw [accept_key] at hjk
      exact hkey (hjk ▸ hi.used j hj)
    · rw [hused]
      rw [ht, Multiset.mem_cons] at hj
      rcases hj with rfl | hj
      · exact Set.mem_insert key s.used
      · exact Set.mem_insert_of_mem key (hi.used j hj)
  · exact ⟨ht ▸ hi.nodup, fun j hj ↦ hused ▸ hi.used j (ht ▸ hj)⟩
  · have hnodup := hi.nodup
    have hkeys := hi.used
    rw [hs] at hnodup hkeys
    refine ⟨?_, fun i hmem ↦ ?_⟩
    · rw [ht, Multiset.map_cons, Job.retry_key, ← Multiset.map_cons]
      exact hnodup
    · rw [hused]
      rw [ht, Multiset.mem_cons] at hmem
      rcases hmem with rfl | hmem
      · rw [Job.retry_key]
        exact hkeys j (Multiset.mem_cons_self j rest)
      · exact hkeys i (Multiset.mem_cons_of_mem hmem)
  · have hnodup := hi.nodup
    rw [hs, Multiset.map_cons] at hnodup
    refine ⟨(Multiset.nodup_cons.mp hnodup).2, fun i hmem ↦ ?_⟩
    rw [hused]
    exact hi.used i (hs ▸ Multiset.mem_cons_of_mem hmem)

theorem CountInv.step {bound : ℕ} (hi : CountInv bound s) (h : Steps s l t)
    (hl : ∀ i key id, l = .push i key id → i.retryCount < bound) : CountInv bound t := by
  rcases jobs_step h with ⟨i, key, id, rfl, -, -, ht⟩ |
    ⟨-, ht | ⟨j, res, rfl, hr, rest, hs, ht⟩ | ⟨j, res, rfl, -, hs⟩⟩
  · intro j hj
    rw [ht, Multiset.mem_cons] at hj
    rcases hj with rfl | hj
    · exact hl i key id rfl
    · exact hi j hj
  · intro j hj
    exact hi j (ht ▸ hj)
  · intro i hmem
    rw [ht, Multiset.mem_cons] at hmem
    rcases hmem with rfl | hmem
    · have hpos := retryCount_pos hr
      have hlt := hi j (hs ▸ Multiset.mem_cons_self j rest)
      simp only [Job.retry]
      omega
    · exact hi i (hs ▸ Multiset.mem_cons_of_mem hmem)
  · intro i hmem
    exact hi i (hs ▸ Multiset.mem_cons_of_mem hmem)

theorem gone_of_delete {res : Result} (hi : KeyInv s) (h : Steps s (.complete j res) t)
    (hne : completion res j.retryCount ≠ .retry) : Gone j.key t := by
  cases h with
  | retry _ hr => exact absurd hr hne
  | delete hj =>
    have hnodup := hi.nodup
    rw [State.jobs, ← Multiset.cons_erase hj, Multiset.add_cons, Multiset.map_cons,
      Multiset.nodup_cons] at hnodup
    refine ⟨hi.used j (Multiset.mem_add.mpr (.inr hj)), fun i hmem hik ↦ hnodup.1 ?_⟩
    rw [← hik]
    exact Multiset.mem_map_of_mem Job.key hmem

theorem Gone.step (hg : Gone key s) (h : Steps s l t) : Gone key t := by
  rcases jobs_step h with ⟨i, key', id, rfl, hkey, hused, ht⟩ |
    ⟨hused, ht | ⟨j, res, rfl, -, rest, hs, ht⟩ | ⟨j, res, rfl, -, hs⟩⟩
  · refine ⟨hused ▸ Set.mem_insert_of_mem key' hg.used, fun j hj ↦ ?_⟩
    rw [ht, Multiset.mem_cons] at hj
    rcases hj with rfl | hj
    · rintro rfl
      exact hkey hg.used
    · exact hg.absent j hj
  · exact ⟨hused ▸ hg.used, fun j hj ↦ hg.absent j (ht ▸ hj)⟩
  · refine ⟨hused ▸ hg.used, fun i hmem ↦ ?_⟩
    rw [ht, Multiset.mem_cons] at hmem
    rcases hmem with rfl | hmem
    · rw [Job.retry_key]
      exact hg.absent j (hs ▸ Multiset.mem_cons_self j rest)
    · exact hg.absent i (hs ▸ Multiset.mem_cons_of_mem hmem)
  · exact ⟨hused ▸ hg.used, fun i hmem ↦ hg.absent i (hs ▸ Multiset.mem_cons_of_mem hmem)⟩

theorem Gone.pop {limit : ℕ} {out : List Job} (hg : Gone key s) (h : Steps s (.pop limit out) t)
    (hj : j ∈ out) : j.key ≠ key := by
  cases h with
  | pop hp =>
    refine hg.absent j (Multiset.mem_add.mpr (.inl ?_))
    rw [hp.split]
    exact Multiset.mem_add.mpr (.inl hj)

theorem KeyInv.nodup_out {out : List Job} {rest : Multiset Job} (hi : KeyInv s)
    (hs : s.waiting = out + rest) : (out.map Job.key).Nodup := by
  have hnodup := hi.nodup
  rw [State.jobs, hs, Multiset.map_add, Multiset.map_add] at hnodup
  exact (Multiset.nodup_add.mp (Multiset.nodup_add.mp hnodup).1).1

end Steps

structure Conforms (ls : List Label) (s : State) : Prop where
  trace : Trace Steps .initial ls s
  deleted : ∀ xs j res ys, ls = xs ++ .complete j res :: ys →
    completion res j.retryCount ≠ .retry →
    Gone j.key s ∧ ∀ limit out, .pop limit out ∈ ys → ∀ i ∈ out, i.key ≠ j.key

theorem conforms {ls : List Label} {s : State} (h : Trace Steps .initial ls s) :
    Conforms ls s := by
  refine ⟨h, fun xs j res ys hls hne ↦ ?_⟩
  subst hls
  obtain ⟨t, u, ht, hu, hs⟩ := h.split
  have hkeys : KeyInv t := ht.invariant KeyInv (fun _ _ _ ↦ KeyInv.step) .initial
  have hgone := gone_of_delete hkeys hu hne
  refine ⟨hs.invariant (Gone j.key) (fun _ _ _ ↦ Gone.step) hgone, fun limit out hmem i hi ↦ ?_⟩
  obtain ⟨v, w, hv, hw⟩ := hs.enabled (Gone j.key) (fun _ _ _ ↦ Gone.step) hgone hmem
  exact hv.pop hw hi

def Label.InRange (now : ℕ) : Label → Prop
  | .push i _ _ => now + i.nextDelay < 2 ^ 64 ∧ i.retryCount < 2 ^ 64
  | .complete j res => completion res j.retryCount = .retry →
      now + nextDelay j.retryDelay < 2 ^ 64
  | _ => True

/-- The operations that return. -/
structure Responds {σ : Type} (does : σ → Label → σ → Prop) (accepts : IncomingJob → Prop) (s : σ)
    (held : Multiset Job) : Prop where
  push : ∀ i, accepts i → ∃ key id t, does s (.push i key id) t
  pop : ∀ limit, makes 16 limit → ∃ out t, does s (.pop limit out) t
  complete : ∀ j ∈ held, ∀ res, ∃ t, does s (.complete j res) t

end Fireworq.JobQueue.Spec
