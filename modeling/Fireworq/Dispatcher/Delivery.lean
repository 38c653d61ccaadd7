import Fireworq.Dispatcher.Conservation
import Fireworq.JobQueue.Refinement

namespace Fireworq.Dispatcher.Delivery

open JobQueue Refinement Execution

variable {σ τ : Type}

/-- A queue with its dispatcher. Each call of the queue takes effect at one
point between its start and its end. -/
structure Node (σ : Type) where
  queue : σ
  dispatcher : State Spec.Job

inductive Action
  | client (l : Spec.Label)
  | pop (limit : ℕ) (out : List Spec.Job)
  | complete (k : ℕ) (j : Spec.Job) (res : Result)
  | alone (e : Event Spec.Job)

def Action.label : Action → Option Spec.Label
  | .client l => some l
  | .pop limit out => some (.pop limit out)
  | .complete _ j res => some (.complete j res)
  | .alone _ => none

def ofClient : Spec.Label → Prop
  | .tick _ | .push _ _ _ => True
  | .pop _ _ | .complete _ _ => False

def Alone : Event Spec.Job → Prop
  | .popReturn (some _) | .complete _ => False
  | _ => True

inductive Steps (does : σ → Spec.Label → σ → Prop) (cfg : Config) :
    Node σ → Action → Node σ → Prop
  | client {q q' : σ} {d : State Spec.Job} {l : Spec.Label} : ofClient l → does q l q' →
      Steps does cfg ⟨q, d⟩ (.client l) ⟨q', d⟩
  | pop {q q' : σ} {d d' : State Spec.Job} {reqn : ℕ} {out : List Spec.Job} :
      d.loop = .popping reqn → does q (.pop reqn out) q' →
      step cfg d (.popReturn (some out)) = some d' →
      Steps does cfg ⟨q, d⟩ (.pop reqn out) ⟨q', d'⟩
  | complete {q q' : σ} {d d' : State Spec.Job} {k i : ℕ} {j : Spec.Job} {res : Result} :
      d.workers[k]? = some ⟨i, .completing⟩ → d.popped[i]? = some j →
      does q (.complete j res) q' → step cfg d (.complete k) = some d' →
      Steps does cfg ⟨q, d⟩ (.complete k j res) ⟨q', d'⟩
  | alone {q : σ} {d d' : State Spec.Job} {e : Event Spec.Job} : Alone e →
      step cfg d e = some d' → Steps does cfg ⟨q, d⟩ (.alone e) ⟨q, d'⟩

section Outstanding

variable {α : Type} {d d' : State α} {cfg : Config}

def pending (d : State α) : List (α × ℕ) := d.popped.zipIdx.filter fun p ↦ p.2 ∉ d.completed

def outstanding (d : State α) : List α := (pending d).map Prod.fst

theorem mem_pending {x : α} {i : ℕ} :
    (x, i) ∈ pending d ↔ d.popped[i]? = some x ∧ i ∉ d.completed := by
  simp [pending, List.mem_zipIdx_iff_getElem?]

theorem pending_nodup (d : State α) : (pending d).Nodup :=
  List.Nodup.filter _ (List.Nodup.of_map Prod.snd (by
    rw [List.zipIdx_map_snd]
    exact List.nodup_range'))

def Kept (d : State α) : Prop := d.line = List.range d.popped.length

theorem Kept.ordered (h : Kept d) : Ordered d := by
  refine ⟨h ▸ List.pairwise_lt_range, fun i hi ↦ ?_⟩
  rw [h] at hi
  exact List.mem_range.mp hi

theorem Kept.pop {out : List α} {reqn : ℕ} (h : Kept d) (hl : d.loop = .popping reqn)
    (hle : out.length ≤ reqn) (hd : step cfg d (.popReturn (some out)) = some d') :
    Kept d' ∧ d'.popped = d.popped ++ out ∧ d'.completed = d.completed := by
  cases step_moves hd with
  | @popReturn reqn' n _ hl' _ _ hall =>
    cases hl.symm.trans hl'
    obtain rfl := hall hle
    refine ⟨?_, rfl, rfl⟩
    rw [Kept, List.length_append, List.range_add, ← List.range'_eq_map_range, ← h]
    simp only [State.line, hl, LoopPc.taken, LoopPc.unsent, List.append_nil, List.nil_append,
      List.append_assoc]

theorem Kept.rest (h : Kept d) {e : Event α} (hpop : ∀ out, e ≠ .popReturn (some out))
    (hd : step cfg d e = some d') : Kept d' ∧ d'.popped = d.popped := by
  cases step_moves hd with
  | popReturn => exact absurd rfl (hpop _)
  | _ =>
    rcases line_step hd with ⟨hline, hpopped⟩ | ⟨jobs, n, hline, hn, hpopped⟩
    · exact ⟨by rw [Kept, hline, hpopped]; exact h, hpopped⟩
    · obtain rfl : jobs = [] := List.self_eq_append_right.mp hpopped
      obtain rfl : n = 0 := Nat.le_zero.mp hn
      rw [List.range'_zero, List.append_nil] at hline
      rw [List.append_nil] at hpopped
      exact ⟨by rw [Kept, hline, hpopped]; exact h, hpopped⟩

theorem completed_rest {e : Event α} (he : ∀ k, e ≠ .complete k)
    (hd : step cfg d e = some d') : d'.completed = d.completed := by
  cases step_moves hd with
  | complete => exact absurd rfl (he _)
  | _ => rfl

theorem outstanding_append {out : List α} (hknown : ∀ i ∈ d.completed, i < d.popped.length)
    (hpopped : d'.popped = d.popped ++ out) (hcompleted : d'.completed = d.completed) :
    outstanding d' = outstanding d ++ out := by
  have hnew : (out.zipIdx d.popped.length).filter (fun p ↦ p.2 ∉ d.completed) =
      out.zipIdx d.popped.length := by
    refine List.filter_eq_self.mpr fun p hp ↦ decide_eq_true fun hmem ↦ ?_
    have hle := (List.mem_zipIdx hp).1
    have hlt := hknown _ hmem
    omega
  rw [outstanding, pending, hpopped, hcompleted, List.zipIdx_append, List.filter_append,
    Nat.zero_add, hnew, List.map_append, List.zipIdx_map_fst]
  rfl

theorem outstanding_complete {x : α} {i : ℕ} (hi : d.popped[i]? = some x)
    (hnew : i ∉ d.completed) (hpopped : d'.popped = d.popped)
    (hcompleted : d'.completed = d.completed ++ [i]) :
    (outstanding d).Perm (x :: outstanding d') := by
  have hmem : ∀ p, p ∈ pending d ↔ p ∈ (x, i) :: pending d' := by
    rintro ⟨y, k⟩
    rw [List.mem_cons, mem_pending, mem_pending, hpopped, hcompleted, List.mem_append,
      List.mem_singleton, Prod.mk.injEq]
    constructor
    · rintro ⟨hk, hc⟩
      rcases eq_or_ne k i with rfl | hne
      · exact .inl ⟨Option.some.inj (hk.symm.trans hi), rfl⟩
      · exact .inr ⟨hk, by simp [hc, hne]⟩
    · rintro (⟨rfl, rfl⟩ | ⟨hk, hc⟩)
      · exact ⟨hi, hnew⟩
      · exact ⟨hk, fun h ↦ hc (.inl h)⟩
  have hnot : (x, i) ∉ pending d' := fun h ↦ by
    have hc := (mem_pending.mp h).2
    rw [hcompleted] at hc
    simp at hc
  have hperm : (pending d).Perm ((x, i) :: pending d') :=
    (List.perm_ext_iff_of_nodup (pending_nodup d)
      (List.nodup_cons.mpr ⟨hnot, pending_nodup d'⟩)).mpr
      hmem
  exact hperm.map Prod.fst

end Outstanding

structure Inv (cfg : Config) (n : Node Spec.State) : Prop where
  keys : Spec.KeyInv n.queue
  bounded : Bounded cfg n.dispatcher
  recorded : Recorded n.dispatcher
  kept : Kept n.dispatcher
  held : n.queue.held = outstanding n.dispatcher

section Inv

variable {cfg : Config} {n m : Node Spec.State} {a : Action}

theorem Inv.initial (cfg : Config) : Inv cfg ⟨.initial, .initial⟩ where
  keys := .initial
  bounded := ⟨Nat.zero_le _, rfl, Nat.zero_le _, rfl⟩
  recorded := ⟨List.nodup_nil, nofun, nofun⟩
  kept := rfl
  held := rfl

theorem Inv.completed_lt (h : Inv cfg n) :
    ∀ i ∈ n.dispatcher.completed, i < n.dispatcher.popped.length := by
  intro i hi
  obtain ⟨w, hw, rfl, -⟩ := h.recorded.completed i hi
  exact h.kept.ordered.known _ (List.mem_append_left _ (List.mem_map_of_mem hw))

/-- A worker that has a job has not completed it. -/
theorem Inv.not_completed (h : Inv cfg n) {w : Worker} (hw : w ∈ n.dispatcher.workers)
    (hholds : w.holds) : w.job ∉ n.dispatcher.completed := by
  intro hc
  obtain ⟨w', hw', hjob, hdone⟩ := h.recorded.completed _ hc
  obtain rfl := h.kept.ordered.inj hw' hw hjob
  rw [hholds] at hdone
  cases hdone

theorem Inv.step (h : Inv cfg n) (hs : Steps Spec.Steps cfg n a m) : Inv cfg m := by
  cases hs with
  | @client q q' d l hl hq =>
    refine ⟨h.keys.step hq, h.bounded, h.recorded, h.kept, ?_⟩
    cases hq with
    | tick | push => exact h.held
    | pop | retry | delete => exact hl.elim
  | @pop q q' d d' reqn out hl hq hd =>
    cases hq with
    | pop hp =>
      have hle : out.length ≤ reqn := hp.length ▸ Nat.min_le_left _ _
      obtain ⟨hkept, hpopped, hcompleted⟩ := h.kept.pop hl hle hd
      refine ⟨h.keys.step (.pop hp), h.bounded.step hd, h.recorded.step h.kept.ordered hd,
        hkept, ?_⟩
      have hheld : q.held = outstanding d := h.held
      change q.held + (out : Multiset Spec.Job) = outstanding d'
      rw [outstanding_append h.completed_lt hpopped hcompleted, hheld, Multiset.coe_add]
  | @complete q q' d d' k i j res hk hi hq hd =>
    have hnew : i ∉ d.completed := h.not_completed (List.mem_of_getElem? hk) rfl
    obtain ⟨hkept, hpopped⟩ := h.kept.rest (by simp) hd
    have hcompleted : d'.completed = d.completed ++ [i] := by
      cases step_moves hd with
      | complete hk' =>
        cases hk.symm.trans hk'
        rfl
    have hperm := outstanding_complete hi hnew hpopped hcompleted
    have hheld : q'.held = q.held.erase j := by
      cases hq with
      | retry | delete => rfl
    refine ⟨h.keys.step hq, h.bounded.step hd, h.recorded.step h.kept.ordered hd, hkept, ?_⟩
    change q'.held = outstanding d'
    rw [hheld, show q.held = outstanding d from h.held, Multiset.coe_eq_coe.mpr hperm,
      ← Multiset.cons_coe, Multiset.erase_cons_head]
  | @alone q d d' e he hd =>
    have hpop : ∀ out, e ≠ .popReturn (some out) := by
      rintro _ rfl
      exact he
    have hcomplete : ∀ k, e ≠ .complete k := by
      rintro _ rfl
      exact he
    obtain ⟨hkept, hpopped⟩ := h.kept.rest hpop hd
    refine ⟨h.keys, h.bounded.step hd, h.recorded.step h.kept.ordered hd, hkept, ?_⟩
    change q.held = outstanding d'
    rw [outstanding, pending, hpopped, completed_rest hcomplete hd]
    exact h.held

end Inv

structure Delivers (cfg : Config) (d : State Spec.Job) (held : Multiset Spec.Job) : Prop where
  outstanding : held = outstanding d
  line : d.line = List.range d.popped.length
  mine : ∀ w ∈ d.workers, w.holds → ∃ j ∈ held, d.popped[w.job]? = some j
  exclusive : ∀ w ∈ d.workers, ∀ w' ∈ d.workers, w.holds → w'.holds → ∀ j j',
    d.popped[w.job]? = some j → d.popped[w'.job]? = some j' → j.key = j'.key → w = w'
  workers : d.workers.countP Worker.running ≤ cfg.maxWorkers

theorem Inv.delivers {cfg : Config} {n : Node Spec.State} (h : Inv cfg n) :
    Delivers cfg n.dispatcher n.queue.held := by
  have hpending {w : Worker} (hw : w ∈ n.dispatcher.workers) (hholds : w.holds) {j : Spec.Job}
      (hj : n.dispatcher.popped[w.job]? = some j) : (j, w.job) ∈ pending n.dispatcher :=
    mem_pending.mpr ⟨hj, h.not_completed hw hholds⟩
  refine ⟨h.held, h.kept, fun w hw hholds ↦ ?_,
    fun w hw w' hw' hholds hholds' j j' hj hj' hkey ↦ ?_,
    ?_⟩
  · have hlt := h.kept.ordered.known _ (List.mem_append_left _ (List.mem_map_of_mem hw))
    have hj := List.getElem?_eq_getElem hlt
    refine ⟨_, ?_, hj⟩
    rw [h.held]
    exact List.mem_map_of_mem (f := Prod.fst) (hpending hw hholds hj)
  · have hnodup : ((pending n.dispatcher).map fun p ↦ p.1.key).Nodup := by
      have hkeys := h.keys.nodup
      rw [Spec.State.jobs, Multiset.map_add, h.held] at hkeys
      have hheld := (Multiset.nodup_add.mp hkeys).2.1
      rw [Multiset.map_coe, Multiset.coe_nodup, outstanding, List.map_map] at hheld
      exact hheld
    have hpair := List.inj_on_of_nodup_map hnodup (hpending hw hholds hj)
      (hpending hw' hholds' hj') hkey
    exact h.kept.ordered.inj hw hw' (congrArg Prod.snd hpair)
  · have hsem := h.bounded.sem_eq
    have hle := h.bounded.sem_le
    omega

section Accounting

variable {s t : Spec.State} {l : Spec.Label} {ls : List Spec.Label} {key : ℕ}

def Finished (key : ℕ) (ls : List Spec.Label) : Prop :=
  ∃ j res, .complete j res ∈ ls ∧ completion res j.retryCount ≠ .retry ∧ j.key = key

theorem Finished.mono {ls' : List Spec.Label} (h : Finished key ls) (hls : ls ⊆ ls') :
    Finished key ls' := by
  obtain ⟨j, res, hmem, hne, hkey⟩ := h
  exact ⟨j, res, hls hmem, hne, hkey⟩

theorem present_step (h : Spec.Steps s l t) (hk : ∃ j ∈ s.jobs, j.key = key) :
    (∃ j ∈ t.jobs, j.key = key) ∨ Finished key [l] := by
  obtain ⟨i, hi, rfl⟩ := hk
  rcases Spec.jobs_step h with ⟨_, _, _, rfl, -, -, ht⟩ |
    ⟨-, ht | ⟨j, res, rfl, -, rest, hs, ht⟩ | ⟨j, res, rfl, hne, hs⟩⟩
  · exact .inl ⟨i, ht ▸ Multiset.mem_cons_of_mem hi, rfl⟩
  · exact .inl ⟨i, ht ▸ hi, rfl⟩
  · rw [hs, Multiset.mem_cons] at hi
    rcases hi with rfl | hi
    · exact .inl ⟨i.retry s.now, ht ▸ Multiset.mem_cons_self _ _, Spec.Job.retry_key _ _⟩
    · exact .inl ⟨i, ht ▸ Multiset.mem_cons_of_mem hi, rfl⟩
  · rw [hs, Multiset.mem_cons] at hi
    rcases hi with rfl | hi
    · exact .inr ⟨i, res, List.mem_singleton_self _, hne, rfl⟩
    · exact .inl ⟨i, hi, rfl⟩

theorem present_trace (h : Trace Spec.Steps s ls t) (hk : ∃ j ∈ s.jobs, j.key = key) :
    (∃ j ∈ t.jobs, j.key = key) ∨ Finished key ls := by
  induction h with
  | nil => exact .inl hk
  | @cons s u t l ls hl _ ih =>
    rcases present_step hl hk with hu | hfin
    · exact (ih hu).imp_right fun hf ↦ hf.mono (List.subset_cons_self l ls)
    · exact .inr (hfin.mono (List.cons_subset_cons l (List.nil_subset ls)))

theorem pushed_accounted {i : IncomingJob} {id : ℕ} (h : Trace Spec.Steps .initial ls t)
    (hp : .push i key id ∈ ls) : (∃ j ∈ t.jobs, j.key = key) ∨ Finished key ls := by
  obtain ⟨xs, ys, rfl⟩ := List.append_of_mem hp
  obtain ⟨u, v, -, hpush, hys⟩ := h.split
  have hv : ∃ j ∈ v.jobs, j.key = key := by
    cases hpush with
    | push =>
      exact ⟨_, Multiset.mem_add.mpr (.inl (Multiset.mem_cons_self _ _)), Spec.accept_key _ _ _ _⟩
  refine (present_trace hys hv).imp_right fun hf ↦ hf.mono ?_
  exact fun l hl ↦ List.mem_append_right _ (List.mem_cons_of_mem _ hl)

end Accounting

section Composition

variable {R : σ → Spec.Label → σ → Prop} {S : τ → Spec.Label → τ → Prop} {Rel : σ → τ → Prop}
  {cfg : Config}

/-- The operations of the queue in a run of the node are a run of the queue. -/
theorem trace_queue {n m : Node σ} {as : List Action} (h : Trace (Steps R cfg) n as m) :
    Trace R n.queue (as.filterMap Action.label) m.queue := by
  induction h with
  | nil => exact .nil _
  | cons hs _ ih =>
    cases hs with
    | client _ hq => exact .cons hq ih
    | pop _ hq _ => exact .cons hq ih
    | complete _ _ hq _ => exact .cons hq ih
    | alone => exact ih

/-- A queue can be replaced by one that simulates it. -/
theorem simulates_node (hsim : Simulates R S Rel) :
    Simulates (Steps R cfg) (Steps S cfg)
      fun n m ↦ Rel n.queue m.queue ∧ n.dispatcher = m.dispatcher := by
  rintro n ⟨q, d⟩ a n' ⟨hrel, rfl⟩ hs
  cases hs with
  | client hl hq =>
    obtain ⟨b, hb, hrel⟩ := hsim _ _ _ _ hrel hq
    exact ⟨_, .client hl hb, hrel, rfl⟩
  | pop hl hq hd =>
    obtain ⟨b, hb, hrel⟩ := hsim _ _ _ _ hrel hq
    exact ⟨_, .pop hl hb hd, hrel, rfl⟩
  | complete hk hi hq hd =>
    obtain ⟨b, hb, hrel⟩ := hsim _ _ _ _ hrel hq
    exact ⟨_, .complete hk hi hb hd, hrel, rfl⟩
  | alone he hd => exact ⟨_, .alone he hd, hrel, rfl⟩

end Composition

/-- Every job that a client has pushed is waiting, or held by the queue, or done with.
The held jobs are those that were popped and not completed, and each has one place
in the dispatcher; the worker of a job has ended without completing it if the wait
for the limiter was cancelled. A worker can always complete its job. -/
structure Reliable (does : σ → Spec.Label → σ → Prop) (waiting held : σ → Multiset Spec.Job)
    (cfg : Config) (as : List Action) (n : Node σ) : Prop where
  delivers : Delivers cfg n.dispatcher (held n.queue)
  accounted : ∀ i key id, .client (.push i key id) ∈ as →
    (∃ j ∈ waiting n.queue + held n.queue, j.key = key) ∨
      Finished key (as.filterMap Action.label)
  completes : ∀ k i res, n.dispatcher.workers[k]? = some ⟨i, .completing⟩ →
    ∃ j m, Steps does cfg n (.complete k j res) m

theorem reliable_of_simulates {does : σ → Spec.Label → σ → Prop} {now : σ → ℕ}
    {waiting held : σ → Multiset Spec.Job} {Rel : σ → Spec.State → Prop} {cfg : Config}
    (hsim : Simulates (fun s l t ↦ l.InRange (now s) ∧ does s l t) Spec.Steps Rel)
    (hwaiting : ∀ s a, Rel s a → a.waiting = waiting s) (hheld : ∀ s a, Rel s a → a.held = held s)
    (hreturns : ∀ s a, Rel s a → ∀ j ∈ a.held, ∀ res, ∃ t, does s (.complete j res) t)
    {s₀ : σ} (h₀ : Rel s₀ .initial) {as : List Action} {n : Node σ}
    (h : Trace (Steps (fun s l t ↦ l.InRange (now s) ∧ does s l t) cfg) ⟨s₀, .initial⟩ as n) :
    Reliable does waiting held cfg as n := by
  obtain ⟨⟨a, d⟩, ha, hrel, rfl⟩ := (simulates_node hsim).trace h (a := ⟨.initial, .initial⟩)
    ⟨h₀, rfl⟩
  have hinv := ha.invariant (Inv cfg) (fun _ _ _ ↦ Inv.step) (.initial cfg)
  have hdelivers := hinv.delivers
  rw [show a.held = held n.queue from hheld _ _ hrel] at hdelivers
  refine ⟨hdelivers, fun i key id hpush ↦ ?_, fun k i res hk ↦ ?_⟩
  · rw [← hwaiting _ _ hrel, ← hheld _ _ hrel]
    exact pushed_accounted (trace_queue ha) (List.mem_filterMap.mpr ⟨_, hpush, rfl⟩)
  · obtain ⟨j, hj, hpopped⟩ := hdelivers.mine _ (List.mem_of_getElem? hk) rfl
    rw [← hheld _ _ hrel] at hj
    obtain ⟨t, ht⟩ := hreturns _ _ hrel j hj res
    obtain ⟨d', hd⟩ : ∃ d', Dispatcher.step cfg n.dispatcher (.complete k) = some d' := by
      rw [Dispatcher.step, advance, hk]
      exact ⟨_, if_pos rfl⟩
    exact ⟨j, _, .complete hk hpopped ht hd⟩

/-- The dispatcher of a node with either driver, whose operations succeed and have
delays that do not wrap around, in any interleaving with the loop and the workers. -/
theorem jobs_delivered {node connectionId : ℕ} {s₀ : MySQL.Cluster.State} {cfg : Config}
    (hc : MySQL.Cluster.step .initial (.connect node connectionId) = some s₀) :
    (∀ as n, Trace (Steps (fun s l t ↦ l.InRange s.now ∧ InMemory.Does s l t) cfg)
        ⟨.initial, .initial⟩ as n →
      Reliable InMemory.Does (fun s ↦ s.queue.toList.map (InMemory.view s.objects))
        (fun s ↦ s.held.map (InMemory.view s.objects)) cfg as n) ∧
    ∀ as n, Trace (Steps (fun s l t ↦ l.InRange s.now ∧ MySQL.Cluster.Does node s l t) cfg)
        ⟨s₀, .initial⟩ as n →
      Reliable (MySQL.Cluster.Does node)
        (fun s ↦ (MySQL.claimedRows s.table.rows).map MySQL.Row.view)
        (fun s ↦ s.held.map fun g ↦ g.job.view) cfg as n :=
  ⟨fun _ _ h ↦ reliable_of_simulates InMemory.simulates (fun _ _ h ↦ h.waiting)
      (fun _ _ h ↦ h.held) (fun _ _ h ↦ h.responds.complete) .initial h,
    fun _ _ h ↦ reliable_of_simulates (MySQL.Cluster.simulates node) (fun _ _ h ↦ h.waiting)
      (fun _ _ h ↦ h.held) (fun _ _ h ↦ h.responds.complete) (.initial hc) h⟩

section Attempt

open MySQL.Cluster (sampleJob failure)

theorem trace_alone {R : σ → Spec.Label → σ → Prop} {cfg : Config} {q : σ} {d d' : State Spec.Job}
    {es : List (Event Spec.Job)} (halone : ∀ e ∈ es, Alone e)
    (h : exec (Dispatcher.step cfg) d es = some d') :
    Trace (Steps R cfg) ⟨q, d⟩ (es.map .alone) ⟨q, d'⟩ := by
  induction es generalizing d with
  | nil =>
    cases h
    exact .nil _
  | cons e es ih =>
    obtain ⟨u, hu, h⟩ := exec_cons h
    obtain ⟨he, hes⟩ := List.forall_mem_cons.mp halone
    exact .cons (.alone he hu) (ih hes h)

def attempt (key : ℕ) : List Action :=
  [.client (.tick 5), .client (.push sampleJob key 1)] ++ [.kick, .request].map .alone ++
    [.pop 10 [Spec.accept 5 key 1 sampleJob]] ++
    [.send, .send, .receive, .acquire, .spawn, .limiter 0 true].map .alone

def attempted (key : ℕ) : List Action :=
  [.work 0].map .alone ++ [.complete 0 (Spec.accept 5 key 1 sampleJob) failure]

def attempting (j : Spec.Job) : State Spec.Job :=
  { (State.initial : State Spec.Job) with
    pops := 1, popped := [j], sem := 1, wg := 1, workers := [⟨0, .working⟩] }

/-- A run of the queue in which the sample job fails once is one of the node. -/
theorem node_attempts {R : σ → Spec.Label → σ → Prop} {s₀ s : σ} {key : ℕ}
    (h : Trace R s₀ (JobQueue.tried key) s) :
    ∃ n m, Trace (Steps R ⟨10, 2⟩) ⟨s₀, .initial⟩ (attempt key) n ∧
      n.dispatcher = attempting (Spec.accept 5 key 1 sampleJob) ∧
      Trace (Steps R ⟨10, 2⟩) n (attempted key) m := by
  let j := Spec.accept 5 key 1 sampleJob
  let running (loop : LoopPc) (popped : List Spec.Job) : State Spec.Job :=
    { (State.initial : State Spec.Job) with loop := loop, pops := 1, popped := popped }
  obtain ⟨_, htick, h⟩ := h.uncons
  obtain ⟨u, hpush, h⟩ := h.uncons
  obtain ⟨v, hpop, h⟩ := h.uncons
  obtain ⟨t, hcomplete, -⟩ := h.uncons
  have hclient : Trace (Steps R ⟨10, 2⟩) ⟨s₀, .initial⟩
      [.client (.tick 5), .client (.push sampleJob key 1)] ⟨u, .initial⟩ :=
    .cons (.client trivial htick) (.cons (.client trivial hpush) (.nil _))
  have hrequest : Trace (Steps R ⟨10, 2⟩) ⟨u, .initial⟩ ([.kick, .request].map .alone)
      ⟨u, running (.popping 10) []⟩ :=
    trace_alone (by simp [Alone]) rfl
  have hwork : Trace (Steps R ⟨10, 2⟩) ⟨v, running (.sending [0]) [j]⟩
      ([.send, .send, .receive, .acquire, .spawn, .limiter 0 true].map .alone)
      ⟨v, attempting j⟩ :=
    trace_alone (by simp [Alone]) rfl
  have hworked : Trace (Steps R ⟨10, 2⟩) ⟨v, attempting j⟩ ([.work 0].map .alone)
      ⟨v, { attempting j with workers := [⟨0, .completing⟩], calls := [0] }⟩ :=
    trace_alone (by simp [Alone]) rfl
  have hpopped : Steps R ⟨10, 2⟩ ⟨u, running (.popping 10) []⟩ (.pop 10 [j])
      ⟨v, running (.sending [0]) [j]⟩ :=
    .pop rfl hpop rfl
  have hcompleted : Steps R ⟨10, 2⟩
      ⟨v, { attempting j with workers := [⟨0, .completing⟩], calls := [0] }⟩
      (.complete 0 j failure) ⟨t, { attempting j with
        workers := [⟨0, .releasing⟩], calls := [0], completed := [0] }⟩ :=
    .complete rfl rfl hcomplete rfl
  exact ⟨_, _, ((hclient.append hrequest).append (.cons hpopped (.nil _))).append hwork, rfl,
    hworked.append (.cons hcompleted (.nil _))⟩

theorem jobs_delivered_attempted : ∃ s₀ n m,
    MySQL.Cluster.step .initial (.connect 0 7) = some s₀ ∧
    Trace (Steps (fun s l t ↦ l.InRange s.now ∧ InMemory.Does s l t) ⟨10, 2⟩)
      ⟨.initial, .initial⟩ (attempt 0 ++ attempted 0) n ∧
    Reliable InMemory.Does (fun s ↦ s.queue.toList.map (InMemory.view s.objects))
      (fun s ↦ s.held.map (InMemory.view s.objects)) ⟨10, 2⟩ (attempt 0 ++ attempted 0) n ∧
    Trace (Steps (fun s l t ↦ l.InRange s.now ∧ MySQL.Cluster.Does 0 s l t) ⟨10, 2⟩)
      ⟨s₀, .initial⟩ (attempt 1 ++ attempted 1) m ∧
    Reliable (MySQL.Cluster.Does 0) (fun s ↦ (MySQL.claimedRows s.table.rows).map MySQL.Row.view)
      (fun s ↦ s.held.map fun g ↦ g.job.view) ⟨10, 2⟩ (attempt 1 ++ attempted 1) m := by
  obtain ⟨s, hs⟩ := JobQueue.inMemory_tries
  obtain ⟨s₀, s', hc, hs'⟩ := JobQueue.mysql_tries
  obtain ⟨_, n, hn, -, hn'⟩ := node_attempts hs
  obtain ⟨_, m, hm, -, hm'⟩ := node_attempts hs'
  exact ⟨s₀, n, m, hc, hn.append hn', (jobs_delivered hc).1 _ _ (hn.append hn'),
    hm.append hm', (jobs_delivered hc).2 _ _ (hm.append hm')⟩

end Attempt

end Fireworq.Dispatcher.Delivery
