import Fireworq.Dispatcher.Loop
import Mathlib.Data.List.Nodup

namespace Fireworq.Dispatcher

open Execution

def Worker.running (w : Worker) : Bool :=
  match w.pc with
  | .limiter | .working | .completing | .releasing => true
  | .finishing | .ended => false

def Worker.live (w : Worker) : Bool :=
  match w.pc with
  | .ended => false
  | _ => true

def Worker.holds (w : Worker) : Bool :=
  match w.pc with
  | .limiter | .working | .completing => true
  | _ => false

namespace LoopPc

def reserved : LoopPc → ℕ
  | .popping reqn => reqn
  | .sending jobs => jobs.length
  | _ => 0

def tokens : LoopPc → ℕ
  | .spawning _ => 1
  | _ => 0

def added : LoopPc → ℕ
  | .acquiring _ => 1
  | .spawning _ => 1
  | _ => 0

def taken : LoopPc → List ℕ
  | .acquiring j => [j]
  | .spawning j => [j]
  | _ => []

def unsent : LoopPc → List ℕ
  | .sending jobs => jobs
  | _ => []

end LoopPc

variable {α : Type} {cfg : Config} {s t : State α} {e : Event α} {es : List (Event α)}

section Workers

variable {l : List Worker} {k : ℕ} {w : Worker}

theorem set_split (h : l[k]? = some w) (w' : Worker) :
    ∃ xs ys, l = xs ++ w :: ys ∧ l.set k w' = xs ++ w' :: ys := by
  obtain ⟨hk, rfl⟩ := List.getElem?_eq_some_iff.mp h
  refine ⟨l.take k, l.drop (k + 1), ?_, ?_⟩
  · rw [List.getElem_cons_drop, List.take_append_drop]
  · rw [List.set_eq_take_append_cons_drop, if_pos hk]

theorem countP_set (p : Worker → Bool) (h : l[k]? = some w) (w' : Worker) :
    (l.set k w').countP p + (if p w then 1 else 0) = l.countP p + (if p w' then 1 else 0) := by
  obtain ⟨xs, ys, hl, hset⟩ := set_split h w'
  rw [hset, hl, List.countP_append, List.countP_append, List.countP_cons, List.countP_cons]
  omega

theorem mem_set {p : Worker → Bool} {i j : ℕ} {pc pc' : WorkerPc} (h : l[k]? = some ⟨j, pc⟩)
    (hp : p ⟨j, pc⟩ → p ⟨j, pc'⟩) (hi : ∃ w ∈ l, w.job = i ∧ p w) :
    ∃ w ∈ l.set k ⟨j, pc'⟩, w.job = i ∧ p w := by
  obtain ⟨xs, ys, hl, hset⟩ := set_split h ⟨j, pc'⟩
  obtain ⟨w, hw, rfl, hpw⟩ := hi
  rw [hl, List.mem_append, List.mem_cons] at hw
  rw [hset]
  rcases hw with hw | rfl | hw
  · exact ⟨w, by simp [hw], rfl, hpw⟩
  · exact ⟨⟨j, pc'⟩, by simp, rfl, hp hpw⟩
  · exact ⟨w, by simp [hw], rfl, hpw⟩

theorem held_set {j : ℕ} {pc pc' : WorkerPc} (h : l[k]? = some ⟨j, pc⟩)
    (hp : Worker.holds ⟨j, pc'⟩ = Worker.holds ⟨j, pc⟩) :
    ((l.set k ⟨j, pc'⟩).filter Worker.holds).map Worker.job =
      (l.filter Worker.holds).map Worker.job := by
  obtain ⟨xs, ys, hl, hset⟩ := set_split h ⟨j, pc'⟩
  rw [hset, hl, List.filter_append, List.filter_append, List.filter_cons, List.filter_cons, hp]
  split <;> simp

theorem map_job_set {j : ℕ} {pc pc' : WorkerPc} (h : l[k]? = some ⟨j, pc⟩) :
    (l.set k ⟨j, pc'⟩).map Worker.job = l.map Worker.job := by
  obtain ⟨xs, ys, hl, hset⟩ := set_split h ⟨j, pc'⟩
  rw [hset, hl, List.map_append, List.map_append, List.map_cons, List.map_cons]

end Workers

structure Bounded (cfg : Config) (s : State α) : Prop where
  room : s.jobBuffer.length + s.loop.reserved ≤ cfg.bufferSize
  sem_eq : s.sem = s.workers.countP Worker.running + s.loop.tokens
  sem_le : s.sem ≤ cfg.maxWorkers
  wg_eq : s.wg = s.workers.countP Worker.live + s.loop.added

theorem Bounded.worker {k j : ℕ} {pc pc' : WorkerPc} (h : Bounded cfg s)
    (hk : s.workers[k]? = some ⟨j, pc⟩) (hloop : t.loop = s.loop)
    (hbuffer : t.jobBuffer = s.jobBuffer) (hworkers : t.workers = s.workers.set k ⟨j, pc'⟩)
    (hsem : t.sem + (if Worker.running ⟨j, pc⟩ then 1 else 0) =
      s.sem + (if Worker.running ⟨j, pc'⟩ then 1 else 0)) (hle : t.sem ≤ s.sem)
    (hwg : t.wg + (if Worker.live ⟨j, pc⟩ then 1 else 0) =
      s.wg + (if Worker.live ⟨j, pc'⟩ then 1 else 0)) : Bounded cfg t := by
  have hrun := countP_set Worker.running hk ⟨j, pc'⟩
  have hlive := countP_set Worker.live hk ⟨j, pc'⟩
  have hs := h.sem_eq
  have hw := h.wg_eq
  rw [← hworkers] at hrun hlive
  refine ⟨by rw [hbuffer, hloop]; exact h.room, ?_, Nat.le_trans hle h.sem_le, ?_⟩
  · rw [hloop]
    omega
  · rw [hloop]
    omega

theorem Bounded.step (hb : Bounded cfg s) (h : step cfg s e = some t) : Bounded cfg t := by
  have hroom := hb.room
  have hsem := hb.sem_eq
  have hle := hb.sem_le
  have hwg := hb.wg_eq
  cases step_moves h with
  | kick hl | full hl _ | popError hl | sent hl | stop hl | cancel hl | wait hl _
  | sendStopped hl =>
    rw [hl] at hroom hsem hwg
    exact ⟨by simp only [LoopPc.reserved] at *; omega, hsem, hle, hwg⟩
  | request hl hfree =>
    rw [hl] at hsem hwg
    exact ⟨by simp only [LoopPc.reserved]; omega, hsem, hle, hwg⟩
  | popReturn hl hn _ _ =>
    rw [hl] at hroom hsem hwg
    refine ⟨?_, hsem, hle, hwg⟩
    simp only [LoopPc.reserved, List.length_range'] at hroom ⊢
    omega
  | send hl _ =>
    rw [hl] at hroom hsem hwg
    refine ⟨?_, hsem, hle, hwg⟩
    simp only [LoopPc.reserved, List.length_append, List.length_cons, List.length_nil] at hroom ⊢
    omega
  | receive hl hj =>
    rw [hl] at hroom hsem hwg
    rw [hj, List.length_cons] at hroom
    simp only [LoopPc.reserved, LoopPc.added] at hroom hwg
    exact ⟨by simp only [LoopPc.reserved]; omega, hsem, hle, by simp only [LoopPc.added]; omega⟩
  | acquire hl hlt =>
    rw [hl] at hroom hsem hwg
    simp only [LoopPc.tokens] at hsem
    exact ⟨hroom, by simp only [LoopPc.tokens]; omega, hlt, hwg⟩
  | spawn hl =>
    rw [hl] at hroom hsem hwg
    simp only [LoopPc.tokens, LoopPc.added] at hsem hwg
    refine ⟨hroom, ?_, hle, ?_⟩
    · simp [LoopPc.tokens, Worker.running, hsem]
    · simp [LoopPc.added, Worker.live, hwg]
  | limiter hk | limiterError hk | work hk | complete hk =>
    exact hb.worker hk rfl rfl rfl rfl (Nat.le_refl _) rfl
  | release hk hpos =>
    exact hb.worker hk rfl rfl rfl (by simp only [Worker.running, if_true]; simp; omega)
      (Nat.sub_le _ _) rfl
  | finish hk hpos =>
    exact hb.worker hk rfl rfl rfl rfl (Nat.le_refl _)
      (by simp only [Worker.live, if_true]; simp; omega)

theorem Run.bounded (h : Run cfg es s) : Bounded cfg s :=
  invariant (Bounded cfg) (fun _ _ _ hb h ↦ hb.step h) h
    ⟨Nat.zero_le _, rfl, Nat.zero_le _, rfl⟩

def State.line (s : State α) : List ℕ :=
  s.workers.map Worker.job ++ (s.loop.taken ++ (s.jobBuffer ++ s.loop.unsent))

theorem line_step (h : step cfg s e = some t) : t.line = s.line ∧ t.popped = s.popped ∨
    ∃ jobs n, t.line = s.line ++ List.range' s.popped.length n ∧ n ≤ jobs.length ∧
      t.popped = s.popped ++ jobs := by
  cases step_moves h with
  | kick hl | request hl _ | full hl _ | popError hl | sent hl | stop hl | cancel hl | wait hl _
  | sendStopped hl | acquire hl _ =>
    exact .inl ⟨by simp only [State.line, hl, LoopPc.taken, LoopPc.unsent], rfl⟩
  | @popReturn _ n jobs hl _ hn _ =>
    refine .inr ⟨jobs, n, ?_, hn, rfl⟩
    simp only [State.line, hl, LoopPc.taken, LoopPc.unsent, List.append_nil, List.nil_append,
      List.append_assoc]
  | send hl _ =>
    refine .inl ⟨?_, rfl⟩
    simp only [State.line, hl, LoopPc.taken, LoopPc.unsent, List.append_assoc,
      List.singleton_append]
  | receive hl hj =>
    refine .inl ⟨?_, rfl⟩
    simp only [State.line, hl, hj, LoopPc.taken, LoopPc.unsent, List.nil_append, List.cons_append]
  | spawn hl =>
    refine .inl ⟨?_, rfl⟩
    simp only [State.line, hl, LoopPc.taken, LoopPc.unsent, List.map_append, List.map_cons,
      List.map_nil, List.append_assoc, List.nil_append]
  | limiter hk | limiterError hk | work hk | complete hk | release hk _ | finish hk _ =>
    exact .inl ⟨by simp only [State.line, map_job_set hk], rfl⟩

structure Ordered (s : State α) : Prop where
  line : s.line.Pairwise (· < ·)
  known : ∀ j ∈ s.line, j < s.popped.length

theorem Ordered.step (ho : Ordered s) (h : step cfg s e = some t) : Ordered t := by
  rcases line_step h with ⟨hl, hp⟩ | ⟨jobs, n, hl, hn, hp⟩
  · exact ⟨hl ▸ ho.line, fun j hj ↦ hp ▸ ho.known j (hl ▸ hj)⟩
  · have hrange (j : ℕ) : j ∈ List.range' s.popped.length n ↔
        s.popped.length ≤ j ∧ j < s.popped.length + n := by
      rw [List.mem_range'_1]
    refine ⟨?_, fun j hj ↦ ?_⟩
    · rw [hl, List.pairwise_append]
      refine ⟨ho.line, List.pairwise_lt_range', fun i hi j hj ↦ ?_⟩
      exact Nat.lt_of_lt_of_le (ho.known i hi) ((hrange j).mp hj).1
    · rw [hp, List.length_append]
      rw [hl, List.mem_append, hrange] at hj
      rcases hj with hj | hj
      · exact Nat.lt_of_lt_of_le (ho.known j hj) (Nat.le_add_right _ _)
      · omega

theorem Run.ordered (h : Run cfg es s) : Ordered s :=
  invariant Ordered (fun _ _ _ ho h ↦ ho.step h) h ⟨List.Pairwise.nil, nofun⟩

theorem Ordered.workers (ho : Ordered s) : (s.workers.map Worker.job).Pairwise (· < ·) :=
  (List.pairwise_append.mp ho.line).1

theorem Ordered.inj (ho : Ordered s) {w w' : Worker} (hw : w ∈ s.workers) (hw' : w' ∈ s.workers)
    (h : w.job = w'.job) : w = w' :=
  List.inj_on_of_nodup_map (ho.workers.imp Nat.ne_of_lt) hw hw' h

/-- `Complete` was called for the job of the worker, unless the limiter failed. -/
def Worker.called (w : Worker) : Bool :=
  match w.pc with
  | .limiter | .working => false
  | _ => true

structure Recorded (s : State α) : Prop where
  nodup : s.calls.Nodup
  calls : ∀ j ∈ s.calls, ∃ w ∈ s.workers, w.job = j ∧ w.called
  completed : ∀ j ∈ s.completed, ∃ w ∈ s.workers, w.job = j ∧ !w.holds

theorem Recorded.worker {k j : ℕ} {pc pc' : WorkerPc} (hr : Recorded s)
    (hk : s.workers[k]? = some ⟨j, pc⟩) (hworkers : t.workers = s.workers.set k ⟨j, pc'⟩)
    (hcalls : t.calls = s.calls) (hcompleted : t.completed = s.completed)
    (hcalled : Worker.called ⟨j, pc⟩ → Worker.called ⟨j, pc'⟩)
    (hholds : !Worker.holds ⟨j, pc⟩ → !Worker.holds ⟨j, pc'⟩) : Recorded t := by
  refine ⟨hcalls ▸ hr.nodup, fun i hi ↦ ?_, fun i hi ↦ ?_⟩
  · rw [hworkers]
    exact mem_set hk hcalled (hr.calls i (hcalls ▸ hi))
  · rw [hworkers]
    exact mem_set (p := fun w ↦ !w.holds) hk hholds (hr.completed i (hcompleted ▸ hi))

theorem Recorded.step (hr : Recorded s) (ho : Ordered s) (h : step cfg s e = some t) :
    Recorded t := by
  cases step_moves h with
  | kick | request | full | popError | popReturn | sent | send | receive | acquire | stop | cancel
  | wait | sendStopped => exact ⟨hr.nodup, hr.calls, hr.completed⟩
  | spawn =>
    refine ⟨hr.nodup, fun j hj ↦ ?_, fun j hj ↦ ?_⟩
    · obtain ⟨w, hw, hj⟩ := hr.calls j hj
      exact ⟨w, List.mem_append_left _ hw, hj⟩
    · obtain ⟨w, hw, hj⟩ := hr.completed j hj
      exact ⟨w, List.mem_append_left _ hw, hj⟩
  | limiter hk => exact hr.worker hk rfl rfl rfl nofun nofun
  | limiterError hk | release hk | finish hk =>
    exact hr.worker hk rfl rfl rfl (fun _ ↦ rfl) (fun _ ↦ rfl)
  | @work k j hk =>
    have hmem := List.mem_of_getElem? hk
    refine ⟨?_, fun i hi ↦ ?_, fun i hi ↦ ?_⟩
    · refine List.nodup_append.mpr ⟨hr.nodup, List.nodup_singleton j, fun i hi i' hi' ↦ ?_⟩
      rintro rfl
      cases List.mem_singleton.mp hi'
      obtain ⟨w, hw, hj, hc⟩ := hr.calls _ hi
      cases ho.inj hw hmem hj
      cases hc
    · rcases List.mem_append.mp hi with hi | hi
      · exact mem_set hk (fun _ ↦ rfl) (hr.calls i hi)
      · cases List.mem_singleton.mp hi
        exact ⟨⟨j, .completing⟩, List.mem_set (List.getElem?_eq_some_iff.mp hk).1 _, rfl, rfl⟩
    · exact mem_set (p := fun w ↦ !w.holds) hk nofun (hr.completed i hi)
  | @complete k j hk =>
    refine ⟨hr.nodup, fun i hi ↦ mem_set hk id (hr.calls i hi), fun i hi ↦ ?_⟩
    rcases List.mem_append.mp hi with hi | hi
    · exact mem_set (p := fun w ↦ !w.holds) hk nofun (hr.completed i hi)
    · cases List.mem_singleton.mp hi
      exact ⟨⟨j, .releasing⟩, List.mem_set (List.getElem?_eq_some_iff.mp hk).1 _, rfl, rfl⟩

theorem Run.recorded (h : Run cfg es s) : Recorded s := by
  have hP := invariant (fun s ↦ Ordered s ∧ Recorded s) ?_ h
    ⟨⟨List.Pairwise.nil, nofun⟩, List.nodup_nil, nofun, nofun⟩
  · exact hP.2
  · intro u e v hu hstep
    exact ⟨hu.1.step hstep, hu.2.step hu.1 hstep⟩

structure Serial (s : State α) : Prop where
  last : ∀ k w, s.workers[k]? = some w → w.running → k + 1 = s.workers.length
  calls : s.calls.Pairwise (· < ·)
  completed : s.completed.Pairwise (· < ·)

theorem Ordered.lt_of_last (ho : Ordered s) {k : ℕ} {w w' : Worker}
    (hk : s.workers[k]? = some w) (hlast : k + 1 = s.workers.length) (hw' : w' ∈ s.workers)
    (hne : w' ≠ w) : w'.job < w.job := by
  obtain ⟨hlt, rfl⟩ := List.getElem?_eq_some_iff.mp hk
  have hsplit : s.workers = s.workers.take k ++ [s.workers[k]] := by
    rw [List.take_append_getElem hlt, hlast, List.take_length]
  have hpair := ho.workers
  rw [hsplit, List.map_append, List.pairwise_append] at hpair
  rw [hsplit, List.mem_append, List.mem_singleton] at hw'
  exact hpair.2.2 _ (List.mem_map_of_mem (hw'.resolve_right hne)) _ (by simp)

theorem Serial.worker {k j : ℕ} {pc pc' : WorkerPc} (hs : Serial s)
    (hk : s.workers[k]? = some ⟨j, pc⟩) (hworkers : t.workers = s.workers.set k ⟨j, pc'⟩)
    (hrun : Worker.running ⟨j, pc'⟩ → Worker.running ⟨j, pc⟩) :
    ∀ i w, t.workers[i]? = some w → w.running → i + 1 = t.workers.length := by
  intro i w hi hw
  rw [hworkers, List.length_set]
  rw [hworkers, List.getElem?_set] at hi
  split at hi
  · rename_i hki
    subst hki
    split at hi <;> cases hi
    exact hs.last k _ hk (hrun hw)
  · exact hs.last i w hi hw

theorem Serial.step (hs : Serial s) (hone : cfg.maxWorkers = 1) (hb : Bounded cfg s)
    (ho : Ordered s) (hr : Recorded s) (h : step cfg s e = some t) : Serial t := by
  have hless {k i j : ℕ} {pc : WorkerPc} (hk : s.workers[k]? = some ⟨j, pc⟩)
      (hrun : Worker.running ⟨j, pc⟩) (p : Worker → Bool) (hp : p ⟨j, pc⟩ = false)
      (hi : ∃ w ∈ s.workers, w.job = i ∧ p w) : i < j := by
    obtain ⟨w, hw, rfl, hpw⟩ := hi
    refine ho.lt_of_last hk (hs.last k _ hk hrun) hw fun heq ↦ ?_
    rw [heq, hp] at hpw
    cases hpw
  cases step_moves h with
  | kick | request | full | popError | popReturn | sent | send | receive | acquire | stop | cancel
  | wait | sendStopped => exact ⟨hs.last, hs.calls, hs.completed⟩
  | @spawn j hl =>
    refine ⟨fun k w hk hw ↦ ?_, hs.calls, hs.completed⟩
    have hidle : s.workers.countP Worker.running = 0 := by
      have hsem := hb.sem_eq
      have hle := hb.sem_le
      rw [hl] at hsem
      simp only [LoopPc.tokens] at hsem
      omega
    have hlt : k < (s.workers ++ [(⟨j, .limiter⟩ : Worker)]).length :=
      (List.getElem?_eq_some_iff.mp hk).1
    rw [List.length_append, List.length_singleton] at hlt ⊢
    rw [List.getElem?_append] at hk
    split at hk
    · exact absurd hw (List.countP_eq_zero.mp hidle w (List.mem_of_getElem? hk))
    · omega
  | limiter hk | limiterError hk =>
    exact ⟨hs.worker hk rfl fun _ ↦ rfl, hs.calls, hs.completed⟩
  | release hk | finish hk => exact ⟨hs.worker hk rfl nofun, hs.calls, hs.completed⟩
  | work hk =>
    refine ⟨hs.worker hk rfl fun _ ↦ rfl, List.pairwise_append.mpr ⟨hs.calls, ?_, ?_⟩, hs.completed⟩
    · exact List.pairwise_singleton _ _
    · intro i hi j hj
      cases List.mem_singleton.mp hj
      exact hless hk rfl Worker.called rfl (hr.calls i hi)
  | complete hk =>
    refine ⟨hs.worker hk rfl fun _ ↦ rfl, hs.calls, List.pairwise_append.mpr ⟨hs.completed, ?_, ?_⟩⟩
    · exact List.pairwise_singleton _ _
    · intro i hi j hj
      cases List.mem_singleton.mp hj
      exact hless hk rfl (fun w ↦ !w.holds) rfl (hr.completed i hi)

theorem Run.serial (h : Run cfg es s) (hone : cfg.maxWorkers = 1) : Serial s := by
  refine history (fun _ s ↦ Serial s) ⟨fun k w hk ↦ ?_, .nil, .nil⟩ ?_ h
  · simp [State.initial] at hk
  · intro xs u e v hu hs hstep
    exact hs.step hone (Run.bounded hu) (Run.ordered hu) (Run.recorded hu) hstep

def Behaved (s : State α) : Event α → Prop
  | .popReturn (some jobs) => jobs.length ≤ s.loop.reserved
  | .limiter _ false => s.cancelled = true
  | _ => True

instance : (s : State α) → (e : Event α) → Decidable (Behaved s e)
  | s, .popReturn (some jobs) => inferInstanceAs (Decidable (jobs.length ≤ s.loop.reserved))
  | s, .limiter _ false => inferInstanceAs (Decidable (s.cancelled = true))
  | _, .popReturn none | _, .limiter _ true => isTrue trivial
  | _, .kick | _, .request | _, .send | _, .receive | _, .acquire | _, .spawn => isTrue trivial
  | _, .stop | _, .cancel | _, .wait | _, .sendStopped => isTrue trivial
  | _, .work _ | _, .complete _ | _, .release _ | _, .finish _ => isTrue trivial

def State.places (s : State α) : List ℕ :=
  s.completed ++ ((s.workers.filter Worker.holds).map Worker.job ++
    (s.loop.taken ++ (s.jobBuffer ++ s.loop.unsent)))

def Located (s : State α) : Prop := s.places.Perm (List.range s.popped.length)

theorem Located.worker {k j : ℕ} {pc pc' : WorkerPc} (hp : Located s)
    (hk : s.workers[k]? = some ⟨j, pc⟩) (hworkers : t.workers = s.workers.set k ⟨j, pc'⟩)
    (hholds : Worker.holds ⟨j, pc'⟩ = Worker.holds ⟨j, pc⟩) (hloop : t.loop = s.loop)
    (hbuffer : t.jobBuffer = s.jobBuffer) (hcompleted : t.completed = s.completed)
    (hpopped : t.popped = s.popped) : Located t := by
  rw [Located, State.places, hworkers, held_set hk hholds, hloop, hbuffer, hcompleted, hpopped]
  exact hp

theorem complete_places {k j : ℕ} (hk : s.workers[k]? = some ⟨j, .completing⟩) :
    (State.places { s with
      workers := s.workers.set k ⟨j, .releasing⟩
      completed := s.completed ++ [j] }).Perm s.places := by
  obtain ⟨xs, ys, hl, hset⟩ := set_split hk ⟨j, .releasing⟩
  simp only [State.places]
  rw [hset, hl, List.append_assoc]
  refine List.Perm.append_left _ ?_
  simp only [List.filter_append, List.filter_cons, Worker.holds, List.map_append, if_true,
    Bool.false_eq_true, if_false, List.map_cons, List.append_assoc, List.cons_append,
    List.nil_append]
  exact List.perm_middle.symm

theorem Located.step (hp : Located s) (hb : Behaved s e) (h : step cfg s e = some t)
    (ht : t.cancelled = false) : Located t := by
  cases step_moves h with
  | kick hl | request hl _ | full hl _ | popError hl | sent hl | stop hl | wait hl _
  | sendStopped hl | acquire hl _ =>
    simpa only [Located, State.places, hl, LoopPc.taken, LoopPc.unsent] using hp
  | cancel => cases ht
  | @popReturn reqn n jobs hl _ _ hall =>
    simp only [Behaved, hl, LoopPc.reserved] at hb
    simp only [Located, State.places, hl, LoopPc.taken, LoopPc.unsent, List.append_nil,
      List.nil_append] at hp ⊢
    rw [hall hb, List.length_append, List.range_add, ← List.range'_eq_map_range]
    simpa only [List.append_assoc] using hp.append_right (List.range' s.popped.length jobs.length)
  | send hl _ =>
    simpa only [Located, State.places, hl, LoopPc.taken, LoopPc.unsent, List.append_assoc,
      List.singleton_append] using hp
  | receive hl hj =>
    simpa only [Located, State.places, hl, hj, LoopPc.taken, LoopPc.unsent, List.nil_append,
      List.cons_append] using hp
  | spawn hl =>
    simpa only [Located, State.places, hl, LoopPc.taken, LoopPc.unsent, List.filter_append,
      List.map_append, List.append_assoc, List.nil_append, List.filter_cons, Worker.holds, if_true,
      List.filter_nil, List.map_cons, List.map_nil] using hp
  | limiter hk | work hk | release hk | finish hk => exact hp.worker hk rfl rfl rfl rfl rfl rfl
  | limiterError =>
    have hcancelled : s.cancelled = true := hb
    cases hcancelled.symm.trans ht
  | complete hk => exact (complete_places hk).trans hp

theorem cancelled_step (h : step cfg s e = some t) (ht : t.cancelled = false) :
    s.cancelled = false := by
  cases step_moves h with
  | cancel => cases ht
  | _ => exact ht

theorem Run.located (h : Run cfg es s) (hb : Along (step cfg) Behaved .initial es)
    (hs : s.cancelled = false) : Located s := by
  refine hb.invariant (fun s ↦ s.cancelled = false → Located s) ?_ h (fun _ ↦ .refl _) hs
  intro u e v hu hbe hstep hv
  exact (hu (cancelled_step hstep hv)).step hbe hstep hv

/-- What a dispatcher keeps to in a run. A job is its place among the popped
jobs. -/
structure Conserves (cfg : Config) (es : List (Event α)) (s : State α) : Prop where
  buffer_le : s.jobBuffer.length ≤ cfg.bufferSize
  send : ∀ jobs, s.loop = .sending jobs → ∃ t, step cfg s .send = some t
  workers_le : s.workers.countP Worker.running ≤ cfg.maxWorkers
  started : (s.workers.map Worker.job).Pairwise (· < ·)
  popped : ∀ w ∈ s.workers, w.job < s.popped.length
  serial : cfg.maxWorkers = 1 → s.calls.Pairwise (· < ·) ∧ s.completed.Pairwise (· < ·)
  once : s.calls.Nodup
  located : Along (step cfg) Behaved .initial es → s.cancelled = false →
    s.places.Perm (List.range s.popped.length)

theorem conservation (h : Run cfg es s) : Conserves cfg es s := by
  have hb := h.bounded
  have ho := h.ordered
  have hr := h.recorded
  constructor
  · exact Nat.le_trans (Nat.le_add_right _ _) hb.room
  · intro jobs hl
    cases jobs with
    | nil => exact ⟨{ s with loop := .select }, by simp only [step, send, hl]⟩
    | cons j jobs =>
      have hroom := hb.room
      rw [hl] at hroom
      simp only [LoopPc.reserved, List.length_cons] at hroom
      refine ⟨{ s with jobBuffer := s.jobBuffer ++ [j], loop := .sending jobs }, ?_⟩
      simp only [step, send, hl]
      rw [if_pos (by omega)]
  · have hsem := hb.sem_eq
    have hle := hb.sem_le
    omega
  · exact ho.workers
  · intro w hw
    exact ho.known _ (List.mem_append_left _ (List.mem_map_of_mem hw))
  · intro hone
    exact ⟨(h.serial hone).calls, (h.serial hone).completed⟩
  · exact hr.nodup
  · exact h.located

def oneByOne : List (Event String) :=
  [.kick, .request, .popReturn (some ["a", "b"]), .send, .send, .send, .receive, .acquire, .spawn,
    .limiter 0 true, .work 0, .complete 0]

theorem conservation_one_by_one :
    ∃ s, Run ⟨2, 1⟩ oneByOne s ∧ s.calls.Pairwise (· < ·) ∧ s.places.Perm (List.range 2) := by
  obtain ⟨s, hs, hv⟩ := Option.map_eq_some_iff.mp
    (show (exec (step ⟨2, 1⟩) .initial oneByOne).map
      (fun s ↦ (s.cancelled, s.popped.length)) = some (false, 2) by decide +kernel)
  obtain ⟨hcancelled, hpopped⟩ := Prod.mk.inj hv
  have hc := conservation hs
  refine ⟨s, hs, (hc.serial rfl).1, ?_⟩
  rw [← hpopped]
  exact hc.located (by decide +kernel) hcancelled

end Fireworq.Dispatcher
