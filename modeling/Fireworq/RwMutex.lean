import Fireworq.Execution
import Mathlib.Logic.Function.Basic

namespace Fireworq.RwMutex

open Execution Function

inductive Mode
  | read
  | write
  deriving DecidableEq

structure Access where
  mode : Option Mode
  writes : Bool
  deriving DecidableEq

def Access.Conflicts (a b : Access) : Prop :=
  (a.writes = true ∨ b.writes = true) ∧
    (a.mode = none ∨ b.mode = none ∨ a.mode = some .read ∧ b.mode = some .read)

instance (a b : Access) : Decidable (a.Conflicts b) := inferInstanceAs (Decidable (_ ∧ _))

/-- A `sync.RWMutex`. A writer announces itself, which keeps new readers out, and
gets in when the readers have left. -/
structure Mutex where
  readers : List ℕ
  writer : Option (ℕ × Bool)
  deriving DecidableEq

def Mutex.free : Mutex := ⟨[], none⟩

inductive Pc
  | idle
  | waiting
  | inside
  | accessing
  | leaving
  deriving DecidableEq

namespace Mutex

def enter (m : Mutex) (i : ℕ) : Option Mode → Option (Mutex × Pc)
  | none => some (m, .inside)
  | some .read =>
    if m.writer = none then some ({ m with readers := i :: m.readers }, .inside) else none
  | some .write =>
    if m.writer = none then some ({ m with writer := some (i, false) }, .waiting) else none

def grant (m : Mutex) (i : ℕ) : Option Mutex :=
  if m.writer = some (i, false) ∧ m.readers = [] then some { m with writer := some (i, true) }
  else none

def leave (m : Mutex) (i : ℕ) : Option Mode → Mutex
  | none => m
  | some .read => { m with readers := m.readers.erase i }
  | some .write => { m with writer := none }

end Mutex

structure Thread where
  todo : List Access
  pc : Pc
  deriving DecidableEq

structure State where
  mutex : Mutex
  threads : ℕ → Thread

def State.start (prog : ℕ → List Access) : State := ⟨.free, fun i ↦ ⟨prog i, .idle⟩⟩

inductive Event
  | enter (i : ℕ)
  | grant (i : ℕ)
  | access (i : ℕ)
  | finish (i : ℕ)
  | leave (i : ℕ)

def State.move (s : State) (i : ℕ) (m : Mutex) (t : Thread) : State :=
  ⟨m, update s.threads i t⟩

@[simp] theorem move_self (s : State) (i : ℕ) (m : Mutex) (t : Thread) :
    (s.move i m t).threads i = t := update_self _ _ _

theorem move_of_ne {i j : ℕ} (h : j ≠ i) (s : State) (m : Mutex) (t : Thread) :
    (s.move i m t).threads j = s.threads j := update_of_ne h _ _

@[simp] theorem move_move (s : State) (i : ℕ) (m m' : Mutex) (t t' : Thread) :
    (s.move i m t).move i m' t' = s.move i m' t' := by
  simp only [State.move, update_idem]

@[simp] theorem move_mutex (s : State) (i : ℕ) (m : Mutex) (t : Thread) :
    (s.move i m t).mutex = m := rfl

def step (s : State) : Event → Option State
  | .enter i =>
    match s.threads i with
    | ⟨a :: rest, .idle⟩ => (s.mutex.enter i a.mode).map fun (m, pc) ↦ s.move i m ⟨a :: rest, pc⟩
    | _ => none
  | .grant i =>
    match s.threads i with
    | ⟨todo, .waiting⟩ => (s.mutex.grant i).map fun m ↦ s.move i m ⟨todo, .inside⟩
    | _ => none
  | .access i =>
    match s.threads i with
    | ⟨todo, .inside⟩ => some (s.move i s.mutex ⟨todo, .accessing⟩)
    | _ => none
  | .finish i =>
    match s.threads i with
    | ⟨todo, .accessing⟩ => some (s.move i s.mutex ⟨todo, .leaving⟩)
    | _ => none
  | .leave i =>
    match s.threads i with
    | ⟨a :: rest, .leaving⟩ => some (s.move i (s.mutex.leave i a.mode) ⟨rest, .idle⟩)
    | _ => none

def Race (s : State) : Prop :=
  ∃ i j a b xs ys, i ≠ j ∧ s.threads i = ⟨a :: xs, .accessing⟩ ∧
    s.threads j = ⟨b :: ys, .accessing⟩ ∧ (a.writes = true ∨ b.writes = true)

def Races (prog : ℕ → List Access) : Prop :=
  ∃ es s, exec step (.start prog) es = some s ∧ Race s

section Safety

variable {prog : ℕ → List Access} {s t : State} {e : Event} {m m' : Mutex} {i j : ℕ} {pc : Pc}
  {mode : Option Mode}

def Holds (m : Mutex) (i : ℕ) (pc : Pc) : Option Mode → Prop
  | none => pc ≠ .waiting
  | some .read => i ∈ m.readers ∧ pc ≠ .waiting
  | some .write => m.writer = some (i, decide (pc ≠ .waiting))

structure Inv (prog : ℕ → List Access) (s : State) : Prop where
  suffix : ∀ i, (s.threads i).todo <:+ prog i
  busy : ∀ i, (s.threads i).pc ≠ .idle → ∃ a rest, (s.threads i).todo = a :: rest ∧
    Holds s.mutex i (s.threads i).pc a.mode
  exclusive : ∀ i, s.mutex.writer = some (i, true) → s.mutex.readers = []

structure Spares (i : ℕ) (m m' : Mutex) : Prop where
  readers : ∀ j, j ≠ i → j ∈ m.readers → j ∈ m'.readers
  writer : ∀ j b, j ≠ i → m.writer = some (j, b) → m'.writer = some (j, b)

theorem Holds.spared (h : Holds m j pc mode) (hm : Spares i m m') (hne : j ≠ i) :
    Holds m' j pc mode := by
  rcases mode with _ | _ | _
  · exact h
  · exact ⟨hm.readers j hne h.1, h.2⟩
  · exact hm.writer j _ hne h

theorem Inv.move (hi : Inv prog s) {t : Thread} (hm : Spares i s.mutex m)
    (hsuffix : t.todo <:+ (s.threads i).todo)
    (hbusy : t.pc ≠ .idle → ∃ a rest, t.todo = a :: rest ∧ Holds m i t.pc a.mode)
    (hexclusive : ∀ k, m.writer = some (k, true) → m.readers = []) :
    Inv prog (s.move i m t) where
  suffix j := by
    rcases eq_or_ne j i with rfl | hne
    · simpa only [move_self] using hsuffix.trans (hi.suffix j)
    · simpa only [move_of_ne hne] using hi.suffix j
  busy j hpc := by
    rcases eq_or_ne j i with rfl | hne
    · simp only [move_self, move_mutex] at hpc ⊢
      exact hbusy hpc
    · simp only [move_of_ne hne, move_mutex] at hpc ⊢
      obtain ⟨a, rest, htodo, hholds⟩ := hi.busy j hpc
      exact ⟨a, rest, htodo, hholds.spared hm hne⟩
  exclusive := hexclusive

theorem Spares.refl (i : ℕ) (m : Mutex) : Spares i m m := ⟨fun _ _ h ↦ h, fun _ _ _ h ↦ h⟩

theorem enter_cases (h : m.enter i mode = some (m', pc)) :
    Spares i m m' ∧ Holds m' i pc mode ∧
      ((∀ k, m.writer = some (k, true) → m.readers = []) →
        ∀ k, m'.writer = some (k, true) → m'.readers = []) := by
  rcases mode with _ | _ | _
  · cases h
    exact ⟨.refl i m, Pc.noConfusion, id⟩
  · simp only [Mutex.enter] at h
    split at h <;> cases h
    rename_i hw
    refine ⟨⟨fun j _ hj ↦ List.mem_cons_of_mem i hj, fun _ _ _ hj ↦ hj⟩,
      ⟨List.mem_cons_self, Pc.noConfusion⟩, fun _ k hk ↦ ?_⟩
    cases hw.symm.trans hk
  · simp only [Mutex.enter] at h
    split at h <;> cases h
    rename_i hw
    refine ⟨⟨fun _ _ hj ↦ hj, fun j b _ hj ↦ ?_⟩, rfl, fun _ k hk ↦ ?_⟩
    · cases hw.symm.trans hj
    · cases hk

theorem grant_cases (h : m.grant i = some m') :
    m.writer = some (i, false) ∧ m.readers = [] ∧ m' = ⟨[], some (i, true)⟩ := by
  simp only [Mutex.grant] at h
  split at h <;> cases h
  rename_i hm
  exact ⟨hm.1, hm.2, by rw [hm.2]⟩

theorem leave_spares (h : Holds m i pc mode) : Spares i m (m.leave i mode) := by
  rcases mode with _ | _ | _
  · exact .refl i m
  · exact ⟨fun j hne hj ↦ (List.mem_erase_of_ne hne).mpr hj, fun _ _ _ hj ↦ hj⟩
  · refine ⟨fun _ _ hj ↦ hj, fun j b hne hj ↦ ?_⟩
    cases (show m.writer = some (i, _) from h).symm.trans hj
    exact absurd rfl hne

theorem leave_exclusive (h : ∀ k, m.writer = some (k, true) → m.readers = []) (k : ℕ)
    (hk : (m.leave i mode).writer = some (k, true)) : (m.leave i mode).readers = [] := by
  rcases mode with _ | _ | _
  · exact h k hk
  · simp only [Mutex.leave, h k hk, List.erase_nil]
  · cases hk

theorem Inv.onward {todo : List Access} {pc' : Pc} (hi : Inv prog s)
    (hthread : s.threads i = ⟨todo, pc⟩) (hidle : pc ≠ .idle) (hpc : pc ≠ .waiting)
    (hpc' : pc' ≠ .waiting) : Inv prog (s.move i s.mutex ⟨todo, pc'⟩) := by
  obtain ⟨a, rest, htodo, hholds⟩ := hi.busy i (by rw [hthread]; exact hidle)
  rw [hthread] at htodo hholds
  refine hi.move (.refl i _) (by simp [hthread]) (fun _ ↦ ?_) hi.exclusive
  refine ⟨a, rest, htodo, ?_⟩
  rcases hmode : a.mode with _ | _ | _ <;> rw [hmode] at hholds
  · exact hpc'
  · exact ⟨hholds.1, hpc'⟩
  · simpa only [Holds, hpc, hpc', ne_eq, not_false_eq_true, decide_true] using hholds

theorem Inv.step (hi : Inv prog s) (h : step s e = some t) : Inv prog t := by
  cases e with
  | enter i =>
    simp only [RwMutex.step] at h
    split at h
    · rename_i a rest hthread
      obtain ⟨⟨m, pc⟩, hm, rfl⟩ := Option.map_eq_some_iff.mp h
      obtain ⟨hspares, hholds, hexclusive⟩ := enter_cases hm
      refine hi.move hspares (by simp [hthread])
        (fun _ ↦ ⟨a, rest, rfl, hholds⟩) ?_
      exact hexclusive hi.exclusive
    · cases h
  | grant i =>
    simp only [RwMutex.step] at h
    split at h
    · rename_i todo hthread
      obtain ⟨m, hm, rfl⟩ := Option.map_eq_some_iff.mp h
      obtain ⟨hw, hreaders, rfl⟩ := grant_cases hm
      obtain ⟨a, rest, htodo, hholds⟩ := hi.busy i (by rw [hthread]; exact Pc.noConfusion)
      rw [hthread] at htodo hholds
      refine hi.move ⟨fun j _ hj ↦ ?_, fun j b hne hj ↦ ?_⟩
        (by simp [hthread]) (fun _ ↦ ⟨a, rest, htodo, ?_⟩) fun _ _ ↦ rfl
      · rw [hreaders] at hj
        cases hj
      · cases hw.symm.trans hj
        exact absurd rfl hne
      · rcases hmode : a.mode with _ | _ | _ <;> rw [hmode] at hholds
        · exact absurd rfl hholds
        · exact absurd rfl hholds.2
        · rfl
    · cases h
  | access i =>
    simp only [RwMutex.step] at h
    split at h <;> cases h
    exact hi.onward ‹_› Pc.noConfusion Pc.noConfusion Pc.noConfusion
  | finish i =>
    simp only [RwMutex.step] at h
    split at h <;> cases h
    exact hi.onward ‹_› Pc.noConfusion Pc.noConfusion Pc.noConfusion
  | leave i =>
    simp only [RwMutex.step] at h
    split at h <;> cases h
    rename_i a rest hthread
    obtain ⟨b, rest', htodo, hholds⟩ := hi.busy i (by rw [hthread]; exact Pc.noConfusion)
    rw [hthread] at htodo hholds
    cases htodo
    refine hi.move (leave_spares hholds) (by rw [hthread]; exact List.suffix_cons a rest)
      (fun hpc ↦ absurd rfl hpc) (leave_exclusive hi.exclusive)

theorem Inv.start (prog : ℕ → List Access) : Inv prog (.start prog) where
  suffix _ := List.suffix_rfl
  busy _ h := absurd rfl h
  exclusive _ h := by cases h

/-- Two threads in the middle of an access do not exclude each other. -/
theorem Inv.overlap (hi : Inv prog s) (hne : i ≠ j) {a b : Access} {xs ys : List Access}
    (ha : s.threads i = ⟨a :: xs, .accessing⟩) (hb : s.threads j = ⟨b :: ys, .accessing⟩) :
    a.mode = none ∨ b.mode = none ∨ a.mode = some .read ∧ b.mode = some .read := by
  have hholds {k : ℕ} {c : Access} {zs : List Access} (hc : s.threads k = ⟨c :: zs, .accessing⟩) :
      Holds s.mutex k .accessing c.mode := by
    obtain ⟨d, rest, htodo, hholds⟩ := hi.busy k (by rw [hc]; exact Pc.noConfusion)
    rw [hc] at htodo hholds
    cases htodo
    exact hholds
  have hi' := hholds ha
  have hj' := hholds hb
  have hread {k l : ℕ} (hk : s.mutex.writer = some (k, true)) : l ∉ s.mutex.readers := by
    rw [hi.exclusive k hk]
    exact List.not_mem_nil
  rcases hm : a.mode with _ | _ | _
  · exact .inl rfl
  · rcases hn : b.mode with _ | _ | _ <;> rw [hm] at hi' <;> rw [hn] at hj'
    · exact .inr (.inl rfl)
    · exact .inr (.inr ⟨rfl, rfl⟩)
    · exact absurd hi'.1 (hread hj')
  · rcases hn : b.mode with _ | _ | _ <;> rw [hm] at hi' <;> rw [hn] at hj'
    · exact .inr (.inl rfl)
    · exact absurd hj'.1 (hread hi')
    · cases (show s.mutex.writer = some (i, true) from hi').symm.trans hj'
      exact absurd rfl hne

theorem Races.conflicts (h : Races prog) :
    ∃ i j, i ≠ j ∧ ∃ a ∈ prog i, ∃ b ∈ prog j, a.Conflicts b := by
  obtain ⟨es, s, hs, i, j, a, b, xs, ys, hne, ha, hb, hwrites⟩ := h
  have hi := invariant (Inv prog) (fun _ _ _ hi hs ↦ hi.step hs) hs (.start prog)
  have hmem {k : ℕ} {c : Access} {zs : List Access} (hc : s.threads k = ⟨c :: zs, .accessing⟩) :
      c ∈ prog k := by
    have hsuffix := hi.suffix k
    rw [hc] at hsuffix
    exact hsuffix.subset List.mem_cons_self
  exact ⟨i, j, hne, a, hmem ha, b, hmem hb, hwrites, hi.overlap hne ha hb⟩

end Safety

section Reachability

variable {prog : ℕ → List Access} {s : State} {i j : ℕ} {a b : Access} {xs ys : List Access}

theorem occupy (hthread : s.threads i = ⟨a :: xs, .idle⟩)
    (hmode : a.mode ≠ none → s.mutex.writer = none)
    (hwrite : a.mode = some .write → s.mutex.readers = []) :
    ∃ es m, exec step s es = some (s.move i m ⟨a :: xs, .accessing⟩) ∧
      (a.mode = none → m = s.mutex) ∧ (a.mode = some .read → m.writer = none) ∧
      (s.mutex = .free → m.leave i a.mode = .free) := by
  rcases hm : a.mode with _ | _ | _
  · refine ⟨[.enter i, .access i], s.mutex, ?_, fun _ ↦ rfl, by simp, id⟩
    simp [exec, step, hthread, hm, Mutex.enter]
  · have hw := hmode (by simp [hm])
    refine ⟨[.enter i, .access i], { s.mutex with readers := i :: s.mutex.readers }, ?_, by simp,
      fun _ ↦ hw, fun hfree ↦ ?_⟩
    · simp [exec, step, hthread, hm, Mutex.enter, hw]
    · simp [hfree, Mutex.free, Mutex.leave]
  · have hw := hmode (by simp [hm])
    have hr := hwrite hm
    refine ⟨[.enter i, .grant i, .access i], { s.mutex with writer := some (i, true) }, ?_,
      by simp, by simp, fun hfree ↦ ?_⟩
    · simp [exec, step, hthread, hm, Mutex.enter, Mutex.grant, hw, hr]
    · simp [hfree, Mutex.free, Mutex.leave]

theorem pass (hthread : s.threads i = ⟨a :: xs, .idle⟩) (hfree : s.mutex = .free) :
    ∃ es, exec step s es = some (s.move i .free ⟨xs, .idle⟩) := by
  obtain ⟨es, m, hes, -, -, hleave⟩ := occupy hthread (fun _ ↦ by rw [hfree]; rfl)
    (fun _ ↦ by rw [hfree]; rfl)
  refine ⟨es ++ [.finish i, .leave i], exec_append.mpr ⟨_, hes, ?_⟩⟩
  simp [exec, step, hleave hfree]

theorem pass_all (hthread : s.threads i = ⟨xs ++ ys, .idle⟩) (hfree : s.mutex = .free) :
    ∃ es, exec step s es = some (s.move i .free ⟨ys, .idle⟩) := by
  induction xs generalizing s with
  | nil =>
    refine ⟨[], ?_⟩
    have hsame : update s.threads i ⟨ys, .idle⟩ = s.threads := by
      rw [← List.nil_append ys, ← hthread, update_eq_self]
    rw [State.move, hsame, ← hfree]
    rfl
  | cons a xs ih =>
    obtain ⟨es, hes⟩ := pass hthread hfree
    obtain ⟨es', hes'⟩ := ih (s := s.move i .free ⟨xs ++ ys, .idle⟩) (move_self _ _ _ _) rfl
    refine ⟨es ++ es', exec_append.mpr ⟨_, hes, hes'.trans ?_⟩⟩
    rw [move_move]

theorem Races.of_conflict (hne : i ≠ j) (ha : a ∈ prog i) (hb : b ∈ prog j)
    (hc : a.Conflicts b) : Races prog := by
  obtain ⟨xs, xs', hi⟩ := List.append_of_mem ha
  obtain ⟨ys, ys', hj⟩ := List.append_of_mem hb
  obtain ⟨hwrites, hmodes⟩ := hc
  have hi₀ : (State.start prog).threads i = ⟨xs ++ a :: xs', .idle⟩ :=
    congrArg (Thread.mk · .idle) hi
  have hj₀ : (State.start prog).threads j = ⟨ys ++ b :: ys', .idle⟩ :=
    congrArg (Thread.mk · .idle) hj
  obtain ⟨e₁, h₁⟩ := pass_all hi₀ rfl
  have hj₁ := (move_of_ne hne.symm (.start prog) .free ⟨a :: xs', .idle⟩).trans hj₀
  obtain ⟨e₂, h₂⟩ := pass_all hj₁ rfl
  set s₂ := ((State.start prog).move i .free ⟨a :: xs', .idle⟩).move j .free ⟨b :: ys', .idle⟩
  have hi₂ : s₂.threads i = ⟨a :: xs', .idle⟩ := (move_of_ne hne _ _ _).trans (move_self _ _ _ _)
  obtain ⟨e₃, m₃, h₃, hnone, hread, -⟩ := occupy hi₂ (fun _ ↦ rfl) (fun _ ↦ rfl)
  have hj₃ : (s₂.move i m₃ ⟨a :: xs', .accessing⟩).threads j = ⟨b :: ys', .idle⟩ :=
    (move_of_ne hne.symm _ _ _).trans (move_self _ _ _ _)
  obtain ⟨e₄, m₄, h₄, -⟩ := occupy hj₃
    (fun hb ↦ by
      rcases hmodes with hm | hm | ⟨hm, -⟩
      · exact congrArg Mutex.writer (hnone hm)
      · exact absurd hm hb
      · exact hread hm)
    (fun hb ↦ by
      rcases hmodes with hm | hm | ⟨-, hm⟩
      · exact congrArg Mutex.readers (hnone hm)
      · rw [hm] at hb
        cases hb
      · rw [hm] at hb
        cases hb)
  refine ⟨e₁ ++ (e₂ ++ (e₃ ++ e₄)), _, exec_append.mpr ⟨_, h₁, exec_append.mpr ⟨_, h₂,
    exec_append.mpr ⟨_, h₃, h₄⟩⟩⟩, i, j, a, b, xs', ys', hne, ?_, move_self _ _ _ _, hwrites⟩
  rw [move_of_ne hne, move_self]

end Reachability

/-- The threads can race exactly if two of them have accesses that conflict. -/
theorem races_iff (prog : ℕ → List Access) :
    Races prog ↔ ∃ i j, i ≠ j ∧ ∃ a ∈ prog i, ∃ b ∈ prog j, a.Conflicts b := by
  constructor
  · exact Races.conflicts
  · rintro ⟨i, j, hne, a, ha, b, hb, hc⟩
    exact .of_conflict hne ha hb hc

end Fireworq.RwMutex
