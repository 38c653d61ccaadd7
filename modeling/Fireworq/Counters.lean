import Mathlib.Algebra.BigOperators.Group.Finset.Piecewise
import Mathlib.Algebra.Order.BigOperators.Group.Finset
import Mathlib.Algebra.Ring.Int.Defs
import Mathlib.Logic.Function.Basic
import Fireworq.Execution
import Fireworq.GoInt

namespace Fireworq.Counters

open Execution Function GoInt

variable {κ α : Type}

structure Call (α : Type) where
  op : α
  done : ℕ

structure State (κ α : Type) where
  value : κ → ℤ
  calls : List (Call α)

def State.initial : State κ α := ⟨fun _ ↦ 0, []⟩

inductive Event (α : Type)
  | start (op : α)
  | add (i : ℕ)

section Progress

variable {s t u : State κ α}

def State.progress (s : State κ α) (i : ℕ) : ℕ := (s.calls[i]?).elim 0 Call.done

theorem progress_of_getElem? {c : Call α} {i : ℕ} (hc : s.calls[i]? = some c) :
    s.progress i = c.done := by
  rw [State.progress, hc, Option.elim_some]

structure Extends (s t : State κ α) : Prop where
  calls : s.calls.map Call.op <+: t.calls.map Call.op
  progress : ∀ i, s.progress i ≤ t.progress i

theorem Extends.refl (s : State κ α) : Extends s s := ⟨List.prefix_refl _, fun _ ↦ le_rfl⟩

theorem Extends.trans (h : Extends s t) (h' : Extends t u) : Extends s u :=
  ⟨h.calls.trans h'.calls, fun i ↦ (h.progress i).trans (h'.progress i)⟩

theorem Extends.op {c : Call α} {i : ℕ} (h : Extends s t) (hc : s.calls[i]? = some c) :
    ∃ d, t.calls[i]? = some d ∧ d.op = c.op := by
  obtain ⟨ops, hops⟩ := h.calls
  have hi : i < (s.calls.map Call.op).length := by
    rw [List.length_map]
    exact (List.getElem?_eq_some_iff.mp hc).1
  have ht : (t.calls.map Call.op)[i]? = some c.op := by
    rw [← hops, List.getElem?_append_left hi, List.getElem?_map, hc, Option.map_some]
  rw [List.getElem?_map] at ht
  exact Option.map_eq_some_iff.mp ht

theorem progress_start (s : State κ α) (op : α) (i : ℕ) :
    State.progress (⟨s.value, s.calls ++ [⟨op, 0⟩]⟩ : State κ α) i = s.progress i := by
  unfold State.progress
  rcases lt_trichotomy i s.calls.length with h | rfl | h
  · rw [List.getElem?_append_left h]
  · simp
  · rw [List.getElem?_eq_none (by simp; omega), List.getElem?_eq_none (by omega)]

theorem progress_add {c : Call α} {i : ℕ} (hc : s.calls[i]? = some c) (v : κ → ℤ) (j : ℕ) :
    State.progress ⟨v, s.calls.set i ⟨c.op, c.done + 1⟩⟩ j =
      s.progress j + if j = i then 1 else 0 := by
  by_cases hij : j = i
  · subst hij
    have hj := (List.getElem?_eq_some_iff.mp hc).1
    rw [progress_of_getElem? hc, if_pos rfl, State.progress, List.getElem?_set_self hj,
      Option.elim_some]
  · rw [if_neg hij, State.progress, List.getElem?_set_ne (Ne.symm hij)]
    rfl

theorem map_op_set {c : Call α} {i : ℕ} (hc : s.calls[i]? = some c) :
    (s.calls.set i ⟨c.op, c.done + 1⟩).map Call.op = s.calls.map Call.op := by
  obtain ⟨hi, rfl⟩ := List.getElem?_eq_some_iff.mp hc
  apply List.ext_getElem (by simp)
  intro j hj hj'
  rw [List.getElem_map, List.getElem_map, List.getElem_set]
  split
  · simp [*]
  · rfl

def State.finished (adds : α → List (κ × ℤ)) (s : State κ α) (i : ℕ) : Bool :=
  (s.calls[i]?).any fun c ↦ decide ((adds c.op).length ≤ c.done)

theorem finished_iff {adds : α → List (κ × ℤ)} {i : ℕ} : s.finished adds i = true ↔
    ∃ c, s.calls[i]? = some c ∧ (adds c.op).length ≤ c.done := by
  unfold State.finished
  cases s.calls[i]? <;> simp

end Progress

section Tally

variable {adds : α → List (κ × ℤ)} {s u : State κ α}

/-- A sum over the calls of a state that are finished in an earlier one, or over
those that are not: they are under way then or start later. -/
def tally (adds : α → List (κ × ℤ)) (ended : Bool) (s u : State κ α) (f : α → ℤ) : ℤ :=
  ∑ i ∈ Finset.range u.calls.length,
    if s.finished adds i = ended then (u.calls[i]?).elim 0 fun c ↦ f c.op else 0

theorem tally_sub (ended : Bool) (f g : α → ℤ) : tally adds ended s u (fun op ↦ f op - g op) =
    tally adds ended s u f - tally adds ended s u g := by
  rw [tally, tally, tally, ← Finset.sum_sub_distrib]
  apply Finset.sum_congr rfl
  intro i _
  cases u.calls[i]? <;> split <;> simp

theorem tally_nonneg (ended : Bool) {f : α → ℤ} (h : ∀ op, 0 ≤ f op) :
    0 ≤ tally adds ended s u f := by
  apply Finset.sum_nonneg
  intro i _
  cases u.calls[i]? <;> split <;> simp [h]

theorem tally_le_length {f : α → ℤ} (h : ∀ op, f op ≤ 1) :
    tally adds true s u f + tally adds false s u f ≤ u.calls.length := by
  rw [tally, tally, ← Finset.sum_add_distrib]
  refine (Finset.sum_le_card_nsmul _ _ 1 fun i _ ↦ ?_).trans (by simp)
  cases u.calls[i]? <;> cases s.finished adds i <;> simp [h]

end Tally

variable [DecidableEq κ] (adds : α → List (κ × ℤ))

/-- Each addition is atomic, and nothing else is. -/
def step (s : State κ α) : Event α → Option (State κ α)
  | .start op => some { s with calls := s.calls ++ [⟨op, 0⟩] }
  | .add i =>
    s.calls[i]?.bind fun c ↦ (adds c.op)[c.done]?.map fun a ↦
      { value := update s.value a.1 (int64 (s.value a.1 + a.2))
        calls := s.calls.set i ⟨c.op, c.done + 1⟩ }

inductive Loads : State κ α → List κ → List ℤ → State κ α → Prop
  | nil (s : State κ α) : Loads s [] [] s
  | cons {s t u : State κ α} {es : List (Event α)} {k : κ} {ks : List κ} {vs : List ℤ} :
      exec (step adds) s es = some t → Loads t ks vs u → Loads s (k :: ks) (t.value k :: vs) u

section Calls

def added (k : κ) (op : α) (n : ℕ) : ℤ :=
  (((adds op).take n).map fun a ↦ if a.1 = k then a.2 else 0).sum

def total (k : κ) (op : α) : ℤ := added adds k op (adds op).length

def Grows (k : κ) : Prop := ∀ op, ∀ a ∈ adds op, a.1 = k → 0 ≤ a.2

variable {adds} {k : κ} {op : α} {n m : ℕ}

theorem added_succ {a : κ × ℤ} (h : (adds op)[n]? = some a) :
    added adds k op (n + 1) = added adds k op n + if a.1 = k then a.2 else 0 := by
  simp [added, List.take_add_one, h]

theorem added_of_le (h : (adds op).length ≤ n) : added adds k op n = total adds k op := by
  rw [total, added, added, List.take_of_length_le h, List.take_length]

theorem Grows.added_le (hk : Grows adds k) (h : n ≤ m) :
    added adds k op n ≤ added adds k op m := by
  induction h with
  | refl => exact le_rfl
  | @step m _ ih =>
    refine ih.trans ?_
    cases ha : (adds op)[m]? with
    | none =>
      have hlen := List.getElem?_eq_none_iff.mp ha
      rw [added_of_le hlen, added_of_le (hlen.trans m.le_succ)]
    | some a =>
      rw [added_succ ha]
      split
      · exact le_add_of_nonneg_right (hk op a (List.mem_of_getElem? ha) ‹_›)
      · rw [add_zero]

theorem Grows.added_le_total (hk : Grows adds k) : added adds k op n ≤ total adds k op := by
  rcases le_total n (adds op).length with h | h
  · exact hk.added_le h
  · rw [added_of_le h]

theorem Grows.added_nonneg (hk : Grows adds k) : 0 ≤ added adds k op n :=
  hk.added_le n.zero_le

end Calls

section Steps

variable {adds} {s t u : State κ α} {e : Event α} {es : List (Event α)} {k : κ}

theorem step_cases (h : step adds s e = some t) :
    (∃ op, e = .start op ∧ t = { s with calls := s.calls ++ [⟨op, 0⟩] }) ∨
      ∃ i c a, e = .add i ∧ s.calls[i]? = some c ∧ (adds c.op)[c.done]? = some a ∧
        t = ⟨update s.value a.1 (int64 (s.value a.1 + a.2)),
          s.calls.set i ⟨c.op, c.done + 1⟩⟩ := by
  cases e with
  | start op => cases h; exact .inl ⟨op, rfl, rfl⟩
  | add i =>
    obtain ⟨c, hc, h⟩ := Option.bind_eq_some_iff.mp h
    obtain ⟨a, ha, rfl⟩ := Option.map_eq_some_iff.mp h
    exact .inr ⟨i, c, a, rfl, hc, ha, rfl⟩

theorem step_extends (h : step adds s e = some t) : Extends s t := by
  obtain ⟨op, rfl, rfl⟩ | ⟨i, c, a, rfl, hc, ha, rfl⟩ := step_cases h
  · exact ⟨by simp, fun i ↦ (progress_start s op i).ge⟩
  · refine ⟨by simp only [map_op_set hc, List.prefix_refl], fun j ↦ ?_⟩
    rw [progress_add hc]
    exact Nat.le_add_right _ _

theorem exec_extends (h : exec (step adds) s es = some t) : Extends s t :=
  invariant (Extends s) (fun _ _ _ hs hstep ↦ hs.trans (step_extends hstep)) h (.refl s)

theorem Loads.now {ks : List κ} {vs : List ℤ} (h : Loads adds s ks vs u) :
    Loads adds s (k :: ks) (s.value k :: vs) u :=
  .cons (show exec (step adds) s [] = some s from rfl) h

theorem Loads.extends {ks : List κ} {vs : List ℤ} (h : Loads adds s ks vs u) : Extends s u := by
  induction h with
  | nil s => exact .refl s
  | cons he _ ih => exact (exec_extends he).trans ih

def State.share (adds : α → List (κ × ℤ)) (u : State κ α) (k : κ) (i n : ℕ) : ℤ :=
  (u.calls[i]?).elim 0 fun c ↦ added adds k c.op n

theorem share_zero (u : State κ α) (k : κ) (i : ℕ) : u.share adds k i 0 = 0 := by
  unfold State.share
  cases u.calls[i]? <;> rfl

/-- A counter is the sum of what the calls have added so far, in terms of the
calls of any later state. -/
theorem value_eq (h : exec (step adds) .initial es = some t) (k : κ) (hu : Extends t u) :
    t.value k =
      int64 (∑ i ∈ Finset.range u.calls.length, u.share adds k i (t.progress i)) := by
  revert u
  refine invariant (fun t ↦ ∀ {u : State κ α}, Extends t u → t.value k =
    int64 (∑ i ∈ Finset.range u.calls.length, u.share adds k i (t.progress i))) ?_ h ?_
  · intro t e t' ih h u hu
    have ht := ih ((step_extends h).trans hu)
    obtain ⟨op, rfl, rfl⟩ | ⟨i, c, a, rfl, hc, ha, rfl⟩ := step_cases h
    · simp only [progress_start]
      exact ht
    · obtain ⟨d, hd, hop⟩ := ((step_extends h).trans hu).op hc
      have hi := (List.getElem?_eq_some_iff.mp hd).1
      have hshare (j : ℕ) : u.share adds k j (t.progress j + if j = i then 1 else 0) =
          u.share adds k j (t.progress j) +
            if i = j then (if a.1 = k then a.2 else 0) else 0 := by
        by_cases hij : j = i
        · subst hij
          rw [if_pos rfl, if_pos rfl, State.share, State.share, hd, Option.elim_some,
            Option.elim_some, hop, progress_of_getElem? hc, added_succ ha]
        · rw [if_neg hij, if_neg (Ne.symm hij), add_zero, add_zero]
      simp only [progress_add hc, hshare, Finset.sum_add_distrib, Finset.sum_ite_eq,
        Finset.mem_range, hi, if_true]
      by_cases hk : a.1 = k
      · subst hk
        rw [update_self, if_pos rfl, ht, int64_int64_add]
      · rw [update_of_ne (Ne.symm hk), if_neg hk, add_zero, ht]
  · intro u _
    have hzero (i : ℕ) : (State.initial : State κ α).progress i = 0 := rfl
    simp only [hzero, share_zero, Finset.sum_const_zero]
    rfl

end Steps

section Bounds

variable {adds} {s t u : State κ α} {es : List (Event α)} {k : κ}

theorem share_of_finished (hst : Extends s t) (htu : Extends t u) {i : ℕ}
    (h : s.finished adds i = true) : u.share adds k i (t.progress i) =
      (u.calls[i]?).elim 0 fun c ↦ total adds k c.op := by
  obtain ⟨c, hc, hdone⟩ := finished_iff.mp h
  obtain ⟨d, hd, hop⟩ := (hst.trans htu).op hc
  rw [State.share, hd, Option.elim_some, Option.elim_some, hop]
  apply added_of_le
  have hle := hst.progress i
  rw [progress_of_getElem? hc] at hle
  exact hdone.trans hle

theorem Grows.share_bounds (hk : Grows adds k) (i n : ℕ) : 0 ≤ u.share adds k i n ∧
    u.share adds k i n ≤ (u.calls[i]?).elim 0 fun c ↦ total adds k c.op := by
  unfold State.share
  cases u.calls[i]? with
  | none => exact ⟨le_rfl, le_rfl⟩
  | some c => exact ⟨hk.added_nonneg, hk.added_le_total⟩

/-- A counter that is loaded between two states has all that the calls finished
in the first one add, and at most what the others add besides. -/
theorem load_bounds (hk : Grows adds k) (hst : Extends s t) (htu : Extends t u)
    (h : exec (step adds) .initial es = some t) :
    ∃ x, t.value k = int64 x ∧ tally adds true s u (total adds k) ≤ x ∧
      x ≤ tally adds true s u (total adds k) + tally adds false s u (total adds k) := by
  refine ⟨_, value_eq h k htu, ?_, ?_⟩
  · apply Finset.sum_le_sum
    intro i _
    split
    · rw [share_of_finished hst htu ‹_›]
    · exact (hk.share_bounds i _).1
  · rw [tally, tally, ← Finset.sum_add_distrib]
    apply Finset.sum_le_sum
    intro i _
    cases hi : s.finished adds i with
    | true => rw [if_pos rfl, if_neg (by decide), add_zero, share_of_finished hst htu hi]
    | false => rw [if_neg (by decide), if_pos rfl, zero_add]; exact (hk.share_bounds i _).2

/-- The same for a reader of several counters. -/
theorem Loads.bounds {ks : List κ} {vs : List ℤ} (h : Loads adds t ks vs u) (hst : Extends s t)
    (ht : exec (step adds) .initial es = some t) :
    ∀ x ∈ ks.zip vs, Grows adds x.1 → ∃ y, x.2 = int64 y ∧
      tally adds true s u (total adds x.1) ≤ y ∧
        y ≤ tally adds true s u (total adds x.1) + tally adds false s u (total adds x.1) := by
  induction h generalizing es with
  | nil => intro x hx; cases hx
  | @cons t t' u es' k ks vs he hrest ih =>
    intro x hx hk
    have ht' := exec_append.mpr ⟨t, ht, he⟩
    have hst' := hst.trans (exec_extends he)
    rcases List.mem_cons.mp hx with rfl | hx
    · exact load_bounds hk hst' hrest.extends ht'
    · exact ih hst' ht' x hx hk

end Bounds

end Fireworq.Counters
