import Mathlib.Data.Nat.Notation
import Mathlib.Data.List.Perm.Basic
import Mathlib.Logic.Equiv.Basic

namespace Fireworq.BinaryHeap

variable {α : Type} (less : α → α → Bool)

def lessAt (l : Array α) (i j : ℕ) : Bool :=
  match l[i]?, l[j]? with
  | some a, some b => less a b
  | _, _ => false

/-- Moves an element up to where its parent is not greater. A position is
fuel enough for itself. -/
def up : ℕ → Array α → ℕ → Array α
  | 0, l, _ => l
  | fuel + 1, l, j =>
    let i := (j - 1) / 2
    if i = j ∨ lessAt less l j i = false then l else up fuel (l.swapIfInBounds i j) i

def down (n : ℕ) : ℕ → Array α → ℕ → Array α
  | 0, l, _ => l
  | fuel + 1, l, i =>
    let j₁ := 2 * i + 1
    if n ≤ j₁ then l
    else
      let j := if j₁ + 1 < n ∧ lessAt less l (j₁ + 1) j₁ then j₁ + 1 else j₁
      if lessAt less l j i = false then l else down n fuel (l.swapIfInBounds i j) j

def push (l : Array α) (x : α) : Array α := up less l.size (l.push x) l.size

def pop (l : Array α) : Option (α × Array α) :=
  let n := l.size - 1
  let l' := down less n n (l.swapIfInBounds 0 n) 0
  l'.back?.map fun x ↦ (x, l'.pop)

theorem swapIfInBounds_perm (l : Array α) (i j : ℕ) : (l.swapIfInBounds i j).Perm l := by
  unfold Array.swapIfInBounds
  split
  · split
    · exact Array.swap_perm _ _
    · exact .rfl
  · exact .rfl

theorem up_perm (fuel : ℕ) (l : Array α) (j : ℕ) : (up less fuel l j).Perm l := by
  induction fuel generalizing l j with
  | zero => exact .rfl
  | succ fuel ih =>
    rw [up]
    split
    · exact .rfl
    · exact (ih _ _).trans (swapIfInBounds_perm l _ j)

theorem down_perm (n fuel : ℕ) (l : Array α) (i : ℕ) : (down less n fuel l i).Perm l := by
  induction fuel generalizing l i with
  | zero => exact .rfl
  | succ fuel ih =>
    rw [down]
    split
    · exact .rfl
    · dsimp only
      split <;> split
      all_goals first | exact .rfl | exact (ih _ _).trans (swapIfInBounds_perm l i _)

variable {less}

theorem push_perm (l : Array α) (x : α) : (push less l x).toList.Perm (x :: l.toList) := by
  refine (Array.perm_iff_toList_perm.mp (up_perm less _ _ _)).trans ?_
  rw [Array.toList_push]
  exact List.perm_append_singleton x l.toList

theorem size_push (l : Array α) (x : α) : (push less l x).size = l.size + 1 := by
  have hperm : (push less l x).toList.Perm (x :: l.toList) := push_perm l x
  simpa using hperm.length_eq

theorem pop_perm {l l' : Array α} {x : α} (h : pop less l = some (x, l')) :
    l.toList.Perm (x :: l'.toList) := by
  obtain ⟨y, hy, he⟩ := Option.map_eq_some_iff.mp h
  obtain ⟨rfl, rfl⟩ := Prod.mk.inj he
  have hperm := (down_perm less (l.size - 1) (l.size - 1) (l.swapIfInBounds 0 (l.size - 1)) 0).trans
    (swapIfInBounds_perm l 0 (l.size - 1))
  refine (Array.perm_iff_toList_perm.mp hperm).symm.trans ?_
  rw [← Array.getLast?_toList] at hy
  rw [Array.toList_pop]
  conv => lhs; rw [← List.dropLast_append_getLast? y hy]
  exact List.perm_append_singleton y _

structure Weak (less : α → α → Bool) : Prop where
  asymm : ∀ a b, less a b = true → less b a = false
  trans : ∀ a b c, less b a = false → less c b = false → less c a = false

theorem Weak.irrefl (hw : Weak less) (a : α) : less a a = false := by
  cases h : less a a with
  | false => rfl
  | true => rw [← h, hw.asymm a a h]

def IsHeap (less : α → α → Bool) (n : ℕ) (l : Array α) : Prop :=
  ∀ k, 0 < k → k < n → lessAt less l k ((k - 1) / 2) = false

/-- The order of a heap in which the element at `j` may be less than its parent. -/
structure UpOrder (less : α → α → Bool) (n : ℕ) (l : Array α) (j : ℕ) : Prop where
  except : ∀ k, 0 < k → k < n → k ≠ j → lessAt less l k ((k - 1) / 2) = false
  grand : ∀ k, 0 < j → 0 < k → k < n → (k - 1) / 2 = j → lessAt less l k ((j - 1) / 2) = false

structure DownOrder (less : α → α → Bool) (n : ℕ) (l : Array α) (i : ℕ) : Prop where
  except : ∀ k, 0 < k → k < n → (k - 1) / 2 ≠ i → lessAt less l k ((k - 1) / 2) = false
  grand : ∀ k, 0 < i → 0 < k → k < n → (k - 1) / 2 = i → lessAt less l k ((i - 1) / 2) = false

section Order

variable {l : Array α} {i j k n : ℕ}

theorem lessAt_swap (hi : i < l.size) (hj : j < l.size) (a b : ℕ) :
    lessAt less (l.swapIfInBounds i j) a b =
      lessAt less l (Equiv.swap i j a) (Equiv.swap i j b) := by
  have hget : ∀ k : ℕ, (l.swapIfInBounds i j)[k]? = l[Equiv.swap i j k]? := by
    intro k
    rw [Array.swapIfInBounds_def, dif_pos hi, dif_pos hj, Array.getElem?_swap]
    rw [Equiv.swap_apply_def]
    grind
  rw [lessAt, lessAt, hget, hget]

theorem lessAt_of_lt {a b : ℕ} (ha : a < l.size) (hb : b < l.size) :
    lessAt less l a b = less l[a] l[b] := by
  rw [lessAt, Array.getElem?_eq_getElem ha, Array.getElem?_eq_getElem hb]

theorem Weak.asymmAt (hw : Weak less) {a b : ℕ} (ha : a < l.size) (hb : b < l.size)
    (h : lessAt less l a b ≠ false) : lessAt less l b a = false := by
  rw [lessAt_of_lt ha hb, ne_eq, Bool.not_eq_false] at h
  rw [lessAt_of_lt hb ha]
  exact hw.asymm _ _ h

theorem Weak.transAt (hw : Weak less) {a b c : ℕ} (ha : a < l.size) (hb : b < l.size)
    (hc : c < l.size) (h₁ : lessAt less l b a = false) (h₂ : lessAt less l c b = false) :
    lessAt less l c a = false := by
  rw [lessAt_of_lt hb ha] at h₁
  rw [lessAt_of_lt hc hb] at h₂
  rw [lessAt_of_lt hc ha]
  exact hw.trans _ _ _ h₁ h₂

theorem UpOrder.swap (hw : Weak less) (h : UpOrder less n l j) (hn : n ≤ l.size) (hj : j < n)
    (hpos : 0 < j) (hless : lessAt less l j ((j - 1) / 2) ≠ false) :
    UpOrder less n (l.swapIfInBounds ((j - 1) / 2) j) ((j - 1) / 2) := by
  obtain ⟨p, hp⟩ : ∃ p, p = (j - 1) / 2 := ⟨_, rfl⟩
  rw [← hp] at hless ⊢
  have hpj : p < j := by omega
  have hps : p < l.size := by omega
  have hjs : j < l.size := by omega
  refine ⟨fun k hk hkn hne ↦ ?_, fun k hpp hk hkn hkp ↦ ?_⟩
  · rw [lessAt_swap hps hjs]
    by_cases hkj : k = j
    · rw [hkj, ← hp, Equiv.swap_apply_right, Equiv.swap_apply_left]
      exact hw.asymmAt hjs hps hless
    rw [Equiv.swap_apply_of_ne_of_ne hne hkj]
    by_cases hc : (k - 1) / 2 = j
    · rw [hc, Equiv.swap_apply_right, hp]
      exact h.grand k hpos hk hkn hc
    by_cases hs : (k - 1) / 2 = p
    · rw [hs, Equiv.swap_apply_left]
      have hkp := h.except k hk hkn hkj
      rw [hs] at hkp
      exact hw.transAt hjs hps (by omega) (hw.asymmAt hjs hps hless) hkp
    · rw [Equiv.swap_apply_of_ne_of_ne hs hc]
      exact h.except k hk hkn hkj
  · have hpp' := h.except p hpp (by omega) (by omega)
    rw [lessAt_swap hps hjs, Equiv.swap_apply_of_ne_of_ne (a := p) (x := (p - 1) / 2) (by omega)
      (by omega)]
    by_cases hkj : k = j
    · rw [hkj, Equiv.swap_apply_right]
      exact hpp'
    · rw [Equiv.swap_apply_of_ne_of_ne (by omega) hkj]
      have hkp' := h.except k hk hkn hkj
      rw [hkp] at hkp'
      exact hw.transAt (by omega) hps (by omega) hpp' hkp'

theorem up_isHeap (hw : Weak less) (fuel : ℕ) (hn : n ≤ l.size) (hj : j < n) (hf : j ≤ fuel)
    (h : UpOrder less n l j) : IsHeap less n (up less fuel l j) := by
  induction fuel generalizing l j with
  | zero =>
    intro k hk hkn
    exact h.except k hk hkn (by omega)
  | succ fuel ih =>
    rw [up]
    split
    · rename_i hstop
      intro k hk hkn
      by_cases hkj : k = j
      · rcases hstop with hz | hstop
        · omega
        · rw [hkj]
          exact hstop
      · exact h.except k hk hkn hkj
    · rename_i hgo
      rw [not_or] at hgo
      have hsize : n ≤ (l.swapIfInBounds ((j - 1) / 2) j).size := by
        rw [Array.size_swapIfInBounds]
        exact hn
      exact ih hsize (by omega) (by omega) (h.swap hw hn hj (by omega) hgo.2)

theorem DownOrder.swap (hw : Weak less) (h : DownOrder less n l i) (hn : n ≤ l.size)
    (hj : j < n) (hpos : 0 < j) (hp : (j - 1) / 2 = i)
    (hmin : ∀ k, 0 < k → k < n → (k - 1) / 2 = i → lessAt less l k j = false)
    (hless : lessAt less l j i ≠ false) : DownOrder less n (l.swapIfInBounds i j) j := by
  have his : i < l.size := by omega
  have hjs : j < l.size := by omega
  refine ⟨fun k hk hkn hne ↦ ?_, fun k _ hk hkn hkj ↦ ?_⟩
  · rw [lessAt_swap his hjs]
    by_cases hki : k = i
    · rw [hki, Equiv.swap_apply_left, Equiv.swap_apply_of_ne_of_ne (by omega) (by omega)]
      exact h.grand j (by omega) hpos hj hp
    by_cases hc : (k - 1) / 2 = i
    · rw [hc, Equiv.swap_apply_left]
      by_cases hkj : k = j
      · rw [hkj, Equiv.swap_apply_right]
        exact hw.asymmAt hjs his hless
      · rw [Equiv.swap_apply_of_ne_of_ne hki hkj]
        exact hmin k hk hkn hc
    · rw [Equiv.swap_apply_of_ne_of_ne hki (by rintro rfl; exact hc hp),
        Equiv.swap_apply_of_ne_of_ne hc hne]
      exact h.except k hk hkn hc
  · rw [lessAt_swap his hjs, hp, Equiv.swap_apply_left,
      Equiv.swap_apply_of_ne_of_ne (by omega) (by omega)]
    have hkj' := h.except k hk hkn (by omega)
    rw [hkj] at hkj'
    exact hkj'

theorem lesser_child (hw : Weak less) (hn : n ≤ l.size) (hi : 2 * i + 1 < n)
    (hj : j = if 2 * i + 1 + 1 < n ∧ lessAt less l (2 * i + 1 + 1) (2 * i + 1) then 2 * i + 1 + 1
      else 2 * i + 1) :
    j < n ∧ 0 < j ∧ (j - 1) / 2 = i ∧
      ∀ k, 0 < k → k < n → (k - 1) / 2 = i → lessAt less l k j = false := by
  have hself : ∀ k, k < n → lessAt less l k k = false := by
    intro k hk
    rw [lessAt_of_lt (by omega) (by omega)]
    exact hw.irrefl _
  split at hj
  · rename_i hright
    refine ⟨by omega, by omega, by omega, fun k hk hkn hkp ↦ ?_⟩
    obtain rfl | rfl : k = 2 * i + 1 ∨ k = j := by omega
    · rw [hj]
      exact hw.asymmAt (by omega) (by omega) (by rw [hright.2]; exact Bool.true_eq_false.mp)
    · exact hself k hkn
  · rename_i hleft
    refine ⟨by omega, by omega, by omega, fun k hk hkn hkp ↦ ?_⟩
    obtain rfl | rfl : k = j ∨ k = 2 * i + 1 + 1 := by omega
    · exact hself k hkn
    · rw [hj]
      rw [not_and, Bool.not_eq_true] at hleft
      exact hleft hkn

theorem down_isHeap (hw : Weak less) (fuel : ℕ) (hn : n ≤ l.size) (hf : n ≤ fuel + i)
    (h : DownOrder less n l i) : IsHeap less n (down less n fuel l i) := by
  induction fuel generalizing l i with
  | zero =>
    intro k hk hkn
    exact h.except k hk hkn (by omega)
  | succ fuel ih =>
    rw [down]
    split
    · rename_i hleaf
      intro k hk hkn
      exact h.except k hk hkn (by omega)
    · rename_i hchild
      dsimp only
      generalize hj : (if 2 * i + 1 + 1 < n ∧ lessAt less l (2 * i + 1 + 1) (2 * i + 1) then
        2 * i + 1 + 1 else 2 * i + 1) = j
      obtain ⟨hjn, hpos, hp, hmin⟩ := lesser_child hw hn (by omega) hj.symm
      split
      · rename_i hstop
        intro k hk hkn
        by_cases hc : (k - 1) / 2 = i
        · rw [hc]
          exact hw.transAt (by omega) (by omega) (by omega) hstop (hmin k hk hkn hc)
        · exact h.except k hk hkn hc
      · rename_i hgo
        have hsize : n ≤ (l.swapIfInBounds i j).size := by
          rw [Array.size_swapIfInBounds]
          exact hn
        exact ih hsize (by omega) (h.swap hw hn hjn hpos hp hmin hgo)

/-- Moving an element down among the first `n` leaves the others in place. -/
theorem down_getElem? (fuel : ℕ) (hk : n ≤ k) (hi : i < n) :
    (down less n fuel l i)[k]? = l[k]? := by
  induction fuel generalizing l i with
  | zero => rfl
  | succ fuel ih =>
    rw [down]
    split
    · rfl
    · dsimp only
      generalize hj : (if 2 * i + 1 + 1 < n ∧ lessAt less l (2 * i + 1 + 1) (2 * i + 1) then
        2 * i + 1 + 1 else 2 * i + 1) = j
      have hjn : j < n := by
        split at hj
        · omega
        · omega
      split
      · rfl
      · rw [ih hjn, Array.swapIfInBounds_def]
        split
        · split
          · rw [Array.getElem?_swap, if_neg (by omega), if_neg (by omega)]
          · rfl
        · rfl

end Order

variable {l l' : Array α} {x : α}

/-- The root of a heap is a minimum. -/
theorem IsHeap.root (hw : Weak less) (h : IsHeap less l.size l) (k : ℕ) (hk : k < l.size) :
    lessAt less l k 0 = false := by
  induction k using Nat.strongRecOn with
  | ind k ih =>
    by_cases hz : k = 0
    · rw [hz, lessAt_of_lt (by omega) (by omega)]
      exact hw.irrefl _
    · have hroot := ih ((k - 1) / 2) (by omega) (by omega)
      exact hw.transAt (by omega) (by omega) hk hroot (h k (by omega) hk)

theorem push_isHeap (hw : Weak less) (h : IsHeap less l.size l) (x : α) :
    IsHeap less (push less l x).size (push less l x) := by
  have hsize : (push less l x).size = (l.push x).size := (up_perm less _ _ _).size_eq
  have hpush : (l.push x).size = l.size + 1 := Array.size_push x
  rw [hsize]
  refine up_isHeap hw l.size (Nat.le_refl _) (by omega) (Nat.le_refl _)
    ⟨fun k hk hkn hne ↦ ?_, fun k _ hk hkn hkp ↦ by omega⟩
  have hkl : k < l.size := by omega
  have hpl : (k - 1) / 2 < l.size := by omega
  have hkp := h k hk hkl
  rw [lessAt_of_lt hkl hpl] at hkp
  rw [lessAt_of_lt hkn (by omega), Array.getElem_push_lt hkl, Array.getElem_push_lt hpl]
  exact hkp

theorem pop_eq_none (h : pop less l = none) : l = #[] := by
  have hback := Option.map_eq_none_iff.mp h
  have hsize := (down_perm less (l.size - 1) (l.size - 1)
    (l.swapIfInBounds 0 (l.size - 1)) 0).size_eq
  rw [Array.back?_eq_none_iff] at hback
  rw [hback, Array.size_swapIfInBounds] at hsize
  exact Array.size_eq_zero_iff.mp hsize.symm

theorem pop_root (h : pop less l = some (x, l')) : l[0]? = some x := by
  obtain ⟨y, hy, he⟩ := Option.map_eq_some_iff.mp h
  obtain ⟨rfl, -⟩ := Prod.mk.inj he
  have hsize := (down_perm less (l.size - 1) (l.size - 1)
    (l.swapIfInBounds 0 (l.size - 1)) 0).size_eq
  rw [Array.size_swapIfInBounds] at hsize
  rw [Array.back?_eq_getElem?, hsize] at hy
  have hpos : 0 < l.size := by
    by_contra hz
    rw [Array.getElem?_eq_none (by omega)] at hy
    cases hy
  have hlast : (down less (l.size - 1) (l.size - 1) (l.swapIfInBounds 0 (l.size - 1))
      0)[l.size - 1]? = (l.swapIfInBounds 0 (l.size - 1))[l.size - 1]? := by
    by_cases hone : l.size - 1 = 0
    · rw [hone]
      rfl
    · exact down_getElem? _ (Nat.le_refl _) (by omega)
  rw [hlast, Array.swapIfInBounds_def, dif_pos hpos, dif_pos (by omega), Array.getElem?_swap,
    if_pos rfl] at hy
  rw [Array.getElem?_eq_getElem hpos]
  exact hy

theorem pop_isHeap (hw : Weak less) (h : IsHeap less l.size l) (hp : pop less l = some (x, l')) :
    IsHeap less l'.size l' := by
  obtain ⟨y, hy, he⟩ := Option.map_eq_some_iff.mp hp
  obtain ⟨-, rfl⟩ := Prod.mk.inj he
  have hsize := (down_perm less (l.size - 1) (l.size - 1)
    (l.swapIfInBounds 0 (l.size - 1)) 0).size_eq
  rw [Array.size_swapIfInBounds] at hsize
  have hheap : IsHeap less (l.size - 1)
      (down less (l.size - 1) (l.size - 1) (l.swapIfInBounds 0 (l.size - 1)) 0) := by
    refine down_isHeap hw _ (by rw [Array.size_swapIfInBounds]; omega) (by omega)
      ⟨fun k hk hkn hne ↦ ?_, fun k hz ↦ by omega⟩
    rw [lessAt_swap (by omega) (by omega), Equiv.swap_apply_of_ne_of_ne (by omega) (by omega),
      Equiv.swap_apply_of_ne_of_ne hne (by omega)]
    exact h k hk (by omega)
  intro k hk hkn
  rw [Array.size_pop, hsize] at hkn
  have hkp := hheap k hk hkn
  rw [lessAt_of_lt (by omega) (by omega)] at hkp
  rw [lessAt_of_lt (by rw [Array.size_pop]; omega) (by rw [Array.size_pop]; omega),
    Array.getElem_pop, Array.getElem_pop]
  exact hkp

theorem pop_minimum (hw : Weak less) (h : IsHeap less l.size l)
    (hp : pop less l = some (x, l')) {y : α} (hy : y ∈ l) : less y x = false := by
  obtain ⟨k, hk, rfl⟩ := Array.mem_iff_getElem.mp hy
  have hroot := h.root hw k hk
  obtain ⟨h0, rfl⟩ := Array.getElem?_eq_some_iff.mp (pop_root hp)
  rwa [lessAt_of_lt hk h0] at hroot

/-- A heap stays one in an order that agrees on its elements. -/
theorem IsHeap.congr {less' : α → α → Bool} (h : IsHeap less l.size l)
    (he : ∀ a ∈ l, ∀ b ∈ l, less' a b = less a b) : IsHeap less' l.size l := by
  intro k hk hkn
  have hkp := h k hk hkn
  rw [lessAt_of_lt hkn (by omega)] at hkp ⊢
  rw [he _ (Array.getElem_mem hkn) _ (Array.getElem_mem _)]
  exact hkp

end Fireworq.BinaryHeap
