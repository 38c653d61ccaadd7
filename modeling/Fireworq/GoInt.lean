import Mathlib.Algebra.Group.Int.Defs
import Mathlib.Algebra.Group.Nat.Defs
import Mathlib.Data.Int.Init

namespace Fireworq.GoInt

/-- Conversion to a signed 64-bit integer, with Go's wrap-around. -/
def int64 (x : ℤ) : ℤ := Int.bmod x (2 ^ 64)

def uint64 (x : ℤ) : ℕ := (x % 2 ^ 64).toNat

theorem int64_of_range {x : ℤ} (h₀ : -2 ^ 63 ≤ x) (h₁ : x < 2 ^ 63) : int64 x = x := by
  apply Int.bmod_eq_of_le <;> omega

theorem int64_range (x : ℤ) : -2 ^ 63 ≤ int64 x ∧ int64 x < 2 ^ 63 := by
  have h₀ := Int.le_bmod (x := x) (m := 2 ^ 64) (by decide)
  have h₁ := Int.bmod_lt (x := x) (m := 2 ^ 64) (by decide)
  unfold int64
  omega

/-- Additions and subtractions may wrap around at each step or at the end. -/
@[simp]
theorem int64_int64_add (x y : ℤ) : int64 (int64 x + y) = int64 (x + y) := by
  simp [int64]

@[simp]
theorem int64_add_int64 (x y : ℤ) : int64 (x + int64 y) = int64 (x + y) := by
  simp [int64]

@[simp]
theorem int64_int64_sub (x y : ℤ) : int64 (int64 x - y) = int64 (x - y) := by
  simp [int64]

@[simp]
theorem int64_sub_int64 (x y : ℤ) : int64 (x - int64 y) = int64 (x - y) := by
  simp [int64]

theorem uint64_lt (x : ℤ) : uint64 x < 2 ^ 64 := by
  unfold uint64
  omega

theorem uint64_le (n : ℕ) : uint64 n ≤ n := by
  unfold uint64
  omega

theorem uint64_of_range {x : ℤ} (h₀ : 0 ≤ x) (h₁ : x < 2 ^ 64) : uint64 x = x.toNat := by
  rw [uint64, Int.emod_eq_of_lt h₀ h₁]

theorem uint64_natCast {n : ℕ} (h : n < 2 ^ 64) : uint64 n = n := by
  rw [uint64_of_range (by omega) (by exact_mod_cast h), Int.toNat_natCast]

theorem uint64_eq_iff {n : ℕ} : uint64 n = n ↔ n < 2 ^ 64 :=
  ⟨fun h ↦ h ▸ uint64_lt n, uint64_natCast⟩

theorem uint64_add_eq_iff {m n : ℕ} : uint64 (m + n) = m + n ↔ m + n < 2 ^ 64 :=
  uint64_eq_iff (n := m + n)

theorem uint64_pred {n : ℕ} (hpos : 0 < n) (h : n < 2 ^ 64) : uint64 ((n : ℤ) - 1) = n - 1 := by
  rw [show (n : ℤ) - 1 = (n - 1 : ℕ) by omega, uint64_natCast (by omega)]

def maxAlloc : ℕ := 2 ^ 48

/-- `make` of a slice with a capacity of elements of a size does not panic. -/
def makes (size capacity : ℕ) : Prop := size * capacity ≤ maxAlloc

instance (size capacity : ℕ) : Decidable (makes size capacity) :=
  inferInstanceAs (Decidable (_ ≤ _))

theorem makes_of_le {size size' capacity : ℕ} (h : makes size capacity) (hle : size' ≤ size) :
    makes size' capacity :=
  Nat.le_trans (Nat.mul_le_mul_right capacity hle) h

end Fireworq.GoInt
