import Fireworq.GoString
import Mathlib.Data.List.Forall2

namespace Fireworq.MySQL

open GoString

def Admitted (name : List UInt8) : Prop := name ≠ [] ∧ 0x2F ∉ name

instance (name : List UInt8) : Decidable (Admitted name) := inferInstanceAs (Decidable (_ ∧ _))

def alphanumeric (r : ℕ) : Bool := (0x30 ≤ r && r ≤ 0x39) || (0x61 ≤ r && r ≤ 0x7A)

def invalidTablenameChars (r : ℕ) : Bool := !(alphanumeric r || r == 0x5F)

/-- `re.ReplaceAll(name, "_")`: one underscore for each rune that matches. -/
def replaceAll (re : ℕ → Bool) (name : List UInt8) : List UInt8 :=
  (runes name).map fun r ↦ if re r then 0x5F else UInt8.ofNat r

structure TableName where
  jobQueue : List UInt8
  failure : List UInt8
  deriving DecidableEq

def jobQueuePrefix : List UInt8 :=
  [0x66, 0x69, 0x72, 0x65, 0x77, 0x6F, 0x72, 0x71, 0x5F, 0x6A, 0x71, 0x28]

def failurePrefix : List UInt8 :=
  [0x66, 0x69, 0x72, 0x65, 0x77, 0x6F, 0x72, 0x71, 0x5F, 0x6A, 0x71, 0x5F, 0x66, 0x61, 0x69,
    0x6C, 0x28]

def newTableName (name : List UInt8) : TableName where
  jobQueue := jobQueuePrefix ++ replaceAll invalidTablenameChars name ++ [0x29]
  failure := failurePrefix ++ replaceAll invalidTablenameChars name ++ [0x29]

/-- The names have equally many characters, and wherever these differ neither
is a digit or a lower-case letter. -/
def Confusable (a b : List UInt8) : Prop :=
  List.Forall₂ (fun q r ↦ q = r ∨ alphanumeric q = false ∧ alphanumeric r = false)
    (runes a) (runes b)

theorem alphanumeric_range {r : ℕ} (h : alphanumeric r = true) : r < 128 ∧ r ≠ 0x5F := by
  simp only [alphanumeric, Bool.or_eq_true, Bool.and_eq_true, decide_eq_true_eq] at h
  omega

theorem replace_of_alphanumeric {r : ℕ} (h : alphanumeric r = true) :
    (if invalidTablenameChars r then 0x5F else UInt8.ofNat r) = UInt8.ofNat r := by
  simp [invalidTablenameChars, h]

theorem replace_of_not_alphanumeric {r : ℕ} (h : alphanumeric r = false) :
    (if invalidTablenameChars r then 0x5F else UInt8.ofNat r) = 0x5F := by
  by_cases hr : r = 0x5F
  · subst hr
    rfl
  · simp [invalidTablenameChars, h, hr]

theorem ofNat_inj {q r : ℕ} (hq : q < 256) (hr : r < 256) (h : UInt8.ofNat q = UInt8.ofNat r) :
    q = r := by
  have := congrArg UInt8.toNat h
  rwa [UInt8.toNat_ofNat_of_lt' hq, UInt8.toNat_ofNat_of_lt' hr] at this

theorem replace_eq_iff (q r : ℕ) :
    ((if invalidTablenameChars q then 0x5F else UInt8.ofNat q) =
      if invalidTablenameChars r then 0x5F else UInt8.ofNat r) ↔
      q = r ∨ alphanumeric q = false ∧ alphanumeric r = false := by
  constructor
  · intro h
    cases hq : alphanumeric q with
    | false =>
      cases hr : alphanumeric r with
      | false => exact .inr ⟨rfl, rfl⟩
      | true =>
        obtain ⟨hlt, hne⟩ := alphanumeric_range hr
        rw [replace_of_not_alphanumeric hq, replace_of_alphanumeric hr] at h
        exact absurd (ofNat_inj (by decide) (by omega) h).symm hne
    | true =>
      obtain ⟨hlt, hne⟩ := alphanumeric_range hq
      cases hr : alphanumeric r with
      | false =>
        rw [replace_of_alphanumeric hq, replace_of_not_alphanumeric hr] at h
        exact absurd (ofNat_inj (by omega) (by decide) h) hne
      | true =>
        rw [replace_of_alphanumeric hq, replace_of_alphanumeric hr] at h
        exact .inl (ofNat_inj (by omega) (by have := alphanumeric_range hr; omega) h)
  · rintro (rfl | ⟨hq, hr⟩)
    · rfl
    · rw [replace_of_not_alphanumeric hq, replace_of_not_alphanumeric hr]

theorem replaceAll_eq_iff (a b : List UInt8) :
    replaceAll invalidTablenameChars a = replaceAll invalidTablenameChars b ↔
      Confusable a b := by
  unfold replaceAll Confusable
  rw [← List.forall₂_eq_eq_eq, List.forall₂_map_left_iff, List.forall₂_map_right_iff]
  simp only [replace_eq_iff]

theorem jobQueue_eq_iff (a b : List UInt8) :
    (newTableName a).jobQueue = (newTableName b).jobQueue ↔ Confusable a b := by
  rw [← replaceAll_eq_iff]
  simp [newTableName]

theorem failure_eq_iff (a b : List UInt8) :
    (newTableName a).failure = (newTableName b).failure ↔ Confusable a b := by
  rw [← replaceAll_eq_iff]
  simp [newTableName]

/-- No job table is the failure table of a queue. -/
theorem jobQueue_ne_failure (a b : List UInt8) :
    (newTableName a).jobQueue ≠ (newTableName b).failure := by
  simp [newTableName, jobQueuePrefix, failurePrefix]

end Fireworq.MySQL
