import Mathlib.Data.Nat.Notation

namespace Fireworq.GoString

def bytes (s : String) : List UInt8 := s.toList.map fun c ↦ UInt8.ofNat c.toNat

def ofBytes (s : List UInt8) : String := String.ofList (s.map fun b ↦ Char.ofNat b.toNat)

@[simp] theorem bytes_ofBytes (s : List UInt8) : bytes (ofBytes s) = s := by
  have hbyte (b : UInt8) : UInt8.ofNat (Char.ofNat b.toNat).toNat = b := by
    have hvalid : b.toNat.isValidChar := .inl (Nat.lt_trans b.toNat_lt (by decide))
    have hchar : (Char.ofNat b.toNat).toNat = b.toNat := by
      rw [Char.ofNat, dif_pos hvalid]
      rfl
    rw [hchar, UInt8.ofNat_toNat]
  simp only [bytes, ofBytes, String.toList_ofList, List.map_map]
  exact (List.map_congr_left fun b _ ↦ hbyte b).trans (List.map_id _)

def runeError : ℕ := 0xFFFD

/-- `utf8.DecodeRune`: the first rune and its width. Each byte that does not
start a valid encoding counts as one error rune. -/
def decodeRune : List UInt8 → ℕ × ℕ
  | [] => (runeError, 0)
  | b :: bs =>
    let b₀ := b.toNat
    if b₀ < 0x80 then (b₀, 1)
    else if b₀ < 0xC2 then (runeError, 1)
    else if b₀ < 0xE0 then
      match bs.map UInt8.toNat with
      | b₁ :: _ =>
        if 0x80 ≤ b₁ ∧ b₁ ≤ 0xBF then (b₀ % 0x20 * 0x40 + b₁ % 0x40, 2) else (runeError, 1)
      | _ => (runeError, 1)
    else if b₀ < 0xF0 then
      match bs.map UInt8.toNat with
      | b₁ :: b₂ :: _ =>
        if (if b₀ = 0xE0 then 0xA0 else 0x80) ≤ b₁ ∧ b₁ ≤ (if b₀ = 0xED then 0x9F else 0xBF) ∧
            0x80 ≤ b₂ ∧ b₂ ≤ 0xBF then
          ((b₀ % 0x10 * 0x40 + b₁ % 0x40) * 0x40 + b₂ % 0x40, 3)
        else (runeError, 1)
      | _ => (runeError, 1)
    else if b₀ < 0xF5 then
      match bs.map UInt8.toNat with
      | b₁ :: b₂ :: b₃ :: _ =>
        if (if b₀ = 0xF0 then 0x90 else 0x80) ≤ b₁ ∧ b₁ ≤ (if b₀ = 0xF4 then 0x8F else 0xBF) ∧
            0x80 ≤ b₂ ∧ b₂ ≤ 0xBF ∧ 0x80 ≤ b₃ ∧ b₃ ≤ 0xBF then
          (((b₀ % 0x08 * 0x40 + b₁ % 0x40) * 0x40 + b₂ % 0x40) * 0x40 + b₃ % 0x40, 4)
        else (runeError, 1)
      | _ => (runeError, 1)
    else (runeError, 1)

def runesFrom : ℕ → List UInt8 → List ℕ
  | _, [] => []
  | 0, b :: bs => (decodeRune (b :: bs)).1 :: runesFrom ((decodeRune (b :: bs)).2 - 1) bs
  | skip + 1, _ :: bs => runesFrom skip bs

def runes (s : List UInt8) : List ℕ := runesFrom 0 s

end Fireworq.GoString
