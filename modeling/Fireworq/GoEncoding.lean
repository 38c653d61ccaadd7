import Mathlib.Algebra.Group.Int.Defs
import Mathlib.Algebra.Group.Nat.Defs
import Mathlib.Data.Int.Notation
import Mathlib.Data.Nat.Notation
import Mathlib.Logic.Basic

namespace Fireworq.GoEncoding

section Decimal

/-- `fmt.Sprintf("%d", n)` for an unsigned argument. -/
def formatUint (n : ℕ) : List UInt8 := (Nat.toDigits 10 n).map fun c ↦ UInt8.ofNat c.toNat

def minus : UInt8 := 45

def plus : UInt8 := 43

/-- `fmt.Sprintf("%d", x)` for a signed argument. -/
def formatInt (x : ℤ) : List UInt8 :=
  if x < 0 then minus :: formatUint x.natAbs else formatUint x.natAbs

def parseDigits : ℕ → List UInt8 → Option ℕ
  | n, [] => some n
  | n, b :: s =>
    if 48 ≤ b.toNat ∧ b.toNat ≤ 57 then parseDigits (10 * n + (b.toNat - 48)) s else none

def parseUint (s : List UInt8) : Option ℕ := if s = [] then none else parseDigits 0 s

/-- `strconv.Atoi`: an optional sign and at least one digit, within the range
of a signed 64-bit integer. -/
def atoi : List UInt8 → Option ℤ
  | [] => none
  | b :: s =>
    if b = minus then
      (parseUint s).bind fun n ↦ if n ≤ 2 ^ 63 then some (-n) else none
    else
      (parseUint (if b = plus then s else b :: s)).bind fun n ↦
        if n < 2 ^ 63 then some n else none

theorem parseDigits_append (n : ℕ) (s t : List UInt8) :
    parseDigits n (s ++ t) = (parseDigits n s).bind fun m ↦ parseDigits m t := by
  induction s generalizing n with
  | nil => rfl
  | cons b s ih =>
    simp only [List.cons_append, parseDigits]
    split
    · exact ih _
    · rfl

theorem toNat_digitChar {d : ℕ} (h : d < 10) :
    (UInt8.ofNat d.digitChar.toNat).toNat = 48 + d := by
  rw [Nat.toNat_digitChar_of_lt_ten h, UInt8.toNat_ofNat_of_lt' (Nat.lt_of_lt_of_le
    (Nat.add_lt_add_left h 48) (by decide))]

theorem formatUint_of_lt {d : ℕ} (h : d < 10) :
    formatUint d = [UInt8.ofNat d.digitChar.toNat] := by
  rw [formatUint, Nat.toDigits_of_lt_base h, List.map_singleton]

theorem parseDigits_digit {d : ℕ} (n : ℕ) (h : d < 10) :
    parseDigits n (formatUint d) = some (10 * n + d) := by
  have hd := toNat_digitChar h
  rw [formatUint_of_lt h, parseDigits, if_pos (by omega), parseDigits, hd,
    Nat.add_sub_cancel_left]

theorem formatUint_append {n d : ℕ} (hn : 0 < n) (hd : d < 10) :
    formatUint (10 * n + d) = formatUint n ++ formatUint d := by
  rw [formatUint, ← Nat.toDigits_append_toDigits (by decide) hn hd, List.map_append]
  rfl

theorem parseDigits_formatUint (n : ℕ) : parseDigits 0 (formatUint n) = some n := by
  induction n using Nat.strongRecOn with
  | _ n ih =>
    by_cases hn : n < 10
    · rw [parseDigits_digit 0 hn, Nat.mul_zero, Nat.zero_add]
    · have hdiv : 10 * (n / 10) + n % 10 = n := Nat.div_add_mod n 10
      have hmod : n % 10 < 10 := Nat.mod_lt _ (by decide)
      rw [← hdiv, formatUint_append (by omega) hmod, parseDigits_append, ih _ (by omega),
        Option.bind_some, parseDigits_digit _ hmod]

theorem mem_formatUint {n : ℕ} {b : UInt8} (h : b ∈ formatUint n) :
    48 ≤ b.toNat ∧ b.toNat ≤ 57 := by
  have hdig (s : List UInt8) (m : ℕ) (hs : (parseDigits m s).isSome) (hb : b ∈ s) :
      48 ≤ b.toNat ∧ b.toNat ≤ 57 := by
    induction s generalizing m with
    | nil => cases hb
    | cons c s ih =>
      rw [parseDigits] at hs
      split at hs
      · rcases List.mem_cons.mp hb with rfl | hb
        · assumption
        · exact ih _ hs hb
      · cases hs
  exact hdig _ 0 (by rw [parseDigits_formatUint]; rfl) h

theorem formatUint_ne_nil (n : ℕ) : formatUint n ≠ [] := by
  simp [formatUint]

theorem parseUint_formatUint (n : ℕ) : parseUint (formatUint n) = some n := by
  rw [parseUint, if_neg (formatUint_ne_nil n), parseDigits_formatUint]

theorem formatUint_injective : Function.Injective formatUint := by
  intro m n h
  have hm := parseUint_formatUint m
  rw [h, parseUint_formatUint n] at hm
  exact (Option.some.inj hm).symm

theorem formatInt_injective : Function.Injective formatInt := by
  have hsign (m n : ℕ) : minus :: formatUint m ≠ formatUint n := fun h ↦
    absurd (mem_formatUint (h ▸ List.mem_cons_self)).1 (by decide)
  intro x y h
  unfold formatInt at h
  split at h
  · split at h
    · have := formatUint_injective (List.cons.inj h).2
      omega
    · exact absurd h (hsign _ _)
  · split at h
    · exact absurd h.symm (hsign _ _)
    · have := formatUint_injective h
      omega

theorem atoi_formatUint (n : ℕ) :
    atoi (formatUint n) = if n < 2 ^ 63 then some (n : ℤ) else none := by
  obtain ⟨b, s, hs⟩ := List.exists_cons_of_ne_nil (formatUint_ne_nil n)
  have hb : 48 ≤ b.toNat := (mem_formatUint (hs ▸ List.mem_cons_self)).1
  have hminus : b ≠ minus := fun h ↦ by rw [h] at hb; exact absurd hb (by decide)
  have hplus : b ≠ plus := fun h ↦ by rw [h] at hb; exact absurd hb (by decide)
  rw [hs, atoi, if_neg hminus, if_neg hplus, ← hs, parseUint_formatUint, Option.bind_some]

theorem atoi_formatInt {x : ℤ} (h₀ : -2 ^ 63 ≤ x) (h₁ : x < 2 ^ 63) :
    atoi (formatInt x) = some x := by
  unfold formatInt
  split
  · rw [atoi, if_pos rfl, parseUint_formatUint, Option.bind_some, if_pos (by omega)]
    congr 1
    omega
  · rw [atoi_formatUint, if_pos (by omega)]
    congr 1
    omega

theorem atoi_range {s : List UInt8} {l : ℤ} (h : atoi s = some l) : -2 ^ 63 ≤ l ∧ l < 2 ^ 63 := by
  cases s with
  | nil => cases h
  | cons b s =>
    simp only [atoi] at h
    split at h
    all_goals
      obtain ⟨n, -, hn⟩ := Option.bind_eq_some_iff.mp h
      split at hn <;> cases hn
      omega

end Decimal

section Split

def splitN (sep : UInt8) : ℕ → List UInt8 → List (List UInt8)
  | 0, _ => []
  | 1, s => [s]
  | n + 2, s => if sep ∈ s then
      s.takeWhile (· ≠ sep) :: splitN sep (n + 1) (s.dropWhile (· ≠ sep)).tail
    else [s]

theorem splitN_two {sep : UInt8} {s t : List UInt8} (h : sep ∉ s) :
    splitN sep 2 (s ++ sep :: t) = [s, t] := by
  have hs : ∀ b ∈ s, (decide (b ≠ sep)) = true := by
    intro b hb
    exact decide_eq_true fun he ↦ h (he ▸ hb)
  rw [splitN, if_pos (by simp), List.takeWhile_append_of_pos hs, List.dropWhile_append_of_pos hs]
  simp [splitN]

end Split

section Base64

def pad : UInt8 := 61

def encodeSextet (v : ℕ) : UInt8 :=
  UInt8.ofNat (if v < 26 then v + 65 else if v < 52 then v + 71 else if v < 62 then v - 4
    else if v = 62 then 43 else 47)

def decodeSextet (b : UInt8) : Option ℕ :=
  let c := b.toNat
  if 65 ≤ c ∧ c ≤ 90 then some (c - 65)
  else if 97 ≤ c ∧ c ≤ 122 then some (c - 71)
  else if 48 ≤ c ∧ c ≤ 57 then some (c + 4)
  else if c = 43 then some 62
  else if c = 47 then some 63
  else none

def encodeToString : List UInt8 → List UInt8
  | [] => []
  | [a] => [encodeSextet (a.toNat / 4), encodeSextet (a.toNat % 4 * 16), pad, pad]
  | [a, b] => [encodeSextet (a.toNat / 4), encodeSextet (a.toNat % 4 * 16 + b.toNat / 16),
      encodeSextet (b.toNat % 16 * 4), pad]
  | a :: b :: c :: s =>
    encodeSextet (a.toNat / 4) :: encodeSextet (a.toNat % 4 * 16 + b.toNat / 16) ::
      encodeSextet (b.toNat % 16 * 4 + c.toNat / 64) :: encodeSextet (c.toNat % 64) ::
      encodeToString s

/-- The bytes of four characters, of which the last one or two may be padding
at the end of the input. Unused bits are not looked at. -/
def decodeQuanta : List UInt8 → Option (List UInt8)
  | [] => some []
  | a :: b :: c :: d :: s =>
    (decodeSextet a).bind fun x ↦ (decodeSextet b).bind fun y ↦
      if c = pad ∧ d = pad ∧ s = [] then some [UInt8.ofNat (x * 4 + y / 16)]
      else (decodeSextet c).bind fun z ↦
        if d = pad ∧ s = [] then
          some [UInt8.ofNat (x * 4 + y / 16), UInt8.ofNat (y % 16 * 16 + z / 4)]
        else (decodeSextet d).bind fun w ↦ (decodeQuanta s).map fun t ↦
          UInt8.ofNat (x * 4 + y / 16) :: UInt8.ofNat (y % 16 * 16 + z / 4) ::
            UInt8.ofNat (z % 4 * 64 + w) :: t
  | _ => none

def newline (b : UInt8) : Bool := b = 10 || b = 13

/-- `base64.StdEncoding.DecodeString`, which skips line breaks. -/
def decodeString (s : List UInt8) : Option (List UInt8) :=
  decodeQuanta (s.filter fun b ↦ !newline b)

theorem decodeSextet_encodeSextet {v : ℕ} (h : v < 64) :
    decodeSextet (encodeSextet v) = some v := by
  have hall : ∀ v < 64, decodeSextet (encodeSextet v) = some v := by decide
  exact hall v h

theorem encodeSextet_ne {v : ℕ} (h : v < 64) :
    encodeSextet v ≠ pad ∧ newline (encodeSextet v) = false := by
  have hall : ∀ v < 64, encodeSextet v ≠ pad ∧ newline (encodeSextet v) = false := by decide
  exact hall v h

theorem newline_encodeToString {s : List UInt8} {b : UInt8} (h : b ∈ encodeToString s) :
    newline b = false := by
  fun_induction encodeToString s with
  | case1 => cases h
  | case2 a =>
    have ha := a.toNat_lt
    simp only [List.mem_cons, List.not_mem_nil, or_false] at h
    rcases h with rfl | rfl | rfl | rfl <;> first | rfl | exact (encodeSextet_ne (by omega)).2
  | case3 a b =>
    have ha := a.toNat_lt
    have hb := b.toNat_lt
    simp only [List.mem_cons, List.not_mem_nil, or_false] at h
    rcases h with rfl | rfl | rfl | rfl <;> first | rfl | exact (encodeSextet_ne (by omega)).2
  | case4 a b c s ih =>
    have ha := a.toNat_lt
    have hb := b.toNat_lt
    have hc := c.toNat_lt
    simp only [List.mem_cons] at h
    rcases h with rfl | rfl | rfl | rfl | h
    iterate 4 exact (encodeSextet_ne (by omega)).2
    exact ih h

theorem decodeString_encodeToString (s : List UInt8) :
    decodeString (encodeToString s) = some s := by
  have hclean : (encodeToString s).filter (fun b ↦ !newline b) = encodeToString s :=
    List.filter_eq_self.mpr fun b hb ↦ by rw [newline_encodeToString hb]; rfl
  rw [decodeString, hclean]
  clear hclean
  have hbyte {x : ℕ} {a : UInt8} (h : x = a.toNat) : UInt8.ofNat x = a := by
    rw [h, UInt8.ofNat_toNat]
  fun_induction encodeToString s with
  | case1 => rfl
  | case2 a =>
    have ha := a.toNat_lt
    rw [decodeQuanta, decodeSextet_encodeSextet (by omega), decodeSextet_encodeSextet (by omega)]
    simp only [Option.bind_some, and_self, if_true]
    rw [hbyte (a := a) (by omega)]
  | case3 a b =>
    have ha := a.toNat_lt
    have hb := b.toNat_lt
    rw [decodeQuanta, decodeSextet_encodeSextet (by omega), decodeSextet_encodeSextet (by omega)]
    simp only [Option.bind_some, (encodeSextet_ne (v := b.toNat % 16 * 4) (by omega)).1, false_and,
      if_false, decodeSextet_encodeSextet (v := b.toNat % 16 * 4) (by omega), and_self, if_true]
    rw [hbyte (a := a) (by omega), hbyte (a := b) (by omega)]
  | case4 a b c s ih =>
    have ha := a.toNat_lt
    have hb := b.toNat_lt
    have hc := c.toNat_lt
    rw [decodeQuanta, decodeSextet_encodeSextet (by omega), decodeSextet_encodeSextet (by omega),
      decodeSextet_encodeSextet (by omega), decodeSextet_encodeSextet (by omega), ih]
    simp only [Option.bind_some, (encodeSextet_ne (v := b.toNat % 16 * 4 + c.toNat / 64)
      (by omega)).1, (encodeSextet_ne (v := c.toNat % 64) (by omega)).1, false_and, if_false,
      Option.map_some]
    rw [hbyte (a := a) (by omega), hbyte (a := b) (by omega), hbyte (a := c) (by omega)]

theorem encodeToString_ne_nil {s : List UInt8} (h : s ≠ []) : encodeToString s ≠ [] := by
  intro he
  have hd := decodeString_encodeToString s
  rw [he] at hd
  exact h (Option.some.inj hd).symm

end Base64

end Fireworq.GoEncoding
