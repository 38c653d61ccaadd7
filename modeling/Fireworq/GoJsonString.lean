import Fireworq.GoJson

namespace Fireworq.GoJson

open GoString

section Runes

def encodeRune (r : ℕ) : List UInt8 :=
  if r < 0x80 then [.ofNat r]
  else if r < 0x800 then [.ofNat (0xC0 + r / 0x40), .ofNat (0x80 + r % 0x40)]
  else if 0xD800 ≤ r ∧ r < 0xE000 ∨ 0x10FFFF < r then [0xEF, 0xBF, 0xBD]
  else if r < 0x10000 then
    [.ofNat (0xE0 + r / 0x1000), .ofNat (0x80 + r / 0x40 % 0x40), .ofNat (0x80 + r % 0x40)]
  else
    [.ofNat (0xF0 + r / 0x40000), .ofNat (0x80 + r / 0x1000 % 0x40),
      .ofNat (0x80 + r / 0x40 % 0x40), .ofNat (0x80 + r % 0x40)]

/-- A string with a replacement character for each byte that is not part of a
character. -/
def toValid (s : List UInt8) : List UInt8 := (runes s).flatMap encodeRune

def Utf8 (s : List UInt8) : Prop := toValid s = s

instance : DecidablePred Utf8 := fun _ ↦ inferInstanceAs (Decidable (_ = _))

end Runes

section Unquote

def hexValue (b : UInt8) : Option ℕ :=
  let c := b.toNat
  if 48 ≤ c ∧ c ≤ 57 then some (c - 48)
  else if 97 ≤ c ∧ c ≤ 102 then some (c - 87)
  else if 65 ≤ c ∧ c ≤ 70 then some (c - 55)
  else none

/-- `getu4`: the code of an escape `\uXXXX` at the start of a text. -/
def getu4 : List UInt8 → Option ℕ
  | e :: u :: a :: b :: c :: d :: _ =>
    if e = backslash ∧ u = 117 then
      (hexValue a).bind fun a ↦ (hexValue b).bind fun b ↦ (hexValue c).bind fun c ↦
        (hexValue d).map fun d ↦ ((a * 16 + b) * 16 + c) * 16 + d
    else none
  | _ => none

/-- `utf16.DecodeRune` of two surrogate halves. -/
def decodePair (r r' : ℕ) : Option ℕ :=
  if 0xD800 ≤ r ∧ r < 0xDC00 ∧ 0xDC00 ≤ r' ∧ r' < 0xE000 then
    some ((r - 0xD800) * 0x400 + (r' - 0xDC00) + 0x10000)
  else none

/-- The character that an escape `\uXXXX` stands for and the width of the escape.
Two halves make up one character, and a half alone is replaced. -/
def readUnicode (s : List UInt8) : Option (List UInt8 × ℕ) :=
  (getu4 s).map fun r ↦
    if 0xD800 ≤ r ∧ r < 0xE000 then
      match (getu4 (s.drop 6)).bind (decodePair r) with
      | some c => (encodeRune c, 12)
      | none => (encodeRune runeError, 6)
    else (encodeRune r, 6)

def escapesItself (e : UInt8) : Bool := e = 34 || e = 92 || e = 47 || e = 39

def controlOf (e : UInt8) : Option UInt8 :=
  if e = 98 then some 8
  else if e = 102 then some 12
  else if e = 110 then some 10
  else if e = 114 then some 13
  else if e = 116 then some 9
  else none

def readEscape : List UInt8 → Option (List UInt8 × ℕ)
  | b :: e :: bs =>
    if escapesItself e then some ([e], 2)
    else if e = 117 then readUnicode (b :: e :: bs)
    else (controlOf e).map fun c ↦ ([c], 2)
  | _ => none

def readRune : List UInt8 → Option (List UInt8 × ℕ)
  | [] => none
  | b :: bs =>
    if b = backslash then readEscape (b :: bs)
    else if b = quote ∨ b.toNat < 32 then none
    else if b.toNat < 0x80 then some ([b], 1)
    else some (encodeRune (decodeRune (b :: bs)).1, (decodeRune (b :: bs)).2)

def unquoteFrom : ℕ → List UInt8 → Option (List UInt8)
  | _, [] => some []
  | 0, b :: bs => (readRune (b :: bs)).bind fun r ↦ (unquoteFrom (r.2 - 1) bs).map (r.1 ++ ·)
  | skip + 1, _ :: bs => unquoteFrom skip bs

/-- `unquoteBytes`: the value of a string literal. -/
def unquote : List UInt8 → Option (List UInt8)
  | [] => none
  | b :: bs => if b = quote ∧ bs.getLast? = some quote then unquoteFrom 0 bs.dropLast else none

end Unquote

section Decoding

variable {b : UInt8} {bs t : List UInt8}

theorem ofNat_toNat_of_eq {n : ℕ} (h : n = b.toNat) : UInt8.ofNat n = b := by
  rw [h, UInt8.ofNat_toNat]

structure Character (w : List UInt8) (r : ℕ) : Prop where
  decode : ∀ t, decodeRune (w ++ t) = (r, w.length)
  encode : encodeRune r = w
  ascii : ∀ c ∈ w, c.toNat < 0x80 → w = [c]

def tailByte (b : UInt8) : Prop := 0x80 ≤ b.toNat ∧ b.toNat ≤ 0xBF

theorem character_one (h : b.toNat < 0x80) : Character [b] b.toNat where
  decode t := by simp [decodeRune, h]
  encode := by rw [encodeRune, if_pos h, ofNat_toNat_of_eq rfl]
  ascii := by simp

theorem character_two {c : UInt8} (hb : 0xC2 ≤ b.toNat ∧ b.toNat < 0xE0) (hc : tailByte c) :
    Character [b, c] (b.toNat % 0x20 * 0x40 + c.toNat % 0x40) := by
  unfold tailByte at hc
  have h₁ : ¬ b.toNat < 0x80 := by omega
  have h₂ : ¬ b.toNat < 0xC2 := by omega
  refine ⟨fun t ↦ by simp [decodeRune, *], ?_, by simp; omega⟩
  rw [encodeRune, if_neg (by omega), if_pos (by omega), ofNat_toNat_of_eq (b := b) (by omega),
    ofNat_toNat_of_eq (b := c) (by omega)]

theorem character_three {c d : UInt8} (hb : 0xE0 ≤ b.toNat ∧ b.toNat < 0xF0) (hc : tailByte c)
    (hlo : b.toNat = 0xE0 → 0xA0 ≤ c.toNat) (hhi : b.toNat = 0xED → c.toNat ≤ 0x9F)
    (hd : tailByte d) :
    Character [b, c, d] ((b.toNat % 0x10 * 0x40 + c.toNat % 0x40) * 0x40 + d.toNat % 0x40) := by
  unfold tailByte at hc hd
  have h₁ : ¬ b.toNat < 0x80 := by omega
  have h₂ : ¬ b.toNat < 0xC2 := by omega
  have h₃ : ¬ b.toNat < 0xE0 := by omega
  have hrange : (if b.toNat = 0xE0 then 0xA0 else 0x80) ≤ c.toNat ∧
      c.toNat ≤ (if b.toNat = 0xED then 0x9F else 0xBF) := by split <;> split <;> omega
  refine ⟨fun t ↦ by simp [decodeRune, *], ?_, by simp; omega⟩
  rw [encodeRune, if_neg (by omega), if_neg (by omega), if_neg (by omega), if_pos (by omega),
    ofNat_toNat_of_eq (b := b) (by omega), ofNat_toNat_of_eq (b := c) (by omega),
    ofNat_toNat_of_eq (b := d) (by omega)]

theorem character_four {c d e : UInt8} (hb : 0xF0 ≤ b.toNat ∧ b.toNat < 0xF5) (hc : tailByte c)
    (hlo : b.toNat = 0xF0 → 0x90 ≤ c.toNat) (hhi : b.toNat = 0xF4 → c.toNat ≤ 0x8F)
    (hd : tailByte d) (he : tailByte e) :
    Character [b, c, d, e] (((b.toNat % 0x08 * 0x40 + c.toNat % 0x40) * 0x40 + d.toNat % 0x40) *
      0x40 + e.toNat % 0x40) := by
  unfold tailByte at hc hd he
  have h₁ : ¬ b.toNat < 0x80 := by omega
  have h₂ : ¬ b.toNat < 0xC2 := by omega
  have h₃ : ¬ b.toNat < 0xE0 := by omega
  have h₄ : ¬ b.toNat < 0xF0 := by omega
  have hrange : (if b.toNat = 0xF0 then 0x90 else 0x80) ≤ c.toNat ∧
      c.toNat ≤ (if b.toNat = 0xF4 then 0x8F else 0xBF) := by split <;> split <;> omega
  refine ⟨fun t ↦ by simp [decodeRune, *], ?_, by simp; omega⟩
  rw [encodeRune, if_neg (by omega), if_neg (by omega), if_neg (by omega), if_neg (by omega),
    ofNat_toNat_of_eq (b := b) (by omega), ofNat_toNat_of_eq (b := c) (by omega),
    ofNat_toNat_of_eq (b := d) (by omega), ofNat_toNat_of_eq (b := e) (by omega)]

theorem decodeRune_cases (b : UInt8) (bs : List UInt8) :
    0x80 ≤ b.toNat ∧ decodeRune (b :: bs) = (runeError, 1) ∨
      ∃ w rest r, b :: bs = w ++ rest ∧ w ≠ [] ∧ Character w r := by
  have hb := b.toNat_lt
  by_cases h₁ : b.toNat < 0x80
  · exact .inr ⟨[b], bs, _, rfl, by simp, character_one h₁⟩
  by_cases h₂ : b.toNat < 0xC2
  · exact .inl ⟨by omega, by simp [decodeRune, h₁, h₂]⟩
  by_cases h₃ : b.toNat < 0xE0
  · rcases bs with _ | ⟨c, rest⟩
    · exact .inl ⟨by omega, by simp [decodeRune, h₁, h₂, h₃]⟩
    · by_cases hc : 0x80 ≤ c.toNat ∧ c.toNat ≤ 0xBF
      · exact .inr ⟨[b, c], rest, _, rfl, by simp, character_two ⟨by omega, h₃⟩ hc⟩
      · exact .inl ⟨by omega, by simp [decodeRune, h₁, h₂, h₃, hc]⟩
  by_cases h₄ : b.toNat < 0xF0
  · rcases bs with _ | ⟨c, _ | ⟨d, rest⟩⟩
    iterate 2 exact .inl ⟨by omega, by simp [decodeRune, h₁, h₂, h₃, h₄]⟩
    · by_cases hc : (if b.toNat = 0xE0 then 0xA0 else 0x80) ≤ c.toNat ∧
          c.toNat ≤ (if b.toNat = 0xED then 0x9F else 0xBF) ∧ 0x80 ≤ d.toNat ∧ d.toNat ≤ 0xBF
      · have hc' : tailByte c ∧ (b.toNat = 0xE0 → 0xA0 ≤ c.toNat) ∧
            (b.toNat = 0xED → c.toNat ≤ 0x9F) := by
          unfold tailByte
          split at hc <;> split at hc <;> omega
        exact .inr ⟨[b, c, d], rest, _, rfl, by simp,
          character_three ⟨by omega, h₄⟩ hc'.1 hc'.2.1 hc'.2.2 hc.2.2⟩
      · exact .inl ⟨by omega, by simp [decodeRune, h₁, h₂, h₃, h₄, hc]⟩
  by_cases h₅ : b.toNat < 0xF5
  · rcases bs with _ | ⟨c, _ | ⟨d, _ | ⟨e, rest⟩⟩⟩
    iterate 3 exact .inl ⟨by omega, by simp [decodeRune, h₁, h₂, h₃, h₄, h₅]⟩
    · by_cases hc : (if b.toNat = 0xF0 then 0x90 else 0x80) ≤ c.toNat ∧
          c.toNat ≤ (if b.toNat = 0xF4 then 0x8F else 0xBF) ∧ 0x80 ≤ d.toNat ∧ d.toNat ≤ 0xBF ∧
          0x80 ≤ e.toNat ∧ e.toNat ≤ 0xBF
      · have hc' : tailByte c ∧ (b.toNat = 0xF0 → 0x90 ≤ c.toNat) ∧
            (b.toNat = 0xF4 → c.toNat ≤ 0x8F) := by
          unfold tailByte
          split at hc <;> split at hc <;> omega
        exact .inr ⟨[b, c, d, e], rest, _, rfl, by simp, character_four ⟨by omega, h₅⟩ hc'.1
          hc'.2.1 hc'.2.2 ⟨hc.2.2.1, hc.2.2.2.1⟩ hc.2.2.2.2⟩
      · exact .inl ⟨by omega, by simp [decodeRune, h₁, h₂, h₃, h₄, h₅, hc]⟩
  · exact .inl ⟨by omega, by simp [decodeRune, h₁, h₂, h₃, h₄, h₅]⟩

theorem encodeRune_character (r : ℕ) : ∃ c, Character (encodeRune r) c := by
  have hbyte {n : ℕ} (h : n < 256) : (UInt8.ofNat n).toNat = n := UInt8.toNat_ofNat_of_lt' h
  have htail (n : ℕ) : tailByte (.ofNat (0x80 + n % 0x40)) := by
    unfold tailByte
    rw [hbyte (by omega)]
    omega
  unfold encodeRune
  split
  · exact ⟨_, character_one (by rw [hbyte] <;> omega)⟩
  split
  · exact ⟨_, character_two (by rw [hbyte] <;> omega) (htail _)⟩
  split
  · exact ⟨_, character_three ⟨by decide, by decide⟩ ⟨by decide, by decide⟩ (by decide) (by decide)
      ⟨by decide, by decide⟩⟩
  split
  · refine ⟨_, character_three ?_ (htail _) ?_ ?_ (htail _)⟩
    all_goals rw [hbyte (by omega)]
    · omega
    all_goals rw [hbyte (by omega)]; omega
  · refine ⟨_, character_four ?_ (htail _) ?_ ?_ (htail _) (htail _)⟩
    all_goals rw [hbyte (by omega)]
    · omega
    all_goals rw [hbyte (by omega)]; omega

end Decoding

section RoundTrip

variable {b : UInt8} {bs s t w r : List UInt8}

theorem hexValue_hexDigit {n : ℕ} (h : n < 16) : hexValue (hexDigit n) = some n := by
  have hall : ∀ n < 16, hexValue (hexDigit n) = some n := by decide
  exact hall n h

theorem readRune_unicode {c : ℕ} (h : getu4 w = some c) (hc : c < 0xD800 ∨ 0xE000 ≤ c)
    (hw : ∃ v, w = backslash :: 117 :: v) : readRune w = some (encodeRune c, 6) := by
  obtain ⟨v, rfl⟩ := hw
  have hread : readUnicode (backslash :: 117 :: v) = some (encodeRune c, 6) := by
    rw [readUnicode, h, Option.map_some, if_neg (by omega)]
  rw [readRune, if_pos rfl]
  exact hread

theorem readRune_escape (h : b.toNat < 0x80) (t : List UInt8) :
    readRune (escape b ++ t) = some ([b], (escape b).length) := by
  unfold escape
  split
  · next hb => rcases hb with rfl | rfl <;> rfl
  iterate 5
    split
    · next hb => subst hb; rfl
  have hsmall : encodeRune b.toNat = [b] := by rw [encodeRune, if_pos h, UInt8.ofNat_toNat]
  rw [← hsmall]
  refine readRune_unicode ?_ (.inl (by omega)) ⟨_, rfl⟩
  have hhi := hexValue_hexDigit (n := b.toNat / 16) (by omega)
  have hlo := hexValue_hexDigit (n := b.toNat % 16) (by omega)
  have hzero : hexValue 48 = some 0 := rfl
  simp only [List.cons_append, getu4, and_self, if_true, hhi, hlo, hzero, Option.bind_some,
    Option.map_some]
  congr 1
  omega

theorem readRune_safe (h : htmlSafe b = true) (t : List UInt8) :
    readRune (b :: t) = some ([b], 1) := by
  simp only [htmlSafe, Bool.and_eq_true, decide_eq_true_eq] at h
  have hb : b ≠ backslash := h.2
  have hq : ¬ (b = quote ∨ b.toNat < 32) := by
    rintro (rfl | hlt)
    · exact h.1.1.1.1.2 rfl
    · omega
  rw [readRune, if_neg hb, if_neg hq, if_pos h.1.1.1.1.1.2]

theorem Character.writeRune {c : ℕ} (h : Character w c) (hw : w = b :: bs)
    (hb : 0x80 ≤ b.toNat) : readRune (w ++ t) = some (w, w.length) := by
  have hne : ¬ b = backslash := by
    rintro rfl
    exact absurd hb (by decide)
  have hq : ¬ (b = quote ∨ b.toNat < 32) := by
    rintro (rfl | hlt)
    · exact absurd hb (by decide)
    · omega
  have hd := h.decode t
  subst hw
  rw [List.cons_append, readRune, if_neg hne, if_neg hq, if_neg (by omega), ← List.cons_append, hd,
    h.encode]

/-- What is written for the first character of a string is read back. -/
theorem readRune_writeRune (b : UInt8) (bs t : List UInt8) :
    readRune (writeRune (b :: bs) ++ t) =
      some (encodeRune (decodeRune (b :: bs)).1, (writeRune (b :: bs)).length) := by
  rcases decodeRune_cases b bs with ⟨hb, herr⟩ | ⟨w, rest, c, heq, hne, hw⟩
  · rw [writeRune, if_neg (by omega), herr]
    exact readRune_unicode rfl (.inr (by decide)) ⟨_, rfl⟩
  · have hd := hw.decode rest
    rw [← heq] at hd
    rw [writeRune, hd, hw.encode]
    obtain ⟨a, v, rfl⟩ := List.exists_cons_of_ne_nil hne
    obtain ⟨rfl, rfl⟩ := List.cons.inj heq
    dsimp only
    split
    · next hb =>
      obtain rfl : v = [] := (List.cons.inj (hw.ascii b List.mem_cons_self hb)).2
      split
      · next hsafe => exact readRune_safe hsafe t
      · exact readRune_escape hb t
    · next hb =>
      rw [heq, List.take_left]
      split
      · next herr =>
        have hlen := congrArg List.length hw.encode
        rw [herr.1, herr.2] at hlen
        cases hlen
      · split
        · next hls =>
          rw [← hw.encode]
          rcases hls with rfl | rfl
          · exact readRune_unicode rfl (.inl (by decide)) ⟨_, rfl⟩
          · exact readRune_unicode rfl (.inl (by decide)) ⟨_, rfl⟩
        · exact hw.writeRune rfl (by omega)

theorem unquoteFrom_skip (w t : List UInt8) :
    unquoteFrom w.length (w ++ t) = unquoteFrom 0 t := by
  induction w with
  | nil => rfl
  | cons b w ih => exact ih

theorem unquoteFrom_append (hw : w ≠ []) (h : readRune (w ++ t) = some (r, w.length)) :
    unquoteFrom 0 (w ++ t) = (unquoteFrom 0 t).map (r ++ ·) := by
  obtain ⟨b, w, rfl⟩ := List.exists_cons_of_ne_nil hw
  rw [List.cons_append] at h ⊢
  rw [unquoteFrom, h, Option.bind_some, List.length_cons, Nat.add_sub_cancel, unquoteFrom_skip]

theorem unquoteFrom_writeFrom (skip : ℕ) (s : List UInt8) :
    unquoteFrom 0 (writeFrom skip s) = some ((runesFrom skip s).flatMap encodeRune) := by
  induction s generalizing skip with
  | nil => rfl
  | cons b bs ih =>
    cases skip with
    | zero =>
      obtain ⟨c, rest, hw, -⟩ := writeRune_head b bs
      have hne : writeRune (b :: bs) ≠ [] := by rw [hw]; exact List.cons_ne_nil c rest
      rw [writeFrom, unquoteFrom_append hne (readRune_writeRune b bs _), ih, runesFrom,
        List.flatMap_cons, Option.map_some]
    | succ skip => exact ih skip

/-- `json.Unmarshal` inverts `json.Marshal` of a string, up to the bytes that are
not UTF-8. -/
theorem unquote_marshalString (s : List UInt8) : unquote (marshalString s) = some (toValid s) := by
  rw [marshalString, List.cons_append, unquote, if_pos ⟨rfl, by simp⟩, List.dropLast_concat,
    unquoteFrom_writeFrom, toValid, runes]

end RoundTrip

section Utf8

variable {w t s r : List UInt8} {c : ℕ}

theorem runesFrom_skip (w t : List UInt8) : runesFrom w.length (w ++ t) = runesFrom 0 t := by
  induction w with
  | nil =>
    cases t <;> rfl
  | cons b w ih => exact ih

theorem Character.toValid_append (h : Character w c) (hne : w ≠ []) (t : List UInt8) :
    toValid (w ++ t) = w ++ toValid t := by
  obtain ⟨b, w, rfl⟩ := List.exists_cons_of_ne_nil hne
  have hd := h.decode t
  rw [List.cons_append] at hd
  rw [toValid, runes, List.cons_append, runesFrom, hd, List.length_cons, Nat.add_sub_cancel,
    runesFrom_skip, List.flatMap_cons, h.encode]
  rfl

theorem encodeRune_ne_nil (r : ℕ) : encodeRune r ≠ [] := by
  unfold encodeRune
  repeat' split
  all_goals exact List.cons_ne_nil _ _

theorem toValid_ne_nil (h : s ≠ []) : toValid s ≠ [] := by
  obtain ⟨b, bs, rfl⟩ := List.exists_cons_of_ne_nil h
  rw [toValid, runes, runesFrom, List.flatMap_cons]
  intro hnil
  exact encodeRune_ne_nil _ (List.append_eq_nil_iff.mp hnil).1

theorem Utf8.encodeRune_append (h : Utf8 t) (r : ℕ) : Utf8 (encodeRune r ++ t) := by
  obtain ⟨c, hc⟩ := encodeRune_character r
  rw [Utf8, hc.toValid_append (encodeRune_ne_nil r), h]

theorem controlOf_ascii {e b : UInt8} (h : controlOf e = some b) : b.toNat < 0x80 := by
  unfold controlOf at h
  repeat' split at h
  all_goals cases h
  all_goals decide

theorem readUnicode_encode {n : ℕ} (h : readUnicode s = some (r, n)) : ∃ c, r = encodeRune c := by
  obtain ⟨u, -, hu⟩ := Option.map_eq_some_iff.mp h
  split at hu
  · split at hu <;> cases hu <;> exact ⟨_, rfl⟩
  · cases hu
    exact ⟨_, rfl⟩

/-- Every character that is read is written as UTF-8. -/
theorem readRune_encode {n : ℕ} (h : readRune s = some (r, n)) : ∃ c, r = encodeRune c := by
  have hascii {b : UInt8} (hb : b.toNat < 0x80) : ∃ c, [b] = encodeRune c :=
    ⟨b.toNat, (character_one hb).encode.symm⟩
  cases s with
  | nil => cases h
  | cons b bs =>
    rw [readRune] at h
    split at h
    · cases bs with
      | nil => cases h
      | cons e bs =>
        rw [readEscape] at h
        split at h
        · next he =>
          cases h
          simp only [escapesItself, Bool.or_eq_true, decide_eq_true_eq] at he
          rcases he with ((rfl | rfl) | rfl) | rfl <;> exact hascii (by decide)
        · split at h
          · exact readUnicode_encode h
          · obtain ⟨c, hc, hr⟩ := Option.map_eq_some_iff.mp h
            cases hr
            exact hascii (controlOf_ascii hc)
    · split at h
      · cases h
      · split at h
        · next hb =>
          cases h
          exact hascii hb
        · cases h
          exact ⟨_, rfl⟩

theorem unquoteFrom_utf8 {skip : ℕ} (h : unquoteFrom skip s = some r) : Utf8 r := by
  induction s generalizing skip r with
  | nil => cases h; rfl
  | cons b bs ih =>
    cases skip with
    | zero =>
      rw [unquoteFrom] at h
      obtain ⟨⟨u, n⟩, hu, h⟩ := Option.bind_eq_some_iff.mp h
      obtain ⟨t, ht, rfl⟩ := Option.map_eq_some_iff.mp h
      obtain ⟨c, rfl⟩ := readRune_encode hu
      exact (ih ht).encodeRune_append c
    | succ skip => exact ih h

/-- The value of a string literal is UTF-8. -/
theorem unquote_utf8 (h : unquote s = some r) : Utf8 r := by
  cases s with
  | nil => cases h
  | cons b bs =>
    rw [unquote] at h
    split at h
    · exact unquoteFrom_utf8 h
    · cases h

end Utf8

end Fireworq.GoJson
