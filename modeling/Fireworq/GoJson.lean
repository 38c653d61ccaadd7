import Mathlib.Algebra.Group.Defs
import Mathlib.Data.List.Basic
import Fireworq.GoString

namespace Fireworq.GoJson

open GoString

section Text

def quote : UInt8 := 34

def comma : UInt8 := 44

def colon : UInt8 := 58

def backslash : UInt8 := 92

def openBrace : UInt8 := 123

def closeBrace : UInt8 := 125

def hexDigit (n : ℕ) : UInt8 := UInt8.ofNat (if n < 10 then 48 + n else 87 + n)

def htmlSafe (b : UInt8) : Bool :=
  32 ≤ b.toNat && b.toNat < 128 && b ≠ 34 && b ≠ 38 && b ≠ 60 && b ≠ 62 && b ≠ 92

def escape (b : UInt8) : List UInt8 :=
  if b = 92 ∨ b = 34 then [backslash, b]
  else if b = 8 then [backslash, 98]
  else if b = 12 then [backslash, 102]
  else if b = 10 then [backslash, 110]
  else if b = 13 then [backslash, 114]
  else if b = 9 then [backslash, 116]
  else [backslash, 117, 48, 48, hexDigit (b.toNat / 16), hexDigit (b.toNat % 16)]

def writeRune : List UInt8 → List UInt8
  | [] => []
  | b :: bs =>
    if b.toNat < 0x80 then if htmlSafe b then [b] else escape b
    else
      match decodeRune (b :: bs) with
      | (c, n) =>
        if c = runeError ∧ n = 1 then [backslash, 117, 102, 102, 102, 100]
        else if c = 0x2028 ∨ c = 0x2029 then
          [backslash, 117, 50, 48, 50, hexDigit (c % 16)]
        else (b :: bs).take n

def writeFrom : ℕ → List UInt8 → List UInt8
  | _, [] => []
  | 0, b :: bs => writeRune (b :: bs) ++ writeFrom ((decodeRune (b :: bs)).2 - 1) bs
  | skip + 1, _ :: bs => writeFrom skip bs

/-- `json.Marshal` of a string. -/
def marshalString (s : List UInt8) : List UInt8 := quote :: writeFrom 0 s ++ [quote]

structure Member where
  key : List UInt8
  value : List UInt8
  deriving DecidableEq

def Member.text (m : Member) : List UInt8 := quote :: m.key ++ quote :: colon :: m.value

def omitEmpty {α : Type} [Zero α] [DecidableEq α] (key : List UInt8) (text : α → List UInt8)
    (a : α) : List Member := if a = 0 then [] else [⟨key, text a⟩]

def tail (ms : List Member) : List UInt8 := (ms.flatMap fun m ↦ comma :: m.text) ++ [closeBrace]

/-- `json.Marshal` of a struct whose first member is never omitted. -/
def object (m : Member) (ms : List Member) : List UInt8 := openBrace :: m.text ++ tail ms

end Text

theorem decodeRune_pos (b : UInt8) (bs : List UInt8) : 0 < (decodeRune (b :: bs)).2 := by
  unfold decodeRune
  split
  · contradiction
  · dsimp only
    repeat' split
    all_goals exact Nat.succ_pos _

theorem escape_head (b : UInt8) : ∃ rest, escape b = backslash :: rest := by
  unfold escape
  repeat' split
  all_goals exact ⟨_, rfl⟩

theorem writeRune_head (b : UInt8) (bs : List UInt8) :
    ∃ c rest, writeRune (b :: bs) = c :: rest ∧ c ≠ quote := by
  rw [writeRune]
  split
  · split
    · next hsafe =>
      refine ⟨b, [], rfl, fun h ↦ ?_⟩
      rw [h] at hsafe
      exact absurd hsafe (by decide)
    · obtain ⟨rest, h⟩ := escape_head b
      exact ⟨_, rest, h, by decide⟩
  · next hb =>
    have hpos := decodeRune_pos b bs
    dsimp only
    split
    · exact ⟨_, _, rfl, by decide⟩
    · split
      · exact ⟨_, _, rfl, by decide⟩
      · obtain ⟨n, hn⟩ := Nat.exists_eq_add_of_lt hpos
        refine ⟨b, bs.take n, ?_, fun h ↦ ?_⟩
        · rw [hn, Nat.zero_add, List.take_succ_cons]
        · rw [h] at hb
          exact hb (by decide)

theorem marshalString_head {s : List UInt8} (h : s ≠ []) :
    ∃ c rest, marshalString s = quote :: c :: rest ∧ c ≠ quote := by
  obtain ⟨b, bs, rfl⟩ := List.exists_cons_of_ne_nil h
  obtain ⟨c, rest, hc, hne⟩ := writeRune_head b bs
  refine ⟨c, rest ++ writeFrom ((decodeRune (b :: bs)).2 - 1) bs ++ [quote], ?_, hne⟩
  rw [marshalString, writeFrom, hc, List.cons_append, List.cons_append, List.cons_append]

section Injective

variable {α : Type} {p : α → Bool} {l l' x x' : List α} {a a' : α}

/-- Two texts that stop at the first excluded element agree up to there and
from there on. -/
theorem append_stop_inj (hl : ∀ b ∈ l, p b = true) (hl' : ∀ b ∈ l', p b = true)
    (ha : p a = false) (ha' : p a' = false) (h : l ++ a :: x = l' ++ a' :: x') :
    l = l' ∧ a :: x = a' :: x' := by
  have htake {l x : List α} {a : α} (hl : ∀ b ∈ l, p b = true) (ha : p a = false) :
      (l ++ a :: x).takeWhile p = l := by
    rw [List.takeWhile_append_of_pos hl, List.takeWhile_cons_of_neg (by simp [ha]), List.append_nil]
  have heq : l = l' := by
    rw [← htake (x := x) hl ha, h, htake hl' ha']
  subst heq
  exact ⟨rfl, List.append_cancel_left h⟩

variable {m m' : Member} {ms ms' : List Member}

structure Member.Plain (m : Member) : Prop where
  key : ∀ b ∈ m.key, b ≠ quote ∧ b ≠ comma ∧ b ≠ closeBrace
  value : ∀ b ∈ m.value, b ≠ comma ∧ b ≠ closeBrace

theorem Member.Plain.text (h : m.Plain) : ∀ b ∈ m.text, b ≠ comma ∧ b ≠ closeBrace := by
  intro b hb
  simp only [Member.text, List.mem_cons, List.cons_append, List.mem_append] at hb
  rcases hb with rfl | hb | rfl | rfl | hb
  · decide
  · exact (h.key b hb).2
  · decide
  · decide
  · exact h.value b hb

theorem Member.text_inj (hm : m.Plain) (hm' : m'.Plain) (h : m.text = m'.text) : m = m' := by
  obtain ⟨hkey, hval⟩ := append_stop_inj (p := fun b ↦ b ≠ quote)
    (fun b hb ↦ decide_eq_true (hm.key b hb).1) (fun b hb ↦ decide_eq_true (hm'.key b hb).1)
    (by decide) (by decide) (List.cons_injective h)
  cases m
  cases m'
  simp only [List.cons.injEq, true_and] at hkey hval
  rw [hkey, hval]

theorem tail_stop (ms : List Member) :
    ∃ a x, tail ms = a :: x ∧ (a = comma ∨ a = closeBrace) := by
  cases ms with
  | nil => exact ⟨closeBrace, [], rfl, .inr rfl⟩
  | cons m ms => exact ⟨comma, _, rfl, .inl rfl⟩

/-- The text of an object determines its members. -/
theorem tail_inj (hms : ∀ m ∈ ms, m.Plain) (hms' : ∀ m ∈ ms', m.Plain)
    (h : tail ms = tail ms') : ms = ms' := by
  induction ms generalizing ms' with
  | nil =>
    cases ms' with
    | nil => rfl
    | cons m' ms' => exact absurd (List.cons.inj h).1 (by decide)
  | cons m ms ih =>
    cases ms' with
    | nil => exact absurd (List.cons.inj h).1 (by decide)
    | cons m' ms' =>
      obtain ⟨a, x, ha, hstop⟩ := tail_stop ms
      obtain ⟨a', x', ha', hstop'⟩ := tail_stop ms'
      have hcons (m : Member) (ms : List Member) : tail (m :: ms) = comma :: m.text ++ tail ms := by
        simp [tail]
      rw [hcons, hcons, ha, ha'] at h
      have hm := hms m List.mem_cons_self
      have hm' := hms' m' List.mem_cons_self
      obtain ⟨htext, hrest⟩ := append_stop_inj (p := fun b ↦ b ≠ comma ∧ b ≠ closeBrace)
        (fun b hb ↦ decide_eq_true (hm.text b hb)) (fun b hb ↦ decide_eq_true (hm'.text b hb))
        (by rcases hstop with rfl | rfl <;> decide) (by rcases hstop' with rfl | rfl <;> decide)
        (List.cons_injective h)
      rw [Member.text_inj hm hm' htext, ih (fun m hm ↦ hms m (List.mem_cons_of_mem _ hm))
        (fun m hm ↦ hms' m (List.mem_cons_of_mem _ hm)) (by rw [ha, ha', hrest])]

theorem mem_omitEmpty [Zero α] [DecidableEq α] {key : List UInt8} {text : α → List UInt8}
    (h : m ∈ omitEmpty key text a) : m = ⟨key, text a⟩ := by
  unfold omitEmpty at h
  split at h
  · cases h
  · exact List.mem_singleton.mp h

theorem omitEmpty_inj [Zero α] [DecidableEq α] {key : List UInt8} {text : α → List UInt8}
    (hinj : Function.Injective text) (hms : ∀ m ∈ ms, m.key ≠ key) (hms' : ∀ m ∈ ms', m.key ≠ key)
    (h : omitEmpty key text a ++ ms = omitEmpty key text a' ++ ms') : a = a' ∧ ms = ms' := by
  unfold omitEmpty at h
  split at h
  · next ha =>
    split at h
    · next ha' => exact ⟨ha.trans ha'.symm, h⟩
    · rw [List.nil_append] at h
      exact absurd rfl (hms ⟨key, text a'⟩ (by simp [h]))
  · split at h
    · rw [List.nil_append] at h
      exact absurd rfl (hms' ⟨key, text a⟩ (by simp [← h]))
    · obtain ⟨hm, hrest⟩ := List.cons.inj h
      exact ⟨hinj (Member.mk.inj hm).2, hrest⟩

end Injective

end Fireworq.GoJson
