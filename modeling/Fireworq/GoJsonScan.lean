import Fireworq.Execution
import Fireworq.GoEncoding
import Fireworq.GoJsonString

namespace Fireworq.GoJson

open Execution GoEncoding GoString

section Scanner

def openBracket : UInt8 := 91

def closeBracket : UInt8 := 93

def isSpace (b : UInt8) : Bool := b = 32 || b = 9 || b = 13 || b = 10

def isDigit (b : UInt8) : Bool := 48 ≤ b.toNat && b.toNat ≤ 57

def simpleEscape (e : UInt8) : Bool := e = 34 || e = 92 || e = 47 || (controlOf e).isSome

def isHex (b : UInt8) : Bool := (hexValue b).isSome

/-- The arrays and objects around a value. The key of a member comes first. -/
inductive Frame
  | objectKey
  | objectValue
  | arrayValue
  deriving DecidableEq

inductive Mode
  | beginValue
  | beginValueOrEmpty
  | beginString
  | beginStringOrEmpty
  | endValue
  | inString
  | inStringEsc
  | inStringEscU (left : ℕ)
  | neg
  | digit1
  | digit0
  | dot
  | dot0
  | e
  | eSign
  | e0
  | literal (rest : List UInt8)
  deriving DecidableEq

structure Scanner where
  mode : Mode
  stack : List Frame
  deriving DecidableEq

def beginValue (limit : ℕ) (st : List Frame) (b : UInt8) : Option Scanner :=
  if isSpace b then some ⟨.beginValue, st⟩
  else if b = openBrace then
    if st.length < limit then some ⟨.beginStringOrEmpty, .objectKey :: st⟩ else none
  else if b = openBracket then
    if st.length < limit then some ⟨.beginValueOrEmpty, .arrayValue :: st⟩ else none
  else if b = quote then some ⟨.inString, st⟩
  else if b = minus then some ⟨.neg, st⟩
  else if b = 48 then some ⟨.digit0, st⟩
  else if b = 116 then some ⟨.literal [114, 117, 101], st⟩
  else if b = 102 then some ⟨.literal [97, 108, 115, 101], st⟩
  else if b = 110 then some ⟨.literal [117, 108, 108], st⟩
  else if isDigit b then some ⟨.digit1, st⟩
  else none

def beginString (mode : Mode) (st : List Frame) (b : UInt8) : Option Scanner :=
  if isSpace b then some ⟨mode, st⟩ else if b = quote then some ⟨.inString, st⟩ else none

def endValue (b : UInt8) : List Frame → Option Scanner
  | [] => none
  | f :: st =>
    if isSpace b then some ⟨.endValue, f :: st⟩
    else
      match f with
      | .objectKey => if b = colon then some ⟨.beginValue, .objectValue :: st⟩ else none
      | .objectValue =>
        if b = comma then some ⟨.beginString, .objectKey :: st⟩
        else if b = closeBrace then some ⟨.endValue, st⟩ else none
      | .arrayValue =>
        if b = comma then some ⟨.beginValue, .arrayValue :: st⟩
        else if b = closeBracket then some ⟨.endValue, st⟩ else none

/-- The scanner of `encoding/json` within one value. -/
def Scanner.step (limit : ℕ) (q : Scanner) (b : UInt8) : Option Scanner :=
  match q.mode with
  | .beginValue => beginValue limit q.stack b
  | .beginValueOrEmpty =>
    if b = closeBracket then endValue b q.stack
    else if isSpace b then some q else beginValue limit q.stack b
  | .beginString => beginString .beginString q.stack b
  | .beginStringOrEmpty =>
    if b = closeBrace then some ⟨.endValue, q.stack.tail⟩
    else beginString .beginStringOrEmpty q.stack b
  | .endValue => endValue b q.stack
  | .inString =>
    if b = quote then some ⟨.endValue, q.stack⟩
    else if b = backslash then some ⟨.inStringEsc, q.stack⟩
    else if b.toNat < 32 then none else some q
  | .inStringEsc =>
    if b = 117 then some ⟨.inStringEscU 3, q.stack⟩
    else if simpleEscape b then some ⟨.inString, q.stack⟩
    else none
  | .inStringEscU left =>
    if isHex b then
      match left with
      | 0 => some ⟨.inString, q.stack⟩
      | left + 1 => some ⟨.inStringEscU left, q.stack⟩
    else none
  | .neg =>
    if b = 48 then some ⟨.digit0, q.stack⟩
    else if isDigit b then some ⟨.digit1, q.stack⟩ else none
  | .digit1 =>
    if isDigit b then some q
    else if b = 46 then some ⟨.dot, q.stack⟩
    else if b = 101 || b = 69 then some ⟨.e, q.stack⟩
    else endValue b q.stack
  | .digit0 =>
    if b = 46 then some ⟨.dot, q.stack⟩
    else if b = 101 || b = 69 then some ⟨.e, q.stack⟩
    else endValue b q.stack
  | .dot => if isDigit b then some ⟨.dot0, q.stack⟩ else none
  | .dot0 =>
    if isDigit b then some q
    else if b = 101 || b = 69 then some ⟨.e, q.stack⟩
    else endValue b q.stack
  | .e =>
    if b = plus || b = minus then some ⟨.eSign, q.stack⟩
    else if isDigit b then some ⟨.e0, q.stack⟩ else none
  | .eSign => if isDigit b then some ⟨.e0, q.stack⟩ else none
  | .e0 => if isDigit b then some q else endValue b q.stack
  | .literal rest =>
    match rest with
    | [] => none
    | [c] => if b = c then some ⟨.endValue, q.stack⟩ else none
    | c :: c' :: rest => if b = c then some ⟨.literal (c' :: rest), q.stack⟩ else none

def Scanner.complete (q : Scanner) : Bool :=
  q.stack.isEmpty &&
    (q.mode = .endValue || q.mode = .digit1 || q.mode = .digit0 || q.mode = .dot0 || q.mode = .e0)

def Scanner.scan (limit : ℕ) : Scanner → List UInt8 → Option (List UInt8 × List UInt8)
  | q, [] => if q.complete then some ([], []) else none
  | q, b :: bs =>
    match q.step limit b with
    | some q' => (scan limit q' bs).map fun r ↦ (b :: r.1, r.2)
    | none => if q.complete then some ([], b :: bs) else none

def maxNestingDepth : ℕ := 10000

def scanValue (depth : ℕ) : List UInt8 → Option (List UInt8 × List UInt8) :=
  Scanner.scan (maxNestingDepth - depth) ⟨.beginValue, []⟩

def skipSpace (s : List UInt8) : List UInt8 := s.dropWhile isSpace

def valid (s : List UInt8) : Bool :=
  match scanValue 0 (skipSpace s) with
  | some (_, rest) => (skipSpace rest).isEmpty
  | none => false

end Scanner

section Scan

variable {limit : ℕ} {q q' : Scanner} {s t w raw rest : List UInt8} {b : UInt8}

theorem scan_append (h : exec (Scanner.step limit) q w = some q') (t : List UInt8) :
    q.scan limit (w ++ t) = (q'.scan limit t).map fun r ↦ (w ++ r.1, r.2) := by
  induction w generalizing q with
  | nil =>
    cases h
    rw [List.nil_append]
    cases q'.scan limit t <;> rfl
  | cons b w ih =>
    obtain ⟨u, hu, h⟩ := exec_cons h
    rw [List.cons_append, Scanner.scan, hu]
    dsimp only
    rw [ih h, Option.map_map]
    rfl

theorem scan_text (h : q.scan limit s = some (raw, rest)) : s = raw ++ rest := by
  induction s generalizing q raw with
  | nil =>
    rw [Scanner.scan] at h
    split at h <;> cases h
    rfl
  | cons b bs ih =>
    rw [Scanner.scan] at h
    split at h
    · obtain ⟨⟨raw', rest'⟩, hr, heq⟩ := Option.map_eq_some_iff.mp h
      cases heq
      rw [List.cons_append, ← ih hr]
    · split at h <;> cases h
      rfl

/-- The text of a value is a value by itself. -/
theorem scan_self (h : q.scan limit s = some (raw, rest)) : q.scan limit raw = some (raw, []) := by
  induction s generalizing q raw with
  | nil =>
    rw [Scanner.scan] at h
    split at h <;> cases h
    rw [Scanner.scan, if_pos ‹_›]
  | cons b bs ih =>
    rw [Scanner.scan] at h
    split at h
    · next q' hq =>
      obtain ⟨⟨raw', rest'⟩, hr, heq⟩ := Option.map_eq_some_iff.mp h
      cases heq
      rw [Scanner.scan, hq]
      dsimp only
      rw [ih hr, Option.map_some]
    · split at h <;> cases h
      rw [Scanner.scan, if_pos ‹_›]

theorem beginValue_mono {limit' : ℕ} {st : List Frame} (hle : limit ≤ limit')
    (h : beginValue limit st b = some q) : beginValue limit' st b = some q := by
  unfold beginValue at h ⊢
  split
  · rwa [if_pos ‹_›] at h
  · rw [if_neg ‹_›] at h
    split
    · rw [if_pos ‹_›] at h
      split at h
      · rwa [if_pos (by omega)]
      · cases h
    · rw [if_neg ‹_›] at h
      split
      · rw [if_pos ‹_›] at h
        split at h
        · rwa [if_pos (by omega)]
        · cases h
      · rwa [if_neg ‹_›] at h

theorem step_mono {limit' : ℕ} (hle : limit ≤ limit') (h : q.step limit b = some q') :
    q.step limit' b = some q' := by
  obtain ⟨mode, st⟩ := q
  cases mode with
  | beginValue => exact beginValue_mono hle h
  | beginValueOrEmpty =>
    simp only [Scanner.step] at h ⊢
    split
    · rwa [if_pos ‹_›] at h
    · rw [if_neg ‹_›] at h
      split
      · rwa [if_pos ‹_›] at h
      · rw [if_neg ‹_›] at h
        exact beginValue_mono hle h
  | _ => exact h

theorem complete_step {limit' : ℕ} (hc : q.complete = true) (h : q.step limit b = none) :
    q.step limit' b = none := by
  obtain ⟨mode, st⟩ := q
  cases mode with
  | beginValue | beginValueOrEmpty => simp [Scanner.complete] at hc
  | _ => exact h

/-- A value is one also where more nesting is allowed. -/
theorem scan_mono {limit' : ℕ} (hle : limit ≤ limit') (h : q.scan limit s = some (raw, rest)) :
    q.scan limit' s = some (raw, rest) := by
  induction s generalizing q raw with
  | nil => exact h
  | cons b bs ih =>
    rw [Scanner.scan] at h ⊢
    split at h
    · next q' hq =>
      obtain ⟨⟨raw', rest'⟩, hr, heq⟩ := Option.map_eq_some_iff.mp h
      cases heq
      rw [step_mono hle hq]
      dsimp only
      rw [ih hr, Option.map_some]
    · next hq =>
      split at h <;> cases h
      rw [complete_step ‹_› hq]
      dsimp only
      rw [if_pos ‹_›]

end Scan

section Strings

variable {limit : ℕ} {st : List Frame} {s t w body raw rest : List UInt8} {b e : UInt8}

inductive StringBody : List UInt8 → Prop
  | nil : StringBody []
  | plain {b : UInt8} {s : List UInt8} : b ≠ quote → b ≠ backslash → 32 ≤ b.toNat →
      StringBody s → StringBody (b :: s)
  | escape {e : UInt8} {s : List UInt8} : simpleEscape e = true → StringBody s →
      StringBody (backslash :: e :: s)
  | unicode {w s : List UInt8} : w.length = 4 → (∀ b ∈ w, isHex b = true) → StringBody s →
      StringBody (backslash :: 117 :: (w ++ s))

theorem StringBody.append (h : StringBody w) (hs : StringBody s) : StringBody (w ++ s) := by
  induction h with
  | nil => exact hs
  | plain hq hb hc _ ih => exact .plain hq hb hc ih
  | escape he _ ih => exact .escape he ih
  | unicode hlen hw _ ih =>
    rw [List.cons_append, List.cons_append, List.append_assoc]
    exact .unicode hlen hw ih

theorem step_inString (hq : b ≠ quote) (hb : b ≠ backslash) (hc : 32 ≤ b.toNat) :
    Scanner.step limit ⟨.inString, st⟩ b = some ⟨.inString, st⟩ := by
  simp only [Scanner.step]
  rw [if_neg hq, if_neg hb, if_neg (by omega)]

theorem exec_hex (hw : ∀ b ∈ w, isHex b = true) (hne : w ≠ []) :
    exec (Scanner.step limit) ⟨.inStringEscU (w.length - 1), st⟩ w = some ⟨.inString, st⟩ := by
  induction w with
  | nil => exact absurd rfl hne
  | cons b w ih =>
    have hb := hw b List.mem_cons_self
    cases w with
    | nil =>
      have hstep : Scanner.step limit ⟨.inStringEscU 0, st⟩ b = some ⟨.inString, st⟩ := by
        simp [Scanner.step, hb]
      exact exec_cons_of_step hstep []
    | cons c w =>
      have hstep : Scanner.step limit ⟨.inStringEscU ((b :: c :: w).length - 1), st⟩ b =
          some ⟨.inStringEscU ((c :: w).length - 1), st⟩ := by
        simp [Scanner.step, hb]
      rw [exec_cons_of_step hstep]
      exact ih (fun d hd ↦ hw d (List.mem_cons_of_mem b hd)) (List.cons_ne_nil c w)

/-- The scanner stays within a string literal while it reads its body. -/
theorem StringBody.exec (h : StringBody w) :
    exec (Scanner.step limit) ⟨.inString, st⟩ w = some ⟨.inString, st⟩ := by
  have hesc : Scanner.step limit ⟨.inString, st⟩ backslash = some ⟨.inStringEsc, st⟩ := rfl
  induction h with
  | nil => rfl
  | plain hq hb hc _ ih => rwa [exec_cons_of_step (step_inString hq hb hc)]
  | @escape e s he _ ih =>
    have hstep : Scanner.step limit ⟨.inStringEsc, st⟩ e = some ⟨.inString, st⟩ := by
      simp only [Scanner.step]
      rw [if_neg (by rintro rfl; exact absurd he (by decide)), if_pos he]
    rwa [exec_cons_of_step hesc, exec_cons_of_step hstep]
  | @unicode w s hlen hw _ ih =>
    have hstep : Scanner.step limit ⟨.inStringEsc, st⟩ 117 = some ⟨.inStringEscU 3, st⟩ := rfl
    have hhex : Execution.exec (Scanner.step limit) ⟨.inStringEscU (w.length - 1), st⟩ w =
        some ⟨.inString, st⟩ := exec_hex hw (by rintro rfl; cases hlen)
    rw [hlen] at hhex
    rw [exec_cons_of_step hesc, exec_cons_of_step hstep]
    exact exec_append.mpr ⟨_, hhex, ih⟩

theorem scan_literal (h : StringBody body) (t : List UInt8) :
    Scanner.scan limit ⟨.beginValue, []⟩ (quote :: body ++ quote :: t) =
      some (quote :: body ++ [quote], t) := by
  have hopen : Scanner.step limit ⟨.beginValue, []⟩ quote = some ⟨.inString, []⟩ := rfl
  have hclose : Scanner.step limit ⟨.inString, []⟩ quote = some ⟨.endValue, []⟩ := rfl
  have hexec : Execution.exec (Scanner.step limit) ⟨.beginValue, []⟩ (quote :: body ++ [quote]) =
      some ⟨.endValue, []⟩ := by
    rw [List.cons_append, exec_cons_of_step hopen]
    exact exec_snoc.mpr ⟨_, h.exec, hclose⟩
  have hend : Scanner.scan limit ⟨.endValue, []⟩ t = some ([], t) := by
    cases t <;> rfl
  rw [show quote :: body ++ quote :: t = (quote :: body ++ [quote]) ++ t by simp,
    scan_append hexec, hend, Option.map_some, List.append_nil]

def Mode.Awaits : Mode → List UInt8 → Prop
  | .inString, body => StringBody body
  | .inStringEsc, body => StringBody (backslash :: body)
  | .inStringEscU left, body => ∀ w, w.length + left = 3 → (∀ b ∈ w, isHex b = true) →
      StringBody (backslash :: 117 :: (w ++ body))
  | _, _ => False

def Mode.inLiteral : Mode → Bool
  | .inString | .inStringEsc | .inStringEscU _ => true
  | _ => false

theorem step_inLiteral {q : Scanner} {m : Mode} (hm : m.inLiteral = true)
    (h : Scanner.step limit ⟨m, []⟩ b = some q) :
    m = .inString ∧ b = quote ∧ q = ⟨.endValue, []⟩ ∨
      ∃ m', q = ⟨m', []⟩ ∧ m'.inLiteral = true ∧ ∀ body, m'.Awaits body → m.Awaits (b :: body) := by
  cases m with
  | inString =>
    simp only [Scanner.step] at h
    split at h
    · cases h
      exact .inl ⟨rfl, ‹_›, rfl⟩
    · split at h
      · cases h
        next hb => exact .inr ⟨_, rfl, rfl, fun body hbody ↦ hb ▸ hbody⟩
      · split at h <;> cases h
        exact .inr ⟨_, rfl, rfl, fun body hbody ↦ .plain ‹_› ‹_› (by omega) hbody⟩
  | inStringEsc =>
    simp only [Scanner.step] at h
    split at h
    · cases h
      next hb =>
        refine .inr ⟨_, rfl, rfl, fun body hbody ↦ ?_⟩
        exact hb ▸ hbody [] rfl (by simp)
    · split at h <;> cases h
      exact .inr ⟨_, rfl, rfl, fun body hbody ↦ .escape ‹_› hbody⟩
  | inStringEscU left =>
    simp only [Scanner.step] at h
    split at h
    · next hb =>
      cases left with
      | zero =>
        cases h
        refine .inr ⟨_, rfl, rfl, fun body hbody w hw hhex ↦ ?_⟩
        rw [show w ++ b :: body = (w ++ [b]) ++ body by simp]
        refine .unicode (by simpa using hw) (fun c hc ↦ ?_) hbody
        rcases List.mem_append.mp hc with hc | hc
        · exact hhex c hc
        · exact List.mem_singleton.mp hc ▸ hb
      | succ left =>
        cases h
        refine .inr ⟨_, rfl, rfl, fun body hbody w hw hhex ↦ ?_⟩
        rw [show w ++ b :: body = (w ++ [b]) ++ body by simp]
        refine hbody (w ++ [b]) (by simp; omega) fun c hc ↦ ?_
        rcases List.mem_append.mp hc with hc | hc
        · exact hhex c hc
        · exact List.mem_singleton.mp hc ▸ hb
    · cases h
  | _ => cases hm

theorem scan_inLiteral {m : Mode} (hm : m.inLiteral = true)
    (h : Scanner.scan limit ⟨m, []⟩ s = some (raw, rest)) :
    ∃ body, raw = body ++ [quote] ∧ m.Awaits body := by
  have hcomplete : Scanner.complete ⟨m, []⟩ = false := by
    cases m <;> first | rfl | cases hm
  induction s generalizing m raw with
  | nil =>
    rw [Scanner.scan, hcomplete] at h
    cases h
  | cons b bs ih =>
    rw [Scanner.scan] at h
    split at h
    · next q hq =>
      obtain ⟨⟨raw', rest'⟩, hr, heq⟩ := Option.map_eq_some_iff.mp h
      cases heq
      rcases step_inLiteral hm hq with ⟨rfl, rfl, rfl⟩ | ⟨m', rfl, hm', hawaits⟩
      · have hend : raw' = [] := by
          cases bs with
          | nil => cases hr; rfl
          | cons c bs => cases hr; rfl
        exact ⟨[], by rw [hend]; rfl, .nil⟩
      · obtain ⟨body, rfl, hbody⟩ := ih hm' hr (by cases m' <;> first | rfl | cases hm')
        exact ⟨b :: body, rfl, hawaits body hbody⟩
    · rw [hcomplete] at h
      cases h

theorem unquoteFrom_drop (k : ℕ) (s : List UInt8) : unquoteFrom k s = unquoteFrom 0 (s.drop k) := by
  induction s generalizing k with
  | nil => cases k <;> rfl
  | cons b s ih =>
    cases k with
    | zero => rfl
    | succ k => exact ih k

theorem StringBody.drop_high (h : StringBody (w ++ s)) (hw : ∀ c ∈ w, 0x80 ≤ c.toNat) :
    StringBody s := by
  induction w with
  | nil => exact h
  | cons b w ih =>
    have hb := hw b List.mem_cons_self
    refine ih ?_ fun c hc ↦ hw c (List.mem_cons_of_mem b hc)
    generalize hl : b :: w ++ s = l at h
    cases h with
    | nil => cases hl
    | plain _ _ _ h =>
      cases hl
      exact h
    | escape | unicode =>
      rw [(List.cons.inj hl).1] at hb
      exact absurd hb (by decide)

theorem StringBody.drop_unicode {r : ℕ} (h : StringBody s) (hr : getu4 s = some r) :
    StringBody (s.drop 6) := by
  have hhead : ∃ v, s = backslash :: 117 :: v := by
    rcases s with _ | ⟨a, _ | ⟨c, _ | ⟨d, _ | ⟨f, _ | ⟨g, _ | ⟨i, s⟩⟩⟩⟩⟩⟩
    iterate 6 cases hr
    rw [getu4] at hr
    split at hr
    · next hac => exact ⟨_, by rw [hac.1, hac.2]⟩
    · cases hr
  obtain ⟨v, rfl⟩ := hhead
  generalize hl : backslash :: 117 :: v = l at h
  cases h with
  | nil => cases hl
  | plain _ hb =>
    cases hl
    exact absurd rfl hb
  | escape he =>
    cases hl
    exact absurd he (by decide)
  | @unicode w s hlen _ h =>
    cases hl
    rw [List.drop_succ_cons, List.drop_succ_cons, ← hlen, List.drop_left]
    exact h

theorem getu4_unicode (hlen : w.length = 4) (hw : ∀ b ∈ w, isHex b = true) (s : List UInt8) :
    ∃ r, getu4 (backslash :: 117 :: (w ++ s)) = some r := by
  rcases w with _ | ⟨a, _ | ⟨b, _ | ⟨c, _ | ⟨d, _ | ⟨e, w⟩⟩⟩⟩⟩
  iterate 4 cases hlen
  · obtain ⟨a', ha⟩ := Option.isSome_iff_exists.mp (hw a (by simp))
    obtain ⟨b', hb⟩ := Option.isSome_iff_exists.mp (hw b (by simp))
    obtain ⟨c', hc⟩ := Option.isSome_iff_exists.mp (hw c (by simp))
    obtain ⟨d', hd⟩ := Option.isSome_iff_exists.mp (hw d (by simp))
    simp [getu4, ha, hb, hc, hd]
  · cases hlen

/-- The body of a string literal is read character by character. -/
theorem StringBody.readRune (h : StringBody s) (hne : s ≠ []) :
    ∃ r n, readRune s = some (r, n + 1) ∧ StringBody (s.drop (n + 1)) := by
  cases h with
  | nil => exact absurd rfl hne
  | @plain b s hq hb hc h =>
    have hnone : ¬ (b = quote ∨ b.toNat < 32) := by
      rintro (hbq | hlt)
      · exact hq hbq
      · omega
    by_cases hascii : b.toNat < 0x80
    · refine ⟨[b], 0, ?_, h⟩
      rw [GoJson.readRune, if_neg hb, if_neg hnone, if_pos hascii]
    · rcases decodeRune_cases b s with ⟨-, herr⟩ | ⟨w, rest, c, heq, hw, hchar⟩
      · refine ⟨encodeRune runeError, 0, ?_, h⟩
        rw [GoJson.readRune, if_neg hb, if_neg hnone, if_neg hascii, herr]
      · have hd := hchar.decode rest
        rw [← heq] at hd
        obtain ⟨a, v, rfl⟩ := List.exists_cons_of_ne_nil hw
        obtain ⟨rfl, rfl⟩ := List.cons.inj heq
        refine ⟨encodeRune c, v.length, ?_, ?_⟩
        · rw [GoJson.readRune, if_neg hb, if_neg hnone, if_neg hascii, hd]
          rfl
        · rw [List.drop_succ_cons, show v.append rest = v ++ rest from rfl, List.drop_left]
          refine StringBody.drop_high (w := v) h fun d hd ↦ ?_
          by_contra hlow
          have hone := hchar.ascii d (List.mem_cons_of_mem b hd) (by omega)
          obtain ⟨-, rfl⟩ := List.cons.inj hone
          cases hd
  | @escape e s he h =>
    simp only [simpleEscape, Bool.or_eq_true, decide_eq_true_eq] at he
    by_cases hself : escapesItself e = true
    · refine ⟨[e], 1, ?_, h⟩
      rw [GoJson.readRune, if_pos rfl, readEscape, if_pos hself]
    · have hcontrol : (controlOf e).isSome = true := by
        rcases he with ((rfl | rfl) | rfl) | he
        iterate 3 exact absurd rfl hself
        exact he
      obtain ⟨c, hc⟩ := Option.isSome_iff_exists.mp hcontrol
      have hu : e ≠ 117 := by
        rintro rfl
        cases hc
      refine ⟨[c], 1, ?_, h⟩
      rw [GoJson.readRune, if_pos rfl, readEscape, if_neg hself, if_neg hu, hc, Option.map_some]
  | @unicode w s hlen hw h =>
    obtain ⟨r, hr⟩ := getu4_unicode hlen hw s
    have hread : GoJson.readRune (backslash :: 117 :: (w ++ s)) =
        readUnicode (backslash :: 117 :: (w ++ s)) := by
      rw [GoJson.readRune, if_pos rfl, readEscape, if_neg (by decide), if_pos rfl]
    have hdrop : (backslash :: 117 :: (w ++ s)).drop 6 = s := by
      rw [List.drop_succ_cons, List.drop_succ_cons, ← hlen, List.drop_left]
    have hs : StringBody ((backslash :: 117 :: (w ++ s)).drop 6) := by rwa [hdrop]
    rw [hread, readUnicode, hr, Option.map_some, hdrop]
    split
    · split
      · next c hpair =>
        obtain ⟨r', hr', -⟩ := Option.bind_eq_some_iff.mp hpair
        refine ⟨_, 11, rfl, ?_⟩
        rw [show 11 + 1 = 6 + 6 from rfl, ← List.drop_drop, hdrop]
        exact h.drop_unicode hr'
      · exact ⟨_, 5, rfl, hs⟩
    · exact ⟨_, 5, rfl, hs⟩

theorem StringBody.unquoteFrom (h : StringBody s) : ∃ r, unquoteFrom 0 s = some r := by
  induction hn : s.length using Nat.strongRecOn generalizing s with
  | ind k ih =>
    cases s with
    | nil => exact ⟨[], rfl⟩
    | cons b s =>
      obtain ⟨r, n, hr, hdrop⟩ := h.readRune (List.cons_ne_nil b s)
      rw [List.drop_succ_cons] at hdrop
      have hlt : (s.drop n).length < k := by
        rw [← hn, List.length_drop, List.length_cons]
        omega
      obtain ⟨t, ht⟩ := ih (s.drop n).length hlt hdrop rfl
      refine ⟨r ++ t, ?_⟩
      rw [GoJson.unquoteFrom, hr, Option.bind_some, Nat.add_sub_cancel, unquoteFrom_drop, ht,
        Option.map_some]

/-- Every string literal that the scanner accepts has a value. -/
theorem unquote_scanValue {depth : ℕ} (h : scanValue depth (quote :: s) = some (raw, rest)) :
    ∃ body r, raw = quote :: body ++ [quote] ∧ unquote raw = some r := by
  have hopen : Scanner.step (maxNestingDepth - depth) ⟨.beginValue, []⟩ quote =
      some ⟨.inString, []⟩ := rfl
  rw [scanValue, Scanner.scan, hopen] at h
  obtain ⟨⟨raw', rest'⟩, hr, heq⟩ := Option.map_eq_some_iff.mp h
  cases heq
  obtain ⟨body, rfl, hbody⟩ := scan_inLiteral rfl hr
  obtain ⟨r, hr⟩ := StringBody.unquoteFrom hbody
  refine ⟨body, r, rfl, ?_⟩
  rw [unquote, if_pos ⟨rfl, by simp⟩, List.dropLast_concat, hr]

theorem isHex_hexDigit {n : ℕ} (h : n < 16) : isHex (hexDigit n) = true := by
  rw [isHex, hexValue_hexDigit h]
  rfl

theorem StringBody.of_high (hw : ∀ c ∈ w, 0x80 ≤ c.toNat) : StringBody w := by
  induction w with
  | nil => exact .nil
  | cons b w ih =>
    have hb := hw b List.mem_cons_self
    refine .plain ?_ ?_ (by omega) (ih fun c hc ↦ hw c (List.mem_cons_of_mem b hc))
    · rintro rfl
      exact absurd hb (by decide)
    · rintro rfl
      exact absurd hb (by decide)

theorem StringBody.escape_body (h : b.toNat < 0x80) : StringBody (GoJson.escape b) := by
  unfold GoJson.escape
  split
  · next hb => rcases hb with rfl | rfl <;> exact .escape rfl .nil
  iterate 5
    split
    · exact .escape rfl .nil
  refine .unicode (w := [48, 48, hexDigit (b.toNat / 16), hexDigit (b.toNat % 16)]) rfl ?_ .nil
  have h₁ := isHex_hexDigit (n := b.toNat / 16) (by omega)
  have h₂ := isHex_hexDigit (n := b.toNat % 16) (by omega)
  simpa [h₁, h₂] using (by decide : isHex 48 = true)

theorem StringBody.writeRune (b : UInt8) (bs : List UInt8) : StringBody (writeRune (b :: bs)) := by
  rw [GoJson.writeRune]
  split
  · next hb =>
    split
    · next hsafe =>
      simp only [htmlSafe, Bool.and_eq_true, decide_eq_true_eq] at hsafe
      exact .plain hsafe.1.1.1.1.2 hsafe.2 hsafe.1.1.1.1.1.1 .nil
    · exact .escape_body hb
  · next hb =>
    rcases decodeRune_cases b bs with ⟨-, herr⟩ | ⟨w, rest, c, heq, hw, hchar⟩
    · rw [herr]
      exact .unicode (w := [102, 102, 102, 100]) rfl (by decide +kernel) .nil
    · have hd := hchar.decode rest
      rw [← heq] at hd
      rw [hd, heq]
      dsimp only
      split
      · exact .unicode (w := [102, 102, 102, 100]) rfl (by decide +kernel) .nil
      · split
        · have hlast := isHex_hexDigit (n := c % 16) (by omega)
          refine .unicode (w := [50, 48, 50, hexDigit (c % 16)]) rfl ?_ .nil
          simpa [hlast] using (by decide : isHex 50 = true ∧ isHex 48 = true ∧ isHex 50 = true)
        · rw [List.take_left]
          refine .of_high fun d hd ↦ ?_
          by_contra hlow
          have hone := hchar.ascii d hd (by omega)
          rw [hone] at heq
          exact hlow ((List.cons.inj heq).1 ▸ (by omega : 0x80 ≤ b.toNat))

theorem StringBody.writeFrom (skip : ℕ) (s : List UInt8) : StringBody (writeFrom skip s) := by
  induction s generalizing skip with
  | nil => exact .nil
  | cons b bs ih =>
    cases skip with
    | zero => exact (StringBody.writeRune b bs).append (ih _)
    | succ skip => exact ih skip

theorem scanValue_marshalString (depth : ℕ) (s t : List UInt8) :
    scanValue depth (marshalString s ++ t) = some (marshalString s, t) := by
  rw [marshalString, List.append_assoc]
  exact scan_literal (StringBody.writeFrom 0 s) t

theorem valid_marshalString (s : List UInt8) : valid (marshalString s) = true := by
  have h := scanValue_marshalString 0 s []
  rw [List.append_nil] at h
  have hspace : skipSpace (marshalString s) = marshalString s := rfl
  rw [valid, hspace, h]
  rfl

end Strings

end Fireworq.GoJson
