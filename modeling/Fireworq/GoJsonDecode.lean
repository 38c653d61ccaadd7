import Fireworq.GoJsonScan

namespace Fireworq.GoJson

open Execution GoEncoding GoString

section Decoder

def nullText : List UInt8 := [110, 117, 108, 108]

def readMember (s : List UInt8) : Option (Member × List UInt8) :=
  (scanValue 1 s).bind fun k ↦ (unquote k.1).bind fun key ↦
    match skipSpace k.2 with
    | [] => none
    | b :: bs =>
      if b = colon then (scanValue 1 (skipSpace bs)).map fun v ↦ (⟨key, v.1⟩, v.2) else none

def readMembers : ℕ → List UInt8 → Option (List Member × List UInt8)
  | 0, _ => none
  | n + 1, s =>
    (readMember (skipSpace s)).bind fun m ↦
      match skipSpace m.2 with
      | [] => none
      | b :: bs =>
        if b = comma then (readMembers n bs).map fun r ↦ (m.1 :: r.1, r.2)
        else if b = closeBrace then some ([m.1], bs)
        else none

def readObject : List UInt8 → Option (List Member × List UInt8)
  | [] => none
  | b :: bs =>
    if b = openBrace then
      match skipSpace bs with
      | [] => none
      | c :: cs => if c = closeBrace then some ([], cs) else readMembers bs.length (c :: cs)
    else none

structure Field (σ : Type) where
  name : List UInt8
  store : List UInt8 → σ → Option σ

/-- `foldRune` as far as ASCII letters are concerned. The Kelvin sign and the
long s are the only other characters that fold to one. -/
def foldRune (r : ℕ) : ℕ :=
  if 97 ≤ r ∧ r ≤ 122 then r - 32 else if r = 0x212A then 75 else if r = 0x17F then 83 else r

def foldName (s : List UInt8) : List ℕ := (runes s).map foldRune

variable {σ : Type}

/-- The field of a name. A name in another case counts if none is the same. -/
def lookup (fields : List (Field σ)) (name : List UInt8) : Option (Field σ) :=
  (fields.find? fun f ↦ f.name = name).or (fields.find? fun f ↦ foldName f.name = foldName name)

/-- Members are stored in their order, and those without a field are ignored. -/
def decodeMembers (fields : List (Field σ)) (v : σ) (ms : List Member) : Option σ :=
  ms.foldlM (fun v m ↦ (lookup fields m.key).elim (some v) fun f ↦ f.store m.value v) v

def decode (fields : List (Field σ)) (zero : σ) (s : List UInt8) : Option (σ × List UInt8) :=
  match readObject (skipSpace s) with
  | some (ms, rest) => (decodeMembers fields zero ms).map fun v ↦ (v, rest)
  | none =>
    (scanValue 0 (skipSpace s)).bind fun r ↦ if r.1 = nullText then some (zero, r.2) else none

/-- `json.Unmarshal` into a struct. -/
def unmarshal (fields : List (Field σ)) (zero : σ) (s : List UInt8) : Option σ :=
  (decode fields zero s).bind fun r ↦ if (skipSpace r.2).isEmpty then some r.1 else none

def storeString (set : List UInt8 → σ → σ) (raw : List UInt8) (v : σ) : Option σ :=
  if raw = nullText then some v else (unquote raw).map fun t ↦ set t v

def storeInt (set : ℤ → σ → σ) (raw : List UInt8) (v : σ) : Option σ :=
  if raw = nullText then some v else (atoi raw).map fun x ↦ set x v

def storeUint (set : ℕ → σ → σ) (raw : List UInt8) (v : σ) : Option σ :=
  if raw = nullText then some v
  else (parseUint raw).bind fun n ↦ if n < 2 ^ 64 then some (set n v) else none

def storeRaw (set : List UInt8 → σ → σ) (raw : List UInt8) (v : σ) : Option σ := some (set raw v)

theorem storeString_cases {set : List UInt8 → σ → σ} {raw : List UInt8} {v v' : σ}
    (h : storeString set raw v = some v') : (∃ t, Utf8 t ∧ v' = set t v) ∨ v' = v := by
  unfold storeString at h
  split at h
  · exact .inr (Option.some.inj h).symm
  · obtain ⟨t, ht, rfl⟩ := Option.map_eq_some_iff.mp h
    exact .inl ⟨t, unquote_utf8 ht, rfl⟩

theorem storeInt_cases {set : ℤ → σ → σ} {raw : List UInt8} {v v' : σ}
    (h : storeInt set raw v = some v') : (∃ x, v' = set x v) ∨ v' = v := by
  unfold storeInt at h
  split at h
  · exact .inr (Option.some.inj h).symm
  · obtain ⟨x, -, rfl⟩ := Option.map_eq_some_iff.mp h
    exact .inl ⟨x, rfl⟩

theorem storeUint_cases {set : ℕ → σ → σ} {raw : List UInt8} {v v' : σ}
    (h : storeUint set raw v = some v') : (∃ n < 2 ^ 64, v' = set n v) ∨ v' = v := by
  unfold storeUint at h
  split at h
  · exact .inr (Option.some.inj h).symm
  · obtain ⟨n, -, h⟩ := Option.bind_eq_some_iff.mp h
    split at h <;> cases h
    exact .inl ⟨n, ‹_›, rfl⟩

end Decoder

section Numbers

variable {limit : ℕ} {st : List Frame} {b : UInt8} {w : List UInt8}

theorem formatUint_head {n : ℕ} (h : 0 < n) :
    ∃ d w, formatUint n = d :: w ∧ isDigit d = true ∧ d ≠ 48 := by
  induction n using Nat.strongRecOn with
  | ind n ih =>
    by_cases hn : n < 10
    · have hall : ∀ n < 10, 0 < n → isDigit (UInt8.ofNat (Nat.digitChar n).toNat) = true ∧
          UInt8.ofNat (Nat.digitChar n).toNat ≠ 48 := by decide
      exact ⟨_, [], formatUint_of_lt hn, hall n hn h⟩
    · obtain ⟨d, w, hw, hd⟩ := ih (n / 10) (by omega) (by omega)
      refine ⟨d, w ++ formatUint (n % 10), ?_, hd⟩
      have hsplit := formatUint_append (n := n / 10) (d := n % 10) (by omega) (by omega)
      rw [Nat.div_add_mod] at hsplit
      rw [hsplit, hw, List.cons_append]

theorem isDigit_formatUint {n : ℕ} (h : b ∈ formatUint n) : isDigit b = true := by
  have hb := mem_formatUint h
  simp only [isDigit, Bool.and_eq_true, decide_eq_true_eq]
  exact hb

theorem exec_digits (h : ∀ b ∈ w, isDigit b = true) :
    exec (Scanner.step limit) ⟨.digit1, st⟩ w = some ⟨.digit1, st⟩ := by
  induction w with
  | nil => rfl
  | cons b w ih =>
    have hstep : Scanner.step limit ⟨.digit1, st⟩ b = some ⟨.digit1, st⟩ := by
      simp [Scanner.step, h b List.mem_cons_self]
    rw [exec_cons_of_step hstep]
    exact ih fun c hc ↦ h c (List.mem_cons_of_mem b hc)

def Mode.number (m : Mode) : Prop := m = .digit1 ∨ m = .digit0

theorem step_digit (h : isDigit b = true) (hb : b ≠ 48) :
    Scanner.step limit ⟨.beginValue, st⟩ b = some ⟨.digit1, st⟩ ∧
      Scanner.step limit ⟨.neg, st⟩ b = some ⟨.digit1, st⟩ := by
  have hne {c : UInt8} (hc : isDigit c = false) : b ≠ c := by
    rintro rfl
    rw [hc] at h
    cases h
  have hspace : isSpace b = false := by
    simp [isSpace, hne (c := 32) rfl, hne (c := 9) rfl, hne (c := 13) rfl, hne (c := 10) rfl]
  constructor
  · simp [Scanner.step, beginValue, hspace, hne (c := openBrace) rfl, hne (c := openBracket) rfl,
      hne (c := quote) rfl, hne (c := minus) rfl, hne (c := 116) rfl, hne (c := 102) rfl,
      hne (c := 110) rfl, hb, h]
  · simp [Scanner.step, hb, h]

theorem exec_formatUint {m : Mode} (hm : m = .beginValue ∨ m = .neg) (n : ℕ) :
    ∃ m' : Mode, exec (Scanner.step limit) ⟨m, st⟩ (formatUint n) = some ⟨m', st⟩ ∧ m'.number := by
  rcases Nat.eq_zero_or_pos n with rfl | hpos
  · refine ⟨.digit0, ?_, .inr rfl⟩
    rcases hm with rfl | rfl <;> rfl
  · obtain ⟨d, w, hw, hd, hne⟩ := formatUint_head hpos
    have hdigits : ∀ b ∈ w, isDigit b = true := fun b hb ↦
      isDigit_formatUint (hw ▸ List.mem_cons_of_mem d hb)
    refine ⟨.digit1, ?_, .inl rfl⟩
    rw [hw]
    rcases hm with rfl | rfl
    · rw [exec_cons_of_step (step_digit hd hne).1, exec_digits hdigits]
    · rw [exec_cons_of_step (step_digit hd hne).2, exec_digits hdigits]

theorem exec_formatInt (x : ℤ) :
    ∃ m : Mode, exec (Scanner.step limit) ⟨.beginValue, st⟩ (formatInt x) = some ⟨m, st⟩ ∧
      m.number := by
  unfold formatInt
  split
  · have hneg : Scanner.step limit ⟨.beginValue, st⟩ minus = some ⟨.neg, st⟩ := rfl
    rw [exec_cons_of_step hneg]
    exact exec_formatUint (.inr rfl) _
  · exact exec_formatUint (.inl rfl) _

theorem scanValue_formatInt {b : UInt8} (depth : ℕ) (x : ℤ) (hb : b = comma ∨ b = closeBrace)
    (t : List UInt8) : scanValue depth (formatInt x ++ b :: t) = some (formatInt x, b :: t) := by
  obtain ⟨m, hm, hnum⟩ : ∃ m : Mode, exec (Scanner.step (maxNestingDepth - depth))
      ⟨.beginValue, []⟩ (formatInt x) = some ⟨m, []⟩ ∧ m.number := exec_formatInt x
  have hend : Scanner.scan (maxNestingDepth - depth) ⟨m, []⟩ (b :: t) = some ([], b :: t) := by
    rcases hnum with rfl | rfl <;> rcases hb with rfl | rfl <;> rfl
  rw [scanValue, scan_append hm, hend, Option.map_some, List.append_nil]

end Numbers

section Objects

variable {σ : Type} {m : Member} {ms : List Member} {b : UInt8} {t : List UInt8}

theorem skipSpace_cons (h : isSpace b = false) (s : List UInt8) : skipSpace (b :: s) = b :: s := by
  rw [skipSpace, List.dropWhile_cons, if_neg (by simp [h])]

structure PlainName (key : List UInt8) : Prop where
  body : StringBody key
  value : unquoteFrom 0 key = some key

theorem PlainName.of_safe {key : List UInt8} (h : key.all htmlSafe = true) : PlainName key := by
  induction key with
  | nil => exact ⟨.nil, rfl⟩
  | cons b key ih =>
    simp only [List.all_cons, Bool.and_eq_true] at h
    obtain ⟨hb, hkey⟩ := h
    have hplain := ih hkey
    refine ⟨?_, ?_⟩
    · simp only [htmlSafe, Bool.and_eq_true, decide_eq_true_eq] at hb
      exact .plain hb.1.1.1.1.2 hb.2 hb.1.1.1.1.1.1 hplain.body
    · rw [unquoteFrom, readRune_safe hb]
      change (unquoteFrom 0 key).map ([b] ++ ·) = _
      rw [hplain.value]
      rfl

structure Member.Reads (m : Member) : Prop extends PlainName m.key where
  space : ∀ t, skipSpace (m.value ++ t) = m.value ++ t
  scans : ∀ b t, b = comma ∨ b = closeBrace →
    scanValue 1 (m.value ++ b :: t) = some (m.value, b :: t)

theorem readMember_text (h : m.Reads) (hb : b = comma ∨ b = closeBrace) (t : List UInt8) :
    readMember (m.text ++ b :: t) = some (m, b :: t) := by
  have hkey : scanValue 1 (m.text ++ b :: t) =
      some (quote :: m.key ++ [quote], colon :: (m.value ++ b :: t)) := by
    rw [show m.text ++ b :: t = quote :: m.key ++ quote :: colon :: (m.value ++ b :: t) by
      simp [Member.text]]
    exact scan_literal h.body (colon :: (m.value ++ b :: t))
  have hunquote : unquote (quote :: m.key ++ [quote]) = some m.key := by
    rw [List.cons_append, unquote, if_pos ⟨rfl, by simp⟩, List.dropLast_concat, h.value]
  rw [readMember, hkey, Option.bind_some, hunquote, Option.bind_some, skipSpace_cons rfl]
  dsimp only
  rw [if_pos rfl, h.space, h.scans b t hb, Option.map_some]

theorem Member.skipSpace_text (m : Member) (t : List UInt8) :
    skipSpace (m.text ++ t) = m.text ++ t :=
  skipSpace_cons rfl _

/-- The members of an object are read back. -/
theorem readMembers_tail (hm : m.Reads) (hms : ∀ m ∈ ms, m.Reads) {n : ℕ} (hn : ms.length < n)
    (t : List UInt8) : readMembers n (m.text ++ (tail ms ++ t)) = some (m :: ms, t) := by
  induction ms generalizing m n with
  | nil =>
    obtain ⟨n, rfl⟩ := Nat.exists_eq_add_of_lt hn
    rw [readMembers, m.skipSpace_text]
    change Option.bind (readMember (m.text ++ closeBrace :: t)) _ = _
    rw [readMember_text hm (.inr rfl), Option.bind_some, skipSpace_cons rfl]
    dsimp only
    rw [if_neg (by decide), if_pos rfl]
  | cons m' ms ih =>
    obtain ⟨n, rfl⟩ := Nat.exists_eq_add_of_lt hn
    have htail : tail (m' :: ms) ++ t = comma :: (m'.text ++ (tail ms ++ t)) := by simp [tail]
    rw [readMembers, m.skipSpace_text, htail, readMember_text hm (.inl rfl), Option.bind_some,
      skipSpace_cons rfl]
    dsimp only
    rw [if_pos rfl, ih (hms m' List.mem_cons_self)
      (fun m hm ↦ hms m (List.mem_cons_of_mem m' hm)) (by simp; omega), Option.map_some]

theorem readObject_object (hm : m.Reads) (hms : ∀ m ∈ ms, m.Reads) (t : List UInt8) :
    readObject (object m ms ++ t) = some (m :: ms, t) := by
  have hlen : ms.length < (m.text ++ (tail ms ++ t)).length := by
    have hflat : ms.length ≤ (ms.flatMap fun m ↦ comma :: m.text).length := by
      induction ms with
      | nil => exact Nat.zero_le _
      | cons m' ms ih =>
        have := ih fun m hm ↦ hms m (List.mem_cons_of_mem m' hm)
        simp only [List.flatMap_cons, List.length_append, List.length_cons]
        omega
    simp only [tail, List.length_append, List.length_singleton]
    omega
  rw [object, List.append_assoc, List.cons_append, readObject, if_pos rfl, m.skipSpace_text]
  change (if quote = closeBrace then _ else readMembers _ (m.text ++ (tail ms ++ t))) = _
  rw [if_neg (by decide), readMembers_tail hm hms hlen]

/-- The text of an object is decoded member by member. -/
theorem decode_object (fields : List (Field σ)) (zero : σ) (hm : m.Reads)
    (hms : ∀ m ∈ ms, m.Reads) :
    decode fields zero (object m ms) =
      (decodeMembers fields zero (m :: ms)).map fun v ↦ (v, []) := by
  have hread := readObject_object hm hms []
  rw [List.append_nil] at hread
  have hspace : skipSpace (object m ms) = object m ms := skipSpace_cons rfl _
  rw [decode, hspace, hread]

theorem unmarshal_object (fields : List (Field σ)) (zero : σ) (hm : m.Reads)
    (hms : ∀ m ∈ ms, m.Reads) :
    unmarshal fields zero (object m ms) = decodeMembers fields zero (m :: ms) := by
  rw [unmarshal, decode_object fields zero hm hms]
  cases decodeMembers fields zero (m :: ms) <;> rfl

theorem marshalString_ne_null (s : List UInt8) : marshalString s ≠ nullText := by
  intro h
  exact absurd (List.cons.inj h).1 (by decide)

theorem formatInt_ne_null (x : ℤ) : formatInt x ≠ nullText := by
  have huint (n : ℕ) : formatUint n ≠ nullText := fun h ↦
    absurd (mem_formatUint (h ▸ List.mem_cons_self : (110 : UInt8) ∈ formatUint n)) (by decide)
  unfold formatInt
  split
  · intro h
    exact absurd (List.cons.inj h).1 (by decide)
  · exact huint _

theorem formatInt_natCast (n : ℕ) : formatInt n = formatUint n := by simp [formatInt]

section Members

variable {fields : List (Field σ)} {f : Field σ} {v v' : σ} {name key raw : List UInt8}

theorem decodeMembers_cons (hf : lookup fields m.key = some f) (hv : f.store m.value v = some v')
    (ms : List Member) : decodeMembers fields v (m :: ms) = decodeMembers fields v' ms := by
  rw [decodeMembers, List.foldlM_cons, hf, Option.elim_some, hv]
  rfl

theorem decodeMembers_string {set : List UInt8 → σ → σ}
    (hf : lookup fields key = some ⟨name, storeString set⟩) (s : List UInt8) (ms : List Member) :
    decodeMembers fields v (⟨key, marshalString s⟩ :: ms) =
      decodeMembers fields (set (toValid s) v) ms := by
  refine decodeMembers_cons hf ?_ ms
  dsimp only
  rw [storeString, if_neg (marshalString_ne_null s), unquote_marshalString, Option.map_some]

theorem decodeMembers_uint {set : ℕ → σ → σ} (hf : lookup fields key = some ⟨name, storeUint set⟩)
    {n : ℕ} (h : n < 2 ^ 64) (ms : List Member) :
    decodeMembers fields v (⟨key, formatUint n⟩ :: ms) = decodeMembers fields (set n v) ms := by
  have hne := formatInt_ne_null n
  rw [formatInt_natCast] at hne
  refine decodeMembers_cons hf ?_ ms
  dsimp only
  rw [storeUint, if_neg hne, parseUint_formatUint, Option.bind_some, if_pos h]

theorem decodeMembers_int {set : ℤ → σ → σ} (hf : lookup fields key = some ⟨name, storeInt set⟩)
    {x : ℤ} (h₀ : -2 ^ 63 ≤ x) (h₁ : x < 2 ^ 63) (ms : List Member) :
    decodeMembers fields v (⟨key, formatInt x⟩ :: ms) = decodeMembers fields (set x v) ms := by
  refine decodeMembers_cons hf ?_ ms
  dsimp only
  rw [storeInt, if_neg (formatInt_ne_null x), atoi_formatInt h₀ h₁, Option.map_some]

theorem decodeMembers_raw {set : List UInt8 → σ → σ}
    (hf : lookup fields key = some ⟨name, storeRaw set⟩) (ms : List Member) :
    decodeMembers fields v (⟨key, raw⟩ :: ms) = decodeMembers fields (set raw v) ms :=
  decodeMembers_cons hf rfl ms

end Members

theorem PlainName.string {key : List UInt8} (h : PlainName key) (s : List UInt8) :
    Member.Reads ⟨key, marshalString s⟩ where
  toPlainName := h
  space _ := skipSpace_cons rfl _
  scans _ _ _ := scanValue_marshalString 1 s _

theorem PlainName.int {key : List UInt8} (h : PlainName key) (x : ℤ) :
    Member.Reads ⟨key, formatInt x⟩ where
  toPlainName := h
  space t := by
    have hminus : isSpace minus = false := rfl
    unfold formatInt
    split
    · exact skipSpace_cons hminus _
    · obtain ⟨d, w, hw⟩ := List.exists_cons_of_ne_nil (formatUint_ne_nil x.natAbs)
      have hd := mem_formatUint (hw ▸ List.mem_cons_self : d ∈ formatUint x.natAbs)
      have hspace : isSpace d = false := by
        simp only [isSpace, Bool.or_eq_false_iff, decide_eq_false_iff_not]
        refine ⟨⟨⟨?_, ?_⟩, ?_⟩, ?_⟩ <;> rintro rfl <;> exact absurd hd.1 (by decide)
      rw [hw]
      exact skipSpace_cons hspace _
  scans b t hb := scanValue_formatInt 1 x hb t

theorem PlainName.uint {key : List UInt8} (h : PlainName key) (n : ℕ) :
    Member.Reads ⟨key, formatUint n⟩ :=
  formatInt_natCast n ▸ h.int n

end Objects

section Raw

variable {σ : Type} {fields : List (Field σ)} {zero v : σ} {P : σ → Prop}
  {s raw rest : List UInt8} {ms : List Member}

def IsRaw (raw : List UInt8) : Prop :=
  ∃ s rest, scanValue 1 (skipSpace s) = some (raw, rest)

theorem IsRaw.of_readMember {s : List UInt8} {m : Member} {rest : List UInt8}
    (h : readMember s = some (m, rest)) : IsRaw m.value := by
  obtain ⟨k, -, h⟩ := Option.bind_eq_some_iff.mp h
  obtain ⟨key, -, h⟩ := Option.bind_eq_some_iff.mp h
  split at h
  · cases h
  · split at h
    · obtain ⟨v, hv, heq⟩ := Option.map_eq_some_iff.mp h
      cases heq
      exact ⟨_, _, hv⟩
    · cases h

theorem isRaw_readMembers {n : ℕ} {s rest : List UInt8} {ms : List Member}
    (h : readMembers n s = some (ms, rest)) : ∀ m ∈ ms, IsRaw m.value := by
  induction n generalizing s ms with
  | zero => cases h
  | succ n ih =>
    obtain ⟨m, hm, h⟩ := Option.bind_eq_some_iff.mp h
    have hraw := IsRaw.of_readMember hm
    split at h
    · cases h
    · split at h
      · obtain ⟨r, hr, heq⟩ := Option.map_eq_some_iff.mp h
        cases heq
        simpa only [List.forall_mem_cons] using ⟨hraw, ih hr⟩
      · split at h <;> cases h
        simpa only [List.forall_mem_singleton] using hraw

theorem isRaw_readObject {s rest : List UInt8} {ms : List Member}
    (h : readObject s = some (ms, rest)) : ∀ m ∈ ms, IsRaw m.value := by
  cases s with
  | nil => cases h
  | cons b bs =>
    rw [readObject] at h
    split at h
    · split at h
      · cases h
      · split at h
        · cases h
          simp
        · exact isRaw_readMembers h
    · cases h

theorem decodeMembers_invariant (hms : ∀ m ∈ ms, IsRaw m.value) (hz : P zero)
    (hf : ∀ f ∈ fields, ∀ raw v v', IsRaw raw → P v → f.store raw v = some v' → P v')
    (h : decodeMembers fields zero ms = some v) : P v := by
  induction ms generalizing zero with
  | nil =>
    cases h
    exact hz
  | cons m ms ih =>
    rw [decodeMembers, List.foldlM_cons] at h
    obtain ⟨u, hu, h⟩ := Option.bind_eq_some_iff.mp h
    refine ih (fun m' hm' ↦ hms m' (List.mem_cons_of_mem m hm')) ?_ h
    cases hl : lookup fields m.key with
    | none =>
      rw [hl] at hu
      cases hu
      exact hz
    | some f =>
      rw [hl] at hu
      have hmem : f ∈ fields := by
        rcases Option.or_eq_some_iff.mp hl with hf | ⟨-, hf⟩
        · exact List.mem_of_find?_eq_some hf
        · exact List.mem_of_find?_eq_some hf
      exact hf f hmem m.value zero u (hms m List.mem_cons_self) hz hu

/-- What every field keeps when the text of a value is stored, decoding keeps. -/
theorem decode_invariant (hz : P zero)
    (hf : ∀ f ∈ fields, ∀ raw v v', IsRaw raw → P v → f.store raw v = some v' → P v')
    (h : decode fields zero s = some (v, rest)) : P v := by
  unfold decode at h
  split at h
  · next ms rest' hms =>
    obtain ⟨u, hu, heq⟩ := Option.map_eq_some_iff.mp h
    cases heq
    exact decodeMembers_invariant (isRaw_readObject hms) hz hf hu
  · obtain ⟨r, -, h⟩ := Option.bind_eq_some_iff.mp h
    split at h <;> cases h
    exact hz

theorem IsRaw.exists_cons (h : IsRaw raw) : ∃ b w, raw = b :: w ∧ isSpace b = false := by
  obtain ⟨s, rest, h⟩ := h
  cases hs : skipSpace s with
  | nil =>
    rw [hs] at h
    cases h
  | cons b bs =>
    have hb : isSpace b = false := by
      have := List.head?_dropWhile_not isSpace s
      rw [show s.dropWhile isSpace = b :: bs from hs] at this
      simpa using this
    rw [hs, scanValue, Scanner.scan] at h
    split at h
    · obtain ⟨r, -, heq⟩ := Option.map_eq_some_iff.mp h
      cases heq
      exact ⟨b, _, rfl, hb⟩
    · cases h

theorem IsRaw.scanValue (h : IsRaw raw) : GoJson.scanValue 0 raw = some (raw, []) := by
  obtain ⟨s, rest, h⟩ := h
  exact scan_mono (by decide) (scan_self h)

theorem IsRaw.skipSpace (h : IsRaw raw) : GoJson.skipSpace raw = raw := by
  obtain ⟨b, w, rfl, hb⟩ := h.exists_cons
  exact skipSpace_cons hb w

/-- The text of a value within an object is valid by itself. -/
theorem IsRaw.valid (h : IsRaw raw) : valid raw = true := by
  rw [GoJson.valid, h.skipSpace, h.scanValue]
  rfl

theorem IsRaw.unquote (h : IsRaw raw) (hq : raw.head? = some quote) :
    raw.getLast? = some quote ∧ ∃ r, GoJson.unquote raw = some r := by
  obtain ⟨s, rest, h⟩ := h
  obtain ⟨b, w, hw⟩ : ∃ b w, raw = b :: w := by
    cases raw with
    | nil => cases hq
    | cons b w => exact ⟨b, w, rfl⟩
  have htext := scan_text h
  rw [hw] at hq htext
  obtain rfl : b = quote := Option.some.inj hq
  rw [htext, List.cons_append] at h
  obtain ⟨body, r, hbody, hr⟩ := unquote_scanValue h
  exact ⟨by rw [hbody, List.getLast?_concat], r, hr⟩

end Raw

end Fireworq.GoJson
