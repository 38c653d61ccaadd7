import Mathlib.Data.List.Basic

namespace Fireworq.GoFlag

inductive Kind
  | string
  | bool
  deriving DecidableEq

abbrev FlagSet := List (String × Kind)

def FlagSet.define (flags : FlagSet) (name : String) (kind : Kind) : Option FlagSet :=
  if (flags.lookup name).isSome then none else some (flags ++ [(name, kind)])

inductive Error
  | badSyntax (arg : String)
  | help
  | undefined (name : String)
  | needsArgument (name : String)
  | invalidBool (value name : String)
  deriving DecidableEq

inductive Token
  | other
  | terminator
  | malformed
  | flag (name : String) (value : Option String)
  deriving DecidableEq

def split (cs : List Char) : Token :=
  match cs with
  | [] | '-' :: _ | '=' :: _ => .malformed
  | cs =>
    match cs.dropWhile (· ≠ '=') with
    | [] => .flag (String.ofList cs) none
    | _ :: value => .flag (String.ofList (cs.takeWhile (· ≠ '='))) (some (String.ofList value))

def token (arg : String) : Token :=
  match arg.toList with
  | '-' :: '-' :: [] => .terminator
  | '-' :: '-' :: cs => split cs
  | '-' :: c :: cs => split (c :: cs)
  | _ => .other

/-- `strconv.ParseBool`. -/
def parseBool (s : String) : Option Bool :=
  if s ∈ ["1", "t", "T", "true", "TRUE", "True"] then some true
  else if s ∈ ["0", "f", "F", "false", "FALSE", "False"] then some false
  else none

inductive Value
  | string (s : String)
  | bool (b : Bool)
  deriving DecidableEq

abbrev Given := List (String × Value)

/-- `FlagSet.Parse`: the values the flags are set to, up to the first argument that
is not a flag. -/
def parse (flags : FlagSet) : List String → Except Error Given
  | [] => .ok []
  | arg :: args =>
    match token arg with
    | .other | .terminator => .ok []
    | .malformed => .error (.badSyntax arg)
    | .flag name value =>
      match flags.lookup name with
      | none => .error (if name = "help" ∨ name = "h" then .help else .undefined name)
      | some .bool =>
        match parseBool (value.getD "true") with
        | none => .error (.invalidBool (value.getD "true") name)
        | some b => ((name, .bool b) :: ·) <$> parse flags args
      | some .string =>
        match value, args with
        | some v, args => ((name, .string v) :: ·) <$> parse flags args
        | none, v :: args => ((name, .string v) :: ·) <$> parse flags args
        | none, [] => .error (.needsArgument name)

def Plain (name : String) : Prop :=
  name.toList ≠ [] ∧ name.toList.head? ≠ some '-' ∧ '=' ∉ name.toList

instance (name : String) : Decidable (Plain name) := inferInstanceAs (Decidable (_ ∧ _))

theorem Plain.exists_cons {name : String} (h : Plain name) :
    ∃ c cs, name.toList = c :: cs ∧ c ≠ '-' ∧ '=' ∉ c :: cs := by
  obtain ⟨hne, hdash, heq⟩ := h
  obtain ⟨c, cs, hname⟩ := List.exists_cons_of_ne_nil hne
  rw [hname] at hdash heq
  refine ⟨c, cs, hname, ?_, heq⟩
  rintro rfl
  exact hdash rfl

/-- The arguments that give a value to a flag: with one dash or two, and with the
value in the same argument or in the next one. -/
def render (double joined : Bool) (name value : String) : List String :=
  let dashed := (if double then "--" else "-") ++ name
  if joined then [dashed ++ "=" ++ value] else [dashed, value]

theorem split_eq {c : Char} {cs : List Char} (hdash : c ≠ '-') (heq : c ≠ '=') :
    split (c :: cs) =
      match (c :: cs).dropWhile (· ≠ '=') with
      | [] => .flag (String.ofList (c :: cs)) none
      | _ :: value => .flag (String.ofList ((c :: cs).takeWhile (· ≠ '=')))
          (some (String.ofList value)) := by
  unfold split
  split
  · rename_i h; cases h
  · rename_i h; cases h; exact absurd rfl hdash
  · rename_i h; cases h; exact absurd rfl heq
  · rfl

theorem split_append {c : Char} {cs : List Char} (hdash : c ≠ '-') (heq : '=' ∉ c :: cs)
    (rest : List Char) :
    split (c :: cs ++ rest) =
      match rest.dropWhile (· ≠ '=') with
      | [] => .flag (String.ofList (c :: cs ++ rest)) none
      | _ :: value => .flag (String.ofList (c :: cs ++ rest.takeWhile (· ≠ '=')))
          (some (String.ofList value)) := by
  have hall : ∀ x ∈ c :: cs, (x ≠ '=' : Bool) = true := by
    intro x hx
    simp only [ne_eq, decide_not, Bool.not_eq_eq_eq_not, Bool.not_true, decide_eq_false_iff_not]
    rintro rfl
    exact heq hx
  rw [List.cons_append, split_eq hdash (fun h ↦ heq (h ▸ List.mem_cons_self)),
    ← List.cons_append, List.dropWhile_append_of_pos hall, List.takeWhile_append_of_pos hall]

theorem token_dashes (double : Bool) {c : Char} (cs : List Char) (hdash : c ≠ '-')
    {arg : String} (harg : arg.toList = (if double then "--" else "-").toList ++ c :: cs) :
    token arg = split (c :: cs) := by
  unfold token
  rw [harg]
  cases double with
  | true => rfl
  | false =>
    split
    · rename_i h; cases h; exact absurd rfl hdash
    · rename_i h; cases h; exact absurd rfl hdash
    · rename_i h; cases h; rfl
    · rename_i h; exact absurd rfl (h c cs)

theorem token_joined (double : Bool) {name : String} (h : Plain name) (value : String) :
    token ((if double then "--" else "-") ++ name ++ "=" ++ value) =
      .flag name (some value) := by
  obtain ⟨c, cs, hname, hdash, heq⟩ := h.exists_cons
  rw [token_dashes double (cs ++ '=' :: value.toList) hdash (by simp [hname]),
    ← List.cons_append, split_append hdash heq]
  simp [← hname]

theorem token_separate (double : Bool) {name : String} (h : Plain name) :
    token ((if double then "--" else "-") ++ name) = .flag name none := by
  obtain ⟨c, cs, hname, hdash, heq⟩ := h.exists_cons
  have := split_append hdash heq []
  rw [List.append_nil] at this
  rw [token_dashes double cs hdash (by simp [hname]), this]
  simp [← hname]

theorem parse_render {flags : FlagSet} {name : String} (hname : Plain name)
    (hflag : flags.lookup name = some .string) (double joined : Bool) (value : String)
    (args : List String) :
    parse flags (render double joined name value ++ args) =
      ((name, .string value) :: ·) <$> parse flags args := by
  cases joined with
  | true => simp [render, parse, token_joined double hname, hflag]
  | false => simp [render, parse, token_separate double hname, hflag]

/-- A command line that gives values to flags is parsed back to these values. -/
theorem parse_renders {α : Type} (flags : FlagSet) (form : α → Bool × Bool)
    (name value : α → String) (xs : List α)
    (hname : ∀ x ∈ xs, Plain (name x) ∧ flags.lookup (name x) = some .string) :
    parse flags (xs.flatMap fun x ↦ render (form x).1 (form x).2 (name x) (value x)) =
      .ok (xs.map fun x ↦ (name x, .string (value x))) := by
  induction xs with
  | nil => rfl
  | cons x xs ih =>
    obtain ⟨hplain, hflag⟩ := hname x List.mem_cons_self
    rw [List.flatMap_cons, parse_render hplain hflag,
      ih fun y hy ↦ hname y (List.mem_cons_of_mem x hy)]
    rfl

end Fireworq.GoFlag
