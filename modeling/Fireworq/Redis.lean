import Mathlib.Algebra.BigOperators.Group.List.Basic
import Mathlib.Algebra.Ring.Int.Defs
import Mathlib.Data.Int.Notation
import Mathlib.Data.List.Basic
import Mathlib.Data.Set.Defs
import Mathlib.Logic.Function.Basic

namespace Fireworq.Redis

open Function

abbrev Key := List UInt8

inductive Value
  | hash (h : String → ℤ)
  | zset (z : List (List UInt8 × ℤ))

structure Entry where
  value : Value
  expires : Option ℕ

abbrev Store := Key → Option Entry

inductive Command
  | hincrBy (key : Key) (field : String) (n : ℤ)
  | expire (key : Key) (seconds : ℕ)
  | zadd (key : Key) (score : ℤ) (member : List UInt8)
  deriving DecidableEq

def Command.key : Command → Key
  | .hincrBy key _ _ | .expire key _ | .zadd key _ _ => key

def Store.get (S : Store) (clock : ℕ) (key : Key) : Option Entry :=
  (S key).filter fun e ↦ e.expires.all fun t ↦ clock < t

/-- The entry that a command leaves under its key. A command on a value of the
wrong type has no effect. -/
def Command.write (clock : ℕ) : Command → Option Entry → Option Entry
  | .hincrBy _ field n, none => some ⟨.hash (update (fun _ ↦ 0) field n), none⟩
  | .hincrBy _ field n, some ⟨.hash h, expires⟩ =>
    some ⟨.hash (update h field (h field + n)), expires⟩
  | .hincrBy _ _ _, some e => some e
  | .expire _ seconds, e => e.map fun e ↦ { e with expires := some (clock + seconds) }
  | .zadd _ score member, none => some ⟨.zset [(member, score)], none⟩
  | .zadd _ score member, some ⟨.zset z, expires⟩ =>
    some ⟨.zset ((member, score) :: z.filter fun x ↦ x.1 ≠ member), expires⟩
  | .zadd _ _ _, some e => some e

def Store.apply (clock : ℕ) (S : Store) (c : Command) : Store :=
  update S c.key (c.write clock (S.get clock c.key))

def Store.exec (clock : ℕ) (S : Store) (cs : List Command) : Store := cs.foldl (.apply clock) S

def Agree (K : Set Key) (S S' : Store) : Prop := ∀ k ∈ K, S k = S' k

variable {K : Set Key} {S S' : Store} {clock : ℕ} {c : Command} {cs : List Command}

theorem Agree.trans {S'' : Store} (h : Agree K S S') (h' : Agree K S' S'') : Agree K S S'' :=
  fun k hk ↦ (h k hk).trans (h' k hk)

/-- A command reads and writes nothing but its key. -/
theorem Agree.apply (h : Agree K S S') : Agree K (S.apply clock c) (S'.apply clock c) := by
  intro k hk
  by_cases heq : k = c.key
  · subst heq
    simp only [Store.apply, update_self, Store.get, h _ hk]
  · simp only [Store.apply, update_of_ne heq, h k hk]

theorem agree_apply (h : c.key ∉ K) : Agree K (S.apply clock c) S := by
  intro k hk
  apply update_of_ne
  intro heq
  exact h (heq ▸ hk)

theorem Agree.exec (h : Agree K S S') : Agree K (S.exec clock cs) (S'.exec clock cs) := by
  induction cs generalizing S S' with
  | nil => exact h
  | cons c cs ih => exact ih h.apply

theorem agree_exec (h : ∀ c ∈ cs, c.key ∉ K) : Agree K (S.exec clock cs) S := by
  induction cs generalizing S with
  | nil =>
    intro k hk
    rfl
  | cons c cs ih =>
    have hrest := ih (S := S.apply clock c) fun d hd ↦ h d (List.mem_cons_of_mem c hd)
    exact hrest.trans (agree_apply (h c List.mem_cons_self))

section Counting

variable {key : Key}

def Store.run (log : List (ℕ × Command)) : Store :=
  log.foldl (fun S x ↦ S.apply x.1 x.2) fun _ ↦ none

def Store.field (S : Store) (clock : ℕ) (key : Key) (field : String) : ℤ :=
  match S.get clock key with
  | some ⟨.hash h, _⟩ => h field
  | _ => 0

def Command.adds (key : Key) (field : String) : Command → ℤ
  | .hincrBy k f n => if k = key ∧ f = field then n else 0
  | _ => 0

def Store.Live (S : Store) (clock : ℕ) (key : Key) : Prop :=
  ∀ e ∈ S key, ∀ t ∈ e.expires, clock < t

instance : Decidable (S.Live clock key) := inferInstanceAs (Decidable (∀ _ ∈ _, _))

/-- No command of the log finds that its key, if it is this one, has expired. -/
def Store.Unexpired (key : Key) : Store → List (ℕ × Command) → Prop
  | _, [] => True
  | S, x :: log =>
    (x.2.key = key → S.Live x.1 key) ∧ Unexpired key (S.apply x.1 x.2) log

instance Store.decidableUnexpired (key : Key) :
    (S : Store) → (log : List (ℕ × Command)) → Decidable (S.Unexpired key log)
  | _, [] => .isTrue trivial
  | S, x :: log =>
    have := decidableUnexpired key (S.apply x.1 x.2) log
    inferInstanceAs (Decidable (_ ∧ _))

def Command.isZAdd : Command → Bool
  | .zadd _ _ _ => true
  | _ => false

inductive Holds (total : String → ℤ) : Option Entry → Prop
  | missing : (∀ f, total f = 0) → Holds total none
  | hash {h : String → ℤ} {expires : Option ℕ} : (∀ f, h f = total f) →
      Holds total (some ⟨.hash h, expires⟩)

variable {total : String → ℤ} {log : List (ℕ × Command)}

theorem Store.Live.get (h : S.Live clock key) : S.get clock key = S key := by
  unfold Store.get
  cases hS : S key with
  | none => rfl
  | some e =>
    have hlive := h e hS
    rw [Option.filter_some, if_pos]
    cases hexpires : e.expires with
    | none => rfl
    | some t => simpa using hlive t hexpires

theorem Holds.field (h : Holds total (S key)) (hlive : S.Live clock key) (f : String) :
    S.field clock key f = total f := by
  rw [Store.field, hlive.get]
  generalize S key = x at h
  cases h with
  | missing h => exact (h f).symm
  | hash h => exact h f

theorem Holds.apply (h : Holds total (S key))
    (hc : c.key = key → S.Live clock key ∧ c.isZAdd = false) :
    Holds (fun f ↦ total f + c.adds key f) (S.apply clock c key) := by
  by_cases hkey : key = c.key
  · subst hkey
    obtain ⟨hlive, hzadd⟩ := hc rfl
    rw [Store.apply, update_self, hlive.get]
    generalize S c.key = x at h
    cases c with
    | hincrBy k f n =>
      cases h with
      | missing h =>
        refine .hash fun g ↦ ?_
        by_cases hg : g = f
        · simp [hg, h, Command.adds, Command.key]
        · simp [hg, Ne.symm hg, h, Command.adds]
      | hash h =>
        refine .hash fun g ↦ ?_
        by_cases hg : g = f
        · simp [hg, h, Command.adds, Command.key]
        · simp [hg, Ne.symm hg, h, Command.adds]
    | expire k seconds =>
      cases h with
      | missing h => exact .missing fun f ↦ by simp [h, Command.adds]
      | hash h => exact .hash fun g ↦ by simp [h, Command.adds]
    | zadd k score member => cases hzadd
  · rw [Store.apply, update_of_ne hkey]
    have hadds : ∀ f, c.adds key f = 0 := by
      intro f
      cases c with
      | hincrBy k g n => simp [Command.adds, show k ≠ key from Ne.symm hkey]
      | _ => rfl
    simpa only [hadds, add_zero] using h

theorem Holds.run (h : Holds total (S key)) (hlive : S.Unexpired key log)
    (hzadd : ∀ x ∈ log, x.2.key = key → x.2.isZAdd = false) :
    Holds (fun f ↦ total f + (log.map fun x ↦ x.2.adds key f).sum)
      (log.foldl (fun S x ↦ S.apply x.1 x.2) S key) := by
  induction log generalizing S total with
  | nil => simpa using h
  | cons x log ih =>
    obtain ⟨hx, hrest⟩ := hlive
    obtain ⟨hzx, hzrest⟩ := List.forall_mem_cons.mp hzadd
    have hstep := ih (h.apply fun hkey ↦ ⟨hx hkey, hzx hkey⟩) hrest hzrest
    simpa only [List.foldl_cons, List.map_cons, List.sum_cons, add_assoc] using hstep

/-- As long as its key does not expire, a field of a hash is the sum of its increments. -/
theorem field_run (hlog : Store.Unexpired key (fun _ ↦ none) log)
    (hzadd : ∀ x ∈ log, x.2.key = key → x.2.isZAdd = false)
    (hlive : (Store.run log).Live clock key) (f : String) :
    (Store.run log).field clock key f = (log.map fun x ↦ x.2.adds key f).sum := by
  have hmissing : Holds (fun _ ↦ 0) ((fun _ ↦ none : Store) key) := .missing fun _ ↦ rfl
  exact ((hmissing.run hlog hzadd).field hlive f).trans (zero_add _)

end Counting

end Fireworq.Redis
