import Mathlib.Algebra.GroupWithZero.Nat
import Mathlib.Algebra.Order.Ring.Rat
import Fireworq.GoEncoding
import Fireworq.GoInt
import Fireworq.GoJson
import Fireworq.Repository.Tables

namespace Fireworq.Repository.InMemory

open GoString GoInt GoEncoding GoJson

/-- How `json.Marshal` writes a `float64` other than 0: with the least digits
that tell it from every other one. -/
structure FloatText where
  text : ℚ → List UInt8
  plain : ∀ r, ∀ b ∈ text r, b ≠ comma ∧ b ≠ closeBrace
  injective : Function.Injective text

def members (fmt : FloatText) (q : Queue) : List Member :=
  omitEmpty (bytes "polling_interval") formatUint q.pollingInterval ++
  ⟨bytes "max_workers", formatUint q.maxWorkers⟩ ::
  (omitEmpty (bytes "max_dispatches_per_second") fmt.text q.maxDispatchesPerSecond ++
  omitEmpty (bytes "max_burst_size") formatUint q.maxBurstSize)

def marshal (fmt : FloatText) (q : Queue) : List UInt8 :=
  object ⟨bytes "name", marshalString (bytes q.name)⟩ (members fmt q)

structure Storage where
  m : Table Queue
  revision : ℕ

def Storage.empty : Storage := ⟨∅, 0⟩

def zero : Queue := ⟨"", 0, 0, 0, 0⟩

def updateRevision (s : Storage) : Storage := { s with revision := uint64 (s.revision + 1) }

def add (fmt : FloatText) (s : Storage) (q : Queue) : Storage × Bool :=
  if marshal fmt ((s.m.lookup q.name).getD zero) ≠ marshal fmt q then
    (updateRevision { s with m := s.m.insert q.name q }, true)
  else (s, false)

def findAll (s : Storage) : List Queue :=
  (s.m.entries.map fun e ↦ e.2).insertionSort fun q q' ↦ q.name ≤ q'.name

def findByName (s : Storage) (name : String) : Option Queue := s.m.lookup name

def deleteByName (s : Storage) (name : String) : Storage :=
  updateRevision { s with m := s.m.erase name }

section Marshal

variable {fmt : FloatText} {q q' : Queue}

theorem formatUint_plain (n : ℕ) : ∀ b ∈ formatUint n, b ≠ comma ∧ b ≠ closeBrace := by
  intro b hb
  have h := mem_formatUint hb
  constructor
  · intro hc
    rw [hc] at h
    exact absurd h (by decide)
  · intro hc
    rw [hc] at h
    exact absurd h (by decide)

theorem members_plain : ∀ m ∈ members fmt q, m.Plain := by
  have hkeys : ∀ k ∈ [bytes "polling_interval", bytes "max_workers",
      bytes "max_dispatches_per_second", bytes "max_burst_size"],
      ∀ b ∈ k, b ≠ quote ∧ b ≠ comma ∧ b ≠ closeBrace := by decide +kernel
  intro m hm
  rw [members, List.mem_append, List.mem_cons, List.mem_append] at hm
  rcases hm with hm | hm | hm | hm
  · rw [mem_omitEmpty hm]
    exact ⟨hkeys _ (by simp), formatUint_plain _⟩
  · rw [hm]
    exact ⟨hkeys _ (by simp), formatUint_plain _⟩
  · rw [mem_omitEmpty hm]
    exact ⟨hkeys _ (by simp), fmt.plain _⟩
  · rw [mem_omitEmpty hm]
    exact ⟨hkeys _ (by simp), formatUint_plain _⟩

theorem members_inj (h : members fmt q = members fmt q') (hname : q.name = q'.name) : q = q' := by
  have hburst (q : Queue) : ∀ m ∈ omitEmpty (bytes "max_burst_size") formatUint q.maxBurstSize,
      m.key ≠ bytes "max_dispatches_per_second" := by
    intro m hm
    rw [mem_omitEmpty hm]
    change bytes "max_burst_size" ≠ bytes "max_dispatches_per_second"
    decide +kernel
  have hworkers (q : Queue) : ∀ m ∈ (⟨bytes "max_workers", formatUint q.maxWorkers⟩ : Member) ::
      (omitEmpty (bytes "max_dispatches_per_second") fmt.text q.maxDispatchesPerSecond ++
        omitEmpty (bytes "max_burst_size") formatUint q.maxBurstSize),
      m.key ≠ bytes "polling_interval" := by
    intro m hm
    rw [List.mem_cons, List.mem_append] at hm
    rcases hm with hm | hm | hm
    · rw [hm]
      change bytes "max_workers" ≠ bytes "polling_interval"
      decide +kernel
    · rw [mem_omitEmpty hm]
      change bytes "max_dispatches_per_second" ≠ bytes "polling_interval"
      decide +kernel
    · rw [mem_omitEmpty hm]
      change bytes "max_burst_size" ≠ bytes "polling_interval"
      decide +kernel
  obtain ⟨hpoll, h⟩ := omitEmpty_inj formatUint_injective (hworkers q) (hworkers q') h
  obtain ⟨hmember, h⟩ := List.cons.inj h
  obtain ⟨hrate, h⟩ := omitEmpty_inj fmt.injective (hburst q) (hburst q') h
  obtain ⟨hsize, -⟩ := omitEmpty_inj formatUint_injective (List.forall_mem_nil _)
    (List.forall_mem_nil _) (congrArg (· ++ []) h)
  have hmax : q.maxWorkers = q'.maxWorkers := formatUint_injective (Member.mk.inj hmember).2
  cases q
  cases q'
  exact Queue.mk.injEq .. ▸ ⟨hname, hpoll, hmax, hrate, hsize⟩

/-- Two definitions of one name have the same text only if they are equal. -/
theorem marshal_inj (hname : q.name = q'.name) (h : marshal fmt q = marshal fmt q') : q = q' := by
  rw [marshal, marshal, hname, object, object] at h
  exact members_inj (tail_inj members_plain members_plain (List.append_cancel_left h)) hname

/-- The text of the zero value is that of no definition with a name. -/
theorem marshal_zero (hname : q.name ≠ "") : marshal fmt zero ≠ marshal fmt q := by
  have hbytes : bytes q.name ≠ [] := by
    simpa [bytes] using hname
  obtain ⟨c, rest, hc, hne⟩ := marshalString_head hbytes
  intro h
  simp only [marshal, object, Member.text, hc, List.cons_append, List.cons.injEq, true_and,
    List.append_assoc] at h
  have hvalue := List.append_cancel_left h
  simp only [List.cons.injEq, true_and] at hvalue
  exact hne (List.cons.inj (List.cons.inj hvalue).2).1.symm

end Marshal

section Keyed

def Storage.Keyed (s : Storage) : Prop := ∀ name q, s.m.lookup name = some q → q.name = name

variable {fmt : FloatText} {s : Storage} {q : Queue}

/-- The comparison of the texts is a comparison of the definitions. -/
theorem Storage.Keyed.add_eq (h : s.Keyed) (hname : q.name ≠ "") : add fmt s q =
    if s.m.lookup q.name = some q then (s, false)
    else (updateRevision { s with m := s.m.insert q.name q }, true) := by
  have hiff : marshal fmt ((s.m.lookup q.name).getD zero) = marshal fmt q ↔
      s.m.lookup q.name = some q := by
    cases hd : s.m.lookup q.name with
    | none => simpa using marshal_zero hname
    | some d =>
      rw [Option.getD_some, Option.some_inj]
      exact ⟨marshal_inj (h _ _ hd), congrArg (marshal fmt)⟩
  rw [add]
  split
  · next hne => rw [if_neg (mt hiff.mpr hne)]
  · next heq => rw [if_pos (hiff.mp (not_not.mp heq))]

theorem Storage.Keyed.mem_findAll (h : s.Keyed) :
    q ∈ findAll s ↔ s.m.lookup q.name = some q := by
  rw [findAll, List.mem_insertionSort, List.mem_map]
  constructor
  · rintro ⟨⟨name, d⟩, he, rfl⟩
    have hlookup : s.m.lookup name = some d := AList.mem_lookup_iff.mpr he
    rwa [h name d hlookup]
  · intro hq
    exact ⟨⟨q.name, q⟩, AList.mem_lookup_iff.mp hq, rfl⟩

theorem Storage.Keyed.findAll_names (h : s.Keyed) :
    ((findAll s).map Queue.name).Pairwise (· ≤ ·) ∧ ((findAll s).map Queue.name).Nodup := by
  constructor
  · rw [List.pairwise_map]
    exact List.pairwise_insertionSort _ _
  · have hnames : (s.m.entries.map fun e ↦ e.2).map Queue.name = s.m.entries.map Sigma.fst := by
      rw [List.map_map]
      exact List.map_congr_left fun e he ↦ h e.1 e.2 (AList.mem_lookup_iff.mpr he)
    rw [findAll, ((List.perm_insertionSort _ _).map Queue.name).nodup_iff, hnames]
    exact s.m.nodupKeys

end Keyed

end Fireworq.Repository.InMemory
