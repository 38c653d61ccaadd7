import Mathlib.Data.List.Nodup
import Mathlib.Data.List.Count

namespace Fireworq.Relational

variable {ρ κ : Type}

structure Table (key : ρ → κ) where
  rows : List ρ
  nodup : (rows.map key).Nodup

namespace Table

variable {key : ρ → κ}

def empty (key : ρ → κ) : Table key := ⟨[], List.nodup_nil⟩

def update (T : Table key) (f : ρ → ρ) (hf : ∀ r, key (f r) = key r) : Table key where
  rows := T.rows.map f
  nodup := by
    have he : key ∘ f = key := funext hf
    simpa only [List.map_map, he] using T.nodup

theorem mem_update {T : Table key} {f : ρ → ρ} {hf : ∀ r, key (f r) = key r} {r : ρ} :
    r ∈ (T.update f hf).rows ↔ ∃ q ∈ T.rows, f q = r := List.mem_map

theorem eq_of_key {T : Table key} {q r : ρ} (hq : q ∈ T.rows) (hr : r ∈ T.rows)
    (h : key q = key r) : q = r := List.inj_on_of_nodup_map T.nodup hq hr h

theorem eq_of_map_key {T : Table key} {l₁ l₂ : List ρ} (h₁ : l₁ ⊆ T.rows) (h₂ : l₂ ⊆ T.rows)
    (h : l₁.map key = l₂.map key) : l₁ = l₂ := by
  induction l₁ generalizing l₂ with
  | nil => exact (List.map_eq_nil_iff.mp h.symm).symm
  | cons q l₁ ih =>
    obtain ⟨r, l₂, rfl, hk, ht⟩ := List.map_eq_cons_iff.mp h.symm
    rw [List.cons_subset] at h₁ h₂
    rw [eq_of_key h₂.1 h₁.1 hk, ih h₁.2 h₂.2 ht.symm]

variable [DecidableEq κ]

def find (T : Table key) (k : κ) : Option ρ := T.rows.find? fun r ↦ key r = k

theorem find_eq_some_iff {T : Table key} {k : κ} {r : ρ} :
    T.find k = some r ↔ r ∈ T.rows ∧ key r = k := by
  have hk {j : κ} {q : ρ} (h : T.find j = some q) : key q = j := by simpa using List.find?_some h
  refine ⟨fun h ↦ ⟨List.mem_of_find?_eq_some h, hk h⟩, ?_⟩
  rintro ⟨hr, rfl⟩
  cases h : T.find (key r) with
  | none => simpa using List.find?_eq_none.mp h r hr
  | some q => rw [eq_of_key (List.mem_of_find?_eq_some h) hr (hk h)]

theorem find_eq_none_iff {T : Table key} {k : κ} :
    T.find k = none ↔ ∀ r ∈ T.rows, key r ≠ k := by
  simp [find, List.find?_eq_none]

theorem find_key {T : Table key} {k : κ} {r : ρ} (h : T.find k = some r) : key r = k :=
  (find_eq_some_iff.mp h).2

theorem find_of_mem {T : Table key} {r : ρ} (h : r ∈ T.rows) : T.find (key r) = some r :=
  find_eq_some_iff.mpr ⟨h, rfl⟩

theorem filterMap_find {T : Table key} {out : List ρ} (h : ∀ r ∈ out, r ∈ T.rows) :
    (out.map key).filterMap T.find = out := by
  rw [List.filterMap_map]
  refine (List.filterMap_congr fun r hr ↦ ?_).trans List.filterMap_some
  exact find_of_mem (h r hr)

theorem countP_key (T : Table key) (k : κ) :
    T.rows.countP (fun r ↦ key r = k) = if (T.find k).isSome then 1 else 0 := by
  have hc : T.rows.countP (fun r ↦ key r = k) = (T.rows.map key).count k := by
    rw [List.count, List.countP_map]
    congr 1
  rw [hc, List.Nodup.count T.nodup]
  cases h : T.find k with
  | none =>
    have hk : k ∉ T.rows.map key := by
      rw [List.mem_map]
      rintro ⟨r, hr, rfl⟩
      exact find_eq_none_iff.mp h r hr rfl
    simp [hk]
  | some r =>
    obtain ⟨hr, rfl⟩ := find_eq_some_iff.mp h
    simp [List.mem_map_of_mem hr]

def insert (T : Table key) (r : ρ) (h : T.find (key r) = none) : Table key where
  rows := T.rows ++ [r]
  nodup := by
    rw [List.map_append, List.nodup_append]
    refine ⟨T.nodup, by simp, ?_⟩
    intro k hk k' hk' he
    obtain ⟨q, hq, rfl⟩ := List.mem_map.mp hk
    simp only [List.map_cons, List.map_nil, List.mem_singleton] at hk'
    exact find_eq_none_iff.mp h q hq (he.trans hk')

theorem find_insert {T : Table key} {r : ρ} (h : T.find (key r) = none) (k : κ) :
    (T.insert r h).find k = if key r = k then some r else T.find k := by
  by_cases hk : key r = k
  · rw [if_pos hk, find_eq_some_iff]
    exact ⟨by simp [insert], hk⟩
  · simp only [find, insert, List.find?_append, if_neg hk]
    cases T.rows.find? fun r ↦ key r = k <;> simp [hk]

theorem find_update {T : Table key} {f : ρ → ρ} {hf : ∀ r, key (f r) = key r} (k : κ) :
    (T.update f hf).find k = (T.find k).map f := by
  simp only [find, update, List.find?_map]
  congr 2
  funext r
  simp [hf]

def delete (T : Table key) (k : κ) : Table key where
  rows := T.rows.filter fun r ↦ key r ≠ k
  nodup := T.nodup.sublist (List.filter_sublist.map key)

theorem mem_delete {T : Table key} {k : κ} {r : ρ} :
    r ∈ (T.delete k).rows ↔ r ∈ T.rows ∧ key r ≠ k := by
  simp [delete]

theorem find_delete {T : Table key} (k j : κ) :
    (T.delete k).find j = if j = k then none else T.find j := by
  by_cases hj : j = k
  · rw [if_pos hj, find_eq_none_iff]
    intro r hr
    rw [hj]
    exact (mem_delete.mp hr).2
  · rw [if_neg hj]
    cases h : T.find j with
    | none =>
      rw [find_eq_none_iff] at h ⊢
      exact fun r hr ↦ h r (mem_delete.mp hr).1
    | some r =>
      rw [find_eq_some_iff] at h ⊢
      exact ⟨mem_delete.mpr ⟨h.1, by rw [h.2]; exact hj⟩, h.2⟩

end Table

/-- A table with an `AUTO_INCREMENT` key: the counter is above every key. -/
structure AutoTable (key : ρ → ℕ) extends Table key where
  next : ℕ
  fresh : ∀ r ∈ rows, key r < next

namespace AutoTable

variable {key : ρ → ℕ}

def empty (key : ρ → ℕ) : AutoTable key where
  toTable := .empty key
  next := 1
  fresh := by simp [Table.empty]

theorem find_eq_none {T : AutoTable key} {k : ℕ} (h : T.next ≤ k) : T.find k = none := by
  rw [Table.find_eq_none_iff]
  intro r hr he
  have := T.fresh r hr
  omega

theorem lt_next {T : AutoTable key} {k : ℕ} {r : ρ} (h : T.find k = some r) : k < T.next := by
  obtain ⟨hr, rfl⟩ := Table.find_eq_some_iff.mp h
  exact T.fresh r hr

/-- `INSERT` of a row with a key that the counter has not reached. The counter
moves past it. -/
def insert (T : AutoTable key) (r : ρ) : AutoTable key :=
  if h : T.next ≤ key r then
    { toTable := T.toTable.insert r (find_eq_none h)
      next := key r + 1
      fresh := by
        intro q hq
        rcases List.mem_append.mp hq with hq | hq
        · have := T.fresh q hq
          omega
        · rw [List.mem_singleton.mp hq]
          omega }
  else T

theorem find_insert {T : AutoTable key} {r : ρ} (h : key r = T.next) (k : ℕ) :
    (T.insert r).find k = if k = T.next then some r else T.find k := by
  have hn : T.next ≤ key r := Nat.le_of_eq h.symm
  unfold insert
  rw [dif_pos hn]
  refine (Table.find_insert (find_eq_none hn) k).trans ?_
  simp only [h, eq_comm]

theorem mem_insert {T : AutoTable key} {q r : ρ} (h : q ∈ (T.insert r).rows) :
    q ∈ T.rows ∨ q = r := by
  unfold insert at h
  split at h
  · exact (List.mem_append.mp h).imp_right List.mem_singleton.mp
  · exact .inl h

theorem rows_insert {T : AutoTable key} {r : ρ} (h : key r = T.next) :
    (T.insert r).rows = T.rows ++ [r] := by
  rw [insert, dif_pos (Nat.le_of_eq h.symm)]
  rfl

theorem next_insert {T : AutoTable key} {r : ρ} (h : key r = T.next) :
    (T.insert r).next = T.next + 1 := by
  rw [insert, dif_pos (Nat.le_of_eq h.symm)]
  exact congrArg (· + 1) h

def update (T : AutoTable key) (f : ρ → ρ) (hf : ∀ r, key (f r) = key r) : AutoTable key where
  toTable := T.toTable.update f hf
  next := T.next
  fresh := by
    intro r hr
    obtain ⟨q, hq, rfl⟩ := Table.mem_update.mp hr
    rw [hf]
    exact T.fresh q hq

theorem find_update {T : AutoTable key} {f : ρ → ρ} {hf : ∀ r, key (f r) = key r} (k : ℕ) :
    (T.update f hf).find k = (T.find k).map f := by
  rw [update, Table.find_update]

def delete (T : AutoTable key) (k : ℕ) : AutoTable key where
  toTable := T.toTable.delete k
  next := T.next
  fresh := fun r hr ↦ T.fresh r (Table.mem_delete.mp hr).1

theorem find_delete {T : AutoTable key} (k j : ℕ) :
    (T.delete k).find j = if j = k then none else T.find j := Table.find_delete k j

end AutoTable

section Answers

variable (p : ρ → Prop) [DecidablePred p]

def Answer (rows out : List ρ) : Prop := out.Perm (rows.filter p)

instance [DecidableEq ρ] (rows out : List ρ) : Decidable (Answer p rows out) :=
  inferInstanceAs (Decidable (out.Perm _))

theorem Answer.mem {rows out : List ρ} (h : Answer p rows out) {r : ρ} :
    r ∈ out ↔ r ∈ rows ∧ p r := by
  rw [h.mem_iff]
  simp

/-- A possible answer to `SELECT ... WHERE p ORDER BY le LIMIT n`. Which of
several rows of equal rank are returned, and in which order, is left open. -/
def TopAnswer (le : ρ → ρ → Prop) (n : ℕ) (rows out : List ρ) : Prop :=
  out.Nodup ∧ (∀ r ∈ out, r ∈ rows ∧ p r) ∧ out.length = min n (rows.countP p) ∧
    out.Pairwise le ∧ ∀ r ∈ out, ∀ q ∈ rows, p q → q ∉ out → le r q

instance [DecidableEq ρ] (le : ρ → ρ → Prop) [DecidableRel le] (n : ℕ) (rows out : List ρ) :
    Decidable (TopAnswer p le n rows out) :=
  inferInstanceAs (Decidable (_ ∧ _ ∧ _ ∧ _ ∧ _))

variable {p}

theorem TopAnswer.length_le {le : ρ → ρ → Prop} {n : ℕ} {rows out : List ρ}
    (h : TopAnswer p le n rows out) : out.length ≤ n := by
  rw [h.2.2.1]
  exact Nat.min_le_left _ _

/-- An answer shorter than its limit has every row that satisfies the condition. -/
theorem TopAnswer.complete {le : ρ → ρ → Prop} {n : ℕ} {rows out : List ρ}
    (h : TopAnswer p le n rows out) (hlt : out.length < n) {r : ρ} (hr : r ∈ rows) (hp : p r) :
    r ∈ out := by
  have hlen : out.length = (rows.filter p).length := by
    have := h.2.2.1
    rw [← List.countP_eq_length_filter]
    omega
  have hsub : out ⊆ rows.filter p := fun q hq ↦ by simpa using h.2.1 q hq
  have hperm := (List.subperm_of_subset h.1 hsub).perm_of_length_le (Nat.le_of_eq hlen.symm)
  exact hperm.mem_iff.mpr (by simpa using ⟨hr, hp⟩)

theorem exists_sorted {le : ρ → ρ → Prop} [DecidableRel le]
    (htrans : ∀ a b c, le a b → le b c → le a c) (htotal : ∀ a b, le a b ∨ le b a) (rows : List ρ) :
    ∃ sorted : List ρ, sorted.Perm rows ∧ sorted.Pairwise le := by
  refine ⟨rows.mergeSort fun a b ↦ decide (le a b), List.mergeSort_perm _ _, ?_⟩
  have h : (rows.mergeSort fun a b ↦ decide (le a b)).Pairwise fun a b ↦ decide (le a b) = true :=
    List.pairwise_mergeSort (fun a b c ↦ by simpa using htrans a b c)
      (fun a b ↦ by simpa using htotal a b) rows
  simpa using h

/-- Sorting answers a `SELECT` with an order and a limit. -/
theorem exists_topAnswer (p : ρ → Prop) [DecidablePred p] {le : ρ → ρ → Prop} [DecidableRel le]
    (htrans : ∀ a b c, le a b → le b c → le a c) (htotal : ∀ a b, le a b ∨ le b a) (n : ℕ)
    {rows : List ρ} (hn : rows.Nodup) : ∃ out, TopAnswer p le n rows out := by
  obtain ⟨sorted, hperm, hle⟩ := exists_sorted htrans htotal (rows.filter p)
  have hmem {r : ρ} : r ∈ sorted ↔ r ∈ rows ∧ p r := by
    rw [hperm.mem_iff]
    simp
  refine ⟨sorted.take n, ?_, fun r hr ↦ hmem.mp (List.mem_of_mem_take hr), ?_, ?_, ?_⟩
  · exact (hperm.nodup_iff.mpr (hn.filter _)).sublist (List.take_sublist n sorted)
  · rw [List.length_take, hperm.length_eq, List.countP_eq_length_filter]
  · exact hle.sublist (List.take_sublist n sorted)
  · intro r hr q hq hp hnot
    rw [← List.take_append_drop n sorted, List.pairwise_append] at hle
    refine hle.2.2 r hr q ?_
    have hq' := hmem.mpr ⟨hq, hp⟩
    rw [← List.take_append_drop n sorted, List.mem_append] at hq'
    exact hq'.resolve_left hnot

end Answers

end Fireworq.Relational
