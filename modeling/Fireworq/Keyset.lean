import Mathlib.Data.List.Sort

namespace Fireworq.Keyset

variable {α κ : Type} [LinearOrder κ] (key : α → κ) (size : ℕ)

def selection (pos : Option α) (rows : List α) : List α :=
  (rows.filter fun a ↦ pos.all fun b ↦ key a ≤ key b).insertionSort fun a b ↦ key b ≤ key a

def page (pos : Option α) (rows : List α) : List α := (selection key pos rows).take size

def next (pos : Option α) (rows : List α) : Option α := (selection key pos rows)[size]?

/-- The requests from a position on, up to the one without a next position,
return these elements. The list may change between them: `rows m` is what the
request `m` reads. -/
inductive Reads (rows : ℕ → List α) : ℕ → Option α → ℕ → List α → Prop
  | last {m : ℕ} {pos : Option α} : next key size pos (rows m) = none →
      Reads rows m pos m (page key size pos (rows m))
  | more {m last : ℕ} {pos : Option α} {b : α} {out : List α} :
      next key size pos (rows m) = some b → Reads rows (m + 1) (some b) last out →
      Reads rows m pos last (page key size pos (rows m) ++ out)

variable {key size} {rows : ℕ → List α} {l : List α} {pos : Option α} {a b : α} {m last : ℕ}
  {out : List α}

theorem mem_selection :
    a ∈ selection key pos l ↔ a ∈ l ∧ ∀ b ∈ pos, key a ≤ key b := by
  simp [selection, Option.all_eq_true]

theorem selection_strict (pos : Option α) (h : (l.map key).Nodup) :
    (selection key pos l).Pairwise fun a b ↦ key b < key a := by
  have hnd : ((selection key pos l).map key).Nodup := by
    refine ((List.perm_insertionSort _ _).map key).nodup_iff.mpr ?_
    exact h.sublist (List.filter_sublist.map key)
  have hle : (selection key pos l).Pairwise fun a b ↦ key b ≤ key a :=
    List.pairwise_insertionSort _ _
  rw [List.nodup_iff_pairwise_ne, List.pairwise_map] at hnd
  exact (hle.and hnd).imp fun h ↦ lt_of_le_of_ne h.1 (Ne.symm h.2)

theorem selection_eq_append (h : next key size pos l = some b) :
    ∃ rest, selection key pos l = page key size pos l ++ b :: rest := by
  obtain ⟨hlt, rfl⟩ := List.getElem?_eq_some_iff.mp h
  refine ⟨(selection key pos l).drop (size + 1), ?_⟩
  rw [page, ← List.drop_eq_getElem_cons hlt, List.take_append_drop]

theorem page_eq (h : next key size pos l = none) : page key size pos l = selection key pos l :=
  List.take_of_length_le (List.getElem?_eq_none_iff.mp h)

theorem Reads.le (h : Reads key size rows m pos last out) : m ≤ last := by
  induction h with
  | last => exact Nat.le_refl _
  | more _ _ ih => exact Nat.le_of_succ_le ih

theorem Reads.bounded (h : Reads key size rows m pos last out) (ha : a ∈ out) :
    ∀ b ∈ pos, key a ≤ key b := by
  induction h with
  | last => exact (mem_selection.mp (List.mem_of_mem_take ha)).2
  | @more m last pos b out hn _ ih =>
    rcases List.mem_append.mp ha with ha | ha
    · exact (mem_selection.mp (List.mem_of_mem_take ha)).2
    · intro c hc
      obtain ⟨rest, heq⟩ := selection_eq_append hn
      have hb : b ∈ selection key pos (rows m) := by simp [heq]
      exact le_trans (ih ha b rfl) ((mem_selection.mp hb).2 c hc)

/-- The keys descend over all pages. -/
theorem Reads.descending (hkeys : ∀ n, ((rows n).map key).Nodup)
    (h : Reads key size rows m pos last out) : out.Pairwise fun a b ↦ key b < key a := by
  induction h with
  | last => exact (selection_strict _ (hkeys _)).sublist (List.take_sublist _ _)
  | @more m last pos b out hn hrest ih =>
    have hstrict := selection_strict pos (hkeys m)
    obtain ⟨rest, heq⟩ := selection_eq_append hn
    rw [heq, List.pairwise_append] at hstrict
    refine List.pairwise_append.mpr ⟨hstrict.1, ih, fun a ha c hc ↦ ?_⟩
    exact lt_of_le_of_lt (hrest.bounded hc b rfl) (hstrict.2.2 a ha b List.mem_cons_self)

theorem Reads.mem_rows (h : Reads key size rows m pos last out) (ha : a ∈ out) :
    ∃ n ≤ last, a ∈ rows n := by
  induction h with
  | @last m => exact ⟨m, Nat.le_refl m, (mem_selection.mp (List.mem_of_mem_take ha)).1⟩
  | @more m last pos b out hn hrest ih =>
    rcases List.mem_append.mp ha with ha | ha
    · exact ⟨m, Nat.le_of_succ_le hrest.le, (mem_selection.mp (List.mem_of_mem_take ha)).1⟩
    · exact ih ha

/-- What is there at every request is read. -/
theorem Reads.complete (h : Reads key size rows m pos last out)
    (ha : ∀ n, m ≤ n → n ≤ last → a ∈ rows n) (hpos : ∀ b ∈ pos, key a ≤ key b) : a ∈ out := by
  induction h with
  | @last m pos hn =>
    rw [page_eq hn]
    exact mem_selection.mpr ⟨ha m (Nat.le_refl m) (Nat.le_refl m), hpos⟩
  | @more m last pos b out hn hrest ih =>
    have hle := hrest.le
    have hsel : a ∈ selection key pos (rows m) :=
      mem_selection.mpr ⟨ha m (Nat.le_refl m) (Nat.le_of_succ_le hle), hpos⟩
    have hdesc : (selection key pos (rows m)).Pairwise fun a b ↦ key b ≤ key a :=
      List.pairwise_insertionSort _ _
    obtain ⟨rest, heq⟩ := selection_eq_append hn
    rw [heq, List.pairwise_append] at hdesc
    rw [heq, List.mem_append] at hsel
    rcases hsel with hsel | hsel
    · exact List.mem_append_left _ hsel
    · refine List.mem_append_right _ (ih (fun n h₁ h₂ ↦ ha n (Nat.le_of_succ_le h₁) h₂) ?_)
      intro c hc
      cases hc
      rcases List.mem_cons.mp hsel with rfl | hmem
      · exact le_refl _
      · exact (List.pairwise_cons.mp hdesc.2.1).1 a hmem

theorem selection_shrinks (hsize : 0 < size) (hkeys : (l.map key).Nodup)
    (h : next key size pos l = some b) :
    (selection key (some b) l).length < (selection key pos l).length := by
  obtain ⟨rest, heq⟩ := selection_eq_append h
  have hlen : (page key size pos l).length = size := by
    rw [page, List.length_take]
    exact Nat.min_eq_left (Nat.le_of_lt (List.getElem?_eq_some_iff.mp h).1)
  have hstrict := selection_strict pos hkeys
  rw [heq, List.pairwise_append] at hstrict
  have hb : b ∈ selection key pos l := by simp [heq]
  have hsub : selection key (some b) l ⊆ b :: rest := by
    intro a ha
    obtain ⟨hal, hab⟩ := mem_selection.mp ha
    have hsel : a ∈ selection key pos l := mem_selection.mpr
      ⟨hal, fun c hc ↦ le_trans (hab b rfl) ((mem_selection.mp hb).2 c hc)⟩
    rw [heq, List.mem_append] at hsel
    refine hsel.resolve_left fun hpage ↦ ?_
    exact absurd (hab b rfl) (not_le.mpr (hstrict.2.2 a hpage b List.mem_cons_self))
  have hnd : (selection key (some b) l).Nodup :=
    (selection_strict _ hkeys).imp fun h he ↦ absurd (congrArg key he) (ne_of_gt h)
  have hle := (List.subperm_of_subset hnd hsub).length_le
  rw [heq, List.length_append]
  omega

theorem exists_reads_same (hsize : 0 < size) (hkeys : (l.map key).Nodup)
    (hrows : ∀ n, m ≤ n → rows n = l) (pos : Option α) :
    ∃ last out, Reads key size rows m pos last out := by
  induction hlen : (selection key pos l).length using Nat.strong_induction_on
    generalizing m pos with
  | _ len ih =>
    have hm := hrows m (Nat.le_refl m)
    cases hn : next key size pos l with
    | none => exact ⟨m, _, .last (hm ▸ hn)⟩
    | some b =>
      have hlt := selection_shrinks hsize hkeys hn
      obtain ⟨last, out, h⟩ := ih _ (hlen ▸ hlt) (fun n hle ↦ hrows n (Nat.le_of_succ_le hle))
        (some b) rfl
      exact ⟨last, _, .more (hm ▸ hn) h⟩

/-- Once the list does not change any more, the requests come to an end. -/
theorem exists_reads (rows : ℕ → List α) (hsize : 0 < size)
    (hkeys : ∀ n, ((rows n).map key).Nodup) {N : ℕ} (hrows : ∀ n, N ≤ n → rows n = rows N)
    (m : ℕ) (pos : Option α) :
    ∃ last out, Reads key size rows m pos last out := by
  induction hk : N - m generalizing m pos with
  | zero => exact exists_reads_same hsize (hkeys N) (fun n hle ↦ hrows n (by omega)) pos
  | succ k ih =>
    cases hn : next key size pos (rows m) with
    | none => exact ⟨m, _, .last hn⟩
    | some b =>
      obtain ⟨last, out, h⟩ := ih (m + 1) (some b) (by omega)
      exact ⟨last, _, .more hn h⟩

end Fireworq.Keyset
