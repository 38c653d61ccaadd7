import Mathlib.Data.List.Sort

namespace Fireworq.Paging

variable {α : Type}

/-- A list that is read in pages. A request selects elements of the list, takes
one more than a page holds, and orders what it took by a rank of its own. The
extra element is the position of the next request, which selects the elements
that the position admits, or starts again if the position is not kept. -/
structure Pager (α : Type) where
  all : List α
  size : ℕ
  rank : α → α → Prop
  start : α → Bool
  keeps : α → Bool
  admits : α → α → Bool
  [decRank : DecidableRel rank]
  size_pos : 0 < size
  nodup : all.Nodup
  rank_total : ∀ u v, rank u v ∨ rank v u
  rank_trans : ∀ u v w, rank u v → rank v w → rank u w
  start_mono : all.Pairwise fun u v ↦ start u → start v
  /-- What a position admits after something it admits is admitted, as far as
  a later position admits it. -/
  admits_mono : ∀ b d u v, [u, v].Sublist all → admits b u → admits b d → admits d v → admits b v
  /-- Positions admit themselves, or nothing in front of them. -/
  anchored : (∀ b ∈ all, admits b b) ∨ ∀ b v, admits b v → ¬ [v, b].Sublist all

section Suffixes

variable {U l R : List α}

theorem filter_suffix {p : α → Bool} (h : l.Pairwise fun u v ↦ p u → p v) : l.filter p <:+ l := by
  induction h with
  | nil => exact List.suffix_refl _
  | @cons a l ha _ ih =>
    by_cases hp : p a
    · have hall : (a :: l).filter p = a :: l := by
        simpa [hp] using fun v hv ↦ ha v hv hp
      exact ⟨[], hall⟩
    · rw [List.filter_cons_of_neg hp]
      exact ih.trans (List.suffix_cons a l)

theorem filter_eq_of_suffix {p : α → Bool} (hU : U.Nodup) (hR : R <:+ U)
    (h : ∀ v ∈ U, p v ↔ v ∈ R) : U.filter p = R := by
  obtain ⟨t, rfl⟩ := hR
  have ht : t.filter p = [] := by
    rw [List.filter_eq_nil_iff]
    intro v hv hp
    exact (List.disjoint_of_nodup_append hU) hv ((h v (by simp [hv])).mp hp)
  have hr : R.filter p = R := List.filter_eq_self.mpr fun v hv ↦ (h v (by simp [hv])).mpr hv
  rw [List.filter_append, ht, hr, List.nil_append]

/-- Two suffixes of a list without duplicates that start alike are equal. -/
theorem suffix_eq_of_take {n : ℕ} (hU : U.Nodup) (hl : l <:+ U) (hR : R <:+ U) (hn : 0 < n)
    (hne : l ≠ []) (h : R.take n = l.take n) : R = l := by
  obtain ⟨a, l, rfl⟩ := List.exists_cons_of_ne_nil hne
  obtain ⟨n, rfl⟩ := Nat.exists_eq_add_of_lt hn
  cases R with
  | nil => simp at h
  | cons b R =>
    obtain rfl : b = a := by simpa using congrArg List.head? h
    have hlen (l₁ l₂ : List α) (h₁ : b :: l₁ <:+ b :: l₂) (h₂ : b :: l₂ <:+ U) :
        b :: l₁ = b :: l₂ := by
      rcases List.suffix_cons_iff.mp h₁ with he | hs
      · exact he
      · have hnd := hU.sublist h₂.sublist
        exact absurd (hs.subset List.mem_cons_self) (List.nodup_cons.mp hnd).1
    rcases List.suffix_or_suffix_of_suffix hR hl with hs | hs
    · exact hlen _ _ hs hl
    · exact (hlen _ _ hs hR).symm

end Suffixes

namespace Pager

variable (P : Pager α)

instance : DecidableRel P.rank := P.decRank

instance : Std.Total P.rank := ⟨P.rank_total⟩

instance : IsTrans α P.rank := ⟨P.rank_trans⟩

def selects : Option α → α → Bool
  | none => P.start
  | some b => if P.keeps b then P.admits b else P.start

def selection (c : Option α) : List α := P.all.filter (P.selects c)

def window (c : Option α) : List α := ((P.selection c).take (P.size + 1)).insertionSort P.rank

def page (c : Option α) : List α := (P.window c).take P.size

def next (c : Option α) : Option α := (P.window c)[P.size]?

inductive Pages : Option α → List α → Prop
  | last {c : Option α} : P.next c = none → Pages c (P.page c)
  | more {c : Option α} {d : α} {rest : List α} :
    P.next c = some d → Pages (some d) rest → Pages c (P.page c ++ rest)

theorem window_perm (c : Option α) : (P.window c).Perm ((P.selection c).take (P.size + 1)) :=
  List.perm_insertionSort _ _

theorem window_pairwise (c : Option α) : (P.window c).Pairwise P.rank :=
  List.pairwise_insertionSort _ _

theorem window_nodup (c : Option α) : (P.window c).Nodup :=
  (P.window_perm c).nodup_iff.mpr ((P.nodup.filter _).sublist (List.take_sublist _ _))

theorem window_length (c : Option α) :
    (P.window c).length = min (P.size + 1) (P.selection c).length := by
  rw [(P.window_perm c).length_eq, List.length_take]

variable {P}

theorem mem_window {c : Option α} {u : α} (h : u ∈ P.window c) : u ∈ P.selection c :=
  List.mem_of_mem_take ((P.window_perm c).mem_iff.mp h)

theorem window_eq_append {c : Option α} {d : α} (h : P.next c = some d) :
    P.window c = P.page c ++ [d] := by
  obtain ⟨hlt, rfl⟩ := List.getElem?_eq_some_iff.mp h
  have hlen := P.window_length c
  rw [page, List.take_append_getElem hlt, List.take_of_length_le (by omega)]

theorem page_length {c : Option α} {d : α} (h : P.next c = some d) :
    (P.page c).length = P.size := by
  have hlen := congrArg List.length (window_eq_append h)
  obtain ⟨hlt, -⟩ := List.getElem?_eq_some_iff.mp h
  have hw := P.window_length c
  simp only [List.length_append, List.length_singleton] at hlen
  omega

theorem selection_length_le {c : Option α} (h : P.next c = none) :
    (P.selection c).length ≤ P.size := by
  have hlen := P.window_length c
  have hn := List.getElem?_eq_none_iff.mp h
  omega

theorem page_perm {c : Option α} (h : P.next c = none) : (P.page c).Perm (P.selection c) := by
  have hs := selection_length_le h
  have hw := P.window_perm c
  rw [List.take_of_length_le (by omega)] at hw
  rwa [page, List.take_of_length_le (by rw [hw.length_eq]; exact hs)]

theorem Pages.take {c : Option α} {l : List α} (h : P.Pages c l) : l.take P.size = P.page c := by
  cases h with
  | last hn =>
    apply List.take_of_length_le
    rw [(page_perm hn).length_eq]
    exact selection_length_le hn
  | more hn _ => rw [List.take_left' (page_length hn)]

theorem Pages.subset {c : Option α} {l : List α} (h : P.Pages c l) : l ⊆ P.all := by
  have hpage (c : Option α) : P.page c ⊆ P.all :=
    fun u hu ↦ List.mem_of_mem_filter (mem_window (List.mem_of_mem_take hu))
  induction h with
  | last hn => exact hpage _
  | more hn _ ih => exact List.append_subset.mpr ⟨hpage _, ih⟩

theorem selection_suffix : P.selection none <:+ P.all := filter_suffix P.start_mono

theorem mem_selection_keeps {d v : α} (hd : P.keeps d) :
    v ∈ P.selection (some d) ↔ v ∈ P.all ∧ P.admits d v := by
  simp [selection, selects, hd]

/-- A request that selects something in front of `l` takes something in front
of `l`. -/
theorem exists_window_notMem {c : Option α} {l : List α} {x : α} (hl : l <:+ P.all)
    (hx : x ∈ P.selection c) (hxl : x ∉ l) : ∃ y ∈ P.window c, y ∉ l := by
  obtain ⟨t, ht⟩ := hl
  have hsel : P.selection c = t.filter (P.selects c) ++ l.filter (P.selects c) := by
    rw [selection, ← ht, List.filter_append]
  have hxt : x ∈ t.filter (P.selects c) := by
    rw [hsel, List.mem_append] at hx
    exact hx.resolve_right fun h ↦ hxl (List.mem_of_mem_filter h)
  obtain ⟨y, ys, hy⟩ := List.exists_cons_of_ne_nil (List.ne_nil_of_mem hxt)
  refine ⟨y, (P.window_perm c).mem_iff.mpr ?_, fun hyl ↦ ?_⟩
  · simp [hsel, hy]
  · have hyt : y ∈ t := List.mem_of_mem_filter (hy ▸ List.mem_cons_self)
    exact List.disjoint_of_nodup_append (ht ▸ P.nodup) hyt hyl

section Complete

variable {l : List α} (hfirst : (P.selection none).take P.size = P.page none) (hl : l <:+ P.all)
  (hlt : l.length < (P.selection none).length)

include hfirst hl hlt

/-- Requests that start again do not go on where the pages before ended. -/
theorem keeps_of_pages {d : α} (h : P.Pages (some d) l) : P.keeps d := by
  by_contra hk
  have hpage : P.page (some d) = P.page none := by
    simp [page, window, selection, selects, hk]
  have hne : P.selection none ≠ [] := fun he ↦ by simp [he] at hlt
  have heq := suffix_eq_of_take P.nodup selection_suffix hl P.size_pos hne
    (h.take.trans (hpage.trans hfirst.symm))
  rw [heq] at hlt
  exact Nat.lt_irrefl _ hlt

/-- If positions admit themselves, requests that select something in front of
what they should return take it for the next position over and over. -/
theorem not_pages_of_notMem {c : Option α} {x : α} (hself : ∀ b ∈ P.all, P.admits b b)
    (hx : x ∈ P.selection c) (hxl : x ∉ l) : ¬ P.Pages c l := by
  intro h
  induction h generalizing x with
  | last hn => exact hxl ((page_perm hn).mem_iff.mpr hx)
  | @more c d rest hn hrest ih =>
    have hrl := (List.suffix_append (P.page c) rest).trans hl
    have hrlt := Nat.lt_of_le_of_lt (List.suffix_append (P.page c) rest).length_le hlt
    obtain ⟨y, hy, hyl⟩ := exists_window_notMem hl hx hxl
    have hyd : y = d := by
      rw [window_eq_append hn, List.mem_append, List.mem_singleton] at hy
      exact hy.resolve_left fun h ↦ hyl (by simp [h])
    subst hyd
    have hall : y ∈ P.all := List.mem_of_mem_filter (mem_window hy)
    have hk := keeps_of_pages hfirst hrl hrlt hrest
    exact ih hrl hrlt ((mem_selection_keeps hk).mpr ⟨hall, hself y hall⟩)
      (fun h ↦ hyl (by simp [h]))

theorem selection_subset {d : α} (h : P.Pages (some d) l) (hd : d ∈ l) :
    P.selection (some d) ⊆ l := by
  intro x hx
  by_contra hxl
  rcases P.anchored with hself | hfront
  · exact not_pages_of_notMem hfirst hl hlt hself hx hxl h
  · obtain ⟨hall, hadm⟩ := (mem_selection_keeps (keeps_of_pages hfirst hl hlt h)).mp hx
    obtain ⟨t, ht⟩ := hl
    have hxt : x ∈ t := by
      rw [← ht, List.mem_append] at hall
      exact hall.resolve_right hxl
    refine hfront d x hadm ?_
    rw [← ht]
    exact (List.singleton_sublist.mpr hxt).append (List.singleton_sublist.mpr hd)

theorem subset_selection {d : α} (h : P.Pages (some d) l) (hd : d ∈ l) :
    l ⊆ P.selection (some d) := by
  generalize hc : some d = c at h
  induction h generalizing d with
  | last hn => exact (page_perm hn).subset
  | @more c e rest hn hrest ih =>
    subst hc
    have hrl := (List.suffix_append (P.page (some d)) rest).trans hl
    have hrlt := Nat.lt_of_le_of_lt (List.suffix_append (P.page (some d)) rest).length_le hlt
    have hk := keeps_of_pages hfirst hl hlt (.more hn hrest)
    have hwin := window_eq_append hn
    have he : e ∈ P.selection (some d) := mem_window (by simp [hwin])
    have her : e ∈ rest := by
      have hel := selection_subset hfirst hl hlt (.more hn hrest) hd he
      have hnd := P.window_nodup (some d)
      rw [hwin] at hnd
      refine (List.mem_append.mp hel).resolve_left fun hep ↦ ?_
      exact List.disjoint_of_nodup_append hnd hep (List.mem_singleton_self e)
    have hpage : P.page (some d) ⊆ P.selection (some d) :=
      fun u hu ↦ mem_window (List.mem_of_mem_take hu)
    refine List.append_subset.mpr ⟨hpage, fun v hv ↦ ?_⟩
    -- the page is not empty, and what it holds stands in front of the rest
    obtain ⟨u, us, hu⟩ := List.exists_cons_of_ne_nil
      (List.ne_nil_of_length_pos (by rw [page_length hn]; exact P.size_pos))
    have hup : u ∈ P.page (some d) := by simp [hu]
    have huv : [u, v].Sublist P.all :=
      ((List.singleton_sublist.mpr hup).append (List.singleton_sublist.mpr hv)).trans hl.sublist
    have hev := (mem_selection_keeps (keeps_of_pages hfirst hrl hrlt hrest)).mp
      (ih hrl hrlt her rfl hv)
    rw [mem_selection_keeps hk] at he ⊢
    exact ⟨hev.1, P.admits_mono d e u v huv ((mem_selection_keeps hk).mp (hpage hup)).2 he.2 hev.2⟩

end Complete

variable (P) in
/-- The elements of a list stand in the order of their ranks, and at the end of
each page the next element is kept and admits exactly itself and what follows. -/
structure Fits (l : List α) : Prop where
  ranked : l.Pairwise P.rank
  boundary : ∀ k b, l[(k + 1) * P.size]? = some b →
    P.keeps b ∧ ∀ v ∈ P.all, P.admits b v ↔ v ∈ l.drop ((k + 1) * P.size)

theorem selection_eq {d : α} {l : List α} (hl : l <:+ P.all) (hd : P.keeps d)
    (h : ∀ v ∈ P.all, P.admits d v ↔ v ∈ l) : P.selection (some d) = l := by
  refine filter_eq_of_suffix P.nodup hl fun v hv ↦ ?_
  rw [← h v hv]
  simp [selects, hd]

theorem Fits.drop {l : List α} (h : P.Fits l) : P.Fits (l.drop P.size) where
  ranked := h.ranked.sublist (List.drop_sublist _ _)
  boundary k b hb := by
    have he : P.size + (k + 1) * P.size = (k + 1 + 1) * P.size := by
      rw [Nat.add_mul (k + 1), Nat.one_mul, Nat.add_comm]
    rw [List.getElem?_drop, he] at hb
    rw [List.drop_drop, he]
    exact h.boundary (k + 1) b hb

theorem Fits.append {l rest : List α} {d : α} (hlen : l.length = P.size)
    (hrank : (l ++ [d]).Pairwise P.rank) (h : P.Fits (d :: rest)) (hd : P.keeps d)
    (hadm : ∀ v ∈ P.all, P.admits d v ↔ v ∈ d :: rest) : P.Fits (l ++ d :: rest) where
  ranked := by
    rw [List.pairwise_append] at hrank ⊢
    refine ⟨hrank.1, h.ranked, fun u hu v hv ↦ ?_⟩
    have hud := hrank.2.2 u hu d (by simp)
    rcases List.mem_cons.mp hv with rfl | hv
    · exact hud
    · exact P.rank_trans u d v hud ((List.pairwise_cons.mp h.ranked).1 v hv)
  boundary k b hb := by
    have he : (k + 1) * P.size - l.length = k * P.size := by
      rw [hlen, Nat.add_mul, Nat.one_mul, Nat.add_sub_cancel]
    have hle : l.length ≤ (k + 1) * P.size := by
      rw [hlen]
      exact Nat.le_mul_of_pos_left _ (Nat.succ_pos k)
    rw [List.getElem?_append_right hle, he] at hb
    rw [List.drop_append, List.drop_of_length_le hle, he, List.nil_append]
    cases k with
    | zero =>
      obtain rfl : d = b := by simpa using hb
      rw [Nat.zero_mul, List.drop_zero]
      exact ⟨hd, hadm⟩
    | succ k => exact h.boundary k b hb

theorem fits_of_pages (hfirst : (P.selection none).take P.size = P.page none) {c : Option α}
    {l : List α} (h : P.Pages c l) (hl : l <:+ P.all)
    (hlt : l.length ≤ (P.selection none).length) (hsel : P.selection c = l) : P.Fits l := by
  induction h with
  | @last c hn =>
    have hlen := selection_length_le hn
    rw [hsel] at hlen
    refine ⟨(P.window_pairwise c).sublist (List.take_sublist _ _), fun k b hb ↦ ?_⟩
    have hk : P.size ≤ (k + 1) * P.size := Nat.le_mul_of_pos_left _ (Nat.succ_pos k)
    rw [List.getElem?_eq_none (by omega)] at hb
    cases hb
  | @more c d rest hn hrest ih =>
    have hrl := (List.suffix_append (P.page c) rest).trans hl
    have hplen := page_length hn
    have hrlt : rest.length < (P.selection none).length := by
      have := P.size_pos
      rw [List.length_append] at hlt
      omega
    have hperm := P.window_perm c
    rw [hsel, window_eq_append hn, List.take_append, hplen, Nat.add_sub_cancel_left,
      List.take_of_length_le (by omega), List.perm_append_left_iff] at hperm
    obtain ⟨tl, rfl⟩ : ∃ tl, rest = d :: tl := by
      have hd := List.perm_singleton.mp hperm.symm
      cases rest with
      | nil => simp at hd
      | cons e tl => exact ⟨tl, by simpa using hd⟩
    have hk := keeps_of_pages hfirst hrl hrlt hrest
    have hadm (v : α) (hv : v ∈ P.all) : P.admits d v ↔ v ∈ d :: tl := by
      have hsub := selection_subset hfirst hrl hrlt hrest List.mem_cons_self
      have hsup := subset_selection hfirst hrl hrlt hrest List.mem_cons_self
      rw [show P.admits d v ↔ v ∈ P.selection (some d) by simp [mem_selection_keeps hk, hv]]
      exact ⟨fun h ↦ hsub h, fun h ↦ hsup h⟩
    refine .append hplen ?_ (ih hrl hrlt.le (selection_eq hrl hk hadm)) hk hadm
    rw [← window_eq_append hn]
    exact P.window_pairwise c

theorem pages_of_fits {c : Option α} {l : List α} (h : P.Fits l) (hl : l <:+ P.all)
    (hsel : P.selection c = l) : P.Pages c l := by
  induction hlen : l.length using Nat.strong_induction_on generalizing c l with
  | _ len ih =>
    have hwin : P.window c = l.take (P.size + 1) := by
      rw [window, hsel]
      exact (h.ranked.sublist (List.take_sublist _ _)).insertionSort_eq
    have hpage : P.page c = l.take P.size := by
      rw [page, hwin, List.take_take, Nat.min_eq_left (Nat.le_succ _)]
    have hnext : P.next c = l[P.size]? := by
      rw [next, hwin, List.getElem?_take_of_lt (Nat.lt_succ_self _)]
    cases hd : l[P.size]? with
    | none =>
      have hle := List.getElem?_eq_none_iff.mp hd
      have hlast : P.Pages c (P.page c) := .last (hnext.trans hd)
      rwa [hpage, List.take_of_length_le hle] at hlast
    | some d =>
      obtain ⟨hk, hadm⟩ := h.boundary 0 d (by simpa using hd)
      rw [Nat.zero_add, Nat.one_mul] at hadm
      have hdl := (List.drop_suffix P.size l).trans hl
      have hshort : (l.drop P.size).length < len := by
        have := P.size_pos
        have := (List.getElem?_eq_some_iff.mp hd).1
        rw [List.length_drop]
        omega
      have hrest := ih _ hshort h.drop hdl (selection_eq hdl hk hadm) rfl
      have hmore : P.Pages c (P.page c ++ l.drop P.size) := .more (hnext.trans hd) hrest
      rwa [hpage, List.take_append_drop] at hmore

/-- Reading page by page returns exactly what the first request selects, in its
order, if and only if no page boundary loses, repeats or moves an element. -/
theorem pages_iff : P.Pages none (P.selection none) ↔ P.Fits (P.selection none) :=
  ⟨fun h ↦ fits_of_pages h.take h selection_suffix le_rfl rfl,
    fun h ↦ pages_of_fits h selection_suffix rfl⟩

end Pager

end Fireworq.Paging
