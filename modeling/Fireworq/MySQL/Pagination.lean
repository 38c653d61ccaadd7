import Fireworq.Paging
import Fireworq.MySQL.Inspector

namespace Fireworq.MySQL.Inspector

open Relational GoInt Paging

inductive Listing
  | grabbed
  | waiting
  | deferred
  deriving DecidableEq

def Listing.find (listing : Listing) (json : Marshaler) (T : Table Row.jobId) (now : ℤ)
    (limit : ℕ) (order : SortOrder) (cursor : List UInt8) : Option InspectedJobs :=
  match listing with
  | .grabbed => findAllGrabbed json T now limit cursor order
  | .waiting => findAllWaiting json T now limit cursor order
  | .deferred => findAllDeferred json T now limit cursor order

inductive Visits (find : List UInt8 → Option InspectedJobs) :
    List UInt8 → List InspectedJob → Prop
  | last {cursor : List UInt8} {jobs : List InspectedJob} :
    find cursor = some ⟨jobs, []⟩ → Visits find cursor jobs
  | more {cursor next : List UInt8} {jobs rest : List InspectedJob} :
    find cursor = some ⟨jobs, next⟩ → next ≠ [] → Visits find next rest →
      Visits find cursor (jobs ++ rest)

theorem Visits.unique {find : List UInt8 → Option InspectedJobs} {cursor : List UInt8}
    {js js' : List InspectedJob} (h : Visits find cursor js) (h' : Visits find cursor js') :
    js = js' := by
  induction h generalizing js' with
  | last hf =>
    cases h' with
    | last hf' => simpa [hf] using hf'
    | more hf' hne _ =>
      rw [hf, Option.some_inj, InspectedJobs.mk.injEq] at hf'
      exact absurd hf'.2.symm hne
  | more hf hne _ ih =>
    cases h' with
    | last hf' =>
      rw [hf, Option.some_inj, InspectedJobs.mk.injEq] at hf'
      exact absurd hf'.2 hne
    | more hf' _ hv' =>
      rw [hf, Option.some_inj, InspectedJobs.mk.injEq] at hf'
      obtain ⟨rfl, rfl⟩ := hf'
      rw [ih hv']

theorem Visits.exists_page {find : List UInt8 → Option InspectedJobs} {cursor : List UInt8}
    {js : List InspectedJob} (h : Visits find cursor js) : ∃ page, find cursor = some page := by
  cases h with
  | last hf => exact ⟨_, hf⟩
  | more hf _ _ => exact ⟨_, hf⟩

structure Query where
  order : SortOrder
  status : Status
  minTime : ℤ
  maxTime : ℤ

namespace Query

def ofAsc (status : Status) (minTime maxTime : ℤ) : Query :=
  ⟨.asc, status, if minTime ≥ maxInt64 then 0 else minTime, maxTime⟩

def ofDesc (status : Status) (minTime maxTime : ℤ) : Query :=
  ⟨.desc, status, minTime, if maxTime ≤ 0 then maxInt64 else maxTime⟩

def inRange (Q : Query) (t : ℤ) : Prop :=
  match Q.order with
  | .asc => Q.minTime ≤ t ∧ t < Q.maxTime
  | .desc => Q.minTime < t ∧ t ≤ Q.maxTime

instance : (Q : Query) → (t : ℤ) → Decidable (Q.inRange t)
  | ⟨.asc, _, _, _⟩, _ => inferInstanceAs (Decidable (_ ∧ _))
  | ⟨.desc, _, _, _⟩, _ => inferInstanceAs (Decidable (_ ∧ _))

def Lists (Q : Query) (r : Row) : Prop := r.status = Q.status ∧ Q.inRange r.nextTry

instance (Q : Query) : DecidablePred Q.Lists := fun _ ↦ inferInstanceAs (Decidable (_ ∧ _))

def jobs (Q : Query) (T : Table Row.jobId) : List Row := select Q.order Q.Lists T.rows

def Resumes (Q : Query) (b r : Row) : Prop :=
  match Q.order with
  | .asc => inspectJobsAsc Q.status (cursorTime b) Q.maxTime b.jobId r
  | .desc => inspectJobs Q.status Q.minTime (cursorTime b) b.jobId r

instance : (Q : Query) → (b : Row) → DecidablePred (Q.Resumes b)
  | ⟨.asc, _, _, _⟩, _ => fun _ ↦ inferInstanceAs (Decidable (inspectJobsAsc _ _ _ _ _))
  | ⟨.desc, _, _, _⟩, _ => fun _ ↦ inferInstanceAs (Decidable (inspectJobs _ _ _ _ _))

/-- The times of the jobs keep their order when they are converted, and at each
end of a page the cursor of the next job is read back and asks for that job
and the ones after it. -/
structure Pageable (Q : Query) (T : Table Row.jobId) (limit : ℕ) : Prop where
  ordered : (Q.jobs T).Pairwise fun q r ↦
    lexLe Q.order (unixNano (timeOf q.nextTry), q.jobId) (unixNano (timeOf r.nextTry), r.jobId)
  boundary : ∀ k b, (Q.jobs T)[(k + 1) * limit]? = some b →
    b.jobId < 2 ^ 63 ∧ ∀ r ∈ T.rows, Q.Resumes b r ↔ Q.Lists r ∧ rowLe Q.order b r

end Query

def Listing.query (now : ℤ) : Listing → SortOrder → Query
  | .grabbed, .asc => .ofAsc .grabbed 0 (now.tdiv millisecond)
  | .grabbed, .desc => .ofDesc .grabbed 0 (now.tdiv millisecond)
  | .waiting, .asc => .ofAsc .claimed 0 (now.tdiv millisecond)
  | .waiting, .desc => .ofDesc .claimed 0 (now.tdiv millisecond)
  | .deferred, .asc => .ofAsc .claimed (now.tdiv millisecond) maxInt64
  | .deferred, .desc => .ofDesc .claimed (now.tdiv millisecond) 0

/-- Following the cursors from the empty one shows every job of the listing
once, in the order of the listing. -/
def Lossless (json : Marshaler) (T : Table Row.jobId) (now : ℤ) (limit : ℕ) (listing : Listing)
    (order : SortOrder) : Prop :=
  Visits (listing.find json T now limit order) []
    (((listing.query now order).jobs T).map (scan json))

namespace Query

variable (Q : Query) (json : Marshaler) (T : Table Row.jobId) (limit : ℕ)

def Open (r : Row) : Prop :=
  r.status = Q.status ∧
    match Q.order with
    | .asc => (r.nextTry : ℤ) < Q.maxTime
    | .desc => Q.minTime < r.nextTry

instance : (Q : Query) → DecidablePred Q.Open
  | ⟨.asc, _, _, _⟩ => fun _ ↦ inferInstanceAs (Decidable (_ ∧ _))
  | ⟨.desc, _, _, _⟩ => fun _ ↦ inferInstanceAs (Decidable (_ ∧ _))

variable {Q} in
theorem Lists.open {r : Row} (h : Q.Lists r) : Q.Open r := by
  obtain ⟨order, status, lo, hi⟩ := Q
  cases order
  · exact ⟨h.1, h.2.2⟩
  · exact ⟨h.1, h.2.1⟩

variable {Q} in
theorem Resumes.open {b r : Row} (h : Q.Resumes b r) : Q.Open r := by
  obtain ⟨order, status, lo, hi⟩ := Q
  cases order
  · exact ⟨h.1, h.2.2.1⟩
  · exact ⟨h.1, h.2.1⟩

variable {T} in
theorem filter_select {order : SortOrder} {p q : Row → Prop} [DecidablePred p] [DecidablePred q]
    (h : ∀ r, q r → p r) : (select order p T.rows).filter q = select order q T.rows := by
  refine List.Perm.eq_of_pairwise ?_ (select_pairwise.sublist List.filter_sublist)
    select_pairwise ?_
  · intro q r hq hr h₁ h₂
    exact Table.eq_of_key (mem_select.mp (List.mem_of_mem_filter hq)).1 (mem_select.mp hr).1
      (rowLe_antisymm h₁ h₂)
  · rw [List.perm_ext_iff_of_nodup (select_nodup.filter _) select_nodup]
    intro r
    simp only [List.mem_filter, mem_select, decide_eq_true_eq]
    exact ⟨fun hr ↦ ⟨hr.1.1, hr.2⟩, fun hr ↦ ⟨⟨hr.1, h r hr.2⟩, hr.2⟩⟩

variable {T} in
theorem rowLe_of_sublist {order : SortOrder} {p : Row → Prop} [DecidablePred p] {q r : Row}
    (h : [q, r].Sublist (select order p T.rows)) : rowLe order q r :=
  (List.pairwise_cons.mp (select_pairwise.sublist h)).1 r List.mem_cons_self

section Bounds

variable {Q} {b d q r : Row}

theorem Lists.mono (h : Q.Lists q) (hr : Q.Open r) (hle : rowLe Q.order q r) : Q.Lists r := by
  obtain ⟨order, status, lo, hi⟩ := Q
  obtain ⟨-, hq⟩ := h
  obtain ⟨hs, hr⟩ := hr
  refine ⟨hs, ?_⟩
  cases order <;> simp only [inRange, rowLe] at * <;> omega

theorem Resumes.mono (hq : Q.Resumes b q) (hd : Q.Resumes b d) (hr : Q.Resumes d r)
    (hle : rowLe Q.order q r) : Q.Resumes b r := by
  obtain ⟨order, status, lo, hi⟩ := Q
  cases order with
  | asc =>
    obtain ⟨-, hq, -⟩ := hq
    obtain ⟨-, -, -, hd⟩ := hd
    obtain ⟨hs, -, hhi, hr⟩ := hr
    simp only [rowLe] at hle
    exact ⟨hs, by omega, hhi, by omega⟩
  | desc =>
    obtain ⟨-, -, hq, -⟩ := hq
    obtain ⟨-, -, -, hd⟩ := hd
    obtain ⟨hs, hlo, -, hr⟩ := hr
    simp only [rowLe] at hle
    exact ⟨hs, hlo, by omega, by omega⟩

theorem resumes_self (horder : Q.order = .asc) (hb : Q.Open b) : Q.Resumes b b := by
  obtain ⟨order, status, lo, hi⟩ := Q
  cases horder
  exact ⟨hb.1, cursorTime_le b, hb.2, le_rfl⟩

theorem Resumes.rowLe (horder : Q.order = .desc) (h : Q.Resumes b r) : rowLe Q.order b r := by
  obtain ⟨order, status, lo, hi⟩ := Q
  cases horder
  obtain ⟨-, -, ht, hid⟩ := h
  have hb := cursorTime_le b
  simp only [Inspector.rowLe]
  omega

end Bounds

def pager (hlimit : 0 < limit) : Pager Row where
  all := select Q.order Q.Open T.rows
  size := limit
  rank q r := less Q.order (scan json r) (scan json q) = false
  start r := Q.Lists r
  keeps r := r.jobId < 2 ^ 63
  admits b r := Q.Resumes b r
  size_pos := hlimit
  nodup := select_nodup
  rank_total _ _ := by simpa only [not_less_iff] using lexLe_total _ _
  rank_trans _ _ _ h₁ h₂ := not_less_iff.mpr (lexLe_trans (not_less_iff.mp h₁) (not_less_iff.mp h₂))
  start_mono := select_pairwise.imp_of_mem fun _ hr hle hs ↦
    decide_eq_true (Lists.mono (of_decide_eq_true hs) (mem_select.mp hr).2 hle)
  admits_mono _ _ _ _ huv hu hd hv := decide_eq_true (Resumes.mono (of_decide_eq_true hu)
    (of_decide_eq_true hd) (of_decide_eq_true hv) (rowLe_of_sublist huv))
  anchored := by
    cases horder : Q.order with
    | asc => exact .inl fun b hb ↦ decide_eq_true (resumes_self horder (mem_select.mp hb).2)
    | desc =>
      refine .inr fun b v hv hvb ↦ ?_
      have hmem {r : Row} (hr : r ∈ [v, b]) : r ∈ T.rows := (mem_select.mp (hvb.subset hr)).1
      have hle := rowLe_of_sublist hvb
      rw [← horder] at hle
      have hid := rowLe_antisymm hle (Resumes.rowLe horder (of_decide_eq_true hv))
      have hnd := select_nodup.sublist hvb
      rw [Table.eq_of_key (hmem (by simp)) (hmem (by simp)) hid] at hnd
      simp at hnd

end Query

def cursorOf (json : Marshaler) : Option Row → List UInt8
  | none => []
  | some b => encodeCursor (scan json b)

section Requests

variable {Q : Query} {json : Marshaler} {T : Table Row.jobId} {limit : ℕ} (hlimit : 0 < limit)

theorem cursorOf_eq_nil {c : Option Row} : cursorOf json c = [] ↔ c = none := by
  cases c with
  | none => simp [cursorOf]
  | some b => simp [cursorOf, encodeCursor_ne_nil]

def kept (c : Option Row) : Option Row := c.filter fun b ↦ b.jobId < 2 ^ 63

theorem decodeCursor_cursorOf (json : Marshaler) (c : Option Row) :
    decodeCursor (cursorOf json c) = (kept c).map fun b ↦ (cursorTime b, (b.jobId : ℤ)) := by
  cases c with
  | none => rfl
  | some b =>
    rw [cursorOf, decodeCursor_encodeCursor, kept, Option.filter_some]
    by_cases hb : b.jobId < 2 ^ 63
    · rw [if_pos hb, if_pos (decide_eq_true hb), Option.map_some]
    · rw [if_neg hb, if_neg (fun h ↦ hb (of_decide_eq_true h)), Option.map_none]

theorem selects_of_none {c : Option Row} {r : Row} (h : kept c = none) :
    (Q.pager json T limit hlimit).selects c r ↔ Q.Lists r := by
  cases c with
  | none => exact decide_eq_true_iff
  | some b =>
    rw [kept, Option.filter_eq_none_iff] at h
    have hk : ¬ (Q.pager json T limit hlimit).keeps b = true := h b rfl
    rw [Pager.selects, if_neg hk]
    exact decide_eq_true_iff

theorem selects_of_some {c : Option Row} {b r : Row} (h : kept c = some b) :
    (Q.pager json T limit hlimit).selects c r ↔ Q.Resumes b r := by
  obtain ⟨rfl, hk⟩ := Option.filter_eq_some_iff.mp h
  have hk : (Q.pager json T limit hlimit).keeps b = true := hk
  rw [Pager.selects, if_pos hk]
  exact decide_eq_true_iff

theorem findAllAsc_cursor (status : Status) (minTime maxTime : ℤ) (c : Option Row) :
    findAllAsc json T status minTime maxTime limit (cursorOf json c) =
      findAll json .asc T status (fun r ↦
        ((Query.ofAsc status minTime maxTime).pager json T limit hlimit).selects c r) limit := by
  have hd := decodeCursor_cursorOf json c
  cases hc : kept c with
  | none =>
    rw [hc, Option.map_none] at hd
    rw [findAllAsc_of_none hd]
    refine findAll_congr fun r ↦ Iff.trans ?_ (selects_of_none hlimit hc).symm
    simp [Query.Lists, Query.inRange, Query.ofAsc, inspectJobsAsc]
  | some b =>
    rw [hc, Option.map_some] at hd
    rw [findAllAsc_of_some hd, uint64_natCast b.fits.1]
    exact findAll_congr fun r ↦
      (selects_of_some (Q := .ofAsc status minTime maxTime) hlimit hc).symm

theorem findAllDesc_cursor (status : Status) (minTime maxTime : ℤ) (c : Option Row) :
    findAllDesc json T status minTime maxTime limit (cursorOf json c) =
      findAll json .desc T status (fun r ↦
        ((Query.ofDesc status minTime maxTime).pager json T limit hlimit).selects c r) limit := by
  have hd := decodeCursor_cursorOf json c
  cases hc : kept c with
  | none =>
    rw [hc, Option.map_none] at hd
    rw [findAllDesc_of_none hd]
    refine findAll_congr fun r ↦ Iff.trans ?_ (selects_of_none hlimit hc).symm
    have hmax : r.jobId ≤ maxUint64 := by
      have := r.fits.1
      unfold maxUint64
      omega
    simp [Query.Lists, Query.inRange, Query.ofDesc, inspectJobs, hmax]
  | some b =>
    rw [hc, Option.map_some] at hd
    rw [findAllDesc_of_some hd, uint64_natCast b.fits.1]
    exact findAll_congr fun r ↦
      (selects_of_some (Q := .ofDesc status minTime maxTime) hlimit hc).symm

variable (json T) in
theorem find_cursor (listing : Listing) (order : SortOrder) (now : ℤ) (c : Option Row) :
    listing.find json T now limit order (cursorOf json c) =
      findAll json (listing.query now order).order T (listing.query now order).status
        (fun r ↦ ((listing.query now order).pager json T limit hlimit).selects c r) limit := by
  cases listing <;> cases order
  all_goals first
    | exact findAllAsc_cursor hlimit _ _ _ c
    | exact findAllDesc_cursor hlimit _ _ _ c

theorem selects_open {c : Option Row} {r : Row}
    (h : (Q.pager json T limit hlimit).selects c r) : Q.Open r := by
  cases hc : kept c with
  | none => exact ((selects_of_none hlimit hc).mp h).open
  | some b => exact ((selects_of_some hlimit hc).mp h).open

theorem selection_eq_select (c : Option Row) :
    (Q.pager json T limit hlimit).selection c =
      select Q.order (fun r ↦ (Q.pager json T limit hlimit).selects c r) T.rows := by
  rw [← Query.filter_select fun r hr ↦ selects_open hlimit hr]
  simp only [Bool.decide_eq_true]
  rfl

theorem finish_map (l : List Row) :
    finish Q.order limit (l.map (scan json)) =
      ⟨((l.insertionSort (Q.pager json T limit hlimit).rank).take limit).map (scan json),
        cursorOf json (l.insertionSort (Q.pager json T limit hlimit).rank)[limit]?⟩ := by
  have hsort : (l.map (scan json)).insertionSort (fun j₁ j₂ ↦ less Q.order j₂ j₁ = false) =
      (l.insertionSort (Q.pager json T limit hlimit).rank).map (scan json) :=
    (List.map_insertionSort _ _ (scan json) l fun _ _ _ _ ↦ Iff.rfl).symm
  simp only [finish, hsort, List.getElem?_map]
  cases hnext : (l.insertionSort (Q.pager json T limit hlimit).rank)[limit]? with
  | none =>
    rw [List.take_of_length_le (List.getElem?_eq_none_iff.mp hnext)]
    rfl
  | some b =>
    rw [← List.map_take]
    rfl

variable (json T) in
theorem find_page (listing : Listing) (order : SortOrder) (now : ℤ) (hmake : makes 176 (limit + 1))
    (c : Option Row) :
    listing.find json T now limit order (cursorOf json c) =
      some ⟨(((listing.query now order).pager json T limit hlimit).page c).map (scan json),
        cursorOf json (((listing.query now order).pager json T limit hlimit).next c)⟩ := by
  have hmake' : makes 16 (limit + 1) := makes_of_le hmake (by decide)
  rw [find_cursor json T hlimit, findAll_eq (fun r hr ↦ (selects_open hlimit hr).1) ⟨hmake', hmake⟩,
    ← selection_eq_select hlimit, finish_map (T := T) hlimit]
  rfl

theorem visits_iff {P : Pager Row} {find : List UInt8 → Option InspectedJobs}
    (hfind : ∀ c, find (cursorOf json c) =
      some ⟨(P.page c).map (scan json), cursorOf json (P.next c)⟩)
    (c : Option Row) (js : List InspectedJob) :
    Visits find (cursorOf json c) js ↔ ∃ l, P.Pages c l ∧ js = l.map (scan json) := by
  constructor
  · intro h
    generalize hcur : cursorOf json c = cursor at h
    induction h generalizing c with
    | last hf =>
      rw [← hcur, hfind, Option.some_inj, InspectedJobs.mk.injEq, cursorOf_eq_nil] at hf
      exact ⟨_, .last hf.2, hf.1.symm⟩
    | more hf hne _ ih =>
      rw [← hcur, hfind, Option.some_inj, InspectedJobs.mk.injEq] at hf
      obtain ⟨rfl, rfl⟩ := hf
      obtain ⟨d, hd⟩ := Option.ne_none_iff_exists'.mp (mt cursorOf_eq_nil.mpr hne)
      obtain ⟨l, hl, rfl⟩ := ih _ rfl
      rw [hd] at hl
      exact ⟨_, .more hd hl, List.map_append.symm⟩
  · rintro ⟨l, hl, rfl⟩
    induction hl with
    | last hn => exact .last (by rw [hfind, hn]; rfl)
    | @more c d rest hn _ ih =>
      rw [List.map_append]
      refine .more (by rw [hfind, hn]) ?_ ih
      rw [Ne, cursorOf_eq_nil]
      simp

end Requests

section Conditions

variable {Q : Query} (json : Marshaler) {T : Table Row.jobId} {limit : ℕ}

theorem selection_none (hlimit : 0 < limit) :
    (Q.pager json T limit hlimit).selection none = Q.jobs T := by
  rw [selection_eq_select, Query.jobs]
  congr 1
  exact funext fun r ↦ propext (selects_of_none hlimit rfl)

/-- What is left of a listing from a position on are its jobs that do not
precede the one there. -/
theorem mem_drop_jobs {i : ℕ} {b r : Row} (hb : (Q.jobs T)[i]? = some b) :
    r ∈ (Q.jobs T).drop i ↔ r ∈ T.rows ∧ Q.Lists r ∧ rowLe Q.order b r := by
  obtain ⟨hi, rfl⟩ := List.getElem?_eq_some_iff.mp hb
  have hle : (Q.jobs T).Pairwise (rowLe Q.order) := select_pairwise
  have hsplit := hle
  rw [← List.take_append_drop i (Q.jobs T), List.pairwise_append] at hsplit
  have hdrop := List.drop_eq_getElem_cons hi
  constructor
  · intro hr
    obtain ⟨hT, hl⟩ := mem_select.mp (List.mem_of_mem_drop hr)
    refine ⟨hT, hl, ?_⟩
    rw [hdrop] at hr hsplit
    rcases List.mem_cons.mp hr with rfl | hr
    · exact (rowLe_iff.mpr ((lexLe_total _ _).elim id id))
    · exact (List.pairwise_cons.mp hsplit.2.1).1 r hr
  · rintro ⟨hT, hl, hbr⟩
    have hr : r ∈ Q.jobs T := mem_select.mpr ⟨hT, hl⟩
    rw [← List.take_append_drop i (Q.jobs T), List.mem_append] at hr
    refine hr.elim (fun hr ↦ ?_) id
    have hbd : (Q.jobs T)[i] ∈ (Q.jobs T).drop i := by
      rw [hdrop]
      exact List.mem_cons_self
    have hid := rowLe_antisymm (hsplit.2.2 r hr _ hbd) hbr
    rwa [Table.eq_of_key hT (mem_select.mp (List.getElem_mem hi)).1 hid]

theorem keeps_iff (hlimit : 0 < limit) {b : Row} :
    (Q.pager json T limit hlimit).keeps b ↔ b.jobId < 2 ^ 63 := decide_eq_true_iff

theorem rank_iff (hlimit : 0 < limit) {q r : Row} :
    (Q.pager json T limit hlimit).rank q r ↔ lexLe Q.order
      (unixNano (timeOf q.nextTry), q.jobId) (unixNano (timeOf r.nextTry), r.jobId) :=
  @not_less_iff _ (scan json q) (scan json r)

theorem fits_iff_pageable (hlimit : 0 < limit) :
    (Q.pager json T limit hlimit).Fits (Q.jobs T) ↔ Q.Pageable T limit := by
  have hall {r : Row} : r ∈ (Q.pager json T limit hlimit).all ↔ r ∈ T.rows ∧ Q.Open r :=
    mem_select
  constructor
  · rintro ⟨hrank, hbound⟩
    refine ⟨hrank.imp (rank_iff json hlimit).mp, fun k b hb ↦ ?_⟩
    obtain ⟨hk, hadm⟩ := hbound k b hb
    refine ⟨(keeps_iff json hlimit).mp hk, fun r hr ↦ ?_⟩
    constructor
    · intro hres
      exact ((mem_drop_jobs hb).mp ((hadm r (hall.mpr ⟨hr, hres.open⟩)).mp
        (decide_eq_true hres))).2
    · intro hl
      exact of_decide_eq_true ((hadm r (hall.mpr ⟨hr, hl.1.open⟩)).mpr
        ((mem_drop_jobs hb).mpr ⟨hr, hl⟩))
  · rintro ⟨hord, hbound⟩
    refine ⟨hord.imp (rank_iff json hlimit).mpr, fun k b hb ↦ ?_⟩
    obtain ⟨hk, hres⟩ := hbound k b hb
    refine ⟨(keeps_iff json hlimit).mpr hk, fun r hr ↦ ?_⟩
    obtain ⟨hT, -⟩ := hall.mp hr
    rw [mem_drop_jobs hb]
    exact decide_eq_true_iff.trans ((hres r hT).trans ⟨fun h ↦ ⟨hT, h⟩, And.right⟩)

/-- While times are in range, the conversions change nothing, and the one
condition that is left is on the ids: each page has to end in front of the
least of the ids that are left, or of the greatest in the descending order. -/
theorem pageable_iff (hrange : ∀ r ∈ Q.jobs T, r.nextTry ≤ maxMillis) :
    Q.Pageable T limit ↔ ∀ k b, (Q.jobs T)[(k + 1) * limit]? = some b →
      b.jobId < 2 ^ 63 ∧ ∀ r ∈ (Q.jobs T).drop ((k + 1) * limit),
        match Q.order with
        | .asc => b.jobId ≤ r.jobId
        | .desc => r.jobId ≤ b.jobId := by
  have hres {i : ℕ} {b r : Row} (hb : (Q.jobs T)[i]? = some b) (hr : r ∈ T.rows) :
      Q.Resumes b r ↔ (Q.Lists r ∧ rowLe Q.order b r) ∧
        match Q.order with
        | .asc => b.jobId ≤ r.jobId
        | .desc => r.jobId ≤ b.jobId := by
    have hbmem := List.mem_of_getElem? hb
    have hlists := (mem_select.mp hbmem).2
    have htime := cursorTime_eq (hrange b hbmem)
    obtain ⟨order, status, lo, hi⟩ := Q
    obtain ⟨hs, hb⟩ := hlists
    cases order
    all_goals
      simp only [Query.Resumes, inspectJobsAsc, inspectJobs, Query.Lists, Query.inRange, rowLe,
        htime] at hb ⊢
      constructor
      · rintro ⟨hs, h₁, h₂, h₃⟩
        exact ⟨⟨⟨hs, by omega⟩, by omega⟩, h₃⟩
      · rintro ⟨⟨⟨hs, h₁⟩, h₂⟩, h₃⟩
        exact ⟨hs, by omega, by omega, h₃⟩
  constructor
  · intro h k b hb
    refine ⟨(h.boundary k b hb).1, fun r hr ↦ ?_⟩
    obtain ⟨hT, hl⟩ := (mem_drop_jobs hb).mp hr
    exact ((hres hb hT).mp (((h.boundary k b hb).2 r hT).mpr hl)).2
  · intro h
    refine ⟨select_pairwise.imp_of_mem fun hq hr hle ↦ ?_, fun k b hb ↦ ?_⟩
    · rw [unixNano_timeOf (hrange _ hq), unixNano_timeOf (hrange _ hr)]
      rw [rowLe_iff] at hle
      revert hle
      cases Q.order <;> simp only [lexLe, millisecond] <;> omega
    · obtain ⟨hk, hid⟩ := h k b hb
      refine ⟨hk, fun r hr ↦ (hres hb hr).trans ⟨And.left, fun hl ↦ ⟨hl, ?_⟩⟩⟩
      exact hid r ((mem_drop_jobs hb).mpr ⟨hr, hl⟩)

theorem pages_iff_pageable (hlimit : 0 < limit) :
    (∃ l, (Q.pager json T limit hlimit).Pages none l ∧
      (Q.jobs T).map (scan json) = l.map (scan json)) ↔ Q.Pageable T limit := by
  rw [← fits_iff_pageable json hlimit, ← selection_none json hlimit, ← Pager.pages_iff]
  constructor
  · rintro ⟨l, hl, heq⟩
    have hall {l : List Row} (h : l ⊆ (Q.pager json T limit hlimit).all) : l ⊆ T.rows :=
      fun r hr ↦ (mem_select.mp (h hr)).1
    have hids := congrArg (List.map InspectedJob.id) heq
    simp only [List.map_map] at hids
    rwa [Table.eq_of_map_key (hall Pager.selection_suffix.subset) (hall hl.subset) hids]
  · intro h
    exact ⟨_, h, rfl⟩

end Conditions

/-- Listings lose nothing exactly if the limit can be allocated and the table
is pageable. The greatest limit of all wraps around to no rows. -/
theorem lossless_iff (json : Marshaler) (T : Table Row.jobId) (now : ℤ) (limit : ℕ)
    (listing : Listing) (order : SortOrder) (hlimit : 1 ≤ limit) (hfits : limit < 2 ^ 64) :
    Lossless json T now limit listing order ↔
      makes 176 (limit + 1) ∧ (listing.query now order).Pageable T limit ∨
        limit = maxUint64 ∧ (listing.query now order).jobs T = [] := by
  have hfirst : listing.find json T now limit order [] = _ :=
    find_cursor json T hlimit listing order now none
  rcases limit_cases hfits with ⟨hmake, hmax⟩ | ⟨hmake, hmax, hlt⟩ | ⟨hmake, rfl⟩
  · rw [Lossless, show ([] : List UInt8) = cursorOf json none from rfl,
      visits_iff (find_page json T hlimit listing order now hmake), pages_iff_pageable json hlimit]
    simp [hmake, hmax]
  · rw [findAll_eq_none hlt hmake] at hfirst
    simp only [hmake, hmax, false_and, or_self, iff_false]
    intro h
    rw [Lossless] at h
    obtain ⟨page, hf⟩ := h.exists_page
    rw [hfirst] at hf
    cases hf
  · rw [findAll_wrapped] at hfirst
    have hlast := Visits.last hfirst
    simp only [hmake, false_and, true_and, false_or]
    constructor
    · intro h
      exact List.map_eq_nil_iff.mp (h.unique hlast)
    · intro h
      rw [Lossless, h]
      exact hlast

section Samples

def waitingRow (id nextTry : ℕ) (h : id < 2 ^ 64 ∧ nextTry < 2 ^ 64) : Row where
  jobId := id
  nextTry := nextTry
  grabberId := none
  status := .claimed
  createdAt := 0
  retryCount := 0
  retryDelay := 0
  failCount := 0
  category := "test"
  url := "http://localhost/"
  payload := "1"
  timeout := 0
  failureUrl := none
  fits := by omega

def aligned : Table Row.jobId where
  rows := [waitingRow 1 100 (by decide), waitingRow 2 200 (by decide), waitingRow 3 300 (by decide)]
  nodup := by decide

def delayed : Table Row.jobId where
  rows := [waitingRow 1 300 (by decide), waitingRow 2 100 (by decide), waitingRow 3 200 (by decide)]
  nodup := by decide

end Samples

theorem lossless_iff_aligned :
    (1 ≤ 1 ∧ 1 < 2 ^ 64) ∧ Lossless plain aligned second 1 .waiting .asc := by
  have hjobs : (Listing.waiting.query second .asc).jobs aligned = aligned.rows := by
    decide +kernel
  refine ⟨by decide, (lossless_iff plain aligned second 1 .waiting .asc (by decide)
    (by decide)).mpr (.inl ⟨by decide, ?_⟩)⟩
  rw [pageable_iff (by rw [hjobs]; decide), hjobs]
  intro k b hb
  obtain ⟨hk, rfl⟩ := List.getElem?_eq_some_iff.mp hb
  have hlen : aligned.rows.length = 3 := rfl
  obtain rfl | rfl : k = 0 ∨ k = 1 := by omega
  · exact show 2 < 2 ^ 63 ∧ ∀ r ∈ aligned.rows.drop 1, 2 ≤ r.jobId by decide
  · exact show 3 < 2 ^ 63 ∧ ∀ r ∈ aligned.rows.drop 2, 3 ≤ r.jobId by decide

/-- With one job a page, the cursor to the third job hides the first one, which
is due after it. -/
theorem delayed_job_not_listed :
    waitingRow 1 300 (by decide) ∈ (Listing.waiting.query second .asc).jobs delayed ∧
      Visits (Listing.waiting.find plain delayed second 1 .asc) []
        ([waitingRow 2 100 (by decide), waitingRow 3 200 (by decide)].map (scan plain)) ∧
      ¬ Lossless plain delayed second 1 .waiting .asc := by
  have hfirst : Listing.waiting.find plain delayed second 1 .asc [] =
      some ⟨[scan plain (waitingRow 2 100 (by decide))],
        encodeCursor (scan plain (waitingRow 3 200 (by decide)))⟩ := by decide +kernel
  have hsecond : Listing.waiting.find plain delayed second 1 .asc
      (encodeCursor (scan plain (waitingRow 3 200 (by decide)))) =
        some ⟨[scan plain (waitingRow 3 200 (by decide))], []⟩ := by decide +kernel
  have hvisits := Visits.more hfirst (encodeCursor_ne_nil _) (.last hsecond)
  refine ⟨by decide +kernel, hvisits, fun h ↦ ?_⟩
  have hlen := congrArg List.length (h.unique hvisits)
  exact absurd hlen (by decide +kernel)

end Fireworq.MySQL.Inspector
