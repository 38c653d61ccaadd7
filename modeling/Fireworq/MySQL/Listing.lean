import Fireworq.MySQL.Pagination

namespace Fireworq.MySQL.Inspector

open Relational GoEncoding GoInt

section PlainQuery

/-- `findAllAsc` or `findAllDesc`. -/
def findAllBy (json : Marshaler) (T : Table Row.jobId) (status : Status) (minTime maxTime : ℤ)
    (limit : ℕ) (cursor : List UInt8) : SortOrder → Option InspectedJobs
  | .asc => findAllAsc json T status minTime maxTime limit cursor
  | .desc => findAllDesc json T status minTime maxTime limit cursor

def restricts (status : Status) (minTime maxTime : ℤ) (cursor : List UInt8) (order : SortOrder)
    (r : Row) : Prop :=
  match order, decodeCursor cursor with
  | .asc, some (t, j) => inspectJobsAsc status t maxTime (uint64 j) r
  | .asc, none =>
    inspectJobsAsc status (if minTime ≥ maxInt64 then 0 else minTime) maxTime 0 r
  | .desc, some (t, j) => inspectJobs status minTime t (uint64 j) r
  | .desc, none =>
    inspectJobs status minTime (if maxTime ≤ 0 then maxInt64 else maxTime) maxUint64 r

instance (status : Status) (minTime maxTime : ℤ) (cursor : List UInt8) (order : SortOrder) :
    DecidablePred (restricts status minTime maxTime cursor order) := fun r ↦ by
  unfold restricts
  split <;> infer_instance

variable {json : Marshaler} {T : Table Row.jobId} {status : Status} {minTime maxTime : ℤ}
  {limit : ℕ} {cursor : List UInt8} {order : SortOrder}

theorem restricts_status {r : Row} (h : restricts status minTime maxTime cursor order r) :
    r.status = status := by
  unfold restricts at h
  split at h <;> exact h.1

theorem findAllBy_eq :
    findAllBy json T status minTime maxTime limit cursor order =
      findAll json order T status (restricts status minTime maxTime cursor order) limit := by
  cases order with
  | asc =>
    cases h : decodeCursor cursor with
    | none =>
      rw [findAllBy, findAllAsc_of_none h]
      exact findAll_congr fun r ↦ by simp only [restricts, h]
    | some c =>
      rw [findAllBy, findAllAsc_of_some h]
      exact findAll_congr fun r ↦ by simp only [restricts, h]
  | desc =>
    cases h : decodeCursor cursor with
    | none =>
      rw [findAllBy, findAllDesc_of_none h]
      exact findAll_congr fun r ↦ by simp only [restricts, h]
    | some c =>
      rw [findAllBy, findAllDesc_of_some h]
      exact findAll_congr fun r ↦ by simp only [restricts, h]

def cursorText (r : Row) : List UInt8 := formatUint r.nextTry ++ comma :: formatUint r.jobId

structure PlainPage (json : Marshaler) (limit : ℕ) (rows : List Row) (page : InspectedJobs) :
    Prop where
  jobs : page.jobs = (rows.take limit).map (scan json)
  more : page.nextCursor ≠ [] ↔ limit < rows.length
  next : ∀ r, rows[limit]? = some r → decodeString page.nextCursor = some (cursorText r)

/-- The comparison within the process is the `ORDER BY` of the statements. -/
theorem less_scan_iff {q r : Row} (hq : q.nextTry ≤ maxMillis) (hr : r.nextTry ≤ maxMillis) :
    less order (scan json r) (scan json q) = false ↔ rowLe order q r := by
  rw [not_less_iff, rowLe_iff]
  simp only [scan, unixNano_timeOf hq, unixNano_timeOf hr, millisecond]
  cases order <;> simp only [lexLe] <;> omega

theorem sort_select {p : Row → Prop} [DecidablePred p]
    (hrange : ∀ r ∈ T.rows, r.nextTry ≤ maxMillis) (n : ℕ) :
    (((select order p T.rows).take n).map (scan json)).insertionSort
        (fun j₁ j₂ ↦ less order j₂ j₁ = false) =
      ((select order p T.rows).take n).map (scan json) := by
  apply List.Pairwise.insertionSort_eq
  rw [List.pairwise_map]
  have hsorted : ((select order p T.rows).take n).Pairwise (rowLe order) :=
    select_pairwise.sublist (List.take_sublist _ _)
  refine hsorted.imp_of_mem fun {q r} hq hr h ↦ ?_
  have hmem {r : Row} (h : r ∈ (select order p T.rows).take n) : r.nextTry ≤ maxMillis :=
    hrange r (mem_select.mp (List.mem_of_mem_take h)).1
  exact (less_scan_iff (hmem hq) (hmem hr)).mpr h

theorem decodeString_encodeCursor {r : Row} (h : r.nextTry ≤ maxMillis) :
    decodeString (encodeCursor (scan json r)) = some (cursorText r) := by
  have hformat : formatInt (r.nextTry : ℤ) = formatUint r.nextTry := by
    rw [formatInt, if_neg (by omega), Int.natAbs_natCast]
  have htime : (unixNano (scan json r).nextTry).tdiv millisecond = r.nextTry :=
    tdiv_unixNano_timeOf h
  rw [encodeCursor, decodeString_encodeToString, htime, hformat]
  rfl

theorem finish_plain {p : Row → Prop} [DecidablePred p]
    (hrange : ∀ r ∈ T.rows, r.nextTry ≤ maxMillis) :
    PlainPage json limit (select order p T.rows)
      (finish order limit (((select order p T.rows).take (limit + 1)).map (scan json))) := by
  have hnext : (((select order p T.rows).take (limit + 1)).map (scan json))[limit]? =
      ((select order p T.rows)[limit]?).map (scan json) := by
    rw [List.getElem?_map, List.getElem?_take_of_lt (Nat.lt_succ_self limit)]
  cases hr : (select order p T.rows)[limit]? with
  | none =>
    have hlen := List.getElem?_eq_none_iff.mp hr
    have hfinish : finish order limit (((select order p T.rows).take (limit + 1)).map (scan json)) =
        ⟨(select order p T.rows).map (scan json), []⟩ := by
      simp only [finish, sort_select hrange, hnext, hr, Option.map_none]
      rw [List.take_of_length_le (by omega)]
    rw [hfinish]
    constructor
    · rw [List.take_of_length_le hlen]
    · simpa using hlen
    · intro r h
      rw [hr] at h
      cases h
  | some r =>
    have hlt : limit < (select order p T.rows).length := (List.getElem?_eq_some_iff.mp hr).1
    have hfinish : finish order limit (((select order p T.rows).take (limit + 1)).map (scan json)) =
        ⟨((select order p T.rows).take limit).map (scan json), encodeCursor (scan json r)⟩ := by
      simp only [finish, sort_select hrange, hnext, hr, Option.map_some]
      rw [← List.map_take, List.take_take, Nat.min_eq_left (Nat.le_succ limit)]
    rw [hfinish]
    constructor
    · rfl
    · dsimp only
      exact iff_of_true (encodeCursor_ne_nil (scan json r)) hlt
    · intro q hq
      cases hr.symm.trans hq
      dsimp only
      exact decodeString_encodeCursor (hrange r (mem_select.mp (List.mem_of_getElem? hr)).1)

/-- A call in two phases answers the plain query exactly if the extra row can
be allocated. -/
theorem findAllBy_plain_iff (json : Marshaler) (T : Table Row.jobId) (status : Status)
    (minTime maxTime : ℤ) (limit : ℕ) (cursor : List UInt8) (order : SortOrder)
    (hrange : ∀ r ∈ T.rows, r.nextTry * 1000000 < 2 ^ 63) (hlimit : limit + 1 < 2 ^ 64) :
    (∃ page, findAllBy json T status minTime maxTime limit cursor order = some page ∧
        PlainPage json limit
          (select order (restricts status minTime maxTime cursor order) T.rows) page) ↔
      makes 176 (limit + 1) := by
  have hmillis : ∀ r ∈ T.rows, r.nextTry ≤ maxMillis := by
    intro r hr
    have := hrange r hr
    unfold maxMillis
    omega
  rw [findAllBy_eq]
  constructor
  · intro h
    obtain ⟨page, hpage, -⟩ := h
    by_contra hmake
    rw [findAll_eq_none hlimit hmake] at hpage
    cases hpage
  · intro hmake
    have hmake' : makes 16 (limit + 1) := makes_of_le hmake (by decide)
    exact ⟨_, findAll_eq (fun _ ↦ restricts_status) ⟨hmake', hmake⟩, finish_plain hmillis⟩

theorem findAllBy_plain_iff_delayed :
    ((∀ r ∈ delayed.rows, r.nextTry * 1000000 < 2 ^ 63) ∧ 2 + 1 < 2 ^ 64) ∧
      ∃ page, findAllBy plain delayed .claimed 0 1000 2 [] .asc = some page ∧
        PlainPage plain 2
          (select .asc (restricts .claimed 0 1000 [] .asc) delayed.rows) page :=
  ⟨by decide, (findAllBy_plain_iff plain delayed .claimed 0 1000 2 [] .asc (by decide)
    (by decide)).mpr (by decide)⟩

/-- The allocations of a listing depend on its limit and not on its rows. -/
theorem findAllBy_panics_on_limit :
    (∀ r ∈ delayed.rows, r.nextTry * 1000000 < 2 ^ 63) ∧ 2 ^ 60 + 1 < 2 ^ 64 ∧
      findAllBy plain delayed .claimed 0 1000 (2 ^ 60) [] .asc = none := by
  refine ⟨by decide, by decide, ?_⟩
  rw [findAllBy_eq]
  exact findAll_eq_none (by decide) (by decide)

end PlainQuery

section RoundTrip

variable {json : Marshaler} {T : Table Row.jobId}

def cursorBounds (cursor : List UInt8) : Option (ℤ × ℕ) :=
  (decodeCursor cursor).map fun c ↦ (c.1, uint64 c.2)

/-- Cursors lead back to their rows, and the process sorts rows as the server
does. -/
structure RoundTrips (json : Marshaler) (T : Table Row.jobId) : Prop where
  cursor : ∀ r ∈ T.rows,
    cursorBounds (encodeCursor (scan json r)) = some ((r.nextTry : ℤ), r.jobId)
  sorts : ∀ q ∈ T.rows, ∀ r ∈ T.rows, ∀ order,
    less order (scan json q) (scan json r) = true ↔ ¬ rowLe order r q

theorem cursorBounds_encodeCursor (r : Row) :
    cursorBounds (encodeCursor (scan json r)) =
      if r.jobId < 2 ^ 63 then some (cursorTime r, r.jobId) else none := by
  rw [cursorBounds, decodeCursor_encodeCursor]
  split
  · rw [Option.map_some, uint64_natCast (by omega)]
  · rw [Option.map_none]

theorem cursorBounds_eq_iff {r : Row} :
    cursorBounds (encodeCursor (scan json r)) = some ((r.nextTry : ℤ), r.jobId) ↔
      r.nextTry ≤ maxMillis ∧ r.jobId < 2 ^ 63 := by
  rw [cursorBounds_encodeCursor]
  have hrange := (cursorTime_range r).2
  split
  · rw [Option.some_inj, Prod.mk.injEq]
    constructor
    · intro h
      exact ⟨by omega, ‹_›⟩
    · intro h
      exact ⟨cursorTime_eq h.1, rfl⟩
  · simp_all

/-- The sort by nanoseconds that wrap around needs no condition of its own. -/
theorem roundTrips_iff (json : Marshaler) (T : Table Row.jobId) :
    RoundTrips json T ↔ ∀ r ∈ T.rows, r.nextTry ≤ maxMillis ∧ r.jobId < 2 ^ 63 := by
  constructor
  · intro h r hr
    exact cursorBounds_eq_iff.mp (h.cursor r hr)
  · intro h
    refine ⟨fun r hr ↦ cursorBounds_eq_iff.mpr (h r hr), fun q hq r hr order ↦ ?_⟩
    rw [← less_scan_iff (h r hr).1 (h q hq).1, Bool.not_eq_false]

/-- A job that was pushed with a `run_after` of 9223372037 seconds, before a
job that is due at once. -/
def distant : Table Row.jobId where
  rows := [waitingRow 1 9223372037000 (by decide), waitingRow 2 1000 (by decide)]
  nodup := by decide

/-- The time of the first job wraps around: its cursor has a negative time, and
it is sorted before the job that is due at once. -/
theorem distant_job_wraps :
    cursorBounds (encodeCursor (scan plain (waitingRow 1 9223372037000 (by decide)))) =
        some (-9223372036709, 1) ∧
      less .asc (scan plain (waitingRow 1 9223372037000 (by decide)))
        (scan plain (waitingRow 2 1000 (by decide))) = true ∧
      ¬ RoundTrips plain distant := by
  refine ⟨by decide +kernel, by decide +kernel, fun h ↦ ?_⟩
  have hrow := (h.cursor (waitingRow 1 9223372037000 (by decide)) (by decide))
  exact absurd hrow (by decide +kernel)

end RoundTrip

section Restrictions

namespace Listing

def status : Listing → Status
  | .grabbed => .grabbed
  | .waiting | .deferred => .claimed

def bounds (now : ℤ) : Listing → SortOrder → ℤ × ℤ
  | .grabbed, _ | .waiting, _ => (0, now.tdiv millisecond)
  | .deferred, .asc => (now.tdiv millisecond, maxInt64)
  | .deferred, .desc => (now.tdiv millisecond, 0)

def requests (listing : Listing) (now : ℤ) (order : SortOrder) (cursor : List UInt8) :
    Row → Prop :=
  restricts listing.status (listing.bounds now order).1 (listing.bounds now order).2 cursor order

instance (listing : Listing) (now : ℤ) (order : SortOrder) (cursor : List UInt8) :
    DecidablePred (listing.requests now order cursor) :=
  inferInstanceAs (DecidablePred (restricts _ _ _ _ _))

theorem find_eq (listing : Listing) (json : Marshaler) (T : Table Row.jobId) (now : ℤ)
    (limit : ℕ) (order : SortOrder) (cursor : List UInt8) :
    listing.find json T now limit order cursor =
      findAll json order T listing.status (listing.requests now order cursor) limit := by
  have hby : listing.find json T now limit order cursor =
      findAllBy json T listing.status (listing.bounds now order).1 (listing.bounds now order).2
        limit cursor order := by
    cases listing <;> cases order <;> rfl
  rw [hby, findAllBy_eq]
  rfl

theorem requests_status {listing : Listing} {now : ℤ} {order : SortOrder} {cursor : List UInt8}
    {r : Row} (h : listing.requests now order cursor r) : r.status = listing.status :=
  restricts_status h

end Listing

end Restrictions

section Partition

variable {json : Marshaler} {T : Table Row.jobId} {now : ℤ} {limit : ℕ} {order : SortOrder}
  {status : Status} {p q : Row → Prop} [DecidablePred p] [DecidablePred q]

theorem scan_injOn {q r : Row} (hq : q ∈ T.rows) (hr : r ∈ T.rows)
    (h : scan json q = scan json r) : q = r :=
  Table.eq_of_key hq hr (congrArg InspectedJob.id h)

def listed (json : Marshaler) (order : SortOrder) (T : Table Row.jobId) (p : Row → Prop)
    [DecidablePred p] : List InspectedJob :=
  ((T.rows.filter p).map (scan json)).insertionSort fun j₁ j₂ ↦ less order j₂ j₁ = false

theorem mem_listed {j : InspectedJob} :
    j ∈ listed json order T p ↔ ∃ r ∈ T.rows, p r ∧ scan json r = j := by
  simp [listed, and_assoc]

theorem scan_mem_listed {r : Row} (hr : r ∈ T.rows) :
    scan json r ∈ listed json order T p ↔ p r := by
  rw [mem_listed]
  constructor
  · intro h
    obtain ⟨q, hq, hp, heq⟩ := h
    rwa [← scan_injOn hq hr heq]
  · intro h
    exact ⟨r, hr, h, rfl⟩

theorem filter_scan_nodup : ((T.rows.filter p).map (scan json)).Nodup := by
  apply List.Nodup.of_map InspectedJob.id
  rw [List.map_map]
  exact T.nodup.sublist (List.filter_sublist.map _)

theorem listed_nodup : (listed json order T p).Nodup :=
  (List.perm_insertionSort _ _).nodup_iff.mpr filter_scan_nodup

/-- A limit that the size of the table does not exceed gives the whole listing. -/
theorem findAll_listed (hp : ∀ r, p r → r.status = status) (hmake : makes 176 (limit + 1))
    (hlimit : T.rows.length ≤ limit) :
    findAll json order T status p limit = some ⟨listed json order T p, []⟩ := by
  have hmake' : makes 16 (limit + 1) := makes_of_le hmake (by decide)
  have hlen : (T.rows.filter p).length ≤ T.rows.length := List.length_filter_le _ _
  have hperm : (select order p T.rows).Perm (T.rows.filter p) := List.perm_insertionSort _ _
  have htake : (select order p T.rows).take (limit + 1) = select order p T.rows := by
    apply List.take_of_length_le
    rw [hperm.length_eq]
    omega
  have hnone : (listed json order T p)[limit]? = none := by
    rw [List.getElem?_eq_none_iff, listed, List.length_insertionSort, List.length_map]
    omega
  rw [findAll_eq hp ⟨hmake', hmake⟩, htake, finish_perm T hperm (List.filter_subset_self _)]
  unfold listed at *
  simp only [finish, hnone]

/-- The two orders sort the same rows in reverse of each other. -/
theorem listed_reverse_iff :
    listed json .asc T p = (listed json .desc T q).reverse ↔ ∀ r ∈ T.rows, p r ↔ q r := by
  constructor
  · intro h r hr
    have hmem : scan json r ∈ listed json .asc T p ↔ p r := scan_mem_listed hr
    rw [← hmem, h, List.mem_reverse, scan_mem_listed hr]
  · intro h
    have hfilter : T.rows.filter p = T.rows.filter q := by
      apply List.filter_congr
      intro r hr
      simp only [h r hr]
    refine List.Perm.eq_of_pairwise ?_ (List.pairwise_insertionSort _ _) ?_ ?_
    · intro j₁ j₂ hj₁ hj₂ h₁ h₂
      rw [List.mem_reverse] at hj₂
      obtain ⟨r₁, hr₁, -, rfl⟩ := mem_listed.mp hj₁
      obtain ⟨r₂, hr₂, -, rfl⟩ := mem_listed.mp hj₂
      have hid : r₁.jobId = r₂.jobId := lexLe_antisymm (not_less_iff.mp h₁) (not_less_iff.mp h₂)
      rw [Table.eq_of_key hr₁ hr₂ hid]
    · rw [List.pairwise_reverse]
      refine (List.pairwise_insertionSort _ _).imp fun {j₁ j₂} hle ↦ ?_
      rw [not_less_iff] at hle ⊢
      exact hle
    · rw [listed, hfilter]
      refine (List.perm_insertionSort _ _).trans (List.Perm.trans ?_ (List.reverse_perm _).symm)
      exact (List.perm_insertionSort _ _).symm

theorem listed_append_perm_iff (hp : ∀ r, p r → r.status = status)
    (hq : ∀ r, q r → r.status = status) :
    (listed json order T p ++ listed json order T q).Perm
        ((T.rows.filter fun r ↦ r.status = status).map (scan json)) ↔
      ∀ r ∈ T.rows, r.status = status → (p r ↔ ¬ q r) := by
  constructor
  · intro h r hr hstatus
    have hnodup := h.nodup_iff.mpr filter_scan_nodup
    have hmem : scan json r ∈ listed json order T p ++ listed json order T q :=
      h.mem_iff.mpr (List.mem_map_of_mem (List.mem_filter.mpr ⟨hr, decide_eq_true hstatus⟩))
    rw [List.mem_append, scan_mem_listed hr, scan_mem_listed hr] at hmem
    have hdisjoint := (List.nodup_append'.mp hnodup).2.2
    constructor
    · intro hpr hqr
      exact hdisjoint ((scan_mem_listed hr).mpr hpr) ((scan_mem_listed hr).mpr hqr)
    · intro hqr
      exact hmem.resolve_right hqr
  · intro h
    rw [List.perm_ext_iff_of_nodup _ filter_scan_nodup]
    · intro j
      simp only [List.mem_append, mem_listed, List.mem_map, List.mem_filter, decide_eq_true_eq]
      constructor
      · intro hj
        obtain ⟨r, hr, hpr, rfl⟩ | ⟨r, hr, hqr, rfl⟩ := hj
        · exact ⟨r, ⟨hr, hp r hpr⟩, rfl⟩
        · exact ⟨r, ⟨hr, hq r hqr⟩, rfl⟩
      · intro hj
        obtain ⟨r, ⟨hr, hstatus⟩, rfl⟩ := hj
        by_cases hqr : q r
        · exact .inr ⟨r, hr, hqr, rfl⟩
        · exact .inl ⟨r, hr, (h r hr hstatus).mpr hqr, rfl⟩
    · refine List.nodup_append'.mpr ⟨listed_nodup, listed_nodup, fun j hj hj' ↦ ?_⟩
      obtain ⟨r, hr, hpr, rfl⟩ := mem_listed.mp hj
      exact (h r hr (hp r hpr)).mp hpr ((scan_mem_listed hr).mp hj')

/-- The complete listings of the waiting and of the deferred jobs share out the
claimed jobs, and the order of a request does not change what is listed. -/
structure Partitions (json : Marshaler) (T : Table Row.jobId) (now : ℤ) (limit : ℕ) : Prop where
  claimed : ∀ order, ∃ waiting deferred,
    Listing.waiting.find json T now limit order [] = some ⟨waiting, []⟩ ∧
      Listing.deferred.find json T now limit order [] = some ⟨deferred, []⟩ ∧
      (waiting ++ deferred).Perm ((T.rows.filter fun r ↦ r.status = .claimed).map (scan json))
  reverse : ∀ listing : Listing, ∃ asc desc,
    listing.find json T now limit .asc [] = some ⟨asc, []⟩ ∧
      listing.find json T now limit .desc [] = some ⟨desc, []⟩ ∧ asc = desc.reverse

/-- The time of a row is none of the bounds at which the listings disagree. -/
def Unambiguous (now : ℤ) (r : Row) : Prop :=
  if 0 < now.tdiv millisecond then
    r.nextTry ≠ 0 ∧ (r.nextTry : ℤ) ≠ now.tdiv millisecond ∧
      (r.status = .claimed → r.nextTry < maxInt64)
  else
    match r.status with
    | .claimed => now.tdiv millisecond < 0 ∧ r.nextTry = 0
    | .grabbed => r.nextTry = 0 ∨ maxInt64 < r.nextTry

theorem decodeCursor_nil : decodeCursor [] = none := rfl

theorem tdiv_millisecond_lt (h₁ : now < 2 ^ 63) : now.tdiv millisecond < maxInt64 := by
  unfold millisecond maxInt64
  rcases le_total 0 now with h | h
  · rw [Int.tdiv_eq_ediv_of_nonneg h]
    omega
  · rw [← Int.neg_neg now, Int.neg_tdiv, Int.tdiv_eq_ediv_of_nonneg (by omega)]
    omega

theorem requests_asc_nil (hnow : now < 2 ^ 63) (listing : Listing) (r : Row) :
    listing.requests now .asc [] r ↔
      match listing with
      | .grabbed => r.status = .grabbed ∧ r.nextTry < now.tdiv millisecond
      | .waiting => r.status = .claimed ∧ r.nextTry < now.tdiv millisecond
      | .deferred => r.status = .claimed ∧ now.tdiv millisecond ≤ r.nextTry ∧
          r.nextTry < maxInt64 := by
  have hm := tdiv_millisecond_lt hnow
  have hzero : ¬ (0 : ℤ) ≥ maxInt64 := by decide
  cases listing <;>
    simp [Listing.requests, restricts, decodeCursor_nil, inspectJobsAsc, Listing.status,
      Listing.bounds, hzero, not_le.mpr hm]

theorem requests_desc_nil (listing : Listing) (r : Row) :
    listing.requests now .desc [] r ↔
      match listing with
      | .grabbed => r.status = .grabbed ∧ 0 < r.nextTry ∧
          r.nextTry ≤ if now.tdiv millisecond ≤ 0 then maxInt64 else now.tdiv millisecond
      | .waiting => r.status = .claimed ∧ 0 < r.nextTry ∧
          r.nextTry ≤ if now.tdiv millisecond ≤ 0 then maxInt64 else now.tdiv millisecond
      | .deferred => r.status = .claimed ∧ now.tdiv millisecond < r.nextTry ∧
          r.nextTry ≤ maxInt64 := by
  have hid : r.jobId ≤ maxUint64 := by
    have := r.fits.1
    unfold maxUint64
    omega
  cases listing <;>
    simp [Listing.requests, restricts, decodeCursor_nil, inspectJobs, Listing.status,
      Listing.bounds, hid] <;>
    intros <;> rfl

theorem unambiguous_iff (hnow : now < 2 ^ 63) (r : Row) :
    Unambiguous now r ↔
      (r.status = .claimed → ∀ order,
        (Listing.waiting.requests now order [] r ↔ ¬ Listing.deferred.requests now order [] r)) ∧
      ∀ listing : Listing, listing.requests now .asc [] r ↔ listing.requests now .desc [] r := by
  have hm := tdiv_millisecond_lt hnow
  have hpos : (0 : ℤ) < maxInt64 := by decide
  have horder (P : SortOrder → Prop) : (∀ order, P order) ↔ P .asc ∧ P .desc :=
    ⟨fun h ↦ ⟨h _, h _⟩, fun h order ↦ by cases order; exacts [h.1, h.2]⟩
  have hlisting (P : Listing → Prop) :
      (∀ listing, P listing) ↔ P .grabbed ∧ P .waiting ∧ P .deferred :=
    ⟨fun h ↦ ⟨h _, h _, h _⟩, fun h l ↦ by cases l; exacts [h.1, h.2.1, h.2.2]⟩
  simp only [horder, hlisting, requests_asc_nil hnow, requests_desc_nil]
  unfold Unambiguous
  generalize now.tdiv millisecond = m at *
  generalize maxInt64 = M at *
  cases r.status <;> simp only [reduceCtorEq, true_and, false_and, false_imp_iff, true_imp_iff,
    iff_self, and_true] <;> split <;> split <;> omega

theorem partitions_listed (hmake : makes 176 (limit + 1)) (hlimit : T.rows.length < limit) :
    Partitions json T now limit ↔
      (∀ order, ∀ r ∈ T.rows, r.status = .claimed →
        (Listing.waiting.requests now order [] r ↔ ¬ Listing.deferred.requests now order [] r)) ∧
      ∀ listing : Listing, ∀ r ∈ T.rows,
        (listing.requests now .asc [] r ↔ listing.requests now .desc [] r) := by
  have hfind (listing : Listing) (order : SortOrder) :
      listing.find json T now limit order [] =
        some ⟨listed json order T (listing.requests now order []), []⟩ := by
    rw [Listing.find_eq]
    exact findAll_listed (fun _ ↦ Listing.requests_status) hmake hlimit.le
  have hperm (order : SortOrder) :
      (listed json order T (Listing.waiting.requests now order []) ++
        listed json order T (Listing.deferred.requests now order [])).Perm
          ((T.rows.filter fun r ↦ r.status = .claimed).map (scan json)) ↔ _ :=
    listed_append_perm_iff (fun _ ↦ Listing.requests_status) (fun _ ↦ Listing.requests_status)
  constructor
  · intro h
    refine ⟨fun order ↦ ?_, fun listing ↦ ?_⟩
    · obtain ⟨waiting, deferred, hw, hd, hclaimed⟩ := h.claimed order
      cases (hfind _ _).symm.trans hw
      cases (hfind _ _).symm.trans hd
      exact (hperm order).mp hclaimed
    · obtain ⟨asc, desc, ha, hd, hreverse⟩ := h.reverse listing
      cases (hfind _ _).symm.trans ha
      cases (hfind _ _).symm.trans hd
      exact listed_reverse_iff.mp hreverse
  · intro h
    constructor
    · intro order
      exact ⟨_, _, hfind _ _, hfind _ _, (hperm order).mpr (h.1 order)⟩
    · intro listing
      exact ⟨_, _, hfind _ _, hfind _ _, listed_reverse_iff.mpr (h.2 listing)⟩

theorem partitions_wrapped :
    Partitions json T now maxUint64 ↔ ∀ r ∈ T.rows, r.status = .grabbed := by
  have hfind (listing : Listing) (order : SortOrder) :
      listing.find json T now maxUint64 order [] = some ⟨[], []⟩ := by
    rw [Listing.find_eq, findAll_wrapped]
  have hnil : [].Perm ((T.rows.filter fun r ↦ r.status = .claimed).map (scan json)) ↔
      ∀ r ∈ T.rows, r.status = .grabbed := by
    rw [List.nil_perm, List.map_eq_nil_iff, List.filter_eq_nil_iff]
    refine forall₂_congr fun r _ ↦ ?_
    cases r.status <;> simp
  constructor
  · intro h
    obtain ⟨waiting, deferred, hw, hd, hclaimed⟩ := h.claimed .asc
    cases (hfind _ _).symm.trans hw
    cases (hfind _ _).symm.trans hd
    exact hnil.mp hclaimed
  · intro h
    constructor
    · intro order
      exact ⟨[], [], hfind _ _, hfind _ _, hnil.mpr h⟩
    · intro listing
      exact ⟨[], [], hfind _ _, hfind _ _, rfl⟩

/-- Waiting and deferred jobs are told apart exactly if the limit can be
allocated and no job is at a bound. -/
theorem partitions_iff (json : Marshaler) (T : Table Row.jobId) (now : ℤ) (limit : ℕ)
    (hnow : -2 ^ 63 ≤ now ∧ now < 2 ^ 63) (hlimit : T.rows.length < limit)
    (hfits : limit < 2 ^ 64) :
    Partitions json T now limit ↔
      (makes 176 (limit + 1) ∧ ∀ r ∈ T.rows, Unambiguous now r) ∨
        limit = maxUint64 ∧ ∀ r ∈ T.rows, r.status = .grabbed := by
  rcases limit_cases hfits with ⟨hmake, hmax⟩ | ⟨hmake, hmax, hlt⟩ | ⟨hmake, rfl⟩
  · rw [partitions_listed hmake hlimit]
    simp only [hmake, hmax, true_and, false_and, or_false, unambiguous_iff hnow.2]
    constructor
    · intro h r hr
      exact ⟨fun hclaimed order ↦ h.1 order r hr hclaimed, fun listing ↦ h.2 listing r hr⟩
    · intro h
      exact ⟨fun order r hr hclaimed ↦ (h r hr).1 hclaimed order,
        fun listing r hr ↦ (h r hr).2 listing⟩
  · simp only [hmake, hmax, false_and, or_self, iff_false]
    intro h
    obtain ⟨asc, -, hasc, -⟩ := h.reverse .waiting
    rw [Listing.find_eq, findAll_eq_none hlt hmake] at hasc
    cases hasc
  · rw [partitions_wrapped]
    simp only [hmake, false_and, true_and, false_or]

theorem partitions_iff_aligned :
    ((-2 ^ 63 ≤ second ∧ second < 2 ^ 63) ∧ aligned.rows.length < 10 ∧ 10 < 2 ^ 64) ∧
      Partitions plain aligned second 10 := by
  have hrows : ∀ r ∈ aligned.rows, Unambiguous second r := by
    intro r hr
    have htime : r.nextTry ∈ [100, 200, 300] :=
      List.mem_map_of_mem (f := Row.nextTry) hr
    simp only [List.mem_cons, List.not_mem_nil, or_false] at htime
    rw [Unambiguous, if_pos (by decide)]
    refine ⟨by omega, ?_, fun _ ↦ ?_⟩ <;>
      simp only [second, millisecond, maxInt64, Int.reduceTDiv] <;> omega
  exact ⟨by decide, (partitions_iff plain aligned second 10 (by decide) (by decide)
    (by decide)).mpr (.inl ⟨by decide, hrows⟩)⟩

def dueNow : Table Row.jobId where
  rows := [waitingRow 1 1000 (by decide)]
  nodup := by decide

/-- A job that is due at the millisecond of the requests is deferred in ascending order and
waiting in descending order. -/
theorem dueNow_changes_listing :
    Listing.waiting.find plain dueNow second 10 .asc [] = some ⟨[], []⟩ ∧
      Listing.deferred.find plain dueNow second 10 .asc [] =
        some ⟨[scan plain (waitingRow 1 1000 (by decide))], []⟩ ∧
      Listing.waiting.find plain dueNow second 10 .desc [] =
        some ⟨[scan plain (waitingRow 1 1000 (by decide))], []⟩ ∧
      Listing.deferred.find plain dueNow second 10 .desc [] = some ⟨[], []⟩ ∧
      ¬ Partitions plain dueNow second 10 := by
  have hasc : Listing.waiting.find plain dueNow second 10 .asc [] = some ⟨[], []⟩ := by
    decide +kernel
  have hdesc : Listing.waiting.find plain dueNow second 10 .desc [] =
      some ⟨[scan plain (waitingRow 1 1000 (by decide))], []⟩ := by
    decide +kernel
  refine ⟨hasc, by decide +kernel, hdesc, by decide +kernel, fun h ↦ ?_⟩
  obtain ⟨asc, desc, ha, hd, hreverse⟩ := h.reverse .waiting
  cases hasc.symm.trans ha
  cases hdesc.symm.trans hd
  cases hreverse

end Partition

section Narrowing

variable {json : Marshaler} {T : Table Row.jobId} {now t j : ℤ} {limit : ℕ} {order : SortOrder}
  {listing : Listing} {cursor : List UInt8} {r : Row}

def Listing.admits (now : ℤ) : Listing → Row → Prop
  | .grabbed, r | .waiting, r => r.nextTry ≤ now.tdiv millisecond
  | .deferred, r => now.tdiv millisecond ≤ r.nextTry

/-- Whatever a request with this cursor returns, the listing without a cursor
could return. -/
structure Narrows (json : Marshaler) (now : ℤ) (limit : ℕ) (listing : Listing)
    (order : SortOrder) (cursor : List UInt8) : Prop where
  only : ∀ (T : Table Row.jobId) (page : InspectedJobs),
    listing.find json T now limit order cursor = some page →
      ∀ r ∈ T.rows, scan json r ∈ page.jobs → listing.admits now r
  malformed : decodeCursor cursor = none → ∀ T : Table Row.jobId,
    listing.find json T now limit order cursor = listing.find json T now limit order []

/-- The cursor does not move the bound that is the clock past it, and the clock
is not taken for an open end. -/
def Within (now : ℤ) (cursor : List UInt8) : Listing → SortOrder → Prop
  | .grabbed, .asc | .waiting, .asc | .deferred, .desc => True
  | .grabbed, .desc | .waiting, .desc =>
    match decodeCursor cursor with
    | some (t, _) => t ≤ now.tdiv millisecond ∨ t ≤ 0
    | none => 0 < now.tdiv millisecond
  | .deferred, .asc =>
    match decodeCursor cursor with
    | some (t, _) => now.tdiv millisecond ≤ t ∨ now.tdiv millisecond ≤ 0
    | none => True

theorem findAll_sound {status : Status} {p : Row → Prop} [DecidablePred p] {page : InspectedJobs}
    (h : findAll json order T status p limit = some page) (hr : r ∈ T.rows)
    (hj : scan json r ∈ page.jobs) : p r := by
  obtain ⟨q, hq, heq⟩ := findAllMeanwhile_mem h hj
  obtain ⟨hq, hids⟩ := List.mem_filter.mp hq
  obtain ⟨q', hq', hid⟩ := List.mem_map.mp (of_decide_eq_true hids).2
  have hselect := mem_select.mp (List.mem_of_mem_take hq')
  rw [← scan_injOn hq hr heq, ← Table.eq_of_key hselect.1 hq hid]
  exact hselect.2

def single (r : Row) : Table Row.jobId := ⟨[r], List.nodup_singleton _⟩

theorem find_single (hr : listing.requests now order cursor r) (hlimit : 0 < limit)
    (hmake : makes 176 (limit + 1)) :
    ∃ page, listing.find json (single r) now limit order cursor = some page ∧
      scan json r ∈ page.jobs := by
  have hlen : (single r).rows.length ≤ limit := hlimit
  rw [Listing.find_eq, findAll_listed (fun _ ↦ Listing.requests_status) hmake hlen]
  exact ⟨_, rfl, (scan_mem_listed (List.mem_singleton_self r)).mpr hr⟩

theorem finish_length (results : List InspectedJob) :
    (finish order limit results).jobs.length ≤ limit := by
  simp only [finish]
  split
  · exact List.length_take_le _ _
  · exact List.getElem?_eq_none_iff.mp ‹_›

/-- A request with another limit returns no job. -/
theorem findAll_limit {status : Status} {p : Row → Prop} [DecidablePred p] {page : InspectedJobs}
    (h : findAll json order T status p limit = some page) (hfits : limit < 2 ^ 64)
    (hj : page.jobs ≠ []) : 0 < limit ∧ makes 176 (limit + 1) := by
  constructor
  · simp only [findAll, findAllMeanwhile] at h
    split at h
    · split at h
      · cases h
        exact absurd rfl hj
      · cases h
        have hlen := List.length_pos_of_ne_nil hj
        exact lt_of_lt_of_le hlen (finish_length _)
    · cases h
  · rcases limit_cases hfits with ⟨hmake, -⟩ | ⟨hmake, -, hlt⟩ | ⟨-, rfl⟩
    · exact hmake
    · rw [findAll_eq_none hlt hmake] at h
      cases h
    · rw [findAll_wrapped] at h
      cases h
      exact absurd rfl hj

def rowOf (status : Status) (id nextTry : ℕ) (h : id < 2 ^ 64 ∧ nextTry < 2 ^ 64) : Row :=
  { waitingRow id nextTry h with status := status }

theorem requests_of_none (hc : decodeCursor cursor = none) :
    listing.requests now order cursor r ↔ listing.requests now order [] r := by
  simp only [Listing.requests, restricts, hc, decodeCursor_nil]

theorem requests_of_some (hc : decodeCursor cursor = some (t, j)) :
    listing.requests now order cursor r ↔ r.status = listing.status ∧
      match order with
      | .asc => t ≤ r.nextTry ∧ r.nextTry < (listing.bounds now .asc).2 ∧ uint64 j ≤ r.jobId
      | .desc => (listing.bounds now .desc).1 < r.nextTry ∧ r.nextTry ≤ t ∧ r.jobId ≤ uint64 j := by
  cases order <;> simp only [Listing.requests, restricts, hc, inspectJobs, inspectJobsAsc]

theorem requests_admits (hnow : now < 2 ^ 63) (hwithin : Within now cursor listing order)
    (hr : listing.requests now order cursor r) : listing.admits now r := by
  cases hc : decodeCursor cursor with
  | none =>
    rw [requests_of_none hc] at hr
    cases order with
    | asc =>
      rw [requests_asc_nil hnow] at hr
      cases listing <;> simp only [Listing.admits] at hr ⊢ <;> omega
    | desc =>
      rw [requests_desc_nil] at hr
      cases listing <;> simp only [Listing.admits, Within, hc] at hr hwithin ⊢
      case deferred => omega
      all_goals
        rw [if_neg (not_le.mpr hwithin)] at hr
        exact hr.2.2
  | some c =>
    rw [requests_of_some hc] at hr
    cases order <;> cases listing <;>
      simp only [Listing.admits, Listing.bounds, Within, hc] at hr hwithin ⊢ <;> omega

theorem exists_request (hnow : now < 2 ^ 63) (hwithin : ¬ Within now cursor listing order) :
    ∃ r, listing.requests now order cursor r ∧ ¬ listing.admits now r := by
  have hm := tdiv_millisecond_lt hnow
  unfold maxInt64 at hm
  cases hc : decodeCursor cursor with
  | none =>
    refine ⟨rowOf listing.status 0 1 (by decide), ?_⟩
    rw [requests_of_none hc]
    cases order <;> cases listing <;> simp only [Within, hc, not_true_eq_false, not_lt] at hwithin
    all_goals
      rw [requests_desc_nil, if_pos hwithin]
      refine ⟨⟨rfl, by decide, by decide⟩, ?_⟩
      simp only [Listing.admits, rowOf, waitingRow, not_le]
      omega
  | some c =>
    obtain ⟨t, j⟩ := c
    have hid := uint64_lt j
    cases order with
    | asc =>
      cases listing <;> simp only [Within, hc, not_true_eq_false, not_or, not_le] at hwithin
      refine ⟨rowOf .claimed (uint64 j) t.toNat ⟨hid, by omega⟩,
        (requests_of_some hc).mpr ⟨rfl, ?_⟩, ?_⟩ <;>
        simp only [Listing.admits, rowOf, waitingRow, Listing.bounds, maxInt64] <;> omega
    | desc =>
      refine ⟨rowOf listing.status 0 (max 1 (now.tdiv millisecond + 1)).toNat
        ⟨by decide, by omega⟩, (requests_of_some hc).mpr ⟨rfl, ?_⟩, ?_⟩ <;>
        cases listing <;>
        simp only [Within, hc, not_true_eq_false, not_or, not_le, Listing.admits, rowOf,
          waitingRow, Listing.bounds] at hwithin ⊢ <;> omega

/-- A cursor does not widen a listing exactly if it does not move the bound
that is the clock, or if the request returns no job at all. -/
theorem narrows_iff (json : Marshaler) (now : ℤ) (limit : ℕ) (listing : Listing)
    (order : SortOrder) (cursor : List UInt8) (hnow : -2 ^ 63 ≤ now ∧ now < 2 ^ 63)
    (hfits : limit < 2 ^ 64) :
    Narrows json now limit listing order cursor ↔
      limit = 0 ∨ ¬ makes 176 (limit + 1) ∨ Within now cursor listing order := by
  constructor
  · intro h
    by_contra hcond
    push Not at hcond
    obtain ⟨hpos, hmake, hwithin⟩ := hcond
    obtain ⟨r, hr, hout⟩ := exists_request hnow.2 hwithin
    obtain ⟨page, hpage, hj⟩ := find_single hr (Nat.pos_of_ne_zero hpos) hmake
    exact hout (h.only (single r) page hpage r (List.mem_singleton_self r) hj)
  · intro h
    constructor
    · intro T page hpage r hr hj
      rw [Listing.find_eq] at hpage
      obtain ⟨hpos, hmake⟩ := findAll_limit hpage hfits (List.ne_nil_of_mem hj)
      obtain hzero | hnot | hwithin := h
      · omega
      · exact absurd hmake hnot
      · exact requests_admits hnow.2 hwithin (findAll_sound hpage hr hj)
    · intro hnone T
      rw [Listing.find_eq, Listing.find_eq]
      exact findAll_congr fun r ↦ requests_of_none hnone

theorem narrows_iff_stale :
    ((-2 ^ 63 ≤ second ∧ second < 2 ^ 63) ∧ 10 < 2 ^ 64) ∧
      Narrows plain second 10 .waiting .desc
        (encodeCursor (scan plain (waitingRow 2 200 (by decide)))) := by
  have hcursor : decodeCursor (encodeCursor (scan plain (waitingRow 2 200 (by decide)))) =
      some (200, 2) := by decide +kernel
  refine ⟨by decide, (narrows_iff plain second 10 .waiting .desc _ (by decide) (by decide)).mpr
    (.inr (.inr ?_))⟩
  simp only [Within, hcursor]
  decide

def dueLater : Table Row.jobId where
  rows := [waitingRow 1 3600000 (by decide), waitingRow 2 7200000 (by decide)]
  nodup := by decide

/-- The cursor of the first page of deferred jobs still lists the second job as
deferred an hour after it was due. -/
theorem stale_cursor_widens :
    Listing.deferred.find plain dueLater second 1 .asc [] =
        some ⟨[scan plain (waitingRow 1 3600000 (by decide))],
          encodeCursor (scan plain (waitingRow 2 7200000 (by decide)))⟩ ∧
      Listing.deferred.find plain dueLater (10800 * second) 1 .asc
          (encodeCursor (scan plain (waitingRow 2 7200000 (by decide)))) =
        some ⟨[scan plain (waitingRow 2 7200000 (by decide))], []⟩ ∧
      ¬ Narrows plain (10800 * second) 1 .deferred .asc
        (encodeCursor (scan plain (waitingRow 2 7200000 (by decide)))) := by
  have hpage : Listing.deferred.find plain dueLater (10800 * second) 1 .asc
      (encodeCursor (scan plain (waitingRow 2 7200000 (by decide)))) =
        some ⟨[scan plain (waitingRow 2 7200000 (by decide))], []⟩ := by decide +kernel
  refine ⟨by decide +kernel, hpage, fun h ↦ ?_⟩
  have hadmits := h.only dueLater _ hpage (waitingRow 2 7200000 (by decide)) (by decide)
    (List.mem_singleton_self _)
  exact absurd hadmits (show ¬ (10800 * second).tdiv millisecond ≤ (7200000 : ℤ) by decide)

end Narrowing

end Fireworq.MySQL.Inspector
