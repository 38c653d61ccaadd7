import Mathlib.Data.List.Sort
import Fireworq.GoEncoding
import Fireworq.GoInt
import Fireworq.MySQL.JobTable

namespace Fireworq.MySQL.Inspector

open Relational GoEncoding GoInt

inductive SortOrder
  | asc
  | desc
  deriving DecidableEq

/-- A job of a listing. Times are nanoseconds since the epoch, as `time.Time`
holds them, without a bound. -/
structure InspectedJob where
  id : ℕ
  category : String
  url : String
  payload : String
  status : Status
  createdAt : ℤ
  nextTry : ℤ
  timeout : ℕ
  failCount : ℕ
  maxRetries : ℕ
  retryDelay : ℕ
  failureUrl : String
  deriving DecidableEq

structure InspectedJobs where
  jobs : List InspectedJob
  nextCursor : List UInt8
  deriving DecidableEq

/-- What `json.Marshal` does to a payload: which texts it accepts as they are,
and how it writes a text as a string. -/
structure Marshaler where
  accepts : String → Bool
  quote : String → String

def plain : Marshaler := ⟨fun _ ↦ true, id⟩

section Time

def millisecond : ℤ := 1000000

def second : ℤ := 1000000000

def unix (sec nsec : ℤ) : ℤ := sec * second + nsec

/-- `Time.UnixNano`, which wraps around outside of the years 1678 to 2262. -/
def unixNano (t : ℤ) : ℤ := int64 t

def secInMillisec : ℤ := second.tdiv millisecond

/-- A time column in milliseconds as a `time.Time`. -/
def timeOf (ms : ℕ) : ℤ :=
  unix ((int64 ms).tdiv secInMillisec) ((int64 ms).tmod secInMillisec * millisecond)

end Time

def scan (json : Marshaler) (r : Row) : InspectedJob where
  id := r.jobId
  category := r.category
  url := r.url
  payload := if json.accepts r.payload then r.payload else json.quote r.payload
  status := r.status
  createdAt := timeOf r.createdAt
  nextTry := timeOf r.nextTry
  timeout := r.timeout
  failCount := r.failCount
  maxRetries := r.failCount + r.retryCount
  retryDelay := r.retryDelay
  failureUrl := r.failureUrl.getD ""

section Cursor

def comma : UInt8 := 44

def encodeCursor (j : InspectedJob) : List UInt8 :=
  encodeToString (formatInt ((unixNano j.nextTry).tdiv millisecond) ++ comma :: formatUint j.id)

/-- The time and the id of a cursor. A cursor of any other form is ignored. -/
def decodeCursor (cursor : List UInt8) : Option (ℤ × ℤ) :=
  (decodeString cursor).bind fun decoded ↦
    match splitN comma 2 decoded with
    | [x, y] => (atoi x).bind fun t ↦ (atoi y).map fun j ↦ (t, j)
    | _ => none

end Cursor

section Statements

/-- The `WHERE` of `inspect_jobs_asc.sql`. -/
def inspectJobsAsc (status : Status) (minTime maxTime : ℤ) (minJobId : ℕ) (r : Row) : Prop :=
  r.status = status ∧ minTime ≤ r.nextTry ∧ r.nextTry < maxTime ∧ minJobId ≤ r.jobId

instance (status : Status) (minTime maxTime : ℤ) (minJobId : ℕ) :
    DecidablePred (inspectJobsAsc status minTime maxTime minJobId) :=
  fun _ ↦ inferInstanceAs (Decidable (_ ∧ _))

/-- The `WHERE` of `inspect_jobs.sql`. -/
def inspectJobs (status : Status) (minTime maxTime : ℤ) (maxJobId : ℕ) (r : Row) : Prop :=
  r.status = status ∧ minTime < r.nextTry ∧ r.nextTry ≤ maxTime ∧ r.jobId ≤ maxJobId

instance (status : Status) (minTime maxTime : ℤ) (maxJobId : ℕ) :
    DecidablePred (inspectJobs status minTime maxTime maxJobId) :=
  fun _ ↦ inferInstanceAs (Decidable (_ ∧ _))

/-- The `ORDER BY` of the two statements. -/
def rowLe : SortOrder → Row → Row → Prop
  | .asc, q, r => q.nextTry < r.nextTry ∨ q.nextTry = r.nextTry ∧ q.jobId ≤ r.jobId
  | .desc, q, r => r.nextTry < q.nextTry ∨ r.nextTry = q.nextTry ∧ r.jobId ≤ q.jobId

instance (order : SortOrder) : DecidableRel (rowLe order) := fun _ _ ↦
  match order with
  | .asc => inferInstanceAs (Decidable (_ ∨ _))
  | .desc => inferInstanceAs (Decidable (_ ∨ _))

def select (order : SortOrder) (p : Row → Prop) [DecidablePred p] (rows : List Row) : List Row :=
  (rows.filter p).insertionSort (rowLe order)

end Statements

def less : SortOrder → InspectedJob → InspectedJob → Bool
  | .asc, j₁, j₂ =>
    if unixNano j₁.nextTry < unixNano j₂.nextTry then true
    else if unixNano j₁.nextTry > unixNano j₂.nextTry then false
    else j₁.id < j₂.id
  | .desc, j₁, j₂ =>
    if unixNano j₁.nextTry > unixNano j₂.nextTry then true
    else if unixNano j₁.nextTry < unixNano j₂.nextTry then false
    else j₁.id > j₂.id

def finish (order : SortOrder) (limit : ℕ) (results : List InspectedJob) : InspectedJobs :=
  let results := results.insertionSort fun j₁ j₂ ↦ less order j₂ j₁ = false
  match results[limit]? with
  | some j => ⟨results.take limit, encodeCursor j⟩
  | none => ⟨results, []⟩

def preselected (order : SortOrder) (T : Table Row.jobId) (p : Row → Prop) [DecidablePred p]
    (limit : ℕ) : List ℕ :=
  ((select order p T.rows).take (uint64 (limit + 1))).map Row.jobId

def remaining (status : Status) (ids : List ℕ) (T : Table Row.jobId) : List Row :=
  T.rows.filter fun r ↦ grabbedJobs status ids r

/-- What the two listing functions share once the bounds are known, with the table
of the first query and that of the second. An interface or a string takes 16 bytes,
an inspected job 176. The result is `none` where an allocation panics. -/
def findAllMeanwhile (json : Marshaler) (order : SortOrder) (T₁ T₂ : Table Row.jobId)
    (status : Status) (p : Row → Prop) [DecidablePred p] (limit : ℕ) : Option InspectedJobs :=
  if makes 16 (uint64 (limit + 1)) ∧ makes 176 (uint64 (limit + 1)) then
    let ids := preselected order T₁ p limit
    if ids = [] then some ⟨[], []⟩
    else some (finish order limit ((remaining status ids T₂).map (scan json)))
  else none

def findAll (json : Marshaler) (order : SortOrder) (T : Table Row.jobId) (status : Status)
    (p : Row → Prop) [DecidablePred p] (limit : ℕ) : Option InspectedJobs :=
  findAllMeanwhile json order T T status p limit

def maxInt64 : ℤ := 2 ^ 63 - 1

def maxUint64 : ℕ := 2 ^ 64 - 1

def findAllAsc (json : Marshaler) (T : Table Row.jobId) (status : Status) (minTime maxTime : ℤ)
    (limit : ℕ) (cursor : List UInt8) : Option InspectedJobs :=
  let minTime := if minTime ≥ maxInt64 then 0 else minTime
  match decodeCursor cursor with
  | some (t, j) => findAll json .asc T status (inspectJobsAsc status t maxTime (uint64 j)) limit
  | none => findAll json .asc T status (inspectJobsAsc status minTime maxTime 0) limit

def findAllDesc (json : Marshaler) (T : Table Row.jobId) (status : Status) (minTime maxTime : ℤ)
    (limit : ℕ) (cursor : List UInt8) : Option InspectedJobs :=
  let maxTime := if maxTime ≤ 0 then maxInt64 else maxTime
  match decodeCursor cursor with
  | some (t, j) => findAll json .desc T status (inspectJobs status minTime t (uint64 j)) limit
  | none => findAll json .desc T status (inspectJobs status minTime maxTime maxUint64) limit

section Listings

variable (json : Marshaler) (T : Table Row.jobId) (now : ℤ) (limit : ℕ) (cursor : List UInt8)

def findAllGrabbed : SortOrder → Option InspectedJobs
  | .asc => findAllAsc json T .grabbed 0 (now.tdiv millisecond) limit cursor
  | .desc => findAllDesc json T .grabbed 0 (now.tdiv millisecond) limit cursor

def findAllWaiting : SortOrder → Option InspectedJobs
  | .asc => findAllAsc json T .claimed 0 (now.tdiv millisecond) limit cursor
  | .desc => findAllDesc json T .claimed 0 (now.tdiv millisecond) limit cursor

def findAllDeferred : SortOrder → Option InspectedJobs
  | .asc => findAllAsc json T .claimed (now.tdiv millisecond) maxInt64 limit cursor
  | .desc => findAllDesc json T .claimed (now.tdiv millisecond) 0 limit cursor

end Listings

section Decoded

variable {json : Marshaler} {T : Table Row.jobId} {status : Status} {minTime maxTime t j : ℤ}
  {limit : ℕ} {cursor : List UInt8}

theorem findAllAsc_of_some (h : decodeCursor cursor = some (t, j)) :
    findAllAsc json T status minTime maxTime limit cursor =
      findAll json .asc T status (inspectJobsAsc status t maxTime (uint64 j)) limit := by
  simp only [findAllAsc, h]

theorem findAllAsc_of_none (h : decodeCursor cursor = none) :
    findAllAsc json T status minTime maxTime limit cursor =
      findAll json .asc T status
        (inspectJobsAsc status (if minTime ≥ maxInt64 then 0 else minTime) maxTime 0) limit := by
  simp only [findAllAsc, h]

theorem findAllDesc_of_some (h : decodeCursor cursor = some (t, j)) :
    findAllDesc json T status minTime maxTime limit cursor =
      findAll json .desc T status (inspectJobs status minTime t (uint64 j)) limit := by
  simp only [findAllDesc, h]

theorem findAllDesc_of_none (h : decodeCursor cursor = none) :
    findAllDesc json T status minTime maxTime limit cursor =
      findAll json .desc T status
        (inspectJobs status minTime (if maxTime ≤ 0 then maxInt64 else maxTime) maxUint64)
        limit := by
  simp only [findAllDesc, h]

end Decoded

section Ordering

def lexLe : SortOrder → ℤ × ℕ → ℤ × ℕ → Prop
  | .asc, x, y => x.1 < y.1 ∨ x.1 = y.1 ∧ x.2 ≤ y.2
  | .desc, x, y => y.1 < x.1 ∨ y.1 = x.1 ∧ y.2 ≤ x.2

variable {order : SortOrder}

theorem lexLe_total (x y : ℤ × ℕ) : lexLe order x y ∨ lexLe order y x := by
  cases order <;> simp only [lexLe] <;> omega

theorem lexLe_trans {x y z : ℤ × ℕ} (h₁ : lexLe order x y) (h₂ : lexLe order y z) :
    lexLe order x z := by
  cases order <;> simp only [lexLe] at * <;> omega

theorem lexLe_antisymm {x y : ℤ × ℕ} (h₁ : lexLe order x y) (h₂ : lexLe order y x) :
    x.2 = y.2 := by
  cases order <;> simp only [lexLe] at * <;> omega

theorem rowLe_iff {q r : Row} :
    rowLe order q r ↔ lexLe order (q.nextTry, q.jobId) (r.nextTry, r.jobId) := by
  cases order <;> simp only [rowLe, lexLe] <;> omega

theorem not_less_iff {j₁ j₂ : InspectedJob} :
    less order j₂ j₁ = false ↔
      lexLe order (unixNano j₁.nextTry, j₁.id) (unixNano j₂.nextTry, j₂.id) := by
  cases order <;> simp only [less, lexLe] <;> split <;> simp <;> omega

instance : Std.Total (rowLe order) := ⟨fun q r ↦ by simpa only [rowLe_iff] using lexLe_total _ _⟩

instance : IsTrans Row (rowLe order) :=
  ⟨fun _ _ _ h₁ h₂ ↦ rowLe_iff.mpr (lexLe_trans (rowLe_iff.mp h₁) (rowLe_iff.mp h₂))⟩

theorem rowLe_antisymm {q r : Row} (h₁ : rowLe order q r) (h₂ : rowLe order r q) :
    q.jobId = r.jobId := lexLe_antisymm (rowLe_iff.mp h₁) (rowLe_iff.mp h₂)

instance : Std.Total fun j₁ j₂ : InspectedJob ↦ less order j₂ j₁ = false :=
  ⟨fun j₁ j₂ ↦ by simpa only [not_less_iff] using lexLe_total _ _⟩

instance : IsTrans InspectedJob fun j₁ j₂ ↦ less order j₂ j₁ = false :=
  ⟨fun _ _ _ h₁ h₂ ↦ not_less_iff.mpr (lexLe_trans (not_less_iff.mp h₁) (not_less_iff.mp h₂))⟩

end Ordering

section Page

variable {json : Marshaler} {order : SortOrder} {T : Table Row.jobId} {status : Status}
  {p q : Row → Prop} [DecidablePred p] [DecidablePred q] {limit : ℕ}

theorem mem_select {rows : List Row} {r : Row} : r ∈ select order p rows ↔ r ∈ rows ∧ p r := by
  simp [select]

theorem select_nodup : (select order p T.rows).Nodup :=
  (List.perm_insertionSort _ _).nodup_iff.mpr ((List.Nodup.of_map _ T.nodup).filter _)

theorem select_pairwise : (select order p T.rows).Pairwise (rowLe order) :=
  List.pairwise_insertionSort _ _

theorem findAll_congr (h : ∀ r, p r ↔ q r) :
    findAll json order T status p limit = findAll json order T status q limit := by
  obtain rfl : p = q := funext fun r ↦ propext (h r)
  congr

/-- The order of the rows within a table makes no difference to a page. -/
theorem finish_perm (T : Table Row.jobId) {l₁ l₂ : List Row} (h : l₁.Perm l₂) (hl : l₂ ⊆ T.rows) :
    finish order limit (l₁.map (scan json)) = finish order limit (l₂.map (scan json)) := by
  have hsort : (l₁.map (scan json)).insertionSort (fun j₁ j₂ ↦ less order j₂ j₁ = false) =
      (l₂.map (scan json)).insertionSort fun j₁ j₂ ↦ less order j₂ j₁ = false := by
    refine List.Perm.eq_of_pairwise ?_ (List.pairwise_insertionSort _ _)
      (List.pairwise_insertionSort _ _) ?_
    · intro j₁ j₂ hj₁ hj₂ h₁ h₂
      rw [List.mem_insertionSort, List.mem_map] at hj₁ hj₂
      obtain ⟨r₁, hr₁, rfl⟩ := hj₁
      obtain ⟨r₂, hr₂, rfl⟩ := hj₂
      have hid : r₁.jobId = r₂.jobId :=
        lexLe_antisymm (not_less_iff.mp h₁) (not_less_iff.mp h₂)
      rw [Table.eq_of_key (hl (h.subset hr₁)) (hl hr₂) hid]
    · exact (List.perm_insertionSort _ _).trans
        ((h.map _).trans (List.perm_insertionSort _ _).symm)
  simp only [finish, hsort]

/-- Without writes in between, the unordered query for the preselected ids
returns the preselected rows. -/
theorem grabbedJobs_perm (hp : ∀ r, p r → r.status = status) (n : ℕ) :
    (T.rows.filter fun r ↦ grabbedJobs status
      (((select order p T.rows).take n).map Row.jobId) r).Perm
      ((select order p T.rows).take n) := by
  have hmem {r : Row} (h : r ∈ (select order p T.rows).take n) : r ∈ T.rows ∧ p r :=
    mem_select.mp (List.mem_of_mem_take h)
  rw [List.perm_ext_iff_of_nodup ((List.Nodup.of_map _ T.nodup).filter _)
    (select_nodup.sublist (List.take_sublist _ _))]
  intro r
  simp only [List.mem_filter, grabbedJobs, List.mem_map, decide_eq_true_eq]
  constructor
  · rintro ⟨hr, -, q, hq, hid⟩
    rwa [← Table.eq_of_key (hmem hq).1 hr hid]
  · intro hr
    exact ⟨(hmem hr).1, hp r (hmem hr).2, r, hr, rfl⟩

/-- A page has only jobs that both queries have found. -/
theorem findAllMeanwhile_mem {T₁ T₂ : Table Row.jobId} {page : InspectedJobs} {j : InspectedJob}
    (h : findAllMeanwhile json order T₁ T₂ status p limit = some page) (hj : j ∈ page.jobs) :
    ∃ r ∈ remaining status (preselected order T₁ p limit) T₂, scan json r = j := by
  simp only [findAllMeanwhile] at h
  split at h
  · split at h
    · cases h
      cases hj
    · cases h
      have hmem : j ∈ (remaining status (preselected order T₁ p limit) T₂).map (scan json) := by
        simp only [finish] at hj
        split at hj
        · exact (List.mem_insertionSort _).mp (List.mem_of_mem_take hj)
        · exact (List.mem_insertionSort _).mp hj
      exact List.mem_map.mp hmem
  · cases h

/-- A listing call without writes in between sorts and cuts the first rows of
the plain query. -/
theorem findAll_eq (hp : ∀ r, p r → r.status = status)
    (hn : makes 16 (limit + 1) ∧ makes 176 (limit + 1)) :
    findAll json order T status p limit =
      some (finish order limit (((select order p T.rows).take (limit + 1)).map (scan json))) := by
  have hu : uint64 (limit + 1) = limit + 1 := by
    have h := hn.2
    unfold makes maxAlloc at h
    exact uint64_natCast (n := limit + 1) (by omega)
  simp only [findAll, findAllMeanwhile, preselected, remaining, hu, if_pos hn]
  split
  · have hnil := List.map_eq_nil_iff.mp ‹_›
    rw [hnil]
    rfl
  · refine congrArg some (finish_perm T (grabbedJobs_perm hp _) ?_)
    exact fun r hr ↦ (mem_select.mp (List.mem_of_mem_take hr)).1

theorem findAll_eq_none (hlt : limit + 1 < 2 ^ 64) (hn : ¬ makes 176 (limit + 1)) :
    findAll json order T status p limit = none := by
  have hu : uint64 (limit + 1) = limit + 1 := uint64_natCast (n := limit + 1) hlt
  simp only [findAll, findAllMeanwhile, hu]
  exact if_neg fun h ↦ hn h.2

theorem limit_cases (hfits : limit < 2 ^ 64) :
    makes 176 (limit + 1) ∧ limit ≠ maxUint64 ∨
      ¬ makes 176 (limit + 1) ∧ limit ≠ maxUint64 ∧ limit + 1 < 2 ^ 64 ∨
      ¬ makes 176 (limit + 1) ∧ limit = maxUint64 := by
  unfold makes maxAlloc maxUint64
  omega

theorem findAll_wrapped : findAll json order T status p maxUint64 = some ⟨[], []⟩ := by
  have hu : uint64 ((maxUint64 : ℕ) + 1) = 0 := by decide
  simp only [findAll, findAllMeanwhile, preselected, hu, List.take_zero, List.map_nil, if_true]
  exact if_pos (by decide)

end Page

section Cursors

def cursorTime (r : Row) : ℤ := (unixNano (timeOf r.nextTry)).tdiv millisecond

def maxMillis : ℕ := 9223372036854

theorem timeOf_eq (ms : ℕ) : timeOf ms = int64 ms * millisecond := by
  have h := Int.mul_tdiv_add_tmod (int64 ms) 1000
  simp only [timeOf, unix, secInMillisec, second, millisecond]
  change (int64 ms).tdiv 1000 * 1000000000 + (int64 ms).tmod 1000 * 1000000 = _
  omega

theorem unixNano_timeOf {ms : ℕ} (h : ms ≤ maxMillis) :
    unixNano (timeOf ms) = ms * millisecond := by
  unfold maxMillis at h
  rw [timeOf_eq, int64_of_range (by omega) (by omega), unixNano, millisecond,
    int64_of_range (by omega) (by omega)]

theorem tdiv_unixNano_timeOf {ms : ℕ} (h : ms ≤ maxMillis) :
    (unixNano (timeOf ms)).tdiv millisecond = ms := by
  rw [unixNano_timeOf h, Int.mul_tdiv_cancel _ (by decide)]

theorem cursorTime_eq {r : Row} (h : r.nextTry ≤ maxMillis) : cursorTime r = r.nextTry :=
  tdiv_unixNano_timeOf h

theorem cursorTime_range (r : Row) : -maxMillis ≤ cursorTime r ∧ cursorTime r ≤ maxMillis := by
  have h := int64_range (timeOf r.nextTry)
  unfold cursorTime unixNano millisecond maxMillis
  rcases le_total 0 (int64 (timeOf r.nextTry)) with h₀ | h₀
  · rw [Int.tdiv_eq_ediv_of_nonneg h₀]
    omega
  · rw [← Int.neg_neg (int64 (timeOf r.nextTry)), Int.neg_tdiv,
      Int.tdiv_eq_ediv_of_nonneg (by omega)]
    omega

theorem cursorTime_le (r : Row) : cursorTime r ≤ r.nextTry := by
  by_cases h : r.nextTry ≤ maxMillis
  · exact le_of_eq (cursorTime_eq h)
  · have := (cursorTime_range r).2
    omega

theorem comma_notMem_formatInt (x : ℤ) : comma ∉ formatInt x := by
  have hdigits (n : ℕ) : comma ∉ formatUint n := fun h ↦ by
    have := (mem_formatUint h).1
    exact absurd this (by decide)
  unfold formatInt
  split
  · exact List.not_mem_cons_of_ne_of_not_mem (by decide) (hdigits _)
  · exact hdigits _

theorem decodeCursor_pair {t : ℤ} (h₀ : -2 ^ 63 ≤ t) (h₁ : t < 2 ^ 63) (id : ℕ) :
    decodeCursor (encodeToString (formatInt t ++ comma :: formatUint id)) =
      if id < 2 ^ 63 then some (t, (id : ℤ)) else none := by
  rw [decodeCursor, decodeString_encodeToString, Option.bind_some,
    splitN_two (comma_notMem_formatInt _)]
  simp only [atoi_formatInt h₀ h₁, Option.bind_some, atoi_formatUint]
  split
  · rw [Option.map_some]
  · rw [Option.map_none]

theorem decodeCursor_encodeCursor (json : Marshaler) (r : Row) :
    decodeCursor (encodeCursor (scan json r)) =
      if r.jobId < 2 ^ 63 then some (cursorTime r, (r.jobId : ℤ)) else none := by
  have hrange := cursorTime_range r
  unfold maxMillis at hrange
  have h₀ : -2 ^ 63 ≤ cursorTime r := by omega
  have h₁ : cursorTime r < 2 ^ 63 := by omega
  exact decodeCursor_pair h₀ h₁ r.jobId

theorem encodeCursor_ne_nil (j : InspectedJob) : encodeCursor j ≠ [] :=
  encodeToString_ne_nil (by simp)

end Cursors

end Fireworq.MySQL.Inspector
