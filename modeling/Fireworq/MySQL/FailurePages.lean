import Mathlib.Data.Prod.Lex
import Fireworq.Keyset
import Fireworq.MySQL.FailureLog
import Fireworq.MySQL.Inspector

namespace Fireworq.MySQL.FailureLog

open Relational JobQueue GoEncoding GoInt Cluster
open Inspector (Marshaler timeOf unixNano millisecond comma decodeCursor maxInt64 maxUint64
  maxMillis)

structure FailedJob where
  id : ℕ
  jobId : ℕ
  category : String
  url : String
  payload : String
  result : Result
  failCount : ℕ
  failedAt : ℤ
  createdAt : ℤ
  deriving DecidableEq

structure FailedJobs where
  failedJobs : List FailedJob
  nextCursor : List UInt8
  deriving DecidableEq

def scan (json : Marshaler) (r : FailedRow) : FailedJob where
  id := r.failureId
  jobId := r.jobId
  category := r.category
  url := r.url
  payload := if json.accepts r.payload then r.payload else json.quote r.payload
  result := r.result
  failCount := r.failCount
  failedAt := timeOf r.failedAt
  createdAt := timeOf r.createdAt

inductive Query
  | failedJobs
  | recentlyFailedJobs
  deriving DecidableEq

def Query.admits (maxTime : ℤ) (maxId : ℕ) : Query → FailedRow → Prop
  | .failedJobs, r =>
    (r.createdAt : ℤ) ≤ maxTime ∧ ((r.createdAt : ℤ) ≠ maxTime ∨ r.failureId ≤ maxId)
  | .recentlyFailedJobs, r => maxTime = maxTime ∧ r.failureId ≤ maxId

instance (maxTime : ℤ) (maxId : ℕ) : (q : Query) → DecidablePred (q.admits maxTime maxId)
  | .failedJobs => fun _ ↦ inferInstanceAs (Decidable (_ ∧ _))
  | .recentlyFailedJobs => fun _ ↦ inferInstanceAs (Decidable (_ ∧ _))

def Query.rowLe : Query → FailedRow → FailedRow → Prop
  | .failedJobs, r, r' =>
    r'.createdAt < r.createdAt ∨ r'.createdAt = r.createdAt ∧ r'.failureId ≤ r.failureId
  | .recentlyFailedJobs, r, r' => r'.failureId ≤ r.failureId

instance : (q : Query) → DecidableRel q.rowLe
  | .failedJobs => fun _ _ ↦ inferInstanceAs (Decidable (_ ∨ _))
  | .recentlyFailedJobs => fun _ _ ↦ inferInstanceAs (Decidable (_ ≤ _))

def Query.select (q : Query) (maxTime : ℤ) (maxId : ℕ) (rows : List FailedRow) : List FailedRow :=
  (rows.filter (q.admits maxTime maxId)).insertionSort q.rowLe

def encodeCursor (j : FailedJob) : List UInt8 :=
  encodeToString (formatInt ((unixNano j.createdAt).tdiv millisecond) ++ comma :: formatUint j.id)

def finish (limit : ℕ) (results : List FailedJob) : FailedJobs :=
  match results[limit]? with
  | some j => ⟨results.take limit, encodeCursor j⟩
  | none => ⟨results, []⟩

/-- `maxTime` and `maxID` -/
def bounds (cursor : List UInt8) : ℤ × ℕ :=
  match decodeCursor cursor with
  | some (t, j) => (t, uint64 j)
  | none => (maxInt64, maxUint64)

/-- The result is `none` where an allocation panics. -/
def findAllByQuery (json : Marshaler) (q : Query) (F : Failures) (limit : ℕ)
    (cursor : List UInt8) : Option FailedJobs :=
  let rows := (q.select (bounds cursor).1 (bounds cursor).2 F.rows).take (uint64 (limit + 1))
  -- a failed job takes 136 bytes, an id 8
  if makes 136 limit ∧ makes 8 limit then some (finish limit (rows.map (scan json)))
  else none

def findAll (json : Marshaler) : Failures → ℕ → List UInt8 → Option FailedJobs :=
  findAllByQuery json .failedJobs

def findAllRecentFailures (json : Marshaler) : Failures → ℕ → List UInt8 → Option FailedJobs :=
  findAllByQuery json .recentlyFailedJobs

def Query.find (json : Marshaler) : Query → Failures → ℕ → List UInt8 → Option FailedJobs
  | .failedJobs => findAll json
  | .recentlyFailedJobs => findAllRecentFailures json

theorem Query.find_eq (json : Marshaler) (q : Query) : q.find json = findAllByQuery json q := by
  cases q <;> rfl

section Writes

inductive Write
  | add (re : Replies) (failedAt : ℕ) (failed : AnyJob) (res : Result)
  | delete (reply : ExecReply) (failureId : ℕ)

def Write.apply (F : Failures) : Write → Failures
  | .add re failedAt failed res => (FailureLog.add re failedAt failed res F).2
  | .delete reply failureId => if reply.executed then F.delete failureId else F

/-- The log at the request `n` of a listing, with the writes `ws n` between the
requests `n` and `n + 1`. -/
def logAt (F : Failures) (ws : ℕ → List Write) : ℕ → Failures
  | 0 => F
  | n + 1 => (ws n).foldl Write.apply (logAt F ws n)

structure Later (F G : Failures) : Prop where
  next_le : F.next ≤ G.next
  old : ∀ r ∈ G.rows, r.failureId < F.next → r ∈ F.rows

theorem Later.refl (F : Failures) : Later F F := ⟨Nat.le_refl _, fun _ hr _ ↦ hr⟩

theorem Later.trans {F G H : Failures} (h₁ : Later F G) (h₂ : Later G H) : Later F H where
  next_le := Nat.le_trans h₁.next_le h₂.next_le
  old r hr hlt := h₁.old r (h₂.old r hr (Nat.lt_of_lt_of_le hlt h₁.next_le)) hlt

theorem later_insert {F : Failures} {r : FailedRow} (h : r.failureId = F.next) :
    Later F (F.insert r) where
  next_le := by
    rw [AutoTable.next_insert h]
    exact Nat.le_succ _
  old q hq hlt := by
    rcases AutoTable.mem_insert hq with hq | rfl
    · exact hq
    · omega

theorem later_apply (F : Failures) (w : Write) : Later F (w.apply F) := by
  cases w with
  | add re failedAt failed res =>
    cases failed with
    | other => exact .refl F
    | job j =>
      simp only [Write.apply, FailureLog.add]
      split
      · split
        · exact later_insert rfl
        · exact .refl F
      · exact .refl F
  | delete reply failureId =>
    simp only [Write.apply]
    split
    · exact ⟨Nat.le_refl _, fun r hr _ ↦ (Table.mem_delete.mp hr).1⟩
    · exact .refl F

theorem later_foldl (F : Failures) (ws : List Write) : Later F (ws.foldl Write.apply F) := by
  induction ws generalizing F with
  | nil => exact .refl F
  | cons w ws ih => exact (later_apply F w).trans (ih _)

theorem later_logAt (F : Failures) (ws : ℕ → List Write) {m n : ℕ} (h : m ≤ n) :
    Later (logAt F ws m) (logAt F ws n) := by
  induction h with
  | refl => exact .refl _
  | step _ ih => exact ih.trans (later_foldl _ _)

/-- A failure has the same row at all requests. -/
theorem logAt_eq {F : Failures} {ws : ℕ → List Write} {m n : ℕ} {q r : FailedRow}
    (hq : q ∈ (logAt F ws m).rows) (hr : r ∈ (logAt F ws n).rows)
    (h : q.failureId = r.failureId) : q = r := by
  wlog hle : m ≤ n generalizing m n q r
  · exact (this hr hq h.symm (Nat.le_of_not_le hle)).symm
  · have hlt : r.failureId < (logAt F ws m).next := h ▸ (logAt F ws m).fresh q hq
    exact Table.eq_of_key hq ((later_logAt F ws hle).old r hr hlt) h

end Writes

section Pages

def InRange (r : FailedRow) : Prop := r.failureId < 2 ^ 63 ∧ r.createdAt ≤ maxMillis

instance : DecidablePred InRange := fun _ ↦ inferInstanceAs (Decidable (_ ∧ _))

def Query.key : Query → FailedRow → ℕ ×ₗ ℕ
  | .failedJobs, r => toLex (r.createdAt, r.failureId)
  | .recentlyFailedJobs, r => toLex (0, r.failureId)

def cursorOf (json : Marshaler) : Option FailedRow → List UInt8
  | none => []
  | some b => encodeCursor (scan json b)

variable {json : Marshaler} {q : Query} {F : Failures} {limit : ℕ} {pos : Option FailedRow}
  {b r r' : FailedRow}

theorem rowLe_iff : q.rowLe r r' ↔ q.key r' ≤ q.key r := by
  cases q with
  | failedJobs => simp [Query.rowLe, Query.key, Prod.Lex.toLex_le_toLex]
  | recentlyFailedJobs => simp [Query.rowLe, Query.key, Prod.Lex.toLex_le_toLex]

theorem admits_iff : q.admits b.createdAt b.failureId r ↔ q.key r ≤ q.key b := by
  cases q with
  | failedJobs =>
    simp only [Query.admits, Query.key, Prod.Lex.toLex_le_toLex]
    omega
  | recentlyFailedJobs => simp [Query.admits, Query.key, Prod.Lex.toLex_le_toLex]

theorem admits_max (h : InRange r) : q.admits maxInt64 maxUint64 r := by
  unfold InRange maxMillis at h
  cases q with
  | failedJobs =>
    refine ⟨?_, .inr ?_⟩
    · unfold maxInt64
      omega
    · unfold maxUint64
      omega
  | recentlyFailedJobs =>
    refine ⟨rfl, ?_⟩
    unfold maxUint64
    omega

theorem key_injective (h : q.key r = q.key r') : r.failureId = r'.failureId := by
  cases q <;> exact congrArg (fun x ↦ (ofLex x).2) h

theorem keys_nodup (q : Query) (F : Failures) : (F.rows.map q.key).Nodup := by
  have h := F.nodup
  rw [List.nodup_iff_pairwise_ne, List.pairwise_map] at h ⊢
  exact h.imp fun hne heq ↦ hne (key_injective heq)

theorem cursorOf_eq_nil : cursorOf json pos = [] ↔ pos = none := by
  cases pos with
  | none => simp [cursorOf]
  | some b => simp [cursorOf, encodeCursor, encodeToString_ne_nil]

theorem decodeCursor_encodeCursor (h : InRange b) :
    decodeCursor (encodeCursor (scan json b)) = some ((b.createdAt : ℤ), (b.failureId : ℤ)) := by
  unfold InRange at h
  have hms : (unixNano (scan json b).createdAt).tdiv millisecond = b.createdAt :=
    Inspector.tdiv_unixNano_timeOf h.2
  unfold maxMillis at h
  rw [encodeCursor, hms, Inspector.decodeCursor_pair (by omega) (by omega)]
  exact if_pos h.1

theorem selection_eq (hF : ∀ r ∈ F.rows, InRange r) (p : FailedRow → Prop) [DecidablePred p]
    (hp : ∀ r, InRange r → (p r ↔ ∀ b ∈ pos, q.key r ≤ q.key b)) :
    (F.rows.filter p).insertionSort q.rowLe = Keyset.selection q.key pos F.rows := by
  have hfilter : F.rows.filter (fun r ↦ decide (p r)) =
      F.rows.filter fun r ↦ pos.all fun b ↦ decide (q.key r ≤ q.key b) := by
    refine List.filter_congr fun r hr ↦ ?_
    rw [Bool.eq_iff_iff, decide_eq_true_iff, hp r (hF r hr)]
    simp [Option.all_eq_true]
  have hle : q.rowLe = fun r r' ↦ q.key r' ≤ q.key r :=
    funext fun r ↦ funext fun r' ↦ propext rowLe_iff
  rw [Keyset.selection, hfilter]
  congr

theorem select_bounds (hF : ∀ r ∈ F.rows, InRange r) (hpos : ∀ b ∈ pos, InRange b) :
    q.select (bounds (cursorOf json pos)).1 (bounds (cursorOf json pos)).2 F.rows =
      Keyset.selection q.key pos F.rows := by
  refine selection_eq hF _ fun r hr ↦ ?_
  cases pos with
  | none =>
    have hbounds : bounds (cursorOf json none) = (maxInt64, maxUint64) := rfl
    rw [hbounds]
    exact ⟨nofun, fun _ ↦ admits_max hr⟩
  | some b =>
    have hb := hpos b rfl
    have hbounds : bounds (cursorOf json (some b)) = ((b.createdAt : ℤ), b.failureId) := by
      unfold InRange at hb
      rw [cursorOf, bounds, decodeCursor_encodeCursor (hpos b rfl)]
      dsimp only
      rw [uint64_natCast (by omega)]
    rw [hbounds, admits_iff]
    exact ⟨fun h c hc ↦ by cases hc; exact h, fun h ↦ h b rfl⟩

theorem finish_map (l : List FailedRow) :
    finish limit ((l.take (limit + 1)).map (scan json)) =
      ⟨(l.take limit).map (scan json), cursorOf json l[limit]?⟩ := by
  have hget : ((l.take (limit + 1)).map (scan json))[limit]? = l[limit]?.map (scan json) := by
    rw [List.getElem?_map, List.getElem?_take_of_lt (Nat.lt_succ_self limit)]
  rw [finish, hget]
  cases hn : l[limit]? with
  | none =>
    have hlen := List.getElem?_eq_none_iff.mp hn
    have hall : l.take (limit + 1) = l := List.take_of_length_le (by omega)
    rw [hall, List.take_of_length_le hlen]
    rfl
  | some b =>
    rw [Option.map_some, ← List.map_take, List.take_take, Nat.min_eq_left (Nat.le_succ limit)]
    rfl

/-- A request of the code is a request of a listing by keys. -/
theorem find_page (hmake : makes 136 limit) (hF : ∀ r ∈ F.rows, InRange r)
    (hpos : ∀ b ∈ pos, InRange b) :
    q.find json F limit (cursorOf json pos) =
      some ⟨(Keyset.page q.key limit pos F.rows).map (scan json),
        cursorOf json (Keyset.next q.key limit pos F.rows)⟩ := by
  have hmake' : makes 8 limit := by
    unfold makes at *
    omega
  have hwrap : uint64 ((limit : ℤ) + 1) = limit + 1 := by
    unfold makes maxAlloc at hmake
    exact uint64_natCast (n := limit + 1) (by omega)
  simp only [Query.find_eq, findAllByQuery]
  rw [if_pos ⟨hmake, hmake'⟩, hwrap, select_bounds hF hpos, finish_map]
  rfl

theorem next_inRange (hF : ∀ r ∈ F.rows, InRange r)
    (h : Keyset.next q.key limit pos F.rows = some b) : InRange b :=
  hF b (Keyset.mem_selection.mp (List.mem_of_getElem? h)).1

end Pages

section Listing

/-- Following the cursors from one on, up to a page without a next cursor, shows
these jobs. The first request is `n` and the last one `last`. -/
inductive Follows (find : ℕ → List UInt8 → Option FailedJobs) :
    ℕ → List UInt8 → ℕ → List FailedJob → Prop
  | last {n : ℕ} {cursor : List UInt8} {jobs : List FailedJob} :
      find n cursor = some ⟨jobs, []⟩ → Follows find n cursor n jobs
  | more {n last : ℕ} {cursor next : List UInt8} {jobs rest : List FailedJob} :
      find n cursor = some ⟨jobs, next⟩ → next ≠ [] → Follows find (n + 1) next last rest →
      Follows find n cursor last (jobs ++ rest)

def Query.precedes : Query → FailedJob → FailedJob → Prop
  | .failedJobs, x, y => y.createdAt < x.createdAt ∨ y.createdAt = x.createdAt ∧ y.id < x.id
  | .recentlyFailedJobs, x, y => y.id < x.id

structure Lists (json : Marshaler) (q : Query) (limit : ℕ) (F : Failures)
    (ws : ℕ → List Write) : Prop where
  returns : ∀ n cursor, ∃ page, q.find json (logAt F ws n) limit cursor = some page
  /-- The listing comes to an end if the writes do. -/
  ends : (∃ N, ∀ n, N ≤ n → ws n = []) →
    ∃ last jobs, Follows (fun n ↦ q.find json (logAt F ws n) limit) 0 [] last jobs
  once : ∀ last jobs,
    Follows (fun n ↦ q.find json (logAt F ws n) limit) 0 [] last jobs →
    (jobs.map FailedJob.id).Nodup
  /-- A job that is in the log all the time is shown. -/
  complete : ∀ last jobs r,
    Follows (fun n ↦ q.find json (logAt F ws n) limit) 0 [] last jobs →
    (∀ n, n ≤ last → r ∈ (logAt F ws n).rows) → jobs.count (scan json r) = 1
  sound : ∀ last jobs j,
    Follows (fun n ↦ q.find json (logAt F ws n) limit) 0 [] last jobs → j ∈ jobs →
    ∃ n ≤ last, ∃ r ∈ (logAt F ws n).rows, j = scan json r
  ordered : ∀ last jobs,
    Follows (fun n ↦ q.find json (logAt F ws n) limit) 0 [] last jobs →
    jobs.Pairwise q.precedes

variable {json : Marshaler} {q : Query} {limit : ℕ} {F : Failures} {ws : ℕ → List Write}
  {pos : Option FailedRow}

/-- Following the cursors is reading by keys. -/
theorem follows_iff (pos : Option FailedRow) (hmake : makes 136 limit)
    (hF : ∀ n, ∀ r ∈ (logAt F ws n).rows, InRange r) (hpos : ∀ b ∈ pos, InRange b)
    {n last : ℕ} {jobs : List FailedJob} :
    Follows (fun n ↦ q.find json (logAt F ws n) limit) n (cursorOf json pos) last jobs ↔
      ∃ out, Keyset.Reads q.key limit (fun n ↦ (logAt F ws n).rows) n pos last out ∧
        jobs = out.map (scan json) := by
  constructor
  · intro h
    generalize hcur : cursorOf json pos = cursor at h
    induction h generalizing pos with
    | @last n cursor jobs hf =>
      rw [← hcur, find_page hmake (hF n) hpos, Option.some_inj, FailedJobs.mk.injEq,
        cursorOf_eq_nil] at hf
      exact ⟨_, .last hf.2, hf.1.symm⟩
    | @more n last cursor next jobs rest hf hne _ ih =>
      rw [← hcur, find_page hmake (hF n) hpos, Option.some_inj,
        FailedJobs.mk.injEq] at hf
      obtain ⟨rfl, rfl⟩ := hf
      obtain ⟨b, hb⟩ := Option.ne_none_iff_exists'.mp (mt cursorOf_eq_nil.mpr hne)
      have hin : ∀ c ∈ some b, InRange c := fun c hc ↦ by
        cases hc
        exact next_inRange (hF n) hb
      obtain ⟨out, hout, rfl⟩ := ih (some b) hin (by rw [hb])
      exact ⟨_, .more hb hout, List.map_append.symm⟩
  · rintro ⟨out, h, rfl⟩
    induction h with
    | @last n pos hn =>
      refine .last ?_
      rw [find_page hmake (hF n) hpos, hn]
      rfl
    | @more n last pos b out hn _ ih =>
      have hin : ∀ c ∈ some b, InRange c := fun c hc ↦ by
        cases hc
        exact next_inRange (hF n) hn
      rw [List.map_append]
      refine .more ?_ ?_ (ih hin)
      · rw [find_page hmake (hF n) hpos, hn]
      · rw [Ne, cursorOf_eq_nil]
        exact nofun

theorem timeOf_lt {x y : ℕ} (hy : y ≤ maxMillis) (h : x < y) : timeOf x < timeOf y := by
  unfold maxMillis at hy
  rw [Inspector.timeOf_eq, Inspector.timeOf_eq, int64_of_range (by omega) (by omega),
    int64_of_range (by omega) (by omega), millisecond]
  omega

theorem precedes_scan {r r' : FailedRow} (hr : InRange r) (h : q.key r' < q.key r) :
    q.precedes (scan json r) (scan json r') := by
  cases q with
  | failedJobs =>
    rcases Prod.Lex.toLex_lt_toLex.mp h with hlt | ⟨heq, hlt⟩
    · exact .inl (timeOf_lt hr.2 hlt)
    · exact .inr ⟨congrArg timeOf heq, hlt⟩
  | recentlyFailedJobs =>
    rcases Prod.Lex.toLex_lt_toLex.mp h with hlt | ⟨-, hlt⟩
    · exact absurd hlt (Nat.lt_irrefl 0)
    · exact hlt

theorem logAt_quiet {N n : ℕ} (h : ∀ n, N ≤ n → ws n = []) (hn : N ≤ n) :
    logAt F ws n = logAt F ws N := by
  induction hn with
  | refl => rfl
  | @step n hn ih => rw [logAt, h n hn, List.foldl_nil, ih]

theorem reads_nodup {n last : ℕ} {out : List FailedRow}
    (h : Keyset.Reads q.key limit (fun n ↦ (logAt F ws n).rows) n pos last out) :
    ((out.map (scan json)).map FailedJob.id).Nodup := by
  rw [List.map_map, List.nodup_iff_pairwise_ne, List.pairwise_map]
  refine (h.descending fun n ↦ keys_nodup q (logAt F ws n)).imp_of_mem fun {a b} ha hb hlt heq ↦ ?_
  obtain ⟨m, -, hm⟩ := h.mem_rows ha
  obtain ⟨n, -, hn⟩ := h.mem_rows hb
  have hab : a = b := logAt_eq hm hn heq
  rw [hab] at hlt
  exact lt_irrefl _ hlt

/-- Both listings of the failure log show what is there in the meantime once
and in order, whatever is added and deleted between the pages. -/
theorem failures_listed (hlimit : 1 ≤ limit) (hmake : makes 136 limit)
    (hF : ∀ n, ∀ r ∈ (logAt F ws n).rows, InRange r) : Lists json q limit F ws := by
  have hreads {last : ℕ} {jobs : List FailedJob}
      (h : Follows (fun n ↦ q.find json (logAt F ws n) limit) 0 [] last jobs) :=
    (follows_iff none hmake hF nofun).mp h
  refine ⟨fun n cursor ↦ ?_, fun ⟨N, hN⟩ ↦ ?_, fun last jobs h ↦ ?_, fun last jobs r h hr ↦ ?_,
    fun last jobs j h hj ↦ ?_, fun last jobs h ↦ ?_⟩
  · have hmake' : makes 8 limit := by
      unfold makes at *
      omega
    rw [Query.find_eq]
    exact ⟨_, if_pos ⟨hmake, hmake'⟩⟩
  · obtain ⟨last, out, h⟩ := Keyset.exists_reads (fun n ↦ (logAt F ws n).rows) hlimit
      (fun n ↦ keys_nodup q _) (fun n hn ↦ by rw [logAt_quiet hN hn]) 0 none
    exact ⟨last, _, (follows_iff none hmake hF nofun).mpr ⟨out, h, rfl⟩⟩
  · obtain ⟨out, hout, rfl⟩ := hreads h
    exact reads_nodup hout
  · obtain ⟨out, hout, rfl⟩ := hreads h
    have hmem := hout.complete (fun n _ hn ↦ hr n hn) nofun
    exact List.count_eq_one_of_mem (List.Nodup.of_map _ (reads_nodup hout))
      (List.mem_map_of_mem hmem)
  · obtain ⟨out, hout, rfl⟩ := hreads h
    obtain ⟨r, hr, rfl⟩ := List.mem_map.mp hj
    obtain ⟨n, hn, hmem⟩ := hout.mem_rows hr
    exact ⟨n, hn, r, hmem, rfl⟩
  · obtain ⟨out, hout, rfl⟩ := hreads h
    rw [List.pairwise_map]
    refine (hout.descending fun n ↦ keys_nodup q _).imp_of_mem fun ha _ hlt ↦ ?_
    obtain ⟨n, -, hn⟩ := hout.mem_rows ha
    exact precedes_scan (hF n _ hn) hlt

def addSample : Write := .add ⟨true, .ok, .ok, .ok⟩ 1005 (.job (Job.scan sampleRow)) broken

def twoFailures : Failures := [addSample, addSample].foldl Write.apply (.empty _)

def meanwhile : ℕ → List Write
  | 0 => [addSample, .delete .ok 1]
  | _ => []

theorem meanwhile_inRange (n : ℕ) : ∀ r ∈ (logAt twoFailures meanwhile n).rows, InRange r := by
  have hquiet (n : ℕ) (h : 1 ≤ n) : meanwhile n = [] := by
    cases n with
    | zero => cases h
    | succ n => rfl
  rcases Nat.lt_or_ge n 1 with h | h
  · rw [Nat.lt_one_iff.mp h]
    decide +kernel
  · rw [logAt_quiet hquiet h]
    decide +kernel

theorem failures_listed_meanwhile : Lists Inspector.plain .failedJobs 1 twoFailures meanwhile :=
  failures_listed (by decide) (by decide) meanwhile_inRange

theorem oversized_page_panics : 1 ≤ 2 ^ 44 ∧
    (∀ n, ∀ r ∈ (logAt twoFailures meanwhile n).rows, InRange r) ∧
    ¬ Lists Inspector.plain .failedJobs (2 ^ 44) twoFailures meanwhile := by
  refine ⟨by decide, meanwhile_inRange, fun h ↦ ?_⟩
  obtain ⟨page, hpage⟩ := h.returns 0 []
  rw [Query.find_eq, findAllByQuery, if_neg (by decide)] at hpage
  cases hpage

end Listing

end Fireworq.MySQL.FailureLog
