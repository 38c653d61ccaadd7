import Fireworq.MySQL.FailurePages
import Fireworq.MySQL.Listing

namespace Fireworq.Web

open Relational GoEncoding GoInt MySQL
open Inspector (Listing SortOrder Marshaler InspectedJobs maxUint64)
open FailureLog (Failures FailedJobs)

structure Params where
  limit : List UInt8
  cursor : List UInt8
  order : String

def Params.limitOf (q : Params) : ℕ :=
  match atoi q.limit with
  | some l => uint64 l
  | none => 100

def Params.orderOf (q : Params) : SortOrder := if q.order = "asc" then .asc else .desc

/-- `serveQueueJobs` with the method of the inspector that it is given. The
result is `none` where the method panics. -/
def serveQueueJobs (listing : Listing) (json : Marshaler) (T : Table Row.jobId) (now : ℤ)
    (q : Params) : Option InspectedJobs :=
  listing.find json T now q.limitOf q.orderOf q.cursor

def serveQueueFailed (json : Marshaler) (F : Failures) (q : Params) : Option FailedJobs :=
  if q.order = "created" then FailureLog.findAll json F q.limitOf q.cursor
  else FailureLog.findAllRecentFailures json F q.limitOf q.cursor

inductive Endpoint
  | jobs (listing : Listing)
  | failed
  deriving DecidableEq

namespace Endpoint

def Returns (json : Marshaler) (T : Table Row.jobId) (F : Failures) (now : ℤ) (q : Params) :
    Endpoint → Prop
  | .jobs listing => ∃ page, serveQueueJobs listing json T now q = some page
  | .failed => ∃ page, serveQueueFailed json F q = some page

/-- Nothing that the endpoint does with its limit panics or wraps around. An
index is taken after a comparison of the length as a `uint` with the limit. -/
structure Survives (e : Endpoint) (json : Marshaler) (T : Table Row.jobId) (F : Failures)
    (now : ℤ) (q : Params) : Prop where
  returns : e.Returns json T F now q
  sqlLimit : uint64 (q.limitOf + 1) = q.limitOf + 1
  index : ∀ len : ℕ, q.limitOf < uint64 len → q.limitOf < len

def Allocates (limit : ℕ) : Endpoint → Prop
  | .jobs _ => makes 176 (limit + 1)
  | .failed => makes 136 limit

end Endpoint

section Limits

variable {json : Marshaler} {T : Table Row.jobId} {F : Failures} {now : ℤ} {q : Params}
  {e : Endpoint}

theorem serveQueueJobs_isSome_iff {listing : Listing} (hlimit : q.limitOf + 1 < 2 ^ 64) :
    (∃ page, serveQueueJobs listing json T now q = some page) ↔ makes 176 (q.limitOf + 1) := by
  rw [serveQueueJobs, Listing.find_eq]
  constructor
  · intro h
    obtain ⟨page, hpage⟩ := h
    by_contra hmake
    rw [Inspector.findAll_eq_none hlimit hmake] at hpage
    cases hpage
  · intro hmake
    have hmake' : makes 16 (q.limitOf + 1) := makes_of_le hmake (by decide)
    exact ⟨_, Inspector.findAll_eq (fun _ ↦ Listing.requests_status) ⟨hmake', hmake⟩⟩

theorem serveQueueFailed_isSome_iff :
    (∃ page, serveQueueFailed json F q = some page) ↔ makes 136 q.limitOf := by
  have hmake : makes 136 q.limitOf ∧ makes 8 q.limitOf ↔ makes 136 q.limitOf :=
    and_iff_left_of_imp fun h ↦ makes_of_le h (by decide)
  unfold serveQueueFailed FailureLog.findAll FailureLog.findAllRecentFailures
    FailureLog.findAllByQuery
  simp only [hmake]
  split <;> split <;> simp [*]

theorem returns_iff (hlimit : q.limitOf + 1 < 2 ^ 64) :
    e.Returns json T F now q ↔ e.Allocates q.limitOf := by
  cases e with
  | jobs listing => exact serveQueueJobs_isSome_iff hlimit
  | failed => exact serveQueueFailed_isSome_iff

/-- A listing endpoint survives a limit exactly if it is not negative and small
enough for the slices that are made for it. -/
theorem survives_iff (e : Endpoint) (json : Marshaler) (T : Table Row.jobId) (F : Failures)
    (now : ℤ) (q : Params) (l : ℤ) (hl : atoi q.limit = some l) :
    e.Survives json T F now q ↔ 0 ≤ l ∧ e.Allocates l.toNat := by
  obtain ⟨h₀, h₁⟩ := atoi_range hl
  have hlimit : q.limitOf = uint64 l := by simp only [Params.limitOf, hl]
  by_cases hpos : 0 ≤ l
  · have hof : q.limitOf = l.toNat := by rw [hlimit, uint64_of_range hpos (by omega)]
    have hlt : q.limitOf + 1 < 2 ^ 64 := by omega
    rw [← hof]
    constructor
    · intro h
      exact ⟨hpos, (returns_iff hlt).mp h.returns⟩
    · intro h
      exact ⟨(returns_iff hlt).mpr h.2, uint64_natCast (n := q.limitOf + 1) hlt,
        fun len hlen ↦ lt_of_lt_of_le hlen (uint64_le len)⟩
  · have hof : (q.limitOf : ℤ) = l + 2 ^ 64 := by
      rw [hlimit, uint64]
      omega
    refine iff_of_false (fun h ↦ ?_) (fun h ↦ hpos h.1)
    rcases eq_or_ne l (-1) with rfl | hne
    · have hsql := h.sqlLimit
      rw [hof] at hsql
      have := uint64_lt (-1 + 2 ^ 64 + 1)
      omega
    · have hmake := (returns_iff (by omega)).mp h.returns
      cases e <;> simp only [Endpoint.Allocates, makes, maxAlloc] at hmake <;> omega

theorem survives_iff_ten :
    atoi [49, 48] = some 10 ∧
      (Endpoint.jobs .waiting).Survives Inspector.plain Inspector.delayed (AutoTable.empty _)
        Inspector.second ⟨[49, 48], [], "asc"⟩ :=
  ⟨by decide, (survives_iff (.jobs .waiting) Inspector.plain Inspector.delayed (AutoTable.empty _)
    Inspector.second ⟨[49, 48], [], "asc"⟩ 10 (by decide)).mpr
      ⟨by decide, show makes 176 11 by decide⟩⟩

/-- With `limit=-2` the job listings panic, and with `limit=-1` the listing of
the failed jobs does. -/
theorem negative_limit_panics :
    atoi [45, 50] = some (-2) ∧ atoi [45, 49] = some (-1) ∧
      serveQueueJobs .waiting Inspector.plain Inspector.delayed Inspector.second
        ⟨[45, 50], [], ""⟩ = none ∧
      serveQueueFailed Inspector.plain (AutoTable.empty _) ⟨[45, 49], [], ""⟩ = none := by
  refine ⟨by decide, by decide, ?_, by decide⟩
  rw [serveQueueJobs, Listing.find_eq]
  exact Inspector.findAll_eq_none (by decide) (by decide)

end Limits

end Fireworq.Web
