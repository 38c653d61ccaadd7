import Fireworq.GoJsonScan
import Fireworq.Web.Queue

namespace Fireworq.Web.Rendering

open Relational GoJson GoString GoInt MySQL
open Inspector (Marshaler InspectedJob timeOf second)
open FailureLog (Failures FailedJob)

def goJson : Marshaler where
  accepts p := valid (bytes p)
  quote p := ofBytes (marshalString (bytes p))

/-- `Time.MarshalJSON`: the year in the local zone has four digits, and the
offset of the zone less than 24 hours. The zone gives its offset in seconds. -/
def marshalsTime (zone : ℤ → ℤ) (t : ℤ) : Bool :=
  -62167219200 ≤ t / second + zone t ∧ t / second + zone t < 253402300800 ∧
    (zone t).natAbs < 86400

structure Entry where
  payload : String
  times : List ℤ
  deriving DecidableEq

def Entry.ofJob (j : InspectedJob) : Entry := ⟨j.payload, [j.createdAt, j.nextTry]⟩

def Entry.ofFailed (j : FailedJob) : Entry := ⟨j.payload, [j.failedAt, j.createdAt]⟩

def Entry.marshals (zone : ℤ → ℤ) (x : Entry) : Bool :=
  (x.payload = "" || valid (bytes x.payload)) && x.times.all (marshalsTime zone)

def entries (T : Table Row.jobId) (F : Failures) (now : ℤ) (q : Params) :
    Endpoint → Option (List Entry)
  | .jobs listing => (serveQueueJobs listing goJson T now q).map fun page ↦
      page.jobs.map Entry.ofJob
  | .failed => (serveQueueFailed goJson F q).map fun page ↦ page.failedJobs.map Entry.ofFailed

section Payload

variable {T : Table Row.jobId} {F : Failures} {now : ℤ} {q : Params} {e : Endpoint}
  {page : List Entry} {x : Entry}

theorem accepted_or_quoted (p : String) :
    valid (bytes (if goJson.accepts p then p else goJson.quote p)) = true := by
  split
  · exact ‹_›
  · exact (congrArg valid (bytes_ofBytes _)).trans (valid_marshalString _)

theorem findAll_mem {order : Inspector.SortOrder} {status : Status} {p : Row → Prop}
    [DecidablePred p] {limit : ℕ} {jobs : Inspector.InspectedJobs} {j : InspectedJob}
    (h : Inspector.findAll goJson order T status p limit = some jobs) (hj : j ∈ jobs.jobs) :
    ∃ r ∈ T.rows, Inspector.scan goJson r = j := by
  obtain ⟨r, hr, rfl⟩ := Inspector.findAllMeanwhile_mem h hj
  exact ⟨r, (List.mem_filter.mp hr).1, rfl⟩

theorem findAllByQuery_mem {query : FailureLog.Query} {limit : ℕ} {cursor : List UInt8}
    {jobs : FailureLog.FailedJobs} {j : FailedJob}
    (h : FailureLog.findAllByQuery goJson query F limit cursor = some jobs)
    (hj : j ∈ jobs.failedJobs) : ∃ r, FailureLog.scan goJson r = j := by
  simp only [FailureLog.findAllByQuery] at h
  split at h
  · cases h
    simp only [FailureLog.finish] at hj
    split at hj
    · obtain ⟨r, -, rfl⟩ := List.mem_map.mp (List.mem_of_mem_take hj)
      exact ⟨r, rfl⟩
    · obtain ⟨r, -, rfl⟩ := List.mem_map.mp hj
      exact ⟨r, rfl⟩
  · cases h

theorem entries_payload (h : entries T F now q e = some page) (hx : x ∈ page) :
    valid (bytes x.payload) = true := by
  cases e with
  | jobs listing =>
    obtain ⟨jobs, hjobs, rfl⟩ := Option.map_eq_some_iff.mp h
    obtain ⟨j, hj, rfl⟩ := List.mem_map.mp hx
    rw [serveQueueJobs, Inspector.Listing.find_eq] at hjobs
    obtain ⟨r, -, rfl⟩ := findAll_mem hjobs hj
    exact accepted_or_quoted r.payload
  | failed =>
    obtain ⟨jobs, hjobs, rfl⟩ := Option.map_eq_some_iff.mp h
    obtain ⟨j, hj, rfl⟩ := List.mem_map.mp hx
    have hscan : ∃ r, FailureLog.scan goJson r = j := by
      rw [serveQueueFailed] at hjobs
      split at hjobs
      · exact findAllByQuery_mem hjobs hj
      · exact findAllByQuery_mem hjobs hj
    obtain ⟨r, rfl⟩ := hscan
    exact accepted_or_quoted r.payload

end Payload

/-- A page that is found is answered with an error exactly if it has a time
whose year has not four digits. No payload is the reason for one. -/
theorem page_renders_iff (zone : ℤ → ℤ) (T : Table Row.jobId) (F : Failures) (now : ℤ)
    (q : Params) (e : Endpoint) (page : List Entry) (h : entries T F now q e = some page) :
    page.all (Entry.marshals zone) = true ↔
      ∀ x ∈ page, ∀ t ∈ x.times, marshalsTime zone t = true := by
  rw [List.all_eq_true]
  refine forall₂_congr fun x hx ↦ ?_
  have hpayload := entries_payload h hx
  simp [Entry.marshals, hpayload]

def farJob : Row := Inspector.waitingRow 1 253402300800000 (by decide)

theorem page_renders_iff_far :
    ∃ page, entries (Inspector.single farJob) (AutoTable.empty _) second ⟨[], [], "asc"⟩
        (.jobs .deferred) = some page ∧
      page.all (Entry.marshals fun _ ↦ 0) = false := by
  have hfound : ∃ jobs, Inspector.Listing.deferred.find goJson (Inspector.single farJob) second
      100 .asc [] = some jobs ∧ Inspector.scan goJson farJob ∈ jobs.jobs :=
    Inspector.find_single (by decide) (by decide) (by decide)
  obtain ⟨jobs, hjobs, hmem⟩ := hfound
  have hpage : entries (Inspector.single farJob) (AutoTable.empty _) second ⟨[], [], "asc"⟩
      (.jobs .deferred) = some (jobs.jobs.map Entry.ofJob) := by
    have hlimit : Params.limitOf ⟨[], [], "asc"⟩ = 100 := by decide
    have horder : Params.orderOf ⟨[], [], "asc"⟩ = .asc := by decide
    rw [entries, serveQueueJobs, hlimit, horder, hjobs]
    rfl
  refine ⟨_, hpage, Bool.eq_false_iff.mpr fun hall ↦ ?_⟩
  have hfar := (page_renders_iff (fun _ ↦ 0) _ _ _ _ _ _ hpage).mp hall _
    (List.mem_map_of_mem hmem) (timeOf farJob.nextTry) (by simp [Entry.ofJob, Inspector.scan])
  exact absurd hfar (by decide)

end Fireworq.Web.Rendering
