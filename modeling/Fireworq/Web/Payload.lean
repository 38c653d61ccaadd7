import Fireworq.GoJsonDecode
import Fireworq.Web.Job

namespace Fireworq.Web.Payload

open GoJson GoString GoEncoding

/-- `IncomingJob` as `POST /job` decodes it, with strings as their bytes. The
text of the payload is kept, and its value is decoded later. -/
structure IncomingJob where
  categoryField : List UInt8
  urlField : List UInt8
  payloadField : List UInt8
  decoded : List UInt8
  runAfterField : ℕ
  timeoutField : ℕ
  retryDelayField : ℕ
  maxRetriesField : ℕ
  failureUrlField : List UInt8
  deriving DecidableEq

namespace IncomingJob

def zero : IncomingJob := ⟨[], [], [], [], 0, 0, 0, 0, []⟩

def fields : List (GoJson.Field IncomingJob) :=
  [⟨bytes "category", storeString fun t j ↦ { j with categoryField := t }⟩,
    ⟨bytes "url", storeString fun t j ↦ { j with urlField := t }⟩,
    ⟨bytes "payload", storeRaw fun t j ↦ { j with payloadField := t }⟩,
    ⟨bytes "run_after", storeUint fun n j ↦ { j with runAfterField := n }⟩,
    ⟨bytes "timeout", storeUint fun n j ↦ { j with timeoutField := n }⟩,
    ⟨bytes "retry_delay", storeUint fun n j ↦ { j with retryDelayField := n }⟩,
    ⟨bytes "max_retries", storeUint fun n j ↦ { j with maxRetriesField := n }⟩,
    ⟨bytes "failure_url", storeString fun t j ↦ { j with failureUrlField := t }⟩]

end IncomingJob

/-- `json.Unmarshal` into a string. -/
def unmarshalString (s : List UInt8) : Option (List UInt8) :=
  (scanValue 0 (skipSpace s)).bind fun r ↦
    if (skipSpace r.2).isEmpty then if r.1 = nullText then some [] else unquote r.1 else none

namespace IncomingJob

variable (job : IncomingJob)

/-- `DecodePayload`. The result is `none` if the payload is a broken string. -/
def decodePayload : Option IncomingJob :=
  if job.payloadField.head? = some quote ∧ job.payloadField.getLast? = some quote then
    (unmarshalString job.payloadField).map fun buf ↦ { job with decoded := buf }
  else if job.payloadField = nullText then some { job with decoded := [] }
  else some { job with decoded := job.payloadField }

/-- `Payload`, which decodes the payload once more if its value is empty. -/
def payload : List UInt8 :=
  if job.decoded = [] then (job.decodePayload.getD job).decoded else job.decoded

end IncomingJob

/-- `serveJob` up to the push of the job: the body is decoded, then its payload,
and a URL is required. -/
def readJob (category body : List UInt8) : Option IncomingJob :=
  (decode IncomingJob.fields .zero body).bind fun r ↦ r.1.decodePayload.bind fun job ↦
    if job.urlField = [] then none else some { job with categoryField := category }

section Decoding

variable {job : IncomingJob} {body rest raw : List UInt8}

theorem IncomingJob.payloadField_raw (h : decode fields zero body = some (job, rest)) :
    job.payloadField = [] ∨ IsRaw job.payloadField := by
  refine decode_invariant (P := fun j ↦ j.payloadField = [] ∨ IsRaw j.payloadField) (.inl rfl)
    (fun f hf raw v v' hraw hv hstore ↦ ?_) h
  simp only [fields, List.mem_cons, List.not_mem_nil, or_false] at hf
  rcases hf with rfl | rfl | rfl | rfl | rfl | rfl | rfl | rfl
  all_goals dsimp only at hstore
  case inr.inr.inl =>
    cases hstore
    exact .inr hraw
  case inl | inr.inl | inr.inr.inr.inr.inr.inr.inr =>
    obtain ⟨t, -, rfl⟩ | rfl := storeString_cases hstore <;> exact hv
  all_goals obtain ⟨n, -, rfl⟩ | rfl := storeUint_cases hstore <;> exact hv

structure IncomingJob.Fits (job : IncomingJob) : Prop where
  runAfter : job.runAfterField < 2 ^ 64
  timeout : job.timeoutField < 2 ^ 64
  retryDelay : job.retryDelayField < 2 ^ 64
  maxRetries : job.maxRetriesField < 2 ^ 64

/-- The numbers of a body that can be decoded are in range. -/
theorem IncomingJob.fits_of_decode (h : decode fields zero body = some (job, rest)) :
    job.Fits := by
  refine decode_invariant (P := Fits) ⟨by decide, by decide, by decide, by decide⟩
    (fun f hf raw v v' _ hv hstore ↦ ?_) h
  simp only [fields, List.mem_cons, List.not_mem_nil, or_false] at hf
  rcases hf with rfl | rfl | rfl | rfl | rfl | rfl | rfl | rfl
  all_goals dsimp only at hstore
  case inr.inr.inl => cases hstore; exact { hv with }
  case inl | inr.inl | inr.inr.inr.inr.inr.inr.inr =>
    obtain ⟨t, -, rfl⟩ | rfl := storeString_cases hstore <;> exact { hv with }
  case inr.inr.inr.inl =>
    obtain ⟨n, hn, rfl⟩ | rfl := storeUint_cases hstore
    · exact { hv with runAfter := hn }
    · exact hv
  case inr.inr.inr.inr.inl =>
    obtain ⟨n, hn, rfl⟩ | rfl := storeUint_cases hstore
    · exact { hv with timeout := hn }
    · exact hv
  case inr.inr.inr.inr.inr.inl =>
    obtain ⟨n, hn, rfl⟩ | rfl := storeUint_cases hstore
    · exact { hv with retryDelay := hn }
    · exact hv
  case inr.inr.inr.inr.inr.inr.inl =>
    obtain ⟨n, hn, rfl⟩ | rfl := storeUint_cases hstore
    · exact { hv with maxRetries := hn }
    · exact hv

def IncomingJob.toJob (job : IncomingJob) (h : job.Fits) : Web.IncomingJob where
  category := ofBytes job.categoryField
  url := ofBytes job.urlField
  payload := ofBytes job.payload
  runAfter := job.runAfterField
  timeout := job.timeoutField
  retryDelay := job.retryDelayField
  maxRetries := job.maxRetriesField
  failureUrl := ofBytes job.failureUrlField
  fits := ⟨h.runAfter, h.timeout, h.retryDelay, h.maxRetries⟩

/-- What `DecodePayload` makes of the text of a payload: nothing for a missing
payload or `null`, the value of a string, and any other text as it is. -/
inductive ValueOf : List UInt8 → List UInt8 → Prop
  | missing : ValueOf [] []
  | null : ValueOf nullText []
  | string {raw p : List UInt8} : raw.head? = some quote → unquote raw = some p → ValueOf raw p
  | other {raw : List UInt8} :
      valid raw = true → raw.head? ≠ some quote → raw ≠ nullText → ValueOf raw raw

theorem IsRaw.unmarshalString (h : IsRaw raw) (hne : raw ≠ nullText) :
    unmarshalString raw = unquote raw := by
  rw [Payload.unmarshalString, h.skipSpace, h.scanValue, Option.bind_some]
  dsimp only
  rw [if_pos (show (skipSpace []).isEmpty = true from rfl), if_neg hne]

theorem decodePayload_eq (h : decode IncomingJob.fields .zero body = some (job, rest)) :
    ∃ p, ValueOf job.payloadField p ∧ job.decodePayload = some { job with decoded := p } := by
  rcases IncomingJob.payloadField_raw h with hempty | hraw
  · refine ⟨[], by rw [hempty]; exact .missing, ?_⟩
    rw [IncomingJob.decodePayload, hempty, if_neg (by simp), if_neg (by decide)]
  · rw [IncomingJob.decodePayload]
    by_cases hq : job.payloadField.head? = some quote
    · obtain ⟨hlast, p, hp⟩ := hraw.unquote hq
      have hne : job.payloadField ≠ nullText := by
        intro hnull
        rw [hnull] at hq
        exact absurd hq (by decide)
      refine ⟨p, .string hq hp, ?_⟩
      rw [if_pos ⟨hq, hlast⟩, IsRaw.unmarshalString hraw hne, hp, Option.map_some]
    · rw [if_neg fun hboth ↦ hq hboth.1]
      split
      · next hnull => exact ⟨[], by rw [hnull]; exact .null, rfl⟩
      · next hnull => exact ⟨_, .other hraw.valid hq hnull, rfl⟩

theorem payload_of_decodePayload {p : List UInt8}
    (h : job.decodePayload = some { job with decoded := p }) :
    IncomingJob.payload { job with decoded := p } = p := by
  have hagain : IncomingJob.decodePayload { job with decoded := p } = job.decodePayload := rfl
  rw [IncomingJob.payload, hagain, h]
  exact ite_self p

theorem decodePayload_category (job : IncomingJob) (c : List UInt8) :
    IncomingJob.decodePayload { job with categoryField := c } =
      job.decodePayload.map fun j ↦ { j with categoryField := c } := by
  unfold IncomingJob.decodePayload
  dsimp only
  split
  · rw [Option.map_map]
    rfl
  · split <;> rfl

/-- What is pushed has the category of the path and the value of the payload. -/
theorem readJob_toJob {category : List UInt8} (h : readJob category body = some job) :
    ∃ hfits : job.Fits, (job.toJob hfits).category = ofBytes category ∧
      (job.toJob hfits).payload = ofBytes job.decoded ∧ job.urlField ≠ [] := by
  obtain ⟨⟨read, rest⟩, hread, h⟩ := Option.bind_eq_some_iff.mp h
  obtain ⟨p, -, hp⟩ := decodePayload_eq hread
  dsimp only at h
  rw [hp, Option.bind_some] at h
  split at h
  · cases h
  · next hurl =>
    cases h
    have hfits := IncomingJob.fits_of_decode hread
    have hp' := decodePayload_category read category
    rw [hp, Option.map_some] at hp'
    exact ⟨{ hfits with }, rfl, congrArg ofBytes (payload_of_decodePayload hp'), hurl⟩

/-- A request body that can be decoded has a payload that can be decoded, and
asking for the payload again gives the same value. -/
theorem payload_never_broken (category body : List UInt8) (job : IncomingJob) (rest : List UInt8)
    (h : decode IncomingJob.fields .zero body = some (job, rest)) :
    ∃ p, ValueOf job.payloadField p ∧
      job.decodePayload = some { job with decoded := p } ∧
      IncomingJob.payload { job with decoded := p } = p ∧
      (readJob category body = none ↔ job.urlField = []) := by
  obtain ⟨p, hvalue, hdecode⟩ := decodePayload_eq h
  refine ⟨p, hvalue, hdecode, ?_, ?_⟩
  · exact payload_of_decodePayload hdecode
  · rw [readJob, h, Option.bind_some, hdecode, Option.bind_some]
    by_cases hurl : job.urlField = []
    · simp [hurl]
    · simp [hurl]

end Decoding

section Posting

def marshalJob (job : IncomingJob) : List UInt8 :=
  object ⟨bytes "category", marshalString job.categoryField⟩
    [⟨bytes "url", marshalString job.urlField⟩,
      ⟨bytes "payload", marshalString job.decoded⟩,
      ⟨bytes "run_after", formatUint job.runAfterField⟩,
      ⟨bytes "timeout", formatUint job.timeoutField⟩,
      ⟨bytes "retry_delay", formatUint job.retryDelayField⟩,
      ⟨bytes "max_retries", formatUint job.maxRetriesField⟩,
      ⟨bytes "failure_url", marshalString job.failureUrlField⟩]

variable {job : IncomingJob}

theorem decode_marshalJob (h : job.Fits) :
    decode IncomingJob.fields .zero (marshalJob job) = some ({
      categoryField := toValid job.categoryField
      urlField := toValid job.urlField
      payloadField := marshalString job.decoded
      decoded := []
      runAfterField := job.runAfterField
      timeoutField := job.timeoutField
      retryDelayField := job.retryDelayField
      maxRetriesField := job.maxRetriesField
      failureUrlField := toValid job.failureUrlField }, []) := by
  rw [marshalJob, decode_object]
  · rw [decodeMembers_string rfl, decodeMembers_string rfl, decodeMembers_raw rfl,
      decodeMembers_uint rfl h.runAfter, decodeMembers_uint rfl h.timeout,
      decodeMembers_uint rfl h.retryDelay, decodeMembers_uint rfl h.maxRetries,
      decodeMembers_string rfl]
    rfl
  · exact (PlainName.of_safe (by decide)).string _
  · simp only [List.forall_mem_cons]
    exact ⟨(PlainName.of_safe (by decide)).string _, (PlainName.of_safe (by decide)).string _,
      (PlainName.of_safe (by decide)).uint _, (PlainName.of_safe (by decide)).uint _,
      (PlainName.of_safe (by decide)).uint _, (PlainName.of_safe (by decide)).uint _,
      (PlainName.of_safe (by decide)).string _, by simp⟩

/-- A job whose payload is posted as a string is pushed as it was written, up to
bytes that are not UTF-8. Its category is that of the path. -/
theorem posted_job_round_trips (category : List UInt8) (job : IncomingJob) (h : job.Fits)
    (hurl : job.urlField ≠ []) :
    readJob category (marshalJob job) = some { job with
      categoryField := category
      urlField := toValid job.urlField
      payloadField := marshalString job.decoded
      decoded := toValid job.decoded
      failureUrlField := toValid job.failureUrlField } := by
  have hdecode := decode_marshalJob h
  obtain ⟨p, hvalue, hp⟩ := decodePayload_eq hdecode
  have hvalid : p = toValid job.decoded := by
    generalize hraw : marshalString job.decoded = raw at hvalue
    cases hvalue with
    | missing => cases hraw
    | null => exact absurd hraw (marshalString_ne_null _)
    | string _ hu =>
      rw [← hraw, unquote_marshalString] at hu
      exact (Option.some.inj hu).symm
    | other _ hq _ => exact absurd (hraw ▸ rfl) hq
  rw [readJob, hdecode, Option.bind_some, hp, Option.bind_some, if_neg, hvalid]
  exact toValid_ne_nil hurl

def sampleJob : IncomingJob where
  categoryField := bytes "test"
  urlField := bytes "http://localhost/"
  payloadField := []
  decoded := 0xFF :: bytes "<1>"
  runAfterField := 0
  timeoutField := 60
  retryDelayField := 30
  maxRetriesField := 3
  failureUrlField := []

theorem posted_job_round_trips_sample :
    sampleJob.Fits ∧ sampleJob.urlField ≠ [] ∧
      (readJob (bytes "mail") (marshalJob sampleJob)).map IncomingJob.decoded =
        some (0xEF :: 0xBF :: 0xBD :: bytes "<1>") := by
  have hfits : sampleJob.Fits := ⟨by decide, by decide, by decide, by decide⟩
  refine ⟨hfits, by decide, ?_⟩
  rw [posted_job_round_trips (bytes "mail") sampleJob hfits (by decide)]
  decide

theorem payload_never_broken_sample :
    ∃ job rest, decode IncomingJob.fields .zero (marshalJob sampleJob) = some (job, rest) ∧
      ∃ p, job.decodePayload = some { job with decoded := p } := by
  have hfits : sampleJob.Fits := ⟨by decide, by decide, by decide, by decide⟩
  have hdecode := decode_marshalJob hfits
  obtain ⟨p, -, hp, -⟩ := payload_never_broken [] _ _ _ hdecode
  exact ⟨_, _, hdecode, p, hp⟩

end Posting

end Fireworq.Web.Payload
