import Fireworq.GoJsonDecode
import Fireworq.JobQueue.Completion

namespace Fireworq.Dispatcher.Worker

open GoJson GoString GoEncoding

def resultStatusSuccess : List UInt8 := bytes "success"

def resultStatusFailure : List UInt8 := bytes "failure"

def resultStatusPermanentFailure : List UInt8 := bytes "permanent-failure"

def resultStatusInternalFailure : List UInt8 := bytes "internal-failure"

structure Result where
  status : List UInt8
  code : ℤ
  message : List UInt8
  deriving DecidableEq

namespace Result

def zero : Result := ⟨[], 0, []⟩

def fields : List (GoJson.Field Result) :=
  [⟨bytes "status", storeString fun t r ↦ { r with status := t }⟩,
    ⟨bytes "code", storeInt fun x r ↦ { r with code := x }⟩,
    ⟨bytes "message", storeString fun t r ↦ { r with message := t }⟩]

def marshal (r : Result) : List UInt8 :=
  object ⟨bytes "status", marshalString r.status⟩
    [⟨bytes "code", formatInt r.code⟩, ⟨bytes "message", marshalString r.message⟩]

def unmarshal (s : List UInt8) : Option Result := GoJson.unmarshal fields zero s

def isValid (r : Result) : Bool :=
  r.status = resultStatusSuccess || r.status = resultStatusFailure ||
    r.status = resultStatusPermanentFailure

end Result

inductive Exchange
  | notCreated (err : List UInt8)
  | failed (err : List UInt8)
  | unreadable (code : ℤ) (err : List UInt8)
  | answered (code : ℤ) (body : List UInt8)

def originalBody (body : List UInt8) : List UInt8 :=
  10 :: bytes "Original response body:" ++ 10 :: body

/-- `HTTPWorker.Work` after the request. `jsonError` is the text of the error of
`json.Unmarshal`. -/
def work (jsonError : List UInt8 → List UInt8) : Exchange → Result
  | .notCreated err =>
    ⟨resultStatusInternalFailure, 0, bytes "Cannot create http request: " ++ err⟩
  | .failed err => ⟨resultStatusInternalFailure, 0, bytes "Request failed: " ++ err⟩
  | .unreadable code err => ⟨resultStatusFailure, code, bytes "Cannot read body: " ++ err⟩
  | .answered code body =>
    match Result.unmarshal body with
    | none => {
        status := resultStatusFailure
        code := code
        message := bytes "Cannot parse body as JSON: " ++ jsonError body ++ originalBody body }
    | some r =>
      if r.isValid then { r with code := code }
      else {
        status := resultStatusFailure
        code := code
        message := bytes "Invalid result status: " ++ r.status ++ originalBody body }

def Exchange.code : Exchange → ℤ
  | .notCreated _ | .failed _ => 0
  | .unreadable code _ | .answered code _ => code

section RoundTrip

variable {r : Result} {jsonError : List UInt8 → List UInt8} {x : Exchange}

theorem Result.unmarshal_marshal (h₀ : -2 ^ 63 ≤ r.code) (h₁ : r.code < 2 ^ 63) :
    unmarshal r.marshal = some ⟨toValid r.status, r.code, toValid r.message⟩ := by
  rw [unmarshal, marshal, unmarshal_object]
  · rw [decodeMembers_string rfl, decodeMembers_int rfl h₀ h₁, decodeMembers_string rfl]
    rfl
  · exact (PlainName.of_safe (by decide)).string _
  · simp only [List.forall_mem_cons]
    exact ⟨(PlainName.of_safe (by decide)).int _, (PlainName.of_safe (by decide)).string _, by simp⟩

/-- A result is valid UTF-8 if it has been decoded. -/
theorem Result.unmarshal_utf8 {s : List UInt8} (h : unmarshal s = some r) :
    Utf8 r.status ∧ Utf8 r.message := by
  obtain ⟨⟨v, rest⟩, hv, h⟩ := Option.bind_eq_some_iff.mp h
  split at h <;> cases h
  have hzero : Utf8 zero.status ∧ Utf8 zero.message := ⟨rfl, rfl⟩
  refine decode_invariant (P := fun r : Result ↦ Utf8 r.status ∧ Utf8 r.message) hzero
    (fun f hf raw v v' _ hv hstore ↦ ?_) hv
  simp only [fields, List.mem_cons, List.not_mem_nil, or_false] at hf
  rcases hf with rfl | rfl | rfl
  all_goals dsimp only at hstore
  · obtain ⟨t, ht, rfl⟩ | rfl := storeString_cases hstore
    · exact ⟨ht, hv.2⟩
    · exact hv
  · obtain ⟨x, rfl⟩ | rfl := storeInt_cases hstore <;> exact hv
  · obtain ⟨t, ht, rfl⟩ | rfl := storeString_cases hstore
    · exact ⟨hv.1, ht⟩
    · exact hv

theorem Result.isValid_utf8 (h : r.isValid = true) : toValid r.status = r.status := by
  simp only [isValid, Bool.or_eq_true, decide_eq_true_eq] at h
  rcases h with (h | h) | h <;> rw [h] <;> decide

/-- A worker that answers with the JSON of a result is understood, whatever the
code of its response. The code of the result is that of the response. -/
theorem work_marshal (jsonError : List UInt8 → List UInt8) (code : ℤ) (h₀ : -2 ^ 63 ≤ r.code)
    (h₁ : r.code < 2 ^ 63) (hvalid : r.isValid = true) :
    work jsonError (.answered code r.marshal) = ⟨r.status, code, toValid r.message⟩ := by
  have hstatus := Result.isValid_utf8 hvalid
  have hvalid' : Result.isValid ⟨r.status, r.code, toValid r.message⟩ = true := hvalid
  rw [work, Result.unmarshal_marshal h₀ h₁, hstatus]
  dsimp only
  rw [if_pos hvalid']

def Exchange.Reports : Exchange → Result → Prop
  | .answered _ body, r => Result.unmarshal body = some r ∧ r.isValid = true
  | _, _ => False

theorem work_status (jsonError : List UInt8 → List UInt8) (x : Exchange) :
    toValid (work jsonError x).status = (work jsonError x).status := by
  have hfailure : toValid resultStatusFailure = resultStatusFailure := by decide
  have hinternal : toValid resultStatusInternalFailure = resultStatusInternalFailure := by decide
  cases x with
  | notCreated | failed => exact hinternal
  | unreadable => exact hfailure
  | answered code body =>
    simp only [work]
    split
    · exact hfailure
    · split
      · exact Result.isValid_utf8 ‹_›
      · exact hfailure

theorem work_code (jsonError : List UInt8 → List UInt8) (x : Exchange) :
    (work jsonError x).code = x.code := by
  cases x with
  | answered code body =>
    simp only [work, Exchange.code]
    split
    · rfl
    · split <;> rfl
  | _ => rfl

theorem work_of_reports (jsonError : List UInt8 → List UInt8) (h : x.Reports r) :
    work jsonError x = { r with code := x.code } := by
  cases x with
  | answered code body =>
    simp only [work, h.1, h.2, if_true]
    rfl
  | _ => exact h.elim

/-- The result that a worker reports is read back from the failure log: with its
status and code, and with the message that it had unless an error of the worker
quotes a body that is not UTF-8. -/
theorem logged_result_reads_back (jsonError : List UInt8 → List UInt8) (x : Exchange)
    (h₀ : -2 ^ 63 ≤ x.code) (h₁ : x.code < 2 ^ 63) :
    Result.unmarshal (work jsonError x).marshal =
        some { work jsonError x with message := toValid (work jsonError x).message } ∧
      ∀ r, x.Reports r →
        Result.unmarshal (work jsonError x).marshal = some { r with code := x.code } := by
  have hread : Result.unmarshal (work jsonError x).marshal =
      some { work jsonError x with message := toValid (work jsonError x).message } := by
    rw [Result.unmarshal_marshal (by rwa [work_code]) (by rwa [work_code]), work_status]
  refine ⟨hread, fun r hr ↦ ?_⟩
  have hutf8 : Utf8 r.message := by
    cases x with
    | answered code body => exact (Result.unmarshal_utf8 hr.1).2
    | _ => exact hr.elim
  rw [hread, work_of_reports jsonError hr]
  dsimp only
  rw [hutf8]

def syntaxError (_ : List UInt8) : List UInt8 :=
  bytes "invalid character '" ++ [0xC3, 0xBF] ++ bytes "' looking for beginning of value"

theorem logged_result_reads_back_garbled :
    (Result.unmarshal (work syntaxError (.answered 200 [0xFF])).marshal).map Result.status =
        some resultStatusFailure ∧
      (work syntaxError (.answered 200 [0xFF])).message.getLast? = some 0xFF := by
  refine ⟨?_, by decide⟩
  rw [(logged_result_reads_back syntaxError (.answered 200 [0xFF]) (by decide) (by decide)).1]
  decide

theorem work_marshal_success :
    work syntaxError (.answered 500 (Result.marshal ⟨resultStatusSuccess, 1, [0xFF]⟩)) =
      ⟨resultStatusSuccess, 500, [0xEF, 0xBF, 0xBD]⟩ := by
  rw [work_marshal _ _ (by decide) (by decide) (by decide)]
  decide

end RoundTrip

section Completion

variable {jsonError : List UInt8 → List UInt8} {x : Exchange}

def Result.toResult (r : Result) : JobQueue.Result := ⟨ofBytes r.status, r.code, ofBytes r.message⟩

theorem ofBytes_eq_iff {s : List UInt8} {t : String} (h : ofBytes (bytes t) = t) :
    ofBytes s = t ↔ s = bytes t := by
  constructor
  · intro hs
    rw [← hs, bytes_ofBytes]
  · intro hs
    rw [hs, h]

/-- No other status than that of a failure is made up. -/
theorem work_status_iff {status : List UInt8} (h : status ≠ resultStatusFailure)
    (h' : status ≠ resultStatusInternalFailure) :
    (work jsonError x).status = status ↔ ∃ r, x.Reports r ∧ r.status = status := by
  constructor
  · intro hstatus
    cases x with
    | notCreated | failed => exact absurd hstatus.symm h'
    | unreadable => exact absurd hstatus.symm h
    | answered code body =>
      simp only [work] at hstatus
      split at hstatus
      · exact absurd hstatus.symm h
      · next r hr =>
        split at hstatus
        · next hvalid => exact ⟨r, ⟨hr, hvalid⟩, hstatus⟩
        · exact absurd hstatus.symm h
  · intro hreports
    obtain ⟨r, hr, rfl⟩ := hreports
    rw [work_of_reports jsonError hr]

/-- A job is completed as successful exactly if the worker reports that. -/
theorem work_isSuccess_iff : (work jsonError x).toResult.isSuccess = true ↔
    ∃ r, x.Reports r ∧ r.status = resultStatusSuccess := by
  rw [JobQueue.Result.isSuccess, beq_iff_eq]
  exact (ofBytes_eq_iff (by decide)).trans (work_status_iff (by decide) (by decide))

theorem work_isPermanentFailure_iff : (work jsonError x).toResult.isPermanentFailure = true ↔
    ∃ r, x.Reports r ∧ r.status = resultStatusPermanentFailure := by
  rw [JobQueue.Result.isPermanentFailure, beq_iff_eq]
  exact (ofBytes_eq_iff (by decide)).trans (work_status_iff (by decide) (by decide))

end Completion

end Fireworq.Dispatcher.Worker
