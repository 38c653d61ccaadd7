import Fireworq.GoEncoding
import Fireworq.JobQueue.Completion
import Mathlib.Data.Nat.Find

namespace Fireworq.JobQueue

open GoInt GoEncoding

def Result.isFinal (r : Result) : Bool := r.isSuccess || r.isPermanentFailure

def lastAttempt (m : ℕ) (results : ℕ → Result) (k : ℕ) : Prop :=
  0 < k ∧ (k = m + 1 ∨ (results k).isFinal = true)

instance (m : ℕ) (results : ℕ → Result) : DecidablePred (lastAttempt m results) :=
  fun _ ↦ inferInstanceAs (Decidable (_ ∧ _))

theorem exists_lastAttempt (m : ℕ) (results : ℕ → Result) : ∃ k, lastAttempt m results k :=
  ⟨m + 1, Nat.succ_pos m, .inl rfl⟩

/-- The attempts of a job with `m` retries: the smaller of `m + 1` and the index
of the first result with a final status. -/
def attempts (m : ℕ) (results : ℕ → Result) : ℕ := Nat.find (exists_lastAttempt m results)

def xAttempt (failCount : ℕ) : List UInt8 := formatUint (uint64 (failCount + 1))

theorem xAttempt_eq {n : ℕ} (h : n + 1 < 2 ^ 64) : xAttempt n = formatUint (n + 1) := by
  rw [xAttempt, show ((n : ℤ) + 1) = (n + 1 : ℕ) by omega, uint64_natCast h]

structure Going (m : ℕ) (rs : List Result) : Prop where
  length : rs.length ≤ m
  unfinished : ∀ r ∈ rs, r.isFinal = false

def Ended (m : ℕ) (rs : List Result) : Prop :=
  ∃ init last, rs = init ++ [last] ∧ Going m init ∧ completion last (m - init.length) ≠ .retry

def Recorded (results : ℕ → Result) (rs : List Result) : Prop :=
  ∀ i r, rs[i]? = some r → r = results (i + 1)

section Attempts

variable {m : ℕ} {results : ℕ → Result} {rs : List Result} {res : Result}

theorem completion_retry {n : ℕ} :
    completion res n = .retry ↔ res.isFinal = false ∧ 0 < n := by
  rw [completion_retry_iff]
  unfold finishes Result.isFinal
  cases res.isSuccess <;> cases res.isPermanentFailure <;> simp [Nat.pos_iff_ne_zero]

theorem Going.nil : Going m [] := ⟨Nat.zero_le m, nofun⟩

theorem Going.snoc (h : Going m rs) (hr : completion res (m - rs.length) = .retry) :
    Going m (rs ++ [res]) := by
  obtain ⟨hfinal, hpos⟩ := completion_retry.mp hr
  refine ⟨?_, fun r hmem ↦ ?_⟩
  · rw [List.length_append, List.length_singleton]
    omega
  · rcases List.mem_append.mp hmem with hmem | hmem
    · exact h.unfinished r hmem
    · rwa [List.mem_singleton.mp hmem]

theorem Going.ended (h : Going m rs) (hr : completion res (m - rs.length) ≠ .retry) :
    Ended m (rs ++ [res]) := ⟨rs, res, rfl, h, hr⟩

theorem Recorded.of_append {last : List Result} (h : Recorded results (rs ++ last)) :
    Recorded results rs := by
  intro i r hr
  refine h i r ?_
  rw [List.getElem?_append_left (List.getElem?_eq_some_iff.mp hr).1]
  exact hr

theorem Going.not_last (h : Going m rs) (hrec : Recorded results rs) {k : ℕ} (hk : k ≤ rs.length) :
    ¬ lastAttempt m results k := by
  rintro ⟨hpos, rfl | hfinal⟩
  · have := h.length
    omega
  · obtain ⟨i, rfl⟩ := Nat.exists_eq_add_of_lt hpos
    have hi := List.getElem?_eq_getElem (show i < rs.length by omega)
    rw [Nat.zero_add, ← hrec i _ hi, h.unfinished _ (List.getElem_mem _)] at hfinal
    cases hfinal

/-- A job that is to be tried again has attempts left. -/
theorem Going.lt_attempts (h : Going m rs) (hrec : Recorded results rs) :
    rs.length < attempts m results := by
  by_contra hle
  exact h.not_last hrec (Nat.le_of_not_lt hle) (Nat.find_spec (exists_lastAttempt m results))

/-- A job is ended by its last attempt. -/
theorem Ended.eq_attempts (h : Ended m rs) (hrec : Recorded results rs) :
    rs.length = attempts m results := by
  obtain ⟨init, last, rfl, hinit, hlast⟩ := h
  have hlt := hinit.lt_attempts hrec.of_append
  have hres : last = results (init.length + 1) := hrec init.length last (by simp)
  have hle : attempts m results ≤ init.length + 1 := by
    refine Nat.find_le ⟨Nat.succ_pos _, ?_⟩
    rw [Ne, completion_retry, not_and] at hlast
    have := hinit.length
    by_cases hfinal : last.isFinal = true
    · exact .inr (hres ▸ hfinal)
    · have := hlast (by simpa using hfinal)
      exact .inl (by omega)
  rw [List.length_append, List.length_singleton]
  omega

end Attempts

end Fireworq.JobQueue
