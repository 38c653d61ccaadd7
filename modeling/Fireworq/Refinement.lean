import Mathlib.Data.List.Basic

namespace Fireworq.Refinement

variable {σ τ ℓ : Type}

inductive Trace (R : σ → ℓ → σ → Prop) : σ → List ℓ → σ → Prop
  | nil (s : σ) : Trace R s [] s
  | cons {s t u : σ} {l : ℓ} {ls : List ℓ} : R s l t → Trace R t ls u → Trace R s (l :: ls) u

namespace Trace

variable {R : σ → ℓ → σ → Prop} {s t u : σ} {l : ℓ} {ls xs ys : List ℓ}

theorem uncons (h : Trace R s (l :: ls) u) : ∃ t, R s l t ∧ Trace R t ls u := by
  cases h with
  | cons hl h => exact ⟨_, hl, h⟩

theorem split (h : Trace R s (xs ++ l :: ys) u) :
    ∃ t t', Trace R s xs t ∧ R t l t' ∧ Trace R t' ys u := by
  induction xs generalizing s with
  | nil =>
    obtain ⟨t, hl, h⟩ := h.uncons
    exact ⟨s, t, .nil s, hl, h⟩
  | cons x xs ih =>
    obtain ⟨v, hx, h⟩ := h.uncons
    obtain ⟨t, t', ht, hl, h⟩ := ih h
    exact ⟨t, t', .cons hx ht, hl, h⟩

theorem append (h : Trace R s xs t) (h' : Trace R t ys u) : Trace R s (xs ++ ys) u := by
  induction h with
  | nil => exact h'
  | cons hl _ ih => exact .cons hl (ih h')

theorem invariant (P : σ → Prop) (hstep : ∀ s l t, P s → R s l t → P t) (h : Trace R s ls t)
    (hs : P s) : P t := by
  induction h with
  | nil => exact hs
  | cons hl _ ih => exact ih (hstep _ _ _ hs hl)

/-- Induction along a run, with the labels so far. -/
theorem history (P : List ℓ → σ → Prop)
    (hstep : ∀ xs s l t, P xs s → R s l t → P (xs ++ [l]) t) (h : Trace R s ls t)
    (hs : P xs s) : P (xs ++ ls) t := by
  induction h generalizing xs with
  | nil => rwa [List.append_nil]
  | @cons _ _ _ l ls hl _ ih =>
    rw [List.append_cons]
    exact ih (hstep _ _ _ _ hs hl)

/-- Every label of a run is taken in a state that the invariant holds in. -/
theorem enabled (P : σ → Prop) (hstep : ∀ s l t, P s → R s l t → P t) (h : Trace R s ls t)
    (hs : P s) (hl : l ∈ ls) : ∃ u v, P u ∧ R u l v := by
  obtain ⟨xs, ys, rfl⟩ := List.append_of_mem hl
  obtain ⟨u, v, hu, huv, -⟩ := h.split
  exact ⟨u, v, hu.invariant P hstep hs, huv⟩

end Trace

/-- Each step of `R` can be followed by `S` in every state that is related. -/
def Simulates (R : σ → ℓ → σ → Prop) (S : τ → ℓ → τ → Prop) (Rel : σ → τ → Prop) : Prop :=
  ∀ s a l t, Rel s a → R s l t → ∃ b, S a l b ∧ Rel t b

theorem Simulates.trace {R : σ → ℓ → σ → Prop} {S : τ → ℓ → τ → Prop} {Rel : σ → τ → Prop}
    (hsim : Simulates R S Rel) {s t : σ} {a : τ} {ls : List ℓ} (h : Trace R s ls t)
    (hs : Rel s a) : ∃ b, Trace S a ls b ∧ Rel t b := by
  induction h generalizing a with
  | nil => exact ⟨a, .nil a, hs⟩
  | cons hl _ ih =>
    obtain ⟨b, hab, hb⟩ := hsim _ _ _ _ hs hl
    obtain ⟨c, hbc, hc⟩ := ih hb
    exact ⟨c, .cons hab hbc, hc⟩

end Fireworq.Refinement
