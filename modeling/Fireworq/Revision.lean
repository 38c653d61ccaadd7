import Fireworq.Execution

namespace Fireworq.Revision

open Execution

variable {σ ε : Type} {step : σ → ε → Option σ} {C : σ → ε → Prop}
  {Inv Pending View : σ → Prop} {revision last : σ → ℕ}

/-- Writers of a store update its revision after they have written, and a reader
takes down the revision before it reads. In a `Pending` state a writer has still
to update the revision. A `View` is what the reader may rely on. -/
structure Tracks (step : σ → ε → Option σ) (C : σ → ε → Prop) (Inv Pending View : σ → Prop)
    (revision last : σ → ℕ) : Prop where
  keeps : ∀ s e t, Inv s → C s e → step s e = some t → Inv t
  grows : ∀ s e t, step s e = some t → revision s ≤ revision t
  bumps : ∀ s e t, Inv s → C s e → step s e = some t → Pending s →
    Pending t ∨ revision s < revision t
  reads : ∀ s e t, Inv s → C s e → step s e = some t →
    last t = last s ∨ last t = revision t ∧ (¬ Pending t → View t)
  follows : ∀ s e t, Inv s → C s e → step s e = some t → ¬ Pending s → ¬ Pending t →
    last s = revision s → View s → View t

/-- A reader that is up to date after a step was so before, unless it has just
taken down the revision. -/
theorem Tracks.back (h : Tracks step C Inv Pending View revision last) {s t : σ} {e : ε}
    (hi : Inv s) (hc : C s e) (ht : step s e = some t) (hle : last s ≤ revision s)
    (hp : ¬ Pending t) (hl : last t = revision t) :
    ¬ Pending s ∧ last s = revision s ∨ View t := by
  rcases h.reads s e t hi hc ht with hsame | ⟨-, hv⟩
  · have hgrow := h.grows s e t ht
    refine .inl ⟨fun hps ↦ ?_, by omega⟩
    rcases h.bumps s e t hi hc ht hps with hpt | hlt
    · exact hp hpt
    · omega
  · exact .inr (hv hp)

theorem Tracks.last_le (h : Tracks step C Inv Pending View revision last) {s t : σ} {e : ε}
    (hi : Inv s) (hc : C s e) (ht : step s e = some t) (hle : last s ≤ revision s) :
    last t ≤ revision t := by
  rcases h.reads s e t hi hc ht with hsame | ⟨heq, -⟩
  · rw [hsame]
    exact Nat.le_trans hle (h.grows s e t ht)
  · exact Nat.le_of_eq heq

/-- Whenever nothing is pending, a reader that has the current revision has a
view of the store. -/
theorem Tracks.view (h : Tracks step C Inv Pending View revision last) {s t : σ} {es : List ε}
    (hc : Along step C s es) (hx : exec step s es = some t) (hi : Inv s)
    (hle : last s ≤ revision s) (hv : View s) (hp : ¬ Pending t) (hl : last t = revision t) :
    View t := by
  have hinv := hc.invariant
    (fun u ↦ Inv u ∧ last u ≤ revision u ∧ (¬ Pending u → last u = revision u → View u))
    (fun u e w hu hcu hw ↦ ⟨h.keeps u e w hu.1 hcu hw, h.last_le hu.1 hcu hw hu.2.1,
      fun hpw hlw ↦ ?_⟩) hx ⟨hi, hle, fun _ _ ↦ hv⟩
  · exact hinv.2.2 hp hl
  · rcases h.back hu.1 hcu hw hu.2.1 hpw hlw with ⟨hpu, hlu⟩ | hvw
    · exact h.follows u e w hu.1 hcu hw hpu hpw hlu (hu.2.2 hpu hlu)
    · exact hvw

end Fireworq.Revision
