import Mathlib.Data.List.Induction

namespace Fireworq.Execution

variable {σ ε : Type} (step : σ → ε → Option σ)

/-- Executes a list of events in order. The result is `none` as soon as an
event is not enabled in the state it meets. -/
def exec : σ → List ε → Option σ
  | s, [] => some s
  | s, e :: es => (step s e).bind fun t ↦ exec t es

variable {step}

theorem exec_cons {s t : σ} {e : ε} {es : List ε} (h : exec step s (e :: es) = some t) :
    ∃ u, step s e = some u ∧ exec step u es = some t :=
  Option.bind_eq_some_iff.mp h

theorem exec_cons_of_step {s u : σ} {e : ε} (h : step s e = some u) (es : List ε) :
    exec step s (e :: es) = exec step u es := by
  rw [exec, h, Option.bind_some]

theorem exec_append {s t : σ} {xs ys : List ε} :
    exec step s (xs ++ ys) = some t ↔
      ∃ u, exec step s xs = some u ∧ exec step u ys = some t := by
  induction xs generalizing s with
  | nil => simp [exec]
  | cons e xs ih =>
    simp only [List.cons_append, exec, Option.bind_eq_some_iff, ih]
    constructor
    · rintro ⟨v, hv, u, hu, ht⟩
      exact ⟨u, ⟨v, hv, hu⟩, ht⟩
    · rintro ⟨u, ⟨v, hv, hu⟩, ht⟩
      exact ⟨v, hv, u, hu, ht⟩

theorem exec_snoc {s t : σ} {xs : List ε} {e : ε} :
    exec step s (xs ++ [e]) = some t ↔ ∃ u, exec step s xs = some u ∧ step u e = some t := by
  simp [exec_append, exec]

/-- Every event of an execution has a state before it and a state after it. -/
theorem exec_split {s t : σ} {xs ys : List ε} {e : ε}
    (h : exec step s (xs ++ e :: ys) = some t) :
    ∃ u v, exec step s xs = some u ∧ step u e = some v ∧ exec step v ys = some t := by
  obtain ⟨u, hu, h⟩ := exec_append.mp h
  obtain ⟨v, hv, ht⟩ := exec_cons h
  exact ⟨u, v, hu, hv, ht⟩

theorem invariant (P : σ → Prop) (hstep : ∀ s e t, P s → step s e = some t → P t)
    {s t : σ} {es : List ε} (h : exec step s es = some t) (hs : P s) : P t := by
  induction es generalizing s with
  | nil => cases h; exact hs
  | cons e es ih =>
    obtain ⟨u, hu, h⟩ := exec_cons h
    exact ih h (hstep s e u hs hu)

theorem history (P : List ε → σ → Prop) {s : σ} (hs : P [] s)
    (hstep : ∀ xs u e v, exec step s xs = some u → P xs u → step u e = some v → P (xs ++ [e]) v)
    {t : σ} {es : List ε} (h : exec step s es = some t) : P es t := by
  induction es using List.reverseRecOn generalizing t with
  | nil => cases h; exact hs
  | append_singleton xs e ih =>
    obtain ⟨u, hu, he⟩ := exec_snoc.mp h
    exact hstep xs u e t hu (ih hu) he

/-- An execution whose steps all lower a weight is no longer than the weight
it starts with. -/
theorem length_le_weight (weight : σ → ℕ) {es : List ε}
    (hstep : ∀ e ∈ es, ∀ s t, step s e = some t → weight t < weight s) {s t : σ}
    (h : exec step s es = some t) : es.length ≤ weight s := by
  induction es generalizing s with
  | nil => exact Nat.zero_le _
  | cons e es ih =>
    obtain ⟨u, hu, h⟩ := exec_cons h
    have hle := ih (fun f hf ↦ hstep f (List.mem_cons_of_mem _ hf)) h
    have hlt := hstep e List.mem_cons_self s u hu
    rw [List.length_cons]
    omega

/-- The events in `p`, each of which lowers a weight that no event raises, are no
more than what an execution uses up of the weight. -/
theorem countP_add_weight_le (P : σ → Prop) (p : ε → Bool) (weight : σ → ℕ)
    (hstep : ∀ s e t, P s → step s e = some t → P t ∧ weight t ≤ weight s ∧
      (p e = true → weight t < weight s))
    {s t : σ} {es : List ε} (h : exec step s es = some t) (hs : P s) :
    es.countP p + weight t ≤ weight s := by
  induction es generalizing s with
  | nil => cases h; simp
  | cons e es ih =>
    obtain ⟨u, hu, h⟩ := exec_cons h
    obtain ⟨hPu, hle, hlt⟩ := hstep s e u hs hu
    have hrest := ih h hPu
    cases hp : p e with
    | true =>
      have hlt := hlt hp
      rw [List.countP_cons_of_pos hp]
      omega
    | false =>
      rw [List.countP_cons_of_neg (by simp [hp])]
      omega

def Leads (step : σ → ε → Option σ) (A : ε → Prop) (Q : σ → Prop) (s : σ) : Prop :=
  ∃ es t, exec step s es = some t ∧ (∀ e ∈ es, A e) ∧ Q t

theorem Leads.here {A : ε → Prop} {Q : σ → Prop} {s : σ} (h : Q s) : Leads step A Q s :=
  ⟨[], s, rfl, by simp, h⟩

theorem Leads.of_step {A : ε → Prop} {Q : σ → Prop} {s t : σ} {e : ε} (h : step s e = some t)
    (he : A e) (ht : Leads step A Q t) : Leads step A Q s := by
  obtain ⟨es, u, hu, hes, hQ⟩ := ht
  refine ⟨e :: es, u, by rwa [exec_cons_of_step h], ?_, hQ⟩
  simpa only [List.forall_mem_cons] using ⟨he, hes⟩

theorem Leads.trans {A : ε → Prop} {Q R : σ → Prop} {s : σ} (h : Leads step A Q s)
    (hQ : ∀ t, Q t → Leads step A R t) : Leads step A R s := by
  obtain ⟨xs, u, hu, hxs, hq⟩ := h
  obtain ⟨ys, t, ht, hys, hr⟩ := hQ u hq
  refine ⟨xs ++ ys, t, exec_append.mpr ⟨u, hu, ht⟩, fun e he ↦ ?_, hr⟩
  exact (List.mem_append.mp he).elim (hxs e) (hys e)

theorem Leads.mono {A B : ε → Prop} {Q R : σ → Prop} {s : σ} (h : Leads step A Q s)
    (hA : ∀ e, A e → B e) (hQ : ∀ t, Q t → R t) : Leads step B R s := by
  obtain ⟨es, t, ht, hes, hq⟩ := h
  exact ⟨es, t, ht, fun e he ↦ hA e (hes e he), hQ t hq⟩

/-- As long as the goal is not reached some step lowers the weight, so a run
reaches it. -/
theorem leads_of_weight (P G : σ → Prop) (A : ε → Prop) (weight : σ → ℕ)
    (hstep : ∀ s, P s → ¬ G s → ∃ e t, A e ∧ step s e = some t ∧ P t ∧ weight t < weight s)
    {s : σ} (hs : P s) : Leads step A (fun t ↦ P t ∧ G t) s := by
  induction hw : weight s using Nat.strongRecOn generalizing s with
  | ind n ih =>
    by_cases hG : G s
    · exact .here ⟨hs, hG⟩
    · obtain ⟨e, u, he, hu, hPu, hlt⟩ := hstep s hs hG
      exact .of_step hu he (ih (weight u) (hw ▸ hlt) hPu rfl)

/-- Dropping events that a relation does not see. Each event that is kept can
be followed, and each event that is dropped keeps the relation. -/
theorem exec_filter (R : σ → σ → Prop) (keep : ε → Bool) {es : List ε}
    (hkeep : ∀ e ∈ es, keep e = true → ∀ s₁ s₂ t₁, R s₁ s₂ → step s₁ e = some t₁ →
      ∃ t₂, step s₂ e = some t₂ ∧ R t₁ t₂)
    (hdrop : ∀ e ∈ es, keep e = false → ∀ s₁ s₂ t₁, R s₁ s₂ → step s₁ e = some t₁ → R t₁ s₂)
    {s₁ s₂ t₁ : σ} (hR : R s₁ s₂) (h : exec step s₁ es = some t₁) :
    ∃ t₂, exec step s₂ (es.filter keep) = some t₂ ∧ R t₁ t₂ := by
  induction es generalizing s₁ s₂ with
  | nil => cases h; exact ⟨s₂, rfl, hR⟩
  | cons e es ih =>
    obtain ⟨u₁, hu₁, h⟩ := exec_cons h
    have ih' {u₂ : σ} (hu : R u₁ u₂) := ih (fun f hf ↦ hkeep f (List.mem_cons_of_mem _ hf))
      (fun f hf ↦ hdrop f (List.mem_cons_of_mem _ hf)) hu h
    cases hk : keep e with
    | true =>
      obtain ⟨u₂, hu₂, hu⟩ := hkeep e List.mem_cons_self hk s₁ s₂ u₁ hR hu₁
      obtain ⟨t₂, ht₂, ht⟩ := ih' hu
      refine ⟨t₂, ?_, ht⟩
      rw [List.filter_cons_of_pos hk, exec_cons_of_step hu₂, ht₂]
    | false =>
      obtain ⟨t₂, ht₂, ht⟩ := ih' (hdrop e List.mem_cons_self hk s₁ s₂ u₁ hR hu₁)
      refine ⟨t₂, ?_, ht⟩
      rw [List.filter_cons_of_neg (by simp [hk]), ht₂]

theorem local_step {τ : Type} {o : Option τ} {s s' : σ} {v : τ}
    (h : (o.map fun w ↦ (s, w)) = some (s', v)) : o = some v ∧ s = s' := by
  obtain ⟨w, hw, h⟩ := Option.map_eq_some_iff.mp h
  cases h
  exact ⟨hw, rfl⟩

variable (step)

/-- Every step of an execution meets a condition on its event and on the
state before it. -/
def Along (C : σ → ε → Prop) : σ → List ε → Prop
  | _, [] => True
  | s, e :: es => C s e ∧ ∀ t, step s e = some t → Along C t es

variable {step}

instance Along.decidable {C : σ → ε → Prop} [∀ s e, Decidable (C s e)] :
    (s : σ) → (es : List ε) → Decidable (Along step C s es)
  | _, [] => isTrue trivial
  | s, e :: es =>
    match h : step s e with
    | none => decidable_of_iff (C s e)
        ⟨fun hc ↦ ⟨hc, fun t ht ↦ by rw [h] at ht; cases ht⟩, And.left⟩
    | some u =>
      have : Decidable (Along step C u es) := Along.decidable u es
      decidable_of_iff (C s e ∧ Along step C u es)
        ⟨fun hc ↦ ⟨hc.1, fun t ht ↦ by rw [h] at ht; cases ht; exact hc.2⟩,
          fun hc ↦ ⟨hc.1, hc.2 u h⟩⟩

theorem Along.split {C : σ → ε → Prop} {s u : σ} {xs ys : List ε}
    (h : Along step C s (xs ++ ys)) (hu : exec step s xs = some u) :
    Along step C s xs ∧ Along step C u ys := by
  induction xs generalizing s with
  | nil => cases hu; exact ⟨trivial, h⟩
  | cons e xs ih =>
    obtain ⟨v, hv, hu⟩ := exec_cons hu
    have hx := ih (h.2 v hv) hu
    refine ⟨⟨h.1, fun w hw ↦ ?_⟩, hx.2⟩
    rw [hv] at hw
    cases hw
    exact hx.1

theorem Along.append {C : σ → ε → Prop} {s : σ} {xs ys : List ε} (hx : Along step C s xs)
    (hy : ∀ u, exec step s xs = some u → Along step C u ys) : Along step C s (xs ++ ys) := by
  induction xs generalizing s with
  | nil => exact hy s rfl
  | cons e xs ih =>
    refine ⟨hx.1, fun t ht ↦ ih (hx.2 t ht) fun u hu ↦ hy u ?_⟩
    rwa [exec_cons_of_step ht]

theorem Along.of_forall {C : σ → ε → Prop} {es : List ε} (h : ∀ e ∈ es, ∀ s, C s e) (s : σ) :
    Along step C s es := by
  induction es generalizing s with
  | nil => trivial
  | cons e es ih =>
    exact ⟨h e (by simp) s, fun t _ ↦ ih (fun f hf ↦ h f (by simp [hf])) t⟩

theorem Along.mono {C C' : σ → ε → Prop} {s : σ} {es : List ε} (h : Along step C s es)
    (hC : ∀ s e, C s e → C' s e) : Along step C' s es := by
  induction es generalizing s with
  | nil => trivial
  | cons e es ih => exact ⟨hC s e h.1, fun t ht ↦ ih (h.2 t ht)⟩

theorem Along.of_split {C : σ → ε → Prop} {s : σ} {es : List ε}
    (h : ∀ xs e ys u, es = xs ++ e :: ys → exec step s xs = some u → C u e) :
    Along step C s es := by
  induction es generalizing s with
  | nil => trivial
  | cons e es ih =>
    refine ⟨h [] e es s rfl rfl, fun t ht ↦ ih fun xs f ys u hsplit hu ↦ ?_⟩
    refine h (e :: xs) f ys u (by rw [hsplit, List.cons_append]) ?_
    rwa [exec_cons_of_step ht]

theorem Along.at {C : σ → ε → Prop} {s u : σ} {xs ys : List ε} {e : ε}
    (h : Along step C s (xs ++ e :: ys)) (hu : exec step s xs = some u) : C u e :=
  (h.split hu).2.1

theorem Along.invariant {C : σ → ε → Prop} (P : σ → Prop)
    (hstep : ∀ s e t, P s → C s e → step s e = some t → P t)
    {s t : σ} {es : List ε} (hC : Along step C s es) (h : exec step s es = some t) (hs : P s) :
    P t := by
  induction es generalizing s with
  | nil => cases h; exact hs
  | cons e es ih =>
    obtain ⟨u, hu, h⟩ := exec_cons h
    exact ih (hC.2 u hu) h (hstep s e u hs hC.1 hu)

theorem Along.history {C : σ → ε → Prop} (P : List ε → σ → Prop) {s : σ} (hs : P [] s)
    (hstep : ∀ xs u e v, exec step s xs = some u → P xs u → C u e → step u e = some v →
      P (xs ++ [e]) v)
    {t : σ} {es : List ε} (hC : Along step C s es) (h : exec step s es = some t) : P es t := by
  refine Execution.history (fun es t ↦ Along step C s es → P es t) (fun _ ↦ hs)
    (fun xs u e v hu ih hv hC ↦ ?_) h hC
  exact hstep xs u e v hu (ih (hC.split hu).1) (hC.at hu) hv

section Collect

variable {α : Type} (out : σ → ε → List α)

def collect (step : σ → ε → Option σ) : σ → List ε → List α
  | _, [] => []
  | s, e :: es => out s e ++ (step s e).elim [] fun t ↦ collect step t es

theorem collect_append {s t : σ} {xs : List ε} (h : exec step s xs = some t) (ys : List ε) :
    collect out step s (xs ++ ys) = collect out step s xs ++ collect out step t ys := by
  induction xs generalizing s with
  | nil => cases h; rfl
  | cons e xs ih =>
    obtain ⟨u, hu, h⟩ := exec_cons h
    simp only [List.cons_append, collect, hu, Option.elim_some, ih h, List.append_assoc]

theorem collect_snoc {s t : σ} {xs : List ε} (h : exec step s xs = some t) (e : ε) :
    collect out step s (xs ++ [e]) = collect out step s xs ++ out t e := by
  rw [collect_append out h, collect, show (step t e).elim [] (fun u ↦ collect out step u []) = [] by
    cases step t e <;> rfl, List.append_nil]

end Collect

end Fireworq.Execution
