import Mathlib.Data.Bool.Basic
import Mathlib.Logic.Function.Basic
import Fireworq.Execution

namespace Fireworq.Config

open Function Execution

/-- The maps `cached.c` and `defaultConf`, of which only the default values count. -/
structure Store where
  cached : String → Option String
  defaults : List (String × String)

abbrev Environment := String → String

def envKey (key : String) : String := "FIREWORQ_" ++ key.toUpper

namespace Store

variable (env : Environment) (s : Store) (k v : String)

def getDefault : String := (s.defaults.lookup k).getD ""

def fallback : String :=
  if env (envKey k) = "" then s.getDefault k else env (envKey k)

def set : Store := { s with cached := update s.cached k (some v) }

def get : String × Store :=
  match s.cached k with
  | some v => (v, s)
  | none => (s.fallback env k, s.set k (s.fallback env k))

def setDefault : Store :=
  { s with defaults :=
      if (s.defaults.lookup k).isSome then
        s.defaults.map fun x ↦ if x.1 = k then (k, v) else x
      else s.defaults ++ [(k, v)] }

def keys : List String := s.defaults.map (·.1)

@[simp] theorem set_cached_self : (s.set k v).cached k = some v := update_self ..

@[simp] theorem set_defaults : (s.set k v).defaults = s.defaults := rfl

@[simp] theorem setDefault_cached : (s.setDefault k v).cached = s.cached := rfl

@[simp] theorem fallback_set (l : String) : (s.set k v).fallback env l = s.fallback env l := rfl

theorem get_fst : (s.get env k).1 = (s.cached k).getD (s.fallback env k) := by
  unfold get
  split <;> rename_i h <;> simp [h]

theorem get_snd_defaults : (s.get env k).2.defaults = s.defaults := by
  unfold get
  split <;> rfl

variable {s k v} {l : String}

theorem set_cached_of_ne (h : l ≠ k) : (s.set k v).cached l = s.cached l := update_of_ne h ..

theorem get_snd_cached :
    (s.get env l).2.cached k = if k = l then some (s.get env l).1 else s.cached k := by
  unfold get
  split
  · rename_i h
    split
    · rename_i hk
      rw [hk, h]
    · rfl
  · split
    · rename_i hk
      simp [hk]
    · rename_i hk
      exact set_cached_of_ne hk

theorem fallback_congr {t : Store} (h : t.defaults = s.defaults) :
    t.fallback env k = s.fallback env k := by
  simp only [fallback, getDefault, h]

/-- Looking a key up changes no value. -/
theorem get_get : ((s.get env l).2.get env k).1 = (s.get env k).1 := by
  rw [get_fst, get_snd_cached, fallback_congr env (get_snd_defaults env s l)]
  split
  · rename_i h
    rw [h, Option.getD_some]
  · rw [get_fst]

theorem lookup_replace (defaults : List (String × String)) :
    (defaults.map fun x ↦ if x.1 = k then (k, v) else x).lookup l =
      if l = k then (defaults.lookup k).map fun _ ↦ v else defaults.lookup l := by
  induction defaults with
  | nil => simp
  | cons x xs ih =>
    obtain ⟨m, w⟩ := x
    rw [List.map_cons, List.lookup_cons, List.lookup_cons, List.lookup_cons, ih]
    grind

theorem lookup_setDefault :
    (s.setDefault k v).defaults.lookup l = if l = k then some v else s.defaults.lookup l := by
  unfold setDefault
  split
  · rename_i h
    obtain ⟨w, hw⟩ := Option.isSome_iff_exists.mp h
    simp [lookup_replace, hw]
  · rename_i h
    have hnone : s.defaults.lookup k = none := Option.not_isSome_iff_eq_none.mp h
    rw [List.lookup_append, List.lookup_cons, List.lookup_nil]
    grind

theorem fallback_setDefault_of_ne (h : l ≠ k) :
    (s.setDefault k v).fallback env l = s.fallback env l := by
  simp [fallback, getDefault, lookup_setDefault, h]

end Store

/-- A call of `Get` holds the mutex twice: to look the key up, and to store what it
falls back to. -/
inductive Pc
  | idle
  | missed (k : String)
  | found (k v : String)
  deriving DecidableEq

structure State where
  store : Store
  pcs : ℕ → Pc

def State.start (s : Store) : State := ⟨s, fun _ ↦ .idle⟩

inductive Event
  | get (i : ℕ) (k : String)
  | fallback (i : ℕ)
  | put (i : ℕ)
  | set (k v : String)
  | setDefault (k v : String)
  deriving DecidableEq

def step (env : Environment) (s : State) : Event → Option State
  | .get i k =>
    match s.pcs i, s.store.cached k with
    | .idle, some _ => some s
    | .idle, none => some { s with pcs := update s.pcs i (.missed k) }
    | _, _ => none
  | .fallback i =>
    match s.pcs i with
    | .missed k => some { s with pcs := update s.pcs i (.found k (s.store.fallback env k)) }
    | _ => none
  | .put i =>
    match s.pcs i with
    | .found k v => some ⟨s.store.set k v, update s.pcs i .idle⟩
    | _ => none
  | .set k v => some { s with store := s.store.set k v }
  | .setDefault k v => some { s with store := s.store.setDefault k v }

def returned (s : State) : Event → Option String
  | .get i k => if s.pcs i = .idle then s.store.cached k else none
  | .put i =>
    match s.pcs i with
    | .found _ v => some v
    | _ => none
  | _ => none

def Event.sets (k : String) : Event → Prop
  | .set l _ | .setDefault l _ => l = k
  | _ => False

variable {env : Environment} {s t : State} {k v : String} {es : List Event} {e : Event}

def Pc.pending (env : Environment) (s : Store) (k : String) : Pc → Option String
  | .idle => none
  | .missed l => if l = k then some (s.fallback env k) else none
  | .found l v => if l = k then some v else none

structure Settled (env : Environment) (k v : String) (s : State) : Prop where
  cached : s.store.cached k = some v
  pending : ∀ i w, (s.pcs i).pending env s.store k = some w → w = v

theorem Settled.of_move {i : ℕ} {p : Pc} {s' : Store} (h : Settled env k v s)
    (hcached : s'.cached k = some v) (hfallback : s'.fallback env k = s.store.fallback env k)
    (hp : ∀ w, p.pending env s.store k = some w → w = v) :
    Settled env k v ⟨s', update s.pcs i p⟩ := by
  have hpending : ∀ q : Pc, q.pending env s' k = q.pending env s.store k := by
    intro q
    cases q <;> simp only [Pc.pending, hfallback]
  refine ⟨hcached, fun j w hw ↦ ?_⟩
  rw [hpending] at hw
  by_cases hj : j = i
  · subst hj
    exact hp w (by simpa only [update_self] using hw)
  · exact h.pending j w (by simpa only [update_of_ne hj] using hw)

theorem Settled.of_store {s' : Store} (h : Settled env k v s) (hcached : s'.cached k = some v)
    (hfallback : s'.fallback env k = s.store.fallback env k) : Settled env k v ⟨s', s.pcs⟩ := by
  have := h.of_move (i := 0) hcached hfallback (h.pending 0)
  rwa [update_eq_self] at this

theorem Settled.step (h : Settled env k v s) (he : ¬ e.sets k)
    (hs : Config.step env s e = some t) : Settled env k v t := by
  cases e with
  | get i l =>
    simp only [Config.step] at hs
    split at hs
    · cases hs
      exact h
    · rename_i hmiss
      cases hs
      have hne : l ≠ k := by
        rintro rfl
        rw [h.cached] at hmiss
        cases hmiss
      exact h.of_move h.cached rfl (by simp [Pc.pending, hne])
    · cases hs
  | fallback i =>
    simp only [Config.step] at hs
    split at hs
    · rename_i l hpc
      cases hs
      have hi := h.pending i
      rw [hpc] at hi
      refine h.of_move h.cached rfl fun w hw ↦ hi w ?_
      by_cases hl : l = k
      · subst hl
        simpa [Pc.pending] using hw
      · simp [Pc.pending, hl] at hw
    · cases hs
  | put i =>
    simp only [Config.step] at hs
    split at hs
    · rename_i l w hpc
      cases hs
      have hi := h.pending i w
      rw [hpc] at hi
      refine h.of_move ?_ rfl (by simp [Pc.pending])
      by_cases hl : l = k
      · subst hl
        rw [Store.set_cached_self, hi (by simp [Pc.pending])]
      · rw [Store.set_cached_of_ne (Ne.symm hl), h.cached]
    · cases hs
  | set l w =>
    cases hs
    exact h.of_store ((Store.set_cached_of_ne (Ne.symm he)).trans h.cached) rfl
  | setDefault l w =>
    cases hs
    exact h.of_store h.cached (Store.fallback_setDefault_of_ne env (Ne.symm he))

theorem Settled.exec (h : Settled env k v s) (hes : ∀ e ∈ es, ¬ e.sets k)
    (hs : exec (Config.step env) s es = some t) : Settled env k v t := by
  induction es generalizing s with
  | nil => cases hs; exact h
  | cons e es ih =>
    obtain ⟨u, hu, hs⟩ := exec_cons hs
    exact ih (h.step (hes e List.mem_cons_self) hu) (fun e he ↦ hes e (.tail _ he)) hs

/-- From now on every call of `Get` for the key that begins before the next `Set` or
`SetDefault` of the key returns the value. -/
def Visible (env : Environment) (k v : String) (s : State) : Prop :=
  ∀ es t, (∀ e ∈ es, ¬ e.sets k) → exec (step env) s es = some t →
    ∀ i, t.pcs i = .idle → returned t (.get i k) = some v

theorem Settled.visible (h : Settled env k v s) : Visible env k v s := by
  intro es t hes ht i hi
  simp [returned, hi, (h.exec hes ht).cached]

theorem exec_put {i : ℕ} {w : String} (h : s.pcs i = .found k w) :
    exec (step env) s [.put i] = some ⟨s.store.set k w, update s.pcs i .idle⟩ := by
  simp [exec, step, h]

/-- A call of `Get` that has missed the key gets to store what it falls back to. -/
theorem exists_put {i : ℕ} {w : String} (h : (s.pcs i).pending env s.store k = some w) :
    ∃ es t, (∀ e ∈ es, ¬ e.sets k) ∧ exec (step env) s es = some t ∧
      t.pcs i = .idle ∧ t.store.cached k = some w := by
  cases hpc : s.pcs i with
  | idle => simp [hpc, Pc.pending] at h
  | missed l =>
    simp only [hpc, Pc.pending, Option.ite_none_right_eq_some, Option.some.injEq] at h
    obtain ⟨rfl, rfl⟩ := h
    have hfound : step env s (.fallback i) =
        some { s with pcs := update s.pcs i (.found l (s.store.fallback env l)) } := by
      simp [step, hpc]
    exact ⟨[.fallback i, .put i], _, by simp [Event.sets],
      (exec_cons_of_step hfound _).trans (exec_put (update_self ..)),
      update_self .., update_self ..⟩
  | found l u =>
    simp only [hpc, Pc.pending, Option.ite_none_right_eq_some, Option.some.injEq] at h
    obtain ⟨rfl, rfl⟩ := h
    exact ⟨[.put i], _, by simp [Event.sets], exec_put hpc, update_self .., update_self ..⟩

/-- A value that is set stays visible exactly if no call of `Get` that has missed the
key before is about to store another value. -/
theorem set_visible_iff (env : Environment) (s : State) (k v : String) :
    Visible env k v { s with store := s.store.set k v } ↔
      ∀ i w, (s.pcs i).pending env s.store k = some w → w = v := by
  have hpending : ∀ p : Pc, p.pending env (s.store.set k v) k = p.pending env s.store k := by
    intro p
    cases p <;> simp only [Pc.pending, Store.fallback_set]
  constructor
  · intro h i w hw
    obtain ⟨es, t, hes, ht, hidle, hcached⟩ :=
      exists_put (s := { s with store := s.store.set k v }) ((hpending _).trans hw)
    have hget := h es t hes ht i hidle
    simp only [returned, hidle, if_true, hcached] at hget
    exact Option.some.inj hget
  · intro h
    have hs : Settled env k v { s with store := s.store.set k v } :=
      ⟨Store.set_cached_self .., fun i w hw ↦ h i w ((hpending _).symm.trans hw)⟩
    exact hs.visible

end Fireworq.Config
