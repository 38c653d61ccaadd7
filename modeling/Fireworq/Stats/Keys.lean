import Fireworq.GoEncoding
import Fireworq.GoString
import Fireworq.Redis

namespace Fireworq.Stats

open GoEncoding GoString Redis

/-- Whom a dispatch is recorded for. `RecordDispatch` does nothing without an
organisation or an environment. -/
structure Tenant where
  targetEnv : List UInt8
  orgId : List UInt8
  nonempty : targetEnv ≠ [] ∧ orgId ≠ []
  deriving DecidableEq

structure Time where
  year : ℤ
  month : ℕ
  day : ℕ
  hour : ℕ
  minute : ℕ
  unix : ℤ
  valid : (1 ≤ month ∧ month ≤ 12) ∧ (1 ≤ day ∧ day ≤ 31) ∧ hour < 24 ∧ minute < 60

section Format

def colon : UInt8 := 58

def padded (width n : ℕ) : List UInt8 :=
  List.replicate (width - (formatUint n).length) 48 ++ formatUint n

/-- `now.Format("20060102")` -/
def Time.date (t : Time) : List UInt8 :=
  (if t.year < 0 then [minus] else []) ++ padded 4 t.year.natAbs ++ padded 2 t.month ++
    padded 2 t.day

/-- `now.Format("2006010215")` -/
def Time.dateHour (t : Time) : List UInt8 := t.date ++ padded 2 t.hour

end Format

inductive Bucket
  | fiveMin
  | oneHour
  | daily
  deriving DecidableEq

namespace Bucket

def label : Bucket → List UInt8
  | .fiveMin => bytes "5m"
  | .oneHour => bytes "1h"
  | .daily => bytes "1d"

def stamp (t : Time) : Bucket → List UInt8
  | .fiveMin => t.dateHour ++ padded 2 (t.minute - t.minute % 5)
  | .oneHour => t.dateHour
  | .daily => t.date

def ttl : Bucket → ℕ
  | .fiveMin => 2 * 3600
  | .oneHour => 25 * 3600
  | .daily => 7 * 24 * 3600

def all : List Bucket := [.fiveMin, .oneHour, .daily]

end Bucket

namespace Tenant

variable {P Q : Tenant}

def scope (P : Tenant) : List UInt8 := P.targetEnv ++ bytes ":stats:" ++ P.orgId

def key (P : Tenant) (b : Bucket) (t : Time) : Key :=
  bytes "webhook:" ++ P.scope ++ colon :: b.label ++ colon :: b.stamp t

def activeKey (P : Tenant) : Key :=
  bytes "webhook:" ++ P.targetEnv ++ colon :: bytes "active_subscribes"

def keys (P : Tenant) : Set Key := {k | ∃ b t, k = P.key b t}

end Tenant

section Record

structure Record where
  tenant : Tenant
  isSuccess : Bool
  isPermanentFail : Bool
  time : Time

structure Recorded extends Record where
  clock : ℕ
  executed : ℕ

namespace Record

variable (r : Record)

def increments (b : Bucket) : List Command :=
  let key := r.tenant.key b r.time
  .hincrBy key "total" 1 ::
    if r.isSuccess then [.hincrBy key "success" 1]
    else if r.isPermanentFail then [.hincrBy key "fail" 1, .hincrBy key "permanent_fail" 1]
    else [.hincrBy key "fail" 1]

def commands : List Command :=
  Bucket.all.flatMap r.increments ++
    Bucket.all.map (fun b ↦ .expire (r.tenant.key b r.time) b.ttl) ++
    [.zadd r.tenant.activeKey r.time.unix r.tenant.orgId]

end Record

def recordDispatch (S : Store) (r : Recorded) : Store := S.exec r.clock (r.commands.take r.executed)

def recordAll (rs : List Recorded) : Store := rs.foldl recordDispatch fun _ ↦ none

structure Separate (P Q : Tenant) : Prop where
  keys : ∀ b b' t t', P.key b t ≠ Q.key b' t'
  counters : ∀ rs : List Recorded, (∀ r ∈ rs, r.tenant = P ∨ r.tenant = Q) →
    Agree P.keys (recordAll rs) (recordAll (rs.filter fun r ↦ r.tenant = P))

end Record

section Parsing

theorem append_cons_inj {a : UInt8} {u v x y : List UInt8} (hx : a ∉ x) (hy : a ∉ y)
    (h : u ++ a :: x = v ++ a :: y) : u = v ∧ x = y := by
  have hlast {w x y : List UInt8} (hx : a ∉ x) (h : a :: x = w ++ a :: y) : w = [] := by
    cases w with
    | nil => rfl
    | cons b w =>
      rw [List.cons_append, List.cons.injEq] at h
      exact absurd (h.2 ▸ List.mem_append_right w List.mem_cons_self) hx
  rcases List.append_eq_append_iff.mp h with ⟨w, rfl, hw⟩ | ⟨w, rfl, hw⟩
  · obtain rfl := hlast hx hw
    simpa using hw
  · obtain rfl := hlast hy hw
    simpa [eq_comm] using hw

theorem mem_padded {width n : ℕ} {b : UInt8} (h : b ∈ padded width n) : b.toNat ≤ 57 := by
  rcases List.mem_append.mp h with h | h
  · rw [List.eq_of_mem_replicate h]
    decide
  · exact (mem_formatUint h).2

theorem mem_stamp {t : Time} {bucket : Bucket} {b : UInt8} (h : b ∈ bucket.stamp t) :
    b.toNat ≤ 57 := by
  have hdate (h : b ∈ t.date) : b.toNat ≤ 57 := by
    simp only [Time.date, List.mem_append] at h
    obtain ((h | h) | h) | h := h
    · split at h
      · rw [List.mem_singleton.mp h]
        decide
      · cases h
    all_goals exact mem_padded h
  have hhour (h : b ∈ t.dateHour) : b.toNat ≤ 57 := by
    rcases List.mem_append.mp h with h | h
    · exact hdate h
    · exact mem_padded h
  cases bucket with
  | fiveMin =>
    rcases List.mem_append.mp h with h | h
    · exact hhour h
    · exact mem_padded h
  | oneHour => exact hhour h
  | daily => exact hdate h

theorem colon_notMem_stamp (t : Time) (bucket : Bucket) : colon ∉ bucket.stamp t :=
  fun h ↦ absurd (mem_stamp h) (by decide)

theorem colon_notMem_label (bucket : Bucket) : colon ∉ bucket.label := by
  cases bucket <;> decide

end Parsing

section Keys

variable {P Q : Tenant} {b b' : Bucket} {t t' : Time}

/-- The time and the label can be read off the end of a key, but the rest is
not unique. -/
theorem key_eq_iff : P.key b t = Q.key b' t' ↔
    P.scope = Q.scope ∧ b.label = b'.label ∧ b.stamp t = b'.stamp t' := by
  constructor
  · intro h
    obtain ⟨h, hstamp⟩ := append_cons_inj (colon_notMem_stamp t b) (colon_notMem_stamp t' b') h
    obtain ⟨h, hlabel⟩ := append_cons_inj (colon_notMem_label b) (colon_notMem_label b') h
    exact ⟨List.append_cancel_left h, hlabel, hstamp⟩
  · intro h
    rw [Tenant.key, Tenant.key, h.1, h.2.1, h.2.2]

theorem activeKey_notMem_keys : Q.activeKey ∉ P.keys := by
  intro h
  obtain ⟨b, t, h⟩ := h
  have hactive : colon ∉ bytes "active_subscribes" := by decide
  obtain ⟨-, hstamp⟩ := append_cons_inj hactive (colon_notMem_stamp t b) h
  have hmem : (97 : UInt8) ∈ b.stamp t := hstamp ▸ (by decide)
  exact absurd (mem_stamp hmem) (by decide)

theorem command_key {r : Record} {c : Command} (h : c ∈ r.commands) :
    (∃ b, c.key = r.tenant.key b r.time) ∨ c.key = r.tenant.activeKey := by
  simp only [Record.commands, List.mem_append, List.mem_flatMap, List.mem_map,
    List.mem_singleton] at h
  obtain (⟨b, -, h⟩ | ⟨b, -, rfl⟩) | rfl := h
  · refine .inl ⟨b, ?_⟩
    simp only [Record.increments, List.mem_cons] at h
    obtain rfl | h := h
    · rfl
    · split at h
      · rw [List.mem_singleton.mp h]
        rfl
      · split at h
        · simp only [List.mem_cons, List.not_mem_nil, or_false] at h
          obtain rfl | rfl := h <;> rfl
        · rw [List.mem_singleton.mp h]
          rfl
  · exact .inl ⟨b, rfl⟩
  · exact .inr rfl

theorem recordDispatch_other {r : Recorded} (h : r.tenant.scope ≠ P.scope) (S : Store) :
    Agree P.keys (recordDispatch S r) S := by
  apply agree_exec
  intro c hc hmem
  rcases command_key (List.mem_of_mem_take hc) with ⟨b, hkey⟩ | hkey
  · obtain ⟨b', t', heq⟩ := hmem
    exact h (key_eq_iff.mp (hkey.symm.trans heq)).1
  · exact activeKey_notMem_keys (hkey ▸ hmem)

/-- The statistics of a tenant depend on its dispatches alone if no other
tenant has its scope. -/
theorem recordAll_agree {rs : List Recorded}
    (h : ∀ r ∈ rs, r.tenant = P ∨ r.tenant.scope ≠ P.scope) :
    Agree P.keys (recordAll rs) (recordAll (rs.filter fun r ↦ r.tenant = P)) := by
  have hfold {S S' : Store} (hS : Agree P.keys S S') :
      Agree P.keys (rs.foldl recordDispatch S)
        ((rs.filter fun r ↦ r.tenant = P).foldl recordDispatch S') := by
    induction rs generalizing S S' with
    | nil => exact hS
    | cons r rs ih =>
      have hrest : ∀ q ∈ rs, q.tenant = P ∨ q.tenant.scope ≠ P.scope :=
        fun q hq ↦ h q (List.mem_cons_of_mem r hq)
      rw [List.foldl_cons, List.filter_cons]
      split
      · exact ih hrest hS.exec
      · rename_i hne
        have hscope := (h r List.mem_cons_self).resolve_left (by simpa using hne)
        exact ih hrest ((recordDispatch_other hscope S).trans hS)
  exact hfold fun _ _ ↦ rfl

def someTime : Time := ⟨2026, 3, 16, 14, 37, 1773671820, by decide⟩

/-- Two tenants are kept apart exactly if their environments and organisations
differ once they are joined. -/
theorem separate_iff (P Q : Tenant) : Separate P Q ↔ P.scope ≠ Q.scope := by
  constructor
  · intro h heq
    exact h.keys .daily .daily someTime someTime (key_eq_iff.mpr ⟨heq, rfl, rfl⟩)
  · intro hne
    constructor
    · intro b b' t t' h
      exact hne (key_eq_iff.mp h).1
    · intro rs hrs
      apply recordAll_agree
      intro r hr
      rcases hrs r hr with h | h
      · exact .inl h
      · exact .inr (h ▸ hne.symm)

/-- The organisation `b:stats:c` in the environment `a`, and the organisation
`c` in the environment `a:stats:b`. -/
def tenants : Tenant × Tenant :=
  (⟨bytes "a", bytes "b:stats:c", by decide⟩, ⟨bytes "a:stats:b", bytes "c", by decide⟩)

/-- A dispatch of one tenant is counted for the other, which has none. -/
theorem tenants_share_keys :
    tenants.1 ≠ tenants.2 ∧ tenants.1.key .daily someTime = tenants.2.key .daily someTime ∧
      (recordAll [⟨⟨tenants.2, true, false, someTime⟩, 0, 10⟩]
        (tenants.1.key .daily someTime)).isSome = true := by
  decide +kernel

end Keys

end Fireworq.Stats
