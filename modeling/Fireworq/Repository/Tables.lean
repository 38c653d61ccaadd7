import Mathlib.Data.List.AList
import Mathlib.Data.List.Sort
import Mathlib.Data.Rat.Init

namespace Fireworq.Repository

structure Queue where
  name : String
  pollingInterval : ℕ
  maxWorkers : ℕ
  maxDispatchesPerSecond : ℚ
  maxBurstSize : ℕ
  deriving DecidableEq

structure QueueRow where
  pollingInterval : ℕ
  maxWorkers : ℕ
  deriving DecidableEq

structure ThrottleRow where
  maxDispatchesPerSecond : ℚ
  maxBurstSize : ℕ
  deriving DecidableEq

/-- A `FLOAT UNSIGNED` column has fewer digits than a `float64`. `store` is the
value that a later `SELECT` gives back, or `none` if the statement fails. -/
structure FloatColumn where
  store : ℚ → Option ℚ
  store_store : ∀ r x, store r = some x → store x = some x

def FloatColumn.exact : FloatColumn where
  store r := if 0 ≤ r then some r else none
  store_store r x h := by
    split at h <;> cases h
    rename_i hr
    exact if_pos hr

def intUnsigned (n : ℕ) : Option ℕ := if n < 4294967296 then some n else none

abbrev Table (ρ : Type) := AList fun _ : String ↦ ρ

/-- The tables of a repository. A revision without a row is 0, since the first
`updateRevision` inserts 1. -/
structure Tables where
  queue : Table QueueRow
  queueThrottle : Table ThrottleRow
  routing : Table String
  queueRevision : ℕ
  routingRevision : ℕ

/-- `INSERT ... ON DUPLICATE KEY UPDATE`. The flag is `RowsAffected() != 0`. -/
def upsert {ρ : Type} [DecidableEq ρ] (t : Table ρ) (k : String) (r : ρ) : Table ρ × Bool :=
  if t.lookup k = some r then (t, false) else (t.insert k r, true)

def Queue.row (q : Queue) : Option QueueRow := do
  let pollingInterval ← intUnsigned q.pollingInterval
  let maxWorkers ← intUnsigned q.maxWorkers
  return ⟨pollingInterval, maxWorkers⟩

def Queue.throttleRow (col : FloatColumn) (q : Queue) : Option ThrottleRow := do
  let maxDispatchesPerSecond ← col.store q.maxDispatchesPerSecond
  let maxBurstSize ← intUnsigned q.maxBurstSize
  return ⟨maxDispatchesPerSecond, maxBurstSize⟩

namespace Tables

variable (t : Tables)

def empty : Tables := ⟨∅, ∅, ∅, 0, 0⟩

/-- A queue as `SELECT ... FROM queue` gives it, before its throttle is known. -/
def ofRow (name : String) (row : QueueRow) : Queue :=
  ⟨name, row.pollingInterval, row.maxWorkers, 0, 0⟩

def withThrottle (q : Queue) : Queue :=
  match t.queueThrottle.lookup q.name with
  | some row =>
    { q with
      maxDispatchesPerSecond := row.maxDispatchesPerSecond
      maxBurstSize := row.maxBurstSize }
  | none => q

/-- `SELECT ... FROM queue ORDER BY name ASC`. -/
def queues : List Queue :=
  (t.queue.entries.insertionSort fun a b ↦ a.1 ≤ b.1).map fun e ↦ ofRow e.1 e.2

/-- What `FindByName` returns if no statement comes between its two. -/
def findByName (name : String) : Option Queue :=
  (t.queue.lookup name).map fun row ↦ t.withThrottle (ofRow name row)

/-- What `FindAll` returns if no statement comes between its two. -/
def findAll : List Queue := t.queues.map t.withThrottle

end Tables

section Lemmas

variable {ρ : Type} [DecidableEq ρ] {t : Table ρ} {k k' : String} {r : ρ}

theorem lookup_upsert : (upsert t k r).1.lookup k = some r := by
  unfold upsert
  split
  · assumption
  · exact AList.lookup_insert t

theorem lookup_upsert_ne (h : k' ≠ k) : (upsert t k r).1.lookup k' = t.lookup k' := by
  unfold upsert
  split
  · rfl
  · exact AList.lookup_insert_ne h

theorem upsert_flag : (upsert t k r).2 = true ↔ t.lookup k ≠ some r := by
  unfold upsert
  split <;> simp_all

theorem upsert_same (h : (upsert t k r).2 = false) :
    (upsert t k r).1 = t ∧ t.lookup k = some r := by
  unfold upsert at h ⊢
  split at h
  · rename_i hr
    rw [if_pos hr]
    exact ⟨rfl, hr⟩
  · cases h

end Lemmas

namespace Tables

variable {t : Tables} {d : Queue}

theorem withThrottle_name (q : Queue) : (t.withThrottle q).name = q.name := by
  unfold withThrottle
  split <;> rfl

theorem findByName_name {name : String} (h : t.findByName name = some d) : d.name = name := by
  obtain ⟨row, -, rfl⟩ := Option.map_eq_some_iff.mp h
  exact withThrottle_name _

theorem mem_queues {q : Queue} :
    q ∈ t.queues ↔ ∃ row, t.queue.lookup q.name = some row ∧ ofRow q.name row = q := by
  simp only [queues, List.mem_map, List.mem_insertionSort]
  constructor
  · rintro ⟨e, he, rfl⟩
    exact ⟨e.2, AList.mem_lookup_iff.mpr he, rfl⟩
  · rintro ⟨row, hrow, hq⟩
    exact ⟨⟨q.name, row⟩, AList.mem_lookup_iff.mp hrow, hq⟩

theorem queues_nodup (t : Tables) : (t.queues.map Queue.name).Nodup := by
  have hperm := (t.queue.entries.perm_insertionSort fun a b ↦ a.1 ≤ b.1).map Sigma.fst
  have heq : t.queues.map Queue.name =
      (t.queue.entries.insertionSort fun a b ↦ a.1 ≤ b.1).map Sigma.fst := by
    simp only [Tables.queues, List.map_map]
    rfl
  rw [heq, hperm.nodup_iff]
  exact t.queue.nodupKeys

/-- `FindAll` and `FindByName` agree. -/
theorem mem_findAll : d ∈ t.findAll ↔ t.findByName d.name = some d := by
  simp only [findAll, findByName, List.mem_map, mem_queues, Option.map_eq_some_iff]
  constructor
  · rintro ⟨q, ⟨row, hrow, hq⟩, rfl⟩
    rw [withThrottle_name]
    exact ⟨row, hrow, by rw [hq]⟩
  · rintro ⟨row, hrow, hd⟩
    exact ⟨ofRow d.name row, ⟨row, hrow, rfl⟩, hd⟩

end Tables

/-- A call of a method of `queueRepository` or `routingRepository` that has
reached the named statement. -/
inductive Call
  | addQueue (q : Queue)
  | addThrottle (q : Queue) (updated : Bool)
  | addRevision (q : Queue)
  | deleteQueue (name : String)
  | deleteThrottle (name : String)
  | deleteRevision (name : String)
  | findQueue (name : String)
  | findThrottle (q : Queue)
  | findQueues
  | findThrottles (qs : List Queue)
  | routingExists (category queueName : String)
  | routingInsert (category queueName : String)
  | routingAddRevision (category queueName : String)
  | routingDelete (category : String)
  | routingDeleteRevision (category : String)
  deriving DecidableEq

inductive Result
  | added (updated : Bool)
  | deleted
  | found (q : Queue)
  | foundAll (qs : List Queue)
  | notFound
  | failed
  deriving DecidableEq

/-- The statement of a call with its effect and what the call does next. The
statement fails if its values do not fit the columns. -/
def Call.exec (col : FloatColumn) (t : Tables) : Call → Option (Tables × (Call ⊕ Result))
  | .addQueue q => q.row.map fun row ↦
    ({ t with queue := (upsert t.queue q.name row).1 },
      .inl (.addThrottle q (upsert t.queue q.name row).2))
  | .addThrottle q updated => (q.throttleRow col).map fun row ↦
    ({ t with queueThrottle := (upsert t.queueThrottle q.name row).1 },
      if updated || (upsert t.queueThrottle q.name row).2 then .inl (.addRevision q)
      else .inr (.added false))
  | .addRevision _ => some ({ t with queueRevision := t.queueRevision + 1 }, .inr (.added true))
  | .deleteQueue name => some ({ t with queue := t.queue.erase name }, .inl (.deleteThrottle name))
  | .deleteThrottle name =>
    some ({ t with queueThrottle := t.queueThrottle.erase name }, .inl (.deleteRevision name))
  | .deleteRevision _ => some ({ t with queueRevision := t.queueRevision + 1 }, .inr .deleted)
  | .findQueue name => some (t,
    match t.queue.lookup name with
    | some row => .inl (.findThrottle (Tables.ofRow name row))
    | none => .inr .notFound)
  | .findThrottle q => some (t, .inr (.found (t.withThrottle q)))
  | .findQueues =>
    some (t, if t.queues = [] then .inr (.foundAll []) else .inl (.findThrottles t.queues))
  | .findThrottles qs => some (t, .inr (.foundAll (qs.map t.withThrottle)))
  | .routingExists category queueName => some (t,
    match t.queue.lookup queueName with
    | some _ => .inl (.routingInsert category queueName)
    | none => .inr .notFound)
  | .routingInsert category queueName =>
    some ({ t with routing := (upsert t.routing category queueName).1 },
      if (upsert t.routing category queueName).2 then .inl (.routingAddRevision category queueName)
      else .inr (.added false))
  | .routingAddRevision _ _ =>
    some ({ t with routingRevision := t.routingRevision + 1 }, .inr (.added true))
  | .routingDelete category =>
    some ({ t with routing := t.routing.erase category }, .inl (.routingDeleteRevision category))
  | .routingDeleteRevision _ =>
    some ({ t with routingRevision := t.routingRevision + 1 }, .inr .deleted)

end Fireworq.Repository
