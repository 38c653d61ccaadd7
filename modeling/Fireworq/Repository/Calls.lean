import Fireworq.Execution
import Fireworq.Repository.Tables

namespace Fireworq.Repository

open Execution

inductive Key
  | queue (name : String)
  | routing (category : String)
  deriving DecidableEq

def Tables.revision (t : Tables) : Key → ℕ
  | .queue _ => t.queueRevision
  | .routing _ => t.routingRevision

def Tables.sameRows (t t' : Tables) : Key → Bool
  | .queue name => t'.queue.lookup name = t.queue.lookup name ∧
    t'.queueThrottle.lookup name = t.queueThrottle.lookup name
  | .routing category => t'.routing.lookup category = t.routing.lookup category

def Tables.gap (t : Tables) : Key → Prop
  | .queue name => t.queue.lookup name = none ∨ t.queueThrottle.lookup name = none
  | .routing category => t.routing.lookup category = none

namespace Call

def key : Call → Option Key
  | .addQueue q | .addThrottle q _ | .addRevision q => some (.queue q.name)
  | .deleteQueue name | .deleteThrottle name | .deleteRevision name => some (.queue name)
  | .routingExists category _ | .routingInsert category _ | .routingAddRevision category _
  | .routingDelete category | .routingDeleteRevision category => some (.routing category)
  | .findQueue _ | .findThrottle _ | .findQueues | .findThrottles _ => none

def isAdd : Call → Bool
  | .addQueue _ | .addThrottle _ _ | .addRevision _ | .routingExists _ _ | .routingInsert _ _
  | .routingAddRevision _ _ => true
  | _ => false

def isFirst : Call → Bool
  | .addQueue _ | .deleteQueue _ | .findQueue _ | .findQueues | .routingExists _ _
  | .routingDelete _ => true
  | _ => false

def isRevision : Call → Bool
  | .addRevision _ | .deleteRevision _ | .routingAddRevision _ _ | .routingDeleteRevision _ => true
  | _ => false

def owes : Call → Bool
  | .addThrottle _ updated => updated
  | .addRevision _ | .deleteQueue _ | .deleteThrottle _ | .deleteRevision _
  | .routingAddRevision _ _ | .routingDelete _ | .routingDeleteRevision _ => true
  | _ => false

end Call

def Result.ok : Result → Bool
  | .notFound | .failed => false
  | _ => true

/-- Tables with the calls in progress on any number of nodes. `changedAt` is the
revision at the last change to the rows of a key, and `latest` tells whether
the `Add` or `Delete` for a key that returned last returned a nil error. -/
structure State where
  tables : Tables
  calls : List Call
  changedAt : Key → Option ℕ
  latest : Key → Option Bool

def State.initial (t : Tables) : State := ⟨t, [], fun _ ↦ none, fun _ ↦ none⟩

/-- A statement succeeds, fails, or succeeds with an answer that gets lost. -/
inductive Event
  | call (c : Call)
  | exec (k : ℕ)
  | fail (k : ℕ)
  | lose (k : ℕ)
  deriving DecidableEq

def settle (c : Call) (next : Call ⊕ Result) (latest : Key → Option Bool) : Key → Option Bool :=
  match next with
  | .inl _ => latest
  | .inr r => fun κ ↦ if c.key = some κ then some r.ok else latest κ

def succeed (xs : List Call) (next : Call ⊕ Result) (ys : List Call) : List Call :=
  xs ++ next.elim (fun c ↦ [c]) (fun _ ↦ []) ++ ys

def State.reply (s : State) (xs ys : List Call) (c : Call) (t : Tables) (next : Call ⊕ Result) :
    State where
  tables := t
  calls := succeed xs next ys
  changedAt κ := if s.tables.sameRows t κ then s.changedAt κ else some (t.revision κ)
  latest := settle c next s.latest

def step (col : FloatColumn) (s : State) : Event → Option State
  | .call c => if c.isFirst then some { s with calls := s.calls ++ [c] } else none
  | .exec k => do
    let c ← s.calls[k]?
    let (t, next) ← c.exec col s.tables
    return s.reply (s.calls.take k) (s.calls.drop (k + 1)) c t next
  | .fail k => do
    let c ← s.calls[k]?
    return s.reply (s.calls.take k) (s.calls.drop (k + 1)) c s.tables (.inr .failed)
  | .lose k => do
    let c ← s.calls[k]?
    let (t, _) ← c.exec col s.tables
    return s.reply (s.calls.take k) (s.calls.drop (k + 1)) c t (.inr .failed)

def Run (col : FloatColumn) (t : Tables) (es : List Event) (s : State) : Prop :=
  exec (step col) (.initial t) es = some s

variable {col : FloatColumn} {s s' : State} {e : Event} {es : List Event} {t t' : Tables}
  {c c' : Call} {next : Call ⊕ Result} {κ : Key}

inductive Moves (col : FloatColumn) (s : State) : Event → State → Prop
  | call {c : Call} (hc : c.isFirst = true) :
    Moves col s (.call c) { s with calls := s.calls ++ [c] }
  | exec {k : ℕ} {xs ys : List Call} {c : Call} {t : Tables} {next : Call ⊕ Result}
    (hk : s.calls[k]? = some c) (hs : s.calls = xs ++ c :: ys)
    (he : c.exec col s.tables = some (t, next)) :
    Moves col s (.exec k) (s.reply xs ys c t next)
  | fail {k : ℕ} {xs ys : List Call} {c : Call} (hk : s.calls[k]? = some c)
    (hs : s.calls = xs ++ c :: ys) :
    Moves col s (.fail k) (s.reply xs ys c s.tables (.inr .failed))
  | lose {k : ℕ} {xs ys : List Call} {c : Call} {t : Tables} {next : Call ⊕ Result}
    (hk : s.calls[k]? = some c) (hs : s.calls = xs ++ c :: ys)
    (he : c.exec col s.tables = some (t, next)) :
    Moves col s (.lose k) (s.reply xs ys c t (.inr .failed))

theorem mem_succeed {xs ys : List Call} {d : Call} :
    d ∈ succeed xs next ys ↔ d ∈ xs ∨ next = .inl d ∨ d ∈ ys := by
  cases next <;> simp [succeed, eq_comm]

theorem mem_succeed_of_ne {xs ys : List Call} {d : Call} (hs : s.calls = xs ++ c :: ys)
    (hd : d ∈ s.calls) (hne : d ≠ c) : d ∈ succeed xs next ys := by
  rw [hs, List.mem_append, List.mem_cons] at hd
  rw [mem_succeed]
  rcases hd with hd | rfl | hd
  · exact .inl hd
  · exact absurd rfl hne
  · exact .inr (.inr hd)

theorem mem_of_succeed {xs ys : List Call} {d : Call} (hs : s.calls = xs ++ c :: ys)
    (hd : d ∈ succeed xs next ys) (hnext : next ≠ .inl d) : (d ∈ xs ∨ d ∈ ys) ∧ d ∈ s.calls := by
  rw [hs]
  rcases mem_succeed.mp hd with hd | hd | hd
  · exact ⟨.inl hd, by simp [hd]⟩
  · exact absurd hd hnext
  · exact ⟨.inr hd, by simp [hd]⟩

theorem take_drop_split {l : List Call} {k : ℕ} (h : l[k]? = some c) :
    l = l.take k ++ c :: l.drop (k + 1) := by
  obtain ⟨hk, rfl⟩ := List.getElem?_eq_some_iff.mp h
  rw [List.getElem_cons_drop, List.take_append_drop]

theorem step_moves (h : step col s e = some s') : Moves col s e s' := by
  cases e with
  | call c =>
    simp only [step] at h
    split at h <;> cases h
    exact .call ‹_›
  | exec k =>
    obtain ⟨c, hk, h⟩ := Option.bind_eq_some_iff.mp h
    obtain ⟨⟨t, next⟩, he, h⟩ := Option.bind_eq_some_iff.mp h
    cases h
    exact .exec hk (take_drop_split hk) he
  | fail k =>
    obtain ⟨c, hk, h⟩ := Option.bind_eq_some_iff.mp h
    cases h
    exact .fail hk (take_drop_split hk)
  | lose k =>
    obtain ⟨c, hk, h⟩ := Option.bind_eq_some_iff.mp h
    obtain ⟨⟨t, next⟩, he, h⟩ := Option.bind_eq_some_iff.mp h
    cases h
    exact .lose hk (take_drop_split hk) he

section Exec

variable {t t' : Tables} {next : Call ⊕ Result} {r : Result}

theorem sameRows_refl : t.sameRows t κ = true := by
  cases κ <;> simp [Tables.sameRows]

theorem sameRows_iff : t.sameRows t' κ = true ↔
    match κ with
    | .queue name => t'.queue.lookup name = t.queue.lookup name ∧
      t'.queueThrottle.lookup name = t.queueThrottle.lookup name
    | .routing category => t'.routing.lookup category = t.routing.lookup category := by
  cases κ <;> simp [Tables.sameRows]

inductive Executes (col : FloatColumn) (t : Tables) : Call → Tables → Call ⊕ Result → Prop
  | addQueue {q : Queue} {row : QueueRow} (hrow : q.row = some row) :
    Executes col t (.addQueue q) { t with queue := (upsert t.queue q.name row).1 }
      (.inl (.addThrottle q (upsert t.queue q.name row).2))
  | addThrottle {q : Queue} {updated : Bool} {row : ThrottleRow}
    (hrow : q.throttleRow col = some row)
    (hu : updated = true ∨ t.queueThrottle.lookup q.name ≠ some row) :
    Executes col t (.addThrottle q updated)
      { t with queueThrottle := (upsert t.queueThrottle q.name row).1 } (.inl (.addRevision q))
  | addSame {q : Queue} {row : ThrottleRow} (hrow : q.throttleRow col = some row)
    (hsame : t.queueThrottle.lookup q.name = some row) :
    Executes col t (.addThrottle q false) t (.inr (.added false))
  | addRevision {q : Queue} :
    Executes col t (.addRevision q) { t with queueRevision := t.queueRevision + 1 }
      (.inr (.added true))
  | deleteQueue {name : String} :
    Executes col t (.deleteQueue name) { t with queue := t.queue.erase name }
      (.inl (.deleteThrottle name))
  | deleteThrottle {name : String} :
    Executes col t (.deleteThrottle name)
      { t with queueThrottle := t.queueThrottle.erase name } (.inl (.deleteRevision name))
  | deleteRevision {name : String} :
    Executes col t (.deleteRevision name) { t with queueRevision := t.queueRevision + 1 }
      (.inr .deleted)
  | findQueue {name : String} {row : QueueRow} (hrow : t.queue.lookup name = some row) :
    Executes col t (.findQueue name) t (.inl (.findThrottle (Tables.ofRow name row)))
  | findNone {name : String} (hrow : t.queue.lookup name = none) :
    Executes col t (.findQueue name) t (.inr .notFound)
  | findThrottle {q : Queue} :
    Executes col t (.findThrottle q) t (.inr (.found (t.withThrottle q)))
  | findQueues (hne : t.queues ≠ []) :
    Executes col t .findQueues t (.inl (.findThrottles t.queues))
  | findEmpty (hnil : t.queues = []) : Executes col t .findQueues t (.inr (.foundAll []))
  | findThrottles {qs : List Queue} :
    Executes col t (.findThrottles qs) t (.inr (.foundAll (qs.map t.withThrottle)))
  | routingExists {category queueName : String} {row : QueueRow}
    (hrow : t.queue.lookup queueName = some row) :
    Executes col t (.routingExists category queueName) t (.inl (.routingInsert category queueName))
  | routingNone {category queueName : String} (hrow : t.queue.lookup queueName = none) :
    Executes col t (.routingExists category queueName) t (.inr .notFound)
  | routingInsert {category queueName : String} (hu : t.routing.lookup category ≠ some queueName) :
    Executes col t (.routingInsert category queueName)
      { t with routing := t.routing.insert category queueName }
      (.inl (.routingAddRevision category queueName))
  | routingSame {category queueName : String}
    (hsame : t.routing.lookup category = some queueName) :
    Executes col t (.routingInsert category queueName) t (.inr (.added false))
  | routingAddRevision {category queueName : String} :
    Executes col t (.routingAddRevision category queueName)
      { t with routingRevision := t.routingRevision + 1 } (.inr (.added true))
  | routingDelete {category : String} :
    Executes col t (.routingDelete category) { t with routing := t.routing.erase category }
      (.inl (.routingDeleteRevision category))
  | routingDeleteRevision {category : String} :
    Executes col t (.routingDeleteRevision category)
      { t with routingRevision := t.routingRevision + 1 } (.inr .deleted)

theorem exec_executes (h : c.exec col t = some (t', next)) : Executes col t c t' next := by
  cases c with
  | addQueue q =>
    obtain ⟨row, hrow, h⟩ := Option.map_eq_some_iff.mp h
    cases h
    exact .addQueue hrow
  | addThrottle q updated =>
    obtain ⟨row, hrow, h⟩ := Option.map_eq_some_iff.mp h
    cases h
    split
    · rename_i hu
      exact .addThrottle hrow (by rwa [Bool.or_eq_true, upsert_flag] at hu)
    · rename_i hu
      rw [Bool.or_eq_true, not_or, Bool.not_eq_true, Bool.not_eq_true] at hu
      obtain ⟨rfl, hflag⟩ := hu
      rw [(upsert_same hflag).1]
      exact .addSame hrow (upsert_same hflag).2
  | findQueue name | routingExists _ name =>
    cases h
    cases hrow : t.queue.lookup name with
    | none => constructor; exact hrow
    | some row => constructor; exact hrow
  | findQueues =>
    cases h
    split
    · exact .findEmpty ‹_›
    · exact .findQueues ‹_›
  | routingInsert category queueName =>
    cases h
    by_cases hsame : t.routing.lookup category = some queueName
    · simp only [upsert, hsame, if_true, Bool.false_eq_true, if_false]
      exact .routingSame hsame
    · simp only [upsert, hsame, if_true, if_false]
      exact .routingInsert hsame
  | addRevision | deleteQueue | deleteThrottle | deleteRevision | findThrottle | findThrottles
  | routingAddRevision | routingDelete | routingDeleteRevision =>
    cases h
    constructor

theorem Executes.follow (h : Executes col t c t' (.inl c')) :
    c'.key = c.key ∧ c'.isAdd = c.isAdd ∧ (c.owes = true → c'.owes = true) := by
  cases h <;> simp [Call.key, Call.isAdd, Call.owes]

theorem Executes.sameRows (h : Executes col t c t' next) (hκ : c.key ≠ some κ) :
    t.sameRows t' κ = true := by
  rw [sameRows_iff]
  cases h with
  | addQueue | addThrottle =>
    cases κ with
    | queue name => simp [Call.key] at hκ; simp [lookup_upsert_ne (Ne.symm hκ)]
    | routing category => rfl
  | deleteQueue | deleteThrottle =>
    cases κ with
    | queue name => simp [Call.key] at hκ; simp [AList.lookup_erase_ne (Ne.symm hκ)]
    | routing category => rfl
  | routingInsert =>
    cases κ with
    | queue name => exact ⟨rfl, rfl⟩
    | routing category => simp [Call.key] at hκ; exact AList.lookup_insert_ne (Ne.symm hκ)
  | routingDelete =>
    cases κ with
    | queue name => exact ⟨rfl, rfl⟩
    | routing category => simp [Call.key] at hκ; exact AList.lookup_erase_ne (Ne.symm hκ)
  | _ => cases κ <;> simp

theorem Executes.revision_le (h : Executes col t c t' next) : t.revision κ ≤ t'.revision κ := by
  cases h <;> cases κ <;> simp [Tables.revision]

/-- A statement that changes rows belongs to a call that will update the
revision. If it is not an `Add`, it leaves a gap. -/
theorem Executes.change (h : Executes col t c t' next) (hκ : t.sameRows t' κ = false) :
    c.key = some κ ∧ t'.revision κ = t.revision κ ∧
      (∃ c', next = .inl c' ∧ c'.owes = true) ∧ (c.isAdd = true ∨ t'.gap κ) := by
  have hkey : c.key = some κ := by
    by_contra hne
    rw [h.sameRows hne] at hκ
    cases hκ
  refine ⟨hkey, ?_⟩
  rw [← Bool.not_eq_true, sameRows_iff] at hκ
  cases h with
  | addQueue =>
    cases hkey
    refine ⟨rfl, ⟨_, rfl, ?_⟩, .inl rfl⟩
    rw [Call.owes, upsert_flag]
    intro hsame
    exact hκ ⟨by simp only [lookup_upsert, hsame], rfl⟩
  | addThrottle | routingInsert => cases hkey; exact ⟨rfl, ⟨_, rfl, rfl⟩, .inl rfl⟩
  | deleteQueue => cases hkey; exact ⟨rfl, ⟨_, rfl, rfl⟩, .inr (.inl (AList.lookup_erase _ _))⟩
  | deleteThrottle => cases hkey; exact ⟨rfl, ⟨_, rfl, rfl⟩, .inr (.inr (AList.lookup_erase _ _))⟩
  | routingDelete => cases hkey; exact ⟨rfl, ⟨_, rfl, rfl⟩, .inr (AList.lookup_erase _ _)⟩
  | _ => exact absurd (by cases κ <;> simp) hκ

theorem gap_of_sameRows (h : t.sameRows t' κ = true) (hgap : t.gap κ) : t'.gap κ := by
  rw [sameRows_iff] at h
  cases κ with
  | queue name => rwa [Tables.gap, h.1, h.2]
  | routing category => exact h.trans hgap

/-- A call that owes an update of the revision makes it before it returns. -/
theorem Executes.bump (h : Executes col t c t' (.inr r)) (ho : c.owes = true)
    (hκ : c.key = some κ) : t'.revision κ = t.revision κ + 1 := by
  cases h <;> cases hκ <;> first | rfl | cases ho

theorem Executes.revision (h : Executes col t c t' next) (hr : c.isRevision = true)
    (hκ : c.key = some κ) : t'.revision κ = t.revision κ + 1 := by
  cases h <;> cases hκ <;> first | rfl | cases hr

/-- A call that returns a nil error without an update of the revision has found
its last row in place. -/
theorem Executes.same (h : Executes col t c t' (.inr r)) (hok : r.ok = true)
    (ho : c.owes = false) (hκ : c.key = some κ) :
    t' = t ∧ c.isAdd = true ∧ (t.gap κ → ∃ q, c = .addThrottle q false ∧ κ = .queue q.name ∧
      t.queue.lookup q.name = none) := by
  cases h with
  | addSame _ hsame =>
    cases hκ
    refine ⟨rfl, rfl, fun hgap ↦ ⟨_, rfl, rfl, ?_⟩⟩
    rcases hgap with hgap | hgap
    · exact hgap
    · rw [hsame] at hgap
      cases hgap
  | routingSame hsame =>
    cases hκ
    refine ⟨rfl, rfl, fun hgap ↦ ?_⟩
    rw [Tables.gap, hsame] at hgap
    cases hgap
  | findNone | findThrottle | findEmpty | findThrottles => cases hκ
  | routingNone => cases hok
  | addRevision | deleteRevision | routingAddRevision | routingDeleteRevision => cases ho

end Exec

end Fireworq.Repository
