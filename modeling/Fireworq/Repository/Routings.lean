import Mathlib.Data.Finset.Dedup
import Fireworq.Repository.Agreement

namespace Fireworq.Repository.Routings

open GoInt

inductive Method
  | queue (m : Repository.Method)
  | add (category queueName : String)
  | findQueueNameByJobCategory (category : String)
  | findAll
  | deleteByJobCategory (category : String)
  | revision
  | reload
  deriving DecidableEq

/-- A listing of the routings is taken as a set. MySQL lists them by the names of their
queues, and the other repository in the order of a map. -/
inductive Answer
  | queue (a : Repository.Answer)
  | added (updated : Bool)
  | queueNotFound
  | queueName (name : String)
  | foundAll (routings : Finset (String × String))
  | deleted
  | revision (n : ℕ)
  | reloaded
  deriving DecidableEq

def listed (t : Table String) : Finset (String × String) :=
  (t.entries.map fun e ↦ (e.1, e.2)).toFinset

structure Node where
  tables : Tables
  routings : Table String

def Node.empty : Node := ⟨.empty, ∅⟩

def Node.settle (n : Node) (category queueName : String) (t : Tables) :
    Result → Option (Node × Answer)
  | .added true => some (⟨t, n.routings.insert category queueName⟩, .added true)
  | .added false => some (⟨t, n.routings⟩, .added false)
  | .notFound => some (⟨t, n.routings⟩, .queueNotFound)
  | _ => none

def mysql (col : FloatColumn) (n : Node) : Method → Option (Node × Answer)
  | .queue m => (Repository.mysql col n.tables m).map fun x ↦ ({ n with tables := x.1 }, .queue x.2)
  | .add category queueName =>
    (Call.finish col 3 n.tables (.routingExists category queueName)).bind fun x ↦
      n.settle category queueName x.1 x.2
  | .findQueueNameByJobCategory category =>
    some (n, .queueName ((n.routings.lookup category).getD ""))
  | .findAll => some ({ n with routings := n.tables.routing }, .foundAll (listed n.tables.routing))
  | .deleteByJobCategory category =>
    (Call.finish col 2 n.tables (.routingDelete category)).map fun x ↦
      (⟨x.1, n.routings.erase category⟩, .deleted)
  | .revision => some (n, .revision n.tables.routingRevision)
  | .reload => some ({ n with routings := n.tables.routing }, .reloaded)

structure Storage where
  queues : InMemory.Storage
  m : Table String
  revision : ℕ

def Storage.empty : Storage := ⟨.empty, ∅, 0⟩

def updateRevision (s : Storage) : Storage := { s with revision := uint64 (s.revision + 1) }

def inMemory (fmt : InMemory.FloatText) (s : Storage) : Method → Storage × Answer
  | .queue m =>
    ({ s with queues := (Repository.inMemory fmt s.queues m).1 },
      .queue (Repository.inMemory fmt s.queues m).2)
  | .add category queueName =>
    if (s.m.lookup category).getD "" ≠ queueName then
      (updateRevision { s with m := s.m.insert category queueName }, .added true)
    else (s, .added false)
  | .findQueueNameByJobCategory category => (s, .queueName ((s.m.lookup category).getD ""))
  | .findAll => (s, .foundAll (listed s.m))
  | .deleteByJobCategory category =>
    (updateRevision { s with m := s.m.erase category }, .deleted)
  | .revision => (s, .revision s.revision)
  | .reload => (s, .reloaded)

def answers {σ : Type} (step : σ → Method → Option (σ × Answer)) :
    σ → List Method → Option (List Answer)
  | _, [] => some []
  | s, m :: ms => (step s m).bind fun x ↦ (answers step x.1 ms).map (x.2 :: ·)

def Method.Admissible (col : FloatColumn) : Method → Prop
  | .queue m => m.Admissible col
  | .add category _ | .findQueueNameByJobCategory category | .deleteByJobCategory category =>
    Named category
  | .findAll | .revision | .reload => True

def define (defined : String → Bool) : Method → String → Bool
  | .queue (.add q) => fun name ↦ if name = q.name then true else defined name
  | .queue (.deleteByName name') => fun name ↦ if name = name' then false else defined name
  | _ => defined

def Method.Names (defined : String → Bool) : Method → Prop
  | .add _ queueName => defined queueName = true
  | _ => True

/-- Every routing is added for a queue that is defined at that time. -/
def Routed (defined : String → Bool) : List Method → Prop
  | [] => True
  | m :: ms => m.Names defined ∧ Routed (define defined m) ms

variable {col : FloatColumn} {fmt : InMemory.FloatText} {t t' : Tables} {n n' : Node}
  {s : Storage} {m : Method} {defined : String → Bool} {category queueName : String}

section Statements

theorem routing_finish (t : Tables) (category queueName : String) :
    Call.finish col 3 t (.routingExists category queueName) =
      if (t.queue.lookup queueName).isSome then
        if t.routing.lookup category = some queueName then some (t, .added false)
        else some ({ t with
          routing := t.routing.insert category queueName
          routingRevision := t.routingRevision + 1 }, .added true)
      else some (t, .notFound) := by
  cases hq : t.queue.lookup queueName with
  | none =>
    have hexec : Call.exec col t (.routingExists category queueName) =
        some (t, .inr .notFound) := by
      rw [Call.exec, hq]
    rw [finish_last 2 hexec]
    rfl
  | some row =>
    have hexec : Call.exec col t (.routingExists category queueName) =
        some (t, .inl (.routingInsert category queueName)) := by
      rw [Call.exec, hq]
    rw [finish_next 2 hexec, Option.isSome_some, if_pos rfl]
    by_cases hr : t.routing.lookup category = some queueName
    · rw [if_pos hr]
      refine finish_last 1 ?_
      simp only [Call.exec, upsert, if_pos hr, Bool.false_eq_true, if_false]
    · rw [if_neg hr]
      have hinsert : Call.exec col t (.routingInsert category queueName) =
          some ({ t with routing := t.routing.insert category queueName },
            .inl (.routingAddRevision category queueName)) := by
        simp only [Call.exec, upsert, if_neg hr, if_true]
      rw [finish_next 1 hinsert]
      exact finish_last 0 rfl

theorem mysql_add : mysql col n (.add category queueName) =
    if (n.tables.queue.lookup queueName).isSome then
      if n.tables.routing.lookup category = some queueName then some (n, .added false)
      else some (⟨{ n.tables with
        routing := n.tables.routing.insert category queueName
        routingRevision := n.tables.routingRevision + 1 },
        n.routings.insert category queueName⟩, .added true)
    else some (n, .queueNotFound) := by
  rw [mysql, routing_finish]
  split
  · split <;> rfl
  · rfl

theorem lookup_insert {α : Type} (t : Table α) (k : String) (v : α) (c : String) :
    (t.insert k v).lookup c = if c = k then some v else t.lookup c := by
  split
  · next h =>
    subst h
    exact AList.lookup_insert t
  · next h => exact AList.lookup_insert_ne h

theorem lookup_erase {α : Type} (t : Table α) (k c : String) :
    (t.erase k).lookup c = if c = k then none else t.lookup c := by
  split
  · next h =>
    subst h
    exact AList.lookup_erase c t
  · next h => exact AList.lookup_erase_ne h

theorem mem_listed {t : Table String} {x : String × String} :
    x ∈ listed t ↔ t.lookup x.1 = some x.2 := by
  simp only [listed, List.mem_toFinset, List.mem_map]
  constructor
  · rintro ⟨e, he, rfl⟩
    exact AList.mem_lookup_iff.mpr he
  · intro h
    exact ⟨⟨x.1, x.2⟩, AList.mem_lookup_iff.mp h, rfl⟩

theorem listed_congr {t t' : Table String} (h : ∀ c, t.lookup c = t'.lookup c) :
    listed t = listed t' := by
  ext x
  rw [mem_listed, mem_listed, h]

theorem queue_step {a : Repository.Answer} {m : Repository.Method} (h : t.Paired)
    (hm : m.Admissible col) (hstep : Repository.mysql col t m = some (t', a)) :
    t'.routing = t.routing ∧ t'.routingRevision = t.routingRevision ∧
      ∀ name, (t'.queue.lookup name).isSome =
        define (fun name ↦ (t.queue.lookup name).isSome) (.queue m) name := by
  rw [mysql_eq h hm] at hstep
  cases m with
  | add q =>
    have hput : ∀ name, ((t.put q).queue.lookup name).isSome =
        if name = q.name then true else (t.queue.lookup name).isSome := by
      intro name
      by_cases hname : name = q.name
      · rw [if_pos hname, hname, Tables.put, lookup_upsert, Option.isSome_some]
      · rw [if_neg hname, Tables.put, lookup_upsert_ne hname]
    dsimp only at hstep
    split at hstep
    · next hfind =>
      cases hstep
      refine ⟨rfl, rfl, fun name ↦ ?_⟩
      obtain ⟨hq, -⟩ := (findByName_eq_some h).mp hfind
      simp only [define]
      split
      · next hname => rw [hname, hq, Option.isSome_some]
      · rfl
    · cases hstep
      exact ⟨rfl, rfl, hput⟩
  | deleteByName name' =>
    cases hstep
    refine ⟨rfl, rfl, fun name ↦ ?_⟩
    simp only [define, Tables.bump]
    split
    · next hname => rw [hname, AList.lookup_erase, Option.isSome_none]
    · next hname => rw [AList.lookup_erase_ne hname]
  | findByName | findAll | revision => cases hstep; exact ⟨rfl, rfl, fun _ ↦ rfl⟩

end Statements

structure Agree (defined : String → Bool) (n : Node) (s : Storage) : Prop where
  queues : Repository.Agree n.tables s.queues
  defined : ∀ name, defined name = (n.tables.queue.lookup name).isSome
  unnamed : n.tables.queue.lookup "" = none
  cached : ∀ c, n.routings.lookup c = n.tables.routing.lookup c
  stored : ∀ c, s.m.lookup c = n.tables.routing.lookup c
  routed : ∀ c, n.tables.routing.lookup c ≠ some ""
  revision : s.revision = n.tables.routingRevision

section Step

theorem agree_empty : Agree (fun _ ↦ false) .empty .empty where
  queues := Repository.agree_empty
  defined _ := rfl
  unnamed := rfl
  cached _ := rfl
  stored _ := rfl
  routed _ := by simp [Node.empty, Tables.empty]
  revision := rfl

theorem mysql_step (h : n.tables.Paired) (hm : m.Admissible col) :
    ∃ n' a, mysql col n m = some (n', a) ∧ n'.tables.Paired ∧
      n'.tables.queueRevision ≤ n.tables.queueRevision + 1 ∧
      n'.tables.routingRevision ≤ n.tables.routingRevision + 1 := by
  cases m with
  | queue m =>
    obtain ⟨t', a, hstep, hpaired, hrevision⟩ := Repository.mysql_step h hm
    obtain ⟨-, hrouting, -⟩ := queue_step h hm hstep
    refine ⟨⟨t', n.routings⟩, .queue a, by rw [mysql, hstep]; rfl, hpaired, ?_, ?_⟩
    · rw [hrevision]
      split <;> omega
    · rw [hrouting]
      omega
  | add category queueName =>
    rw [mysql_add]
    split
    · split
      · exact ⟨n, _, rfl, h, by omega, by omega⟩
      · exact ⟨_, _, rfl, h, Nat.le_succ _, le_rfl⟩
    · exact ⟨n, _, rfl, h, by omega, by omega⟩
  | deleteByJobCategory category => exact ⟨_, _, rfl, h, Nat.le_succ _, le_rfl⟩
  | findQueueNameByJobCategory | revision => exact ⟨n, _, rfl, h, by omega, by omega⟩
  | findAll | reload => exact ⟨_, _, rfl, h, Nat.le_succ _, Nat.le_succ _⟩

theorem Agree.queue_step {a : Repository.Answer} {m : Repository.Method} (fmt : InMemory.FloatText)
    (h : Agree defined n s) (hm : m.Admissible col)
    (hstep : Repository.mysql col n.tables m = some (t', a)) (hlt : t'.queueRevision < 2 ^ 64) :
    (Repository.inMemory fmt s.queues m).2 = a ∧
      Agree (define defined (.queue m)) { n with tables := t' }
        { s with queues := (Repository.inMemory fmt s.queues m).1 } := by
  obtain ⟨hanswer, hqueues⟩ := h.queues.step fmt hm hstep hlt
  obtain ⟨hrouting, hrevision, hdefined⟩ := Routings.queue_step h.queues.paired hm hstep
  have hfun : defined = fun name ↦ (n.tables.queue.lookup name).isSome := funext h.defined
  refine ⟨hanswer, ?_⟩
  constructor
  · exact hqueues
  · intro name
    rw [hdefined, hfun]
  · have hnone : (t'.queue.lookup "").isSome = false := by
      rw [hdefined]
      cases m with
      | add q => simp [define, Ne.symm hm.1.1, h.unnamed]
      | deleteByName name => simp [define, h.unnamed]
      | findByName | findAll | revision => simp [define, h.unnamed]
    simpa using hnone
  · intro c
    rw [hrouting]
    exact h.cached c
  · intro c
    rw [hrouting]
    exact h.stored c
  · intro c
    rw [hrouting]
    exact h.routed c
  · rw [hrevision]
    exact h.revision

theorem Agree.insert (h : Agree defined n s) (hname : queueName ≠ "")
    (hlt : n.tables.routingRevision + 1 < 2 ^ 64) :
    Agree defined ⟨{ n.tables with
      routing := n.tables.routing.insert category queueName
      routingRevision := n.tables.routingRevision + 1 }, n.routings.insert category queueName⟩
      (updateRevision { s with m := s.m.insert category queueName }) := by
  constructor
  · exact ⟨h.queues.paired, h.queues.lookup, h.queues.revision⟩
  · exact h.defined
  · exact h.unnamed
  · intro c
    simp only [lookup_insert, h.cached]
  · intro c
    simp only [updateRevision, lookup_insert, h.stored]
  · intro c
    rw [lookup_insert]
    split
    · simpa using hname
    · exact h.routed c
  · rw [updateRevision, h.revision]
    exact uint64_natCast (n := n.tables.routingRevision + 1) hlt

theorem Agree.erase (h : Agree defined n s) (hlt : n.tables.routingRevision + 1 < 2 ^ 64) :
    Agree defined ⟨{ n.tables with
      routing := n.tables.routing.erase category
      routingRevision := n.tables.routingRevision + 1 }, n.routings.erase category⟩
      (updateRevision { s with m := s.m.erase category }) := by
  constructor
  · exact ⟨h.queues.paired, h.queues.lookup, h.queues.revision⟩
  · exact h.defined
  · exact h.unnamed
  · intro c
    simp only [lookup_erase, h.cached]
  · intro c
    simp only [updateRevision, lookup_erase, h.stored]
  · intro c
    rw [lookup_erase]
    split
    · simp
    · exact h.routed c
  · rw [updateRevision, h.revision]
    exact uint64_natCast (n := n.tables.routingRevision + 1) hlt

theorem Agree.reload (h : Agree defined n s) :
    Agree defined { n with routings := n.tables.routing } s :=
  { h with cached := fun _ ↦ rfl }

/-- The comparison in memory is the one that the upsert makes. -/
theorem Agree.stored_iff (h : Agree defined n s) (hname : queueName ≠ "") :
    (s.m.lookup category).getD "" = queueName ↔
      n.tables.routing.lookup category = some queueName := by
  rw [h.stored]
  cases hr : n.tables.routing.lookup category with
  | none => simpa using Ne.symm hname
  | some name => simp

/-- Both kinds of repositories answer a call alike, unless it adds a routing to a
queue that is not defined. -/
theorem Agree.step {a : Answer} (fmt : InMemory.FloatText) (h : Agree defined n s)
    (hm : m.Admissible col) (hstep : mysql col n m = some (n', a))
    (hq : n'.tables.queueRevision < 2 ^ 64) (hr : n'.tables.routingRevision < 2 ^ 64) :
    (m.Names defined ↔ (inMemory fmt s m).2 = a) ∧
      (m.Names defined → Agree (define defined m) n' (inMemory fmt s m).1) := by
  cases m with
  | queue m =>
    obtain ⟨⟨t', b⟩, ht', hx⟩ := Option.map_eq_some_iff.mp hstep
    cases hx
    obtain ⟨hanswer, hagree⟩ := h.queue_step fmt hm ht' hq
    exact ⟨iff_of_true trivial (congrArg Answer.queue hanswer), fun _ ↦ hagree⟩
  | add category queueName =>
    rw [mysql_add, ← h.defined] at hstep
    by_cases hdefined : defined queueName = true
    · have hname : queueName ≠ "" := by
        rintro rfl
        rw [h.defined, h.unnamed] at hdefined
        cases hdefined
      rw [if_pos hdefined] at hstep
      simp only [inMemory, h.stored_iff hname, ne_eq]
      split at hstep
      · next hsame =>
        cases hstep
        rw [if_neg (not_not.mpr hsame)]
        exact ⟨iff_of_true hdefined rfl, fun _ ↦ h⟩
      · next hother =>
        cases hstep
        rw [if_pos hother]
        exact ⟨iff_of_true hdefined rfl, fun _ ↦ h.insert hname hr⟩
    · rw [if_neg hdefined] at hstep
      cases hstep
      refine ⟨iff_of_false hdefined ?_, fun hnames ↦ absurd hnames hdefined⟩
      simp only [inMemory]
      split <;> simp
  | deleteByJobCategory category =>
    cases hstep
    exact ⟨iff_of_true trivial rfl, fun _ ↦ h.erase hr⟩
  | findQueueNameByJobCategory category =>
    cases hstep
    refine ⟨iff_of_true trivial ?_, fun _ ↦ h⟩
    simp only [inMemory, h.stored, h.cached]
  | findAll =>
    cases hstep
    exact ⟨iff_of_true trivial (congrArg Answer.foundAll (listed_congr h.stored)), fun _ ↦ h.reload⟩
  | revision =>
    cases hstep
    exact ⟨iff_of_true trivial (congrArg Answer.revision h.revision), fun _ ↦ h⟩
  | reload =>
    cases hstep
    exact ⟨iff_of_true trivial rfl, fun _ ↦ h.reload⟩

end Step

section Run

variable {ms : List Method}

theorem mysql_run (h : n.tables.Paired) (hms : ∀ m ∈ ms, m.Admissible col) :
    ∃ as, answers (mysql col) n ms = some as := by
  induction ms generalizing n with
  | nil => exact ⟨[], rfl⟩
  | cons m ms ih =>
    obtain ⟨n', a, hn', hpaired, -⟩ := mysql_step h (hms m List.mem_cons_self)
    obtain ⟨as, has⟩ := ih hpaired fun m hm ↦ hms m (List.mem_cons_of_mem _ hm)
    exact ⟨a :: as, by rw [answers, hn', Option.bind_some, has, Option.map_some]⟩

theorem Agree.run (fmt : InMemory.FloatText) (h : Agree defined n s)
    (hms : ∀ m ∈ ms, m.Admissible col) (hq : n.tables.queueRevision + ms.length < 2 ^ 64)
    (hr : n.tables.routingRevision + ms.length < 2 ^ 64) :
    answers (fun s m ↦ some (inMemory fmt s m)) s ms = answers (mysql col) n ms ↔
      Routed defined ms := by
  induction ms generalizing defined n s with
  | nil => exact iff_of_true rfl trivial
  | cons m ms ih =>
    have hm := hms m List.mem_cons_self
    have hrest : ∀ m ∈ ms, m.Admissible col := fun m hm ↦ hms m (List.mem_cons_of_mem _ hm)
    obtain ⟨n', a, hn', hpaired, hq', hr'⟩ := mysql_step h.queues.paired hm
    obtain ⟨as, has⟩ := mysql_run hpaired hrest
    rw [List.length_cons] at hq hr
    obtain ⟨hanswer, hagree⟩ := h.step fmt hm hn' (by omega) (by omega)
    rw [Routed, answers, answers, hn', Option.bind_some, Option.bind_some, hanswer]
    have hih := fun hnames ↦ ih (hagree (hanswer.mpr hnames)) hrest (by omega) (by omega)
    rw [has, Option.map_some, Option.map_eq_some_iff]
    constructor
    · rintro ⟨bs, hbs, hcons⟩
      obtain ⟨rfl, rfl⟩ := List.cons.inj hcons
      exact ⟨rfl, (hih rfl).mp (hbs.trans has.symm)⟩
    · rintro ⟨rfl, hrouted⟩
      exact ⟨as, ((hih rfl).mpr hrouted).trans has, rfl⟩

end Run

/-- A client that alone uses both repositories of a node gets the same answers from
MySQL and from memory exactly if it adds routings only to queues that are
defined. -/
theorem routings_agree_iff (col : FloatColumn) (fmt : InMemory.FloatText) (ms : List Method)
    (hms : ∀ m ∈ ms, m.Admissible col) (hlen : ms.length < 2 ^ 64) :
    (∃ as, answers (mysql col) .empty ms = some as) ∧
      (answers (fun s m ↦ some (inMemory fmt s m)) .empty ms = answers (mysql col) .empty ms ↔
        Routed (fun _ ↦ false) ms) := by
  refine ⟨mysql_run agree_empty.queues.paired hms, agree_empty.run fmt hms ?_ ?_⟩
  · exact lt_of_eq_of_lt (Nat.zero_add _) hlen
  · exact lt_of_eq_of_lt (Nat.zero_add _) hlen

/-- A routing to a queue that is not defined is refused by MySQL only. -/
theorem routings_agree_iff_mail :
    answers (fun s m ↦ some (inMemory fraction s m)) .empty
        [.queue (.add throttled), .add "news" "mail", .findQueueNameByJobCategory "news"] =
      answers (mysql .exact) .empty
        [.queue (.add throttled), .add "news" "mail", .findQueueNameByJobCategory "news"] ∧
    answers (fun s m ↦ some (inMemory fraction s m)) .empty [.add "news" "mail"] ≠
      answers (mysql .exact) .empty [.add "news" "mail"] := by
  have hthrottled : Method.Admissible .exact (.queue (.add throttled)) :=
    ⟨by decide, by decide, by decide, by decide +kernel, by decide⟩
  have hnews : Named "news" := by decide
  constructor
  · refine ((routings_agree_iff .exact fraction _ ?_ (by decide)).2).mpr
      ⟨trivial, rfl, trivial, trivial⟩
    intro m hm
    simp only [List.mem_cons, List.not_mem_nil, or_false] at hm
    rcases hm with rfl | rfl | rfl
    · exact hthrottled
    · exact hnews
    · exact hnews
  · intro h
    obtain ⟨hnames, -⟩ := ((routings_agree_iff .exact fraction [.add "news" "mail"] (by
      intro m hm
      rw [List.mem_singleton.mp hm]
      exact hnews) (by decide)).2).mp h
    cases hnames

end Fireworq.Repository.Routings
