import Mathlib.Data.String.Basic
import Fireworq.Repository.InMemory
import Fireworq.Repository.Torn

namespace Fireworq.Repository

open GoInt GoEncoding GoJson Repository.InMemory

inductive Method
  | add (q : Queue)
  | deleteByName (name : String)
  | findByName (name : String)
  | findAll
  | revision
  deriving DecidableEq

inductive Answer
  | added (updated : Bool)
  | deleted
  | found (q : Option Queue)
  | foundAll (qs : List Queue)
  | revision (n : ℕ)
  deriving DecidableEq

def Call.finish (col : FloatColumn) : ℕ → Tables → Call → Option (Tables × Result)
  | 0, _, _ => none
  | n + 1, t, c => (c.exec col t).bind fun (t', next) ↦
    match next with
    | .inl c' => finish col n t' c'
    | .inr r => some (t', r)

def Result.answer : Result → Option Answer
  | .added updated => some (.added updated)
  | .deleted => some .deleted
  | .found q => some (.found (some q))
  | .foundAll qs => some (.foundAll qs)
  | .notFound => some (.found none)
  | .failed => none

def Method.call : Method → Option Call
  | .add q => some (.addQueue q)
  | .deleteByName name => some (.deleteQueue name)
  | .findByName name => some (.findQueue name)
  | .findAll => some .findQueues
  | .revision => none

/-- A method of the MySQL `queueRepository`, which executes up to three
statements. A revision without a row counts as 0. -/
def mysql (col : FloatColumn) (t : Tables) (m : Method) : Option (Tables × Answer) :=
  match m.call with
  | some c => (c.finish col 3 t).bind fun (t', r) ↦ r.answer.map fun a ↦ (t', a)
  | none => some (t, .revision t.queueRevision)

def inMemory (fmt : FloatText) (s : Storage) : Method → Storage × Answer
  | .add q => ((add fmt s q).1, .added (add fmt s q).2)
  | .deleteByName name => (deleteByName s name, .deleted)
  | .findByName name => (s, .found (InMemory.findByName s name))
  | .findAll => (s, .foundAll (InMemory.findAll s))
  | .revision => (s, .revision s.revision)

def answers {σ : Type} (step : σ → Method → Option (σ × Answer)) :
    σ → List Method → Option (σ × List Answer)
  | s, [] => some (s, [])
  | s, m :: ms => (step s m).bind fun x ↦
    (answers step x.1 ms).map fun y ↦ (y.1, x.2 :: y.2)

def Answer.bumps : Answer → Bool
  | .added updated => updated
  | .deleted => true
  | _ => false

/-- The values of a definition fit their columns, and the column for the rate
returns it unchanged. -/
structure Queue.Fits (col : FloatColumn) (q : Queue) : Prop where
  pollingInterval : q.pollingInterval < 2 ^ 32
  maxWorkers : q.maxWorkers < 2 ^ 32
  maxDispatchesPerSecond : col.store q.maxDispatchesPerSecond = some q.maxDispatchesPerSecond
  maxBurstSize : q.maxBurstSize < 2 ^ 32

def Named (name : String) : Prop := name ≠ "" ∧ name.length ≤ 255

instance : DecidablePred Named := fun _ ↦ inferInstanceAs (Decidable (_ ∧ _))

def Method.Admissible (col : FloatColumn) : Method → Prop
  | .add q => Named q.name ∧ q.Fits col
  | .deleteByName name | .findByName name => Named name
  | .findAll | .revision => True

variable {col : FloatColumn} {fmt : FloatText} {t t' : Tables} {s : Storage} {q d : Queue}
  {name : String} {m : Method}

section Tables

def Tables.Paired (t : Tables) : Prop :=
  ∀ name, t.queue.lookup name = none ↔ t.queueThrottle.lookup name = none

def Queue.queueRow (q : Queue) : QueueRow := ⟨q.pollingInterval, q.maxWorkers⟩

def Queue.rateRow (q : Queue) : ThrottleRow := ⟨q.maxDispatchesPerSecond, q.maxBurstSize⟩

theorem intUnsigned_of_lt {n : ℕ} (h : n < 2 ^ 32) : intUnsigned n = some n := if_pos h

theorem Queue.Fits.row_eq (h : q.Fits col) : q.row = some q.queueRow := by
  rw [Queue.row, intUnsigned_of_lt h.pollingInterval, intUnsigned_of_lt h.maxWorkers]
  rfl

theorem Queue.Fits.throttleRow_eq (h : q.Fits col) : q.throttleRow col = some q.rateRow := by
  rw [Queue.throttleRow, h.maxDispatchesPerSecond, intUnsigned_of_lt h.maxBurstSize]
  rfl

def Tables.put (t : Tables) (q : Queue) : Tables :=
  { t with
    queue := (upsert t.queue q.name q.queueRow).1
    queueThrottle := (upsert t.queueThrottle q.name q.rateRow).1 }

def Tables.bump (t : Tables) : Tables := { t with queueRevision := t.queueRevision + 1 }

theorem findByName_of_rows {row : QueueRow} {trow : ThrottleRow}
    (hq : t.queue.lookup name = some row) (ht : t.queueThrottle.lookup name = some trow) :
    t.findByName name = some ⟨name, row.pollingInterval, row.maxWorkers,
      trow.maxDispatchesPerSecond, trow.maxBurstSize⟩ := by
  rw [Tables.findByName, hq, Option.map_some, Tables.withThrottle]
  simp only [Tables.ofRow, ht]

theorem findByName_eq_some (h : t.Paired) : t.findByName q.name = some q ↔
    t.queue.lookup q.name = some q.queueRow ∧ t.queueThrottle.lookup q.name = some q.rateRow := by
  constructor
  · intro hfind
    obtain ⟨row, hrow, -⟩ := Option.map_eq_some_iff.mp hfind
    obtain ⟨trow, htrow⟩ := Option.ne_none_iff_exists'.mp fun hnone ↦ by
      rw [(h q.name).mpr hnone] at hrow
      cases hrow
    rw [findByName_of_rows hrow htrow, Option.some_inj] at hfind
    rw [hrow, htrow, Queue.queueRow, Queue.rateRow, ← hfind]
    exact ⟨rfl, rfl⟩
  · intro hrows
    rw [findByName_of_rows hrows.1 hrows.2]
    rfl

theorem findByName_put (t : Tables) (q : Queue) (name : String) : (t.put q).findByName name =
    if name = q.name then some q else t.findByName name := by
  by_cases hname : name = q.name
  · rw [if_pos hname, hname, findByName_of_rows (t := t.put q) lookup_upsert lookup_upsert]
    rfl
  · rw [if_neg hname, Tables.findByName, Tables.findByName]
    have hq : (t.put q).queue.lookup name = t.queue.lookup name := lookup_upsert_ne hname
    have ht : (t.put q).queueThrottle.lookup name = t.queueThrottle.lookup name :=
      lookup_upsert_ne hname
    rw [hq]
    refine congrArg (Option.map · _) (funext fun row ↦ ?_)
    simp only [Tables.withThrottle, Tables.ofRow, ht]

theorem put_paired (h : t.Paired) (q : Queue) : (t.put q).Paired := by
  intro name
  by_cases hname : name = q.name
  · subst hname
    simp only [Tables.put, lookup_upsert, reduceCtorEq]
  · simp only [Tables.put, lookup_upsert_ne hname, h name]

theorem finish_next {c c' : Call} (n : ℕ) (h : c.exec col t = some (t', .inl c')) :
    c.finish col (n + 1) t = c'.finish col n t' := by
  rw [Call.finish, h, Option.bind_some]

theorem finish_last {c : Call} {r : Result} (n : ℕ) (h : c.exec col t = some (t', .inr r)) :
    c.finish col (n + 1) t = some (t', r) := by
  rw [Call.finish, h, Option.bind_some]

/-- `Add` does nothing if the definition is there, and otherwise writes it and
updates the revision. -/
theorem add_finish (h : q.Fits col) (hpair : t.Paired) :
    Call.finish col 3 t (.addQueue q) =
      if t.findByName q.name = some q then some (t, .added false)
      else some ((t.put q).bump, .added true) := by
  have hfirst : Call.exec col t (.addQueue q) =
      some ({ t with queue := (upsert t.queue q.name q.queueRow).1 },
        .inl (.addThrottle q (upsert t.queue q.name q.queueRow).2)) := by
    rw [Call.exec, h.row_eq, Option.map_some]
  rw [finish_next 2 hfirst]
  by_cases hfind : t.findByName q.name = some q
  · obtain ⟨hq, ht⟩ := (findByName_eq_some hpair).mp hfind
    rw [if_pos hfind]
    refine finish_last 1 ?_
    rw [Call.exec, h.throttleRow_eq, Option.map_some]
    simp only [upsert, if_pos hq, if_pos ht, Bool.or_false, Bool.false_eq_true, if_false]
  · rw [if_neg hfind]
    rw [findByName_eq_some hpair, not_and_or] at hfind
    have hsecond : Call.exec col { t with queue := (upsert t.queue q.name q.queueRow).1 }
        (.addThrottle q (upsert t.queue q.name q.queueRow).2) =
        some (t.put q, .inl (.addRevision q)) := by
      rw [Call.exec, h.throttleRow_eq, Option.map_some,
        if_pos (by simpa only [Bool.or_eq_true, upsert_flag] using hfind)]
      rfl
    rw [finish_next 1 hsecond]
    exact finish_last 0 rfl

theorem findByName_erase (t : Tables) (name name' : String) :
    Tables.findByName { t with
      queue := t.queue.erase name
      queueThrottle := t.queueThrottle.erase name } name' =
      if name' = name then none else t.findByName name' := by
  by_cases hname : name' = name
  · rw [if_pos hname, hname, Tables.findByName, AList.lookup_erase, Option.map_none]
  · rw [if_neg hname, Tables.findByName, AList.lookup_erase_ne hname, Tables.findByName]
    refine congrArg (Option.map · _) (funext fun row ↦ ?_)
    simp only [Tables.withThrottle, Tables.ofRow, AList.lookup_erase_ne hname]

theorem erase_paired (h : t.Paired) (name : String) : Tables.Paired { t with
    queue := t.queue.erase name
    queueThrottle := t.queueThrottle.erase name } := by
  intro name'
  by_cases hname : name' = name
  · subst hname
    simp only [AList.lookup_erase]
  · simp only [AList.lookup_erase_ne hname, h name']

end Tables

structure Agree (t : Tables) (s : Storage) : Prop where
  paired : t.Paired
  lookup : ∀ name, s.m.lookup name = t.findByName name
  revision : s.revision = t.queueRevision

section Step

theorem agree_empty : Agree .empty .empty where
  paired _ := ⟨fun _ ↦ rfl, fun _ ↦ rfl⟩
  lookup _ := rfl
  revision := rfl

theorem Agree.bump (h : Agree t s) (hlt : t.queueRevision + 1 < 2 ^ 64) :
    Agree t.bump (updateRevision s) where
  paired := h.paired
  lookup := h.lookup
  revision := by
    rw [updateRevision, h.revision]
    exact uint64_natCast (n := t.queueRevision + 1) hlt

theorem Agree.keyed (h : Agree t s) : s.Keyed := fun name _ hq ↦
  Tables.findByName_name ((h.lookup name).symm.trans hq)

theorem Agree.add_eq (h : Agree t s) (hname : q.name ≠ "") : add fmt s q =
    if t.findByName q.name = some q then (s, false)
    else (updateRevision { s with m := s.m.insert q.name q }, true) := by
  rw [h.keyed.add_eq hname, h.lookup]

theorem Agree.insert (h : Agree t s) (q : Queue) :
    Agree (t.put q) { s with m := s.m.insert q.name q } where
  paired := put_paired h.paired q
  lookup name := by
    rw [findByName_put]
    by_cases hname : name = q.name
    · rw [if_pos hname, hname, AList.lookup_insert]
    · rw [if_neg hname, AList.lookup_insert_ne hname, h.lookup]
  revision := h.revision

theorem Agree.erase (h : Agree t s) (name : String) :
    Agree { t with queue := t.queue.erase name, queueThrottle := t.queueThrottle.erase name }
      { s with m := s.m.erase name } where
  paired := erase_paired h.paired name
  lookup name' := by
    rw [findByName_erase]
    by_cases hname : name' = name
    · rw [if_pos hname, hname, AList.lookup_erase]
    · rw [if_neg hname, AList.lookup_erase_ne hname, h.lookup]
  revision := h.revision

theorem Agree.mem_findAll (h : Agree t s) : d ∈ InMemory.findAll s ↔ d ∈ t.findAll := by
  rw [h.keyed.mem_findAll, Tables.mem_findAll, h.lookup]

theorem findAll_names (t : Tables) :
    (t.findAll.map Queue.name).Pairwise (· ≤ ·) ∧ (t.findAll.map Queue.name).Nodup := by
  have hnames : t.findAll.map Queue.name = t.queues.map Queue.name := by
    rw [Tables.findAll, List.map_map]
    exact List.map_congr_left fun q _ ↦ Tables.withThrottle_name q
  rw [hnames]
  refine ⟨?_, t.queues_nodup⟩
  rw [Tables.queues, List.map_map, List.pairwise_map]
  exact List.pairwise_insertionSort _ _

/-- Both list the definitions by their names. -/
theorem Agree.findAll_eq (h : Agree t s) : InMemory.findAll s = t.findAll := by
  obtain ⟨hle, hnd⟩ := h.keyed.findAll_names
  obtain ⟨hle', hnd'⟩ := Repository.findAll_names t
  refine List.Perm.eq_of_pairwise ?_ (List.pairwise_map.mp hle) (List.pairwise_map.mp hle') ?_
  · intro d d' hd hd' h₁ h₂
    have hd := Tables.mem_findAll.mp (h.mem_findAll.mp hd)
    rw [le_antisymm h₁ h₂, Tables.mem_findAll.mp hd'] at hd
    exact (Option.some.inj hd).symm
  · rw [List.perm_ext_iff_of_nodup (List.Nodup.of_map _ hnd) (List.Nodup.of_map _ hnd')]
    exact fun d ↦ h.mem_findAll

/-- The tables after a method and what it answers. -/
theorem mysql_eq (h : t.Paired) (hm : m.Admissible col) : mysql col t m =
    match m with
    | .add q =>
      if t.findByName q.name = some q then some (t, .added false)
      else some ((t.put q).bump, .added true)
    | .deleteByName name =>
      some (Tables.bump { t with
        queue := t.queue.erase name
        queueThrottle := t.queueThrottle.erase name }, .deleted)
    | .findByName name => some (t, .found (t.findByName name))
    | .findAll => some (t, .foundAll t.findAll)
    | .revision => some (t, .revision t.queueRevision) := by
  cases m with
  | add q =>
    simp only [mysql, Method.call, add_finish hm.2 h]
    split <;> rfl
  | deleteByName name => rfl
  | findByName name =>
    simp only [mysql, Method.call]
    cases hrow : t.queue.lookup name with
    | none =>
      have hexec : Call.exec col t (.findQueue name) = some (t, .inr .notFound) := by
        rw [Call.exec, hrow]
      rw [finish_last 2 hexec, Tables.findByName, hrow]
      rfl
    | some row =>
      have hexec : Call.exec col t (.findQueue name) =
          some (t, .inl (.findThrottle (Tables.ofRow name row))) := by
        rw [Call.exec, hrow]
      rw [finish_next 2 hexec, Tables.findByName, hrow]
      rfl
  | findAll =>
    simp only [mysql, Method.call]
    by_cases hnil : t.queues = []
    · have hexec : Call.exec col t .findQueues = some (t, .inr (.foundAll [])) := by
        rw [Call.exec, if_pos hnil]
      rw [finish_last 2 hexec, Tables.findAll, hnil]
      rfl
    · have hexec : Call.exec col t .findQueues = some (t, .inl (.findThrottles t.queues)) := by
        rw [Call.exec, if_neg hnil]
      rw [finish_next 2 hexec]
      rfl
  | revision => rfl

theorem mysql_step (h : t.Paired) (hm : m.Admissible col) : ∃ t' a, mysql col t m = some (t', a) ∧
    t'.Paired ∧ t'.queueRevision = t.queueRevision + (if a.bumps then 1 else 0) := by
  rw [mysql_eq h hm]
  cases m with
  | add q =>
    dsimp only
    split
    · exact ⟨t, _, rfl, h, rfl⟩
    · exact ⟨_, _, rfl, put_paired h q, rfl⟩
  | deleteByName name => exact ⟨_, _, rfl, erase_paired h name, rfl⟩
  | findByName | findAll | revision => exact ⟨t, _, rfl, h, rfl⟩

/-- Both stores answer a method alike, and agree after it as long as the revision
fits its column. -/
theorem Agree.step {a : Answer} (fmt : FloatText) (h : Agree t s) (hm : m.Admissible col)
    (hstep : mysql col t m = some (t', a)) (hlt : t'.queueRevision < 2 ^ 64) :
    (inMemory fmt s m).2 = a ∧ Agree t' (inMemory fmt s m).1 := by
  rw [mysql_eq h.paired hm] at hstep
  cases m with
  | add q =>
    simp only [inMemory, h.add_eq hm.1.1]
    dsimp only at hstep
    split at hstep
    · next hfind =>
      cases hstep
      rw [if_pos hfind]
      exact ⟨rfl, h⟩
    · next hfind =>
      cases hstep
      rw [if_neg hfind]
      exact ⟨rfl, (h.insert q).bump hlt⟩
  | deleteByName name => cases hstep; exact ⟨rfl, (h.erase name).bump hlt⟩
  | findByName name => cases hstep; exact ⟨congrArg Answer.found (h.lookup name), h⟩
  | findAll => cases hstep; exact ⟨congrArg Answer.foundAll h.findAll_eq, h⟩
  | revision => cases hstep; exact ⟨congrArg Answer.revision h.revision, h⟩

end Step

section Run

variable {ms : List Method} {as : List Answer} {u : Tables}

theorem mysql_run (h : t.Paired) (hms : ∀ m ∈ ms, m.Admissible col) :
    ∃ u as, answers (mysql col) t ms = some (u, as) ∧
      u.queueRevision = t.queueRevision + as.countP Answer.bumps := by
  induction ms generalizing t with
  | nil => exact ⟨t, [], rfl, rfl⟩
  | cons m ms ih =>
    obtain ⟨t', a, ht', hpair, hrev⟩ := mysql_step h (hms m List.mem_cons_self)
    obtain ⟨u, as, hu, hcount⟩ := ih hpair fun m hm ↦ hms m (List.mem_cons_of_mem _ hm)
    refine ⟨u, a :: as, ?_, ?_⟩
    · rw [answers, ht', Option.bind_some, hu, Option.map_some]
    · rw [hcount, hrev, List.countP_cons]
      omega

theorem Agree.run (fmt : FloatText) (h : Agree t s) (hms : ∀ m ∈ ms, m.Admissible col)
    (hrun : answers (mysql col) t ms = some (u, as)) (hlt : u.queueRevision < 2 ^ 64) :
    ∃ v, answers (fun s m ↦ some (inMemory fmt s m)) s ms = some (v, as) ∧ Agree u v := by
  induction ms generalizing t s as with
  | nil =>
    cases hrun
    exact ⟨s, rfl, h⟩
  | cons m ms ih =>
    have hm := hms m List.mem_cons_self
    have hrest : ∀ m ∈ ms, m.Admissible col := fun m hm ↦ hms m (List.mem_cons_of_mem _ hm)
    obtain ⟨t', a, ht', hpair, -⟩ := mysql_step h.paired hm
    obtain ⟨u', as', hu', hcount⟩ := mysql_run hpair hrest
    rw [answers, ht', Option.bind_some, hu', Option.map_some] at hrun
    obtain ⟨rfl, rfl⟩ := Prod.mk.inj (Option.some.inj hrun)
    dsimp only at hlt
    obtain ⟨ha, hagree⟩ := h.step fmt hm ht' (by omega)
    obtain ⟨v, hv, huv⟩ := ih hagree hrest hu'
    refine ⟨v, ?_, huv⟩
    rw [answers, Option.bind_some, hv, Option.map_some, ha]

end Run

/-- One client gets the same answers from both repositories. -/
theorem repositories_agree (col : FloatColumn) (fmt : FloatText) (ms : List Method)
    (hms : ∀ m ∈ ms, m.Admissible col) :
    ∃ u as, answers (mysql col) .empty ms = some (u, as) ∧
      u.queueRevision = as.countP Answer.bumps ∧
      (u.queueRevision < 2 ^ 64 →
        ∃ v, answers (fun s m ↦ some (inMemory fmt s m)) .empty ms = some (v, as) ∧
          v.revision = u.queueRevision) := by
  obtain ⟨u, as, hu, hrev⟩ := mysql_run agree_empty.paired hms
  refine ⟨u, as, hu, hrev.trans (Nat.zero_add _), fun hlt ↦ ?_⟩
  obtain ⟨v, hv, hagree⟩ := agree_empty.run fmt hms hu hlt
  exact ⟨v, hv, hagree.revision⟩

theorem formatInt_ne_slash (x : ℤ) : ∀ b ∈ formatInt x, 45 ≤ b.toNat ∧ b.toNat ≠ 47 ∧
    b.toNat ≤ 57 := by
  have hdigits {b : UInt8} (hb : b ∈ formatUint x.natAbs) :
      45 ≤ b.toNat ∧ b.toNat ≠ 47 ∧ b.toNat ≤ 57 := by
    have h := mem_formatUint hb
    omega
  intro b hb
  unfold formatInt at hb
  split at hb
  · rcases List.mem_cons.mp hb with rfl | hb
    · decide
    · exact hdigits hb
  · exact hdigits hb

def fraction : FloatText where
  text r := formatInt r.num ++ if r.den = 1 then [] else 47 :: formatUint r.den
  plain r b hb := by
    rcases List.mem_append.mp hb with hb | hb
    · have h := formatInt_ne_slash r.num b hb
      constructor
      · intro hc
        rw [hc] at h
        exact absurd h (by decide)
      · intro hc
        rw [hc] at h
        exact absurd h (by decide)
    · split at hb
      · cases hb
      · rcases List.mem_cons.mp hb with rfl | hb
        · decide
        · exact formatUint_plain _ b hb
  injective r r' h := by
    have hslash (r : ℚ) : ∀ b ∈ formatInt r.num, decide (b ≠ 47) = true := fun b hb ↦ by
      refine decide_eq_true fun hc ↦ ?_
      exact (formatInt_ne_slash r.num b hb).2.1 (by rw [hc]; rfl)
    have htake (r : ℚ) : (formatInt r.num ++ if r.den = 1 then [] else
        47 :: formatUint r.den).takeWhile (fun b ↦ decide (b ≠ 47)) = formatInt r.num := by
      rw [List.takeWhile_append_of_pos (hslash r)]
      split <;> simp
    simp only at h
    have hnum : formatInt r.num = formatInt r'.num := by rw [← htake r, ← htake r', h]
    have hden : r.den = r'.den := by
      rw [hnum] at h
      have htail := List.append_cancel_left h
      split at htail <;> split at htail
      · next h₁ h₂ => rw [h₁, h₂]
      · cases htail
      · cases htail
      · exact formatUint_injective (List.cons.inj htail).2
    exact Rat.ext (formatInt_injective hnum) hden

def addedTwice : List Method :=
  [.add throttled, .add throttled, .findAll, .deleteByName "mail", .revision]

theorem repositories_agree_twice : ∃ u as v,
    answers (mysql .exact) .empty addedTwice = some (u, as) ∧
    answers (fun s m ↦ some (inMemory fraction s m)) .empty addedTwice = some (v, as) ∧
    v.revision = u.queueRevision := by
  have hthrottled : Method.Admissible .exact (.add throttled) :=
    ⟨by decide, by decide, by decide, by decide +kernel, by decide⟩
  obtain ⟨u, as, hu, -, hagree⟩ := repositories_agree .exact fraction addedTwice (by
    intro m hm
    simp only [addedTwice, List.mem_cons, List.not_mem_nil, or_false] at hm
    rcases hm with rfl | rfl | rfl | rfl | rfl
    · exact hthrottled
    · exact hthrottled
    · trivial
    · exact (by decide : Named "mail")
    · trivial)
  obtain ⟨x, hx, hrev⟩ := Option.map_eq_some_iff.mp
    (show (answers (mysql .exact) .empty addedTwice).map (fun x ↦ x.1.queueRevision) = some 2 by
      decide +kernel)
  obtain ⟨v, hv, heq⟩ := hagree (by
    cases Option.some.inj (hu.symm.trans hx)
    rw [hrev]
    decide)
  exact ⟨u, as, v, hu, hv, heq⟩

end Fireworq.Repository
