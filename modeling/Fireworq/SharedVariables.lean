import Fireworq.RwMutex

namespace Fireworq.SharedVariables

open RwMutex

variable {κ : Type}

def program (accesses : κ → List Access) (calls : ℕ → List κ) (i : ℕ) : List Access :=
  (calls i).flatMap accesses

def reading : Access := ⟨some .read, false⟩

def writing : Access := ⟨some .write, true⟩

inductive RoutingCall
  | add (updated : Bool)
  | findAll
  | findQueueNameByJobCategory
  | deleteByJobCategory
  | revision
  | reload
  deriving DecidableEq

def RoutingCall.accesses : RoutingCall → List Access
  | .add updated => [⟨some .write, updated⟩]
  | .findAll | .findQueueNameByJobCategory => [reading]
  | .deleteByJobCategory => [⟨some .read, true⟩]
  | .revision | .reload => []

inductive QueueCall
  | add (updated : Bool)
  | findAll
  | findByName
  | deleteByName
  | revision
  deriving DecidableEq

def QueueCall.accesses : QueueCall → List Access
  | .add updated => [⟨some .write, updated⟩]
  | .deleteByName => [writing]
  | .findAll | .findByName => [reading]
  | .revision => []

/-- The routing cache of the MySQL repository. A call that fails in the database
before, or that changes no row, does not get to the cache. -/
inductive CachedRoutingCall
  | add (updated : Bool)
  | findAll (ok : Bool)
  | findQueueNameByJobCategory
  | deleteByJobCategory (ok : Bool)
  | revision
  | reload (ok : Bool)
  deriving DecidableEq

def CachedRoutingCall.accesses : CachedRoutingCall → List Access
  | .add done | .findAll done | .deleteByJobCategory done | .reload done =>
    if done then [writing] else []
  | .findQueueNameByJobCategory => [reading]
  | .revision => []

/-- The maps of `config`. A call of `Get` may find the key in the map, in the
environment, or neither. -/
inductive ConfigCall
  | get (cached inEnv : Bool)
  | getDefault
  | set
  | setDefault
  | keys
  | descriptions
  deriving DecidableEq

def ConfigCall.accesses : ConfigCall → List Access
  | .get true _ => [reading]
  | .get false true => [reading, writing]
  | .get false false => [reading, reading, writing]
  | .getDefault | .keys => [reading]
  | .set | .setDefault => [writing]
  | .descriptions => [reading, reading]

inductive WriterCall
  | write
  | reopen (ok : Bool)
  deriving DecidableEq

def WriterCall.accesses : WriterCall → List Access
  | .write => [reading]
  | .reopen ok => [⟨some .write, ok⟩]

inductive HandleCall
  | pop
  | recover
  | connect
  | disconnect
  deriving DecidableEq

def HandleCall.accesses : HandleCall → List Access
  | .pop => [reading]
  | .recover => [⟨some .write, false⟩]
  | .connect | .disconnect => [writing]

def Guarded (a : Access) : Prop :=
  a.mode = some .write ∨ a.mode = some .read ∧ a.writes = false

theorem guarded_reading : Guarded reading := .inr ⟨rfl, rfl⟩

theorem guarded_writing : Guarded writing := .inl rfl

theorem guarded_lock (writes : Bool) : Guarded ⟨some .write, writes⟩ := .inl rfl

theorem Guarded.not_conflicts {a b : Access} (ha : Guarded a) (hb : Guarded b) :
    ¬ a.Conflicts b := by
  rintro ⟨hwrites, hmodes⟩
  rcases ha with ha | ⟨ha, hra⟩ <;> rcases hb with hb | ⟨hb, hrb⟩ <;> simp_all

theorem not_races_of_guarded {accesses : κ → List Access}
    (h : ∀ c, ∀ a ∈ accesses c, Guarded a) (calls : ℕ → List κ) :
    ¬ Races (program accesses calls) := by
  rw [races_iff]
  rintro ⟨i, j, -, a, ha, b, hb, hc⟩
  obtain ⟨c, -, ha⟩ := List.mem_flatMap.mp ha
  obtain ⟨d, -, hb⟩ := List.mem_flatMap.mp hb
  exact (h c a ha).not_conflicts (h d b hb) hc

theorem QueueCall.guarded (c : QueueCall) : ∀ a ∈ c.accesses, Guarded a := by
  cases c <;> simp [QueueCall.accesses, guarded_reading, guarded_writing, guarded_lock]

theorem CachedRoutingCall.guarded (c : CachedRoutingCall) : ∀ a ∈ c.accesses, Guarded a := by
  cases c with
  | findQueueNameByJobCategory => simp [CachedRoutingCall.accesses, guarded_reading]
  | revision => simp [CachedRoutingCall.accesses]
  | _ done => cases done <;> simp [CachedRoutingCall.accesses, guarded_writing]

theorem ConfigCall.guarded (c : ConfigCall) : ∀ a ∈ c.accesses, Guarded a := by
  cases c with
  | get cached inEnv =>
    cases cached <;> cases inEnv <;>
      simp [ConfigCall.accesses, guarded_reading, guarded_writing]
  | _ => simp [ConfigCall.accesses, guarded_reading, guarded_writing]

theorem WriterCall.guarded (c : WriterCall) : ∀ a ∈ c.accesses, Guarded a := by
  cases c <;> simp [WriterCall.accesses, guarded_reading, guarded_lock]

theorem HandleCall.guarded (c : HandleCall) : ∀ a ∈ c.accesses, Guarded a := by
  cases c <;> simp [HandleCall.accesses, guarded_reading, guarded_writing, guarded_lock]

/-- Whatever the goroutines call, they do not race for the queue definitions, for
the cached routings, for the configuration, for the file of a log writer, and
for the handle of a queue. -/
theorem guarded_variables :
    (∀ calls, ¬ Races (program QueueCall.accesses calls)) ∧
    (∀ calls, ¬ Races (program CachedRoutingCall.accesses calls)) ∧
    (∀ calls, ¬ Races (program ConfigCall.accesses calls)) ∧
    (∀ calls, ¬ Races (program WriterCall.accesses calls)) ∧
    ∀ calls, ¬ Races (program HandleCall.accesses calls) :=
  ⟨not_races_of_guarded QueueCall.guarded, not_races_of_guarded CachedRoutingCall.guarded,
    not_races_of_guarded ConfigCall.guarded, not_races_of_guarded WriterCall.guarded,
    not_races_of_guarded HandleCall.guarded⟩

def RoutingCall.Clashes (c d : RoutingCall) : Prop :=
  ∃ a ∈ c.accesses, ∃ b ∈ d.accesses, a.Conflicts b

instance (c d : RoutingCall) : Decidable (c.Clashes d) :=
  inferInstanceAs (Decidable (∃ a ∈ c.accesses, ∃ b ∈ d.accesses, a.Conflicts b))

def RoutingCall.looks (c : RoutingCall) : Prop :=
  c = .findAll ∨ c = .findQueueNameByJobCategory

theorem RoutingCall.clashes_iff (c d : RoutingCall) :
    c.Clashes d ↔
      c = .deleteByJobCategory ∧ (d = .deleteByJobCategory ∨ d.looks) ∨
      d = .deleteByJobCategory ∧ c.looks := by
  unfold RoutingCall.looks
  rcases c with (_ | _) | _ | _ | _ | _ | _ <;> rcases d with (_ | _) | _ | _ | _ | _ | _ <;> decide

theorem races_iff_clashes (calls : ℕ → List RoutingCall) :
    Races (program RoutingCall.accesses calls) ↔
      ∃ i j, i ≠ j ∧ ∃ c ∈ calls i, ∃ d ∈ calls j, c.Clashes d := by
  rw [races_iff]
  constructor
  · rintro ⟨i, j, hne, a, ha, b, hb, hab⟩
    obtain ⟨c, hc, ha⟩ := List.mem_flatMap.mp ha
    obtain ⟨d, hd, hb⟩ := List.mem_flatMap.mp hb
    exact ⟨i, j, hne, c, hc, d, hd, a, ha, b, hb, hab⟩
  · rintro ⟨i, j, hne, c, hc, d, hd, a, ha, b, hb, hab⟩
    exact ⟨i, j, hne, a, List.mem_flatMap.mpr ⟨c, hc, ha⟩, b,
      List.mem_flatMap.mpr ⟨d, hd, hb⟩, hab⟩

/-- Goroutines race for the routings in memory exactly if one of them deletes a
routing while another one deletes or looks up one. -/
theorem routing_races_iff (calls : ℕ → List RoutingCall) :
    Races (program RoutingCall.accesses calls) ↔
      ∃ i j, i ≠ j ∧ .deleteByJobCategory ∈ calls i ∧
        ∃ d ∈ calls j, d = .deleteByJobCategory ∨ d = .findAll ∨
          d = .findQueueNameByJobCategory := by
  rw [races_iff_clashes]
  constructor
  · rintro ⟨i, j, hne, c, hc, d, hd, hcd⟩
    rcases (c.clashes_iff d).mp hcd with ⟨rfl, h⟩ | ⟨rfl, h⟩
    · exact ⟨i, j, hne, hc, d, hd, h⟩
    · exact ⟨j, i, hne.symm, hd, c, hc, .inr h⟩
  · rintro ⟨i, j, hne, hi, d, hd, h⟩
    exact ⟨i, j, hne, _, hi, d, hd, (RoutingCall.clashes_iff _ d).mpr (.inl ⟨rfl, h⟩)⟩

end Fireworq.SharedVariables
