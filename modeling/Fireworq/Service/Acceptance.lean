import Mathlib.Algebra.Order.Ring.Rat
import Fireworq.MySQL.TableName
import Fireworq.Repository.Agreement
import Fireworq.Service.Node

namespace Fireworq.Service

open Repository GoInt GoString
open Repository.InMemory (FloatText Storage)
open Dispatcher.System (tickerDuration)

section Repo

inductive Repo
  | mysql (col : FloatColumn) (t : Tables)
  | inMemory (fmt : FloatText) (s : Storage)

namespace Repo

def Fits : Repo → Queue → Prop
  | .mysql col _, q =>
    q.name.length ≤ 255 ∧ q.row.isSome = true ∧ (q.throttleRow col).isSome = true
  | .inMemory _ _, _ => True

instance : (repo : Repo) → (q : Queue) → Decidable (repo.Fits q)
  | .mysql _ _, _ => inferInstanceAs (Decidable (_ ∧ _))
  | .inMemory _ _, _ => inferInstanceAs (Decidable True)

def add : Repo → Queue → Option Repo
  | .mysql col t, q =>
    if q.name.length ≤ 255 then
      (Repository.mysql col t (.add q)).map fun x ↦ .mysql col x.1
    else none
  | .inMemory fmt s, q => some (.inMemory fmt (InMemory.add fmt s q).1)

def findByName : Repo → String → Option Queue
  | .mysql _ t, name => t.findByName name
  | .inMemory _ s, name => InMemory.findByName s name

def Sound : Repo → Prop
  | .mysql col _ => col.store 0 = some 0
  | .inMemory _ s => ∀ name q, s.m.lookup name = some q → q.name = name

def isInMemory : Repo → Prop
  | .mysql _ _ => False
  | .inMemory _ _ => True

/-- `Start` of the driver does not panic. The one of MySQL creates the two tables of
the queue, whose names are ASCII, and the server takes no identifier of more than 64
characters. -/
def startsDriver : Repo → Queue → Prop
  | .mysql _ _, m => (MySQL.newTableName (bytes m.name)).jobQueue.length ≤ 64 ∧
    (MySQL.newTableName (bytes m.name)).failure.length ≤ 64
  | .inMemory _ _, _ => True

end Repo

end Repo

section Start

/-- `make` of a channel does not panic. Its header is allocated with its
elements. -/
def makesChan (hchanSize size capacity : ℕ) : Prop :=
  capacity < 2 ^ 63 ∧ size * capacity + hchanSize ≤ maxAlloc

def dispatcherConfig (m : Queue) : Dispatcher.Config where
  minBufferSize := 0
  maxWorkers := m.maxWorkers

/-- `startJobQueue` returns a queue with a dispatcher that works. A job is an
interface of 16 bytes. A limiter with a finite rate refuses every job if its burst
is less than 1. -/
structure Startable (hchanSize : ℕ) (repo : Repo) (m : Queue) : Prop where
  driver : repo.startsDriver m
  ticker : 0 < tickerDuration m.pollingInterval
  jobBuffer : makesChan hchanSize 16 (dispatcherConfig m).bufferSize
  sem : makesChan hchanSize 0 m.maxWorkers
  maxWorkers : 1 ≤ m.maxWorkers
  limiter : m.maxDispatchesPerSecond ≠ 0 → 1 ≤ int64 m.maxBurstSize

end Start

/-- If a definition is accepted, the definition that is started now and the one
that a reload finds can be started. -/
def StartsAccepted (hchanSize : ℕ) (cfg : Config) (repo : Repo) (q : Queue) : Prop :=
  ∀ q' repo', cfg.prepare q = .ok q' → repo.add q' = some repo' →
    Startable hchanSize repo q' ∧
      ∃ m, repo'.findByName q'.name = some m ∧ Startable hchanSize repo' m

section Prepared

variable {cfg : Config} {q q' : Queue}

def Valid (q : Queue) : Prop :=
  0 < q.maxDispatchesPerSecond ∧ q.maxBurstSize ≠ 0 ∨
    q.maxDispatchesPerSecond = 0 ∧ q.maxBurstSize = 0

def Config.pollingInterval (cfg : Config) (q : Queue) : ℕ :=
  if 0 < q.maxDispatchesPerSecond then throttleQueuePollingInterval
  else if q.pollingInterval = 0 then cfg.queueDefaultPollingInterval
  else q.pollingInterval

def Config.maxWorkers (cfg : Config) (q : Queue) : ℕ :=
  if q.maxWorkers = 0 then cfg.queueDefaultMaxWorkers else q.maxWorkers

def Config.filled (cfg : Config) (q : Queue) : Queue :=
  { q with pollingInterval := cfg.pollingInterval q, maxWorkers := cfg.maxWorkers q }

theorem prepare_ok_iff : cfg.prepare q = .ok q' ↔ Valid q ∧ q' = cfg.filled q := by
  unfold Config.prepare Valid Config.filled Config.pollingInterval Config.maxWorkers
  obtain ⟨name, interval, workers, rate, burst⟩ := q
  rcases lt_trichotomy 0 rate with hpos | rfl | hneg
  · by_cases hburst : burst = 0
    · simp [hpos, hburst, hpos.ne', throw, throwThe, MonadExceptOf.throw, bind, Except.bind]
    · have hdefault : throttleQueuePollingInterval ≠ 0 := by decide
      simp only [hpos, hburst, if_true, if_false, pure_bind, hdefault, ne_eq, not_false_eq_true,
        true_and, and_true, true_or]
      split <;> exact ⟨fun h ↦ by cases h; rfl, fun h ↦ by rw [h]; rfl⟩
  · by_cases hburst : burst = 0
    · subst hburst
      simp only [lt_irrefl, if_false, pure_bind, ne_eq, not_true_eq_false, and_self, or_true,
        true_and]
      split <;> split <;> exact ⟨fun h ↦ by cases h; rfl, fun h ↦ by rw [h]; rfl⟩
    · simp [hburst, throw, throwThe, MonadExceptOf.throw, bind, Except.bind]
  · simp [hneg, hneg.ne, hneg.not_gt, throw, throwThe, MonadExceptOf.throw, bind, Except.bind]

/-- With positive defaults, a definition that is accepted has a polling interval
and workers. -/
theorem Config.pollingInterval_pos (h : 1 ≤ cfg.queueDefaultPollingInterval) :
    1 ≤ cfg.pollingInterval q := by
  unfold Config.pollingInterval throttleQueuePollingInterval
  split
  · decide
  · split <;> omega

theorem Config.maxWorkers_pos (h : 1 ≤ cfg.queueDefaultMaxWorkers) : 1 ≤ cfg.maxWorkers q := by
  unfold Config.maxWorkers
  split <;> omega

end Prepared

section Stored

variable {col : FloatColumn} {t t' : Tables} {fmt : FloatText} {s : Storage} {q : Queue}
  {a : Answer}

theorem mysql_add_rows (h : Repository.mysql col t (.add q) = some (t', a)) :
    ∃ row trow, q.row = some row ∧ q.throttleRow col = some trow ∧
      t'.queue.lookup q.name = some row ∧ t'.queueThrottle.lookup q.name = some trow := by
  simp only [Repository.mysql, Method.call, Call.finish, Call.exec] at h
  cases hrow : q.row with
  | none => simp [hrow] at h
  | some row =>
    cases htrow : q.throttleRow col with
    | none => simp [hrow, htrow] at h
    | some trow =>
      refine ⟨row, trow, rfl, rfl, ?_⟩
      simp only [hrow, htrow, Option.map_some, Option.bind_some] at h
      split at h
      all_goals
        rename_i hnext
        split at hnext <;> cases hnext
        simp only [Result.answer, Option.map_some, Option.bind_some, Option.some_inj,
          Prod.mk.injEq] at h
        rw [← h.1]
        exact ⟨lookup_upsert, lookup_upsert⟩

theorem exists_mysql_add (hrow : q.row.isSome = true) (htrow : (q.throttleRow col).isSome = true) :
    ∃ x, Repository.mysql col t (.add q) = some x := by
  obtain ⟨row, hrow⟩ := Option.isSome_iff_exists.mp hrow
  obtain ⟨trow, htrow⟩ := Option.isSome_iff_exists.mp htrow
  simp only [Repository.mysql, Method.call, Call.finish, Call.exec, hrow, htrow, Option.map_some,
    Option.bind_some]
  split <;> rename_i hnext <;> split at hnext <;> cases hnext <;> exact ⟨_, rfl⟩

theorem inMemory_add_lookup (hs : ∀ name q, s.m.lookup name = some q → q.name = name)
    (hq : 1 ≤ q.maxWorkers) : InMemory.findByName (InMemory.add fmt s q).1 q.name = some q := by
  unfold InMemory.add InMemory.findByName
  split
  · exact AList.lookup_insert s.m
  · rename_i hsame
    have hsame := not_not.mp hsame
    cases hlookup : s.m.lookup q.name with
    | none =>
      rw [hlookup, Option.getD_none] at hsame
      have hname : q.name = "" := by
        by_contra hne
        exact InMemory.marshal_zero hne hsame
      have hzero : InMemory.zero = q := InMemory.marshal_inj hname.symm hsame
      rw [← hzero] at hq
      exact absurd hq (by decide)
    | some d =>
      rw [hlookup, Option.getD_some] at hsame
      rw [InMemory.marshal_inj (hs _ _ hlookup) hsame]

end Stored

section Conditions

variable {hchanSize : ℕ} {repo : Repo} {m : Queue}

/-- The longer prefix and the bracket leave 46 characters for the name. -/
theorem startsDriver_mysql_iff {col : FloatColumn} {t : Tables} :
    (Repo.mysql col t).startsDriver m ↔ (runes (bytes m.name)).length ≤ 46 := by
  simp only [Repo.startsDriver, MySQL.newTableName, MySQL.replaceAll, MySQL.jobQueuePrefix,
    MySQL.failurePrefix, List.length_append, List.length_map, List.length_cons, List.length_nil]
  omega

theorem tickerDuration_pos_iff {n : ℕ} : 0 < tickerDuration n ↔
    0 < 1000000 * n % 2 ^ 64 ∧ 1000000 * n % 2 ^ 64 < 2 ^ 63 := by
  have hmul : tickerDuration n = int64 (1000000 * n : ℕ) := by
    simp [tickerDuration, int64, Int.mul_comm]
  rw [hmul, int64, Int.bmod_def]
  generalize 1000000 * n = k
  split <;> omega

theorem makesChan_bufferSize (h : hchanSize ≤ 1024) :
    makesChan hchanSize 16 (dispatcherConfig m).bufferSize ↔
      16 * m.maxWorkers + hchanSize ≤ maxAlloc := by
  unfold makesChan maxAlloc
  simp only [dispatcherConfig, Dispatcher.Config.bufferSize, Dispatcher.defaultMinBufferSize,
    if_pos]
  split <;> omega

theorem int64_burst_iff {n : ℕ} (h : n < 2 ^ 64) : 1 ≤ int64 n ↔ n ≠ 0 ∧ n < 2 ^ 63 := by
  rw [int64, Int.bmod_def]
  split <;> omega

theorem startable_iff (h : hchanSize ≤ 1024) (hdriver : repo.startsDriver m)
    (hworkers : 1 ≤ m.maxWorkers) (hburst : m.maxBurstSize < 2 ^ 64)
    (hrate : m.maxDispatchesPerSecond = 0 ↔ m.maxBurstSize = 0) :
    Startable hchanSize repo m ↔
      (0 < 1000000 * m.pollingInterval % 2 ^ 64 ∧ 1000000 * m.pollingInterval % 2 ^ 64 < 2 ^ 63) ∧
        16 * m.maxWorkers + hchanSize ≤ maxAlloc ∧ m.maxBurstSize < 2 ^ 63 := by
  rw [← tickerDuration_pos_iff, ← makesChan_bufferSize h]
  constructor
  · intro hm
    refine ⟨hm.ticker, hm.jobBuffer, ?_⟩
    by_cases hzero : m.maxBurstSize = 0
    · omega
    · exact ((int64_burst_iff hburst).mp (hm.limiter (mt hrate.mp hzero))).2
  · intro hm
    obtain ⟨hticker, hbuffer, hlt⟩ := hm
    have hchan := (makesChan_bufferSize h).mp hbuffer
    unfold maxAlloc at hchan
    refine ⟨hdriver, hticker, hbuffer, ⟨by omega, ?_⟩, hworkers, fun hne ↦ ?_⟩
    · unfold maxAlloc
      omega
    · exact (int64_burst_iff hburst).mpr ⟨mt hrate.mpr hne, hlt⟩

/-- Numbers that fit the columns of the tables can be used. -/
theorem startable_of_fits (h : hchanSize ≤ 1024) (hdriver : repo.startsDriver m)
    (hinterval : 1 ≤ m.pollingInterval ∧ m.pollingInterval < 4294967296)
    (hworkers : 1 ≤ m.maxWorkers ∧ m.maxWorkers < 4294967296) (hburst : m.maxBurstSize < 4294967296)
    (hrate : m.maxDispatchesPerSecond ≠ 0 → m.maxBurstSize ≠ 0) : Startable hchanSize repo m where
  driver := hdriver
  ticker := by
    have hlt : 1000000 * m.pollingInterval < 2 ^ 64 := by omega
    rw [tickerDuration_pos_iff, Nat.mod_eq_of_lt hlt]
    omega
  jobBuffer := (makesChan_bufferSize h).mpr (by unfold maxAlloc; omega)
  sem := ⟨by omega, by unfold maxAlloc; omega⟩
  maxWorkers := hworkers.1
  limiter hne := (int64_burst_iff (by omega)).mpr ⟨hrate hne, by omega⟩

end Conditions

section Accepted

variable {q : Queue} {row : QueueRow} {trow : ThrottleRow} {col : FloatColumn}

theorem intUnsigned_eq_some {n k : ℕ} (h : intUnsigned n = some k) : n = k ∧ k < 4294967296 := by
  unfold intUnsigned at h
  split at h <;> cases h
  exact ⟨rfl, ‹_›⟩

theorem row_fits (h : q.row = some row) :
    row = ⟨q.pollingInterval, q.maxWorkers⟩ ∧ q.pollingInterval < 4294967296 ∧
      q.maxWorkers < 4294967296 := by
  obtain ⟨i, hi, h⟩ := Option.bind_eq_some_iff.mp h
  obtain ⟨w, hw, h⟩ := Option.bind_eq_some_iff.mp h
  obtain ⟨rfl, hi⟩ := intUnsigned_eq_some hi
  obtain ⟨rfl, hw⟩ := intUnsigned_eq_some hw
  cases h
  exact ⟨rfl, hi, hw⟩

theorem throttleRow_fits (h : q.throttleRow col = some trow) :
    trow.maxBurstSize = q.maxBurstSize ∧ q.maxBurstSize < 4294967296 ∧
      col.store q.maxDispatchesPerSecond = some trow.maxDispatchesPerSecond := by
  obtain ⟨x, hx, h⟩ := Option.bind_eq_some_iff.mp h
  obtain ⟨b, hb, h⟩ := Option.bind_eq_some_iff.mp h
  obtain ⟨rfl, hb⟩ := intUnsigned_eq_some hb
  cases h
  exact ⟨rfl, hb, hx⟩

theorem Valid.rate_iff (h : Valid q) : q.maxDispatchesPerSecond = 0 ↔ q.maxBurstSize = 0 := by
  rcases h with ⟨hrate, hburst⟩ | ⟨hrate, hburst⟩
  · exact iff_of_false hrate.ne' hburst
  · exact iff_of_true hrate hburst

/-- A definition that the tables accept can be started, now and from its rows, if its
name is short enough. -/
theorem startsAccepted_mysql_iff {hchanSize : ℕ} {cfg : Config} {t : Tables}
    (h : hchanSize ≤ 1024)
    (hcfg : 1 ≤ cfg.queueDefaultPollingInterval ∧ 1 ≤ cfg.queueDefaultMaxWorkers)
    (hcol : col.store 0 = some 0) (hvalid : Valid q)
    (hfits : (Repo.mysql col t).Fits (cfg.filled q)) :
    StartsAccepted hchanSize cfg (.mysql col t) q ↔ (runes (bytes q.name)).length ≤ 46 := by
  constructor
  · intro haccepted
    obtain ⟨x, hx⟩ := exists_mysql_add (t := t) hfits.2.1 hfits.2.2
    have hadd : (Repo.mysql col t).add (cfg.filled q) = some (.mysql col x.1) := by
      rw [Repo.add, if_pos hfits.1, hx, Option.map_some]
    have hdriver := (haccepted _ _ (prepare_ok_iff.mpr ⟨hvalid, rfl⟩) hadd).1.driver
    rw [startsDriver_mysql_iff] at hdriver
    exact hdriver
  · intro hname q' repo' hq' hadd
    obtain ⟨-, rfl⟩ := prepare_ok_iff.mp hq'
    rw [Repo.add, if_pos hfits.1] at hadd
    obtain ⟨⟨t', a⟩, hrows, rfl⟩ := Option.map_eq_some_iff.mp hadd
    obtain ⟨row, trow, hrow, htrow, hqueue, hthrottle⟩ := mysql_add_rows hrows
    obtain ⟨rfl, hinterval, hworkers⟩ := row_fits hrow
    obtain ⟨hburst, hlt, hstore⟩ := throttleRow_fits htrow
    have hpos := cfg.pollingInterval_pos (q := q) hcfg.1
    have hone := cfg.maxWorkers_pos (q := q) hcfg.2
    refine ⟨startable_of_fits h (startsDriver_mysql_iff.mpr hname) ⟨hpos, hinterval⟩
      ⟨hone, hworkers⟩ hlt (mt hvalid.rate_iff.mpr), _, findByName_of_rows hqueue hthrottle, ?_⟩
    refine startable_of_fits h (startsDriver_mysql_iff.mpr hname) ⟨hpos, hinterval⟩
      ⟨hone, hworkers⟩ (hburst ▸ hlt) fun hrate hzero ↦ ?_
    have hrate' : q.maxDispatchesPerSecond = 0 := hvalid.rate_iff.mpr (hburst ▸ hzero)
    change col.store q.maxDispatchesPerSecond = _ at hstore
    rw [hrate', hcol] at hstore
    exact hrate (Option.some.inj hstore).symm

theorem fits_of_add {repo repo' : Repo} (h : repo.add q = some repo') : repo.Fits q := by
  cases repo with
  | inMemory fmt s => trivial
  | mysql col t =>
    rw [Repo.add] at h
    split at h
    · next hname =>
      obtain ⟨⟨t', a⟩, hrows, -⟩ := Option.map_eq_some_iff.mp h
      obtain ⟨row, trow, hrow, htrow, -⟩ := mysql_add_rows hrows
      exact ⟨hname, by rw [hrow]; rfl, by rw [htrow]; rfl⟩
    · cases h

/-- An accepted definition can be started if and only if its numbers can be used, in
memory, or if its name is short enough, in MySQL. -/
theorem startsAccepted_iff (hchanSize : ℕ) (cfg : Config) (repo : Repo) (q : Queue)
    (h : hchanSize ≤ 1024)
    (hcfg : 1 ≤ cfg.queueDefaultPollingInterval ∧ 1 ≤ cfg.queueDefaultMaxWorkers)
    (hburst : q.maxBurstSize < 2 ^ 64) (hrepo : repo.Sound) :
    StartsAccepted hchanSize cfg repo q ↔ ¬ Valid q ∨
      ¬ repo.Fits (cfg.filled q) ∨
      (¬ repo.isInMemory → (runes (bytes q.name)).length ≤ 46) ∧
      (repo.isInMemory →
        (0 < 1000000 * cfg.pollingInterval q % 2 ^ 64 ∧
          1000000 * cfg.pollingInterval q % 2 ^ 64 < 2 ^ 63) ∧
        16 * cfg.maxWorkers q + hchanSize ≤ maxAlloc ∧ q.maxBurstSize < 2 ^ 63) := by
  by_cases hvalid : Valid q
  · by_cases hfits : repo.Fits (cfg.filled q)
    · simp only [hvalid, hfits, not_true_eq_false, false_or]
      cases repo with
      | mysql col t =>
        rw [startsAccepted_mysql_iff h hcfg hrepo hvalid hfits]
        simp only [Repo.isInMemory, not_false_eq_true, true_imp_iff, false_imp_iff, and_true]
      | inMemory fmt s =>
        have hone := cfg.maxWorkers_pos (q := q) hcfg.2
        have hstart : Startable hchanSize (.inMemory fmt s) (cfg.filled q) ↔ _ :=
          startable_iff h trivial hone hburst hvalid.rate_iff
        simp only [Repo.isInMemory, not_true_eq_false, false_imp_iff, true_imp_iff, true_and]
        refine Iff.trans ?_ hstart
        constructor
        · intro haccepted
          exact (haccepted _ _ (prepare_ok_iff.mpr ⟨hvalid, rfl⟩) rfl).1
        · intro hm q' repo' hq' hadd
          obtain ⟨-, rfl⟩ := prepare_ok_iff.mp hq'
          cases hadd
          exact ⟨hm, _, inMemory_add_lookup hrepo hone, { hm with driver := trivial }⟩
    · refine iff_of_true (fun q' repo' hq' hadd ↦ ?_) (.inr (.inl hfits))
      obtain ⟨-, rfl⟩ := prepare_ok_iff.mp hq'
      exact absurd (fits_of_add hadd) hfits
  · refine iff_of_true (fun q' repo' hq' _ ↦ ?_) (.inl hvalid)
    exact absurd (prepare_ok_iff.mp hq').1 hvalid

def defaults : Config := ⟨"", 200, 20, 0⟩

theorem startsAccepted_iff_small :
    (112 ≤ 1024 ∧
      (1 ≤ defaults.queueDefaultPollingInterval ∧ 1 ≤ defaults.queueDefaultMaxWorkers) ∧
      5 < 2 ^ 64 ∧ (Repo.inMemory fraction .empty).Sound ∧ (Repo.mysql .exact .empty).Sound) ∧
      StartsAccepted 112 defaults (.inMemory fraction .empty) ⟨"mail", 0, 0, 5 / 2, 5⟩ ∧
      StartsAccepted 112 defaults (.mysql .exact .empty) ⟨"mail", 0, 0, 5 / 2, 5⟩ := by
  have hsound : (Repo.inMemory fraction .empty).Sound := fun name q h ↦ by cases h
  have hcol : (Repo.mysql .exact .empty).Sound := rfl
  refine ⟨⟨by decide, by decide, by decide, hsound, hcol⟩, ?_, ?_⟩
  · exact (startsAccepted_iff 112 defaults (.inMemory fraction .empty) ⟨"mail", 0, 0, 5 / 2, 5⟩
      (by decide) (by decide) (by decide) hsound).mpr
        (.inr (.inr ⟨fun h ↦ absurd trivial h, fun _ ↦ by decide +kernel⟩))
  · exact (startsAccepted_iff 112 defaults (.mysql .exact .empty) ⟨"mail", 0, 0, 5 / 2, 5⟩
      (by decide) (by decide) (by decide) hcol).mpr
        (.inr (.inr ⟨fun _ ↦ by decide +kernel, False.elim⟩))

/-- A polling interval of 9223372036855 milliseconds is stored in memory, and
the ticker of its queue panics when it is started, at every reload too. A name of 47
characters is stored in the tables, and the driver panics. -/
theorem accepted_definitions_panic :
    defaults.prepare ⟨"mail", 9223372036855, 1, 0, 0⟩ = .ok ⟨"mail", 9223372036855, 1, 0, 0⟩ ∧
      InMemory.findByName (InMemory.add fraction .empty ⟨"mail", 9223372036855, 1, 0, 0⟩).1
        "mail" = some ⟨"mail", 9223372036855, 1, 0, 0⟩ ∧
      tickerDuration 9223372036855 = -9223372036854551616 ∧
      ¬ StartsAccepted 112 defaults (.inMemory fraction .empty)
        ⟨"mail", 9223372036855, 1, 0, 0⟩ ∧
      ¬ StartsAccepted 112 defaults (.mysql .exact .empty)
        ⟨"a-queue-for-the-jobs-of-the-mailing-list-backup", 0, 0, 0, 0⟩ := by
  have hprepare : defaults.prepare ⟨"mail", 9223372036855, 1, 0, 0⟩ =
      .ok ⟨"mail", 9223372036855, 1, 0, 0⟩ := by
    rw [prepare_ok_iff]
    exact ⟨.inr ⟨rfl, rfl⟩, rfl⟩
  have hticker : tickerDuration 9223372036855 = -9223372036854551616 := by decide +kernel
  refine ⟨hprepare, by decide +kernel, hticker, fun h ↦ ?_, ?_⟩
  · have hpos := (h _ _ hprepare rfl).1.ticker
    exact absurd (hticker ▸ hpos) (by decide)
  · rw [startsAccepted_mysql_iff (by decide) (by decide) (by decide +kernel) (.inr ⟨rfl, rfl⟩)
      (by decide +kernel)]
    decide +kernel

end Accepted

end Fireworq.Service
