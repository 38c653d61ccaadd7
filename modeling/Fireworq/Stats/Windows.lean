import Mathlib.Algebra.BigOperators.Fin
import Mathlib.Algebra.BigOperators.Group.Finset.Piecewise
import Mathlib.Algebra.Order.BigOperators.Group.List
import Fireworq.Execution
import Fireworq.Stats.Keys

namespace Fireworq.Stats

open GoEncoding Redis Execution

def Time.window (t : Time) (j : Fin 12) : Time :=
  { t with minute := 5 * j, valid := by have := t.valid; omega }

def Time.atHour (t : Time) (h : Fin 24) : Time :=
  { t with hour := h, valid := by have := t.valid; omega }

section Recording

structure Recording where
  calls : List (Record × ℕ)
  log : List (ℕ × Command)

namespace Recording

def start (rs : List Record) : Recording := ⟨rs.map (·, 0), []⟩

/-- The server executes the next command of a call at some time of its clock. A
pipeline is no transaction, so the commands of other calls come in between, and
one that is cut off makes no more steps. -/
def step (s : Recording) (e : ℕ × ℕ) : Option Recording :=
  s.calls[e.1]?.bind fun x ↦ x.1.commands[x.2]?.map fun c ↦
    ⟨s.calls.set e.1 (x.1, x.2 + 1), s.log ++ [(e.2, c)]⟩

def store (s : Recording) : Store := .run s.log

/-- The key has never expired when a command or the reader comes to it. -/
def Alive (s : Recording) (clock : ℕ) (P : Tenant) (b : Bucket) (t : Time) : Prop :=
  Store.Unexpired (P.key b t) (fun _ ↦ none) s.log ∧ s.store.Live clock (P.key b t)

instance (s : Recording) (clock : ℕ) (P : Tenant) (b : Bucket) (t : Time) :
    Decidable (s.Alive clock P b t) := inferInstanceAs (Decidable (_ ∧ _))

def Whole (s : Recording) : Prop := ∀ x ∈ s.calls, x.2 = 0 ∨ x.2 = x.1.commands.length

structure AddUp (R : ℤ → ℤ → Prop) (s : Recording) (clock : ℕ) (P : Tenant) : Prop where
  hours : ∀ t f, s.Alive clock P .oneHour t → (∀ j, s.Alive clock P .fiveMin (t.window j)) →
    R (s.store.field clock (P.key .oneHour t) f)
      (∑ j, s.store.field clock (P.key .fiveMin (t.window j)) f)
  days : ∀ t f, s.Alive clock P .daily t → (∀ h, s.Alive clock P .oneHour (t.atHour h)) →
    R (s.store.field clock (P.key .daily t) f)
      (∑ h, s.store.field clock (P.key .oneHour (t.atHour h)) f)
  outcomes : ∀ b t, s.Alive clock P b t →
    R (s.store.field clock (P.key b t) "success" + s.store.field clock (P.key b t) "fail")
      (s.store.field clock (P.key b t) "total")

end Recording

end Recording

section Stamps

theorem parseDigits_padded (width n : ℕ) : parseDigits 0 (padded width n) = some n := by
  unfold padded
  induction width - (formatUint n).length with
  | zero => exact parseDigits_formatUint n
  | succ k ih => exact ih

theorem padded_injective (width : ℕ) : Function.Injective (padded width) := by
  intro m n h
  have hm := parseDigits_padded width m
  rw [h, parseDigits_padded] at hm
  exact (Option.some.inj hm).symm

theorem length_padded : ∀ n < 60, (padded 2 n).length = 2 := by decide +kernel

theorem append_padded {u v : List UInt8} {m n : ℕ} (hm : m < 60) (hn : n < 60) :
    u ++ padded 2 m = v ++ padded 2 n ↔ u = v ∧ m = n := by
  constructor
  · intro h
    obtain ⟨hu, hpad⟩ := List.append_inj' h ((length_padded m hm).trans (length_padded n hn).symm)
    exact ⟨hu, padded_injective 2 hpad⟩
  · rintro ⟨rfl, rfl⟩
    rfl

variable {t u : Time}

theorem stamp_fiveMin_eq_iff {j : Fin 12} :
    Bucket.fiveMin.stamp u = Bucket.fiveMin.stamp (t.window j) ↔
      Bucket.oneHour.stamp u = Bucket.oneHour.stamp t ∧ u.minute / 5 = j := by
  have hu := u.valid
  have hj := j.isLt
  have hstamp : Bucket.fiveMin.stamp (t.window j) = t.dateHour ++ padded 2 (5 * j) := by
    have hminute : 5 * (j : ℕ) - 5 * j % 5 = 5 * j := by omega
    exact congrArg (t.dateHour ++ padded 2 ·) hminute
  rw [hstamp]
  refine (append_padded (by omega) (by omega)).trans (and_congr Iff.rfl ?_)
  omega

theorem stamp_oneHour_eq_iff {h : Fin 24} :
    Bucket.oneHour.stamp u = Bucket.oneHour.stamp (t.atHour h) ↔
      Bucket.daily.stamp u = Bucket.daily.stamp t ∧ u.hour = h := by
  have hu := u.valid
  have hh := h.isLt
  exact append_padded (n := h) (by omega) (by omega)

end Stamps

section Commands

def Bucket.index : Bucket → ℕ
  | .fiveMin => 0
  | .oneHour => 1
  | .daily => 2

namespace Record

variable (r : Record) (P : Tenant) (b : Bucket) (t : Time) (f : String) (n : ℕ)

def fields : List String :=
  "total" ::
    if r.isSuccess then ["success"]
    else if r.isPermanentFail then ["fail", "permanent_fail"]
    else ["fail"]

def counted : List String := r.fields.take (n - b.index * r.fields.length)

def Matches : Prop := r.tenant.scope = P.scope ∧ b.stamp r.time = b.stamp t

instance : Decidable (r.Matches P b t) := inferInstanceAs (Decidable (_ ∧ _))

theorem matches_iff : r.tenant.key b r.time = P.key b t ↔ r.Matches P b t := by
  rw [key_eq_iff, Matches]
  simp only [true_and]

theorem increments_eq :
    r.increments b = r.fields.map fun g ↦ .hincrBy (r.tenant.key b r.time) g 1 := by
  unfold increments fields
  cases r.isSuccess <;> cases r.isPermanentFail <;> rfl

def trailer : List Command :=
  Bucket.all.map (fun b ↦ .expire (r.tenant.key b r.time) b.ttl) ++
    [.zadd r.tenant.activeKey r.time.unix r.tenant.orgId]

theorem commands_eq : r.commands =
    r.increments .fiveMin ++ (r.increments .oneHour ++ (r.increments .daily ++ r.trailer)) := by
  simp [commands, trailer, Bucket.all]

theorem length_increments : (r.increments b).length = r.fields.length := by
  rw [increments_eq, List.length_map]

theorem length_commands : r.commands.length = 3 * r.fields.length + 4 := by
  simp only [commands_eq, List.length_append, length_increments]
  have htrailer : r.trailer.length = 4 := rfl
  omega

variable {r P b t f n}

theorem key_label_ne {b' : Bucket} {u : Time} {Q : Tenant} (h : b' ≠ b) :
    Q.key b' u ≠ P.key b t := by
  intro heq
  have hlabel := (key_eq_iff.mp heq).2.1
  revert hlabel
  cases b <;> cases b' <;> first | exact absurd rfl h | decide

theorem sum_adds_take (b' : Bucket) (m : ℕ) :
    (((r.increments b').take m).map (Command.adds (P.key b t) f)).sum =
      if b' = b ∧ r.Matches P b t then ((r.fields.take m).count f : ℤ) else 0 := by
  rw [increments_eq, ← List.map_take, List.map_map]
  split
  · rename_i h
    obtain ⟨rfl, h⟩ := h
    have hkey := (matches_iff r P b' t).mpr h
    induction r.fields.take m with
    | nil => rfl
    | cons g gs ih =>
      rw [List.map_cons, List.sum_cons, ih, List.count_cons]
      by_cases hg : g = f
      · simp [Command.adds, hkey, hg, add_comm]
      · simp [Command.adds, hg]
  · rename_i h
    have hkey : r.tenant.key b' r.time ≠ P.key b t := by
      by_cases hb : b' = b
      · subst hb
        exact fun hkey ↦ h ⟨rfl, (matches_iff r P b' t).mp hkey⟩
      · exact key_label_ne hb
    apply List.sum_eq_zero
    intro x hx
    obtain ⟨g, -, rfl⟩ := List.mem_map.mp hx
    simp [Command.adds, hkey]

theorem sum_adds_trailer (m : ℕ) :
    ((r.trailer.take m).map (Command.adds (P.key b t) f)).sum = 0 := by
  apply List.sum_eq_zero
  intro x hx
  obtain ⟨c, hc, rfl⟩ := List.mem_map.mp hx
  have hc := List.mem_of_mem_take hc
  simp only [trailer, Bucket.all, List.map_cons, List.map_nil, List.cons_append,
    List.nil_append, List.mem_cons, List.not_mem_nil, or_false] at hc
  obtain rfl | rfl | rfl | rfl := hc <;> rfl

theorem sum_adds_commands :
    ((r.commands.take n).map (Command.adds (P.key b t) f)).sum =
      if r.Matches P b t then ((r.counted b n).count f : ℤ) else 0 := by
  rw [commands_eq]
  simp only [List.take_append, List.map_append, List.sum_append, sum_adds_take,
    sum_adds_trailer, length_increments]
  cases b <;> simp [counted, Bucket.index, two_mul, Nat.sub_sub]

/-- The buckets are counted one after the other. -/
theorem count_counted_le {b' : Bucket} (h : b.index ≤ b'.index) :
    (r.counted b' n).count f ≤ (r.counted b n).count f := by
  have hmul := Nat.mul_le_mul_right r.fields.length h
  have hpre : r.counted b' n <+: r.counted b n := List.take_prefix_take_left (by omega)
  exact hpre.sublist.count_le f

theorem counted_whole (h : n = 0 ∨ n = r.commands.length) :
    r.counted b n = if n = 0 then [] else r.fields := by
  rcases h with rfl | rfl
  · simp [counted]
  · rw [length_commands, if_neg (by omega), counted, List.take_of_length_le]
    cases b <;> simp only [Bucket.index] <;> omega

theorem count_outcomes_le (m : ℕ) :
    (r.fields.take m).count "success" + (r.fields.take m).count "fail" ≤
      (r.fields.take m).count "total" := by
  unfold fields
  rcases m with _ | _ | _ | m <;> cases r.isSuccess <;> cases r.isPermanentFail <;> simp

theorem count_outcomes :
    r.fields.count "success" + r.fields.count "fail" = r.fields.count "total" := by
  unfold fields
  cases r.isSuccess <;> cases r.isPermanentFail <;> simp

theorem count_permanent_fail_le (m : ℕ) :
    (r.fields.take m).count "permanent_fail" ≤ (r.fields.take m).count "fail" := by
  unfold fields
  rcases m with _ | _ | _ | m <;> cases r.isSuccess <;> cases r.isPermanentFail <;> simp

theorem isZAdd_eq_false {c : Command} (hc : c ∈ r.commands) (hkey : c.key = P.key b t) :
    c.isZAdd = false := by
  simp only [commands, List.mem_append, List.mem_flatMap, List.mem_map, increments_eq,
    List.mem_singleton] at hc
  obtain (⟨b', -, g, -, rfl⟩ | ⟨b', -, rfl⟩) | rfl := hc
  · rfl
  · rfl
  · exact absurd ⟨b, t, hkey⟩ (activeKey_notMem_keys (P := P))

end Record

end Commands

section Run

namespace Recording

variable {rs : List Record} {es : List (ℕ × ℕ)} {s s' : Recording} {e : ℕ × ℕ} {clock : ℕ}
  {P : Tenant} {b : Bucket} {t : Time} {f : String}

theorem step_cases (h : step s e = some s') :
    ∃ r n c, s.calls[e.1]? = some (r, n) ∧ r.commands[n]? = some c ∧
      s' = ⟨s.calls.set e.1 (r, n + 1), s.log ++ [(e.2, c)]⟩ := by
  obtain ⟨⟨r, n⟩, hcall, h⟩ := Option.bind_eq_some_iff.mp h
  obtain ⟨c, hc, rfl⟩ := Option.map_eq_some_iff.mp h
  exact ⟨r, n, c, hcall, hc, rfl⟩

def added (key : Key) (f : String) (x : Record × ℕ) : ℤ :=
  ((x.1.commands.take x.2).map (Command.adds key f)).sum

theorem added_succ {r : Record} {n : ℕ} {c : Command} (hc : r.commands[n]? = some c) (key : Key) :
    added key f (r, n + 1) = added key f (r, n) + c.adds key f := by
  simp [added, List.take_add_one, hc]

theorem sum_map_set {α : Type} (g : α → ℤ) {l : List α} {k : ℕ} {x : α} (h : l[k]? = some x)
    (y : α) : ((l.set k y).map g).sum = (l.map g).sum + (g y - g x) := by
  obtain ⟨hk, rfl⟩ := List.getElem?_eq_some_iff.mp h
  rw [List.map_set, List.sum_set', dif_pos (by simpa using hk), List.getElem_map]
  omega

/-- However the pipelines interleave, the log has the commands that the calls
have got through. -/
theorem sum_log (h : exec step (start rs) es = some s) (key : Key) (f : String) :
    (s.log.map fun x ↦ x.2.adds key f).sum = (s.calls.map (added key f)).sum := by
  refine invariant (fun s ↦ (s.log.map fun x ↦ x.2.adds key f).sum =
    (s.calls.map (added key f)).sum) ?_ h ?_
  · intro s e s' ih h
    obtain ⟨r, n, c, hcall, hc, rfl⟩ := step_cases h
    rw [List.map_append, List.sum_append, ih, sum_map_set _ hcall, added_succ hc]
    simp
  · simp [start, added, Function.comp_def]

theorem mem_log (h : exec step (start rs) es = some s) :
    ∀ x ∈ s.log, ∃ r : Record, x.2 ∈ r.commands := by
  refine invariant (fun s ↦ ∀ x ∈ s.log, ∃ r : Record, x.2 ∈ r.commands) ?_ h (by simp [start])
  intro s e s' ih h x hx
  obtain ⟨r, n, c, -, hc, rfl⟩ := step_cases h
  rcases List.mem_append.mp hx with hx | hx
  · exact ih x hx
  · rw [List.mem_singleton.mp hx]
    exact ⟨r, List.mem_of_getElem? hc⟩

def count (s : Recording) (P : Tenant) (b : Bucket) (t : Time) (f : String) : ℤ :=
  (s.calls.map fun x ↦ if x.1.Matches P b t then ((x.1.counted b x.2).count f : ℤ) else 0).sum

theorem field_eq_count (h : exec step (start rs) es = some s) (halive : s.Alive clock P b t)
    (f : String) : s.store.field clock (P.key b t) f = s.count P b t f := by
  obtain ⟨hlog, hlive⟩ := halive
  have hzadd : ∀ x ∈ s.log, x.2.key = P.key b t → x.2.isZAdd = false := by
    intro x hx hkey
    obtain ⟨r, hr⟩ := mem_log h x hx
    exact Record.isZAdd_eq_false hr hkey
  rw [store, field_run hlog hzadd hlive, sum_log h, count]
  congr 1
  apply List.map_congr_left
  intro x _
  exact Record.sum_adds_commands

section Partition

/-- The keys of the smaller buckets share out the dispatches of a larger one. -/
theorem sum_count {m : ℕ} {b' : Bucket} {u : Fin m → Time} (k : Record → Fin m)
    (hu : ∀ r j, r.Matches P b (u j) ↔ r.Matches P b' t ∧ k r = j) :
    ∑ j, s.count P b (u j) f = (s.calls.map fun x ↦
      if x.1.Matches P b' t then ((x.1.counted b x.2).count f : ℤ) else 0).sum := by
  unfold count
  induction s.calls with
  | nil => simp
  | cons x calls ih =>
    simp only [List.map_cons, List.sum_cons, Finset.sum_add_distrib, ih]
    congr 1
    by_cases h : x.1.Matches P b' t
    · simp [hu, h]
    · simp [hu, h]

variable {m : ℕ} {b' : Bucket} {u : Fin m → Time} (k : Record → Fin m)

theorem count_le_sum (hb : b.index ≤ b'.index)
    (hu : ∀ r j, r.Matches P b (u j) ↔ r.Matches P b' t ∧ k r = j) :
    s.count P b' t f ≤ ∑ j, s.count P b (u j) f := by
  rw [sum_count k hu, count]
  apply List.sum_le_sum
  intro x _
  split
  · exact Int.ofNat_le.mpr (Record.count_counted_le hb)
  · exact le_rfl

theorem count_eq_sum (hs : s.Whole)
    (hu : ∀ r j, r.Matches P b (u j) ↔ r.Matches P b' t ∧ k r = j) :
    s.count P b' t f = ∑ j, s.count P b (u j) f := by
  rw [sum_count k hu, count]
  congr 1
  apply List.map_congr_left
  intro x hx
  rw [Record.counted_whole (hs x hx), Record.counted_whole (hs x hx)]

end Partition

theorem matches_window (r : Record) (j : Fin 12) :
    r.Matches P .fiveMin (t.window j) ↔ r.Matches P .oneHour t ∧
      (⟨r.time.minute / 5, by have := r.time.valid; omega⟩ : Fin 12) = j := by
  rw [Record.Matches, Record.Matches, stamp_fiveMin_eq_iff, Fin.ext_iff, and_assoc]

theorem matches_atHour (r : Record) (h : Fin 24) :
    r.Matches P .oneHour (t.atHour h) ↔
      r.Matches P .daily t ∧ (⟨r.time.hour, r.time.valid.2.2.1⟩ : Fin 24) = h := by
  rw [Record.Matches, Record.Matches, stamp_oneHour_eq_iff, Fin.ext_iff, and_assoc]

section Outcomes

theorem count_add (s : Recording) (P : Tenant) (b : Bucket) (t : Time) (f g : String) :
    s.count P b t f + s.count P b t g = (s.calls.map fun x ↦ if x.1.Matches P b t then
      (((x.1.counted b x.2).count f + (x.1.counted b x.2).count g : ℕ) : ℤ) else 0).sum := by
  rw [count, count, ← List.sum_map_add]
  congr 1
  apply List.map_congr_left
  intro x _
  split <;> simp

theorem outcomes_le : s.count P b t "success" + s.count P b t "fail" ≤ s.count P b t "total" := by
  rw [count_add, count]
  apply List.sum_le_sum
  intro x _
  split
  · exact Int.ofNat_le.mpr (Record.count_outcomes_le _)
  · exact le_rfl

theorem outcomes_eq (hs : s.Whole) :
    s.count P b t "success" + s.count P b t "fail" = s.count P b t "total" := by
  rw [count_add, count]
  congr 1
  apply List.map_congr_left
  intro x hx
  rw [Record.counted_whole (hs x hx)]
  split
  · split
    · rfl
    · rw [Record.count_outcomes]
  · rfl

theorem permanent_fail_le : s.count P b t "permanent_fail" ≤ s.count P b t "fail" := by
  apply List.sum_le_sum
  intro x _
  split
  · exact Int.ofNat_le.mpr (Record.count_permanent_fail_le _)
  · exact le_rfl

end Outcomes

/-- In any interleaving of pipelines, of which some may be cut off, the counters
of an hour or a day never exceed the sum of those of its windows or hours, nor
the outcomes the total, nor the permanent failures the failures. The sums are
exact if no pipeline has stopped in the middle. -/
theorem counters_add_up (h : exec step (start rs) es = some s) (clock : ℕ) (P : Tenant) :
    s.AddUp (· ≤ ·) clock P ∧ (s.Whole → s.AddUp (· = ·) clock P) ∧
      ∀ b t, s.Alive clock P b t →
        s.store.field clock (P.key b t) "permanent_fail" ≤
          s.store.field clock (P.key b t) "fail" := by
  refine ⟨⟨?_, ?_, ?_⟩, fun hs ↦ ⟨?_, ?_, ?_⟩, ?_⟩
  · intro t f halive hwindows
    simp only [field_eq_count h halive, field_eq_count h (hwindows _)]
    exact count_le_sum _ (by decide) matches_window
  · intro t f halive hhours
    simp only [field_eq_count h halive, field_eq_count h (hhours _)]
    exact count_le_sum _ (by decide) matches_atHour
  · intro b t halive
    simp only [field_eq_count h halive]
    exact outcomes_le
  · intro t f halive hwindows
    simp only [field_eq_count h halive, field_eq_count h (hwindows _)]
    exact count_eq_sum _ hs matches_window
  · intro t f halive hhours
    simp only [field_eq_count h halive, field_eq_count h (hhours _)]
    exact count_eq_sum _ hs matches_atHour
  · intro b t halive
    simp only [field_eq_count h halive]
    exact outcomes_eq hs
  · intro b t halive
    simp only [field_eq_count h halive]
    exact permanent_fail_le

def cutOff : Record := ⟨tenants.1, false, true, someTime⟩

def cutOffRecording : Recording := ⟨[(cutOff, 4)], [5, 5, 6, 6].zip cutOff.commands⟩

def refreshing : Record := ⟨tenants.1, true, false, someTime⟩

def refreshingRecording : Recording :=
  ⟨[(refreshing, 10), (refreshing, 10)],
    refreshing.commands.map (0, ·) ++ refreshing.commands.map (82800, ·)⟩

/-- The second recording is read when the first of its writes is older than the time to
live of the key. -/
theorem counters_add_up_cut_off :
    cutOffRecording.store.field 6 (tenants.1.key .oneHour someTime) "fail" ≤
      ∑ j, cutOffRecording.store.field 6 (tenants.1.key .fiveMin (someTime.window j)) "fail" ∧
    refreshingRecording.store.field 608400 (tenants.1.key .daily someTime) "success" +
        refreshingRecording.store.field 608400 (tenants.1.key .daily someTime) "fail" =
      refreshingRecording.store.field 608400 (tenants.1.key .daily someTime) "total" := by
  have h : exec step (start [cutOff]) [(0, 5), (0, 5), (0, 6), (0, 6)] =
    some cutOffRecording := rfl
  have h' : exec step (start [refreshing, refreshing])
      (List.replicate 10 (0, 0) ++ List.replicate 10 (1, 82800)) = some refreshingRecording := rfl
  have hwhole : refreshingRecording.Whole := by
    intro x hx
    obtain rfl : x = (refreshing, 10) := by simpa [refreshingRecording] using hx
    exact .inr rfl
  constructor
  · refine (counters_add_up h 6 tenants.1).1.hours someTime "fail" (by decide +kernel) ?_
    decide +kernel
  · exact ((counters_add_up h' 608400 tenants.1).2.1 hwhole).outcomes .daily someTime
      (by decide +kernel)

end Recording

end Run

end Fireworq.Stats
