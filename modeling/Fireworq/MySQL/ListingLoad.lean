import Fireworq.MySQL.Cluster
import Fireworq.MySQL.Listing

namespace Fireworq.MySQL.Inspector

open Relational GoInt Execution

def Stays (p : Row → Prop) (s : Cluster.State) (es : List Cluster.Event) (id : ℕ) : Prop :=
  ∀ xs u, xs <+: es → exec Cluster.step s xs = some u → ∃ r, u.table.find id = some r ∧ p r

/-- If a call with the events between its two queries returns no cursor, its
page has every job that it could have shown all the time. -/
def EndsComplete (json : Marshaler) (order : SortOrder) (s t : Cluster.State)
    (es : List Cluster.Event) (status : Status) (p : Row → Prop) [DecidablePred p] (limit : ℕ) :
    Prop :=
  ∀ page, findAllMeanwhile json order s.table.toTable t.table.toTable status p limit = some page →
    page.nextCursor = [] → ∀ id, Stays p s es id → ∃ j ∈ page.jobs, j.id = id

def hasStatus (status : Status) (s : Cluster.State) (id : ℕ) : Bool :=
  (s.table.find id).any fun r ↦ r.status = status

/-- An event takes the status from none of the jobs. -/
def Spares (status : Status) (ids : List ℕ) (s : Cluster.State) (e : Cluster.Event) : Prop :=
  ∀ id ∈ ids, hasStatus status s id = true →
    ∀ t ∈ Cluster.step s e, hasStatus status t id = true

instance (status : Status) (ids : List ℕ) (s : Cluster.State) (e : Cluster.Event) :
    Decidable (Spares status ids s e) :=
  inferInstanceAs (Decidable (∀ id ∈ ids, _ → ∀ t ∈ Cluster.step s e, _))

section Meanwhile

variable {json : Marshaler} {order : SortOrder} {T T₁ T₂ : Table Row.jobId} {s t : Cluster.State}
  {es : List Cluster.Event} {status : Status} {p : Row → Prop} [DecidablePred p] {limit id : ℕ}
  {ids : List ℕ}

theorem hasStatus_iff : hasStatus status s id = true ↔
    ∃ r, s.table.find id = some r ∧ r.status = status := by
  simp [hasStatus, Option.any_eq_true]

theorem finish_nextCursor {results : List InspectedJob} :
    (finish order limit results).nextCursor = [] ↔ results.length ≤ limit := by
  simp only [finish]
  split
  · have hlt := (List.getElem?_eq_some_iff.mp ‹_›).1
    rw [List.length_insertionSort] at hlt
    exact iff_of_false (encodeCursor_ne_nil _) (not_le.mpr hlt)
  · have hle := List.getElem?_eq_none_iff.mp ‹_›
    rw [List.length_insertionSort] at hle
    exact iff_of_true rfl hle

theorem mem_finish {results : List InspectedJob} {j : InspectedJob}
    (h : results.length ≤ limit) : j ∈ (finish order limit results).jobs ↔ j ∈ results := by
  have hnone : (results.insertionSort fun j₁ j₂ ↦ less order j₂ j₁ = false)[limit]? = none := by
    rw [List.getElem?_eq_none_iff, List.length_insertionSort]
    exact h
  simp only [finish, hnone, List.mem_insertionSort]

omit [DecidablePred p] in
theorem Stays.first (h : Stays p s es id) : ∃ r, s.table.find id = some r ∧ p r :=
  h [] s es.nil_prefix rfl

omit [DecidablePred p] in
theorem Stays.last (h : Stays p s es id) (ht : exec Cluster.step s es = some t) :
    ∃ r, t.table.find id = some r ∧ p r :=
  h es t List.prefix_rfl ht

theorem mem_remaining {r : Row} :
    r ∈ remaining status ids T ↔ r ∈ T.rows ∧ r.status = status ∧ r.jobId ∈ ids := by
  rw [remaining, List.mem_filter, decide_eq_true_eq, grabbedJobs]

theorem id_mem_remaining : id ∈ (remaining status ids T).map Row.jobId ↔
    id ∈ ids ∧ ∃ r, T.find id = some r ∧ r.status = status := by
  rw [List.mem_map]
  constructor
  · intro h
    obtain ⟨r, hr, hid⟩ := h
    obtain ⟨hr, hstatus, hids⟩ := mem_remaining.mp hr
    exact ⟨hid ▸ hids, r, hid ▸ Table.find_of_mem hr, hstatus⟩
  · intro h
    obtain ⟨hids, r, hfind, hstatus⟩ := h
    obtain ⟨hr, hid⟩ := Table.find_eq_some_iff.mp hfind
    exact ⟨r, mem_remaining.mpr ⟨hr, hstatus, hid ▸ hids⟩, hid⟩

theorem remaining_nodup : ((remaining status ids T).map Row.jobId).Nodup :=
  T.nodup.sublist (List.filter_sublist.map _)

theorem select_ids_nodup : ((select order p T.rows).map Row.jobId).Nodup :=
  ((List.perm_insertionSort _ _).map Row.jobId).nodup_iff.mpr
    (T.nodup.sublist (List.filter_sublist.map _))

theorem preselected_nodup : (preselected order T p limit).Nodup :=
  select_ids_nodup.sublist ((List.take_sublist _ _).map _)

theorem findAllMeanwhile_eq (hmake : makes 176 (uint64 (limit + 1))) :
    findAllMeanwhile json order T₁ T₂ status p limit =
      some (finish order limit
        ((remaining status (preselected order T₁ p limit) T₂).map (scan json))) := by
  have hmake' : makes 16 (uint64 (limit + 1)) := makes_of_le hmake (by decide)
  simp only [findAllMeanwhile, if_pos (And.intro hmake' hmake)]
  split
  · simp [‹preselected order T₁ p limit = []›, remaining, grabbedJobs, finish]
  · rfl

/-- What is left to show of a call that does not panic: with no more rows than its
limit in the second query, every job that matches all the time is preselected. -/
theorem endsComplete_iff_preselected (hp : ∀ r, p r → r.status = status)
    (hmake : makes 176 (uint64 (limit + 1))) (ht : exec Cluster.step s es = some t) :
    EndsComplete json order s t es status p limit ↔
      ((remaining status (preselected order s.table.toTable p limit) t.table.toTable).length ≤
        limit → ∀ id, Stays p s es id → id ∈ preselected order s.table.toTable p limit) := by
  simp only [EndsComplete, findAllMeanwhile_eq hmake, Option.some_inj, forall_eq',
    finish_nextCursor, List.length_map]
  refine forall_congr' fun hle ↦ forall₂_congr fun id hid ↦ ?_
  have hpage : (∃ j ∈ (finish order limit ((remaining status
      (preselected order s.table.toTable p limit) t.table.toTable).map (scan json))).jobs,
      j.id = id) ↔ id ∈ (remaining status (preselected order s.table.toTable p limit)
        t.table.toTable).map Row.jobId := by
    simp only [mem_finish (List.length_map (scan json) ▸ hle), List.mem_map]
    constructor
    · rintro ⟨j, ⟨r, hr, rfl⟩, hid⟩
      exact ⟨r, hr, hid⟩
    · rintro ⟨r, hr, hid⟩
      exact ⟨scan json r, ⟨r, hr, rfl⟩, hid⟩
  obtain ⟨r, hr, hpr⟩ := hid.last ht
  rw [hpage, id_mem_remaining]
  exact ⟨And.left, fun h ↦ ⟨h, r, hr, hp r hpr⟩⟩

theorem mem_preselected_of_length (h : (select order p T.rows).length ≤ uint64 (limit + 1))
    {r : Row} (hr : T.find id = some r) (hp : p r) : id ∈ preselected order T p limit := by
  obtain ⟨hmem, rfl⟩ := Table.find_eq_some_iff.mp hr
  rw [preselected, List.take_of_length_le h]
  exact List.mem_map_of_mem (mem_select.mpr ⟨hmem, hp⟩)

theorem hasStatus_of_spares (ht : exec Cluster.step s es = some t)
    (h : Along Cluster.step (Spares status ids) s es)
    (hs : ∀ id ∈ ids, hasStatus status s id = true) : ∀ id ∈ ids, hasStatus status t id = true := by
  refine Along.invariant (fun u ↦ ∀ id ∈ ids, hasStatus status u id = true) ?_ h ht hs
  intro u e v hu hspares hstep id hid
  exact hspares id hid (hu id hid) v hstep

theorem length_remaining_of_hasStatus (hids : ids.Nodup)
    (h : ∀ id ∈ ids, hasStatus status t id = true) :
    ids.length ≤ (remaining status ids t.table.toTable).length := by
  have hsub : ids ⊆ (remaining status ids t.table.toTable).map Row.jobId := by
    intro id hid
    exact id_mem_remaining.mpr ⟨hid, hasStatus_iff.mp (h id hid)⟩
  have hle := (List.subperm_of_subset hids hsub).length_le
  rwa [List.length_map] at hle

theorem not_mem_preselected {r : Row} (hr : r ∈ (select order p T.rows).drop (uint64 (limit + 1))) :
    r.jobId ∉ preselected order T p limit := by
  intro hmem
  have hnodup : (((select order p T.rows).take (uint64 (limit + 1))).map Row.jobId ++
      ((select order p T.rows).drop (uint64 (limit + 1))).map Row.jobId).Nodup := by
    rw [← List.map_append, List.take_append_drop]
    exact select_ids_nodup
  exact (List.nodup_append.mp hnodup).2.2 _ hmem _ (List.mem_map_of_mem hr) rfl

theorem remaining_delete_lt (hid : id ∈ ids) :
    (remaining status ids (T.delete id)).length < ids.length := by
  have hsub : (remaining status ids (T.delete id)).map Row.jobId ⊆ ids.erase id := by
    intro k hk
    obtain ⟨hids, r, hr, -⟩ := id_mem_remaining.mp hk
    obtain ⟨hmem, rfl⟩ := Table.find_eq_some_iff.mp hr
    exact (List.mem_erase_of_ne (Table.mem_delete.mp hmem).2).mpr hids
  have hle := (List.subperm_of_subset remaining_nodup hsub).length_le
  rw [List.length_map, List.length_erase_of_mem hid] at hle
  have hpos := List.length_pos_of_mem hid
  omega

theorem remaining_length_le : (remaining status ids T).length ≤ ids.length := by
  have hsub : (remaining status ids T).map Row.jobId ⊆ ids := fun _ hk ↦ (id_mem_remaining.mp hk).1
  have hle := (List.subperm_of_subset remaining_nodup hsub).length_le
  rwa [List.length_map] at hle

/-- If more jobs match than a call asks for, it may end before them: because its
limit has wrapped around, or if the inspector deletes one of the first ones. -/
theorem exists_not_endsComplete (json : Marshaler) (hp : ∀ r, p r → r.status = status)
    (hmake : makes 176 (uint64 (limit + 1))) (hidle : ∀ id, s.locks id = none)
    (hmore : uint64 (limit + 1) < (select order p s.table.rows).length) :
    ∃ es t, exec Cluster.step s es = some t ∧ ¬ EndsComplete json order s t es status p limit := by
  obtain ⟨r, hr⟩ : ∃ r, r ∈ (select order p s.table.rows).drop (uint64 (limit + 1)) :=
    List.exists_mem_of_length_pos (by rw [List.length_drop]; omega)
  have hnot := not_mem_preselected (T := s.table.toTable) hr
  obtain ⟨hmem, hpr⟩ := mem_select.mp (List.mem_of_mem_drop hr)
  have hlen : (preselected order s.table.toTable p limit).length = uint64 (limit + 1) := by
    rw [preselected, List.length_map, List.length_take]
    exact min_eq_left hmore.le
  by_cases hwrap : uint64 (limit + 1) ≤ limit
  · refine ⟨[], s, rfl, fun hends ↦ hnot ?_⟩
    refine (endsComplete_iff_preselected hp hmake rfl).mp hends ?_ r.jobId ?_
    · exact remaining_length_le.trans (hlen.le.trans hwrap)
    · intro xs u hxs hu
      cases List.prefix_nil.mp hxs
      cases hu
      exact ⟨r, Table.find_of_mem hmem, hpr⟩
  · obtain ⟨k, hk⟩ : ∃ k, k ∈ preselected order s.table.toTable p limit :=
      List.exists_mem_of_length_pos (by omega)
    have hstep : exec Cluster.step s [.inspectorDelete k] =
        some { s with table := s.table.delete k } := by
      simp only [exec, Cluster.step, Cluster.inspectorDelete, hidle, if_true, Option.bind_some]
    refine ⟨_, _, hstep, fun hends ↦ hnot ?_⟩
    refine (endsComplete_iff_preselected hp hmake hstep).mp hends ?_ r.jobId ?_
    · have hlt : (remaining status (preselected order s.table.toTable p limit)
          (s.table.delete k).toTable).length < _ := remaining_delete_lt hk
      dsimp only
      have hle : uint64 (limit + 1) ≤ limit + 1 := uint64_le (limit + 1)
      omega
    · have hne : r.jobId ≠ k := fun h ↦ hnot (h ▸ hk)
      intro xs u hxs hu
      refine ⟨r, ?_, hpr⟩
      rcases List.prefix_cons_iff.mp hxs with rfl | ⟨ys, rfl, hys⟩
      · cases hu
        exact Table.find_of_mem hmem
      · rw [List.prefix_nil.mp hys, hstep] at hu
        cases hu
        exact (AutoTable.find_delete ..).trans ((if_neg hne).trans (Table.find_of_mem hmem))

theorem endsComplete_of_panic (hmake : ¬ makes 176 (uint64 (limit + 1))) :
    EndsComplete json order s t es status p limit := by
  intro page hpage
  simp only [findAllMeanwhile, hmake, and_false, if_false] at hpage
  cases hpage

theorem endsComplete_of_length (hp : ∀ r, p r → r.status = status)
    (hmake : makes 176 (uint64 (limit + 1))) (ht : exec Cluster.step s es = some t)
    (h : (select order p s.table.rows).length ≤ uint64 (limit + 1)) :
    EndsComplete json order s t es status p limit := by
  refine (endsComplete_iff_preselected hp hmake ht).mpr fun _ id hid ↦ ?_
  obtain ⟨r, hr, hpr⟩ := hid.first
  exact mem_preselected_of_length h hr hpr

/-- If the first jobs keep the status, the extra row of the second query tells that
there are more. -/
theorem endsComplete_of_spares (hp : ∀ r, p r → r.status = status)
    (hmake : makes 176 (uint64 (limit + 1))) (hlimit : limit + 1 < 2 ^ 64)
    (ht : exec Cluster.step s es = some t)
    (h : Along Cluster.step
      (Spares status (((select order p s.table.rows).take (limit + 1)).map Row.jobId)) s es) :
    EndsComplete json order s t es status p limit := by
  have hu : uint64 (limit + 1) = limit + 1 := uint64_natCast (n := limit + 1) hlimit
  by_cases hlen : (select order p s.table.rows).length ≤ uint64 (limit + 1)
  · exact endsComplete_of_length hp hmake ht hlen
  · refine (endsComplete_iff_preselected hp hmake ht).mpr fun hle ↦ ?_
    have hids : preselected order s.table.toTable p limit =
        ((select order p s.table.rows).take (limit + 1)).map Row.jobId := by
      rw [preselected, hu]
    rw [← hids] at h
    have hs : ∀ id ∈ preselected order s.table.toTable p limit, hasStatus status s id = true := by
      intro id hid
      obtain ⟨r, hr, rfl⟩ := List.mem_map.mp hid
      obtain ⟨hmem, hpr⟩ := mem_select.mp (List.mem_of_mem_take hr)
      exact hasStatus_iff.mpr ⟨r, Table.find_of_mem hmem, hp r hpr⟩
    have hlower := length_remaining_of_hasStatus preselected_nodup (hasStatus_of_spares ht h hs)
    rw [hids, List.length_map, List.length_take, ← hids] at hlower
    omega

/-- A listing call ends complete if it panics, or if no more jobs match than it asks
for, or if no event takes the status from one of the first `limit + 1` jobs. If
neither of the first two is the case in a table without locks, then some events
make it end early. -/
theorem listing_ends_complete (json : Marshaler) (order : SortOrder) (s : Cluster.State)
    (status : Status) (minTime maxTime : ℤ) (limit : ℕ) (cursor : List UInt8) :
    (∀ es t, exec Cluster.step s es = some t →
      ¬ makes 176 (uint64 (limit + 1)) ∨
      (select order (restricts status minTime maxTime cursor order) s.table.rows).length ≤
        uint64 (limit + 1) ∨
      limit + 1 < 2 ^ 64 ∧ Along Cluster.step (Spares status
        (((select order (restricts status minTime maxTime cursor order) s.table.rows).take
          (limit + 1)).map Row.jobId)) s es →
      EndsComplete json order s t es status (restricts status minTime maxTime cursor order)
        limit) ∧
    ((∀ id, s.locks id = none) →
      ((∀ es t, exec Cluster.step s es = some t → EndsComplete json order s t es status
          (restricts status minTime maxTime cursor order) limit) ↔
        ¬ makes 176 (uint64 (limit + 1)) ∨
        (select order (restricts status minTime maxTime cursor order) s.table.rows).length ≤
          uint64 (limit + 1))) := by
  have hp (r : Row) : restricts status minTime maxTime cursor order r → r.status = status :=
    restricts_status
  by_cases hmake : makes 176 (uint64 (limit + 1))
  · refine ⟨fun es t ht h ↦ ?_, fun hidle ↦ ⟨fun h ↦ ?_, fun h es t ht ↦ ?_⟩⟩
    · rcases h with h | h | h
      · exact absurd hmake h
      · exact endsComplete_of_length hp hmake ht h
      · exact endsComplete_of_spares hp hmake h.1 ht h.2
    · by_contra hnot
      rw [not_or, not_not, not_le] at hnot
      obtain ⟨es, t, ht, hends⟩ := exists_not_endsComplete json hp hmake hidle hnot.2
      exact hends (h es t ht)
    · exact endsComplete_of_length hp hmake ht (h.resolve_left (not_not.mpr hmake))
  · exact ⟨fun _ _ _ _ ↦ endsComplete_of_panic hmake,
      fun _ ↦ iff_of_true (fun _ _ _ ↦ endsComplete_of_panic hmake) (.inl hmake)⟩

def resting : Cluster.State :=
  { Cluster.State.initial with table := ⟨aligned, 4, by decide⟩ }

def deletedFirst : Cluster.State := { resting with table := resting.table.delete 1 }

def deletedLast : Cluster.State := { resting with table := resting.table.delete 3 }

/-- A page of two jobs is the last one although the first job is deleted in the
meantime. The first page of one job points at the second job although the third
is deleted. -/
theorem listing_ends_complete_resting :
    exec Cluster.step resting [.inspectorDelete 1] = some deletedFirst ∧
      EndsComplete plain .asc resting deletedFirst [.inspectorDelete 1] .claimed
        (restricts .claimed 0 1000 [] .asc) 2 ∧
      exec Cluster.step resting [.inspectorDelete 3] = some deletedLast ∧
      EndsComplete plain .asc resting deletedLast [.inspectorDelete 3] .claimed
        (restricts .claimed 0 1000 [] .asc) 1 := by
  refine ⟨rfl, ?_, rfl, ?_⟩
  · exact (listing_ends_complete plain .asc resting .claimed 0 1000 2 []).1 _ _ rfl
      (.inr (.inl (by decide +kernel)))
  · exact (listing_ends_complete plain .asc resting .claimed 0 1000 1 []).1 _ _ rfl
      (.inr (.inr ⟨by decide, by decide +kernel⟩))

/-- The first job is deleted between the two queries of a listing with one job
a page. The listing ends with the second job and never shows the third. -/
theorem deleted_job_ends_listing :
    exec Cluster.step resting [.inspectorDelete 1] = some deletedFirst ∧
      findAllMeanwhile plain .asc resting.table.toTable deletedFirst.table.toTable .claimed
          (restricts .claimed 0 1000 [] .asc) 1 =
        some ⟨[scan plain (waitingRow 2 200 (by decide))], []⟩ ∧
      Stays (restricts .claimed 0 1000 [] .asc) resting [.inspectorDelete 1] 3 := by
  refine ⟨rfl, by decide +kernel, fun xs u hxs hu ↦ ⟨waitingRow 3 300 (by decide), ?_, ?_⟩⟩
  · obtain rfl | rfl : xs = [] ∨ xs = [.inspectorDelete 1] := by
      rcases List.prefix_cons_iff.mp hxs with h | ⟨ys, h, hys⟩
      · exact .inl h
      · rw [List.prefix_nil.mp hys] at h
        exact .inr h
    all_goals
      cases hu
      rfl
  · decide +kernel

end Meanwhile

end Fireworq.MySQL.Inspector
