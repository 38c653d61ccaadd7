import Fireworq.MySQL.Grabbing

namespace Fireworq.MySQL.Pop

open Relational JobQueue Execution Cluster Function

inductive PopError
  | inactive
  | connectionClosed
  | database
  deriving DecidableEq

inductive RowFault
  | scan (i : ℕ)
  | read (i : ℕ)
  deriving DecidableEq

inductive Reply (ρ : Type)
  | refused
  | rows (out : List ρ) (fault : Option RowFault)
  deriving DecidableEq

section Rows

variable {ρ β : Type} {scan : β → ρ → β} {b : β}

/-- The loop over `rows.Next()` with the check of `rows.Err()` after it. -/
def readRows (scan : β → ρ → β) (b : β) : Option RowFault → List ρ → Except PopError β
  | none, [] | some (.scan _), [] => .ok b
  | none, r :: rows => readRows scan (scan b r) none rows
  | some (.scan 0), _ :: _ => .error .database
  | some (.scan (i + 1)), r :: rows => readRows scan (scan b r) (some (.scan i)) rows
  | some (.read 0), _ | some (.read (_ + 1)), [] => .error .database
  | some (.read (i + 1)), r :: rows => readRows scan (scan b r) (some (.read i)) rows

def Reply.read (scan : β → ρ → β) (b : β) : Reply ρ → Except PopError β
  | .refused => .error .database
  | .rows out fault => readRows scan b fault out

def RowFault.strikes (n : ℕ) : RowFault → Prop
  | .scan i => i < n
  | .read _ => True

instance (n : ℕ) : DecidablePred (RowFault.strikes n)
  | .scan i => inferInstanceAs (Decidable (i < n))
  | .read _ => inferInstanceAs (Decidable True)

def Reply.delivers (rows : List ρ) : Reply ρ → Prop
  | .refused => False
  | .rows out fault => out = rows ∧ ∀ f ∈ fault, ¬ f.strikes out.length

theorem readRows_eq (fault : Option RowFault) (rows : List ρ) :
    readRows scan b fault rows =
      if ∃ f ∈ fault, f.strikes rows.length then .error .database
      else .ok (rows.foldl scan b) := by
  induction rows generalizing b fault with
  | nil => rcases fault with - | (i | i | i) <;> simp [readRows, RowFault.strikes]
  | cons r rows ih =>
    rcases fault with - | ((- | i) | (- | i)) <;> simp [readRows, RowFault.strikes, ih]

theorem Reply.delivers.unique {reply : Reply ρ} {rows rows' : List ρ} (h : reply.delivers rows)
    (h' : reply.delivers rows') : rows' = rows := by
  cases reply with
  | refused => exact h.elim
  | rows out fault => exact h'.1.symm.trans h.1

theorem Reply.read_of_delivers {reply : Reply ρ} {rows : List ρ} (h : reply.delivers rows) :
    reply.read scan b = .ok (rows.foldl scan b) := by
  cases reply with
  | refused => exact h.elim
  | rows out fault =>
    obtain ⟨rfl, hf⟩ := h
    rw [Reply.read, readRows_eq, if_neg]
    rintro ⟨f, hmem, hs⟩
    exact hf f hmem hs

theorem Reply.read_cases (scan : β → ρ → β) (b : β) (reply : Reply ρ) :
    reply.read scan b = .error .database ∨
      ∃ rows, reply.delivers rows ∧ reply.read scan b = .ok (rows.foldl scan b) := by
  cases reply with
  | refused => exact .inl rfl
  | rows out fault =>
    rw [Reply.read, readRows_eq]
    split
    · exact .inl rfl
    · next h =>
      refine .inr ⟨out, ⟨rfl, fun f hf hs ↦ h ⟨f, hf, hs⟩⟩, rfl⟩

end Rows

theorem foldl_ids (ids : List ℕ) : ids.foldl (fun ids id ↦ ids ++ [id]) [] = ids := by
  rw [List.foldl_append_eq_append, List.nil_append, ← List.flatMap_def, List.flatMap_singleton']

def scanRow (acc : List ℕ × List Job × ℕ) (r : Row) : List ℕ × List Job × ℕ :=
  (acc.1.set acc.2.2 r.jobId, acc.2.1 ++ [Job.scan r], acc.2.2 + 1)

theorem foldl_scanRow (ids : List ℕ) (results : List Job) (i : ℕ) (rows : List Row) :
    rows.foldl scanRow (ids, results, i) =
      ((scanRows ids results i rows).1, (scanRows ids results i rows).2, i + rows.length) := by
  induction rows generalizing ids results i with
  | nil => rfl
  | cons r rows ih =>
    rw [List.foldl_cons, scanRow, ih, scanRows, List.length_cons]
    simp only [Prod.mk.injEq, true_and]
    omega

/-- How the call of `Commit` turns out. An error does not tell whether the
server has committed. -/
inductive CommitReply
  | ok
  | unacknowledged
  | rolledBack
  deriving DecidableEq

structure Tx where
  committed : JobTable
  written : JobTable

def Tx.begin (T : JobTable) : Tx := ⟨T, T⟩

theorem launchJobs_jobId (c : ℕ) (ids : List ℕ) (r : Row) :
    (launchJobs c ids r).jobId = r.jobId := jobId_of_fixed (launchJobs_fixed c ids r)

def Tx.launch (tx : Tx) (c : ℕ) (ids : List ℕ) : Tx :=
  { tx with written := tx.written.update (launchJobs c ids) (launchJobs_jobId c ids) }

def Tx.rollback (tx : Tx) : JobTable := tx.committed

def Tx.commit (tx : Tx) : CommitReply → JobTable
  | .ok | .unacknowledged => tx.written
  | .rolledBack => tx.committed

structure Replies where
  preselect : Reply ℕ
  beginTx : Bool
  select : Reply Row
  launch : Bool
  commit : CommitReply

/-- `sort.Slice` by the next try, which is not stable. -/
structure SortSlice where
  sort : List Job → List Job
  perm : ∀ l, (sort l).Perm l
  sorted : ∀ l, (sort l).Pairwise fun i j ↦ i.nextTry ≤ j.nextTry

/-- `Pop` from the start of its transaction. -/
def popTx (S : SortSlice) (session : Session) (re : Replies) (ids : List ℕ) (T : JobTable) :
    Except PopError (List Job) × JobTable :=
  if re.beginTx then
    let tx := Tx.begin T
    match re.select.read scanRow (ids, [], 0) with
    | .error e => (.error e, tx.rollback)
    | .ok (ids, results, _) =>
      if results.length ≤ 0 then (.ok results, tx.rollback)
      else if re.launch then
        let tx := tx.launch session.connectionId (ids.take results.length)
        -- The error of `Commit` is ignored.
        (.ok (S.sort results), tx.commit re.commit)
      else (.error .database, tx.rollback)
  else (.error .database, T)

/-- `Pop`, with the job table before and after it. -/
def pop (S : SortSlice) (active : Bool) (dbPop : Option Session) (re : Replies) (T : JobTable) :
    Except PopError (List Job) × JobTable :=
  if active then
    match dbPop with
    | none => (.error .connectionClosed, T)
    | some session =>
      match re.preselect.read (fun ids id ↦ ids ++ [id]) [] with
      | .error e => (.error e, T)
      | .ok ids => if ids.length ≤ 0 then (.ok [], T) else popTx S session re ids T
  else (.error .inactive, T)

def Replies.Sound (re : Replies) (T : JobTable) : Prop :=
  ∀ ids rows, re.preselect.delivers ids → re.select.delivers rows →
    Answer (grabbedJobs .claimed ids) T.rows rows

def Replies.ReachesCommit (re : Replies) : Prop :=
  ∃ ids rows, re.preselect.delivers ids ∧ ids ≠ [] ∧ re.beginTx = true ∧
    re.select.delivers rows ∧ rows ≠ [] ∧ re.launch = true

/-- Either an error and no change, or the jobs and exactly their rows grabbed. -/
structure AllOrNothing (dbPop : Option Session) (T : JobTable)
    (out : Except PopError (List Job) × JobTable) : Prop where
  error : ∀ e, out.1 = .error e → out.2 = T
  grabbed : ∀ jobs, out.1 = .ok jobs → ∀ id ∈ jobs.map Job.id, ∃ r, T.find id = some r ∧
    r.status = .claimed ∧ dbPop ≠ none ∧
    out.2.find id =
      some { r with status := .grabbed, grabberId := dbPop.map Session.connectionId }
  others : ∀ jobs, out.1 = .ok jobs → ∀ id, id ∉ jobs.map Job.id → out.2.find id = T.find id
  handed : ∀ jobs, out.1 = .ok jobs → ∀ j ∈ jobs, ∀ r, out.2.find j.id = some r →
    r.status ≠ .claimed

variable {S : SortSlice} {active : Bool} {dbPop : Option Session} {session : Session}
  {re : Replies} {T : JobTable} {ids : List ℕ} {rows : List Row}

theorem AllOrNothing.failed (e : PopError) : AllOrNothing dbPop T (.error e, T) :=
  ⟨fun _ _ ↦ rfl, nofun, nofun, nofun⟩

theorem AllOrNothing.nothing : AllOrNothing dbPop T (.ok [], T) := by
  refine ⟨nofun, ?_, fun _ _ _ _ ↦ rfl, ?_⟩ <;> rintro _ ⟨⟩ <;> simp

/-- What the transaction of `Pop` does when all rows can be read. -/
theorem popTx_of_delivers (hb : re.beginTx = true) (hs : re.select.delivers rows)
    (ha : Answer (grabbedJobs .claimed ids) T.rows rows) :
    popTx S session re ids T =
      if rows = [] then (.ok [], T)
      else if re.launch then (.ok (S.sort (rows.map Job.scan)),
        ((Tx.begin T).launch session.connectionId (rows.map Row.jobId)).commit re.commit)
      else (.error .database, T) := by
  obtain ⟨hres, hids, -, -⟩ := scan_answer ha
  rw [hres] at hids
  simp only [popTx, hb, if_true, Reply.read_of_delivers hs, foldl_scanRow, hres, hids]
  cases rows with
  | nil => rfl
  | cons r rows => rw [if_neg (by simp), if_neg (List.cons_ne_nil r rows)]; rfl

theorem AllOrNothing.launched (ha : Answer (grabbedJobs .claimed ids) T.rows rows) :
    AllOrNothing (some session) T (.ok (S.sort (rows.map Job.scan)),
      T.update (launchJobs session.connectionId (rows.map Row.jobId)) (launchJobs_jobId _ _)) := by
  have hjobs (id : ℕ) : id ∈ (S.sort (rows.map Job.scan)).map Job.id ↔ id ∈ rows.map Row.jobId := by
    rw [((S.perm _).map Job.id).mem_iff, List.map_map]
    rfl
  have hgrab : ∀ id ∈ (S.sort (rows.map Job.scan)).map Job.id, ∃ r, T.find id = some r ∧
      r.status = .claimed ∧
      (T.update (launchJobs session.connectionId (rows.map Row.jobId))
        (launchJobs_jobId _ _)).find id =
          some { r with status := .grabbed, grabberId := some session.connectionId } := by
    intro id hid
    have hmem := (hjobs id).mp hid
    obtain ⟨r, hr, rfl⟩ := List.mem_map.mp hmem
    obtain ⟨hrow, hst, -⟩ := ha.mem.mp hr
    refine ⟨r, Table.find_of_mem hrow, hst, ?_⟩
    rw [AutoTable.find_update, Table.find_of_mem hrow, Option.map_some, launchJobs, if_pos hmem]
  refine ⟨fun e he ↦ ?_, ?_, ?_, ?_⟩
  · cases he
  · rintro _ ⟨⟩ id hid
    obtain ⟨r, hr, hst, heq⟩ := hgrab id hid
    exact ⟨r, hr, hst, by simp, heq⟩
  · rintro _ ⟨⟩ id hid
    rw [hjobs] at hid
    change (T.update _ _).find id = _
    rw [AutoTable.find_update]
    cases h : T.find id with
    | none => rfl
    | some r => rw [Option.map_some, launchJobs, if_neg (by rwa [Table.find_key h])]
  · rintro _ ⟨⟩ j hj r hr
    obtain ⟨q, -, -, heq⟩ := hgrab j.id (List.mem_map_of_mem hj)
    cases hr.symm.trans heq
    intro hst
    cases hst

/-- Jobs whose update is rolled back are handed over as if they were grabbed. -/
theorem not_allOrNothing_of_rolledBack (ha : Answer (grabbedJobs .claimed ids) T.rows rows)
    (hr : rows ≠ []) : ¬ AllOrNothing dbPop T (.ok (S.sort (rows.map Job.scan)), T) := by
  intro h
  obtain ⟨r, hmem⟩ := List.exists_mem_of_ne_nil rows hr
  obtain ⟨hrow, hst, -⟩ := ha.mem.mp hmem
  have hj : Job.scan r ∈ S.sort (rows.map Job.scan) :=
    (S.perm _).mem_iff.mpr (List.mem_map_of_mem hmem)
  exact h.handed _ rfl _ hj r (Table.find_of_mem hrow) hst

theorem popTx_iff (hsound : ∀ rows, re.select.delivers rows →
      Answer (grabbedJobs .claimed ids) T.rows rows) :
    AllOrNothing (some session) T (popTx S session re ids T) ↔
      ¬ (re.beginTx = true ∧ (∃ rows, re.select.delivers rows ∧ rows ≠ []) ∧ re.launch = true ∧
        re.commit = .rolledBack) := by
  cases hb : re.beginTx with
  | false =>
    simp only [popTx, hb]
    exact iff_of_true (.failed _) nofun
  | true =>
    rcases Reply.read_cases scanRow (ids, [], 0) re.select with hread | ⟨rows, hrows, hread⟩
    · simp only [popTx, hb, if_true, hread]
      refine iff_of_true (.failed _) ?_
      rintro ⟨-, ⟨rows, hrows, -⟩, -⟩
      rw [Reply.read_of_delivers hrows] at hread
      cases hread
    have ha := hsound rows hrows
    rw [popTx_of_delivers hb hrows ha]
    by_cases hr : rows = []
    · rw [if_pos hr]
      refine iff_of_true .nothing ?_
      rintro ⟨-, ⟨rows', hrows', hne⟩, -⟩
      exact hne ((hrows.unique hrows').trans hr)
    rw [if_neg hr]
    cases hl : re.launch with
    | false => exact iff_of_true (.failed _) nofun
    | true =>
      cases hc : re.commit with
      | ok | unacknowledged => exact iff_of_true (.launched ha) nofun
      | rolledBack =>
        exact iff_of_false (not_allOrNothing_of_rolledBack ha hr) fun h ↦
          h ⟨rfl, ⟨rows, hrows, hr⟩, rfl, rfl⟩

/-- `Pop` is all or nothing unless its commit is rolled back. -/
theorem pop_allOrNothing_iff (hsound : re.Sound T) :
    AllOrNothing dbPop T (pop S active dbPop re T) ↔
      ¬ (active = true ∧ dbPop ≠ none ∧ re.ReachesCommit ∧ re.commit = .rolledBack) := by
  cases active with
  | false => exact iff_of_true (.failed _) nofun
  | true =>
    cases dbPop with
    | none => exact iff_of_true (.failed _) fun h ↦ h.2.1 rfl
    | some session =>
      rcases Reply.read_cases (fun ids id ↦ ids ++ [id]) [] re.preselect with
        hread | ⟨ids, hids, hread⟩
      · simp only [pop, if_true, hread]
        refine iff_of_true (.failed _) ?_
        rintro ⟨-, -, ⟨ids, rows, hids, -⟩, -⟩
        rw [Reply.read_of_delivers hids] at hread
        cases hread
      rw [foldl_ids] at hread
      cases ids with
      | nil =>
        simp only [pop, if_true, hread]
        refine iff_of_true .nothing ?_
        rintro ⟨-, -, ⟨ids, rows, hids', hne, -⟩, -⟩
        exact hne (hids.unique hids')
      | cons id ids =>
        have hpop : pop S true (some session) re T = popTx S session re (id :: ids) T := by
          simp only [pop, if_true, hread]
          exact if_neg (by simp)
        rw [hpop, popTx_iff fun rows ↦ hsound _ rows hids, not_iff_not]
        constructor
        · rintro ⟨hb, ⟨rows, hrows, hne⟩, hl, hc⟩
          exact ⟨rfl, by simp, ⟨_, rows, hids, by simp, hb, hrows, hne, hl⟩, hc⟩
        · rintro ⟨-, -, ⟨-, rows, -, -, hb, hrows, hne, hl⟩, hc⟩
          exact ⟨hb, ⟨rows, hrows, hne⟩, hl, hc⟩

def mergeSort : SortSlice where
  sort l := l.mergeSort fun i j ↦ i.nextTry ≤ j.nextTry
  perm l := List.mergeSort_perm l _
  sorted l := by
    have h : (l.mergeSort fun i j ↦ decide (i.nextTry ≤ j.nextTry)).Pairwise fun i j ↦
        decide (i.nextTry ≤ j.nextTry) = true :=
      List.pairwise_mergeSort (fun i j k ↦ by simpa using Nat.le_trans)
        (fun i j ↦ by simpa using Nat.le_total _ _) l
    simpa using h

def sampleTable : JobTable := (AutoTable.empty _).insert sampleRow

def lostCommit : Replies where
  preselect := .rows [1] none
  beginTx := true
  select := .rows [sampleRow] none
  launch := true
  commit := .rolledBack

theorem lostCommit_sound : lostCommit.Sound sampleTable := by
  rintro ids rows ⟨rfl, -⟩ ⟨rfl, -⟩
  decide

theorem pop_allOrNothing_iff_lostCommit :
    lostCommit.Sound sampleTable ∧
      (AllOrNothing (some ⟨0, 7⟩) sampleTable
          (pop mergeSort true (some ⟨0, 7⟩) lostCommit sampleTable) ↔
        ¬ (true = true ∧ some (⟨0, 7⟩ : Session) ≠ none ∧ lostCommit.ReachesCommit ∧
          lostCommit.commit = .rolledBack)) ∧
      AllOrNothing (some ⟨0, 7⟩) sampleTable
        (pop mergeSort true (some ⟨0, 7⟩) { lostCommit with commit := .unacknowledged }
          sampleTable) := by
  have hsound : Replies.Sound { lostCommit with commit := .unacknowledged } sampleTable :=
    lostCommit_sound
  exact ⟨lostCommit_sound, pop_allOrNothing_iff lostCommit_sound,
    (pop_allOrNothing_iff hsound).mpr fun h ↦ nomatch h.2.2.2⟩

/-- The commit fails, and `Pop` returns the job although its row is still
claimed. -/
theorem pop_hands_out_claimed :
    lostCommit.Sound sampleTable ∧
      pop mergeSort true (some ⟨0, 7⟩) lostCommit sampleTable =
        (.ok [Job.scan sampleRow], sampleTable) ∧
      (sampleTable.find 1).map Row.status = some .claimed ∧
      ¬ AllOrNothing (some ⟨0, 7⟩) sampleTable
        (pop mergeSort true (some ⟨0, 7⟩) lostCommit sampleTable) := by
  have hpop : pop mergeSort true (some ⟨0, 7⟩) lostCommit sampleTable =
      (.ok [Job.scan sampleRow], sampleTable) := by
    have hsort := List.perm_singleton.mp (mergeSort.perm [Job.scan sampleRow])
    rw [← hsort]
    rfl
  refine ⟨lostCommit_sound, hpop, by decide, fun h ↦ ?_⟩
  rw [hpop] at h
  exact h.handed _ rfl _ List.mem_cons_self sampleRow (by decide) rfl

section Steps

theorem publish_launched {c : ℕ} {r : Row} (hr : r ∈ T.rows) :
    publish ((T.rows.filter fun r ↦ r.jobId ∈ ids).map (launchJobs c ids)) r =
      launchJobs c ids r := by
  by_cases hid : r.jobId ∈ ids
  · have hmem : launchJobs c ids r ∈
        (T.rows.filter fun r ↦ r.jobId ∈ ids).map (launchJobs c ids) :=
      List.mem_map_of_mem (by simp [hr, hid])
    obtain ⟨q, hq⟩ := Option.isSome_iff_exists.mp (List.find?_isSome
      (p := fun q ↦ decide (q.jobId = r.jobId)).mpr
        ⟨_, hmem, by simpa using launchJobs_jobId c ids r⟩)
    have hkey : q.jobId = r.jobId := by simpa using List.find?_some hq
    obtain ⟨r', hr', rfl⟩ := List.mem_map.mp (List.mem_of_find?_eq_some hq)
    rw [launchJobs_jobId] at hkey
    rw [publish, hq, Option.getD_some,
      Table.eq_of_key (T := T.toTable) (List.mem_filter.mp hr').1 hr hkey]
  · rw [publish_of_not_mem, launchJobs, if_neg hid]
    rw [List.mem_map]
    rintro ⟨q, hq, hkey⟩
    obtain ⟨r', hr', rfl⟩ := List.mem_map.mp hq
    rw [launchJobs_jobId] at hkey
    have hr'' := (List.mem_filter.mp hr').2
    rw [hkey] at hr''
    exact hid (by simpa using hr'')

def ended (session : Session) : Except PopError (List Job) → PopPhase
  | .error _ => .failed
  | .ok jobs => .returned (jobs.map (Grab.mk session))

def Ends (s : State) (p : ℕ) (session : Session)
    (out : Except PopError (List Job) × JobTable) : Prop :=
  Leads step (fun e ↦ e.popCall = some p)
    (fun t ↦ t.phase p = some (ended session out.1) ∧ ∀ id, t.table.find id = out.2.find id) s

variable {s t : State} {p node limit : ℕ} {out : Except PopError (List Job) × JobTable}

theorem Ends.fail {c : PopCall} (hp : s.pops p = some c) (hc : c.phase.running = true)
    (e : PopError) : Ends s p session (.error e, s.table) := by
  have hstep : step s (.popFail p) = some ((s.setPop p c .failed).release p) := by
    simp only [step, popFail, hp, if_pos hc]
  exact .of_step hstep rfl (.here ⟨State.phase_of (update_self _ _ _) rfl, fun _ ↦ rfl⟩)

theorem Ends.none {ids' : List ℕ}
    (hp : s.pops p = some ⟨node, limit, .selected session ids' []⟩) :
    Ends s p session (.ok [], s.table) := by
  have hstep : step s (.popReturn p []) = some ((s.setPop p
      ⟨node, limit, .selected session ids' []⟩ (.returned [])).release p) := by
    simp only [step, popReturn, hp, if_true]
  exact .of_step hstep rfl (.here ⟨State.phase_of (update_self _ _ _) rfl, fun _ ↦ rfl⟩)

theorem Ends.sort {results : List Job}
    (hp : s.pops p = some ⟨node, limit, .committed session results⟩)
    (hT : ∀ id, s.table.find id = T.find id) :
    Ends s p session (.ok (S.sort results), T) := by
  have hstep : step s (.popReturn p (S.sort results)) =
      some { s.setPop p ⟨node, limit, .committed session results⟩
          (.returned ((S.sort results).map (Grab.mk session))) with
        held := s.held ++ (S.sort results).map (Grab.mk session) } := by
    simp only [step, popReturn, hp]
    exact if_pos ⟨S.perm results, S.sorted results⟩
  exact .of_step hstep rfl (.here ⟨State.phase_of (update_self _ _ _) rfl, hT⟩)

theorem Ends.commit {results : List Job} {pending : List Row}
    (hp : s.pops p = some ⟨node, limit, .launched session results pending⟩)
    (hs : s.sessions node = some session)
    (hT : ∀ id, (s.table.find id).map (publish pending) = T.find id) :
    Ends s p session (.ok (S.sort results), T) := by
  have hstep : step s (.commit p) =
      some { (s.setPop p ⟨node, limit, .launched session results pending⟩
          (.committed session results)).release p with
        table := s.table.update (publish pending) (publish_jobId pending)
        owner := fun id ↦ if id ∈ pending.map Row.jobId then some session else s.owner id } := by
    simp only [step, Cluster.commit, hp, if_pos hs]
  refine .of_step hstep rfl (Ends.sort (update_self _ _ _) fun id ↦ ?_)
  exact (AutoTable.find_update id).trans (hT id)

theorem Ends.commitLost {results : List Job} {pending : List Row}
    (hp : s.pops p = some ⟨node, limit, .launched session results pending⟩) :
    Ends s p session (.ok (S.sort results), s.table) := by
  have hstep : step s (.commitLost p) =
      some ((s.setPop p ⟨node, limit, .launched session results pending⟩
        (.committed session results)).release p) := by
    simp only [step, Cluster.commitLost, hp]
  exact .of_step hstep rfl (Ends.sort (update_self _ _ _) fun _ ↦ rfl)

theorem Ends.launch (hs : s.sessions node = some session) (hr : rows ≠ [])
    (hp : s.pops p = some
      ⟨node, limit, .selected session (rows.map Row.jobId) (rows.map Job.scan)⟩) :
    Ends s p session (.ok (S.sort (rows.map Job.scan)),
      ((Tx.begin s.table).launch session.connectionId (rows.map Row.jobId)).commit re.commit) := by
  have hstep : step s (.launch p) = some (s.setPop p
      ⟨node, limit, .selected session (rows.map Row.jobId) (rows.map Job.scan)⟩
      (.launched session (rows.map Job.scan)
        ((s.table.rows.filter fun r ↦ r.jobId ∈ rows.map Row.jobId).map
          (launchJobs session.connectionId (rows.map Row.jobId))))) := by
    obtain ⟨r, rows, rfl⟩ := List.exists_cons_of_ne_nil hr
    rw [List.map_cons, List.map_cons] at hp ⊢
    simp only [step, Cluster.launch, hp, if_pos hs]
  have hpub (id : ℕ) : (s.table.find id).map (publish ((s.table.rows.filter fun r ↦
      r.jobId ∈ rows.map Row.jobId).map
        (launchJobs session.connectionId (rows.map Row.jobId)))) =
      ((Tx.begin s.table).launch session.connectionId (rows.map Row.jobId)).written.find id := by
    refine Eq.trans (Option.map_congr fun r hr ↦ ?_) (AutoTable.find_update id).symm
    exact publish_launched (Table.find_eq_some_iff.mp hr).1
  refine .of_step hstep rfl ?_
  cases re.commit with
  | ok | unacknowledged => exact Ends.commit (update_self _ _ _) hs hpub
  | rolledBack => exact Ends.commitLost (update_self _ _ _)

theorem Ends.nothing (hp : s.pops p = some ⟨node, limit, .preselected []⟩) :
    Ends s p session (.ok [], s.table) := by
  have hstep : step s (.popReturn p []) =
      some (s.setPop p ⟨node, limit, .preselected []⟩ (.returned [])) := by
    simp only [step, popReturn, hp, if_true]
  exact .of_step hstep rfl (.here ⟨State.phase_of (update_self _ _ _) rfl, fun _ ↦ rfl⟩)

theorem preselect_step (hp : s.pops p = some ⟨node, limit, .started⟩)
    (ha : (ids.filterMap s.table.find).map Row.jobId = ids ∧
      TopAnswer (grabJobs s.now) (fun q r ↦ q.nextTry ≤ r.nextTry) limit s.table.rows
        (ids.filterMap s.table.find)) :
    step s (.preselect p ids) = some (s.setPop p ⟨node, limit, .started⟩ (.preselected ids)) := by
  simp only [step, preselect, hp]
  exact if_pos ha

theorem select_step (hp : s.pops p = some ⟨node, limit, .begun session ids⟩)
    (hs : s.sessions node = some session) (hfree : ∀ id ∈ ids, s.locks id = none)
    (ha : Answer (grabbedJobs .claimed ids) s.table.rows rows) :
    step s (.selectForUpdate p rows) = some { s.setPop p ⟨node, limit, .begun session ids⟩
        (.selected session (rows.map Row.jobId) (rows.map Job.scan)) with
      locks := fun id ↦ if id ∈ rows.map Row.jobId then some p else s.locks id } := by
  obtain ⟨hres, hids, -, -⟩ := scan_answer ha
  rw [hres] at hids
  simp only [step, selectForUpdate, hp]
  rw [if_pos ⟨hs, hfree, ha⟩, hres, hids]

/-- The transaction of `Pop` takes the steps of a call, from whatever state
the others have left since its preselection. -/
theorem popTx_ends (hp : s.pops p = some ⟨node, limit, .preselected ids⟩) (hne : ids ≠ [])
    (hs : s.sessions node = some session) (hfree : ∀ id ∈ ids, s.locks id = none)
    (hsound : ∀ rows, re.select.delivers rows →
      Answer (grabbedJobs .claimed ids) s.table.rows rows) :
    Ends s p session (popTx S session re ids s.table) := by
  obtain ⟨id, ids, rfl⟩ := List.exists_cons_of_ne_nil hne
  cases hb : re.beginTx with
  | false =>
    simp only [popTx, hb]
    exact Ends.fail hp rfl _
  | true =>
    have hbegin : step s (.beginTx p) =
        some (s.setPop p ⟨node, limit, .preselected (id :: ids)⟩ (.begun session (id :: ids))) := by
      simp only [step, beginTx, hp, hs, Option.map_some]
    refine .of_step hbegin rfl ?_
    rcases Reply.read_cases scanRow (id :: ids, [], 0) re.select with hread | ⟨rows, hrows, hread⟩
    · simp only [popTx, hb, if_true, hread]
      exact Ends.fail (update_self _ _ _) rfl _
    have ha := hsound rows hrows
    rw [popTx_of_delivers hb hrows ha]
    have hselect := select_step (s := s.setPop p ⟨node, limit, .preselected (id :: ids)⟩
      (.begun session (id :: ids))) (update_self _ _ _) hs hfree ha
    refine .of_step hselect rfl ?_
    by_cases hr : rows = []
    · subst hr
      exact Ends.none (update_self _ _ _)
    rw [if_neg hr]
    cases re.launch with
    | false => exact Ends.fail (update_self _ _ _) rfl _
    | true => exact Ends.launch hs hr (update_self _ _ _)

/-- `Pop` takes the steps of a call. -/
theorem pop_ends (hp : s.pops p = none) (hs : s.sessions node = some session)
    (hpre : ∀ ids, re.preselect.delivers ids →
      (ids.filterMap s.table.find).map Row.jobId = ids ∧
      TopAnswer (grabJobs s.now) (fun q r ↦ q.nextTry ≤ r.nextTry) limit s.table.rows
        (ids.filterMap s.table.find))
    (hfree : ∀ id, s.locks id = none) (hsound : re.Sound s.table) :
    Ends s p session (pop S true (some session) re s.table) := by
  have hstart : step s (.popStart p node limit) =
      some { s with pops := update s.pops p (some ⟨node, limit, .started⟩) } := by
    simp only [step, popStart, hp]
  refine .of_step hstart rfl ?_
  rcases Reply.read_cases (fun ids id ↦ ids ++ [id]) [] re.preselect with
    hread | ⟨ids, hids, hread⟩
  · simp only [pop, if_true, hread]
    exact Ends.fail (update_self _ _ _) rfl _
  rw [foldl_ids] at hread
  have hpreselect := preselect_step
    (s := { s with pops := update s.pops p (some ⟨node, limit, .started⟩) })
    (update_self _ _ _) (hpre ids hids)
  refine .of_step hpreselect rfl ?_
  simp only [pop, if_true, hread]
  cases ids with
  | nil => exact Ends.nothing (update_self _ _ _)
  | cons id ids =>
    rw [if_neg (by simp)]
    exact popTx_ends (update_self _ _ _) (by simp) hs (fun _ _ ↦ hfree _)
      fun rows ↦ hsound _ rows hids

end Steps

end Fireworq.MySQL.Pop
