import Fireworq.Repository.Calls

namespace Fireworq.Repository

open Execution

def FloatColumn.Keeps (col : FloatColumn) (r : ℚ) : Prop := ∀ x ∈ col.store r, x = r

instance (col : FloatColumn) (r : ℚ) : Decidable (col.Keeps r) :=
  inferInstanceAs (Decidable (∀ x ∈ col.store r, x = r))

def Call.adds : Call → Bool
  | .addQueue _ => true
  | _ => false

def Call.throttles : Call → Bool
  | .addThrottle _ _ => true
  | _ => false

/-- A call of `Add` or `DeleteByName` starts while no other is in progress on its
name, and an `Add` that has written its first row writes its second. -/
def Serial (col : FloatColumn) (s : State) : Event → Prop
  | .call (.addQueue q) => (∀ d ∈ s.calls, d.key ≠ some (.queue q.name)) ∧
    col.Keeps q.maxDispatchesPerSecond
  | .call (.deleteQueue name) => ∀ d ∈ s.calls, d.key ≠ some (.queue name)
  | .call _ | .exec _ => True
  | .fail k => ∀ c ∈ s.calls[k]?, c.throttles = false
  | .lose k => ∀ c ∈ s.calls[k]?, c.adds = false

instance (col : FloatColumn) (s : State) : (e : Event) → Decidable (Serial col s e)
  | .call (.addQueue _) => inferInstanceAs (Decidable ((∀ d ∈ s.calls, d.key ≠ _) ∧ _))
  | .call (.deleteQueue _) => inferInstanceAs (Decidable (∀ d ∈ s.calls, d.key ≠ _))
  | .call (.addThrottle _ _) | .call (.addRevision _) | .call (.deleteThrottle _)
  | .call (.deleteRevision _) | .call (.findQueue _) | .call (.findThrottle _) | .call .findQueues
  | .call (.findThrottles _) | .call (.routingExists _ _) | .call (.routingInsert _ _)
  | .call (.routingAddRevision _ _) | .call (.routingDelete _) | .call (.routingDeleteRevision _)
  | .exec _ => isTrue trivial
  | .fail k => inferInstanceAs (Decidable (∀ c ∈ s.calls[k]?, c.throttles = false))
  | .lose k => inferInstanceAs (Decidable (∀ c ∈ s.calls[k]?, c.adds = false))

variable {col : FloatColumn} {s s' : State} {e : Event} {es : List Event} {t t' : Tables}
  {c d : Call} {next : Call ⊕ Result} {xs ys : List Call} {name : String}

/-- The rows of the name are those of one `Add`, or the queue has no row. -/
def Whole (col : FloatColumn) (es : List Event) (t : Tables) (name : String) : Prop :=
  t.queue.lookup name = none ∨ ∃ q, .call (.addQueue q) ∈ es ∧ q.name = name ∧
    col.Keeps q.maxDispatchesPerSecond ∧ q.row = t.queue.lookup name ∧
    ∃ row, q.throttleRow col = some row ∧ t.queueThrottle.lookup name = some row

def Apart (c d : Call) : Prop := ∀ name, c.key = some (.queue name) → d.key ≠ some (.queue name)

structure Untorn (col : FloatColumn) (es : List Event) (s : State) : Prop where
  apart : s.calls.Pairwise Apart
  first : ∀ q, .addQueue q ∈ s.calls →
    .call (.addQueue q) ∈ es ∧ col.Keeps q.maxDispatchesPerSecond
  mid : ∀ q updated, .addThrottle q updated ∈ s.calls →
    .call (.addQueue q) ∈ es ∧ col.Keeps q.maxDispatchesPerSecond ∧
      q.row = s.tables.queue.lookup q.name
  gone : ∀ name, .deleteThrottle name ∈ s.calls → s.tables.queue.lookup name = none
  whole : ∀ name, (∀ q updated, .addThrottle q updated ∈ s.calls → q.name ≠ name) →
    Whole col es s.tables name

theorem apart_of_split (h : (xs ++ c :: ys).Pairwise Apart) (hκ : c.key = some (.queue name))
    (hd : d ∈ xs ∨ d ∈ ys) : d.key ≠ some (.queue name) := by
  rw [List.pairwise_append, List.pairwise_cons] at h
  rcases hd with hd | hd
  · intro hdκ
    exact h.2.2 d hd c List.mem_cons_self name hdκ hκ
  · exact h.2.1.1 d hd name hκ

theorem apart_succeed (h : (xs ++ c :: ys).Pairwise Apart)
    (hkey : ∀ c', next = .inl c' → c'.key = c.key) : (succeed xs next ys).Pairwise Apart := by
  cases next with
  | inl c' =>
    have hkey := hkey c' rfl
    simp only [succeed, Sum.elim_inl, List.append_assoc, List.singleton_append]
    rw [List.pairwise_append, List.pairwise_cons] at h ⊢
    refine ⟨h.1, ⟨fun d hd name hc' ↦ h.2.1.1 d hd name (hkey ▸ hc'), h.2.1.2⟩,
      fun d hd d' hd' ↦ ?_⟩
    rcases List.mem_cons.mp hd' with rfl | hd'
    · intro name hdκ
      rw [hkey]
      exact h.2.2 d hd c List.mem_cons_self name hdκ
    · exact h.2.2 d hd d' (List.mem_cons_of_mem _ hd')
  | inr r =>
    simp only [succeed, Sum.elim_inr, List.append_nil]
    rw [List.pairwise_append, List.pairwise_cons] at h
    exact List.pairwise_append.mpr
      ⟨h.1, h.2.1.2, fun d hd d' hd' ↦ h.2.2 d hd d' (List.mem_cons_of_mem _ hd')⟩

theorem Whole.mono {e : Event} (h : Whole col es t name) : Whole col (es ++ [e]) t name :=
  h.imp_right fun ⟨q, hq, hrest⟩ ↦ ⟨q, List.mem_append_left _ hq, hrest⟩

def Call.tracked : Call → Bool
  | .addQueue _ | .addThrottle _ _ | .deleteThrottle _ => true
  | _ => false

theorem Untorn.rest (hi : Untorn col es s) (hs : s.calls = xs ++ c :: ys)
    (hq : t.queue = s.tables.queue) (ht : t.queueThrottle = s.tables.queueThrottle)
    (hc : c.throttles = false)
    (hnext : ∀ c', next = .inl c' → c'.key = c.key ∧ c'.tracked = false) :
    Untorn col es (s.reply xs ys c t next) := by
  have hback {d : Call} (hmem : d ∈ succeed xs next ys) (hd : d.tracked = true) :
      d ∈ s.calls := by
    refine (mem_of_succeed hs hmem fun h ↦ ?_).2
    rw [(hnext d h).2] at hd
    cases hd
  refine ⟨apart_succeed (hs ▸ hi.apart) fun c' h ↦ (hnext c' h).1,
    fun q hmem ↦ hi.first q (hback hmem rfl), fun q updated hmem ↦ ?_, fun name hmem ↦ ?_,
    fun name hname ↦ ?_⟩
  · rw [State.reply, hq]
    exact hi.mid q updated (hback hmem rfl)
  · rw [State.reply, hq]
    exact hi.gone name (hback hmem rfl)
  · have hwhole := hi.whole name fun q updated hmem ↦
      hname q updated (mem_succeed_of_ne hs hmem (by rintro rfl; cases hc))
    simpa only [Whole, State.reply, hq, ht] using hwhole

theorem Untorn.addQueue {q : Queue} {row : QueueRow} {updated : Bool} (hi : Untorn col es s)
    (hs : s.calls = xs ++ .addQueue q :: ys) (hrow : q.row = some row) :
    Untorn col es (s.reply xs ys (.addQueue q)
      { s.tables with queue := (upsert s.tables.queue q.name row).1 }
      (.inl (.addThrottle q updated))) := by
  have hapart := hs ▸ hi.apart
  have hother {d : Call} (hd : d ∈ xs ∨ d ∈ ys) : d.key ≠ some (.queue q.name) :=
    apart_of_split hapart rfl hd
  refine ⟨apart_succeed hapart (by rintro _ ⟨⟩; rfl), fun q' hmem ↦ ?_, fun q' updated' hmem ↦ ?_,
    fun name hmem ↦ ?_, fun name hname ↦ ?_⟩
  · exact hi.first q' (mem_of_succeed hs hmem (by simp)).2
  · by_cases heq : Call.addThrottle q updated = .addThrottle q' updated'
    · cases heq
      obtain ⟨hes, hk⟩ := hi.first q (by rw [hs]; simp)
      exact ⟨hes, hk, hrow.trans lookup_upsert.symm⟩
    · obtain ⟨hd, hmem⟩ := mem_of_succeed hs hmem (by simpa using heq)
      obtain ⟨hes, hk, hrow'⟩ := hi.mid q' updated' hmem
      have hne : q'.name ≠ q.name := by simpa [Call.key] using hother hd
      exact ⟨hes, hk, hrow'.trans (lookup_upsert_ne hne).symm⟩
  · obtain ⟨hd, hmem⟩ := mem_of_succeed hs hmem (by simp)
    have hne : name ≠ q.name := by simpa [Call.key] using hother hd
    exact (lookup_upsert_ne hne).trans (hi.gone name hmem)
  · have hne : q.name ≠ name := hname q updated (mem_succeed.mpr (.inr (.inl rfl)))
    have hwhole := hi.whole name fun q' updated' hmem ↦
      hname q' updated' (mem_succeed_of_ne hs hmem (by simp))
    simpa only [Whole, State.reply, lookup_upsert_ne hne.symm] using hwhole

theorem mem_of_next {c' : Call} (hs : s.calls = xs ++ c :: ys)
    (hnext : next = .inl c' ∨ ∃ r, next = .inr r) (hmem : d ∈ succeed xs next ys) (hd : d ≠ c') :
    (d ∈ xs ∨ d ∈ ys) ∧ d ∈ s.calls := by
  refine mem_of_succeed hs hmem ?_
  rintro rfl
  rcases hnext with hnext | ⟨r, hnext⟩
  · exact hd (Sum.inl.inj hnext)
  · cases hnext

theorem Untorn.addThrottle {q : Queue} {row : ThrottleRow} {updated : Bool} (hi : Untorn col es s)
    (hs : s.calls = xs ++ .addThrottle q updated :: ys) (hrow : q.throttleRow col = some row)
    (ht : t.queue = s.tables.queue)
    (hthrottle : t.queueThrottle.lookup q.name = some row)
    (hne : ∀ name, name ≠ q.name →
      t.queueThrottle.lookup name = s.tables.queueThrottle.lookup name)
    (hnext : next = .inl (.addRevision q) ∨ ∃ r, next = .inr r) :
    Untorn col es (s.reply xs ys (.addThrottle q updated) t next) := by
  have hapart := hs ▸ hi.apart
  have hother {d : Call} (hd : d ∈ xs ∨ d ∈ ys) : d.key ≠ some (.queue q.name) :=
    apart_of_split hapart rfl hd
  have hback {d : Call} (hmem : d ∈ succeed xs next ys) (hd : d ≠ .addRevision q) :
      (d ∈ xs ∨ d ∈ ys) ∧ d ∈ s.calls := mem_of_next hs hnext hmem hd
  refine ⟨apart_succeed hapart ?_, fun q' hmem ↦ hi.first q' (hback hmem (by simp)).2,
    fun q' updated' hmem ↦ ?_, fun name hmem ↦ ?_, fun name hname ↦ ?_⟩
  · rintro c' rfl
    rcases hnext with hnext | ⟨r, hnext⟩ <;> cases hnext
    rfl
  · rw [State.reply, ht]
    exact hi.mid q' updated' (hback hmem (by simp)).2
  · rw [State.reply, ht]
    exact hi.gone name (hback hmem (by simp)).2
  · obtain ⟨hes, hk, hq⟩ := hi.mid q updated (by rw [hs]; simp)
    by_cases heq : name = q.name
    · subst heq
      exact .inr ⟨q, hes, rfl, hk, by rw [hq, State.reply, ht], row, hrow, hthrottle⟩
    · have hwhole := hi.whole name fun q' updated' hmem ↦ ?_
      · simpa only [Whole, State.reply, ht, hne name heq] using hwhole
      · by_cases hself : Call.addThrottle q' updated' = .addThrottle q updated
        · cases hself
          exact Ne.symm heq
        · exact hname q' updated' (mem_succeed_of_ne hs hmem hself)

theorem Untorn.deleteQueue (hi : Untorn col es s) (hs : s.calls = xs ++ .deleteQueue name :: ys)
    (hnext : next = .inl (.deleteThrottle name) ∨ ∃ r, next = .inr r) :
    Untorn col es (s.reply xs ys (.deleteQueue name)
      { s.tables with queue := s.tables.queue.erase name } next) := by
  have hapart := hs ▸ hi.apart
  have hother {d : Call} (hd : d ∈ xs ∨ d ∈ ys) : d.key ≠ some (.queue name) :=
    apart_of_split hapart rfl hd
  have hback {d : Call} (hmem : d ∈ succeed xs next ys) (hd : d ≠ .deleteThrottle name) :
      (d ∈ xs ∨ d ∈ ys) ∧ d ∈ s.calls := mem_of_next hs hnext hmem hd
  refine ⟨apart_succeed hapart ?_, fun q hmem ↦ hi.first q (hback hmem (by simp)).2,
    fun q updated hmem ↦ ?_, fun name' hmem ↦ ?_, fun name' hname ↦ ?_⟩
  · rintro c' rfl
    rcases hnext with hnext | ⟨r, hnext⟩ <;> cases hnext
    rfl
  · obtain ⟨hd, hmem⟩ := hback hmem (by simp)
    obtain ⟨hes, hk, hrow⟩ := hi.mid q updated hmem
    have hne : q.name ≠ name := by simpa [Call.key] using hother hd
    exact ⟨hes, hk, hrow.trans (AList.lookup_erase_ne hne).symm⟩
  · by_cases heq : name' = name
    · subst heq
      exact AList.lookup_erase _ _
    · exact (AList.lookup_erase_ne heq).trans (hi.gone name' (hback hmem (by simpa using heq)).2)
  · by_cases heq : name' = name
    · subst heq
      exact .inl (AList.lookup_erase _ _)
    · have hwhole := hi.whole name' fun q updated hmem ↦
        hname q updated (mem_succeed_of_ne hs hmem (by simp))
      simpa only [Whole, State.reply, AList.lookup_erase_ne heq] using hwhole

theorem Untorn.deleteThrottle (hi : Untorn col es s)
    (hs : s.calls = xs ++ .deleteThrottle name :: ys)
    (hnext : next = .inl (.deleteRevision name) ∨ ∃ r, next = .inr r) :
    Untorn col es (s.reply xs ys (.deleteThrottle name)
      { s.tables with queueThrottle := s.tables.queueThrottle.erase name } next) := by
  have hback {d : Call} (hmem : d ∈ succeed xs next ys) (hd : d ≠ .deleteRevision name) :
      d ∈ s.calls := (mem_of_next hs hnext hmem hd).2
  refine ⟨apart_succeed (hs ▸ hi.apart) ?_, fun q hmem ↦ hi.first q (hback hmem (by simp)),
    fun q updated hmem ↦ hi.mid q updated (hback hmem (by simp)),
    fun name' hmem ↦ hi.gone name' (hback hmem (by simp)), fun name' hname ↦ ?_⟩
  · rintro c' rfl
    rcases hnext with hnext | ⟨r, hnext⟩ <;> cases hnext
    rfl
  · by_cases heq : name' = name
    · subst heq
      exact .inl (hi.gone name' (by rw [hs]; simp))
    · have hwhole := hi.whole name' fun q updated hmem ↦
        hname q updated (mem_succeed_of_ne hs hmem (by simp))
      simpa only [Whole, State.reply, AList.lookup_erase_ne heq] using hwhole

/-- A statement with its effect, whether or not its answer gets lost. -/
theorem Untorn.statement (hi : Untorn col es s) (hs : s.calls = xs ++ c :: ys)
    (hx : Executes col s.tables c t next) {next' : Call ⊕ Result}
    (hnext : next' = next ∨ (∃ r, next' = .inr r) ∧ c.adds = false) :
    Untorn col es (s.reply xs ys c t next') := by
  have hor {c' : Call} (hc' : next = .inl c') : next' = .inl c' ∨ ∃ r, next' = .inr r := by
    rcases hnext with rfl | ⟨hr, -⟩
    · exact .inl hc'
    · exact .inr hr
  have hinr {r : Result} (hr : next = .inr r) : ∃ r, next' = .inr r := by
    rcases hnext with rfl | ⟨hr', -⟩
    · exact ⟨r, hr⟩
    · exact hr'
  have hrest (hq : t.queue = s.tables.queue) (ht : t.queueThrottle = s.tables.queueThrottle)
      (hc : c.throttles = false)
      (h : ∀ c', next = .inl c' → c'.tracked = false) :
      Untorn col es (s.reply xs ys c t next') := by
    refine hi.rest hs hq ht hc fun c' hc' ↦ ?_
    rcases hnext with rfl | ⟨⟨r, rfl⟩, -⟩
    · cases hc'
      exact ⟨hx.follow.1, h c' rfl⟩
    · cases hc'
  cases hx with
  | addQueue hrow =>
    rcases hnext with rfl | ⟨-, hne⟩
    · exact hi.addQueue hs hrow
    · cases hne
  | addThrottle hrow _ =>
    exact hi.addThrottle hs hrow rfl lookup_upsert (fun _ hne ↦ lookup_upsert_ne hne) (hor rfl)
  | addSame hrow hsame =>
    exact hi.addThrottle hs hrow rfl hsame (fun _ _ ↦ rfl) (.inr (hinr rfl))
  | deleteQueue => exact hi.deleteQueue hs (hor rfl)
  | deleteThrottle => exact hi.deleteThrottle hs (hor rfl)
  | _ => exact hrest rfl rfl rfl fun _ h ↦ by cases h <;> rfl

theorem Untorn.mono (hi : Untorn col es s) : Untorn col (es ++ [e]) s where
  apart := hi.apart
  first q hq := ⟨List.mem_append_left _ (hi.first q hq).1, (hi.first q hq).2⟩
  mid q updated hq := ⟨List.mem_append_left _ (hi.mid q updated hq).1, (hi.mid q updated hq).2⟩
  gone := hi.gone
  whole name hname := (hi.whole name hname).mono

theorem Untorn.call (hi : Untorn col (es ++ [.call c]) s) (hc : Serial col s (.call c))
    (hfirst : c.isFirst = true) :
    Untorn col (es ++ [.call c]) { s with calls := s.calls ++ [c] } := by
  have hback {d : Call} (hmem : d ∈ s.calls ++ [c]) (hd : d.isFirst = false) : d ∈ s.calls := by
    rcases List.mem_append.mp hmem with hmem | hmem
    · exact hmem
    · cases List.mem_singleton.mp hmem
      rw [hfirst] at hd
      cases hd
  refine ⟨?_, fun q hmem ↦ ?_, fun q updated hmem ↦ hi.mid q updated (hback hmem rfl),
    fun name hmem ↦ hi.gone name (hback hmem rfl),
    fun name hname ↦ hi.whole name fun q updated hmem ↦
      hname q updated (List.mem_append_left _ hmem)⟩
  · refine List.pairwise_append.mpr ⟨hi.apart, List.pairwise_singleton _ _, fun d hd d' hd' ↦ ?_⟩
    cases List.mem_singleton.mp hd'
    intro name hdκ hκ
    cases c with
    | addQueue q =>
      cases hκ
      exact hc.1 d hd hdκ
    | deleteQueue name =>
      cases hκ
      exact hc d hd hdκ
    | addThrottle | addRevision | deleteThrottle | deleteRevision => cases hfirst
    | _ => cases hκ
  · rcases List.mem_append.mp hmem with hmem | hmem
    · exact hi.first q hmem
    · cases List.mem_singleton.mp hmem
      exact ⟨by simp, hc.2⟩

theorem Untorn.step (hi : Untorn col es s) (hc : Serial col s e) (h : step col s e = some s') :
    Untorn col (es ++ [e]) s' := by
  have hi : Untorn col (es ++ [e]) s := hi.mono
  cases step_moves h with
  | call hfirst => exact hi.call hc hfirst
  | exec _ hs he => exact hi.statement hs (exec_executes he) (.inl rfl)
  | fail hk hs => exact hi.rest hs rfl rfl (hc _ hk) (by rintro _ ⟨⟩)
  | lose hk hs he =>
    exact hi.statement hs (exec_executes he) (.inr ⟨⟨_, rfl⟩, hc _ hk⟩)

theorem Run.untorn (h : Run col .empty es s)
    (hc : Along (Repository.step col) (Serial col) (.initial .empty) es) : Untorn col es s := by
  have hinit : Untorn col [] (.initial .empty) :=
    ⟨.nil, nofun, nofun, nofun, fun _ _ ↦ .inl rfl⟩
  refine history (fun xs u ↦ Along (Repository.step col) (Serial col) (.initial .empty) xs →
    Untorn col xs u) (fun _ ↦ hinit) (fun xs u e v hu ih hv hc ↦ ?_) h hc
  obtain ⟨hxs, he, -⟩ := hc.split hu
  exact (ih hxs).step he hv

theorem row_eq {q : Queue} {row : QueueRow} (h : q.row = some row) :
    row = ⟨q.pollingInterval, q.maxWorkers⟩ := by
  simp only [Queue.row, intUnsigned] at h
  split at h
  · split at h
    · cases h
      rfl
    · cases h
  · cases h

theorem throttleRow_eq {q : Queue} {row : ThrottleRow} (h : q.throttleRow col = some row)
    (hk : col.Keeps q.maxDispatchesPerSecond) :
    row = ⟨q.maxDispatchesPerSecond, q.maxBurstSize⟩ := by
  obtain ⟨x, hx, h⟩ := Option.bind_eq_some_iff.mp h
  simp only [intUnsigned] at h
  split at h
  · cases h
    rw [hk x hx]
  · cases h

theorem Whole.findByName {d : Queue} (hw : Whole col es t name) (h : t.findByName name = some d) :
    .call (.addQueue d) ∈ es := by
  obtain ⟨row, hrow, rfl⟩ := Option.map_eq_some_iff.mp h
  rcases hw with hnone | ⟨q, hes, rfl, hk, hq, trow, htrow, hlookup⟩
  · rw [hnone] at hrow
    cases hrow
  · have heq : t.withThrottle (Tables.ofRow q.name row) = q := by
      rw [row_eq (hq.trans hrow), Tables.withThrottle]
      simp only [Tables.ofRow, hlookup, throttleRow_eq htrow hk]
    rwa [heq]

def Queue.Ruled (q : Queue) : Prop :=
  (0 < q.maxDispatchesPerSecond → q.pollingInterval = 100 ∧ q.maxBurstSize ≠ 0) ∧
    (q.maxDispatchesPerSecond = 0 → q.maxBurstSize = 0)

instance (q : Queue) : Decidable q.Ruled := inferInstanceAs (Decidable (_ ∧ _))

/-- Without an overlap, a definition is what one `Add` was given. -/
theorem definition_untorn (h : Run col .empty es s)
    (hc : Along (step col) (Serial col) (.initial .empty) es) (hquiet : s.calls = []) {d : Queue}
    (hd : (∃ name, s.tables.findByName name = some d) ∨ d ∈ s.tables.findAll) :
    .call (.addQueue d) ∈ es ∧ ((∀ q, .call (.addQueue q) ∈ es → q.Ruled) → d.Ruled) := by
  have hfind : s.tables.findByName d.name = some d := by
    rcases hd with ⟨name, hname⟩ | hmem
    · rwa [Tables.findByName_name hname]
    · exact Tables.mem_findAll.mp hmem
  have hwhole := (h.untorn hc).whole d.name fun q updated hmem ↦ by
    rw [hquiet] at hmem
    cases hmem
  have hmem := hwhole.findByName hfind
  exact ⟨hmem, fun hruled ↦ hruled d hmem⟩

def throttled : Queue := ⟨"mail", 100, 2, 1, 5⟩

def unthrottled : Queue := ⟨"mail", 200, 4, 0, 0⟩

def oneByOne : List Event :=
  [.call (.addQueue throttled), .call (.addQueue ⟨"push", 100, 1, 0, 0⟩), .exec 1, .exec 0, .exec 0,
    .exec 1, .exec 0, .exec 0, .call (.deleteQueue "mail"), .exec 0, .fail 0,
    .call (.addQueue unthrottled), .exec 0, .exec 0, .exec 0]

theorem definition_untorn_one_by_one : ∃ s, Run .exact .empty oneByOne s ∧
    Along (step .exact) (Serial .exact) (.initial .empty) oneByOne ∧ s.calls = [] ∧
    s.tables.findByName "mail" = some unthrottled ∧ .call (.addQueue unthrottled) ∈ oneByOne := by
  obtain ⟨s, h, hs⟩ := Option.map_eq_some_iff.mp
    (show (exec (step .exact) (.initial .empty) oneByOne).map
      (fun s ↦ (s.calls, s.tables.findByName "mail")) = some ([], some unthrottled)
      by decide +kernel)
  simp only [Prod.mk.injEq] at hs
  have hc : Along (step .exact) (Serial .exact) (.initial .empty) oneByOne := by decide +kernel
  exact ⟨s, h, hc, hs.1, hs.2, (definition_untorn h hc hs.1 (.inl ⟨_, hs.2⟩)).1⟩

def overlap : List Event :=
  [.call (.addQueue throttled), .call (.addQueue unthrottled), .exec 0, .exec 1, .exec 1, .exec 0,
    .exec 0, .exec 0]

theorem overlap_tears_definition : ∃ s d, Run .exact .empty overlap s ∧ s.calls = [] ∧
    s.tables.findByName "mail" = some d ∧ .call (.addQueue d) ∉ overlap ∧
    (∀ q, .call (.addQueue q) ∈ overlap → q.Ruled) ∧ ¬ d.Ruled := by
  obtain ⟨s, h, hs⟩ := Option.map_eq_some_iff.mp
    (show (exec (step .exact) (.initial .empty) overlap).map
      (fun s ↦ (s.calls, s.tables.findByName "mail")) = some ([], some ⟨"mail", 200, 4, 1, 5⟩)
      by decide +kernel)
  simp only [Prod.mk.injEq] at hs
  refine ⟨s, _, h, hs.1, hs.2, by decide +kernel, fun q hq ↦ ?_, ?_⟩
  · simp only [overlap, List.mem_cons, Event.call.injEq, Call.addQueue.injEq, reduceCtorEq,
      List.not_mem_nil, or_false] at hq
    rcases hq with rfl | rfl <;> decide
  · decide

end Fireworq.Repository
