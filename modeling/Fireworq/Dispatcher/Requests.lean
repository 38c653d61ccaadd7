import Fireworq.Dispatcher.Delivery
import Fireworq.JobQueue.Attempts

namespace Fireworq.Dispatcher.Requests

open JobQueue Refinement GoInt Delivery

/-- A request of `HTTPWorker.Work` and the timeout of its client, 0 for none. -/
structure Request where
  method : String
  url : String
  body : String
  contentType : String
  userAgent : String
  xAttempt : List UInt8
  timeout : ℤ
  deriving DecidableEq

def post (userAgent url payload : String) (timeout failCount : ℕ) : Request where
  method := "POST"
  url := url
  body := payload
  contentType := "application/json"
  userAgent := userAgent
  xAttempt := xAttempt failCount
  timeout := int64 (int64 timeout * 10 ^ 9)

def request (userAgent : String) (j : Spec.Job) : Request :=
  post userAgent j.url j.payload j.timeout j.failCount

def tried (key : ℕ) (ls : List Spec.Label) : ℕ :=
  ls.countP fun
    | .complete j _ => j.key = key
    | _ => false

structure Stems (ls : List Spec.Label) (i : IncomingJob) (j : Spec.Job) : Prop where
  category : j.category = i.category
  url : j.url = i.url
  payload : j.payload = i.payload
  timeout : j.timeout = i.timeout
  retryDelay : j.retryDelay = i.retryDelay
  failureUrl : j.failureUrl = i.failureUrl
  failCount : j.failCount = tried j.key ls
  retryCount : j.retryCount + j.failCount = i.retryCount

structure History (ls : List Spec.Label) (s : Spec.State) : Prop where
  keys : Spec.KeyInv s
  pushed : ∀ i key id, .push i key id ∈ ls → key ∈ s.used
  completed : ∀ j res, .complete j res ∈ ls → j.key ∈ s.used
  origin : ∀ j ∈ s.jobs, ∃ i id, .push i j.key id ∈ ls
  stems : ∀ j ∈ s.jobs, ∀ i id, .push i j.key id ∈ ls → Stems ls i j

section History

variable {s t : Spec.State} {l : Spec.Label} {ls : List Spec.Label} {i : IncomingJob} {j : Spec.Job}
  {key : ℕ}

theorem tried_append (key : ℕ) (ls : List Spec.Label) (l : Spec.Label) :
    tried key (ls ++ [l]) = tried key ls + tried key [l] := List.countP_append

theorem Stems.of_other (h : Stems ls i j) (hl : tried j.key [l] = 0) : Stems (ls ++ [l]) i j :=
  { h with failCount := by rw [tried_append, hl]; exact h.failCount }

theorem Stems.retry {res : Result} (h : Stems ls i j)
    (hr : completion res j.retryCount = .retry) (now : ℕ) :
    Stems (ls ++ [.complete j res]) i (j.retry now) := by
  have hpos := retryCount_pos hr
  have hcount := h.retryCount
  have htried : tried j.key [.complete j res] = 1 := by simp [tried]
  constructor
  · rw [Spec.Job.retry, h.category]
  · rw [Spec.Job.retry, h.url]
  · rw [Spec.Job.retry, h.payload]
  · rw [Spec.Job.retry, h.timeout]
  · rw [Spec.Job.retry, h.retryDelay]
  · rw [Spec.Job.retry, h.failureUrl]
  · rw [tried_append, Spec.Job.retry_key, htried, ← h.failCount, Spec.Job.retry]
  · simp only [Spec.Job.retry]
    omega

theorem History.initial : History [] .initial where
  keys := .initial
  pushed := by simp
  completed := by simp
  origin := by simp [Spec.State.jobs, Spec.State.initial]
  stems := by simp

theorem tried_eq_zero (h : ∀ j res, .complete j res ∈ ls → j.key ≠ key) : tried key ls = 0 := by
  refine List.countP_eq_zero.mpr fun l hl ↦ ?_
  cases l with
  | complete j res => simpa using h j res hl
  | _ => simp

theorem History.other (h : History ls s) (hj : j ∈ s.jobs) (htried : tried j.key [l] = 0)
    (hpush : ∀ i key id, l = .push i key id → key ∉ s.used) (id : ℕ)
    (hmem : .push i j.key id ∈ ls ++ [l]) : Stems (ls ++ [l]) i j := by
  rcases List.mem_append.mp hmem with hmem | hmem
  · exact (h.stems j hj i id hmem).of_other htried
  · exact absurd (h.keys.used j hj) (hpush i _ id (List.mem_singleton.mp hmem).symm)

theorem History.quiet (h : History ls s) (hs : Spec.Steps s l t)
    (hpush : ∀ i key id, l ≠ .push i key id) (hcomplete : ∀ j res, l ≠ .complete j res) :
    History (ls ++ [l]) t := by
  obtain ⟨hjobs, hused⟩ : t.jobs = s.jobs ∧ t.used = s.used := by
    rcases Spec.jobs_step hs with ⟨i, key, id, rfl, -⟩ |
      ⟨hused, hjobs | ⟨j, res, rfl, -⟩ | ⟨j, res, rfl, -⟩⟩
    · exact absurd rfl (hpush i key id)
    · exact ⟨hjobs, hused⟩
    · exact absurd rfl (hcomplete j res)
    · exact absurd rfl (hcomplete j res)
  have hold {l' : Spec.Label} (hne : l' ≠ l) (hmem : l' ∈ ls ++ [l]) : l' ∈ ls := by
    rcases List.mem_append.mp hmem with hmem | hmem
    · exact hmem
    · exact absurd (List.mem_singleton.mp hmem) hne
  have htried : ∀ key, tried key [l] = 0 := fun key ↦ tried_eq_zero fun j res hmem ↦
    absurd (List.mem_singleton.mp hmem).symm (hcomplete j res)
  refine ⟨h.keys.step hs, fun i key id hmem ↦ ?_, fun j res hmem ↦ ?_, fun j hj ↦ ?_,
    fun j hj i id hmem ↦ ?_⟩
  · rw [hused]
    exact h.pushed i key id (hold (hpush i key id).symm hmem)
  · rw [hused]
    exact h.completed j res (hold (hcomplete j res).symm hmem)
  · obtain ⟨i, id, hmem⟩ := h.origin j (hjobs ▸ hj)
    exact ⟨i, id, List.mem_append_left _ hmem⟩
  · exact h.other (hjobs ▸ hj) (htried j.key) (fun i key id hl ↦ absurd hl (hpush i key id)) id hmem

theorem History.push {id : ℕ} (h : History ls s) (hs : Spec.Steps s (.push i key id) t) :
    History (ls ++ [.push i key id]) t := by
  have hkeys := h.keys.step hs
  cases hs with
  | push hkey =>
    have htried : ∀ key', tried key' [.push i key id] = 0 := fun key' ↦ rfl
    refine ⟨hkeys, fun i' key' id' hmem ↦ ?_, fun j res hmem ↦ ?_, fun j hj ↦ ?_,
      fun j hj i' id' hmem ↦ ?_⟩
    · rcases List.mem_append.mp hmem with hmem | hmem
      · exact Set.mem_insert_of_mem key (h.pushed i' key' id' hmem)
      · cases List.mem_singleton.mp hmem
        exact Set.mem_insert key s.used
    · rcases List.mem_append.mp hmem with hmem | hmem
      · exact Set.mem_insert_of_mem key (h.completed j res hmem)
      · cases List.mem_singleton.mp hmem
    · rw [Spec.State.jobs, Multiset.cons_add, Multiset.mem_cons] at hj
      rcases hj with rfl | hj
      · exact ⟨i, id, by simp⟩
      · obtain ⟨i', id', hmem⟩ := h.origin j hj
        exact ⟨i', id', List.mem_append_left _ hmem⟩
    · rw [Spec.State.jobs, Multiset.cons_add, Multiset.mem_cons] at hj
      rcases hj with rfl | hj
      · have hnone : tried key ls = 0 := tried_eq_zero fun k res hk hkey' ↦
          hkey (hkey' ▸ h.completed k res hk)
        have hi : i' = i := by
          rcases List.mem_append.mp hmem with hmem | hmem
          · exact absurd (h.pushed i' _ id' hmem) hkey
          · cases List.mem_singleton.mp hmem
            rfl
        subst hi
        refine ⟨rfl, rfl, rfl, rfl, rfl, rfl, ?_, rfl⟩
        rw [tried_append, Spec.accept_key, hnone, htried]
        rfl
      · exact h.other hj (htried j.key) (fun _ _ _ hl ↦ by cases hl; exact hkey) id' hmem

theorem History.complete {res : Result} (h : History ls s)
    (hs : Spec.Steps s (.complete j res) t) : History (ls ++ [.complete j res]) t := by
  have hkeys := h.keys.step hs
  have hj : j ∈ s.held := by
    cases hs <;> assumption
  have hused : t.used = s.used := by
    cases hs <;> rfl
  have hjobs : s.jobs = j ::ₘ (s.waiting + s.held.erase j) := by
    rw [← Multiset.add_cons, Multiset.cons_erase hj, Spec.State.jobs]
  have hcase : ∀ k ∈ t.jobs, k ∈ s.waiting + s.held.erase j ∨
      k = j.retry s.now ∧ completion res j.retryCount = .retry := by
    intro k hk
    cases hs with
    | retry _ hr =>
      rw [Spec.State.jobs, Multiset.cons_add, Multiset.mem_cons] at hk
      exact hk.symm.imp_right fun hk ↦ ⟨hk, hr⟩
    | delete => exact .inl hk
  have hmem : j ∈ s.jobs := hjobs ▸ Multiset.mem_cons_self _ _
  have hrest : ∀ k ∈ s.waiting + s.held.erase j, k ∈ s.jobs ∧ k.key ≠ j.key := by
    intro k hk
    refine ⟨hjobs ▸ Multiset.mem_cons_of_mem hk, fun hkey ↦ ?_⟩
    have hnodup := h.keys.nodup
    rw [hjobs, Multiset.map_cons, Multiset.nodup_cons] at hnodup
    exact hnodup.1 (hkey ▸ Multiset.mem_map_of_mem _ hk)
  have hold {i : IncomingJob} {key id : ℕ} (hp : .push i key id ∈ ls ++ [.complete j res]) :
      .push i key id ∈ ls := by
    simpa using hp
  refine ⟨hkeys, fun i key id hp ↦ ?_, fun k res' hk ↦ ?_, fun k hk ↦ ?_, fun k hk i id hp ↦ ?_⟩
  · rw [hused]
    exact h.pushed i key id (hold hp)
  · rw [hused]
    rcases List.mem_append.mp hk with hk | hk
    · exact h.completed k res' hk
    · cases List.mem_singleton.mp hk
      exact h.keys.used _ hmem
  · have horigin : ∃ i id, .push i k.key id ∈ ls := by
      rcases hcase k hk with hk | ⟨rfl, -⟩
      · exact h.origin k (hrest k hk).1
      · rw [Spec.Job.retry_key]
        exact h.origin j hmem
    obtain ⟨i, id, hp⟩ := horigin
    exact ⟨i, id, List.mem_append_left _ hp⟩
  · rcases hcase k hk with hk | ⟨rfl, hr⟩
    · have htried : tried k.key [.complete j res] = 0 := tried_eq_zero fun k' _ hk' ↦ by
        cases List.mem_singleton.mp hk'
        exact (hrest k hk).2.symm
      exact (h.stems k (hrest k hk).1 i id (hold hp)).of_other htried
    · rw [Spec.Job.retry_key] at hp
      exact (h.stems j hmem i id (hold hp)).retry hr s.now

theorem History.step (h : History ls s) (hs : Spec.Steps s l t) : History (ls ++ [l]) t := by
  cases l with
  | tick => exact h.quiet hs (by simp) (by simp)
  | push => exact h.push hs
  | pop => exact h.quiet hs (by simp) (by simp)
  | complete => exact h.complete hs

theorem Stems.request_eq (h : Stems ls i j) (userAgent : String) :
    request userAgent j = post userAgent i.url i.payload i.timeout (tried j.key ls) := by
  rw [request, h.url, h.payload, h.timeout, h.failCount]

end History

variable {σ : Type}

/-- Every worker that has a job makes the request for a job that a client has
pushed, numbered by the attempts so far. -/
structure Faithful (userAgent : String) (as : List Action) (d : State Spec.Job) : Prop where
  pushed : ∀ w ∈ d.workers, w.holds → ∀ j, d.popped[w.job]? = some j →
    ∃ i id, .client (.push i j.key id) ∈ as
  request : ∀ w ∈ d.workers, w.holds → ∀ j, d.popped[w.job]? = some j →
    ∀ i id, .client (.push i j.key id) ∈ as →
      request userAgent j = post userAgent i.url i.payload i.timeout
        (tried j.key (as.filterMap Action.label)) ∧
      tried j.key (as.filterMap Action.label) ≤ i.retryCount

theorem client_push_mem {as : List Action} {i : IncomingJob} {key id : ℕ} :
    .push i key id ∈ as.filterMap Action.label ↔ .client (.push i key id) ∈ as := by
  constructor
  · intro hmem
    obtain ⟨a, ha, hlabel⟩ := List.mem_filterMap.mp hmem
    cases a with
    | client l =>
      cases hlabel
      exact ha
    | pop | complete | alone => cases hlabel
  · intro hmem
    exact List.mem_filterMap.mpr ⟨_, hmem, rfl⟩

theorem faithful_of_simulates {R : σ → Spec.Label → σ → Prop} {Rel : σ → Spec.State → Prop}
    {cfg : Config} (hsim : Simulates R Spec.Steps Rel) {s₀ : σ} (h₀ : Rel s₀ .initial)
    {as : List Action} {n : Node σ} (h : Trace (Steps R cfg) ⟨s₀, .initial⟩ as n)
    (userAgent : String) : Faithful userAgent as n.dispatcher := by
  obtain ⟨⟨a, d⟩, ha, -, rfl⟩ := (simulates_node hsim).trace h (a := ⟨.initial, .initial⟩) ⟨h₀, rfl⟩
  have hinv := ha.invariant (Inv cfg) (fun _ _ _ ↦ Inv.step) (.initial cfg)
  have hhistory : History (as.filterMap Action.label) a :=
    (trace_queue ha).history History (fun _ _ _ _ ↦ History.step) .initial
  have hjob {w : Worker} (hw : w ∈ n.dispatcher.workers) (hholds : w.holds) {j : Spec.Job}
      (hj : n.dispatcher.popped[w.job]? = some j) : j ∈ a.jobs := by
    obtain ⟨j', hj', hpopped⟩ := hinv.delivers.mine w hw hholds
    rw [hj] at hpopped
    cases hpopped
    exact Multiset.mem_add.mpr (.inr hj')
  refine ⟨fun w hw hholds j hj ↦ ?_, fun w hw hholds j hj i id hpush ↦ ?_⟩
  · obtain ⟨i, id, hpush⟩ := hhistory.origin j (hjob hw hholds hj)
    exact ⟨i, id, client_push_mem.mp hpush⟩
  · have hstems := hhistory.stems j (hjob hw hholds hj) i id (client_push_mem.mpr hpush)
    refine ⟨hstems.request_eq userAgent, ?_⟩
    have hcount := hstems.retryCount
    have hfail := hstems.failCount
    omega

/-- The requests of the workers of a node with either driver, whose operations succeed
and have delays that do not wrap around. -/
theorem requests_faithful {node connectionId : ℕ} {s₀ : MySQL.Cluster.State} {cfg : Config}
    (hc : MySQL.Cluster.step .initial (.connect node connectionId) = some s₀)
    (userAgent : String) :
    (∀ as n, Trace (Steps (fun s l t ↦ l.InRange s.now ∧ InMemory.Does s l t) cfg)
        ⟨.initial, .initial⟩ as n → Faithful userAgent as n.dispatcher) ∧
    ∀ as n, Trace (Steps (fun s l t ↦ l.InRange s.now ∧ MySQL.Cluster.Does node s l t) cfg)
        ⟨s₀, .initial⟩ as n → Faithful userAgent as n.dispatcher :=
  ⟨fun _ _ h ↦ faithful_of_simulates InMemory.simulates .initial h userAgent,
    fun _ _ h ↦ faithful_of_simulates (MySQL.Cluster.simulates node) (.initial hc) h userAgent⟩

theorem requests_faithful_attempt : ∃ s₀ n m,
    MySQL.Cluster.step .initial (.connect 0 7) = some s₀ ∧
    Trace (Steps (fun s l t ↦ l.InRange s.now ∧ InMemory.Does s l t) ⟨10, 2⟩)
      ⟨.initial, .initial⟩ (attempt 0) n ∧
    n.dispatcher.workers = [⟨0, .working⟩] ∧
    Faithful "Fireworq/1.6.18-vmx" (attempt 0) n.dispatcher ∧
    Trace (Steps (fun s l t ↦ l.InRange s.now ∧ MySQL.Cluster.Does 0 s l t) ⟨10, 2⟩)
      ⟨s₀, .initial⟩ (attempt 1) m ∧
    m.dispatcher.workers = [⟨0, .working⟩] ∧
    Faithful "Fireworq/1.6.18-vmx" (attempt 1) m.dispatcher := by
  obtain ⟨s, hs⟩ := JobQueue.inMemory_tries
  obtain ⟨s₀, s', hc, hs'⟩ := JobQueue.mysql_tries
  obtain ⟨n, -, hn, hattempting, -⟩ := node_attempts hs
  obtain ⟨m, -, hm, hattempting', -⟩ := node_attempts hs'
  refine ⟨s₀, n, m, hc, hn, ?_, (requests_faithful hc _).1 _ _ hn, hm, ?_,
    (requests_faithful hc _).2 _ _ hm⟩
  · rw [hattempting]
    rfl
  · rw [hattempting']
    rfl

end Fireworq.Dispatcher.Requests
