import Fireworq.Refinement
import Fireworq.Repository.Routings
import Fireworq.Service.Acceptance

namespace Fireworq.Web.Rest

open Function Refinement Repository.Routings
open Repository (Queue FloatColumn Named)
open Repository.InMemory (FloatText add findAll marshal zero marshal_inj marshal_zero)

section Http

inductive Error
  | notFound (detail : Option String)
  | badRequest (detail : String)
  | other (message : String)
  deriving DecidableEq

def Error.status : Error → ℕ
  | .notFound _ => 404
  | .badRequest _ => 400
  | .other _ => 500

def Error.text : Error → String
  | .notFound none => "404 Not Found"
  | .notFound (some detail) => "404 Not Found\n\n" ++ detail
  | .badRequest detail => "400 Bad Request\n\n" ++ detail
  | .other message => "500 Internal Server Error\n\n" ++ message

/-- The values that handlers write as JSON. A listing of the routings is taken as a set. -/
inductive Reply
  | queue (q : Queue)
  | queues (qs : List Queue)
  | routing (category queueName : String)
  | routings (rs : Finset (String × String))
  deriving DecidableEq

inductive Part
  | text (s : String)
  | json (r : Reply)
  deriving DecidableEq

structure Response where
  status : ℕ
  body : List Part
  deriving DecidableEq

structure Outcome where
  written : Option Reply
  error : Option Error

/-- `ServeHTTP`. After an error of the third kind it goes on to send what was
written. -/
def serveHTTP (o : Outcome) : Response :=
  match o.error with
  | none => ⟨200, (o.written.map Part.json).toList⟩
  | some (.other message) =>
    ⟨500, .text (Error.other message).text :: (o.written.map Part.json).toList⟩
  | some e => ⟨e.status, [.text e.text]⟩

/-- `writeJSON`, as the last thing that a handler does. -/
def writeJSON (r : Reply) : Outcome := ⟨some r, none⟩

def fail (e : Error) : Outcome := ⟨none, some e⟩

end Http

section Handlers

inductive Verb
  | put
  | delete
  | get
  deriving DecidableEq

inductive Request
  | queue (verb : Verb) (name : String) (body : Except String Queue)
  | queues
  | routing (verb : Verb) (category : String) (body : Except String String)
  | routings

variable {σ : Type} (repo : σ → Method → Option (σ × Answer)) (cfg : Service.Config)
  (panics : Queue → Bool)

/-- The definition that the body describes is stored with the name of the path
and with defaults, and the response shows it like that. If it is new, the queue
is started, and the handler panics if that does. -/
def putQueue (s : σ) (q : Queue) : Option (σ × Option Outcome) :=
  match cfg.prepare q with
  | .error e => some (s, fail (.other e))
  | .ok q => (repo s (.queue (.add q))).map fun x ↦
    (x.1, if x.2 = .queue (.added true) ∧ panics q = true then none else writeJSON (.queue q))

def findQueue (s : σ) (verb : Verb) (name : String) : Option (σ × Option Outcome) :=
  (repo s (.queue (.findByName name))).bind fun x ↦
    match x.2 with
    | .queue (.found (some q)) =>
      if verb = .delete then
        (repo x.1 (.queue (.deleteByName name))).map fun y ↦ (y.1, writeJSON (.queue q))
      else some (x.1, writeJSON (.queue q))
    | _ => some (x.1, fail (.notFound none))

/-- `serveQueue`. The outer option is empty if a statement fails, the inner one
if the handler panics. -/
def serveQueue (s : σ) (verb : Verb) (name : String) (body : Except String Queue) :
    Option (σ × Option Outcome) :=
  match verb, body with
  | .put, .error e => some (s, fail (.badRequest e))
  | .put, .ok q => putQueue repo cfg panics s { q with name := name }
  | verb, _ => findQueue repo s verb name

def serveQueueList (s : σ) : Option (σ × Option Outcome) :=
  (repo s (.queue .findAll)).bind fun x ↦
    match x.2 with
    | .queue (.foundAll qs) => some (x.1, writeJSON (.queues qs))
    | _ => none

def putRouting (s : σ) (category queueName : String) : Option (σ × Option Outcome) :=
  (repo s (.add category queueName)).bind fun x ↦
    match x.2 with
    | .added _ => some (x.1, writeJSON (.routing category queueName))
    | .queueNotFound => some (x.1, fail (.notFound (some ("No such queue: " ++ queueName))))
    | _ => none

def findRouting (s : σ) (verb : Verb) (category : String) : Option (σ × Option Outcome) :=
  (repo s (.findQueueNameByJobCategory category)).bind fun x ↦
    match x.2 with
    | .queueName queueName =>
      if queueName = "" then some (x.1, fail (.notFound none))
      else if verb = .delete then
        (repo x.1 (.deleteByJobCategory category)).map fun y ↦
          (y.1, writeJSON (.routing category queueName))
      else some (x.1, writeJSON (.routing category queueName))
    | _ => none

def serveRouting (s : σ) (verb : Verb) (category : String) (body : Except String String) :
    Option (σ × Option Outcome) :=
  match verb, body with
  | .put, .error e => some (s, fail (.badRequest e))
  | .put, .ok queueName => putRouting repo s category queueName
  | verb, _ => findRouting repo s verb category

def serveRoutingList (s : σ) : Option (σ × Option Outcome) :=
  (repo s .findAll).bind fun x ↦
    match x.2 with
    | .foundAll rs => some (x.1, writeJSON (.routings rs))
    | _ => none

def serve (s : σ) : Request → Option (σ × Option Outcome)
  | .queue verb name body => serveQueue repo cfg panics s verb name body
  | .queues => serveQueueList repo s
  | .routing verb category body => serveRouting repo s verb category body
  | .routings => serveRoutingList repo s

def responses : σ → List Request → Option (σ × List (Option Response))
  | s, [] => some (s, [])
  | s, r :: rs => (serve repo cfg panics s r).bind fun x ↦
    (responses x.1 rs).map fun y ↦ (y.1, x.2.map serveHTTP :: y.2)

end Handlers

section Maps

structure Maps where
  queues : String → Option Queue
  routings : String → Option String

def Maps.empty : Maps := ⟨fun _ ↦ none, fun _ ↦ none⟩

def Maps.define (m : Maps) (name : String) (q : Option Queue) : Maps :=
  { m with queues := update m.queues name q }

def Maps.route (m : Maps) (category : String) (queueName : Option String) : Maps :=
  { m with routings := update m.routings category queueName }

@[simp] theorem Maps.define_queues (m : Maps) (name : String) (q : Option Queue) (k : String) :
    (m.define name q).queues k = if k = name then q else m.queues k :=
  update_apply m.queues name q k

@[simp] theorem Maps.route_routings (m : Maps) (category : String) (queueName : Option String)
    (c : String) :
    (m.route category queueName).routings c = if c = category then queueName else m.routings c :=
  update_apply m.routings category queueName c

def json (r : Reply) : Option Response := some ⟨200, [.json r]⟩

def error (e : Error) : Option Response := some ⟨e.status, [.text e.text]⟩

/-- The answers of the interface. With `checked`, a routing to a queue that is not
defined is refused. -/
inductive Serves (cfg : Service.Config) (panics : Queue → Bool) (checked : Bool) :
    Maps → Request × Option Response → Maps → Prop
  | badQueue {m : Maps} {name e : String} :
      Serves cfg panics checked m (.queue .put name (.error e), error (.badRequest e)) m
  | invalidQueue {m : Maps} {name e : String} {q : Queue} :
      cfg.prepare { q with name := name } = .error e →
      Serves cfg panics checked m (.queue .put name (.ok q), error (.other e)) m
  | sameQueue {m : Maps} {name : String} {q q' : Queue} :
      cfg.prepare { q with name := name } = .ok q' → m.queues name = some q' →
      Serves cfg panics checked m (.queue .put name (.ok q), json (.queue q')) m
  | putQueue {m : Maps} {name : String} {q q' : Queue} :
      cfg.prepare { q with name := name } = .ok q' → m.queues name ≠ some q' →
      panics q' = false →
      Serves cfg panics checked m (.queue .put name (.ok q), json (.queue q'))
        (m.define name (some q'))
  | panicQueue {m : Maps} {name : String} {q q' : Queue} :
      cfg.prepare { q with name := name } = .ok q' → m.queues name ≠ some q' →
      panics q' = true →
      Serves cfg panics checked m (.queue .put name (.ok q), none) (m.define name (some q'))
  | noQueue {m : Maps} {verb : Verb} {name : String} {body : Except String Queue} :
      verb ≠ .put → m.queues name = none →
      Serves cfg panics checked m (.queue verb name body, error (.notFound none)) m
  | getQueue {m : Maps} {name : String} {body : Except String Queue} {q : Queue} :
      m.queues name = some q →
      Serves cfg panics checked m (.queue .get name body, json (.queue q)) m
  | deleteQueue {m : Maps} {name : String} {body : Except String Queue} {q : Queue} :
      m.queues name = some q →
      Serves cfg panics checked m (.queue .delete name body, json (.queue q)) (m.define name none)
  | queues {m : Maps} {qs : List Queue} :
      (∀ q, q ∈ qs ↔ m.queues q.name = some q) → (qs.map Queue.name).Pairwise (· ≤ ·) →
      (qs.map Queue.name).Nodup →
      Serves cfg panics checked m (.queues, json (.queues qs)) m
  | badRouting {m : Maps} {category e : String} :
      Serves cfg panics checked m (.routing .put category (.error e), error (.badRequest e)) m
  | undefinedQueue {m : Maps} {category queueName : String} :
      checked = true → m.queues queueName = none →
      Serves cfg panics checked m (.routing .put category (.ok queueName),
        error (.notFound (some ("No such queue: " ++ queueName)))) m
  | sameRouting {m : Maps} {category queueName : String} :
      (checked = true → m.queues queueName ≠ none) →
      (m.routings category).getD "" = queueName →
      Serves cfg panics checked m
        (.routing .put category (.ok queueName), json (.routing category queueName)) m
  | putRouting {m : Maps} {category queueName : String} :
      (checked = true → m.queues queueName ≠ none) →
      (m.routings category).getD "" ≠ queueName →
      Serves cfg panics checked m
        (.routing .put category (.ok queueName), json (.routing category queueName))
        (m.route category (some queueName))
  | noRouting {m : Maps} {verb : Verb} {category : String} {body : Except String String} :
      verb ≠ .put → (m.routings category).getD "" = "" →
      Serves cfg panics checked m (.routing verb category body, error (.notFound none)) m
  | getRouting {m : Maps} {category queueName : String} {body : Except String String} :
      m.routings category = some queueName → queueName ≠ "" →
      Serves cfg panics checked m
        (.routing .get category body, json (.routing category queueName)) m
  | deleteRouting {m : Maps} {category queueName : String} {body : Except String String} :
      m.routings category = some queueName → queueName ≠ "" →
      Serves cfg panics checked m
        (.routing .delete category body, json (.routing category queueName))
        (m.route category none)
  | routings {m : Maps} {rs : Finset (String × String)} :
      (∀ x, x ∈ rs ↔ m.routings x.1 = some x.2) →
      Serves cfg panics checked m (.routings, json (.routings rs)) m

end Maps

section Interface

/-- A pair of repositories that stores two maps, for the definitions and the names
that it admits. -/
structure Implements {σ : Type} (repo : σ → Method → Option (σ × Answer)) (checked : Bool)
    (admits : Queue → Prop) (named : String → Prop) (Abs : σ → Maps → Prop) : Prop where
  add_same : ∀ s m q, Abs s m → admits q → m.queues q.name = some q →
    ∃ s', repo s (.queue (.add q)) = some (s', .queue (.added false)) ∧ Abs s' m
  add_new : ∀ s m q, Abs s m → admits q → m.queues q.name ≠ some q →
    ∃ s', repo s (.queue (.add q)) = some (s', .queue (.added true)) ∧
      Abs s' (m.define q.name (some q))
  find : ∀ s m name, Abs s m → named name →
    ∃ s', repo s (.queue (.findByName name)) = some (s', .queue (.found (m.queues name))) ∧
      Abs s' m
  delete : ∀ s m name, Abs s m → named name →
    ∃ s', repo s (.queue (.deleteByName name)) = some (s', .queue .deleted) ∧
      Abs s' (m.define name none)
  findAll : ∀ s m, Abs s m →
    ∃ s' qs, repo s (.queue .findAll) = some (s', .queue (.foundAll qs)) ∧ Abs s' m ∧
      (∀ q, q ∈ qs ↔ m.queues q.name = some q) ∧ (qs.map Queue.name).Pairwise (· ≤ ·) ∧
      (qs.map Queue.name).Nodup
  undefined : ∀ s m category queueName, Abs s m → checked = true → m.queues queueName = none →
    ∃ s', repo s (.add category queueName) = some (s', .queueNotFound) ∧ Abs s' m
  route_same : ∀ s m category queueName, Abs s m → (checked = true → m.queues queueName ≠ none) →
    (m.routings category).getD "" = queueName →
    ∃ s', repo s (.add category queueName) = some (s', .added false) ∧ Abs s' m
  route_new : ∀ s m category queueName, Abs s m → (checked = true → m.queues queueName ≠ none) →
    (m.routings category).getD "" ≠ queueName →
    ∃ s', repo s (.add category queueName) = some (s', .added true) ∧
      Abs s' (m.route category (some queueName))
  lookup : ∀ s m category, Abs s m →
    ∃ s', repo s (.findQueueNameByJobCategory category) =
      some (s', .queueName ((m.routings category).getD "")) ∧ Abs s' m
  unroute : ∀ s m category, Abs s m →
    ∃ s', repo s (.deleteByJobCategory category) = some (s', .deleted) ∧
      Abs s' (m.route category none)
  routings : ∀ s m, Abs s m →
    ∃ s' rs, repo s .findAll = some (s', .foundAll rs) ∧ Abs s' m ∧
      ∀ x, x ∈ rs ↔ m.routings x.1 = some x.2

def Request.Admissible (cfg : Service.Config) (admits : Queue → Prop) (named : String → Prop) :
    Request → Prop
  | .queue _ name body => named name ∧
    ∀ q q', body = .ok q → cfg.prepare { q with name := name } = .ok q' → admits q'
  | .routing _ category _ => named category
  | .queues | .routings => True

variable {σ : Type} {repo : σ → Method → Option (σ × Answer)} {checked : Bool}
  {admits : Queue → Prop} {named : String → Prop} {Abs : σ → Maps → Prop}
  {cfg : Service.Config} {panics : Queue → Bool} {s : σ} {m : Maps}

def Served (Abs : σ → Maps → Prop) (cfg : Service.Config) (panics : Queue → Bool)
    (checked : Bool) (m : Maps) (r : Request) (x : Option (σ × Option Outcome)) : Prop :=
  ∃ s' o m', x = some (s', o) ∧ Abs s' m' ∧
    Serves cfg panics checked m (r, o.map serveHTTP) m'

namespace Implements

variable (h : Implements repo checked admits named Abs)

include h

theorem putQueue {name : String} {q : Queue} (habs : Abs s m)
    (hq : ∀ q', cfg.prepare { q with name := name } = .ok q' → admits q') :
    Served Abs cfg panics checked m (.queue .put name (.ok q))
      (putQueue repo cfg panics s { q with name := name }) := by
  unfold Rest.putQueue
  cases hprep : cfg.prepare { q with name := name } with
  | error e => exact ⟨s, _, m, rfl, habs, .invalidQueue hprep⟩
  | ok q' =>
    have hname : q'.name = name := Service.prepare_name hprep
    dsimp only
    by_cases hsame : m.queues name = some q'
    · obtain ⟨s', hs', habs'⟩ := h.add_same s m q' habs (hq q' hprep) (hname ▸ hsame)
      refine ⟨s', writeJSON (.queue q'), m, ?_, habs', .sameQueue hprep hsame⟩
      rw [hs', Option.map_some]
      simp
    · obtain ⟨s', hs', habs'⟩ := h.add_new s m q' habs (hq q' hprep) (hname ▸ hsame)
      rw [hname] at habs'
      cases hpanics : panics q' with
      | true => exact ⟨s', none, _, by simp [hs'], habs', .panicQueue hprep hsame hpanics⟩
      | false =>
        exact ⟨s', writeJSON (.queue q'), _, by simp [hs'], habs',
          .putQueue hprep hsame hpanics⟩

theorem findQueue {verb : Verb} {name : String} (body : Except String Queue) (habs : Abs s m)
    (hname : named name) (hverb : verb ≠ .put) :
    Served Abs cfg panics checked m (.queue verb name body) (findQueue repo s verb name) := by
  obtain ⟨s', hs', habs'⟩ := h.find s m name habs hname
  unfold Rest.findQueue
  rw [hs', Option.bind_some]
  dsimp only
  cases hq : m.queues name with
  | none => exact ⟨s', _, m, rfl, habs', .noQueue hverb hq⟩
  | some q =>
    dsimp only
    cases verb with
    | put => exact absurd rfl hverb
    | get => exact ⟨s', writeJSON (.queue q), m, rfl, habs', .getQueue hq⟩
    | delete =>
      obtain ⟨s'', hs'', habs''⟩ := h.delete s' m name habs' hname
      rw [if_pos rfl, hs'', Option.map_some]
      exact ⟨s'', writeJSON (.queue q), _, rfl, habs'', .deleteQueue hq⟩

theorem serveQueue {verb : Verb} {name : String} {body : Except String Queue} (habs : Abs s m)
    (hr : Request.Admissible cfg admits named (.queue verb name body)) :
    Served Abs cfg panics checked m (.queue verb name body)
      (serveQueue repo cfg panics s verb name body) := by
  cases verb with
  | put =>
    cases body with
    | error e => exact ⟨s, fail (.badRequest e), m, rfl, habs, .badQueue⟩
    | ok q => exact h.putQueue habs fun q' ↦ hr.2 q q' rfl
  | delete => exact h.findQueue body habs hr.1 (by decide)
  | get => exact h.findQueue body habs hr.1 (by decide)

theorem putRouting {category queueName : String} (habs : Abs s m) :
    Served Abs cfg panics checked m (.routing .put category (.ok queueName))
      (putRouting repo s category queueName) := by
  unfold Rest.putRouting
  by_cases hdefined : checked = true → m.queues queueName ≠ none
  · by_cases hsame : (m.routings category).getD "" = queueName
    · obtain ⟨s', hs', habs'⟩ := h.route_same s m category queueName habs hdefined hsame
      rw [hs']
      exact ⟨s', writeJSON _, m, rfl, habs', .sameRouting hdefined hsame⟩
    · obtain ⟨s', hs', habs'⟩ := h.route_new s m category queueName habs hdefined hsame
      rw [hs']
      exact ⟨s', writeJSON _, _, rfl, habs', .putRouting hdefined hsame⟩
  · rw [Classical.not_imp, not_not] at hdefined
    obtain ⟨s', hs', habs'⟩ :=
      h.undefined s m category queueName habs hdefined.1 hdefined.2
    rw [hs']
    exact ⟨s', fail _, m, rfl, habs', .undefinedQueue hdefined.1 hdefined.2⟩

theorem findRouting {verb : Verb} {category : String} (body : Except String String)
    (habs : Abs s m) (hverb : verb ≠ .put) :
    Served Abs cfg panics checked m (.routing verb category body)
      (findRouting repo s verb category) := by
  obtain ⟨s', hs', habs'⟩ := h.lookup s m category habs
  unfold Rest.findRouting
  rw [hs', Option.bind_some]
  dsimp only
  by_cases hempty : (m.routings category).getD "" = ""
  · rw [if_pos hempty]
    exact ⟨s', fail _, m, rfl, habs', .noRouting hverb hempty⟩
  · rw [if_neg hempty]
    obtain ⟨queueName, hq⟩ : ∃ queueName, m.routings category = some queueName := by
      cases hq : m.routings category with
      | none => simp [hq] at hempty
      | some queueName => exact ⟨queueName, rfl⟩
    rw [hq, Option.getD_some] at hempty ⊢
    cases verb with
    | put => exact absurd rfl hverb
    | get => exact ⟨s', writeJSON _, m, rfl, habs', .getRouting hq hempty⟩
    | delete =>
      obtain ⟨s'', hs'', habs''⟩ := h.unroute s' m category habs'
      rw [if_pos rfl, hs'', Option.map_some]
      exact ⟨s'', writeJSON _, _, rfl, habs'', .deleteRouting hq hempty⟩

theorem serve {r : Request} (habs : Abs s m) (hr : r.Admissible cfg admits named) :
    Served Abs cfg panics checked m r (serve repo cfg panics s r) := by
  cases r with
  | queue verb name body => exact h.serveQueue habs hr
  | queues =>
    obtain ⟨s', qs, hs', habs', hmem, hsorted, hnodup⟩ := h.findAll s m habs
    refine ⟨s', writeJSON (.queues qs), m, ?_, habs', .queues hmem hsorted hnodup⟩
    rw [Rest.serve, serveQueueList, hs', Option.bind_some]
  | routing verb category body =>
    cases verb with
    | put =>
      cases body with
      | error e => exact ⟨s, fail (.badRequest e), m, rfl, habs, .badRouting⟩
      | ok queueName => exact h.putRouting habs
    | delete => exact h.findRouting body habs (by decide)
    | get => exact h.findRouting body habs (by decide)
  | routings =>
    obtain ⟨s', rs, hs', habs', hmem⟩ := h.routings s m habs
    refine ⟨s', writeJSON (.routings rs), m, ?_, habs', .routings hmem⟩
    rw [Rest.serve, serveRoutingList, hs', Option.bind_some]

theorem responses {rs : List Request} (habs : Abs s m)
    (hrs : ∀ r ∈ rs, r.Admissible cfg admits named) :
    ∃ s' os m', responses repo cfg panics s rs = some (s', os) ∧ Abs s' m' ∧
      os.length = rs.length ∧ Trace (Serves cfg panics checked) m (rs.zip os) m' := by
  induction rs generalizing s m with
  | nil => exact ⟨s, [], m, rfl, habs, rfl, .nil m⟩
  | cons r rs ih =>
    obtain ⟨s', o, m', hs', habs', hserves⟩ := h.serve habs (hrs r List.mem_cons_self)
    obtain ⟨s'', os, m'', hs'', habs'', hlength, htrace⟩ :=
      ih habs' fun r hr ↦ hrs r (List.mem_cons_of_mem _ hr)
    refine ⟨s'', o.map serveHTTP :: os, m'', ?_, habs'', by simp [hlength], .cons hserves htrace⟩
    rw [Rest.responses, hs', Option.bind_some, hs'', Option.map_some]

end Implements

end Interface

section MySQL

variable {col : FloatColumn} {n : Node} {m : Maps}

structure Stored (n : Node) (m : Maps) : Prop where
  paired : n.tables.Paired
  queues : ∀ name, n.tables.findByName name = m.queues name
  unnamed : m.queues "" = none
  cached : ∀ c, n.routings.lookup c = m.routings c
  routings : ∀ c, n.tables.routing.lookup c = m.routings c
  routed : ∀ c, m.routings c ≠ some ""

theorem stored_empty : Stored .empty .empty where
  paired := Repository.agree_empty.paired
  queues _ := rfl
  unnamed := rfl
  cached _ := rfl
  routings _ := rfl
  routed _ := by simp [Maps.empty]

theorem Stored.isSome (h : Stored n m) (name : String) :
    (n.tables.queue.lookup name).isSome = (m.queues name).isSome := by
  rw [← h.queues, Repository.Tables.findByName, Option.isSome_map]

/-- The comparison of the upsert is that of the answer. -/
theorem Stored.routing_iff (h : Stored n m) {category queueName : String} (hname : queueName ≠ "") :
    n.tables.routing.lookup category = some queueName ↔
      (m.routings category).getD "" = queueName := by
  rw [h.routings]
  cases m.routings category with
  | none => simpa using Ne.symm hname
  | some q => simp

theorem Stored.define {t : Repository.Tables} {name : String} {q : Option Queue} (h : Stored n m)
    (hpaired : t.Paired)
    (hfind : ∀ k, t.findByName k = if k = name then q else n.tables.findByName k)
    (hrouting : t.routing = n.tables.routing) (hname : name ≠ "") :
    Stored { n with tables := t } (m.define name q) where
  paired := hpaired
  queues k := by rw [hfind, h.queues, Maps.define_queues]
  unnamed := by rw [Maps.define_queues, if_neg (Ne.symm hname), h.unnamed]
  cached := h.cached
  routings c := by rw [hrouting, h.routings]; rfl
  routed := h.routed

theorem Stored.route {category queueName : String} (h : Stored n m) (hname : queueName ≠ "") :
    Stored ⟨{ n.tables with
      routing := n.tables.routing.insert category queueName
      routingRevision := n.tables.routingRevision + 1 }, n.routings.insert category queueName⟩
      (m.route category (some queueName)) where
  paired := h.paired
  queues := h.queues
  unnamed := h.unnamed
  cached c := by rw [lookup_insert, h.cached, Maps.route_routings]
  routings c := by rw [lookup_insert, h.routings, Maps.route_routings]
  routed c := by
    rw [Maps.route_routings]
    split
    · simpa using hname
    · exact h.routed c

theorem Stored.unroute {category : String} (h : Stored n m) :
    Stored ⟨{ n.tables with
      routing := n.tables.routing.erase category
      routingRevision := n.tables.routingRevision + 1 }, n.routings.erase category⟩
      (m.route category none) where
  paired := h.paired
  queues := h.queues
  unnamed := h.unnamed
  cached c := by rw [lookup_erase, h.cached, Maps.route_routings]
  routings c := by rw [lookup_erase, h.routings, Maps.route_routings]
  routed c := by
    rw [Maps.route_routings]
    split
    · simp
    · exact h.routed c

/-- The MySQL repositories of a node store the two maps. -/
theorem mysql_implements (col : FloatColumn) :
    Implements (mysql col) true (fun q ↦ Named q.name ∧ q.Fits col) Named Stored where
  add_same n m q h hq hsame := by
    refine ⟨n, ?_, h⟩
    rw [mysql, Repository.mysql_eq (m := .add q) h.paired hq]
    dsimp only
    rw [if_pos (by rw [h.queues, hsame])]
    rfl
  add_new n m q h hq hnew := by
    refine ⟨{ n with tables := (n.tables.put q).bump }, ?_, ?_⟩
    · rw [mysql, Repository.mysql_eq (m := .add q) h.paired hq]
      dsimp only
      rw [if_neg (by rwa [h.queues])]
      rfl
    · exact h.define (Repository.put_paired h.paired q) (Repository.findByName_put n.tables q) rfl
        hq.1.1
  find n m name h hname := by
    refine ⟨n, ?_, h⟩
    rw [mysql, Repository.mysql_eq (m := .findByName name) h.paired hname, ← h.queues]
    rfl
  delete n m name h hname := by
    have habs := h.define (Repository.erase_paired h.paired name)
      (Repository.findByName_erase n.tables name) rfl hname.1
    exact ⟨_, rfl, { habs with }⟩
  findAll n m h := by
    obtain ⟨hsorted, hnodup⟩ := Repository.findAll_names n.tables
    refine ⟨n, n.tables.findAll, ?_, h, fun q ↦ ?_, hsorted, hnodup⟩
    · rw [mysql, Repository.mysql_eq (m := .findAll) h.paired trivial]
      rfl
    · rw [Repository.Tables.mem_findAll, h.queues]
  undefined n m category queueName h _ hnone := by
    refine ⟨n, ?_, h⟩
    rw [mysql_add, h.isSome, hnone]
    rfl
  route_same n m category queueName h hdefined hsame := by
    have hsome := Option.isSome_iff_ne_none.mpr (hdefined rfl)
    have hname : queueName ≠ "" := by
      rintro rfl
      exact hdefined rfl h.unnamed
    refine ⟨n, ?_, h⟩
    rw [mysql_add, h.isSome, if_pos hsome, if_pos ((h.routing_iff hname).mpr hsame)]
  route_new n m category queueName h hdefined hnew := by
    have hsome := Option.isSome_iff_ne_none.mpr (hdefined rfl)
    have hname : queueName ≠ "" := by
      rintro rfl
      exact hdefined rfl h.unnamed
    refine ⟨_, ?_, h.route hname⟩
    rw [mysql_add, h.isSome, if_pos hsome, if_neg (mt (h.routing_iff hname).mp hnew)]
  lookup n m category h := ⟨n, by rw [mysql, h.cached], h⟩
  unroute n m category h := ⟨_, rfl, h.unroute⟩
  routings n m h := by
    refine ⟨_, _, rfl, { h with cached := h.routings }, fun x ↦ ?_⟩
    rw [mem_listed, h.routings]

end MySQL

section Memory

variable {fmt : FloatText} {s : Storage} {m : Maps}

structure Kept (s : Storage) (m : Maps) : Prop where
  queues : ∀ name, s.queues.m.lookup name = m.queues name
  named : ∀ name q, m.queues name = some q → q.name = name
  routings : ∀ c, s.m.lookup c = m.routings c

theorem kept_empty : Kept .empty .empty where
  queues _ := rfl
  named _ _ h := by cases h
  routings _ := rfl

theorem Kept.keyed (h : Kept s m) : s.queues.Keyed := fun name q hq ↦
  h.named name q ((h.queues name).symm.trans hq)

theorem Kept.insert {q : Queue} (h : Kept s m) (revision : ℕ) :
    Kept { s with queues := ⟨s.queues.m.insert q.name q, revision⟩ }
      (m.define q.name (some q)) where
  queues name := by rw [lookup_insert, h.queues, Maps.define_queues]
  named name d hd := by
    rw [Maps.define_queues] at hd
    split at hd
    · next hname => rw [hname, Option.some.inj hd]
    · exact h.named name d hd
  routings := h.routings

theorem Kept.erase (h : Kept s m) (name : String) (revision : ℕ) :
    Kept { s with queues := ⟨s.queues.m.erase name, revision⟩ } (m.define name none) where
  queues k := by rw [lookup_erase, h.queues, Maps.define_queues]
  named k d hd := by
    rw [Maps.define_queues] at hd
    split at hd
    · cases hd
    · exact h.named k d hd
  routings := h.routings

theorem Kept.route (h : Kept s m) (category queueName : String) :
    Kept (updateRevision { s with m := s.m.insert category queueName })
      (m.route category (some queueName)) where
  queues := h.queues
  named := h.named
  routings c := by
    rw [Maps.route_routings, ← h.routings]
    exact lookup_insert ..

theorem Kept.unroute (h : Kept s m) (category : String) :
    Kept (updateRevision { s with m := s.m.erase category }) (m.route category none) where
  queues := h.queues
  named := h.named
  routings c := by
    rw [Maps.route_routings, ← h.routings]
    exact lookup_erase ..

/-- The in-memory repositories store the two maps, and take a routing to any queue. -/
theorem inMemory_implements (fmt : FloatText) :
    Implements (fun s method ↦ some (inMemory fmt s method)) false (fun q ↦ q.name ≠ "")
      (fun _ ↦ True) Kept where
  add_same s m q h hname hsame := by
    refine ⟨s, ?_, h⟩
    rw [inMemory, Repository.inMemory, h.keyed.add_eq hname, h.queues, if_pos hsame]
  add_new s m q h hname hnew := by
    refine ⟨_, ?_, h.insert (GoInt.uint64 (s.queues.revision + 1))⟩
    rw [inMemory, Repository.inMemory, h.keyed.add_eq hname, h.queues, if_neg hnew]
    rfl
  find s m name h _ := by
    refine ⟨s, ?_, h⟩
    rw [← h.queues]
    rfl
  delete s m name h _ := ⟨_, rfl, h.erase name _⟩
  findAll s m h := by
    refine ⟨s, _, rfl, h, fun q ↦ ?_, h.keyed.findAll_names⟩
    rw [h.keyed.mem_findAll, h.queues]
  undefined s m category queueName h hchecked := by cases hchecked
  route_same s m category queueName h _ hsame := by
    refine ⟨s, ?_, h⟩
    rw [inMemory, h.routings, if_neg (not_not.mpr hsame)]
  route_new s m category queueName h _ hnew := by
    refine ⟨_, ?_, h.route category queueName⟩
    rw [inMemory, h.routings, if_pos hnew]
  lookup s m category h := ⟨s, by rw [inMemory, h.routings], h⟩
  unroute s m category h := ⟨_, rfl, h.unroute category⟩
  routings s m h := by
    refine ⟨s, _, rfl, h, fun x ↦ ?_⟩
    rw [mem_listed, h.routings]

end Memory

def Request.Storable (cfg : Service.Config) (col : FloatColumn) : Request → Prop :=
  Request.Admissible cfg (fun q ↦ Named q.name ∧ q.Fits col) Named

theorem Request.Storable.named {cfg : Service.Config} {col : FloatColumn} {r : Request}
    (h : r.Storable cfg col) : r.Admissible cfg (fun q ↦ q.name ≠ "") fun _ ↦ True := by
  cases r with
  | queue verb name body =>
    exact ⟨trivial, fun q q' hbody hprep ↦ (h.2 q q' hbody hprep).1.1⟩
  | queues | routing | routings => trivial

def session : List Request :=
  [.queue .put "mail" (.ok Repository.throttled), .queue .delete "mail" (.error "EOF"),
    .routing .put "news" (.ok "mail"), .routing .get "news" (.error "EOF"), .queues]

end Fireworq.Web.Rest
