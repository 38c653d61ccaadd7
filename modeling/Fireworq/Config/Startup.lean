import Mathlib.Data.List.Nodup
import Fireworq.GoFlag
import Fireworq.Config.Store

namespace Fireworq.Config

open GoFlag

def defaultConf : List (String × String) :=
  [("bind", "127.0.0.1:8080"),
   ("pid", ""),
   ("access_log", ""),
   ("access_log_tag", "fireworq.access"),
   ("error_log", ""),
   ("error_log_level", ""),
   ("shutdown_timeout", "30"),
   ("keep_alive", "false"),
   ("config_refresh_interval", "1000"),
   ("driver", "mysql"),
   ("mysql_dsn", "tcp(localhost:3306)/fireworq"),
   ("repository_mysql_dsn", ""),
   ("queue_default", ""),
   ("queue_default_polling_interval", "200"),
   ("queue_default_max_workers", "20"),
   ("queue_log", ""),
   ("queue_log_tag", "fireworq.queue"),
   ("queue_log_level", ""),
   ("queue_mysql_dsn", ""),
   ("dispatch_user_agent", ""),
   ("dispatch_keep_alive", ""),
   ("dispatch_max_conns_per_host", "10"),
   ("dispatch_idle_conn_timeout", "0"),
   ("redis_addr", "")]

def Store.initial : Store := ⟨fun _ ↦ none, defaultConf⟩

@[simp] theorem Store.initial_cached (k : String) : Store.initial.cached k = none := rfl

@[simp] theorem Store.initial_defaults : Store.initial.defaults = defaultConf := rfl

theorem lookup_keepAlive : defaultConf.lookup "keep_alive" = some "false" := by decide +kernel

structure Build where
  prerelease : String
  build : String

def Build.versionString (b : Build) (sep : String) : String :=
  "Fireworq" ++ sep ++ "1.6.18-vmx" ++
    (if b.prerelease = "" then "" else "-" ++ b.prerelease) ++
    (if b.build = "" then "" else "+" ++ b.build)

def logLevel (env : Environment) : String := if env "DEBUG" = "" then "info" else "debug"

def initDefaultConfig (b : Build) (env : Environment) (s : Store) : Store :=
  let s := s.setDefault "dispatch_user_agent" (b.versionString "/")
  let (keepAlive, s) := s.get env "keep_alive"
  let s := s.setDefault "dispatch_keep_alive" keepAlive
  let s := s.setDefault "error_log_level" (logLevel env)
  s.setDefault "queue_log_level" (logLevel env)

structure CmdArgs where
  showVersion : Bool
  showLicense : Bool
  showCredits : Bool
  settings : List (String × String)

def flagName (key : String) : String :=
  String.ofList (key.toList.map fun c ↦ if c = '_' then '-' else c)

def boolFlags : FlagSet :=
  [("v", .bool), ("version", .bool), ("license", .bool), ("credits", .bool)]

/-- Defines a flag for each key, with the current value of the key as its default.
The result is `none` where the code panics. -/
def defineFlags (env : Environment) (s : Store) (flags : FlagSet) :
    List String → Option (Store × FlagSet × List (String × String))
  | [] => some (s, flags, [])
  | k :: ks => do
    let (v, s) := s.get env k
    let flags ← flags.define (flagName k) .string
    let (s, flags, settings) ← defineFlags env s flags ks
    some (s, flags, (k, v) :: settings)

def stringOf (name : String) : String × Value → Option String
  | (n, .string v) => if n = name then some v else none
  | (_, .bool _) => none

def boolOf (names : List String) : String × Value → Option Bool
  | (n, .bool b) => if n ∈ names then some b else none
  | (_, .string _) => none

def lastString (given : Given) (name : String) : Option String :=
  (given.filterMap (stringOf name)).getLast?

def lastBool (given : Given) (names : List String) : Bool :=
  ((given.filterMap (boolOf names)).getLast?).getD false

def parseCmdArgs (env : Environment) (s : Store) (order args : List String) :
    Option (Store × Except Error CmdArgs) := do
  let (s, flags, defaults) ← defineFlags env s boolFlags order
  some (s, (parse flags args).map fun given ↦
    { showVersion := lastBool given ["v", "version"]
      showLicense := lastBool given ["license"]
      showCredits := lastBool given ["credits"]
      settings := defaults.map fun (k, v) ↦ (k, (lastString given (flagName k)).getD v) })

def setAll (settings : List (String × String)) : List String → Store → Option Store
  | [], s => some s
  | k :: ks, s => do
    let v ← settings.lookup k
    setAll settings ks (s.set k v)

inductive Outcome
  | panics
  | exits (status : ℕ)
  | configured (s : Store)

/-- `main` up to the end of its calls of `Set`; what it starts from then on may still
panic for the values of the keys. The keys come in any order, which may be another one
the second time. -/
def main (b : Build) (env : Environment) (order₁ order₂ args : List String) : Outcome :=
  let s := initDefaultConfig b env .initial
  match parseCmdArgs env s order₁ args with
  | none => .panics
  | some (_, .error _) => .exits 1
  | some (s, .ok parsed) =>
    if parsed.showVersion || parsed.showLicense || parsed.showCredits then .exits 0
    else (setAll parsed.settings order₂ s).elim .panics .configured

variable {b : Build} {env : Environment} {s : Store} {flags : FlagSet} {k : String}
  {order : List String}

theorem defineFlags_eq (env : Environment) (s : Store) (hnodup : (order.map flagName).Nodup)
    (hfresh : ∀ k ∈ order, flags.lookup (flagName k) = none) :
    ∃ t, defineFlags env s flags order =
      some (t, flags ++ order.map fun k ↦ (flagName k, .string),
        order.map fun k ↦ (k, (s.get env k).1)) := by
  induction order generalizing s flags with
  | nil => exact ⟨s, by simp [defineFlags]⟩
  | cons k order ih =>
    rw [List.map_cons, List.nodup_cons] at hnodup
    obtain ⟨hk, hnodup⟩ := hnodup
    have hdefine : flags.define (flagName k) .string = some (flags ++ [(flagName k, .string)]) := by
      simp [FlagSet.define, hfresh k List.mem_cons_self]
    have hfresh' : ∀ l ∈ order,
        (flags ++ [(flagName k, Kind.string)]).lookup (flagName l) = none := by
      intro l hl
      have hne : flagName l ≠ flagName k := fun h ↦ hk (h ▸ List.mem_map_of_mem hl)
      rw [List.lookup_append, hfresh l (.tail _ hl)]
      simp [List.lookup_cons, beq_false_of_ne hne]
    obtain ⟨t, ht⟩ := ih (s.get env k).2 hnodup hfresh'
    refine ⟨t, ?_⟩
    simp only [defineFlags, hdefine, Option.bind_eq_bind, Option.bind_some, ht, Store.get_get]
    simp

theorem lookup_map_self {α : Type} (f : String → α) (h : k ∈ order) :
    (order.map fun k ↦ (k, f k)).lookup k = some (f k) := by
  induction order with
  | nil => cases h
  | cons l order ih =>
    rw [List.map_cons, List.lookup_cons]
    grind

theorem setAll_eq {settings : List (String × String)} {f : String → String}
    (h : ∀ k ∈ order, settings.lookup k = some (f k)) (s : Store) :
    ∃ t, setAll settings order s = some t ∧
      ∀ k, t.cached k = if k ∈ order then some (f k) else s.cached k := by
  induction order generalizing s with
  | nil => exact ⟨s, rfl, by simp⟩
  | cons l order ih =>
    obtain ⟨t, ht, hcached⟩ := ih (fun k hk ↦ h k (.tail _ hk)) (s.set l (f l))
    refine ⟨t, ?_, fun k ↦ ?_⟩
    · simp only [setAll, h l List.mem_cons_self, Option.bind_eq_bind, Option.bind_some, ht]
    · rw [hcached]
      by_cases hk : k = l
      · subst hk
        simp
      · simp [Store.set_cached_of_ne hk, hk]

def keepAlive (env : Environment) : String :=
  if env (envKey "keep_alive") = "" then "false" else env (envKey "keep_alive")

/-- The default value of a key. That of `dispatch_keep_alive` is the value of
`keep_alive`, but not the one of its flag. -/
def defaultValue (b : Build) (env : Environment) (k : String) : String :=
  if k = "dispatch_user_agent" then b.versionString "/"
  else if k = "dispatch_keep_alive" then keepAlive env
  else if k = "error_log_level" ∨ k = "queue_log_level" then logLevel env
  else (defaultConf.lookup k).getD ""

def resolved (b : Build) (env : Environment) (k : String) : String :=
  if env (envKey k) = "" then defaultValue b env k else env (envKey k)

theorem get_keepAlive (v : String) :
    ((Store.initial.setDefault "dispatch_user_agent" v).get env "keep_alive").1 =
      keepAlive env := by
  simp [Store.get_fst, Store.fallback, Store.getDefault, Store.lookup_setDefault, keepAlive,
    lookup_keepAlive]

theorem getDefault_init :
    (initDefaultConfig b env .initial).getDefault k = defaultValue b env k := by
  simp only [initDefaultConfig, Store.getDefault, Store.lookup_setDefault,
    Store.get_snd_defaults, get_keepAlive, defaultValue, Store.initial_defaults]
  grind

theorem cached_init :
    (initDefaultConfig b env .initial).cached k =
      if k = "keep_alive" then some (keepAlive env) else none := by
  simp only [initDefaultConfig, Store.setDefault_cached, Store.get_snd_cached, get_keepAlive]
  rfl

theorem get_init : ((initDefaultConfig b env .initial).get env k).1 = resolved b env k := by
  rw [Store.get_fst, cached_init]
  split
  · rename_i h
    subst h
    have hdefault : defaultValue b env "keep_alive" = "false" := by
      simp only [defaultValue, lookup_keepAlive]
      rfl
    rw [Option.getD_some, resolved, hdefault, keepAlive]
  · rw [Option.getD_none, Store.fallback, getDefault_init, resolved]

structure Setting where
  key : String
  value : String
  double : Bool
  joined : Bool

def Setting.render (x : Setting) : List String :=
  GoFlag.render x.double x.joined (flagName x.key) x.value

def lastSetting (settings : List Setting) (k : String) : Option String :=
  (settings.filterMap fun x ↦ if x.key = k then some x.value else none).getLast?

def keys : List String := defaultConf.map (·.1)

theorem flagName_nodup : (keys.map flagName).Nodup := by decide +kernel

theorem flagName_plain : ∀ k ∈ keys, Plain (flagName k) := by decide +kernel

theorem flagName_fresh : ∀ k ∈ keys, boolFlags.lookup (flagName k) = none := by decide +kernel

theorem lastString_map (settings : List Setting) (hkeys : ∀ x ∈ settings, x.key ∈ keys)
    (hk : k ∈ keys) :
    lastString (settings.map fun x ↦ (flagName x.key, .string x.value)) (flagName k) =
      lastSetting settings k := by
  have hinj := List.inj_on_of_nodup_map flagName_nodup
  unfold lastString lastSetting
  rw [List.filterMap_map]
  congr 1
  refine List.filterMap_congr fun x hx ↦ ?_
  have hiff : flagName x.key = flagName k ↔ x.key = k :=
    ⟨fun h ↦ hinj (hkeys x hx) hk h, congrArg flagName⟩
  simp only [Function.comp_apply, stringOf, hiff]

theorem lastBool_map (settings : List Setting) (names : List String) :
    lastBool (settings.map fun x ↦ (flagName x.key, .string x.value)) names = false := by
  have hnil : (settings.map fun x ↦ (flagName x.key, Value.string x.value)).filterMap
      (boolOf names) = [] := by
    simp [boolOf]
  rw [lastBool, hnil, List.getLast?_nil, Option.getD_none]

theorem lookup_flagName (h : order.Perm keys) (hk : k ∈ keys) :
    (boolFlags ++ order.map fun k ↦ (flagName k, Kind.string)).lookup (flagName k) =
      some .string := by
  rw [List.lookup_append, flagName_fresh k hk, Option.none_or]
  have hmem : flagName k ∈ order.map flagName := List.mem_map_of_mem (h.mem_iff.mpr hk)
  rw [← lookup_map_self (fun _ ↦ Kind.string) hmem, List.map_map]
  rfl

theorem parseCmdArgs_render (env : Environment) (s : Store) (h : order.Perm keys)
    (settings : List Setting) (hkeys : ∀ x ∈ settings, x.key ∈ keys) :
    ∃ t, parseCmdArgs env s order (settings.flatMap Setting.render) =
      some (t, .ok ⟨false, false, false,
        order.map fun k ↦ (k, (lastSetting settings k).getD (s.get env k).1)⟩) := by
  have hnodup : (order.map flagName).Nodup := (h.map flagName).nodup_iff.mpr flagName_nodup
  obtain ⟨t, ht⟩ := defineFlags_eq env s hnodup fun k hk ↦ flagName_fresh k (h.mem_iff.mp hk)
  have hparse : parse _ (settings.flatMap Setting.render) = _ :=
    parse_renders (boolFlags ++ order.map fun k ↦ (flagName k, .string))
      (fun x : Setting ↦ (x.double, x.joined)) (flagName ·.key) (·.value) settings
      fun x hx ↦ ⟨flagName_plain _ (hkeys x hx), lookup_flagName h (hkeys x hx)⟩
  have hsettings : ∀ k ∈ order,
      lastString (settings.map fun x ↦ (flagName x.key, .string x.value)) (flagName k) =
        lastSetting settings k :=
    fun k hk ↦ lastString_map settings hkeys (h.mem_iff.mp hk)
  refine ⟨t, ?_⟩
  simp only [parseCmdArgs, ht, Option.bind_eq_bind, Option.bind_some, hparse, Except.map,
    lastBool_map, List.map_map]
  congr 4
  refine List.map_congr_left fun k hk ↦ ?_
  simp only [Function.comp_apply, hsettings k hk]

/-- With a command line that sets keys to any values, in any order and in any of the
ways to write them, `main` gets past its configuration. From then on every call of
`Get`, in any goroutine, returns the last value on the command line, or else the value of the
environment, or else the default. -/
theorem command_line_precedence (b : Build) (env : Environment) {order₁ order₂ : List String}
    (h₁ : order₁.Perm keys) (h₂ : order₂.Perm keys) (settings : List Setting)
    (hkeys : ∀ x ∈ settings, x.key ∈ keys) :
    ∃ s, main b env order₁ order₂ (settings.flatMap Setting.render) = .configured s ∧
      ∀ k ∈ keys, Visible env k ((lastSetting settings k).getD (resolved b env k)) (.start s) := by
  obtain ⟨t, ht⟩ :=
    parseCmdArgs_render env (initDefaultConfig b env .initial) h₁ settings hkeys
  simp only [get_init] at ht
  have hlookup : ∀ k ∈ order₂,
      (order₁.map fun k ↦ (k, (lastSetting settings k).getD (resolved b env k))).lookup k =
        some ((lastSetting settings k).getD (resolved b env k)) := fun k hk ↦
    lookup_map_self _ (h₁.mem_iff.mpr (h₂.mem_iff.mp hk))
  obtain ⟨s, hs, hcached⟩ := setAll_eq hlookup t
  refine ⟨s, ?_, fun k hk ↦ Settled.visible ⟨?_, ?_⟩⟩
  · simp [main, ht, hs]
  · rw [State.start, hcached, if_pos (h₂.mem_iff.mpr hk)]
  · intro i w hw
    cases hw

/-- The flag of `keep_alive` does not change the default of `dispatch_keep_alive`. -/
theorem command_line_precedence_keep_alive :
    ∃ s, main ⟨"", ""⟩ (fun _ ↦ "") keys keys ["--keep-alive=true"] = .configured s ∧
      Visible (fun _ ↦ "") "keep_alive" "true" (.start s) ∧
      Visible (fun _ ↦ "") "dispatch_keep_alive" "false" (.start s) := by
  obtain ⟨s, hs, h⟩ := command_line_precedence ⟨"", ""⟩ (fun _ ↦ "") (.refl keys) (.refl keys)
    [⟨"keep_alive", "true", true, true⟩] (by decide +kernel)
  refine ⟨s, ?_, h "keep_alive" (by decide +kernel), h "dispatch_keep_alive" (by decide +kernel)⟩
  rw [← hs]
  congr 1

end Fireworq.Config
