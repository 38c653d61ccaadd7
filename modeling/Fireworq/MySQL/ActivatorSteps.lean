import Fireworq.MySQL.Activator

namespace Fireworq.MySQL.Activator

open NamedLock Execution Function

variable {w w' : World} {n : ℕ} {v v' : Node}

theorem World.close_eq (w : World) (db : DB) :
    w.close db = { w with server := db.connection.elim w.server w.server.close } := by
  unfold World.close
  cases db.connection <;> rfl

theorem World.abandon_eq (w : World) (db : DB) : w.abandon db = { w with
    abandoned := db.connection.elim w.abandoned fun c ↦ update w.abandoned c true } := by
  unfold World.abandon
  cases db.connection <;> rfl

/-- Everything a step of an activator can do, with what it has checked. -/
inductive Acts (w : World) (n : ℕ) (v : Node) : Action → Node → World → Prop
  | begin : v.pc = .waiting →
      Acts w n v .begin { v with pc := if v.stopped then .leaving else .connecting } w
  | connected {ok : Bool} {connection : Option ℕ} : v.pc = .connecting →
      v.db = .opened connection → Acts w n v (.connect ok) { v with pc := .checking } w
  | connect : v.pc = .connecting → v.db = .closed →
      Acts w n v (.connect true) { v with db := .opened none, pc := .checking } w
  | connectFailed : v.pc = .connecting → Acts w n v (.connect false) { v with pc := .waiting } w
  | dial : v.pc = .checking ∨ (∃ k, v.pc = .issued k) →
      Acts w n v .dial { v with db := .opened (some w.server.next) }
        { w with
          server := w.server.dial
          dialer := update w.dialer w.server.next (some n) }
  | notLocked {ok : Bool} : v.pc = .checking →
      Acts w n v (.hasLock ok) { v with pc := .checked false } w
  | locked {c : ℕ} : v.pc = .checking → v.db.connection = some c → w.server.owner = some c →
      Acts w n v (.hasLock true) { v with pc := .checked true, acquired := some c } w
  | stay : v.pc = .checked true →
      Acts w n v .swapActive { v with active := 1, pc := .waiting } w
  | backup : v.pc = .checked false →
      Acts w n v .swapActive { v with active := 0, pc := .storing } w
  | storeCancel : v.pc = .storing →
      Acts w n v .storeCancel
        { v with cancel := some w.nextContext, pc := .locking w.nextContext }
        { w with nextContext := w.nextContext + 1 }
  | loadStopped {k : ℕ} : v.pc = .locking k →
      Acts w n v .loadStopped { v with pc := if v.stopped then .leaving else .issued k } w
  | lockGranted {k c : ℕ} {server : Server} : v.pc = .issued k → v.db.connection = some c →
      w.server.grant c = some server →
      Acts w n v .lockGranted { v with pc := .granted, acquired := some c }
        { w with server := server }
  | lockFailed {k : ℕ} {granted : Bool} {server : Server} : v.pc = .issued k →
      server = w.server ∨ (∃ c, v.db.connection = some c ∧ w.server.grant c = some server) →
      Acts w n v (.lockFailed granted false) { v with pc := .failed } { w with server := server }
  | lockCanceled {k : ℕ} {granted : Bool} {server : Server} : v.pc = .issued k →
      server = w.server ∨ (∃ c, v.db.connection = some c ∧ w.server.grant c = some server) →
      w.cancelled k = true →
      Acts w n v (.lockFailed granted true)
        { v with db := .opened none, pc := if v.stopped then .leaving else .failed }
        ({ w with server := server }.abandon v.db)
  | lockTimeout {k c : ℕ} : v.pc = .issued k → v.db.connection = some c →
      w.server.owner ≠ some c → Acts w n v .lockTimeout { v with pc := .waiting } w
  | lockNull {k : ℕ} : v.pc = .issued k → Acts w n v .lockNull { v with pc := .failed } w
  | retry : v.pc = .failed →
      Acts w n v .disconnect { v with db := .closed, pc := .waiting } (w.close v.db)
  | disconnect : v.pc = .disconnecting →
      Acts w n v .disconnect { v with db := .closed, pc := .signalling } (w.close v.db)
  | onActivating : v.pc = .granted → Acts w n v .onActivating { v with pc := .activating } w
  | activated : v.pc = .activating → Acts w n v .activated { v with pc := .recovered } w
  | storeActive : v.pc = .recovered →
      Acts w n v .storeActive { v with active := 1, pc := .waiting } w
  | clearActive : v.pc = .leaving →
      Acts w n v .clearActive { v with active := 0, pc := .disconnecting } w
  | signal : v.pc = .signalling → Acts w n v .signal { v with pc := .ended } w
  | setStopped {call : ℕ} : v.stops call = .idle →
      Acts w n v (.setStopped call)
        { v with stopped := true, stops := update v.stops call .flagged } w
  | loadCancel {call : ℕ} : v.stops call = .flagged →
      Acts w n v (.loadCancel call)
        { v with stops := update v.stops call (.loaded v.cancel) } w
  | callCancel {call k : ℕ} : v.stops call = .loaded (some k) →
      Acts w n v (.callCancel call) { v with stops := update v.stops call .returned }
        { w with cancelled := update w.cancelled k true }
  | noCancel {call : ℕ} : v.stops call = .loaded none →
      Acts w n v (.callCancel call) { v with stops := update v.stops call .returned } w

theorem grant_some {c : ℕ} (h : w.grant v = some (c, w')) :
    ∃ server, v.db.connection = some c ∧ w.server.grant c = some server ∧
      w' = { w with server := server } := by
  unfold World.grant at h
  split at h
  · next d hd =>
    obtain ⟨server, hs, he⟩ := Option.map_eq_some_iff.mp h
    cases he
    exact ⟨server, hd, hs, rfl⟩
  · cases h

theorem dial_acts (hpc : v.pc = .checking ∨ ∃ k, v.pc = .issued k)
    (h : w.dial n v = some (v', w')) : Acts w n v .dial v' w' := by
  unfold World.dial at h
  split at h
  · cases h
  · split at h
    · cases h
    · cases h
      exact .dial hpc

theorem lockFailed_acts {granted canceled : Bool}
    (h : act w n v (.lockFailed granted canceled) = some (v', w')) :
    Acts w n v (.lockFailed granted canceled) v' w' := by
  simp only [act] at h
  split at h
  · next k hpc =>
    obtain ⟨u, hu, h⟩ := Option.bind_eq_some_iff.mp h
    have hserver : ∃ server, u = { w with server := server } ∧ (server = w.server ∨
        ∃ c, v.db.connection = some c ∧ w.server.grant c = some server) := by
      cases granted with
      | false => cases hu; exact ⟨w.server, rfl, .inl rfl⟩
      | true =>
        obtain ⟨⟨c, x⟩, hx, rfl⟩ := Option.map_eq_some_iff.mp hu
        obtain ⟨server, hc, hs, rfl⟩ := grant_some hx
        exact ⟨server, rfl, .inr ⟨c, hc, hs⟩⟩
    obtain ⟨server, rfl, hs⟩ := hserver
    cases canceled with
    | false => cases h; exact .lockFailed hpc hs
    | true =>
      simp only [if_true] at h
      split at h
      · next hk => cases h; exact .lockCanceled hpc hs hk
      · cases h
  · cases h

theorem act_acts {a : Action} (h : act w n v a = some (v', w')) : Acts w n v a v' w' := by
  cases a with
  | begin =>
    simp only [act] at h
    split at h
    · next hpc => cases h; exact .begin hpc
    · cases h
  | connect ok =>
    simp only [act] at h
    split at h
    · next hpc hdb => cases h; exact .connected hpc hdb
    · next hpc hdb =>
      cases ok with
      | true => cases h; exact .connect hpc hdb
      | false => cases h; exact .connectFailed hpc
    · cases h
  | dial =>
    simp only [act] at h
    split at h
    · next hpc => exact dial_acts (.inl hpc) h
    · next k hpc => exact dial_acts (.inr ⟨k, hpc⟩) h
    · cases h
  | hasLock ok =>
    simp only [act] at h
    split at h
    · next hpc => cases h; exact .notLocked hpc
    · next c hpc hc =>
      split at h
      · split at h
        · next howner => cases h; exact .locked hpc hc howner
        · cases h; exact .notLocked hpc
      · cases h
    · cases h
  | swapActive =>
    simp only [act] at h
    split at h
    · next hpc => cases h; exact .stay hpc
    · next hpc => cases h; exact .backup hpc
    · cases h
  | storeCancel =>
    simp only [act] at h
    split at h
    · next hpc => cases h; exact .storeCancel hpc
    · cases h
  | loadStopped =>
    simp only [act] at h
    split at h
    · next hpc => cases h; exact .loadStopped hpc
    · cases h
  | lockGranted =>
    simp only [act] at h
    split at h
    · next hpc =>
      obtain ⟨⟨c, u⟩, hu, he⟩ := Option.map_eq_some_iff.mp h
      obtain ⟨server, hc, hs, rfl⟩ := grant_some hu
      cases he
      exact .lockGranted hpc hc hs
    · cases h
  | lockFailed granted canceled => exact lockFailed_acts h
  | lockTimeout =>
    simp only [act] at h
    split at h
    · next c hpc hc =>
      split at h
      · next hl => cases h; exact .lockTimeout hpc hc hl.2
      · cases h
    · cases h
  | lockNull =>
    simp only [act] at h
    split at h
    · next hpc hc =>
      split at h
      · cases h; exact .lockNull hpc
      · cases h
    · cases h
  | disconnect =>
    simp only [act] at h
    split at h
    · next hpc => cases h; exact .retry hpc
    · next hpc => cases h; exact .disconnect hpc
    · cases h
  | onActivating =>
    simp only [act] at h
    split at h
    · next hpc => cases h; exact .onActivating hpc
    · cases h
  | activated =>
    simp only [act] at h
    split at h
    · next hpc => cases h; exact .activated hpc
    · cases h
  | storeActive =>
    simp only [act] at h
    split at h
    · next hpc => cases h; exact .storeActive hpc
    · cases h
  | clearActive =>
    simp only [act] at h
    split at h
    · next hpc => cases h; exact .clearActive hpc
    · cases h
  | signal =>
    simp only [act] at h
    split at h
    · next hpc => cases h; exact .signal hpc
    · cases h
  | setStopped call =>
    simp only [act] at h
    split at h
    · next hs => cases h; exact .setStopped hs
    · cases h
  | loadCancel call =>
    simp only [act] at h
    split at h
    · next hs => cases h; exact .loadCancel hs
    · cases h
  | callCancel call =>
    simp only [act] at h
    split at h
    · next hs => cases h; exact .callCancel hs
    · next hs => cases h; exact .noCancel hs
    · cases h

end Fireworq.MySQL.Activator
