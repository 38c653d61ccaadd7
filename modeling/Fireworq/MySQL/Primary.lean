import Fireworq.MySQL.ActivatorSteps

namespace Fireworq.MySQL.Activator

open NamedLock Execution Function

variable {w w' : World} {n : ℕ} {v v' : Node} {s t : State} {es : List Event}

def Pc.holding : Pc → Bool
  | .checked true | .granted | .activating | .recovered => true
  | _ => false

def Pc.head : Pc → Bool
  | .waiting | .connecting | .checking => true
  | _ => false

def Pc.backup : Pc → Bool
  | .waiting | .connecting | .checking | .checked _ | .leaving => false
  | _ => true

def Owned (w : World) (n c : ℕ) : Prop :=
  c < w.server.next ∧ w.dialer c = some n ∧ w.abandoned c = false

def Fresh (w : World) : Prop := ∀ c, w.abandoned c = true → c < w.server.next

structure NodeInv (w : World) (n : ℕ) (v : Node) : Prop where
  pooled : ∀ c, v.db.connection = some c → Owned w n c
  owns : 0 < v.active ∨ v.pc.holding = true → ∃ c, v.acquired = some c ∧ Owned w n c ∧
    (w.server.owner = some c ∨ w.lost c = true)
  backup : v.pc.backup = true → v.active ≤ 0
  unheld : v.pc.head = true → v.active ≤ 0 → ∀ c, v.db.connection = some c →
    w.server.owner ≠ some c
  primary : v.pc = .checked true → 0 < v.active

/-- What a step of somebody else does to the connections of node `n`. -/
structure Interferes (n : ℕ) (w w' : World) : Prop where
  owned : ∀ c, Owned w n c → Owned w' n c
  kept : ∀ c, Owned w n c → w.server.owner = some c →
    w'.server.owner = some c ∨ w'.lost c = true
  lost : ∀ c, w.lost c = true → w'.lost c = true
  gained : ∀ c, Owned w n c → w'.server.owner = some c → w.server.owner = some c

theorem NodeInv.interfere (hi : NodeInv w n v) (h : Interferes n w w') : NodeInv w' n v where
  pooled c hc := h.owned c (hi.pooled c hc)
  owns ho := by
    obtain ⟨c, hc, hown, hl | hl⟩ := hi.owns ho
    · exact ⟨c, hc, h.owned c hown, h.kept c hown hl⟩
    · exact ⟨c, hc, h.owned c hown, .inr (h.lost c hl)⟩
  backup := hi.backup
  unheld hh ha c hc howner := hi.unheld hh ha c hc (h.gained c (hi.pooled c hc) howner)
  primary := hi.primary

theorem interferes_server {server : Server} (hnext : server.next = w.server.next)
    (hkept : ∀ c, Owned w n c → w.server.owner = some c → server.owner = some c)
    (hgained : ∀ c, Owned w n c → server.owner = some c → w.server.owner = some c) :
    Interferes n w { w with server := server } where
  owned c hc := ⟨by rw [hnext]; exact hc.1, hc.2⟩
  kept c hc ho := .inl (hkept c hc ho)
  lost _ h := h
  gained := hgained

theorem interferes_grant {c m : ℕ} {server : Server} (hm : n ≠ m) (hc : Owned w m c)
    (h : w.server.grant c = some server) : Interferes n w { w with server := server } := by
  obtain ⟨-, -, hown, -, hnext⟩ := grant_cases h
  refine interferes_server hnext (fun d _ hd ↦ grant_owner h hd) fun d hd ho ↦ ?_
  rw [hown] at ho
  cases ho
  exact absurd (Option.some.inj (hd.2.1.symm.trans hc.2.1)) hm

theorem interferes_close {m : ℕ} {db : DB} (hm : n ≠ m)
    (hc : ∀ c, db.connection = some c → Owned w m c) : Interferes n w (w.close db) := by
  unfold World.close
  split
  · next c hdb =>
    refine interferes_server rfl (fun d hd ho ↦ close_owner_of_ne ?_ ho) fun d _ ho ↦
      owner_of_close ho
    rintro rfl
    exact hm (Option.some.inj (hd.2.1.symm.trans (hc d hdb).2.1))
  · exact interferes_server rfl (fun _ _ ho ↦ ho) fun _ _ ho ↦ ho

theorem interferes_abandon {m : ℕ} {db : DB} {u : World} (hm : n ≠ m) (hu : Interferes n w u)
    (hc : ∀ c, db.connection = some c → Owned w m c) : Interferes n w (u.abandon db) := by
  unfold World.abandon
  split
  · next c hdb =>
    refine ⟨fun d hd ↦ ?_, hu.kept, hu.lost, hu.gained⟩
    obtain ⟨hlt, hdial, hab⟩ := hu.owned d hd
    have hne : d ≠ c := by
      rintro rfl
      exact hm (Option.some.inj (hd.2.1.symm.trans (hc d hdb).2.1))
    exact ⟨hlt, hdial, (update_of_ne hne _ _).trans hab⟩
  · exact hu

theorem Interferes.refl : Interferes n w w :=
  interferes_server rfl (fun _ _ ho ↦ ho) fun _ _ ho ↦ ho

theorem Interferes.contexts {cancelled : ℕ → Bool} {nextContext : ℕ} :
    Interferes n w { w with cancelled := cancelled, nextContext := nextContext } :=
  ⟨fun _ hc ↦ hc, fun _ _ ho ↦ .inl ho, fun _ hl ↦ hl, fun _ _ ho ↦ ho⟩

theorem interferes_fail {m : ℕ} {db : DB} {server : Server} (hm : n ≠ m)
    (hc : ∀ c, db.connection = some c → Owned w m c)
    (h : server = w.server ∨ ∃ c, db.connection = some c ∧ w.server.grant c = some server) :
    Interferes n w { w with server := server } := by
  rcases h with rfl | ⟨c, hdb, hg⟩
  · exact .refl
  · exact interferes_grant hm (hc c hdb) hg

theorem Acts.interferes {m : ℕ} {a : Action} (h : Acts w m v a v' w') (hi : NodeInv w m v)
    (hm : n ≠ m) : Interferes n w w' := by
  cases h with
  | dial =>
    refine ⟨fun c hc ↦ ⟨?_, ?_, hc.2.2⟩, fun c _ ho ↦ .inl ho, fun _ hl ↦ hl, fun c _ ho ↦ ho⟩
    · exact Nat.lt_succ_of_lt hc.1
    · exact (update_of_ne (Nat.ne_of_lt hc.1) _ _).trans hc.2.1
  | storeCancel | callCancel => exact .contexts
  | lockGranted _ hc hg => exact interferes_grant hm (hi.pooled _ hc) hg
  | lockFailed _ hs => exact interferes_fail hm hi.pooled hs
  | lockCanceled _ hs => exact interferes_abandon hm (interferes_fail hm hi.pooled hs) hi.pooled
  | retry | disconnect => exact interferes_close hm hi.pooled
  | _ => exact .refl

theorem NodeInv.move (hi : NodeInv w n v) (hdb : v'.db = v.db) (hacq : v'.acquired = v.acquired)
    (howns : 0 < v'.active ∨ v'.pc.holding = true → 0 < v.active ∨ v.pc.holding = true)
    (hbackup : v'.pc.backup = true → v'.active ≤ 0)
    (hhead : v'.pc.head = true → v'.active ≤ 0 → v.pc.head = true ∧ v.active ≤ 0)
    (hprimary : v'.pc = .checked true → 0 < v'.active) : NodeInv w n v' where
  pooled c hc := hi.pooled c (hdb ▸ hc)
  owns ho := by
    rw [hacq]
    exact hi.owns (howns ho)
  backup := hbackup
  unheld hh ha c hc := by
    obtain ⟨hh, ha⟩ := hhead hh ha
    exact hi.unheld hh ha c (hdb ▸ hc)
  primary := hprimary

/-- A move of a node that is not active and does not hold the lock, into a
part of the loop where this does not matter. -/
theorem NodeInv.inactive (hpooled : ∀ c, v'.db.connection = some c → Owned w' n c)
    (hactive : v'.active ≤ 0) (hpc : v'.pc.holding = false) (hhead : v'.pc.head = true →
      ∀ c, v'.db.connection = some c → w'.server.owner ≠ some c) : NodeInv w' n v' where
  pooled := hpooled
  owns ho := by
    rcases ho with ho | ho
    · omega
    · rw [hpc] at ho
      cases ho
  backup _ := hactive
  unheld hh _ := hhead hh
  primary hc := by
    rw [hc] at hpc
    cases hpc

theorem NodeInv.dial (hi : NodeInv w n v) (hfresh : Fresh w) :
    NodeInv { w with
        server := w.server.dial
        dialer := update w.dialer w.server.next (some n) } n
      { v with db := .opened (some w.server.next) } where
  pooled c hc := by
    cases hc
    refine ⟨Nat.lt_succ_self _, update_self _ _ _, ?_⟩
    cases hab : w.abandoned w.server.next with
    | false => rfl
    | true => exact absurd (hfresh _ hab) (Nat.lt_irrefl _)
  owns ho := by
    obtain ⟨c, hacq, ⟨hlt, hd, hab⟩, hown⟩ := hi.owns ho
    have hd' := (update_of_ne (Nat.ne_of_lt hlt) (some n) w.dialer).trans hd
    exact ⟨c, hacq, ⟨Nat.lt_succ_of_lt hlt, hd', hab⟩, hown⟩
  backup := hi.backup
  unheld hh ha c hc howner := by
    cases hc
    exact Nat.lt_irrefl _ (@owner_lt w.server _ howner)
  primary := hi.primary

theorem Owned.server {c : ℕ} {server : Server} (hc : Owned w n c)
    (h : server.next = w.server.next) : Owned { w with server := server } n c :=
  ⟨by rw [h]; exact hc.1, hc.2⟩

theorem failed_next {server : Server} {db : DB} (h : server = w.server ∨
    ∃ c, db.connection = some c ∧ w.server.grant c = some server) :
    server.next = w.server.next := by
  rcases h with rfl | ⟨c, -, hg⟩
  · rfl
  · exact (grant_cases hg).2.2.2.2

theorem failed_live {server : Server} {db : DB} (h : server = w.server ∨
    ∃ c, db.connection = some c ∧ w.server.grant c = some server) :
    server.live = w.server.live := by
  rcases h with rfl | ⟨c, -, hg⟩
  · rfl
  · exact (grant_cases hg).2.2.2.1

theorem Acts.inv {a : Action} (h : Acts w n v a v' w') (hfresh : Fresh w)
    (hi : NodeInv w n v) : NodeInv w' n v' := by
  have hoff (hpc : v.pc.backup = true) : v.active ≤ 0 := hi.backup hpc
  cases h with
  | begin hpc =>
    refine hi.move rfl rfl ?_ ?_ ?_ ?_ <;> cases v.stopped <;>
      simp [hpc, Pc.holding, Pc.backup, Pc.head]
  | connected hpc =>
    exact hi.move rfl rfl (by simp [hpc, Pc.holding]) nofun (by simp [hpc, Pc.head]) nofun
  | connect hpc hdb =>
    refine ⟨nofun, fun ho ↦ hi.owns ?_, nofun, ?_, nofun⟩
    · simpa [hpc, Pc.holding] using ho
    · intro _ _ c hc
      cases hc
  | connectFailed hpc =>
    exact hi.move rfl rfl (by simp [hpc, Pc.holding]) nofun (by simp [hpc, Pc.head]) nofun
  | dial hpc => exact hi.dial hfresh
  | notLocked hpc =>
    exact hi.move rfl rfl (by simp [hpc, Pc.holding]) nofun nofun nofun
  | @locked c hpc hc howner =>
    have hprimary : 0 < v.active := by
      by_contra hneg
      exact hi.unheld (by rw [hpc]; rfl) (by omega) c hc howner
    exact ⟨hi.pooled, fun _ ↦ ⟨c, rfl, hi.pooled c hc, .inl howner⟩, nofun, nofun,
      fun _ ↦ hprimary⟩
  | stay hpc =>
    have hprimary := hi.primary hpc
    exact hi.move rfl rfl (fun _ ↦ .inl hprimary) nofun (by simp) nofun
  | backup hpc => exact .inactive hi.pooled (Int.le_refl 0) rfl nofun
  | storeCancel hpc =>
    have hi' := hi.interfere (@Interferes.contexts w n w.cancelled (w.nextContext + 1))
    exact .inactive hi'.pooled (hoff (by rw [hpc]; rfl)) rfl nofun
  | loadStopped hpc =>
    refine .inactive hi.pooled (hoff (by rw [hpc]; rfl)) ?_ ?_ <;> cases v.stopped <;>
      simp [Pc.holding, Pc.head]
  | @lockGranted k c server hpc hc hg =>
    obtain ⟨-, -, hown, -, hnext⟩ := grant_cases hg
    exact ⟨fun d hd ↦ (hi.pooled d hd).server hnext,
      fun _ ↦ ⟨c, rfl, (hi.pooled c hc).server hnext, .inl hown⟩,
      fun _ ↦ hoff (by rw [hpc]; rfl), nofun, nofun⟩
  | lockFailed hpc hs =>
    exact .inactive (fun d hd ↦ (hi.pooled d hd).server (failed_next hs))
      (hoff (by rw [hpc]; rfl)) rfl nofun
  | lockCanceled hpc hs hk =>
    refine .inactive nofun (hoff (by rw [hpc]; rfl)) ?_ nofun
    cases v.stopped <;> rfl
  | @lockTimeout k c hpc hc howner =>
    refine .inactive hi.pooled (hoff (by rw [hpc]; rfl)) rfl fun _ d hd ↦ ?_
    rw [hc] at hd
    cases hd
    exact howner
  | lockNull hpc => exact .inactive hi.pooled (hoff (by rw [hpc]; rfl)) rfl nofun
  | retry hpc => exact .inactive nofun (hoff (by rw [hpc]; rfl)) rfl nofun
  | disconnect hpc => exact .inactive nofun (hoff (by rw [hpc]; rfl)) rfl nofun
  | onActivating hpc | activated hpc =>
    exact hi.move rfl rfl (by simp [hpc, Pc.holding]) (fun _ ↦ hoff (by rw [hpc]; rfl)) nofun nofun
  | storeActive hpc =>
    exact hi.move rfl rfl (fun _ ↦ .inr (by rw [hpc]; rfl)) nofun (by simp) nofun
  | clearActive hpc => exact .inactive hi.pooled (Int.le_refl 0) rfl nofun
  | signal hpc => exact .inactive hi.pooled (hoff (by rw [hpc]; rfl)) rfl nofun
  | setStopped | loadCancel | noCancel =>
    exact hi.move rfl rfl id hi.backup (fun hh ha ↦ ⟨hh, ha⟩) hi.primary
  | callCancel =>
    exact (hi.interfere .contexts).move rfl rfl id hi.backup (fun hh ha ↦ ⟨hh, ha⟩) hi.primary

theorem Fresh.server {server : Server} (h : Fresh w) (hnext : server.next = w.server.next) :
    Fresh { w with server := server } := by
  intro c hc
  rw [hnext]
  exact h c hc

theorem Fresh.close (h : Fresh w) (db : DB) : Fresh (w.close db) := by
  unfold World.close
  split
  · exact h.server rfl
  · exact h

theorem Fresh.abandon {db : DB} (h : Fresh w)
    (hc : ∀ c, db.connection = some c → c < w.server.next) : Fresh (w.abandon db) := by
  unfold World.abandon
  split
  · next c hdb =>
    intro d hd
    by_cases hdc : d = c
    · exact hdc ▸ hc c hdb
    · exact h d ((update_of_ne hdc _ _).symm.trans hd)
  · exact h

theorem Acts.fresh {a : Action} (h : Acts w n v a v' w') (hfresh : Fresh w)
    (hi : NodeInv w n v) : Fresh w' := by
  cases h with
  | dial => exact fun c hc ↦ Nat.lt_succ_of_lt (hfresh c hc)
  | lockGranted _ _ hg => exact hfresh.server (grant_cases hg).2.2.2.2
  | lockFailed _ hs => exact hfresh.server (failed_next hs)
  | lockCanceled _ hs =>
    refine (hfresh.server (failed_next hs)).abandon fun c hc ↦ ?_
    rw [failed_next hs]
    exact (hi.pooled c hc).1
  | retry | disconnect => exact hfresh.close v.db
  | _ => exact hfresh

structure Inv (s : State) : Prop where
  fresh : Fresh s.world
  nodes : ∀ n, NodeInv s.world n (s.nodes n)

theorem node_step {a : Action} (h : step s (.node n a) = some t) :
    ∃ v w, Acts s.world n (s.nodes n) a v w ∧ t = ⟨w, update s.nodes n v⟩ := by
  obtain ⟨⟨v, w⟩, hact, rfl⟩ := Option.map_eq_some_iff.mp h
  exact ⟨v, w, act_acts hact, rfl⟩

theorem lose_step {c : ℕ} (h : step s (.lose c) = some t) : s.world.server.live c = true ∧
    t = { s with world := { s.world with
      server := s.world.server.close c
      lost := update s.world.lost c true } } := by
  simp only [step] at h
  split at h
  · next hc => cases h; exact ⟨hc.1, rfl⟩
  · cases h

theorem reap_step {c : ℕ} (h : step s (.reap c) = some t) : s.world.abandoned c = true ∧
    t = { s with world := { s.world with server := s.world.server.close c } } := by
  simp only [step] at h
  split at h
  · next hc => cases h; exact ⟨hc.2, rfl⟩
  · cases h

theorem grantAbandoned_step {c : ℕ} (h : step s (.grantAbandoned c) = some t) :
    s.world.abandoned c = true ∧ ∃ server, s.world.server.grant c = some server ∧
      t = { s with world := { s.world with server := server } } := by
  simp only [step] at h
  split at h
  · next hc =>
    obtain ⟨server, hs, rfl⟩ := Option.map_eq_some_iff.mp h
    exact ⟨hc, server, hs, rfl⟩
  · cases h

theorem interferes_lose (c : ℕ) : Interferes n w { w with
    server := w.server.close c
    lost := update w.lost c true } where
  owned _ hd := hd
  kept d hd ho := by
    by_cases hdc : d = c
    · exact .inr (hdc ▸ update_self _ _ _)
    · exact .inl (close_owner_of_ne hdc ho)
  lost d hd := by
    by_cases hdc : d = c
    · exact hdc ▸ update_self _ _ _
    · exact (update_of_ne hdc _ _).trans hd
  gained _ _ ho := owner_of_close ho

theorem Owned.ne {c d : ℕ} (hd : Owned w n d) (hc : w.abandoned c = true) : d ≠ c := by
  rintro rfl
  rw [hd.2.2] at hc
  cases hc

theorem step_inv {e : Event} (h : step s e = some t) (hi : Inv s) : Inv t := by
  cases e with
  | node m a =>
    obtain ⟨v, w, hacts, rfl⟩ := node_step h
    refine ⟨hacts.fresh hi.fresh (hi.nodes m), fun n ↦ ?_⟩
    by_cases hn : n = m
    · subst hn
      simp only [update_self]
      exact hacts.inv hi.fresh (hi.nodes n)
    · simp only [update_of_ne hn]
      exact (hi.nodes n).interfere (hacts.interferes (hi.nodes m) hn)
  | lose c =>
    obtain ⟨-, rfl⟩ := lose_step h
    exact ⟨hi.fresh, fun n ↦ (hi.nodes n).interfere (interferes_lose c)⟩
  | reap c =>
    obtain ⟨hc, rfl⟩ := reap_step h
    refine ⟨hi.fresh.server rfl, fun n ↦ (hi.nodes n).interfere ?_⟩
    exact interferes_server rfl (fun d hd ho ↦ close_owner_of_ne (hd.ne hc) ho)
      fun d _ ho ↦ owner_of_close ho
  | grantAbandoned c =>
    obtain ⟨hc, server, hg, rfl⟩ := grantAbandoned_step h
    obtain ⟨-, -, hown, -, hnext⟩ := grant_cases hg
    refine ⟨hi.fresh.server hnext, fun n ↦ (hi.nodes n).interfere ?_⟩
    refine interferes_server hnext (fun d _ ho ↦ grant_owner hg ho) fun d hd ho ↦ ?_
    rw [hown] at ho
    exact absurd (Option.some.inj ho).symm (hd.ne hc)

theorem initial_inv : Inv .initial := by
  refine ⟨nofun, fun n ↦ ⟨nofun, ?_, nofun, nofun, nofun⟩⟩
  intro ho
  simp [State.initial, Pc.holding] at ho

theorem Run.inv (h : Run es s) : Inv s :=
  invariant Inv (fun _ _ _ hi hs ↦ step_inv hs hi) h initial_inv

theorem Acts.lost_eq {a : Action} (h : Acts w n v a v' w') : w'.lost = w.lost := by
  cases h with
  | lockCanceled => rw [World.abandon_eq]
  | retry | disconnect => rw [World.close_eq]
  | _ => rfl

/-- Only a dial makes a connection live. -/
theorem Acts.dead {a : Action} (h : Acts w n v a v' w') {c : ℕ}
    (hne : c ≠ w.server.next ∨ a ≠ .dial) (hc : w.server.live c = false) :
    w'.server.live c = false := by
  cases h with
  | dial =>
    have hne : c ≠ w.server.next := hne.resolve_right (by simp)
    exact (update_of_ne hne _ _).trans hc
  | lockGranted _ hd hg => rwa [failed_live (.inr ⟨_, hd, hg⟩)]
  | lockFailed _ hs => rwa [failed_live hs]
  | lockCanceled _ hs =>
    rw [World.abandon_eq]
    rwa [failed_live hs]
  | retry | disconnect =>
    rw [World.close_eq]
    cases v.db.connection with
    | none => exact hc
    | some d => exact close_live hc
  | _ => exact hc

theorem Acts.next_le {a : Action} (h : Acts w n v a v' w') : w.server.next ≤ w'.server.next := by
  cases h with
  | dial => exact Nat.le_succ _
  | lockGranted _ hd hg => exact Nat.le_of_eq (failed_next (.inr ⟨_, hd, hg⟩)).symm
  | lockFailed _ hs => exact Nat.le_of_eq (failed_next hs).symm
  | lockCanceled _ hs =>
    rw [World.abandon_eq]
    exact Nat.le_of_eq (failed_next hs).symm
  | retry | disconnect =>
    rw [World.close_eq]
    cases v.db.connection <;> exact Nat.le_refl _
  | _ => exact Nat.le_refl _

theorem Acts.live {a : Action} (h : Acts w n v a v' w') {c : ℕ} (hlt : c < w.server.next)
    (hc : w.server.live c = false) : w'.server.live c = false ∧ c < w'.server.next :=
  ⟨h.dead (.inl (Nat.ne_of_lt hlt)) hc, Nat.lt_of_lt_of_le hlt h.next_le⟩

def Dead (w : World) : Prop :=
  ∀ c, w.lost c = true → w.server.live c = false ∧ c < w.server.next

theorem dead_step {e : Event} (h : step s e = some t) (hd : Dead s.world) : Dead t.world := by
  intro c hc
  cases e with
  | node n a =>
    obtain ⟨v, w, hacts, rfl⟩ := node_step h
    rw [hacts.lost_eq] at hc
    obtain ⟨hlive, hlt⟩ := hd c hc
    exact hacts.live hlt hlive
  | lose d =>
    obtain ⟨hlive, rfl⟩ := lose_step h
    by_cases hcd : c = d
    · subst hcd
      exact ⟨update_self _ _ _, s.world.server.live_lt c hlive⟩
    · obtain ⟨hdead, hlt⟩ := hd c ((update_of_ne hcd _ _).symm.trans hc)
      exact ⟨close_live hdead, hlt⟩
  | reap d =>
    obtain ⟨-, rfl⟩ := reap_step h
    exact ⟨close_live (hd c hc).1, (hd c hc).2⟩
  | grantAbandoned d =>
    obtain ⟨-, server, hg, rfl⟩ := grantAbandoned_step h
    obtain ⟨-, -, -, hlive, hnext⟩ := grant_cases hg
    exact ⟨by rw [hlive]; exact (hd c hc).1, by rw [hnext]; exact (hd c hc).2⟩

def Succeeds (n c : ℕ) (e : Event) (t : State) : Prop :=
  (e = .node n (.hasLock true) ∧ (t.nodes n).pc = .checked true ∨ e = .node n .lockGranted) ∧
    (t.nodes n).db.connection = some c

theorem acquired_step {e : Event} (h : step s e = some t) (n : ℕ) :
    ((t.nodes n).acquired = (s.nodes n).acquired ∧ ∀ d, ¬ Succeeds n d e t) ∨
      ∃ d, Succeeds n d e t ∧ (t.nodes n).acquired = some d ∧
        t.world.server.owner = some d := by
  cases e with
  | node m a =>
    obtain ⟨v, w, hacts, rfl⟩ := node_step h
    by_cases hn : n = m
    · subst hn
      unfold Succeeds
      simp only [update_self]
      cases hacts with
      | @locked c hpc hc howner => exact .inr ⟨c, ⟨.inl ⟨rfl, rfl⟩, hc⟩, rfl, howner⟩
      | @lockGranted k c server hpc hc hg =>
        exact .inr ⟨c, ⟨.inr rfl, hc⟩, rfl, (grant_cases hg).2.2.1⟩
      | _ => exact .inl ⟨rfl, by simp⟩
    · refine .inl ⟨by simp only [update_of_ne hn], ?_⟩
      rintro d ⟨⟨he, -⟩ | he, -⟩ <;> cases he <;> exact hn rfl
  | lose c =>
    obtain ⟨-, rfl⟩ := lose_step h
    exact .inl ⟨rfl, by simp [Succeeds]⟩
  | reap c =>
    obtain ⟨-, rfl⟩ := reap_step h
    exact .inl ⟨rfl, by simp [Succeeds]⟩
  | grantAbandoned c =>
    obtain ⟨-, server, -, rfl⟩ := grantAbandoned_step h
    exact .inl ⟨rfl, by simp [Succeeds]⟩

/-- The last success of `hasLock` or `getLock` of node `n` was on connection
`c`, and the events `ys` have followed it. -/
def LastSuccess (es : List Event) (n c : ℕ) (ys : List Event) : Prop :=
  ∃ xs e u v, es = xs ++ e :: ys ∧ Run xs u ∧ step u e = some v ∧ Succeeds n c e v ∧
    ∀ ys₁ f ys₂ p q d, ys = ys₁ ++ f :: ys₂ → Run (xs ++ e :: ys₁) p → step p f = some q →
      ¬ Succeeds n d f q

theorem LastSuccess.snoc {c : ℕ} {ys : List Event} {e : Event} (h : LastSuccess es n c ys)
    (hs : Run es s) (hstep : step s e = some t) (hno : ∀ d, ¬ Succeeds n d e t) :
    LastSuccess (es ++ [e]) n c (ys ++ [e]) := by
  obtain ⟨xs, f, u, v, rfl, hu, hv, hsucc, hlast⟩ := h
  refine ⟨xs, f, u, v, by simp, hu, hv, hsucc, ?_⟩
  intro ys₁ g ys₂ p q d hsplit hp hq
  rcases List.eq_nil_or_concat ys₂ with rfl | ⟨ys₂, g', rfl⟩
  · obtain ⟨rfl, hg⟩ := List.append_inj' hsplit rfl
    cases hg
    cases Option.some.inj (hs.symm.trans hp)
    cases Option.some.inj (hstep.symm.trans hq)
    exact hno d
  · have hsplit' : ys ++ [e] = (ys₁ ++ g :: ys₂) ++ [g'] := by simpa using hsplit
    exact hlast ys₁ g ys₂ p q d (List.append_inj' hsplit' rfl).1 hp hq

def LostLock (es : List Event) (n : ℕ) : Prop :=
  ∃ c ys, LastSuccess es n c ys ∧ .lose c ∈ ys

theorem lost_step {e : Event} (h : step s e = some t) {c : ℕ} (hc : t.world.lost c = true) :
    s.world.lost c = true ∨ e = .lose c := by
  cases e with
  | node n a =>
    obtain ⟨v, w, hacts, rfl⟩ := node_step h
    rw [hacts.lost_eq] at hc
    exact .inl hc
  | lose d =>
    obtain ⟨-, rfl⟩ := lose_step h
    by_cases hcd : c = d
    · exact .inr (by rw [hcd])
    · exact .inl ((update_of_ne hcd _ _).symm.trans hc)
  | reap d => obtain ⟨-, rfl⟩ := reap_step h; exact .inl hc
  | grantAbandoned d => obtain ⟨-, server, -, rfl⟩ := grantAbandoned_step h; exact .inl hc

theorem Run.lastSuccess (h : Run es s) {c : ℕ} (hc : (s.nodes n).acquired = some c) :
    ∃ ys, LastSuccess es n c ys ∧ (s.world.lost c = true → .lose c ∈ ys) := by
  have hP := history (fun es s ↦ Dead s.world ∧ ∀ c, (s.nodes n).acquired = some c →
    ∃ ys, LastSuccess es n c ys ∧ (s.world.lost c = true → .lose c ∈ ys)) ?_ ?_ h
  · exact hP.2 c hc
  · exact ⟨nofun, nofun⟩
  · rintro xs u e v hu ⟨hdead, ih⟩ hstep
    refine ⟨dead_step hstep hdead, fun c hc ↦ ?_⟩
    rcases acquired_step hstep n with ⟨hsame, hno⟩ | ⟨d, hsucc, hacq, howner⟩
    · rw [hsame] at hc
      obtain ⟨ys, hlast, hlost⟩ := ih c hc
      refine ⟨ys ++ [e], hlast.snoc hu hstep hno, fun hl ↦ ?_⟩
      rcases lost_step hstep hl with hl | rfl
      · exact List.mem_append_left _ (hlost hl)
      · simp
    · rw [hc] at hacq
      cases hacq
      refine ⟨[], ⟨xs, e, u, v, rfl, hu, hstep, hsucc, by simp⟩, fun hl ↦ ?_⟩
      have hdead' := (dead_step hstep hdead c hl).1
      rw [v.world.server.owner_live c howner] at hdead'
      cases hdead'

theorem at_most_one_primary (h : Run es s) :
    (∀ a b, a ≠ b → (s.nodes a).isActive → (s.nodes b).isActive →
      LostLock es a ∨ LostLock es b) ∧
    ((∀ c, .lose c ∉ es) → ∀ a b, (s.nodes a).isActive → (s.nodes b).isActive → a = b) := by
  have hlost {a c : ℕ} (hc : (s.nodes a).acquired = some c) (hl : s.world.lost c = true) :
      LostLock es a := by
    obtain ⟨ys, hlast, hmem⟩ := h.lastSuccess hc
    exact ⟨c, ys, hlast, hmem hl⟩
  have hpair (a b : ℕ) (hab : a ≠ b) (ha : (s.nodes a).isActive) (hb : (s.nodes b).isActive) :
      LostLock es a ∨ LostLock es b := by
    obtain ⟨c, hc, hown, ho | hl⟩ := (h.inv.nodes a).owns (.inl (of_decide_eq_true ha))
    · obtain ⟨d, hd, hown', ho' | hl⟩ := (h.inv.nodes b).owns (.inl (of_decide_eq_true hb))
      · rw [ho] at ho'
        cases ho'
        exact absurd (Option.some.inj (hown.2.1.symm.trans hown'.2.1)) hab
      · exact .inr (hlost hd hl)
    · exact .inl (hlost hc hl)
  refine ⟨hpair, fun hnone a b ha hb ↦ ?_⟩
  have hnot (m : ℕ) : ¬ LostLock es m := by
    rintro ⟨c, ys, ⟨xs, e, u, v, rfl, -⟩, hm⟩
    exact hnone c (by simp [hm])
  by_contra hab
  exact (hpair a b hab ha hb).elim (hnot a) (hnot b)

def promote (n : ℕ) : List Event :=
  [.begin, .connect true, .dial, .hasLock true, .swapActive, .storeCancel, .loadStopped,
    .lockGranted, .onActivating, .activated, .storeActive].map (.node n)

theorem at_most_one_primary_failover :
    ∃ s, Run (promote 0 ++ .lose 0 :: promote 1) s ∧ (s.nodes 0).isActive ∧
      (s.nodes 1).isActive ∧ (LostLock (promote 0 ++ .lose 0 :: promote 1) 0 ∨
        LostLock (promote 0 ++ .lose 0 :: promote 1) 1) := by
  obtain ⟨s, hs, hactive⟩ := Option.map_eq_some_iff.mp
    (show (exec step .initial (promote 0 ++ .lose 0 :: promote 1)).map
      (fun s ↦ ((s.nodes 0).isActive, (s.nodes 1).isActive)) = some (true, true) by
      decide +kernel)
  obtain ⟨h0, h1⟩ := Prod.mk.inj hactive
  exact ⟨s, hs, h0, h1, (at_most_one_primary hs).1 0 1 (by decide) h0 h1⟩

end Fireworq.MySQL.Activator
