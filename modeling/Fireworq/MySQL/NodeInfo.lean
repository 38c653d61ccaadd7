import Fireworq.MySQL.Stop

namespace Fireworq.MySQL.Activator

open NamedLock Execution Function

structure NodeInfo where
  id : ℕ
  host : List Char
  deriving DecidableEq

def stripPort (host : List Char) : List Char :=
  match host.reverse.dropWhile (· ≠ ':') with
  | [] => host
  | _ :: rest => rest.reverse

/-- `primaryBackupJobQueue.Node` on any node: the row of `processlist` for the
connection that owns the lock. -/
def nodeInfo (host : ℕ → List Char) (server : Server) : Option NodeInfo :=
  server.owner.bind fun c ↦
    if server.live c then some ⟨c, stripPort (host c)⟩ else none

structure Hosts (host : ℕ → List Char) (address : ℕ → List Char) (w : World) : Prop where
  host : ∀ c n, w.dialer c = some n → ∃ port, ':' ∉ port ∧ host c = address n ++ ':' :: port

theorem stripPort_append {address port : List Char} (h : ':' ∉ port) :
    stripPort (address ++ ':' :: port) = address := by
  have hport : ∀ x ∈ port.reverse, (x ≠ ':' : Bool) = true := by
    intro x hx
    simp only [ne_eq, decide_not, Bool.not_eq_eq_eq_not, Bool.not_true, decide_eq_false_iff_not]
    rintro rfl
    exact h (List.mem_reverse.mp hx)
  unfold stripPort
  rw [List.reverse_append, List.reverse_cons, List.append_assoc,
    List.dropWhile_append_of_pos hport]
  simp

variable {w w' : World} {n : ℕ} {v v' : Node} {s t : State} {es : List Event} {a : Action}
  {host address : ℕ → List Char}

def Dialed (w : World) : Prop := ∀ c < w.server.next, ∃ n, w.dialer c = some n

theorem Acts.dialed (h : Acts w n v a v' w') (hd : Dialed w) : Dialed w' := by
  intro c hc
  by_cases hnew : c = w.server.next ∧ a = .dial
  · obtain ⟨rfl, rfl⟩ := hnew
    cases h
    exact ⟨n, update_self _ _ _⟩
  · have hne := not_and_or.mp hnew
    rw [h.dialer hne]
    refine hd c ?_
    cases h with
    | dial =>
      have hlt : c < w.server.next + 1 := hc
      have hne : c ≠ w.server.next := hne.resolve_right (by simp)
      omega
    | lockGranted _ hc' hg => rwa [← failed_next (.inr ⟨_, hc', hg⟩)]
    | lockFailed _ hs => rwa [← failed_next hs]
    | lockCanceled _ hs =>
      rw [World.abandon_eq] at hc
      rwa [← failed_next hs]
    | retry | disconnect =>
      rw [World.close_eq] at hc
      cases hdb : v.db.connection with
      | none => rwa [hdb] at hc
      | some d => rwa [hdb] at hc
    | _ => exact hc

theorem Dialed.step {e : Event} (hd : Dialed s.world) (h : step s e = some t) :
    Dialed t.world := by
  cases e with
  | node m a =>
    obtain ⟨v, w, hacts, rfl⟩ := node_step h
    exact hacts.dialed hd
  | lose c =>
    obtain ⟨-, rfl⟩ := lose_step h
    exact hd
  | reap c =>
    obtain ⟨-, rfl⟩ := reap_step h
    exact hd
  | grantAbandoned c =>
    obtain ⟨-, server, hg, rfl⟩ := grantAbandoned_step h
    intro d hlt
    rw [(grant_cases hg).2.2.2.2] at hlt
    exact hd d hlt

theorem Run.dialed (h : Run es s) : Dialed s.world :=
  invariant (fun s ↦ Dialed s.world) (fun _ _ _ hd hs ↦ hd.step hs) h
    fun c hc ↦ absurd hc (Nat.not_lt_zero c)

theorem nodeInfo_of_owner {server : Server} {c : ℕ} (h : server.owner = some c) :
    nodeInfo host server = some ⟨c, stripPort (host c)⟩ := by
  rw [nodeInfo, h, Option.bind_some, if_pos (server.owner_live c h)]

/-- The node is active although the server has lost the connection it got the lock
on. -/
def Deceived (s : State) (n : ℕ) : Prop :=
  ∃ c, (s.nodes n).acquired = some c ∧ s.world.lost c = true

/-- Every node that asks is told of the same connection. It is that of the active
node, unless the server has lost it; and whoever else is active has lost its. -/
theorem node_names_primary (h : Run es s) (hhost : Hosts host address s.world) :
    (∀ n, 0 < (s.nodes n).active → Deceived s n ∨ ∃ c, (s.nodes n).acquired = some c ∧
      nodeInfo host s.world.server = some ⟨c, address n⟩) ∧
    (∀ info, nodeInfo host s.world.server = some info →
      ∃ n, s.world.dialer info.id = some n ∧ info.host = address n ∧
        ∀ m, 0 < (s.nodes m).active → m = n ∨ Deceived s m) ∧
    (nodeInfo host s.world.server = none → ∀ n, 0 < (s.nodes n).active → Deceived s n) := by
  have hactive : ∀ n, 0 < (s.nodes n).active → Deceived s n ∨
      ∃ c, (s.nodes n).acquired = some c ∧ s.world.server.owner = some c ∧
        s.world.dialer c = some n := by
    intro n hn
    obtain ⟨c, hacq, hown, howner | hlost⟩ := (h.inv.nodes n).owns (.inl hn)
    · exact .inr ⟨c, hacq, howner, hown.2.1⟩
    · exact .inl ⟨c, hacq, hlost⟩
  have hstrip : ∀ c n, s.world.dialer c = some n → stripPort (host c) = address n := by
    intro c n hd
    obtain ⟨port, hport, heq⟩ := hhost.host c n hd
    rw [heq, stripPort_append hport]
  refine ⟨fun n hn ↦ ?_, fun info hinfo ↦ ?_, fun hnone n hn ↦ ?_⟩
  · refine (hactive n hn).imp_right fun ⟨c, hacq, howner, hdialer⟩ ↦ ⟨c, hacq, ?_⟩
    rw [nodeInfo_of_owner howner, hstrip c n hdialer]
  · obtain ⟨c, howner, -⟩ := Option.bind_eq_some_iff.mp hinfo
    rw [nodeInfo_of_owner howner] at hinfo
    cases hinfo
    obtain ⟨n, hn⟩ := h.dialed c (owner_lt howner)
    refine ⟨n, hn, hstrip c n hn, fun m hm ↦ ?_⟩
    rcases hactive m hm with hm | ⟨d, -, hd, hdialer⟩
    · exact .inr hm
    · rw [howner] at hd
      cases hd
      exact .inl (Option.some.inj (hdialer.symm.trans hn))
  · rcases hactive n hn with hn | ⟨c, -, howner, -⟩
    · exact hn
    · rw [nodeInfo_of_owner howner] at hnone
      cases hnone

theorem node_names_primary_promoted : ∃ s, Run (promote 0) s ∧ 0 < (s.nodes 0).active ∧
    nodeInfo (fun _ ↦ "10.0.0.1:3000".toList) s.world.server = some ⟨0, "10.0.0.1".toList⟩ := by
  obtain ⟨s, hs, hval⟩ := Option.map_eq_some_iff.mp
    (show (exec step .initial (promote 0)).map (fun s ↦ ((s.nodes 0).active,
      (s.nodes 0).acquired, s.world.lost 0)) = some (1, some 0, false) by decide +kernel)
  obtain ⟨hactive, hval⟩ := Prod.mk.inj hval
  obtain ⟨hacquired, hlost⟩ := Prod.mk.inj hval
  have hpos : 0 < (s.nodes 0).active := by omega
  have hhost : Hosts (fun _ ↦ "10.0.0.1:3000".toList) (fun _ ↦ "10.0.0.1".toList) s.world :=
    ⟨fun _ _ _ ↦ ⟨"3000".toList, by decide, by decide⟩⟩
  refine ⟨s, hs, hpos, ?_⟩
  rcases (node_names_primary hs hhost).1 0 hpos with ⟨c, hc, hl⟩ | ⟨c, hc, hinfo⟩
  · cases hacquired.symm.trans hc
    rw [hlost] at hl
    cases hl
  · cases hacquired.symm.trans hc
    exact hinfo

end Fireworq.MySQL.Activator
