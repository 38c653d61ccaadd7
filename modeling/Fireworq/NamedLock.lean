import Mathlib.Data.Nat.Notation
import Mathlib.Logic.Function.Basic

namespace Fireworq.NamedLock

open Function

/-- A server with one named lock. The lock is owned by a connection, which is
alive as long as it owns it; connections are numbered in the order in which
they are opened. -/
structure Server where
  owner : Option ℕ
  live : ℕ → Bool
  next : ℕ
  owner_live : ∀ c, owner = some c → live c = true
  live_lt : ∀ c, live c = true → c < next

def Server.initial : Server where
  owner := none
  live := fun _ ↦ false
  next := 0
  owner_live := nofun
  live_lt := nofun

def Server.dial (s : Server) : Server where
  owner := s.owner
  live := update s.live s.next true
  next := s.next + 1
  owner_live c hc := by
    by_cases h : c = s.next
    · rw [h, update_self]
    · rw [update_of_ne h]
      exact s.owner_live c hc
  live_lt c hc := by
    by_cases h : c = s.next
    · omega
    · rw [update_of_ne h] at hc
      exact Nat.lt_succ_of_lt (s.live_lt c hc)

def Server.close (s : Server) (c : ℕ) : Server where
  owner := if s.owner = some c then none else s.owner
  live := update s.live c false
  next := s.next
  owner_live d hd := by
    split at hd
    · cases hd
    · next h =>
      have hne : d ≠ c := fun he ↦ h (he ▸ hd)
      rw [update_of_ne hne]
      exact s.owner_live d hd
  live_lt d hd := by
    by_cases h : d = c
    · rw [h, update_self] at hd
      cases hd
    · rw [update_of_ne h] at hd
      exact s.live_lt d hd

def Server.grant (s : Server) (c : ℕ) : Option Server :=
  if h : s.live c = true ∧ (s.owner = none ∨ s.owner = some c) then
    some {
      owner := some c
      live := s.live
      next := s.next
      owner_live := fun d hd ↦ by cases hd; exact h.1
      live_lt := s.live_lt }
  else none

variable {s t : Server} {c d : ℕ}

theorem grant_cases (h : s.grant c = some t) :
    s.live c = true ∧ (s.owner = none ∨ s.owner = some c) ∧ t.owner = some c ∧
      t.live = s.live ∧ t.next = s.next := by
  unfold Server.grant at h
  split at h
  · next hg =>
    cases h
    exact ⟨hg.1, hg.2, rfl, rfl, rfl⟩
  · cases h

/-- A grant takes the lock from nobody. -/
theorem grant_owner (h : s.grant c = some t) (hd : s.owner = some d) : t.owner = some d := by
  obtain ⟨-, hfree | hown, ht, -, -⟩ := grant_cases h
  · rw [hd] at hfree
    cases hfree
  · rw [ht, ← hown, hd]

theorem close_owner_of_ne (h : d ≠ c) (hd : s.owner = some d) : (s.close c).owner = some d := by
  have hne : ¬ s.owner = some c := by
    rw [hd]
    exact fun he ↦ h (Option.some.inj he)
  exact (if_neg hne).trans hd

theorem owner_of_close (h : (s.close c).owner = some d) : s.owner = some d := by
  unfold Server.close at h
  dsimp only at h
  split at h
  · cases h
  · exact h

theorem close_live (h : s.live c = false) : (s.close d).live c = false := by
  by_cases hcd : c = d
  · exact hcd ▸ update_self _ _ _
  · exact (update_of_ne hcd _ _).trans h

theorem owner_lt (h : s.owner = some c) : c < s.next := s.live_lt c (s.owner_live c h)

end Fireworq.NamedLock
