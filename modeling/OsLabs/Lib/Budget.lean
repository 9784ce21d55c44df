import OsLabs.Lib.ExceptRules

/-!
# Computations that draw on a budget

A computation draws `amount` units when it returns as long as the units in use stay below
the limit, and stops with the fault of an exhausted budget otherwise.  The amounts of a
sequence add up, so the amount decides how the whole computation ends.
-/

set_option autoImplicit false

namespace OsLabs.Budget

open OsLabs.ExceptRules

variable {Fault α β : Type}

/-- What holds of a result depends on the units in use by then. -/
structure Draws (limit : Nat) (fault : Fault) (used amount : Nat) (post : Nat → α → Prop)
    (run : Except Fault α) : Prop where
  returns : used + amount < limit → ∃ result, run = .ok result ∧ post (used + amount) result
  stops : limit ≤ used + amount → run = .error fault

section Rules

variable {limit used amount : Nat} {fault : Fault} {post : Nat → α → Prop}
  {run : Except Fault α}

theorem Draws.ok {value : α} (room : used < limit) (holds : post used value) :
    Draws limit fault used 0 post (.ok value) := by
  constructor
  · intro _
    exact ⟨value, rfl, holds⟩
  · intro full
    omega

theorem Draws.bind {first second : Nat} {middle : Nat → β → Prop} {begin : Except Fault β}
    {next : β → Except Fault α} (start : Draws limit fault used first middle begin)
    (rest : ∀ value, used + first < limit → middle (used + first) value →
      Draws limit fault (used + first) second post (next value)) :
    Draws limit fault used (first + second) post (begin >>= next) := by
  constructor
  · intro room
    obtain ⟨value, ran, holds⟩ := start.returns (by omega)
    rw [ran, ok_bind, ← Nat.add_assoc]
    exact (rest value (by omega) holds).returns (by omega)
  · intro full
    by_cases room : used + first < limit
    · obtain ⟨value, ran, holds⟩ := start.returns room
      rw [ran, ok_bind]
      exact (rest value room holds).stops (by omega)
    · rw [start.stops (not_lt.mp room), error_bind]

theorem Draws.map {middle : Nat → β → Prop} {begin : Except Fault β}
    {next : β → Except Fault α} (start : Draws limit fault used amount middle begin)
    (rest : ∀ value, used + amount < limit → middle (used + amount) value →
      ∃ result, next value = .ok result ∧ post (used + amount) result) :
    Draws limit fault used amount post (begin >>= next) := by
  rw [← Nat.add_zero amount]
  apply start.bind
  intro value room holds
  obtain ⟨result, ran, after⟩ := rest value room holds
  rw [ran]
  exact Draws.ok room after

theorem Draws.exhausted_iff (draws : Draws limit fault used amount post run) :
    run = .error fault ↔ limit ≤ used + amount := by
  constructor
  · intro stopped
    by_contra room
    obtain ⟨result, ran, _⟩ := draws.returns (not_le.mp room)
    rw [ran] at stopped
    cases stopped
  · exact draws.stops

end Rules

end OsLabs.Budget
