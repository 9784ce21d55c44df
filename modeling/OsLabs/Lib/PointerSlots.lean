import Mathlib.Data.Nat.Basic
import Mathlib.Tactic

/-!
# Slots that hold pointers

Some slots are in use, and each holds a number; 0 is the null pointer.  `Linked` says
that the pointers go to targets and that no two slots hold the same one.  Filling a
slot with a pointer that no slot holds keeps it, and so does taking empty slots and
new targets into use.
-/

set_option autoImplicit false

namespace OsLabs.PointerSlots

variable {Slot : Type} {valid valid' : Slot → Prop} {target target' : Nat → Prop}
  {word word' : Slot → Nat}

structure Linked (valid : Slot → Prop) (target : Nat → Prop) (word : Slot → Nat) : Prop where
  target : ∀ slot, valid slot → word slot ≠ 0 → target (word slot)
  unique : ∀ slot other, valid slot → valid other → word slot ≠ 0 →
    word other = word slot → other = slot

def Unheld (valid : Slot → Prop) (word : Slot → Nat) (pointer : Nat) : Prop :=
  ∀ slot, valid slot → word slot ≠ pointer

theorem Linked.unheld (linked : Linked valid target word) {pointer : Nat}
    (positive : pointer ≠ 0) (outside : ¬ target pointer) : Unheld valid word pointer := by
  intro slot slotValid same
  have inside := linked.target slot slotValid (by rwa [same])
  rw [same] at inside
  exact outside inside

theorem Linked.fill (linked : Linked valid target word) (filled : Slot → Prop)
    (others : ∀ slot, valid slot → ¬ filled slot → word' slot = word slot)
    (toTarget : ∀ slot, filled slot → target (word' slot))
    (unheld : ∀ slot, filled slot → Unheld valid word (word' slot))
    (apart : ∀ slot other, filled slot → filled other → word' other = word' slot →
      other = slot) :
    Linked valid target word' := by
  refine ⟨?_, ?_⟩
  · intro slot slotValid nonzero
    by_cases new : filled slot
    · exact toTarget slot new
    · rw [others slot slotValid new] at nonzero ⊢
      exact linked.target slot slotValid nonzero
  · intro slot other slotValid otherValid nonzero equal
    by_cases slotNew : filled slot
    · by_cases otherNew : filled other
      · exact apart slot other slotNew otherNew equal
      · rw [others other otherValid otherNew] at equal
        exact absurd equal (unheld slot slotNew other otherValid)
    · rw [others slot slotValid slotNew] at nonzero equal
      by_cases otherNew : filled other
      · exact absurd equal.symm (unheld other otherNew slot slotValid)
      · rw [others other otherValid otherNew] at equal
        exact linked.unique slot other slotValid otherValid nonzero equal

theorem Unheld.fill {pointer : Nat} (unheld : Unheld valid word pointer)
    (filled : Slot → Prop)
    (others : ∀ slot, valid slot → ¬ filled slot → word' slot = word slot)
    (different : ∀ slot, filled slot → word' slot ≠ pointer) :
    Unheld valid word' pointer := by
  intro slot slotValid
  by_cases new : filled slot
  · exact different slot new
  · rw [others slot slotValid new]
    exact unheld slot slotValid

theorem Linked.grow (linked : Linked valid target word)
    (targets : ∀ pointer, target pointer → target' pointer)
    (fresh : ∀ slot, valid' slot → valid slot ∨ word slot = 0) :
    Linked valid' target' word := by
  refine ⟨?_, ?_⟩
  · intro slot slotValid nonzero
    have old := (fresh slot slotValid).resolve_right nonzero
    exact targets _ (linked.target slot old nonzero)
  · intro slot other slotValid otherValid nonzero equal
    have slotOld := (fresh slot slotValid).resolve_right nonzero
    have otherOld := (fresh other otherValid).resolve_right (by rwa [equal])
    exact linked.unique slot other slotOld otherOld nonzero equal

theorem Unheld.grow {pointer : Nat} (unheld : Unheld valid word pointer)
    (positive : pointer ≠ 0) (fresh : ∀ slot, valid' slot → valid slot ∨ word slot = 0) :
    Unheld valid' word pointer := by
  intro slot slotValid same
  rcases fresh slot slotValid with old | empty
  · exact unheld slot old same
  · rw [empty] at same
    exact positive same.symm

end OsLabs.PointerSlots
