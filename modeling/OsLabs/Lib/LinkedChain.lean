import Mathlib.Data.List.Basic
import Mathlib.Logic.Function.Basic
import Mathlib.Tactic

/-!
# Singly linked lists

`next` holds the successor of every node.  A chain is the list of the nodes that a first
pointer leads to; it is determined by the pointer and never meets a node twice.
-/

set_option autoImplicit false

namespace OsLabs.LinkedChain

variable {Node : Type} {next next' : Node → Option Node} {first : Option Node}
  {node before removed : Node} {nodes others front back : List Node}

/-- The nodes from `first` on. -/
def Chain (next : Node → Option Node) : Option Node → List Node → Prop
  | first, [] => first = none
  | first, node :: rest => first = some node ∧ Chain next (next node) rest

theorem Chain.unique (chain : Chain next first nodes) (other : Chain next first others) :
    nodes = others := by
  induction nodes generalizing first others with
  | nil =>
      cases others with
      | nil => rfl
      | cons node rest =>
          rw [chain] at other
          cases other.1
  | cons node rest ih =>
      obtain ⟨rfl, tail⟩ := chain
      cases others with
      | nil => cases other
      | cons otherNode otherRest =>
          obtain ⟨same, otherTail⟩ := other
          cases same
          rw [ih tail otherTail]

theorem Chain.congr (chain : Chain next first nodes)
    (same : ∀ node ∈ nodes, next' node = next node) : Chain next' first nodes := by
  induction nodes generalizing first with
  | nil => exact chain
  | cons node rest ih =>
      obtain ⟨here, tail⟩ := chain
      refine ⟨here, ?_⟩
      rw [same node List.mem_cons_self]
      exact ih tail fun other member => same other (List.mem_cons_of_mem _ member)

theorem Chain.tail (chain : Chain next first (front ++ node :: back)) :
    Chain next (next node) back := by
  induction front generalizing first with
  | nil => exact chain.2
  | cons head rest ih => exact ih chain.2

theorem Chain.nodup (chain : Chain next first nodes) : nodes.Nodup := by
  induction nodes generalizing first with
  | nil => exact List.nodup_nil
  | cons node rest ih =>
      refine List.nodup_cons.mpr ⟨?_, ih chain.2⟩
      intro again
      obtain ⟨front, back, split⟩ := List.append_of_mem again
      have after := chain.2
      rw [split] at after
      have same := after.tail.unique chain.2
      have longer := congrArg List.length split
      rw [← same, List.length_append, List.length_cons] at longer
      omega

section Updates

variable [DecidableEq Node]

theorem Chain.push (chain : Chain next first nodes) (fresh : node ∉ nodes) :
    Chain (Function.update next node first) (some node) (node :: nodes) := by
  refine ⟨rfl, ?_⟩
  rw [Function.update_self]
  apply chain.congr
  intro other member
  apply Function.update_of_ne
  rintro rfl
  exact fresh member

/-- The node before takes over the successor of the one that is removed. -/
theorem Chain.unlink (chain : Chain next first (front ++ before :: removed :: back)) :
    Chain (Function.update (Function.update next before (next removed)) removed none) first
      (front ++ before :: back) := by
  have distinct := chain.nodup
  induction front generalizing first with
  | nil =>
      obtain ⟨here, _, rest⟩ := chain
      simp only [List.nil_append, List.nodup_cons, List.mem_cons, not_or] at distinct
      obtain ⟨⟨different, beforeBack⟩, removedBack, _⟩ := distinct
      refine ⟨here, ?_⟩
      rw [Function.update_of_ne different, Function.update_self]
      apply rest.congr
      intro other member
      rw [Function.update_of_ne, Function.update_of_ne]
      · rintro rfl
        exact beforeBack member
      · rintro rfl
        exact removedBack member
  | cons head rest ih =>
      obtain ⟨here, tail⟩ := chain
      rw [List.cons_append, List.nodup_cons] at distinct
      obtain ⟨apart, distinct⟩ := distinct
      simp only [List.mem_append, List.mem_cons, not_or] at apart
      refine ⟨here, ?_⟩
      rw [Function.update_of_ne apart.2.2.1, Function.update_of_ne apart.2.1]
      exact ih tail distinct

end Updates

end OsLabs.LinkedChain
