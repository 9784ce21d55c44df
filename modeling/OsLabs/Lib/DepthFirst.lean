import Mathlib.Data.Fintype.Order
import Mathlib.Data.Set.Finite.Basic
import Mathlib.Logic.Relation
import Mathlib.Order.WellFounded
import Mathlib.Tactic

/-!
# Depth-first search without a visited set

A node has a row of items: some are what is searched for, some lead to another node.  The
search takes the items in order and stops at the first hit.  It ends exactly when the links
that it follows form no loop.
-/

set_option autoImplicit false

namespace OsLabs.DepthFirst

open Relation

inductive Item (Node Hit : Type) where
  | skip
  | hit (found : Hit)
  | link (node : Node)

variable {Node Hit : Type} (items : Node → List (Item Node Hit))

/-! ## The search -/

/-- The items of one node; the outer `none` is for a search that was given up. -/
def searchItems (search : Node → Option (Option Hit)) :
    List (Item Node Hit) → Option (Option Hit)
  | [] => some none
  | .skip :: rest => searchItems search rest
  | .hit found :: _ => some (some found)
  | .link node :: rest =>
      match search node with
      | none => none
      | some (some found) => some (some found)
      | some none => searchItems search rest

def search : Nat → Node → Option (Option Hit)
  | 0, _ => none
  | fuel + 1, node => searchItems (search fuel) (items node)

def Ends (node : Node) : Prop := ∃ fuel result, search items fuel node = some result

/-! ## The graph -/

def Leads (node child : Node) : Prop := .link child ∈ items node

def Fruitful (node : Node) : Prop :=
  ∃ below, ReflTransGen (Leads items) node below ∧ ∃ found, .hit found ∈ items below

def Passed : Item Node Hit → Prop
  | .skip => True
  | .hit _ => False
  | .link node => ¬ Fruitful items node

/-- A link that the search follows when it is at the node. -/
def Follows (node child : Node) : Prop :=
  ∃ front back, items node = front ++ .link child :: back ∧ ∀ item ∈ front, Passed items item

def Visited (root node : Node) : Prop := ReflTransGen (Follows items) root node

variable {items}

theorem Follows.leads {node child : Node} (follows : Follows items node child) :
    Leads items node child := by
  obtain ⟨front, back, row, _⟩ := follows
  unfold Leads
  rw [row]
  exact List.mem_append_right _ List.mem_cons_self

theorem Visited.reaches {root node : Node} (visited : Visited items root node) :
    ReflTransGen (Leads items) root node := by
  induction visited with
  | refl => exact .refl
  | tail _ follows ih => exact ih.tail follows.leads

/-! ## Results -/

theorem searchItems_none {searched : Node → Option (Option Hit)}
    (right : ∀ node, searched node = some none → ¬ Fruitful items node)
    {row : List (Item Node Hit)} (result : searchItems searched row = some none) :
    ∀ item ∈ row, Passed items item := by
  induction row with
  | nil => simp
  | cons item row ih =>
      cases item with
      | skip => simpa [Passed] using ih result
      | hit found => cases result
      | link node =>
          simp only [searchItems] at result
          split at result
          · cases result
          · cases result
          · next nothing => simpa [Passed, right node nothing] using ih result

theorem search_none {fuel : Nat} {node : Node}
    (result : search items fuel node = some none) : ¬ Fruitful items node := by
  induction fuel generalizing node with
  | zero => cases result
  | succ fuel ih =>
      have passed := searchItems_none (fun _ => ih) result
      rintro ⟨below, path, found, here⟩
      rcases path.cases_head with rfl | ⟨child, leads, onward⟩
      · exact passed _ here
      · exact passed _ leads ⟨below, onward, found, here⟩

/-- A hit that is found is an item that stands behind passed ones, or is found behind a link
that is followed. -/
theorem searchItems_some {searched : Node → Option (Option Hit)}
    (right : ∀ node, searched node = some none → ¬ Fruitful items node)
    {row : List (Item Node Hit)} {found : Hit}
    (result : searchItems searched row = some (some found)) :
    ∃ front item back, row = front ++ item :: back ∧ (∀ item ∈ front, Passed items item) ∧
      (item = .hit found ∨ ∃ node, item = .link node ∧ searched node = some (some found)) := by
  induction row with
  | nil => cases result
  | cons item row ih =>
      have later (passed : Passed items item)
          (result : searchItems searched row = some (some found)) :
          ∃ front other back, item :: row = front ++ other :: back ∧
            (∀ item ∈ front, Passed items item) ∧ (other = .hit found ∨
              ∃ node, other = .link node ∧ searched node = some (some found)) := by
        obtain ⟨front, other, back, rfl, before, last⟩ := ih result
        refine ⟨item :: front, other, back, rfl, ?_, last⟩
        simpa [passed] using before
      cases item with
      | skip => exact later trivial result
      | hit first =>
          cases result
          exact ⟨[], .hit found, row, rfl, by simp, Or.inl rfl⟩
      | link node =>
          simp only [searchItems] at result
          split at result
          · cases result
          · next first hit =>
              cases result
              exact ⟨[], .link node, row, rfl, by simp, Or.inr ⟨node, rfl, hit⟩⟩
          · next nothing => exact later (right node nothing) result

theorem search_some {fuel : Nat} {node : Node} {found : Hit}
    (result : search items fuel node = some (some found)) :
    ∃ below, Visited items node below ∧ .hit found ∈ items below := by
  induction fuel generalizing node with
  | zero => cases result
  | succ fuel ih =>
      obtain ⟨front, item, back, row, before, last⟩ :=
        searchItems_some (fun _ => search_none) result
      rcases last with rfl | ⟨child, rfl, deeper⟩
      · refine ⟨node, .refl, ?_⟩
        rw [row]
        exact List.mem_append_right _ List.mem_cons_self
      · obtain ⟨below, visited, here⟩ := ih deeper
        exact ⟨below, visited.head ⟨front, back, row, before⟩, here⟩

/-! ## When the search ends -/

theorem searchItems_more {searched further : Node → Option (Option Hit)}
    (same : ∀ node result, searched node = some result → further node = some result)
    {row : List (Item Node Hit)} {result : Option Hit}
    (done : searchItems searched row = some result) :
    searchItems further row = some result := by
  induction row with
  | nil => exact done
  | cons item row ih =>
      cases item with
      | skip => exact ih done
      | hit found => exact done
      | link node =>
          simp only [searchItems] at done ⊢
          split at done
          · cases done
          · next found hit =>
              rw [same _ _ hit]
              exact done
          · next nothing =>
              rw [same _ _ nothing]
              exact ih done

theorem search_more {fuel more : Nat} {node : Node} {result : Option Hit}
    (done : search items fuel node = some result) (enough : fuel ≤ more) :
    search items more node = some result := by
  induction fuel generalizing more node result with
  | zero => cases done
  | succ fuel ih =>
      obtain ⟨more, rfl⟩ := Nat.exists_eq_succ_of_ne_zero (by omega : more ≠ 0)
      exact searchItems_more (fun _ _ here => ih here (Nat.le_of_succ_le_succ enough)) done

theorem searchItems_follows {fuel : Nat} {front back : List (Item Node Hit)} {child : Node}
    {result : Option Hit} (before : ∀ item ∈ front, Passed items item)
    (done : searchItems (search items fuel) (front ++ .link child :: back) = some result) :
    ∃ result, search items fuel child = some result := by
  induction front with
  | nil =>
      simp only [List.nil_append, searchItems] at done
      split at done
      · cases done
      · next found hit => exact ⟨_, hit⟩
      · next nothing => exact ⟨_, nothing⟩
  | cons item front ih =>
      rw [List.forall_mem_cons] at before
      cases item with
      | skip => exact ih before.2 done
      | hit found => exact before.1.elim
      | link node =>
          simp only [List.cons_append, searchItems] at done
          split at done
          · cases done
          · next found hit =>
              obtain ⟨below, visited, here⟩ := search_some hit
              exact absurd ⟨below, visited.reaches, found, here⟩ before.1
          · exact ih before.2 done

theorem Ends.acc {node : Node} (ends : Ends items node) :
    Acc (fun child node => Follows items node child) node := by
  obtain ⟨fuel, result, done⟩ := ends
  induction fuel generalizing node result with
  | zero => cases done
  | succ fuel ih =>
      constructor
      rintro child ⟨front, back, row, before⟩
      rw [search, row] at done
      obtain ⟨inner, deeper⟩ := searchItems_follows before done
      exact ih inner deeper

theorem searchItems_ends {node : Node}
    (below : ∀ child, Follows items node child → Ends items child)
    {front row : List (Item Node Hit)} (whole : items node = front ++ row)
    (before : ∀ item ∈ front, Passed items item) :
    ∃ fuel result, searchItems (search items fuel) row = some result := by
  induction row generalizing front with
  | nil => exact ⟨0, none, rfl⟩
  | cons item row ih =>
      have later (passed : Passed items item) :
          ∃ fuel result, searchItems (search items fuel) row = some result := by
        refine @ih (front ++ [item]) ?_ ?_
        · rw [whole, List.append_assoc]
          rfl
        · intro other member
          rcases List.mem_append.mp member with old | new
          · exact before other old
          · rwa [List.mem_singleton.mp new]
      cases item with
      | skip => exact later trivial
      | hit found => exact ⟨0, some found, rfl⟩
      | link child =>
          obtain ⟨fuel, result, done⟩ := below child ⟨front, row, whole, before⟩
          cases result with
          | some found =>
              refine ⟨fuel, some found, ?_⟩
              simp only [searchItems, done]
          | none =>
              obtain ⟨more, result, rest⟩ := later (search_none done)
              refine ⟨max fuel more, result, ?_⟩
              simp only [searchItems, search_more done (Nat.le_max_left fuel more)]
              exact searchItems_more
                (fun _ _ here => search_more here (Nat.le_max_right fuel more)) rest

theorem Ends.of_acc {node : Node}
    (acc : Acc (fun child node => Follows items node child) node) : Ends items node := by
  induction acc with
  | intro node _ ih =>
      obtain ⟨fuel, result, done⟩ := @searchItems_ends _ _ items node ih [] _ rfl (by simp)
      exact ⟨fuel + 1, result, done⟩

theorem follows_later {chain : Nat → Node}
    (step : ∀ n, Follows items (chain n) (chain (n + 1))) (first more : Nat) :
    TransGen (Follows items) (chain first) (chain (first + more + 1)) := by
  induction more with
  | zero => exact .single (step first)
  | succ more ih => exact ih.tail (step (first + more + 1))

/-- Among finitely many nodes the search ends unless the links that it follows lead from some
node back to it. -/
theorem ends_iff {root : Node} (finite : {node | Visited items root node}.Finite) :
    Ends items root ↔
      ¬ ∃ node, Visited items root node ∧ TransGen (Follows items) node node := by
  constructor
  · rintro ends ⟨node, visited, loop⟩
    have here : Acc (fun child node => Follows items node child) node := by
      clear loop
      induction visited with
      | refl => exact ends.acc
      | tail _ follows ih => exact ih.inv follows
    have around : TransGen (fun child node => Follows items node child) node node :=
      transGen_swap.mpr loop
    exact not_acc_iff_exists_descending_chain.mpr
      ⟨fun _ => node, rfl, fun _ => around⟩ here.transGen
  · intro noLoop
    apply Ends.of_acc
    by_contra endless
    obtain ⟨chain, start, step⟩ := not_acc_iff_exists_descending_chain.mp endless
    have visited (n : Nat) : Visited items root (chain n) := by
      induction n with
      | zero =>
          rw [start]
          exact .refl
      | succ n ih => exact ih.tail (step n)
    have twice : ¬ Function.Injective chain := by
      intro injective
      exact Set.infinite_of_injective_forall_mem injective visited finite
    obtain ⟨first, second, same, different⟩ := Function.not_injective_iff.mp twice
    have loop (i j : Nat) (same : chain i = chain j) (before : i < j) : False := by
      have around := follows_later step i (j - i - 1)
      rw [show i + (j - i - 1) + 1 = j by omega, ← same] at around
      exact noLoop ⟨chain i, visited i, around⟩
    rcases Nat.lt_or_gt_of_ne different with before | before
    · exact loop first second same before
    · exact loop second first same.symm before

end OsLabs.DepthFirst
