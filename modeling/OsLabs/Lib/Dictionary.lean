import Mathlib.Data.List.AList
import Mathlib.Tactic

/-!
# Dictionaries filled from a list

Items with keys of their own are all found again in the dictionary they were inserted
into, and every other key is as it was.
-/

set_option autoImplicit false

namespace OsLabs.Dictionary

variable {Key Item Value : Type} [DecidableEq Key]

def insertAll (key : Item → Key) (value : Item → Value) (items : List Item)
    (dict : AList fun _ : Key => Value) : AList fun _ : Key => Value :=
  items.foldl (fun dict item => dict.insert (key item) (value item)) dict

variable {key : Item → Key} {value : Item → Value}

theorem insertAll_cons (item : Item) (rest : List Item) (dict : AList fun _ : Key => Value) :
    insertAll key value (item :: rest) dict =
      insertAll key value rest (dict.insert (key item) (value item)) := rfl

theorem lookup_insertAll_other {items : List Item} {other : Key}
    (absent : ∀ item ∈ items, key item ≠ other) (dict : AList fun _ : Key => Value) :
    (insertAll key value items dict).lookup other = dict.lookup other := by
  induction items generalizing dict with
  | nil => rfl
  | cons item rest ih =>
      have here : other ≠ key item := (absent item List.mem_cons_self).symm
      rw [insertAll_cons, ih fun later member => absent later (List.mem_cons_of_mem _ member),
        AList.lookup_insert_ne here]

theorem lookup_insertAll {items : List Item} (once : (items.map key).Nodup) {item : Item}
    (member : item ∈ items) (dict : AList fun _ : Key => Value) :
    (insertAll key value items dict).lookup (key item) = some (value item) := by
  induction items generalizing dict with
  | nil => cases member
  | cons first rest ih =>
      rw [List.map_cons, List.nodup_cons] at once
      rw [insertAll_cons]
      rcases List.mem_cons.mp member with rfl | later
      · have absent : ∀ other ∈ rest, key other ≠ key item :=
          fun other present same => once.1 (same ▸ List.mem_map_of_mem present)
        rw [lookup_insertAll_other absent, AList.lookup_insert]
      · exact ih once.2 later _

theorem mem_insertAll {items : List Item} {dict : AList fun _ : Key => Value} {k : Key} :
    k ∈ insertAll key value items dict ↔ k ∈ dict ∨ ∃ item ∈ items, key item = k := by
  induction items generalizing dict with
  | nil => simp [insertAll]
  | cons item rest ih =>
      rw [insertAll_cons, ih, AList.mem_insert]
      constructor
      · rintro ((same | old) | ⟨later, member, same⟩)
        · exact Or.inr ⟨item, List.mem_cons_self, same.symm⟩
        · exact Or.inl old
        · exact Or.inr ⟨later, List.mem_cons_of_mem _ member, same⟩
      · rintro (old | ⟨later, member, same⟩)
        · exact Or.inl (Or.inr old)
        · rcases List.mem_cons.mp member with rfl | there
          · exact Or.inl (Or.inl same.symm)
          · exact Or.inr ⟨later, there, same⟩

end OsLabs.Dictionary
