import Mathlib.Data.List.Basic
import Mathlib.Data.Nat.Digits.Defs
import Mathlib.Tactic

/-!
# Words, lines and numerals

A line is read as the words between separators, empty ones left out; a text is read
as its lines, each with the newline that ends it; a word of decimal digits is read as
the number it was written from.
-/

set_option autoImplicit false

namespace OsLabs.Text

variable {α β : Type}

/-! ## Words -/

section Words

variable [BEq α]

/-- The nonempty pieces of `line` between occurrences of `separator`. -/
def words (separator : α) (line : List α) : List (List α) :=
  (line.splitOn separator).filter fun word => !word.isEmpty

variable [LawfulBEq α] {separator : α}

theorem words_separator (rest : List α) :
    words separator (separator :: rest) = words separator rest := by
  have split := List.splitOn_append_cons_self_of_not_mem (a := separator)
    (List.not_mem_nil) rest
  rw [List.nil_append] at split
  simp only [words, split, List.filter_cons, List.isEmpty_nil, Bool.not_true,
    Bool.false_eq_true, if_false]

theorem words_cons {word : List α} (some_letter : word ≠ []) (whole : separator ∉ word)
    (rest : List α) :
    words separator (word ++ separator :: rest) = word :: words separator rest := by
  have nonempty : (!word.isEmpty) = true := by
    simpa using some_letter
  simp only [words, List.splitOn_append_cons_self_of_not_mem whole, List.filter_cons,
    nonempty, if_true]

theorem words_written {items : List (List α)}
    (some_letter : ∀ word ∈ items, word ≠ []) (whole : ∀ word ∈ items, separator ∉ word)
    (rest : List α) :
    words separator (items.flatMap (fun word => word ++ [separator]) ++ rest) =
      items ++ words separator rest := by
  induction items with
  | nil => rfl
  | cons word items ih =>
      have tail := ih (fun other member => some_letter other (List.mem_cons_of_mem _ member))
        fun other member => whole other (List.mem_cons_of_mem _ member)
      rw [List.flatMap_cons, List.append_assoc, List.append_assoc, List.singleton_append,
        words_cons (some_letter word List.mem_cons_self) (whole word List.mem_cons_self),
        tail, List.cons_append]

end Words

/-! ## Lines -/

section Lines

variable [DecidableEq α]

/-- The lines of a text, each with its newline; the last one may lack it. -/
def lines (newline : α) : List α → List (List α)
  | [] => []
  | c :: rest =>
      if c = newline then [c] :: lines newline rest
      else
        match lines newline rest with
        | [] => [[c]]
        | line :: others => (c :: line) :: others

variable {newline : α}

theorem lines_cons {line : List α} (whole : newline ∉ line) (rest : List α) :
    lines newline (line ++ newline :: rest) =
      (line ++ [newline]) :: lines newline rest := by
  induction line with
  | nil => simp [lines]
  | cons c line ih =>
      have different : c ≠ newline := fun same => whole (by simp [same])
      have tail := ih fun member => whole (List.mem_cons_of_mem _ member)
      simp only [List.cons_append, lines, if_neg different, tail]

theorem lines_last {line : List α} (whole : newline ∉ line) (some_letter : line ≠ []) :
    lines newline line = [line] := by
  induction line with
  | nil => exact absurd rfl some_letter
  | cons c line ih =>
      have different : c ≠ newline := fun same => whole (by simp [same])
      cases line with
      | nil => simp [lines, different]
      | cons d line =>
          have tail := ih (fun member => whole (List.mem_cons_of_mem _ member)) (by simp)
          rw [lines, if_neg different, tail]

theorem lines_written {bodies : List (List α)} (whole : ∀ body ∈ bodies, newline ∉ body)
    (rest : List α) :
    lines newline (bodies.flatMap (fun body => body ++ [newline]) ++ rest) =
      bodies.map (fun body => body ++ [newline]) ++ lines newline rest := by
  induction bodies with
  | nil => rfl
  | cons body bodies ih =>
      have tail := ih fun other member => whole other (List.mem_cons_of_mem _ member)
      rw [List.flatMap_cons, List.append_assoc, List.append_assoc, List.singleton_append,
        lines_cons (whole body List.mem_cons_self), tail, List.map_cons, List.cons_append]

end Lines

/-! ## Groups of equal size -/

theorem group_at {items : List α} {group : α → List β} {size : Nat}
    (sizes : ∀ item, (group item).length = size) (rest : List β) (i : Nat)
    (bound : i < items.length) :
    ((items.flatMap group ++ rest).drop (size * i)).take size =
      group (items.get ⟨i, bound⟩) := by
  induction items generalizing i with
  | nil => exact absurd bound (Nat.not_lt_zero i)
  | cons item items ih =>
      rw [List.flatMap_cons, List.append_assoc]
      cases i with
      | zero =>
          rw [Nat.mul_zero, List.drop_zero]
          exact List.take_left' (sizes item)
      | succ i =>
          have later : size * (i + 1) = (group item).length + size * i := by
            rw [sizes item, Nat.mul_succ, Nat.add_comm]
          rw [later, ← List.drop_drop, List.drop_left]
          exact ih i (Nat.lt_of_succ_lt_succ bound)

theorem flatMap_length {items : List α} {group : α → List β} {size : Nat}
    (sizes : ∀ item, (group item).length = size) :
    (items.flatMap group).length = size * items.length := by
  simp [List.length_flatMap, sizes, Nat.mul_comm]

/-! ## Numerals -/

def decimalValue (word : List Char) : Option Nat :=
  if word ≠ [] ∧ word.all Char.isDigit then some (Nat.ofDigitChars 10 word 0) else none

theorem isDigit_of_mem_decimal {n : Nat} {c : Char} (member : c ∈ Nat.toDigits 10 n) :
    c.isDigit = true :=
  Nat.isDigit_of_mem_toDigits (by decide) (by decide) member

theorem not_mem_decimal {c : Char} (other : c.isDigit = false) (n : Nat) :
    c ∉ Nat.toDigits 10 n := by
  intro member
  have digit := isDigit_of_mem_decimal member
  rw [other] at digit
  exact Bool.false_ne_true digit

@[simp] theorem decimalValue_toDigits (n : Nat) :
    decimalValue (Nat.toDigits 10 n) = some n := by
  have digits : (Nat.toDigits 10 n).all Char.isDigit = true := by
    rw [List.all_eq_true]
    intro c member
    exact isDigit_of_mem_decimal member
  rw [decimalValue, if_pos ⟨Nat.toDigits_ne_nil, digits⟩, Nat.ofDigitChars_ten_toDigits]

end OsLabs.Text
