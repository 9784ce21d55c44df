import Mathlib.Data.List.Nodup
import Mathlib.Tactic

/-!
# Positional numerals

A numeral is a row of letters of an alphabet; the position of a letter in the alphabet is
its digit, and the length of the alphabet is the base.
-/

set_option autoImplicit false

namespace OsLabs.Numeral

variable {Letter : Type} [DecidableEq Letter] {alphabet : List Letter}

def value (alphabet digits : List Letter) : Nat :=
  digits.foldl (fun number letter => number * alphabet.length + alphabet.idxOf letter) 0

structure IsNumeral (alphabet digits : List Letter) : Prop where
  nonempty : digits ≠ []
  letters : ∀ letter ∈ digits, letter ∈ alphabet

structure Shortest (alphabet : List Letter) (number : Nat) (digits : List Letter) : Prop where
  numeral : IsNumeral alphabet digits
  value : value alphabet digits = number
  least : ∀ other, IsNumeral alphabet other → Numeral.value alphabet other = number →
    digits.length ≤ other.length

@[simp] theorem value_append (digits : List Letter) (letter : Letter) :
    value alphabet (digits ++ [letter]) =
      value alphabet digits * alphabet.length + alphabet.idxOf letter := by
  simp [value]

theorem value_lt {digits : List Letter} (letters : ∀ letter ∈ digits, letter ∈ alphabet) :
    value alphabet digits < alphabet.length ^ digits.length := by
  induction digits using List.reverseRecOn with
  | nil => exact Nat.one_pos
  | append_singleton digits letter ih =>
      have front := ih fun other member => letters other (List.mem_append_left _ member)
      have last := List.idxOf_lt_length_of_mem
        (letters letter (List.mem_append_right _ List.mem_cons_self))
      rw [value_append, List.length_append, List.length_singleton, pow_succ]
      calc value alphabet digits * alphabet.length + alphabet.idxOf letter
          < value alphabet digits * alphabet.length + alphabet.length := by omega
        _ = (value alphabet digits + 1) * alphabet.length := by ring
        _ ≤ alphabet.length ^ digits.length * alphabet.length :=
          Nat.mul_le_mul_right _ front

structure Canonical (alphabet : List Letter) (number : Nat) (digits : List Letter) : Prop where
  numeral : IsNumeral alphabet digits
  value : value alphabet digits = number
  leading : digits.length = 1 ∨ alphabet.length ^ (digits.length - 1) ≤ number

theorem Canonical.shortest {number : Nat} {digits : List Letter} (base : 1 < alphabet.length)
    (canonical : Canonical alphabet number digits) : Shortest alphabet number digits where
  numeral := canonical.numeral
  value := canonical.value
  least other otherNumeral same := by
    rcases canonical.leading with single | large
    · rw [single]
      exact List.length_pos_iff.mpr otherNumeral.nonempty
    · have bound := value_lt otherNumeral.letters
      rw [same] at bound
      have shorter := (Nat.pow_lt_pow_iff_right base).mp (large.trans_lt bound)
      omega

theorem canonical_letter {number : Nat} {letter : Letter} (member : letter ∈ alphabet)
    (digit : alphabet.idxOf letter = number) : Canonical alphabet number [letter] where
  numeral := ⟨List.cons_ne_nil _ _, fun _ same => by rwa [List.mem_singleton.mp same]⟩
  value := by simpa [Numeral.value] using digit
  leading := Or.inl rfl

/-- The numeral of a larger number is that of its quotient and the letter of its remainder. -/
theorem Canonical.extend {number : Nat} {digits : List Letter} {letter : Letter}
    (quotient : number / alphabet.length ≠ 0)
    (front : Canonical alphabet (number / alphabet.length) digits)
    (member : letter ∈ alphabet) (digit : alphabet.idxOf letter = number % alphabet.length) :
    Canonical alphabet number (digits ++ [letter]) where
  numeral := by
    refine ⟨List.append_ne_nil_of_right_ne_nil _ (List.cons_ne_nil _ _), ?_⟩
    intro other inside
    rcases List.mem_append.mp inside with old | new
    · exact front.numeral.letters other old
    · rwa [List.mem_singleton.mp new]
  value := by
    rw [value_append, front.value, digit, Nat.mul_comm]
    exact Nat.div_add_mod number alphabet.length
  leading := by
    have base : 0 < alphabet.length := List.length_pos_of_mem member
    right
    rw [List.length_append, List.length_singleton, Nat.add_sub_cancel]
    rcases front.leading with single | large
    · rw [single, pow_one]
      exact Nat.le_of_not_lt fun small => quotient (Nat.div_eq_of_lt small)
    · have some_digit := List.length_pos_iff.mpr front.numeral.nonempty
      rw [← Nat.sub_add_cancel some_digit, pow_succ]
      exact (Nat.le_div_iff_mul_le base).mp large

end OsLabs.Numeral
