import Mathlib.Tactic

/-!
# The printf engine of lib.c

`printer_vprintf` computes the characters it hands to `putc`, whatever device prints
them.  Widths, precisions and lengths are unbounded numbers here; `IntPrinter` has them as
the `int`s of the source, and says when both print the same.  Arguments are the words and
strings of the variable argument list; reading an argument that the caller has not passed
is undefined in C and reads as zero here.
-/

set_option autoImplicit false

namespace OsLabs.Weensy

inductive VaArg where
  | word (value : BitVec 64)
  | string (chars : List Char)

/-- `va_arg` for a type of one word, and the arguments that remain. -/
def vaWord : List VaArg → BitVec 64 × List VaArg
  | [] => (0#64, [])
  | .word value :: rest => (value, rest)
  | .string _ :: rest => (0#64, rest)

/-- `va_arg(val, char*)`. -/
def vaString : List VaArg → List Char × List VaArg
  | [] => ([], [])
  | .string chars :: rest => (chars, rest)
  | .word _ :: rest => ([], rest)

/-- `va_arg(val, int)`. -/
def vaInt (args : List VaArg) : Int × List VaArg :=
  (((vaWord args).1.setWidth 32).toInt, (vaWord args).2)

/-- `length ? va_arg(val, long) : va_arg(val, int)`. -/
def vaSigned (length : Bool) (args : List VaArg) : Int × List VaArg :=
  if length then ((vaWord args).1.toInt, (vaWord args).2) else vaInt args

/-- `length ? va_arg(val, unsigned long) : va_arg(val, unsigned)`. -/
def vaUnsigned (length : Bool) (args : List VaArg) : Nat × List VaArg :=
  if length then ((vaWord args).1.toNat, (vaWord args).2)
  else (((vaWord args).1.setWidth 32).toNat, (vaWord args).2)

/-! ## fill_numbuf -/

def upperDigits : List Char :=
  ['0', '1', '2', '3', '4', '5', '6', '7', '8', '9', 'A', 'B', 'C', 'D', 'E', 'F']

def lowerDigits : List Char :=
  ['0', '1', '2', '3', '4', '5', '6', '7', '8', '9', 'a', 'b', 'c', 'd', 'e', 'f']

/-- The `do` loop of `fill_numbuf` while `room` bytes are left before `numbuf_end`. -/
def fillDigits (digits : List Char) (base : Nat) : Nat → Nat → List Char → List Char
  | 0, _, numbuf => numbuf
  | room + 1, val, numbuf =>
      let numbuf := digits.getD (val % base) '0' :: numbuf
      if val / base ≠ 0 then fillDigits digits base room (val / base) numbuf else numbuf

/-- `NUMBUFSIZ`. -/
def numbufsiz : Nat := 24

/-- `fill_numbuf`; the last byte of the buffer is for the terminator. -/
def fillNumbuf (val : Nat) (base : Int) : List Char :=
  fillDigits (if base < 0 then lowerDigits else upperDigits) base.natAbs (numbufsiz - 1)
    val []

theorem upperDigits_decimal {d : Nat} (below : d < 10) :
    upperDigits.getD d '0' = Nat.digitChar d := by
  interval_cases d <;> rfl

theorem fillDigits_decimal {room val : Nat} (enough : val < 10 ^ room) (some_room : 0 < room)
    (numbuf : List Char) :
    fillDigits upperDigits 10 room val numbuf = Nat.toDigits 10 val ++ numbuf := by
  induction room generalizing val numbuf with
  | zero => exact absurd some_room (Nat.lt_irrefl 0)
  | succ room ih =>
      have digit := upperDigits_decimal (Nat.mod_lt val (by decide : 10 > 0))
      rw [fillDigits, digit, Nat.toDigits_eq_if (by decide)]
      by_cases small : val < 10
      · have none_left : val / 10 = 0 := Nat.div_eq_of_lt small
        rw [if_neg (not_not.mpr none_left), if_pos small, Nat.mod_eq_of_lt small]
        rfl
      · have left : val / 10 ≠ 0 := by omega
        have bound : val / 10 < 10 ^ room := by
          rw [pow_succ] at enough
          omega
        have more : 0 < room := by
          by_contra zero
          have none_left : room = 0 := by omega
          rw [none_left, pow_zero] at bound
          omega
        rw [if_pos left, if_neg small, ih bound more, List.append_assoc]
        rfl

theorem fillNumbuf_decimal {val : Nat} (bound : val < 2 ^ 64) :
    fillNumbuf val 10 = Nat.toDigits 10 val := by
  have enough : val < 10 ^ (numbufsiz - 1) := lt_of_lt_of_le bound (by decide)
  have digits := fillDigits_decimal enough (by decide) []
  rw [List.append_nil] at digits
  exact digits

theorem mem_fillDigits {digits : List Char} {base room val : Nat} {numbuf : List Char}
    {c : Char} (member : c ∈ fillDigits digits base room val numbuf) :
    c ∈ '0' :: digits ∨ c ∈ numbuf := by
  induction room generalizing val numbuf with
  | zero => exact Or.inr member
  | succ room ih =>
      have digit : digits.getD (val % base) '0' ∈ '0' :: digits := by
        rw [List.getD_eq_getElem?_getD]
        cases found : digits[val % base]? with
        | none => exact List.mem_cons_self
        | some d => exact List.mem_cons_of_mem _ (List.mem_of_getElem? found)
      have here : ∀ {c : Char}, c ∈ digits.getD (val % base) '0' :: numbuf →
          c ∈ '0' :: digits ∨ c ∈ numbuf := by
        intro c inside
        rcases List.mem_cons.mp inside with rfl | old
        · exact Or.inl digit
        · exact Or.inr old
      rw [fillDigits] at member
      split at member
      · exact (ih member).elim Or.inl here
      · exact here member

/-! ## Directives -/

/-- The bits of `flags`. -/
structure Flags where
  alt : Bool
  zero : Bool
  leftjustify : Bool
  spacepositive : Bool
  pluspositive : Bool
  numeric : Bool
  signed : Bool
  negative : Bool
  alt2 : Bool

def noFlags : Flags :=
  ⟨false, false, false, false, false, false, false, false, false⟩

def processFlags : Flags → List Char → Flags × List Char
  | flags, [] => (flags, [])
  | flags, c :: rest =>
      if c = '#' then processFlags { flags with alt := true } rest
      else if c = '0' then processFlags { flags with zero := true } rest
      else if c = '-' then processFlags { flags with leftjustify := true } rest
      else if c = ' ' then processFlags { flags with spacepositive := true } rest
      else if c = '+' then processFlags { flags with pluspositive := true } rest
      else (flags, c :: rest)

def processNumber : Int → List Char → Int × List Char
  | number, [] => (number, [])
  | number, c :: rest =>
      if c.isDigit then processNumber (10 * number + (c.toNat - 48 : Nat)) rest
      else (number, c :: rest)

def processWidth : List Char → List VaArg → Int × List Char × List VaArg
  | [], args => (-1, [], args)
  | c :: rest, args =>
      if c.isDigit ∧ c ≠ '0' then
        let (width, rest) := processNumber 0 (c :: rest)
        (width, rest, args)
      else if c = '*' then
        let (width, args) := vaInt args
        (width, rest, args)
      else (-1, c :: rest, args)

/-- The precision after a `.`, -1 when there is none. -/
def processPrecision : List Char → List VaArg → Int × List Char × List VaArg
  | '.' :: c :: rest, args =>
      if c.isDigit then
        let (precision, rest) := processNumber 0 (c :: rest)
        (precision, rest, args)
      else if c = '*' then
        let (precision, args) := vaInt args
        (max precision 0, rest, args)
      else (0, c :: rest, args)
  | ['.'], args => (0, [], args)
  | format, args => (-1, format, args)

/-- The variables that the main conversion character sets. -/
structure Conversion where
  flags : Flags
  base : Int
  num : Nat
  data : List Char

def unsignedConversion (flags : Flags) (base : Int) (num : Nat) : Conversion :=
  ⟨{ flags with numeric := true }, base, num, []⟩

/-- The `switch` on the main conversion character.  There is no conversion for `C`,
which sets the color. -/
def convert (flags : Flags) :
    Bool → List Char → List VaArg → Option Conversion × List Char × List VaArg
  | _, [], args => (some ⟨flags, 10, 0, ['%']⟩, [], args)
  | length, c :: rest, args =>
      if c = 'l' ∨ c = 'z' then convert flags true rest args
      else if c = 'd' ∨ c = 'i' then
        let (x, args) := vaSigned length args
        (some ⟨{ flags with numeric := true, signed := true, negative := x < 0 }, 10,
          x.natAbs, []⟩, rest, args)
      else if c = 'u' then
        let (num, args) := vaUnsigned length args
        (some (unsignedConversion flags 10 num), rest, args)
      else if c = 'x' then
        let (num, args) := vaUnsigned length args
        (some (unsignedConversion flags (-16) num), rest, args)
      else if c = 'X' then
        let (num, args) := vaUnsigned length args
        (some (unsignedConversion flags 16 num), rest, args)
      else if c = 'p' then
        let (num, args) := vaUnsigned true args
        (some (unsignedConversion { flags with alt := true, alt2 := true } (-16) num), rest,
          args)
      else if c = 's' then
        let (data, args) := vaString args
        (some ⟨flags, 10, 0, data⟩, rest, args)
      else if c = 'C' then (none, rest, (vaInt args).2)
      else if c = 'c' then
        let (value, args) := vaInt args
        let byte := (value % 256).toNat
        (some ⟨flags, 10, 0, if byte = 0 then [] else [Char.ofNat byte]⟩, rest, args)
      else (some ⟨flags, 10, 0, [c]⟩, rest, args)

/-- `prefix`. -/
def Conversion.sign (conversion : Conversion) : List Char :=
  let flags := conversion.flags
  if flags.numeric ∧ flags.signed then
    if flags.negative then ['-']
    else if flags.pluspositive then ['+']
    else if flags.spacepositive then [' ']
    else []
  else if flags.numeric ∧ flags.alt ∧ (conversion.base = 16 ∨ conversion.base = -16) ∧
      (conversion.num ≠ 0 ∨ flags.alt2) then
    if conversion.base = -16 then ['0', 'x'] else ['0', 'X']
  else []

/-- The characters of a conversion: padding, prefix, zeros and data. -/
def Conversion.emit (conversion : Conversion) (width precision : Int) : List Char :=
  let flags := conversion.flags
  let data := if flags.numeric then fillNumbuf conversion.num conversion.base
    else conversion.data
  let sign := conversion.sign
  let data := if 0 ≤ precision ∧ ¬ flags.numeric then data.take precision.toNat else data
  let len : Int := data.length
  let zeros : Int :=
    if flags.numeric ∧ 0 ≤ precision then (if precision > len then precision - len else 0)
    else if flags.numeric ∧ flags.zero ∧ ¬ flags.leftjustify ∧ len + sign.length < width then
      width - len - sign.length
    else 0
  let width := width - (len + zeros + sign.length)
  let padding := List.replicate width.toNat ' '
  (if flags.leftjustify then [] else padding) ++ sign ++
    List.replicate zeros.toNat '0' ++ data ++ (if flags.leftjustify then padding else [])

/-- What one directive prints, from the character after its `%`. -/
def directive (format : List Char) (args : List VaArg) :
    List Char × List Char × List VaArg :=
  let (flags, format) := processFlags noFlags format
  let (width, format, args) := processWidth format args
  let (precision, format, args) := processPrecision format args
  match convert flags false format args with
  | (some conversion, format, args) => (conversion.emit width precision, format, args)
  | (none, format, args) => ([], format, args)

/-- At most `fuel` iterations of the loop of `printer_vprintf`. -/
def printerLoop : Nat → List Char → List VaArg → List Char
  | 0, _, _ => []
  | _ + 1, [], _ => []
  | fuel + 1, c :: format, args =>
      if c ≠ '%' then c :: printerLoop fuel format args
      else
        let (printed, format, args) := directive format args
        printed ++ printerLoop fuel format args

/-- The loop from some place of the format on; an iteration consumes a character. -/
def printFrom (format : List Char) (args : List VaArg) : List Char :=
  printerLoop format.length format args

/-- `printer_vprintf`. -/
def printerVprintf (format : String) (args : List VaArg) : List Char :=
  printFrom format.toList args

/-- `snprintf(s, size, ...)`: the string that it leaves in `s`. -/
def snprintf (size : Nat) (format : String) (args : List VaArg) : List Char :=
  (printerVprintf format args).take (size - 1)

/-! ## The loop -/

theorem processFlags_length (flags : Flags) (format : List Char) :
    (processFlags flags format).2.length ≤ format.length := by
  induction format generalizing flags with
  | nil => exact le_refl 0
  | cons c rest ih =>
      have shorter : ∀ flags, (processFlags flags rest).2.length ≤ (c :: rest).length :=
        fun flags => (ih flags).trans (Nat.le_succ _)
      unfold processFlags
      split_ifs
      all_goals first
        | exact shorter _
        | exact le_refl _

theorem processNumber_length (number : Int) (format : List Char) :
    (processNumber number format).2.length ≤ format.length := by
  induction format generalizing number with
  | nil => exact le_refl 0
  | cons c rest ih =>
      unfold processNumber
      split_ifs
      · exact (ih _).trans (Nat.le_succ _)
      · exact le_refl _

theorem processWidth_length (format : List Char) (args : List VaArg) :
    (processWidth format args).2.1.length ≤ format.length := by
  cases format with
  | nil => exact le_refl 0
  | cons c rest =>
      simp only [processWidth]
      split_ifs
      · exact processNumber_length 0 (c :: rest)
      · exact Nat.le_succ _
      · exact le_refl _

theorem processPrecision_length (format : List Char) (args : List VaArg) :
    (processPrecision format args).2.1.length ≤ format.length := by
  unfold processPrecision
  split
  · next c rest =>
      split_ifs
      · exact (processNumber_length 0 (c :: rest)).trans (Nat.le_succ _)
      · exact (Nat.le_succ _).trans (Nat.le_succ _)
      · exact Nat.le_succ _
  · exact Nat.zero_le _
  · exact le_refl _

theorem rest_ite {condition : Prop} [Decidable condition]
    {yes no : Option Conversion × List Char × List VaArg} {n : Nat}
    (left : yes.2.1.length ≤ n) (right : no.2.1.length ≤ n) :
    (if condition then yes else no).2.1.length ≤ n := by
  split
  · exact left
  · exact right

theorem convert_length (flags : Flags) (length : Bool) (format : List Char)
    (args : List VaArg) : (convert flags length format args).2.1.length ≤ format.length := by
  induction format generalizing length args with
  | nil => exact le_refl 0
  | cons c rest ih =>
      have consumed : rest.length ≤ (c :: rest).length := Nat.le_succ _
      unfold convert
      apply rest_ite
      · exact (ih true args).trans consumed
      · repeat' apply rest_ite
        all_goals exact consumed

theorem directive_length (format : List Char) (args : List VaArg) :
    (directive format args).2.1.length ≤ format.length := by
  have flags := processFlags_length noFlags format
  have width := processWidth_length (processFlags noFlags format).2 args
  have precision := processPrecision_length
    (processWidth (processFlags noFlags format).2 args).2.1
    (processWidth (processFlags noFlags format).2 args).2.2
  unfold directive
  simp only
  split
  all_goals
    next converted =>
      have conversion := convert_length (processFlags noFlags format).1 false
        (processPrecision (processWidth (processFlags noFlags format).2 args).2.1
          (processWidth (processFlags noFlags format).2 args).2.2).2.1
        (processPrecision (processWidth (processFlags noFlags format).2 args).2.1
          (processWidth (processFlags noFlags format).2 args).2.2).2.2
      rw [converted] at conversion
      exact ((conversion.trans precision).trans width).trans flags

theorem printerLoop_fuel {fuel more : Nat} (format : List Char) (args : List VaArg)
    (enough : format.length ≤ fuel) (also : format.length ≤ more) :
    printerLoop fuel format args = printerLoop more format args := by
  induction fuel generalizing more format args with
  | zero =>
      have empty : format = [] := List.eq_nil_of_length_eq_zero (Nat.le_zero.mp enough)
      subst empty
      cases more <;> rfl
  | succ fuel ih =>
      cases format with
      | nil => cases more <;> rfl
      | cons c rest =>
          cases more with
          | zero => exact absurd also (Nat.not_succ_le_zero _)
          | succ more =>
              have left : rest.length ≤ fuel := Nat.le_of_succ_le_succ enough
              have right : rest.length ≤ more := Nat.le_of_succ_le_succ also
              have consumed := directive_length rest args
              unfold printerLoop
              rw [ih rest args left right]
              split
              · rfl
              · exact congrArg _ (ih _ _ (consumed.trans left) (consumed.trans right))

@[simp] theorem printFrom_nil (args : List VaArg) : printFrom [] args = [] := rfl

theorem printFrom_literal {front : List Char} (plain : '%' ∉ front) (rest : List Char)
    (args : List VaArg) : printFrom (front ++ rest) args = front ++ printFrom rest args := by
  induction front with
  | nil => rfl
  | cons c front ih =>
      have here : c ≠ '%' := fun same => plain (by rw [same]; exact List.mem_cons_self)
      have tail := ih fun member => plain (List.mem_cons_of_mem _ member)
      rw [printFrom, List.cons_append, List.length_cons, printerLoop, if_pos here]
      exact congrArg _ tail

theorem printFrom_directive (rest : List Char) (args : List VaArg) :
    printFrom ('%' :: rest) args = (directive rest args).1 ++
      printFrom (directive rest args).2.1 (directive rest args).2.2 := by
  rw [printFrom, List.length_cons, printerLoop, if_neg (not_not.mpr rfl)]
  exact congrArg _ (printerLoop_fuel _ _ (directive_length rest args) (le_refl _))

theorem printFrom_plain {format : List Char} (plain : '%' ∉ format) (args : List VaArg) :
    printFrom format args = format := by
  have whole := printFrom_literal plain [] args
  rwa [List.append_nil, printFrom_nil, List.append_nil] at whole

example : printerVprintf "%5d|%-4u|%04x|%+d|%s%%" [.word (-7), .word 42, .word 0xab,
    .word 3, .string ['o', 'k']] = "   -7|42  |00ab|+3|ok%".toList := by decide

/-! ## Directives without flags, width and precision -/

def intNumeral (x : Int) : List Char :=
  if x < 0 then '-' :: Nat.toDigits 10 x.natAbs else Nat.toDigits 10 x.natAbs

theorem Conversion.emit_plain (conversion : Conversion)
    (unpadded : conversion.flags.zero = false) :
    conversion.emit (-1) (-1) = conversion.sign ++
      if conversion.flags.numeric then fillNumbuf conversion.num conversion.base
      else conversion.data := by
  have negative : ¬ (0 : Int) ≤ -1 := by decide
  unfold Conversion.emit
  simp only [negative, false_and, and_false, if_false, unpadded, Bool.false_eq_true,
    Int.toNat_zero, List.replicate_zero, List.append_nil, add_zero]
  generalize (if conversion.flags.numeric = true then
    fillNumbuf conversion.num conversion.base else conversion.data) = data
  have none_left : (-1 - ((data.length : Int) + conversion.sign.length)).toNat = 0 := by
    omega
  rw [none_left, List.replicate_zero]
  simp

theorem directive_u (rest : List Char) (value : BitVec 64) (args : List VaArg) :
    directive ('u' :: rest) (.word value :: args) =
      (Nat.toDigits 10 (value.setWidth 32).toNat, rest, args) := by
  have small : (value.setWidth 32).toNat < 2 ^ 64 :=
    lt_trans (value.setWidth 32).isLt (by decide)
  have emitted := Conversion.emit_plain
    (unsignedConversion noFlags 10 (value.setWidth 32).toNat) rfl
  have printed : directive ('u' :: rest) (.word value :: args) =
      ((unsignedConversion noFlags 10 (value.setWidth 32).toNat).emit (-1) (-1), rest, args) :=
    rfl
  rw [printed, emitted, ← fillNumbuf_decimal small]
  rfl

theorem directive_d (rest : List Char) (value : BitVec 64) (args : List VaArg) :
    directive ('d' :: rest) (.word value :: args) =
      (intNumeral (value.setWidth 32).toInt, rest, args) := by
  generalize signed : (value.setWidth 32).toInt = x
  have small : x.natAbs < 2 ^ 64 := by
    have lower := BitVec.le_toInt (value.setWidth 32)
    have upper := BitVec.toInt_lt (x := value.setWidth 32)
    omega
  have printed : directive ('d' :: rest) (.word value :: args) =
      ((⟨{ noFlags with numeric := true, signed := true, negative := x < 0 }, 10, x.natAbs,
        []⟩ : Conversion).emit (-1) (-1), rest, args) := by
    rw [← signed]
    rfl
  have emitted := Conversion.emit_plain
    (⟨{ noFlags with numeric := true, signed := true, negative := x < 0 }, 10, x.natAbs,
      []⟩ : Conversion) rfl
  rw [printed, emitted, intNumeral, ← fillNumbuf_decimal small]
  by_cases negative : x < 0 <;> simp [Conversion.sign, noFlags, negative]

theorem directive_s (rest chars : List Char) (args : List VaArg) :
    directive ('s' :: rest) (.string chars :: args) = (chars, rest, args) := by
  have printed : directive ('s' :: rest) (.string chars :: args) =
      ((⟨noFlags, 10, 0, chars⟩ : Conversion).emit (-1) (-1), rest, args) := rfl
  have emitted := Conversion.emit_plain (⟨noFlags, 10, 0, chars⟩ : Conversion) rfl
  rw [printed, emitted]
  rfl

theorem directive_p (rest : List Char) (value : BitVec 64) (args : List VaArg) :
    directive ('p' :: rest) (.word value :: args) =
      (['0', 'x'] ++ fillNumbuf value.toNat (-16), rest, args) := by
  have printed : directive ('p' :: rest) (.word value :: args) =
      ((unsignedConversion { noFlags with alt := true, alt2 := true } (-16)
        value.toNat).emit (-1) (-1), rest, args) := rfl
  have emitted := Conversion.emit_plain (unsignedConversion
    { noFlags with alt := true, alt2 := true } (-16) value.toNat) rfl
  rw [printed, emitted]
  simp [Conversion.sign, unsignedConversion, noFlags]

end OsLabs.Weensy
