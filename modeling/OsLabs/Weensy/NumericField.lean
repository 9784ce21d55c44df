import OsLabs.Lib.Numeral
import OsLabs.Weensy.Directive

/-!
# Numeric fields of printer_vprintf

A numeric directive prints blanks, a prefix, zeros, the digits of its argument and blanks.
How many of each follows from the flags, the width, the precision and the value.  Widths
and precisions are taken to be in the range of an `int`.
-/

set_option autoImplicit false

namespace OsLabs.Weensy

open OsLabs.Numeral

/-! ## What a field should be -/

inductive NumericConversion where
  | d
  | i
  | u
  | x
  | X
  | p
  deriving DecidableEq, Repr

def NumericConversion.char : NumericConversion → Char
  | .d => 'd'
  | .i => 'i'
  | .u => 'u'
  | .x => 'x'
  | .X => 'X'
  | .p => 'p'

def NumericConversion.signed (conversion : NumericConversion) : Bool :=
  decide (conversion ∈ [.d, .i])

def NumericConversion.hex (conversion : NumericConversion) : Bool :=
  decide (conversion ∈ [.x, .X, .p])

def NumericConversion.alphabet : NumericConversion → List Char
  | .d | .i | .u => upperDigits.take 10
  | .x | .p => lowerDigits
  | .X => upperDigits

def NumericConversion.argument (long : Bool) (word : BitVec 64) :
    NumericConversion → Int
  | .d | .i => if long then word.toInt else (word.setWidth 32).toInt
  | .u | .x | .X => if long then word.toNat else (word.setWidth 32).toNat
  | .p => word.toNat

structure NumericDirective where
  parts : Directive
  conversion : NumericConversion
  wf : parts.Wf
  numeric : parts.conversion = some conversion.char

/-- The pieces of a printed number, blanks and zeros by their counts. -/
structure Field where
  left : Nat
  sign : List Char
  zeros : Nat
  digits : List Char
  right : Nat

def Field.text (field : Field) : List Char :=
  List.replicate field.left ' ' ++ (field.sign ++ (List.replicate field.zeros '0' ++
    (field.digits ++ List.replicate field.right ' ')))

/-- The absolute value, where a negation is taken modulo 2^64. -/
def magnitude (x : Int) : Nat := ((if x < 0 then -x else x) % 2 ^ 64).toNat

def Field.parse (alphabet : List Char) (field : Field) : Int :=
  if '-' ∈ field.sign then -(value alphabet field.digits : Int)
  else value alphabet field.digits

def NumericDirective.sign (directive : NumericDirective) (x : Int) : List Char :=
  let flags := directive.parts.flags
  if directive.conversion.signed then
    if x < 0 then ['-']
    else if '+' ∈ flags then ['+']
    else if ' ' ∈ flags then [' ']
    else []
  else if directive.conversion = .p ∨ directive.conversion.hex ∧ '#' ∈ flags ∧ x ≠ 0 then
    if directive.conversion = .X then ['0', 'X'] else ['0', 'x']
  else []

/-- The field of a value in a width and a precision, where there is one. -/
structure NumericDirective.Shapes (directive : NumericDirective) (width : Int)
    (precision : Option Int) (x : Int) (field : Field) : Prop where
  digits : Shortest directive.conversion.alphabet (magnitude x) field.digits
  parse : field.parse directive.conversion.alphabet = x
  sign : field.sign = directive.sign x
  zeros_precision : ∀ least, precision = some least →
    (field.zeros : Int) = max 0 (least - field.digits.length)
  zeros_width : precision = none → (field.zeros : Int) =
    if '0' ∈ directive.parts.flags ∧ '-' ∉ directive.parts.flags then
      max 0 (width - field.digits.length - field.sign.length)
    else 0
  length : (field.text.length : Int) =
    max width (field.sign.length + field.zeros + field.digits.length)
  left : '-' ∈ directive.parts.flags → field.left = 0
  right : '-' ∉ directive.parts.flags → field.right = 0

/-! ## Digits -/

/-- The base that `switch` sets for a conversion. -/
def NumericConversion.base : NumericConversion → Int
  | .d | .i | .u => 10
  | .x | .p => -16
  | .X => 16

section Digits

variable {digits alphabet : List Char} {base : Nat}

/-- The letters that `fill_numbuf` takes for the digits of a base. -/
def Spells (digits alphabet : List Char) (base : Nat) : Prop :=
  alphabet.length = base ∧ ∀ d < base,
    digits.getD d '0' ∈ alphabet ∧ alphabet.idxOf (digits.getD d '0') = d

theorem fillDigits_canonical (spells : Spells digits alphabet base) {room val : Nat}
    (enough : val < base ^ room) (some_room : 0 < room) (numbuf : List Char) :
    ∃ numeral, fillDigits digits base room val numbuf = numeral ++ numbuf ∧
      Canonical alphabet val numeral := by
  obtain ⟨rfl, letters⟩ := spells
  have positive : 0 < alphabet.length := by
    by_contra zero
    rw [Nat.le_zero.mp (Nat.le_of_not_lt zero), zero_pow some_room.ne'] at enough
    exact Nat.not_lt_zero _ enough
  induction room generalizing val numbuf with
  | zero => exact absurd some_room (Nat.lt_irrefl 0)
  | succ room ih =>
      obtain ⟨member, digit⟩ := letters (val % alphabet.length) (Nat.mod_lt _ positive)
      rw [fillDigits]
      by_cases more : val / alphabet.length = 0
      · rw [if_neg (not_not.mpr more)]
        refine ⟨_, rfl, canonical_letter member ?_⟩
        rw [digit]
        exact Nat.mod_eq_of_lt ((Nat.div_eq_zero_iff_lt positive).mp more)
      · have bound : val / alphabet.length < alphabet.length ^ room := by
          rw [pow_succ] at enough
          exact Nat.div_lt_of_lt_mul (by rwa [Nat.mul_comm])
        have room_left : 0 < room := by
          by_contra zero
          rw [Nat.le_zero.mp (Nat.le_of_not_lt zero), pow_zero] at bound
          exact more (Nat.lt_one_iff.mp bound)
        obtain ⟨numeral, filled, canonical⟩ := ih room_left
          (digits.getD (val % alphabet.length) '0' :: numbuf) bound
        refine ⟨numeral ++ [digits.getD (val % alphabet.length) '0'], ?_,
          canonical.extend more member digit⟩
        rw [if_pos more, filled, List.append_assoc]
        rfl

theorem fillNumbuf_shortest (conversion : NumericConversion) {val : Nat}
    (bound : val < 2 ^ 64) :
    Shortest conversion.alphabet val (fillNumbuf val conversion.base) := by
  have spells : Spells (if conversion.base < 0 then lowerDigits else upperDigits)
      conversion.alphabet conversion.base.natAbs := by
    cases conversion <;> exact ⟨rfl, by decide⟩
  have enough : val < conversion.base.natAbs ^ (numbufsiz - 1) := by
    refine lt_of_lt_of_le bound ?_
    cases conversion <;> decide
  have base : 1 < conversion.alphabet.length := by cases conversion <;> decide
  obtain ⟨numeral, filled, canonical⟩ :=
    fillDigits_canonical spells enough (by decide) []
  rw [List.append_nil] at filled
  rw [fillNumbuf, filled]
  exact canonical.shortest base

end Digits

/-! ## The parts of a numeric directive -/

/-- The letters that can stand behind the precision of a numeric directive. -/
def Plain (c : Char) : Prop := c ∈ ['l', 'z', 'd', 'i', 'u', 'x', 'X', 'p']

theorem Plain.other {c : Char} (plain : Plain c) :
    isFlag c = false ∧ c.isDigit = false ∧ c ≠ '*' ∧ c ≠ '.' := by
  simp only [Plain, List.mem_cons, List.not_mem_nil, or_false] at plain
  rcases plain with rfl | rfl | rfl | rfl | rfl | rfl | rfl | rfl <;> decide

theorem split_at_stop {test : Char → Bool} {front back : List Char}
    (letters : ∀ c ∈ front, test c) (stop : ∀ c ∈ back.head?, test c = false) :
    (front ++ back).takeWhile test = front ∧ (front ++ back).dropWhile test = back := by
  rw [List.takeWhile_append_of_pos letters, List.dropWhile_append_of_pos letters]
  cases back with
  | nil => simp
  | cons c back =>
      have stopped := stop c rfl
      simp [stopped]

section Parts

variable {rest : List Char}

theorem parseConversion_numeric {lengths : List Char} {c : Char}
    (letters : ∀ c ∈ lengths, isLength c) (other : ¬ isLength c) :
    parseConversion (lengths ++ c :: rest) = (lengths, some c, rest) := by
  obtain ⟨taken, left⟩ := @split_at_stop isLength lengths (c :: rest) letters (by simpa using other)
  rw [parseConversion, taken, left]
  rfl

theorem parsePrecision_numeric {precision : Precision}
    (literal : ∀ digits, precision = .literal digits →
      digits ≠ [] ∧ ∀ c ∈ digits, c.isDigit)
    (behind : ∃ c back, rest = c :: back ∧ Plain c) :
    parsePrecision (precision.text ++ rest) = (precision, rest) := by
  obtain ⟨c, back, rfl, plain⟩ := behind
  obtain ⟨_, digit, star, point⟩ := plain.other
  cases precision with
  | absent =>
      unfold parsePrecision Precision.text
      split
      · next same =>
          injection same with same
          exact absurd same point
      · next same =>
          injection same with same
          exact absurd same point
      · rfl
  | dot => simp [parsePrecision, Precision.text, digit, star]
  | star => simp [parsePrecision, Precision.text]
  | literal digits =>
      obtain ⟨some_digit, all⟩ := literal digits rfl
      obtain ⟨first, more, rfl⟩ := List.exists_cons_of_ne_nil some_digit
      obtain ⟨taken, left⟩ :=
        @split_at_stop Char.isDigit (first :: more) (c :: back) all (by simpa using digit)
      have here := all first List.mem_cons_self
      simp only [Precision.text, List.cons_append] at taken left ⊢
      rw [parsePrecision, if_pos here, taken, left]

theorem parseWidth_numeric {width : Width}
    (literal : ∀ digits, width = .literal digits →
      (∀ c ∈ digits, c.isDigit) ∧ ∃ c ∈ digits.head?, c ≠ '0')
    (behind : ∃ c back, rest = c :: back ∧ (Plain c ∨ c = '.')) :
    parseWidth (width.text ++ rest) = (width, rest) := by
  obtain ⟨c, back, rfl, plain⟩ := behind
  have stop : c.isDigit = false ∧ c ≠ '*' := by
    rcases plain with plain | rfl
    · exact ⟨plain.other.2.1, plain.other.2.2.1⟩
    · decide
  cases width with
  | absent => simp [parseWidth, Width.text, stop]
  | star => simp [parseWidth, Width.text]
  | literal digits =>
      obtain ⟨all, first, found, nonzero⟩ := literal digits rfl
      obtain ⟨more, rfl⟩ := List.head?_eq_some_iff.mp found
      obtain ⟨taken, left⟩ :=
        @split_at_stop Char.isDigit (first :: more) (c :: back) all (by simpa using stop.1)
      have here := all first List.mem_cons_self
      simp only [Width.text, List.cons_append] at taken left ⊢
      rw [parseWidth, if_pos ⟨here, nonzero⟩, taken, left]

theorem NumericConversion.plain (conversion : NumericConversion) :
    Plain conversion.char := by
  cases conversion <;> simp [Plain, NumericConversion.char]

theorem behind_precision {lengths : List Char} (letters : ∀ c ∈ lengths, isLength c)
    (conversion : NumericConversion) :
    ∃ c back, lengths ++ conversion.char :: rest = c :: back ∧ Plain c := by
  cases lengths with
  | nil => exact ⟨_, _, rfl, conversion.plain⟩
  | cons c lengths =>
      refine ⟨c, _, rfl, ?_⟩
      have letter := letters c List.mem_cons_self
      simp only [isLength, List.mem_cons, List.not_mem_nil, or_false,
        decide_eq_true_eq] at letter
      rcases letter with rfl | rfl <;> simp [Plain]

theorem behind_width (precision : Precision)
    (behind : ∃ c back, rest = c :: back ∧ Plain c) :
    ∃ c back, precision.text ++ rest = c :: back ∧ (Plain c ∨ c = '.') := by
  obtain ⟨c, back, rfl, plain⟩ := behind
  cases precision with
  | absent => exact ⟨c, back, rfl, Or.inl plain⟩
  | dot => exact ⟨'.', _, rfl, Or.inr rfl⟩
  | literal digits => exact ⟨'.', _, rfl, Or.inr rfl⟩
  | star => exact ⟨'.', _, rfl, Or.inr rfl⟩

theorem behind_flags {width : Width}
    (literal : ∀ digits, width = .literal digits →
      (∀ c ∈ digits, c.isDigit) ∧ ∃ c ∈ digits.head?, c ≠ '0')
    (behind : ∃ c back, rest = c :: back ∧ (Plain c ∨ c = '.')) :
    ∀ c ∈ (width.text ++ rest).head?, isFlag c = false := by
  obtain ⟨c, back, rfl, plain⟩ := behind
  cases width with
  | absent =>
      rintro _ ⟨⟩
      rcases plain with plain | rfl
      · exact plain.other.1
      · decide
  | star =>
      rintro _ ⟨⟩
      decide
  | literal digits =>
      obtain ⟨all, first, found, nonzero⟩ := literal digits rfl
      obtain ⟨more, rfl⟩ := List.head?_eq_some_iff.mp found
      rintro _ ⟨⟩
      have digit := all first List.mem_cons_self
      by_contra flag
      simp only [Bool.not_eq_false, isFlag, flagChars, List.mem_cons, List.not_mem_nil,
        or_false, decide_eq_true_eq] at flag
      rcases flag with rfl | rfl | rfl | rfl | rfl
      · exact absurd digit (by decide)
      · exact nonzero rfl
      · exact absurd digit (by decide)
      · exact absurd digit (by decide)
      · exact absurd digit (by decide)

theorem NumericDirective.parsed (directive : NumericDirective) (rest : List Char) :
    parseDirective (directive.parts.text ++ rest) = (directive.parts, rest) := by
  obtain ⟨parts, conversion, wf, numeric⟩ := directive
  have afterPrecision := @behind_precision rest parts.lengths wf.lengths conversion
  have afterWidth := behind_width parts.precision afterPrecision
  have afterFlags := behind_flags wf.width afterWidth
  have other : ¬ isLength conversion.char := wf.conversion conversion.char numeric
  obtain ⟨taken, left⟩ := split_at_stop wf.flags afterFlags
  have text : parts.text ++ rest = parts.flags ++ (parts.width.text ++
      (parts.precision.text ++ (parts.lengths ++ conversion.char :: rest))) := by
    simp [Directive.text, numeric]
  rw [text, parseDirective_eq]
  simp only [taken, left, parseWidth_numeric wf.width afterWidth,
    parsePrecision_numeric wf.precision afterPrecision,
    parseConversion_numeric wf.lengths other, ← numeric]

end Parts

/-! ## The conversion -/

theorem foldl_add (letters : List Char) (flags : Flags) :
    letters.foldl Flags.add flags = { flags with
      alt := flags.alt || decide ('#' ∈ letters)
      zero := flags.zero || decide ('0' ∈ letters)
      leftjustify := flags.leftjustify || decide ('-' ∈ letters)
      spacepositive := flags.spacepositive || decide (' ' ∈ letters)
      pluspositive := flags.pluspositive || decide ('+' ∈ letters) } := by
  induction letters generalizing flags with
  | nil => simp
  | cons c letters ih =>
      rw [List.foldl_cons, ih]
      unfold Flags.add
      split_ifs with alt zero left space plus
      · simp [alt]
      · simp [zero]
      · simp [left]
      · simp [space]
      · simp [plus]
      · simp [Ne.symm alt, Ne.symm zero, Ne.symm left, Ne.symm space, Ne.symm plus]

/-- What `switch` makes of a value. -/
def NumericConversion.convert (flags : Flags) (x : Int) : NumericConversion → Conversion
  | .d | .i => ⟨{ flags with numeric := true, signed := true, negative := x < 0 }, 10,
      x.natAbs, []⟩
  | .u => unsignedConversion flags 10 x.toNat
  | .x => unsignedConversion flags (-16) x.toNat
  | .X => unsignedConversion flags 16 x.toNat
  | .p => unsignedConversion { flags with alt := true, alt2 := true } (-16) x.toNat

theorem convert_numeric (flags : Flags) (long : Bool) (conversion : NumericConversion)
    (rest : List Char) (args : List VaArg) :
    convert flags long (conversion.char :: rest) args =
      (some (conversion.convert flags (conversion.argument long (vaWord args).1)), rest,
        (vaWord args).2) := by
  cases conversion <;> cases long <;> rfl

/-- The zeros between the prefix and `len` digits. -/
def Conversion.zeros (conversion : Conversion) (width precision len : Int) : Int :=
  if 0 ≤ precision then (if precision > len then precision - len else 0)
  else if conversion.flags.zero ∧ ¬ conversion.flags.leftjustify ∧
      len + conversion.sign.length < width then
    width - len - conversion.sign.length
  else 0

def Conversion.field (conversion : Conversion) (width precision : Int) : Field :=
  let digits := fillNumbuf conversion.num conversion.base
  let zeros := conversion.zeros width precision digits.length
  let padding := (width - (digits.length + zeros + conversion.sign.length)).toNat
  ⟨if conversion.flags.leftjustify then 0 else padding, conversion.sign, zeros.toNat, digits,
    if conversion.flags.leftjustify then padding else 0⟩

theorem Conversion.emit_field (conversion : Conversion)
    (numeric : conversion.flags.numeric = true) (width precision : Int) :
    conversion.emit width precision = (conversion.field width precision).text := by
  unfold Conversion.emit Conversion.field Conversion.zeros Field.text
  simp only [numeric, true_and, not_true_eq_false, and_false, if_true, if_false]
  cases conversion.flags.leftjustify <;> simp

section Shape

variable {conversion : NumericConversion} {flags : Flags} {x : Int}

theorem convert_flags (conversion : NumericConversion) (flags : Flags) (x : Int) :
    (conversion.convert flags x).flags.numeric = true ∧
    (conversion.convert flags x).flags.zero = flags.zero ∧
    (conversion.convert flags x).flags.leftjustify = flags.leftjustify ∧
    (conversion.convert flags x).base = conversion.base := by
  cases conversion <;> exact ⟨rfl, rfl, rfl, rfl⟩

theorem argument_bounds (conversion : NumericConversion) (long : Bool) (word : BitVec 64) :
    (conversion.signed = false → 0 ≤ conversion.argument long word) ∧
      -2 ^ 63 ≤ conversion.argument long word ∧ conversion.argument long word < 2 ^ 64 := by
  have wideLow := BitVec.le_toInt word
  have wideHigh := BitVec.toInt_lt (x := word)
  have narrowLow := BitVec.le_toInt (word.setWidth 32)
  have narrowHigh := BitVec.toInt_lt (x := word.setWidth 32)
  have wide := word.isLt
  have narrow := (word.setWidth 32).isLt
  cases conversion with
  | d | i =>
      refine ⟨nofun, ?_⟩
      simp only [NumericConversion.argument]
      split <;> omega
  | u | x | X =>
      simp only [NumericConversion.argument]
      split <;> omega
  | p =>
      simp only [NumericConversion.argument]
      omega

theorem convert_num (unsigned : conversion.signed = false → 0 ≤ x) :
    (conversion.convert flags x).num = x.natAbs := by
  cases conversion with
  | d => rfl
  | i => rfl
  | u | x | X | p =>
      have natural := unsigned rfl
      simp only [NumericConversion.convert, unsignedConversion]
      omega

theorem magnitude_eq (low : -2 ^ 63 ≤ x) (high : x < 2 ^ 64) : magnitude x = x.natAbs := by
  unfold magnitude
  split <;> omega

end Shape

/-! ## Every field -/

namespace NumericDirective

variable (directive : NumericDirective)

def width (args : List VaArg) : Int := (directive.parts.width.take args).1

def precision (args : List VaArg) : Option Int :=
  if directive.parts.precision = .absent then none
  else some (directive.parts.precision.take (directive.parts.width.take args).2).1

/-- The arguments behind those for `*`. -/
def values (args : List VaArg) : List VaArg :=
  (directive.parts.precision.take (directive.parts.width.take args).2).2

def argument (args : List VaArg) : Int :=
  directive.conversion.argument (!directive.parts.lengths.isEmpty)
    (vaWord (directive.values args)).1

def argsLeft (args : List VaArg) : List VaArg := (vaWord (directive.values args)).2

theorem sign_minus (x : Int) :
    '-' ∈ directive.sign x ↔ directive.conversion.signed ∧ x < 0 := by
  unfold NumericDirective.sign
  dsimp only
  split_ifs <;> simp_all

def bits : Flags := directive.parts.flags.foldl Flags.add noFlags

theorem convert_sign {x : Int} (unsigned : directive.conversion.signed = false → 0 ≤ x) :
    (directive.conversion.convert directive.bits x).sign = directive.sign x := by
  obtain ⟨parts, conversion, wf, numeric⟩ := directive
  simp only [bits, foldl_add, NumericDirective.sign]
  cases conversion with
  | d | i =>
      simp [NumericConversion.convert, Conversion.sign, NumericConversion.signed, noFlags]
  | u => simp [NumericConversion.convert, Conversion.sign, NumericConversion.signed,
      NumericConversion.hex, unsignedConversion, noFlags]
  | x | X =>
      have natural : 0 ≤ x := unsigned rfl
      have some_value : 0 < x ↔ x ≠ 0 := by omega
      simp [NumericConversion.convert, Conversion.sign, NumericConversion.signed,
        NumericConversion.hex, unsignedConversion, noFlags, some_value]
  | p => simp [NumericConversion.convert, Conversion.sign, NumericConversion.signed,
      NumericConversion.hex, unsignedConversion, noFlags]

theorem field_parse {x : Int} {field : Field}
    (unsigned : directive.conversion.signed = false → 0 ≤ x)
    (digits : value directive.conversion.alphabet field.digits = x.natAbs)
    (sign : field.sign = directive.sign x) :
    field.parse directive.conversion.alphabet = x := by
  unfold Field.parse
  rw [sign, digits]
  by_cases negative : directive.conversion.signed ∧ x < 0
  · rw [if_pos ((directive.sign_minus x).mpr negative)]
    omega
  · rw [if_neg (mt (directive.sign_minus x).mp negative)]
    have natural : 0 ≤ x := by
      cases signed : directive.conversion.signed with
      | false => exact unsigned signed
      | true =>
          by_contra below
          exact negative ⟨signed, by omega⟩
    omega

end NumericDirective

theorem zeros_eq (conversion : Conversion) (width precision len : Int) :
    conversion.zeros width precision len =
      if 0 ≤ precision then max 0 (precision - len)
      else if conversion.flags.zero ∧ ¬ conversion.flags.leftjustify then
        max 0 (width - len - conversion.sign.length)
      else 0 := by
  unfold Conversion.zeros
  by_cases given : 0 ≤ precision
  · rw [if_pos given, if_pos given]
    split <;> omega
  · rw [if_neg given, if_neg given]
    by_cases fills : conversion.flags.zero ∧ ¬ conversion.flags.leftjustify
    · rw [if_pos fills]
      by_cases room : len + conversion.sign.length < width
      · rw [if_pos ⟨fills.1, fills.2, room⟩]
        omega
      · rw [if_neg fun all => room all.2.2]
        omega
    · rw [if_neg fills, if_neg fun all => fills ⟨all.1, all.2.1⟩]

theorem zeros_nonneg (conversion : Conversion) (width precision len : Int) :
    0 ≤ conversion.zeros width precision len := by
  rw [zeros_eq]
  split
  · omega
  · split <;> omega

theorem field_zeros (conversion : Conversion) (width precision : Int) :
    ((conversion.field width precision).zeros : Int) =
      if 0 ≤ precision then
        max 0 (precision - (conversion.field width precision).digits.length)
      else if conversion.flags.zero ∧ ¬ conversion.flags.leftjustify then
        max 0 (width - (conversion.field width precision).digits.length -
          (conversion.field width precision).sign.length)
      else 0 := by
  have natural := zeros_nonneg conversion width precision
    (conversion.field width precision).digits.length
  exact (Int.toNat_of_nonneg natural).trans (zeros_eq conversion width precision _)

theorem field_length (conversion : Conversion) (width precision : Int) :
    ((conversion.field width precision).text.length : Int) =
      max width ((conversion.field width precision).sign.length +
        (conversion.field width precision).zeros +
        (conversion.field width precision).digits.length) := by
  have natural := zeros_nonneg conversion width precision
    (fillNumbuf conversion.num conversion.base).length
  simp only [Field.text, Conversion.field, List.length_append, List.length_replicate]
  generalize conversion.zeros width precision _ = zeros at *
  split <;> omega

/-- The field that is printed has the shape that the directive asks for. -/
theorem field_shapes (directive : NumericDirective) (width : Int) {precision : Int}
    {given : Option Int} {x : Int}
    (asked : given = if 0 ≤ precision then some precision else none)
    (unsigned : directive.conversion.signed = false → 0 ≤ x) (low : -2 ^ 63 ≤ x)
    (high : x < 2 ^ 64) :
    directive.Shapes width given x
      ((directive.conversion.convert directive.bits x).field width precision) := by
  obtain ⟨_, zero, left, base⟩ := convert_flags directive.conversion directive.bits x
  have sign := directive.convert_sign unsigned
  have zeros :=
    field_zeros (directive.conversion.convert directive.bits x) width precision
  have shortest : Shortest directive.conversion.alphabet (magnitude x)
      ((directive.conversion.convert directive.bits x).field width precision).digits := by
    have digits : ((directive.conversion.convert directive.bits x).field width
        precision).digits = fillNumbuf x.natAbs directive.conversion.base := by
      simp only [Conversion.field, convert_num unsigned, base]
    rw [magnitude_eq low high, digits]
    exact fillNumbuf_shortest directive.conversion (by omega)
  have zeroBit : directive.bits.zero = decide ('0' ∈ directive.parts.flags) := by
    rw [NumericDirective.bits, foldl_add]
    rfl
  have leftBit : directive.bits.leftjustify = decide ('-' ∈ directive.parts.flags) := by
    rw [NumericDirective.bits, foldl_add]
    rfl
  rw [zero, left, zeroBit, leftBit] at zeros
  constructor
  case digits => exact shortest
  case parse =>
    refine directive.field_parse unsigned ?_ sign
    rw [← magnitude_eq low high]
    exact shortest.value
  case sign => exact sign
  case zeros_precision =>
    intro least some_precision
    rw [asked] at some_precision
    split at some_precision
    · next natural =>
        cases some_precision
        rwa [if_pos natural] at zeros
    · cases some_precision
  case zeros_width =>
    intro no_precision
    rw [asked] at no_precision
    split at no_precision
    · cases no_precision
    · next negative =>
        rw [if_neg negative] at zeros
        simpa only [decide_eq_true_eq] using zeros
  case length => exact field_length _ width precision
  case left =>
    intro flag
    simp [Conversion.field, left, leftBit, flag]
  case right =>
    intro flag
    simp [Conversion.field, left, leftBit, flag]

theorem precision_asked (directive : NumericDirective) (args : List VaArg) :
    directive.precision args =
      (let precision :=
        (directive.parts.precision.take (directive.parts.width.take args).2).1
      if 0 ≤ precision then some precision else none) := by
  unfold NumericDirective.precision
  cases directive.parts.precision with
  | absent => rfl
  | dot => rfl
  | literal digits =>
      have natural := readNumber_nonneg (le_refl 0) digits
      exact (if_pos natural).symm
  | star => exact (if_pos (le_max_right _ _)).symm

/-- Every numeric directive, at any place of a format, prints its argument in a field of the
right shape. -/
theorem printFrom_numeric (directive : NumericDirective) (rest : List Char)
    (args : List VaArg) :
    ∃ field, printFrom ('%' :: (directive.parts.text ++ rest)) args =
        field.text ++ printFrom rest (directive.argsLeft args) ∧
      directive.Shapes (directive.width args) (directive.precision args)
        (directive.argument args) field := by
  obtain ⟨unsigned, low, high⟩ := argument_bounds directive.conversion
    (!directive.parts.lengths.isEmpty) (vaWord (directive.values args)).1
  refine ⟨_, ?_, field_shapes directive (directive.width args)
    (precision_asked directive args) unsigned low high⟩
  rw [printFrom_directive, directive_eq, directive.parsed]
  simp only [directive.numeric, Option.toList_some, List.singleton_append, convert_numeric]
  rw [Conversion.emit_field _ (convert_flags _ _ _).1]
  rfl

end OsLabs.Weensy
