import OsLabs.Weensy.Directive

/-!
# The printf engine in `int`s

The width, the precision and the length of the data are `int`s of `printer_vprintf`, and a
length of 2^31 is a negative one.  An `int` that overflows is undefined in C; it wraps here.
Where no width, precision or string is above 2^30 nothing wraps, and the engine prints what
it prints with unbounded numbers.
-/

set_option autoImplicit false

namespace OsLabs.Weensy

/-- A number as an `int`. -/
def asInt (x : Int) : Int := x.bmod (2 ^ 32)

theorem asInt_eq {x : Int} (low : -2 ^ 31 ≤ x) (high : x < 2 ^ 31) : asInt x = x :=
  Int.bmod_eq_of_le (by omega) (by omega)

/-! ## The engine -/

def processInt : Int → List Char → Int × List Char
  | number, [] => (number, [])
  | number, c :: rest =>
      if c.isDigit then processInt (asInt (10 * number + (c.toNat - 48 : Nat))) rest
      else (number, c :: rest)

def widthInt : List Char → List VaArg → Int × List Char × List VaArg
  | [], args => (-1, [], args)
  | c :: rest, args =>
      if c.isDigit ∧ c ≠ '0' then
        let (width, rest) := processInt 0 (c :: rest)
        (width, rest, args)
      else if c = '*' then
        let (width, args) := vaInt args
        (width, rest, args)
      else (-1, c :: rest, args)

def precisionInt : List Char → List VaArg → Int × List Char × List VaArg
  | '.' :: c :: rest, args =>
      if c.isDigit then
        let (precision, rest) := processInt 0 (c :: rest)
        (max precision 0, rest, args)
      else if c = '*' then
        let (precision, args) := vaInt args
        (max precision 0, rest, args)
      else (0, c :: rest, args)
  | ['.'], args => (0, [], args)
  | format, args => (-1, format, args)

/-- `zeros`. -/
def Conversion.zerosInt (conversion : Conversion) (len width precision : Int) : Int :=
  let flags := conversion.flags
  let sign := conversion.sign
  if flags.numeric ∧ 0 ≤ precision then
    (if precision > len then asInt (precision - len) else 0)
  else if flags.numeric ∧ flags.zero ∧ ¬ flags.leftjustify ∧
      asInt (len + sign.length) < width then
    asInt (width - len - sign.length)
  else 0

/-- The characters of a conversion.  `len + zeros + strlen(prefix)` is a `size_t`, and `width`
an `int` again. -/
def Conversion.emitInt (conversion : Conversion) (width precision : Int) : List Char :=
  let flags := conversion.flags
  let data := if flags.numeric then fillNumbuf conversion.num conversion.base
    else conversion.data
  let sign := conversion.sign
  let len : Int :=
    if 0 ≤ precision ∧ ¬ flags.numeric then asInt (min data.length precision.toNat : Nat)
    else asInt data.length
  let zeros := conversion.zerosInt len width precision
  let width := asInt (width - (len + zeros + sign.length))
  let padding := List.replicate width.toNat ' '
  (if flags.leftjustify then [] else padding) ++ sign ++
    List.replicate zeros.toNat '0' ++ data.take len.toNat ++
    (if flags.leftjustify then padding else [])

def directiveInt (format : List Char) (args : List VaArg) :
    List Char × List Char × List VaArg :=
  let (flags, format) := processFlags noFlags format
  let (width, format, args) := widthInt format args
  let (precision, format, args) := precisionInt format args
  match convert flags false format args with
  | (some conversion, format, args) => (conversion.emitInt width precision, format, args)
  | (none, format, args) => ([], format, args)

/-- At most `fuel` iterations of the loop of `printer_vprintf`. -/
def printerLoopInt : Nat → List Char → List VaArg → List Char
  | 0, _, _ => []
  | _ + 1, [], _ => []
  | fuel + 1, c :: format, args =>
      if c ≠ '%' then c :: printerLoopInt fuel format args
      else
        let (printed, format, args) := directiveInt format args
        printed ++ printerLoopInt fuel format args

/-- `printer_vprintf`; an iteration consumes a character. -/
def printFromInt (format : List Char) (args : List VaArg) : List Char :=
  printerLoopInt format.length format args

/-! ## What a directive leaves -/

section Parts

variable {format : List Char} {args : List VaArg}

theorem processInt_eq (number : Int) (format : List Char) :
    processInt (asInt number) format =
      (asInt (processNumber number format).1, (processNumber number format).2) := by
  induction format generalizing number with
  | nil => rfl
  | cons c rest ih =>
      rw [processInt, processNumber]
      split
      · have step : asInt (10 * asInt number + (c.toNat - 48 : Nat)) =
            asInt (10 * number + (c.toNat - 48 : Nat)) := by
          rw [asInt, Int.add_bmod, asInt, Int.mul_bmod_bmod, ← Int.add_bmod]
          rfl
        rw [step, ih]
      · rfl

theorem processInt_zero (format : List Char) :
    processInt 0 format = (asInt (processNumber 0 format).1, (processNumber 0 format).2) :=
  processInt_eq 0 format

theorem widthInt_left (format : List Char) (args : List VaArg) :
    (widthInt format args).2 = (processWidth format args).2 := by
  cases format with
  | nil => rfl
  | cons c rest =>
      simp only [widthInt, processWidth, processInt_zero]
      split_ifs <;> rfl

theorem widthInt_eq (low : -2 ^ 29 ≤ (processWidth format args).1)
    (high : (processWidth format args).1 ≤ 2 ^ 30) :
    widthInt format args = processWidth format args := by
  cases format with
  | nil => rfl
  | cons c rest =>
      simp only [widthInt, processWidth, processInt_zero] at low high ⊢
      split_ifs at low high ⊢
      · rw [asInt_eq (by omega) (by omega)]
      · rfl
      · rfl

theorem precisionInt_left (format : List Char) (args : List VaArg) :
    (precisionInt format args).2 = (processPrecision format args).2 := by
  unfold precisionInt
  split
  · simp only [processPrecision, processInt_zero]
    split_ifs <;> rfl
  · rfl
  · next ordinary single => rw [processPrecision.eq_3 _ _ ordinary single]

theorem processNumber_nonneg (format : List Char) : 0 ≤ (processNumber 0 format).1 := by
  rw [processNumber_eq]
  exact readNumber_nonneg (le_refl 0) _

theorem precisionInt_eq (high : (processPrecision format args).1 ≤ 2 ^ 30) :
    precisionInt format args = processPrecision format args := by
  unfold precisionInt
  split
  · next c rest =>
      simp only [processPrecision, processInt_zero] at high ⊢
      split_ifs at high ⊢
      · have natural := processNumber_nonneg (c :: rest)
        rw [asInt_eq (by omega) (by omega), max_eq_left natural]
      · rfl
      · rfl
  · rfl
  · next ordinary single => rw [processPrecision.eq_3 _ _ ordinary single]

theorem directiveInt_converted (format : List Char) (args : List VaArg) :
    ∃ width precision, directiveInt format args =
      (((converted format args).1.map fun conversion =>
          conversion.emitInt width precision).getD [], (converted format args).2) := by
  obtain ⟨width, here⟩ : ∃ width, widthInt (processFlags noFlags format).2 args = width :=
    ⟨_, rfl⟩
  have left := widthInt_left (processFlags noFlags format).2 args
  rw [here] at left
  obtain ⟨precision, there⟩ : ∃ precision, precisionInt width.2.1 width.2.2 = precision :=
    ⟨_, rfl⟩
  have further := precisionInt_left width.2.1 width.2.2
  rw [there, left] at further
  refine ⟨width.1, precision.1, ?_⟩
  simp only [directiveInt, here, there, converted, further]
  split <;> simp_all

structure ModerateDirective (format : List Char) (args : List VaArg) : Prop where
  low : -2 ^ 29 ≤ (processWidth (processFlags noFlags format).2 args).1
  high : (processWidth (processFlags noFlags format).2 args).1 ≤ 2 ^ 30
  precision : (processPrecision (processWidth (processFlags noFlags format).2 args).2.1
    (processWidth (processFlags noFlags format).2 args).2.2).1 ≤ 2 ^ 30
  data : ∀ conversion ∈ (converted format args).1, conversion.data.length ≤ 2 ^ 30

theorem fillDigits_length (digits : List Char) (base room val : Nat) (numbuf : List Char) :
    (fillDigits digits base room val numbuf).length ≤ numbuf.length + room := by
  induction room generalizing val numbuf with
  | zero => exact le_refl _
  | succ room ih =>
      rw [fillDigits]
      split
      · have further := ih (val / base) (digits.getD (val % base) '0' :: numbuf)
        rw [List.length_cons] at further
        omega
      · rw [List.length_cons]
        omega

theorem Conversion.sign_length (conversion : Conversion) : conversion.sign.length ≤ 2 := by
  unfold Conversion.sign
  simp only
  split_ifs <;> decide

theorem data_shown (precision : Int) (numeric : Bool) {text : List Char}
    (short : text.length ≤ 2 ^ 30) :
    ∃ shown, (if 0 ≤ precision ∧ ¬ numeric = true then text.take precision.toNat else text) =
        shown ∧
      (if 0 ≤ precision ∧ ¬ numeric = true then
        asInt (min text.length precision.toNat : Nat) else asInt text.length) = shown.length ∧
      text.take shown.length = shown ∧ shown.length ≤ 2 ^ 30 := by
  by_cases cut : 0 ≤ precision ∧ ¬ numeric = true
  · refine ⟨text.take precision.toNat, if_pos cut, ?_, ?_, ?_⟩
    · rw [if_pos cut, List.length_take, Nat.min_comm, asInt_eq (by omega) (by omega)]
    · rw [List.length_take, ← List.take_take, List.take_length]
    · rw [List.length_take]
      omega
  · refine ⟨text, if_neg cut, ?_, List.take_length, short⟩
    rw [if_neg cut, asInt_eq (by omega) (by omega)]

theorem Conversion.zeros_shown {conversion : Conversion} {len width precision : Int}
    (natural : 0 ≤ len) (few : len ≤ 2 ^ 30) (low : -2 ^ 29 ≤ width) (high : width ≤ 2 ^ 30)
    (bound : precision ≤ 2 ^ 30) :
    ∃ zeros, conversion.zerosInt len width precision = zeros ∧
      (if conversion.flags.numeric = true ∧ 0 ≤ precision then
          if precision > len then precision - len else 0
        else if conversion.flags.numeric = true ∧ conversion.flags.zero = true ∧
            ¬ conversion.flags.leftjustify = true ∧ len + conversion.sign.length < width then
          width - len - conversion.sign.length
        else 0) = zeros ∧
      0 ≤ zeros ∧ len + zeros ≤ 2 ^ 30 := by
  have sign := conversion.sign_length
  have sum : asInt (len + conversion.sign.length) = len + conversion.sign.length :=
    asInt_eq (by omega) (by omega)
  have rest : asInt (width - len - conversion.sign.length) =
      width - len - conversion.sign.length := asInt_eq (by omega) (by omega)
  have more : precision > len → asInt (precision - len) = precision - len :=
    fun above => asInt_eq (by omega) (by omega)
  refine ⟨_, rfl, ?_, ?_⟩
  · rw [zerosInt, sum, rest]
    split_ifs with asked above
    · exact (more above).symm
    all_goals rfl
  · rw [zerosInt, sum, rest]
    split_ifs with asked above
    · rw [more above]
      omega
    all_goals omega

theorem Conversion.emitInt_eq {conversion : Conversion} {width precision : Int}
    (low : -2 ^ 29 ≤ width) (high : width ≤ 2 ^ 30) (bound : precision ≤ 2 ^ 30)
    (data : conversion.data.length ≤ 2 ^ 30) :
    conversion.emitInt width precision = conversion.emit width precision := by
  have digits : (fillNumbuf conversion.num conversion.base).length ≤ 23 := by
    have filled := fillDigits_length
      (if conversion.base < 0 then lowerDigits else upperDigits) conversion.base.natAbs
      (numbufsiz - 1) conversion.num []
    simpa [fillNumbuf, numbufsiz] using filled
  have sign := conversion.sign_length
  unfold Conversion.emitInt Conversion.emit
  simp only
  generalize chars : (if conversion.flags.numeric = true then
    fillNumbuf conversion.num conversion.base else conversion.data) = text
  have short : text.length ≤ 2 ^ 30 := by
    rw [← chars]
    split <;> omega
  obtain ⟨shown, printed, length, taken, few⟩ := data_shown precision
    conversion.flags.numeric short
  simp only [printed, length, Int.toNat_natCast, taken]
  obtain ⟨zeros, wrapped, amount, natural, room⟩ := conversion.zeros_shown
    (Int.natCast_nonneg shown.length) (by omega) low high bound
  rw [wrapped, amount, asInt_eq (by omega) (by omega)]

theorem directiveInt_eq (moderate : ModerateDirective format args) :
    directiveInt format args = directive format args := by
  have data := moderate.data
  simp only [directiveInt, directive, widthInt_eq moderate.low moderate.high,
    precisionInt_eq moderate.precision, converted] at data ⊢
  generalize convert (processFlags noFlags format).1 false _ _ = result at data ⊢
  obtain ⟨conversion, rest, after⟩ := result
  cases conversion with
  | none => rfl
  | some conversion =>
      have printed := Conversion.emitInt_eq moderate.low moderate.high moderate.precision
        (data conversion rfl)
      simp only [printed]

end Parts

theorem moderate_s (rest : List Char) (args : List VaArg) {chars : List Char}
    (short : chars.length ≤ 2 ^ 30) : ModerateDirective ('s' :: rest) (.string chars :: args) := by
  have width : (processWidth (processFlags noFlags ('s' :: rest)).2
      (.string chars :: args)).1 = -1 := rfl
  constructor
  · rw [width]
    norm_num
  · rw [width]
    norm_num
  · change (-1 : Int) ≤ 2 ^ 30
    norm_num
  · rintro _ ⟨⟩
    exact short

/-! ## Whole formats -/

def Moderate : Nat → List Char → List VaArg → Prop
  | 0, _, _ => True
  | _ + 1, [], _ => True
  | fuel + 1, c :: format, args =>
      if c ≠ '%' then Moderate fuel format args
      else ModerateDirective format args ∧
        Moderate fuel (directive format args).2.1 (directive format args).2.2

/-- Without large numbers the engine prints what it prints with unbounded ones. -/
theorem printFromInt_eq (format : List Char) (args : List VaArg)
    (moderate : Moderate format.length format args) :
    printFromInt format args = printFrom format args := by
  unfold printFromInt printFrom
  generalize format.length = fuel at moderate
  induction fuel generalizing format args with
  | zero => rfl
  | succ fuel ih =>
      cases format with
      | nil => rfl
      | cons c rest =>
          rw [Moderate] at moderate
          rw [printerLoopInt, printerLoop]
          split at moderate
          · next plain =>
              rw [if_pos plain, if_pos plain, ih _ _ moderate]
          · next percent =>
              rw [if_neg percent, if_neg percent]
              simp only [directiveInt_eq moderate.1, ih _ _ moderate.2]

end OsLabs.Weensy
