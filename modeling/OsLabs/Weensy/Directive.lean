import Mathlib.Data.List.TakeWhile
import OsLabs.Weensy.Printer

/-!
# The parts of a directive

A format is characters and directives; a directive has flags, a width, a precision,
length letters and a conversion character, which is missing where the format ends.  The
engine of lib.c cuts a format into these pieces.
-/

set_option autoImplicit false

namespace OsLabs.Weensy

/-! ## Parts -/

/-- `flag_chars`. -/
def flagChars : List Char := ['#', '0', '-', ' ', '+']

def isFlag (c : Char) : Bool := decide (c ∈ flagChars)

def isLength (c : Char) : Bool := decide (c ∈ ['l', 'z'])

inductive Width where
  | absent
  | literal (digits : List Char)
  | star
  deriving DecidableEq

inductive Precision where
  | absent
  /-- A `.` without a number. -/
  | dot
  | literal (digits : List Char)
  | star
  deriving DecidableEq

/-- What stands behind a `%`. -/
structure Directive where
  flags : List Char
  width : Width
  precision : Precision
  lengths : List Char
  conversion : Option Char
  deriving DecidableEq

inductive Piece where
  | literal (c : Char)
  | directive (parts : Directive)
  deriving DecidableEq

def Width.text : Width → List Char
  | .absent => []
  | .literal digits => digits
  | .star => ['*']

def Precision.text : Precision → List Char
  | .absent => []
  | .dot => ['.']
  | .literal digits => '.' :: digits
  | .star => ['.', '*']

def Directive.text (parts : Directive) : List Char :=
  parts.flags ++ (parts.width.text ++ (parts.precision.text ++
    (parts.lengths ++ parts.conversion.toList)))

structure Directive.Wf (parts : Directive) : Prop where
  flags : ∀ c ∈ parts.flags, isFlag c
  width : ∀ digits, parts.width = .literal digits →
    (∀ c ∈ digits, c.isDigit) ∧ ∃ c ∈ digits.head?, c ≠ '0'
  precision : ∀ digits, parts.precision = .literal digits →
    digits ≠ [] ∧ ∀ c ∈ digits, c.isDigit
  lengths : ∀ c ∈ parts.lengths, isLength c
  conversion : ∀ c, parts.conversion = some c → ¬ isLength c

def Piece.Wf : Piece → Prop
  | .literal c => c ≠ '%'
  | .directive parts => parts.Wf

def Piece.text : Piece → List Char
  | .literal c => [c]
  | .directive parts => '%' :: parts.text

/-! ## Arguments -/

/-- The types that `printer_vprintf` gives to `va_arg`. -/
inductive VaType where
  | int
  | long
  | unsigned
  | unsignedLong
  | pointer
  | charPointer
  deriving DecidableEq, Repr

def Width.arguments : Width → List VaType
  | .star => [.int]
  | _ => []

def Precision.arguments : Precision → List VaType
  | .star => [.int]
  | _ => []

def conversionArguments (long : Bool) (c : Char) : List VaType :=
  if c ∈ ['d', 'i'] then [if long then .long else .int]
  else if c ∈ ['u', 'x', 'X'] then [if long then .unsignedLong else .unsigned]
  else if c = 'p' then [.pointer]
  else if c = 's' then [.charPointer]
  else if c ∈ ['c', 'C'] then [.int]
  else []

/-- One argument for every `*` and one for the conversion. -/
def Directive.arguments (parts : Directive) : List VaType :=
  parts.width.arguments ++ (parts.precision.arguments ++
    parts.conversion.toList.flatMap (conversionArguments !parts.lengths.isEmpty))

def Piece.arguments : Piece → List VaType
  | .literal _ => []
  | .directive parts => parts.arguments

/-! ## Cutting a format -/

def parseWidth : List Char → Width × List Char
  | [] => (.absent, [])
  | c :: rest =>
      if c.isDigit ∧ c ≠ '0' then
        (.literal ((c :: rest).takeWhile Char.isDigit), (c :: rest).dropWhile Char.isDigit)
      else if c = '*' then (.star, rest)
      else (.absent, c :: rest)

def parsePrecision : List Char → Precision × List Char
  | '.' :: c :: rest =>
      if c.isDigit then
        (.literal ((c :: rest).takeWhile Char.isDigit), (c :: rest).dropWhile Char.isDigit)
      else if c = '*' then (.star, rest)
      else (.dot, c :: rest)
  | ['.'] => (.dot, [])
  | format => (.absent, format)

def parseConversion (format : List Char) : List Char × Option Char × List Char :=
  let rest := format.dropWhile isLength
  (format.takeWhile isLength, rest.head?, rest.tail)

def parseDirective (format : List Char) : Directive × List Char :=
  let (width, rest) := parseWidth (format.dropWhile isFlag)
  let (precision, rest) := parsePrecision rest
  let (lengths, conversion, rest) := parseConversion rest
  (⟨format.takeWhile isFlag, width, precision, lengths, conversion⟩, rest)

theorem parseDirective_eq (format : List Char) :
    parseDirective format =
      let width := parseWidth (format.dropWhile isFlag)
      let precision := parsePrecision width.2
      let conversion := parseConversion precision.2
      (⟨format.takeWhile isFlag, width.1, precision.1, conversion.1, conversion.2.1⟩,
        conversion.2.2) := rfl

theorem parseWidth_text (format : List Char) :
    (parseWidth format).1.text ++ (parseWidth format).2 = format := by
  cases format with
  | nil => rfl
  | cons c rest =>
      simp only [parseWidth]
      split_ifs with digit star
      · exact List.takeWhile_append_dropWhile
      · rw [star]
        rfl
      · rfl

theorem parsePrecision_text (format : List Char) :
    (parsePrecision format).1.text ++ (parsePrecision format).2 = format := by
  unfold parsePrecision
  split
  · next c rest =>
      split_ifs with digit star
      · exact congrArg (List.cons '.') List.takeWhile_append_dropWhile
      · rw [star]
        rfl
      · rfl
  · rfl
  · rfl

theorem parseConversion_text (format : List Char) :
    (parseConversion format).1 ++ ((parseConversion format).2.1.toList ++
      (parseConversion format).2.2) = format := by
  have last : (format.dropWhile isLength).head?.toList ++ (format.dropWhile isLength).tail =
      format.dropWhile isLength := by
    cases format.dropWhile isLength <;> rfl
  calc format.takeWhile isLength ++ ((format.dropWhile isLength).head?.toList ++
        (format.dropWhile isLength).tail)
      = format.takeWhile isLength ++ format.dropWhile isLength := by rw [last]
    _ = format := List.takeWhile_append_dropWhile

theorem parseDirective_text (format : List Char) :
    (parseDirective format).1.text ++ (parseDirective format).2 = format := by
  have width := parseWidth_text (format.dropWhile isFlag)
  have precision := parsePrecision_text (parseWidth (format.dropWhile isFlag)).2
  have conversion :=
    parseConversion_text (parsePrecision (parseWidth (format.dropWhile isFlag)).2).2
  simp only [parseDirective, Directive.text, List.append_assoc]
  rw [conversion, precision, width]
  exact List.takeWhile_append_dropWhile

theorem parseWidth_wf {format digits : List Char}
    (literal : (parseWidth format).1 = .literal digits) :
    (∀ c ∈ digits, c.isDigit) ∧ ∃ c ∈ digits.head?, c ≠ '0' := by
  cases format with
  | nil => cases literal
  | cons c rest =>
      simp only [parseWidth] at literal
      split_ifs at literal with first
      · cases literal
        refine ⟨fun c member => List.mem_takeWhile_imp member, c, ?_, first.2⟩
        rw [List.takeWhile_cons_of_pos first.1]
        rfl

theorem parsePrecision_wf {format digits : List Char}
    (literal : (parsePrecision format).1 = .literal digits) :
    digits ≠ [] ∧ ∀ c ∈ digits, c.isDigit := by
  unfold parsePrecision at literal
  split at literal
  · split_ifs at literal with first
    · cases literal
      refine ⟨?_, fun c member => List.mem_takeWhile_imp member⟩
      rw [List.takeWhile_cons_of_pos first]
      exact List.cons_ne_nil _ _
  · cases literal
  · cases literal

theorem parseDirective_wf (format : List Char) : (parseDirective format).1.Wf where
  flags _ member := List.mem_takeWhile_imp member
  width _ literal := parseWidth_wf literal
  precision _ literal := parsePrecision_wf literal
  lengths _ member := List.mem_takeWhile_imp member
  conversion c found := by
    have stopped := List.head?_dropWhile_not isLength
      (parsePrecision (parseWidth (format.dropWhile isFlag)).2).2
    have here : ((parsePrecision (parseWidth (format.dropWhile isFlag)).2).2.dropWhile
      isLength).head? = some c := found
    rw [here] at stopped
    simpa using stopped

theorem parseDirective_length (format : List Char) :
    (parseDirective format).2.length ≤ format.length := by
  have whole := congrArg List.length (parseDirective_text format)
  rw [List.length_append] at whole
  omega

def pieces : List Char → List Piece
  | [] => []
  | c :: format =>
      if c = '%' then
        .directive (parseDirective format).1 :: pieces (parseDirective format).2
      else .literal c :: pieces format
termination_by format => format.length
decreasing_by
  · exact Nat.lt_succ_of_le (parseDirective_length format)
  · exact Nat.lt_succ_self _

def formatArguments (format : List Char) : List VaType :=
  (pieces format).flatMap Piece.arguments

@[simp] theorem formatArguments_nil : formatArguments [] = [] := by
  simp [formatArguments, pieces]

theorem formatArguments_directive (format : List Char) :
    formatArguments ('%' :: format) =
      (parseDirective format).1.arguments ++ formatArguments (parseDirective format).2 := by
  simp [formatArguments, pieces, Piece.arguments]

theorem formatArguments_literal {c : Char} (other : c ≠ '%') (format : List Char) :
    formatArguments (c :: format) = formatArguments format := by
  simp [formatArguments, pieces, Piece.arguments, other]

theorem pieces_text (format : List Char) : (pieces format).flatMap Piece.text = format := by
  fun_induction pieces format with
  | case1 => rfl
  | case2 format ih =>
      rw [List.flatMap_cons, ih]
      exact congrArg (List.cons '%') (parseDirective_text format)
  | case3 c format other ih =>
      rw [List.flatMap_cons, ih]
      rfl

theorem pieces_wf (format : List Char) : ∀ piece ∈ pieces format, piece.Wf := by
  fun_induction pieces format with
  | case1 => simp
  | case2 format ih =>
      intro piece member
      rcases List.mem_cons.mp member with rfl | member
      · exact parseDirective_wf format
      · exact ih piece member
  | case3 c format other ih =>
      intro piece member
      rcases List.mem_cons.mp member with rfl | member
      · exact other
      · exact ih piece member

/-! ## What the engine makes of the parts -/

theorem vaWord_left (args : List VaArg) : (vaWord args).2 = args.tail := by
  cases args with
  | nil => rfl
  | cons arg rest => cases arg <;> rfl

theorem vaInt_left (args : List VaArg) : (vaInt args).2 = args.tail := vaWord_left args

theorem vaSigned_left (length : Bool) (args : List VaArg) :
    (vaSigned length args).2 = args.tail := by
  cases length <;> exact vaWord_left args

theorem vaUnsigned_left (length : Bool) (args : List VaArg) :
    (vaUnsigned length args).2 = args.tail := by
  cases length <;> exact vaWord_left args

theorem vaString_left (args : List VaArg) : (vaString args).2 = args.tail := by
  cases args with
  | nil => rfl
  | cons arg rest => cases arg <;> rfl

def Flags.add (flags : Flags) (c : Char) : Flags :=
  if c = '#' then { flags with alt := true }
  else if c = '0' then { flags with zero := true }
  else if c = '-' then { flags with leftjustify := true }
  else if c = ' ' then { flags with spacepositive := true }
  else if c = '+' then { flags with pluspositive := true }
  else flags

def readNumber (number : Int) (digits : List Char) : Int :=
  digits.foldl (fun number c => 10 * number + (c.toNat - 48 : Nat)) number

theorem readNumber_nonneg {number : Int} (start : 0 ≤ number) (digits : List Char) :
    0 ≤ readNumber number digits := by
  induction digits generalizing number with
  | nil => exact start
  | cons c digits ih =>
      have next : 0 ≤ 10 * number + (c.toNat - 48 : Nat) := by omega
      exact ih next

def Width.take (args : List VaArg) : Width → Int × List VaArg
  | .absent => (-1, args)
  | .literal digits => (readNumber 0 digits, args)
  | .star => vaInt args

def Precision.take (args : List VaArg) : Precision → Int × List VaArg
  | .absent => (-1, args)
  | .dot => (0, args)
  | .literal digits => (readNumber 0 digits, args)
  | .star => (max (vaInt args).1 0, (vaInt args).2)

theorem processFlags_eq (flags : Flags) (format : List Char) :
    processFlags flags format =
      ((format.takeWhile isFlag).foldl Flags.add flags, format.dropWhile isFlag) := by
  induction format generalizing flags with
  | nil => rfl
  | cons c rest ih =>
      by_cases flag : isFlag c
      · rw [List.takeWhile_cons_of_pos flag, List.dropWhile_cons_of_pos flag, List.foldl_cons,
          ← ih]
        simp only [isFlag, flagChars, List.mem_cons, List.not_mem_nil, or_false,
          decide_eq_true_eq] at flag
        rcases flag with rfl | rfl | rfl | rfl | rfl <;> rfl
      · rw [List.takeWhile_cons_of_neg flag, List.dropWhile_cons_of_neg flag]
        simp only [isFlag, flagChars, List.mem_cons, List.not_mem_nil, or_false,
          decide_eq_true_eq, not_or] at flag
        obtain ⟨alt, zero, left, space, plus⟩ := flag
        simp only [processFlags, alt, zero, left, space, plus, if_false, List.foldl_nil]

theorem processNumber_eq (number : Int) (format : List Char) :
    processNumber number format =
      (readNumber number (format.takeWhile Char.isDigit), format.dropWhile Char.isDigit) := by
  induction format generalizing number with
  | nil => rfl
  | cons c rest ih =>
      by_cases digit : c.isDigit
      · rw [List.takeWhile_cons_of_pos digit, List.dropWhile_cons_of_pos digit, processNumber,
          if_pos digit, ih]
        rfl
      · rw [List.takeWhile_cons_of_neg digit, List.dropWhile_cons_of_neg digit, processNumber,
          if_neg digit]
        rfl

theorem processWidth_eq (format : List Char) (args : List VaArg) :
    processWidth format args = (((parseWidth format).1.take args).1, (parseWidth format).2,
      ((parseWidth format).1.take args).2) := by
  cases format with
  | nil => rfl
  | cons c rest =>
      simp only [processWidth, parseWidth]
      split_ifs
      · rw [processNumber_eq]
        rfl
      · rfl
      · rfl

theorem processPrecision_eq (format : List Char) (args : List VaArg) :
    processPrecision format args = (((parsePrecision format).1.take args).1,
      (parsePrecision format).2, ((parsePrecision format).1.take args).2) := by
  unfold processPrecision parsePrecision
  split
  · simp only
    split_ifs
    · rw [processNumber_eq]
      rfl
    · rfl
    · rfl
  · rfl
  · next ordinary single =>
      split
      · next c rest => exact absurd rfl (ordinary c rest)
      · exact absurd rfl single
      · rfl

theorem convert_lengths (flags : Flags) (length : Bool) {lengths : List Char}
    (letters : ∀ c ∈ lengths, isLength c) (rest : List Char) (args : List VaArg) :
    convert flags length (lengths ++ rest) args =
      convert flags (length || !lengths.isEmpty) rest args := by
  induction lengths generalizing length with
  | nil => simp
  | cons c lengths ih =>
      have letter : c = 'l' ∨ c = 'z' := by
        simpa [isLength] using letters c List.mem_cons_self
      rw [List.cons_append, convert, if_pos letter,
        ih true fun other member => letters other (List.mem_cons_of_mem _ member)]
      simp

/-- The conversion of a directive, and what the directive leaves. -/
def converted (format : List Char) (args : List VaArg) :
    Option Conversion × List Char × List VaArg :=
  let width := processWidth (processFlags noFlags format).2 args
  let precision := processPrecision width.2.1 width.2.2
  convert (processFlags noFlags format).1 false precision.2.1 precision.2.2

theorem converted_eq (format : List Char) (args : List VaArg) :
    converted format args =
      let parts := (parseDirective format).1
      convert (parts.flags.foldl Flags.add noFlags) (!parts.lengths.isEmpty)
        (parts.conversion.toList ++ (parseDirective format).2)
        (parts.precision.take (parts.width.take args).2).2 := by
  generalize left : (parsePrecision (parseWidth (format.dropWhile isFlag)).2).2 = rest
  have split : rest = rest.takeWhile isLength ++
      ((rest.dropWhile isLength).head?.toList ++ (rest.dropWhile isLength).tail) :=
    (parseConversion_text rest).symm
  have letters : ∀ c ∈ rest.takeWhile isLength, isLength c :=
    fun c member => List.mem_takeWhile_imp member
  simp only [converted, processFlags_eq, processWidth_eq, processPrecision_eq, parseDirective,
    parseConversion, left]
  conv_lhs => rw [split]
  rw [convert_lengths _ _ letters]
  rfl

theorem directive_eq (format : List Char) (args : List VaArg) :
    directive format args =
      let parts := (parseDirective format).1
      let flags := parts.flags.foldl Flags.add noFlags
      let (width, args) := parts.width.take args
      let (precision, args) := parts.precision.take args
      match convert flags (!parts.lengths.isEmpty)
          (parts.conversion.toList ++ (parseDirective format).2) args with
      | (some conversion, format, args) => (conversion.emit width precision, format, args)
      | (none, format, args) => ([], format, args) := by
  have parts := converted_eq format args
  simp only [converted, processWidth_eq, processPrecision_eq, processFlags_eq] at parts
  simp only [directive, processFlags_eq, processWidth_eq, processPrecision_eq, parts]
  rfl

end OsLabs.Weensy
