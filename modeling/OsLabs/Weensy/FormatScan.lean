import OsLabs.Lib.ExceptRules
import OsLabs.Weensy.Directive

/-!
# The format pointer of printer_vprintf

`printer_vprintf` reads the format byte by byte, also the terminator behind it, and takes
its arguments one by one.  Reading behind the terminator and taking an argument of another
type are faults here, and every loop has fuel.
-/

set_option autoImplicit false

namespace OsLabs.Weensy

open OsLabs.ExceptRules

/-! ## Reads -/

inductive ScanFault where
  /-- A byte behind the terminator is read. -/
  | outOfBounds
  /-- The argument is missing or of another type. -/
  | badArgument
  /-- A loop was given up. -/
  | running
  deriving DecidableEq, Repr

def nul : Char := Char.ofNat 0

def charAt (format : List Char) (i : Nat) : Except ScanFault Char :=
  if i < format.length then .ok (format.getD i nul)
  else if i = format.length then .ok nul
  else .error .outOfBounds

/-- `strchr`, which also finds the terminator; the result is an offset. -/
def strchr : List Char → Char → Option Nat
  | [], c => if nul = c then some 0 else none
  | a :: s, c => if a = c then some 0 else (strchr s c).map (· + 1)

/-- The arguments that are left, and the types that were asked for. -/
structure VaList where
  rest : List VaArg
  requested : List VaType

def VaType.fits : VaType → VaArg → Bool
  | .charPointer, .string _ => true
  | .charPointer, .word _ => false
  | _, .word _ => true
  | _, .string _ => false

/-- `va_arg(val, type)`, where `read` says what the value is. -/
def vaArg {α : Type} (type : VaType) (read : List VaArg → α × List VaArg) (val : VaList) :
    Except ScanFault (α × VaList) :=
  match val.rest with
  | [] => .error .badArgument
  | arg :: _ =>
      if type.fits arg then
        .ok ((read val.rest).1, ⟨(read val.rest).2, val.requested ++ [type]⟩)
      else .error .badArgument

/-! ## printer_vprintf -/

/-- `flags |= 1 << bit`. -/
def Flags.orBit (flags : Flags) : Nat → Flags
  | 0 => { flags with alt := true }
  | 1 => { flags with zero := true }
  | 2 => { flags with leftjustify := true }
  | 3 => { flags with spacepositive := true }
  | 4 => { flags with pluspositive := true }
  | 5 => { flags with numeric := true }
  | _ => flags

def scanFlags (format : List Char) : Nat → Flags → Nat → Except ScanFault (Flags × Nat)
  | 0, _, _ => .error .running
  | fuel + 1, flags, i => do
      let c ← charAt format i
      if c = nul then .ok (flags, i)
      else
        match strchr flagChars c with
        | some bit => scanFlags format fuel (flags.orBit bit) (i + 1)
        | none => .ok (flags, i)

def scanNumber (format : List Char) : Nat → Int → Nat → Except ScanFault (Int × Nat)
  | 0, _, _ => .error .running
  | fuel + 1, number, i => do
      let c ← charAt format i
      if c.isDigit then scanNumber format fuel (10 * number + (c.toNat - 48 : Nat)) (i + 1)
      else .ok (number, i)

def scanWidth (format : List Char) (fuel : Nat) (val : VaList) (i : Nat) :
    Except ScanFault (Int × VaList × Nat) := do
  let c ← charAt format i
  if c.isDigit ∧ c ≠ '0' then
    let (width, i) ← scanNumber format fuel 0 i
    .ok (width, val, i)
  else if c = '*' then
    let (width, val) ← vaArg .int vaInt val
    .ok (width, val, i + 1)
  else .ok (-1, val, i)

/-- The precision behind a `.`, before the check for a negative one. -/
def scanDigits (format : List Char) (fuel : Nat) (val : VaList) (i : Nat) :
    Except ScanFault (Int × VaList × Nat) := do
  let c ← charAt format i
  if c.isDigit then
    let (precision, i) ← scanNumber format fuel 0 i
    .ok (precision, val, i)
  else if c = '*' then
    let (precision, val) ← vaArg .int vaInt val
    .ok (precision, val, i + 1)
  else .ok (-1, val, i)

def scanPrecision (format : List Char) (fuel : Nat) (val : VaList) (i : Nat) :
    Except ScanFault (Int × VaList × Nat) := do
  let c ← charAt format i
  if c = '.' then
    let (precision, val, i) ← scanDigits format fuel val (i + 1)
    .ok (if precision < 0 then 0 else precision, val, i)
  else .ok (-1, val, i)

/-- Where the `switch` leads: to the output of a field, or past it with a new color. -/
inductive ConversionChosen where
  | field (conversion : Conversion)
  | color (color : Int)

/-- The `switch` from `again` on; the format pointer is at the last character used. -/
def scanConversion (format : List Char) (flags : Flags) :
    Nat → Bool → VaList → Nat → Except ScanFault (ConversionChosen × VaList × Nat)
  | 0, _, _, _ => .error .running
  | fuel + 1, length, val, i => do
      let c ← charAt format i
      if c = 'l' ∨ c = 'z' then scanConversion format flags fuel true val (i + 1)
      else if c = 'd' ∨ c = 'i' then
        let (x, val) ← vaArg (if length then .long else .int) (vaSigned length) val
        .ok (.field ⟨{ flags with numeric := true, signed := true, negative := x < 0 }, 10,
          x.natAbs, []⟩, val, i)
      else if c = 'u' then
        let (num, val) ← vaArg (if length then .unsignedLong else .unsigned)
          (vaUnsigned length) val
        .ok (.field (unsignedConversion flags 10 num), val, i)
      else if c = 'x' then
        let (num, val) ← vaArg (if length then .unsignedLong else .unsigned)
          (vaUnsigned length) val
        .ok (.field (unsignedConversion flags (-16) num), val, i)
      else if c = 'X' then
        let (num, val) ← vaArg (if length then .unsignedLong else .unsigned)
          (vaUnsigned length) val
        .ok (.field (unsignedConversion flags 16 num), val, i)
      else if c = 'p' then
        let (num, val) ← vaArg .pointer (vaUnsigned true) val
        .ok (.field (unsignedConversion { flags with alt := true, alt2 := true } (-16) num),
          val, i)
      else if c = 's' then
        let (data, val) ← vaArg .charPointer vaString val
        .ok (.field ⟨flags, 10, 0, data⟩, val, i)
      else if c = 'C' then
        let (color, val) ← vaArg .int vaInt val
        .ok (.color color, val, i)
      else if c = 'c' then
        let (value, val) ← vaArg .int vaInt val
        let byte := (value % 256).toNat
        .ok (.field ⟨flags, 10, 0, if byte = 0 then [] else [Char.ofNat byte]⟩, val, i)
      else if c = nul then .ok (.field ⟨flags, 10, 0, ['%']⟩, val, i - 1)
      else .ok (.field ⟨flags, 10, 0, [c]⟩, val, i)

/-- A directive, from the character after its `%`: what is printed and the color then. -/
def scanDirective (format : List Char) (fuel : Nat) (color : Int) (val : VaList) (i : Nat) :
    Except ScanFault (List Char × Int × VaList × Nat) := do
  let (flags, i) ← scanFlags format fuel noFlags i
  let (width, val, i) ← scanWidth format fuel val i
  let (precision, val, i) ← scanPrecision format fuel val i
  match ← scanConversion format flags fuel false val i with
  | (.field conversion, val, i) => .ok (conversion.emit width precision, color, val, i)
  | (.color color, val, i) => .ok ([], color, val, i)

/-- The calls of `putc`. -/
abbrev Calls := List (Char × Int)

/-- The loop of `printer_vprintf`. -/
def scanFormat (format : List Char) :
    Nat → Int → VaList → Nat → Except ScanFault (Calls × VaList)
  | 0, _, _, _ => .error .running
  | fuel + 1, color, val, i => do
      let c ← charAt format i
      if c = nul then .ok ([], val)
      else if c ≠ '%' then
        let (calls, val) ← scanFormat format fuel color val (i + 1)
        .ok ((c, color) :: calls, val)
      else
        let (printed, color, val, i) ← scanDirective format fuel color val (i + 1)
        let (calls, val) ← scanFormat format fuel color val (i + 1)
        .ok (printed.map (·, color) ++ calls, val)

/-! ## The place in the format -/

/-- The pointer is inside the string and `rest` is what stands from there on. -/
structure At (format : List Char) (i : Nat) (rest : List Char) : Prop where
  inside : i ≤ format.length
  drop : format.drop i = rest

section Place

variable {format rest front : List Char} {i : Nat} {c : Char}

theorem At.start (format : List Char) : At format 0 format := ⟨Nat.zero_le _, rfl⟩

theorem At.read_nul (place : At format i []) : charAt format i = .ok nul := by
  have ended := List.drop_eq_nil_iff.mp place.drop
  have here : i = format.length := Nat.le_antisymm place.inside ended
  rw [charAt, if_neg (by omega), if_pos here]

theorem At.read (place : At format i (c :: rest)) : charAt format i = .ok c := by
  have found : format[i]? = some c := by
    rw [← List.head?_drop, place.drop]
    rfl
  obtain ⟨inside, _⟩ := List.getElem?_eq_some_iff.mp found
  rw [charAt, if_pos inside, List.getD_eq_getElem?_getD, found]
  rfl

theorem At.skip (place : At format i (front ++ rest)) :
    At format (i + front.length) rest := by
  have whole := congrArg List.length place.drop
  rw [List.length_drop, List.length_append] at whole
  constructor
  · have inside := place.inside
    omega
  · rw [← List.drop_drop, place.drop, List.drop_left]

theorem At.cut {back : List Char} (place : At format i rest) (split : front ++ back = rest) :
    At format (i + front.length) back := by
  subst split
  exact place.skip

theorem At.next (place : At format i (c :: rest)) : At format (i + 1) rest :=
  @At.skip format rest [c] i place

end Place

/-! ## The arguments -/

/-- The list begins with arguments of these types, and `more` follows. -/
def Typed : List VaType → List VaArg → List VaArg → Prop
  | [], args, more => args = more
  | _ :: _, [], _ => False
  | type :: types, arg :: args, more => type.fits arg ∧ Typed types args more

theorem typed_append {front back : List VaType} {args more : List VaArg} :
    Typed (front ++ back) args more ↔
      ∃ middle, Typed front args middle ∧ Typed back middle more := by
  induction front generalizing args with
  | nil =>
      constructor
      · intro typed
        exact ⟨args, rfl, typed⟩
      · rintro ⟨_, rfl, typed⟩
        exact typed
  | cons type front ih =>
      cases args with
      | nil => simp [Typed]
      | cons arg args =>
          simp only [List.cons_append, Typed, ih]
          constructor
          · rintro ⟨fits, middle, first, second⟩
            exact ⟨middle, ⟨fits, first⟩, second⟩
          · rintro ⟨middle, ⟨fits, first⟩, second⟩
            exact ⟨fits, middle, first, second⟩

theorem vaArg_typed {α : Type} {type : VaType} {read : List VaArg → α × List VaArg}
    {val : VaList} {more : List VaArg} (typed : Typed [type] val.rest more)
    (one : ∀ args, (read args).2 = args.tail) :
    vaArg type read val = .ok ((read val.rest).1, ⟨more, val.requested ++ [type]⟩) ∧
      (read val.rest).2 = more := by
  cases args : val.rest with
  | nil =>
      rw [args] at typed
      exact typed.elim
  | cons arg others =>
      rw [args] at typed
      obtain ⟨fits, rfl⟩ := typed
      have left : (read (arg :: others)).2 = others := one (arg :: others)
      refine ⟨?_, left⟩
      simp only [vaArg, args, fits, if_true, left]

/-! ## One directive -/

section Parts

variable {format rest : List Char} {fuel i : Nat} {val : VaList} {more : List VaArg}

theorem strchr_flag {c : Char} (flag : isFlag c) :
    ∃ bit, strchr flagChars c = some bit ∧ ∀ flags : Flags, flags.orBit bit = flags.add c := by
  simp only [isFlag, flagChars, List.mem_cons, List.not_mem_nil, or_false,
    decide_eq_true_eq] at flag
  rcases flag with rfl | rfl | rfl | rfl | rfl
  · exact ⟨0, rfl, fun _ => rfl⟩
  · exact ⟨1, rfl, fun _ => rfl⟩
  · exact ⟨2, rfl, fun _ => rfl⟩
  · exact ⟨3, rfl, fun _ => rfl⟩
  · exact ⟨4, rfl, fun _ => rfl⟩

theorem strchr_none {s : List Char} {c : Char} (text : c ≠ nul) (absent : c ∉ s) :
    strchr s c = none := by
  induction s with
  | nil => exact if_neg text.symm
  | cons a s ih =>
      rw [List.mem_cons, not_or] at absent
      rw [strchr, if_neg (Ne.symm absent.1), ih absent.2]
      rfl

theorem scanFlags_at (place : At format i rest) (text : nul ∉ rest)
    (enough : rest.length < fuel) (flags : Flags) :
    scanFlags format fuel flags i =
      .ok ((rest.takeWhile isFlag).foldl Flags.add flags,
        i + (rest.takeWhile isFlag).length) := by
  induction rest generalizing fuel flags i with
  | nil =>
      obtain ⟨fuel, rfl⟩ := Nat.exists_eq_succ_of_ne_zero (by omega : fuel ≠ 0)
      simp [scanFlags, place.read_nul]
  | cons c rest ih =>
      obtain ⟨fuel, rfl⟩ := Nat.exists_eq_succ_of_ne_zero (by omega : fuel ≠ 0)
      rw [List.mem_cons, not_or] at text
      simp only [scanFlags, place.read, ok_bind, if_neg (Ne.symm text.1)]
      by_cases flag : isFlag c
      · obtain ⟨bit, found, sets⟩ := strchr_flag flag
        simp only [found, sets]
        rw [ih place.next text.2 (Nat.lt_of_succ_lt_succ enough),
          List.takeWhile_cons_of_pos flag, List.foldl_cons, List.length_cons]
        congr 2
        omega
      · have absent : c ∉ flagChars := by simpa [isFlag] using flag
        simp only [strchr_none (Ne.symm text.1) absent]
        rw [List.takeWhile_cons_of_neg flag]
        rfl

theorem scanNumber_at (place : At format i rest) (enough : rest.length < fuel)
    (number : Int) :
    scanNumber format fuel number i =
      .ok (readNumber number (rest.takeWhile Char.isDigit),
        i + (rest.takeWhile Char.isDigit).length) := by
  induction rest generalizing fuel number i with
  | nil =>
      obtain ⟨fuel, rfl⟩ := Nat.exists_eq_succ_of_ne_zero (by omega : fuel ≠ 0)
      rw [scanNumber, place.read_nul, ok_bind]
      rfl
  | cons c rest ih =>
      obtain ⟨fuel, rfl⟩ := Nat.exists_eq_succ_of_ne_zero (by omega : fuel ≠ 0)
      simp only [scanNumber, place.read, ok_bind]
      by_cases digit : c.isDigit
      · rw [if_pos digit, ih place.next (Nat.lt_of_succ_lt_succ enough),
          List.takeWhile_cons_of_pos digit, List.length_cons, readNumber, readNumber,
          List.foldl_cons]
        congr 2
        omega
      · rw [if_neg digit, List.takeWhile_cons_of_neg digit]
        rfl

theorem scanWidth_at (place : At format i rest) (enough : rest.length < fuel)
    (typed : Typed (parseWidth rest).1.arguments val.rest more) :
    scanWidth format fuel val i =
      .ok (((parseWidth rest).1.take val.rest).1,
        ⟨more, val.requested ++ (parseWidth rest).1.arguments⟩,
        i + (parseWidth rest).1.text.length) ∧
      ((parseWidth rest).1.take val.rest).2 = more := by
  cases rest with
  | nil =>
      cases typed
      rw [scanWidth, place.read_nul, ok_bind]
      simp [parseWidth, Width.take, Width.arguments, Width.text, nul]
  | cons c rest =>
      simp only [scanWidth, place.read, ok_bind]
      by_cases digit : c.isDigit ∧ c ≠ '0'
      · simp only [parseWidth, if_pos digit] at typed ⊢
        cases typed
        rw [scanNumber_at place enough]
        simp [Width.take, Width.arguments, Width.text]
      · simp only [parseWidth, if_neg digit] at typed ⊢
        by_cases star : c = '*'
        · simp only [if_pos star] at typed ⊢
          obtain ⟨taken, left⟩ := vaArg_typed typed vaInt_left
          rw [taken]
          exact ⟨rfl, left⟩
        · simp only [if_neg star] at typed ⊢
          cases typed
          simp [Width.take, Width.arguments, Width.text]

theorem parsePrecision_other {c : Char} (other : c ≠ '.') (rest : List Char) :
    parsePrecision (c :: rest) = (.absent, c :: rest) := by
  unfold parsePrecision
  split
  · next same =>
      injection same with same
      exact absurd same other
  · next same =>
      injection same with same
      exact absurd same other
  · rfl

theorem scanPrecision_at (place : At format i rest) (enough : rest.length < fuel)
    (typed : Typed (parsePrecision rest).1.arguments val.rest more) :
    scanPrecision format fuel val i =
      .ok (((parsePrecision rest).1.take val.rest).1,
        ⟨more, val.requested ++ (parsePrecision rest).1.arguments⟩,
        i + (parsePrecision rest).1.text.length) ∧
      ((parsePrecision rest).1.take val.rest).2 = more := by
  cases rest with
  | nil =>
      cases typed
      rw [scanPrecision, place.read_nul, ok_bind]
      simp [parsePrecision, Precision.take, Precision.arguments, Precision.text, nul]
  | cons point rest =>
      simp only [scanPrecision, place.read, ok_bind]
      by_cases here : point = '.'
      · subst here
        simp only [if_true, scanDigits]
        cases rest with
        | nil =>
            cases typed
            rw [place.next.read_nul, ok_bind]
            simp [parsePrecision, Precision.take, Precision.arguments, Precision.text, nul]
        | cons c rest =>
            simp only [place.next.read, ok_bind]
            by_cases digit : c.isDigit
            · simp only [parsePrecision, if_pos digit] at typed ⊢
              cases typed
              rw [scanNumber_at place.next (Nat.lt_of_succ_lt enough)]
              have natural := readNumber_nonneg (le_refl 0)
                ((c :: rest).takeWhile Char.isDigit)
              simp only [ok_bind, if_neg (not_lt.mpr natural), Precision.take,
                Precision.arguments, Precision.text, List.append_nil, List.length_cons,
                and_true]
              congr 3
              omega
            · simp only [parsePrecision, if_neg digit] at typed ⊢
              by_cases star : c = '*'
              · simp only [if_pos star] at typed ⊢
                obtain ⟨taken, left⟩ := vaArg_typed typed vaInt_left
                rw [taken]
                refine ⟨?_, left⟩
                have natural : (if (vaInt val.rest).1 < 0 then 0 else (vaInt val.rest).1) =
                    max (vaInt val.rest).1 0 := by
                  split <;> omega
                simp only [ok_bind, natural]
                rfl
              · simp only [if_neg star] at typed ⊢
                cases typed
                simp [Precision.take, Precision.arguments, Precision.text]
      · rw [if_neg here]
        rw [parsePrecision_other here] at typed ⊢
        cases typed
        simp [Precision.take, Precision.arguments, Precision.text]

end Parts

/-! ## The conversion -/

/-- What `convert` calls the result of the `switch`. -/
def ConversionChosen.conversion : ConversionChosen → Option Conversion
  | .field conversion => some conversion
  | .color _ => none

section Conversions

variable {format rest : List Char} {fuel i : Nat} {val : VaList} {more : List VaArg}
  {flags : Flags} {length : Bool} {c : Char}

theorem scanConversion_char (place : At format i (c :: rest)) (text : c ≠ nul)
    (other : ¬ isLength c) (typed : Typed (conversionArguments length c) val.rest more) :
    ∃ switched, scanConversion format flags (fuel + 1) length val i =
        .ok (switched, ⟨more, val.requested ++ conversionArguments length c⟩, i) ∧
      convert flags length (c :: rest) val.rest = (switched.conversion, rest, more) := by
  have letter : ¬ (c = 'l' ∨ c = 'z') := by simpa [isLength] using other
  rw [convert, scanConversion, place.read, ok_bind, if_neg letter, if_neg letter]
  unfold conversionArguments at typed ⊢
  by_cases signed : c = 'd' ∨ c = 'i'
  · have named : c ∈ ['d', 'i'] := by simpa using signed
    simp only [if_pos signed, if_pos named] at typed ⊢
    obtain ⟨taken, left⟩ := vaArg_typed typed (vaSigned_left length)
    rw [taken, ok_bind, left]
    exact ⟨_, rfl, rfl⟩
  · have unnamed : c ∉ ['d', 'i'] := by simpa using signed
    simp only [if_neg signed, if_neg unnamed] at typed ⊢
    by_cases unsigned : c ∈ ['u', 'x', 'X']
    · simp only [if_pos unsigned] at typed ⊢
      obtain ⟨taken, left⟩ := vaArg_typed typed (vaUnsigned_left length)
      simp only [List.mem_cons, List.not_mem_nil, or_false] at unsigned
      rw [taken, left]
      rcases unsigned with rfl | rfl | rfl
      · exact ⟨_, rfl, rfl⟩
      · exact ⟨_, rfl, rfl⟩
      · exact ⟨_, rfl, rfl⟩
    · simp only [if_neg unsigned] at typed ⊢
      simp only [List.mem_cons, List.not_mem_nil, or_false, not_or] at unsigned
      simp only [if_neg unsigned.1, if_neg unsigned.2.1, if_neg unsigned.2.2]
      by_cases pointer : c = 'p'
      · simp only [if_pos pointer] at typed ⊢
        obtain ⟨taken, left⟩ := vaArg_typed typed (vaUnsigned_left true)
        rw [taken, ok_bind, left]
        exact ⟨_, rfl, rfl⟩
      · simp only [if_neg pointer] at typed ⊢
        by_cases string : c = 's'
        · simp only [if_pos string] at typed ⊢
          obtain ⟨taken, left⟩ := vaArg_typed typed vaString_left
          rw [taken, ok_bind, left]
          exact ⟨_, rfl, rfl⟩
        · simp only [if_neg string] at typed ⊢
          by_cases character : c ∈ ['c', 'C']
          · simp only [if_pos character] at typed ⊢
            obtain ⟨taken, left⟩ := vaArg_typed typed vaInt_left
            simp only [List.mem_cons, List.not_mem_nil, or_false] at character
            rw [taken, left]
            rcases character with rfl | rfl
            · exact ⟨_, rfl, rfl⟩
            · exact ⟨_, rfl, rfl⟩
          · simp only [if_neg character] at typed ⊢
            cases typed
            simp only [List.mem_cons, List.not_mem_nil, or_false, not_or] at character
            rw [if_neg character.2, if_neg character.1, if_neg text, if_neg character.2,
              if_neg character.1, List.append_nil]
            exact ⟨_, rfl, rfl⟩

/-- The `switch` with its length letters: the format pointer is then before what the
directive leaves, also where the format has ended. -/
theorem scanConversion_at (place : At format i rest) (behind : 0 < i) (text : nul ∉ rest)
    (enough : rest.length < fuel)
    (typed : Typed ((parseConversion rest).2.1.toList.flatMap
      (conversionArguments (length || !(parseConversion rest).1.isEmpty))) val.rest more) :
    ∃ switched j, scanConversion format flags fuel length val i =
        .ok (switched, ⟨more, val.requested ++ (parseConversion rest).2.1.toList.flatMap
          (conversionArguments (length || !(parseConversion rest).1.isEmpty))⟩, j) ∧
      At format (j + 1) (parseConversion rest).2.2 ∧
      convert flags length rest val.rest =
        (switched.conversion, (parseConversion rest).2.2, more) := by
  induction rest generalizing fuel i length with
  | nil =>
      obtain ⟨fuel, rfl⟩ := Nat.exists_eq_succ_of_ne_zero (by omega : fuel ≠ 0)
      cases typed
      refine ⟨.field ⟨flags, 10, 0, ['%']⟩, i - 1, ?_, ?_, rfl⟩
      · rw [scanConversion, place.read_nul, ok_bind]
        simp [parseConversion, nul]
      · rwa [Nat.sub_add_cancel behind]
  | cons c rest ih =>
      obtain ⟨fuel, rfl⟩ := Nat.exists_eq_succ_of_ne_zero (by omega : fuel ≠ 0)
      rw [List.mem_cons, not_or] at text
      by_cases letter : isLength c
      · have named : c = 'l' ∨ c = 'z' := by simpa [isLength] using letter
        have onward : parseConversion (c :: rest) =
            (c :: (parseConversion rest).1, (parseConversion rest).2) := by
          simp only [parseConversion, List.takeWhile_cons_of_pos letter,
            List.dropWhile_cons_of_pos letter]
        simp only [onward, List.isEmpty_cons, Bool.not_false, Bool.or_true] at typed ⊢
        rw [convert, if_pos named, scanConversion, place.read, ok_bind, if_pos named]
        exact ih place.next (Nat.succ_pos i) text.2 (Nat.lt_of_succ_lt_succ enough) typed
      · have here : parseConversion (c :: rest) = ([], some c, rest) := by
          simp only [parseConversion, List.takeWhile_cons_of_neg letter,
            List.dropWhile_cons_of_neg letter, List.head?_cons, List.tail_cons]
        simp only [here, List.isEmpty_nil, Bool.not_true, Bool.or_false, Option.toList_some,
          List.flatMap_singleton] at typed ⊢
        obtain ⟨switched, scanned, converted⟩ :=
          scanConversion_char place (Ne.symm text.1) letter typed
        exact ⟨switched, i, scanned, place.next, converted⟩

end Conversions

/-! ## The whole format -/

section Whole

variable {format rest : List Char} {fuel i : Nat} {color : Int} {val : VaList}
  {more : List VaArg}

/-- What is left of a text without terminators is one and no longer. -/
theorem left_of {front back : List Char} (split : front ++ back = rest) (text : nul ∉ rest)
    (enough : rest.length < fuel) : nul ∉ back ∧ back.length < fuel := by
  subst split
  rw [List.length_append] at enough
  refine ⟨fun member => text (List.mem_append_right _ member), ?_⟩
  omega

/-- A directive takes its arguments and stops before what it leaves. -/
theorem scanDirective_at (place : At format i rest) (behind : 0 < i) (text : nul ∉ rest)
    (enough : rest.length < fuel)
    (typed : Typed (parseDirective rest).1.arguments val.rest more) :
    ∃ newColor j, scanDirective format fuel color val i =
        .ok ((directive rest val.rest).1, newColor,
          ⟨more, val.requested ++ (parseDirective rest).1.arguments⟩, j) ∧
      At format (j + 1) (parseDirective rest).2 ∧
      (directive rest val.rest).2 = ((parseDirective rest).2, more) := by
  have flagsSplit : rest.takeWhile isFlag ++ rest.dropWhile isFlag = rest :=
    List.takeWhile_append_dropWhile
  have flags := scanFlags_at place text enough noFlags
  have widthPlace := place.cut flagsSplit
  obtain ⟨widthText, widthEnough⟩ := left_of flagsSplit text enough
  simp only [parseDirective_eq, Directive.arguments] at typed ⊢
  simp only [directive, processFlags_eq, processWidth_eq, processPrecision_eq]
  generalize rest.dropWhile isFlag = atWidth at *
  generalize (rest.takeWhile isFlag).foldl Flags.add noFlags = setFlags at *
  obtain ⟨precisionArgs, widthTyped, typed⟩ := typed_append.mp typed
  obtain ⟨conversionArgs, precisionTyped, conversionTyped⟩ := typed_append.mp typed
  -- each part starts where the one before it stops
  have widthSplit := parseWidth_text atWidth
  obtain ⟨width, widthLeft⟩ := scanWidth_at widthPlace widthEnough widthTyped
  have precisionPlace := widthPlace.cut widthSplit
  obtain ⟨precisionText, precisionEnough⟩ := left_of widthSplit widthText widthEnough
  generalize parseWidth atWidth = parsedWidth at *
  generalize takenWidth : parsedWidth.1.take val.rest = widthTaken at *
  subst widthLeft
  have precisionSplit := parsePrecision_text parsedWidth.2
  obtain ⟨precision, precisionLeft⟩ := @scanPrecision_at format parsedWidth.2 fuel _
    ⟨widthTaken.2, val.requested ++ parsedWidth.1.arguments⟩ conversionArgs precisionPlace
    precisionEnough precisionTyped
  have conversionPlace := precisionPlace.cut precisionSplit
  obtain ⟨conversionText, conversionEnough⟩ :=
    left_of precisionSplit precisionText precisionEnough
  generalize parsePrecision parsedWidth.2 = parsedPrecision at *
  generalize takenPrecision : parsedPrecision.1.take widthTaken.2 = precisionTaken at *
  subst precisionLeft
  obtain ⟨switched, j, scanned, left, converted⟩ := @scanConversion_at format
    parsedPrecision.2 fuel _ ⟨precisionTaken.2, val.requested ++ parsedWidth.1.arguments ++
      parsedPrecision.1.arguments⟩ more setFlags false conversionPlace (by omega)
    conversionText conversionEnough (by simpa using conversionTyped)
  rw [Bool.false_or] at scanned
  simp only [scanDirective, flags, width, precision, scanned, converted, ok_bind]
  cases switched with
  | field conversion =>
      refine ⟨color, j, ?_, left, rfl⟩
      simp [ConversionChosen.conversion]
  | color newColor =>
      refine ⟨newColor, j, ?_, left, rfl⟩
      simp [ConversionChosen.conversion]

theorem scanFormat_at (place : At format i rest) (text : nul ∉ rest)
    (enough : rest.length < fuel) (typed : Typed (formatArguments rest) val.rest more) :
    ∃ calls, scanFormat format fuel color val i =
        .ok (calls, ⟨more, val.requested ++ formatArguments rest⟩) ∧
      calls.map Prod.fst = printFrom rest val.rest := by
  induction rest using pieces.induct generalizing fuel i color val with
  | case1 =>
      obtain ⟨fuel, rfl⟩ := Nat.exists_eq_succ_of_ne_zero (by omega : fuel ≠ 0)
      rw [formatArguments_nil] at typed ⊢
      cases typed
      refine ⟨[], ?_, rfl⟩
      rw [scanFormat, place.read_nul, ok_bind, if_pos rfl, List.append_nil]
  | case2 rest ih =>
      obtain ⟨fuel, rfl⟩ := Nat.exists_eq_succ_of_ne_zero (by omega : fuel ≠ 0)
      rw [List.mem_cons, not_or] at text
      rw [formatArguments_directive] at typed ⊢
      obtain ⟨middle, here, later⟩ := typed_append.mp typed
      obtain ⟨newColor, j, scanned, left, printed⟩ := @scanDirective_at format rest fuel _
        color val middle place.next (Nat.succ_pos i) text.2
        (Nat.lt_of_succ_lt_succ enough) here
      obtain ⟨leftText, leftEnough⟩ :=
        left_of (parseDirective_text rest) text.2 (Nat.lt_of_succ_lt_succ enough)
      obtain ⟨calls, onward, same⟩ := @ih fuel (j + 1) newColor
        ⟨middle, val.requested ++ (parseDirective rest).1.arguments⟩ left leftText leftEnough
        later
      refine ⟨(directive rest val.rest).1.map (·, newColor) ++ calls, ?_, ?_⟩
      · rw [scanFormat, place.read, ok_bind, if_neg (by decide), if_neg (not_not.mpr rfl),
          scanned, ok_bind]
        simp only [onward, ok_bind, List.append_assoc]
      · rw [printFrom_directive, printed, List.map_append, same, List.map_map]
        simp [Function.comp_def]
  | case3 c rest other ih =>
      obtain ⟨fuel, rfl⟩ := Nat.exists_eq_succ_of_ne_zero (by omega : fuel ≠ 0)
      rw [List.mem_cons, not_or] at text
      rw [formatArguments_literal other] at typed ⊢
      obtain ⟨calls, onward, same⟩ := @ih fuel (i + 1) color val place.next text.2
        (Nat.lt_of_succ_lt_succ enough) typed
      refine ⟨(c, color) :: calls, ?_, ?_⟩
      · rw [scanFormat, place.read, ok_bind, if_neg (Ne.symm text.1), if_pos other, onward]
        rfl
      · have plain : '%' ∉ [c] := by simpa using Ne.symm other
        rw [List.map_cons, same]
        exact (printFrom_literal plain rest val.rest).symm

end Whole

/-- `printer_vprintf` with as much fuel as each of its loops needs. -/
def scanPrintf (color : Int) (format : List Char) (args : List VaArg) :
    Except ScanFault (Calls × VaList) :=
  scanFormat format (format.length + 1) color ⟨args, []⟩ 0

/-- On every string the engine ends at its terminator, having taken the arguments of the
pieces and no others, and prints what the list of characters says. -/
theorem scanPrintf_ends {format : List Char} (text : nul ∉ format) (color : Int)
    {args more : List VaArg} (typed : Typed (formatArguments format) args more) :
    (∃ calls, scanPrintf color format args = .ok (calls, ⟨more, formatArguments format⟩) ∧
      calls.map Prod.fst = printFrom format args) ∧
    (pieces format).flatMap Piece.text = format ∧ ∀ piece ∈ pieces format, piece.Wf := by
  refine ⟨?_, pieces_text format, pieces_wf format⟩
  exact @scanFormat_at format format (format.length + 1) 0 color ⟨args, []⟩ more
    (At.start format) text (Nat.lt_succ_self _) typed

/-- A format that is cut off behind a length letter, and an argument too many. -/
theorem scanPrintf_ends_cut :
    ∃ calls, scanPrintf 0x0700 "%*d %-5.2s%0l".toList
      [.word 6, .word 42, .string ['o', 'k'], .word 9] =
        .ok (calls, ⟨[.word 9], formatArguments "%*d %-5.2s%0l".toList⟩) ∧
      calls.map Prod.fst = "    42 ok   %".toList := by
  have types : formatArguments "%*d %-5.2s%0l".toList = [.int, .int, .charPointer] := by
    have number : formatArguments "%*d %-5.2s%0l".toList =
        [.int, .int] ++ formatArguments " %-5.2s%0l".toList := formatArguments_directive _
    have string : formatArguments "%-5.2s%0l".toList =
        [.charPointer] ++ formatArguments "%0l".toList := formatArguments_directive _
    have cut : formatArguments "%0l".toList = [] ++ formatArguments [] :=
      formatArguments_directive _
    have blank : formatArguments " %-5.2s%0l".toList = formatArguments "%-5.2s%0l".toList :=
      formatArguments_literal (by decide) _
    rw [number, blank, string, cut, formatArguments_nil]
    rfl
  have typed : Typed (formatArguments "%*d %-5.2s%0l".toList)
      [.word 6, .word 42, .string ['o', 'k'], .word 9] [.word 9] := by
    rw [types]
    exact ⟨rfl, rfl, rfl, rfl⟩
  obtain ⟨calls, ends, printed⟩ := (scanPrintf_ends (by decide) 0x0700 typed).1
  refine ⟨calls, ends, ?_⟩
  rw [printed]
  decide

end OsLabs.Weensy
