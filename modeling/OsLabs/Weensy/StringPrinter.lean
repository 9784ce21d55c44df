import OsLabs.Weensy.FormatScan
import OsLabs.Weensy.IntPrinter
import OsLabs.Weensy.MemoryMove

/-!
# The string printer of lib.c and panic of process.c

`vsnprintf` keeps what fits into the buffer and ends it with a NUL; its result is an `int`.
`panic` relies on it for a message in a buffer of 160 bytes.
-/

set_option autoImplicit false

namespace OsLabs.Weensy

open OsLabs.ByteMemory

/-! ## The printer -/

/-- A `char` as a byte. -/
def byteOf (c : Char) : UInt8 := UInt8.ofNat c.toNat

structure StringPrinter where
  s : UIntPtr
  /-- `end`. -/
  last : UIntPtr
  memory : Memory

def stringPutc (sp : StringPrinter) (c : Char) : StringPrinter :=
  if sp.s < sp.last then
    { sp with s := sp.s + 1#64, memory := storeByte sp.memory sp.s (byteOf c) }
  else sp

/-- `vsnprintf` for the characters that `printer_vprintf` emits: the memory and the result. -/
def vsnprintf (memory : Memory) (s : UIntPtr) (size : BitVec 64) (emitted : List Char) :
    Memory × Int :=
  let sp : StringPrinter := ⟨s, s + size - 1#64, memory⟩
  if size ≠ 0#64 then
    let sp := emitted.foldl stringPutc sp
    (storeByte sp.memory sp.s 0, ((sp.s - s).setWidth 32).toInt)
  else (memory, ((sp.s - s).setWidth 32).toInt)

/-- The bytes of a text, without a terminator: the copy of `memcpy`. -/
def storeText (memory : Memory) : UIntPtr → List Char → Memory
  | _, [] => memory
  | d, c :: text => storeText (storeByte memory d (byteOf c)) (d + 1#64) text

def strcpy (memory : Memory) : UIntPtr → List Char → Memory
  | d, [] => storeByte memory d 0
  | d, c :: src => strcpy (storeByte memory d (byteOf c)) (d + 1#64) src

/-- `"PANIC: "`. -/
def messageStart : List Char := ['P', 'A', 'N', 'I', 'C', ':', ' ']

/-- `panic` up to the call that prints `buf`: what it leaves in memory. -/
def panicBuffer (memory : Memory) (buf : UIntPtr) (format : List Char)
    (args : List VaArg) : Memory :=
  let memory := storeText memory buf messageStart
  let (memory, printed) := vsnprintf memory (buf + 7#64) (160#64 - 7#64)
    (printFromInt format args)
  let len := printed + 7
  if 0 < len ∧ memory (buf + BitVec.ofInt 64 (len - 1)).toNat ≠ byteOf '\n' then
    strcpy memory (buf + BitVec.ofInt 64 (len - if len = 159 then 1 else 0)) ['\n']
  else memory

/-! ## Texts in memory -/

theorem pointer_add {p : UIntPtr} {n : Nat} (room : p.toNat + n < 2 ^ 64) :
    (p + BitVec.ofNat 64 n).toNat = p.toNat + n := by
  rw [BitVec.toNat_add, BitVec.toNat_ofNat, Nat.add_mod_mod]
  exact Nat.mod_eq_of_lt room

section Texts

variable {memory : Memory} {d : UIntPtr} {text : List Char}

theorem storeText_outside (room : d.toNat + text.length < 2 ^ 64) {x : Nat}
    (outside : x < d.toNat ∨ d.toNat + text.length ≤ x) :
    storeText memory d text x = memory x := by
  induction text generalizing memory d with
  | nil => rfl
  | cons c text ih =>
      rw [List.length_cons] at room outside
      have next : (d + 1#64).toNat = d.toNat + 1 := pointer_add (by omega)
      rw [storeText, ih (by omega) (by omega)]
      exact storeByte_apart (by omega) _

theorem storeText_inside (room : d.toNat + text.length < 2 ^ 64) {i : Nat}
    (inside : i < text.length) :
    storeText memory d text (d.toNat + i) = byteOf text[i] := by
  induction text generalizing memory d i with
  | nil => exact absurd inside (Nat.not_lt_zero _)
  | cons c text ih =>
      rw [List.length_cons] at room inside
      have next : (d + 1#64).toNat = d.toNat + 1 := pointer_add (by omega)
      rw [storeText]
      cases i with
      | zero =>
          rw [storeText_outside (by omega) (Or.inl (by omega))]
          exact Function.update_self _ _ _
      | succ i =>
          have rest := @ih (storeByte memory d (byteOf c)) (d + 1#64) (by omega) i
            (Nat.lt_of_succ_lt_succ inside)
          rw [next, Nat.add_right_comm] at rest
          exact rest

structure StringAt (memory : Memory) (d : UIntPtr) (text : List Char) : Prop where
  bytes : ∀ i (inside : i < text.length), memory (d.toNat + i) = byteOf text[i]
  nonzero : ∀ c ∈ text, byteOf c ≠ 0
  terminator : memory (d.toNat + text.length) = 0

theorem foldl_stringPutc {s last : UIntPtr} (ordered : s.toNat ≤ last.toNat)
    (memory : Memory) (text : List Char) :
    text.foldl stringPutc ⟨s, last, memory⟩ =
      ⟨s + BitVec.ofNat 64 (min text.length (last.toNat - s.toNat)), last,
        storeText memory s (text.take (last.toNat - s.toNat))⟩ := by
  induction text generalizing s memory with
  | nil => simp [storeText]
  | cons c text ih =>
      rw [List.foldl_cons, stringPutc]
      by_cases room : s < last
      · have below : s.toNat < last.toNat := room
        have upper := last.isLt
        have next : (s + 1#64).toNat = s.toNat + 1 := pointer_add (by omega)
        have left : last.toNat - s.toNat = last.toNat - (s.toNat + 1) + 1 := by omega
        have onward := @ih (s + 1#64) (by omega) (storeByte memory s (byteOf c))
        rw [if_pos room, onward, next, left, List.take_succ_cons, storeText,
          List.length_cons, Nat.add_min_add_right, BitVec.ofNat_add, BitVec.add_assoc,
          BitVec.add_comm 1#64]
      · have full : last.toNat - s.toNat = 0 := by
          have above : last.toNat ≤ s.toNat := Nat.le_of_not_lt room
          omega
        have same : s.toNat = last.toNat := by omega
        rw [if_neg room, ih ordered, full]
        simp

end Texts

/-! ## What is printed -/

def Textual (c : Char) : Prop := c ≠ nul ∧ c.toNat < 256

def CString (chars : List Char) : Prop := ∀ c ∈ chars, Textual c

instance (c : Char) : Decidable (Textual c) := inferInstanceAs (Decidable (_ ∧ _))

instance (chars : List Char) : Decidable (CString chars) := List.decidableBAll Textual chars

def TextArgs (args : List VaArg) : Prop := ∀ chars, VaArg.string chars ∈ args → CString chars

section Printed

variable {args : List VaArg} {format : List Char}

theorem Textual.byte {c : Char} (textual : Textual c) : byteOf c ≠ 0 := by
  intro zero
  have value := congrArg UInt8.toNat zero
  rw [byteOf, UInt8.toNat_ofNat_of_lt' textual.2] at value
  apply textual.1
  rw [nul, ← Char.ofNat_toNat c, value]
  rfl

theorem textual_ofNat {n : Nat} (some_value : n ≠ 0) (small : n < 256) :
    Textual (Char.ofNat n) := by
  have value : (Char.ofNat n).toNat = n := by
    rw [Char.ofNat, dif_pos (Or.inl (by omega))]
    rfl
  refine ⟨?_, by rwa [value]⟩
  intro zero
  rw [zero] at value
  exact some_value value.symm

theorem CString.append {front back : List Char} (left : CString front) (right : CString back) :
    CString (front ++ back) := by
  intro c member
  rcases List.mem_append.mp member with inFront | inBack
  · exact left c inFront
  · exact right c inBack

theorem cString_replicate (n : Nat) {c : Char} (textual : Textual c) :
    CString (List.replicate n c) := by
  intro other member
  rwa [List.eq_of_mem_replicate member]

theorem CString.take {chars : List Char} (text : CString chars) (n : Nat) :
    CString (chars.take n) :=
  fun c member => text c (List.mem_of_mem_take member)

theorem TextArgs.tail (text : TextArgs args) : TextArgs args.tail :=
  fun chars member => text chars (List.mem_of_mem_tail member)

theorem vaString_text (text : TextArgs args) : CString (vaString args).1 := by
  cases args with
  | nil => exact fun _ member => absurd member List.not_mem_nil
  | cons arg rest =>
      cases arg with
      | word value => exact fun _ member => absurd member List.not_mem_nil
      | string chars => exact text chars List.mem_cons_self

theorem fillNumbuf_text (val : Nat) (base : Int) : CString (fillNumbuf val base) := by
  intro c member
  have letters : c ∈ '0' :: (if base < 0 then lowerDigits else upperDigits) := by
    rcases mem_fillDigits member with digit | nothing
    · exact digit
    · exact absurd nothing List.not_mem_nil
  have digits : CString (lowerDigits ++ upperDigits) := by decide
  refine digits c ?_
  split at letters
  · rcases List.mem_cons.mp letters with rfl | digit
    · decide
    · exact List.mem_append_left _ digit
  · rcases List.mem_cons.mp letters with rfl | digit
    · decide
    · exact List.mem_append_right _ digit

theorem Conversion.sign_text (conversion : Conversion) : CString conversion.sign := by
  have letters : CString ['-', '+', ' ', '0', 'x', 'X'] := by decide
  intro c member
  refine letters c ?_
  unfold Conversion.sign at member
  simp only at member
  split_ifs at member <;> simp_all <;> tauto

theorem Conversion.emitInt_text {conversion : Conversion} (data : CString conversion.data)
    (width precision : Int) : CString (conversion.emitInt width precision) := by
  have blank : Textual ' ' := ⟨by decide, by decide⟩
  have zero : Textual '0' := ⟨by decide, by decide⟩
  have nothing : CString [] := fun _ member => absurd member List.not_mem_nil
  have digits := fillNumbuf_text conversion.num conversion.base
  have whole : CString (if conversion.flags.numeric then
      fillNumbuf conversion.num conversion.base else conversion.data) := by
    split
    · exact digits
    · exact data
  unfold Conversion.emitInt
  simp only
  refine ((((CString.append ?_ conversion.sign_text).append
    (cString_replicate _ zero)).append (whole.take _)).append ?_)
  · split
    · exact nothing
    · exact cString_replicate _ blank
  · split
    · exact cString_replicate _ blank
    · exact nothing

/-- What a directive prints and leaves is text when its format and arguments are. -/
def TextResult (result : Option Conversion × List Char × List VaArg) : Prop :=
  (∀ conversion, result.1 = some conversion → CString conversion.data) ∧
    CString result.2.1 ∧ TextArgs result.2.2

theorem textResult_ite {condition : Prop} [Decidable condition]
    {yes no : Option Conversion × List Char × List VaArg} (left : TextResult yes)
    (right : TextResult no) : TextResult (if condition then yes else no) := by
  split
  · exact left
  · exact right

theorem convert_text (flags : Flags) (length : Bool) (text : CString format)
    (args_text : TextArgs args) : TextResult (convert flags length format args) := by
  have nothing : CString [] := fun _ member => absurd member List.not_mem_nil
  induction format generalizing length with
  | nil =>
      refine ⟨?_, nothing, args_text⟩
      rintro _ ⟨⟩
      exact cString_replicate 1 ⟨by decide, by decide⟩
  | cons c rest ih =>
      have left : CString rest := fun c member => text c (List.mem_cons_of_mem _ member)
      have field (conversion : Conversion) (after : List VaArg) (one : after = args.tail)
          (data : CString conversion.data) :
          TextResult (some conversion, rest, after) := by
        rw [one]
        refine ⟨?_, left, args_text.tail⟩
        rintro _ ⟨⟩
        exact data
      have number := vaUnsigned_left length args
      unfold convert
      apply textResult_ite (ih true left)
      apply textResult_ite (field _ _ (vaSigned_left length args) nothing)
      apply textResult_ite (field _ _ number nothing)
      apply textResult_ite (field _ _ number nothing)
      apply textResult_ite (field _ _ number nothing)
      apply textResult_ite (field _ _ (vaUnsigned_left true args) nothing)
      apply textResult_ite (field _ _ (vaString_left args) (vaString_text args_text))
      apply textResult_ite
      · have colored : ∀ conversion, (none : Option Conversion) = some conversion →
            CString conversion.data := by
          intro conversion none_some
          cases none_some
        refine ⟨colored, left, ?_⟩
        rw [vaInt_left]
        exact args_text.tail
      apply textResult_ite
      · refine field _ _ (vaWord_left args) ?_
        simp only
        split
        · exact nothing
        · next some_byte =>
            have small : ((vaInt args).1 % 256).toNat < 256 := by omega
            exact cString_replicate 1 (textual_ofNat some_byte small)
      · refine ⟨?_, left, args_text⟩
        rintro _ ⟨⟩
        exact cString_replicate 1 (text c List.mem_cons_self)

theorem Width.take_text (width : Width) (args_text : TextArgs args) :
    TextArgs (width.take args).2 := by
  cases width with
  | absent => exact args_text
  | literal digits => exact args_text
  | star =>
      rw [show (Width.star.take args).2 = args.tail from vaWord_left args]
      exact args_text.tail

theorem Precision.take_text (precision : Precision) (args_text : TextArgs args) :
    TextArgs (precision.take args).2 := by
  cases precision with
  | absent => exact args_text
  | dot => exact args_text
  | literal digits => exact args_text
  | star =>
      rw [show (Precision.star.take args).2 = args.tail from vaWord_left args]
      exact args_text.tail

theorem converted_text (text : CString format) (args_text : TextArgs args) :
    TextResult (converted format args) := by
  have whole := parseDirective_text format
  rw [converted_eq]
  generalize parseDirective format = cut at whole ⊢
  have tail : CString (cut.1.conversion.toList ++ cut.2) := by
    intro c member
    apply text
    rw [← whole]
    simp only [Directive.text, List.mem_append] at member ⊢
    tauto
  exact convert_text (cut.1.flags.foldl Flags.add noFlags) (!cut.1.lengths.isEmpty) tail
    (cut.1.precision.take_text (cut.1.width.take_text args_text))

theorem directiveInt_text (text : CString format) (args_text : TextArgs args) :
    CString (directiveInt format args).1 ∧ CString (directiveInt format args).2.1 ∧
      TextArgs (directiveInt format args).2.2 := by
  obtain ⟨width, precision, printed⟩ := directiveInt_converted format args
  obtain ⟨data, left, args_left⟩ := converted_text text args_text
  rw [printed]
  refine ⟨?_, left, args_left⟩
  cases found : (converted format args).1 with
  | none => exact fun _ member => absurd member List.not_mem_nil
  | some conversion => exact Conversion.emitInt_text (data conversion found) width precision

theorem printFromInt_text (text : CString format) (args_text : TextArgs args) :
    CString (printFromInt format args) := by
  unfold printFromInt
  generalize format.length = fuel
  induction fuel generalizing format args with
  | zero => exact fun _ member => absurd member List.not_mem_nil
  | succ fuel ih =>
      cases format with
      | nil => exact fun _ member => absurd member List.not_mem_nil
      | cons c rest =>
          have left : CString rest := fun c member => text c (List.mem_cons_of_mem _ member)
          obtain ⟨printed, remaining, args_left⟩ := directiveInt_text left args_text
          rw [printerLoopInt]
          split
          · intro other member
            rcases List.mem_cons.mp member with rfl | later
            · exact text other List.mem_cons_self
            · exact ih left args_text other later
          · exact printed.append (ih remaining args_left)

end Printed

/-! ## The buffer -/

section Buffer

variable {memory : Memory} {s : UIntPtr} {size : BitVec 64}

def kept (size : BitVec 64) (emitted : List Char) : Nat :=
  min emitted.length (size.toNat - 1)

theorem vsnprintf_eq (room : s.toNat + size.toNat ≤ 2 ^ 64) (some_size : size ≠ 0#64)
    (memory : Memory) (emitted : List Char) :
    vsnprintf memory s size emitted =
      (storeByte (storeText memory s (emitted.take (kept size emitted)))
          (s + BitVec.ofNat 64 (kept size emitted)) 0,
        (BitVec.ofNat 32 (kept size emitted)).toInt) := by
  have positive : 0 < size.toNat := Nat.pos_of_ne_zero fun zero =>
    some_size (BitVec.eq_of_toNat_eq zero)
  have last : (s + size - 1#64).toNat = s.toNat + (size.toNat - 1) := by
    rw [BitVec.toNat_sub, BitVec.toNat_add, BitVec.toNat_ofNat]
    omega
  have capacity : (s + size - 1#64).toNat - s.toNat = size.toNat - 1 := by omega
  have taken : emitted.take (size.toNat - 1) = emitted.take (kept size emitted) := by
    rw [kept, Nat.min_comm, ← List.take_eq_take_min]
  have count : ((s + BitVec.ofNat 64 (kept size emitted) - s).setWidth 32) =
      BitVec.ofNat 32 (kept size emitted) := by
    rw [BitVec.add_comm s, BitVec.add_sub_cancel]
    exact BitVec.setWidth_ofNat_of_le (by decide) _
  have ordered : s.toNat ≤ (s + size - 1#64).toNat := by omega
  have filled := foldl_stringPutc ordered memory emitted
  rw [capacity, taken, ← kept] at filled
  simp only [vsnprintf, if_pos some_size, filled, count]

/-- The characters that fit and a NUL, and nothing outside the buffer. -/
structure Truncated (memory : Memory) (s : UIntPtr) (size : BitVec 64)
    (emitted : List Char) (after : Memory) : Prop where
  stored : ∀ i (inside : i < emitted.length), i < size.toNat - 1 →
    after (s.toNat + i) = byteOf emitted[i]
  terminator : after (s.toNat + kept size emitted) = 0
  outside : ∀ x, x < s.toNat ∨ s.toNat + size.toNat ≤ x → after x = memory x

theorem vsnprintf_truncated (room : s.toNat + size.toNat ≤ 2 ^ 64) (some_size : size ≠ 0#64)
    (memory : Memory) (emitted : List Char) :
    Truncated memory s size emitted (vsnprintf memory s size emitted).1 := by
  have positive : 0 < size.toNat := Nat.pos_of_ne_zero fun zero =>
    some_size (BitVec.eq_of_toNat_eq zero)
  have short : kept size emitted ≤ size.toNat - 1 := Nat.min_le_right _ _
  have length : (emitted.take (kept size emitted)).length = kept size emitted :=
    List.length_take_of_le (Nat.min_le_left _ _)
  have text_room : s.toNat + (emitted.take (kept size emitted)).length < 2 ^ 64 := by omega
  have last : (s + BitVec.ofNat 64 (kept size emitted)).toNat =
      s.toNat + kept size emitted := pointer_add (by omega)
  rw [vsnprintf_eq room some_size]
  dsimp only
  constructor
  case stored =>
    intro i inside fits
    have before : i < kept size emitted := lt_min inside fits
    rw [storeByte_apart (by omega), storeText_inside text_room (by omega),
      List.getElem_take]
  case terminator =>
    rw [← last]
    exact Function.update_self _ _ _
  case outside =>
    intro x outside
    rw [storeByte_apart (by omega), storeText_outside text_room (by omega)]

end Buffer

/-! ## panic -/

section Panic

variable {memory : Memory} {buf : UIntPtr} {text : List Char}

theorem StringAt.newline {p : Nat} (stands : StringAt memory buf text)
    (inside : p ≤ text.length) (room : buf.toNat + p + 1 < 2 ^ 64) :
    StringAt (strcpy memory (buf + BitVec.ofNat 64 p) ['\n']) buf
      (text.take p ++ ['\n']) := by
  have here : (buf + BitVec.ofNat 64 p).toNat = buf.toNat + p := pointer_add (by omega)
  have next : (buf + BitVec.ofNat 64 p + 1#64).toNat = buf.toNat + p + 1 := by
    rw [← here]
    exact pointer_add (by omega)
  have length : (text.take p).length = p := List.length_take_of_le inside
  simp only [strcpy]
  constructor
  case bytes =>
    intro i before
    rw [List.length_append, List.length_singleton, length] at before
    rw [storeByte_apart (by omega)]
    by_cases last : i = p
    · subst last
      rw [← here, List.getElem_append_right (by omega)]
      simp only [length, Nat.sub_self, List.getElem_singleton]
      exact Function.update_self _ _ _
    · rw [storeByte_apart (by omega), List.getElem_append_left (by omega),
        List.getElem_take]
      exact stands.bytes i (by omega)
  case nonzero =>
    intro c member
    rcases List.mem_append.mp member with old | new
    · exact stands.nonzero c (List.mem_of_mem_take old)
    · rw [List.mem_singleton.mp new]
      decide
  case terminator =>
    rw [List.length_append, List.length_singleton, length, ← Nat.add_assoc, ← next]
    exact Function.update_self _ _ _

theorem strcpy_newline_outside {p x : Nat} (room : buf.toNat + p + 1 < 2 ^ 64)
    (outside : x < buf.toNat + p ∨ buf.toNat + p + 1 < x) :
    strcpy memory (buf + BitVec.ofNat 64 p) ['\n'] x = memory x := by
  have here : (buf + BitVec.ofNat 64 p).toNat = buf.toNat + p := pointer_add (by omega)
  have next : (buf + BitVec.ofNat 64 p + 1#64).toNat = buf.toNat + p + 1 := by
    rw [← here]
    exact pointer_add (by omega)
  simp only [strcpy]
  rw [storeByte_apart (by omega), storeByte_apart (by omega)]

theorem panic_string (room : buf.toNat + 160 ≤ 2 ^ 64) {emitted : List Char}
    (textual : CString emitted) (memory : Memory) :
    StringAt (vsnprintf (storeText memory buf messageStart) (buf + 7#64) 153#64 emitted).1 buf
      (messageStart ++ emitted.take 152) ∧
    ∀ x, x < buf.toNat ∨ buf.toNat + 160 ≤ x →
      (vsnprintf (storeText memory buf messageStart) (buf + 7#64) 153#64 emitted).1 x =
        memory x := by
  have start : (buf + 7#64).toNat = buf.toNat + 7 := pointer_add (by omega)
  have seven : messageStart.length = 7 := rfl
  have size : (153#64).toNat = 153 := rfl
  have length : (emitted.take 152).length = kept 153#64 emitted := by
    rw [List.length_take, kept, size, Nat.min_comm]
  obtain ⟨stored, terminator, outside⟩ := @vsnprintf_truncated (buf + 7#64) 153#64
    (by omega) (by decide) (storeText memory buf messageStart) emitted
  rw [start, size] at stored outside
  rw [start] at terminator
  refine ⟨⟨?_, ?_, ?_⟩, ?_⟩
  · intro i inside
    rw [List.length_append] at inside
    by_cases before : i < 7
    · rw [outside _ (Or.inl (by omega)), storeText_inside (by omega) (by omega),
        List.getElem_append_left (by omega)]
    · have fits : i - 7 < emitted.length := by
        rw [List.length_take] at inside
        omega
      have byte := stored (i - 7) fits (by rw [List.length_take] at inside; omega)
      rw [show buf.toNat + 7 + (i - 7) = buf.toNat + i by omega] at byte
      rw [byte, List.getElem_append_right (by omega), List.getElem_take]
      simp only [seven]
  · intro c member
    have letters : CString messageStart := by decide
    rcases List.mem_append.mp member with inPrefix | inText
    · exact (letters c inPrefix).byte
    · exact (textual c (List.mem_of_mem_take inText)).byte
  · rw [List.length_append, length, ← Nat.add_assoc]
    exact terminator
  · intro x far
    rw [outside x (by omega), storeText_outside (by omega) (by omega)]

/-- What `panic` should leave: its message in the buffer, ended by a newline. -/
structure PanicMessage (memory : Memory) (buf : UIntPtr) (after : Memory) : Prop where
  message : ∃ body, StringAt after buf (messageStart ++ body ++ ['\n']) ∧
    (messageStart ++ body ++ ['\n']).length < 160
  outside : ∀ x, x < buf.toNat ∨ buf.toNat + 160 ≤ x → after x = memory x

theorem byteOf_newline {c : Char} (textual : Textual c) (same : byteOf c = byteOf '\n') :
    c = '\n' := by
  have value := congrArg UInt8.toNat same
  rw [byteOf, UInt8.toNat_ofNat_of_lt' textual.2] at value
  rw [← Char.ofNat_toNat c, value]
  rfl

theorem int_of_small {k : Nat} (small : k < 2 ^ 31) : (BitVec.ofNat 32 k).toInt = k := by
  rw [BitVec.toInt_eq_toNat_of_lt, BitVec.toNat_ofNat, Nat.mod_eq_of_lt (by omega)]
  rw [BitVec.toNat_ofNat]
  omega

/-- A message that ends with a newline is the prefix, a body and that newline. -/
theorem message_ends {emitted : List Char} (last : (messageStart ++ emitted).getLast? = some '\n') :
    ∃ body, messageStart ++ emitted = messageStart ++ body ++ ['\n'] := by
  rcases List.eq_nil_or_concat emitted with rfl | ⟨body, c, rfl⟩
  · cases last
  · rw [List.concat_eq_append, ← List.append_assoc, List.getLast?_concat] at last
    cases last
    exact ⟨body, by simp⟩

theorem message_text {emitted : List Char} (textual : CString emitted) :
    CString (messageStart ++ emitted.take 152) := by
  have letters : CString messageStart := by decide
  exact letters.append (textual.take 152)

/-- A string that ends with the byte of a newline ends with a newline. -/
theorem StringAt.ends_newline {after : Memory} (stands : StringAt after buf text)
    (textual : CString text) {last : Nat} (length : text.length = last + 1)
    (newline : after (buf.toNat + last) = byteOf '\n') : text.getLast? = some '\n' := by
  have inside : last < text.length := by omega
  have byte := stands.bytes last inside
  rw [newline] at byte
  have letter := byteOf_newline (textual _ (List.getElem_mem inside)) byte.symm
  rw [List.getLast?_eq_getElem?, length, ← letter]
  exact List.getElem?_eq_getElem inside

/-- Where the missing newline is stored: behind the message, or over its last character when
the buffer is full. -/
theorem newline_place {k : Nat} (short : k ≤ 152) :
    ∃ p, 7 ≤ p ∧ p ≤ k + 7 ∧ p ≤ 158 ∧
      BitVec.ofInt 64 ((k : Int) + 7 - if (k : Int) + 7 = 159 then 1 else 0) =
        BitVec.ofNat 64 p := by
  by_cases full : (k : Int) + 7 = 159
  · refine ⟨158, by omega, by omega, le_refl _, ?_⟩
    rw [if_pos full, full]
    rfl
  · refine ⟨k + 7, by omega, le_refl _, by omega, ?_⟩
    rw [if_neg full, show (k : Int) + 7 - 0 = (k + 7 : Nat) by omega, BitVec.ofInt_natCast]

theorem panicBuffer_message (room : buf.toNat + 160 ≤ 2 ^ 64) (memory : Memory)
    {format : List Char} {args : List VaArg} (text : CString format)
    (args_text : TextArgs args) :
    PanicMessage memory buf (panicBuffer memory buf format args) := by
  have textual := printFromInt_text text args_text
  generalize emission : printFromInt format args = emitted at textual
  obtain ⟨stands, frame⟩ := panic_string room textual memory
  have start : (buf + 7#64).toNat = buf.toNat + 7 := pointer_add (by omega)
  have start_room : (buf + 7#64).toNat + (153#64).toNat ≤ 2 ^ 64 := by
    rw [start]
    exact (by omega : buf.toNat + 7 + 153 ≤ 2 ^ 64)
  have short : kept 153#64 emitted ≤ 152 := Nat.min_le_right _ _
  have printed : (vsnprintf (storeText memory buf messageStart) (buf + 7#64) 153#64
      emitted).2 = kept 153#64 emitted := by
    rw [vsnprintf_eq start_room (by decide)]
    exact int_of_small (by omega)
  have length : (messageStart ++ emitted.take 152).length = kept 153#64 emitted + 7 := by
    rw [List.length_append, List.length_take, kept, Nat.min_comm, Nat.add_comm]
    rfl
  simp only [panicBuffer, emission]
  rw [show 160#64 - 7#64 = 153#64 from rfl]
  generalize vsnprintf (storeText memory buf messageStart) (buf + 7#64) 153#64 emitted =
    result at stands frame printed ⊢
  obtain ⟨after, count⟩ := result
  dsimp only at stands frame printed ⊢
  generalize kept 153#64 emitted = k at *
  subst printed
  have positive : 0 < (k : Int) + 7 := by omega
  have last : BitVec.ofInt 64 ((k : Int) + 7 - 1) = BitVec.ofNat 64 (k + 6) := by
    rw [show (k : Int) + 7 - 1 = (k + 6 : Nat) by omega, BitVec.ofInt_natCast]
  have lastByte : (buf + BitVec.ofNat 64 (k + 6)).toNat = buf.toNat + (k + 6) :=
    pointer_add (by omega)
  rw [last, lastByte]
  by_cases newline : after (buf.toNat + (k + 6)) = byteOf '\n'
  · rw [if_neg fun bad => bad.2 newline]
    obtain ⟨body, split⟩ :=
      message_ends (stands.ends_newline (message_text textual) length newline)
    rw [split] at stands length
    exact ⟨⟨body, stands, by omega⟩, frame⟩
  · rw [if_pos ⟨positive, newline⟩]
    obtain ⟨p, low, high, bound, place⟩ := newline_place short
    have written := stands.newline (by omega : p ≤ _) (by omega)
    have cut : (messageStart ++ emitted.take 152).take p =
        messageStart ++ (emitted.take 152).take (p - 7) := by
      rw [List.take_append, List.take_of_length_le low]
      rfl
    have cut_length : ((messageStart ++ emitted.take 152).take p).length = p :=
      List.length_take_of_le (by omega)
    rw [place]
    rw [cut] at written cut_length
    refine ⟨⟨(emitted.take 152).take (p - 7), written, ?_⟩, ?_⟩
    · rw [List.length_append, cut_length, List.length_singleton]
      omega
    · intro x far
      rw [strcpy_newline_outside (by omega) (by omega)]
      exact frame x far

end Panic

/-- The printer keeps what fits and returns its length as an `int`, and the message of `panic`
stays in its buffer, with its prefix, a newline and a NUL. -/
theorem vsnprintf_keeps (memory : Memory) {s : UIntPtr} {size : BitVec 64}
    (room : s.toNat + size.toNat ≤ 2 ^ 64) (format : List Char) (args : List VaArg) :
    (size ≠ 0#64 →
      Truncated memory s size (printFromInt format args)
        (vsnprintf memory s size (printFromInt format args)).1 ∧
      (vsnprintf memory s size (printFromInt format args)).2 =
        (BitVec.ofNat 32 (kept size (printFromInt format args))).toInt ∧
      (kept size (printFromInt format args) < 2 ^ 31 →
        (vsnprintf memory s size (printFromInt format args)).2 =
          kept size (printFromInt format args))) ∧
    (size = 0#64 → (vsnprintf memory s size (printFromInt format args)).1 = memory) ∧
    ∀ buf : UIntPtr, buf.toNat + 160 ≤ 2 ^ 64 → CString format → TextArgs args →
      PanicMessage memory buf (panicBuffer memory buf format args) := by
  refine ⟨?_, ?_, ?_⟩
  · intro some_size
    have whole := vsnprintf_eq room some_size memory (printFromInt format args)
    refine ⟨vsnprintf_truncated room some_size memory _, ?_, ?_⟩
    · rw [whole]
    · intro small
      rw [whole]
      exact int_of_small small
  · rintro rfl
    rfl
  · intro buf buffer text args_text
    exact panicBuffer_message buffer memory text args_text

/-- Six characters in a buffer of four bytes, and a message of `panic`. -/
theorem vsnprintf_keeps_sample :
    (vsnprintf (fun _ => 0xAA) 0x1000#64 4#64 (printFromInt "%d!".toList [.word 12345])).2 = 3 ∧
    (vsnprintf (fun _ => 0xAA) 0x1000#64 4#64 (printFromInt "%d!".toList [.word 12345])).1
      0x1003 = 0 ∧
    PanicMessage (fun _ => 0xAA) 0x2000#64
      (panicBuffer (fun _ => 0xAA) 0x2000#64 "%d!".toList [.word 12345]) := by
  obtain ⟨stored, _, message⟩ := @vsnprintf_keeps (fun _ => 0xAA) 0x1000#64 4#64 (by decide)
    "%d!".toList [.word 12345]
  obtain ⟨truncated, _, result⟩ := stored (by decide)
  have three : kept 4#64 (printFromInt "%d!".toList [.word 12345]) = 3 := by decide
  have terminator := truncated.terminator
  rw [three] at result terminator
  refine ⟨result (by decide), terminator, message _ (by decide) ?_ ?_⟩
  · decide
  · intro chars member
    simp at member

/-- Two strings of 2^30 characters fit into 2^31 + 1 bytes, but their length is no `int`. -/
theorem vsnprintf_overflows :
    ¬ ∀ (memory : Memory) (s : UIntPtr) (size : BitVec 64) (format : List Char)
      (args : List VaArg), s.toNat + size.toNat ≤ 2 ^ 64 → size ≠ 0#64 →
      (vsnprintf memory s size (printFromInt format args)).2 =
        min (printFromInt format args).length (size.toNat - 1) := by
  intro all
  obtain ⟨half, long⟩ : ∃ half : List Char, half.length = 2 ^ 30 :=
    ⟨List.replicate (2 ^ 30) 'a', List.length_replicate⟩
  have printed : printFromInt ['%', 's', '%', 's'] [.string half, .string half] =
      half ++ half := by
    have moderate : Moderate 4 ['%', 's', '%', 's'] [.string half, .string half] :=
      ⟨moderate_s _ _ (le_of_eq long), moderate_s _ _ (le_of_eq long), trivial⟩
    rw [printFromInt_eq ['%', 's', '%', 's'] _ moderate, printFrom_directive, directive_s,
      printFrom_directive, directive_s, printFrom_nil, List.append_nil]
  have room : (0#64).toNat + (BitVec.ofNat 64 (2 ^ 31 + 1)).toNat ≤ 2 ^ 64 := by decide
  have some_size : BitVec.ofNat 64 (2 ^ 31 + 1) ≠ 0#64 := by decide
  have answer := all (fun _ => 0) 0#64 (BitVec.ofNat 64 (2 ^ 31 + 1)) ['%', 's', '%', 's']
    [.string half, .string half] room some_size
  have size : (BitVec.ofNat 64 (2 ^ 31 + 1)).toNat - 1 = 2 ^ 31 := by decide
  have length : (half ++ half).length = 2 ^ 31 := by
    rw [List.length_append, long]
    norm_num
  rw [printed, vsnprintf_eq room some_size, kept, length, size, Nat.min_self] at answer
  have negative : (BitVec.ofNat 32 (2 ^ 31)).toInt ≠ (2 ^ 31 : Nat) := by decide
  exact negative answer

end OsLabs.Weensy
