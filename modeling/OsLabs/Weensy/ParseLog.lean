import Mathlib.Data.Int.Bitwise
import Mathlib.Data.List.AList
import OsLabs.Lib.ExceptRules
import OsLabs.Lib.Text

/-!
# The reader of parse_log.py

`memMapTimeline` is `MemMapTimeline.__init__` on the contents of the log file.  A
Python dictionary is an association list with one entry for a key.
-/

set_option autoImplicit false

namespace OsLabs.Weensy

open OsLabs.ExceptRules OsLabs.Text

inductive ParseError where
  | assertionError | valueError | indexError
  deriving DecidableEq, Repr

structure PMEntry where
  owner : Int
  refcount : Int
  deriving DecidableEq, Repr

structure VMEntry where
  owner : Int
  refcount : Int
  ua : Int
  perm : Int
  deriving DecidableEq, Repr

/-! ## int -/

/-- The characters that `int` strips, in ASCII. -/
def isSpace (c : Char) : Bool :=
  c = ' ' || '\t' ≤ c && c ≤ '\r'

def strip (text : List Char) : List Char :=
  ((text.dropWhile isSpace).reverse.dropWhile isSpace).reverse

/-- Decimal digits, which single underscores may separate. -/
def readDigits (text : List Char) : Option Nat :=
  let groups := text.splitOn '_'
  if groups.all (fun group => !group.isEmpty) then decimalValue groups.flatten else none

/-- `int(text)` for a text of ASCII characters. -/
def int (text : List Char) : Except ParseError Int :=
  let (sign, digits) : Int × List Char :=
    match strip text with
    | '-' :: digits => (-1, digits)
    | '+' :: digits => (1, digits)
    | digits => (1, digits)
  match readDigits digits with
  | some value => .ok (sign * value)
  | none => .error .valueError

/-! ## MemMapInstance -/

structure MemMapInstance where
  pmState : Option (List PMEntry)
  vmState : AList fun _ : Int => List VMEntry

/-- `MemMapInstance()`. -/
def emptyInstance : MemMapInstance := ⟨none, ∅⟩

def setPmState (memMap : MemMapInstance) (data : List PMEntry) :
    Except ParseError MemMapInstance := do
  require (memMap.pmState = none) .assertionError
  .ok { memMap with pmState := some data }

def addVmState (memMap : MemMapInstance) (processId : Int) (data : List VMEntry) :
    Except ParseError MemMapInstance := do
  require (processId ∉ memMap.vmState) .assertionError
  .ok { memMap with vmState := memMap.vmState.insert processId data }

/-! ## MemMapTimeline -/

structure MemMapTimeline where
  memData : AList fun _ : Int => MemMapInstance
  panic : Bool

/-- `self.mem_data[tick]` of a `defaultdict`. -/
def MemMapTimeline.instanceAt (timeline : MemMapTimeline) (tick : Int) : MemMapInstance :=
  (timeline.memData.lookup tick).getD emptyInstance

def MemMapTimeline.setInstance (timeline : MemMapTimeline) (tick : Int)
    (memMap : MemMapInstance) : MemMapTimeline :=
  { timeline with memData := timeline.memData.insert tick memMap }

def pmPrefix : List Char := "PM_DUMP".toList
def vmPrefix : List Char := "VM_DUMP".toList
def panicPrefix : List Char := "PANIC: Unexpected exception 52!".toList

/-- `PTE_U` of parse_log.py. -/
def parsePteU : Int := 4

/-- `line_split[i]`. -/
def wordAt (lineSplit : List (List Char)) (i : Nat) : Except ParseError (List Char) :=
  match lineSplit[i]? with
  | some word => .ok word
  | none => .error .indexError

/-- The entry of page `i` in a `PM_DUMP` line. -/
def pmEntry (lineSplit : List (List Char)) (i : Nat) : Except ParseError PMEntry :=
  match (lineSplit.drop (2 * i + 2)).take 2 with
  | [owner, refcount] => do
      let owner ← int owner
      let refcount ← int refcount
      .ok ⟨owner, refcount⟩
  | _ => .error .valueError

/-- The entry of page `i` in a `VM_DUMP` line. -/
def vmEntry (lineSplit : List (List Char)) (i : Nat) : Except ParseError VMEntry :=
  match (lineSplit.drop (3 * i + 3)).take 3 with
  | [owner, refcount, perm] => do
      let owner ← int owner
      let refcount ← int refcount
      let perm ← int perm
      .ok ⟨owner, refcount, Int.land perm parsePteU, perm⟩
  | _ => .error .valueError

def readPmDump (timeline : MemMapTimeline) (line : List Char) :
    Except ParseError MemMapTimeline := do
  let lineSplit := words ' ' line
  require ((lineSplit.length : Int) - 3 = 512 * 2) .assertionError
  let tick ← wordAt lineSplit 1
  let tick ← int tick
  let data ← (List.range 512).mapM (pmEntry lineSplit)
  let memMap ← setPmState (timeline.instanceAt tick) data
  .ok (timeline.setInstance tick memMap)

def readVmDump (timeline : MemMapTimeline) (line : List Char) :
    Except ParseError MemMapTimeline := do
  let lineSplit := words ' ' line
  require ((lineSplit.length : Int) - 4 = 768 * 3) .assertionError
  let processId ← wordAt lineSplit 1
  let processId ← int processId
  let tick ← wordAt lineSplit 2
  let tick ← int tick
  let data ← (List.range 768).mapM (vmEntry lineSplit)
  let memMap ← addVmState (timeline.instanceAt tick) processId data
  .ok (timeline.setInstance tick memMap)

def readLine (timeline : MemMapTimeline) (line : List Char) :
    Except ParseError MemMapTimeline :=
  if pmPrefix.isPrefixOf line then readPmDump timeline line
  else if vmPrefix.isPrefixOf line then readVmDump timeline line
  else if panicPrefix.isPrefixOf line then .ok { timeline with panic := true }
  else .ok timeline

/-- Text mode reads each of `\r\n` and `\r` as a newline. -/
def universalNewlines : List Char → List Char
  | [] => []
  | '\r' :: '\n' :: rest => '\n' :: universalNewlines rest
  | '\r' :: rest => '\n' :: universalNewlines rest
  | c :: rest => c :: universalNewlines rest

/-- `f.readlines()`. -/
def readlines (contents : List Char) : List (List Char) :=
  lines '\n' (universalNewlines contents)

def emptyTimeline : MemMapTimeline := ⟨∅, false⟩

def memMapTimeline (logFile : List Char) : Except ParseError MemMapTimeline :=
  (readlines logFile).foldlM readLine emptyTimeline

/-! ## What is written is read -/

theorem strip_of_no_space {text : List Char} (none_space : ∀ c ∈ text, isSpace c = false) :
    strip text = text := by
  have kept : ∀ chars : List Char, (∀ c ∈ chars, isSpace c = false) →
      chars.dropWhile isSpace = chars := by
    intro chars dark
    cases chars with
    | nil => rfl
    | cons c rest => rw [List.dropWhile_cons_of_neg (by rw [dark c List.mem_cons_self]; decide)]
  have reversed : ∀ c ∈ text.reverse, isSpace c = false :=
    fun c member => none_space c (List.mem_reverse.mp member)
  rw [strip, kept text none_space, kept text.reverse reversed, List.reverse_reverse]

theorem readDigits_toDigits (n : Nat) : readDigits (Nat.toDigits 10 n) = some n := by
  have one_group : (Nat.toDigits 10 n).splitOn '_' = [Nat.toDigits 10 n] :=
    List.splitOn_eq_singleton (not_mem_decimal rfl n)
  have nonempty : (!(Nat.toDigits 10 n).isEmpty) = true := by simp
  simp only [readDigits, one_group, List.all_cons, List.all_nil, nonempty, Bool.and_self,
    if_true, List.flatten_cons, List.flatten_nil, List.append_nil, decimalValue_toDigits]

theorem int_toDigits (n : Nat) : int (Nat.toDigits 10 n) = .ok n := by
  have dark : ∀ c ∈ Nat.toDigits 10 n, isSpace c = false := by
    intro c member
    have digit := isDigit_of_mem_decimal member
    by_contra space
    rw [Bool.not_eq_false] at space
    simp only [isSpace, Bool.or_eq_true, decide_eq_true_eq, Bool.and_eq_true] at space
    simp only [Char.isDigit, ge_iff_le, Bool.and_eq_true, decide_eq_true_eq] at digit
    rcases space with rfl | ⟨_, upper⟩
    · exact absurd digit.1 (by decide)
    · have wrong : (48 : UInt32) ≤ 13 := UInt32.le_trans digit.1 upper
      exact absurd wrong (by decide)
  have minus : '-' ∉ Nat.toDigits 10 n := not_mem_decimal rfl n
  have plus : '+' ∉ Nat.toDigits 10 n := not_mem_decimal rfl n
  have value := readDigits_toDigits n
  rw [int, strip_of_no_space dark]
  generalize Nat.toDigits 10 n = digits at minus plus value
  split
  next sign rest split_off =>
    split at split_off
    · exact absurd List.mem_cons_self minus
    · exact absurd List.mem_cons_self plus
    · cases split_off
      simp only [value, one_mul]

theorem universalNewlines_of_no_return {contents : List Char} (clean : '\r' ∉ contents) :
    universalNewlines contents = contents := by
  induction contents with
  | nil => rfl
  | cons c rest ih =>
      have different : c ≠ '\r' := fun same => clean (by rw [same]; exact List.mem_cons_self)
      have tail := ih fun member => clean (List.mem_cons_of_mem _ member)
      unfold universalNewlines
      split
      · next empty => cases empty
      · next same => exact absurd (List.cons.inj same).1 different
      · next same => exact absurd (List.cons.inj same).1 different
      · next same =>
          obtain ⟨rfl, rfl⟩ := List.cons.inj same
          rw [tail]

end OsLabs.Weensy
