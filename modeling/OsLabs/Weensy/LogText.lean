import OsLabs.Lib.Text
import OsLabs.Weensy.Kernel
import OsLabs.Weensy.Printer

/-!
# The text of log.txt

What `memdump_physical`, `memdump_virtual` and `panic` write to the log is given by
their `log_printf` calls; here is what the printf engine makes of these, as words with
a space after each.
-/

set_option autoImplicit false

namespace OsLabs.Weensy

open OsLabs.Text

/-! ## The calls of log_printf -/

/-- `log_printf`: every character goes to the parallel port. -/
def logPrintf (format : String) (args : List VaArg) : List Char :=
  printerVprintf format args

def wordArg {w : Nat} (value : BitVec w) : VaArg := .word (value.setWidth 64)

/-- The name that `memdump_virtual_all` passes on, a `char[4]`. -/
def dumpName (pid : Pid) : List Char :=
  snprintf 4 "%d " [wordArg (BitVec.ofNat 32 pid.val)]

/-- What a dump writes.  An unmapped page writes `0 0 0 `, as three zeros do. -/
def LogLine.text : LogLine → List Char
  | .pmDump ticks pages =>
      logPrintf "PM_DUMP %u " [wordArg ticks] ++
        pages.flatMap (fun page => logPrintf "%u %u " [wordArg page.1, wordArg page.2]) ++
        logPrintf "\n" []
  | .vmDump pid ticks entries =>
      logPrintf "VM_DUMP %s %u " [.string (dumpName pid), wordArg ticks] ++
        entries.flatMap (fun entry =>
          logPrintf "%u %u %u " [wordArg entry.1, wordArg entry.2.1, wordArg entry.2.2]) ++
        logPrintf "\n" []

def logText (log : List LogLine) : List Char := log.flatMap LogLine.text

/-- What `panic(format, ...)` writes.  Every format ends its line, so the cursor is in
column 0 and no newline is added. -/
def panicText (format : String) (args : List VaArg) : List Char :=
  logPrintf "PANIC: " [] ++ logPrintf format args

/-- `operation` and `problem` of a page fault. -/
def faultOperation (err : BitVec 64) : List Char :=
  if err &&& pferrWrite ≠ 0#64 then "write".toList else "read".toList

def faultProblem (err : BitVec 64) : List Char :=
  if err &&& pferrPresent ≠ 0#64 then "protection problem".toList
  else "missing page".toList

def NoLineEnd (text : List Char) : Prop := '\n' ∉ text ∧ '\r' ∉ text

/-- What is written when the machine stops; `addr` is what `rcr2()` returns.  After each
of these `poweroff` is called, by `fail` when there was a panic. -/
inductive StopText (addr : UIntPtr) (reg : Registers) : Stop → List Char → Prop
  | poweroff : StopText addr reg .poweroff []
  | assertion (which : Assertion) (file msg : List Char) (line : BitVec 64)
      (fileLine : NoLineEnd file) (msgLine : NoLineEnd msg) :
      StopText addr reg (.assertion which) (panicText "%s:%d: assertion '%s' failed\n"
        [.string file, .word line, .string msg])
  | sysPanic : StopText addr reg .sysPanic (logPrintf "PANIC" [])
  | kernelPageFault : StopText addr reg .kernelPageFaultPanic
      (panicText "Kernel page fault for %p (%s %s, rip=%p)!\n"
        [.word addr, .string (faultOperation reg.regErr), .string (faultProblem reg.regErr),
          .word reg.regRip])
  | unexpected : StopText addr reg (.unexpectedException reg.regIntno)
      (panicText "Unexpected exception %d!\n" [.word reg.regIntno])

/-! ## Words -/

def numeral (n : Nat) : List Char := Nat.toDigits 10 n

def spaced (items : List (List Char)) : List Char :=
  items.flatMap fun word => word ++ [' ']

theorem spaced_append (front back : List (List Char)) :
    spaced (front ++ back) = spaced front ++ spaced back :=
  List.flatMap_append

theorem spaced_flatMap {α : Type} (items : List α) (group : α → List (List Char)) :
    spaced (items.flatMap group) = items.flatMap fun item => spaced (group item) :=
  List.flatMap_assoc

theorem directive_wordArg {w : Nat} (narrow : w ≤ 32) (value : BitVec w)
    (rest : List Char) (args : List VaArg) :
    directive ('u' :: rest) (wordArg value :: args) = (numeral value.toNat, rest, args) := by
  have same : ((value.setWidth 64).setWidth 32).toNat = value.toNat := by
    have bound := value.isLt
    have wide : 2 ^ w ≤ 2 ^ 32 := Nat.pow_le_pow_right (by decide) narrow
    simp only [BitVec.toNat_setWidth]
    omega
  rw [wordArg, directive_u, same, numeral]

theorem logPrintf_pair {v w : Nat} (first : BitVec v) (second : BitVec w) (left : v ≤ 32)
    (right : w ≤ 32) :
    logPrintf "%u %u " [wordArg first, wordArg second] =
      spaced [numeral first.toNat, numeral second.toNat] := by
  show printFrom ['%', 'u', ' ', '%', 'u', ' '] _ = _
  simp [printFrom, printerLoop, directive_wordArg left, directive_wordArg right, spaced]

theorem logPrintf_triple {u v w : Nat} (first : BitVec u) (second : BitVec v)
    (third : BitVec w) (left : u ≤ 32) (middle : v ≤ 32) (right : w ≤ 32) :
    logPrintf "%u %u %u " [wordArg first, wordArg second, wordArg third] =
      spaced [numeral first.toNat, numeral second.toNat, numeral third.toNat] := by
  show printFrom ['%', 'u', ' ', '%', 'u', ' ', '%', 'u', ' '] _ = _
  simp [printFrom, printerLoop, directive_wordArg left, directive_wordArg middle,
    directive_wordArg right, spaced]

/-- What `memdump_virtual` prints for an unmapped page. -/
example : logPrintf "0 0 0 " [] =
    logPrintf "%u %u %u " [wordArg 0#8, wordArg 0#8, wordArg 0#32] := by decide

def pmWords (ticks : BitVec 32) (pages : List (BitVec 8 × BitVec 32)) :
    List (List Char) :=
  ["PM_DUMP".toList, numeral ticks.toNat] ++
    pages.flatMap fun page => [numeral page.1.toNat, numeral page.2.toNat]

def vmWords (ticks : BitVec 32) (entries : List (BitVec 8 × BitVec 8 × BitVec 32)) :
    List (List Char) :=
  numeral ticks.toNat :: entries.flatMap fun entry =>
    [numeral entry.1.toNat, numeral entry.2.1.toNat, numeral entry.2.2.toNat]

theorem text_pmDump (ticks : BitVec 32) (pages : List (BitVec 8 × BitVec 32)) :
    (LogLine.pmDump ticks pages).text = spaced (pmWords ticks pages) ++ ['\n'] := by
  have header : logPrintf "PM_DUMP %u " [wordArg ticks] =
      spaced ["PM_DUMP".toList, numeral ticks.toNat] := by
    show printFrom ['P', 'M', '_', 'D', 'U', 'M', 'P', ' ', '%', 'u', ' '] _ = _
    simp [printFrom, printerLoop, directive_wordArg, spaced]
  have newline : logPrintf "\n" [] = ['\n'] := by decide
  rw [LogLine.text, header, newline, pmWords, spaced_append, spaced_flatMap]
  simp only [logPrintf_pair _ _ (by decide : 8 ≤ 32) (le_refl 32)]

/-- The name ends with a space, so that the line has two of them after it. -/
theorem dumpName_eq (pid : Pid) : dumpName pid = numeral pid.val ++ [' '] := by
  fin_cases pid <;> decide

theorem text_vmDump (pid : Pid) (ticks : BitVec 32)
    (entries : List (BitVec 8 × BitVec 8 × BitVec 32)) :
    (LogLine.vmDump pid ticks entries).text =
      spaced ["VM_DUMP".toList, numeral pid.val] ++ ' ' :: spaced (vmWords ticks entries) ++
        ['\n'] := by
  have header : logPrintf "VM_DUMP %s %u " [.string (dumpName pid), wordArg ticks] =
      spaced ["VM_DUMP".toList, numeral pid.val] ++ ' ' :: spaced [numeral ticks.toNat] := by
    show printFrom
      ['V', 'M', '_', 'D', 'U', 'M', 'P', ' ', '%', 's', ' ', '%', 'u', ' '] _ = _
    simp [printFrom, printerLoop, directive_wordArg, directive_s, spaced, dumpName_eq]
  have newline : logPrintf "\n" [] = ['\n'] := by decide
  have numbers : vmWords ticks entries = [numeral ticks.toNat] ++ entries.flatMap fun entry =>
    [numeral entry.1.toNat, numeral entry.2.1.toNat, numeral entry.2.2.toNat] := rfl
  rw [LogLine.text, header, newline, numbers, spaced_append, spaced_flatMap]
  simp only [logPrintf_triple _ _ _ (by decide : 8 ≤ 32) (by decide : 8 ≤ 32) (le_refl 32),
    List.append_assoc, List.cons_append]

end OsLabs.Weensy
