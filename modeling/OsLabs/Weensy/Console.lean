import OsLabs.Weensy.FormatScan

/-!
# The console printer of lib.c

`console_putc` wraps the cursor before it prints, and a newline fills its row with blanks.
A store outside the console is a fault.
-/

set_option autoImplicit false

namespace OsLabs.Weensy

open OsLabs.ExceptRules

/-! ## The printer -/

/-- `CONSOLE_ROWS * CONSOLE_COLUMNS`. -/
def consoleSize : Nat := 25 * 80

abbrev Cells := Nat → BitVec 16

/-- The cells and the index that `cp->cursor` has in them. -/
structure Screen where
  cells : Cells
  cursor : Nat

inductive ConsoleFault where
  /-- A cell that the console does not have is written. -/
  | outOfBounds
  /-- The format cannot be read. -/
  | badFormat (fault : ScanFault)
  /-- A loop was given up. -/
  | running
  deriving DecidableEq, Repr

/-- `*cp->cursor++ = c | color`. -/
def putCell (c : Char) (color : Int) (screen : Screen) : Except ConsoleFault Screen :=
  if screen.cursor < consoleSize then
    let cell := (BitVec.ofNat 8 c.toNat).setWidth 32 ||| BitVec.ofInt 32 color
    .ok ⟨Function.update screen.cells screen.cursor (cell.setWidth 16), screen.cursor + 1⟩
  else .error .outOfBounds

def fillRow (color : Int) : Nat → Nat → Screen → Except ConsoleFault Screen
  | 0, _, _ => .error .running
  | fuel + 1, pos, screen =>
      if pos = 80 then .ok screen
      else do
        let screen ← putCell ' ' color screen
        fillRow color fuel (pos + 1) screen

def Screen.wrap (screen : Screen) : Screen :=
  if consoleSize ≤ screen.cursor then { screen with cursor := 0 } else screen

def consolePutc (screen : Screen) (call : Char × Int) : Except ConsoleFault Screen :=
  let screen := screen.wrap
  if call.1 = '\n' then fillRow call.2 81 (screen.cursor % 80) screen
  else putCell call.1 call.2 screen

def putCalls (screen : Screen) : Calls → Except ConsoleFault Screen
  | [] => .ok screen
  | call :: calls => do
      let screen ← consolePutc screen call
      putCalls screen calls

/-- Where `console_vprintf` starts. -/
def startCursor (cpos : Int) : Nat :=
  if cpos < 0 ∨ (consoleSize : Int) ≤ cpos then 0 else cpos.toNat

/-- `console_vprintf` for the calls that `printer_vprintf` makes. -/
def consoleVprintf (cells : Cells) (cpos : Int) (calls : Calls) :
    Except ConsoleFault (Cells × Int) := do
  let screen ← putCalls ⟨cells, startCursor cpos⟩ calls
  .ok (screen.cells, screen.cursor)

def consolePrintf (cells : Cells) (cpos color : Int) (format : List Char)
    (args : List VaArg) : Except ConsoleFault (Cells × Int) :=
  match scanPrintf color format args with
  | .ok (calls, _) => consoleVprintf cells cpos calls
  | .error fault => .error (.badFormat fault)

/-! ## On the screen -/

section Screens

variable {screen : Screen} {color : Int} {c : Char} {call : Char × Int} {calls s t : Calls}

theorem putCell_ok (inside : screen.cursor < consoleSize) :
    ∃ next, putCell c color screen = .ok next ∧ next.cursor = screen.cursor + 1 := by
  unfold putCell
  rw [if_pos inside]
  exact ⟨_, rfl, rfl⟩

theorem fillRow_ok {fuel pos : Nat} (row : pos ≤ 80) (enough : 80 - pos < fuel)
    (inside : screen.cursor + (80 - pos) ≤ consoleSize) :
    ∃ next, fillRow color fuel pos screen = .ok next ∧
      next.cursor = screen.cursor + (80 - pos) := by
  induction fuel generalizing pos screen with
  | zero => exact absurd enough (Nat.not_lt_zero _)
  | succ fuel ih =>
      by_cases full : pos = 80
      · refine ⟨screen, ?_, ?_⟩
        · rw [fillRow, if_pos full]
        · omega
      · obtain ⟨blank, stored, moved⟩ :=
          @putCell_ok screen color ' ' (by omega : screen.cursor < consoleSize)
        have left : blank.cursor + (80 - (pos + 1)) ≤ consoleSize := by omega
        obtain ⟨next, filled, last⟩ := ih (by omega) (by omega) left
        refine ⟨next, ?_, ?_⟩
        · rw [fillRow, if_neg full, stored, ok_bind, filled]
        · omega

theorem consolePutc_ok (screen : Screen) (call : Char × Int) :
    ∃ next, consolePutc screen call = .ok next ∧ next.cursor ≤ consoleSize := by
  have inside : screen.wrap.cursor < consoleSize := by
    unfold Screen.wrap
    split
    · exact Nat.succ_pos _
    · next before => exact Nat.lt_of_not_le before
  unfold consolePutc
  by_cases newline : call.1 = '\n'
  · have row : screen.wrap.cursor % 80 < 80 := Nat.mod_lt _ (by decide)
    have whole : screen.wrap.cursor + (80 - screen.wrap.cursor % 80) ≤ consoleSize := by
      unfold consoleSize at inside ⊢
      omega
    obtain ⟨next, filled, last⟩ :=
      @fillRow_ok screen.wrap call.2 81 _ row.le (by omega) whole
    refine ⟨next, ?_, ?_⟩
    · rw [if_pos newline, filled]
    · omega
  · obtain ⟨next, stored, moved⟩ := @putCell_ok screen.wrap call.2 call.1 inside
    refine ⟨next, ?_, ?_⟩
    · rw [if_neg newline, stored]
    · omega

theorem putCalls_ok (screen : Screen) (inside : screen.cursor ≤ consoleSize)
    (calls : Calls) :
    ∃ next, putCalls screen calls = .ok next ∧ next.cursor ≤ consoleSize := by
  induction calls generalizing screen with
  | nil => exact ⟨screen, rfl, inside⟩
  | cons call calls ih =>
      obtain ⟨after, printed, bound⟩ := consolePutc_ok screen call
      obtain ⟨next, rest, last⟩ := ih after bound
      refine ⟨next, ?_, last⟩
      rw [putCalls, printed, ok_bind, rest]

theorem putCalls_append (screen : Screen) (s t : Calls) :
    putCalls screen (s ++ t) = putCalls screen s >>= fun next => putCalls next t := by
  induction s generalizing screen with
  | nil => rfl
  | cons call s ih =>
      rw [List.cons_append, putCalls, putCalls, bind_assoc]
      exact bind_congr ih

theorem putCalls_wrap (screen : Screen) (call : Char × Int) (calls : Calls) :
    putCalls screen.wrap (call :: calls) = putCalls screen (call :: calls) := by
  have twice : screen.wrap.wrap = screen.wrap := by
    unfold Screen.wrap
    split <;> rfl
  rw [putCalls, putCalls, consolePutc, consolePutc, twice]

theorem startCursor_inside (cpos : Int) : startCursor cpos ≤ consoleSize := by
  unfold startCursor
  split
  · exact Nat.zero_le _
  · omega

/-- A returned cursor starts the next call where the screen wraps to. -/
theorem startCursor_wrap (inside : screen.cursor ≤ consoleSize) :
    (⟨screen.cells, startCursor screen.cursor⟩ : Screen) = screen.wrap := by
  unfold startCursor Screen.wrap
  by_cases behind : consoleSize ≤ screen.cursor
  · have far : (screen.cursor : Int) < 0 ∨ (consoleSize : Int) ≤ screen.cursor := by omega
    rw [if_pos far, if_pos behind]
  · have near : ¬ ((screen.cursor : Int) < 0 ∨ (consoleSize : Int) ≤ screen.cursor) := by
      omega
    rw [if_neg near, if_neg behind, Int.toNat_natCast]

theorem scanPrintf_string (color : Int) (s : List Char) :
    scanPrintf color "%s".toList [.string s] =
      .ok (s.map (·, color), ⟨[], [.charPointer]⟩) := by
  have plain := Conversion.emit_plain (⟨noFlags, 10, 0, s⟩ : Conversion) rfl
  have field : scanPrintf color "%s".toList [.string s] =
      .ok (((⟨noFlags, 10, 0, s⟩ : Conversion).emit (-1) (-1)).map (·, color) ++ [],
        ⟨[], [.charPointer]⟩) := rfl
  rw [field, plain, List.append_nil]
  rfl

end Screens

theorem consolePrintf_string (cells : Cells) (cpos color : Int) (s : List Char) :
    consolePrintf cells cpos color "%s".toList [.string s] =
      consoleVprintf cells cpos (s.map (·, color)) := by
  rw [consolePrintf, scanPrintf_string]

/-- Two calls print what one call prints, and the screen is never left. -/
theorem console_composes (cells : Cells) (cpos : Int) (s t : Calls) :
    ∃ (first last : Cells) (middle one two : Int),
      consoleVprintf cells cpos s = .ok (first, middle) ∧
      consoleVprintf first middle t = .ok (last, two) ∧
      consoleVprintf cells cpos (s ++ t) = .ok (last, one) ∧
      one ≡ two [ZMOD consoleSize] ∧
      ∀ cursor ∈ [middle, one, two], 0 ≤ cursor ∧ cursor ≤ consoleSize := by
  obtain ⟨after, printed, inside⟩ :=
    putCalls_ok ⟨cells, startCursor cpos⟩ (startCursor_inside cpos) s
  have whole := putCalls_append ⟨cells, startCursor cpos⟩ s t
  rw [printed, ok_bind] at whole
  have again := startCursor_wrap inside
  cases t with
  | nil =>
      refine ⟨after.cells, after.cells, after.cursor, after.cursor, after.wrap.cursor,
        ?_, ?_, ?_, ?_, ?_⟩
      · rw [consoleVprintf, printed, ok_bind]
      · rw [consoleVprintf, again, putCalls, ok_bind]
        unfold Screen.wrap
        split <;> rfl
      · rw [List.append_nil, consoleVprintf, printed, ok_bind]
      · unfold Screen.wrap
        split
        · next behind =>
            have full : after.cursor = consoleSize := Nat.le_antisymm inside behind
            rw [full]
            exact Int.emod_self
        · rfl
      · have wrapped : after.wrap.cursor ≤ consoleSize := by
          rw [← again]
          exact startCursor_inside _
        simp only [List.mem_cons, List.not_mem_nil, or_false]
        rintro cursor (rfl | rfl | rfl) <;> omega
  | cons call t =>
      obtain ⟨next, onward, bound⟩ := putCalls_ok after inside (call :: t)
      refine ⟨after.cells, next.cells, after.cursor, next.cursor, next.cursor,
        ?_, ?_, ?_, rfl, ?_⟩
      · rw [consoleVprintf, printed, ok_bind]
      · rw [consoleVprintf, again, putCalls_wrap, onward, ok_bind]
      · rw [consoleVprintf, whole, onward, ok_bind]
      · simp only [List.mem_cons, List.not_mem_nil, or_false]
        rintro cursor (rfl | rfl | rfl) <;> omega

end OsLabs.Weensy
