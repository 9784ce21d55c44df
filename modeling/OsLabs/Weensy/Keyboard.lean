import OsLabs.Weensy.Kernel
import Mathlib.Data.List.ReduceOption

/-!
# The keyboard

`keyboard_readc` of k-hardware.c keeps the modifiers and a prefix byte between its calls.
What it returns is compared with the strokes that the bytes stand for: a modifier is held
when the last stroke of its keys was a press, and a lock is on after an odd number of
presses.
-/

set_option autoImplicit false

namespace OsLabs.Weensy

/-! ## Key codes -/

def keyShift : Nat := 0o372
def keyControl : Nat := 0o373
def keyAlt : Nat := 0o374
def keyCapslock : Nat := 0o375
def keyNumlock : Nat := 0o376
def keyScrolllock : Nat := 0o377

def keyUp : Nat := 0o300
def keyRight : Nat := 0o301
def keyDown : Nat := 0o302
def keyLeft : Nat := 0o303
def keyHome : Nat := 0o304
def keyEnd : Nat := 0o305
def keyPageup : Nat := 0o306
def keyPagedown : Nat := 0o307
def keyInsert : Nat := 0o310
def keyDelete : Nat := 0o311

def ckey (cn : Nat) : Nat := 0x80 + cn

/-- `keymap`, row by row. -/
def keymap : List Nat :=
  let c (char : Char) : Nat := char.toNat
  [0, 0o33, ckey 0, ckey 1, ckey 2, ckey 3, ckey 4, ckey 5,
    ckey 6, ckey 7, ckey 8, ckey 9, ckey 10, ckey 11, 8, 9,
    c 'q', c 'w', c 'e', c 'r', c 't', c 'y', c 'u', c 'i',
    c 'o', c 'p', ckey 12, ckey 13, ckey 14, keyControl, c 'a', c 's',
    c 'd', c 'f', c 'g', c 'h', c 'j', c 'k', c 'l', ckey 15,
    ckey 16, ckey 17, keyShift, ckey 18, c 'z', c 'x', c 'c', c 'v',
    c 'b', c 'n', c 'm', ckey 19, ckey 20, ckey 21, keyShift, c '*',
    keyAlt, c ' ', keyCapslock, 0, 0, 0, 0, 0,
    0, 0, 0, 0, 0, keyNumlock, keyScrolllock, c '7',
    c '8', c '9', c '-', c '4', c '5', c '6', c '+', c '1',
    c '2', c '3', c '0', c '.', 0, 0, 0, 0, 0, 0, 0, 0, 0, 0, 0, 0,
    0, 0, 0, 0, 0, 0, 0, 0, 0, 0, 0, 0, 0, 0, 0, 0,
    0, 0, 0, 0, 0, 0, 0, 0, 0, 0, 0, 0, 0, 0, 0, 0,
    0, 0, 0, 0, 0, 0, 0, 0, 0, 0, 0, 0, 0, 0, 0, 0,
    0, 0, 0, 0, 0, 0, 0, 0, 0, 0, 0, 0, ckey 14, keyControl, 0, 0,
    0, 0, 0, 0, 0, 0, 0, 0, 0, 0, 0, 0, 0, 0, 0, 0,
    0, 0, 0, 0, 0, c '/', 0, 0, keyAlt, 0, 0, 0, 0, 0, 0, 0,
    0, 0, 0, 0, 0, 0, 0, keyHome,
    keyUp, keyPageup, 0, keyLeft, 0, keyRight, 0, keyEnd,
    keyDown, keyPagedown, keyInsert, keyDelete, 0, 0, 0, 0,
    0, 0, 0, 0, 0, 0, 0, 0,
    0, 0, 0, 0, 0, 0, 0, 0, 0, 0, 0, 0, 0, 0, 0, 0,
    0, 0, 0, 0, 0, 0, 0, 0, 0, 0, 0, 0, 0, 0, 0, 0]

/-- `complex_keymap`: plain, with shift, with control, with both. -/
def complexKeymap : List (List Nat) :=
  let c (char : Char) : Nat := char.toNat
  [[c '1', c '!', 0, 0], [c '2', c '@', 0, 0],
    [c '3', c '#', 0, 0], [c '4', c '$', 0, 0],
    [c '5', c '%', 0, 0], [c '6', c '^', 0, 0o36],
    [c '7', c '&', 0, 0], [c '8', c '*', 0, 0],
    [c '9', c '(', 0, 0], [c '0', c ')', 0, 0],
    [c '-', c '_', 0, 0o37], [c '=', c '+', 0, 0],
    [c '[', 0x7B, 0o33, 0], [c ']', 0x7D, 0o35, 0],
    [10, 10, 13, 13],
    [c ';', c ':', 0, 0],
    [39, 34, 0, 0], [0x60, c '~', 0, 0],
    [92, c '|', 0o34, 0], [c ',', c '<', 0, 0],
    [c '.', c '>', 0, 0], [c '/', c '?', 0, 0]]

/-! ## keyboard_readc -/

/-- `modifiers` and `last_escape`. -/
structure Keyboard where
  modifiers : BitVec 8
  lastEscape : BitVec 8
  deriving DecidableEq, Repr

def modShift : BitVec 8 := 1#8 <<< 0
def modControl : BitVec 8 := 1#8 <<< 1
def modCapslock : BitVec 8 := 1#8 <<< 3

def keymapAt (code : BitVec 8) : Nat := keymap.getD code.toNat 0

/-- The key press with the code `ch`. -/
def keyPress (ch : Nat) (modifiers : BitVec 8) : Nat × BitVec 8 :=
  if 97 ≤ ch ∧ ch ≤ 122 then
    if modifiers &&& modControl ≠ 0 then (ch - 0x60, modifiers)
    else if (modifiers &&& modShift = 0) ≠ (modifiers &&& modCapslock = 0) then
      (ch - 0x20, modifiers)
    else (ch, modifiers)
  else if keyCapslock ≤ ch then (0, modifiers ^^^ (1#8 <<< (ch - keyShift)))
  else if keyShift ≤ ch then (0, modifiers ||| (1#8 <<< (ch - keyShift)))
  else if ckey 0 ≤ ch ∧ ch ≤ ckey 21 then
    ((complexKeymap.getD (ch - ckey 0) []).getD (modifiers &&& 3#8).toNat 0, modifiers)
  else if ch < 0x80 ∧ modifiers &&& modControl ≠ 0 then (0, modifiers)
  else (ch, modifiers)

/-- `keyboard_readc`; the data register counts when the status register says ready. -/
def keyboardReadc (keyboard : Keyboard) : Option (BitVec 8) → Int × Keyboard
  | none => (-1, keyboard)
  | some data =>
      let escape := keyboard.lastEscape
      if data = 0xE0#8 then (0, ⟨keyboard.modifiers, 0x80#8⟩)
      else if data &&& 0x80#8 ≠ 0 then
        let ch := keymapAt ((data &&& 0x7F#8) ||| escape)
        if keyShift ≤ ch ∧ ch < keyCapslock then
          (0, ⟨keyboard.modifiers &&& ~~~(1#8 <<< (ch - keyShift)), 0#8⟩)
        else (0, ⟨keyboard.modifiers, 0#8⟩)
      else
        let (ch, modifiers) := keyPress (keymapAt (data ||| escape)) keyboard.modifiers
        (ch, ⟨modifiers, 0#8⟩)

def keyboardStart : Keyboard := ⟨0#8, 0#8⟩

def keyboardAfter (polls : List (Option (BitVec 8))) : Keyboard :=
  polls.foldl (fun keyboard poll => (keyboardReadc keyboard poll).2) keyboardStart

/-! ## Strokes -/

structure Stroke where
  code : BitVec 8
  down : Bool
  deriving DecidableEq, Repr

/-- A byte without its top bit, which is set for a release, and behind a prefix byte. -/
def strokeOf (escaped : Bool) (data : BitVec 8) : Stroke :=
  ⟨(data &&& 0x7F#8) ||| (if escaped then 0x80#8 else 0#8), data &&& 0x80#8 = 0⟩

/-- The strokes of some bytes, and whether the last one is a prefix. -/
def strokesFrom (escaped : Bool) : List (BitVec 8) → List Stroke × Bool
  | [] => ([], escaped)
  | data :: rest =>
      if data = 0xE0#8 then strokesFrom true rest
      else
        let (strokes, pending) := strokesFrom false rest
        (strokeOf escaped data :: strokes, pending)

def strokes (polls : List (Option (BitVec 8))) : List Stroke :=
  (strokesFrom false polls.reduceOption).1

def prefixed (polls : List (Option (BitVec 8))) : Bool :=
  (strokesFrom false polls.reduceOption).2

/-- The last stroke of the keys with this code was a press. -/
def Held (key : Nat) (history : List Stroke) : Bool :=
  history.foldl (fun held stroke => if keymapAt stroke.code = key then stroke.down else held)
    false

/-- The keys with this code went down an odd number of times. -/
def Locked (key : Nat) (history : List Stroke) : Bool :=
  history.countP (fun stroke => stroke.down && keymapAt stroke.code = key) % 2 = 1

/-- Bit `i` of the modifiers is for the keys with the code `keyShift + i`. -/
structure Tracks (history : List Stroke) (modifiers : BitVec 8) : Prop where
  held : ∀ {i}, i < 3 → modifiers.getLsbD i = Held (keyShift + i) history
  locked : ∀ {i}, 3 ≤ i → i < 6 → modifiers.getLsbD i = Locked (keyShift + i) history

structure Keeps (history : List Stroke) (escaped : Bool) (keyboard : Keyboard) : Prop where
  follows : Tracks history keyboard.modifiers
  escape : keyboard.lastEscape = if escaped then 0x80#8 else 0#8

section Bits

variable {modifiers : BitVec 8} {i j : Nat}

theorem getLsbD_one_shift (small : i < 8) (amount : j < 8) :
    (1#8 <<< j).getLsbD i = decide (i = j) := by
  interval_cases i <;> interval_cases j <;> rfl

theorem getLsbD_set (small : i < 8) (amount : j < 8) :
    (modifiers ||| (1#8 <<< j)).getLsbD i = (modifiers.getLsbD i || decide (i = j)) := by
  rw [BitVec.getLsbD_or, getLsbD_one_shift small amount]

theorem getLsbD_clear (small : i < 8) (amount : j < 8) :
    (modifiers &&& ~~~(1#8 <<< j)).getLsbD i = (modifiers.getLsbD i && !decide (i = j)) := by
  rw [BitVec.getLsbD_and, BitVec.getLsbD_not, getLsbD_one_shift small amount]
  simp [small]

theorem getLsbD_flip (small : i < 8) (amount : j < 8) :
    (modifiers ^^^ (1#8 <<< j)).getLsbD i = (modifiers.getLsbD i ^^ decide (i = j)) := by
  rw [BitVec.getLsbD_xor, getLsbD_one_shift small amount]

end Bits

/-! ## One stroke -/

section Stroke

variable {history : List Stroke} {stroke : Stroke} {modifiers : BitVec 8} {key : Nat}

theorem Held.snoc : Held key (history ++ [stroke]) =
    if keymapAt stroke.code = key then stroke.down else Held key history := by
  rw [Held, List.foldl_append]
  rfl

theorem Locked.snoc : Locked key (history ++ [stroke]) =
    (Locked key history ^^ (stroke.down && decide (keymapAt stroke.code = key))) := by
  rw [Locked, Locked, List.countP_append]
  cases turned : stroke.down && decide (keymapAt stroke.code = key) with
  | false => simp [turned]
  | true =>
      rw [List.countP_singleton, if_pos turned, Bool.xor_true]
      by_cases odd : history.countP
          (fun stroke => stroke.down && decide (keymapAt stroke.code = key)) % 2 = 1
      · simp only [odd, decide_true, Bool.not_true, decide_eq_false_iff_not]
        omega
      · simp only [odd, decide_false, Bool.not_false, decide_eq_true_eq]
        omega

theorem keymapAt_le (code : BitVec 8) : keymapAt code ≤ keyScrolllock := by
  revert code
  decide +kernel

def Stroke.turn (stroke : Stroke) (modifiers : BitVec 8) : BitVec 8 :=
  let key := keymapAt stroke.code
  if key < keyShift then modifiers
  else if key < keyCapslock then
    if stroke.down then modifiers ||| (1#8 <<< (key - keyShift))
    else modifiers &&& ~~~(1#8 <<< (key - keyShift))
  else if stroke.down then modifiers ^^^ (1#8 <<< (key - keyShift))
  else modifiers

theorem Stroke.turn_cases (stroke : Stroke) (modifiers : BitVec 8) :
    keymapAt stroke.code < keyShift ∧ stroke.turn modifiers = modifiers ∨
    ∃ n < 6, keymapAt stroke.code = keyShift + n ∧
      stroke.turn modifiers =
        if n < 3 then
          if stroke.down then modifiers ||| (1#8 <<< n) else modifiers &&& ~~~(1#8 <<< n)
        else if stroke.down then modifiers ^^^ (1#8 <<< n) else modifiers := by
  by_cases plain : keymapAt stroke.code < keyShift
  · exact Or.inl ⟨plain, if_pos plain⟩
  · right
    obtain ⟨n, code⟩ := Nat.exists_eq_add_of_le (not_lt.mp plain)
    have bound := keymapAt_le stroke.code
    have middle : keyCapslock = keyShift + 3 := rfl
    have last : keyScrolllock = keyShift + 5 := rfl
    have few : keyShift + n < keyShift + 3 ↔ n < 3 := Nat.add_lt_add_iff_left
    refine ⟨n, by omega, code, ?_⟩
    rw [turn, code, if_neg (by omega), middle, Nat.add_sub_cancel_left]
    simp only [few]

theorem Tracks.turn (follows : Tracks history modifiers) :
    Tracks (history ++ [stroke]) (stroke.turn modifiers) := by
  rcases stroke.turn_cases modifiers with ⟨plain, kept⟩ | ⟨n, few, code, turned⟩
  · rw [kept]
    constructor
    · intro i small
      rw [Held.snoc, if_neg (by omega)]
      exact follows.held small
    · intro i lower upper
      rw [Locked.snoc, follows.locked lower upper, decide_eq_false (by omega)]
      simp
  · have same : ∀ i, keyShift + n = keyShift + i ↔ i = n := by
      intro i
      omega
    rw [turned]
    constructor
    · intro i small
      rw [Held.snoc, code, ← follows.held small]
      simp only [same]
      by_cases modifier : n < 3
      · rw [if_pos modifier]
        cases stroke.down with
        | true =>
            rw [if_pos rfl, getLsbD_set (by omega) (by omega)]
            by_cases here : i = n <;> simp [here]
        | false =>
            rw [if_neg Bool.false_ne_true, getLsbD_clear (by omega) (by omega)]
            by_cases here : i = n <;> simp [here]
      · have apart : i ≠ n := by omega
        rw [if_neg modifier, if_neg apart]
        split
        · rw [getLsbD_flip (by omega) (by omega), decide_eq_false apart, Bool.xor_false]
        · rfl
    · intro i lower upper
      rw [Locked.snoc, code, ← follows.locked lower upper]
      simp only [same]
      by_cases modifier : n < 3
      · have apart : i ≠ n := by omega
        rw [if_pos modifier, decide_eq_false apart, Bool.and_false, Bool.xor_false]
        split
        · rw [getLsbD_set (by omega) (by omega), decide_eq_false apart, Bool.or_false]
        · rw [getLsbD_clear (by omega) (by omega), decide_eq_false apart, Bool.not_false,
            Bool.and_true]
      · rw [if_neg modifier]
        cases stroke.down with
        | true => rw [if_pos rfl, getLsbD_flip (by omega) (by omega), Bool.true_and]
        | false => rw [if_neg Bool.false_ne_true, Bool.false_and, Bool.xor_false]

end Stroke

/-! ## Calls -/

section Calls

variable {history : List Stroke} {escaped : Bool} {keyboard : Keyboard} {data : BitVec 8}

theorem keyPress_turn (ch : Nat) (modifiers : BitVec 8) : (keyPress ch modifiers).2 =
    if ch < keyShift then modifiers
    else if ch < keyCapslock then modifiers ||| (1#8 <<< (ch - keyShift))
    else modifiers ^^^ (1#8 <<< (ch - keyShift)) := by
  have letters : 122 < keyShift := by decide
  have order : keyShift < keyCapslock := by decide
  rw [keyPress]
  by_cases letter : 97 ≤ ch ∧ ch ≤ 122
  · have plain : ch < keyShift := by omega
    rw [if_pos letter, if_pos plain]
    split
    · rfl
    · split <;> rfl
  · rw [if_neg letter]
    by_cases lock : keyCapslock ≤ ch
    · rw [if_pos lock, if_neg (by omega), if_neg (by omega)]
    · rw [if_neg lock]
      by_cases modifier : keyShift ≤ ch
      · rw [if_pos modifier, if_neg (by omega), if_pos (by omega)]
      · rw [if_neg modifier, if_pos (not_le.mp modifier)]
        split
        · rfl
        · split <;> rfl

/-- A byte that is not a prefix is a stroke, with the answer of its key. -/
theorem keyboardReadc_stroke (other : data ≠ 0xE0#8)
    (escape : keyboard.lastEscape = if escaped then 0x80#8 else 0#8) :
    keyboardReadc keyboard (some data) =
      (if (strokeOf escaped data).down then
          ((keyPress (keymapAt (strokeOf escaped data).code) keyboard.modifiers).1 : Int)
        else 0,
      ⟨(strokeOf escaped data).turn keyboard.modifiers, 0#8⟩) := by
  rw [keyboardReadc, if_neg other, escape]
  by_cases press : data &&& 0x80#8 = 0
  · have same : data &&& 0x7F#8 = data := by
      revert press
      clear other
      revert data
      decide +kernel
    have down : (strokeOf escaped data).down = true := decide_eq_true press
    have code : (strokeOf escaped data).code = data ||| (if escaped then 0x80#8 else 0#8) := by
      rw [strokeOf, same]
    rw [if_neg (not_not.mpr press), if_pos down, ← code]
    simp only [keyPress_turn, Stroke.turn, down, if_true]
  · have up : (strokeOf escaped data).down = false := decide_eq_false press
    rw [if_pos press, up, if_neg Bool.false_ne_true]
    have code : (data &&& 0x7F#8) ||| (if escaped then 0x80#8 else 0#8) =
        (strokeOf escaped data).code := rfl
    simp only [code]
    rw [Stroke.turn, up]
    generalize keymapAt (strokeOf escaped data).code = key
    by_cases plain : key < keyShift
    · rw [if_neg (fun both => absurd both.1 (not_le.mpr plain)), if_pos plain]
    · rw [if_neg plain]
      by_cases modifier : key < keyCapslock
      · rw [if_pos ⟨not_lt.mp plain, modifier⟩, if_pos modifier, if_neg Bool.false_ne_true]
      · rw [if_neg (fun both => modifier both.2), if_neg modifier, if_neg Bool.false_ne_true]

theorem keyboardReadc_prefix (keyboard : Keyboard) :
    keyboardReadc keyboard (some 0xE0#8) = (0, ⟨keyboard.modifiers, 0x80#8⟩) := by
  simp only [keyboardReadc, if_true]

theorem Keeps.poll (keeps : Keeps history escaped keyboard) :
    Keeps (history ++ (strokesFrom escaped [data]).1) (strokesFrom escaped [data]).2
      (keyboardReadc keyboard (some data)).2 := by
  by_cases mark : data = 0xE0#8
  · rw [mark, keyboardReadc_prefix, strokesFrom, if_pos rfl, strokesFrom, List.append_nil]
    exact ⟨keeps.follows, rfl⟩
  · rw [keyboardReadc_stroke mark keeps.escape, strokesFrom, if_neg mark]
    exact ⟨keeps.follows.turn, rfl⟩

theorem strokesFrom_append (escaped : Bool) (front back : List (BitVec 8)) :
    strokesFrom escaped (front ++ back) =
      ((strokesFrom escaped front).1 ++ (strokesFrom (strokesFrom escaped front).2 back).1,
        (strokesFrom (strokesFrom escaped front).2 back).2) := by
  induction front generalizing escaped with
  | nil => rfl
  | cons data rest ih =>
      rw [List.cons_append, strokesFrom, strokesFrom]
      split
      · exact ih true
      · rw [ih false]
        rfl

theorem keyboardAfter_keeps (polls : List (Option (BitVec 8))) :
    Keeps (strokes polls) (prefixed polls) (keyboardAfter polls) := by
  induction polls using List.reverseRecOn with
  | nil =>
      refine ⟨⟨?_, ?_⟩, rfl⟩
      · intro i small
        interval_cases i <;> rfl
      · intro i lower upper
        interval_cases i <;> rfl
  | append_singleton polls poll ih =>
      rw [keyboardAfter, List.foldl_append] at *
      rw [strokes, prefixed, List.reduceOption_append]
      cases poll with
      | none =>
          rw [List.reduceOption_singleton, Option.toList_none, List.append_nil]
          exact ih
      | some data =>
          rw [List.reduceOption_singleton, Option.toList_some, strokesFrom_append]
          exact ih.poll

/-! ## Answers -/

def keyText (shift control capslock : Bool) (ch : Nat) : Nat :=
  if 97 ≤ ch ∧ ch ≤ 122 then
    if control then ch - 0x60 else if shift ≠ capslock then ch - 0x20 else ch
  else if keyShift ≤ ch then 0
  else if ckey 0 ≤ ch ∧ ch ≤ ckey 21 then
    (complexKeymap.getD (ch - ckey 0) []).getD (shift.toNat + 2 * control.toNat) 0
  else if ch < 0x80 ∧ control then 0
  else ch

theorem keyPress_text (ch : Nat) (modifiers : BitVec 8) : (keyPress ch modifiers).1 =
    keyText (modifiers.getLsbD 0) (modifiers.getLsbD 1) (modifiers.getLsbD 3) ch := by
  have shift : modifiers &&& modShift = 0 ↔ modifiers.getLsbD 0 = false := by
    revert modifiers
    decide +kernel
  have control : modifiers &&& modControl ≠ 0 ↔ modifiers.getLsbD 1 = true := by
    revert modifiers
    decide +kernel
  have capslock : modifiers &&& modCapslock = 0 ↔ modifiers.getLsbD 3 = false := by
    revert modifiers
    decide +kernel
  have column : (modifiers &&& 3#8).toNat =
      (modifiers.getLsbD 0).toNat + 2 * (modifiers.getLsbD 1).toNat := by
    revert modifiers
    decide +kernel
  have order : keyShift ≤ keyCapslock := by decide
  rw [keyPress, keyText]
  simp only [control, column]
  by_cases letter : 97 ≤ ch ∧ ch ≤ 122
  · rw [if_pos letter, if_pos letter]
    have different : ((modifiers &&& modShift = 0) ≠ (modifiers &&& modCapslock = 0)) ↔
        modifiers.getLsbD 0 ≠ modifiers.getLsbD 3 := by
      rw [Ne, eq_iff_iff, shift, capslock]
      cases modifiers.getLsbD 0 <;> cases modifiers.getLsbD 3 <;> decide
    simp only [different]
    split
    · rfl
    · split <;> rfl
  · rw [if_neg letter, if_neg letter]
    by_cases modifier : keyShift ≤ ch
    · rw [if_pos modifier]
      split <;> rfl
    · rw [if_neg modifier, if_neg (fun lock => modifier (order.trans lock)), if_neg modifier]
      by_cases complex : ckey 0 ≤ ch ∧ ch ≤ ckey 21
      · rw [if_pos complex, if_pos complex]
      · rw [if_neg complex, if_neg complex]
        split <;> rfl

/-- A ready byte answers with the text of its key, by the strokes before. -/
theorem keyboardReadc_text (polls : List (Option (BitVec 8))) (data : BitVec 8) :
    (keyboardReadc (keyboardAfter polls) (some data)).1 =
      if data = 0xE0#8 ∨ (strokeOf (prefixed polls) data).down = false then 0
      else
        keyText (Held keyShift (strokes polls)) (Held keyControl (strokes polls))
          (Locked keyCapslock (strokes polls))
          (keymapAt (strokeOf (prefixed polls) data).code) := by
  have keeps := keyboardAfter_keeps polls
  by_cases mark : data = 0xE0#8
  · rw [if_pos (Or.inl mark), mark, keyboardReadc_prefix, Nat.cast_zero]
  · rw [keyboardReadc_stroke mark keeps.escape, keyPress_text,
      keeps.follows.held (by omega), keeps.follows.held (by omega),
      keeps.follows.locked (by omega) (by omega)]
    cases (strokeOf (prefixed polls) data).down with
    | false => rw [if_neg Bool.false_ne_true, if_pos (Or.inr rfl), Nat.cast_zero]
    | true =>
        rw [if_pos rfl, if_neg (not_or.mpr ⟨mark, Bool.true_eq_false.mp⟩)]
        rfl

theorem keyText_bound (shift control capslock : Bool) (code : BitVec 8) :
    keyText shift control capslock (keymapAt code) < 0x80 ∨
      keyUp ≤ keyText shift control capslock (keymapAt code) ∧
        keyText shift control capslock (keymapAt code) ≤ keyDelete := by
  revert shift control capslock code
  decide +kernel

/-- After any calls a call returns -1 when no byte is ready, 0 for a prefix and a release,
and for a press the character of its key by the strokes so far. -/
theorem keyboardReadc_reads (polls : List (Option (BitVec 8))) (poll : Option (BitVec 8)) :
    ((keyboardReadc (keyboardAfter polls) poll).1 = -1 ↔ poll = none) ∧
    (poll ≠ none → 0 ≤ (keyboardReadc (keyboardAfter polls) poll).1 ∧
      ((keyboardReadc (keyboardAfter polls) poll).1 < 0x80 ∨
        (keyUp : Int) ≤ (keyboardReadc (keyboardAfter polls) poll).1 ∧
          (keyboardReadc (keyboardAfter polls) poll).1 ≤ keyDelete)) ∧
    ∀ data, poll = some data → (keyboardReadc (keyboardAfter polls) poll).1 =
      if data = 0xE0#8 ∨ (strokeOf (prefixed polls) data).down = false then 0
      else
        keyText (Held keyShift (strokes polls)) (Held keyControl (strokes polls))
          (Locked keyCapslock (strokes polls))
          (keymapAt (strokeOf (prefixed polls) data).code) := by
  cases poll with
  | none => exact ⟨by simp [keyboardReadc], by simp, by simp⟩
  | some data =>
      have text := keyboardReadc_text polls data
      have bound := keyText_bound (Held keyShift (strokes polls))
        (Held keyControl (strokes polls)) (Locked keyCapslock (strokes polls))
        (strokeOf (prefixed polls) data).code
      have range : 0 ≤ (keyboardReadc (keyboardAfter polls) (some data)).1 ∧
          ((keyboardReadc (keyboardAfter polls) (some data)).1 < 0x80 ∨
            (keyUp : Int) ≤ (keyboardReadc (keyboardAfter polls) (some data)).1 ∧
              (keyboardReadc (keyboardAfter polls) (some data)).1 ≤ keyDelete) := by
        rw [text]
        split
        · exact ⟨le_refl _, Or.inl (by decide)⟩
        · omega
      refine ⟨?_, fun _ => range, ?_⟩
      · have positive := range.1
        constructor
        · intro minus
          omega
        · intro absent
          cases absent
      · intro other same
        rw [← Option.some.inj same]
        exact text

/-! ## check_keyboard -/

/-- The letters that check_keyboard waits for, with the codes of their keys. -/
def commandKeys : List (Nat × BitVec 8) :=
  [(97, 0x1E#8), (102, 0x21#8), (101, 0x12#8), (113, 0x10#8)]

/-- Such a letter comes from its own key, without control, and in lower case. -/
theorem keyText_letter (data : BitVec 8) : data &&& 0x80#8 = 0 →
    ∀ shift control capslock escaped : Bool, ∀ command ∈ commandKeys,
      (keyText shift control capslock (keymapAt (strokeOf escaped data).code) = command.1 ↔
        data = command.2 ∧ escaped = false ∧ control = false ∧ shift = capslock) := by
  revert data
  decide +kernel

theorem keyText_interrupt (data : BitVec 8) : data &&& 0x80#8 = 0 →
    ∀ shift control capslock escaped : Bool,
      (keyText shift control capslock (keymapAt (strokeOf escaped data).code) = 3 ↔
        data = 0x2E#8 ∧ escaped = false ∧ control = true) := by
  revert data
  decide +kernel

def SmallLetters (history : List Stroke) : Prop :=
  Held keyControl history = false ∧ Held keyShift history = Locked keyCapslock history

theorem checkKeyboard_poweroff (c : Int) :
    checkKeyboard c = .error .poweroff ↔ c = 3 ∨ c = 113 := by
  rw [checkKeyboard]
  constructor
  · intro stopped
    split at stopped
    · cases stopped
    · split at stopped
      · cases stopped
      · split at stopped
        · cases stopped
        · split at stopped
          · assumption
          · cases stopped
  · rintro (rfl | rfl) <;> rfl

theorem checkKeyboard_softReboot (c : Int) (argument : String) :
    checkKeyboard c = .error (.softReboot argument) ↔
      c = 97 ∧ argument = "allocator" ∨ c = 102 ∧ argument = "fork" ∨
        c = 101 ∧ argument = "forkexit" := by
  rw [checkKeyboard]
  constructor
  · intro stopped
    split at stopped
    · cases stopped
      exact Or.inl ⟨by assumption, rfl⟩
    · split at stopped
      · cases stopped
        exact Or.inr (Or.inl ⟨by assumption, rfl⟩)
      · split at stopped
        · cases stopped
          exact Or.inr (Or.inr ⟨by assumption, rfl⟩)
        · split at stopped <;> cases stopped
  · rintro (⟨rfl, rfl⟩ | ⟨rfl, rfl⟩ | ⟨rfl, rfl⟩) <;> rfl

theorem keyboardReadc_command (polls : List (Option (BitVec 8))) (data : BitVec 8) :
    (∀ command ∈ commandKeys,
      (keyboardReadc (keyboardAfter polls) (some data)).1 = (command.1 : Int) ↔
        data = command.2 ∧ prefixed polls = false ∧ SmallLetters (strokes polls)) ∧
    ((keyboardReadc (keyboardAfter polls) (some data)).1 = 3 ↔
      data = 0x2E#8 ∧ prefixed polls = false ∧ Held keyControl (strokes polls) = true) := by
  have press : ∀ command ∈ commandKeys, command.2 &&& 0x80#8 = 0 ∧ command.1 ≠ 0 := by
    decide
  rw [keyboardReadc_text]
  by_cases down : data &&& 0x80#8 = 0
  · have other : data ≠ 0xE0#8 := by
      rintro rfl
      revert down
      decide
    have falls : (strokeOf (prefixed polls) data).down ≠ false := by
      simp [strokeOf, down]
    rw [if_neg (not_or.mpr ⟨other, falls⟩)]
    constructor
    · intro command member
      rw [Nat.cast_inj, keyText_letter data down _ _ _ _ command member]
      rfl
    · rw [show (3 : Int) = ((3 : Nat) : Int) from rfl, Nat.cast_inj,
        keyText_interrupt data down]
  · have up : (strokeOf (prefixed polls) data).down = false := decide_eq_false down
    rw [if_pos (Or.inr up), Nat.cast_zero]
    constructor
    · intro command member
      obtain ⟨low, text⟩ := press command member
      constructor
      · intro zero
        exact absurd (Int.natCast_eq_zero.mp zero.symm) text
      · rintro ⟨rfl, _⟩
        exact absurd low down
    · constructor
      · intro zero
        cases zero
      · rintro ⟨rfl, _⟩
        exact absurd (by decide) down

/-- What the machine is told by a byte behind some calls: Control-C and a plain q turn it
off, and three other plain letters start it again with other programs. -/
theorem checkKeyboard_keys (polls : List (Option (BitVec 8))) (data : BitVec 8) :
    (checkKeyboard (keyboardReadc (keyboardAfter polls) (some data)).1 = .error .poweroff ↔
      prefixed polls = false ∧
        (data = 0x2E#8 ∧ Held keyControl (strokes polls) = true ∨
          data = 0x10#8 ∧ SmallLetters (strokes polls))) ∧
    ∀ argument,
      checkKeyboard (keyboardReadc (keyboardAfter polls) (some data)).1 =
          .error (.softReboot argument) ↔
        prefixed polls = false ∧ SmallLetters (strokes polls) ∧
          (data, argument) ∈
            [(0x1E#8, "allocator"), (0x21#8, "fork"), (0x12#8, "forkexit")] := by
  obtain ⟨letters, interrupt⟩ := keyboardReadc_command polls data
  have quit := letters (113, 0x10#8) (by decide)
  have allocator := letters (97, 0x1E#8) (by decide)
  have fork := letters (102, 0x21#8) (by decide)
  have forkexit := letters (101, 0x12#8) (by decide)
  constructor
  · rw [checkKeyboard_poweroff]
    constructor
    · rintro (three | letter)
      · obtain ⟨code, bare, control⟩ := interrupt.mp three
        exact ⟨bare, Or.inl ⟨code, control⟩⟩
      · obtain ⟨code, bare, plain⟩ := quit.mp letter
        exact ⟨bare, Or.inr ⟨code, plain⟩⟩
    · rintro ⟨bare, ⟨code, control⟩ | ⟨code, plain⟩⟩
      · exact Or.inl (interrupt.mpr ⟨code, bare, control⟩)
      · exact Or.inr (quit.mpr ⟨code, bare, plain⟩)
  · intro argument
    rw [checkKeyboard_softReboot]
    simp only [List.mem_cons, List.not_mem_nil, or_false, Prod.mk.injEq]
    constructor
    · rintro (⟨letter, name⟩ | ⟨letter, name⟩ | ⟨letter, name⟩)
      · obtain ⟨code, bare, plain⟩ := allocator.mp letter
        exact ⟨bare, plain, Or.inl ⟨code, name⟩⟩
      · obtain ⟨code, bare, plain⟩ := fork.mp letter
        exact ⟨bare, plain, Or.inr (Or.inl ⟨code, name⟩)⟩
      · obtain ⟨code, bare, plain⟩ := forkexit.mp letter
        exact ⟨bare, plain, Or.inr (Or.inr ⟨code, name⟩)⟩
    · rintro ⟨bare, plain, ⟨code, name⟩ | ⟨code, name⟩ | ⟨code, name⟩⟩
      · exact Or.inl ⟨allocator.mpr ⟨code, bare, plain⟩, name⟩
      · exact Or.inr (Or.inl ⟨fork.mpr ⟨code, bare, plain⟩, name⟩)
      · exact Or.inr (Or.inr ⟨forkexit.mpr ⟨code, bare, plain⟩, name⟩)

end Calls

end OsLabs.Weensy
