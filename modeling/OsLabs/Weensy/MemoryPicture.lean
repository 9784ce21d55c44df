import Mathlib.Data.List.GetD
import OsLabs.Weensy.Console
import OsLabs.Weensy.KernelRuns

/-!
# The memory pictures of kernel.c

`memshow_physical` and `memshow_virtual_animate` with the console that they draw on.
-/

set_option autoImplicit false

namespace OsLabs.Weensy

open OsLabs.ExceptRules

/-! ## Drawing -/

/-- `CPOS(row, col)`. -/
def cpos (row col : Nat) : Nat := row * 80 + col

inductive DrawFault where
  | kernel (stop : Stop)
  | console (fault : ConsoleFault)
  deriving DecidableEq, Repr

def ofKernel {α : Type} : Except Stop α → Except DrawFault α
  | .ok value => .ok value
  | .error stop => .error (.kernel stop)

/-- `console_printf(CPOS(row, col), 0x0F00, format, ...)`. -/
def printAt (row col : Nat) (format : List Char) (args : List VaArg) (cells : Cells) :
    Except DrawFault Cells :=
  match consolePrintf cells (cpos row col) 0x0F00 format args with
  | .ok (cells, _) => .ok cells
  | .error fault => .error (.console fault)

/-- `console[CPOS(row, col)] = color`. -/
def setCell (row col : Nat) (color : BitVec 16) (cells : Cells) : Except DrawFault Cells :=
  if cpos row col < consoleSize then .ok (Function.update cells (cpos row col) color)
  else .error (.console .outOfBounds)

def addressFormat : List Char := "0x%06X ".toList

/-- An iteration of the loop of `memshow_physical`. -/
def drawPhysicalPage (state : KernelState) (pn : PhysicalPage) (cells : Cells) :
    Except DrawFault Cells := do
  let cells ←
    if pn.val % 64 = 0 then
      printAt (1 + pn.val / 64) 3 addressFormat [.word (BitVec.ofNat 64 (pn.val <<< 12))] cells
    else .ok cells
  let color ← ofKernel (memstateColor (state.pageinfo pn))
  setCell (1 + pn.val / 64) (12 + pn.val % 64) (shade (state.pageinfo pn) color) cells

def drawPhysical (state : KernelState) (cells : Cells) : Except DrawFault Cells := do
  let cells ← printAt 0 32 "PHYSICAL MEMORY".toList [] cells
  (List.finRange nPages).foldlM (fun cells pn => drawPhysicalPage state pn cells) cells

def virtualColor (state : KernelState) (pagetable va : UIntPtr) : Except Stop (BitVec 16) :=
  let vam := virtualMemoryLookup state.memory pagetable va
  if vam.pn < 0 then .ok 0x0020#16
  else do
    assert (vam.pa < memsizePhysical) .memshowPhysical
    let page ← pageinfoIndex vam.pn
    let color ← memstateColor (state.pageinfo page)
    .ok (shade (state.pageinfo page) (reverseVideo vam.perm color))

/-- An iteration of the loop of `memshow_virtual`. -/
def drawVirtualPage (state : KernelState) (pagetable va : UIntPtr) (cells : Cells) :
    Except DrawFault Cells := do
  let color ← ofKernel (virtualColor state pagetable va)
  let pn := (va >>> 12).toNat
  let cells ←
    if pn % 64 = 0 then printAt (11 + pn / 64) 3 addressFormat [.word va] cells else .ok cells
  setCell (11 + pn / 64) (12 + pn % 64) color cells

def drawVirtual (state : KernelState) (pagetable : UIntPtr) (name : List Char) (cells : Cells) :
    Except DrawFault Cells := do
  ofKernel (assert (pagetable = pteAddr pagetable) .memshowAligned)
  let cells ← printAt 10 26 "VIRTUAL ADDRESS SPACE FOR %s".toList [.string name] cells
  (pagesBelow 0 memsizeVirtual.toNat).foldlM
    (fun cells va => drawVirtualPage state pagetable va cells) cells

/-- `memshow_virtual_animate` with its console. -/
def drawVirtualAnimate (state : KernelState) (cells : Cells) :
    Except DrawFault (KernelState × Cells) := do
  let (lastTicks, showing) := nextShowing state
  let state := { state with lastTicks := lastTicks, showing := showing }
  if (state.processes showing).pState ≠ .free then
    let name := snprintf 4 "%d " [.word (BitVec.ofNat 64 showing.val)]
    let cells ← drawVirtual state (state.processes showing).pPagetable name cells
    .ok (state, cells)
  else .ok (state, cells)

/-- The two displays that `exception` draws. -/
def drawMemory (state : KernelState) (cells : Cells) :
    Except DrawFault (KernelState × Cells) := do
  let cells ← drawPhysical state cells
  drawVirtualAnimate state cells

/-! ## Text -/

def letter (c : Char) : BitVec 16 :=
  ((BitVec.ofNat 8 c.toNat).setWidth 32 ||| BitVec.ofInt 32 0x0F00).setWidth 16

/-- `cells` with a text from `start` on. -/
def overlay (cells : Cells) (start : Nat) (text : List (BitVec 16)) : Cells := fun x =>
  if start ≤ x then text.getD (x - start) (cells x) else cells x

section Text

variable {cells : Cells} {start : Nat} {text : List (BitVec 16)}

theorem overlay_inside {i : Nat} (inside : i < text.length) :
    overlay cells start text (start + i) = text[i] := by
  rw [overlay, if_pos (Nat.le_add_right start i), Nat.add_sub_cancel_left,
    List.getD_eq_getElem _ _ inside]

theorem overlay_outside {x : Nat} (outside : x < start ∨ start + text.length ≤ x) :
    overlay cells start text x = cells x := by
  unfold overlay
  split
  · rw [List.getD_eq_default]
    omega
  · rfl

theorem overlay_cons (color : BitVec 16) :
    overlay (Function.update cells start color) (start + 1) text =
      overlay cells start (color :: text) := by
  funext x
  unfold overlay
  rcases Nat.lt_trichotomy x start with before | here | behind
  · rw [if_neg (by omega), if_neg (by omega), Function.update_of_ne (by omega)]
  · subst here
    rw [if_neg (by omega), if_pos (Nat.le_refl x), Function.update_self, Nat.sub_self]
    rfl
  · rw [if_pos (by omega), if_pos (by omega), Function.update_of_ne (by omega),
      show x - start = x - (start + 1) + 1 by omega, List.getD_cons_succ]

theorem putCalls_text {chars : List Char} (plain : '\n' ∉ chars)
    (fits : start + chars.length ≤ consoleSize) :
    putCalls ⟨cells, start⟩ (chars.map (·, 0x0F00)) =
      .ok ⟨overlay cells start (chars.map letter), start + chars.length⟩ := by
  induction chars generalizing cells start with
  | nil =>
      have same : overlay cells start [] = cells := by
        funext x
        exact overlay_outside (by simp; omega)
      rw [List.map_nil, List.map_nil, same]
      rfl
  | cons c chars ih =>
      rw [List.length_cons] at fits
      have inside : start < consoleSize := by omega
      have ordinary : c ≠ '\n' := fun same => plain (same ▸ List.mem_cons_self)
      have put : consolePutc ⟨cells, start⟩ (c, 0x0F00) =
          .ok ⟨Function.update cells start (letter c), start + 1⟩ := by
        have wrapped : (⟨cells, start⟩ : Screen).wrap = ⟨cells, start⟩ :=
          if_neg (Nat.not_le_of_lt inside)
        simp only [consolePutc, wrapped]
        rw [if_neg ordinary, putCell, if_pos inside]
        rfl
      rw [List.map_cons, putCalls, put, ok_bind,
        ih (fun member => plain (List.mem_cons_of_mem _ member)) (by omega), overlay_cons,
        List.map_cons, List.length_cons, Nat.add_right_comm, Nat.add_assoc]

theorem printAt_text {row col : Nat} {format chars : List Char} {args : List VaArg}
    {val : VaList} (scanned : scanPrintf 0x0F00 format args = .ok (chars.map (·, 0x0F00), val))
    (plain : '\n' ∉ chars) (onScreen : cpos row col < consoleSize)
    (fits : cpos row col + chars.length ≤ consoleSize) :
    printAt row col format args cells =
      .ok (overlay cells (cpos row col) (chars.map letter)) := by
  have cursor : startCursor (cpos row col) = cpos row col := by
    rw [startCursor, if_neg (by omega), Int.toNat_natCast]
  rw [printAt, consolePrintf, scanned]
  simp only [consoleVprintf]
  rw [cursor, putCalls_text plain fits]
  rfl

end Text

def labelText (row : Nat) : List Char :=
  ['0', 'x'] ++
    (List.range 6).map (fun i => upperDigits.getD (row * 0x40000 / 16 ^ (5 - i) % 16) '0') ++ [' ']

theorem scanPrintf_label (row : Fin 12) :
    scanPrintf 0x0F00 addressFormat [.word (BitVec.ofNat 64 (row.val * 0x40000))] =
      .ok ((labelText row.val).map (·, 0x0F00), ⟨[], [.unsigned]⟩) := by
  fin_cases row <;> rfl

theorem labelText_plain : ∀ row : Fin 12, '\n' ∉ labelText row.val := by decide

theorem labelText_length (row : Nat) : (labelText row).length = 9 := rfl

def titleFront : List Char := "VIRTUAL ADDRESS SPACE FOR ".toList

def virtualTitle (name : List Char) : List Char := titleFront ++ name

theorem virtualTitle_length (name : List Char) : (virtualTitle name).length = 26 + name.length := by
  have front : titleFront.length = 26 := by decide +kernel
  rw [virtualTitle, List.length_append, front]

theorem scanPrintf_virtualTitle (name : List Char) :
    scanPrintf 0x0F00 "VIRTUAL ADDRESS SPACE FOR %s".toList [.string name] =
      .ok ((virtualTitle name).map (·, 0x0F00), ⟨[], [.charPointer]⟩) := by
  have plain : (⟨noFlags, 10, 0, name⟩ : Conversion).emit (-1) (-1) = name :=
    Conversion.emit_plain _ rfl
  have field : scanPrintf 0x0F00 "VIRTUAL ADDRESS SPACE FOR %s".toList [.string name] =
      .ok (titleFront.map (·, 0x0F00) ++
        (((⟨noFlags, 10, 0, name⟩ : Conversion).emit (-1) (-1)).map (·, 0x0F00) ++ []),
        ⟨[], [.charPointer]⟩) := rfl
  rw [field, plain, List.append_nil, virtualTitle, List.map_append]

/-- What `memshow_virtual_animate` calls a process. -/
def processName (pid : Pid) : List Char := Nat.toDigits 10 pid.val ++ [' ']

theorem snprintf_processName : ∀ pid : Pid,
    snprintf 4 "%d " [.word (BitVec.ofNat 64 pid.val)] = processName pid := by
  decide +kernel

theorem processName_fits : ∀ pid : Pid,
    (processName pid).length ≤ 3 ∧ '\n' ∉ virtualTitle (processName pid) := by
  decide +kernel

/-! ## Grids -/

/-- The cell of page `pn` in the picture that begins in row `top`. -/
def pageCell (top pn : Nat) : Nat := cpos (top + pn / 64) (12 + pn % 64)

/-- Page `pn` drawn, with the address in front of its row. -/
def gridPage (top pn : Nat) (color : BitVec 16) (cells : Cells) : Cells :=
  let cells :=
    if pn % 64 = 0 then overlay cells (cpos (top + pn / 64) 3) ((labelText (pn / 64)).map letter)
    else cells
  Function.update cells (pageCell top pn) color

/-- The first `count` pages of a picture are drawn and nothing else. -/
structure Grid (top count : Nat) (color : Nat → BitVec 16) (before after : Cells) : Prop where
  labels : ∀ row, row * 64 < count → ∀ i, (inside : i < (labelText row).length) →
    after (cpos (top + row) (3 + i)) = letter (labelText row)[i]
  pages : ∀ pn, pn < count → after (pageCell top pn) = color pn
  rest : ∀ x, (∀ row, row * 64 < count → x < cpos (top + row) 3 ∨ cpos (top + row) 76 ≤ x) →
    after x = before x

section Grids

variable {top count : Nat} {color : Nat → BitVec 16} {before middle after cells : Cells}

theorem Grid.none : Grid top 0 color cells cells :=
  ⟨fun _ below => absurd below (Nat.not_lt_zero _), fun _ below => absurd below (Nat.not_lt_zero _),
    fun _ _ => rfl⟩

/-- A page leaves what is in front of its row's label and behind itself. -/
theorem gridPage_outside {pn x : Nat} {here : BitVec 16}
    (outside : x < cpos (top + pn / 64) 3 ∨ pageCell top pn < x) :
    gridPage top pn here cells x = cells x := by
  have width : ((labelText (pn / 64)).map letter).length = 9 := rfl
  simp only [pageCell, cpos] at outside
  simp only [gridPage, pageCell, cpos]
  rw [Function.update_of_ne (by omega)]
  split
  · exact overlay_outside (by omega)
  · rfl

/-- A page that is not the first of its row changes its own cell only. -/
theorem gridPage_inRow {pn x : Nat} {here : BitVec 16} (later : pn % 64 ≠ 0)
    (other : x ≠ pageCell top pn) : gridPage top pn here cells x = cells x := by
  simp only [gridPage]
  rw [if_neg later, Function.update_of_ne other]

theorem gridPage_label {pn i : Nat} {here : BitVec 16} (first : pn % 64 = 0)
    (inside : i < (labelText (pn / 64)).length) :
    gridPage top pn here cells (cpos (top + pn / 64) (3 + i)) =
      letter (labelText (pn / 64))[i] := by
  have width := labelText_length (pn / 64)
  have apart : cpos (top + pn / 64) (3 + i) ≠ pageCell top pn := by
    simp only [pageCell, cpos]
    omega
  have place : cpos (top + pn / 64) (3 + i) = cpos (top + pn / 64) 3 + i := by
    simp only [cpos]
    omega
  simp only [gridPage]
  rw [if_pos first, Function.update_of_ne apart, place, overlay_inside (by simpa using inside),
    List.getElem_map]

theorem Grid.page (grid : Grid top count color before middle) :
    Grid top (count + 1) color before (gridPage top count (color count) middle) := by
  constructor
  · intro row below i inside
    have width := labelText_length row
    by_cases same : row = count / 64
    · subst same
      by_cases first : count % 64 = 0
      · exact gridPage_label first inside
      · have apart : cpos (top + count / 64) (3 + i) ≠ pageCell top count := by
          simp only [pageCell, cpos]
          omega
        rw [gridPage_inRow first apart]
        exact grid.labels _ (by omega) i inside
    · have above : cpos (top + row) (3 + i) < cpos (top + count / 64) 3 := by
        simp only [cpos]
        omega
      rw [gridPage_outside (Or.inl above)]
      exact grid.labels row (by omega) i inside
  · intro pn below
    by_cases same : pn = count
    · subst same
      exact Function.update_self _ _ _
    · have earlier : pn < count := by omega
      rw [← grid.pages pn earlier]
      by_cases first : count % 64 = 0
      · apply gridPage_outside
        simp only [pageCell, cpos]
        omega
      · apply gridPage_inRow first
        simp only [pageCell, cpos]
        omega
  · intro x outside
    have here := outside (count / 64) (by omega)
    rw [gridPage_outside]
    · exact grid.rest x fun row below => outside row (by omega)
    · simp only [pageCell, cpos] at here ⊢
      omega

theorem Grid.draw {α : Type} {draw : α → Cells → Except DrawFault Cells} {items : List α}
    (grid : Grid top count color before middle)
    (draws : ∀ i item, items[i]? = some item → ∀ cells,
      draw item cells = .ok (gridPage top (count + i) (color (count + i)) cells)) :
    ∃ after, items.foldlM (fun cells item => draw item cells) middle = .ok after ∧
      Grid top (count + items.length) color before after := by
  induction items generalizing count middle with
  | nil => exact ⟨middle, rfl, grid⟩
  | cons item items ih =>
      have first := draws 0 item rfl middle
      rw [Nat.add_zero] at first
      obtain ⟨after, drawn, rest⟩ := ih grid.page (by
        intro i next here cells
        have later := draws (i + 1) next here cells
        rwa [show count + (i + 1) = count + 1 + i by omega] at later)
      refine ⟨after, ?_, ?_⟩
      · rw [List.foldlM_cons, first, ok_bind]
        exact drawn
      · rwa [List.length_cons, show count + (items.length + 1) = count + 1 + items.length by omega]

end Grids

/-! ## Reading a picture -/

structure PageReading where
  owner : Int
  shared : Bool
  user : Bool
  deriving DecidableEq, Repr

/-- The letters of the owners from `PO_KERNEL` on. -/
def ownerLetters : List (BitVec 16) := memstateColors.map (· &&& 0x00FF#16)

/-- The letter is the owner's, a user's page is in reverse video, and the color of a shared
page is dark.  The gray of reserved and free pages is dark anyway. -/
def readCell (cell : BitVec 16) : Option PageReading := do
  let index ← ownerLetters.idxOf? (cell &&& 0x00FF#16)
  let user : Bool := cell &&& 0xF000#16 ≠ 0#16
  let bright : Bool := cell &&& 0x8800#16 ≠ 0#16
  some ⟨(index : Int) + poKernel, ¬ bright ∧ index ≠ 1 ∧ index ≠ 2, user⟩

def pageShown (info : PhysicalPageinfo) (user : Bool) : PageReading :=
  ⟨if info.refcount = 0 then poFree else info.owner, info.refcount > 1, user⟩

/-- `PTE_U` is among the permissions. -/
def userAccessible (perm : BitVec 32) : Bool := perm &&& pteU.setWidth 32 ≠ 0#32

theorem readCell_colors : ∀ (i : Fin 18) (dark user : Bool),
    (dark = true → i ≠ 1 ∧ i ≠ 2) →
    let color := memstateColors.getD i.val 0#16
    let video := if user then
        ((color &&& 0x0F00#16) <<< 4) ||| ((color &&& 0xF000#16) >>> 4) ||| (color &&& 0x00FF#16)
      else color
    readCell (if dark then video &&& 0x77FF#16 else video) = some ⟨(i.val : Int) - 2, dark, user⟩ := by
  decide

/-- What the kernel knows of a page can be drawn: its owner has a color, and only a page of
the kernel or a process is shared. -/
structure Drawable (info : PhysicalPageinfo) : Prop where
  owner : -2 ≤ info.owner ∧ info.owner < 16
  shared : info.refcount > 1 → info.owner ≠ poReserved ∧ info.owner ≠ poFree

theorem Drawable.reads {info : PhysicalPageinfo} (drawable : Drawable info) :
    ∃ color, memstateColor info = .ok color ∧
      readCell (shade info color) = some (pageShown info false) ∧
      ∀ perm, readCell (shade info (reverseVideo perm color)) =
        some (pageShown info (userAccessible perm)) := by
  have free : poFree = 0 := rfl
  have kernel : poKernel = -2 := rfl
  have reserved : poReserved = -1 := rfl
  have length : memstateColors.length = 18 := rfl
  have range := drawable.owner
  obtain ⟨owner, shown⟩ : ∃ owner, (if info.refcount = 0 then poFree else info.owner) = owner :=
    ⟨_, rfl⟩
  have bounds : -2 ≤ owner ∧ owner < 16 := by
    rw [← shown]
    split <;> omega
  have index : (owner - poKernel).toNat < 18 := by omega
  have drawn : memstateColor info = .ok (memstateColors.getD (owner - poKernel).toNat 0#16) := by
    simp only [memstateColor, shown]
    rw [if_pos (by omega), List.getElem?_eq_getElem (by omega), List.getD_eq_getElem]
  have colored : decide (info.refcount > 1) = true →
      (⟨_, index⟩ : Fin 18) ≠ 1 ∧ (⟨_, index⟩ : Fin 18) ≠ 2 := by
    intro dark
    have many : info.refcount > 1 := of_decide_eq_true dark
    have other := drawable.shared many
    rw [if_neg (by omega)] at shown
    constructor
    · intro same
      have value : (owner - poKernel).toNat = 1 := congrArg Fin.val same
      omega
    · intro same
      have value : (owner - poKernel).toNat = 2 := congrArg Fin.val same
      omega
  have name : (((owner - poKernel).toNat : Nat) : Int) - 2 = owner := by omega
  have read := fun user => readCell_colors ⟨_, index⟩ (decide (info.refcount > 1)) user colored
  simp only [name, decide_eq_true_eq] at read
  refine ⟨_, drawn, ?_, ?_⟩
  · rw [pageShown, shown, ← read false]
    rfl
  · intro perm
    rw [pageShown, shown, ← read (userAccessible perm)]
    simp only [shade, reverseVideo, userAccessible, decide_eq_true_eq]

theorem PageinfoOk.drawable {image : KernelImage} {users : Nat} {active : Pid → Prop}
    {pageinfo : PhysicalPage → PhysicalPageinfo} (ok : PageinfoOk image users active pageinfo)
    (pn : PhysicalPage) : Drawable (pageinfo pn) := by
  refine ⟨ok.owner_range pn, ?_⟩
  intro many
  by_cases kept : initialOwner image (pageAddress pn) = poFree
  · rcases ok.user pn kept with unused | ⟨pid, _, owned⟩
    · rw [unused] at many
      exact absurd many (by decide)
    · rw [owned] at many
      exact absurd many (by simp)
  · have system := ok.system pn kept
    have root : pn = tableNumber image 0 := by
      by_contra other
      rw [system, if_neg other] at many
      exact absurd many (by simp)
    subst root
    rw [ok.root]
    show poKernel ≠ poReserved ∧ poKernel ≠ poFree
    decide

/-! ## The two pictures -/

/-- A picture of `count` pages with a title. -/
structure Picture (title : Nat) (text : List Char) (top count : Nat)
    (shown : Nat → Option PageReading) (cells : Cells) : Prop where
  title : ∀ i, (inside : i < text.length) → cells (title + i) = letter text[i]
  labels : ∀ row, row * 64 < count → ∀ i, (inside : i < (labelText row).length) →
    cells (cpos (top + row) (3 + i)) = letter (labelText row)[i]
  pages : ∀ pn, pn < count → readCell (cells (pageCell top pn)) = shown pn

def Beside (title width top count x : Nat) : Prop :=
  (x < title ∨ title + width ≤ x) ∧
    ∀ row, row * 64 < count → x < cpos (top + row) 3 ∨ cpos (top + row) 76 ≤ x

section Pictures

variable {title top count : Nat} {text : List Char} {color : Nat → BitVec 16}
  {shown : Nat → Option PageReading} {before after : Cells}

theorem Grid.picture
    (grid : Grid top count color (overlay before title (text.map letter)) after)
    (above : title + text.length ≤ cpos top 3) (reads : ∀ pn, pn < count →
      readCell (color pn) = shown pn) :
    Picture title text top count shown after ∧
      ∀ x, Beside title text.length top count x → after x = before x := by
  have width : (text.map letter).length = text.length := List.length_map letter
  refine ⟨⟨?_, grid.labels, ?_⟩, ?_⟩
  · intro i inside
    rw [grid.rest, overlay_inside (by omega), List.getElem_map]
    intro row _
    simp only [cpos] at above ⊢
    omega
  · intro pn below
    rw [grid.pages pn below, reads pn below]
  · rintro x ⟨untitled, below⟩
    rw [grid.rest x below, overlay_outside (by omega)]

/-- A picture stays where nothing is drawn behind its title and its rows. -/
theorem Picture.congr (picture : Picture title text top count shown before)
    (above : title + text.length ≤ cpos top 0)
    (same : ∀ x, x < cpos (top + (count + 63) / 64) 0 → after x = before x) :
    Picture title text top count shown after := by
  constructor
  · intro i inside
    rw [same, picture.title i inside]
    simp only [cpos] at above ⊢
    omega
  · intro row below i inside
    have width := labelText_length row
    rw [same, picture.labels row below i inside]
    simp only [cpos]
    omega
  · intro pn below
    rw [same, picture.pages pn below]
    simp only [pageCell, cpos]
    omega

end Pictures

def physicalTitle : List Char := "PHYSICAL MEMORY".toList

theorem scanPrintf_physicalTitle :
    scanPrintf 0x0F00 physicalTitle [] = .ok (physicalTitle.map (·, 0x0F00), ⟨[], []⟩) := rfl

def physicalShown (state : KernelState) (pn : Nat) : Option PageReading :=
  some (pageShown (state.pageinfo (Fin.ofNat nPages pn)) false)

def virtualShown (state : KernelState) (pagetable : UIntPtr) (pn : Nat) : Option PageReading :=
  let vam := virtualMemoryLookup state.memory pagetable (BitVec.ofNat 64 (4096 * pn))
  match pageinfoIndex vam.pn with
  | .ok page => some (pageShown (state.pageinfo page) (userAccessible vam.perm))
  | .error _ => none

section Draws

variable {image : KernelImage} {state : KernelState}

theorem finRange_getElem {n i : Nat} {pn : Fin n} (here : (List.finRange n)[i]? = some pn) :
    pn.val = i := by
  obtain ⟨inside, rfl⟩ := List.getElem?_eq_some_iff.mp here
  simp

theorem printAt_label {row top : Nat} (below : row < 12) (onScreen : top + row < 25)
    (cells : Cells) :
    printAt (top + row) 3 addressFormat [.word (BitVec.ofNat 64 (row * 0x40000))] cells =
      .ok (overlay cells (cpos (top + row) 3) ((labelText row).map letter)) := by
  have width := labelText_length row
  have size : consoleSize = 2000 := rfl
  apply printAt_text (scanPrintf_label ⟨row, below⟩) (labelText_plain ⟨row, below⟩)
  · simp only [cpos]
    omega
  · simp only [cpos]
    omega

/-- An iteration that prints the address at the beginning of a row and stores one cell. -/
theorem gridPage_drawn {top pn : Nat} {va : BitVec 64} {color : BitVec 16} (below : pn < 768)
    (onScreen : top ≤ 11) (address : va.toNat = 4096 * pn) (cells : Cells) :
    (do let cells ←
          if pn % 64 = 0 then printAt (top + pn / 64) 3 addressFormat [.word va] cells
          else .ok cells
        setCell (top + pn / 64) (12 + pn % 64) color cells) =
      .ok (gridPage top pn color cells) := by
  have size : consoleSize = 2000 := rfl
  have inside : cpos (top + pn / 64) (12 + pn % 64) < consoleSize := by
    simp only [cpos]
    omega
  have stored : ∀ cells, setCell (top + pn / 64) (12 + pn % 64) color cells =
      .ok (Function.update cells (pageCell top pn) color) := fun _ => if_pos inside
  by_cases first : pn % 64 = 0
  · have word : va = BitVec.ofNat 64 (pn / 64 * 0x40000) := by
      apply BitVec.eq_of_toNat_eq
      rw [address, BitVec.toNat_ofNat]
      omega
    rw [if_pos first, word, printAt_label (by omega) (by omega), ok_bind]
    simp only [gridPage]
    rw [if_pos first]
    exact stored _
  · rw [if_neg first, ok_bind]
    simp only [gridPage]
    rw [if_neg first]
    exact stored _

theorem drawPhysical_draws (drawable : ∀ pn, Drawable (state.pageinfo pn)) (cells : Cells) :
    ∃ after, drawPhysical state cells = .ok after ∧
      Picture (cpos 0 32) physicalTitle 1 512 (physicalShown state) after ∧
      ∀ x, Beside (cpos 0 32) physicalTitle.length 1 512 x → after x = cells x := by
  choose color drawn reads _ using fun pn => (drawable pn).reads
  have titled : printAt 0 32 "PHYSICAL MEMORY".toList [] cells =
      .ok (overlay cells (cpos 0 32) (physicalTitle.map letter)) :=
    printAt_text scanPrintf_physicalTitle (by decide) (by decide) (by decide)
  obtain ⟨paint, painted⟩ : ∃ paint : Nat → BitVec 16, ∀ pn : PhysicalPage,
      paint pn.val = shade (state.pageinfo pn) (color pn) := by
    refine ⟨fun i => shade (state.pageinfo (Fin.ofNat nPages i)) (color (Fin.ofNat nPages i)), ?_⟩
    intro pn
    have same : Fin.ofNat nPages pn.val = pn := Fin.ext (Nat.mod_eq_of_lt pn.isLt)
    simp only [same]
  have draws : ∀ i pn, (List.finRange nPages)[i]? = some pn → ∀ cells,
      drawPhysicalPage state pn cells = .ok (gridPage 1 (0 + i) (paint (0 + i)) cells) := by
    intro i pn here cells
    have below : pn.val < 512 := pn.isLt
    have address : (BitVec.ofNat 64 (pn.val <<< 12)).toNat = 4096 * pn.val := by
      rw [BitVec.toNat_ofNat, Nat.shiftLeft_eq]
      omega
    rw [Nat.zero_add, ← finRange_getElem here, painted]
    unfold drawPhysicalPage
    rw [drawn]
    exact gridPage_drawn (by omega) (by omega) address cells
  obtain ⟨after, looped, grid⟩ := Grid.none.draw draws
  rw [Nat.zero_add, List.length_finRange] at grid
  refine ⟨after, ?_, grid.picture (by decide) ?_⟩
  · rw [drawPhysical, titled, ok_bind]
    exact looped
  · intro pn below
    have here := painted (Fin.ofNat nPages pn)
    rw [Fin.val_ofNat, Nat.mod_eq_of_lt below] at here
    rw [here, reads]
    rfl

theorem pagesBelow_getElem {limit i : Nat} {va : UIntPtr}
    (here : (pagesBelow 0 limit)[i]? = some va) : va = BitVec.ofNat 64 (4096 * i) := by
  obtain ⟨inside, rfl⟩ := List.getElem?_eq_some_iff.mp here
  simp [pagesBelow]

theorem virtualColor_reads (tables : KernelTables image state.memory)
    (drawable : ∀ pn, Drawable (state.pageinfo pn)) {pn : Nat} (below : pn < 768) :
    ∃ color, virtualColor state image.kernelPagetable (BitVec.ofNat 64 (4096 * pn)) = .ok color ∧
      readCell color = virtualShown state image.kernelPagetable pn := by
  have member : BitVec.ofNat 64 (4096 * pn) ∈ pagesBelow 0 memsizeVirtual.toNat := by
    rw [pagesBelow, List.mem_map]
    refine ⟨pn, List.mem_range.mpr below, ?_⟩
    rw [Nat.zero_add]
  rcases lookup_displayed tables member with unmapped | ⟨page, bound, mapped, inside⟩
  · refine ⟨0x0020#16, if_pos unmapped, ?_⟩
    have none : pageinfoIndex (virtualMemoryLookup state.memory image.kernelPagetable
        (BitVec.ofNat 64 (4096 * pn))).pn = .error .outOfBounds := by
      rw [pageinfoIndex, dif_neg]
      omega
    simp only [virtualShown]
    rw [none]
    rfl
  · obtain ⟨color, drawn, _, reads⟩ := (drawable ⟨page, bound⟩).reads
    have positive : ¬ ((page : Int) < 0) := by omega
    refine ⟨shade (state.pageinfo ⟨page, bound⟩) (reverseVideo 7#32 color), ?_, ?_⟩
    · simp only [virtualColor, mapped, if_neg positive, assert_pos inside, ok_bind,
        pageinfoIndex_val bound, drawn]
    · simp only [virtualShown, mapped, pageinfoIndex_val bound]
      exact reads 7#32

theorem drawVirtual_draws (tables : KernelTables image state.memory)
    (drawable : ∀ pn, Drawable (state.pageinfo pn)) (pid : Pid) (cells : Cells) :
    ∃ after, drawVirtual state image.kernelPagetable (processName pid) cells = .ok after ∧
      Picture (cpos 10 26) (virtualTitle (processName pid)) 11 768
        (virtualShown state image.kernelPagetable) after ∧
      ∀ x, Beside (cpos 10 26) (virtualTitle (processName pid)).length 11 768 x →
        after x = cells x := by
  have aligned := (pteAddr_of_aligned image.tablesAligned).symm
  obtain ⟨short, plain⟩ := processName_fits pid
  have width := virtualTitle_length (processName pid)
  have place : cpos 10 26 = 826 := rfl
  have rows : cpos 11 3 = 883 := rfl
  have size : consoleSize = 2000 := rfl
  have titled : printAt 10 26 "VIRTUAL ADDRESS SPACE FOR %s".toList [.string (processName pid)]
      cells = .ok (overlay cells (cpos 10 26) ((virtualTitle (processName pid)).map letter)) :=
    printAt_text (scanPrintf_virtualTitle _) plain (by omega) (by omega)
  choose color drawn reads using fun pn : Fin 768 =>
    virtualColor_reads tables drawable pn.isLt
  obtain ⟨paint, painted⟩ : ∃ paint : Nat → BitVec 16, ∀ pn : Fin 768, paint pn.val = color pn := by
    refine ⟨fun i => color (Fin.ofNat 768 i), ?_⟩
    intro pn
    exact congrArg color (Fin.ext (Nat.mod_eq_of_lt pn.isLt))
  have number : (pagesBelow 0 memsizeVirtual.toNat).length = 768 := by
    rw [pagesBelow, List.length_map, List.length_range]
    rfl
  have draws : ∀ i va, (pagesBelow 0 memsizeVirtual.toNat)[i]? = some va → ∀ cells,
      drawVirtualPage state image.kernelPagetable va cells =
        .ok (gridPage 11 (0 + i) (paint (0 + i)) cells) := by
    intro i va here cells
    have below : i < 768 := by
      obtain ⟨inside, _⟩ := List.getElem?_eq_some_iff.mp here
      omega
    have address : va.toNat = 4096 * i := by
      rw [pagesBelow_getElem here, BitVec.toNat_ofNat]
      omega
    have page : (va >>> 12).toNat = i := by
      rw [BitVec.toNat_ushiftRight, address, Nat.shiftRight_eq_div_pow]
      omega
    have computed := drawn ⟨i, below⟩
    rw [← pagesBelow_getElem here] at computed
    rw [Nat.zero_add, painted ⟨i, below⟩]
    simp only [drawVirtualPage, computed, page]
    exact gridPage_drawn below (by omega) address cells
  obtain ⟨after, looped, grid⟩ := Grid.none.draw draws
  rw [Nat.zero_add, number] at grid
  refine ⟨after, ?_, grid.picture (by omega) ?_⟩
  · rw [drawVirtual, assert_pos aligned, ofKernel, ok_bind, titled, ok_bind]
    exact looped
  · intro pn below
    rw [painted ⟨pn, below⟩, reads]

end Draws

end OsLabs.Weensy
