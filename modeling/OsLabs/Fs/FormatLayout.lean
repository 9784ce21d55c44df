import OsLabs.Fs.FormatFiles

/-!
# Decoding the block map of a new inode

`slotOf` reads the block pointers of an inode by the documented layout: direct slots,
the indirect block, the tables of the double-indirect block.  After `finishinode` it
gives back the consecutive data blocks of the file and nothing behind them, on whatever
image the inode and the free blocks are zero.
-/

set_option autoImplicit false

namespace OsLabs.Fs

open OsLabs.ByteMemory OsLabs.ExceptRules

/-- Entry `k` of the word array at `table`. -/
def wordAt (map : Memory) (table k : Nat) : Nat := loadLE map (table + 4 * k) 4

/-- The number in the slot of file block `filebno`, if the tables on the way exist. -/
def slotOf (map : Memory) (inode filebno : Nat) : Option Nat :=
  if filebno < nDirect then some (wordAt map (inode + iDirect) filebno)
  else if filebno < nDirect + nIndirect then
    let ind := wordAt map (inode + iIndirect) 0
    if ind = 0 then none else some (wordAt map (blkSize * ind) (filebno - nDirect))
  else if filebno < nDirect + nIndirect + nDouble then
    let inind := wordAt map (inode + iDouble) 0
    if inind = 0 then none
    else
      let ind := wordAt map (blkSize * inind) ((filebno - nDirect - nIndirect) / nIndirect)
      if ind = 0 then none
      else some (wordAt map (blkSize * ind) ((filebno - nDirect - nIndirect) % nIndirect))
  else none

/-- What the slot of block `k` should hold. -/
def fileEntry (start blocks k : Nat) : Nat := if k < blocks then start + k else 0

section Words

variable {before after : Memory} {table k : Nat}

theorem wordAt_congr (same : AgreeOn before after (table + 4 * k) 4) :
    wordAt after table k = wordAt before table k := loadLE_congr same

theorem wordAt_zero {map : Memory} (zero : ∀ x, table + 4 * k ≤ x →
    x < table + 4 * k + 4 → map x = 0) : wordAt map table k = 0 := by
  have first := zero (table + 4 * k) (by omega) (by omega)
  have second := zero (table + 4 * k + 1) (by omega) (by omega)
  have third := zero (table + 4 * k + 1 + 1) (by omega) (by omega)
  have fourth := zero (table + 4 * k + 1 + 1 + 1) (by omega) (by omega)
  simp [wordAt, loadLE, first, second, third, fourth]

theorem wordAt_store {map : Memory} {value : Nat} (small : value < 2 ^ 32) :
    wordAt (storeLE map (table + 4 * k) 4 value) table k = value := by
  rw [wordAt, loadLE_storeLE]
  omega

theorem wordAt_store_first {map : Memory} {value : Nat} (small : value < 2 ^ 32) :
    wordAt (storeLE map table 4 value) table 0 = value := by
  rw [wordAt, Nat.mul_zero, Nat.add_zero, loadLE_storeLE]
  omega

end Words

/-! ## One table -/

section Table

variable {table base start blocks togo i width : Nat} {map : Memory}

theorem fillTable_frame (within : i < blocks → base ≤ i ∧ i + togo ≤ base + width)
    {x : Nat} (outside : x < table ∨ table + 4 * width ≤ x) :
    (fillTable table base start blocks togo i map).2 x = map x := by
  induction togo generalizing i map with
  | zero => rfl
  | succ togo ih =>
      rw [fillTable]
      by_cases more : i < blocks
      · have range := within more
        rw [if_pos more, ih (fun _ => by omega), storeLE_outside (by omega)]
      · rw [if_neg more]

theorem fillTable_word (within : i < blocks → base ≤ i) (small : start + blocks ≤ 2 ^ 32)
    (k : Nat) :
    wordAt (fillTable table base start blocks togo i map).2 table k =
      if i ≤ base + k ∧ base + k < i + togo ∧ base + k < blocks then start + (base + k)
      else wordAt map table k := by
  induction togo generalizing i map with
  | zero =>
      have empty : ¬ (i ≤ base + k ∧ base + k < i + 0 ∧ base + k < blocks) := by omega
      rw [if_neg empty, fillTable]
  | succ togo ih =>
      rw [fillTable]
      by_cases more : i < blocks
      · have lower := within more
        have number : (start + i) % 2 ^ 32 = start + i := by omega
        rw [if_pos more, ih (fun _ => by omega), number]
        by_cases here : base + k = i
        · have place : i - base = k := by omega
          have now : i ≤ base + k ∧ base + k < i + (togo + 1) ∧ base + k < blocks := by omega
          have notLater : ¬ (i + 1 ≤ base + k ∧ base + k < i + 1 + togo ∧
              base + k < blocks) := by omega
          rw [if_pos now, if_neg notLater, place, wordAt_store (by omega), here]
        · have apart : wordAt (storeLE map (table + 4 * (i - base)) 4 (start + i)) table k =
              wordAt map table k := by
            apply wordAt_congr
            apply storeLE_frame
            omega
          rw [apart]
          congr 1
          apply propext
          omega
      · have finished : ¬ (i ≤ base + k ∧ base + k < i + (togo + 1) ∧ base + k < blocks) := by
          omega
        rw [if_neg more, if_neg finished]

/-- A zeroed table, filled as far as the file goes: the loop starts with the table, or
the file has ended before it. -/
theorem fillTable_entries (position : i = base ∨ blocks ≤ i ∧ blocks ≤ base)
    (small : start + blocks ≤ 2 ^ 32) (reach : i + togo = base + width)
    (zero : ∀ x, table ≤ x → x < table + 4 * width → map x = 0) {k : Nat}
    (inside : k < width) :
    wordAt (fillTable table base start blocks togo i map).2 table k =
      fileEntry start blocks (base + k) := by
  have empty : wordAt map table k = 0 := by
    apply wordAt_zero
    intro x lower upper
    exact zero x (by omega) (by omega)
  rw [fillTable_word (by omega) small, empty, fileEntry]
  congr 1
  apply propext
  omega

end Table

/-! ## The tables of the double-indirect block -/

theorem alloc_block {use : Use} {disk after : Disk} {place : Nat}
    (inside : disk.pos ≤ disk.nblocks * 4096) (image : disk.pos < 2 ^ 43)
    (run : alloc use blkSize disk = .ok (place, after)) :
    place = disk.pos ∧ after.map = disk.map ∧ after.nblocks = disk.nblocks ∧
      after.pos = disk.pos + 4096 ∧ after.pos ≤ after.nblocks * 4096 := by
  have size : roundUp (blkSize % 2 ^ 32) = 4096 := rfl
  rw [alloc_eq_ok, size] at run
  obtain ⟨room, rfl, rfl⟩ := run
  simp only [blockof, blkSize] at room
  refine ⟨rfl, rfl, rfl, rfl, ?_⟩
  simp only
  omega

theorem blockof_aligned {pos : Nat} (aligned : pos % 4096 = 0) (small : pos < 2 ^ 44) :
    blkSize * blockof pos = pos := by
  simp only [blockof, blkSize]
  omega

/-- A new table at `pos`, linked from `slot` and filled. -/
structure TableMade (slot pos base start blocks : Nat) (before after : Memory) : Prop where
  frame : ∀ x, x < slot ∨ slot + 4 ≤ x → x < pos ∨ pos + 4096 ≤ x → after x = before x
  link : blkSize * loadLE after slot 4 = pos
  entries : ∀ k, k < 1024 → wordAt after pos k = fileEntry start blocks (base + k)

theorem tableMade {slot pos base start blocks togo i : Nat} {map : Memory}
    (aligned : pos % 4096 = 0) (image : pos < 2 ^ 43) (below : slot + 4 ≤ pos)
    (position : i = base ∨ blocks ≤ i ∧ blocks ≤ base) (small : start + blocks ≤ 2 ^ 32)
    (reach : i + togo = base + 1024)
    (zero : ∀ x, pos ≤ x → x < pos + 4096 → map x = 0) :
    TableMade slot pos base start blocks map
      (fillTable pos base start blocks togo i (storeLE map slot 4 (blockof pos))).2 := by
  have number := blockof_aligned aligned (by omega)
  simp only [blkSize] at number
  refine ⟨?_, ?_, ?_⟩
  · intro x elsewhere outside
    rw [fillTable_frame (by omega : i < blocks → base ≤ i ∧ i + togo ≤ base + 1024)
      (by omega), storeLE_outside elsewhere]
  · have kept : AgreeOn (storeLE map slot 4 (blockof pos))
        (fillTable pos base start blocks togo i (storeLE map slot 4 (blockof pos))).2
        slot 4 := by
      intro x lower upper
      exact fillTable_frame (by omega : i < blocks → base ≤ i ∧ i + togo ≤ base + 1024)
        (by omega)
    rw [loadLE_congr kept, loadLE_storeLE]
    simp only [blkSize]
    omega
  · intro k inside
    apply fillTable_entries position small reach _ inside
    intro x lower upper
    rw [storeLE_outside (by omega)]
    exact zero x lower (by omega)

/-- What the loop over the tables leaves, when it starts at entry `j`. -/
structure DoubleFilled (inind start blocks j togo : Nat) (before after : Disk) : Prop where
  pos : after.pos = before.pos + 4096 * togo
  inside : after.pos ≤ before.nblocks * 4096
  frame : ∀ x, x < inind + 4 * j ∨ inind + 4096 ≤ x → x < before.pos ∨ after.pos ≤ x →
    after.map x = before.map x
  tables : ∀ t, t < togo →
    blkSize * wordAt after.map inind (j + t) = before.pos + 4096 * t
  entries : ∀ t k, t < togo → k < 1024 →
    wordAt after.map (before.pos + 4096 * t) k =
      fileEntry start blocks (1034 + (j + t) * 1024 + k)

/-- A table made for entry `j` in front of those that the rest of the loop makes. -/
theorem DoubleFilled.cons {inind start blocks j togo : Nat} {disk made after : Disk}
    {looped : Memory} (room : inind + 4 * j + 4 ≤ disk.pos) (below : inind + 4096 ≤ disk.pos)
    (small : j < 1024) (madePos : made.pos = disk.pos + 4096)
    (madeBlocks : made.nblocks = disk.nblocks)
    (table : TableMade (inind + 4 * j) disk.pos (1034 + j * 1024) start blocks disk.map looped)
    (rest : DoubleFilled inind start blocks (j + 1) togo { made with map := looped } after) :
    DoubleFilled inind start blocks j (togo + 1) disk after := by
  obtain ⟨frame, link, entries⟩ := table
  have restPos : after.pos = made.pos + 4096 * togo := rest.pos
  have restFrame : ∀ x, x < inind + 4 * (j + 1) ∨ inind + 4096 ≤ x →
      x < made.pos ∨ after.pos ≤ x → after.map x = looped x := rest.frame
  refine ⟨by omega, madeBlocks ▸ rest.inside, ?_, ?_, ?_⟩
  · intro x elsewhere outside
    rw [restFrame x (by omega) (by omega)]
    exact frame x (by omega) (by omega)
  · intro t inRange
    cases t with
    | zero =>
        have kept : wordAt after.map inind j = wordAt looped inind j := by
          apply wordAt_congr
          intro x lower upper
          exact restFrame x (by omega) (by omega)
        rw [Nat.add_zero, kept]
        exact link
    | succ t =>
        have later := rest.tables t (by omega)
        simp only at later
        rw [show j + (t + 1) = j + 1 + t by omega, later]
        omega
  · intro t k inRange inside
    cases t with
    | zero =>
        have kept : wordAt after.map disk.pos k = wordAt looped disk.pos k := by
          apply wordAt_congr
          intro x lower upper
          exact restFrame x (by omega) (by omega)
        rw [Nat.mul_zero, Nat.add_zero, kept, entries k inside, Nat.add_zero]
    | succ t =>
        have later := rest.entries t k (by omega) inside
        simp only at later
        rw [show disk.pos + 4096 * (t + 1) = made.pos + 4096 * t by omega, later,
          show j + (t + 1) = j + 1 + t by omega]

theorem fillDouble_filled {inind start blocks togo j i : Nat} {disk after : Disk}
    (run : fillDouble inind start blocks togo j i disk = .ok after)
    (whole : j + togo = 1024) (image : disk.pos + 4096 * togo < 2 ^ 43)
    (inside : disk.pos ≤ disk.nblocks * 4096) (aligned : disk.pos % 4096 = 0)
    (below : inind + 4096 ≤ disk.pos) (small : start + blocks ≤ 2 ^ 32) (upto : i ≤ blocks)
    (position : i = 1034 + j * 1024 ∨ i = blocks ∧ blocks ≤ 1034 + j * 1024)
    (zero : ∀ x, disk.pos ≤ x → x < disk.nblocks * 4096 → disk.map x = 0) :
    DoubleFilled inind start blocks j togo disk after := by
  induction togo generalizing j i disk with
  | zero =>
      cases run
      refine ⟨rfl, inside, fun _ _ _ => rfl, ?_, ?_⟩
      · intro t none
        omega
      · intro t k none
        omega
  | succ togo ih =>
      rw [fillDouble] at run
      obtain ⟨⟨ind, made⟩, given, run⟩ := bind_eq_ok.mp run
      obtain ⟨rfl, madeMap, madeBlocks, madePos, madeInside⟩ := alloc_block inside (by omega) given
      have limit : nDirect + nIndirect + (j + 1) * nIndirect =
          1034 + j * 1024 + 1024 := by
        simp only [nDirect, nIndirect, blkSize]
        omega
      have first : nDirect + nIndirect + j * nIndirect = 1034 + j * 1024 := by
        simp only [nDirect, nIndirect, blkSize]
      obtain ⟨base, baseDef⟩ : ∃ base, 1034 + j * 1024 = base := ⟨_, rfl⟩
      rw [baseDef] at position limit first
      simp only [limit, first, madeMap] at run
      clear limit first
      have room : inind + 4 * j + 4 ≤ disk.pos := by omega
      have place : i = base ∨ blocks ≤ i ∧ blocks ≤ base := by omega
      have reach : i + (base + 1024 - i) = base + 1024 := by omega
      have table := tableMade aligned (by omega) room place small reach
        (fun x lower upper => zero x lower (by omega))
      have reached := fillTable_index disk.pos base start (base + 1024 - i)
        (storeLE disk.map (inind + 4 * j) 4 (blockof disk.pos)) (by omega : i ≤ blocks)
      generalize fillTable disk.pos base start blocks (base + 1024 - i) i
        (storeLE disk.map (inind + 4 * j) 4 (blockof disk.pos)) = looped at *
      have nextZero : ∀ x, made.pos ≤ x → x < made.nblocks * 4096 → looped.2 x = 0 := by
        intro x lower upper
        rw [table.frame x (by omega) (by omega)]
        rw [madeBlocks] at upper
        exact zero x (by omega) upper
      have nextPosition : looped.1 = 1034 + (j + 1) * 1024 ∨
          looped.1 = blocks ∧ blocks ≤ 1034 + (j + 1) * 1024 := by omega
      have rest := ih run (by omega) (show made.pos + 4096 * togo < 2 ^ 43 by omega) madeInside
        (show made.pos % 4096 = 0 by omega) (show inind + 4096 ≤ made.pos by omega)
        (by omega) nextPosition nextZero
      rw [← baseDef] at table
      exact .cons room below (by omega) madePos madeBlocks table rest

/-! ## The inode -/

structure DirectMade (inode start blocks len : Nat) (map : Memory) : Prop where
  size : loadLE map (inode + iSize) 4 = len
  entries : ∀ k, k < 10 → wordAt map (inode + iDirect) k = fileEntry start blocks k

/-- The indirect block, at `pos`. -/
structure IndirectMade (inode pos start blocks : Nat) (map : Memory) : Prop where
  link : blkSize * wordAt map (inode + iIndirect) 0 = pos
  entries : ∀ k, k < 1024 → wordAt map pos k = fileEntry start blocks (10 + k)

/-- The double-indirect block, at `pos`, with its tables behind it. -/
structure DoubleMade (inode pos start blocks : Nat) (map : Memory) : Prop where
  link : blkSize * wordAt map (inode + iDouble) 0 = pos
  tables : ∀ j, j < 1024 → blkSize * wordAt map pos j = pos + 4096 * (j + 1)
  entries : ∀ j k, j < 1024 → k < 1024 →
    wordAt map (pos + 4096 * (j + 1)) k = fileEntry start blocks (1034 + j * 1024 + k)

section Inode

variable {inode pos start blocks len : Nat} {before after : Memory}

theorem DirectMade.congr (made : DirectMade inode start blocks len before)
    (same : AgreeOn before after (inode + iSize) 44) :
    DirectMade inode start blocks len after := by
  refine ⟨?_, ?_⟩
  · rw [loadLE_congr (same.mono (Nat.le_refl _) (by omega))]
    exact made.size
  · intro k inside
    have offsets : inode + iDirect = inode + iSize + 4 := rfl
    rw [wordAt_congr (same.mono (by omega) (by omega))]
    exact made.entries k inside

theorem IndirectMade.congr (made : IndirectMade inode pos start blocks before)
    (sameInode : AgreeOn before after (inode + iIndirect) 4)
    (sameTable : AgreeOn before after pos 4096) :
    IndirectMade inode pos start blocks after := by
  refine ⟨?_, ?_⟩
  · rw [wordAt_congr (sameInode.mono (Nat.le_add_right _ _) (by omega))]
    exact made.link
  · intro k inside
    rw [wordAt_congr (sameTable.mono (by omega) (by omega))]
    exact made.entries k inside

/-! ### Reading the slots -/

theorem DirectMade.slot (made : DirectMade inode start blocks len after) {k : Nat}
    (inside : k < 10) : slotOf after inode k = some (fileEntry start blocks k) := by
  rw [slotOf, if_pos inside, made.entries k inside]

theorem IndirectMade.slot (made : IndirectMade inode pos start blocks after)
    (positive : 0 < pos) {k : Nat} (lower : 10 ≤ k) (upper : k < 1034) :
    slotOf after inode k = some (fileEntry start blocks k) := by
  have notDirect : ¬ k < nDirect := by
    simp only [nDirect]
    omega
  have present : wordAt after (inode + iIndirect) 0 ≠ 0 := by
    intro absent
    have link := made.link
    rw [absent] at link
    omega
  have entry := made.entries (k - 10) (by omega)
  rw [Nat.add_sub_cancel' lower] at entry
  rw [slotOf, if_neg notDirect, if_pos (show k < nDirect + nIndirect from upper)]
  simp only [if_neg present, made.link]
  exact congrArg some entry

theorem DoubleMade.slot (made : DoubleMade inode pos start blocks after)
    (positive : 0 < pos) {k : Nat} (lower : 1034 ≤ k) (upper : k < 1034 + 1024 * 1024) :
    slotOf after inode k = some (fileEntry start blocks k) := by
  have notDirect : ¬ k < nDirect := by
    simp only [nDirect]
    omega
  have notIndirect : ¬ k < nDirect + nIndirect := by
    simp only [nDirect, nIndirect, blkSize]
    omega
  have present : wordAt after (inode + iDouble) 0 ≠ 0 := by
    intro absent
    have link := made.link
    rw [absent] at link
    omega
  have table := made.tables ((k - 10 - 1024) / 1024) (by omega)
  have tablePresent : wordAt after pos ((k - 10 - 1024) / 1024) ≠ 0 := by
    intro absent
    rw [absent] at table
    omega
  have entry := made.entries ((k - 10 - 1024) / 1024) ((k - 10 - 1024) % 1024) (by omega)
    (by omega)
  have place : 1034 + (k - 10 - 1024) / 1024 * 1024 + (k - 10 - 1024) % 1024 = k := by
    omega
  rw [place] at entry
  rw [slotOf, if_neg notDirect, if_neg notIndirect,
    if_pos (show k < nDirect + nIndirect + nDouble from upper)]
  simp only [if_neg present, made.link, nDirect, nIndirect, blkSize, Nat.reduceDiv]
  simp only [blkSize] at table
  rw [if_neg tablePresent, table]
  exact congrArg some entry

theorem slotOf_no_indirect (absent : wordAt after (inode + iIndirect) 0 = 0) {k : Nat}
    (lower : 10 ≤ k) (upper : k < 1034) : slotOf after inode k = none := by
  have notDirect : ¬ k < nDirect := by
    simp only [nDirect]
    omega
  rw [slotOf, if_neg notDirect, if_pos (show k < nDirect + nIndirect from upper)]
  simp only [absent, if_true]

theorem slotOf_no_double (absent : wordAt after (inode + iDouble) 0 = 0) {k : Nat}
    (lower : 1034 ≤ k) : slotOf after inode k = none := by
  have notDirect : ¬ k < nDirect := by
    simp only [nDirect]
    omega
  have notIndirect : ¬ k < nDirect + nIndirect := by
    simp only [nDirect, nIndirect, blkSize]
    omega
  rw [slotOf, if_neg notDirect, if_neg notIndirect]
  simp only [absent, if_true, ite_self]

/-! ### finishinode -/

theorem directMade {map : Memory} (small : start + blocks ≤ 2 ^ 32) (word : len < 2 ^ 32)
    (zero : ∀ x, inode + iDirect ≤ x → x < inode + iIndirect → map x = 0) :
    DirectMade inode start blocks len
      (fillTable (inode + iDirect) 0 start blocks nDirect 0
        (storeLE map (inode + iSize) 4 len)).2 := by
  have begins : 0 = 0 ∨ blocks ≤ 0 ∧ blocks ≤ 0 := Or.inl rfl
  refine ⟨?_, ?_⟩
  · have kept : AgreeOn (storeLE map (inode + iSize) 4 len)
        (fillTable (inode + iDirect) 0 start blocks nDirect 0
          (storeLE map (inode + iSize) 4 len)).2 (inode + iSize) 4 := by
      intro x lower upper
      simp only [iSize] at lower upper
      exact fillTable_frame (fun _ => ⟨Nat.le_refl _, Nat.le_refl _⟩)
        (by simp only [iDirect]; omega)
    rw [loadLE_congr kept, loadLE_storeLE]
    omega
  · intro k inside
    have slots : ∀ x, inode + iDirect ≤ x → x < inode + iDirect + 4 * nDirect →
        storeLE map (inode + iSize) 4 len x = 0 := by
      intro x lower upper
      simp only [iDirect, iIndirect, nDirect] at lower upper zero
      rw [storeLE_outside (by simp only [iSize]; omega)]
      exact zero x lower (by omega)
    have entry := fillTable_entries begins small rfl slots inside
    rw [Nat.zero_add] at entry
    exact entry

/-- An image with a new inode: the inode's slots and the blocks that are still to be
given out are zero. -/
structure FreshInode (disk : Disk) (inode : Nat) : Prop where
  aligned : disk.pos % 4096 = 0
  inside : disk.pos ≤ disk.nblocks * 4096
  below : inode + blkSize ≤ disk.pos
  slots : ∀ x, inode + iDirect ≤ x → x < inode + iDouble + 4 → disk.map x = 0
  free : ∀ x, disk.pos ≤ x → x < disk.nblocks * 4096 → disk.map x = 0

/-- What `finishinode` owes a file of `blocks` blocks from `start` on. -/
structure InodeFinished (inode start blocks len : Nat) (before after : Disk) : Prop where
  size : loadLE after.map (inode + iSize) 4 = len
  file : ∀ k, k < blocks → slotOf after.map inode k = some (start + k)
  behind : ∀ k, blocks ≤ k → k < nDirect + nIndirect + nDouble →
    slotOf after.map inode k = none ∨ slotOf after.map inode k = some 0
  kept : ∀ x, x < inode ∨ inode + blkSize ≤ x → x < before.pos ∨ after.pos ≤ x →
    after.map x = before.map x

theorem fileEntry_file {k : Nat} (inside : k < blocks) :
    fileEntry start blocks k = start + k := if_pos inside

theorem fileEntry_behind {k : Nat} (outside : blocks ≤ k) :
    fileEntry start blocks k = 0 := if_neg (by omega)

/-- Slots that hold the entries of the file, and are missing only behind it. -/
theorem inodeFinished_of_slots {disk last : Disk}
    (size : loadLE last.map (inode + iSize) 4 = len)
    (slots : ∀ k, k < nDirect + nIndirect + nDouble →
      slotOf last.map inode k = some (fileEntry start blocks k) ∨
        blocks ≤ k ∧ slotOf last.map inode k = none)
    (bound : blocks ≤ nDirect + nIndirect + nDouble)
    (kept : ∀ x, x < inode ∨ inode + blkSize ≤ x → x < disk.pos ∨ last.pos ≤ x →
      last.map x = disk.map x) :
    InodeFinished inode start blocks len disk last := by
  refine ⟨size, ?_, ?_, kept⟩
  · intro k inside
    rcases slots k (by omega) with entry | ⟨behind, _⟩
    · rw [entry, fileEntry_file inside]
    · omega
  · intro k outside upper
    rcases slots k upper with entry | ⟨_, missing⟩
    · exact Or.inr (by rw [entry, fileEntry_behind outside])
    · exact Or.inl missing

theorem doubleMade {disk made last : Disk} {inind : Nat}
    (given : alloc .double blkSize disk = .ok (inind, made))
    (run : fillDouble inind start blocks nIndirect 0 1034
      { made with map := storeLE made.map (inode + iDouble) 4 (blockof inind) } = .ok last)
    (image : disk.pos + 4096 * 1025 < 2 ^ 43) (inside : disk.pos ≤ disk.nblocks * 4096)
    (aligned : disk.pos % 4096 = 0) (below : inode + blkSize ≤ disk.pos)
    (small : start + blocks ≤ 2 ^ 32) (full : 1034 ≤ blocks)
    (zero : ∀ x, disk.pos ≤ x → x < disk.nblocks * 4096 → disk.map x = 0) :
    DoubleMade inode disk.pos start blocks last.map ∧ disk.pos ≤ last.pos ∧
      ∀ x, x < inode + iDouble ∨ inode + iDouble + 4 ≤ x → x < disk.pos ∨ last.pos ≤ x →
        last.map x = disk.map x := by
  obtain ⟨rfl, madeMap, madeBlocks, madePos, madeInside⟩ := alloc_block inside (by omega) given
  have slot : inode + iDouble + 4 ≤ disk.pos := by
    simp only [iDouble, blkSize] at below ⊢
    omega
  have number := blockof_aligned aligned (by omega)
  rw [madeMap] at run
  have nextZero : ∀ x, made.pos ≤ x → x < made.nblocks * 4096 →
      storeLE disk.map (inode + iDouble) 4 (blockof disk.pos) x = 0 := by
    intro x lower upper
    rw [madeBlocks] at upper
    rw [storeLE_outside (by omega)]
    exact zero x (by omega) upper
  have filled := fillDouble_filled run rfl (show made.pos + 4096 * 1024 < 2 ^ 43 by omega)
    madeInside
    (show made.pos % 4096 = 0 by omega) (show disk.pos + 4096 ≤ made.pos by omega) small
    full (Or.inl rfl) nextZero
  have lastPos : last.pos = made.pos + 4096 * 1024 := filled.pos
  have frame : ∀ x, x < disk.pos + 4 * 0 ∨ disk.pos + 4096 ≤ x →
      x < made.pos ∨ last.pos ≤ x →
      last.map x = storeLE disk.map (inode + iDouble) 4 (blockof disk.pos) x := filled.frame
  refine ⟨⟨?_, ?_, ?_⟩, by omega, ?_⟩
  · have kept : AgreeOn (storeLE disk.map (inode + iDouble) 4 (blockof disk.pos)) last.map
        (inode + iDouble + 4 * 0) 4 := by
      intro x lower upper
      exact frame x (by omega) (by omega)
    have word : blockof disk.pos < 2 ^ 32 := by
      simp only [blockof]
      omega
    rw [wordAt_congr kept, wordAt_store_first word, number]
  · intro j below
    have table := filled.tables j below
    rw [Nat.zero_add] at table
    simp only at table
    omega
  · intro j k below small
    have entry := filled.entries j k below small
    rw [Nat.zero_add] at entry
    have place : disk.pos + 4096 * (j + 1) = made.pos + 4096 * j := by omega
    rw [place]
    exact entry
  · intro x elsewhere outside
    rw [frame x (by omega) (by omega), storeLE_outside elsewhere]

structure DirectStage (inode start blocks len : Nat) (before map : Memory) : Prop where
  made : DirectMade inode start blocks len map
  kept : ∀ x, x < inode + iSize ∨ inode + iIndirect ≤ x → map x = before x

theorem directStage {map : Memory} (small : start + blocks ≤ 2 ^ 32) (word : len < 2 ^ 32)
    (zero : ∀ x, inode + iDirect ≤ x → x < inode + iDouble + 4 → map x = 0) :
    DirectStage inode start blocks len map
      (fillTable (inode + iDirect) 0 start blocks nDirect 0
        (storeLE map (inode + iSize) 4 len)).2 := by
  refine ⟨directMade small word ?_, ?_⟩
  · intro x lower upper
    refine zero x lower ?_
    simp only [iIndirect, iDouble] at upper ⊢
    omega
  · intro x outside
    simp only [iSize, iIndirect] at outside
    rw [fillTable_frame (fun _ => ⟨Nat.le_refl _, Nat.le_refl _⟩)
      (by simp only [iDirect, nDirect]; omega), storeLE_outside (by simp only [iSize]; omega)]

/-- The inode and its indirect block, at `pos`, when both are filled. -/
structure IndirectStage (inode pos start blocks len : Nat) (before map : Memory) : Prop where
  made : DirectMade inode start blocks len map
  indirect : IndirectMade inode pos start blocks map
  kept : ∀ x, x < inode + iSize ∨ inode + iDouble ≤ x → x < pos ∨ pos + 4096 ≤ x →
    map x = before x

theorem DirectStage.indirect {before map after : Memory}
    (stage : DirectStage inode start blocks len before map)
    (table : TableMade (inode + iIndirect) pos 10 start blocks map after)
    (below : inode + blkSize ≤ pos) :
    IndirectStage inode pos start blocks len before after := by
  simp only [blkSize] at below
  have slot : inode + iIndirect = inode + iSize + 44 := rfl
  have next : inode + iDouble = inode + iIndirect + 4 := rfl
  have offset : iSize = 46 := rfl
  refine ⟨stage.made.congr ?_, ⟨?_, table.entries⟩, ?_⟩
  · intro x lower upper
    exact table.frame x (by omega) (by omega)
  · rw [wordAt, Nat.mul_zero, Nat.add_zero]
    exact table.link
  · intro x elsewhere outside
    rw [table.frame x (by omega) outside]
    exact stage.kept x (by omega)

theorem DirectStage.finished {disk : Disk} {map : Memory}
    (stage : DirectStage inode start blocks len disk.map map) (fresh : FreshInode disk inode)
    (short : blocks ≤ 10) :
    InodeFinished inode start blocks len disk { disk with map := map } := by
  have slot : inode + iIndirect = inode + iDirect + 40 := rfl
  have next : inode + iDouble = inode + iDirect + 44 := rfl
  have block : inode + iSize + 4 = inode + iDirect := rfl
  have offset : iDirect = 50 := rfl
  have zero : ∀ x, inode + iIndirect ≤ x → x < inode + iDouble + 4 → map x = 0 := by
    intro x lower upper
    rw [stage.kept x (Or.inr lower)]
    exact fresh.slots x (by omega) upper
  apply inodeFinished_of_slots stage.made.size
  · intro k _
    by_cases direct : k < 10
    · exact Or.inl (stage.made.slot direct)
    · refine Or.inr ⟨by omega, ?_⟩
      by_cases indirect : k < 1034
      · apply slotOf_no_indirect _ (by omega) indirect
        exact wordAt_zero fun x lower upper => zero x (by omega) (by omega)
      · apply slotOf_no_double _ (by omega)
        exact wordAt_zero fun x lower upper => zero x (by omega) (by omega)
  · simp only [nDirect]
    omega
  · intro x elsewhere _
    simp only [blkSize] at elsewhere
    exact stage.kept x (by omega)

theorem IndirectStage.finished {disk last : Disk}
    (stage : IndirectStage inode disk.pos start blocks len disk.map last.map)
    (fresh : FreshInode disk inode) (reached : last.pos = disk.pos + 4096)
    (short : blocks ≤ 1034) :
    InodeFinished inode start blocks len disk last := by
  have below := fresh.below
  have next : inode + iDouble = inode + iDirect + 44 := rfl
  have offset : iDirect = 50 := rfl
  have block : inode + iSize + 4 = inode + iDirect := rfl
  simp only [blkSize] at below
  apply inodeFinished_of_slots stage.made.size
  · intro k _
    by_cases direct : k < 10
    · exact Or.inl (stage.made.slot direct)
    · by_cases indirect : k < 1034
      · exact Or.inl (stage.indirect.slot (by omega) (by omega) indirect)
      · refine Or.inr ⟨by omega, slotOf_no_double ?_ (by omega)⟩
        apply wordAt_zero
        intro x lower upper
        rw [stage.kept x (by omega) (by omega)]
        exact fresh.slots x (by omega) (by omega)
  · simp only [nDirect, nIndirect, blkSize]
    omega
  · intro x elsewhere outside
    simp only [blkSize] at elsewhere
    exact stage.kept x (by omega) (by omega)

theorem IndirectStage.finishedDouble {disk middle last : Disk}
    (stage : IndirectStage inode disk.pos start blocks len disk.map middle.map)
    (fresh : FreshInode disk inode) (reached : middle.pos = disk.pos + 4096)
    (double : DoubleMade inode middle.pos start blocks last.map)
    (further : middle.pos ≤ last.pos)
    (kept : ∀ x, x < inode + iDouble ∨ inode + iDouble + 4 ≤ x →
      x < middle.pos ∨ last.pos ≤ x → last.map x = middle.map x)
    (bound : blocks ≤ nDirect + nIndirect + nDouble) :
    InodeFinished inode start blocks len disk last := by
  have below := fresh.below
  have next : inode + iDouble = inode + iSize + 48 := rfl
  have slot : inode + iIndirect = inode + iSize + 44 := rfl
  have offset : iSize = 46 := rfl
  simp only [blkSize] at below
  have direct : DirectMade inode start blocks len last.map := by
    apply stage.made.congr
    intro x lower upper
    exact kept x (by omega) (by omega)
  have indirect : IndirectMade inode disk.pos start blocks last.map := by
    apply stage.indirect.congr
    · intro x lower upper
      exact kept x (by omega) (by omega)
    · intro x lower upper
      exact kept x (by omega) (by omega)
  apply inodeFinished_of_slots direct.size _ bound
  · intro x elsewhere outside
    simp only [blkSize] at elsewhere
    rw [kept x (by omega) (by omega)]
    exact stage.kept x (by omega) (by omega)
  · intro k upper
    simp only [nDirect, nIndirect, nDouble, blkSize] at upper
    left
    by_cases small : k < 10
    · exact direct.slot small
    · by_cases middling : k < 1034
      · exact indirect.slot (by omega) (by omega) middling
      · exact double.slot (by omega) (by omega) (by omega)

theorem DirectStage.rest {disk made last : Disk} {map : Memory}
    (stage : DirectStage inode start blocks len disk.map map) (fresh : FreshInode disk inode)
    (image : disk.pos + 4096 * 1026 < 2 ^ 43) (small : start + blocks ≤ 2 ^ 32)
    (bound : blocks ≤ nDirect + nIndirect + nDouble) (full : nDirect ≤ blocks) {ind : Nat}
    (given : alloc .indirect blkSize { disk with map := map } = .ok (ind, made))
    {looped : Nat × Memory}
    (loopedEq : fillTable ind nDirect start blocks nIndirect nDirect
      (storeLE made.map (inode + iIndirect) 4 (blockof ind)) = looped)
    (run : (if looped.1 = nDirect + nIndirect then do
        let (inind, disk) ← alloc .double blkSize { made with map := looped.2 }
        let map := storeLE disk.map (inode + iDouble) 4 (blockof inind)
        fillDouble inind start blocks nIndirect 0 looped.1 { disk with map := map }
      else .ok { made with map := looped.2 }) = .ok last) :
    InodeFinished inode start blocks len disk last := by
  have inside := fresh.inside
  have below := fresh.below
  have slot : inode + iIndirect + 4 ≤ disk.pos := by
    simp only [iIndirect, blkSize] at below ⊢
    omega
  obtain ⟨rfl, madeMap, madeBlocks, madePos, madeInside⟩ :=
    @alloc_block _ { disk with map := map } made ind inside (show disk.pos < 2 ^ 43 by omega) given
  simp only at madeMap madeBlocks madePos loopedEq
  rw [madeMap] at loopedEq
  have free : ∀ x, disk.pos ≤ x → x < disk.nblocks * 4096 → map x = 0 := by
    intro x lower upper
    rw [stage.kept x (Or.inr (by omega))]
    exact fresh.free x lower upper
  have table := tableMade fresh.aligned (by omega) slot (Or.inl rfl)
    small (rfl : 10 + 1024 = 10 + 1024)
    (fun x lower upper => free x lower (by omega))
  have indirect := stage.indirect table below
  have reached := fillTable_index disk.pos nDirect start nIndirect
    (storeLE map (inode + iIndirect) 4 (blockof disk.pos)) full
  rw [loopedEq] at reached
  change IndirectStage inode disk.pos start blocks len disk.map (fillTable disk.pos nDirect
    start blocks nIndirect nDirect
    (storeLE map (inode + iIndirect) 4 (blockof disk.pos))).2 at indirect
  rw [loopedEq] at indirect
  have width : nDirect + nIndirect = 1034 := rfl
  rw [width] at reached run
  by_cases more : looped.1 = 1034
  · rw [if_pos more, more] at run
    obtain ⟨⟨inind, next⟩, given', run⟩ := bind_eq_ok.mp run
    have middleFree : ∀ x, made.pos ≤ x → x < made.nblocks * 4096 → looped.2 x = 0 := by
      intro x lower upper
      rw [madeBlocks] at upper
      rw [indirect.kept x (Or.inr (by simp only [iDouble, iIndirect] at slot ⊢; omega))
        (by omega)]
      exact fresh.free x (by omega) upper
    obtain ⟨double, further, kept⟩ := @doubleMade inode start blocks
      { made with map := looped.2 } next last inind given' run
      (show made.pos + 4096 * 1025 < 2 ^ 43 by omega) madeInside (show made.pos % 4096 = 0 by rw [madePos]; have := fresh.aligned; omega)
      (show inode + blkSize ≤ made.pos by omega) (by omega) (by omega) middleFree
    exact @IndirectStage.finishedDouble inode start blocks len disk
      { made with map := looped.2 } last indirect fresh madePos double further kept bound
  · rw [if_neg more] at run
    cases run
    exact @IndirectStage.finished inode start blocks len disk { made with map := looped.2 }
      indirect fresh madePos (by omega)

/-- After `finishinode` the slots decode to the blocks of the file, wherever on the disk
they are. -/
theorem finishinode_finished {disk last : Disk} (fresh : FreshInode disk inode)
    (image : disk.pos + 4096 * 1026 < 2 ^ 43) (bound : len + blkSize ≤ 2 ^ 32)
    (small : start + (len + 4095) / 4096 ≤ 2 ^ 32)
    (run : finishinode inode start len disk = .ok last) :
    InodeFinished inode start ((len + 4095) / 4096) len disk last := by
  have word : len % 2 ^ 32 = len := by
    simp only [blkSize] at bound
    omega
  have wordLt : len < 2 ^ 32 := by
    simp only [blkSize] at bound
    omega
  have size : roundUp len / blkSize = (len + 4095) / 4096 := by
    rw [roundUp_eq bound]
    exact Nat.mul_div_cancel _ (by norm_num)
  have reach : (len + 4095) / 4096 ≤ nDirect + nIndirect + nDouble := by
    simp only [nDirect, nIndirect, nDouble, blkSize]
    omega
  simp only [finishinode, word, size] at run
  generalize (len + 4095) / 4096 = blocks at *
  have direct := directStage small wordLt fresh.slots
  have reached := fillTable_index (inode + iDirect) 0 start nDirect
    (storeLE disk.map (inode + iSize) 4 len) (Nat.zero_le blocks)
  generalize fillTable (inode + iDirect) 0 start blocks nDirect 0
    (storeLE disk.map (inode + iSize) 4 len) = first at *
  rw [Nat.zero_add] at reached
  by_cases full : first.1 = nDirect
  · rw [if_pos full, full] at run
    obtain ⟨⟨ind, made⟩, given, run⟩ := bind_eq_ok.mp run
    exact direct.rest fresh image small reach (by omega) given rfl run
  · rw [if_neg full] at run
    simp only [nDirect] at full reached
    cases run
    exact direct.finished fresh (by omega)

/-- The same for a file that is inside an image below 2^20 blocks; `finishinode_ends` says when
the run returns. -/
theorem finishinode_decodes {disk last : Disk} (fresh : FreshInode disk inode)
    (image : disk.nblocks < 2 ^ 20) (fits : start + (len + 4095) / 4096 ≤ disk.nblocks)
    (run : finishinode inode start len disk = .ok last) :
    InodeFinished inode start ((len + 4095) / 4096) len disk last := by
  have inside := fresh.inside
  apply finishinode_finished fresh (by omega) _ (by omega) run
  simp only [blkSize]
  omega

end Inode

/-! ## Whatever the image looks like -/

section Frame

variable {disk last : Disk} {inode start blocks len limit : Nat}

theorem alloc_block_moves {use : Use} {place : Nat}
    (run : alloc use blkSize disk = .ok (place, last)) :
    place = disk.pos ∧ last.map = disk.map ∧ last.pos = disk.pos + 4096 := by
  obtain ⟨_, rfl, rfl⟩ := alloc_eq_ok.mp run
  exact ⟨rfl, rfl, rfl⟩

/-- The loop over the tables writes behind `limit` and in front of the new position. -/
theorem fillDouble_frame {inind togo j i : Nat}
    (run : fillDouble inind start blocks togo j i disk = .ok last)
    (whole : j + togo = 1024) (index : limit ≤ inind) (below : inind + 4096 ≤ disk.pos)
    (upto : i ≤ blocks) (position : i = 1034 + j * 1024 ∨ i = blocks) :
    disk.pos ≤ last.pos ∧ last.pos % 4096 = disk.pos % 4096 ∧
      ∀ x, x < limit ∨ last.pos ≤ x → last.map x = disk.map x := by
  induction togo generalizing j i disk with
  | zero =>
      cases run
      exact ⟨Nat.le_refl _, rfl, fun _ _ => rfl⟩
  | succ togo ih =>
      rw [fillDouble] at run
      obtain ⟨⟨ind, made⟩, given, run⟩ := bind_eq_ok.mp run
      obtain ⟨rfl, madeMap, madePos⟩ := alloc_block_moves given
      have next : nDirect + nIndirect + (j + 1) * nIndirect = 1034 + j * 1024 + 1024 := by
        simp only [nDirect, nIndirect, blkSize]
        omega
      have first : nDirect + nIndirect + j * nIndirect = 1034 + j * 1024 := by
        simp only [nDirect, nIndirect, blkSize]
      obtain ⟨base, baseDef⟩ : ∃ base, 1034 + j * 1024 = base := ⟨_, rfl⟩
      rw [baseDef] at next first position
      simp only [next, first, madeMap] at run
      clear next first
      have within : i < blocks → base ≤ i ∧ i + (base + 1024 - i) ≤ base + 1024 := by omega
      have reached := fillTable_index disk.pos base start (base + 1024 - i)
        (storeLE disk.map (inind + 4 * j) 4 (blockof disk.pos)) upto
      have frame : ∀ x, x < limit ∨ disk.pos + 4096 ≤ x →
          (fillTable disk.pos base start blocks (base + 1024 - i) i
            (storeLE disk.map (inind + 4 * j) 4 (blockof disk.pos))).2 x = disk.map x := by
        intro x outside
        rw [fillTable_frame within (by omega), storeLE_outside (by omega)]
      generalize fillTable disk.pos base start blocks (base + 1024 - i) i
        (storeLE disk.map (inind + 4 * j) 4 (blockof disk.pos)) = looped at *
      obtain ⟨further, aligned, rest⟩ := ih run (by omega)
        (show inind + 4096 ≤ made.pos by omega) (by omega) (by omega)
      simp only at further aligned rest
      refine ⟨by omega, by omega, ?_⟩
      intro x outside
      rw [rest x outside]
      exact frame x (by omega)

theorem finishDouble_frame {made : Disk} {inind : Nat}
    (given : alloc .double blkSize disk = .ok (inind, made)) (full : 1034 ≤ blocks)
    (run : fillDouble inind start blocks nIndirect 0 1034
      { made with map := storeLE made.map (inode + iDouble) 4 (blockof inind) } = .ok last) :
    disk.pos ≤ last.pos ∧ last.pos % 4096 = disk.pos % 4096 ∧
      ∀ x, x < inode + iDouble ∨ inode + iDouble + 4 ≤ x → x < disk.pos ∨ last.pos ≤ x →
        last.map x = disk.map x := by
  obtain ⟨rfl, madeMap, madePos⟩ := alloc_block_moves given
  obtain ⟨further, aligned, frame⟩ := fillDouble_frame run rfl (Nat.le_refl disk.pos)
    (show disk.pos + 4096 ≤ made.pos by omega) full (Or.inl rfl)
  simp only at further aligned frame
  refine ⟨by omega, by omega, ?_⟩
  intro x elsewhere outside
  rw [frame x outside, storeLE_outside elsewhere, madeMap]

theorem finishIndirect_frame {made : Disk} {ind : Nat} {looped : Nat × Memory}
    (given : alloc .indirect blkSize disk = .ok (ind, made)) (below : inode + 4096 ≤ disk.pos)
    (full : nDirect ≤ blocks)
    (loopedEq : fillTable ind nDirect start blocks nIndirect nDirect
      (storeLE made.map (inode + iIndirect) 4 (blockof ind)) = looped)
    (run : (if looped.1 = nDirect + nIndirect then do
        let (inind, disk) ← alloc .double blkSize { made with map := looped.2 }
        let map := storeLE disk.map (inode + iDouble) 4 (blockof inind)
        fillDouble inind start blocks nIndirect 0 looped.1 { disk with map := map }
      else .ok { made with map := looped.2 }) = .ok last) :
    disk.pos ≤ last.pos ∧ last.pos % 4096 = disk.pos % 4096 ∧
      ∀ x, x < inode + iIndirect ∨ inode + iDouble + 4 ≤ x → x < disk.pos ∨ last.pos ≤ x →
        last.map x = disk.map x := by
  have indirect : iIndirect = 90 := rfl
  have double : iDouble = 94 := rfl
  have width : nDirect + nIndirect = 1034 := rfl
  obtain ⟨rfl, madeMap, madePos⟩ := alloc_block_moves given
  have filled := fillTable_index disk.pos nDirect start nIndirect
    (storeLE made.map (inode + iIndirect) 4 (blockof disk.pos)) full
  have table : ∀ x, x < inode + iIndirect ∨ inode + iIndirect + 4 ≤ x →
      x < disk.pos ∨ disk.pos + 4096 ≤ x → looped.2 x = disk.map x := by
    intro x elsewhere outside
    rw [← loopedEq, fillTable_frame (fun _ => ⟨Nat.le_refl _, Nat.le_refl _⟩)
      (by simp only [nIndirect, blkSize]; omega), storeLE_outside elsewhere, madeMap]
  rw [loopedEq, width] at filled
  rw [width] at run
  by_cases more : looped.1 = 1034
  · rw [if_pos more, more] at run
    obtain ⟨⟨inind, next⟩, given', run⟩ := bind_eq_ok.mp run
    obtain ⟨further, aligned, kept⟩ := @finishDouble_frame { made with map := looped.2 }
      last inode start blocks next inind given' (by omega) run
    simp only at further aligned kept
    refine ⟨by omega, by omega, ?_⟩
    intro x elsewhere outside
    rw [kept x (by omega) (by omega)]
    exact table x (by omega) (by omega)
  · rw [if_neg more] at run
    cases run
    refine ⟨by simp only; omega, by simp only; omega, ?_⟩
    intro x elsewhere outside
    simp only at outside
    exact table x (by omega) (by omega)

/-- `finishinode` writes the size and the slots of the inode, and the blocks it gets. -/
theorem finishinode_frame (below : inode + blkSize ≤ disk.pos)
    (run : finishinode inode start len disk = .ok last) :
    disk.pos ≤ last.pos ∧ last.pos % 4096 = disk.pos % 4096 ∧
      loadLE last.map (inode + iSize) 4 = len % 2 ^ 32 ∧
      ∀ x, x < inode + iSize ∨ inode + iDouble + 4 ≤ x → x < disk.pos ∨ last.pos ≤ x →
        last.map x = disk.map x := by
  have offset : iSize = 46 := rfl
  have direct : iDirect = 50 := rfl
  have indirect : iIndirect = 90 := rfl
  have double : iDouble = 94 := rfl
  simp only [blkSize] at below
  simp only [finishinode] at run
  generalize roundUp (len % 2 ^ 32) / blkSize = blocks at *
  generalize sizeDef : storeLE disk.map (inode + iSize) 4 (len % 2 ^ 32) = sized at *
  have reached := fillTable_index (inode + iDirect) 0 start nDirect sized
    (Nat.zero_le blocks)
  have frame : ∀ x, x < inode + iDirect ∨ inode + iIndirect ≤ x →
      (fillTable (inode + iDirect) 0 start blocks nDirect 0 sized).2 x = sized x := by
    intro x outside
    exact fillTable_frame (fun _ => ⟨Nat.le_refl _, Nat.le_refl _⟩)
      (by simp only [nDirect]; omega)
  generalize fillTable (inode + iDirect) 0 start blocks nDirect 0 sized = first at *
  -- what is left to show speaks about the steps behind the direct slots only
  suffices rest : disk.pos ≤ last.pos ∧ last.pos % 4096 = disk.pos % 4096 ∧
      ∀ x, x < inode + iIndirect ∨ inode + iDouble + 4 ≤ x → x < disk.pos ∨ last.pos ≤ x →
        last.map x = first.2 x by
    obtain ⟨further, aligned, kept⟩ := rest
    have size : AgreeOn sized last.map (inode + iSize) 4 := by
      intro x lower upper
      rw [kept x (by omega) (by omega), frame x (by omega)]
    refine ⟨further, aligned, ?_, ?_⟩
    · rw [loadLE_congr size, ← sizeDef, loadLE_storeLE]
      omega
    · intro x elsewhere outside
      rw [kept x (by omega) outside, frame x (by omega), ← sizeDef,
        storeLE_outside (by omega)]
  rw [Nat.zero_add] at reached
  by_cases full : first.1 = nDirect
  · rw [if_pos full, full] at run
    obtain ⟨⟨ind, made⟩, given, run⟩ := bind_eq_ok.mp run
    exact @finishIndirect_frame { disk with map := first.2 } last inode start blocks made ind
      _ given below (by omega) rfl run
  · rw [if_neg full] at run
    cases run
    exact ⟨Nat.le_refl _, rfl, fun _ _ _ => rfl⟩

end Frame

def sampleDisk : Disk := ⟨fun _ => 0, 4096 * 3, 32, 4096, []⟩

/-- Ten blocks fill the direct slots, so an indirect block is made for nothing. -/
theorem finishinode_decodes_sample : ∃ last,
    finishinode 8192 15 40960 sampleDisk = .ok last ∧
    InodeFinished 8192 15 10 40960 sampleDisk last := by
  have fresh : FreshInode sampleDisk 8192 :=
    ⟨by decide, by decide, by decide, fun _ _ _ => rfl, fun _ _ _ => rfl⟩
  obtain ⟨last, run⟩ : ∃ last, finishinode 8192 15 40960 sampleDisk = .ok last := ⟨_, rfl⟩
  exact ⟨last, run, finishinode_decodes fresh (by decide) (by decide) run⟩

end OsLabs.Fs
