import OsLabs.Lib.Budget
import OsLabs.Fs.FormatLayout

/-!
# The blocks that fsformat needs and those that it takes

`diskpos` moves by whole blocks, and `alloc` panics once it reaches the end of the disk,
so a disk that is exactly full counts as too small.  `finishinode` takes an index block as
soon as the slots in front of it are full, and with the double-indirect block all of its
tables.
-/

set_option autoImplicit false

namespace OsLabs.Fs

open OsLabs.ByteMemory OsLabs.ExceptRules OsLabs.Budget

/-! ## What a format needs -/

def dataBlocks (size : Nat) : Nat := (size + blkSize - 1) / blkSize

def indexBlocks (blocks : Nat) : Nat :=
  if blocks ≤ nDirect then 0
  else if blocks ≤ nDirect + nIndirect then 1
  else 2 + (blocks - nDirect - nIndirect + nIndirect - 1) / nIndirect

def bitmapBlocks (nblocks : Nat) : Nat := (nblocks + blkBitSize - 1) / blkBitSize

def fileBlocks (size : Nat) : Nat := 1 + (dataBlocks size + indexBlocks (dataBlocks size))

def required (nblocks : Nat) (files : List InputFile) : Nat :=
  1 + bitmapBlocks nblocks + 1 + (files.map fun file => fileBlocks file.contents.length).sum +
    (dataBlocks (files.length * direntSize) +
      indexBlocks (dataBlocks (files.length * direntSize)))

/-! ## What it takes -/

/-- The index blocks that `finishinode` takes for so many blocks. -/
def indexTaken (blocks : Nat) : Nat :=
  if blocks < nDirect then 0
  else if blocks < nDirect + nIndirect then 1
  else 2 + nIndirect

def fileTaken (size : Nat) : Nat := 1 + (dataBlocks size + indexTaken (dataBlocks size))

/-- A directory of fewer than 128 entries has no index blocks. -/
def taken (nblocks : Nat) (files : List InputFile) : Nat :=
  1 + bitmapBlocks nblocks + 1 + ((files.map fun file => fileTaken file.contents.length).sum +
    dataBlocks (files.length * direntSize))

/-! ## alloc -/

section Taking

variable {nblocks used : Nat} {disk : Disk}

structure Taken (nblocks used : Nat) (disk : Disk) : Prop where
  nblocks : disk.nblocks = nblocks
  pos : disk.pos = used * blkSize

abbrev Takes (nblocks used amount : Nat) {α : Type} (post : Nat → α → Prop)
    (run : Except Panic α) : Prop :=
  Draws nblocks .outOfDiskBlocks used amount post run

theorem alloc_takes (use : Use) {bytes amount : Nat} (here : Taken nblocks used disk)
    (size : roundUp (bytes % 2 ^ 32) = amount * blkSize) (small : used + amount < 2 ^ 32) :
    Takes nblocks used amount (fun now result => result.1 = used * blkSize ∧
      Taken nblocks now result.2) (alloc use bytes disk) := by
  have position : disk.pos + roundUp (bytes % 2 ^ 32) = (used + amount) * blkSize := by
    rw [here.pos, size, Nat.add_mul]
  have number : blockof (disk.pos + roundUp (bytes % 2 ^ 32)) = used + amount := by
    rw [position, blockof, Nat.mul_div_cancel _ (by decide), Nat.mod_eq_of_lt small]
  constructor
  · intro room
    rw [alloc, number, here.nblocks, if_neg (not_le.mpr room)]
    refine ⟨_, rfl, here.pos, ?_⟩
    exact Taken.mk rfl position
  · intro full
    rw [alloc, number, here.nblocks, if_pos full]

theorem Taken.store (here : Taken nblocks used disk) (map : Memory) :
    Taken nblocks used { disk with map := map } :=
  ⟨here.nblocks, here.pos⟩

theorem block_takes (use : Use) (here : Taken nblocks used disk) (room : used < nblocks)
    (small : nblocks < 2 ^ 20) :
    Takes nblocks used 1 (fun now result => result.1 = used * blkSize ∧
      Taken nblocks now result.2) (alloc use blkSize disk) :=
  alloc_takes use here rfl (by omega)

/-! ## finishinode -/

/-- The loop over the tables takes all of them, however long the file is. -/
theorem fillDouble_takes {inind start blocks togo j i : Nat} (here : Taken nblocks used disk)
    (room : used < nblocks) (small : nblocks < 2 ^ 20) :
    Takes nblocks used togo (Taken nblocks) (fillDouble inind start blocks togo j i disk) := by
  induction togo generalizing used j i disk with
  | zero => exact Draws.ok room here
  | succ togo ih =>
      rw [fillDouble, Nat.add_comm togo 1]
      apply (block_takes .indirect here room small).bind
      intro result room after
      exact ih (after.2.store _) room

theorem finishinode_takes {inode start len : Nat} (here : Taken nblocks used disk)
    (room : used < nblocks) (small : nblocks < 2 ^ 20) :
    Takes nblocks used (indexTaken (roundUp (len % 2 ^ 32) / blkSize)) (Taken nblocks)
      (finishinode inode start len disk) := by
  simp only [finishinode, indexTaken]
  generalize roundUp (len % 2 ^ 32) / blkSize = blocks
  rw [fillTable_index _ _ _ _ _ (Nat.zero_le blocks)]
  by_cases short : blocks < nDirect
  · have count : min (0 + nDirect) blocks ≠ nDirect := by omega
    rw [if_pos short, if_neg count]
    exact Draws.ok room (here.store _)
  · have count : min (0 + nDirect) blocks = nDirect := by omega
    rw [if_neg short, if_pos count]
    by_cases middle : blocks < nDirect + nIndirect
    · rw [if_pos middle]
      apply (block_takes .indirect (here.store _) room small).map
      intro result room after
      have count : min (min (0 + nDirect) blocks + nIndirect) blocks ≠
          nDirect + nIndirect := by
        omega
      rw [fillTable_index _ _ _ _ _ (by omega), if_neg count]
      exact ⟨_, rfl, after.2.store _⟩
    · rw [if_neg middle, show 2 + nIndirect = 1 + (1 + nIndirect) from rfl]
      apply (block_takes .indirect (here.store _) room small).bind
      intro result room after
      have count : min (min (0 + nDirect) blocks + nIndirect) blocks =
          nDirect + nIndirect := by
        omega
      rw [fillTable_index _ _ _ _ _ (by omega), if_pos count]
      apply (block_takes .double (after.2.store _) room small).bind
      intro result room after
      exact fillDouble_takes (after.2.store _) room small

/-- `finishinode` ends by the blocks that its index takes: where they leave one block free, a
new inode leads to the blocks of the file, and where they do not, it panics. -/
theorem finishinode_ends {inode start len : Nat} (here : Taken nblocks used disk)
    (room : used < nblocks) (small : nblocks < 2 ^ 20) (fresh : FreshInode disk inode)
    (fits : start + (len + 4095) / 4096 ≤ nblocks) :
    (used + indexTaken ((len + 4095) / 4096) < nblocks →
      ∃ last, finishinode inode start len disk = .ok last ∧
        InodeFinished inode start ((len + 4095) / 4096) len disk last) ∧
    (nblocks ≤ used + indexTaken ((len + 4095) / 4096) →
      finishinode inode start len disk = .error .outOfDiskBlocks) := by
  have word : len % 2 ^ 32 = len := by omega
  have bound : len + blkSize ≤ 2 ^ 32 := by
    simp only [blkSize]
    omega
  have size : roundUp (len % 2 ^ 32) / blkSize = (len + 4095) / 4096 := by
    rw [word, roundUp_eq bound]
    exact Nat.mul_div_cancel _ (by norm_num)
  have takes := @finishinode_takes _ _ _ inode start len here room small
  rw [size] at takes
  refine ⟨fun free => ?_, takes.stops⟩
  obtain ⟨last, ran, _⟩ := takes.returns free
  exact ⟨last, ran, finishinode_decodes fresh (by rw [here.nblocks]; exact small)
    (by rw [here.nblocks]; exact fits) ran⟩

/-! ## Files -/

theorem roundUp_dataBlocks {size : Nat} (small : dataBlocks size < 2 ^ 20) :
    roundUp (size % 2 ^ 32) = dataBlocks size * blkSize := by
  simp only [dataBlocks, blkSize] at small ⊢
  rw [Nat.mod_eq_of_lt (by omega), roundUp_eq (by simp only [blkSize]; omega)]
  rfl

variable {heap : Heap} {stamp : Stamp} {id : IDir}

structure Unmoved (n : Nat) (id : IDir) : Prop where
  n : id.n = n
  capacity : id.capacity = maxDirEnts

theorem growEnts_unmoved {n : Nat} (unmoved : Unmoved n id) (few : n + 1 < maxDirEnts) :
    growEnts heap { id with n := (id.n + 1) % 2 ^ 32 } = .ok (false, { id with n := n + 1 }) := by
  have small : (n + 1) % 2 ^ 32 = n + 1 := by
    simp only [maxDirEnts] at few
    omega
  rw [growEnts, unmoved.n, unmoved.capacity, small, if_neg (not_le.mpr few)]

theorem idiradd_takes {n mode : Nat} {name : List UInt8} (here : Taken nblocks used disk)
    (small : used + 1 < 2 ^ 32) (unmoved : Unmoved n id) (few : n + 1 < maxDirEnts) :
    Takes nblocks used 1 (fun now result => Unmoved (n + 1) result.2.1 ∧
      Taken nblocks now result.2.2) (idiradd heap stamp id mode name disk) := by
  rw [idiradd]
  simp only [growEnts_unmoved unmoved few, ok_bind]
  apply (alloc_takes .inode here (show roundUp (blkSize % 2 ^ 32) = 1 * blkSize from rfl)
    small).map
  intro result room after
  exact ⟨_, rfl, ⟨rfl, unmoved.capacity⟩, after.2.store _⟩

theorem writeinode_takes {n : Nat} {file : InputFile} (here : Taken nblocks used disk)
    (room : used < nblocks) (small : nblocks < 2 ^ 20) (unmoved : Unmoved n id)
    (few : n + 1 < maxDirEnts) (regular : file.regular = true)
    (data : dataBlocks file.contents.length < 2 ^ 20) :
    Takes nblocks used (fileTaken file.contents.length) (fun now result =>
      Unmoved (n + 1) result.1 ∧ Taken nblocks now result.2)
      (writeinode heap stamp id file disk) := by
  have whole := roundUp_dataBlocks data
  rw [writeinode, if_pos regular, fileTaken]
  apply (idiradd_takes here (by omega) unmoved few).bind
  intro added room after
  apply (alloc_takes .data after.2 whole (by omega)).bind
  intro given room stored
  have index : roundUp (file.contents.length % 2 ^ 32) / blkSize =
      dataBlocks file.contents.length := by
    rw [whole, Nat.mul_div_cancel _ (by decide)]
  apply Draws.map
  · have finish := @finishinode_takes _ _ _ added.1 (blockof given.1) file.contents.length
      (stored.2.store (blit given.2.map given.1 file.contents.length
        fun i => file.contents.getD i 0)) room small
    rw [index] at finish
    exact finish
  · intro last room finished
    exact ⟨_, rfl, after.1, finished⟩

theorem writeinodes_takes {n : Nat} {files : List InputFile} (here : Taken nblocks used disk)
    (room : used < nblocks) (small : nblocks < 2 ^ 20) (unmoved : Unmoved n id)
    (few : n + files.length < maxDirEnts) (regular : ∀ file ∈ files, file.regular = true)
    (data : ∀ file ∈ files, dataBlocks file.contents.length < 2 ^ 20) :
    Takes nblocks used (files.map fun file => fileTaken file.contents.length).sum
      (fun now result => Unmoved (n + files.length) result.1 ∧ Taken nblocks now result.2)
      (writeinodes heap stamp files id disk) := by
  induction files generalizing used n id disk with
  | nil => exact Draws.ok room ⟨unmoved, here⟩
  | cons file rest ih =>
      rw [List.length_cons] at few
      rw [writeinodes, List.map_cons, List.sum_cons]
      apply (writeinode_takes here room small unmoved (by omega)
        (regular file List.mem_cons_self) (data file List.mem_cons_self)).bind
      intro result room after
      rw [List.length_cons, Nat.add_comm rest.length 1, ← Nat.add_assoc]
      exact ih after.2 room after.1 (by omega)
        (fun other member => regular other (List.mem_cons_of_mem _ member))
        (fun other member => data other (List.mem_cons_of_mem _ member))

theorem finishidir_takes (here : Taken nblocks used disk) (room : used < nblocks)
    (small : nblocks < 2 ^ 20) {n : Nat} (unmoved : Unmoved n id) (few : n < maxDirEnts) :
    Takes nblocks used (dataBlocks (n * direntSize)) (Taken nblocks) (finishidir id disk) := by
  simp only [maxDirEnts] at few
  have size : id.n * direntSize % 2 ^ 32 = n * direntSize := by
    rw [unmoved.n, Nat.mod_eq_of_lt (by simp only [direntSize]; omega)]
  have blocks : dataBlocks (n * direntSize) < nDirect := by
    simp only [dataBlocks, direntSize, blkSize, nDirect]
    omega
  have whole := @roundUp_dataBlocks (n * direntSize) (by simp only [nDirect] at blocks; omega)
  have short : roundUp (roundUp (n * direntSize) % 2 ^ 32) / blkSize < nDirect := by
    simp only [roundUp, direntSize, blkSize, nDirect]
    omega
  have index : indexTaken (roundUp (roundUp (n * direntSize) % 2 ^ 32) / blkSize) = 0 := by
    rw [indexTaken, if_pos short]
  simp only [finishidir, size]
  rw [← Nat.add_zero (dataBlocks (n * direntSize))]
  apply (alloc_takes .data here whole (by simp only [nDirect] at blocks; omega)).bind
  intro given room after
  have finish := @finishinode_takes _ _ _ id.inode (blockof given.1) (roundUp (n * direntSize))
    (after.2.store (blit given.2.map given.1 (n * direntSize) id.ents)) room small
  rw [index] at finish
  exact finish

/-! ## The whole run -/

theorem opendisk_takes {bits : Nat}
    (bitmap : (nblocks + blkBitSize - 1) % 2 ^ 32 / blkBitSize = bits) :
    Takes nblocks 0 (1 + bits + 1) (fun now result => Taken nblocks now result.1)
      (opendisk stamp nblocks) := by
  have few : bits < 2 ^ 17 := by
    rw [← bitmap]
    simp only [blkBitSize, blkSize]
    omega
  have size : roundUp (bits * blkSize % 2 ^ 32) = bits * blkSize := by
    simp only [roundUp, blkSize]
    omega
  have empty : Taken nblocks 0 ⟨fun _ => 0, 0, nblocks, 0, []⟩ := ⟨rfl, rfl⟩
  simp only [opendisk, bitmap]
  rw [Nat.add_assoc]
  apply (alloc_takes .super empty (show roundUp (blkSize % 2 ^ 32) = 1 * blkSize from rfl)
    (by norm_num)).bind
  intro super room after
  apply (alloc_takes .bitmap after.2 size (by omega)).bind
  intro bitmap room after
  have marked (map : Memory) (place : Nat) : Taken nblocks (0 + 1 + bits)
      { bitmap.2 with map := map, bitmap := place } :=
    ⟨after.2.nblocks, after.2.pos⟩
  apply (alloc_takes .inode (marked _ _)
    (show roundUp (blkSize % 2 ^ 32) = 1 * blkSize from rfl) (by omega)).map
  intro inode room after
  exact ⟨_, rfl, after.2.nblocks, after.2.pos⟩

theorem fsformat_takes {files : List InputFile} (two : 2 ≤ nblocks) (small : nblocks < 2 ^ 20)
    (few : files.length < maxDirEnts) (regular : ∀ file ∈ files, file.regular = true)
    (data : ∀ file ∈ files, dataBlocks file.contents.length < 2 ^ 20) :
    Takes nblocks 0 (taken nblocks files) (fun _ _ => True)
      (fsformat heap stamp nblocks files) := by
  have bits : (nblocks + blkBitSize - 1) % 2 ^ 32 / blkBitSize = bitmapBlocks nblocks := by
    rw [bitmapBlocks, Nat.mod_eq_of_lt (by simp only [blkBitSize, blkSize]; omega)]
  rw [fsformat, if_neg (not_lt.mpr two), taken]
  apply (opendisk_takes bits).bind
  intro opened room here
  apply (@writeinodes_takes _ _ _ heap stamp (startidir heap opened.2) 0 files here room small
    ⟨rfl, rfl⟩ (by omega) regular data).bind
  rintro ⟨id, disk⟩ room after
  rw [Nat.zero_add files.length] at after
  apply (finishidir_takes after.2 room small after.1 few).map
  intro last room finished
  exact ⟨_, rfl, trivial⟩

theorem data_le_required {files : List InputFile} {file : InputFile} (member : file ∈ files) :
    dataBlocks file.contents.length ≤ required nblocks files := by
  have inside := List.single_le_sum (fun _ _ => Nat.zero_le _) _
    (List.mem_map_of_mem (f := fun file => fileBlocks file.contents.length) member)
  simp only [fileBlocks] at inside
  simp only [required, fileBlocks]
  omega

/-- The run panics for lack of blocks when the code takes as many as the disk has. -/
theorem fsformat_outOfDiskBlocks_iff {files : List InputFile} (two : 2 ≤ nblocks)
    (small : nblocks < 2 ^ 20) (few : files.length < maxDirEnts)
    (regular : ∀ file ∈ files, file.regular = true)
    (fits : required nblocks files ≤ nblocks) :
    fsformat heap stamp nblocks files = .error .outOfDiskBlocks ↔
      nblocks ≤ taken nblocks files := by
  have data : ∀ file ∈ files, dataBlocks file.contents.length < 2 ^ 20 := by
    intro file member
    have inside := @data_le_required nblocks files file member
    omega
  have ends := (@fsformat_takes nblocks heap stamp files two small few regular data).exhausted_iff
  rwa [Nat.zero_add] at ends

end Taking

/-- A format whose contents fit ends without running out of blocks exactly when the blocks
that the code takes leave one block of the disk free. -/
theorem fsformat_fits_iff (heap : Heap) (stamp : Stamp) (nblocks : Nat)
    (files : List InputFile) (two : 2 ≤ nblocks) (small : nblocks < 2 ^ 20)
    (few : files.length < maxDirEnts) (regular : ∀ file ∈ files, file.regular = true) :
    (required nblocks files ≤ nblocks →
        fsformat heap stamp nblocks files ≠ .error .outOfDiskBlocks) ↔
      nblocks < required nblocks files ∨ taken nblocks files < nblocks := by
  by_cases fits : required nblocks files ≤ nblocks
  · have ends := @fsformat_outOfDiskBlocks_iff nblocks heap stamp files two small few regular fits
    simp only [fits, true_imp_iff, Ne, ends, not_le]
    omega
  · simp only [fits, false_imp_iff, true_iff]
    exact Or.inl (not_le.mp fits)

def plainHeap : Heap := ⟨fun _ => 0, fun _ => some (false, fun _ => 0)⟩

def smallFile : InputFile := ⟨[97], true, [1]⟩

def directFile : InputFile := ⟨[97], true, List.replicate (nDirect * blkSize) 1⟩

theorem directFile_length : directFile.contents.length = nDirect * blkSize :=
  List.length_replicate

theorem required_directFile (nblocks : Nat) :
    required nblocks [directFile] = 14 + bitmapBlocks nblocks := by
  have file : fileBlocks directFile.contents.length = 11 := by
    rw [directFile_length]
    decide
  have one : dataBlocks (1 * direntSize) = 1 := by decide
  have none : indexBlocks 1 = 0 := by decide
  simp only [required, List.map_cons, List.map_nil, List.sum_cons, List.sum_nil,
    List.length_singleton, file, one, none]
  omega

theorem taken_directFile (nblocks : Nat) :
    taken nblocks [directFile] = 15 + bitmapBlocks nblocks := by
  have file : fileTaken directFile.contents.length = 12 := by
    rw [directFile_length]
    decide
  have one : dataBlocks (1 * direntSize) = 1 := by decide
  simp only [taken, List.map_cons, List.map_nil, List.sum_cons, List.sum_nil,
    List.length_singleton, file, one]
  omega

/-- A disk of six blocks is too small for contents of six blocks, and one of sixteen for a
file of ten blocks that needs fifteen with the directory. -/
theorem fsformat_fits_fails :
    required 6 [smallFile] ≤ 6 ∧ required 16 [directFile] ≤ 16 ∧
      fsformat plainHeap ⟨0, 0, 0⟩ 6 [smallFile] = .error .outOfDiskBlocks ∧
      fsformat plainHeap ⟨0, 0, 0⟩ 16 [directFile] = .error .outOfDiskBlocks := by
  have first : required 6 [smallFile] ≤ 6 := by decide
  have second : required 16 [directFile] ≤ 16 := by
    rw [required_directFile]
    decide
  refine ⟨first, second, ?_, ?_⟩
  · apply (fsformat_outOfDiskBlocks_iff (by norm_num) (by norm_num) (by decide) (by decide)
      first).mpr
    decide
  · apply (fsformat_outOfDiskBlocks_iff (by norm_num) (by norm_num) (by simp [maxDirEnts])
      (by simp [directFile]) second).mpr
    rw [taken_directFile]
    decide

/-- The contents of six blocks fit once the disk has seven. -/
theorem fsformat_fits_iff_sample :
    (required 7 [smallFile] ≤ 7 →
        fsformat plainHeap ⟨0, 0, 0⟩ 7 [smallFile] ≠ .error .outOfDiskBlocks) ∧
      ¬ (required 6 [smallFile] ≤ 6 →
        fsformat plainHeap ⟨0, 0, 0⟩ 6 [smallFile] ≠ .error .outOfDiskBlocks) := by
  constructor
  · apply (fsformat_fits_iff plainHeap ⟨0, 0, 0⟩ 7 [smallFile] (by norm_num) (by norm_num)
      (by decide) (by decide)).mpr
    decide
  · intro claimed
    have condition := (fsformat_fits_iff plainHeap ⟨0, 0, 0⟩ 6 [smallFile] (by norm_num)
      (by norm_num) (by decide) (by decide)).mp claimed
    exact absurd condition (by decide)

end OsLabs.Fs
