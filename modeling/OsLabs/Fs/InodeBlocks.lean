import OsLabs.Fs.ReadWrite

/-!
# Every block of a file

`inode_flush` and `inode_stat` of inode.c go over the blocks of a file.  Each of them
rounds the size up in 32 bits, by a formula of its own; `msync` succeeds.
-/

set_option autoImplicit false

namespace OsLabs.Fs

open OsLabs.ByteMemory OsLabs.ExceptRules

def iRdev : Nat := 12

/-- The block that `msync` writes. -/
def flushBlock (addr : Nat) : Nat := addr - addr % blkSize

section Model

variable (stubs : InodeStubs) (ino : Nat) (map : Memory)

/-! ## inode_flush -/

/-- `flush_block(diskblock2memaddr(number))` unless there is no block. -/
def flushNumber (number : Nat) : Except Stop (List Nat) :=
  if number = 0 then .ok []
  else do
    let blk ← diskblock2memaddr map number
    .ok [flushBlock blk]

/-- The loop over the blocks, from block `i` on. -/
def flushData : Nat → Nat → Except Stop (List Nat)
  | 0, _ => .ok []
  | togo + 1, i => do
      let first ← match stubs.blockWalk map i with
        | .error _ => .ok []
        | .ok slot => flushNumber map (loadLE map slot 4)
      let rest ← flushData togo (i + 1)
      .ok (first ++ rest)

/-- The loop over the tables of the double-indirect block, from entry `i` on. -/
def flushTables (table : Nat) : Nat → Nat → Except Stop (List Nat)
  | 0, _ => .ok []
  | togo + 1, i => do
      let first ← flushNumber map (loadLE map (table + 4 * i) 4)
      let rest ← flushTables table togo (i + 1)
      .ok (first ++ rest)

def flushDouble (number : Nat) : Except Stop (List Nat) :=
  if number = 0 then .ok []
  else do
    let table ← diskblock2memaddr map number
    let tables ← flushTables map table nIndirect 0
    .ok (tables ++ [flushBlock table])

def inodeFlush : Except Stop (List Nat) := do
  let data ← flushData stubs map ((iSizeOf ino map + blkSize - 1) % 2 ^ 32 / blkSize) 0
  let indirect ← flushNumber map (loadLE map (ino + iIndirect) 4)
  let double ← flushDouble map (loadLE map (ino + iDouble) 4)
  .ok (data ++ [flushBlock ino] ++ indirect ++ double)

/-! ## inode_stat -/

/-- `struct stat`. -/
structure Stat where
  mode : Nat
  size : Nat
  blksize : Nat
  blocks : Nat
  nlink : Nat
  mtime : Nat
  atime : Nat
  ctime : Nat
  uid : Nat
  gid : Nat
  rdev : Nat
  deriving DecidableEq, Repr

/-- The loop over the blocks, from block `i` on. -/
def countBlocks : Nat → Nat → Nat → Nat
  | 0, _, nblocks => nblocks
  | togo + 1, i, nblocks =>
      match stubs.blockWalk map i with
      | .error _ => countBlocks togo (i + 1) nblocks
      | .ok slot =>
          countBlocks togo (i + 1) (if loadLE map slot 4 ≠ 0 then nblocks + 1 else nblocks)

def inodeStat : Stat where
  mode := loadLE map (ino + iMode) 4
  size := iSizeOf ino map
  blksize := blkSize
  blocks := countBlocks stubs map (roundUp (iSizeOf ino map) / blkSize) 0 0 *
    (blkSize / 512) % 2 ^ 32
  nlink := loadLE map (ino + iNlink) 2
  mtime := loadLE map (ino + iMtime) 8
  atime := loadLE map (ino + iAtime) 8
  ctime := loadLE map (ino + iCtime) 8
  uid := loadLE map (ino + iOwner) 4
  gid := loadLE map (ino + iGroup) 4
  rdev := loadLE map (ino + iRdev) 8

/-! ## All the blocks -/

def allocated : List Nat :=
  (List.range (blocksOf (iSizeOf ino map))).filter fun n => (blockAt stubs map n).isSome

def Numbers : Prop := ∀ {n slot}, stubs.blockWalk map n = .ok slot → loadLE map slot 4 ≠ 0 →
  ∃ blk, diskblock2memaddr map (loadLE map slot 4) = .ok blk

/-- The numbers of the index blocks are numbers of blocks. -/
structure IndexDocumented : Prop where
  indirect : loadLE map (ino + iIndirect) 4 ≠ 0 →
    ∃ blk, diskblock2memaddr map (loadLE map (ino + iIndirect) 4) = .ok blk
  double : loadLE map (ino + iDouble) 4 ≠ 0 → ∃ table,
    diskblock2memaddr map (loadLE map (ino + iDouble) 4) = .ok table ∧
      ∀ k < nIndirect, loadLE map (table + 4 * k) 4 ≠ 0 →
        ∃ blk, diskblock2memaddr map (loadLE map (table + 4 * k) 4) = .ok blk

structure SeesAll : Prop where
  flush : ∃ blocks, inodeFlush stubs ino map = .ok blocks ∧
    (∀ n ∈ allocated stubs ino map, ∀ blk, blockAt stubs map n = some blk →
      flushBlock blk ∈ blocks) ∧
    flushBlock ino ∈ blocks ∧
    (∀ blk, diskblock2memaddr map (loadLE map (ino + iIndirect) 4) = .ok blk →
      flushBlock blk ∈ blocks) ∧
    ∀ table, diskblock2memaddr map (loadLE map (ino + iDouble) 4) = .ok table →
      flushBlock table ∈ blocks ∧ ∀ k < nIndirect, ∀ blk,
        diskblock2memaddr map (loadLE map (table + 4 * k) 4) = .ok blk →
          flushBlock blk ∈ blocks
  stat : (inodeStat stubs ino map).blocks = 8 * (allocated stubs ino map).length

end Model

section Blocks

variable {stubs : InodeStubs} {ino : Nat} {map : Memory} {valid : Memory → Prop}

/-! ## What the loops visit -/

theorem flushNumber_ok {number : Nat}
    (present : number ≠ 0 → ∃ blk, diskblock2memaddr map number = .ok blk) :
    ∃ blocks, flushNumber map number = .ok blocks ∧
      ∀ blk, diskblock2memaddr map number = .ok blk → flushBlock blk ∈ blocks := by
  rw [flushNumber]
  by_cases zero : number = 0
  · refine ⟨[], if_pos zero, ?_⟩
    intro blk found
    rw [diskblock2memaddr, if_pos (Or.inl zero)] at found
    cases found
  · obtain ⟨blk, found⟩ := present zero
    refine ⟨[flushBlock blk], ?_, ?_⟩
    · rw [if_neg zero, found]
      rfl
    · intro other same
      rw [found] at same
      cases same
      exact List.mem_singleton_self _

theorem flushData_ok (numbers : Numbers stubs map) (togo i : Nat) :
    ∃ blocks, flushData stubs map togo i = .ok blocks ∧
      ∀ n, i ≤ n → n < i + togo → ∀ blk, blockAt stubs map n = some blk →
        flushBlock blk ∈ blocks := by
  induction togo generalizing i with
  | zero =>
      refine ⟨[], rfl, ?_⟩
      intro n lower upper
      omega
  | succ togo ih =>
      obtain ⟨rest, loop, members⟩ := ih (i + 1)
      rw [flushData, loop]
      cases walked : stubs.blockWalk map i with
      | error number =>
          refine ⟨[] ++ rest, rfl, ?_⟩
          intro n lower upper blk found
          by_cases here : n = i
          · rw [here, blockAt, walked] at found
            cases found
          · exact members n (by omega) (by omega) blk found
      | ok slot =>
          obtain ⟨first, flushed, inside⟩ :=
            flushNumber_ok fun full => numbers walked full
          refine ⟨first ++ rest, ?_, ?_⟩
          · simp only [flushed, ok_bind]
          · intro n lower upper blk found
            by_cases here : n = i
            · rw [here, blockAt, walked] at found
              simp only at found
              split at found
              · cases found
              · obtain ⟨place, address⟩ := numbers walked (by assumption)
                rw [address] at found
                cases found
                exact List.mem_append_left _ (inside _ address)
            · exact List.mem_append_right _ (members n (by omega) (by omega) blk found)

theorem flushTables_ok {table : Nat} (togo i : Nat)
    (present : ∀ k, k < i + togo → loadLE map (table + 4 * k) 4 ≠ 0 →
      ∃ blk, diskblock2memaddr map (loadLE map (table + 4 * k) 4) = .ok blk) :
    ∃ blocks, flushTables map table togo i = .ok blocks ∧
      ∀ k, i ≤ k → k < i + togo → ∀ blk,
        diskblock2memaddr map (loadLE map (table + 4 * k) 4) = .ok blk →
          flushBlock blk ∈ blocks := by
  induction togo generalizing i with
  | zero =>
      refine ⟨[], rfl, ?_⟩
      intro k lower upper
      omega
  | succ togo ih =>
      obtain ⟨first, flushed, inside⟩ :=
        @flushNumber_ok map _ (present i (by omega))
      obtain ⟨rest, loop, members⟩ := ih (i + 1) fun k upper => present k (by omega)
      refine ⟨first ++ rest, ?_, ?_⟩
      · rw [flushTables, flushed, ok_bind, loop, ok_bind]
      · intro k lower upper blk found
        by_cases here : k = i
        · rw [here] at found
          exact List.mem_append_left _ (inside blk found)
        · exact List.mem_append_right _ (members k (by omega) (by omega) blk found)

theorem IndexDocumented.flushDouble_ok (index : IndexDocumented ino map) :
    ∃ blocks, flushDouble map (loadLE map (ino + iDouble) 4) = .ok blocks ∧
      ∀ table, diskblock2memaddr map (loadLE map (ino + iDouble) 4) = .ok table →
        flushBlock table ∈ blocks ∧ ∀ k < nIndirect, ∀ blk,
          diskblock2memaddr map (loadLE map (table + 4 * k) 4) = .ok blk →
            flushBlock blk ∈ blocks := by
  rw [flushDouble]
  by_cases zero : loadLE map (ino + iDouble) 4 = 0
  · refine ⟨[], if_pos zero, ?_⟩
    intro table found
    rw [diskblock2memaddr, if_pos (Or.inl zero)] at found
    cases found
  · obtain ⟨table, address, entries⟩ := index.double zero
    obtain ⟨tables, loop, members⟩ := @flushTables_ok map table nIndirect 0 (by
      intro k upper
      exact entries k (by omega))
    refine ⟨tables ++ [flushBlock table], ?_, ?_⟩
    · rw [if_neg zero, address, ok_bind, loop, ok_bind]
    · intro other same
      rw [address] at same
      cases same
      refine ⟨List.mem_append_right _ (List.mem_singleton_self _), ?_⟩
      intro k upper blk found
      exact List.mem_append_left _ (members k (Nat.zero_le _) (by omega) blk found)

/-- `inode_flush` returns. -/
theorem IndexDocumented.flushes (index : IndexDocumented ino map) (numbers : Numbers stubs map) :
    ∃ blocks, inodeFlush stubs ino map = .ok blocks := by
  obtain ⟨data, loop, _⟩ := flushData_ok numbers
    ((iSizeOf ino map + blkSize - 1) % 2 ^ 32 / blkSize) 0
  obtain ⟨indirect, flushed, _⟩ := flushNumber_ok index.indirect
  obtain ⟨double, tables, _⟩ := index.flushDouble_ok
  exact ⟨data ++ [flushBlock ino] ++ indirect ++ double, by
    simp only [inodeFlush, loop, flushed, tables, ok_bind]⟩

theorem WalkDocumented.countBlocks_eq (walk : WalkDocumented stubs valid)
    (mapValid : valid map) (togo i nblocks : Nat) :
    countBlocks stubs map togo i nblocks = nblocks +
      ((List.range' i togo).filter fun n => (blockAt stubs map n).isSome).length := by
  induction togo generalizing i nblocks with
  | zero => rfl
  | succ togo ih =>
      rw [countBlocks, List.range'_succ]
      cases walked : stubs.blockWalk map i with
      | error number =>
          have absent : (blockAt stubs map i).isSome = false := by
            rw [blockAt, walked]
            rfl
          simp only [ih, List.filter_cons, absent, Bool.false_eq_true, if_false]
      | ok slot =>
          by_cases zero : loadLE map slot 4 = 0
          · have absent : (blockAt stubs map i).isSome = false := by
              rw [blockAt, walked]
              simp only [if_pos zero]
              rfl
            simp only [ih, List.filter_cons, absent, Bool.false_eq_true, if_false, zero, ne_eq,
              not_true_eq_false]
          · obtain ⟨place, address⟩ := walk.number mapValid walked zero
            have present : (blockAt stubs map i).isSome = true := by
              rw [blockAt, walked]
              simp only [if_neg zero, address]
              rfl
            simp only [ih, List.filter_cons, present, if_true, zero, ne_eq, not_false_eq_true,
              List.length_cons]
            omega

/-! ## How often the loops turn -/

/-- Both formulas give the same number of turns, which is none when the sum wraps. -/
theorem roundUp_turns {size : Nat} (word : size < 2 ^ 32) :
    roundUp size / blkSize = (size + blkSize - 1) % 2 ^ 32 / blkSize := by
  simp only [roundUp, blkSize]
  omega

theorem turns_whole {size : Nat} (bound : size + blkSize ≤ 2 ^ 32) :
    (size + blkSize - 1) % 2 ^ 32 / blkSize = blocksOf size := by
  simp only [blocksOf, blkSize] at bound ⊢
  omega

theorem turns_wrapped {size : Nat} (word : size < 2 ^ 32) (wraps : 2 ^ 32 < size + blkSize) :
    (size + blkSize - 1) % 2 ^ 32 / blkSize = 0 := by
  simp only [blkSize] at wraps ⊢
  omega

/-- The two functions see what is allocated below the number of turns. -/
theorem WalkDocumented.seesAll (walk : WalkDocumented stubs valid) (mapValid : valid map)
    (index : IndexDocumented ino map)
    (turns : ∀ n ∈ allocated stubs ino map,
      n < (iSizeOf ino map + blkSize - 1) % 2 ^ 32 / blkSize)
    (count : (inodeStat stubs ino map).blocks = 8 * (allocated stubs ino map).length) :
    SeesAll stubs ino map := by
  obtain ⟨data, loop, members⟩ := flushData_ok (walk.number mapValid)
    ((iSizeOf ino map + blkSize - 1) % 2 ^ 32 / blkSize) 0
  obtain ⟨indirect, flushed, inIndirect⟩ := flushNumber_ok index.indirect
  obtain ⟨double, tables, inDouble⟩ := index.flushDouble_ok
  refine ⟨⟨data ++ [flushBlock ino] ++ indirect ++ double, ?_, ?_, ?_, ?_, ?_⟩, count⟩
  · simp only [inodeFlush, loop, flushed, tables, ok_bind]
  · intro n member blk found
    have inData := members n (Nat.zero_le _) (by have := turns n member; omega) blk found
    simp only [List.mem_append]
    exact Or.inl (Or.inl (Or.inl inData))
  · simp
  · intro blk found
    have member := inIndirect blk found
    simp only [List.mem_append]
    exact Or.inl (Or.inr member)
  · intro table found
    obtain ⟨own, entries⟩ := inDouble table found
    refine ⟨List.mem_append_right _ own, ?_⟩
    intro k upper blk address
    exact List.mem_append_right _ (entries k upper blk address)

theorem WalkDocumented.stat_blocks (walk : WalkDocumented stubs valid) (mapValid : valid map) :
    (inodeStat stubs ino map).blocks = ((List.range
      ((iSizeOf ino map + blkSize - 1) % 2 ^ 32 / blkSize)).filter
        fun n => (blockAt stubs map n).isSome).length * 8 % 2 ^ 32 := by
  simp only [inodeStat]
  rw [roundUp_turns (iSizeOf_lt ino map), walk.countBlocks_eq mapValid, Nat.zero_add,
    List.range_eq_range', show blkSize / 512 = 8 from rfl]

theorem WalkDocumented.stat_whole (walk : WalkDocumented stubs valid) (mapValid : valid map)
    (bound : iSizeOf ino map + blkSize ≤ 2 ^ 32) :
    (inodeStat stubs ino map).blocks = 8 * (allocated stubs ino map).length := by
  have few : (allocated stubs ino map).length ≤ blocksOf (iSizeOf ino map) := by
    have kept := List.length_filter_le (fun n => (blockAt stubs map n).isSome)
      (List.range (blocksOf (iSizeOf ino map)))
    rwa [List.length_range] at kept
  have small : blocksOf (iSizeOf ino map) < 2 ^ 21 := by
    simp only [blocksOf, blkSize] at bound ⊢
    omega
  rw [walk.stat_blocks mapValid, turns_whole bound]
  change (allocated stubs ino map).length * 8 % 2 ^ 32 = 8 * (allocated stubs ino map).length
  omega

theorem WalkDocumented.stat_wrapped (walk : WalkDocumented stubs valid) (mapValid : valid map)
    (wraps : 2 ^ 32 < iSizeOf ino map + blkSize) : (inodeStat stubs ino map).blocks = 0 := by
  rw [walk.stat_blocks mapValid, turns_wrapped (iSizeOf_lt ino map) wraps]
  rfl

/-- Whether the file has blocks and a size that the formulas round up to zero decides
whether `inode_stat` misses some. -/
theorem WalkDocumented.stat_iff (walk : WalkDocumented stubs valid) (mapValid : valid map) :
    (inodeStat stubs ino map).blocks = 8 * (allocated stubs ino map).length ↔
      iSizeOf ino map + blkSize ≤ 2 ^ 32 ∨ allocated stubs ino map = [] := by
  by_cases bound : iSizeOf ino map + blkSize ≤ 2 ^ 32
  · exact iff_of_true (walk.stat_whole mapValid bound) (Or.inl bound)
  · rw [walk.stat_wrapped mapValid (not_le.mp bound)]
    constructor
    · intro none
      right
      apply List.eq_nil_of_length_eq_zero
      omega
    · intro either
      rw [either.resolve_left bound]
      rfl

/-- `inode_flush` and `inode_stat` see every block of the file exactly when its size is at
most 2^32 - BLKSIZE or it has no data block. -/
theorem inode_sees_all_iff (walk : WalkDocumented stubs valid) (mapValid : valid map)
    (index : IndexDocumented ino map) :
    SeesAll stubs ino map ↔
      iSizeOf ino map + blkSize ≤ 2 ^ 32 ∨ allocated stubs ino map = [] := by
  constructor
  · intro sees
    exact (walk.stat_iff mapValid).mp sees.stat
  · intro either
    apply walk.seesAll mapValid index _ ((walk.stat_iff mapValid).mpr either)
    intro n member
    rcases either with bound | empty
    · rw [turns_whole bound]
      exact List.mem_range.mp (List.mem_of_mem_filter member)
    · rw [empty] at member
      cases member

end Blocks

/-! ## A file with one block -/

/-- The first block of the file is there, whatever the size. -/
def oneBlockMap (size : Nat) : Memory :=
  storeLE (storeLE directMap (directSlot 0) 4 16) (directIno + iSize) 4 size

theorem oneBlockMap_apart {size x : Nat}
    (slot : directSlot 0 + 4 ≤ x ∨ x + 4 ≤ directSlot 0)
    (inode : directIno + iSize + 4 ≤ x ∨ x + 4 ≤ directIno + iSize) :
    loadLE (oneBlockMap size) x 4 = loadLE directMap x 4 := by
  rw [oneBlockMap, loadLE_storeLE_apart _ _ _ _ _ _ (by omega),
    loadLE_storeLE_apart _ _ _ _ _ _ (by omega)]

theorem oneBlockMap_slot (size : Nat) : loadLE (oneBlockMap size) (directSlot 0) 4 = 16 := by
  rw [oneBlockMap, loadLE_storeLE_apart _ _ _ _ _ _ (by decide), loadLE_storeLE]
  rfl

theorem oneBlockMap_valid (size : Nat) : DirectValid (oneBlockMap size) := by
  have fresh := directMap_fresh.valid
  constructor
  · rw [oneBlockMap_apart (by decide) (by decide)]
    exact fresh.blocks
  · intro n inside
    by_cases first : n = 0
    · rw [first]
      exact Or.inr (oneBlockMap_slot size)
    · rw [oneBlockMap_apart (by simp only [directSlot]; omega)
        (by simp only [directSlot, iDirect, iSize]; omega)]
      exact fresh.slots n inside

theorem oneBlockMap_index (size : Nat) : IndexDocumented directIno (oneBlockMap size) := by
  have indirect : loadLE (oneBlockMap size) (directIno + iIndirect) 4 = 0 := by
    rw [oneBlockMap_apart (by decide) (by decide)]
    decide +kernel
  have double : loadLE (oneBlockMap size) (directIno + iDouble) 4 = 0 := by
    rw [oneBlockMap_apart (by decide) (by decide)]
    decide +kernel
  constructor
  · intro present
    exact absurd indirect present
  · intro present
    exact absurd double present

theorem oneBlockMap_size {size : Nat} (word : size < 2 ^ 32) :
    iSizeOf directIno (oneBlockMap size) = size := by
  rw [iSizeOf, oneBlockMap, loadLE_storeLE]
  omega

theorem oneBlockMap_allocated {size : Nat} (word : size < 2 ^ 32) (positive : 0 < size) :
    0 ∈ allocated sparseStubs directIno (oneBlockMap size) := by
  have inside : 0 < blocksOf size := by
    simp only [blocksOf, blkSize]
    omega
  have present : 0 < nDirect ∧ loadLE (oneBlockMap size) (directSlot 0) 4 ≠ 0 := by
    rw [oneBlockMap_slot]
    decide
  rw [allocated, oneBlockMap_size word, List.mem_filter, List.mem_range, sparseStubs_blockAt,
    (oneBlockMap_valid size).blockAt, if_pos present]
  exact ⟨inside, rfl⟩

/-- The block is not counted in a file of the largest size. -/
theorem inode_sees_all_fails :
    ¬ SeesAll sparseStubs directIno (oneBlockMap (2 ^ 32 - 1)) := by
  intro sees
  have word : 2 ^ 32 - 1 < 2 ^ 32 := by norm_num
  rcases (sparseStubs_walk.stat_iff (oneBlockMap_valid _)).mp sees.stat with bound | empty
  · rw [oneBlockMap_size word] at bound
    simp only [blkSize] at bound
    omega
  · have member := oneBlockMap_allocated word (by norm_num)
    rw [empty] at member
    cases member

/-- The largest size at which it is seen. -/
theorem inode_sees_all_iff_sample :
    SeesAll sparseStubs directIno (oneBlockMap (2 ^ 32 - 4096)) := by
  apply (inode_sees_all_iff sparseStubs_walk (oneBlockMap_valid _) (oneBlockMap_index _)).mpr
  left
  rw [oneBlockMap_size (by norm_num)]
  norm_num

end OsLabs.Fs
