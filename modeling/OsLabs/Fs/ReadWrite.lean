import OsLabs.Fs.InodeWrite

/-!
# Reading what was written

`inode_read` never fails on a file whose slots hold blocks of the image, and what
`inode_write` reports as written is what it returns.
-/

set_option autoImplicit false

namespace OsLabs.Fs

open OsLabs.ByteMemory OsLabs.ExceptRules

section Reads

variable {stubs : InodeStubs} {ino : Nat} {valid : Memory → Prop} {map : Memory}

/-- `inode_block_walk` without allocation finds a slot or misses an index block, and a slot
holds zero or the number of a block of the image. -/
structure WalkDocumented (stubs : InodeStubs) (valid : Memory → Prop) : Prop where
  walk : ∀ {map n}, valid map → n < nDirect + nIndirect + nDouble →
    (∃ slot, stubs.blockWalk map n = .ok slot) ∨ stubs.blockWalk map n = .error .noent
  number : ∀ {map n slot}, valid map → stubs.blockWalk map n = .ok slot →
    loadLE map slot 4 ≠ 0 → ∃ blk, diskblock2memaddr map (loadLE map slot 4) = .ok blk

/-! ## inode_read -/

theorem WalkDocumented.chunk (walk : WalkDocumented stubs valid) (mapValid : valid map)
    {n : Nat} (inside : n < nDirect + nIndirect + nDouble) (start bn : Nat) :
    ∃ pblkno out, readWalk stubs map n = .ok pblkno ∧
      readChunk map pblkno start bn = .ok out := by
  rcases walk.walk mapValid inside with ⟨slot, found⟩ | missing
  · by_cases zero : loadLE map slot 4 = 0
    · refine ⟨some slot, List.replicate bn 0, ?_, ?_⟩
      · rw [readWalk, found]
      · rw [readChunk, if_pos zero]
    · obtain ⟨blk, address⟩ := walk.number mapValid found zero
      refine ⟨some slot, (List.range bn).map fun i => map (blk + start + i), ?_, ?_⟩
      · rw [readWalk, found]
      · rw [readChunk, if_neg zero, address]
        rfl
  · refine ⟨none, List.replicate bn 0, ?_, rfl⟩
    rw [readWalk, missing]

/-- The loop does not fail before the last block that a 32-bit position can be in. -/
theorem WalkDocumented.readLoop_ok (walk : WalkDocumented stubs valid) (mapValid : valid map)
    {stop : Nat} (bound : stop < 2 ^ 32) (togo pos : Nat) :
    ∃ out, readLoop stubs map stop togo pos = .ok out := by
  induction togo generalizing pos with
  | zero => exact ⟨[], rfl⟩
  | succ togo ih =>
      rw [readLoop]
      by_cases more : pos < stop
      · rw [if_pos more]
        have block : pos / blkSize < nDirect + nIndirect + nDouble := by
          simp only [nDirect, nIndirect, nDouble, blkSize]
          omega
        obtain ⟨pblkno, bytes, walked, chunk⟩ := walk.chunk mapValid block (pos % blkSize)
          (min (blkSize - pos % blkSize) (stop - pos))
        obtain ⟨rest, loop⟩ :=
          ih ((pos + min (blkSize - pos % blkSize) (stop - pos)) % 2 ^ 32)
        refine ⟨bytes ++ rest, ?_⟩
        simp only [walked, chunk, loop, ok_bind]
      · exact ⟨[], by rw [if_neg more]⟩

theorem iSizeOf_lt (ino : Nat) (map : Memory) : iSizeOf ino map < 2 ^ 32 :=
  loadLE_lt map (ino + iSize) 4

/-- `inode_read` returns the bytes of the file from the offset on, as far as it goes. -/
theorem WalkDocumented.read (walk : WalkDocumented stubs valid) (mapValid : valid map)
    (count offset : Nat) : inodeRead stubs ino map count offset =
      .ok ((List.range' offset (min count (iSizeOf ino map - offset))).map
        (byteAt stubs map)) := by
  have size := iSizeOf_lt ino map
  have returned : ∃ out, inodeRead stubs ino map count offset = .ok out := by
    rw [inodeRead]
    split
    · exact ⟨[], rfl⟩
    · exact walk.readLoop_ok mapValid (by omega) _ _
  obtain ⟨out, ran⟩ := returned
  rw [ran, inodeRead_bytes size ran]

/-! ## inode_write and then inode_read -/

/-- A read gives the bytes of the file, with zeros where it has no block, and after a write
the same read gives the buffer; every other byte of the file reads as before. -/
theorem read_write_agree (doc : Documented stubs ino valid) (walk : WalkDocumented stubs valid)
    (mapValid : valid map) {count offset : Nat} (bound : offset + count < 2 ^ 32)
    (buf : Nat → UInt8) :
    (iSizeOf ino map ≤ offset → inodeRead stubs ino map count offset = .ok []) ∧
    (offset < iSizeOf ino map → ∃ out, inodeRead stubs ino map count offset = .ok out ∧
      out.length = min count (iSizeOf ino map - offset) ∧
      ∀ i, i < out.length → out[i]? = some (byteAt stubs map (offset + i))) ∧
    ∀ fuel after, count < fuel →
      inodeWrite stubs ino fuel map buf count offset = (.ok (count : Int), after) →
      iSizeOf ino after = max (iSizeOf ino map) (offset + count) ∧
      inodeRead stubs ino after count offset = .ok ((List.range count).map buf) ∧
      ∀ i < iSizeOf ino map, i < offset ∨ offset + count ≤ i →
        inodeRead stubs ino after 1 i = inodeRead stubs ino map 1 i := by
  refine ⟨?_, ?_, ?_⟩
  · intro beyond
    rw [inodeRead, if_pos beyond]
  · intro inside
    refine ⟨_, walk.read mapValid count offset, by simp, ?_⟩
    intro i below
    simp only [List.length_map, List.length_range'] at below
    simp [below]
  · intro fuel after enough ran
    obtain ⟨grown, reached, middle, _, grownSize, _, grownBytes, _, _, written, ends⟩ :=
      @Documented.inodeWrite _ _ _ _ doc mapValid buf fuel _ _ bound enough
    rcases ends with ⟨whole, loop⟩ | ⟨_, _, number, got, _, loop⟩
    · rw [loop] at ran
      obtain rfl : middle = after := (Prod.mk.inj ran).2
      have size : iSizeOf ino middle = max (iSizeOf ino map) (offset + count) := by
        rw [written.size, grownSize]
      have bytes : ∀ i, byteAt stubs middle i =
          if offset ≤ i ∧ i < offset + count then buf (i - offset) else byteAt stubs map i := by
        intro i
        rw [written.bytes, grownBytes, whole]
      refine ⟨size, ?_, ?_⟩
      · have length : min count (iSizeOf ino middle - offset) = count := by omega
        rw [walk.read written.valid, length, List.range'_eq_map_range, List.map_map]
        congr 1
        apply List.map_congr_left
        intro k member
        have inside := List.mem_range.mp member
        simp only [Function.comp]
        rw [bytes, if_pos (by omega), Nat.add_sub_cancel_left]
      · intro i inside outside
        have one : min 1 (iSizeOf ino middle - i) = 1 := by omega
        have first : min 1 (iSizeOf ino map - i) = 1 := by omega
        rw [walk.read written.valid, walk.read mapValid, one, first, List.range'_one,
          List.map_singleton, List.map_singleton, bytes, if_neg (by omega)]
    · rw [loop] at ran
      cases ran

end Reads

/-! ## The sample inode without index blocks -/

theorem DocumentedErrors.congr {stubs other : InodeStubs} {ino : Nat} {valid : Memory → Prop}
    (doc : DocumentedErrors stubs ino valid) (places : blockAt other = blockAt stubs)
    (get : other.getBlock = stubs.getBlock)
    (truncate : other.truncateBlocks = stubs.truncateBlocks) :
    DocumentedErrors other ino valid := by
  have kept : Kept other = Kept stubs := by
    funext before after n
    simp only [Kept, places]
  have own : OwnByte other ino = OwnByte stubs ino := by
    funext map x
    simp only [OwnByte, places]
  constructor
  · constructor
    · rw [places]
      exact doc.apart
    · rw [places]
      exact doc.inode
    · rw [places, own]
      exact doc.own
    · rw [places, kept, get]
      exact doc.get
    · rw [places, kept, truncate]
      exact doc.truncate
  · rw [places, get]
    exact doc.found
  · rw [kept, get]
    exact doc.refused

def sparseStubs : InodeStubs where
  blockWalk := fun _ n =>
    if n < nDirect then .ok (directSlot n)
    else if n < nDirect + nIndirect + nDouble then .error .noent
    else .error .inval
  getBlock := directStubs.getBlock
  truncateBlocks := directStubs.truncateBlocks

theorem sparseStubs_blockAt : blockAt sparseStubs = blockAt directStubs := by
  funext map n
  simp only [blockAt, sparseStubs, directStubs]
  by_cases direct : n < nDirect
  · simp only [if_pos direct]
  · simp only [if_neg direct]
    by_cases indirect : n < nDirect + nIndirect + nDouble
    · simp only [if_pos indirect]
    · simp only [if_neg indirect]

theorem sparseStubs_documented : DocumentedErrors sparseStubs directIno DirectValid :=
  directStubs_documented.congr sparseStubs_blockAt rfl rfl

theorem sparseStubs_walk : WalkDocumented sparseStubs DirectValid where
  walk := by
    intro map n mapValid inside
    simp only [sparseStubs]
    by_cases direct : n < nDirect
    · rw [if_pos direct]
      exact Or.inl ⟨_, rfl⟩
    · rw [if_neg direct, if_pos inside]
      exact Or.inr rfl
  number := by
    intro map n slot mapValid found full
    simp only [sparseStubs] at found
    split at found
    · rename_i direct
      cases found
      have number := (mapValid.slots n direct).resolve_left full
      refine ⟨_, if_neg ?_⟩
      rw [number, mapValid.blocks]
      simp only [nDirect] at direct
      omega
    · split at found <;> cases found

/-- Three bytes across the end of the first block of an empty file. -/
theorem read_write_agree_sample :
    ∃ after, inodeWrite sparseStubs directIno 4 directMap (fun i => [65, 66, 67].getD i 0) 3 4095 =
        (.ok 3, after) ∧
      inodeRead sparseStubs directIno after 3 4095 = .ok [65, 66, 67] := by
  obtain ⟨result, after, ran⟩ : ∃ result after, inodeWrite sparseStubs directIno 4 directMap
      (fun i => [65, 66, 67].getD i 0) 3 4095 = (result, after) := ⟨_, _, rfl⟩
  have answer : (inodeWrite sparseStubs directIno 4 directMap
      (fun i => [65, 66, 67].getD i 0) 3 4095).1 = .ok 3 := by
    decide +kernel
  rw [ran] at answer
  obtain rfl : result = .ok 3 := answer
  have agree := (read_write_agree sparseStubs_documented.toDocumented sparseStubs_walk
    directMap_fresh.valid (show 4095 + 3 < 2 ^ 32 by norm_num)
    (fun i => [65, 66, 67].getD i 0)).2.2 4 after (by norm_num) ran
  exact ⟨after, ran, agree.2.1⟩

end OsLabs.Fs
