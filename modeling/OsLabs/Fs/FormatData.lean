import OsLabs.Fs.FormatDirectory
import OsLabs.Fs.FormatSpace

/-!
# The data of a file and the blocks reserved for it

`writeinode` takes a block for the inode and the blocks for the data before it stores
anything of the file, and `finishinode` takes the index blocks behind them.  Blocks are
handed out upwards and never again, so nothing that comes earlier or later touches them.
-/

set_option autoImplicit false

namespace OsLabs.Fs

open OsLabs.ByteMemory OsLabs.ExceptRules OsLabs.Budget

/-! ## The two halves of writeinode -/

/-- The call of `readn`. -/
def storeFile (file : InputFile) (start : Nat) (disk : Disk) : Disk :=
  { disk with
    map := blit disk.map start file.contents.length fun i => file.contents.getD i 0 }

/-- What holds between two calls of `alloc` on a disk that is mapped whole. -/
structure AllocatorState (disk : Disk) : Prop where
  blank : Blank disk
  few : disk.nblocks < 2 ^ 20
  mapped : disk.pos ≤ mappedBytes disk.nblocks
  below : ∀ region ∈ disk.made, ∀ block, region.has block → block < disk.pos / 4096

theorem AllocatorState.bytes {disk : Disk} (state : AllocatorState disk) :
    mappedBytes disk.nblocks = disk.nblocks * blkSize := by
  have few := state.few
  simp only [mappedBytes, blkSize]
  omega

/-- More allocations, with stores into the image between them. -/
inductive Follows (disk : Disk) : Disk → Prop
  | refl : Follows disk disk
  | store {later : Disk} (map : Memory) : Follows disk later →
      Follows disk { later with map := map }
  | alloc {later next : Disk} {use : Use} {bytes place : Nat} : Follows disk later →
      alloc use bytes later = .ok (place, next) → Follows disk next

section Allocator

variable {disk later next last : Disk} {use : Use} {bytes place : Nat}

theorem alloc_region (run : alloc use bytes disk = .ok (place, next)) :
    place = disk.pos ∧ next.map = disk.map ∧ next.nblocks = disk.nblocks ∧
      next.pos = disk.pos + roundUp (bytes % 2 ^ 32) ∧ blockof next.pos < disk.nblocks ∧
      next.made = disk.made ++
        [⟨use, disk.pos / blkSize, roundUp (bytes % 2 ^ 32) / blkSize⟩] := by
  obtain ⟨room, rfl, rfl⟩ := alloc_eq_ok.mp run
  exact ⟨rfl, rfl, rfl, rfl, room, rfl⟩

theorem Follows.trans {middle : Disk} (first : Follows disk middle)
    (second : Follows middle later) : Follows disk later := by
  induction second with
  | refl => exact first
  | store map _ ih => exact .store map ih
  | alloc _ run ih => exact .alloc ih run

theorem Follows.behind (follows : Follows disk later) :
    disk.pos ≤ later.pos ∧ later.nblocks = disk.nblocks ∧ ∃ more,
      later.made = disk.made ++ more ∧
        ∀ region ∈ more, disk.pos / blkSize ≤ region.start := by
  induction follows with
  | refl => exact ⟨Nat.le_refl _, rfl, [], (List.append_nil _).symm, by simp⟩
  | store map _ ih => exact ih
  | @alloc later next use bytes place _ run ih =>
      obtain ⟨above, blocks, more, made, starts⟩ := ih
      obtain ⟨_, _, nextBlocks, position, _, region⟩ := alloc_region run
      refine ⟨by omega, nextBlocks.trans blocks,
        more ++ [⟨use, later.pos / blkSize, roundUp (bytes % 2 ^ 32) / blkSize⟩], ?_, ?_⟩
      · rw [region, made, List.append_assoc]
      · intro other member
        rcases List.mem_append.mp member with old | new
        · exact starts other old
        · rw [List.mem_singleton.mp new]
          exact Nat.div_le_div_right above

theorem fillDouble_follows {inind start blocks togo j i : Nat}
    (run : fillDouble inind start blocks togo j i disk = .ok last) : Follows disk last := by
  induction togo generalizing j i disk with
  | zero =>
      cases run
      exact .refl
  | succ togo ih =>
      rw [fillDouble] at run
      obtain ⟨⟨ind, made⟩, given, run⟩ := bind_eq_ok.mp run
      exact ((Follows.refl.alloc given).store _).trans (ih run)

theorem finishinode_follows {inode start len : Nat}
    (run : finishinode inode start len disk = .ok last) : Follows disk last := by
  simp only [finishinode] at run
  split at run
  · obtain ⟨⟨ind, made⟩, given, run⟩ := bind_eq_ok.mp run
    have first := ((Follows.refl.store _).alloc given)
    split at run
    · obtain ⟨⟨inind, further⟩, given', run⟩ := bind_eq_ok.mp run
      have second := ((first.store _).alloc given')
      exact (second.store _).trans (fillDouble_follows run)
    · cases run
      exact first.store _
  · cases run
    exact Follows.refl.store _

end Allocator

/-- The region that `alloc` gives out for the data. -/
def dataRegion (file : InputFile) (start : Nat) : Region :=
  ⟨.data, start / blkSize, dataBlocks file.contents.length⟩

/-- The bytes of the file are in the region, and nothing else has changed. -/
structure FileStored (file : InputFile) (start : Nat) (before after : Disk) : Prop where
  bytes : ∀ i < file.contents.length, after.map (start + i) = file.contents.getD i 0 ∧
    (dataRegion file start).has ((start + i) / blkSize)
  kept : ∀ x, ¬ (dataRegion file start).has (x / blkSize) → after.map x = before.map x

/-- The inode describes the file, whose bytes are still there. -/
structure FileWritten (file : InputFile) (inode start : Nat) (reserved last : Disk) :
    Prop where
  follows : Follows reserved last
  size : loadLE last.map (inode + iSize) 4 = file.contents.length
  covers : ∀ k < dataBlocks file.contents.length,
    slotOf last.map inode k = some (start / blkSize + k)
  bytes : ∀ i < file.contents.length, last.map (start + i) = file.contents.getD i 0

section OneFile

variable {heap : Heap} {stamp : Stamp} {id grown : IDir} {file : InputFile}
  {disk reserved last : Disk} {inode start : Nat}

structure Reserving (disk : Disk) (file : InputFile) (inode start : Nat) (reserved : Disk) :
    Prop where
  first : inode = disk.pos
  second : start = disk.pos + blkSize
  nblocks : reserved.nblocks = disk.nblocks
  pos : reserved.pos = start + dataBlocks file.contents.length * blkSize
  full : blockof reserved.pos < disk.nblocks
  made : reserved.made =
    disk.made ++ [⟨.inode, inode / blkSize, 1⟩] ++ [dataRegion file start]
  map : ∀ x, ¬ (inode ≤ x ∧ x < inode + iDirect) → reserved.map x = disk.map x

theorem dataBlocks_eq (size : Nat) : dataBlocks size = (size + 4095) / 4096 := by
  simp only [dataBlocks, blkSize]
  omega

structure Placed (disk : Disk) (file : InputFile) (start : Nat) (reserved : Disk) : Prop where
  aligned : start = blkSize * (start / blkSize)
  number : start / blkSize = disk.pos / blkSize + 1
  limit : reserved.pos / blkSize = start / blkSize + dataBlocks file.contents.length
  room : file.contents.length ≤ dataBlocks file.contents.length * blkSize
  near : reserved.pos < 2 ^ 34

theorem Reserving.placed (reserving : Reserving disk file inode start reserved)
    (state : AllocatorState disk) (bound : file.contents.length + blkSize ≤ 2 ^ 32) :
    Placed disk file start reserved := by
  have aligned := state.blank.aligned
  have few := state.few
  have mapped := state.mapped
  rw [state.bytes] at mapped
  have second := reserving.second
  have position := reserving.pos
  simp only [dataBlocks_eq, blkSize] at bound mapped second position
  constructor
  · simp only [blkSize]
    omega
  · simp only [blkSize]
    omega
  · simp only [dataBlocks_eq, blkSize]
    omega
  · simp only [dataBlocks_eq, blkSize]
    omega
  · omega

theorem storeFile_stored (placed : Placed disk file start reserved) :
    FileStored file start reserved (storeFile file start reserved) := by
  have aligned := placed.aligned
  have room := placed.room
  simp only [blkSize] at aligned room
  constructor
  · intro i below
    have inside : start ≤ start + i ∧ start + i < start + file.contents.length := by omega
    refine ⟨?_, ?_, ?_⟩
    · rw [storeFile]
      simp only [blit, if_pos inside, Nat.add_sub_cancel_left]
    · simp only [dataRegion, blkSize]
      omega
    · simp only [dataRegion, blkSize]
      omega
  · intro x elsewhere
    have outside : ¬ (start ≤ x ∧ x < start + file.contents.length) := by
      intro inside
      apply elsewhere
      simp only [dataRegion, blkSize, Region.has]
      omega
    rw [storeFile]
    simp only [blit, if_neg outside]

theorem Reserving.fresh (reserving : Reserving disk file inode start reserved)
    (state : AllocatorState disk) (bound : file.contents.length + blkSize ≤ 2 ^ 32) :
    FreshInode (storeFile file start reserved) inode := by
  have placed := reserving.placed state bound
  have aligned := placed.aligned
  have limit := placed.limit
  have near := placed.near
  have room := placed.room
  have first := reserving.first
  have second := reserving.second
  have position := reserving.pos
  have full := reserving.full
  simp only [blkSize] at aligned limit room second position
  have zero : ∀ x, inode + iDirect ≤ x → x < start ∨ reserved.pos ≤ x →
      (storeFile file start reserved).map x = 0 := by
    intro x lower outside
    have elsewhere : ¬ (start ≤ x ∧ x < start + file.contents.length) := by omega
    rw [storeFile]
    simp only [blit, if_neg elsewhere]
    rw [reserving.map x (by omega)]
    exact state.blank.zero x (by omega)
  constructor
  · simp only [storeFile]
    omega
  · simp only [storeFile, blockof, blkSize, reserving.nblocks] at full ⊢
    omega
  · simp only [storeFile, blkSize]
    omega
  · intro x lower upper
    apply zero x lower
    simp only [iDouble] at upper
    omega
  · intro x lower _
    simp only [storeFile] at lower
    simp only [iDirect] at zero
    exact zero x (by omega) (Or.inr lower)

theorem Reserving.written (reserving : Reserving disk file inode start reserved)
    (state : AllocatorState disk) (bound : file.contents.length + blkSize ≤ 2 ^ 32)
    (run : finishinode inode (blockof start) file.contents.length
      (storeFile file start reserved) = .ok last) :
    FileWritten file inode start reserved last := by
  have placed := reserving.placed state bound
  have limit := placed.limit
  have near := placed.near
  have room := placed.room
  have first := reserving.first
  have second := reserving.second
  have position := reserving.pos
  have number : blockof start = start / blkSize := by
    simp only [blockof, blkSize] at position ⊢
    omega
  rw [number] at run
  simp only [dataBlocks_eq, blkSize] at limit
  have finished := finishinode_finished (reserving.fresh state bound)
    (show reserved.pos + 4096 * 1026 < 2 ^ 43 by omega) bound (by simp only [blkSize]; omega) run
  refine ⟨(Follows.refl.store _).trans (finishinode_follows run), finished.size,
    finished.file, ?_⟩
  intro i below
  have here : start + i < inode ∨ inode + blkSize ≤ start + i := by omega
  have inside : start + i < (storeFile file start reserved).pos ∨ last.pos ≤ start + i := by
    left
    simp only [storeFile]
    omega
  rw [finished.kept _ here inside]
  exact ((storeFile_stored placed).bytes i below).1

end OneFile

section Tight

variable {nblocks : Nat} {file : InputFile}

end Tight

end OsLabs.Fs
