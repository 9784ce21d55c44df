import OsLabs.Fs.FormatSpace
import OsLabs.Fs.Inode

/-!
# Block numbers and bytes of the image

`opendisk` of fsformat.c gives the image file its length and `diskblock2memaddr` of
disk_map.c maps a block number to an address; both form the product with `BLKSIZE` in 32
bits.
-/

set_option autoImplicit false

namespace OsLabs.Fs

open OsLabs.ByteMemory OsLabs.ExceptRules OsLabs.Budget

/-- The file afterwards: its front, or with zeros behind it. -/
def ftruncate (file : List UInt8) (length : Nat) : List UInt8 :=
  file.take length ++ List.replicate (length - file.length) 0

def truncateImage (file : List UInt8) (nblocks : Nat) : List UInt8 :=
  ftruncate (ftruncate file 0) (nblocks * blkSize % 2 ^ 32)

/-- `opendisk` with the image file in front of it, and `none` where it panics: `mmap`
refuses to map no bytes at all. -/
def openImage (stamp : Stamp) (nblocks : Nat) (file : List UInt8) :
    Option (List UInt8 × Disk) :=
  let image := truncateImage file nblocks
  if nblocks * blkSize % 2 ^ 32 = 0 then none
  else
    match opendisk stamp nblocks with
    | .error _ => none
    | .ok (disk, _) => some (image, disk)

def superblockSize : Nat := 12

theorem ftruncate_length (file : List UInt8) (length : Nat) :
    (ftruncate file length).length = length := by
  simp only [ftruncate, List.length_append, List.length_take, List.length_replicate]
  omega

/-- The image that `opendisk` leaves has the size of the blocks that it records. -/
def ImageSized (stamp : Stamp) (nblocks : Nat) (file : List UInt8) : Prop :=
  ∀ image disk, openImage stamp nblocks file = some (image, disk) →
    loadLE disk.map sNblocks 4 = nblocks ∧ image.length = nblocks * blkSize

theorem opendisk_nblocks {stamp : Stamp} {nblocks inode : Nat} {disk : Disk}
    (ran : opendisk stamp nblocks = .ok (disk, inode)) :
    loadLE disk.map sNblocks 4 = nblocks % 2 ^ 32 := by
  unfold opendisk at ran
  obtain ⟨⟨super, first⟩, given, ran⟩ := bind_eq_ok.mp ran
  obtain ⟨⟨bitmap, second⟩, _, ran⟩ := bind_eq_ok.mp ran
  obtain ⟨⟨place, third⟩, _, ran⟩ := bind_eq_ok.mp ran
  cases ran
  obtain ⟨_, rfl, _⟩ := alloc_eq_ok.mp given
  simp only
  rw [loadLE_storeLE_apart _ _ _ _ _ _ (by decide)]
  exact loadLE_storeLE _ _ _ _

theorem opendisk_returns (stamp : Stamp) {nblocks : Nat} (large : 2 ^ 20 ≤ nblocks) :
    ∃ disk inode, opendisk stamp nblocks = .ok (disk, inode) := by
  have few : (nblocks + blkBitSize - 1) % 2 ^ 32 / blkBitSize < 2 ^ 17 := by
    simp only [blkBitSize, blkSize]
    omega
  obtain ⟨⟨disk, inode⟩, ran, _⟩ :=
    (@opendisk_takes nblocks stamp _ rfl).returns (by omega)
  exact ⟨disk, inode, ran⟩

/-- The file has room for all the blocks unless the product wraps; where it wraps to
nothing the disk is not opened. -/
theorem imageSized_iff (stamp : Stamp) {nblocks : Nat} (file : List UInt8)
    (word : nblocks < 2 ^ 32) :
    ImageSized stamp nblocks file ↔ nblocks < 2 ^ 20 ∨ nblocks % 2 ^ 20 = 0 := by
  constructor
  · intro sized
    by_contra wraps
    have mapped : nblocks * blkSize % 2 ^ 32 ≠ 0 := by
      simp only [blkSize]
      omega
    obtain ⟨disk, inode, ran⟩ := opendisk_returns stamp (show 2 ^ 20 ≤ nblocks by omega)
    have found : openImage stamp nblocks file = some (truncateImage file nblocks, disk) := by
      simp only [openImage, if_neg mapped, ran]
    have size := (sized _ _ found).2
    rw [truncateImage, ftruncate_length] at size
    simp only [blkSize] at size
    omega
  · intro fits image disk found
    by_cases empty : nblocks * blkSize % 2 ^ 32 = 0
    · simp only [openImage, if_pos empty] at found
      cases found
    · have exact : nblocks * blkSize % 2 ^ 32 = nblocks * blkSize := by
        simp only [blkSize] at empty ⊢
        omega
      simp only [openImage, if_neg empty] at found
      split at found
      · cases found
      · next ran =>
          cases found
          rw [opendisk_nblocks ran, Nat.mod_eq_of_lt word, truncateImage, ftruncate_length]
          exact ⟨rfl, exact⟩

section Mapped

variable {map : Memory}

/-- A block number that is accepted stands for its own bytes. -/
structure Addressed (map : Memory) : Prop where
  address : ∀ {blockno blk}, diskblock2memaddr map blockno = .ok blk → blk = blkSize * blockno
  apart : ∀ {blockno other blk place}, diskblock2memaddr map blockno = .ok blk →
    diskblock2memaddr map other = .ok place → blockno ≠ other →
    blk + blkSize ≤ place ∨ place + blkSize ≤ blk
  superblock : ∀ {blockno blk}, diskblock2memaddr map blockno = .ok blk → superblockSize ≤ blk

theorem diskblock2memaddr_eq_ok {blockno blk : Nat} :
    diskblock2memaddr map blockno = .ok blk ↔
      blockno ≠ 0 ∧ blockno < loadLE map sNblocks 4 ∧ blk = blockno * blkSize % 2 ^ 32 := by
  rw [diskblock2memaddr]
  split
  · rename_i bad
    constructor
    · intro impossible
      cases impossible
    · rintro ⟨positive, below, _⟩
      omega
  · rename_i good
    constructor
    · intro found
      cases found
      omega
    · rintro ⟨_, _, rfl⟩
      rfl

theorem addressed_iff : Addressed map ↔ loadLE map sNblocks 4 ≤ 2 ^ 20 := by
  constructor
  · intro addressed
    by_contra large
    have found : diskblock2memaddr map (2 ^ 20) = .ok 0 :=
      diskblock2memaddr_eq_ok.mpr ⟨by norm_num, by omega, rfl⟩
    have address := addressed.address found
    simp only [blkSize] at address
    omega
  · intro small
    have address : ∀ {blockno blk}, diskblock2memaddr map blockno = .ok blk →
        blk = blkSize * blockno ∧ blockno ≠ 0 := by
      intro blockno blk found
      obtain ⟨positive, below, rfl⟩ := diskblock2memaddr_eq_ok.mp found
      simp only [blkSize]
      omega
    constructor
    · intro blockno blk found
      exact (address found).1
    · intro blockno other blk place found there different
      obtain ⟨first, _⟩ := address found
      obtain ⟨second, _⟩ := address there
      simp only [blkSize] at *
      omega
    · intro blockno blk found
      obtain ⟨first, positive⟩ := address found
      simp only [blkSize, superblockSize] at *
      omega

end Mapped

/-- The image has `BLKSIZE` bytes for each block that `opendisk` records exactly when the
product does not wrap or wraps to zero, and block numbers stand for their own bytes exactly
up to 2^20 blocks. -/
theorem blocks_addressed_iff (stamp : Stamp) (nblocks : Nat) (file : List UInt8)
    (map : Memory) (word : nblocks < 2 ^ 32) :
    (ImageSized stamp nblocks file ↔ nblocks < 2 ^ 20 ∨ nblocks % 2 ^ 20 = 0) ∧
    (Addressed map ↔ loadLE map sNblocks 4 ≤ 2 ^ 20) :=
  ⟨imageSized_iff stamp file word, addressed_iff⟩

/-- With a hundred blocks more than 2^20 the file has a hundred blocks, and with one block
more than 2^20 the last one is block 0 of the map. -/
theorem blocks_addressed_fails :
    ¬ ImageSized ⟨0, 0, 0⟩ (2 ^ 20 + 100) [] ∧
      ¬ Addressed (storeLE (fun _ => 0) sNblocks 4 (2 ^ 20 + 1)) := by
  constructor
  · intro sized
    have fits := (imageSized_iff _ _ (by norm_num)).mp sized
    omega
  · intro addressed
    have small := addressed_iff.mp addressed
    rw [loadLE_storeLE] at small
    omega

/-- The largest image that is right, and a disk that is never opened. -/
theorem blocks_addressed_iff_sample :
    ImageSized ⟨0, 0, 0⟩ (2 ^ 20 - 1) [] ∧ ImageSized ⟨0, 0, 0⟩ (2 ^ 20) [] ∧
      Addressed (storeLE (fun _ => 0) sNblocks 4 (2 ^ 20)) := by
  obtain ⟨sized, addressed⟩ := blocks_addressed_iff ⟨0, 0, 0⟩ (2 ^ 20 - 1) []
    (storeLE (fun _ => 0) sNblocks 4 (2 ^ 20)) (by norm_num)
  refine ⟨sized.mpr (Or.inl (by norm_num)), ?_, addressed.mpr ?_⟩
  · exact (blocks_addressed_iff _ _ _ (fun _ => 0) (by norm_num)).1.mpr (Or.inr (by norm_num))
  · rw [loadLE_storeLE]
    norm_num

end OsLabs.Fs
