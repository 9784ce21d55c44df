import OsLabs.Fs.DiskMap
import OsLabs.Fs.FormatImage
import OsLabs.Fs.Path

/-!
# The free-block bitmap

A set bit of the bitmap is a free block.  The driver's functions of bitmap.c and
`fs_statfs` and the loop of `finishdisk` of fsformat.c all work on the same set.
-/

set_option autoImplicit false

namespace OsLabs.Fs

open OsLabs.ByteMemory OsLabs.ExceptRules

/-! ## bitmap.c and fs_statfs -/

/-- The global `bitmap` of an image that is mapped; its `super` is at 0. -/
def mappedBitmap : Nat := 1 * blkSize

/-- `super` is a null pointer before an image is mapped. -/
def blockIsFree (super : Option Nat) (map : Memory) (blockno : Nat) : Bool :=
  match super with
  | none => false
  | some super =>
      if loadLE map (super + sNblocks) 4 ≤ blockno then false
      else
        let word := BitVec.ofNat 32 (loadLE map (mappedBitmap + 4 * (blockno / 32)) 4)
        word &&& (1#32 <<< (blockno % 32)) != 0#32

def freeBlock (map : Memory) (blockno : Nat) : Memory :=
  if blockno = 0 then map
  else
    let word := BitVec.ofNat 32 (loadLE map (mappedBitmap + 4 * (blockno / 32)) 4)
    storeLE map (mappedBitmap + 4 * (blockno / 32)) 4 (word ||| (1#32 <<< (blockno % 32))).toNat

/-- `struct statvfs`. -/
structure Statvfs where
  fBsize : Nat
  fFrsize : Nat
  fBlocks : Nat
  fFsid : Nat
  fNamemax : Nat
  fBfree : Nat
  fBavail : Nat
  deriving DecidableEq, Repr

/-- `f_bfree` after the loop over the blocks below `i`. -/
def countFree (map : Memory) : Nat → Nat
  | 0 => 0
  | i + 1 => countFree map i + if blockIsFree (some 0) map i then 1 else 0

def fsStatfs (map : Memory) : Statvfs :=
  let free := countFree map (loadLE map sNblocks 4)
  ⟨blkSize, blkSize, loadLE map sNblocks 4, loadLE map sMagic 4, pathMax, free, free⟩

/-! ## The set -/

/-- The blocks below `s_nblocks` that `block_is_free` finds free. -/
def freeBlocks (map : Memory) : Finset Nat :=
  (Finset.range (loadLE map sNblocks 4)).filter fun block => blockIsFree (some 0) map block

section Driver

variable {map : Memory} {block : Nat}

theorem and_bit_ne_zero {word : BitVec 32} {k : Nat} (inside : k < 32) :
    (word &&& (1#32 <<< k) != 0#32) = word.getLsbD k := by
  have twoPow : 1#32 <<< k = BitVec.twoPow 32 k := (BitVec.twoPow_eq ..).symm
  rw [twoPow, BitVec.and_twoPow]
  cases set : word.getLsbD k with
  | false => simp
  | true =>
      rw [if_pos rfl, bne_iff_ne]
      intro zero
      have bit := congrArg (fun mask : BitVec 32 => mask.getLsbD k) zero
      simp [inside] at bit

theorem blockIsFree_eq (below : block < loadLE map sNblocks 4) :
    blockIsFree (some 0) map block = bitOf mappedBitmap map block := by
  rw [blockIsFree, Nat.zero_add, if_neg (by omega)]
  exact and_bit_ne_zero (Nat.mod_lt _ (by norm_num))

theorem mem_freeBlocks : block ∈ freeBlocks map ↔
    block < loadLE map sNblocks 4 ∧ bitOf mappedBitmap map block = true := by
  rw [freeBlocks, Finset.mem_filter, Finset.mem_range]
  constructor
  · rintro ⟨below, free⟩
    exact ⟨below, (blockIsFree_eq below).symm.trans free⟩
  · rintro ⟨below, free⟩
    exact ⟨below, (blockIsFree_eq below).trans free⟩

theorem freeBlock_nblocks (map : Memory) (block : Nat) :
    loadLE (freeBlock map block) sNblocks 4 = loadLE map sNblocks 4 := by
  rw [freeBlock]
  split
  · rfl
  · apply loadLE_storeLE_apart
    simp only [sNblocks, mappedBitmap, blkSize]
    omega

theorem freeBlock_bit {freed : Nat} (positive : freed ≠ 0) :
    bitOf mappedBitmap (freeBlock map freed) block =
      (bitOf mappedBitmap map block || decide (block = freed)) := by
  rw [freeBlock, if_neg positive, bitOf_store]
  by_cases same : block / 32 = freed / 32
  · rw [if_pos same, BitVec.getLsbD_or, bit_mask same, bitOf, same]
  · have different : block ≠ freed := by
      rintro rfl
      exact same rfl
    rw [if_neg same]
    simp [different]

theorem freeBlock_zero (map : Memory) : freeBlock map 0 = map := rfl

theorem freeBlocks_freeBlock {freed : Nat} (positive : freed ≠ 0)
    (below : freed < loadLE map sNblocks 4) :
    freeBlocks (freeBlock map freed) = insert freed (freeBlocks map) := by
  ext block
  rw [Finset.mem_insert, mem_freeBlocks, mem_freeBlocks, freeBlock_nblocks,
    freeBlock_bit positive]
  simp only [Bool.or_eq_true, decide_eq_true_eq]
  constructor
  · rintro ⟨inside, free | same⟩
    · exact Or.inr ⟨inside, free⟩
    · exact Or.inl same
  · rintro (same | ⟨inside, free⟩)
    · rw [same]
      exact ⟨below, Or.inr rfl⟩
    · exact ⟨inside, Or.inl free⟩

theorem countFree_eq (map : Memory) (count : Nat) : countFree map count =
    ((Finset.range count).filter fun block => blockIsFree (some 0) map block).card := by
  induction count with
  | zero => rfl
  | succ count ih =>
      rw [countFree, ih, Finset.range_add_one, Finset.filter_insert]
      split
      · rw [Finset.card_insert_of_notMem]
        simp
      · rfl

theorem fsStatfs_bfree (map : Memory) : (fsStatfs map).fBfree = (freeBlocks map).card :=
  countFree_eq map _

end Driver

/-! ## finishdisk -/

/-- The bytes of the bitmap that `opendisk` reserves. -/
def bitmapBytes (nblocks : Nat) : Nat :=
  (nblocks + blkBitSize - 1) % 2 ^ 32 / blkBitSize * blkSize

/-- The bitmap as `opendisk` leaves it. -/
structure OnesBitmap (nblocks : Nat) (disk : Disk) : Prop where
  place : disk.bitmap = mappedBitmap
  stored : loadLE disk.map sNblocks 4 = nblocks
  ones : ∀ x, disk.bitmap ≤ x → x < disk.bitmap + bitmapBytes nblocks → disk.map x = 0xFF

theorem OnesBitmap.bit {nblocks block : Nat} {disk : Disk} (bitmap : OnesBitmap nblocks disk)
    (small : nblocks < 2 ^ 31) (below : block < nblocks) :
    bitOf disk.bitmap disk.map block = true := by
  have covers : 4 * (block / 32) + 4 ≤ bitmapBytes nblocks := by
    simp only [bitmapBytes, blkBitSize, blkSize]
    omega
  exact bitOf_ones fun x lower upper => bitmap.ones x (by omega) (by omega)

theorem clearBits_below {bitmap count x : Nat} {map : Memory} (below : x < bitmap) :
    clearBits bitmap map count x = map x := by
  induction count with
  | zero => rfl
  | succ count ih => rw [clearBits, clearBit, storeLE_outside (by omega), ih]

/-- The root inode is behind the bitmap and the superblock in front of it. -/
theorem opendisk_ones {stamp : Stamp} {nblocks inode : Nat} {disk : Disk}
    (small : nblocks < 2 ^ 31) (ran : opendisk stamp nblocks = .ok (disk, inode)) :
    OnesBitmap nblocks disk := by
  have stored := opendisk_nblocks ran
  rw [Nat.mod_eq_of_lt (by omega)] at stored
  unfold opendisk at ran
  obtain ⟨⟨super, first⟩, superGiven, ran⟩ := bind_eq_ok.mp ran
  obtain ⟨⟨bitmap, second⟩, bitmapGiven, ran⟩ := bind_eq_ok.mp ran
  obtain ⟨⟨root, third⟩, rootGiven, ran⟩ := bind_eq_ok.mp ran
  cases ran
  obtain ⟨_, rfl, firstEq⟩ := alloc_eq_ok.mp superGiven
  obtain ⟨_, rfl, secondEq⟩ := alloc_eq_ok.mp bitmapGiven
  obtain ⟨_, rfl, thirdEq⟩ := alloc_eq_ok.mp rootGiven
  have firstPos := congrArg Disk.pos firstEq
  have secondPos := congrArg Disk.pos secondEq
  have thirdMap := congrArg Disk.map thirdEq
  have thirdBitmap := congrArg Disk.bitmap thirdEq
  simp only at firstPos secondPos thirdMap thirdBitmap
  have one : roundUp (blkSize % 2 ^ 32) = 4096 := by decide
  have bytes : roundUp (bitmapBytes nblocks % 2 ^ 32) = bitmapBytes nblocks := by
    simp only [roundUp, bitmapBytes, blkBitSize, blkSize]
    omega
  simp only [bitmapBytes] at bytes
  rw [bytes] at secondPos
  simp only [one, Nat.zero_add] at firstPos
  have place : third.bitmap = mappedBitmap := thirdBitmap.trans firstPos
  refine ⟨place, stored, ?_⟩
  intro x lower upper
  simp only [place, mappedBitmap, blkSize] at lower upper
  have front : ∀ field, field ≤ sRoot → x < field ∨ field + 4 ≤ x := by
    intro field low
    simp only [sRoot] at low
    omega
  have outside : ¬ (second.pos ≤ x ∧ x < second.pos + iDirect) := by
    rw [secondPos, firstPos]
    simp only [bitmapBytes] at upper
    omega
  simp only [Nat.zero_add]
  rw [storeLE_outside (front sRoot (Nat.le_refl _)),
    storeLE_outside (front sNblocks (by decide)),
    storeLE_outside (front sMagic (by decide)), stampInode_frame outside, storeLE_outside,
    thirdMap]
  · simp only [fill, firstPos]
    apply if_pos
    simp only [bitmapBytes] at upper
    omega
  · simp only [iMode, iDirect] at *
    omega

theorem OnesBitmap.finishdisk {nblocks : Nat} {disk : Disk} (bitmap : OnesBitmap nblocks disk)
    (small : nblocks < 2 ^ 31) :
    freeBlocks (Fs.finishdisk disk).map = Finset.Ico (blockof disk.pos) nblocks := by
  have same : loadLE (Fs.finishdisk disk).map sNblocks 4 = nblocks := by
    rw [← bitmap.stored]
    apply loadLE_congr
    intro x _ upper
    apply clearBits_below
    rw [bitmap.place]
    simp only [sNblocks, mappedBitmap, blkSize] at *
    omega
  ext block
  rw [mem_freeBlocks, same, Finset.mem_Ico, Fs.finishdisk, ← bitmap.place, clearBits_bit]
  constructor
  · rintro ⟨below, set⟩
    rw [bitmap.bit small below] at set
    simpa [below] using set
  · rintro ⟨lower, below⟩
    refine ⟨below, ?_⟩
    rw [bitmap.bit small below]
    simpa using lower

/-- What `block_is_free` finds free is a set to which `free_block` adds, which `fs_statfs`
counts and which `finishdisk` makes the blocks from `diskpos` on. -/
theorem bitmap_represents :
    (∀ map : Memory, loadLE map sNblocks 4 < 2 ^ 31 →
      (∀ freed, 0 < freed → freed < loadLE map sNblocks 4 →
        freeBlocks (freeBlock map freed) = insert freed (freeBlocks map) ∧
        (fsStatfs (freeBlock map freed)).fBfree = (fsStatfs map).fBfree +
          if freed ∈ freeBlocks map then 0 else 1) ∧
      freeBlock map 0 = map ∧ (fsStatfs map).fBfree = (freeBlocks map).card) ∧
    ∀ (stamp : Stamp) (nblocks : Nat) (opened : Disk) (inode : Nat), nblocks < 2 ^ 31 →
      opendisk stamp nblocks = .ok (opened, inode) →
      ∀ disk : Disk, disk.bitmap = opened.bitmap → loadLE disk.map sNblocks 4 = nblocks →
        (∀ x, disk.bitmap ≤ x → x < disk.bitmap + bitmapBytes nblocks →
          disk.map x = opened.map x) →
        freeBlocks (finishdisk disk).map = Finset.Ico (blockof disk.pos) nblocks := by
  refine ⟨?_, ?_⟩
  · intro map _
    refine ⟨?_, freeBlock_zero map, fsStatfs_bfree map⟩
    intro freed positive below
    have inserted := @freeBlocks_freeBlock map freed (by omega) below
    refine ⟨inserted, ?_⟩
    rw [fsStatfs_bfree, fsStatfs_bfree, inserted]
    split
    · next member => rw [Finset.insert_eq_of_mem member, Nat.add_zero]
    · next absent => rw [Finset.card_insert_of_notMem absent]
  · intro stamp nblocks opened inode small ran disk place stored same
    have ones := opendisk_ones small ran
    apply OnesBitmap.finishdisk _ small
    refine ⟨place.trans ones.place, stored, ?_⟩
    intro x lower upper
    rw [same x lower upper]
    rw [place] at lower upper
    exact ones.ones x lower upper

/-- Blocks 31 and 32 of a new image of 40 blocks, which are in different words. -/
theorem bitmap_represents_sample : ∃ opened inode,
    opendisk ⟨1, 2, 3⟩ 40 = .ok (opened, inode) ∧
    freeBlocks (finishdisk opened).map = Finset.Ico (blockof opened.pos) 40 ∧
    freeBlocks (freeBlock (freeBlock (storeLE (fun _ => 0) sNblocks 4 40) 31) 32) =
      {32, 31} := by
  have returns : (opendisk ⟨1, 2, 3⟩ 40).isOk = true := by decide
  have stored : loadLE (storeLE (fun _ => 0) sNblocks 4 40) sNblocks 4 = 40 := by decide
  have empty : freeBlocks (storeLE (fun _ => 0) sNblocks 4 40) = ∅ := by decide
  obtain ⟨driver, formatter⟩ := bitmap_represents
  have first := ((driver (storeLE (fun _ => 0) sNblocks 4 40) (by rw [stored]; norm_num)).1 31
    (by norm_num) (by rw [stored]; norm_num)).1
  have kept := (freeBlock_nblocks (storeLE (fun _ => 0) sNblocks 4 40) 31).trans stored
  have second := ((driver (freeBlock (storeLE (fun _ => 0) sNblocks 4 40) 31)
    (by rw [kept]; norm_num)).1 32 (by norm_num) (by rw [kept]; norm_num)).1
  cases ran : opendisk ⟨1, 2, 3⟩ 40 with
  | error stopped =>
      rw [ran] at returns
      cases returns
  | ok result =>
      obtain ⟨opened, inode⟩ := result
      have recorded := opendisk_nblocks ran
      refine ⟨opened, inode, rfl, ?_, ?_⟩
      · exact formatter _ 40 opened inode (by norm_num) ran opened rfl recorded
          fun _ _ _ => rfl
      · rw [second, first, empty]
        rfl

end OsLabs.Fs
