import OsLabs.Fs.Types
import OsLabs.Lib.ExceptRules

/-!
# Reading and writing an inode

`inode_read`, `inode_write` and `inode_set_size` of inode.c on the mapped image.  The
three functions that the repository leaves to be written are parameters; `Documented`
is what the comments above them say.
-/

set_option autoImplicit false

namespace OsLabs.Fs

open OsLabs.ByteMemory OsLabs.ExceptRules

inductive Errno where
  | noent | nospc | inval | nametoolong | exist
  deriving DecidableEq, Repr

inductive Stop where
  | errno (number : Errno)
  | badBlockNumber
  | assertion
  /-- The loop has not ended after the turns it was given. -/
  | running
  deriving DecidableEq, Repr

/-- `inode_block_walk` with `alloc` 0 gives the address of the slot, `inode_get_block`
that of the block, and the image also when it fails. -/
structure InodeStubs where
  blockWalk : Memory → Nat → Except Errno Nat
  getBlock : Memory → Nat → Except Errno Nat × Memory
  truncateBlocks : Memory → Nat → Memory

def iSizeOf (ino : Nat) (map : Memory) : Nat := loadLE map (ino + iSize) 4

def diskblock2memaddr (map : Memory) (blockno : Nat) : Except Stop Nat :=
  if blockno = 0 ∨ loadLE map sNblocks 4 ≤ blockno then .error .badBlockNumber
  else .ok (blockno * blkSize % 2 ^ 32)

section Calls

variable (stubs : InodeStubs) (ino : Nat)

/-! ## inode_read -/

/-- The walk to the slot; `none` is the null pointer of a sparse file. -/
def readWalk (map : Memory) (filebno : Nat) : Except Stop (Option Nat) :=
  match stubs.blockWalk map filebno with
  | .ok slot => .ok (some slot)
  | .error .noent => .ok none
  | .error number => .error (.errno number)

def readChunk (map : Memory) (pblkno : Option Nat) (start bn : Nat) :
    Except Stop (List UInt8) :=
  match pblkno with
  | none => .ok (List.replicate bn 0)
  | some slot =>
      if loadLE map slot 4 = 0 then .ok (List.replicate bn 0)
      else do
        let blk ← diskblock2memaddr map (loadLE map slot 4)
        .ok ((List.range bn).map fun i => map (blk + start + i))

/-- `for (pos = offset; pos < offset + count; )`, which turns at most `count` times. -/
def readLoop (map : Memory) (stop : Nat) : Nat → Nat → Except Stop (List UInt8)
  | 0, _ => .ok []
  | togo + 1, pos =>
      if pos < stop then do
        let pblkno ← readWalk stubs map (pos / blkSize)
        let bn := min (blkSize - pos % blkSize) (stop - pos)
        let bytes ← readChunk map pblkno (pos % blkSize) bn
        let rest ← readLoop map stop togo ((pos + bn) % 2 ^ 32)
        .ok (bytes ++ rest)
      else .ok []

def inodeRead (map : Memory) (count offset : Nat) : Except Stop (List UInt8) :=
  if iSizeOf ino map ≤ offset then .ok []
  else
    let count := min count (iSizeOf ino map - offset)
    readLoop stubs map (offset + count) count offset

/-! ## inode_set_size -/

def inodeSetSize (map : Memory) (newsize : Nat) : Memory :=
  let map := if newsize < iSizeOf ino map then stubs.truncateBlocks map newsize else map
  storeLE map (ino + iSize) 4 newsize

/-! ## inode_write -/

/-- `for (pos = offset; pos < offset + count; )` with the bytes at `buf` and the number of
those already written. -/
def writeLoop (buf : Nat → UInt8) (stop : Nat) :
    Nat → Nat → Nat → Memory → Except Stop Unit × Memory
  | 0, _, _, map => (.error .running, map)
  | fuel + 1, pos, done, map =>
      if pos < stop then
        match stubs.getBlock map (pos / blkSize) with
        | (.error number, map) => (.error (.errno number), map)
        | (.ok blk, map) =>
            let bn := min (blkSize - pos % blkSize) (stop - pos)
            let map := blit map (blk + pos % blkSize) bn fun i => buf (done + i)
            writeLoop buf stop fuel ((pos + bn) % 2 ^ 32) (done + bn) map
      else (.ok (), map)

/-- A `size_t` returned as an `int`. -/
def intOf (count : Nat) : Int :=
  if count % 2 ^ 32 < 2 ^ 31 then (count % 2 ^ 32 : Nat) else (count % 2 ^ 32 : Nat) - 2 ^ 32

/-- The sum is a `size_t`, the position and the size are 32 bits wide. -/
def inodeWrite (fuel : Nat) (map : Memory) (buf : Nat → UInt8) (count offset : Nat) :
    Except Stop Int × Memory :=
  let stop := (offset + count) % 2 ^ 64
  let map :=
    if iSizeOf ino map < stop then inodeSetSize stubs ino map (stop % 2 ^ 32) else map
  match writeLoop stubs buf stop fuel offset 0 map with
  | (.ok (), map) => (.ok (intOf count), map)
  | (.error stopped, map) => (.error stopped, map)

/-! ## Calls -/

inductive Call where
  | setSize (newsize : Nat)
  | write (offset : Nat) (buf : List UInt8)
  | read (offset count : Nat)
  deriving DecidableEq, Repr

def blockAt (map : Memory) (filebno : Nat) : Option Nat :=
  match stubs.blockWalk map filebno with
  | .ok slot =>
      if loadLE map slot 4 = 0 then none
      else (diskblock2memaddr map (loadLE map slot 4)).toOption
  | .error _ => none

/-- The byte at a position of the file, and zero where there is no block. -/
def byteAt (map : Memory) (i : Nat) : UInt8 :=
  match blockAt stubs map (i / blkSize) with
  | some blk => map (blk + i % blkSize)
  | none => 0

def Kept (before after : Memory) (filebno : Nat) : Prop :=
  blockAt stubs after filebno = blockAt stubs before filebno ∧
    ∀ blk, blockAt stubs before filebno = some blk → AgreeOn before after blk blkSize

/-- The bytes that the three functions write themselves: those of the blocks of the file
and its size. -/
def OwnByte (map : Memory) (x : Nat) : Prop :=
  (∃ filebno blk, blockAt stubs map filebno = some blk ∧ blk ≤ x ∧ x < blk + blkSize) ∨
    ino + iSize ≤ x ∧ x < ino + iSize + 4

def blocksOf (size : Nat) : Nat := (size + blkSize - 1) / blkSize

structure Documented (valid : Memory → Prop) : Prop where
  /-- No two blocks of the file are the same, and none is the inode's. -/
  apart : ∀ {map n m a b}, valid map → blockAt stubs map n = some a →
    blockAt stubs map m = some b → n ≠ m → a + blkSize ≤ b ∨ b + blkSize ≤ a
  inode : ∀ {map n a}, valid map → blockAt stubs map n = some a →
    a + blkSize ≤ ino + iSize ∨ ino + iSize + 4 ≤ a
  /-- Block numbers are kept neither in the blocks of the file nor in its size. -/
  own : ∀ {map map'}, valid map → (∀ x, ¬ OwnByte stubs ino map x → map' x = map x) →
    valid map' ∧ ∀ n, blockAt stubs map' n = blockAt stubs map n
  /-- The block is there afterwards, a new one with zeros. -/
  get : ∀ {map map' n a}, valid map → stubs.getBlock map n = (.ok a, map') →
    valid map' ∧ iSizeOf ino map' = iSizeOf ino map ∧ blockAt stubs map' n = some a ∧
      (Kept stubs map map' n ∨
        blockAt stubs map n = none ∧ AgreeOn (fun _ => 0) map' a blkSize) ∧
      ∀ m, m ≠ n → Kept stubs map map' m
  /-- The blocks not needed for the new size are gone. -/
  truncate : ∀ {map newsize}, valid map → newsize < iSizeOf ino map →
    valid (stubs.truncateBlocks map newsize) ∧
      iSizeOf ino (stubs.truncateBlocks map newsize) = iSizeOf ino map ∧
      ∀ n, if blocksOf newsize ≤ n ∧ n < blocksOf (iSizeOf ino map) then
          blockAt stubs (stubs.truncateBlocks map newsize) n = none
        else Kept stubs map (stubs.truncateBlocks map newsize) n

/-- Only a block that is not there may be refused, and then the file stays as it is. -/
structure DocumentedErrors (valid : Memory → Prop) : Prop extends Documented stubs ino valid where
  found : ∀ {map n a}, valid map → blockAt stubs map n = some a →
    ∃ map', stubs.getBlock map n = (.ok a, map')
  refused : ∀ {map map' n number}, valid map → stubs.getBlock map n = (.error number, map') →
    valid map' ∧ iSizeOf ino map' = iSizeOf ino map ∧ ∀ m, Kept stubs map map' m

end Calls

end OsLabs.Fs
