import OsLabs.Fs.Types
import OsLabs.Lib.ExceptRules

/-!
# fsformat.c

Positions are offsets from `diskmap`.  Every `alloc` also notes what its caller uses
the blocks for; nothing reads the notes.  The image is zero when it is mapped, since
`opendisk` truncates the file to nothing and then to its size.  System calls succeed
here; `malloc` and `realloc` are the heap of the run.
-/

set_option autoImplicit false

namespace OsLabs.Fs

open OsLabs.ByteMemory

inductive Panic where
  | usage
  | notRegular (name : List UInt8)
  | outOfDiskBlocks
  | tooManyEntries
  | outOfMemory
  deriving DecidableEq, Repr

inductive Use where
  | super | bitmap | inode | data | indirect | double
  deriving DecidableEq, Repr

/-- Blocks that one `alloc` gave out. -/
structure Region where
  use : Use
  start : Nat
  count : Nat
  deriving DecidableEq, Repr

/-- The length with which `opendisk` maps the image, a product in 32 bits. -/
def mappedBytes (nblocks : Nat) : Nat := nblocks * blkSize % 2 ^ 32

/-- The mapped image, `diskpos`, `nblocks`, `bitmap` and the notes.  A store behind
`mappedBytes nblocks` would fault; that is behind the last block for fewer than 2^20 blocks,
and results about what is stored are for such disks. -/
structure Disk where
  map : Memory
  pos : Nat
  nblocks : Nat
  bitmap : Nat
  made : List Region

def blockof (pos : Nat) : Nat := pos / blkSize % 2 ^ 32

def alloc (use : Use) (bytes : Nat) (disk : Disk) : Except Panic (Nat × Disk) :=
  let start := disk.pos
  let size := roundUp (bytes % 2 ^ 32)
  let pos := start + size
  if disk.nblocks ≤ blockof pos then .error .outOfDiskBlocks
  else .ok (start, { disk with
    pos := pos, made := disk.made ++ [⟨use, start / blkSize, size / blkSize⟩] })

/-! ## opendisk -/

/-- `curtime`, `curuid` and `curgid`. -/
structure Stamp where
  time : Nat
  uid : Nat
  gid : Nat

def sIfdir : Nat := 0o040000
def sIfreg : Nat := 0o100000

/-- The fields of a new inode from `i_nlink` on. -/
def stampInode (stamp : Stamp) (inode : Nat) (map : Memory) : Memory :=
  let map := storeLE map (inode + iNlink) 2 1
  let map := storeLE map (inode + iAtime) 8 stamp.time
  let map := storeLE map (inode + iCtime) 8 stamp.time
  let map := storeLE map (inode + iMtime) 8 stamp.time
  let map := storeLE map (inode + iOwner) 4 stamp.uid
  storeLE map (inode + iGroup) 4 stamp.gid

def opendisk (stamp : Stamp) (nblocks : Nat) : Except Panic (Disk × Nat) := do
  let disk : Disk := ⟨fun _ => 0, 0, nblocks, 0, []⟩
  let (super, disk) ← alloc .super blkSize disk
  let nbitblocks := (nblocks + blkBitSize - 1) % 2 ^ 32 / blkBitSize
  let (bitmap, disk) ← alloc .bitmap (nbitblocks * blkSize) disk
  let disk := { disk with
    map := fill disk.map bitmap (nbitblocks * blkSize) 0xFF, bitmap := bitmap }
  let (inode, disk) ← alloc .inode blkSize disk
  let map := storeLE disk.map (inode + iMode) 4 (sIfdir ||| 0o777)
  let map := stampInode stamp inode map
  let map := storeLE map (super + sMagic) 4 fsMagic
  let map := storeLE map (super + sNblocks) 4 nblocks
  let map := storeLE map (super + sRoot) 4 (blockof inode)
  .ok ({ disk with map := map }, inode)

/-! ## finishdisk -/

/-- `bitmap[i/32] &= ~(1<<(i%32))`. -/
def clearBit (bitmap : Nat) (map : Memory) (i : Nat) : Memory :=
  let word := BitVec.ofNat 32 (loadLE map (bitmap + 4 * (i / 32)) 4)
  storeLE map (bitmap + 4 * (i / 32)) 4 (word &&& ~~~(1#32 <<< (i % 32))).toNat

def clearBits (bitmap : Nat) (map : Memory) : Nat → Memory
  | 0 => map
  | count + 1 => clearBit bitmap (clearBits bitmap map count) count

def finishdisk (disk : Disk) : Disk :=
  { disk with map := clearBits disk.bitmap disk.map (blockof disk.pos) }

/-! ## finishinode -/

/-- `for (; i < blocks && i < limit; ++i) table[i - base] = start + i;` for the word
array at `table`, with as many iterations to go as `i` is below the limit. -/
def fillTable (table base start blocks : Nat) : Nat → Nat → Memory → Nat × Memory
  | 0, i, map => (i, map)
  | togo + 1, i, map =>
      if i < blocks then
        fillTable table base start blocks togo (i + 1)
          (storeLE map (table + 4 * (i - base)) 4 ((start + i) % 2 ^ 32))
      else (i, map)

/-- `while(j < N_INDIRECT)`, with as many iterations to go as `j` is below it. -/
def fillDouble (inind start blocks : Nat) : Nat → Nat → Nat → Disk → Except Panic Disk
  | 0, _, _, disk => .ok disk
  | togo + 1, j, i, disk => do
      let (ind, disk) ← alloc .indirect blkSize disk
      let map := storeLE disk.map (inind + 4 * j) 4 (blockof ind)
      let base := nDirect + nIndirect + j * nIndirect
      let (i, map) := fillTable ind base start blocks
        (nDirect + nIndirect + (j + 1) * nIndirect - i) i map
      fillDouble inind start blocks togo (j + 1) i { disk with map := map }

def finishinode (inode start len : Nat) (disk : Disk) : Except Panic Disk := do
  let len := len % 2 ^ 32
  let map := storeLE disk.map (inode + iSize) 4 len
  let blocks := roundUp len / blkSize
  let (i, map) := fillTable (inode + iDirect) 0 start blocks nDirect 0 map
  let disk := { disk with map := map }
  if i = nDirect then do
    let (ind, disk) ← alloc .indirect blkSize disk
    let map := storeLE disk.map (inode + iIndirect) 4 (blockof ind)
    let (i, map) := fillTable ind nDirect start blocks nIndirect i map
    let disk := { disk with map := map }
    if i = nDirect + nIndirect then do
      let (inind, disk) ← alloc .double blkSize disk
      let map := storeLE disk.map (inode + iDouble) 4 (blockof inind)
      fillDouble inind start blocks nIndirect 0 i { disk with map := map }
    else .ok disk
  else .ok disk

/-! ## The directory -/

/-- What the C library gives back: the bytes of a new array, and for `realloc` to a
capacity whether the array moves and the bytes after the old ones, or failure. -/
structure Heap where
  fresh : Memory
  realloc : Nat → Option (Bool × Memory)

/-- `struct IDir`. -/
structure IDir where
  inode : Nat
  ents : Memory
  n : Nat
  capacity : Nat

def maxDirEnts : Nat := 128

def startidir (heap : Heap) (inode : Nat) : IDir := ⟨inode, heap.fresh, 0, maxDirEnts⟩

/-- The growth of the array in `idiradd`, and whether `out` is then a pointer into the
freed array. -/
def growEnts (heap : Heap) (id : IDir) : Except Panic (Bool × IDir) :=
  if id.capacity ≤ id.n then
    let capacity :=
      if id.capacity * 4 % 2 ^ 32 < id.capacity then 2 ^ 32 - 1
      else id.capacity * 4 % 2 ^ 32
    if capacity ≤ id.n then .error .tooManyEntries
    else
      match heap.realloc capacity with
      | none => .error .outOfMemory
      | some (moved, fresh) =>
          let ents := fun x => if x < id.capacity * direntSize then id.ents x else fresh x
          .ok (moved, { id with ents := ents, capacity := capacity })
  else .ok (false, id)

/-- `strcpy(out->d_name, name); out->d_inum = inum;`. -/
def writeDirent (ents : Memory) (out : Nat) (name : List UInt8) (inum : Nat) : Memory :=
  let ents := blit ents (out * direntSize + dName) (name.length + 1) fun i => name.getD i 0
  storeLE ents (out * direntSize + dInum) 4 inum

def idiradd (heap : Heap) (stamp : Stamp) (id : IDir) (mode : Nat) (name : List UInt8)
    (disk : Disk) : Except Panic (Nat × IDir × Disk) := do
  let out := id.n
  let (moved, id) ← growEnts heap { id with n := (id.n + 1) % 2 ^ 32 }
  let (iout, disk) ← alloc .inode blkSize disk
  let map := storeLE disk.map (iout + iMode) 4 mode
  let map := storeLE map (iout + iSize) 4 0
  let map := stampInode stamp iout map
  let ents := if moved then id.ents else writeDirent id.ents out name (blockof iout)
  .ok (iout, { id with ents := ents }, { disk with map := map })

def finishidir (id : IDir) (disk : Disk) : Except Panic Disk := do
  let size := id.n * direntSize % 2 ^ 32
  let (start, disk) ← alloc .data size disk
  let disk := { disk with map := blit disk.map start size id.ents }
  finishinode id.inode (blockof start) (roundUp size) disk

/-! ## main -/

structure InputFile where
  name : List UInt8
  regular : Bool
  contents : List UInt8

def basename (name : List UInt8) : List UInt8 :=
  (name.reverse.takeWhile fun c => c ≠ 47).reverse

def writeinode (heap : Heap) (stamp : Stamp) (id : IDir) (file : InputFile) (disk : Disk) :
    Except Panic (IDir × Disk) := do
  if file.regular then
    let (inode, id, disk) ← idiradd heap stamp id (sIfreg ||| 0o600) (basename file.name) disk
    let (start, disk) ← alloc .data file.contents.length disk
    let map := blit disk.map start file.contents.length fun i => file.contents.getD i 0
    let disk ← finishinode inode (blockof start) file.contents.length { disk with map := map }
    .ok (id, disk)
  else .error (.notRegular file.name)

def writeinodes (heap : Heap) (stamp : Stamp) :
    List InputFile → IDir → Disk → Except Panic (IDir × Disk)
  | [], id, disk => .ok (id, disk)
  | file :: rest, id, disk => do
      let (id, disk) ← writeinode heap stamp id file disk
      writeinodes heap stamp rest id disk

/-- `main` with the value of its second argument and the files after it. -/
def fsformat (heap : Heap) (stamp : Stamp) (nblocks : Nat) (files : List InputFile) :
    Except Panic Disk :=
  if nblocks < 2 then .error .usage
  else do
    let (disk, inode) ← opendisk stamp nblocks
    let (id, disk) ← writeinodes heap stamp files (startidir heap inode) disk
    let disk ← finishidir id disk
    .ok (finishdisk disk)

end OsLabs.Fs
