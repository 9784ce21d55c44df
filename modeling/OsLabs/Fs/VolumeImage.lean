import OsLabs.Fs.Bitmap
import OsLabs.Fs.FileLayout

/-!
# The image of some files

What fsformat leaves of all the files it was given: every file in a place of its own behind
the one before it, and the directory of their names behind the last one.
-/

set_option autoImplicit false

namespace OsLabs.Fs

open OsLabs.ByteMemory OsLabs.ExceptRules

/-! ## Headers -/

/-- The fields of an inode that say nothing of its contents. -/
structure Header where
  mode : Nat
  nlink : Nat
  uid : Nat
  gid : Nat
  rdev : Nat
  atime : Nat
  ctime : Nat
  mtime : Nat
  deriving DecidableEq, Repr

def headerOf (ino : Nat) (map : Memory) : Header where
  mode := loadLE map (ino + iMode) 4
  nlink := loadLE map (ino + iNlink) 2
  uid := loadLE map (ino + iOwner) 4
  gid := loadLE map (ino + iGroup) 4
  rdev := loadLE map (ino + iRdev) 8
  atime := loadLE map (ino + iAtime) 8
  ctime := loadLE map (ino + iCtime) 8
  mtime := loadLE map (ino + iMtime) 8

def Stamp.header (stamp : Stamp) (mode : Nat) : Header where
  mode := mode
  nlink := 1
  uid := stamp.uid % 2 ^ 32
  gid := stamp.gid % 2 ^ 32
  rdev := 0
  atime := stamp.time % 2 ^ 64
  ctime := stamp.time % 2 ^ 64
  mtime := stamp.time % 2 ^ 64

section Headers

variable {map after : Memory} {ino : Nat} {stamp : Stamp}

theorem headerOf_congr (same : AgreeOn map after ino iSize) :
    headerOf ino after = headerOf ino map := by
  have field : ∀ offset width, offset + width ≤ iSize →
      loadLE after (ino + offset) width = loadLE map (ino + offset) width := by
    intro offset width inside
    exact loadLE_congr (same.mono (Nat.le_add_right _ _) (by omega))
  simp only [headerOf]
  rw [field iMode 4 (by decide), field iNlink 2 (by decide), field iOwner 4 (by decide),
    field iGroup 4 (by decide), field iRdev 8 (by decide), field iAtime 8 (by decide),
    field iCtime 8 (by decide), field iMtime 8 (by decide)]

end Headers

/-! ## The array of entries -/

structure ArrayFilled (entries : List (List UInt8 × Nat)) (id : IDir) : Prop where
  n : id.n = entries.length
  room : id.n < id.capacity
  capacity : ∃ j, id.capacity = 128 * 4 ^ j
  written : ∀ k name inum, entries[k]? = some (name, inum) → EntryAt id.ents 0 k name inum

section Array

variable {heap : Heap} {stamp : Stamp} {entries : List (List UInt8 × Nat)} {id after : IDir}
  {disk last : Disk} {name : List UInt8} {mode iout : Nat}

/-- Where `realloc` leaves the array in its place, the entries stay. -/
theorem growEnts_still {moved : Bool} {grown : IDir} (filled : ArrayFilled entries id)
    (few : id.n < 2 ^ 20) (still : ¬ MovedAt heap id.n)
    (run : growEnts heap { id with n := (id.n + 1) % 2 ^ 32 } = .ok (moved, grown)) :
    moved = false ∧ grown.n = id.n + 1 ∧ grown.inode = id.inode ∧ grown.n < grown.capacity ∧
      (∃ j, grown.capacity = 128 * 4 ^ j) ∧ ∀ x < 128 * id.n, grown.ents x = id.ents x := by
  obtain ⟨j, capacity⟩ := filled.capacity
  have room := filled.room
  have next : (id.n + 1) % 2 ^ 32 = id.n + 1 := by omega
  simp only [growEnts, next] at run
  by_cases grows : id.capacity ≤ id.n + 1
  · have full : id.n + 1 = 128 * 4 ^ j := by omega
    have fits : id.capacity * 4 % 2 ^ 32 = id.capacity * 4 := by omega
    have quadruple : id.capacity * 4 = 128 * 4 ^ (j + 1) := by
      rw [capacity, pow_succ]
      omega
    rw [if_pos grows, fits, if_neg (by omega : ¬ id.capacity * 4 < id.capacity),
      if_neg (by omega : ¬ id.capacity * 4 ≤ id.n + 1)] at run
    simp only [quadruple] at run
    cases reply : heap.realloc (128 * 4 ^ (j + 1)) with
    | none =>
        rw [reply] at run
        cases run
    | some answer =>
        obtain ⟨there, fresh⟩ := answer
        rw [reply] at run
        cases run
        refine ⟨?_, rfl, rfl, by simp only; omega, ⟨j + 1, rfl⟩, ?_⟩
        · cases moved with
          | false => rfl
          | true => exact absurd ⟨j, fresh, full, reply⟩ still
        · intro x inside
          simp only [direntSize]
          rw [if_pos (by omega)]
  · rw [if_neg grows] at run
    cases run
    exact ⟨rfl, rfl, rfl, by simp only; omega, ⟨j, capacity⟩, fun _ _ => rfl⟩

theorem ArrayFilled.idiradd (filled : ArrayFilled entries id) (few : id.n < 2 ^ 20)
    (still : ¬ MovedAt heap id.n) (short : name.length < nameMax)
    (run : Fs.idiradd heap stamp id mode name disk = .ok (iout, after, last)) :
    ArrayFilled (entries ++ [(name, blockof iout)]) after ∧ after.inode = id.inode := by
  unfold Fs.idiradd at run
  obtain ⟨⟨moved, grown⟩, grew, run⟩ := bind_eq_ok.mp run
  obtain ⟨⟨place, made⟩, given, run⟩ := bind_eq_ok.mp run
  obtain ⟨rfl, count, inode, room, capacity, same⟩ := growEnts_still filled few still grew
  cases run
  have length := filled.n
  have small : blockof iout < 2 ^ 32 := by
    simp only [blockof]
    omega
  refine ⟨⟨?_, room, capacity, ?_⟩, inode⟩
  · simp only [List.length_append, List.length_singleton]
    omega
  · intro k other inum present
    simp only [Bool.false_eq_true, if_false]
    by_cases new : k = entries.length
    · rw [new, List.getElem?_concat_length] at present
      cases present
      rw [new, ← length]
      exact writeDirent_entry _ _ short small
    · have bound := (List.getElem?_eq_some_iff.mp present).1
      rw [List.length_append, List.length_singleton] at bound
      rw [List.getElem?_append_left (by omega)] at present
      refine (filled.written k other inum present).copy ?_
      intro i inside
      rw [writeDirent_frame _ short _ (by omega)]
      exact same _ (by omega)

theorem ArrayFilled.idiraddAll {calls : List DirCall} {final : IDir} {inodes : List Nat}
    (names : ∀ call ∈ calls, call.name.length < nameMax) (filled : ArrayFilled entries id)
    (few : id.n + calls.length < 2 ^ 20) (still : ∀ k < id.n + calls.length, ¬ MovedAt heap k)
    (run : Fs.idiraddAll heap stamp calls id disk = .ok (inodes, final, last)) :
    ArrayFilled (entries ++ (calls.map DirCall.name).zip (inodes.map blockof)) final ∧
      final.inode = id.inode := by
  induction calls generalizing id disk inodes entries with
  | nil =>
      cases run
      refine ⟨?_, rfl⟩
      simp only [List.map_nil, List.zip_nil_left, List.append_nil]
      exact filled
  | cons call rest ih =>
      obtain ⟨iout, after, made, worked, others, added, work, more, rfl⟩ := idiraddAll_cons run
      rw [List.length_cons] at few still
      obtain ⟨grown, sameInode⟩ := filled.idiradd (by omega) (still _ (by omega))
        (names call List.mem_cons_self) added
      have count : after.n = id.n + 1 := by
        rw [grown.n, filled.n, List.length_append, List.length_singleton]
      obtain ⟨whole, inodeSame⟩ := ih
        (fun other member => names other (List.mem_cons_of_mem _ member)) grown (by omega)
        (fun k inside => still k (by omega)) more
      rw [List.append_assoc, List.singleton_append] at whole
      exact ⟨whole, inodeSame.trans sameInode⟩

end Array

/-! ## The files -/

structure FileLaid (stamp : Stamp) (map : Memory) (file : InputFile) (place : Place) :
    Prop where
  laid : Laid place file.contents.length (fun i => file.contents.getD i 0) map
  header : headerOf place.ino map = stamp.header (sIfreg ||| 0o600)

/-- What the calls for the files leave between two positions. -/
structure FilesLaid (stamp : Stamp) (files : List InputFile) (places : List Place)
    (lower upper : Nat) (map : Memory) : Prop where
  files : List.Forall₂ (FileLaid stamp map) files places
  ordered : places.Pairwise fun place later => place.upper ≤ later.ino
  inside : ∀ place ∈ places, lower ≤ place.ino ∧ place.upper ≤ upper

section Files

variable {heap : Heap} {stamp : Stamp} {id after : IDir} {disk last made : Disk}
  {file : InputFile} {files : List InputFile} {places : List Place} {place : Place}
  {lower upper iout mode : Nat} {name : List UInt8} {before map : Memory}

theorem Laid.inode_below {length : Nat} {bytes : Nat → UInt8}
    (laid : Laid place length bytes map) : place.ino + blkSize ≤ place.upper := by
  have first := laid.behindInode
  have second := laid.inFront
  have third := laid.range
  rw [Nat.mul_add] at second
  omega

theorem FileLaid.congr (laid : FileLaid stamp before file place)
    (same : ∀ x, place.ino ≤ x → x < place.upper → map x = before x) :
    FileLaid stamp map file place := by
  have below := laid.laid.inode_below
  have behind := laid.laid.behindInode
  have offset : iSize ≤ blkSize := by decide
  refine ⟨laid.laid.congr ?_, ?_⟩
  · rintro x (⟨above, under⟩ | ⟨above, under⟩)
    · exact same x (by omega) (by omega)
    · exact same x (by omega) under
  · rw [headerOf_congr]
    · exact laid.header
    · intro x above under
      exact same x above (by omega)

theorem FilesLaid.congr (laid : FilesLaid stamp files places lower upper before)
    (same : ∀ x, lower ≤ x → x < upper → map x = before x) :
    FilesLaid stamp files places lower upper map := by
  refine ⟨?_, laid.ordered, laid.inside⟩
  have members := (List.forall₂_and_left places files).mpr ⟨laid.inside, laid.files.flip⟩
  refine (members.imp ?_).flip
  rintro place file ⟨⟨above, below⟩, there⟩
  exact there.congr fun x first last => same x (by omega) (by omega)

theorem FilesLaid.get (laid : FilesLaid stamp files places lower upper map) {k : Nat}
    (inFiles : files[k]? = some file) (inPlaces : places[k]? = some place) :
    FileLaid stamp map file place := by
  obtain ⟨first, rfl⟩ := List.getElem?_eq_some_iff.mp inFiles
  obtain ⟨second, rfl⟩ := List.getElem?_eq_some_iff.mp inPlaces
  exact laid.files.get first second

theorem FilesLaid.nil : FilesLaid stamp [] [] lower upper map :=
  ⟨.nil, .nil, fun _ none => by cases none⟩

theorem FilesLaid.cons {middle : Nat} (first : FileLaid stamp map file place)
    (others : FilesLaid stamp files places middle upper map) (above : lower ≤ place.ino)
    (below : place.upper ≤ middle) (further : middle ≤ upper) :
    FilesLaid stamp (file :: files) (place :: places) lower upper map := by
  have room := first.laid.inode_below
  refine ⟨.cons first others.files, List.pairwise_cons.mpr ⟨?_, others.ordered⟩, ?_⟩
  · intro later member
    have := (others.inside later member).1
    omega
  · intro other member
    rcases List.mem_cons.mp member with rfl | later
    · omega
    · have := others.inside other later
      omega

/-- What the calls take from the disk, whatever they write there. -/
structure Advances (disk last : Disk) : Prop where
  blank : Blank last
  mapped : Mapped last
  follows : Follows disk last
  kept : ∀ x < disk.pos, last.map x = disk.map x

theorem Advances.further (advances : Advances disk last) : disk.pos ≤ last.pos :=
  advances.follows.behind.1

theorem Advances.trans {middle : Disk} (first : Advances disk middle)
    (second : Advances middle last) : Advances disk last := by
  have further := first.further
  refine ⟨second.blank, second.mapped, first.follows.trans second.follows, ?_⟩
  intro x below
  rw [second.kept x (by omega), first.kept x below]

end Files

/-! ## The superblock, the bitmap and the root -/

/-- The disk that `opendisk` returns, with the root inode. -/
structure DiskOpened (stamp : Stamp) (nblocks : Nat) (disk : Disk) (inode : Nat) : Prop where
  place : inode = mappedBitmap + bitmapBytes nblocks
  pos : disk.pos = inode + blkSize
  blank : Blank disk
  mapped : Mapped disk
  ones : OnesBitmap nblocks disk
  blocks : disk.nblocks = nblocks
  magic : loadLE disk.map sMagic 4 = fsMagic
  root : blkSize * loadLE disk.map sRoot 4 = inode
  header : headerOf inode disk.map = stamp.header (sIfdir ||| 0o777)
  empty : ∀ x, inode + iDirect ≤ x → disk.map x = 0

section Opened

variable {stamp : Stamp} {nblocks inode : Nat} {disk : Disk}

end Opened

/-! ## The image -/

def directorySize (count : Nat) : Nat := (count * direntSize + 4095) / 4096 * 4096

/-- The image of the files, with `used` blocks given out. -/
structure VolumeImage (stamp : Stamp) (nblocks : Nat) (files : List InputFile) (root : Place)
    (places : List Place) (used : Nat) (map : Memory) : Prop where
  few : nblocks < 2 ^ 20
  usedBelow : used < nblocks
  magic : loadLE map sMagic 4 = fsMagic
  blocks : loadLE map sNblocks 4 = nblocks
  rootNumber : blkSize * loadLE map sRoot 4 = root.ino
  free : freeBlocks map = Finset.Ico used nblocks
  front : mappedBitmap + bitmapBytes nblocks ≤ root.ino
  directory : ∃ bytes, Laid root (directorySize files.length) bytes map
  rootHeader : headerOf root.ino map = stamp.header (sIfdir ||| 0o777)
  entries : ∀ k file place, files[k]? = some file → places[k]? = some place →
    EntryAt map (blkSize * root.start) k (basename file.name) (place.ino / blkSize)
  rest : ∀ x, 128 * files.length ≤ x → x < directorySize files.length →
    map (blkSize * root.start + x) = 0
  laid : FilesLaid stamp files places (root.ino + blkSize) (blkSize * root.start) map
  top : root.upper ≤ blkSize * used

section Image

variable {heap : Heap} {stamp : Stamp} {nblocks : Nat} {files : List InputFile} {disk : Disk}

/-- What `finishidir` writes. -/
structure DirectoryLaid (id : IDir) (filled finished : Disk) (root : Place) : Prop where
  ino : root.ino = id.inode
  start : blkSize * root.start = filled.pos
  upper : root.upper = finished.pos
  laid : ∃ bytes, Laid root (directorySize id.n) bytes finished.map
  data : ∀ x < 128 * id.n, finished.map (blkSize * root.start + x) = id.ents x
  rest : ∀ x, 128 * id.n ≤ x → x < directorySize id.n →
    finished.map (blkSize * root.start + x) = 0
  blank : Blank finished
  mapped : Mapped finished
  follows : Follows filled finished
  kept : ∀ x, x < id.inode + iSize ∨ id.inode + blkSize ≤ x → x < filled.pos →
    finished.map x = filled.map x

theorem finishdisk_kept {finished : Disk} (place : finished.bitmap = mappedBitmap)
    (mapped : Mapped finished) {x : Nat}
    (outside : x < mappedBitmap ∨ mappedBitmap + bitmapBytes finished.nblocks ≤ x) :
    (finishdisk finished).map x = finished.map x := by
  have few := mapped.few
  have inside := mapped.inside
  simp only [finishdisk, place]
  have bytes : bitmapBytes finished.nblocks % 4 = 0 := by
    simp only [bitmapBytes, blkSize]
    omega
  have within : blockof finished.pos ≤ 8 * bitmapBytes finished.nblocks := by
    simp only [blockof, bitmapBytes, blkBitSize, blkSize] at inside ⊢
    omega
  exact clearBits_frame bytes within outside

section Parts

variable {opened filled finished : Disk} {inode : Nat} {id : IDir} {places : List Place}
  {root : Place}

theorem DiskOpened.finished_blocks (start : DiskOpened stamp nblocks opened inode)
    (advances : Advances opened filled) (made : DirectoryLaid id filled finished root) :
    finished.nblocks = nblocks ∧ finished.bitmap = mappedBitmap := by
  have follows := advances.follows.trans made.follows
  constructor
  · rw [follows.behind.2.1, start.blocks]
  · rw [follows.bitmap, start.ones.place]

theorem DiskOpened.last (start : DiskOpened stamp nblocks opened inode)
    (advances : Advances opened filled) (made : DirectoryLaid id filled finished root) {x : Nat}
    (outside : x < mappedBitmap ∨ inode ≤ x) : (finishdisk finished).map x = finished.map x := by
  obtain ⟨blocks, bitmap⟩ := start.finished_blocks advances made
  have place := start.place
  exact finishdisk_kept bitmap made.mapped (by rw [blocks]; omega)

/-- Up to the size of the root directory the image is as `opendisk` left it. -/
theorem DiskOpened.front (start : DiskOpened stamp nblocks opened inode)
    (advances : Advances opened filled) (home : id.inode = inode)
    (made : DirectoryLaid id filled finished root) {x : Nat} (below : x < inode + iSize) :
    finished.map x = opened.map x := by
  have size : iSize ≤ blkSize := by decide
  have position := start.pos
  have further := advances.further
  rw [made.kept x (Or.inl (by omega)) (by omega)]
  exact advances.kept x (by omega)

theorem DiskOpened.super (start : DiskOpened stamp nblocks opened inode)
    (advances : Advances opened filled) (home : id.inode = inode)
    (made : DirectoryLaid id filled finished root) {offset width : Nat}
    (inside : offset + width ≤ mappedBitmap) :
    loadLE (finishdisk finished).map offset width = loadLE opened.map offset width := by
  have place := start.place
  apply loadLE_congr
  intro x _ above
  rw [start.last advances made (Or.inl (by omega))]
  exact start.front advances home made (by omega)

theorem DiskOpened.finished_ones (start : DiskOpened stamp nblocks opened inode)
    (advances : Advances opened filled) (home : id.inode = inode)
    (made : DirectoryLaid id filled finished root) : OnesBitmap nblocks finished := by
  obtain ⟨_, bitmap⟩ := start.finished_blocks advances made
  have place := start.place
  have kept : ∀ x < inode + iSize, finished.map x = opened.map x :=
    fun x below => start.front advances home made below
  refine ⟨bitmap, ?_, ?_⟩
  · rw [← start.ones.stored]
    apply loadLE_congr
    intro x _ above
    exact kept x (by simp only [sNblocks, mappedBitmap, blkSize] at *; omega)
  · intro x lower upper
    rw [bitmap] at lower upper
    rw [kept x (by omega)]
    exact start.ones.ones x (by rw [start.ones.place]; omega) (by rw [start.ones.place]; omega)

/-- The entry of a file has its name and the number of the block of its inode. -/
theorem DiskOpened.entry (start : DiskOpened stamp nblocks opened inode)
    (advances : Advances opened filled)
    (laid : FilesLaid stamp files places opened.pos filled.pos filled.map)
    (total : id.n = files.length)
    (array : ArrayFilled (((files.map fileCall).map DirCall.name).zip
      ((places.map Place.ino).map blockof)) id)
    (made : DirectoryLaid id filled finished root) {k : Nat} {file : InputFile} {place : Place}
    (inFiles : files[k]? = some file) (inPlaces : places[k]? = some place) :
    EntryAt (finishdisk finished).map (blkSize * root.start) k (basename file.name)
      (place.ino / blkSize) := by
  have present : (((files.map fileCall).map DirCall.name).zip
      ((places.map Place.ino).map blockof))[k]? =
        some (basename file.name, blockof place.ino) := by
    rw [List.getElem?_zip_eq_some]
    simp [inFiles, inPlaces, fileCall]
  have below := (List.getElem?_eq_some_iff.mp inFiles).1
  have entry := array.written k _ _ present
  have inside := made.mapped.inside
  have limit := made.mapped.few
  have number : blockof place.ino = place.ino / blkSize := by
    have member := laid.inside place (List.mem_of_getElem? inPlaces)
    have room := (laid.get inFiles inPlaces).laid.inode_below
    have final := made.follows.behind.1
    simp only [blockof, blkSize] at inside room ⊢
    omega
  have begins := made.start
  have position := start.pos
  have further := advances.further
  rw [← number]
  refine entry.copy ?_
  intro i small
  rw [Nat.zero_add, start.last advances made (Or.inr (by omega)), Nat.add_assoc]
  exact made.data _ (by omega)

theorem DiskOpened.image (start : DiskOpened stamp nblocks opened inode)
    (advances : Advances opened filled)
    (laid : FilesLaid stamp files places opened.pos filled.pos filled.map)
    (total : id.n = files.length) (home : id.inode = inode)
    (array : ArrayFilled (((files.map fileCall).map DirCall.name).zip
      ((places.map Place.ino).map blockof)) id)
    (made : DirectoryLaid id filled finished root) :
    VolumeImage stamp nblocks files root places (blockof finished.pos)
      (finishdisk finished).map := by
  obtain ⟨blocks, _⟩ := start.finished_blocks advances made
  have last : ∀ x, inode ≤ x → (finishdisk finished).map x = finished.map x :=
    fun x above => start.last advances made (Or.inr above)
  have position := start.pos
  have further := advances.further
  have aligned := made.blank.aligned
  have inside := made.mapped.inside
  have limit := made.mapped.few
  have begins := made.start
  have ino := made.ino
  have top := made.upper
  have used : blockof finished.pos = finished.pos / 4096 := by
    simp only [blockof, blkSize] at inside ⊢
    omega
  obtain ⟨bytes, directory⟩ := made.laid
  have behind := directory.behindInode
  have inner := directory.inode_below
  constructor
  case few => omega
  case usedBelow =>
    simp only [blkSize] at inside
    omega
  case magic => rw [start.super advances home made (by decide), start.magic]
  case blocks => rw [start.super advances home made (by decide), start.ones.stored]
  case rootNumber => rw [start.super advances home made (by decide), start.root, ino, home]
  case free => exact (start.finished_ones advances home made).finishdisk (by omega)
  case front => rw [ino, home, start.place]
  case directory =>
    rw [← total]
    refine ⟨bytes, directory.congr ?_⟩
    rintro x (⟨above, _⟩ | ⟨above, _⟩)
    · exact last x (by omega)
    · exact last x (by omega)
  case rootHeader =>
    rw [ino, home, ← start.header]
    apply headerOf_congr
    intro x above below
    rw [last x above]
    exact start.front advances home made below
  case entries =>
    intro k file place inFiles inPlaces
    exact start.entry advances laid total array made inFiles inPlaces
  case rest =>
    intro x above below
    rw [← total] at above below
    rw [last _ (by omega)]
    exact made.rest x above below
  case laid =>
    rw [ino, home, begins]
    rw [position] at laid
    refine laid.congr ?_
    intro x above below
    rw [last x (by omega)]
    exact made.kept x (Or.inr (by omega)) below
  case top =>
    rw [used, top]
    simp only [blkSize]
    omega

end Parts

end Image

end OsLabs.Fs
