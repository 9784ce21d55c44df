import OsLabs.Fs.FileTree
import OsLabs.Fs.Listing
import OsLabs.Fs.Offsets

/-!
# The image and its tree

Many inodes share one image.  `ImageDocumented` says what the comments of the missing
functions mean for all of them at once, and `diskTree` is the tree that lookups in their
directories show.
-/

set_option autoImplicit false

namespace OsLabs.Fs

open OsLabs.ByteMemory OsLabs.ExceptRules

/-- `sizeof(struct inode)`. -/
abbrev inodeSize : Nat := 98

/-- `sizeof(struct superblock)`. -/
abbrev superSize : Nat := 12

/-! ## What is in use -/

inductive Owner where
  | super
  | inode (ino : Nat)
  | block (ino filebno : Nat)

section Image

variable (stubs : Nat → InodeStubs) (live : Nat → Prop)

/-- The superblock, the inodes in use and the blocks of their files. -/
def Owner.Holds (map : Memory) : Owner → Nat → Prop
  | .super, x => x < superSize
  | .inode ino, x => live ino ∧ ino ≤ x ∧ x < ino + inodeSize
  | .block ino filebno, x => live ino ∧
      ∃ blk, blockAt (stubs ino) map filebno = some blk ∧ blk ≤ x ∧ x < blk + blkSize

/-- The superblock and the inodes in use are as before, but for owners and times, and for the
sizes and the blocks of the `changed` ones. -/
structure SameImage (changed : Nat → Prop) (before after : Memory) : Prop where
  nblocks : loadLE after sNblocks 4 = loadLE before sNblocks 4
  root : loadLE after sRoot 4 = loadLE before sRoot 4
  /-- The mode, the device and the number of links. -/
  header : ∀ {ino}, live ino → AgreeOn before after (ino + iMode) (iAtime - iMode)
  size : ∀ {ino}, live ino → ¬ changed ino → iSizeOf ino after = iSizeOf ino before
  blocks : ∀ {ino}, live ino → ¬ changed ino → ∀ n, Kept (stubs ino) before after n

/-- What the comments say of `inode_get_block` and `alloc_block`, on an image whose inodes in
use are `live`. -/
structure ImageDocumented (allocBlock : Memory → Except Errno Nat × Memory)
    (valid : Memory → Prop) : Prop where
  /-- No byte is used twice. -/
  once : ∀ {map} {owner other : Owner} {x}, valid map → owner.Holds stubs live map x →
    other.Holds stubs live map x → owner = other
  /-- Block numbers are kept neither in the blocks of a file nor in its size. -/
  own : ∀ {map after ino}, valid map → live ino →
    (∀ x, ¬ OwnByte (stubs ino) ino map x → after x = map x) →
    valid after ∧ ∀ other, live other → ∀ n,
      blockAt (stubs other) after n = blockAt (stubs other) map n
  /-- A block that is there is returned. -/
  found : ∀ {map ino n blk}, valid map → live ino → blockAt (stubs ino) map n = some blk →
    (stubs ino).getBlock map n = (.ok blk, map)
  /-- A new block is a zeroed one that was free. -/
  new : ∀ {map after ino n blk}, valid map → live ino → blockAt (stubs ino) map n = none →
    (stubs ino).getBlock map n = (.ok blk, after) →
    valid after ∧ SameImage stubs live (· = ino) map after ∧
      iSizeOf ino after = iSizeOf ino map ∧ blockAt (stubs ino) after n = some blk ∧
      AgreeOn (fun _ => 0) after blk blkSize ∧ ∀ m, m ≠ n → Kept (stubs ino) map after m
  /-- A block that was free, and may be written to. -/
  alloc : ∀ {map after number}, valid map → allocBlock map = (.ok number, after) →
    ∃ blk, diskblock2memaddr map number = .ok blk ∧
      (∀ owner : Owner, ∀ x, owner.Holds stubs live map x → x < blk ∨ blk + blkSize ≤ x) ∧
      ∀ later, (∀ x, x < blk ∨ blk + blkSize ≤ x → later x = after x) →
        valid later ∧ SameImage stubs live (fun _ => False) map later

end Image

section Frames

variable {stubs : Nat → InodeStubs} {live : Nat → Prop} {changed : Nat → Prop}
  {allocBlock : Memory → Except Errno Nat × Memory} {valid : Memory → Prop}
  {map after : Memory} {dir n blk : Nat}

theorem SameImage.refl : SameImage stubs live changed map map where
  nblocks := rfl
  root := rfl
  header := fun _ _ _ _ => rfl
  size := fun _ _ => rfl
  blocks := fun _ _ _ => ⟨rfl, fun _ _ _ _ _ => rfl⟩

theorem SameImage.trans {first second third : Memory}
    (front : SameImage stubs live changed first second)
    (back : SameImage stubs live changed second third) :
    SameImage stubs live changed first third where
  nblocks := back.nblocks.trans front.nblocks
  root := back.root.trans front.root
  header := fun there x lower upper =>
    (back.header there x lower upper).trans (front.header there x lower upper)
  size := fun there same => (back.size there same).trans (front.size there same)
  blocks := fun there same n => (front.blocks there same n).trans (back.blocks there same n)

theorem SameImage.weaken {more : Nat → Prop} (same : SameImage stubs live changed map after)
    (wider : ∀ ino, changed ino → more ino) : SameImage stubs live more map after where
  nblocks := same.nblocks
  root := same.root
  header := same.header
  size := fun there apart => same.size there fun inside => apart (wider _ inside)
  blocks := fun there apart => same.blocks there fun inside => apart (wider _ inside)

theorem SameImage.mode (same : SameImage stubs live changed map after) {ino : Nat}
    (there : live ino) : loadLE after (ino + iMode) 4 = loadLE map (ino + iMode) 4 := by
  apply loadLE_congr
  intro x lower upper
  apply same.header there x lower
  simp only [iMode, iAtime] at *
  omega

theorem SameImage.nlink (same : SameImage stubs live changed map after) {ino : Nat}
    (there : live ino) : loadLE after (ino + iNlink) 2 = loadLE map (ino + iNlink) 2 := by
  apply loadLE_congr
  intro x lower upper
  apply same.header there x
  · simp only [iMode, iNlink] at *
    omega
  · simp only [iMode, iNlink, iAtime] at *
    omega

theorem SameImage.isDir (same : SameImage stubs live changed map after) {ino : Nat}
    (there : live ino) : isDir after ino = isDir map ino := by
  rw [Fs.isDir, Fs.isDir, same.mode there]

theorem SameImage.byteAt (same : SameImage stubs live changed map after) {ino : Nat}
    (there : live ino) (apart : ¬ changed ino) :
    byteAt (stubs ino) after = byteAt (stubs ino) map := by
  funext i
  exact (same.blocks there apart (i / blkSize)).byteAt

theorem loadLE_owner (owner : Owner) {x width : Nat}
    (inside : ∀ y, x ≤ y → y < x + width → owner.Holds stubs live map y)
    (same : ∀ y, owner.Holds stubs live map y → after y = map y) :
    loadLE after x width = loadLE map x width := by
  apply loadLE_congr
  intro y lower upper
  exact same y (inside y lower upper)

theorem SameImage.of_file
    (same : ∀ owner : Owner, owner ≠ .inode dir → (∀ n, owner ≠ .block dir n) →
      ∀ x, owner.Holds stubs live map x → after x = map x)
    (places : ∀ ino, live ino → ∀ n, blockAt (stubs ino) after n = blockAt (stubs ino) map n)
    (header : AgreeOn map after (dir + iMode) (iAtime - iMode)) :
    SameImage stubs live (· = dir) map after := by
  have super := same .super (by simp) (by simp)
  have inode : ∀ ino, live ino → ino ≠ dir → ∀ x, ino ≤ x → x < ino + inodeSize →
      after x = map x := by
    intro ino there apart x lower upper
    exact same (.inode ino) (by simpa using apart) (by simp) x ⟨there, lower, upper⟩
  constructor
  · apply loadLE_owner .super _ super
    intro y _ upper
    show y < superSize
    simp only [sNblocks, superSize] at *
    omega
  · apply loadLE_owner .super _ super
    intro y _ upper
    show y < superSize
    simp only [sRoot, superSize] at *
    omega
  · intro ino there
    by_cases here : ino = dir
    · rw [here]
      exact header
    · intro x lower upper
      apply inode ino there here x
      · exact (Nat.le_add_right _ _).trans lower
      · simp only [iMode, iAtime, inodeSize] at *
        omega
  · intro ino there apart
    apply loadLE_congr
    intro x lower upper
    apply inode ino there apart x
    · exact (Nat.le_add_right _ _).trans lower
    · simp only [iSize, inodeSize] at *
      omega
  · intro ino there apart n
    refine ⟨places ino there n, ?_⟩
    intro blk place x lower upper
    exact same (.block ino n) (by simp) (fun m equal => apart (Owner.block.inj equal).1) x
      ⟨there, blk, place, lower, upper⟩

theorem ImageDocumented.write_block (doc : ImageDocumented stubs live allocBlock valid)
    (mapValid : valid map) (there : live dir) (place : blockAt (stubs dir) map n = some blk)
    (outside : ∀ x, x < blk ∨ blk + blkSize ≤ x → after x = map x) :
    valid after ∧ SameImage stubs live (· = dir) map after ∧
      iSizeOf dir after = iSizeOf dir map ∧
      (∀ m, blockAt (stubs dir) after m = blockAt (stubs dir) map m) ∧
      ∀ m, m ≠ n → Kept (stubs dir) map after m := by
  have same : ∀ owner : Owner, owner ≠ .block dir n → ∀ x, owner.Holds stubs live map x →
      after x = map x := by
    intro owner different x holds
    by_cases inside : blk ≤ x ∧ x < blk + blkSize
    · have also : (Owner.block dir n).Holds stubs live map x := ⟨there, blk, place, inside⟩
      exact absurd (doc.once mapValid holds also) different
    · exact outside x (by omega)
  obtain ⟨stays, places⟩ := doc.own mapValid there (by
    intro x foreign
    by_cases inside : blk ≤ x ∧ x < blk + blkSize
    · exact absurd (Or.inl ⟨n, blk, place, inside⟩) foreign
    · exact outside x (by omega))
  have inode : AgreeOn map after dir inodeSize := fun x lower upper =>
    same (.inode dir) (by simp) x ⟨there, lower, upper⟩
  have size : iSizeOf dir after = iSizeOf dir map := by
    apply loadLE_congr
    intro x lower upper
    apply inode x
    · exact (Nat.le_add_right _ _).trans lower
    · simp only [iSize, inodeSize] at *
      omega
  refine ⟨stays, ?_, size, places dir there, ?_⟩
  · apply SameImage.of_file
    · intro owner _ notBlock
      exact same owner (notBlock n)
    · exact places
    · intro x lower upper
      apply inode x
      · exact (Nat.le_add_right _ _).trans lower
      · simp only [iMode, iAtime, inodeSize] at *
        omega
  · intro m different
    refine ⟨places dir there m, ?_⟩
    intro other found x lower upper
    exact same (.block dir m) (fun equal => different (Owner.block.inj equal).2) x
      ⟨there, other, found, lower, upper⟩

theorem ImageDocumented.write_size (doc : ImageDocumented stubs live allocBlock valid)
    (mapValid : valid map) (there : live dir) {size : Nat} (bound : size < 2 ^ 32)
    (stored : after = storeLE map (dir + iSize) 4 size) :
    valid after ∧ SameImage stubs live (· = dir) map after ∧ iSizeOf dir after = size ∧
      ∀ m, Kept (stubs dir) map after m := by
  have outside : ∀ x, x < dir + iSize ∨ dir + iSize + 4 ≤ x → after x = map x := by
    intro x apart
    rw [stored]
    exact storeLE_outside apart
  have same : ∀ owner : Owner, owner ≠ .inode dir → ∀ x, owner.Holds stubs live map x →
      after x = map x := by
    intro owner different x holds
    by_cases inside : dir + iSize ≤ x ∧ x < dir + iSize + 4
    · have also : (Owner.inode dir).Holds stubs live map x := by
        refine ⟨there, ?_⟩
        simp only [iSize, inodeSize] at *
        omega
      exact absurd (doc.once mapValid holds also) different
    · exact outside x (by omega)
  obtain ⟨stays, places⟩ := doc.own mapValid there (by
    intro x foreign
    apply outside
    by_contra inside
    exact foreign (Or.inr ⟨by omega, by omega⟩))
  refine ⟨stays, ?_, ?_, ?_⟩
  · apply SameImage.of_file
    · intro owner notInode _
      exact same owner notInode
    · exact places
    · intro x lower upper
      apply outside
      simp only [iMode, iAtime, iSize] at *
      omega
  · rw [iSizeOf, stored, loadLE_storeLE]
    omega
  · intro m
    refine ⟨places dir there m, ?_⟩
    intro other found x lower upper
    exact same (.block dir m) (by simp) x ⟨there, other, found, lower, upper⟩

theorem ImageDocumented.returns (doc : ImageDocumented stubs live allocBlock valid)
    (mapValid : valid map) (there : live dir) : Returns (stubs dir) dir (· = map) := by
  rintro _ rfl n present
  obtain ⟨blk, place⟩ := Option.ne_none_iff_exists'.mp present
  rw [dirBlock_eq place]
  exact ⟨_, doc.found mapValid there place, SameFile.refl rfl⟩

end Frames

/-! ## Names -/

/-- `d_name` up to its zero. -/
def nameOf (bytes : Nat → UInt8) (k : Nat) : Name :=
  (entryName bytes k).takeWhile (· ≠ 0)

structure Element (name : Name) : Prop where
  some : name ≠ []
  string : (0 : UInt8) ∉ name
  single : slash ∉ name

theorem strcmpZero_eq {s : Nat → UInt8} {name : Name} (string : (0 : UInt8) ∉ name)
    {width : Nat} (short : name.length < width) :
    strcmpZero s name = true ↔ ((List.range width).map s).takeWhile (· ≠ 0) = name := by
  induction name generalizing s width with
  | nil =>
      obtain ⟨rest, rfl⟩ : ∃ rest, width = rest + 1 := ⟨width - 1, by simp at short; omega⟩
      rw [List.range_succ_eq_map, List.map_cons, List.takeWhile_cons, strcmpZero]
      by_cases zero : s 0 = 0
      · simp [zero]
      · simp [zero]
  | cons byte rest ih =>
      obtain ⟨more, rfl⟩ : ∃ more, width = more + 1 := ⟨width - 1, by simp at short; omega⟩
      rw [List.mem_cons, not_or] at string
      have tail := @ih (fun i => s (i + 1)) string.2 more (by simpa using short)
      have shifted : ((List.range more).map Nat.succ).map s =
          (List.range more).map fun i => s (i + 1) := by
        rw [List.map_map]
        rfl
      rw [List.range_succ_eq_map, List.map_cons, List.takeWhile_cons, shifted, strcmpZero,
        Bool.and_eq_true, tail]
      by_cases zero : s 0 = 0
      · have other : ¬ (0 : UInt8) = byte := string.1
        simp [zero, other]
      · simp [zero]

theorem nameAt_iff {bytes : Nat → UInt8} {k : Nat} {name : Name} (string : (0 : UInt8) ∉ name)
    (short : name.length < nameMax) : NameAt bytes k name = true ↔ nameOf bytes k = name :=
  strcmpZero_eq string short

/-- The names of a directory end within their entries, and no two are the same. -/
structure NamesOk (stubs : InodeStubs) (dir : Nat) (map : Memory) : Prop where
  terminated : ∀ k ∈ entriesOf dir map, (0 : UInt8) ∈ entryName (byteAt stubs map) k
  distinct : ∀ j ∈ entriesOf dir map, ∀ k ∈ entriesOf dir map,
    nameOf (byteAt stubs map) j ≠ [] →
    nameOf (byteAt stubs map) j = nameOf (byteAt stubs map) k → j = k

theorem segments_element {path : List UInt8} (string : (0 : UInt8) ∉ path) :
    ∀ name ∈ segments path, Element name := by
  have clean : (0 : UInt8) ∉ skipSlash path := fun zero =>
    string ((skipSlash_suffix path).subset zero)
  rw [← segments_skipSlash]
  refine @scan_induction (fun path => (0 : UInt8) ∉ path → ∀ name ∈ segments path, Element name)
    ?_ ?_ _ (skipSlash_skipSlash path) clean
  · intro _ name member
    rw [segments_nil] at member
    cases member
  · intro byte rest other ih clean name member
    rw [segments_scan other] at member
    rcases List.mem_cons.mp member with rfl | later
    · refine ⟨?_, ?_, ?_⟩
      · simp [other]
      · intro zero
        exact clean ((List.takeWhile_prefix _).subset zero)
      · intro inside
        simpa using List.mem_takeWhile_imp inside
    · have back : skipSlash ((byte :: rest).dropWhile (· ≠ slash)) <:+ byte :: rest :=
        (skipSlash_suffix _).trans (List.dropWhile_suffix _)
      exact ih (fun zero => clean (back.subset zero)) name later

/-! ## The tree of an image -/

def diskTree (stubs : Nat → InodeStubs) (map : Memory) (root : Nat) : Tree where
  root := root
  kind := fun ino => some (if isDir map ino then .dir else .file)
  entry := fun dir name => (dirLookup (stubs dir) dir map name).1.toOption.map Prod.snd
  nlink := fun ino => .ofNat (loadLE map (ino + iNlink) 2)

/-- Whether `walk_path` leads to the inode. -/
def Opens (stubs : Nat → InodeStubs) (map : Memory) (path : List UInt8) (ino : Nat) : Prop :=
  (inodeOpen stubs map path).1 = .ok (some ino)

section DiskTree

variable (stubs : Nat → InodeStubs) (live : Nat → Prop) (map : Memory) (root : Nat)

/-- The directories along paths are in use and have whole blocks, all of them allocated,
and proper names. -/
structure Directories : Prop where
  used : ∀ {dir}, (diskTree stubs map root).Along Element dir → isDir map dir → live dir
  whole : ∀ {dir}, (diskTree stubs map root).Along Element dir → isDir map dir →
    iSizeOf dir map % blkSize = 0
  allocated : ∀ {dir}, (diskTree stubs map root).Along Element dir → isDir map dir →
    Allocated (stubs dir) dir map
  names : ∀ {dir}, (diskTree stubs map root).Along Element dir → isDir map dir →
    NamesOk (stubs dir) dir map

structure Shaped : Prop extends Directories stubs live map root where
  inUse : ∀ {ino}, (diskTree stubs map root).Along Element ino → live ino
  small : ∀ {dir}, (diskTree stubs map root).Along Element dir → isDir map dir →
    iSizeOf dir map < 2 ^ 32 - blkSize
  oneWay : (diskTree stubs map root).OneWay Element

/-- Such a tree with nothing but zeros behind the sizes of its directories, in a block that is
there already. -/
structure WellFormed : Prop extends Shaped stubs live map root where
  behind : ∀ {dir}, (diskTree stubs map root).Along Element dir → isDir map dir →
    ∀ i, iSizeOf dir map ≤ i → i < iSizeOf dir map + blkSize → byteAt (stubs dir) map i = 0

end DiskTree

section Walks

variable {stubs : Nat → InodeStubs} {live : Nat → Prop} {map : Memory} {root dir ino : Nat}
  {allocBlock : Memory → Except Errno Nat × Memory} {valid : Memory → Prop} {name : Name}

theorem diskTree_dir : (diskTree stubs map root).kind dir = some .dir ↔ isDir map dir := by
  rw [diskTree]
  by_cases directory : isDir map dir <;> simp [directory]

theorem diskTree_slot (directory : isDir map dir) (short : name.length < nameMax) :
    (diskTree stubs map root).slot dir name =
      (dirLookup (stubs dir) dir map name).1.toOption.map Prod.snd := by
  rw [Tree.slot, if_pos ⟨diskTree_dir.mpr directory, short⟩]
  rfl

theorem diskTree_file (file : ¬ isDir map dir) :
    (diskTree stubs map root).slot dir name = none := by
  rw [Tree.slot, if_neg]
  intro ok
  exact file (diskTree_dir.mp ok.1)

theorem diskTree_step (cur : Cursor) (name : Name) :
    (resolveStep stubs map cur name).toOption.map Cursor.ino =
      (diskTree stubs map root).slot cur.ino name := by
  rw [resolveStep]
  by_cases long : nameMax ≤ name.length
  · rw [if_pos long, Tree.slot, if_neg (fun ok => absurd ok.2 (not_lt.mpr long))]
    rfl
  · rw [if_neg long]
    by_cases directory : isDir map cur.ino
    · rw [if_neg (not_not.mpr directory), diskTree_slot directory (not_le.mp long)]
      cases (dirLookup (stubs cur.ino) cur.ino map name).1 <;> rfl
    · rw [if_pos directory, diskTree_file directory]
      rfl

theorem diskTree_resolve {names : List Name} (cur : Cursor) :
    (names.foldlM (resolveStep stubs map) cur).toOption.map Cursor.ino =
      RadixTree.descend id (diskTree stubs map root).slot cur.ino names := by
  induction names generalizing cur with
  | nil => rfl
  | cons name rest ih =>
      rw [List.foldlM_cons, RadixTree.descend, ← diskTree_step cur name]
      cases resolveStep stubs map cur name with
      | error stopped => rfl
      | ok next => exact ih next

theorem Directories.walkable (dirs : Directories stubs live map root)
    (doc : ImageDocumented stubs live allocBlock valid) (mapValid : valid map) :
    Walkable stubs map ((diskTree stubs map root).Along Element) Element where
  looks := by
    intro dir name along directory short _
    obtain ⟨after, same, found⟩ := (doc.returns mapValid (dirs.used along directory)).lookup
      rfl (dirs.whole along directory) (dirs.allocated along directory) short
    rw [same.valid] at found
    exact Or.inr found
  child := by
    intro dir d ino name along directory short fits found
    apply along.child fits
    rw [diskTree_slot directory short, found]
    rfl

theorem Directories.walk (dirs : Directories stubs live map root)
    (doc : ImageDocumented stubs live allocBlock valid) (mapValid : valid map)
    (super : diskblock2memaddr map (loadLE map sRoot 4) = .ok root) {path : List UInt8}
    (string : (0 : UInt8) ∉ path) (short : path.length < pathMax) :
    walkPath stubs map path ⟨none, none, none, []⟩ =
      ((walkSegments stubs map (segments path) ⟨none, root, none⟩ ⟨none, none, none, []⟩).1,
        (walkSegments stubs map (segments path) ⟨none, root, none⟩ ⟨none, none, none, []⟩).2,
        map) := by
  have top : (diskTree stubs map root).Along Element root := Tree.along_root
  exact (dirs.walkable doc mapValid).walkPath top super short (segments_element string) _ rfl

theorem Directories.opens_iff (dirs : Directories stubs live map root)
    (doc : ImageDocumented stubs live allocBlock valid) (mapValid : valid map)
    (super : diskblock2memaddr map (loadLE map sRoot 4) = .ok root) {path : List UInt8}
    (string : (0 : UInt8) ∉ path) :
    Opens stubs map path ino ↔ (diskTree stubs map root).find path = some ino := by
  rw [Opens, inodeOpen, Tree.find]
  by_cases short : path.length < pathMax
  · rw [if_pos short, dirs.walk doc mapValid super string short]
    have walked := @diskTree_resolve stubs map root (segments path) ⟨none, root, none⟩
    simp only [walkSegments_result]
    rw [Tree.resolve, show (diskTree stubs map root).root = root from rfl, ← walked]
    cases last : (segments path).foldlM (resolveStep stubs map) ⟨none, root, none⟩ with
    | error stopped => simp [Except.map, Except.toOption]
    | ok cur =>
        rw [walkSegments_found last]
        simp [Except.map, Except.toOption]
  · rw [if_neg short, walkPath, if_pos (not_lt.mp short)]
    simp [Except.map]

/-- What a directory has under a name: the inode of the entry with this name. -/
theorem ImageDocumented.slot (doc : ImageDocumented stubs live allocBlock valid)
    (mapValid : valid map) (there : live dir) (directory : isDir map dir)
    (whole : iSizeOf dir map % blkSize = 0) (allocated : Allocated (stubs dir) dir map)
    (fits : Element name) (short : name.length < nameMax) :
    (diskTree stubs map root).slot dir name =
      ((entriesOf dir map).find? fun k => nameOf (byteAt (stubs dir) map) k = name).bind
        fun k => (diskblock2memaddr map (entryInum (byteAt (stubs dir) map) k)).toOption := by
  obtain ⟨after, _, found⟩ := (doc.returns mapValid there).lookup rfl whole allocated short
  have same : (fun k => decide (nameOf (byteAt (stubs dir) map) k = name)) =
      fun k => NameAt (byteAt (stubs dir) map) k name := by
    funext k
    rw [Bool.eq_iff_iff, decide_eq_true_iff, nameAt_iff fits.string short]
  rw [diskTree_slot directory short, found, firstNamed, same]
  cases (entriesOf dir map).find? fun k => NameAt (byteAt (stubs dir) map) k name with
  | none => rfl
  | some k =>
      simp only [entryFound, Option.bind_some]
      cases diskblock2memaddr map (entryInum (byteAt (stubs dir) map) k) <;> rfl

end Walks

end OsLabs.Fs
