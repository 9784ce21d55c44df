import OsLabs.Fs.Volume

/-!
# The driver over a new image

While requests come, the image that fsformat made changes in the headers of its inodes only.
What the driver answers is what the volume of the files answers, request by request.
-/

set_option autoImplicit false

namespace OsLabs.Fs

open OsLabs.ByteMemory OsLabs.ExceptRules

def placeOf (root : Place) (places : List Place) : Node → Place
  | .root => root
  | .file k => places.getD k root

/-- The image differs from the other in the headers of its nodes only. -/
def SameButHeaders (volume : Volume) (place : Node → Place) (image map : Memory) : Prop :=
  ∀ x, (∀ node, volume.Has node → x < (place node).ino ∨ (place node).ino + iSize ≤ x) →
    map x = image x

/-- What an image shows of a volume, whatever its headers say. -/
structure Holds (volume : Volume) (place : Node → Place) (map : Memory) : Prop where
  few : volume.nblocks < 2 ^ 20
  blocks : loadLE map sNblocks 4 = volume.nblocks
  super : diskblock2memaddr map (loadLE map sRoot 4) = .ok (place .root).ino
  space : fsStatfs map = volume.space
  upper : ∀ node, volume.Has node → (place node).upper ≤ blkSize * volume.nblocks
  behind : ∀ node, volume.Has node → blkSize ≤ (place node).ino
  directory : ∃ bytes, Laid (place .root) (volume.size .root) bytes map
  file : ∀ k < volume.files.length, Laid (place (.file k)) (volume.size (.file k))
    (fun i => (volume.contents (.file k)).getD i 0) map
  entries : ∀ k file, volume.files[k]? = some file →
    EntryAt map (blkSize * (place .root).start) k (basename file.name)
      ((place (.file k)).ino / blkSize)
  rest : ∀ x, 128 * volume.files.length ≤ x → x < volume.size .root →
    map (blkSize * (place .root).start + x) = 0
  apart : ∀ node other, volume.Has node → volume.Has other → node ≠ other →
    (place node).ino + blkSize ≤ (place other).ino ∨ (place other).ino + blkSize ≤ (place node).ino

section Image

variable {stamp : Stamp} {nblocks used : Nat} {files : List InputFile} {root : Place}
  {places : List Place} {image map : Memory} {volume : Volume}

theorem VolumeImage.placeOf (made : VolumeImage stamp nblocks files root places used image) {k : Nat}
    (inFiles : k < files.length) :
    ∃ place, places[k]? = some place ∧ Fs.placeOf root places (.file k) = place ∧
      FileLaid stamp image (files.get ⟨k, inFiles⟩) place ∧
      root.ino + blkSize ≤ place.ino ∧ place.upper ≤ blkSize * root.start := by
  have length := made.laid.files.length_eq
  have inPlaces : k < places.length := by omega
  have present : places[k]? = some (places.get ⟨k, inPlaces⟩) := List.getElem?_eq_getElem inPlaces
  refine ⟨places.get ⟨k, inPlaces⟩, present, ?_, made.laid.get (List.getElem?_eq_getElem inFiles)
    present, made.laid.inside _ (List.get_mem ..)⟩
  rw [Fs.placeOf, List.getD_eq_getElem?_getD, present]
  rfl

theorem VolumeImage.ordered (made : VolumeImage stamp nblocks files root places used image)
    {j k : Nat} (order : j < k) (inFiles : k < files.length) :
    (Fs.placeOf root places (.file j)).upper ≤ (Fs.placeOf root places (.file k)).ino := by
  have length := made.laid.files.length_eq
  have ordered := List.pairwise_iff_getElem.mp made.laid.ordered j k (by omega) (by omega) order
  simp only [Fs.placeOf, List.getD_eq_getElem?_getD]
  rw [List.getElem?_eq_getElem (by omega), List.getElem?_eq_getElem (by omega)]
  exact ordered

theorem VolumeImage.apart (made : VolumeImage stamp nblocks files root places used image)
    {node other : Node} (here : Volume.Has ⟨files, nblocks, used⟩ node)
    (there : Volume.Has ⟨files, nblocks, used⟩ other) {x : Nat}
    (inside : (Fs.placeOf root places node).Has x) :
    x < (Fs.placeOf root places other).ino ∨ (Fs.placeOf root places other).ino + iSize ≤ x := by
  have size : iSize ≤ blkSize := by decide
  obtain ⟨bytes, directory⟩ := made.directory
  have rootBehind := directory.behindInode
  rw [Place.Has] at inside
  cases node with
  | root =>
      rw [show Fs.placeOf root places .root = root from rfl] at inside
      cases other with
      | root =>
          rw [show Fs.placeOf root places .root = root from rfl]
          omega
      | file k =>
          obtain ⟨place, _, equal, laid, lower, upper⟩ := made.placeOf there
          have room := laid.laid.inode_below
          rw [equal]
          omega
  | file j =>
      obtain ⟨place, _, equal, laid, lower, upper⟩ := made.placeOf here
      have room := laid.laid.inode_below
      have behind := laid.laid.behindInode
      rw [equal] at inside
      cases other with
      | root =>
          rw [show Fs.placeOf root places .root = root from rfl]
          omega
      | file k =>
          obtain ⟨second, _, equal', laid', lower', upper'⟩ := made.placeOf there
          have room' := laid'.laid.inode_below
          rcases Nat.lt_trichotomy j k with before | rfl | behind
          · have ordered := made.ordered before there
            rw [equal, equal'] at ordered
            rw [equal']
            omega
          · rw [equal]
            omega
          · have ordered := made.ordered behind here
            rw [equal, equal'] at ordered
            rw [equal']
            omega

theorem VolumeImage.inFront (made : VolumeImage stamp nblocks files root places used image)
    (same : SameButHeaders ⟨files, nblocks, used⟩ (Fs.placeOf root places) image map) {x : Nat}
    (below : x < root.ino) : map x = image x := by
  apply same
  intro node here
  left
  cases node with
  | root => exact below
  | file k =>
      obtain ⟨place, _, equal, _, lower, _⟩ := made.placeOf here
      rw [equal]
      omega

theorem VolumeImage.contents (made : VolumeImage stamp nblocks files root places used image)
    (same : SameButHeaders ⟨files, nblocks, used⟩ (Fs.placeOf root places) image map)
    {node : Node} (here : Volume.Has ⟨files, nblocks, used⟩ node) :
    ∀ x, (Fs.placeOf root places node).Has x → map x = image x :=
  fun x inside => same x fun _ there => made.apart here there inside

theorem VolumeImage.super (made : VolumeImage stamp nblocks files root places used image)
    (same : SameButHeaders ⟨files, nblocks, used⟩ (Fs.placeOf root places) image map)
    {field : Nat} (inside : field + 4 ≤ mappedBitmap) :
    loadLE map field 4 = loadLE image field 4 := by
  have front := made.front
  apply loadLE_congr
  intro x _ upper
  exact made.inFront same (by omega)

theorem VolumeImage.freeBlocks (made : VolumeImage stamp nblocks files root places used image)
    (same : SameButHeaders ⟨files, nblocks, used⟩ (Fs.placeOf root places) image map) :
    Fs.freeBlocks map = Fs.freeBlocks image := by
  have front := made.front
  have few := made.few
  have blocks : loadLE map sNblocks 4 = nblocks := by
    rw [made.super same (by decide), made.blocks]
  ext block
  rw [mem_freeBlocks, mem_freeBlocks, blocks, made.blocks]
  apply and_congr_right
  intro below
  have word : loadLE map (mappedBitmap + 4 * (block / 32)) 4 =
      loadLE image (mappedBitmap + 4 * (block / 32)) 4 := by
    apply loadLE_congr
    intro x _ upper
    apply made.inFront same
    simp only [bitmapBytes, blkBitSize, blkSize] at front
    omega
  rw [bitOf, word, bitOf]

theorem VolumeImage.rootData (made : VolumeImage stamp nblocks files root places used image)
    (same : SameButHeaders ⟨files, nblocks, used⟩ (Fs.placeOf root places) image map) {x : Nat}
    (inside : x < directorySize files.length) :
    map (blkSize * root.start + x) = image (blkSize * root.start + x) := by
  obtain ⟨bytes, directory⟩ := made.directory
  have range := directory.range
  have inFront := directory.inFront
  have whole := le_dataBlocks (directorySize files.length)
  rw [Nat.mul_add] at inFront
  exact made.contents same (show Volume.Has ⟨files, nblocks, used⟩ .root from trivial) _
    (Or.inr ⟨Nat.le_add_right _ _, show blkSize * root.start + x < root.upper by omega⟩)

theorem VolumeImage.statfs (made : VolumeImage stamp nblocks files root places used image)
    (same : SameButHeaders ⟨files, nblocks, used⟩ (Fs.placeOf root places) image map) :
    fsStatfs map = Volume.space ⟨files, nblocks, used⟩ := by
  have free := fsStatfs_bfree map
  rw [made.freeBlocks same, made.free, Nat.card_Ico] at free
  simp only [fsStatfs] at free ⊢
  rw [free, made.super same (by decide), made.blocks, made.super same (by decide), made.magic]
  rfl

/-- A node lies behind the first block and in the part of the image that is given out. -/
theorem VolumeImage.bounds (made : VolumeImage stamp nblocks files root places used image)
    {node : Node} (here : Volume.Has ⟨files, nblocks, used⟩ node) :
    blkSize ≤ (Fs.placeOf root places node).ino ∧
      (Fs.placeOf root places node).upper ≤ blkSize * nblocks := by
  have below := made.usedBelow
  have front := made.front
  have top := made.top
  obtain ⟨bytes, directory⟩ := made.directory
  have range := directory.range
  have behind := directory.behindInode
  have inFront := directory.inFront
  cases node with
  | root =>
      simp only [Fs.placeOf, mappedBitmap, blkSize] at *
      omega
  | file k =>
      obtain ⟨place, _, equal, _, lower, upper⟩ := made.placeOf here
      rw [equal]
      simp only [blkSize] at *
      omega

theorem VolumeImage.inodesApart (made : VolumeImage stamp nblocks files root places used image)
    {node other : Node} (here : Volume.Has ⟨files, nblocks, used⟩ node)
    (there : Volume.Has ⟨files, nblocks, used⟩ other) (different : node ≠ other) :
    (Fs.placeOf root places node).ino + blkSize ≤ (Fs.placeOf root places other).ino ∨
      (Fs.placeOf root places other).ino + blkSize ≤ (Fs.placeOf root places node).ino := by
  have order : ∀ j k, j < k → k < files.length →
      (Fs.placeOf root places (.file j)).ino + blkSize ≤
        (Fs.placeOf root places (.file k)).ino := by
    intro j k less inFiles
    obtain ⟨place, _, equal, laid, _⟩ := made.placeOf (show j < files.length by omega)
    have room := laid.laid.inode_below
    have ordered := made.ordered less inFiles
    rw [equal] at ordered ⊢
    omega
  have above : ∀ k < files.length,
      root.ino + blkSize ≤ (Fs.placeOf root places (.file k)).ino := by
    intro k inFiles
    obtain ⟨place, _, equal, _, lower, _⟩ := made.placeOf inFiles
    rw [equal]
    exact lower
  cases node with
  | root =>
      cases other with
      | root => exact absurd rfl different
      | file k => exact Or.inl (above k there)
  | file j =>
      cases other with
      | root => exact Or.inr (above j here)
      | file k =>
          rcases Nat.lt_trichotomy j k with less | rfl | more
          · exact Or.inl (order j k less there)
          · exact absurd rfl different
          · exact Or.inr (order k j more here)

theorem VolumeImage.holds (made : VolumeImage stamp nblocks files root places used image)
    (same : SameButHeaders ⟨files, nblocks, used⟩ (Fs.placeOf root places) image map) :
    Holds ⟨files, nblocks, used⟩ (Fs.placeOf root places) map := by
  have blocks : loadLE map sNblocks 4 = nblocks := by
    rw [made.super same (by decide), made.blocks]
  obtain ⟨bytes, directory⟩ := made.directory
  constructor
  case few => exact made.few
  case blocks => exact blocks
  case super =>
    have few := made.few
    have below := made.usedBelow
    have front := made.front
    have top := made.top
    have range := directory.range
    have behind := directory.behindInode
    have inFront := directory.inFront
    have number := made.rootNumber
    rw [made.super same (by decide), diskblock2memaddr_eq_ok, blocks]
    simp only [mappedBitmap, blkSize] at *
    exact ⟨by omega, by omega, by simp only [Fs.placeOf]; omega⟩
  case space => exact made.statfs same
  case upper => exact fun node here => (made.bounds here).2
  case behind => exact fun node here => (made.bounds here).1
  case directory =>
    exact ⟨bytes, directory.congr (made.contents same
      (show Volume.Has ⟨files, nblocks, used⟩ .root from trivial))⟩
  case file =>
    intro k here
    obtain ⟨place, _, equal, laid, _, _⟩ := made.placeOf here
    have contents := made.contents same (show Volume.Has ⟨files, nblocks, used⟩ (.file k) from here)
    have found : files[k]? = some (files.get ⟨k, here⟩) := List.getElem?_eq_getElem here
    simp only [Volume.size, Volume.contents, found, Option.map_some, Option.getD_some]
    rw [equal] at contents ⊢
    exact laid.laid.congr contents
  case entries =>
    intro k file present
    have here : k < files.length := (List.getElem?_eq_some_iff.mp present).1
    obtain ⟨place, inPlaces, equal, _⟩ := made.placeOf here
    rw [equal]
    refine (made.entries k file place present inPlaces).copy ?_
    intro i inside
    rw [Nat.add_assoc, Nat.add_assoc (blkSize * root.start)]
    apply made.rootData same
    simp only [directorySize, direntSize]
    omega
  case rest =>
    intro x lower upper
    rw [show (Fs.placeOf root places .root) = root from rfl, made.rootData same upper]
    exact made.rest x lower upper
  case apart => exact fun node other here there => made.inodesApart here there

end Image

/-! ## Looking names up -/

section Names

theorem strcmpZero_self {s : Nat → UInt8} {name : Name}
    (letters : ∀ i ≤ name.length, s i = name.getD i 0) : strcmpZero s name = true := by
  induction name generalizing s with
  | nil =>
      have zero := letters 0 (Nat.le_refl _)
      simpa [strcmpZero] using zero
  | cons byte rest ih =>
      have head := letters 0 (Nat.zero_le _)
      have tail := @ih (fun i => s (i + 1)) fun i below => by
        simpa using letters (i + 1) (by simpa using below)
      simp only [List.getD_cons_zero] at head
      simp [strcmpZero, head, tail]

theorem EntryAt.nameOf {map : Memory} {table k inum : Nat} {name : Name}
    (entry : EntryAt map table k name inum) (string : (0 : UInt8) ∉ name) {bytes : Nat → UInt8}
    (same : ∀ i < 128, bytes (128 * k + i) = map (table + 128 * k + i)) :
    Fs.nameOf bytes k = name := by
  have fits := entry.fits
  apply (strcmpZero_eq string fits).mp
  apply strcmpZero_self
  intro i below
  rw [← entry.letters i below, Nat.mul_comm k, direntSize, Nat.add_assoc, Nat.add_assoc _ dName]
  apply same
  simp only [nameMax, dName] at *
  omega

theorem nameOf_free {bytes : Nat → UInt8} {k : Nat} (free : bytes (k * direntSize + dName) = 0) :
    nameOf bytes k = [] := by
  have zero : strcmpZero (fun i => bytes (k * direntSize + dName + i)) [] = true := by
    simpa [strcmpZero] using free
  exact (strcmpZero_eq (List.not_mem_nil) (by decide : ([] : Name).length < nameMax)).mp zero

/-- The first entry with a name, where the others behind the list are free. -/
theorem find_entry {α : Type} {names : List α} {total : Nat} {hit : Nat → Bool}
    {test : α → Bool} (room : names.length ≤ total)
    (front : ∀ k x, names[k]? = some x → hit k = test x)
    (behind : ∀ k, names.length ≤ k → k < total → hit k = false) :
    (List.range total).find? hit = names.findIdx? test := by
  cases found : names.findIdx? test with
  | none =>
      rw [List.find?_eq_none]
      intro k member
      have inside := List.mem_range.mp member
      by_cases listed : k < names.length
      · have missing := List.findIdx?_eq_none_iff.mp found _ (List.getElem_mem listed)
        rw [front k _ (List.getElem?_eq_getElem listed), missing]
        decide
      · rw [behind k (by omega) inside]
        decide
  | some k =>
      obtain ⟨listed, passes, before⟩ := List.findIdx?_eq_some_iff_getElem.mp found
      rw [List.find?_range_eq_some]
      refine ⟨?_, List.mem_range.mpr (by omega), ?_⟩
      · rw [front k _ (List.getElem?_eq_getElem listed)]
        exact passes
      · intro j less
        rw [front j _ (List.getElem?_eq_getElem (show j < names.length by omega))]
        simpa using before j less

end Names

def refuse {α : Type} : Except Errno α → Except Stop α
  | .ok value => .ok value
  | .error number => .error (.errno number)

section Paths

variable {stubs : Nat → InodeStubs} {volume : Volume} {place : Node → Place} {map : Memory}

theorem Holds.inside (holds : Holds volume place map) {node : Node} (here : volume.Has node) :
    Inside (place node) volume.nblocks map :=
  ⟨holds.blocks, holds.few, holds.upper node here⟩

theorem Holds.laid (holds : Holds volume place map) {node : Node} (here : volume.Has node) :
    ∃ bytes, Laid (place node) (volume.size node) bytes map := by
  cases node with
  | root => exact holds.directory
  | file k => exact ⟨_, holds.file k here⟩

theorem Holds.finds (holds : Holds volume place map) (documented : BlocksDocumented stubs)
    {node : Node} (here : volume.Has node) :
    FindsBlocks (stubs (place node).ino) (place node).ino map := by
  obtain ⟨bytes, laid⟩ := holds.laid here
  have few := holds.few
  exact documented _ _ (by rw [holds.blocks]; omega) (laid.index (holds.inside here))

theorem Holds.size_lt (holds : Holds volume place map) {node : Node} (here : volume.Has node) :
    volume.size node + blkSize ≤ 2 ^ 32 := by
  obtain ⟨bytes, laid⟩ := holds.laid here
  have whole := le_dataBlocks (volume.size node)
  have first := laid.behindInode
  have second := laid.inFront
  have third := laid.range
  have upper := holds.upper node here
  have few := holds.few
  rw [Nat.mul_add] at second
  simp only [blkSize] at *
  omega

theorem directorySize_whole (count : Nat) : directorySize count % blkSize = 0 ∧
    count ≤ directorySize count / blkSize * blkDirents := by
  simp only [directorySize, blkSize, blkDirents, direntSize]
  omega

theorem Holds.directory_byte (holds : Holds volume place map)
    (documented : BlocksDocumented stubs) {x : Nat} (inside : x < volume.size .root) :
    byteAt (stubs (place .root).ino) map x = map (blkSize * (place .root).start + x) := by
  have here : volume.Has .root := trivial
  obtain ⟨bytes, laid⟩ := holds.directory
  rw [laid.byteAt (holds.inside here) (holds.finds documented here) inside, laid.bytes x inside]

theorem Holds.entry_name (holds : Holds volume place map) (documented : BlocksDocumented stubs)
    (strings : ∀ file ∈ volume.files, (0 : UInt8) ∉ basename file.name) {k : Nat}
    {file : InputFile} (present : volume.files[k]? = some file) :
    nameOf (byteAt (stubs (place .root).ino) map) k = basename file.name := by
  have below := (List.getElem?_eq_some_iff.mp present).1
  have room := (directorySize_whole volume.files.length).2
  apply (holds.entries k file present).nameOf (strings file (List.mem_of_getElem? present))
  intro i small
  rw [holds.directory_byte documented, Nat.add_assoc]
  show _ < directorySize volume.files.length
  simp only [blkSize, blkDirents, direntSize] at room
  omega

theorem Holds.free_name (holds : Holds volume place map) (documented : BlocksDocumented stubs)
    {k : Nat} (behind : volume.files.length ≤ k)
    (inside : k < volume.size .root / blkSize * blkDirents) :
    nameOf (byteAt (stubs (place .root).ino) map) k = [] := by
  have small : k * direntSize + dName < volume.size .root := by
    simp only [blkSize, blkDirents, direntSize, dName] at *
    omega
  apply nameOf_free
  rw [holds.directory_byte documented small]
  apply holds.rest _ _ small
  simp only [direntSize]
  omega

theorem Holds.entry_number (holds : Holds volume place map) (documented : BlocksDocumented stubs)
    {k : Nat} {file : InputFile} (present : volume.files[k]? = some file) :
    entryInum (byteAt (stubs (place .root).ino) map) k = (place (.file k)).ino / blkSize := by
  have below := (List.getElem?_eq_some_iff.mp present).1
  rw [← (holds.entries k file present).number]
  apply loadLE_copy
  intro i small
  have inside : 128 * k + i < volume.size .root := by
    simp only [Volume.size, directorySize, direntSize]
    omega
  have byte := holds.directory_byte documented inside
  rw [← Nat.add_assoc] at byte
  simp only [dInum, direntSize, Nat.add_zero, Nat.mul_comm k]
  exact byte

theorem Holds.inode_address (holds : Holds volume place map) {k : Nat}
    (below : k < volume.files.length) :
    diskblock2memaddr map ((place (.file k)).ino / blkSize) = .ok (place (.file k)).ino := by
  have laid := holds.file k below
  have block := laid.block
  have room := laid.inode_below
  have upper := holds.upper (.file k) below
  have few := holds.few
  have behind := holds.behind (.file k) below
  rw [diskblock2memaddr_eq_ok, holds.blocks]
  simp only [blkSize] at *
  refine ⟨by omega, by omega, by omega⟩

theorem Holds.lookup (holds : Holds volume place map) (documented : BlocksDocumented stubs)
    (strings : ∀ file ∈ volume.files, (0 : UInt8) ∉ basename file.name) {name : Name}
    (fits : Element name) (short : name.length < nameMax) :
    ∃ result, dirLookup (stubs (place .root).ino) (place .root).ino map name = (result, map) ∧
      result = firstNamed (stubs (place .root).ino) (place .root).ino map name ∧
      result.map Prod.snd =
        (refuse (volume.step .root name)).map fun node => (place node).ino := by
  have here : volume.Has .root := trivial
  have finds := holds.finds documented here
  obtain ⟨bytes, laid⟩ := holds.directory
  obtain ⟨whole, room⟩ := directorySize_whole volume.files.length
  have size : iSizeOf (place .root).ino map = directorySize volume.files.length := laid.size
  have returns : Returns (stubs (place .root).ino) (place .root).ino (· = map) := by
    rintro map rfl n present
    obtain ⟨blk, found⟩ := Option.ne_none_iff_exists'.mp present
    refine ⟨map, ?_, SameFile.refl rfl⟩
    rw [dirBlock_eq found]
    exact finds.found found
  have allocated : Allocated (stubs (place .root).ino) (place .root).ino map := by
    intro n below
    rw [size] at below
    rw [laid.blockAt (holds.inside here) finds]
    · exact Option.some_ne_none _
    · show n < dataBlocks (directorySize volume.files.length)
      simp only [dataBlocks, blkSize] at below whole ⊢
      omega
  obtain ⟨after, same, found⟩ := returns.lookup rfl (size ▸ whole) allocated short
  have unchanged : after = map := same.valid
  rw [unchanged] at found
  refine ⟨_, found, rfl, ?_⟩
  have entry := @find_entry InputFile volume.files
    (iSizeOf (place .root).ino map / blkSize * blkDirents)
    (fun k => NameAt (byteAt (stubs (place .root).ino) map) k name)
    (fun file => decide (basename file.name = name)) (by rw [size]; exact room) (by
      intro k file present
      rw [Bool.eq_iff_iff, nameAt_iff fits.string short, decide_eq_true_iff,
        holds.entry_name documented strings present]) (by
      intro k behind inside
      rw [size] at inside
      rw [Bool.eq_false_iff, ne_eq, nameAt_iff fits.string short,
        holds.free_name documented behind inside]
      exact fun empty => fits.some empty.symm)
  rw [firstNamed, entriesOf, entry, Volume.step, if_neg (not_le.mpr short)]
  cases hit : volume.files.findIdx? fun file => decide (basename file.name = name) with
  | none => rfl
  | some k =>
      obtain ⟨listed, _⟩ := List.findIdx?_eq_some_iff_getElem.mp hit
      have present := List.getElem?_eq_getElem listed
      simp only [entryFound]
      rw [holds.entry_number documented present, holds.inode_address listed]
      rfl

def OneDirectory (volume : Volume) (place : Node → Place) (map : Memory) : Prop :=
  ∀ node, volume.Has node → (isDir map (place node).ino = true ↔ node = .root)

theorem Volume.step_has {node next : Node} {name : Name}
    (found : volume.step node name = .ok next) : volume.Has next := by
  rw [Volume.step.eq_def] at found
  split at found
  · cases found
  · cases node with
    | file k => cases found
    | root =>
        cases hit : volume.files.findIdx? fun file => decide (basename file.name = name) with
        | none => rw [hit] at found; cases found
        | some k =>
            rw [hit] at found
            cases found
            exact (List.findIdx?_eq_some_iff_getElem.mp hit).1

theorem Volume.foldlM_has {node last : Node} {names : List Name} (here : volume.Has node)
    (found : names.foldlM volume.step node = .ok last) : volume.Has last := by
  induction names generalizing node with
  | nil =>
      cases found
      exact here
  | cons name rest ih =>
      obtain ⟨next, stepped, others⟩ := bind_eq_ok.mp found
      exact ih (Volume.step_has stepped) others

theorem Volume.find_has {path : List UInt8} {node : Node} (found : volume.find path = .ok node) :
    volume.Has node := by
  rw [Volume.find] at found
  split at found
  · cases found
  · exact Volume.foldlM_has (show volume.Has .root from trivial) found

theorem Holds.resolveStep (holds : Holds volume place map) (documented : BlocksDocumented stubs)
    (strings : ∀ file ∈ volume.files, (0 : UInt8) ∉ basename file.name)
    (kinds : OneDirectory volume place map) {node : Node} {cur : Cursor} {name : Name}
    (here : volume.Has node) (at_node : cur.ino = (place node).ino) (fits : Element name) :
    (Fs.resolveStep stubs map cur name).map Cursor.ino =
      (refuse (volume.step node name)).map fun node => (place node).ino := by
  rw [Fs.resolveStep]
  by_cases long : nameMax ≤ name.length
  · rw [if_pos long, Volume.step.eq_def, if_pos long]
    rfl
  · rw [if_neg long, at_node]
    cases node with
    | root =>
        rw [if_neg (not_not.mpr ((kinds .root here).mpr rfl))]
        obtain ⟨result, looked, _, found⟩ :=
          holds.lookup documented strings fits (not_le.mp long)
        rw [looked, ← found]
        cases result <;> rfl
    | file k =>
        have plain : ¬ isDir map (place (.file k)).ino = true := by
          rw [kinds (.file k) here]
          exact fun equal => by cases equal
        rw [if_pos plain, Volume.step, if_neg long]
        rfl

theorem Holds.resolve (holds : Holds volume place map) (documented : BlocksDocumented stubs)
    (strings : ∀ file ∈ volume.files, (0 : UInt8) ∉ basename file.name)
    (kinds : OneDirectory volume place map) {names : List Name} {node : Node} {cur : Cursor}
    (here : volume.Has node) (at_node : cur.ino = (place node).ino)
    (fits : ∀ name ∈ names, Element name) :
    (names.foldlM (Fs.resolveStep stubs map) cur).map Cursor.ino =
      (refuse (names.foldlM volume.step node)).map fun node => (place node).ino := by
  induction names generalizing node cur with
  | nil => exact congrArg Except.ok at_node
  | cons name rest ih =>
      have step := holds.resolveStep documented strings kinds here at_node
        (fits name List.mem_cons_self)
      rw [List.foldlM_cons, List.foldlM_cons]
      cases moved : volume.step node name with
      | error number =>
          rw [moved] at step
          cases other : Fs.resolveStep stubs map cur name with
          | error stopped =>
              rw [other] at step
              exact step
          | ok next =>
              rw [other] at step
              cases step
      | ok next =>
          rw [moved] at step
          cases other : Fs.resolveStep stubs map cur name with
          | error stopped =>
              rw [other] at step
              cases step
          | ok there =>
              rw [other] at step
              exact ih (Volume.step_has moved) (Except.ok.inj step)
                (fun later member => fits later (List.mem_cons_of_mem _ member))

theorem Holds.opens (holds : Holds volume place map) (documented : BlocksDocumented stubs)
    (strings : ∀ file ∈ volume.files, (0 : UInt8) ∉ basename file.name)
    (kinds : OneDirectory volume place map) {path : List UInt8} (string : (0 : UInt8) ∉ path) :
    inodeOpen stubs map path =
      ((refuse (volume.find path)).map fun node => some (place node).ino, map) := by
  have here : volume.Has .root := trivial
  rw [inodeOpen, Volume.find]
  by_cases long : pathMax ≤ path.length
  · rw [if_pos long, walkPath, if_pos long]
    rfl
  · have known : Walkable stubs map (fun ino => ∃ node, volume.Has node ∧ ino = (place node).ino)
        Element := by
      constructor
      · rintro _ name ⟨node, has, rfl⟩ directory short fits
        obtain rfl := (kinds node has).mp directory
        obtain ⟨result, looked, first, _⟩ := holds.lookup documented strings fits short
        exact Or.inr (by rw [looked, first])
      · rintro _ d ino name ⟨node, has, rfl⟩ directory short fits found
        obtain rfl := (kinds node has).mp directory
        obtain ⟨result, looked, _, shown⟩ := holds.lookup documented strings fits short
        rw [looked] at found
        simp only at found
        rw [found] at shown
        cases stepped : volume.step .root name with
        | error number =>
            rw [stepped] at shown
            cases shown
        | ok next =>
            rw [stepped] at shown
            exact ⟨next, Volume.step_has stepped, Except.ok.inj shown⟩
    have elements := segments_element string
    rw [if_neg long, known.walkPath ⟨.root, here, rfl⟩ holds.super (not_le.mp long) elements _ rfl]
    have resolved := @Holds.resolve stubs volume place map holds documented strings kinds
      (segments path) .root ⟨none, (place .root).ino, none⟩ here rfl elements
    simp only [walkSegments_result]
    cases last : (segments path).foldlM (Fs.resolveStep stubs map)
        ⟨none, (place .root).ino, none⟩ with
    | error stopped =>
        rw [last] at resolved
        cases found : (segments path).foldlM volume.step .root with
        | error number =>
            rw [found] at resolved
            cases resolved
            rfl
        | ok node =>
            rw [found] at resolved
            cases resolved
    | ok cur =>
        rw [last] at resolved
        rw [walkSegments_found last]
        cases found : (segments path).foldlM volume.step .root with
        | error number =>
            rw [found] at resolved
            cases resolved
        | ok node =>
            rw [found] at resolved
            have same : cur.ino = (place node).ino := Except.ok.inj resolved
            rw [same]
            rfl

end Paths

/-! ## Listing the names -/

section Listings

theorem acceptNames_map {α β : Type} (accept : Nat → Bool) (names : List α) (passed : Nat)
    (f : α → β) : acceptNames accept (names.map f) passed =
      ((acceptNames accept names passed).1.map f, (acceptNames accept names passed).2) := by
  induction names generalizing passed with
  | nil => rfl
  | cons name rest ih =>
      rw [List.map_cons, acceptNames, acceptNames]
      split
      · rw [ih]
        rfl
      · rfl

theorem WalkDocumented.readdirLoop_eq {stubs : InodeStubs} {dir : Nat} {map : Memory}
    {valid : Memory → Prop} (walk : WalkDocumented stubs valid) (mapValid : valid map)
    {entries k fuel passed : Nat} {accept : Nat → Bool} {dent : List UInt8}
    (size : iSizeOf dir map = entries * direntSize) (start : k ≤ entries)
    (enough : entries - k < fuel) :
    Fs.readdirLoop stubs dir map accept fuel dent (k * direntSize) passed =
      .ok ⟨(acceptNames accept (listedFrom (byteAt stubs map) entries k) passed).1,
        (acceptNames accept (listedFrom (byteAt stubs map) entries k) passed).2⟩ := by
  induction fuel generalizing k passed dent with
  | zero => omega
  | succ fuel ih =>
      rw [Fs.readdirLoop]
      by_cases inside : k < entries
      · rw [walk.entry mapValid size inside, listedFrom_step inside]
        obtain ⟨bytes, bytesEq⟩ : ∃ bytes,
            (List.range' (k * direntSize) direntSize).map (byteAt stubs map) = bytes := ⟨_, rfl⟩
        have length : bytes.length = direntSize := by
          rw [← bytesEq, List.length_map, List.length_range']
        have some : bytes ≠ [] := by
          rintro rfl
          cases length
        obtain ⟨first, name⟩ := dent_fields (byteAt stubs map) k (dent.drop bytes.length)
        have after : k * direntSize + bytes.length = (k + 1) * direntSize := by
          rw [length, Nat.succ_mul]
        rw [bytesEq] at first name ⊢
        simp only [if_neg some, first, name, after]
        by_cases free : byteAt stubs map (k * direntSize + dName) = 0
        · have unused : ¬ entryUsed (byteAt stubs map) k = true := by simp [entryUsed, free]
          rw [if_pos free, if_neg unused]
          exact ih (by omega) (by omega)
        · have used : entryUsed (byteAt stubs map) k = true := by simp [entryUsed, free]
          rw [if_neg free, if_pos used, acceptNames]
          by_cases accepted : accept passed = true
          · rw [if_pos accepted, if_pos accepted, ih (by omega) (by omega)]
            rfl
          · rw [if_neg accepted, if_neg accepted]
      · obtain rfl : k = entries := by omega
        rw [walk.atEnd mapValid size, listedFrom_end (Nat.le_refl _)]
        rfl

variable {stubs : Nat → InodeStubs} {volume : Volume} {place : Node → Place} {map : Memory}

theorem entryUsed_iff {bytes : Nat → UInt8} {k : Nat} :
    entryUsed bytes k = true ↔ nameOf bytes k ≠ [] := by
  have zero := @strcmpZero_eq (fun i => bytes (k * direntSize + dName + i)) [] (by simp)
    nameMax (by decide)
  simp only [strcmpZero, Nat.add_zero, beq_iff_eq] at zero
  rw [ne_eq, nameOf, entryName, ← zero, entryUsed, bne_iff_ne]

theorem Holds.listed (holds : Holds volume place map) (documented : BlocksDocumented stubs)
    (strings : ∀ file ∈ volume.files, (0 : UInt8) ∉ basename file.name) (k : Nat) :
    (listedFrom (byteAt (stubs (place .root).ino) map)
        (volume.size .root / blkSize * blkDirents) k).map
        (fun entry => (entry.1.takeWhile (· ≠ 0), entry.2)) = volume.namesFrom k := by
  obtain ⟨_, room⟩ := directorySize_whole volume.files.length
  obtain ⟨bytes, bytesDef⟩ : ∃ bytes, byteAt (stubs (place .root).ino) map = bytes := ⟨_, rfl⟩
  obtain ⟨entries, entriesDef⟩ :
      ∃ entries, volume.size .root / blkSize * blkDirents = entries := ⟨_, rfl⟩
  have front : ∀ j < volume.files.length,
      nameOf bytes j = (volume.files[j]?.map fun file => basename file.name).getD [] := by
    intro j inside
    have present := List.getElem?_eq_getElem inside
    rw [← bytesDef, holds.entry_name documented strings present, present]
    rfl
  have behind : ∀ j, volume.files.length ≤ j → j < entries → nameOf bytes j = [] := by
    intro j lower upper
    rw [← bytesDef]
    exact holds.free_name documented lower (by rw [entriesDef]; exact upper)
  have some : volume.files.length ≤ entries := by
    rw [← entriesDef]
    exact room
  rw [bytesDef, entriesDef, listedFrom, List.map_map, Volume.namesFrom, List.filter_map]
  have split : List.range' k (entries - k) = List.range' k (volume.files.length - k) ++
      List.range' (k + (volume.files.length - k)) (entries - k - (volume.files.length - k)) := by
    rw [List.range'_append_1]
    congr 1
    omega
  have none : (List.range' (k + (volume.files.length - k))
      (entries - k - (volume.files.length - k))).filter (entryUsed bytes) = [] := by
    rw [List.filter_eq_nil_iff]
    intro j member
    have range := List.mem_range'_1.mp member
    rw [entryUsed_iff, behind j (by omega) (by omega)]
    exact fun wrong => wrong rfl
  rw [split, List.filter_append, none, List.append_nil]
  have same : ∀ j ∈ List.range' k (volume.files.length - k),
      nameOf bytes j = (volume.files[j]?.map fun file => basename file.name).getD [] := by
    intro j member
    have range := List.mem_range'_1.mp member
    exact front j (by omega)
  have tests : (List.range' k (volume.files.length - k)).filter (entryUsed bytes) =
      (List.range' k (volume.files.length - k)).filter ((fun entry => decide (entry.1 ≠ [])) ∘
        fun entry => ((volume.files[entry]?.map fun file => basename file.name).getD [],
          (entry + 1) * direntSize)) := by
    apply List.filter_congr
    intro j member
    rw [Bool.eq_iff_iff, entryUsed_iff, same j member]
    simp
  rw [tests]
  apply List.map_congr_left
  intro j member
  simp only [Function.comp, ← same j (List.mem_of_mem_filter member)]
  rfl

end Listings

/-! ## Changing a header -/

inductive Field where
  | mode | uid | gid | atime | ctime | mtime
  deriving DecidableEq, Repr

def Field.offset : Field → Nat
  | .mode => iMode
  | .uid => iOwner
  | .gid => iGroup
  | .atime => iAtime
  | .ctime => iCtime
  | .mtime => iMtime

def Field.width : Field → Nat
  | .mode | .uid | .gid => 4
  | .atime | .ctime | .mtime => 8

def Header.put (header : Header) (value : Nat) : Field → Header
  | .mode => { header with mode := value % 2 ^ 32 }
  | .uid => { header with uid := value % 2 ^ 32 }
  | .gid => { header with gid := value % 2 ^ 32 }
  | .atime => { header with atime := value % 2 ^ 64 }
  | .ctime => { header with ctime := value % 2 ^ 64 }
  | .mtime => { header with mtime := value % 2 ^ 64 }

theorem Field.inside (field : Field) : field.offset + field.width ≤ iSize := by
  cases field <;> decide

theorem headerOf_put {map : Memory} {ino value : Nat} (field : Field) :
    headerOf ino (storeLE map (ino + field.offset) field.width value) =
      (headerOf ino map).put value field := by
  cases field <;>
    simp (disch := omega) only [headerOf, Header.put, Field.offset, Field.width, iMode, iNlink,
      iOwner, iGroup, iRdev, iAtime, iCtime, iMtime, loadLE_storeLE, loadLE_storeLE_apart,
      Nat.reducePow]

/-- The driver shows the state of the volume over the image. -/
structure Shows (volume : Volume) (place : Node → Place) (image : Memory) (state : VolumeState)
    (driver : Driver) : Prop where
  same : SameButHeaders volume place image driver.map
  headers : ∀ node, volume.Has node → headerOf (place node).ino driver.map = state.header node
  kinds : ∀ node, volume.Has node →
    ((state.header node).mode &&& 0o170000 = 0o040000 ↔ node = .root)
  handles : driver.handles = state.handles.map fun node => (place node).ino
  known : ∀ node ∈ state.handles, volume.Has node

section Shows

variable {stubs : Nat → InodeStubs} {volume : Volume} {place : Node → Place} {image : Memory}
  {state : VolumeState} {driver : Driver}

theorem VolumeState.set_set (state : VolumeState) (node : Node) (first second : Header) :
    (state.set node first).set node second = state.set node second := by
  simp only [VolumeState.set, Function.update_idem]

theorem VolumeState.set_header (state : VolumeState) (node : Node) (header : Header) :
    (state.set node header).header node = header := by
  simp only [VolumeState.set, Function.update_self]

theorem Shows.oneDirectory (shown : Shows volume place image state driver) :
    OneDirectory volume place driver.map := by
  intro node here
  have mode : loadLE driver.map ((place node).ino + iMode) 4 = (state.header node).mode :=
    congrArg Header.mode (shown.headers node here)
  rw [isDir, mode, beq_iff_eq]
  exact shown.kinds node here

theorem Shows.put (holds : Holds volume place driver.map)
    (shown : Shows volume place image state driver) {node : Node} (here : volume.Has node)
    {value : Nat} (field : Field)
    (kind : field = .mode → (value % 2 ^ 32 &&& 0o170000 = 0o040000 ↔ node = .root)) :
    Shows volume place image (state.set node ((state.header node).put value field))
      { driver with
        map := storeLE driver.map ((place node).ino + field.offset) field.width value } := by
  have size := field.inside
  have block : iSize ≤ blkSize := by decide
  refine ⟨?_, ?_, ?_, shown.handles, shown.known⟩
  · intro x outside
    have own := outside node here
    exact (storeLE_outside (by omega)).trans (shown.same x outside)
  · intro other there
    by_cases equal : other = node
    · subst equal
      rw [VolumeState.set_header, ← shown.headers other here, headerOf_put]
    · rw [show (state.set node ((state.header node).put value field)).header other =
        state.header other from Function.update_of_ne equal _ _, ← shown.headers other there]
      have apart := holds.apart other node there here equal
      apply headerOf_congr
      exact storeLE_frame _ _ _ _ _ _ (by omega)
  · intro other there
    by_cases equal : other = node
    · subst equal
      rw [VolumeState.set_header]
      have before := shown.kinds other here
      cases field with
      | mode => exact kind rfl
      | _ => exact before
    · rw [show (state.set node ((state.header node).put value field)).header other =
        state.header other from Function.update_of_ne equal _ _]
      exact shown.kinds other there

theorem Shows.puts (holds : ∀ map, SameButHeaders volume place image map → Holds volume place map)
    (shown : Shows volume place image state driver) {node : Node} (here : volume.Has node)
    (fields : List (Field × Nat))
    (kind : ∀ value, (Field.mode, value) ∈ fields →
      (value % 2 ^ 32 &&& 0o170000 = 0o040000 ↔ node = .root)) :
    Shows volume place image
      (state.set node (fields.foldl (fun header field => header.put field.2 field.1)
        (state.header node)))
      { driver with
        map := fields.foldl (fun map field =>
          storeLE map ((place node).ino + field.1.offset) field.1.width field.2) driver.map } := by
  induction fields generalizing state driver with
  | nil =>
      have unchanged : state.set node (state.header node) = state := by
        simp only [VolumeState.set, Function.update_eq_self]
      rw [List.foldl_nil, List.foldl_nil, unchanged]
      exact shown
  | cons field rest ih =>
      have first : Shows volume place image
          (state.set node ((state.header node).put field.2 field.1))
          { driver with
            map := storeLE driver.map ((place node).ino + field.1.offset) field.1.width field.2 } := by
        apply shown.put (holds _ shown.same) here field.1
        intro mode
        apply kind
        rw [← mode]
        exact List.mem_cons_self
      have others := ih first fun value member => kind value (List.mem_cons_of_mem _ member)
      rw [VolumeState.set_header, VolumeState.set_set] at others
      exact others

end Shows

/-! ## Serving requests -/

structure Served (stubs : Nat → InodeStubs) (volume : Volume) (place : Node → Place)
    (image : Memory) : Prop where
  documented : BlocksDocumented stubs
  strings : ∀ file ∈ volume.files, (0 : UInt8) ∉ basename file.name
  holds : ∀ map, SameButHeaders volume place image map → Holds volume place map

section Serve

variable {stubs : Nat → InodeStubs} {volume : Volume} {place : Node → Place} {image : Memory}
  {state : VolumeState} {driver : Driver} {time : Nat}

/-- An answer and the state behind it are those of the volume. -/
def Agrees (volume : Volume) (place : Node → Place) (image : Memory)
    (expected : Answer × VolumeState) (result : Except Stop (Answer × Driver)) : Prop :=
  ∃ driver, result = .ok (expected.1, driver) ∧ Shows volume place image expected.2 driver

theorem Served.onPath {α : Type} (served : Served stubs volume place image)
    (shown : Shows volume place image state driver) {path : List UInt8}
    (string : (0 : UInt8) ∉ path) {done : α → Answer}
    {body : Nat → Memory → Except Failure α × Memory} {said : Node → Answer × VolumeState}
    (each : ∀ node, volume.find path = .ok node → Agrees volume place image (said node)
      (reply driver.handles done (body (place node).ino driver.map))) :
    Agrees volume place image (volume.onPath state path said)
      (reply driver.handles done (withInode stubs driver.map path body)) := by
  have opened := (served.holds _ shown.same).opens served.documented served.strings
    shown.oneDirectory string
  rw [Volume.onPath, withInode, opened]
  cases found : volume.find path with
  | error number => exact ⟨driver, rfl, shown⟩
  | ok node => exact each node found

theorem Shows.onHandle (shown : Shows volume place image state driver) {handle : Nat}
    {body : Nat → Except Stop (Answer × Driver)} {said : Node → Answer × VolumeState}
    (each : ∀ node, state.handles[handle]? = some node → volume.Has node →
      Agrees volume place image (said node) (body (place node).ino)) :
    Agrees volume place image (state.onHandle handle said) (driver.withHandle handle body) := by
  have same : driver.handles[handle]? =
      state.handles[handle]?.map fun node => (place node).ino := by
    rw [shown.handles, List.getElem?_map]
  rw [VolumeState.onHandle, Driver.withHandle, same]
  cases found : state.handles[handle]? with
  | none => exact ⟨driver, rfl, shown⟩
  | some node => exact each node found (shown.known node (List.mem_of_getElem? found))

theorem Served.stat (served : Served stubs volume place image)
    (shown : Shows volume place image state driver) {node : Node} (here : volume.Has node) :
    inodeStat (stubs (place node).ino) (place node).ino driver.map = volume.stat state node := by
  have holds := served.holds _ shown.same
  obtain ⟨bytes, laid⟩ := holds.laid here
  rw [laid.stat (holds.finds served.documented here) (holds.size_lt here),
    shown.headers node here]
  rfl

theorem map_getD_range' {l : List UInt8} (count offset : Nat) :
    (List.range' offset (min count (l.length - offset))).map (fun i => l.getD i 0) =
      (l.drop offset).take count := by
  apply List.ext_getElem
  · simp
  · intro i first second
    simp only [List.length_map, List.length_range'] at first
    simp only [List.getElem_map, List.getElem_range', Nat.one_mul, List.getElem_take,
      List.getElem_drop, List.getD_eq_getElem?_getD]
    rw [List.getElem?_eq_getElem (by omega), Option.getD_some]

theorem Served.read (served : Served stubs volume place image)
    (shown : Shows volume place image state driver) {node : Node} (here : volume.Has node)
    (plain : node ≠ .root) (count : Nat) {offset : Nat} (near : offset < 2 ^ 32) :
    ∃ after, fsRead (stubs (place node).ino) (place node).ino time driver.map count offset =
        (.ok (((volume.contents node).drop offset).take count), after) ∧
      Shows volume place image
        (state.set node { state.header node with atime := time % 2 ^ 64 })
        ⟨after, driver.handles⟩ := by
  have next : Shows volume place image
      (state.set node { state.header node with atime := time % 2 ^ 64 })
      ⟨storeLE driver.map ((place node).ino + iAtime) 8 time, driver.handles⟩ :=
    shown.puts served.holds here [(.atime, time)] (by simp)
  have holds := served.holds _ next.same
  refine ⟨_, ?_, next⟩
  cases node with
  | root => exact absurd rfl plain
  | file k =>
      have read := (holds.file k here).read (holds.inside here)
        (holds.finds served.documented here) count offset
      simp only [Volume.size] at read
      rw [map_getD_range'] at read
      rw [fsRead, Nat.mod_eq_of_lt near, read]

theorem Served.readdir (served : Served stubs volume place image)
    (shown : Shows volume place image state driver) {k : Nat}
    (inside : k * direntSize ≤ volume.size .root) (accept : Nat → Bool) (dent : List UInt8) :
    ∃ listing after,
      fsReaddir (stubs (place .root).ino) (place .root).ino (iSizeOf (place .root).ino driver.map + 1)
        driver.map time accept dent (k * direntSize) = .ok (listing, after) ∧
      (listing.names, listing.refused) = acceptNames accept (volume.namesFrom k) 0 ∧
      Shows volume place image
        (if listing.refused then state
          else state.set .root { state.header .root with atime := time % 2 ^ 64 })
        ⟨after, driver.handles⟩ := by
  have here : volume.Has .root := trivial
  have holds := served.holds _ shown.same
  have finds := holds.finds served.documented here
  obtain ⟨bytes, laid⟩ := holds.directory
  obtain ⟨whole, _⟩ := directorySize_whole volume.files.length
  have total : volume.size .root / blkSize * blkDirents * direntSize = volume.size .root := by
    simp only [Volume.size, blkSize, blkDirents, direntSize] at whole ⊢
    omega
  have size : iSizeOf (place .root).ino driver.map =
      volume.size .root / blkSize * blkDirents * direntSize := by
    rw [total]
    exact laid.size
  have ran := @WalkDocumented.readdirLoop_eq _ _ _ _ (laid.walk (holds.inside here) finds) rfl
    _ k (iSizeOf (place .root).ino driver.map + 1) 0 accept dent size
    (show k ≤ volume.size .root / blkSize * blkDirents by
      simp only [direntSize] at inside total
      omega) (by
      rw [size]
      simp only [direntSize]
      omega)
  have names := acceptNames_map accept
    (listedFrom (byteAt (stubs (place .root).ino) driver.map)
      (volume.size .root / blkSize * blkDirents) k) 0
    (fun entry => (entry.1.takeWhile (· ≠ 0), entry.2))
  rw [holds.listed served.documented served.strings] at names
  rw [fsReaddir, ran, ok_bind]
  refine ⟨_, _, rfl, names.symm, ?_⟩
  simp only
  split
  · exact shown
  · exact shown.puts served.holds here [(.atime, time)] (by simp)

theorem Served.change (served : Served stubs volume place image)
    (shown : Shows volume place image state driver) {node : Node} (here : volume.Has node)
    (fields : List (Field × Nat)) (stores : Memory → Memory) {header : Header}
    (kind : ∀ value, (Field.mode, value) ∈ fields → node ≠ .root →
      (value % 2 ^ 32 &&& 0o170000 = 0o040000 ↔ node = .root))
    (headerEq : fields.foldl (fun header field => header.put field.2 field.1) (state.header node) =
      { header with ctime := time % 2 ^ 64 })
    (storesEq : fields.foldl (fun map field =>
      storeLE map ((place node).ino + field.1.offset) field.1.width field.2) driver.map =
        stores driver.map) :
    Agrees volume place image (state.change node header time)
      (reply driver.handles (fun _ => .done) (unlessRoot driver.map (place node).ino fun map =>
        ((.ok (), stores map) : Except Failure Unit × Memory))) := by
  have holds := served.holds _ shown.same
  rw [unlessRoot, holds.super, VolumeState.change]
  by_cases root : node = .root
  · subst root
    simp only [if_true]
    exact ⟨driver, rfl, shown⟩
  · have apart := holds.apart node .root here trivial root
    have different : (place node).ino ≠ (place .root).ino := by
      simp only [blkSize] at apart
      omega
    simp only [if_neg root, if_neg different]
    have next := shown.puts served.holds here fields fun value member => kind value member root
    rw [headerEq, storesEq] at next
    exact ⟨_, rfl, next⟩

theorem Served.serve_opens (served : Served stubs volume place image)
    (shown : Shows volume place image state driver) {path : List UInt8}
    (string : (0 : UInt8) ∉ path) :
    Agrees volume place image (volume.answer time state (.opens path))
      (driver.serve stubs time (.opens path)) := by
  have opened := (served.holds _ shown.same).opens served.documented served.strings
    shown.oneDirectory string
  simp only [Volume.answer, Volume.onPath, Driver.serve, fsOpen, withInode, opened]
  cases found : volume.find path with
  | error number => exact ⟨driver, rfl, shown⟩
  | ok node =>
      refine ⟨_, rfl, shown.same, shown.headers, shown.kinds, ?_, ?_⟩
      · simp only [shown.handles, List.map_append, List.map_cons, List.map_nil]
      · intro other member
        rcases List.mem_append.mp member with old | new
        · exact shown.known other old
        · rw [List.mem_singleton.mp new]
          exact Volume.find_has found

theorem Served.serve_readdir (served : Served stubs volume place image)
    (shown : Shows volume place image state driver) {handle k : Nat}
    (directory : ∀ node, state.handles[handle]? = some node → node = .root)
    (inside : k * direntSize ≤ volume.size .root) (dent : List UInt8) (accept : Nat → Bool) :
    Agrees volume place image
      (volume.answer time state (.readdir handle (k * direntSize) dent accept))
      (driver.serve stubs time (.readdir handle (k * direntSize) dent accept)) := by
  have entry : k * direntSize / direntSize = k := by
    simp only [direntSize]
    omega
  simp only [Volume.answer, entry]
  apply shown.onHandle
  intro node found here
  rw [directory node found]
  obtain ⟨listing, after, ran, names, next⟩ := served.readdir shown inside accept dent
  rw [← names]
  refine ⟨_, ?_, next⟩
  rw [ran]
  rfl

theorem Served.serve_fsync (served : Served stubs volume place image)
    (shown : Shows volume place image state driver) (handle : Nat) :
    Agrees volume place image (volume.answer time state (.fsync handle))
      (driver.serve stubs time (.fsync handle)) := by
  apply shown.onHandle
  intro node _ here
  have holds := served.holds _ shown.same
  obtain ⟨bytes, laid⟩ := holds.laid here
  obtain ⟨blocks, flushed⟩ := laid.flush (holds.inside here)
    (holds.finds served.documented here)
  refine ⟨driver, ?_, shown⟩
  rw [fsFsync, flushed]
  rfl

theorem Served.serve_chmod (served : Served stubs volume place image)
    (shown : Shows volume place image state driver) {path : List UInt8} {mode : Nat}
    (string : (0 : UInt8) ∉ path)
    (kept : ∀ k, volume.find path = .ok (.file k) →
      mode % 2 ^ 32 &&& 0o170000 ≠ 0o040000) :
    Agrees volume place image (volume.answer time state (.chmod path mode))
      (driver.serve stubs time (.chmod path mode)) := by
  apply served.onPath shown string
  intro node found
  have here := Volume.find_has found
  refine served.change shown here [(.mode, mode), (.ctime, time)]
    (fun map => storeLE (storeLE map ((place node).ino + iMode) 4 mode)
      ((place node).ino + iCtime) 8 time) ?_ rfl rfl
  intro value member plain
  have same : value = mode := by simpa using member
  rw [same]
  cases node with
  | root => exact absurd rfl plain
  | file k =>
      exact ⟨fun directory => absurd directory (kept k found), fun equal => by cases equal⟩

theorem Served.serve_chown (served : Served stubs volume place image)
    (shown : Shows volume place image state driver) {path : List UInt8} (uid gid : Nat)
    (string : (0 : UInt8) ∉ path) :
    Agrees volume place image (volume.answer time state (.chown path uid gid))
      (driver.serve stubs time (.chown path uid gid)) := by
  apply served.onPath shown string
  intro node found
  have here := Volume.find_has found
  refine served.change shown here
    ((if uid ≠ keepId then [(.uid, uid)] else []) ++
      (if gid ≠ keepId then [(.gid, gid)] else []) ++ [(.ctime, time)]) _ ?_ ?_ ?_
  · intro value member
    split at member <;> split at member <;> simp at member
  · split <;> split <;> rfl
  · split <;> split <;> rfl

theorem Served.serve (served : Served stubs volume place image)
    (shown : Shows volume place image state driver) {request : Request}
    (sends : volume.Sends state request) :
    Agrees volume place image (volume.answer time state request)
      (driver.serve stubs time request) := by
  cases request with
  | getattr path =>
      apply served.onPath shown sends
      intro node found
      have here := Volume.find_has found
      refine ⟨driver, ?_, shown⟩
      simp only [reply, served.stat shown here]
  | fgetattr handle =>
      apply shown.onHandle
      intro node _ here
      refine ⟨driver, ?_, shown⟩
      simp only [fsFgetattr, served.stat shown here]
  | opens path => exact served.serve_opens shown sends
  | read handle count offset =>
      apply shown.onHandle
      intro node found here
      obtain ⟨near, plain⟩ := sends
      obtain ⟨after, read, next⟩ := served.read shown here (plain node found) count near
      refine ⟨_, ?_, next⟩
      rw [read]
  | readdir handle offset dent accept =>
      obtain ⟨directory, k, inside, rfl⟩ := sends
      exact served.serve_readdir shown directory inside dent accept
  | statfs =>
      refine ⟨driver, ?_, shown⟩
      rw [Driver.serve, (served.holds _ shown.same).space]
      rfl
  | fsync handle => exact served.serve_fsync shown handle
  | utimens path atime mtime =>
      apply served.onPath shown sends
      intro node found
      exact ⟨_, rfl, shown.puts served.holds (Volume.find_has found)
        [(.atime, atime), (.mtime, mtime), (.ctime, time)] (by simp)⟩
  | chmod path mode => exact served.serve_chmod shown sends.1 sends.2
  | chown path uid gid => exact served.serve_chown shown uid gid sends

theorem Served.serveAll (served : Served stubs volume place image)
    {requests : List (Nat × Request)} (shown : Shows volume place image state driver)
    (sends : volume.SendsAll requests state) :
    Driver.serveAll stubs requests driver = .ok (volume.answers requests state) := by
  induction requests generalizing state driver with
  | nil => rfl
  | cons first rest ih =>
      obtain ⟨time, request⟩ := first
      obtain ⟨here, later⟩ := sends
      obtain ⟨next, served, shows⟩ := served.serve shown here
      rw [Driver.serveAll, served, ok_bind]
      simp only [ih shows later, ok_bind]
      rfl

end Serve

/-! ## From fsformat on -/

def Volume.formatted (stamp : Stamp) : VolumeState where
  header
    | .root => stamp.header (sIfdir ||| 0o777)
    | .file _ => stamp.header (sIfreg ||| 0o600)
  handles := []

section Formatted

variable {stubs : Nat → InodeStubs} {heap : Heap} {stamp : Stamp} {nblocks used : Nat}
  {files : List InputFile} {root : Place} {places : List Place} {image : Memory} {disk : Disk}

theorem VolumeImage.shows (made : VolumeImage stamp nblocks files root places used image) :
    Shows ⟨files, nblocks, used⟩ (Fs.placeOf root places) image (Volume.formatted stamp)
      ⟨image, []⟩ := by
  refine ⟨fun _ _ => rfl, ?_, ?_, rfl, ?_⟩
  · intro node here
    cases node with
    | root => exact made.rootHeader
    | file k =>
        obtain ⟨place, _, equal, laid, _⟩ := made.placeOf here
        rw [equal]
        exact laid.header
  · intro node here
    cases node with
    | root =>
        have directory : (sIfdir ||| 0o777) &&& 0o170000 = 0o040000 := by decide
        exact ⟨fun _ => rfl, fun _ => directory⟩
    | file k =>
        have regular : (sIfreg ||| 0o600) &&& 0o170000 ≠ 0o040000 := by decide
        exact ⟨fun directory => absurd directory regular, fun equal => by cases equal⟩
  · intro node none
    cases none

end Formatted

/-! ## The missing functions as their comments have them -/

def letter : InputFile := ⟨[97], true, [10, 20, 30]⟩

end OsLabs.Fs
