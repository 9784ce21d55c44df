import OsLabs.Fs.DirectoryEntry
import OsLabs.Fs.DiskMap
import OsLabs.Fs.InodeBlocks
import OsLabs.Fs.SoundTree

/-!
# The tree that an image shows

The tree stands in the bytes of the directories and the headers of the inodes.  When
`dir_alloc_dirent` has failed on a full disk, the last block of a directory is missing, and
lookups try to allocate it; so lookups may change the image, but not what it shows.
-/

set_option autoImplicit false

namespace OsLabs.Fs

open OsLabs.ByteMemory

/-! ## Entries -/

/-- The bytes of a directory hold these entries: their names end, differ and are elements of
paths, and their numbers are addresses of inodes. -/
structure Lists (address : Nat → Option Nat) (bytes : Nat → UInt8) (slot : Name → Option Nat) :
    Prop where
  terminated : ∀ k, (0 : UInt8) ∈ entryName bytes k
  distinct : ∀ j k, nameOf bytes j ≠ [] → nameOf bytes j = nameOf bytes k → j = k
  single : ∀ k, slash ∉ nameOf bytes k
  leads : ∀ k, nameOf bytes k ≠ [] → address (entryInum bytes k) ≠ none
  slots : ∀ name ino, slot name = some ino ↔
    name ≠ [] ∧ ∃ k, nameOf bytes k = name ∧ address (entryInum bytes k) = some ino

theorem nameOf_nil {bytes : Nat → UInt8} {k : Nat} :
    nameOf bytes k = [] ↔ bytes (k * direntSize + dName) = 0 := by
  have first : entryName bytes k = bytes (k * direntSize + dName) ::
      (List.range (nameMax - 1)).map fun i => bytes (k * direntSize + dName + (i + 1)) := by
    rw [entryName, show nameMax = nameMax - 1 + 1 from rfl, List.range_succ_eq_map, List.map_cons,
      List.map_map]
    rfl
  rw [nameOf, first, List.takeWhile_cons]
  by_cases zero : bytes (k * direntSize + dName) = 0 <;> simp [zero]

section Entries

variable {address : Nat → Option Nat} {bytes after : Nat → UInt8} {slot : Name → Option Nat}
  {k number ino : Nat} {name : Name}

theorem Lists.slot_at (lists : Lists address bytes slot) (named : nameOf bytes k ≠ []) :
    slot (nameOf bytes k) = address (entryInum bytes k) := by
  obtain ⟨ino, leads⟩ := Option.ne_none_iff_exists'.mp (lists.leads k named)
  rw [leads]
  exact (lists.slots _ _).mpr ⟨named, k, rfl, leads⟩

theorem Lists.slot_none (lists : Lists address bytes slot) (missing : ∀ k, nameOf bytes k ≠ name) :
    slot name = none := by
  apply Option.eq_none_iff_forall_ne_some.mpr
  intro ino found
  obtain ⟨_, k, named, _⟩ := (lists.slots _ _).mp found
  exact missing k named

theorem Lists.missing (lists : Lists address bytes slot) (absent : slot name = none)
    (some : name ≠ []) (k : Nat) : nameOf bytes k ≠ name := by
  rintro rfl
  exact lists.leads k some ((lists.slot_at some).symm.trans absent)

theorem Lists.zeros : Lists address (fun _ => 0) fun _ => none := by
  have free : ∀ k, nameOf (fun _ => 0) k = [] ∧ (0 : UInt8) ∈ entryName (fun _ => 0) k :=
    fun k => entry_zero fun _ _ => rfl
  refine ⟨fun k => (free k).2, ?_, ?_, ?_, ?_⟩
  · intro j k named
    exact absurd (free j).1 named
  · intro k
    rw [(free k).1]
    exact List.not_mem_nil
  · intro k named
    exact absurd (free k).1 named
  · intro name ino
    constructor
    · intro impossible
      cases impossible
    · rintro ⟨some, k, named, _⟩
      exact absurd (named.symm.trans (free k).1) some

theorem Lists.congr_slot {other : Name → Option Nat} (lists : Lists address bytes slot)
    (same : ∀ name, other name = slot name) : Lists address bytes other := by
  rw [show other = slot from funext same]
  exact lists

theorem Lists.enter (lists : Lists address bytes slot) (free : nameOf bytes k = [])
    (absent : slot name = none) (fits : Element name)
    (others : ∀ j, j ≠ k → entryName after j = entryName bytes j ∧
      entryInum after j = entryInum bytes j)
    (named : nameOf after k = name) (terminated : (0 : UInt8) ∈ entryName after k)
    (leads : address (entryInum after k) = some ino) :
    Lists address after fun later => if later = name then some ino else slot later := by
  have kept : ∀ j, j ≠ k → nameOf after j = nameOf bytes j := by
    intro j other
    rw [nameOf, nameOf, (others j other).1]
  have missing := lists.missing absent fits.some
  constructor
  · intro j
    by_cases here : j = k
    · rw [here]
      exact terminated
    · rw [(others j here).1]
      exact lists.terminated j
  · intro i j some same
    by_cases iHere : i = k
    · by_cases jHere : j = k
      · rw [iHere, jHere]
      · rw [iHere, named, kept j jHere] at same
        exact absurd same.symm (missing j)
    · by_cases jHere : j = k
      · rw [jHere, named, kept i iHere] at same
        exact absurd same (missing i)
      · rw [kept i iHere] at some same
        rw [kept j jHere] at same
        exact lists.distinct i j some same
  · intro j
    by_cases here : j = k
    · rw [here, named]
      exact fits.single
    · rw [kept j here]
      exact lists.single j
  · intro j some
    by_cases here : j = k
    · rw [here, leads]
      exact Option.some_ne_none _
    · rw [kept j here] at some
      rw [(others j here).2]
      exact lists.leads j some
  · intro later x
    by_cases new : later = name
    · rw [if_pos new]
      constructor
      · intro same
        cases same
        exact ⟨new ▸ fits.some, k, named.trans new.symm, leads⟩
      · rintro ⟨_, j, at_name, found⟩
        by_cases here : j = k
        · rw [here, leads] at found
          exact found
        · rw [kept j here, new] at at_name
          exact absurd at_name (missing j)
    · rw [if_neg new, lists.slots]
      refine and_congr_right fun some => ?_
      constructor
      · rintro ⟨j, at_name, found⟩
        have other : j ≠ k := by
          rintro rfl
          exact some (at_name.symm.trans free)
        exact ⟨j, (kept j other).trans at_name, by rw [(others j other).2, found]⟩
      · rintro ⟨j, at_name, found⟩
        have other : j ≠ k := by
          rintro rfl
          exact new (at_name.symm.trans named)
        exact ⟨j, (kept j other).symm.trans at_name, by rw [← (others j other).2, found]⟩

theorem Lists.clear (lists : Lists address bytes slot) (named : nameOf bytes k = name)
    (some : name ≠ [])
    (others : ∀ j, j ≠ k → entryName after j = entryName bytes j ∧
      entryInum after j = entryInum bytes j)
    (free : nameOf after k = []) (terminated : (0 : UInt8) ∈ entryName after k) :
    Lists address after fun later => if later = name then none else slot later := by
  have kept : ∀ j, j ≠ k → nameOf after j = nameOf bytes j := by
    intro j other
    rw [nameOf, nameOf, (others j other).1]
  have used : ∀ j, nameOf after j ≠ [] → j ≠ k := by
    rintro _ more rfl
    exact more free
  constructor
  · intro j
    by_cases here : j = k
    · rw [here]
      exact terminated
    · rw [(others j here).1]
      exact lists.terminated j
  · intro i j more same
    have iOther := used i more
    have jOther := used j (same ▸ more)
    rw [kept i iOther] at more same
    rw [kept j jOther] at same
    exact lists.distinct i j more same
  · intro j
    by_cases here : j = k
    · rw [here, free]
      exact List.not_mem_nil
    · rw [kept j here]
      exact lists.single j
  · intro j more
    have other := used j more
    rw [kept j other] at more
    rw [(others j other).2]
    exact lists.leads j more
  · intro later x
    by_cases gone : later = name
    · rw [if_pos gone]
      constructor
      · intro impossible
        cases impossible
      · rintro ⟨more, j, at_name, _⟩
        have other := used j (at_name.symm ▸ more)
        rw [kept j other, gone, ← named] at at_name
        exact absurd (lists.distinct j k (at_name.symm ▸ named.symm ▸ some) at_name) other
    · rw [if_neg gone, lists.slots]
      refine and_congr_right fun more => ?_
      constructor
      · rintro ⟨j, at_name, found⟩
        have other : j ≠ k := by
          rintro rfl
          exact gone (at_name.symm.trans named)
        exact ⟨j, (kept j other).trans at_name, by rw [(others j other).2, found]⟩
      · rintro ⟨j, at_name, found⟩
        have other := used j (at_name.symm ▸ more)
        exact ⟨j, (kept j other).symm.trans at_name, by rw [← (others j other).2, found]⟩

end Entries

/-! ## Images -/

def Tree.InUse (t : Tree) (ino : Nat) : Prop := t.kind ino ≠ none

theorem Tree.apart {t : Tree} {dir ino : Nat} (directory : t.kind dir = some .dir)
    (other : t.kind ino ≠ some .dir) : dir ≠ ino := by
  rintro rfl
  exact other directory

section Image

variable (stubs : Nat → InodeStubs)

/-- A directory with whole blocks and these entries, nothing of which lies behind its size or
behind a missing block. -/
structure ShowsDir (dir : Nat) (map : Memory) (slot : Name → Option Nat) : Prop where
  whole : iSizeOf dir map % blkSize = 0
  behind : ∀ i, iSizeOf dir map ≤ i → byteAt (stubs dir) map i = 0
  ends : ∀ n, blockAt (stubs dir) map n = none → ∀ i, n * blkSize ≤ i →
    byteAt (stubs dir) map i = 0
  lists : Lists (fun number => (diskblock2memaddr map number).toOption)
    (byteAt (stubs dir) map) slot

/-- The image shows the tree; `valid` is what the missing functions keep of an image with these
inodes in use. -/
structure ShowsTree (valid : (Nat → Prop) → Memory → Prop) (t : Tree) (map : Memory) : Prop where
  valid : valid t.InUse map
  few : loadLE map sNblocks 4 < 2 ^ 20
  root : diskblock2memaddr map (loadLE map sRoot 4) = .ok t.root
  kind : ∀ {ino kind}, t.kind ino = some kind → (isDir map ino = true ↔ kind = .dir)
  nlink : ∀ {ino}, t.InUse ino → (t.nlink ino).toNat = loadLE map (ino + iNlink) 2
  dirs : ∀ {dir}, t.kind dir = some .dir → ShowsDir stubs dir map (t.slot dir)

/-- Nothing changes but owners, times and missing blocks of the inodes in use, which may be
there now, zeroed. -/
structure Quiet (live : Nat → Prop) (before after : Memory) : Prop where
  nblocks : loadLE after sNblocks 4 = loadLE before sNblocks 4
  root : loadLE after sRoot 4 = loadLE before sRoot 4
  header : ∀ {ino}, live ino → AgreeOn before after (ino + iMode) (iAtime - iMode)
  size : ∀ {ino}, live ino → iSizeOf ino after = iSizeOf ino before
  bytes : ∀ {ino}, live ino → byteAt (stubs ino) after = byteAt (stubs ino) before
  blocks : ∀ {ino n}, live ino → blockAt (stubs ino) before n ≠ none →
    blockAt (stubs ino) after n = blockAt (stubs ino) before n

/-- What the comments say of `inode_get_block` and `alloc_block`, whatever inodes are in use.
A call that fails changes none of them. -/
structure DiskDocumented (allocBlock : Memory → Except Errno Nat × Memory)
    (valid : (Nat → Prop) → Memory → Prop) : Prop where
  image : ∀ live, ImageDocumented stubs live allocBlock (valid live)
  refused : ∀ {live map after ino n number}, valid live map → live ino →
    (stubs ino).getBlock map n = (.error number, after) →
    number ≠ .noent ∧ valid live after ∧ SameImage stubs live (fun _ => False) map after
  full : ∀ {live map after number}, valid live map → allocBlock map = (.error number, after) →
    valid live after ∧ SameImage stubs live (fun _ => False) map after
  /-- The numbers that an inode in use keeps are numbers of blocks. -/
  numbers : ∀ {live map ino}, valid live map → live ino →
    Numbers (stubs ino) map ∧ IndexDocumented ino map
  /-- Block numbers are not kept in front of the size of an inode either. -/
  header : ∀ {live map after ino}, valid live map → live ino →
    (∀ x, x < ino ∨ ino + iSize ≤ x → after x = map x) →
    valid live after ∧ ∀ other, live other → ∀ n,
      blockAt (stubs other) after n = blockAt (stubs other) map n
  /-- A zeroed block from `alloc_block` is an inode without blocks. -/
  adopt : ∀ {live map after later number blk}, valid live map →
    allocBlock map = (.ok number, after) → diskblock2memaddr map number = .ok blk →
    (∀ x, x < blk ∨ blk + blkSize ≤ x → later x = after x) →
    AgreeOn (fun _ => 0) later blk blkSize →
    valid (fun ino => live ino ∨ ino = blk) later ∧ ∀ n, blockAt (stubs blk) later n = none

end Image

section Quiet

variable {stubs : Nat → InodeStubs} {live : Nat → Prop} {t : Tree} {map middle after : Memory}
  {valid : (Nat → Prop) → Memory → Prop} {allocBlock : Memory → Except Errno Nat × Memory}
  {dir n : Nat}

theorem Quiet.refl : Quiet stubs live map map where
  nblocks := rfl
  root := rfl
  header := fun _ _ _ _ => rfl
  size := fun _ => rfl
  bytes := fun _ => rfl
  blocks := fun _ _ => rfl

theorem Quiet.trans (front : Quiet stubs live map middle) (back : Quiet stubs live middle after) :
    Quiet stubs live map after where
  nblocks := back.nblocks.trans front.nblocks
  root := back.root.trans front.root
  header := fun there x lower upper =>
    (back.header there x lower upper).trans (front.header there x lower upper)
  size := fun there => (back.size there).trans (front.size there)
  bytes := fun there => (back.bytes there).trans (front.bytes there)
  blocks := fun there present => by
    have first := front.blocks there present
    exact (back.blocks there (first.symm ▸ present)).trans first

theorem SameImage.quiet (same : SameImage stubs live (fun _ => False) map after) :
    Quiet stubs live map after where
  nblocks := same.nblocks
  root := same.root
  header := same.header
  size := fun there => same.size there not_false
  bytes := fun there => same.byteAt there not_false
  blocks := fun there _ => (same.blocks there not_false _).1

theorem Quiet.mode (quiet : Quiet stubs live map after) {ino : Nat} (there : live ino) :
    isDir after ino = isDir map ino := by
  rw [isDir, isDir, loadLE_congr]
  intro x lower upper
  apply quiet.header there x lower
  simp only [iMode, iAtime] at *
  omega

theorem Quiet.nlink (quiet : Quiet stubs live map after) {ino : Nat} (there : live ino) :
    loadLE after (ino + iNlink) 2 = loadLE map (ino + iNlink) 2 := by
  apply loadLE_congr
  intro x lower upper
  apply quiet.header there x
  · simp only [iMode, iNlink] at *
    omega
  · simp only [iMode, iNlink, iAtime] at *
    omega

theorem ShowsDir.grow {slot : Name → Option Nat} (shows : ShowsDir stubs dir map slot)
    (nblocks : loadLE after sNblocks 4 = loadLE map sNblocks 4)
    (whole : iSizeOf dir after % blkSize = 0) (grows : iSizeOf dir map ≤ iSizeOf dir after)
    (bytes : byteAt (stubs dir) after = byteAt (stubs dir) map)
    (blocks : ∀ n, blockAt (stubs dir) map n ≠ none →
      blockAt (stubs dir) after n = blockAt (stubs dir) map n) :
    ShowsDir stubs dir after slot := by
  have address : (fun number => (diskblock2memaddr after number).toOption) =
      fun number => (diskblock2memaddr map number).toOption := by
    funext number
    rw [diskblock2memaddr_congr nblocks]
  constructor
  · exact whole
  · intro i beyond
    rw [bytes]
    exact shows.behind i (grows.trans beyond)
  · intro n absent
    rw [bytes]
    apply shows.ends
    by_contra present
    rw [blocks n present] at absent
    exact present absent
  · rw [address, bytes]
    exact shows.lists

theorem ShowsDir.congr {slot : Name → Option Nat} (shows : ShowsDir stubs dir map slot)
    (nblocks : loadLE after sNblocks 4 = loadLE map sNblocks 4)
    (size : iSizeOf dir after = iSizeOf dir map)
    (bytes : byteAt (stubs dir) after = byteAt (stubs dir) map)
    (blocks : ∀ n, blockAt (stubs dir) map n ≠ none →
      blockAt (stubs dir) after n = blockAt (stubs dir) map n) :
    ShowsDir stubs dir after slot := by
  apply shows.grow nblocks _ size.ge bytes blocks
  rw [size]
  exact shows.whole

/-- What is quiet does not show. -/
theorem ShowsTree.quiet (shows : ShowsTree stubs valid t map) (afterValid : valid t.InUse after)
    (quiet : Quiet stubs t.InUse map after) : ShowsTree stubs valid t after where
  valid := afterValid
  few := by
    rw [quiet.nblocks]
    exact shows.few
  root := by
    rw [quiet.root, diskblock2memaddr_congr quiet.nblocks]
    exact shows.root
  kind := fun {ino kind} has => by
    rw [quiet.mode (show t.kind ino ≠ none by simp [has])]
    exact shows.kind has
  nlink := fun there => by
    rw [quiet.nlink there]
    exact shows.nlink there
  dirs := fun {dir} directory => by
    have there : t.InUse dir := by simp [Tree.InUse, directory]
    exact (shows.dirs directory).congr quiet.nblocks (quiet.size there) (quiet.bytes there)
      fun n => quiet.blocks there

/-! ## inode_get_block -/

theorem DiskDocumented.get (doc : DiskDocumented stubs allocBlock valid)
    (mapValid : valid live map) (there : live dir) {answer : Except Errno Nat}
    (got : (stubs dir).getBlock map n = (answer, after)) :
    valid live after ∧ Quiet stubs live map after ∧
      ((∃ blk, answer = .ok blk ∧ blockAt (stubs dir) after n = some blk) ∨
        ∃ number, answer = .error number ∧ number ≠ .noent ∧
          blockAt (stubs dir) map n = none) := by
  cases place : blockAt (stubs dir) map n with
  | some blk =>
      rw [(doc.image live).found mapValid there place] at got
      cases got
      exact ⟨mapValid, Quiet.refl, Or.inl ⟨blk, rfl, place⟩⟩
  | none =>
      cases answer with
      | error number =>
          obtain ⟨other, stays, same⟩ := doc.refused mapValid there got
          exact ⟨stays, same.quiet, Or.inr ⟨number, rfl, other, rfl⟩⟩
      | ok blk =>
          obtain ⟨stays, image, size, here, zero, others⟩ :=
            (doc.image live).new mapValid there place got
          refine ⟨stays, ⟨image.nblocks, image.root, image.header, ?_, ?_, ?_⟩,
            Or.inl ⟨blk, rfl, here⟩⟩
          · intro ino live_ino
            by_cases same : ino = dir
            · rw [same]
              exact size
            · exact image.size live_ino same
          · intro ino live_ino
            by_cases same : ino = dir
            · subst same
              funext i
              by_cases block : i / blkSize = n
              · have absent : blockAt (stubs ino) map (i / blkSize) = none := block ▸ place
                have bound := Nat.mod_lt i (show 0 < blkSize by decide)
                rw [byteAt_none absent, byteAt_some (block ▸ here)]
                exact zero _ (Nat.le_add_right _ _) (by omega)
              · exact (others _ block).byteAt
            · exact image.byteAt live_ino same
          · intro ino m live_ino present
            by_cases same : ino = dir
            · subst same
              by_cases block : m = n
              · rw [block] at present
                exact absurd place present
              · exact (others m block).1
            · exact (image.blocks live_ino same m).1

/-! ## Scanning a directory -/

/-- How the loops over the blocks in front of `last` end when they look for `good` entries. -/
inductive ScanEnds (file : InodeStubs) (good : Nat → Bool) (last : Nat) (before after : Memory) :
    Except Stop (Option Nat) → Prop
  | found {k : Nat} (here : good k = true) (inside : k / blkDirents < last)
      (present : ∀ n ≤ k / blkDirents, blockAt file after n ≠ none) :
      ScanEnds file good last before after (.ok (some (entryAddress file after k)))
  | missing (free : ∀ k < last * blkDirents, good k = false)
      (present : ∀ n < last, blockAt file after n ≠ none) :
      ScanEnds file good last before after (.ok none)
  | refused {n : Nat} {number : Errno} (absent : blockAt file before n = none)
      (free : ∀ k < n * blkDirents, good k = false) (other : number ≠ .noent) :
      ScanEnds file good last before after (.error (.errno number))

theorem Quiet.present (quiet : Quiet stubs live map after) (there : live dir)
    (present : blockAt (stubs dir) map n ≠ none) : blockAt (stubs dir) after n ≠ none := by
  rw [quiet.blocks there present]
  exact present

/-- A test that sees the bytes of an entry only. -/
def Tests (stubs : Nat → InodeStubs) (live : Nat → Prop) (dir : Nat) (map : Memory)
    (test : Memory → Nat → Bool) (good : Nat → Bool) : Prop :=
  ∀ ⦃after n blk j⦄, Quiet stubs live map after → blockAt (stubs dir) after n = some blk →
    j < blkDirents → test after (blk + j * direntSize) = good (n * blkDirents + j)

/-- One block of the loops. -/
theorem Tests.block {test : Memory → Nat → Bool} {good : Nat → Bool} {blk : Nat}
    (tests : Tests stubs live dir map test good) (quiet : Quiet stubs live map after)
    (place : blockAt (stubs dir) after n = some blk) :
    match (List.range blkDirents).find? fun j => test after (blk + j * direntSize) with
    | some j => j < blkDirents ∧ good (n * blkDirents + j) = true
    | none => ∀ j < blkDirents, good (n * blkDirents + j) = false := by
  cases first : (List.range blkDirents).find? fun j => test after (blk + j * direntSize) with
  | some j =>
      have inside := List.mem_range.mp (List.mem_of_find?_eq_some first)
      have passed := List.find?_some first
      refine ⟨inside, ?_⟩
      rw [← tests quiet place inside]
      exact passed
  | none =>
      intro j inside
      rw [← tests quiet place inside]
      simpa using List.find?_eq_none.mp first j (List.mem_range.mpr inside)

theorem DiskDocumented.scan (doc : DiskDocumented stubs allocBlock valid)
    (there : live dir) {test : Memory → Nat → Bool} {good : Nat → Bool}
    (tests : Tests stubs live dir map test good) {togo i : Nat}
    {answer : Except Stop (Option Nat)} (middleValid : valid live middle)
    (quiet : Quiet stubs live map middle) (free : ∀ k < i * blkDirents, good k = false)
    (present : ∀ n < i, blockAt (stubs dir) middle n ≠ none)
    (ran : scanBlocks (stubs dir) test togo i middle = (answer, after)) :
    valid live after ∧ Quiet stubs live map after ∧
      ScanEnds (stubs dir) good (i + togo) map after answer := by
  induction togo generalizing i middle with
  | zero =>
      cases ran
      exact ⟨middleValid, quiet, .missing free present⟩
  | succ togo ih =>
      rw [scanBlocks] at ran
      cases got : (stubs dir).getBlock middle i with
      | mk reply later =>
          obtain ⟨stays, more, ends⟩ := doc.get middleValid there got
          have sofar := quiet.trans more
          rcases ends with ⟨blk, rfl, place⟩ | ⟨number, rfl, other, absent⟩
          · have block := tests.block sofar place
            have front : ∀ m < i + 1, blockAt (stubs dir) later m ≠ none := by
              intro m below
              by_cases last : m = i
              · rw [last, place]
                exact Option.some_ne_none _
              · exact more.present there (present m (by omega))
            rw [got] at ran
            simp only at ran
            cases first : (List.range blkDirents).find?
                fun j => test later (blk + j * direntSize) with
            | some j =>
                rw [first] at ran block
                cases ran
                obtain ⟨inside, good_here⟩ := block
                obtain ⟨number, slot⟩ := entry_place (n := i) inside
                have address : entryAddress (stubs dir) after (i * blkDirents + j) =
                    blk + j * direntSize := by
                  rw [entryAddress, number, slot, dirBlock_eq place]
                rw [← address]
                refine ⟨stays, sofar, .found good_here (by omega) ?_⟩
                intro n below
                exact front n (by omega)
            | none =>
                rw [first] at ran block
                rw [show i + (togo + 1) = i + 1 + togo by omega]
                refine ih stays sofar ?_ front ran
                intro k below
                by_cases earlier : k < i * blkDirents
                · exact free k earlier
                · have last := block (k - i * blkDirents)
                    (by simp only [blkDirents, blkSize, direntSize] at *; omega)
                  rwa [Nat.add_sub_cancel' (by omega)] at last
          · rw [got] at ran
            cases ran
            refine ⟨stays, sofar, .refused ?_ free other⟩
            by_contra before
            exact quiet.present there before absent

end Quiet

end OsLabs.Fs
