import OsLabs.Fs.DirectoryEntry
import OsLabs.Fs.InodeBlocks

/-!
# Creating a file

`inode_create` of inode.c.  The new name goes into the first free entry of its directory,
or into a new block at the end, and the inode is a zeroed block.
-/

set_option autoImplicit false

namespace OsLabs.Fs

open OsLabs.ByteMemory OsLabs.ExceptRules

section Model

variable (stubs : Nat → InodeStubs) (allocBlock : Memory → Except Errno Nat × Memory)

/-- `inode_create` once the directory and the last element are known. -/
def createIn (map : Memory) (dir : Nat) (name : Name) : Except Stop Nat × Memory :=
  match dirAllocDirent (stubs dir) dir map with
  | (.error stopped, map) => (.error stopped, map)
  | (.ok d, map) =>
      match allocBlock map with
      | (.error number, map) => (.error (.errno number), map)
      | (.ok number, map) =>
          match diskblock2memaddr map number with
          | .error stopped => (.error stopped, map)
          | .ok blk =>
              let map := setDirent (fill map blk blkSize 0) d name number
              match diskblock2memaddr map (loadLE map (d + dInum) 4) with
              | .error stopped => (.error stopped, map)
              | .ok ino =>
                  match inodeFlush (stubs dir) dir map with
                  | .error stopped => (.error stopped, map)
                  | .ok _ => (.ok ino, map)

/-- `inode_create`; `dir` and `name` are what `walk_path` has left there. -/
def inodeCreate (map : Memory) (path : List UInt8) : Except Stop Nat × Memory :=
  match walkPath stubs map path ⟨none, none, none, []⟩ with
  | (.ok (), _, map) => (.error (.errno .exist), map)
  | (.error stopped, out, map) =>
      if stopped ≠ .errno .noent then (.error stopped, map)
      else
        match out.pdir with
        | none => (.error stopped, map)
        | some dir => createIn stubs allocBlock map dir out.lastelem

end Model

/-- What a successful `inode_create` has done. -/
structure Creates (stubs : Nat → InodeStubs) (root : Nat) (path : List UInt8) (ino : Nat)
    (before after : Memory) : Prop where
  opens : Opens stubs after path ino
  names : ∀ {dir}, (diskTree stubs after root).Along Element dir → isDir after dir →
    NamesOk (stubs dir) dir after
  kept : ∀ other found, (0 : UInt8) ∉ other → Opens stubs before other found →
    Opens stubs after other found
  only : ∀ other found, (0 : UInt8) ∉ other → segments other ≠ segments path →
    Opens stubs after other found → Opens stubs before other found

section Image

variable {stubs : Nat → InodeStubs} {live : Nat → Prop} {valid : Memory → Prop}
  {allocBlock : Memory → Except Errno Nat × Memory} {map middle after : Memory}
  {root dir d k number : Nat} {name : Name}

/-! ## The new entry and its inode -/

/-- The directory has the new name, and its inode is a zeroed block. -/
structure Created (stubs : Nat → InodeStubs) (live : Nat → Prop) (dir : Nat) (name : Name)
    (ino : Nat) (before after : Memory) : Prop where
  image : SameImage stubs live (· = dir) before after
  whole : iSizeOf dir after % blkSize = 0
  allocated : Allocated (stubs dir) dir after
  filled : ∃ k number, diskblock2memaddr before number = .ok ino ∧
    Filled (byteAt (stubs dir) before) (byteAt (stubs dir) after)
      (iSizeOf dir before / blkSize * blkDirents) (iSizeOf dir after / blkSize * blkDirents)
      k name number
  leaf : ¬ isDir after ino

theorem diskblock2memaddr_lt {blk : Nat} (found : diskblock2memaddr map number = .ok blk) :
    number < 2 ^ 32 := by
  have bound := loadLE_lt map sNblocks 4
  rw [diskblock2memaddr] at found
  split at found
  · cases found
  · norm_num at bound
    omega

theorem createIn_ok {ino : Nat}
    (ran : createIn stubs allocBlock map dir name = (.ok ino, after)) :
    ∃ d middle number alloced blk, dirAllocDirent (stubs dir) dir map = (.ok d, middle) ∧
      allocBlock middle = (.ok number, alloced) ∧ diskblock2memaddr alloced number = .ok blk ∧
      setDirent (fill alloced blk blkSize 0) d name number = after ∧
      diskblock2memaddr after (loadLE after (d + dInum) 4) = .ok ino := by
  rw [createIn] at ran
  cases dirent : dirAllocDirent (stubs dir) dir map with
  | mk answer middle =>
      cases answer with
      | error stopped =>
          rw [dirent] at ran
          cases ran
      | ok d =>
          simp only [dirent] at ran
          cases alloc : allocBlock middle with
          | mk answer alloced =>
              cases answer with
              | error number =>
                  rw [alloc] at ran
                  cases ran
              | ok number =>
                  simp only [alloc] at ran
                  cases address : diskblock2memaddr alloced number with
                  | error stopped =>
                      rw [address] at ran
                      cases ran
                  | ok blk =>
                      simp only [address] at ran
                      refine ⟨d, middle, number, alloced, blk, rfl, alloc, address, ?_⟩
                      split at ran
                      · cases ran
                      · next found =>
                          split at ran
                          · cases ran
                          · cases ran
                            exact ⟨rfl, found⟩

/-- The entry lies in a block of the directory, so the block of the new inode is still
zero, and an inode of zeros is no directory. -/
theorem Prepared.leaf (prepared : Prepared stubs live dir k map middle) (there : live dir)
    {cleared : Memory} {ino : Nat}
    (zero : ∀ x, ino ≤ x → x < ino + blkSize → cleared x = 0)
    (apart : ∀ owner : Owner, ∀ x, owner.Holds stubs live middle x →
      x < ino ∨ ino + blkSize ≤ x)
    (outside : ∀ x, x < entryAddress (stubs dir) middle k ∨
      entryAddress (stubs dir) middle k + direntSize ≤ x → after x = cleared x) :
    ¬ isDir after ino := by
  obtain ⟨blk, place⟩ := Option.ne_none_iff_exists'.mp
    (prepared.allocated _ (entry_block prepared.entry))
  have mode : loadLE after (ino + iMode) 4 = 0 := by
    apply loadLE_zero
    intro x lower upper
    rw [outside x]
    · apply zero
      · exact (Nat.le_add_right _ _).trans lower
      · simp only [iMode, blkSize] at *
        omega
    · by_contra inside
      have holds : (Owner.block dir (k / blkDirents)).Holds stubs live middle x := by
        refine ⟨there, blk, place, ?_⟩
        rw [entryAddress, dirBlock_eq place] at inside
        simp only [blkDirents, blkSize, direntSize] at *
        omega
      have free := apart _ x holds
      simp only [iMode, blkSize] at *
      omega
  rw [isDir, mode]
  decide

theorem ImageDocumented.created (doc : ImageDocumented stubs live allocBlock valid)
    (mapValid : valid map) (there : live dir) (whole : iSizeOf dir map % blkSize = 0)
    (allocated : Allocated (stubs dir) dir map) (small : iSizeOf dir map < 2 ^ 32 - blkSize)
    (behind : ∀ i, iSizeOf dir map ≤ i → i < iSizeOf dir map + blkSize →
      byteAt (stubs dir) map i = 0)
    (short : name.length < nameMax) (string : (0 : UInt8) ∉ name) {ino : Nat}
    (ran : createIn stubs allocBlock map dir name = (.ok ino, after)) :
    valid after ∧ Created stubs live dir name ino map after := by
  obtain ⟨d, middle, number, alloced, blk, dirent, alloc, address, stored, found⟩ :=
    createIn_ok ran
  obtain ⟨middleValid, k, prepared, place⟩ :=
    doc.prepares mapValid there whole allocated small behind dirent
  obtain ⟨other, again, apart, later⟩ := doc.alloc middleValid alloc
  obtain rfl : blk = other := by
    rw [diskblock2memaddr_congr (later alloced (fun _ _ => rfl)).2.nblocks, again] at address
    exact (Except.ok.inj address).symm
  obtain ⟨cleared, clearedEq⟩ : ∃ cleared, fill alloced blk blkSize 0 = cleared := ⟨_, rfl⟩
  rw [clearedEq] at stored
  obtain ⟨clearedValid, same⟩ := later cleared (by
    intro x outside
    rw [← clearedEq, fill, if_neg (by omega)])
  have size : iSizeOf dir cleared = iSizeOf dir middle := same.size there not_false
  have places : ∀ n, blockAt (stubs dir) cleared n = blockAt (stubs dir) middle n :=
    fun n => (same.blocks there not_false n).1
  have clearedAllocated : Allocated (stubs dir) dir cleared := by
    intro n below
    rw [places]
    exact prepared.allocated n (by rwa [size] at below)
  have present : blockAt (stubs dir) cleared (k / blkDirents) ≠ none := by
    rw [places]
    exact prepared.allocated _ (entry_block prepared.entry)
  have here : d = entryAddress (stubs dir) cleared k := by
    rw [place, entryAddress, entryAddress, dirBlock, dirBlock, places]
  have bound := diskblock2memaddr_lt again
  obtain ⟨stays, set⟩ := doc.set_entry clearedValid there present short string bound
    (by rw [← here, stored])
  obtain ⟨outside, _, inum⟩ := setDirent_bytes short stored.symm
  have image : SameImage stubs live (· = dir) middle after :=
    (same.weaken (fun _ impossible => impossible.elim)).trans set.image
  have whole_image := prepared.image.trans image
  obtain rfl : ino = blk := by
    rw [inum, Nat.mod_eq_of_lt bound, diskblock2memaddr_congr image.nblocks, again] at found
    exact (Except.ok.inj found).symm
  refine ⟨stays, whole_image, ?_, ?_, ⟨k, number, ?_, ?_⟩, ?_⟩
  · rw [set.size, size]
    exact prepared.whole
  · intro n below
    rw [set.places]
    exact clearedAllocated n (by rwa [set.size] at below)
  · rw [← again]
    exact (diskblock2memaddr_congr prepared.image.nblocks).symm
  · exact Filled.of_entry prepared whole (same.byteAt there not_false) size set
  · apply prepared.leaf there _ apart
    · rw [← place]
      exact outside
    · intro x lower upper
      rw [← clearedEq, fill, if_pos ⟨lower, upper⟩]

theorem ImageDocumented.slot_created (doc : ImageDocumented stubs live allocBlock valid)
    (mapValid : valid map) (afterValid : valid after) (there : live dir)
    (directory : isDir map dir) (whole : iSizeOf dir map % blkSize = 0)
    (allocated : Allocated (stubs dir) dir map) (fits : Element name)
    (missing : ∀ k ∈ entriesOf dir map, nameOf (byteAt (stubs dir) map) k ≠ name) {ino : Nat}
    (created : Created stubs live dir name ino map after) {later : Name}
    (laterFits : Element later) (short : later.length < nameMax) :
    (diskTree stubs after root).slot dir later =
      if later = name then some ino else (diskTree stubs map root).slot dir later := by
  obtain ⟨k, number, address, filled⟩ := created.filled
  have afterDir : isDir after dir := by
    rw [created.image.isDir there]
    exact directory
  rw [doc.slot afterValid there afterDir created.whole created.allocated laterFits short,
    doc.slot mapValid there directory whole allocated laterFits short, entriesOf, entriesOf]
  by_cases new : later = name
  · have first := filled.find_new fits.some
      (fun j inside => missing j (List.mem_range.mpr inside))
    rw [new, first, if_pos rfl, Option.bind_some, filled.inum,
      diskblock2memaddr_congr created.image.nblocks, address]
    rfl
  · rw [filled.find_old laterFits.some new, if_neg new]
    cases found : (List.range (iSizeOf dir map / blkSize * blkDirents)).find?
        (fun j => decide (nameOf (byteAt (stubs dir) map) j = later)) with
    | none => rfl
    | some j =>
        have inside := List.mem_range.mp (List.mem_of_find?_eq_some found)
        have named := List.find?_some found
        rw [decide_eq_true_iff] at named
        have different : j ≠ k := by
          intro same
          rw [same] at named inside
          rw [filled.vacant inside] at named
          exact laterFits.some named.symm
        rw [Option.bind_some, Option.bind_some, (filled.kept j inside different).2,
          diskblock2memaddr_congr created.image.nblocks]

theorem ImageDocumented.slot_kept (doc : ImageDocumented stubs live allocBlock valid)
    (mapValid : valid map) (afterValid : valid after) {changed : Nat → Prop}
    (image : SameImage stubs live changed map after) (there : live dir) (apart : ¬ changed dir)
    (directory : isDir map dir) (whole : iSizeOf dir map % blkSize = 0)
    (allocated : Allocated (stubs dir) dir map) (fits : Element name)
    (short : name.length < nameMax) :
    (diskTree stubs after root).slot dir name = (diskTree stubs map root).slot dir name := by
  have size := image.size there apart
  have afterDir : isDir after dir := by
    rw [image.isDir there]
    exact directory
  have afterAllocated : Allocated (stubs dir) dir after := by
    intro n below
    rw [(image.blocks there apart n).1]
    exact allocated n (by rwa [size] at below)
  rw [doc.slot afterValid there afterDir (by rw [size]; exact whole) afterAllocated fits short,
    doc.slot mapValid there directory whole allocated fits short, entriesOf, entriesOf, size,
    image.byteAt there apart]
  congr 1
  funext j
  rw [diskblock2memaddr_congr image.nblocks]

theorem ImageDocumented.gains (doc : ImageDocumented stubs live allocBlock valid)
    (mapValid : valid map) (afterValid : valid after) (well : WellFormed stubs live map root)
    (along : (diskTree stubs map root).Along Element dir) (directory : isDir map dir)
    (fits : Element name) (short : name.length < nameMax)
    (missing : ∀ k ∈ entriesOf dir map, nameOf (byteAt (stubs dir) map) k ≠ name) {ino : Nat}
    (created : Created stubs live dir name ino map after) :
    (diskTree stubs map root).Gains (diskTree stubs after root) Element dir name ino := by
  have there := well.inUse along
  have whole := well.whole along directory
  have allocated := well.allocated along directory
  refine ⟨rfl, ?_, ?_, fun later => diskTree_file created.leaf⟩
  · have none_found : (entriesOf dir map).find?
        (fun k => decide (nameOf (byteAt (stubs dir) map) k = name)) = none := by
      apply List.find?_eq_none.mpr
      intro k member
      rw [decide_eq_true_iff]
      exact missing k member
    rw [doc.slot mapValid there directory whole allocated fits short, none_found]
    rfl
  · intro other later otherAlong laterFits
    have otherLive := well.inUse otherAlong
    by_cases otherDir : isDir map other
    · by_cases laterShort : later.length < nameMax
      · by_cases here : other = dir
        · subst here
          rw [doc.slot_created mapValid afterValid there directory whole allocated fits missing
            created laterFits laterShort]
          simp only [true_and]
        · rw [if_neg (fun same => here same.1)]
          exact doc.slot_kept mapValid afterValid created.image otherLive here otherDir
            (well.whole otherAlong otherDir) (well.allocated otherAlong otherDir) laterFits
            laterShort
      · have long : ∀ t : Tree, t.slot other later = none := by
          intro t
          rw [Tree.slot, if_neg (fun ok => laterShort ok.2)]
        rw [long, long, if_neg]
        intro same
        rw [same.2] at laterShort
        exact laterShort short
    · have afterFile : ¬ isDir after other := by
        rw [created.image.isDir otherLive]
        exact otherDir
      rw [diskTree_file afterFile, diskTree_file otherDir, if_neg]
      intro same
      rw [same.1] at otherDir
      exact otherDir directory

theorem Directories.created (well : WellFormed stubs live map root)
    (gains : ∀ {other}, (diskTree stubs after root).Along Element other → isDir after other →
      (diskTree stubs map root).Along Element other ∧ isDir map other)
    (along : (diskTree stubs map root).Along Element dir) (directory : isDir map dir)
    (missing : ∀ k ∈ entriesOf dir map, nameOf (byteAt (stubs dir) map) k ≠ name) {ino : Nat}
    (created : Created stubs live dir name ino map after) :
    Directories stubs live after root := by
  have old : ∀ {other}, live other → other ≠ dir →
      iSizeOf other after = iSizeOf other map ∧
        byteAt (stubs other) after = byteAt (stubs other) map :=
    fun live apart => ⟨created.image.size live apart, created.image.byteAt live apart⟩
  refine ⟨?_, ?_, ?_, ?_⟩
  · intro other there otherDir
    exact well.inUse (gains there otherDir).1
  · intro other there otherDir
    obtain ⟨before, beforeDir⟩ := gains there otherDir
    by_cases here : other = dir
    · rw [here]
      exact created.whole
    · rw [(old (well.inUse before) here).1]
      exact well.whole before beforeDir
  · intro other there otherDir
    obtain ⟨before, beforeDir⟩ := gains there otherDir
    by_cases here : other = dir
    · rw [here]
      exact created.allocated
    · intro n below
      rw [(old (well.inUse before) here).1] at below
      rw [(created.image.blocks (well.inUse before) here n).1]
      exact well.allocated before beforeDir n below
  · intro other there otherDir
    obtain ⟨before, beforeDir⟩ := gains there otherDir
    by_cases here : other = dir
    · subst here
      obtain ⟨k, number, _, filled⟩ := created.filled
      have names := well.names along directory
      constructor
      · intro j member
        have inside := List.mem_range.mp member
        by_cases same : j = k
        · rw [same]
          exact filled.named.2
        · by_cases low : j < iSizeOf other map / blkSize * blkDirents
          · rw [(filled.kept j low same).1]
            exact names.terminated j (List.mem_range.mpr low)
          · exact (filled.fresh j (by omega) inside same).2
      · intro i iMember j jMember
        exact filled.distinct (fun j inside => missing j (List.mem_range.mpr inside))
          (fun i iInside j jInside => names.distinct i (List.mem_range.mpr iInside) j
            (List.mem_range.mpr jInside))
          i (List.mem_range.mp iMember) j (List.mem_range.mp jMember)
    · obtain ⟨size, bytes⟩ := old (well.inUse before) here
      obtain ⟨terminated, distinct⟩ := well.names before beforeDir
      constructor
      · rw [entriesOf, size, bytes]
        exact terminated
      · rw [entriesOf, size, bytes]
        exact distinct

end Image

/-! ## Creating along a path -/

section Creating

variable {stubs : Nat → InodeStubs} {live : Nat → Prop} {valid : Memory → Prop}
  {allocBlock : Memory → Except Errno Nat × Memory} {map after : Memory} {root ino : Nat}
  {path : List UInt8}

theorem inodeCreate_exist (dirs : Directories stubs live map root)
    (doc : ImageDocumented stubs live allocBlock valid) (mapValid : valid map)
    (super : diskblock2memaddr map (loadLE map sRoot 4) = .ok root)
    (string : (0 : UInt8) ∉ path) (opens : Opens stubs map path ino) :
    inodeCreate stubs allocBlock map path = (.error (.errno .exist), map) := by
  rw [Opens, inodeOpen] at opens
  by_cases short : path.length < pathMax
  · have walk := dirs.walk doc mapValid super string short
    rw [walk] at opens
    rw [inodeCreate, walk]
    cases result : (walkSegments stubs map (segments path) ⟨none, root, none⟩
        ⟨none, none, none, []⟩).1 with
    | ok _ => rfl
    | error stopped =>
        simp only [result, Except.map] at opens
        cases opens
  · rw [walkPath, if_pos (not_lt.mp short)] at opens
    cases opens

/-- `inode_create` that succeeds has found the directory but not the name. -/
theorem inodeCreate_ok (dirs : Directories stubs live map root)
    (doc : ImageDocumented stubs live allocBlock valid) (mapValid : valid map)
    (super : diskblock2memaddr map (loadLE map sRoot 4) = .ok root)
    (string : (0 : UInt8) ∉ path)
    (ran : inodeCreate stubs allocBlock map path = (.ok ino, after)) :
    ∃ front name dir, path.length < pathMax ∧ segments path = front ++ [name] ∧
      (diskTree stubs map root).resolve front = some dir ∧ MissingIn stubs map dir name ∧
      createIn stubs allocBlock map dir name = (.ok ino, after) := by
  rw [inodeCreate] at ran
  by_cases short : path.length < pathMax
  · have walkable := dirs.walkable doc mapValid
    rw [dirs.walk doc mapValid super string short] at ran
    cases walked : (segments path).foldlM (resolveStep stubs map) ⟨none, root, none⟩ with
    | ok last =>
        simp only [walkSegments_result, walked, Except.map] at ran
        cases ran
    | error stopped =>
        simp only [walkSegments_result, walked, Except.map] at ran
        split at ran
        · cases ran
        · next missing =>
            have noent := not_not.mp missing
            subst noent
            rcases walkable.missing ⟨none, none, none, []⟩ Tree.along_root
              (segments_element string) walked with found | ⟨_, same⟩
            · obtain ⟨front, name, cur, split, before, absent, answer⟩ := found
              simp only [answer] at ran
              refine ⟨front, name, cur.ino, short, split, ?_, absent, ran⟩
              have resolved : (front.foldlM (resolveStep stubs map)
                  ⟨none, root, none⟩).toOption.map Cursor.ino =
                    (diskTree stubs map root).resolve front := diskTree_resolve _
              rw [before] at resolved
              exact resolved.symm
            · simp only [same] at ran
              cases ran
  · rw [walkPath, if_pos (not_lt.mp short)] at ran
    cases ran

/-- On a well-formed tree `inode_create` adds exactly the one name, or reports that the path
is there. -/
theorem inodeCreate_creates (doc : ImageDocumented stubs live allocBlock valid)
    (mapValid : valid map) (well : WellFormed stubs live map root)
    (super : diskblock2memaddr map (loadLE map sRoot 4) = .ok root)
    (string : (0 : UInt8) ∉ path) :
    (∀ ino after, inodeCreate stubs allocBlock map path = (.ok ino, after) →
      Creates stubs root path ino map after) ∧
    ∀ ino, Opens stubs map path ino →
      inodeCreate stubs allocBlock map path = (.error (.errno .exist), map) := by
  refine ⟨?_, fun ino => inodeCreate_exist well.toDirectories doc mapValid super string⟩
  intro ino after ran
  obtain ⟨front, name, dir, short, split, here, ⟨directory, nameShort, absent⟩, created⟩ :=
    inodeCreate_ok well.toDirectories doc mapValid super string ran
  have elements := segments_element string
  rw [split] at elements
  have fits : Element name := elements name (by simp)
  have frontFits : ∀ other ∈ front, Element other :=
    fun other member => elements other (by simp [member])
  have along : (diskTree stubs map root).Along Element dir := ⟨front, frontFits, here⟩
  have missing : ∀ k ∈ entriesOf dir map, nameOf (byteAt (stubs dir) map) k ≠ name := by
    intro k member same
    have named := (nameAt_iff fits.string nameShort).mpr same
    rw [absent k member] at named
    cases named
  obtain ⟨afterValid, made⟩ := doc.created mapValid (well.inUse along)
    (well.whole along directory) (well.allocated along directory)
    (well.small along directory) (well.behind along directory) nameShort fits.string created
  have gains := doc.gains mapValid afterValid well along directory fits nameShort missing made
  have dirs : Directories stubs live after root := by
    apply Directories.created well _ along directory missing made
    intro other there otherDir
    rcases gains.along there with old | new
    · refine ⟨old, ?_⟩
      rw [← made.image.isDir (well.inUse old)]
      exact otherDir
    · rw [new] at otherDir
      exact absurd otherDir made.leaf
  have afterSuper : diskblock2memaddr after (loadLE after sRoot 4) = .ok root := by
    rw [made.image.root, diskblock2memaddr_congr made.image.nblocks]
    exact super
  have opensAfter : ∀ other found, (0 : UInt8) ∉ other →
      (Opens stubs after other found ↔ (diskTree stubs after root).find other = some found) :=
    fun other found => dirs.opens_iff doc afterValid afterSuper
  have opensBefore : ∀ other found, (0 : UInt8) ∉ other →
      (Opens stubs map other found ↔ (diskTree stubs map root).find other = some found) :=
    fun other found => well.toDirectories.opens_iff doc mapValid super
  refine ⟨?_, dirs.names, ?_, ?_⟩
  · rw [opensAfter path ino string, Tree.find, if_pos short, split,
      Tree.resolve_snoc (gains.kept frontFits here), gains.slots along fits]
    exact if_pos ⟨rfl, rfl⟩
  · intro other found otherString opens
    rw [opensBefore other found otherString, Tree.find] at opens
    rw [opensAfter other found otherString, Tree.find]
    split at opens
    · next otherShort =>
        rw [if_pos otherShort]
        exact gains.kept (segments_element otherString) opens
    · cases opens
  · intro other found otherString different opens
    rw [opensAfter other found otherString, Tree.find] at opens
    rw [opensBefore other found otherString, Tree.find]
    split at opens
    · next otherShort =>
        rw [if_pos otherShort]
        exact gains.only well.oneWay (diskTree_dir.mpr directory) frontFits here
          (segments_element otherString) (by rwa [← split]) opens
    · cases opens

end Creating

/-! ## An image with an empty root directory -/

def createMap : Memory := storeLE rootMap (blkSize + 5) 1 1

/-- `alloc_block` where block 40 is the only one that may be free. -/
def allocForty (map : Memory) : Except Errno Nat × Memory :=
  if map (blkSize + 5) = 0 then (.error .nospc, map)
  else (.ok 40, storeLE map (blkSize + 5) 1 0)

theorem direct_holds {map : Memory} (mapValid : DirectValid map) {owner : Owner} {x : Nat}
    (holds : owner.Holds (fun _ => directStubs) (· = directIno) map x) :
    owner = .super ∧ x < superSize ∨
      owner = .inode directIno ∧ directIno ≤ x ∧ x < directIno + inodeSize ∨
      ∃ n < nDirect, owner = .block directIno n ∧ directBlock n ≤ x ∧
        x < directBlock n + blkSize := by
  cases owner with
  | super => exact Or.inl ⟨rfl, holds⟩
  | inode ino =>
      obtain ⟨rfl, inside⟩ := holds
      exact Or.inr (Or.inl ⟨rfl, inside⟩)
  | block ino n =>
      obtain ⟨rfl, blk, place, inside⟩ := holds
      obtain ⟨bound, rfl⟩ := mapValid.place place
      exact Or.inr (Or.inr ⟨n, bound, rfl, inside⟩)

def directOwner (x : Nat) : Owner :=
  if x < superSize then .super
  else if x < directBlock 0 then .inode directIno
  else .block directIno ((x - directBlock 0) / blkSize)

theorem direct_owner {map : Memory} (mapValid : DirectValid map) {owner : Owner} {x : Nat}
    (holds : owner.Holds (fun _ => directStubs) (· = directIno) map x) :
    owner = directOwner x := by
  rcases direct_holds mapValid holds with
    ⟨rfl, low⟩ | ⟨rfl, lower, upper⟩ | ⟨n, _, rfl, lower, upper⟩
  · rw [directOwner, if_pos low]
  · rw [directOwner, if_neg, if_pos]
    · simp only [directBlock, directIno, inodeSize, blkSize] at *
      omega
    · simp only [superSize, directIno, blkSize] at *
      omega
  · have number : (x - directBlock 0) / blkSize = n := by
      simp only [directBlock, blkSize] at *
      omega
    rw [directOwner, if_neg, if_neg, number]
    · simp only [directBlock, blkSize] at *
      omega
    · simp only [superSize, directBlock, blkSize] at *
      omega

theorem direct_below {map : Memory} (mapValid : DirectValid map) {owner : Owner} {x : Nat}
    (holds : owner.Holds (fun _ => directStubs) (· = directIno) map x) : x < 40 * blkSize := by
  rcases direct_holds mapValid holds with ⟨_, low⟩ | ⟨_, _, below⟩ | ⟨n, inside, _, _, below⟩
  · simp only [superSize, blkSize] at *
    omega
  · simp only [directIno, inodeSize, blkSize] at *
    omega
  · simp only [directBlock, nDirect, blkSize] at *
    omega

theorem allocForty_later {map after : Memory} (mapValid : DirectValid map)
    (outside : ∀ x, x ≠ blkSize + 5 → x < 40 * blkSize ∨ 41 * blkSize ≤ x → after x = map x) :
    DirectValid after ∧
      SameImage (fun _ => directStubs) (· = directIno) (fun _ => False) map after := by
  have word : ∀ x width, width ≤ 4 → x + width ≤ blkSize ∨
      2 * blkSize ≤ x ∧ x + width ≤ 40 * blkSize →
      loadLE after x width = loadLE map x width := by
    intro x width small apart
    apply loadLE_congr
    intro y lower upper
    apply outside y
    · simp only [blkSize] at *
      omega
    · simp only [blkSize] at *
      omega
  have slots : ∀ n < nDirect, loadLE after (directSlot n) 4 = loadLE map (directSlot n) 4 := by
    intro n inside
    apply word _ _ (Nat.le_refl _)
    simp only [directSlot, directIno, iDirect, nDirect, blkSize] at *
    omega
  obtain ⟨stays, _⟩ := mapValid.congr (word sNblocks 4 (Nat.le_refl _) (by decide)) slots
  refine ⟨stays, word _ _ (Nat.le_refl _) (by decide), word _ _ (Nat.le_refl _) (by decide),
    ?_, ?_, ?_⟩
  · rintro _ rfl x lower upper
    apply outside x
    · simp only [directIno, iMode, blkSize] at *
      omega
    · simp only [directIno, iMode, iAtime, blkSize] at *
      omega
  · rintro _ rfl _
    exact word _ _ (Nat.le_refl _) (by decide)
  · intro ino _ _ n
    by_cases inside : n < nDirect
    · apply mapValid.kept stays (slots n)
      intro x lower upper
      apply outside x
      · simp only [directBlock, blkSize] at *
        omega
      · simp only [directBlock, nDirect, blkSize] at *
        omega
    · have gone : ∀ map, DirectValid map → blockAt directStubs map n = none := by
        intro map mapValid
        rw [mapValid.blockAt, if_neg (fun both => inside both.1)]
      refine ⟨(gone after stays).trans (gone map mapValid).symm, ?_⟩
      intro blk place
      rw [gone map mapValid] at place
      cases place

theorem directStubs_new {map after : Memory} {n blk : Nat} (mapValid : DirectValid map)
    (absent : blockAt directStubs map n = none)
    (got : directStubs.getBlock map n = (.ok blk, after)) :
    SameImage (fun _ => directStubs) (· = directIno) (· = directIno) map after ∧
      AgreeOn (fun _ => 0) after blk blkSize := by
  have front : ∀ x, x < directIno + iSize → after x = map x := by
    intro x low
    have slot : directIno + iSize ≤ directSlot n := by
      simp only [directSlot, iDirect, iSize]
      omega
    have block : directIno + iSize ≤ directBlock n := by
      simp only [directBlock, directIno, iSize, blkSize]
      omega
    simp only [directStubs] at got
    split at got
    · split at got
      · obtain ⟨_, stored⟩ := Prod.mk.inj got
        rw [← stored, storeLE_outside (Or.inl (low.trans_le slot)), fill,
          if_neg (fun inside => Nat.not_le.mpr (low.trans_le block) inside.1)]
      · cases got
        rfl
    · cases got
  have fields : ∀ x, x + 4 ≤ directIno + iSize → loadLE after x 4 = loadLE map x 4 := by
    intro x low
    apply loadLE_congr
    intro y _ upper
    exact front y (upper.trans_le low)
  obtain ⟨_, _, _, zero, _⟩ := directStubs_get mapValid got
  constructor
  · refine ⟨fields _ (by decide), fields _ (by decide), ?_, ?_, ?_⟩
    · rintro _ rfl x _ upper
      exact front x (upper.trans_le (by decide))
    · intro ino here other
      exact absurd here other
    · intro ino here other
      exact absurd here other
  · rcases zero with kept | ⟨_, zero⟩
    · obtain ⟨_, _, place, _⟩ := directStubs_get mapValid got
      rw [kept.1, absent] at place
      cases place
    · exact zero

theorem directStubs_image :
    ImageDocumented (fun _ => directStubs) (· = directIno) allocForty DirectValid where
  once := by
    intro map owner other x mapValid first second
    rw [direct_owner mapValid first, direct_owner mapValid second]
  own := by
    rintro map after _ mapValid rfl same
    obtain ⟨stays, places⟩ := directStubs_documented.own mapValid same
    exact ⟨stays, fun _ _ => places⟩
  found := by
    intro map ino n blk mapValid _ place
    obtain ⟨inside, rfl⟩ := mapValid.place place
    have full : loadLE map (directSlot n) 4 ≠ 0 := by
      intro empty
      rw [mapValid.blockAt, if_neg (fun there => there.2 empty)] at place
      cases place
    simp only [directStubs, if_pos inside, if_neg full]
  new := by
    rintro map after _ n blk mapValid rfl absent got
    obtain ⟨stays, size, place, _, others⟩ := directStubs_get mapValid got
    obtain ⟨image, zero⟩ := directStubs_new mapValid absent got
    exact ⟨stays, image, size, place, zero, others⟩
  alloc := by
    intro map after number mapValid got
    rw [allocForty] at got
    split at got
    · cases got
    · obtain ⟨answer, stored⟩ := Prod.mk.inj got
      cases answer
      refine ⟨40 * blkSize, ?_, ?_, ?_⟩
      · rw [diskblock2memaddr, mapValid.blocks, if_neg (by omega)]
        simp only [blkSize]
        norm_num
      · intro owner x holds
        exact Or.inl (direct_below mapValid holds)
      · intro later outside
        apply allocForty_later mapValid
        intro x notBitmap apart
        rw [outside x (by simp only [blkSize] at *; omega), ← stored,
          storeLE_outside (by omega)]

theorem createMap_valid : DirectValid createMap :=
  ⟨by decide +kernel, by decide +kernel⟩

section Vacant

variable {map : Memory} (empty : iSizeOf directIno map = 0)

include empty

theorem vacant_slot (name : Name) :
    (diskTree (fun _ => directStubs) map directIno).slot directIno name = none := by
  rw [Tree.slot]
  split
  · simp [diskTree, dirLookup, empty, scanBlocks, Except.toOption]
  · rfl

theorem vacant_root {ino : Nat}
    (along : (diskTree (fun _ => directStubs) map directIno).Along Element ino) :
    ino = directIno := by
  obtain ⟨names, _, here⟩ := along
  cases names with
  | nil => exact (Option.some.inj here).symm
  | cons name rest =>
      rw [Tree.resolve, RadixTree.descend] at here
      rw [show (diskTree (fun _ => directStubs) map directIno).root = directIno from rfl,
        vacant_slot empty] at here
      cases here

theorem vacant_shaped : Shaped (fun _ => directStubs) (· = directIno) map directIno := by
  have directories : Directories (fun _ => directStubs) (· = directIno) map directIno := by
    constructor
    · intro dir along _
      exact vacant_root empty along
    · intro dir along _
      rw [vacant_root empty along, empty]
      rfl
    · intro dir along _ n below
      rw [vacant_root empty along, empty] at below
      exact absurd below (Nat.not_lt_zero n)
    · intro dir along _
      rw [vacant_root empty along]
      constructor
      · intro k member
        simp [entriesOf, empty] at member
      · intro j member
        simp [entriesOf, empty] at member
  refine ⟨directories, ?_, ?_, ?_⟩
  · intro ino along
    exact vacant_root empty along
  · intro dir along _
    rw [vacant_root empty along, empty]
    norm_num
  · constructor
    · intro dir name along _ found
      rw [vacant_root empty along, vacant_slot empty] at found
      cases found
    · intro dir other name later ino along _ _ _ found
      rw [vacant_root empty along, vacant_slot empty] at found
      cases found

end Vacant

theorem createMap_wellFormed :
    WellFormed (fun _ => directStubs) (· = directIno) createMap directIno := by
  have empty : iSizeOf directIno createMap = 0 := by decide +kernel
  refine ⟨vacant_shaped empty, ?_⟩
  intro dir along _ i _ _
  apply byteAt_none
  rw [createMap_valid.blockAt, if_neg]
  rintro ⟨inside, full⟩
  have zero : ∀ n < nDirect, loadLE createMap (directSlot n) 4 = 0 := by decide +kernel
  exact full (zero _ inside)

/-- The path `/a` in an empty root directory. -/
theorem inodeCreate_creates_sample : ∃ after,
    inodeCreate (fun _ => directStubs) allocForty createMap [47, 97] =
        (.ok (40 * blkSize), after) ∧
      Creates (fun _ => directStubs) directIno [47, 97] (40 * blkSize) createMap after ∧
      inodeCreate (fun _ => directStubs) allocForty createMap [47] =
        (.error (.errno .exist), createMap) := by
  have made : (inodeCreate (fun _ => directStubs) allocForty createMap [47, 97]).1 =
      .ok (40 * blkSize) := by
    decide +kernel
  have super : diskblock2memaddr createMap (loadLE createMap sRoot 4) = .ok directIno := by
    decide +kernel
  have top : Opens (fun _ => directStubs) createMap [47] directIno := by
    rw [Opens]
    decide +kernel
  have string : (0 : UInt8) ∉ ([47, 97] : List UInt8) := by decide
  have alone : (0 : UInt8) ∉ ([47] : List UInt8) := by decide
  cases ran : inodeCreate (fun _ => directStubs) allocForty createMap [47, 97] with
  | mk result after =>
      rw [ran] at made
      obtain rfl : result = .ok (40 * blkSize) := made
      refine ⟨after, rfl, ?_, ?_⟩
      · exact (inodeCreate_creates directStubs_image createMap_valid createMap_wellFormed super
          string).1 _ _ ran
      · exact (inodeCreate_creates directStubs_image createMap_valid createMap_wellFormed super
          alone).2 directIno top

/-- The same image where the first block of the root directory is there behind its size of
zero, and entry 1 of it still has the name `z` and the number of block 30. -/
def staleMap : Memory :=
  storeLE (storeLE (storeLE createMap (directSlot 0) 4 16)
    (directBlock 0 + direntSize + dInum) 4 30) (directBlock 0 + direntSize + dName) 1 122

/-- `inode_create` of `/a` grows the root over the old entry, and `/z` resolves. -/
theorem inodeCreate_uncovers :
    ImageDocumented (fun _ => directStubs) (· = directIno) allocForty DirectValid ∧
      DirectValid staleMap ∧ Shaped (fun _ => directStubs) (· = directIno) staleMap directIno ∧
      diskblock2memaddr staleMap (loadLE staleMap sRoot 4) = .ok directIno ∧
      ∃ after, inodeCreate (fun _ => directStubs) allocForty staleMap [47, 97] =
          (.ok (40 * blkSize), after) ∧
        ¬ Opens (fun _ => directStubs) staleMap [47, 122] (30 * blkSize) ∧
        Opens (fun _ => directStubs) after [47, 122] (30 * blkSize) ∧
        ¬ Creates (fun _ => directStubs) directIno [47, 97] (40 * blkSize) staleMap after := by
  have empty : iSizeOf directIno staleMap = 0 := by decide +kernel
  have made : (inodeCreate (fun _ => directStubs) allocForty staleMap [47, 97]).1 =
      .ok (40 * blkSize) := by
    decide +kernel
  have closed : ¬ Opens (fun _ => directStubs) staleMap [47, 122] (30 * blkSize) := by
    rw [Opens]
    decide +kernel
  have opened : Opens (fun _ => directStubs)
      (inodeCreate (fun _ => directStubs) allocForty staleMap [47, 97]).2 [47, 122]
      (30 * blkSize) := by
    rw [Opens]
    decide +kernel
  have slots : ∀ n < nDirect, loadLE staleMap (directSlot n) 4 = 0 ∨
      loadLE staleMap (directSlot n) 4 = 16 + n := by
    decide +kernel
  have blocks : loadLE staleMap sNblocks 4 = 64 := by decide +kernel
  have super : diskblock2memaddr staleMap (loadLE staleMap sRoot 4) = .ok directIno := by
    decide +kernel
  refine ⟨directStubs_image, ⟨blocks, slots⟩, vacant_shaped empty, super, ?_⟩
  cases ran : inodeCreate (fun _ => directStubs) allocForty staleMap [47, 97] with
  | mk result after =>
      rw [ran] at made opened
      obtain rfl : result = .ok (40 * blkSize) := made
      refine ⟨after, rfl, closed, opened, ?_⟩
      intro creates
      have string : (0 : UInt8) ∉ ([47, 122] : List UInt8) := by decide
      have other : segments [47, 122] ≠ segments [47, 97] := by decide +kernel
      exact closed (creates.only [47, 122] _ string other opened)

end OsLabs.Fs
