import OsLabs.Fs.InodeWrite

/-!
# Directories

`dir_lookup` and `dir_alloc_dirent` of dir.c.  A directory is a file of entries; both go
through its blocks and then through the entries of each.
-/

set_option autoImplicit false

namespace OsLabs.Fs

open OsLabs.ByteMemory

/-- `BLKDIRENTS`. -/
abbrev blkDirents : Nat := blkSize / direntSize

/-- `strcmp` gives zero.  The name stands without its final zero. -/
def strcmpZero (s : Nat → UInt8) : List UInt8 → Bool
  | [] => s 0 == 0
  | byte :: rest => s 0 == byte && strcmpZero (fun i => s (i + 1)) rest

section Calls

variable (stubs : InodeStubs) (dir : Nat)

/-- The loops of both functions, over `togo` blocks from block `i` on: the first entry that
passes the test. -/
def scanBlocks (test : Memory → Nat → Bool) :
    Nat → Nat → Memory → Except Stop (Option Nat) × Memory
  | 0, _, map => (.ok none, map)
  | togo + 1, i, map =>
      match stubs.getBlock map i with
      | (.error number, map) => (.error (.errno number), map)
      | (.ok blk, map) =>
          match (List.range blkDirents).find? fun j => test map (blk + j * direntSize) with
          | some j => (.ok (some (blk + j * direntSize)), map)
          | none => scanBlocks test togo (i + 1) map

def nameMatches (name : List UInt8) (map : Memory) (d : Nat) : Bool :=
  strcmpZero (fun i => map (d + dName + i)) name

def entryFree (map : Memory) (d : Nat) : Bool := map (d + dName) == 0

def dirLookup (map : Memory) (name : List UInt8) : Except Stop (Nat × Nat) × Memory :=
  if iSizeOf dir map % blkSize ≠ 0 then (.error .assertion, map)
  else
    match scanBlocks stubs (nameMatches name) (iSizeOf dir map / blkSize) 0 map with
    | (.error stopped, map) => (.error stopped, map)
    | (.ok none, map) => (.error (.errno .noent), map)
    | (.ok (some d), map) =>
        ((diskblock2memaddr map (loadLE map (d + dInum) 4)).map fun ino => (d, ino), map)

def dirAllocDirent (map : Memory) : Except Stop Nat × Memory :=
  if iSizeOf dir map % blkSize ≠ 0 then (.error .assertion, map)
  else
    let nblock := iSizeOf dir map / blkSize
    match scanBlocks stubs entryFree nblock 0 map with
    | (.error stopped, map) => (.error stopped, map)
    | (.ok (some d), map) => (.ok d, map)
    | (.ok none, map) =>
        let map := storeLE map (dir + iSize) 4 ((iSizeOf dir map + blkSize) % 2 ^ 32)
        match stubs.getBlock map nblock with
        | (.error number, map) => (.error (.errno number), map)
        | (.ok blk, map) => (.ok blk, map)

end Calls

/-! ## The entries of a directory -/

/-- The name of an entry, by its number in the bytes of the directory. -/
def NameAt (bytes : Nat → UInt8) (k : Nat) (name : List UInt8) : Bool :=
  strcmpZero (fun i => bytes (k * direntSize + dName + i)) name

theorem strcmpZero_congr {s t : Nat → UInt8} {name : List UInt8}
    (same : ∀ i ≤ name.length, s i = t i) : strcmpZero s name = strcmpZero t name := by
  induction name generalizing s t with
  | nil =>
      rw [strcmpZero, strcmpZero, same 0 (Nat.zero_le _)]
  | cons byte rest ih =>
      have head := same 0 (Nat.zero_le _)
      have tail := @ih (fun i => s (i + 1)) (fun i => t (i + 1))
        (fun i below => same (i + 1) (by simpa using below))
      rw [strcmpZero, strcmpZero, head, tail]

theorem entry_place {n j : Nat} (inside : j < blkDirents) :
    (n * blkDirents + j) / blkDirents = n ∧ (n * blkDirents + j) % blkDirents = j := by
  simp only [blkDirents, blkSize, direntSize] at *
  omega

section Scan

variable {stubs : InodeStubs} {place : Memory → Prop}

/-- The loops find the first entry that passes the test, when every block is there. -/
theorem scanBlocks_first {test : Memory → Nat → Bool} {good : Nat → Bool} {address : Nat → Nat}
    {togo i : Nat} {map : Memory} (here : place map)
    (blocks : ∀ map n, place map → i ≤ n → n < i + togo →
      ∃ after, stubs.getBlock map n = (.ok (address n), after) ∧ place after)
    (tests : ∀ map n j, place map → i ≤ n → n < i + togo → j < blkDirents →
      test map (address n + j * direntSize) = good (n * blkDirents + j)) :
    ∃ after, place after ∧ scanBlocks stubs test togo i map =
      (.ok (((List.range' (i * blkDirents) (togo * blkDirents)).find? good).map fun k =>
        address (k / blkDirents) + k % blkDirents * direntSize), after) := by
  induction togo generalizing i map with
  | zero =>
      refine ⟨map, here, ?_⟩
      rw [Nat.zero_mul]
      rfl
  | succ togo ih =>
      obtain ⟨got, gotten, there⟩ := blocks map i here (Nat.le_refl _) (by omega)
      obtain ⟨after, last, later⟩ := @ih (i + 1) got there
        (fun map n at_place lower upper => blocks map n at_place (by omega) (by omega))
        (fun map n j at_place lower upper => tests map n j at_place (by omega) (by omega))
      have block : (List.range blkDirents).find? (fun j => test got (address i + j * direntSize)) =
          (List.range blkDirents).find? (fun j => good (i * blkDirents + j)) := by
        apply List.find?_congr
        intro j member
        exact tests got i j there (Nat.le_refl _) (by omega) (List.mem_range.mp member)
      have front : (List.range' (i * blkDirents) blkDirents).find? good =
          ((List.range blkDirents).find? fun j => good (i * blkDirents + j)).map
            (i * blkDirents + ·) := by
        rw [List.range'_eq_map_range, List.find?_map]
        rfl
      have whole : List.range' (i * blkDirents) ((togo + 1) * blkDirents) =
          List.range' (i * blkDirents) blkDirents ++
            List.range' ((i + 1) * blkDirents) (togo * blkDirents) := by
        rw [Nat.succ_mul, Nat.succ_mul, Nat.add_comm (togo * blkDirents),
          List.range'_append_1]
      rw [scanBlocks, whole, List.find?_append, front]
      simp only [gotten, block]
      cases found : (List.range blkDirents).find? (fun j => good (i * blkDirents + j)) with
      | some j =>
          have inside : j < blkDirents := List.mem_range.mp (List.mem_of_find?_eq_some found)
          refine ⟨got, there, ?_⟩
          simp only [Option.map_some, Option.some_or, entry_place inside]
      | none =>
          refine ⟨after, last, ?_⟩
          simpa only [Option.map_none, Option.none_or] using later

end Scan

section Lookup

variable {stubs : InodeStubs} {dir : Nat} {valid : Memory → Prop} {map : Memory}

/-- `inode_get_block` on a directory also leaves the superblock. -/
structure DirDocumented (stubs : InodeStubs) (dir : Nat) (valid : Memory → Prop) : Prop
    extends DocumentedErrors stubs dir valid where
  superblock : ∀ {map map' n answer}, valid map → stubs.getBlock map n = (answer, map') →
    loadLE map' sNblocks 4 = loadLE map sNblocks 4

structure SameFile (stubs : InodeStubs) (ino : Nat) (valid : Memory → Prop)
    (before after : Memory) : Prop where
  valid : valid after
  size : iSizeOf ino after = iSizeOf ino before
  blocks : ∀ n, Kept stubs before after n
  superblock : loadLE after sNblocks 4 = loadLE before sNblocks 4

theorem Kept.trans {first second third : Memory} {n : Nat} (front : Kept stubs first second n)
    (back : Kept stubs second third n) : Kept stubs first third n := by
  constructor
  · exact back.1.trans front.1
  · intro blk place
    exact (front.2 blk place).trans (back.2 blk (front.1.trans place))

theorem SameFile.refl (mapValid : valid map) : SameFile stubs dir valid map map where
  valid := mapValid
  size := rfl
  blocks := fun _ => ⟨rfl, fun _ _ _ _ _ => rfl⟩
  superblock := rfl

theorem SameFile.byteAt {after : Memory} (same : SameFile stubs dir valid map after) :
    byteAt stubs after = byteAt stubs map := by
  funext i
  exact (same.blocks (i / blkSize)).byteAt

def Allocated (stubs : InodeStubs) (dir : Nat) (map : Memory) : Prop :=
  ∀ n < iSizeOf dir map / blkSize, blockAt stubs map n ≠ none

def dirBlock (stubs : InodeStubs) (map : Memory) (n : Nat) : Nat :=
  (blockAt stubs map n).getD 0

def entryAddress (stubs : InodeStubs) (map : Memory) (k : Nat) : Nat :=
  dirBlock stubs map (k / blkDirents) + k % blkDirents * direntSize

def entriesOf (dir : Nat) (map : Memory) : List Nat :=
  List.range (iSizeOf dir map / blkSize * blkDirents)

theorem dirBlock_eq {n a : Nat} (place : blockAt stubs map n = some a) :
    dirBlock stubs map n = a := by
  rw [dirBlock, place]
  rfl

theorem entry_byte {n j x : Nat} (there : blockAt stubs map n ≠ none) (inside : j < blkDirents)
    (within : x < direntSize) :
    byteAt stubs map ((n * blkDirents + j) * direntSize + x) =
      map (dirBlock stubs map n + j * direntSize + x) := by
  obtain ⟨a, place⟩ := Option.ne_none_iff_exists'.mp there
  have block : ((n * blkDirents + j) * direntSize + x) / blkSize = n := by
    simp only [blkDirents, blkSize, direntSize] at *
    omega
  have offset : ((n * blkDirents + j) * direntSize + x) % blkSize = j * direntSize + x := by
    simp only [blkDirents, blkSize, direntSize] at *
    omega
  rw [byteAt_some (block ▸ place), offset, dirBlock_eq place, Nat.add_assoc]

theorem nameMatches_eq {name : List UInt8} (short : name.length < nameMax) {n j : Nat}
    (there : blockAt stubs map n ≠ none) (inside : j < blkDirents) :
    nameMatches name map (dirBlock stubs map n + j * direntSize) =
      NameAt (byteAt stubs map) (n * blkDirents + j) name := by
  apply strcmpZero_congr
  intro i below
  have within : dName + i < direntSize := by
    simp only [dName, direntSize, nameMax] at *
    omega
  have byte := entry_byte there inside within
  rw [← Nat.add_assoc, ← Nat.add_assoc] at byte
  exact byte.symm

theorem entryFree_eq {n j : Nat} (there : blockAt stubs map n ≠ none) (inside : j < blkDirents) :
    entryFree map (dirBlock stubs map n + j * direntSize) =
      (byteAt stubs map ((n * blkDirents + j) * direntSize + dName) == 0) := by
  rw [entryFree, entry_byte there inside (by decide)]

/-- `inode_get_block` returns the blocks that are there and changes nothing of the
directory. -/
def Returns (stubs : InodeStubs) (dir : Nat) (valid : Memory → Prop) : Prop :=
  ∀ map, valid map → ∀ n, blockAt stubs map n ≠ none →
    ∃ after, stubs.getBlock map n = (.ok (dirBlock stubs map n), after) ∧
      SameFile stubs dir valid map after

theorem DirDocumented.returns (doc : DirDocumented stubs dir valid) :
    Returns stubs dir valid := by
  intro map mapValid n there
  obtain ⟨a, place⟩ := Option.ne_none_iff_exists'.mp there
  obtain ⟨after, got⟩ := doc.found mapValid place
  obtain ⟨stays, size, _, here, others⟩ := doc.get mapValid got
  rw [dirBlock_eq place]
  refine ⟨after, got, stays, size, ?_, doc.superblock mapValid got⟩
  intro m
  by_cases same : m = n
  · rcases here with kept | ⟨absent, _⟩
    · rwa [same]
    · exact absurd absent there
  · exact others m same

theorem Returns.scan (returns : Returns stubs dir valid) (mapValid : valid map)
    (allocated : Allocated stubs dir map) {test : Memory → Nat → Bool} {good : Nat → Bool}
    (tests : ∀ after n j, SameFile stubs dir valid map after → blockAt stubs map n ≠ none →
      j < blkDirents →
      test after (dirBlock stubs map n + j * direntSize) = good (n * blkDirents + j)) :
    ∃ after, SameFile stubs dir valid map after ∧
      scanBlocks stubs test (iSizeOf dir map / blkSize) 0 map =
        (.ok (((entriesOf dir map).find? good).map (entryAddress stubs map)), after) := by
  obtain ⟨after, same, scanned⟩ := @scanBlocks_first stubs (SameFile stubs dir valid map) test
    good (dirBlock stubs map) (iSizeOf dir map / blkSize) 0 map (SameFile.refl mapValid) (by
      intro middle n same _ upper
      have there : blockAt stubs middle n ≠ none := by
        rw [(same.blocks n).1]
        exact allocated n (by omega)
      obtain ⟨after, got, next⟩ := returns middle same.valid n there
      have place : dirBlock stubs middle n = dirBlock stubs map n := by
        rw [dirBlock, (same.blocks n).1]
        rfl
      rw [place] at got
      refine ⟨after, got, next.valid, next.size.trans same.size, ?_,
        next.superblock.trans same.superblock⟩
      intro m
      exact (same.blocks m).trans (next.blocks m)) (by
      intro middle n j same _ upper inside
      exact tests middle n j same (allocated n (by omega)) inside)
  refine ⟨after, same, ?_⟩
  rw [scanned, Nat.zero_mul, ← List.range_eq_range']
  rfl

theorem diskblock2memaddr_congr {after : Memory} {blockno : Nat}
    (same : loadLE after sNblocks 4 = loadLE map sNblocks 4) :
    diskblock2memaddr after blockno = diskblock2memaddr map blockno := by
  rw [diskblock2memaddr, diskblock2memaddr, same]

def entryInum (bytes : Nat → UInt8) (k : Nat) : Nat := loadLE bytes (k * direntSize + dInum) 4

def entryFound (stubs : InodeStubs) (map : Memory) (k : Nat) : Except Stop (Nat × Nat) :=
  (diskblock2memaddr map (entryInum (byteAt stubs map) k)).map fun ino =>
    (entryAddress stubs map k, ino)

def firstNamed (stubs : InodeStubs) (dir : Nat) (map : Memory) (name : List UInt8) :
    Except Stop (Nat × Nat) :=
  match (entriesOf dir map).find? fun k => NameAt (byteAt stubs map) k name with
  | none => .error (.errno .noent)
  | some k => entryFound stubs map k

theorem SameFile.dirBlock {after : Memory} (same : SameFile stubs dir valid map after) (n : Nat) :
    dirBlock stubs after n = Fs.dirBlock stubs map n := by
  rw [Fs.dirBlock, (same.blocks n).1]
  rfl

theorem Returns.lookup (returns : Returns stubs dir valid) (mapValid : valid map)
    (whole : iSizeOf dir map % blkSize = 0) (allocated : Allocated stubs dir map)
    {name : List UInt8} (short : name.length < nameMax) :
    ∃ after, SameFile stubs dir valid map after ∧
      dirLookup stubs dir map name = (firstNamed stubs dir map name, after) := by
  obtain ⟨after, same, scanned⟩ := @Returns.scan _ _ _ _ returns mapValid allocated
    (nameMatches name) (fun k => NameAt (byteAt stubs map) k name) (by
      intro middle n j same there inside
      rw [← (same.blocks n).1] at there
      rw [← same.byteAt, ← same.dirBlock]
      exact nameMatches_eq short there inside)
  refine ⟨after, same, ?_⟩
  rw [dirLookup, if_neg (by omega), scanned, firstNamed]
  cases found : (entriesOf dir map).find? fun k => NameAt (byteAt stubs map) k name with
  | none => rfl
  | some k =>
      have inside : k < iSizeOf dir map / blkSize * blkDirents :=
        List.mem_range.mp (List.mem_of_find?_eq_some found)
      have block : k / blkDirents < iSizeOf dir map / blkSize :=
        Nat.div_lt_of_lt_mul (by rwa [Nat.mul_comm])
      have there : blockAt stubs after (k / blkDirents) ≠ none := by
        rw [(same.blocks _).1]
        exact allocated _ block
      have number : loadLE after (entryAddress stubs map k + dInum) 4 =
          entryInum (byteAt stubs map) k := by
        apply loadLE_copy
        intro i below
        have byte := entry_byte there (Nat.mod_lt k (show 0 < blkDirents by decide))
          (x := dInum + i) (by simp only [dInum, direntSize]; omega)
        rw [Nat.div_add_mod', same.byteAt, same.dirBlock, ← Nat.add_assoc, ← Nat.add_assoc] at byte
        exact byte.symm
      simp only [Option.map_some, entryFound, number, diskblock2memaddr_congr same.superblock]

/-! ## dir_alloc_dirent -/

def HasFree (stubs : InodeStubs) (dir : Nat) (map : Memory) : Prop :=
  ∃ k ∈ entriesOf dir map, byteAt stubs map (k * direntSize + dName) = 0

theorem Returns.scan_free (returns : Returns stubs dir valid) (mapValid : valid map)
    (allocated : Allocated stubs dir map) :
    ∃ after, SameFile stubs dir valid map after ∧
      scanBlocks stubs entryFree (iSizeOf dir map / blkSize) 0 map =
        (.ok (((entriesOf dir map).find? fun k =>
          byteAt stubs map (k * direntSize + dName) == 0).map (entryAddress stubs map)),
          after) := by
  apply returns.scan mapValid allocated
  intro middle n j same there inside
  rw [← (same.blocks n).1] at there
  rw [← same.byteAt, ← same.dirBlock]
  exact entryFree_eq there inside

theorem Returns.alloc_free (returns : Returns stubs dir valid) (mapValid : valid map)
    (whole : iSizeOf dir map % blkSize = 0) (allocated : Allocated stubs dir map)
    (free : HasFree stubs dir map) :
    ∃ d after, dirAllocDirent stubs dir map = (.ok d, after) := by
  obtain ⟨after, _, scanned⟩ := returns.scan_free mapValid allocated
  obtain ⟨k, member, zero⟩ := free
  cases found : (entriesOf dir map).find?
      fun k => byteAt stubs map (k * direntSize + dName) == 0 with
  | none =>
      have used := List.find?_eq_none.mp found k member
      rw [zero] at used
      exact absurd rfl used
  | some first =>
      rw [found] at scanned
      refine ⟨entryAddress stubs map first, after, ?_⟩
      simp only [dirAllocDirent, whole, ne_eq, not_true, if_false, scanned, Option.map_some]

/-- `dir_alloc_dirent` in an allocated directory without a free entry goes on to the block
after the last, with the size of the larger directory. -/
theorem DirDocumented.alloc_full (doc : DirDocumented stubs dir valid) (mapValid : valid map)
    (whole : iSizeOf dir map % blkSize = 0) (allocated : Allocated stubs dir map)
    (full : ¬ HasFree stubs dir map) :
    ∃ grown, valid grown ∧ iSizeOf dir grown = (iSizeOf dir map + blkSize) % 2 ^ 32 ∧
      (∀ n, blockAt stubs grown n = blockAt stubs map n) ∧
      ∀ answer after, stubs.getBlock grown (iSizeOf dir map / blkSize) = (answer, after) →
        dirAllocDirent stubs dir map = (answer.mapError .errno, after) := by
  obtain ⟨last, same, scanned⟩ := doc.returns.scan_free mapValid allocated
  have none_free : (entriesOf dir map).find?
      (fun k => byteAt stubs map (k * direntSize + dName) == 0) = none := by
    apply List.find?_eq_none.mpr
    intro k member zero
    exact full ⟨k, member, by simpa using zero⟩
  rw [none_free] at scanned
  obtain ⟨stays, size, places, _⟩ := doc.storeSize same.valid
    (Nat.mod_lt (iSizeOf dir last + blkSize) (show 0 < 2 ^ 32 by norm_num)) rfl
  refine ⟨_, stays, ?_, ?_, ?_⟩
  · rw [size, same.size]
  · intro n
    exact (places n).trans (same.blocks n).1
  · intro answer after got
    simp only [dirAllocDirent, whole, ne_eq, not_true, if_false, scanned, Option.map_none, got]
    cases answer <;> rfl

/-- The directory keeps its size, its entries and its blocks, and lookups go as before. -/
structure StillUsable (stubs : InodeStubs) (dir : Nat) (before after : Memory) : Prop where
  size : iSizeOf dir after = iSizeOf dir before
  entries : ∀ i < iSizeOf dir before, byteAt stubs after i = byteAt stubs before i
  blocks : Allocated stubs dir after
  present : ∀ name d ino, name.length < nameMax → 0 ∉ name →
    (dirLookup stubs dir before name).1 = .ok (d, ino) →
    (dirLookup stubs dir after name).1 = .ok (d, ino)
  absent : ∀ name, name.length < nameMax → 0 ∉ name →
    (∀ k ∈ entriesOf dir before, NameAt (byteAt stubs before) k name = false) →
    (dirLookup stubs dir after name).1 = .error (.errno .noent)

/-- A failing `dir_alloc_dirent` leaves the directory usable, whichever of its missing blocks
the disk has no room for. -/
def ExtensionKeeps (stubs : InodeStubs) (dir : Nat) (map : Memory) : Prop :=
  ∀ (getBlock : Memory → Nat → Except Errno Nat × Memory) (valid : Memory → Prop),
    DirDocumented { stubs with getBlock := getBlock } dir valid → valid map →
    ∀ number after, dirAllocDirent { stubs with getBlock := getBlock } dir map =
        (.error (.errno number), after) →
      StillUsable { stubs with getBlock := getBlock } dir map after

theorem DirDocumented.refusing (doc : DirDocumented stubs dir valid) (block : Nat) :
    DirDocumented (stubs.refusing block) dir
      fun map => valid map ∧ blockAt stubs map block = none where
  toDocumentedErrors := doc.toDocumentedErrors.refusing block
  superblock := by
    intro map after n answer mapValid got
    simp only [InodeStubs.refusing] at got
    split at got
    · cases got
      rfl
    · exact doc.superblock mapValid.1 got

/-- A failing `dir_alloc_dirent` is harmless exactly where it cannot fail. -/
theorem dirAllocDirent_failure_iff (doc : DirDocumented stubs dir valid) (mapValid : valid map)
    (whole : iSizeOf dir map % blkSize = 0) (allocated : Allocated stubs dir map) :
    ExtensionKeeps stubs dir map ↔
      HasFree stubs dir map ∨ blockAt stubs map (iSizeOf dir map / blkSize) ≠ none := by
  constructor
  · intro keeps
    by_contra neither
    obtain ⟨full, absent⟩ := not_or.mp neither
    have missing := not_not.mp absent
    have refusing := doc.refusing (iSizeOf dir map / blkSize)
    obtain ⟨grown, stays, size, places, ends⟩ :=
      refusing.alloc_full ⟨mapValid, missing⟩ whole allocated full
    have refused : (stubs.refusing (iSizeOf dir map / blkSize)).getBlock grown
        (iSizeOf dir map / blkSize) = (.error .nospc, grown) := by
      simp only [InodeStubs.refusing, stays.2, and_self, if_true]
    have same := (keeps _ _ refusing ⟨mapValid, missing⟩ _ _ (ends _ _ refused)).size
    rw [size] at same
    simp only [blkSize] at *
    omega
  · intro possible getBlock valid' doc' mapValid' number after ran
    by_cases free : HasFree stubs dir map
    · obtain ⟨d, last, found⟩ := doc'.returns.alloc_free mapValid' whole allocated free
      rw [found] at ran
      cases ran
    · have there := possible.resolve_left free
      obtain ⟨grown, stays, _, places, ends⟩ := doc'.alloc_full mapValid' whole allocated free
      obtain ⟨last, got, _⟩ := doc'.returns grown stays (iSizeOf dir map / blkSize)
        (by rw [places]; exact there)
      rw [ends _ _ got] at ran
      cases ran

end Lookup

theorem directStubs_directory : DirDocumented directStubs directIno DirectValid where
  toDocumentedErrors := directStubs_documented
  superblock := by
    intro map after n answer mapValid got
    have stays : DirectValid after := by
      cases answer with
      | error number => exact (directStubs_documented.refused mapValid got).1
      | ok a => exact (directStubs_documented.get mapValid got).1
    rw [mapValid.blocks, stays.blocks]

theorem directMap_allocated :
    iSizeOf directIno directMap % blkSize = 0 ∧ Allocated directStubs directIno directMap := by
  rw [directMap_fresh.size]
  constructor
  · rfl
  · intro n below
    rw [directMap_fresh.size] at below
    exact absurd below (Nat.not_lt_zero n)

/-- A directory without blocks. -/
theorem dirAllocDirent_failure_iff_sample : ¬ ExtensionKeeps directStubs directIno directMap := by
  obtain ⟨whole, allocated⟩ := directMap_allocated
  rw [dirAllocDirent_failure_iff directStubs_directory directMap_fresh.valid whole allocated]
  rintro (⟨k, member, _⟩ | there)
  · simp [entriesOf, directMap_fresh.size] at member
  · exact there (directMap_fresh.blocks _)

/-- The disk is full, and the directory has a block less than its size says. -/
theorem dirAllocDirent_failure_breaks :
    ¬ ∀ (stubs : InodeStubs) (dir : Nat) (valid : Memory → Prop) (map : Memory)
      (number : Errno) (after : Memory), DirDocumented stubs dir valid → valid map →
      iSizeOf dir map % blkSize = 0 → Allocated stubs dir map →
      dirAllocDirent stubs dir map = (.error (.errno number), after) →
      StillUsable stubs dir map after := by
  intro always
  obtain ⟨whole, allocated⟩ := directMap_allocated
  obtain ⟨result, after, ran⟩ : ∃ result after,
      dirAllocDirent (directStubs.refusing 0) directIno directMap = (result, after) :=
    ⟨_, _, rfl⟩
  have answer : (dirAllocDirent (directStubs.refusing 0) directIno directMap).1 =
      .error (.errno .nospc) := by
    decide +kernel
  have size : iSizeOf directIno
      (dirAllocDirent (directStubs.refusing 0) directIno directMap).2 = 4096 := by
    decide +kernel
  rw [ran] at answer size
  have usable := always _ _ _ _ _ _ (directStubs_directory.refusing 0)
    ⟨directMap_fresh.valid, directMap_fresh.blocks 0⟩ whole allocated
    (ran.trans (congrArg (·, after) (show result = _ from answer)))
  have same : (4096 : Nat) = 0 := 
    size.symm.trans (usable.size.trans directMap_fresh.size)
  cases same

end OsLabs.Fs
