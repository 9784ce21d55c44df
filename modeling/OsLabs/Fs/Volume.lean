import OsLabs.Fs.Driver

/-!
# A volume of files

What the driver should show of an image from fsformat: the files with their names and
contents, and nodes whose headers change.  Behind it stands how the driver reads an inode
that lies in its place.
-/

set_option autoImplicit false

namespace OsLabs.Fs

open OsLabs.ByteMemory OsLabs.ExceptRules

/-! ## The volume -/

inductive Node where
  | root
  | file (k : Nat)
  deriving DecidableEq, Repr

structure Volume where
  files : List InputFile
  nblocks : Nat
  used : Nat

structure VolumeState where
  header : Node → Header
  handles : List Node

section Volume

variable (volume : Volume)

def Volume.Has : Node → Prop
  | .root => True
  | .file k => k < volume.files.length

/-- The contents of a file; those of the root are for the driver alone. -/
def Volume.contents : Node → List UInt8
  | .root => []
  | .file k => (volume.files[k]?.map InputFile.contents).getD []

def Volume.size : Node → Nat
  | .root => directorySize volume.files.length
  | .file k => (volume.contents (.file k)).length

/-- One element of a path; the first file with the name counts. -/
def Volume.step (node : Node) (name : Name) : Except Errno Node :=
  if nameMax ≤ name.length then .error .inval
  else
    match node with
    | .file _ => .error .noent
    | .root =>
        match volume.files.findIdx? fun file => basename file.name = name with
        | none => .error .noent
        | some k => .ok (.file k)

def Volume.find (path : List UInt8) : Except Errno Node :=
  if pathMax ≤ path.length then .error .nametoolong
  else (segments path).foldlM volume.step .root

def Volume.stat (state : VolumeState) (node : Node) : Stat where
  mode := (state.header node).mode
  size := volume.size node
  blksize := blkSize
  blocks := dataBlocks (volume.size node) * (blkSize / 512) % 2 ^ 32
  nlink := (state.header node).nlink
  mtime := (state.header node).mtime
  atime := (state.header node).atime
  ctime := (state.header node).ctime
  uid := (state.header node).uid
  gid := (state.header node).gid
  rdev := (state.header node).rdev

/-- The names from entry `k` on, with the offsets behind them. -/
def Volume.namesFrom (k : Nat) : List (Name × Nat) :=
  ((List.range' k (volume.files.length - k)).map fun entry =>
    ((volume.files[entry]?.map fun file => basename file.name).getD [],
      (entry + 1) * direntSize)).filter fun entry => entry.1 ≠ []

/-- The names that a filler takes, and whether it refuses one. -/
def acceptNames {α : Type} (accept : Nat → Bool) : List α → Nat → List α × Bool
  | [], _ => ([], false)
  | name :: rest, passed =>
      if accept passed then
        let (later, refused) := acceptNames accept rest (passed + 1)
        (name :: later, refused)
      else ([], true)

def Volume.space : Statvfs :=
  let free := volume.nblocks - volume.used
  ⟨blkSize, blkSize, volume.nblocks, fsMagic, pathMax, free, free⟩

def VolumeState.set (state : VolumeState) (node : Node) (header : Header) : VolumeState :=
  { state with header := Function.update state.header node header }

def Volume.onPath (state : VolumeState) (path : List UInt8)
    (body : Node → Answer × VolumeState) : Answer × VolumeState :=
  match volume.find path with
  | .error number => (.failed (.stop (.errno number)), state)
  | .ok node => body node

def VolumeState.onHandle (state : VolumeState) (handle : Nat)
    (body : Node → Answer × VolumeState) : Answer × VolumeState :=
  match state.handles[handle]? with
  | none => (.badHandle, state)
  | some node => body node

/-- A header but for the times, which the root may not get. -/
def VolumeState.change (state : VolumeState) (node : Node) (header : Header) (time : Nat) :
    Answer × VolumeState :=
  if node = .root then (.failed .perm, state)
  else (.done, state.set node { header with ctime := time % 2 ^ 64 })

def Volume.answer (time : Nat) (state : VolumeState) : Request → Answer × VolumeState
  | .getattr path =>
      volume.onPath state path fun node => (.stat (volume.stat state node), state)
  | .fgetattr handle =>
      state.onHandle handle fun node => (.stat (volume.stat state node), state)
  | .opens path =>
      volume.onPath state path fun node =>
        (.opened, { state with handles := state.handles ++ [node] })
  | .read handle count offset =>
      state.onHandle handle fun node =>
        (.bytes (((volume.contents node).drop offset).take count),
          state.set node { state.header node with atime := time % 2 ^ 64 })
  | .readdir handle offset _ accept =>
      state.onHandle handle fun node =>
        let (names, refused) := acceptNames accept (volume.namesFrom (offset / direntSize)) 0
        (.names names refused,
          if refused then state
          else state.set node { state.header node with atime := time % 2 ^ 64 })
  | .statfs => (.space volume.space, state)
  | .fsync handle => state.onHandle handle fun _ => (.done, state)
  | .utimens path atime mtime =>
      volume.onPath state path fun node =>
        (.done, state.set node { state.header node with
          atime := atime % 2 ^ 64, mtime := mtime % 2 ^ 64, ctime := time % 2 ^ 64 })
  | .chmod path mode =>
      volume.onPath state path fun node =>
        state.change node { state.header node with mode := mode % 2 ^ 32 } time
  | .chown path uid gid =>
      volume.onPath state path fun node =>
        let header := state.header node
        state.change node { header with
          uid := if uid ≠ keepId then uid % 2 ^ 32 else header.uid
          gid := if gid ≠ keepId then gid % 2 ^ 32 else header.gid } time

def Volume.answers : List (Nat × Request) → VolumeState → List Answer
  | [], _ => []
  | (time, request) :: rest, state =>
      let (answer, state) := volume.answer time state request
      answer :: answers rest state

/-- The kernel sends strings, reads files at offsets below 2^32 and lists directories, from an
offset that it got with a name, and does not turn a file into a directory. -/
def Volume.Sends (state : VolumeState) : Request → Prop
  | .getattr path | .opens path | .utimens path _ _ | .chown path _ _ => (0 : UInt8) ∉ path
  | .chmod path mode => (0 : UInt8) ∉ path ∧
      ∀ k, volume.find path = .ok (.file k) → mode % 2 ^ 32 &&& 0o170000 ≠ 0o040000
  | .read handle _ offset =>
      offset < 2 ^ 32 ∧ ∀ node, state.handles[handle]? = some node → node ≠ .root
  | .readdir handle offset _ _ => (∀ node, state.handles[handle]? = some node → node = .root) ∧
      ∃ k, k * direntSize ≤ volume.size .root ∧ offset = k * direntSize
  | .fgetattr _ | .statfs | .fsync _ => True

def Volume.SendsAll : List (Nat × Request) → VolumeState → Prop
  | [], _ => True
  | (time, request) :: rest, state =>
      volume.Sends state request ∧ SendsAll rest (volume.answer time state request).2

end Volume

/-! ## Reading an inode in its place -/

/-- What the comments above `inode_block_walk` and `inode_get_block` say of an inode on an
image. -/
structure FindsBlocks (stubs : InodeStubs) (ino : Nat) (map : Memory) : Prop where
  walk : ∀ {n number}, slotOf map ino n = some number →
    ∃ slot, stubs.blockWalk map n = .ok slot ∧ loadLE map slot 4 = number
  missing : ∀ {n}, n < nDirect + nIndirect + nDouble → slotOf map ino n = none →
    stubs.blockWalk map n = .error .noent
  range : ∀ {n}, nDirect + nIndirect + nDouble ≤ n → stubs.blockWalk map n = .error .inval
  found : ∀ {n blk}, blockAt stubs map n = some blk → stubs.getBlock map n = (.ok blk, map)

/-- They do so wherever block numbers are addresses and those of the tables are in the image. -/
def BlocksDocumented (stubs : Nat → InodeStubs) : Prop :=
  ∀ ino map, loadLE map sNblocks 4 ≤ 2 ^ 20 → IndexDocumented ino map →
    FindsBlocks (stubs ino) ino map

section Reading

variable {stubs : InodeStubs} {place : Place} {length nblocks : Nat} {bytes : Nat → UInt8}
  {map : Memory}

structure Inside (place : Place) (nblocks : Nat) (map : Memory) : Prop where
  blocks : loadLE map sNblocks 4 = nblocks
  few : nblocks < 2 ^ 20
  upper : place.upper ≤ blkSize * nblocks

theorem Inside.address (inside : Inside place nblocks map) {number : Nat} (positive : number ≠ 0)
    (below : blkSize * number + blkSize ≤ place.upper) :
    diskblock2memaddr map number = .ok (blkSize * number) := by
  have few := inside.few
  have upper := inside.upper
  rw [diskblock2memaddr_eq_ok, inside.blocks]
  simp only [blkSize] at *
  refine ⟨positive, by omega, by omega⟩

theorem Laid.index (laid : Laid place length bytes map) (inside : Inside place nblocks map) :
    IndexDocumented place.ino map := by
  have word : ∀ offset, wordAt map offset 0 = loadLE map offset 4 := fun offset => rfl
  have tables := laid.tables
  constructor
  · intro present
    rw [← word] at present ⊢
    obtain ⟨_, below⟩ := tables.indirect.resolve_left present
    exact ⟨_, inside.address present below⟩
  · intro present
    rw [← word] at present ⊢
    obtain ⟨_, below⟩ := tables.double.resolve_left present
    refine ⟨_, inside.address present below, ?_⟩
    intro k small full
    obtain ⟨_, last⟩ := (tables.tables present k small).resolve_left full
    exact ⟨_, inside.address full last⟩

theorem Laid.start_positive (laid : Laid place length bytes map) : place.start ≠ 0 := by
  have behind := laid.behindInode
  simp only [blkSize] at behind
  omega

theorem Laid.address (laid : Laid place length bytes map) (inside : Inside place nblocks map)
    {n : Nat} (inFile : n < dataBlocks length) :
    diskblock2memaddr map (place.start + n) = .ok (blkSize * (place.start + n)) := by
  have positive := laid.start_positive
  have inFront := laid.inFront
  have range := laid.range
  apply inside.address (by omega)
  simp only [blkSize] at *
  omega

theorem Laid.blockAt (laid : Laid place length bytes map) (inside : Inside place nblocks map)
    (finds : FindsBlocks stubs place.ino map) {n : Nat} (inFile : n < dataBlocks length) :
    blockAt stubs map n = some (blkSize * (place.start + n)) := by
  obtain ⟨slot, walked, number⟩ := finds.walk (laid.slots n inFile)
  have positive := laid.start_positive
  rw [Fs.blockAt, walked]
  simp only [number]
  rw [if_neg (by omega), laid.address inside inFile]
  rfl

theorem Laid.walk (laid : Laid place length bytes map) (inside : Inside place nblocks map)
    (finds : FindsBlocks stubs place.ino map) : WalkDocumented stubs (· = map) := by
  constructor
  · rintro map n rfl small
    cases found : slotOf map place.ino n with
    | none => exact Or.inr (finds.missing small found)
    | some number =>
        obtain ⟨slot, walked, _⟩ := finds.walk found
        exact Or.inl ⟨slot, walked⟩
  · rintro map n slot rfl walked full
    have small : n < nDirect + nIndirect + nDouble := by
      by_contra large
      rw [finds.range (not_lt.mp large)] at walked
      cases walked
    cases found : slotOf map place.ino n with
    | none =>
        rw [finds.missing small found] at walked
        cases walked
    | some number =>
        obtain ⟨other, again, value⟩ := finds.walk found
        rw [walked] at again
        cases again
        by_cases inFile : n < dataBlocks length
        · rw [laid.slots n inFile] at found
          cases found
          rw [value]
          exact ⟨_, laid.address inside inFile⟩
        · rcases laid.behind n (not_lt.mp inFile) small with missing | zero
          · rw [missing] at found
            cases found
          · rw [zero] at found
            cases found
            exact absurd value full

theorem Laid.byteAt (laid : Laid place length bytes map) (inside : Inside place nblocks map)
    (finds : FindsBlocks stubs place.ino map) {i : Nat} (inFile : i < length) :
    byteAt stubs map i = bytes i := by
  have block : i / blkSize < dataBlocks length := by
    simp only [dataBlocks, blkSize]
    omega
  rw [byteAt_some (laid.blockAt inside finds block), ← laid.bytes i inFile]
  congr 1
  simp only [blkSize]
  omega

theorem Laid.read (laid : Laid place length bytes map) (inside : Inside place nblocks map)
    (finds : FindsBlocks stubs place.ino map) (count offset : Nat) :
    inodeRead stubs place.ino map count offset =
      .ok ((List.range' offset (min count (length - offset))).map bytes) := by
  rw [(laid.walk inside finds).read rfl, laid.size]
  congr 1
  apply List.map_congr_left
  intro i member
  have range := List.mem_range'_1.mp member
  exact laid.byteAt inside finds (by omega)

theorem countBlocks_all {togo i n : Nat}
    (there : ∀ k, i ≤ k → k < i + togo →
      ∃ slot, stubs.blockWalk map k = .ok slot ∧ loadLE map slot 4 ≠ 0) :
    countBlocks stubs map togo i n = n + togo := by
  induction togo generalizing i n with
  | zero => rfl
  | succ togo ih =>
      obtain ⟨slot, walked, full⟩ := there i (Nat.le_refl _) (by omega)
      rw [countBlocks, walked]
      simp only [if_pos full]
      rw [ih fun k lower upper => there k (by omega) (by omega)]
      omega

theorem Laid.stat (laid : Laid place length bytes map)
    (finds : FindsBlocks stubs place.ino map) (bound : length + blkSize ≤ 2 ^ 32) :
    inodeStat stubs place.ino map =
      { mode := (headerOf place.ino map).mode
        size := length
        blksize := blkSize
        blocks := dataBlocks length * (blkSize / 512) % 2 ^ 32
        nlink := (headerOf place.ino map).nlink
        mtime := (headerOf place.ino map).mtime
        atime := (headerOf place.ino map).atime
        ctime := (headerOf place.ino map).ctime
        uid := (headerOf place.ino map).uid
        gid := (headerOf place.ino map).gid
        rdev := (headerOf place.ino map).rdev } := by
  have rounded : roundUp length / blkSize = dataBlocks length := by
    rw [roundUp_eq bound]
    exact Nat.mul_div_cancel _ (by norm_num)
  have counted := @countBlocks_all stubs map (dataBlocks length) 0 0 (by
    intro k _ upper
    obtain ⟨slot, walked, number⟩ := finds.walk (laid.slots k (by omega))
    have positive := laid.start_positive
    exact ⟨slot, walked, by omega⟩)
  rw [inodeStat, laid.size, rounded, counted, Nat.zero_add]
  rfl

theorem Laid.flush (laid : Laid place length bytes map) (inside : Inside place nblocks map)
    (finds : FindsBlocks stubs place.ino map) :
    ∃ blocks, inodeFlush stubs place.ino map = .ok blocks :=
  (laid.index inside).flushes ((laid.walk inside finds).number rfl)

end Reading

end OsLabs.Fs
