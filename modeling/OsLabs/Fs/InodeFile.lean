import OsLabs.Fs.InodeBytes
import OsLabs.Lib.Transition

/-!
# An inode as a file

`File` is an array of bytes with the calls of POSIX.  Successful calls on an inode do
what they do on the file, except that `inode_set_size` leaves the bytes after the new
size in the last block it keeps, where they show again when the file grows.
-/

set_option autoImplicit false

namespace OsLabs.Fs

open OsLabs.ByteMemory OsLabs.ExceptRules OsLabs.Transition

/-! ## Files -/

structure File where
  size : Nat
  byte : Nat → UInt8
  beyond : ∀ i, size ≤ i → byte i = 0

def File.empty : File := ⟨0, fun _ => 0, fun _ _ => rfl⟩

def File.setSize (file : File) (newsize : Nat) : File where
  size := newsize
  byte := fun i => if i < newsize then file.byte i else 0
  beyond := fun i above => if_neg (by omega)

def File.write (file : File) (offset : Nat) (buf : List UInt8) : File where
  size := max file.size (offset + buf.length)
  byte := fun i =>
    if offset ≤ i ∧ i < offset + buf.length then buf.getD (i - offset) 0 else file.byte i
  beyond := fun i above => by
    rw [if_neg (by omega)]
    exact file.beyond i (by omega)

def File.read (file : File) (offset count : Nat) : List UInt8 :=
  (List.range' offset (min count (file.size - offset))).map file.byte

def File.after (file : File) : Call → File
  | .setSize newsize => file.setSize newsize
  | .write offset buf => file.write offset buf
  | .read _ _ => file

section Simulation

variable {stubs : InodeStubs} {ino : Nat} {valid : Memory → Prop} {map : Memory} {file : File}

/-! ## The calls -/

/-- The blocks hold only zeros from the size to the end of the last block. -/
def Clean (stubs : InodeStubs) (map : Memory) (newsize : Nat) : Prop :=
  ∀ i, newsize ≤ i → i < blocksOf newsize * blkSize → byteAt stubs map i = 0

structure Represents (stubs : InodeStubs) (ino : Nat) (valid : Memory → Prop) (map : Memory)
    (file : File) : Prop where
  valid : valid map
  size : iSizeOf ino map = file.size
  bytes : ∀ i, byteAt stubs map i = file.byte i

theorem Represents.setSize (rep : Represents stubs ino valid map file)
    (doc : Documented stubs ino valid) {newsize : Nat} (bound : newsize < 2 ^ 32)
    (clean : newsize < iSizeOf ino map → Clean stubs map newsize) :
    Represents stubs ino valid (inodeSetSize stubs ino map newsize) (file.setSize newsize) := by
  have beyond : ∀ i, iSizeOf ino map ≤ i → byteAt stubs map i = 0 := by
    intro i above
    rw [rep.bytes, file.beyond i (by rwa [← rep.size])]
  unfold inodeSetSize
  split
  · rename_i shorter
    obtain ⟨cutValid, _, _⟩ := doc.truncate rep.valid shorter
    obtain ⟨stays, size, _, bytes⟩ := doc.storeSize cutValid bound rfl
    refine ⟨stays, size, fun i => ?_⟩
    have new := le_blocksOf newsize
    have old := le_blocksOf (iSizeOf ino map)
    rw [bytes, doc.truncate_bytes rep.valid shorter]
    simp only [File.setSize, ← rep.bytes]
    by_cases below : i < newsize
    · rw [if_pos below, if_pos (by omega)]
    · rw [if_neg below]
      split
      · rename_i kept
        rcases kept with last | far
        · exact clean shorter i (by omega) last
        · exact beyond i (by omega)
      · rfl
  · rename_i longer
    obtain ⟨stays, size, _, bytes⟩ := doc.storeSize rep.valid bound rfl
    refine ⟨stays, size, fun i => ?_⟩
    rw [bytes]
    simp only [File.setSize, ← rep.bytes]
    split
    · rfl
    · exact beyond i (by omega)

theorem Represents.write (rep : Represents stubs ino valid map file)
    (doc : Documented stubs ino valid) {buf : List UInt8} {offset : Nat} {result : Int}
    {after : Memory} (bound : offset + buf.length < 2 ^ 32)
    (ran : inodeWrite stubs ino (buf.length + 1) map (fun i => buf.getD i 0) buf.length offset =
      (.ok result, after)) :
    Represents stubs ino valid after (file.write offset buf) := by
  have size := rep.size
  obtain ⟨grown, reached, last, _, grownSize, _, grownBytes, _, _, written, ends⟩ :=
    @Documented.inodeWrite _ _ _ _ doc rep.valid (fun i => buf.getD i 0) (buf.length + 1) _ _
      bound (Nat.lt_succ_self _)
  rcases ends with ⟨whole, loop⟩ | ⟨_, _, number, got, _, loop⟩
  · rw [loop] at ran
    cases ran
    refine ⟨written.valid, ?_, fun i => ?_⟩
    · rw [written.size, grownSize, size]
      rfl
    · rw [written.bytes, grownBytes, rep.bytes, whole]
      rfl
  · rw [loop] at ran
    cases ran

theorem Represents.read (rep : Represents stubs ino valid map file) {count offset : Nat}
    {out : List UInt8} (bound : file.size < 2 ^ 32)
    (ran : inodeRead stubs ino map count offset = .ok out) : out = file.read offset count := by
  have bytes : byteAt stubs map = file.byte := funext rep.bytes
  have read := inodeRead_bytes (by rwa [rep.size]) ran
  rw [read, bytes, rep.size]
  rfl

/-- A byte that a shrinking `inode_set_size` leaves is read after the file has grown back. -/
theorem Represents.dirty_shrink (rep : Represents stubs ino valid map file)
    (doc : Documented stubs ino valid) (bound : file.size < 2 ^ 32) {newsize : Nat}
    (shorter : newsize < file.size) (dirty : ¬ Clean stubs map newsize) :
    ∃ i, newsize ≤ i ∧ i < file.size ∧ ∀ out,
      inodeRead stubs ino
        (inodeSetSize stubs ino (inodeSetSize stubs ino map newsize) file.size) 1 i = .ok out →
      out ≠ ((file.setSize newsize).setSize file.size).read i 1 := by
  obtain ⟨i, lower, upper, nonzero⟩ : ∃ i, newsize ≤ i ∧ i < blocksOf newsize * blkSize ∧
      byteAt stubs map i ≠ 0 := by
    simpa [Clean] using dirty
  have below : i < file.size := by
    by_contra above
    rw [rep.bytes] at nonzero
    exact nonzero (file.beyond i (by omega))
  refine ⟨i, lower, below, fun out ran => ?_⟩
  have small : newsize < 2 ^ 32 := by omega
  obtain ⟨cutValid, _, cut⟩ := doc.setSize_bytes rep.valid small
  obtain ⟨_, size, grown⟩ := doc.setSize_bytes cutValid bound
  have last := le_blocksOf file.size
  have one : min 1 (file.size - i) = 1 := by omega
  unfold inodeRead at ran
  rw [size, if_neg (by omega), one] at ran
  have bytes := readLoop_bytes (by omega) (Nat.le_refl _) ran
  have length : i + 1 - i = 1 := by omega
  rw [bytes, File.read, length]
  simp only [File.setSize, one, List.range'_one, List.map_cons, List.map_nil]
  rw [grown i (below.trans_le last), cut i upper, if_pos below, if_neg (Nat.not_lt.mpr lower)]
  simpa using nonzero

/-! ## Runs -/

structure Fresh (stubs : InodeStubs) (ino : Nat) (valid : Memory → Prop) (map : Memory) :
    Prop where
  valid : valid map
  size : iSizeOf ino map = 0
  blocks : ∀ n, blockAt stubs map n = none

end Simulation

/-! ## An inode with direct blocks -/

/-- The inode is block 3, and its block `n` is block `16 + n` of the image. -/
def directIno : Nat := 3 * blkSize

def directSlot (n : Nat) : Nat := directIno + iDirect + 4 * n

def directBlock (n : Nat) : Nat := (16 + n) * blkSize

def directStubs : InodeStubs where
  blockWalk := fun _ n => if n < nDirect then .ok (directSlot n) else .error .inval
  getBlock := fun map n =>
    if n < nDirect then
      if loadLE map (directSlot n) 4 = 0 then
        (.ok (directBlock n),
          storeLE (fill map (directBlock n) blkSize 0) (directSlot n) 4 (16 + n))
      else (.ok (directBlock n), map)
    else (.error .inval, map)
  truncateBlocks := fun map newsize =>
    let new := min nDirect (blocksOf newsize)
    let old := min nDirect (blocksOf (iSizeOf directIno map))
    fill map (directSlot new) (4 * (old - new)) 0

structure DirectValid (map : Memory) : Prop where
  blocks : loadLE map sNblocks 4 = 64
  slots : ∀ n < nDirect, loadLE map (directSlot n) 4 = 0 ∨ loadLE map (directSlot n) 4 = 16 + n

theorem DirectValid.blockAt {map : Memory} (mapValid : DirectValid map) (n : Nat) :
    blockAt directStubs map n =
      if n < nDirect ∧ loadLE map (directSlot n) 4 ≠ 0 then some (directBlock n) else none := by
  by_cases inside : n < nDirect
  · simp only [Fs.blockAt, directStubs, if_pos inside]
    rcases mapValid.slots n inside with empty | full
    · rw [if_pos empty, if_neg (by simp [empty])]
    · have address : diskblock2memaddr map (16 + n) = .ok (directBlock n) := by
        simp only [nDirect] at inside
        rw [diskblock2memaddr, mapValid.blocks, if_neg (by omega)]
        simp only [directBlock, blkSize]
        rw [Nat.mod_eq_of_lt (by omega)]
      rw [full, if_neg (by omega), if_pos (by omega), address]
      rfl
  · simp only [Fs.blockAt, directStubs, if_neg inside]
    rw [if_neg (by omega)]

theorem DirectValid.place {map : Memory} (mapValid : DirectValid map) {n a : Nat}
    (found : Fs.blockAt directStubs map n = some a) : n < nDirect ∧ a = directBlock n := by
  rw [mapValid.blockAt] at found
  split at found
  · rename_i full
    cases found
    exact ⟨full.1, rfl⟩
  · cases found

theorem DirectValid.congr {map after : Memory} (mapValid : DirectValid map)
    (blocks : loadLE after sNblocks 4 = loadLE map sNblocks 4)
    (slots : ∀ n < nDirect, loadLE after (directSlot n) 4 = loadLE map (directSlot n) 4) :
    DirectValid after ∧ ∀ n, Fs.blockAt directStubs after n = Fs.blockAt directStubs map n := by
  have stays : DirectValid after := by
    refine ⟨blocks.trans mapValid.blocks, fun n inside => ?_⟩
    rw [slots n inside]
    exact mapValid.slots n inside
  refine ⟨stays, fun n => ?_⟩
  rw [stays.blockAt, mapValid.blockAt]
  by_cases inside : n < nDirect
  · rw [slots n inside]
  · rw [if_neg (by omega), if_neg (by omega)]

theorem DirectValid.kept {map after : Memory} (mapValid : DirectValid map)
    (afterValid : DirectValid after) {n : Nat}
    (slot : n < nDirect → loadLE after (directSlot n) 4 = loadLE map (directSlot n) 4)
    (bytes : AgreeOn map after (directBlock n) blkSize) : Kept directStubs map after n := by
  refine ⟨?_, fun blk found => ?_⟩
  · rw [mapValid.blockAt, afterValid.blockAt]
    by_cases inside : n < nDirect
    · rw [slot inside]
    · rw [if_neg (by omega), if_neg (by omega)]
  · obtain ⟨_, rfl⟩ := mapValid.place found
    exact bytes

theorem directStubs_get {map after : Memory} {n a : Nat} (mapValid : DirectValid map)
    (got : directStubs.getBlock map n = (.ok a, after)) :
    DirectValid after ∧ iSizeOf directIno after = iSizeOf directIno map ∧
      blockAt directStubs after n = some a ∧
      (Kept directStubs map after n ∨
        blockAt directStubs map n = none ∧ AgreeOn (fun _ => 0) after a blkSize) ∧
      ∀ m, m ≠ n → Kept directStubs map after m := by
  simp only [directStubs] at got
  split at got
  · rename_i inside
    split at got
    · rename_i empty
      obtain ⟨answer, stored⟩ := Prod.mk.inj got
      cases answer
      have apart : ∀ x, ¬ (directBlock n ≤ x ∧ x < directBlock n + blkSize) →
          ¬ (directSlot n ≤ x ∧ x < directSlot n + 4) → after x = map x := by
        intro x notBlock notSlot
        rw [← stored, storeLE_outside (by omega), fill, if_neg notBlock]
      have zeros : AgreeOn (fun _ => 0) after (directBlock n) blkSize := by
        intro x lower upper
        rw [← stored, storeLE_outside, fill, if_pos ⟨lower, upper⟩]
        simp only [directBlock, directSlot, directIno, iDirect, nDirect, blkSize] at *
        omega
      have here : loadLE after (directSlot n) 4 = 16 + n := by
        rw [← stored, loadLE_storeLE]
        simp only [nDirect] at inside
        omega
      have others : ∀ m < nDirect, m ≠ n →
          loadLE after (directSlot m) 4 = loadLE map (directSlot m) 4 := by
        intro m mInside different
        refine loadLE_congr fun x lower upper => apart x ?_ ?_ <;>
          simp only [directBlock, directSlot, directIno, iDirect, nDirect, blkSize] at * <;>
          omega
      have stays : DirectValid after := by
        refine ⟨?_, fun m mInside => ?_⟩
        · rw [← mapValid.blocks]
          refine loadLE_congr fun x lower upper => apart x ?_ ?_ <;>
            simp only [directBlock, directSlot, directIno, iDirect, sNblocks, blkSize] at * <;>
            omega
        · by_cases same : m = n
          · rw [same]
            exact Or.inr here
          · rw [others m mInside same]
            exact mapValid.slots m mInside
      refine ⟨stays, ?_, ?_, Or.inr ⟨?_, zeros⟩, fun m different => ?_⟩
      · refine loadLE_congr fun x lower upper => apart x ?_ ?_ <;>
          simp only [directBlock, directSlot, directIno, iDirect, iSize, blkSize] at * <;>
          omega
      · rw [stays.blockAt, if_pos ⟨inside, by omega⟩]
      · rw [mapValid.blockAt, if_neg (by omega)]
      · refine mapValid.kept stays (fun mInside => others m mInside different) ?_
        intro x lower upper
        refine apart x ?_ ?_ <;>
          simp only [directBlock, directSlot, directIno, iDirect, nDirect, blkSize] at * <;>
          omega
    · rename_i full
      cases got
      refine ⟨mapValid, rfl, ?_, Or.inl ⟨rfl, fun _ _ _ _ _ => rfl⟩,
        fun m _ => ⟨rfl, fun _ _ _ _ _ => rfl⟩⟩
      rw [mapValid.blockAt, if_pos ⟨inside, full⟩]
  · cases got

theorem directStubs_truncate {map : Memory} {newsize : Nat} (mapValid : DirectValid map) :
    DirectValid (directStubs.truncateBlocks map newsize) ∧
      iSizeOf directIno (directStubs.truncateBlocks map newsize) = iSizeOf directIno map ∧
      ∀ n, if blocksOf newsize ≤ n ∧ n < blocksOf (iSizeOf directIno map) then
          blockAt directStubs (directStubs.truncateBlocks map newsize) n = none
        else Kept directStubs map (directStubs.truncateBlocks map newsize) n := by
  obtain ⟨after, afterEq⟩ : ∃ after, directStubs.truncateBlocks map newsize = after := ⟨_, rfl⟩
  rw [afterEq]
  simp only [directStubs] at afterEq
  generalize blocksOf newsize = new at *
  generalize blocksOf (iSizeOf directIno map) = old at *
  have apart : ∀ x, x < directSlot (min nDirect new) ∨
      directSlot (min nDirect new) + 4 * (min nDirect old - min nDirect new) ≤ x →
      after x = map x := by
    intro x outside
    rw [← afterEq, fill, if_neg (by omega)]
  have gone : ∀ n < nDirect, new ≤ n → n < old → loadLE after (directSlot n) 4 = 0 := by
    intro n inside lower upper
    rw [← afterEq]
    refine loadLE_fill_zero _ _ _ _ _ ?_ ?_ <;> simp only [directSlot] <;> omega
  have others : ∀ n < nDirect, ¬ (new ≤ n ∧ n < old) →
      loadLE after (directSlot n) 4 = loadLE map (directSlot n) 4 := by
    intro n inside outside
    refine loadLE_congr fun x lower upper => apart x ?_
    simp only [directSlot] at *
    omega
  have stays : DirectValid after := by
    refine ⟨?_, fun n inside => ?_⟩
    · rw [← mapValid.blocks]
      refine loadLE_congr fun x lower upper => apart x (Or.inl ?_)
      simp only [directSlot, directIno, iDirect, sNblocks, blkSize] at *
      omega
    · by_cases cut : new ≤ n ∧ n < old
      · exact Or.inl (gone n inside cut.1 cut.2)
      · rw [others n inside cut]
        exact mapValid.slots n inside
  refine ⟨stays, ?_, fun n => ?_⟩
  · refine loadLE_congr fun x lower upper => apart x (Or.inl ?_)
    simp only [directSlot, directIno, iDirect, iSize, blkSize] at *
    omega
  · split
    · rename_i cut
      rw [stays.blockAt, if_neg]
      rintro ⟨inside, full⟩
      exact full (gone n inside cut.1 cut.2)
    · rename_i kept
      refine mapValid.kept stays (fun inside => others n inside kept) ?_
      intro x lower upper
      refine apart x (Or.inr ?_)
      have slots : directSlot (min nDirect new) + 4 * (min nDirect old - min nDirect new) ≤
          directSlot nDirect := by
        simp only [directSlot]
        omega
      refine slots.trans (le_trans ?_ lower)
      simp only [directSlot, directBlock, directIno, iDirect, nDirect, blkSize]
      omega

theorem directStubs_documented : DocumentedErrors directStubs directIno DirectValid where
  apart := by
    intro map n m a b mapValid first second different
    obtain ⟨_, rfl⟩ := mapValid.place first
    obtain ⟨_, rfl⟩ := mapValid.place second
    simp only [directBlock, blkSize]
    omega
  inode := by
    intro map n a mapValid found
    obtain ⟨_, rfl⟩ := mapValid.place found
    simp only [directBlock, directIno, iSize, blkSize]
    omega
  own := by
    intro map after mapValid same
    have notOwn : ∀ x, x < 16 * blkSize → ¬ (directIno + iSize ≤ x ∧ x < directIno + iSize + 4) →
        after x = map x := by
      intro x low notSize
      refine same x ?_
      rintro (⟨n, blk, found, lower, _⟩ | size)
      · obtain ⟨_, rfl⟩ := mapValid.place found
        simp only [directBlock, blkSize] at lower low
        omega
      · exact notSize size
    simp only [directIno, iSize, blkSize] at notOwn
    refine mapValid.congr ?_ fun n inside => ?_
    · refine loadLE_congr fun x lower upper => notOwn x ?_ ?_ <;>
        simp only [sNblocks] at * <;> omega
    · refine loadLE_congr fun x lower upper => notOwn x ?_ ?_ <;>
        simp only [directSlot, directIno, iDirect, nDirect, blkSize] at * <;> omega
  get := fun mapValid got => directStubs_get mapValid got
  truncate := fun mapValid _ => directStubs_truncate mapValid
  found := by
    intro map n a mapValid place
    obtain ⟨inside, rfl⟩ := mapValid.place place
    have full : loadLE map (directSlot n) 4 ≠ 0 := by
      intro empty
      rw [mapValid.blockAt, if_neg (fun there => there.2 empty)] at place
      cases place
    refine ⟨map, ?_⟩
    simp only [directStubs, if_pos inside, if_neg full]
  refused := by
    intro map after n number mapValid got
    simp only [directStubs] at got
    split at got
    · split at got <;> cases got
    · cases got
      exact ⟨mapValid, rfl, fun m => ⟨rfl, fun _ _ _ _ _ => rfl⟩⟩

def directMap : Memory := storeLE (fun _ => 0) sNblocks 4 64

theorem directMap_fresh : Fresh directStubs directIno DirectValid directMap := by
  have zero : ∀ x, sNblocks + 4 ≤ x → loadLE directMap x 4 = 0 := by
    intro x above
    rw [directMap, loadLE_storeLE_apart _ _ _ _ _ _ (Or.inr above)]
    rfl
  have slots : ∀ n, loadLE directMap (directSlot n) 4 = 0 := by
    intro n
    refine zero _ ?_
    simp only [directSlot, directIno, iDirect, sNblocks, blkSize]
    omega
  have mapValid : DirectValid directMap :=
    ⟨loadLE_storeLE _ _ _ _, fun n _ => Or.inl (slots n)⟩
  refine ⟨mapValid, zero _ (by decide), fun n => ?_⟩
  rw [mapValid.blockAt, if_neg]
  exact fun full => full.2 (slots n)

end OsLabs.Fs
