import OsLabs.Fs.Path
import Mathlib.Data.Fintype.EquivFin

/-!
# Offsets of 64 bits

`fs_truncate`, `fs_ftruncate`, `fs_read` and `fs_write` of fsdriver.c take an `off_t` and
hand it on as a `uint32_t`.  Where the offset itself fits, a write whose end does not is
bound to fail, for not every block that it asks for can be in the image.
-/

set_option autoImplicit false

namespace OsLabs.Fs

open OsLabs.ByteMemory OsLabs.ExceptRules

/-! ## The callbacks -/

section Calls

variable (stubs : InodeStubs) (ino time : Nat) (map : Memory)

/-- `ino->i_mtime = time(NULL); return inode_set_size(ino, size);` -/
def truncateNow (size : Nat) : Memory :=
  inodeSetSize stubs ino (storeLE map (ino + iMtime) 8 time) (size % 2 ^ 32)

def fsFtruncate (size : Nat) : Except Stop Unit × Memory :=
  (.ok (), truncateNow stubs ino time map size)

def fsRead (count offset : Nat) : Except Stop (List UInt8) × Memory :=
  let map := storeLE map (ino + iAtime) 8 time
  (inodeRead stubs ino map count (offset % 2 ^ 32), map)

def fsWrite (fuel : Nat) (buf : Nat → UInt8) (count offset : Nat) : Except Stop Int × Memory :=
  inodeWrite stubs ino fuel (storeLE map (ino + iMtime) 8 time) buf count (offset % 2 ^ 32)

end Calls

/-- `inode_open`. -/
def inodeOpen (stubs : Nat → InodeStubs) (map : Memory) (path : List UInt8) :
    Except Stop (Option Nat) × Memory :=
  let (result, outputs, map) := walkPath stubs map path ⟨none, none, none, []⟩
  (result.map fun _ => outputs.pino, map)

def fsTruncate (stubs : Nat → InodeStubs) (time : Nat) (map : Memory) (path : List UInt8)
    (size : Nat) : Except Stop Unit × Memory :=
  match inodeOpen stubs map path with
  | (.error stopped, map) => (.error stopped, map)
  | (.ok none, map) => (.error .assertion, map)
  | (.ok (some ino), map) => (.ok (), truncateNow (stubs ino) ino time map size)

/-! ## What they promise -/

/-- The times of the inode hold no block number, and the inode is a block of the image. -/
structure FileDocumented (stubs : InodeStubs) (ino : Nat) (valid : Memory → Prop) : Prop
    extends DocumentedErrors stubs ino valid where
  times : ∀ {map map'}, valid map →
    (∀ x, x < ino + iAtime ∨ ino + iSize ≤ x → map' x = map x) →
    valid map' ∧ ∀ n, blockAt stubs map' n = blockAt stubs map n
  place : ∃ number, ino = number * blkSize ∧ ino < 2 ^ 32

structure HonoursOffset (stubs : Nat → InodeStubs) (ino : Nat) (map : Memory)
    (offset : Nat) : Prop where
  truncate : ∀ time path opened after, inodeOpen stubs map path = (.ok (some ino), opened) →
    fsTruncate stubs time map path offset = (.ok (), after) → iSizeOf ino after = offset
  ftruncate : ∀ time after, fsFtruncate (stubs ino) ino time map offset = (.ok (), after) →
    iSizeOf ino after = offset
  write : ∀ time buf count, count < 2 ^ 64 → ∃ fuel result after,
    fsWrite (stubs ino) ino time map fuel buf count offset = (result, after) ∧
      (Failed result ∨ (∃ number, result = .ok number) ∧
        ∀ i < offset, byteAt (stubs ino) after i = byteAt (stubs ino) map i)
  read : ∀ time count, iSizeOf ino map ≤ offset →
    (fsRead (stubs ino) ino time map count offset).1 = .ok []

section Offsets

variable {stubs : InodeStubs} {ino : Nat} {valid : Memory → Prop} {map : Memory}
  {buf : Nat → UInt8}

/-! ## Sizes -/

theorem inodeSetSize_size (newsize : Nat) :
    iSizeOf ino (inodeSetSize stubs ino map newsize) = newsize % 2 ^ 32 := by
  rw [inodeSetSize, iSizeOf, loadLE_storeLE]
  norm_num

theorem truncateNow_size (time size : Nat) :
    iSizeOf ino (truncateNow stubs ino time map size) = size % 2 ^ 32 := by
  rw [truncateNow, inodeSetSize_size, Nat.mod_mod]

theorem iSizeOf_time {time field : Nat} (inside : field + 8 ≤ iSize) :
    iSizeOf ino (storeLE map (ino + field) 8 time) = iSizeOf ino map := by
  rw [iSizeOf, loadLE_storeLE_apart _ _ _ _ _ _ (by omega)]
  rfl

/-! ## Not every block is there -/

theorem blockAt_place {n a : Nat} (found : blockAt stubs map n = some a) :
    a % blkSize = 0 ∧ a < 2 ^ 32 := by
  rw [blockAt] at found
  split at found
  · split at found
    · cases found
    · rename_i slot _ _
      cases address : diskblock2memaddr map (loadLE map slot 4) with
      | error stopped =>
          rw [address] at found
          cases found
      | ok blk =>
          rw [address] at found
          cases found
          rw [diskblock2memaddr] at address
          split at address
          · cases address
          · cases address
            simp only [blkSize]
            omega
  · cases found

/-- Blocks with places of their own would fill all of the 2^20 that a 32-bit address can
name, and the inode is in one of them. -/
theorem FileDocumented.some_missing (doc : FileDocumented stubs ino valid)
    (mapValid : valid map) : ∃ n < 2 ^ 20, blockAt stubs map n = none := by
  by_contra full
  have there : ∀ n : Fin (2 ^ 20), ∃ a, blockAt stubs map n = some a := by
    intro n
    apply Option.ne_none_iff_exists'.mp
    intro absent
    exact full ⟨n, n.isLt, absent⟩
  choose address found using there
  have place : ∀ n, address n % blkSize = 0 ∧ address n < 2 ^ 32 :=
    fun n => blockAt_place (found n)
  let number : Fin (2 ^ 20) → Fin (2 ^ 20) := fun n => ⟨address n / blkSize, by
    have := place n
    simp only [blkSize] at *
    omega⟩
  have injective : Function.Injective number := by
    intro n m same
    by_contra different
    have apart := doc.apart mapValid (found n) (found m) fun equal => different (Fin.ext equal)
    have quotient : address n / blkSize = address m / blkSize := congrArg Fin.val same
    have first := place n
    have second := place m
    simp only [blkSize] at *
    omega
  obtain ⟨own, inoPlace, inoBelow⟩ := doc.place
  obtain ⟨n, here⟩ := (Finite.injective_iff_surjective.mp injective) ⟨own, by
    simp only [blkSize] at inoPlace
    omega⟩
  have quotient : address n / 4096 = own := congrArg Fin.val here
  have first : address n % 4096 = 0 := (place n).1
  have inode : ino = own * 4096 := inoPlace
  have apart := doc.inode mapValid (found n)
  simp only [blkSize, iSize] at apart
  omega

/-! ## A write whose end does not fit -/

/-- The blocks that the loop asks for in so many turns from a block on. -/
def AskedFor (block turns n : Nat) : Prop := (n + 2 ^ 20 - block) % 2 ^ 20 < turns

theorem FileDocumented.writeLoop_fails (doc : FileDocumented stubs ino valid)
    {stop fuel turns pos done : Nat} (mapValid : valid map) (below : pos < 2 ^ 32)
    (far : 2 ^ 32 ≤ stop) (enough : turns ≤ fuel)
    (others : ∀ n < 2 ^ 20, ¬ AskedFor (pos / blkSize) turns n → blockAt stubs map n ≠ none) :
    ∃ number after, writeLoop stubs buf stop fuel pos done map =
      (.error (.errno number), after) := by
  induction turns generalizing fuel pos done map with
  | zero =>
      obtain ⟨n, inside, absent⟩ := doc.some_missing mapValid
      exact absurd absent (others n inside (Nat.not_lt_zero _))
  | succ turns ih =>
      obtain ⟨rest, rfl⟩ := Nat.exists_eq_add_of_lt enough
      rw [writeLoop, if_pos (by omega)]
      obtain ⟨answer, got, gotten⟩ :
          ∃ answer got, stubs.getBlock map (pos / blkSize) = (answer, got) := ⟨_, _, rfl⟩
      cases answer with
      | error number =>
          rw [gotten]
          exact ⟨number, got, rfl⟩
      | ok blk =>
          have chunk : min (blkSize - pos % blkSize) (stop - pos) = blkSize - pos % blkSize := by
            simp only [blkSize]
            omega
          have turn : Written stubs ino valid map _ (fun i => buf (done + i)) pos
              (pos + (blkSize - pos % blkSize)) :=
            doc.turn mapValid gotten (by simp only [blkSize]; omega)
          simp only [gotten, chunk]
          apply ih turn.valid (Nat.mod_lt _ (by norm_num)) (by omega)
          intro n inside later
          by_cases here : n = pos / blkSize
          · rw [here]
            apply turn.got (Nat.le_refl pos)
            simp only [blkSize]
            omega
          · have before := others n inside (by
              simp only [AskedFor, blkSize] at later ⊢
              simp only [blkSize] at here
              omega)
            obtain ⟨a, there⟩ := Option.ne_none_iff_exists'.mp before
            rw [turn.blocks there]
            exact Option.some_ne_none a

/-- The call ends, and when it does not fail it keeps the bytes before the offset. -/
def WriteKeeps (stubs : InodeStubs) (ino : Nat) (map : Memory) (buf : Nat → UInt8)
    (count offset : Nat) : Prop :=
  ∃ fuel result after, inodeWrite stubs ino fuel map buf count offset = (result, after) ∧
    (Failed result ∨ (∃ number, result = .ok number) ∧
      ∀ i < offset, byteAt stubs after i = byteAt stubs map i)

theorem FileDocumented.write_fits (doc : FileDocumented stubs ino valid) (mapValid : valid map)
    {count offset : Nat} (bound : offset + count < 2 ^ 32) :
    WriteKeeps stubs ino map buf count offset := by
  obtain ⟨grown, reached, middle, _, _, _, bytes, _, _, written, ends⟩ :=
    @Documented.inodeWrite _ _ _ _ doc.toDocumented mapValid buf (count + 1) _ _ bound
      (Nat.lt_succ_self _)
  rcases ends with ⟨_, ran⟩ | ⟨_, _, number, after, _, ran⟩
  · refine ⟨count + 1, _, middle, ran, Or.inr ⟨⟨_, rfl⟩, ?_⟩⟩
    intro i before
    rw [written.bytes, if_neg (by omega), bytes]
  · exact ⟨count + 1, _, after, ran, Or.inl trivial⟩

theorem FileDocumented.write_far (doc : FileDocumented stubs ino valid) (mapValid : valid map)
    {count offset : Nat} (uint32 : offset < 2 ^ 32) (far : 2 ^ 32 ≤ offset + count)
    (fits : offset + count < 2 ^ 64) : WriteKeeps stubs ino map buf count offset := by
  have stop : (offset + count) % 2 ^ 64 = offset + count := Nat.mod_eq_of_lt fits
  have small : (offset + count) % 2 ^ 32 < 2 ^ 32 := Nat.mod_lt _ (by norm_num)
  obtain ⟨sized, sizedEq⟩ : ∃ sized, (if iSizeOf ino map < offset + count then
      inodeSetSize stubs ino map ((offset + count) % 2 ^ 32) else map) = sized := ⟨_, rfl⟩
  have sizedValid : valid sized := by
    rw [← sizedEq]
    split
    · exact (doc.setSize_bytes mapValid small).1
    · exact mapValid
  obtain ⟨number, after, loop⟩ := @FileDocumented.writeLoop_fails _ _ _ sized buf doc
    (offset + count) (2 ^ 20) (2 ^ 20) offset 0 sizedValid uint32 far (Nat.le_refl _) (by
      intro n _ unasked
      exact absurd (Nat.mod_lt _ (by norm_num)) unasked)
  refine ⟨2 ^ 20, .error (.errno number), after, ?_, Or.inl trivial⟩
  simp only [inodeWrite, stop, sizedEq, loop]

/-- The sum wraps to less than the offset, so the loop does not turn. -/
theorem FileDocumented.write_wraps (doc : FileDocumented stubs ino valid) (mapValid : valid map)
    {count offset : Nat} (uint32 : offset < 2 ^ 32) (size_t : count < 2 ^ 64)
    (wraps : 2 ^ 64 ≤ offset + count) : WriteKeeps stubs ino map buf count offset := by
  have stop : (offset + count) % 2 ^ 64 < offset := by omega
  have narrow : (offset + count) % 2 ^ 64 % 2 ^ 32 = (offset + count) % 2 ^ 64 :=
    Nat.mod_eq_of_lt (by omega)
  obtain ⟨grown, grows⟩ : ∃ grown, (if iSizeOf ino map < (offset + count) % 2 ^ 64 then
      inodeSetSize stubs ino map ((offset + count) % 2 ^ 64) else map) = grown := ⟨_, rfl⟩
  obtain ⟨_, _, _, bytes⟩ := doc.extend mapValid (by omega) grows
  refine ⟨1, .ok (intOf count), grown, ?_, Or.inr ⟨⟨_, rfl⟩, fun i _ => bytes i⟩⟩
  simp only [inodeWrite, narrow, grows, writeLoop, if_neg (not_lt.mpr stop.le)]

theorem FileDocumented.write_keeps (doc : FileDocumented stubs ino valid) (mapValid : valid map)
    {count offset : Nat} (uint32 : offset < 2 ^ 32) (size_t : count < 2 ^ 64) :
    WriteKeeps stubs ino map buf count offset := by
  by_cases fits : offset + count < 2 ^ 32
  · exact doc.write_fits mapValid fits
  · by_cases far : offset + count < 2 ^ 64
    · exact doc.write_far mapValid uint32 (not_lt.mp fits) far
    · exact doc.write_wraps mapValid uint32 size_t (not_lt.mp far)

theorem FileDocumented.stamped (doc : FileDocumented stubs ino valid) (mapValid : valid map)
    (time : Nat) : valid (storeLE map (ino + iMtime) 8 time) ∧
      ∀ i, byteAt stubs (storeLE map (ino + iMtime) 8 time) i = byteAt stubs map i := by
  have outside : ∀ x, x < ino + iAtime ∨ ino + iSize ≤ x →
      storeLE map (ino + iMtime) 8 time x = map x := by
    intro x apart
    apply storeLE_outside
    simp only [iAtime, iMtime, iSize] at *
    omega
  obtain ⟨stays, places⟩ := doc.times mapValid outside
  refine ⟨stays, ?_⟩
  intro i
  apply Kept.byteAt
  refine ⟨places _, ?_⟩
  intro blk there x lower upper
  obtain ⟨own, inoPlace, _⟩ := doc.place
  have apart := doc.inode mapValid there
  have aligned := (blockAt_place there).1
  apply outside
  simp only [iAtime, iSize, blkSize] at *
  omega

end Offsets

/-- The offset of a call is honoured or refused exactly when it fits into 32 bits. -/
theorem honours_offset_iff {stubs : Nat → InodeStubs} {ino : Nat} {valid : Memory → Prop}
    {map : Memory} (doc : FileDocumented (stubs ino) ino valid) (mapValid : valid map)
    (offset : Nat) : HonoursOffset stubs ino map offset ↔ offset < 2 ^ 32 := by
  constructor
  · intro honours
    have size := honours.ftruncate 0 _ rfl
    rw [truncateNow_size] at size
    omega
  · intro small
    have exact : offset % 2 ^ 32 = offset := Nat.mod_eq_of_lt small
    constructor
    · intro time path opened after found ran
      rw [fsTruncate, found] at ran
      cases ran
      rw [truncateNow_size, exact]
    · intro time after ran
      cases ran
      rw [truncateNow_size, exact]
    · intro time buf count size_t
      obtain ⟨stays, bytes⟩ := doc.stamped mapValid time
      obtain ⟨fuel, result, after, ran, ends⟩ :=
        @FileDocumented.write_keeps _ _ _ _ buf doc stays _ _ small size_t
      refine ⟨fuel, result, after, ?_, ends.imp_right ?_⟩
      · rw [fsWrite, exact]
        exact ran
      · rintro ⟨returned, kept⟩
        exact ⟨returned, fun i before => (kept i before).trans (bytes i)⟩
    · intro time count behind
      rw [fsRead, exact]
      simp only [inodeRead]
      rw [if_pos]
      rwa [iSizeOf_time (by decide)]

theorem directStubs_file : FileDocumented directStubs directIno DirectValid where
  toDocumentedErrors := directStubs_documented
  times := by
    intro map after mapValid same
    have kept : ∀ x, x + 4 ≤ directIno + iAtime ∨ directIno + iSize ≤ x →
        loadLE after x 4 = loadLE map x 4 := by
      intro x apart
      apply loadLE_congr
      intro y lower upper
      exact same y (by omega)
    apply mapValid.congr (kept _ (Or.inl (by decide)))
    intro n _
    apply kept
    right
    simp only [directSlot, iSize, iDirect]
    omega
  place := ⟨3, rfl, by decide⟩

/-- A new size of 2^32 + 1 is a size of 1, and a byte at 2^32 is the first one. -/
theorem honours_offset_fails :
    ¬ HonoursOffset (fun _ => directStubs) directIno directMap (2 ^ 32 + 1) ∧
      (fsWrite directStubs directIno 0 directMap 2 (fun _ => 65) 1 (2 ^ 32)).1 = .ok 1 ∧
      byteAt directStubs
        (fsWrite directStubs directIno 0 directMap 2 (fun _ => 65) 1 (2 ^ 32)).2 0 = 65 := by
  refine ⟨?_, by decide +kernel, by decide +kernel⟩
  intro honours
  have size := honours.ftruncate 0 _ rfl
  rw [truncateNow_size] at size
  omega

/-- The last offset that is honoured. -/
theorem honours_offset_iff_sample :
    HonoursOffset (fun _ => directStubs) directIno directMap (2 ^ 32 - 1) :=
  (honours_offset_iff directStubs_file directMap_fresh.valid _).mpr (by norm_num)

end OsLabs.Fs
