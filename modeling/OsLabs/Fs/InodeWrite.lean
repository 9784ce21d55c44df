import OsLabs.Fs.InodeFile

/-!
# What inode_write leaves behind

`inode_write` with any count of fs_write, and after an error of `inode_get_block`.  The size
changes before the first block is there, and the 32 bits of the position and the size are
narrower than the sum they are compared with.
-/

set_option autoImplicit false

namespace OsLabs.Fs

open OsLabs.ByteMemory

def Failed : Except Stop Int → Prop
  | .ok result => result < 0
  | .error (.errno _) => True
  | .error _ => False

theorem intOf_neg (count : Nat) : intOf count < 0 ↔ 2 ^ 31 ≤ count % 2 ^ 32 := by
  unfold intOf
  split <;> omega

section Writes

variable {stubs : InodeStubs} {ino : Nat} {valid : Memory → Prop} {map : Memory}
  {buf : Nat → UInt8} {count offset : Nat}

/-! ## The range of a write -/

/-- The loop uses only the part of the buffer that is as long as the range. -/
theorem writeLoop_congr {other : Nat → UInt8} {stop fuel pos done : Nat}
    (bound : stop < 2 ^ 32) (same : ∀ i < done + (stop - pos), other i = buf i) :
    writeLoop stubs other stop fuel pos done map = writeLoop stubs buf stop fuel pos done map := by
  induction fuel generalizing pos done map with
  | zero => rfl
  | succ fuel ih =>
      by_cases more : pos < stop
      · rw [writeLoop, writeLoop, if_pos more, if_pos more]
        obtain ⟨answer, got, gotten⟩ :
            ∃ answer got, stubs.getBlock map (pos / blkSize) = (answer, got) := ⟨_, _, rfl⟩
        cases answer with
        | error number => rw [gotten]
        | ok blk =>
            simp only [gotten]
            obtain ⟨bn, bnEq⟩ : ∃ bn, min (blkSize - pos % blkSize) (stop - pos) = bn :=
              ⟨_, rfl⟩
            simp only [bnEq]
            have bytes : blit got (blk + pos % blkSize) bn (fun i => other (done + i)) =
                blit got (blk + pos % blkSize) bn (fun i => buf (done + i)) := by
              funext x
              simp only [blit]
              split
              · apply same
                omega
              · rfl
            rw [bytes, Nat.mod_eq_of_lt (by omega)]
            apply ih
            intro i below
            apply same
            omega
      · rw [writeLoop, writeLoop, if_neg more, if_neg more]

theorem DocumentedErrors.writeLoop_size (doc : DocumentedErrors stubs ino valid)
    {stop fuel pos done : Nat} {result : Except Stop Unit} {after : Memory}
    (mapValid : valid map) (ran : writeLoop stubs buf stop fuel pos done map = (result, after)) :
    iSizeOf ino after = iSizeOf ino map := by
  induction fuel generalizing pos done map with
  | zero =>
      cases ran
      rfl
  | succ fuel ih =>
      rw [writeLoop] at ran
      by_cases more : pos < stop
      · rw [if_pos more] at ran
        obtain ⟨answer, got, gotten⟩ :
            ∃ answer got, stubs.getBlock map (pos / blkSize) = (answer, got) := ⟨_, _, rfl⟩
        simp only [gotten] at ran
        cases answer with
        | error number =>
            cases ran
            exact (doc.refused mapValid gotten).2.1
        | ok blk =>
            have inBlock : pos % blkSize < blkSize := Nat.mod_lt _ (by norm_num)
            have turn : Written stubs ino valid map _ (fun i => buf (done + i)) pos
                (pos + min (blkSize - pos % blkSize) (stop - pos)) :=
              doc.turn mapValid gotten (by omega)
            exact (ih turn.valid ran).trans turn.size
      · rw [if_neg more] at ran
        cases ran
        rfl

/-- The size does not shrink, no block is freed and no byte of the file outside the range
changes. -/
structure OwnRange (stubs : InodeStubs) (ino : Nat) (before after : Memory)
    (count offset : Nat) : Prop where
  size : iSizeOf ino before ≤ iSizeOf ino after
  blocks : ∀ n a, blockAt stubs before n = some a → blockAt stubs after n = some a
  bytes : ∀ i < iSizeOf ino before, i < offset ∨ offset + count ≤ i →
    byteAt stubs after i = byteAt stubs before i

def Unchanged (stubs : InodeStubs) (ino : Nat) (before after : Memory) : Prop :=
  iSizeOf ino after = iSizeOf ino before ∧
    ∀ i < iSizeOf ino before, byteAt stubs after i = byteAt stubs before i

/-- The call ends, keeps to its range and to its part of the buffer, and fails where the
range does not fit into a size. -/
def WriteSafe (stubs : InodeStubs) (ino : Nat) (map : Memory) (buf : Nat → UInt8)
    (count offset : Nat) : Prop :=
  ∃ fuel result after, inodeWrite stubs ino fuel map buf count offset = (result, after) ∧
    result ≠ .error .running ∧ OwnRange stubs ino map after count offset ∧
    (∀ other, (∀ i < count, other i = buf i) →
      inodeWrite stubs ino fuel map other count offset = (result, after)) ∧
    (2 ^ 32 ≤ offset + count → Failed result ∧ Unchanged stubs ino map after)

theorem DocumentedErrors.write_safe (doc : DocumentedErrors stubs ino valid)
    (mapValid : valid map) (bound : offset + count < 2 ^ 32) :
    WriteSafe stubs ino map buf count offset := by
  obtain ⟨grown, reached, middle, grownValid, size, places, bytes, lower, upper, written, ends⟩ :=
    @Documented.inodeWrite _ _ _ _ doc.toDocumented mapValid buf (count + 1) _ _ bound
      (Nat.lt_succ_self _)
  have range : OwnRange stubs ino map middle count offset := by
    constructor
    · rw [written.size, size]
      exact Nat.le_max_left _ _
    · intro n a place
      exact written.blocks ((places n).trans place)
    · intro i inside outside
      rw [written.bytes, if_neg (by omega), bytes]
  have part : ∀ other, (∀ i < count, other i = buf i) →
      inodeWrite stubs ino (count + 1) map other count offset =
        inodeWrite stubs ino (count + 1) map buf count offset := by
    intro other same
    have stop : (offset + count) % 2 ^ 64 = offset + count := Nat.mod_eq_of_lt (by omega)
    simp only [inodeWrite, stop]
    rw [writeLoop_congr bound]
    intro i below
    apply same
    omega
  rcases ends with ⟨_, ran⟩ | ⟨_, _, number, after, refused, ran⟩
  · refine ⟨count + 1, _, _, ran, by simp, range, ?_, by omega⟩
    intro other same
    exact (part other same).trans ran
  · obtain ⟨_, keptSize, kept⟩ := doc.refused written.valid refused
    have ownRange : OwnRange stubs ino map after count offset := by
      constructor
      · rw [keptSize]
        exact range.size
      · intro n a place
        exact (kept n).1.trans (range.blocks n a place)
      · intro i inside outside
        rw [(kept (i / blkSize)).byteAt]
        exact range.bytes i inside outside
    refine ⟨count + 1, _, _, ran, by simp, ownRange, ?_, by omega⟩
    intro other same
    exact (part other same).trans ran

/-- The sum wraps to a position before the offset that the file reaches, so nothing is
written. -/
theorem write_nothing (size_t : count < 2 ^ 64) (wraps : 2 ^ 64 ≤ offset + count)
    (uint32 : offset < 2 ^ 32) (reached : offset + count - 2 ^ 64 ≤ iSizeOf ino map) (fuel : Nat)
    (other : Nat → UInt8) :
    inodeWrite stubs ino (fuel + 1) map other count offset = (.ok (intOf count), map) := by
  have stop : (offset + count) % 2 ^ 64 = offset + count - 2 ^ 64 := by omega
  have ended : ¬ offset < offset + count - 2 ^ 64 := by omega
  simp only [inodeWrite, stop, if_neg (Nat.not_lt.mpr reached), writeLoop, if_neg ended]

theorem DocumentedErrors.write_size (doc : DocumentedErrors stubs ino valid)
    (mapValid : valid map) {fuel : Nat} {result : Except Stop Int} {after : Memory}
    (longer : iSizeOf ino map < (offset + count) % 2 ^ 64)
    (ran : inodeWrite stubs ino fuel map buf count offset = (result, after)) :
    iSizeOf ino after = (offset + count) % 2 ^ 32 := by
  have small : (offset + count) % 2 ^ 64 % 2 ^ 32 < 2 ^ 32 := Nat.mod_lt _ (by norm_num)
  obtain ⟨sizedValid, size, _⟩ := doc.setSize_bytes mapValid small
  simp only [inodeWrite, if_pos longer] at ran
  have kept : ∀ ended, writeLoop stubs buf ((offset + count) % 2 ^ 64) fuel offset 0
      (inodeSetSize stubs ino map ((offset + count) % 2 ^ 64 % 2 ^ 32)) = (ended, after) →
      iSizeOf ino after = (offset + count) % 2 ^ 32 := by
    intro ended looped
    rw [doc.writeLoop_size sizedValid looped, size]
    omega
  split at ran
  · rename_i looped
    cases ran
    exact kept _ looped
  · rename_i looped
    cases ran
    exact kept _ looped

/-- A write whose sum wraps past its 64 bits is safe on a file exactly when the file reaches
the wrapped sum and the count returned is negative. -/
theorem DocumentedErrors.wrapped_safe_iff (doc : DocumentedErrors stubs ino valid)
    (mapValid : valid map) (size_t : count < 2 ^ 64) (wraps : 2 ^ 64 ≤ offset + count)
    (uint32 : offset < 2 ^ 32) :
    WriteSafe stubs ino map buf count offset ↔
      offset + count - 2 ^ 64 ≤ iSizeOf ino map ∧ 2 ^ 31 ≤ count % 2 ^ 32 := by
  have long : 2 ^ 32 ≤ offset + count := by omega
  constructor
  · rintro ⟨fuel, result, after, ran, ended, _, _, fails⟩
    have reached : offset + count - 2 ^ 64 ≤ iSizeOf ino map := by
      by_contra longer
      have grows := doc.write_size mapValid (by omega) ran
      have unchanged := (fails long).2.1
      omega
    refine ⟨reached, ?_⟩
    cases fuel with
    | zero =>
        have stop : (offset + count) % 2 ^ 64 = offset + count - 2 ^ 64 := by omega
        simp only [inodeWrite, stop, if_neg (Nat.not_lt.mpr reached), writeLoop] at ran
        cases ran
        exact absurd rfl ended
    | succ fuel =>
        rw [write_nothing size_t wraps uint32 reached] at ran
        cases ran
        exact (intOf_neg count).mp (fails long).1
  · rintro ⟨reached, negative⟩
    refine ⟨1, _, map, write_nothing size_t wraps uint32 reached 0 buf, by simp, ?_, ?_, ?_⟩
    · exact ⟨Nat.le_refl _, fun _ _ place => place, fun _ _ _ => rfl⟩
    · intro other _
      exact write_nothing size_t wraps uint32 reached 0 other
    · intro _
      exact ⟨(intOf_neg count).mpr negative, rfl, fun _ _ => rfl⟩

end Writes

def sizedMap (size : Nat) : Memory := storeLE directMap (directIno + iSize) 4 size

theorem sizedMap_valid {size : Nat} (bound : size < 2 ^ 32) :
    DirectValid (sizedMap size) ∧ iSizeOf directIno (sizedMap size) = size ∧
      ∀ n, blockAt directStubs (sizedMap size) n = none := by
  obtain ⟨stays, sized, places, _⟩ :=
    directStubs_documented.storeSize directMap_fresh.valid bound (rfl : sizedMap size = _)
  exact ⟨stays, sized, fun n => (places n).trans (directMap_fresh.blocks n)⟩

theorem sizedMap_unsafe {size count offset : Nat} (buf : Nat → UInt8) (bound : size < 2 ^ 32)
    (long : 2 ^ 32 ≤ offset + count) (longer : size < (offset + count) % 2 ^ 64)
    (other : size ≠ (offset + count) % 2 ^ 32) :
    ¬ WriteSafe directStubs directIno (sizedMap size) buf count offset := by
  obtain ⟨stays, sized, _⟩ := sizedMap_valid bound
  rintro ⟨fuel, result, after, ran, _, _, _, fails⟩
  have grows := directStubs_documented.write_size stays (by rwa [sized]) ran
  have unchanged := (fails long).2.1
  rw [sized, grows] at unchanged
  exact other unchanged.symm

/-- A write is safe on every file exactly when its range fits into 32 bits, or when the sum
of its 64 bits is zero and the count returned is negative. -/
theorem inodeWrite_safe_iff {count offset : Nat} (size_t : count < 2 ^ 64)
    (uint32 : offset < 2 ^ 32) :
    (∀ (stubs : InodeStubs) (ino : Nat) (valid : Memory → Prop) (map : Memory)
      (buf : Nat → UInt8), DocumentedErrors stubs ino valid → valid map →
      WriteSafe stubs ino map buf count offset) ↔
    offset + count < 2 ^ 32 ∨ offset + count = 2 ^ 64 ∧ offset ≤ 2 ^ 31 := by
  constructor
  · intro safe
    by_contra unfit
    obtain ⟨long, wraps⟩ := not_or.mp unfit
    have direct : ∀ size < 2 ^ 32, ¬ (size < (offset + count) % 2 ^ 64 ∧
        size ≠ (offset + count) % 2 ^ 32) := by
      intro size bound broken
      exact sizedMap_unsafe (fun _ => 0) bound (by omega) broken.1 broken.2
        (safe _ _ _ _ _ directStubs_documented (sizedMap_valid bound).1)
    have empty := direct 0 (by norm_num)
    have one := direct 1 (by norm_num)
    have whole : offset + count = 2 ^ 64 := by omega
    have negative := ((directStubs_documented.wrapped_safe_iff
      (sizedMap_valid (show 0 < 2 ^ 32 by norm_num)).1 size_t whole.ge uint32).mp
      (safe _ _ _ _ (fun _ => 0) directStubs_documented
        (sizedMap_valid (show 0 < 2 ^ 32 by norm_num)).1)).2
    omega
  · rintro (fits | ⟨whole, low⟩) stubs ino valid map buf doc mapValid
    · exact doc.write_safe mapValid fits
    · exact (doc.wrapped_safe_iff mapValid size_t whole.ge uint32).mpr
        ⟨by omega, by omega⟩

theorem inodeWrite_safe_iff_sample :
    WriteSafe directStubs directIno directMap (fun _ => 65) 9 4092 ∧
      ¬ ∀ (stubs : InodeStubs) (ino : Nat) (valid : Memory → Prop) (map : Memory)
        (buf : Nat → UInt8), DocumentedErrors stubs ino valid → valid map →
        WriteSafe stubs ino map buf 9 (2 ^ 32 - 9) := by
  constructor
  · exact (inodeWrite_safe_iff (by norm_num) (by norm_num)).mpr (Or.inl (by norm_num))
      _ _ _ _ _ directStubs_documented directMap_fresh.valid
  · intro safe
    have fits := (inodeWrite_safe_iff (by norm_num) (by norm_num)).mp safe
    omega

/-- A file of a thousand bytes has one byte after two bytes at the last position. -/
theorem inodeWrite_unsafe :
    ¬ ∀ (stubs : InodeStubs) (ino : Nat) (valid : Memory → Prop) (map : Memory)
      (buf : Nat → UInt8) (count offset : Nat), count < 2 ^ 64 → offset < 2 ^ 32 →
      DocumentedErrors stubs ino valid → valid map →
      WriteSafe stubs ino map buf count offset := by
  intro always
  have small : (1000 : Nat) < 2 ^ 32 := by norm_num
  have safe := always _ _ _ _ (fun _ => 65) 2 (2 ^ 32 - 1) (by norm_num) (by norm_num)
    directStubs_documented (sizedMap_valid small).1
  exact sizedMap_unsafe (fun _ => 65) small (by norm_num) (by norm_num) (by norm_num) safe

/-! ## After an error -/

section Failures

variable {stubs : InodeStubs} {ino : Nat} {valid : Memory → Prop} {map : Memory}
  {buf : Nat → UInt8} {count offset : Nat}

def InodeStubs.refusing (stubs : InodeStubs) (block : Nat) : InodeStubs where
  blockWalk := stubs.blockWalk
  getBlock := fun map n =>
    if n = block ∧ blockAt stubs map n = none then (.error .nospc, map)
    else stubs.getBlock map n
  truncateBlocks := stubs.truncateBlocks

theorem DocumentedErrors.refusing (doc : DocumentedErrors stubs ino valid) (block : Nat) :
    DocumentedErrors (stubs.refusing block) ino
      fun map => valid map ∧ blockAt stubs map block = none where
  apart := fun mapValid => doc.apart mapValid.1
  inode := fun mapValid => doc.inode mapValid.1
  own := by
    intro map after mapValid same
    obtain ⟨stays, places⟩ := doc.own mapValid.1 same
    exact ⟨⟨stays, (places block).trans mapValid.2⟩, places⟩
  get := by
    intro map after n a mapValid got
    simp only [InodeStubs.refusing] at got
    split at got
    · cases got
    · rename_i given
      obtain ⟨stays, size, place, here, others⟩ := doc.get mapValid.1 got
      have other : block ≠ n := by
        intro same
        exact given ⟨same.symm, same ▸ mapValid.2⟩
      exact ⟨⟨stays, (others block other).1.trans mapValid.2⟩, size, place, here, others⟩
  truncate := by
    intro map newsize mapValid shorter
    obtain ⟨stays, size, blocks⟩ := doc.truncate mapValid.1 shorter
    refine ⟨⟨stays, ?_⟩, size, blocks⟩
    have gone := blocks block
    split at gone
    · exact gone
    · exact gone.1.trans mapValid.2
  found := by
    intro map n a mapValid place
    have there : ¬ (n = block ∧ blockAt stubs map n = none) := by
      rintro ⟨_, absent⟩
      rw [show blockAt stubs map n = some a from place] at absent
      cases absent
    obtain ⟨after, got⟩ := doc.found mapValid.1 place
    exact ⟨after, by simp only [InodeStubs.refusing, if_neg there, got]⟩
  refused := by
    intro map after n number mapValid got
    simp only [InodeStubs.refusing] at got
    split at got
    · cases got
      exact ⟨mapValid, rfl, fun _ => ⟨rfl, fun _ _ _ _ _ => rfl⟩⟩
    · obtain ⟨stays, size, kept⟩ := doc.refused mapValid.1 got
      exact ⟨⟨stays, (kept block).1.trans mapValid.2⟩, size, kept⟩

/-- A write that fails leaves the file as it was, whichever of its missing blocks the disk
has no room for. -/
def FailureKeeps (stubs : InodeStubs) (ino : Nat) (map : Memory) (buf : Nat → UInt8)
    (count offset : Nat) : Prop :=
  ∀ (getBlock : Memory → Nat → Except Errno Nat × Memory) (valid : Memory → Prop),
    DocumentedErrors { stubs with getBlock := getBlock } ino valid → valid map →
    ∀ fuel result after, count < fuel →
      inodeWrite { stubs with getBlock := getBlock } ino fuel map buf count offset =
        (result, after) →
      Failed result → Unchanged stubs ino map after

/-- The range lies in the file, and its bytes before `upto` are those of the buffer. -/
def AlreadyWritten (stubs : InodeStubs) (ino : Nat) (map : Memory) (buf : Nat → UInt8)
    (count offset upto : Nat) : Prop :=
  offset + count ≤ iSizeOf ino map ∧
    ∀ i, offset ≤ i → i < upto → byteAt stubs map i = buf (i - offset)

/-- Wherever the write may stop with a negative result, before a missing block or with a
count that is negative as an `int`, all it does up to there is to write what is there. -/
def HarmlessStops (stubs : InodeStubs) (ino : Nat) (map : Memory) (buf : Nat → UInt8)
    (count offset : Nat) : Prop :=
  (∀ i, offset ≤ i → i < offset + count → blockAt stubs map (i / blkSize) = none →
    AlreadyWritten stubs ino map buf count offset (i / blkSize * blkSize)) ∧
  (2 ^ 31 ≤ count → AlreadyWritten stubs ino map buf count offset (offset + count))

def Roomy (stubs : InodeStubs) (valid : Memory → Prop) (count offset : Nat) : Prop :=
  ∀ map, valid map → ∀ i, offset ≤ i → i < offset + count →
    ∃ a after, stubs.getBlock map (i / blkSize) = (.ok a, after)

theorem HarmlessStops.keeps (harmless : HarmlessStops stubs ino map buf count offset)
    (bound : offset + count < 2 ^ 32) : FailureKeeps stubs ino map buf count offset := by
  intro getBlock valid doc mapValid fuel result after enough ran failed
  obtain ⟨grown, reached, middle, grownValid, size, places, bytes, lower, upper, written, ends⟩ :=
    @Documented.inodeWrite _ _ _ _ doc.toDocumented mapValid buf fuel _ _ bound enough
  have unchanged : ∀ upto, AlreadyWritten stubs ino map buf count offset upto →
      (∀ i, offset ≤ i → i < reached → i < upto) → Unchanged stubs ino map middle := by
    intro upto already below
    constructor
    · rw [written.size, size]
      exact max_eq_left already.1
    · intro i inside
      refine (written.bytes i).trans ?_
      split
      · rename_i range
        exact (already.2 i range.1 (below i range.1 range.2)).symm
      · exact bytes i
  rcases ends with ⟨whole, done⟩ | ⟨short, place, number, last, refused, stopped⟩
  · rw [done] at ran
    cases ran
    have large : 2 ^ 31 ≤ count := by
      have negative := (intOf_neg count).mp failed
      omega
    apply unchanged _ (harmless.2 large)
    intro i _ below
    omega
  · rw [stopped] at ran
    cases ran
    obtain ⟨_, keptSize, kept⟩ := doc.refused written.valid refused
    have absent : blockAt stubs map (reached / blkSize) = none := by
      cases there : blockAt stubs map (reached / blkSize) with
      | none => rfl
      | some a =>
          obtain ⟨_, got⟩ := doc.found written.valid (written.blocks ((places _).trans there))
          rw [got] at refused
          cases refused
    obtain ⟨middleSize, middleBytes⟩ := unchanged _ (harmless.1 reached lower short absent) (by
      intro i above below
      simp only [blkSize] at *
      omega)
    constructor
    · exact keptSize.trans middleSize
    · intro i inside
      exact (kept (i / blkSize)).byteAt.trans (middleBytes i inside)

theorem FailureKeeps.harmless (keeps : FailureKeeps stubs ino map buf count offset)
    (doc : DocumentedErrors stubs ino valid) (mapValid : valid map)
    (bound : offset + count < 2 ^ 32) (room : Roomy stubs valid count offset) :
    HarmlessStops stubs ino map buf count offset := by
  constructor
  · intro position above below absent
    obtain ⟨block, blockEq⟩ : ∃ block, position / blkSize = block := ⟨_, rfl⟩
    rw [blockEq] at absent ⊢
    have full := doc.refusing block
    obtain ⟨grown, reached, middle, _, size, _, _, lower, upper, written, ends⟩ :=
      @Documented.inodeWrite _ _ _ _ full.toDocumented ⟨mapValid, absent⟩ buf (count + 1) _ _
        bound (Nat.lt_succ_self _)
    have missing : blockAt stubs middle block = none := written.valid.2
    rcases ends with ⟨whole, _⟩ | ⟨short, place, number, last, refused, stopped⟩
    · have got := written.got above (by omega)
      rw [blockEq] at got
      exact absurd missing got
    · obtain ⟨_, keptSize, kept⟩ := full.refused written.valid refused
      -- The only block that is refused is the one that the stub has no room for.
      have here : reached / blkSize = block := by
        by_contra elsewhere
        obtain ⟨a, got, gotten⟩ := room middle written.valid.1 reached lower short
        simp only [InodeStubs.refusing, elsewhere, false_and, if_false] at refused
        rw [gotten] at refused
        cases refused
      have unchanged := keeps _ _ full ⟨mapValid, absent⟩ _ _ _ (Nat.lt_succ_self _) stopped
        trivial
      have inside : offset + count ≤ iSizeOf ino map := by
        have after := keptSize.trans (written.size.trans size)
        have same := unchanged.1
        omega
      refine ⟨inside, fun i first last => ?_⟩
      have before : i < reached := by
        simp only [blkSize] at *
        omega
      rw [← unchanged.2 i (by omega)]
      refine ((kept (i / blkSize)).byteAt.trans (written.bytes i)).trans ?_
      rw [if_pos ⟨first, before⟩]
  · intro large
    obtain ⟨grown, reached, middle, _, size, _, _, lower, upper, written, ends⟩ :=
      @Documented.inodeWrite _ _ _ _ doc.toDocumented mapValid buf (count + 1) _ _ bound
        (Nat.lt_succ_self _)
    rcases ends with ⟨whole, done⟩ | ⟨short, _, number, last, refused, _⟩
    · have unchanged := keeps _ _ doc mapValid _ _ _ (Nat.lt_succ_self _) done
        ((intOf_neg count).mpr (by omega))
      have inside : offset + count ≤ iSizeOf ino map := by
        have after := written.size.trans size
        have same := unchanged.1
        omega
      refine ⟨inside, fun i first last => ?_⟩
      rw [← unchanged.2 i (by omega), written.bytes, if_pos ⟨first, by omega⟩]
    · obtain ⟨a, got, gotten⟩ := room middle written.valid reached lower short
      rw [gotten] at refused
      cases refused

/-- A failing write is harmless exactly when it can only stop where it has changed
nothing. -/
theorem inodeWrite_failure_iff (bound : offset + count < 2 ^ 32) :
    (HarmlessStops stubs ino map buf count offset →
      FailureKeeps stubs ino map buf count offset) ∧
    ((∃ valid, DocumentedErrors stubs ino valid ∧ valid map ∧ Roomy stubs valid count offset) →
      (FailureKeeps stubs ino map buf count offset ↔
        HarmlessStops stubs ino map buf count offset)) := by
  constructor
  · intro harmless
    exact harmless.keeps bound
  · rintro ⟨valid, doc, mapValid, room⟩
    constructor
    · intro keeps
      exact keeps.harmless doc mapValid bound room
    · intro harmless
      exact harmless.keeps bound

end Failures

/-- Three bytes for an empty file. -/
theorem inodeWrite_failure_iff_sample :
    ¬ FailureKeeps directStubs directIno directMap (fun _ => 65) 3 0 := by
  have room : Roomy directStubs DirectValid 3 0 := by
    intro map mapValid i _ below
    have first : i / blkSize = 0 := by
      simp only [blkSize]
      omega
    rw [first]
    by_cases empty : loadLE map (directSlot 0) 4 = 0
    · exact ⟨_, _, by simp only [directStubs, empty, if_true]; rfl⟩
    · exact ⟨_, _, by simp only [directStubs, empty, if_false]; rfl⟩
  have exact_when := (@inodeWrite_failure_iff directStubs directIno directMap (fun _ => 65) 3 0
    (by norm_num)).2 ⟨DirectValid, directStubs_documented, directMap_fresh.valid, room⟩
  intro keeps
  have inside := ((exact_when.mp keeps).1 0 (by norm_num) (by norm_num)
    (directMap_fresh.blocks _)).1
  rw [directMap_fresh.size] at inside
  omega

/-- The disk is full, and the file has a size without a byte being written. -/
theorem inodeWrite_failure_changes :
    ¬ ∀ (stubs : InodeStubs) (ino : Nat) (valid : Memory → Prop) (map : Memory)
      (buf : Nat → UInt8) (count offset fuel : Nat) (result : Except Stop Int)
      (after : Memory), DocumentedErrors stubs ino valid → valid map →
      offset + count < 2 ^ 32 → count < fuel →
      inodeWrite stubs ino fuel map buf count offset = (result, after) → Failed result →
      Unchanged stubs ino map after := by
  intro always
  obtain ⟨result, after, ran⟩ : ∃ result after, inodeWrite (directStubs.refusing 0) directIno 4
      directMap (fun _ => 65) 3 0 = (result, after) := ⟨_, _, rfl⟩
  have answer : (inodeWrite (directStubs.refusing 0) directIno 4 directMap
      (fun _ => 65) 3 0).1 = .error (.errno .nospc) := by
    decide +kernel
  have size : iSizeOf directIno (inodeWrite (directStubs.refusing 0) directIno 4 directMap
      (fun _ => 65) 3 0).2 = 3 := by
    decide +kernel
  rw [ran] at answer size
  have failed : Failed result := by
    rw [show result = _ from answer]
    trivial
  have unchanged := always _ _ _ _ (fun _ => 65) 3 0 4 result after
    (directStubs_documented.refusing 0) ⟨directMap_fresh.valid, directMap_fresh.blocks 0⟩
    (by norm_num) (by norm_num) ran failed
  have same : (3 : Nat) = 0 := size.symm.trans (unchanged.1.trans directMap_fresh.size)
  cases same

end OsLabs.Fs
