import OsLabs.Fs.ImageTree

/-!
# Filling an entry of a directory

`dir_alloc_dirent` finds a free entry or adds a block of them, `inode_create` fills the
entry.  `Filled` is what this means for the names of the directory.
-/

set_option autoImplicit false

namespace OsLabs.Fs

open OsLabs.ByteMemory OsLabs.ExceptRules

/-- `strcpy(d->d_name, name)` and `d->d_inum = number`. -/
def setDirent (map : Memory) (d : Nat) (name : Name) (number : Nat) : Memory :=
  storeLE (blit map (d + dName) (name.length + 1) fun i => name.getD i 0) (d + dInum) 4 number

/-! ## One entry filled -/

/-- The bytes of a directory before and after an entry is filled, where the directory may
have grown by free entries. -/
structure Filled (before after : Nat → UInt8) (old new k : Nat) (name : Name) (number : Nat) :
    Prop where
  grows : old ≤ new
  inside : k < new
  vacant : k < old → nameOf before k = []
  kept : ∀ j < old, j ≠ k →
    entryName after j = entryName before j ∧ entryInum after j = entryInum before j
  fresh : ∀ j, old ≤ j → j < new → j ≠ k →
    nameOf after j = [] ∧ (0 : UInt8) ∈ entryName after j
  named : nameOf after k = name ∧ (0 : UInt8) ∈ entryName after k
  inum : entryInum after k = number

section Filling

variable {before after : Nat → UInt8} {old new k number : Nat} {name : Name}

theorem Filled.keeps_name (filled : Filled before after old new k name number) {j : Nat}
    (inside : j < old) (other : j ≠ k) : nameOf after j = nameOf before j := by
  rw [nameOf, nameOf, (filled.kept j inside other).1]

theorem Filled.find_new (filled : Filled before after old new k name number)
    (some : name ≠ []) (missing : ∀ j < old, nameOf before j ≠ name) :
    (List.range new).find? (fun j => nameOf after j = name) = Option.some k := by
  have only : ∀ j < new, nameOf after j = name → j = k := by
    intro j inside same
    by_contra other
    by_cases there : j < old
    · rw [filled.keeps_name there other] at same
      exact missing j there same
    · rw [(filled.fresh j (by omega) inside other).1] at same
      exact some same.symm
  cases found : (List.range new).find? (fun j => nameOf after j = name) with
  | none =>
      have absent := List.find?_eq_none.mp found k (List.mem_range.mpr filled.inside)
      simp [filled.named.1] at absent
  | some j =>
      have inside := List.mem_range.mp (List.mem_of_find?_eq_some found)
      have same := List.find?_some found
      rw [only j inside (by simpa using same)]

theorem Filled.find_old (filled : Filled before after old new k name number) {later : Name}
    (some : later ≠ []) (other : later ≠ name) :
    (List.range new).find? (fun j => nameOf after j = later) =
      (List.range old).find? (fun j => nameOf before j = later) := by
  obtain ⟨more, rfl⟩ : ∃ more, new = old + more := ⟨new - old, by have := filled.grows; omega⟩
  have rest : ((List.range more).map (old + ·)).find? (fun j => nameOf after j = later) =
      none := by
    apply List.find?_eq_none.mpr
    intro j member
    obtain ⟨i, below, rfl⟩ := List.mem_map.mp member
    rw [List.mem_range] at below
    rw [decide_eq_true_iff]
    by_cases here : old + i = k
    · rw [here, filled.named.1]
      exact other.symm
    · rw [(filled.fresh (old + i) (by omega) (by omega) here).1]
      exact some.symm
  rw [List.range_add, List.find?_append, rest, Option.or_none]
  apply List.find?_congr
  intro j member
  rw [List.mem_range] at member
  by_cases here : j = k
  · rw [here] at member
    rw [here, filled.named.1, filled.vacant member]
    simp [some.symm, other.symm]
  · rw [filled.keeps_name member here]

theorem Filled.distinct (filled : Filled before after old new k name number)
    (missing : ∀ j < old, nameOf before j ≠ name)
    (distinct : ∀ i < old, ∀ j < old, nameOf before i ≠ [] →
      nameOf before i = nameOf before j → i = j) :
    ∀ i < new, ∀ j < new, nameOf after i ≠ [] → nameOf after i = nameOf after j → i = j := by
  -- an entry in use is the new one or an old one
  have used : ∀ j < new, nameOf after j ≠ [] →
      j = k ∨ j < old ∧ j ≠ k ∧ nameOf after j = nameOf before j := by
    intro j inside some
    by_cases here : j = k
    · exact Or.inl here
    · by_cases there : j < old
      · exact Or.inr ⟨there, here, filled.keeps_name there here⟩
      · exact absurd (filled.fresh j (by omega) inside here).1 some
  intro i iInside j jInside some same
  have also : nameOf after j ≠ [] := by
    rw [← same]
    exact some
  rcases used i iInside some with rfl | ⟨iOld, _, iName⟩
  · rcases used j jInside also with rfl | ⟨jOld, _, jName⟩
    · rfl
    · rw [filled.named.1, jName] at same
      exact absurd same.symm (missing j jOld)
  · rcases used j jInside also with rfl | ⟨jOld, _, jName⟩
    · rw [filled.named.1, iName] at same
      exact absurd same (missing i iOld)
    · rw [iName] at some same
      rw [jName] at same
      exact distinct i iOld j jOld some same

end Filling

section Image

variable {stubs : Nat → InodeStubs} {live : Nat → Prop} {valid : Memory → Prop}
  {allocBlock : Memory → Except Errno Nat × Memory} {map middle after : Memory}
  {root dir d k number : Nat} {name : Name}

/-! ## dir_alloc_dirent -/

/-- Entry `k` of the directory is free, and what the directory has gained is zero. -/
structure Prepared (stubs : Nat → InodeStubs) (live : Nat → Prop) (dir k : Nat)
    (before after : Memory) : Prop where
  image : SameImage stubs live (· = dir) before after
  whole : iSizeOf dir after % blkSize = 0
  grows : iSizeOf dir before ≤ iSizeOf dir after
  allocated : Allocated (stubs dir) dir after
  bytes : ∀ i < iSizeOf dir before, byteAt (stubs dir) after i = byteAt (stubs dir) before i
  free : ∀ i, iSizeOf dir before ≤ i → i < iSizeOf dir after → byteAt (stubs dir) after i = 0
  entry : k ∈ entriesOf dir after
  vacant : byteAt (stubs dir) after (k * direntSize + dName) = 0

theorem Prepared.extended {blk : Nat} (whole : iSizeOf dir map % blkSize = 0)
    (allocated : Allocated (stubs dir) dir map)
    (image : SameImage stubs live (· = dir) map after)
    (size : iSizeOf dir after = iSizeOf dir map + blkSize)
    (place : blockAt (stubs dir) after (iSizeOf dir map / blkSize) = some blk)
    (others : ∀ n, n ≠ iSizeOf dir map / blkSize → Kept (stubs dir) map after n)
    (zeros : ∀ i, iSizeOf dir map ≤ i → i < iSizeOf dir map + blkSize →
      byteAt (stubs dir) after i = 0) :
    Prepared stubs live dir (iSizeOf dir map / blkSize * blkDirents) map after ∧
      blk = entryAddress (stubs dir) after (iSizeOf dir map / blkSize * blkDirents) := by
  obtain ⟨nblock, blocks⟩ : ∃ nblock, iSizeOf dir map / blkSize = nblock := ⟨_, rfl⟩
  have bound : iSizeOf dir map = nblock * blkSize := by
    rw [← blocks]
    exact (Nat.div_mul_cancel (Nat.dvd_of_mod_eq_zero whole)).symm
  rw [blocks] at place others ⊢
  constructor
  · refine ⟨image, ?_, ?_, ?_, ?_, ?_, ?_, ?_⟩
    · rw [size, bound, ← Nat.succ_mul]
      exact Nat.mul_mod_left _ _
    · omega
    · intro n below
      by_cases here : n = nblock
      · rw [here, place]
        exact Option.some_ne_none _
      · rw [(others n here).1]
        apply allocated
        simp only [blkSize] at *
        omega
    · intro i below
      apply (others (i / blkSize) _).byteAt
      simp only [blkSize] at *
      omega
    · intro i lower upper
      exact zeros i lower (by omega)
    · rw [entriesOf, List.mem_range]
      simp only [blkSize, blkDirents, direntSize] at *
      omega
    · apply zeros
      · simp only [blkSize, blkDirents, direntSize] at *
        omega
      · simp only [blkSize, blkDirents, direntSize, dName] at *
        omega
  · have first : nblock * blkDirents / blkDirents = nblock :=
      Nat.mul_div_cancel _ (by decide)
    rw [entryAddress, first, dirBlock_eq place, Nat.mul_mod_left, Nat.zero_mul, Nat.add_zero]

theorem ImageDocumented.getBlock_zeros (doc : ImageDocumented stubs live allocBlock valid)
    (mapValid : valid map) (there : live dir) {n blk : Nat}
    (zeros : ∀ i, i / blkSize = n → byteAt (stubs dir) map i = 0)
    (got : (stubs dir).getBlock map n = (.ok blk, after)) :
    valid after ∧ SameImage stubs live (· = dir) map after ∧
      iSizeOf dir after = iSizeOf dir map ∧ blockAt (stubs dir) after n = some blk ∧
      (∀ m, m ≠ n → Kept (stubs dir) map after m) ∧
      ∀ i, i / blkSize = n → byteAt (stubs dir) after i = 0 := by
  cases place : blockAt (stubs dir) map n with
  | some old =>
      rw [doc.found mapValid there place] at got
      cases got
      exact ⟨mapValid, SameImage.refl, rfl, place, fun _ _ => ⟨rfl, fun _ _ _ _ _ => rfl⟩,
        zeros⟩
  | none =>
      obtain ⟨stays, image, size, here, zero, others⟩ := doc.new mapValid there place got
      refine ⟨stays, image, size, here, others, ?_⟩
      intro i block
      rw [byteAt_some (block ▸ here)]
      apply zero
      · exact Nat.le_add_right _ _
      · have := Nat.mod_lt i (show 0 < blkSize by decide)
        omega

theorem ImageDocumented.prepares (doc : ImageDocumented stubs live allocBlock valid)
    (mapValid : valid map) (there : live dir) (whole : iSizeOf dir map % blkSize = 0)
    (allocated : Allocated (stubs dir) dir map) (small : iSizeOf dir map < 2 ^ 32 - blkSize)
    (behind : ∀ i, iSizeOf dir map ≤ i → i < iSizeOf dir map + blkSize →
      byteAt (stubs dir) map i = 0)
    (ran : dirAllocDirent (stubs dir) dir map = (.ok d, after)) :
    valid after ∧ ∃ k, Prepared stubs live dir k map after ∧
      d = entryAddress (stubs dir) after k := by
  obtain ⟨last, same, scanned⟩ := (doc.returns mapValid there).scan_free rfl allocated
  rw [same.valid] at scanned
  simp only [dirAllocDirent, whole, ne_eq, not_true, if_false, scanned] at ran
  cases first : (entriesOf dir map).find?
      fun k => byteAt (stubs dir) map (k * direntSize + dName) == 0 with
  | some k =>
      rw [first] at ran
      cases ran
      have zero := List.find?_some first
      refine ⟨mapValid, k, ⟨SameImage.refl, whole, Nat.le_refl _, allocated, fun _ _ => rfl, ?_,
        List.mem_of_find?_eq_some first, by simpa using zero⟩, rfl⟩
      intro i lower upper
      omega
  | none =>
      rw [first] at ran
      simp only [Option.map_none] at ran
      have sum : (iSizeOf dir map + blkSize) % 2 ^ 32 = iSizeOf dir map + blkSize :=
        Nat.mod_eq_of_lt (by omega)
      rw [sum] at ran
      obtain ⟨grown, grownEq⟩ : ∃ grown,
          storeLE map (dir + iSize) 4 (iSizeOf dir map + blkSize) = grown := ⟨_, rfl⟩
      rw [grownEq] at ran
      obtain ⟨stays, image, grownSize, kept⟩ := doc.write_size mapValid there
        (show iSizeOf dir map + blkSize < 2 ^ 32 by omega) grownEq.symm
      cases got : (stubs dir).getBlock grown (iSizeOf dir map / blkSize) with
      | mk answer final =>
          rw [got] at ran
          cases answer with
          | error number => cases ran
          | ok blk =>
              cases ran
              obtain ⟨finalValid, onward, size, place, others, zeros⟩ :=
                doc.getBlock_zeros stays there (by
                  intro i block
                  rw [(kept _).byteAt]
                  apply behind
                  · simp only [blkSize] at *
                    omega
                  · simp only [blkSize] at *
                    omega) got
              refine ⟨finalValid, _, Prepared.extended whole allocated (image.trans onward)
                (size.trans grownSize) place
                (fun n apart => (kept n).trans (others n apart)) ?_⟩
              intro i lower upper
              apply zeros
              simp only [blkSize] at *
              omega

/-! ## Writing an entry -/

theorem entry_block (entry : k ∈ entriesOf dir map) :
    k / blkDirents < iSizeOf dir map / blkSize := by
  rw [entriesOf, List.mem_range] at entry
  exact Nat.div_lt_of_lt_mul (by rwa [Nat.mul_comm])

theorem strcmpZero_getD {s : Nat → UInt8} (same : ∀ i ≤ name.length, s i = name.getD i 0) :
    strcmpZero s name = true := by
  induction name generalizing s with
  | nil =>
      have zero := same 0 (Nat.le_refl _)
      rw [strcmpZero, zero]
      rfl
  | cons byte rest ih =>
      have head : s 0 = byte := same 0 (Nat.zero_le _)
      have tail := @ih (fun i => s (i + 1)) (by
        intro i below
        have later := same (i + 1) (by simpa using below)
        simpa using later)
      rw [strcmpZero, head, tail]
      simp

theorem entry_congr {before after : Nat → UInt8} {j : Nat}
    (same : ∀ x < direntSize, after (j * direntSize + x) = before (j * direntSize + x)) :
    entryName after j = entryName before j ∧ entryInum after j = entryInum before j := by
  constructor
  · apply List.map_congr_left
    intro i member
    have byte := same (dName + i) (by
      rw [List.mem_range] at member
      simp only [dName, direntSize, nameMax] at *
      omega)
    rw [← Nat.add_assoc] at byte
    exact byte
  · apply loadLE_copy
    intro i below
    have byte := same (dInum + i) (by simp only [dInum, direntSize]; omega)
    rw [← Nat.add_assoc] at byte
    exact byte

theorem entry_zero {bytes : Nat → UInt8} {j : Nat}
    (zero : ∀ x < direntSize, bytes (j * direntSize + x) = 0) :
    nameOf bytes j = [] ∧ (0 : UInt8) ∈ entryName bytes j := by
  have name : entryName bytes j = List.replicate nameMax 0 := by
    apply List.eq_replicate_iff.mpr
    refine ⟨by simp [entryName], ?_⟩
    intro byte member
    obtain ⟨i, inside, rfl⟩ := List.mem_map.mp member
    rw [List.mem_range] at inside
    rw [Nat.add_assoc]
    apply zero
    simp only [dName, direntSize, nameMax] at *
    omega
  rw [nameOf, name]
  constructor
  · rfl
  · exact List.mem_replicate.mpr ⟨by decide, rfl⟩

theorem entryAddress_byte {file : InodeStubs} {x : Nat}
    (there : blockAt file map (k / blkDirents) ≠ none) (within : x < direntSize) :
    byteAt file map (k * direntSize + x) = map (entryAddress file map k + x) := by
  have byte := entry_byte there (Nat.mod_lt k (show 0 < blkDirents by decide)) within
  rw [Nat.div_add_mod'] at byte
  exact byte

theorem setDirent_bytes (short : name.length < nameMax)
    (stored : after = setDirent map d name number) :
    (∀ x, x < d ∨ d + direntSize ≤ x → after x = map x) ∧
      (∀ i ≤ name.length, after (d + (dName + i)) = name.getD i 0) ∧
      loadLE after (d + dInum) 4 = number % 2 ^ 32 := by
  subst stored
  simp only [setDirent]
  refine ⟨?_, ?_, ?_⟩
  · intro x outside
    simp only [dName, dInum, direntSize, nameMax] at *
    rw [storeLE_outside (by omega), blit, if_neg (by omega)]
  · intro i below
    simp only [dName, dInum] at *
    rw [storeLE_outside (by omega), blit, if_pos (by omega)]
    congr 1
    omega
  · rw [loadLE_storeLE]
    norm_num

/-- Nothing but entry `k` of the directory has been written. -/
structure EntryWritten (stubs : Nat → InodeStubs) (live : Nat → Prop) (dir k : Nat)
    (before after : Memory) : Prop where
  image : SameImage stubs live (· = dir) before after
  size : iSizeOf dir after = iSizeOf dir before
  places : ∀ m, blockAt (stubs dir) after m = blockAt (stubs dir) before m
  others : ∀ i, i < k * direntSize ∨ k * direntSize + direntSize ≤ i →
    byteAt (stubs dir) after i = byteAt (stubs dir) before i

structure EntrySet (stubs : Nat → InodeStubs) (live : Nat → Prop) (dir k : Nat) (name : Name)
    (number : Nat) (before after : Memory) : Prop
    extends EntryWritten stubs live dir k before after where
  named : nameOf (byteAt (stubs dir) after) k = name
  terminated : (0 : UInt8) ∈ entryName (byteAt (stubs dir) after) k
  inum : entryInum (byteAt (stubs dir) after) k = number

theorem ImageDocumented.write_entry (doc : ImageDocumented stubs live allocBlock valid)
    (mapValid : valid map) (there : live dir)
    (present : blockAt (stubs dir) map (k / blkDirents) ≠ none)
    (outside : ∀ x, x < entryAddress (stubs dir) map k ∨
      entryAddress (stubs dir) map k + direntSize ≤ x → after x = map x) :
    valid after ∧ EntryWritten stubs live dir k map after ∧
      ∀ x < direntSize, byteAt (stubs dir) after (k * direntSize + x) =
        after (entryAddress (stubs dir) map k + x) := by
  obtain ⟨blk, place⟩ := Option.ne_none_iff_exists'.mp present
  have address : entryAddress (stubs dir) map k = blk + k % blkDirents * direntSize := by
    rw [entryAddress, dirBlock_eq place]
  have slot := Nat.mod_lt k (show 0 < blkDirents by decide)
  obtain ⟨stays, image, size, places, kept⟩ := doc.write_block mapValid there place (by
    intro x apart
    apply outside
    rw [address]
    simp only [blkDirents, blkSize, direntSize] at *
    omega)
  have here : entryAddress (stubs dir) after k = entryAddress (stubs dir) map k := by
    rw [entryAddress, entryAddress, dirBlock, dirBlock, places]
  refine ⟨stays, ⟨image, size, places, ?_⟩, ?_⟩
  · intro i apart
    by_cases same : i / blkSize = k / blkDirents
    · have old : blockAt (stubs dir) map (i / blkSize) = some blk := same ▸ place
      rw [byteAt_some old, byteAt_some ((places _).trans old)]
      apply outside
      rw [address]
      simp only [blkDirents, blkSize, direntSize] at *
      omega
    · exact (kept _ same).byteAt
  · intro x within
    rw [entryAddress_byte (by rw [places]; exact present) within, here]

theorem ImageDocumented.set_entry (doc : ImageDocumented stubs live allocBlock valid)
    (mapValid : valid map) (there : live dir)
    (present : blockAt (stubs dir) map (k / blkDirents) ≠ none) (short : name.length < nameMax)
    (string : (0 : UInt8) ∉ name) (bound : number < 2 ^ 32)
    (stored : after = setDirent map (entryAddress (stubs dir) map k) name number) :
    valid after ∧ EntrySet stubs live dir k name number map after := by
  obtain ⟨outside, chars, inum⟩ := setDirent_bytes short stored
  obtain ⟨stays, written, bytes⟩ := doc.write_entry mapValid there present outside
  have letters : ∀ i ≤ name.length,
      byteAt (stubs dir) after (k * direntSize + dName + i) = name.getD i 0 := by
    intro i below
    rw [Nat.add_assoc, bytes _ (by simp only [dName, direntSize, nameMax] at *; omega)]
    exact chars i below
  refine ⟨stays, written, ?_, ?_, ?_⟩
  · rw [← nameAt_iff string short]
    exact strcmpZero_getD letters
  · refine List.mem_map.mpr ⟨name.length, List.mem_range.mpr short, ?_⟩
    rw [letters _ (Nat.le_refl _)]
    simp
  · have copied : entryInum (byteAt (stubs dir) after) k =
        loadLE after (entryAddress (stubs dir) map k + dInum) 4 := by
      apply loadLE_copy
      intro i below
      rw [Nat.add_assoc, Nat.add_assoc]
      exact bytes _ (by simp only [dInum, direntSize]; omega)
    rw [copied, inum, Nat.mod_eq_of_lt bound]

theorem Filled.of_entry (prepared : Prepared stubs live dir k map middle)
    (whole : iSizeOf dir map % blkSize = 0)
    {cleared : Memory} (same : byteAt (stubs dir) cleared = byteAt (stubs dir) middle)
    (size : iSizeOf dir cleared = iSizeOf dir middle)
    (set : EntrySet stubs live dir k name number cleared after) :
    Filled (byteAt (stubs dir) map) (byteAt (stubs dir) after)
      (iSizeOf dir map / blkSize * blkDirents) (iSizeOf dir after / blkSize * blkDirents)
      k name number := by
  have sizes : iSizeOf dir after = iSizeOf dir middle := set.size.trans size
  have grows := prepared.grows
  have middleWhole := prepared.whole
  have others : ∀ j, j ≠ k → ∀ x < direntSize, byteAt (stubs dir) after (j * direntSize + x) =
      byteAt (stubs dir) middle (j * direntSize + x) := by
    intro j different x within
    rw [← same]
    apply set.others
    simp only [direntSize] at *
    omega
  rw [sizes]
  refine ⟨?_, ?_, ?_, ?_, ?_, ⟨set.named, set.terminated⟩, set.inum⟩
  · exact Nat.mul_le_mul_right _ (Nat.div_le_div_right grows)
  · have entry := prepared.entry
    rwa [entriesOf, List.mem_range] at entry
  · intro old
    have zero : byteAt (stubs dir) map (k * direntSize + dName) = 0 := by
      rw [← prepared.bytes]
      · exact prepared.vacant
      · simp only [blkSize, blkDirents, direntSize, dName] at *
        omega
    rw [nameOf, entryName, List.range_succ_eq_map, List.map_cons, Nat.add_zero, zero]
    rfl
  · intro j old different
    apply entry_congr
    intro x within
    rw [others j different x within]
    apply prepared.bytes
    simp only [blkSize, blkDirents, direntSize] at *
    omega
  · intro j lower upper different
    apply entry_zero
    intro x within
    rw [others j different x within]
    apply prepared.free
    · simp only [blkSize, blkDirents, direntSize] at *
      omega
    · simp only [blkSize, blkDirents, direntSize] at *
      omega

end Image

end OsLabs.Fs
