import OsLabs.Fs.FormatDirectory
import OsLabs.Fs.FormatData
import OsLabs.Fs.InodeBlocks

/-!
# Where a file of a new image lies

An inode made by fsformat, its data and its index tables are three ranges of the image, and
what the inode is read as depends on nothing else.
-/

set_option autoImplicit false

namespace OsLabs.Fs

open OsLabs.ByteMemory OsLabs.ExceptRules

/-- The block number is zero or that of a block in the range. -/
def Within (lower upper number : Nat) : Prop :=
  number = 0 ∨ lower ≤ blkSize * number ∧ blkSize * number + blkSize ≤ upper

/-- The index tables of the inode lie in a range of the image. -/
structure TablesIn (inode lower upper : Nat) (map : Memory) : Prop where
  indirect : Within lower upper (wordAt map (inode + iIndirect) 0)
  double : Within lower upper (wordAt map (inode + iDouble) 0)
  tables : wordAt map (inode + iDouble) 0 ≠ 0 → ∀ j < nIndirect,
    Within lower upper (wordAt map (blkSize * wordAt map (inode + iDouble) 0) j)

section Tables

variable {inode lower upper start blocks len : Nat} {before after : Memory}

theorem wordAt_range {table k : Nat} (same : ∀ x, lower ≤ x → x < upper → after x = before x)
    (first : lower ≤ table + 4 * k) (last : table + 4 * k + 4 ≤ upper) :
    wordAt after table k = wordAt before table k := by
  apply wordAt_congr
  intro x above below
  exact same x (by omega) (by omega)

theorem Within.wordAt {number k : Nat} (within : Within lower upper number) (present : number ≠ 0)
    (inside : k < nIndirect) (same : ∀ x, lower ≤ x → x < upper → after x = before x) :
    wordAt after (blkSize * number) k = Fs.wordAt before (blkSize * number) k := by
  obtain ⟨above, below⟩ := within.resolve_left present
  simp only [nIndirect, blkSize] at *
  exact wordAt_range same (by omega) (by omega)

theorem pointers_same (pointers : AgreeOn before after (inode + iDirect) 48) :
    wordAt after (inode + iIndirect) 0 = wordAt before (inode + iIndirect) 0 ∧
      wordAt after (inode + iDouble) 0 = wordAt before (inode + iDouble) 0 := by
  have indirect : iIndirect = iDirect + 40 := rfl
  have double : iDouble = iDirect + 44 := rfl
  constructor
  · exact wordAt_range pointers (by omega) (by omega)
  · exact wordAt_range pointers (by omega) (by omega)

theorem TablesIn.slotOf (tables : TablesIn inode lower upper before)
    (pointers : AgreeOn before after (inode + iDirect) 48)
    (same : ∀ x, lower ≤ x → x < upper → after x = before x) (n : Nat) :
    slotOf after inode n = Fs.slotOf before inode n := by
  obtain ⟨indirect, double⟩ := pointers_same pointers
  rw [Fs.slotOf, Fs.slotOf, indirect, double]
  by_cases direct : n < nDirect
  · rw [if_pos direct, if_pos direct]
    simp only [nDirect] at direct
    exact congrArg some (wordAt_range pointers (by omega) (by omega))
  · rw [if_neg direct, if_neg direct]
    by_cases middle : n < nDirect + nIndirect
    · rw [if_pos middle, if_pos middle]
      by_cases absent : wordAt before (inode + iIndirect) 0 = 0
      · simp only [if_pos absent]
      · simp only [if_neg absent]
        exact congrArg some (tables.indirect.wordAt absent (by omega) same)
    · rw [if_neg middle, if_neg middle]
      by_cases large : n < nDirect + nIndirect + nDouble
      · rw [if_pos large, if_pos large]
        have place : (n - nDirect - nIndirect) / nIndirect < nIndirect := by
          simp only [nDirect, nIndirect, nDouble, blkSize] at *
          omega
        by_cases absent : wordAt before (inode + iDouble) 0 = 0
        · simp only [if_pos absent]
        · simp only [if_neg absent, tables.double.wordAt absent place same]
          by_cases missing : wordAt before (blkSize * wordAt before (inode + iDouble) 0)
              ((n - nDirect - nIndirect) / nIndirect) = 0
          · simp only [if_pos missing]
          · have offset : (n - nDirect - nIndirect) % nIndirect < nIndirect :=
              Nat.mod_lt _ (by decide)
            simp only [if_neg missing]
            exact congrArg some ((tables.tables absent _ place).wordAt missing offset same)
      · rw [if_neg large, if_neg large]

theorem TablesIn.congr (tables : TablesIn inode lower upper before)
    (pointers : AgreeOn before after (inode + iDirect) 48)
    (same : ∀ x, lower ≤ x → x < upper → after x = before x) :
    TablesIn inode lower upper after := by
  obtain ⟨indirect, double⟩ := pointers_same pointers
  refine ⟨indirect ▸ tables.indirect, double ▸ tables.double, ?_⟩
  rw [double]
  intro present j inside
  rw [tables.double.wordAt present inside same]
  exact tables.tables present j inside

end Tables

/-! ## The tables that finishinode makes -/

section Finish

variable {disk last : Disk} {inode start blocks len : Nat}

theorem fillDouble_pos {inind togo j i : Nat}
    (run : fillDouble inind start blocks togo j i disk = .ok last) :
    last.pos = disk.pos + 4096 * togo := by
  induction togo generalizing j i disk with
  | zero =>
      cases run
      rfl
  | succ togo ih =>
      rw [fillDouble] at run
      obtain ⟨⟨ind, made⟩, given, run⟩ := bind_eq_ok.mp run
      obtain ⟨_, _, position⟩ := alloc_block_moves given
      have rest := ih run
      simp only at rest
      omega

theorem within_linked {lower upper number pos : Nat} (link : blkSize * number = pos)
    (above : lower ≤ pos) (below : pos + blkSize ≤ upper) : Within lower upper number :=
  Or.inr (by omega)

theorem DirectStage.tables {made : Disk} {map : Memory}
    (stage : DirectStage inode start blocks len disk.map map) (fresh : FreshInode disk inode)
    (image : disk.pos + 4096 * 1026 < 2 ^ 43) (small : start + blocks ≤ 2 ^ 32)
    (full : nDirect ≤ blocks) {ind : Nat}
    (given : alloc .indirect blkSize { disk with map := map } = .ok (ind, made))
    {looped : Nat × Memory}
    (loopedEq : fillTable ind nDirect start blocks nIndirect nDirect
      (storeLE made.map (inode + iIndirect) 4 (blockof ind)) = looped)
    (run : (if looped.1 = nDirect + nIndirect then do
        let (inind, disk) ← alloc .double blkSize { made with map := looped.2 }
        let map := storeLE disk.map (inode + iDouble) 4 (blockof inind)
        fillDouble inind start blocks nIndirect 0 looped.1 { disk with map := map }
      else .ok { made with map := looped.2 }) = .ok last) :
    TablesIn inode disk.pos last.pos last.map := by
  have inside := fresh.inside
  have below := fresh.below
  have slot : inode + iIndirect + 4 ≤ disk.pos := by
    simp only [iIndirect, blkSize] at below ⊢
    omega
  have next : iDouble = iIndirect + 4 := rfl
  obtain ⟨rfl, madeMap, madeBlocks, madePos, madeInside⟩ :=
    @alloc_block _ { disk with map := map } made ind inside (show disk.pos < 2 ^ 43 by omega) given
  simp only at madeMap madeBlocks madePos loopedEq
  rw [madeMap] at loopedEq
  have free : ∀ x, disk.pos ≤ x → x < disk.nblocks * 4096 → map x = 0 := by
    intro x lower upper
    rw [stage.kept x (Or.inr (by omega))]
    exact fresh.free x lower upper
  have table := tableMade fresh.aligned (by omega) slot (Or.inl rfl)
    small (rfl : 10 + 1024 = 10 + 1024) (fun x lower upper => free x lower (by omega))
  have indirect := stage.indirect table below
  have reached := fillTable_index disk.pos nDirect start nIndirect
    (storeLE map (inode + iIndirect) 4 (blockof disk.pos)) full
  rw [loopedEq] at reached
  change IndirectStage inode disk.pos start blocks len disk.map (fillTable disk.pos nDirect
    start blocks nIndirect nDirect
    (storeLE map (inode + iIndirect) 4 (blockof disk.pos))).2 at indirect
  rw [loopedEq] at indirect
  have width : nDirect + nIndirect = 1034 := rfl
  rw [width] at reached run
  have link := indirect.indirect.link
  by_cases more : looped.1 = 1034
  · rw [if_pos more, more] at run
    obtain ⟨⟨inind, further⟩, given', run⟩ := bind_eq_ok.mp run
    have middleFree : ∀ x, made.pos ≤ x → x < made.nblocks * 4096 → looped.2 x = 0 := by
      intro x lower upper
      rw [madeBlocks] at upper
      rw [indirect.kept x (Or.inr (by omega)) (by omega)]
      exact fresh.free x (by omega) upper
    obtain ⟨_, _, position⟩ := @alloc_block_moves { made with map := looped.2 } further _ _ given'
    have ends := fillDouble_pos run
    simp only [nIndirect, blkSize] at position ends
    obtain ⟨double, _, kept⟩ := @doubleMade inode start blocks
      { made with map := looped.2 } further last inind given' run
      (show made.pos + 4096 * 1025 < 2 ^ 43 by omega) madeInside
      (show made.pos % 4096 = 0 by rw [madePos]; have := fresh.aligned; omega)
      (show inode + blkSize ≤ made.pos by omega) (by omega) (by omega) middleFree
    simp only at kept
    have pointer : wordAt last.map (inode + iIndirect) 0 =
        wordAt looped.2 (inode + iIndirect) 0 := by
      apply wordAt_congr
      intro x lower upper
      exact kept x (by omega) (by omega)
    refine ⟨?_, ?_, ?_⟩
    · rw [pointer]
      exact within_linked link (Nat.le_refl _) (by simp only [blkSize]; omega)
    · exact within_linked double.link (show disk.pos ≤ made.pos by omega)
        (show made.pos + 4096 ≤ last.pos by omega)
    · intro _ j below
      have home : blkSize * wordAt last.map (inode + iDouble) 0 = made.pos := double.link
      have entry : blkSize * wordAt last.map made.pos j = made.pos + 4096 * (j + 1) :=
        double.tables j below
      simp only [nIndirect, blkSize] at below
      rw [home]
      exact within_linked entry (by omega) (by simp only [blkSize]; omega)
  · rw [if_neg more] at run
    cases run
    have missing : wordAt looped.2 (inode + iDouble) 0 = 0 := by
      apply wordAt_zero
      intro x lower upper
      have order : iDouble = iDirect + 44 := rfl
      have room : inode + iDouble + 4 ≤ disk.pos := by
        simp only [iDouble, blkSize] at below ⊢
        omega
      rw [indirect.kept x (Or.inr (by omega)) (by omega)]
      exact fresh.slots x (by omega) (by omega)
    refine ⟨?_, Or.inl missing, fun present => absurd missing present⟩
    exact within_linked link (Nat.le_refl _) (by simp only [blkSize]; omega)

end Finish

/-! ## A file in its place -/

/-- The inode, the first block of the data, and the range of the tables. -/
structure Place where
  ino : Nat
  start : Nat
  lower : Nat
  upper : Nat
  deriving DecidableEq, Repr

/-- The inode at the place is that of a file with these bytes. -/
structure Laid (place : Place) (length : Nat) (bytes : Nat → UInt8) (map : Memory) :
    Prop where
  block : place.ino % blkSize = 0
  behindInode : place.ino + blkSize ≤ blkSize * place.start
  inFront : blkSize * (place.start + dataBlocks length) ≤ place.lower
  range : place.lower ≤ place.upper
  size : iSizeOf place.ino map = length
  slots : ∀ k < dataBlocks length, slotOf map place.ino k = some (place.start + k)
  behind : ∀ k, dataBlocks length ≤ k → k < nDirect + nIndirect + nDouble →
    slotOf map place.ino k = none ∨ slotOf map place.ino k = some 0
  tables : TablesIn place.ino place.lower place.upper map
  bytes : ∀ i < length, map (blkSize * place.start + i) = bytes i

def Place.Has (place : Place) (x : Nat) : Prop :=
  place.ino + iSize ≤ x ∧ x < place.ino + blkSize ∨
    blkSize * place.start ≤ x ∧ x < place.upper

section Files

variable {place : Place} {length : Nat} {bytes : Nat → UInt8} {before after : Memory}

theorem le_dataBlocks (size : Nat) : size ≤ blkSize * dataBlocks size := by
  simp only [dataBlocks, blkSize]
  omega

theorem Laid.congr (laid : Laid place length bytes before)
    (same : ∀ x, place.Has x → after x = before x) : Laid place length bytes after := by
  have inFront := laid.inFront
  have range := laid.range
  have whole := le_dataBlocks length
  have inode : ∀ x, place.ino + iSize ≤ x → x < place.ino + blkSize → after x = before x :=
    fun x lower upper => same x (Or.inl ⟨lower, upper⟩)
  have rest : ∀ x, blkSize * place.start ≤ x → x < place.upper → after x = before x :=
    fun x lower upper => same x (Or.inr ⟨lower, upper⟩)
  rw [Nat.mul_add] at inFront
  have pointers : AgreeOn before after (place.ino + iDirect) 48 := by
    intro x lower upper
    apply inode
    · simp only [iSize, iDirect] at *
      omega
    · simp only [iDirect, blkSize] at *
      omega
  have tables : ∀ x, place.lower ≤ x → x < place.upper → after x = before x :=
    fun x lower upper => rest x (by omega) upper
  have slots := laid.tables.slotOf pointers tables
  refine ⟨laid.block, laid.behindInode, laid.inFront, range, ?_, ?_, ?_,
    laid.tables.congr pointers tables, ?_⟩
  · rw [← laid.size]
    apply loadLE_congr
    intro x lower upper
    apply inode x lower
    simp only [iSize, blkSize] at *
    omega
  · intro k inside
    rw [slots]
    exact laid.slots k inside
  · intro k outside inside
    rw [slots]
    exact laid.behind k outside inside
  · intro i inside
    rw [rest _ (Nat.le_add_right _ _) (by omega)]
    exact laid.bytes i inside

/-! ## Writing it -/

variable {disk made last : Disk} {inode amount start len : Nat} {source : Nat → UInt8}

structure Mapped (disk : Disk) : Prop where
  few : disk.nblocks < 2 ^ 20
  inside : disk.pos < blkSize * disk.nblocks

theorem Mapped.alloc (mapped : Mapped disk) {use : Use} {asked given : Nat}
    (run : Fs.alloc use asked disk = .ok (given, made)) : Mapped made := by
  have few := mapped.few
  have inside := mapped.inside
  obtain ⟨room, rfl, rfl⟩ := alloc_eq_ok.mp run
  refine ⟨few, ?_⟩
  have size : roundUp (asked % 2 ^ 32) < 2 ^ 32 := by
    simp only [roundUp, blkSize]
    omega
  simp only [blockof, blkSize] at room inside ⊢
  omega

theorem Mapped.follows (mapped : Mapped disk) (follows : Follows disk last) : Mapped last := by
  induction follows with
  | refl => exact mapped
  | store map _ ih => exact ⟨ih.few, ih.inside⟩
  | alloc _ run ih => exact ih.alloc run

theorem Follows.bitmap (follows : Follows disk last) : last.bitmap = disk.bitmap := by
  induction follows with
  | refl => rfl
  | store map _ ih => exact ih
  | alloc _ run ih =>
      obtain ⟨_, _, rfl⟩ := alloc_eq_ok.mp run
      exact ih

end Files

end OsLabs.Fs
