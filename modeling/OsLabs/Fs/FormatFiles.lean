import OsLabs.Fs.FormatSound

/-!
# Filling an inode

`finishinode` puts the numbers of the data blocks into the slots of the inode and of
index tables that it gets from `alloc` on the way.  `Filling` is what holds between
two of its stores.
-/

set_option autoImplicit false

namespace OsLabs.Fs

open OsLabs.ByteMemory OsLabs.ExceptRules OsLabs.PointerSlots

/-- The first `i` of `blocks` data blocks are in slots, and so are the index tables
made since `before`. -/
structure Filling (before : Disk) (inode start blocks i : Nat) (disk : Disk) : Prop where
  origin : Sound before
  sound : Sound disk
  grows : Grows (fun slot => slot.block = inode) before disk
  upto : i ≤ blocks
  data : ∀ k < blocks, UsedAs disk.made .data (start + k)
  loose : ∀ k, i ≤ k → k < blocks → Loose disk (start + k)
  held : ∀ k < i, Held disk (start + k)
  complete : ∀ block, Target disk.made block → Target before.made block ∨ Held disk block

/-- An empty slot of the inode or of a table made since `before`. -/
structure Open (before : Disk) (inode : Nat) (disk : Disk) (place : Slot) : Prop where
  inUse : place.InUse disk.made
  empty : place.word disk.map = 0
  own : place.InUse before.made → place.block = inode

section Filling

variable {before disk after : Disk} {inode start blocks i : Nat} {place : Slot} {block : Nat}

theorem Open.put {other : Slot} (opened : Open before inode disk other) (sound : Sound disk)
    (inUse : place.InUse disk.made) (different : other ≠ place) :
    Open before inode (disk.put place block) other where
  inUse := opened.inUse
  empty := by
    rw [sound.put_other inUse opened.inUse different]
    exact opened.empty
  own := opened.own

theorem Held.put {other : Nat} (held : Held disk other) (sound : Sound disk)
    (opened : Open before inode disk place) (target : Target disk.made block)
    (loose : Loose disk block) (positive : other ≠ 0) : Held (disk.put place block) other := by
  refine held.grows (sound.put opened.inUse target loose).2 ?_ positive
  rintro slot _ rfl
  exact opened.empty

theorem Grows.put (grows : Grows (fun slot => slot.block = inode) before disk)
    (sound : Sound disk) (opened : Open before inode disk place)
    (target : Target disk.made block) (loose : Loose disk block) :
    Grows (fun slot => slot.block = inode) before (disk.put place block) := by
  have step := (sound.put opened.inUse target loose).2
  refine ⟨step.nblocks.trans grows.nblocks, step.bitmap.trans grows.bitmap,
    grows.pos.trans step.pos, grows.made, ?_, ?_⟩
  · intro slot inUse elsewhere
    have other : slot ≠ place := by
      rintro rfl
      exact elsewhere (opened.own inUse)
    rw [step.words slot (grows.inUse inUse) other, grows.words slot inUse elsewhere]
  · intro x used
    rw [step.bits x (grows.used used), grows.bits x used]

theorem Filling.next (filling : Filling before inode start blocks i disk)
    (opened : Open before inode disk place) (more : i < blocks) :
    Filling before inode start blocks (i + 1) (disk.put place (start + i)) := by
  have target : Target disk.made (start + i) := Or.inl (filling.data i more)
  have loose := filling.loose i (Nat.le_refl i) more
  have sound := (filling.sound.put opened.inUse target loose).1
  have grows := filling.grows.put filling.sound opened target loose
  have stays : ∀ {other}, Held disk other → Target disk.made other →
      Held (disk.put place (start + i)) other := fun held isTarget =>
    held.put filling.sound opened target loose (filling.sound.target_positive isTarget)
  refine ⟨filling.origin, sound, grows, more, filling.data, ?_, ?_, ?_⟩
  · intro k lower upper
    refine (filling.loose k (by omega) upper).put filling.sound opened.inUse target ?_
    omega
  · intro k below
    by_cases last : k = i
    · subst last
      exact ⟨place, opened.inUse, filling.sound.put_here target⟩
    · refine stays (filling.held k (by omega)) ?_
      exact Or.inl (filling.data k (by omega))
  · intro block isTarget
    exact (filling.complete block isTarget).imp_right fun held => stays held isTarget

/-! ## Index tables -/

theorem Filling.entries (filling : Filling before inode start blocks i disk) {use : Use}
    (kind : use = .indirect ∨ use = .double) {table : Nat} (new : table = disk.pos / 4096)
    (used : UsedAs (disk.given use 1).made use table) (k : Fin nIndirect) :
    Open before inode (disk.given use 1) (.entry table k) := by
  have aligned := filling.sound.aligned
  refine ⟨?_, ?_, ?_⟩
  · rcases kind with rfl | rfl
    · exact Or.inl used
    · exact Or.inr used
  · exact filling.sound.given_empty (Nat.le_of_eq new.symm)
  · intro old
    have earlier := filling.origin.slot_below old
    have positions := filling.grows.pos
    simp only [Slot.block] at earlier
    omega

/-- A new index table goes into an open slot, and its own slots are open. -/
theorem Filling.table (filling : Filling before inode start blocks i disk)
    (opened : Open before inode disk place) {use : Use}
    (kind : use = .indirect ∨ use = .double) {ind : Nat} {made : Disk}
    (ran : alloc use blkSize disk = .ok (ind, made)) :
    ∃ table, ind = 4096 * table ∧ blockof ind = table ∧ made = disk.given use 1 ∧
      UsedAs made.made use table ∧ Filling before inode start blocks i (made.put place table) ∧
      (∀ k, Open before inode (made.put place table) (.entry table k)) ∧
      ∀ other, Open before inode disk other → other ≠ place →
        Open before inode (made.put place table) other := by
  have aligned := filling.sound.aligned
  have below := filling.sound.below
  have small := filling.sound.small
  obtain ⟨rfl, rfl, sound⟩ := filling.sound.alloc_ok (by simp only [blkSize]; omega) ran
  have number : blockof disk.pos = disk.pos / 4096 := by
    simp only [blockof, blkSize]
    omega
  have one : (blkSize + 4095) / 4096 = 1 := rfl
  rw [one] at sound ⊢
  refine ⟨disk.pos / 4096, by omega, number, rfl, ?_⟩
  set table := disk.pos / 4096 with tableDef
  have used : UsedAs (disk.given use 1).made use table :=
    given_used.mpr (Or.inr ⟨rfl, Nat.le_refl _, Nat.lt_succ_self _⟩)
  have target : Target (disk.given use 1).made table := by
    rcases kind with rfl | rfl
    · exact Or.inr (Or.inl used)
    · exact Or.inr (Or.inr used)
  have positive := sound.target_positive target
  have loose : Loose (disk.given use 1) table :=
    (filling.sound.loose_new (Nat.le_refl _)).given filling.sound positive
  have grown : ∀ other, Open before inode disk other →
      Open before inode (disk.given use 1) other := fun other opened =>
    ⟨opened.inUse.append, opened.empty, opened.own⟩
  have openedHere := grown place opened
  have grows : Grows (fun slot => slot.block = inode) before (disk.given use 1) :=
    filling.grows.trans ((disk.given_grows use 1).mono fun _ _ no => no.elim)
  have stays : ∀ {other}, Held disk other → Target disk.made other →
      Held ((disk.given use 1).put place table) other := by
    intro other held isTarget
    have positive := filling.sound.target_positive isTarget
    refine Held.put ?_ sound openedHere target loose positive
    exact held.grows (disk.given_grows use 1) (fun _ _ no => no.elim) positive
  refine ⟨used, ⟨filling.origin, (sound.put openedHere.inUse target loose).1,
    grows.put sound openedHere target loose, filling.upto, ?_, ?_, ?_, ?_⟩, ?_, ?_⟩
  · intro k below
    exact (filling.data k below).append
  · intro k lower upper
    have dataTarget : Target disk.made (start + k) := Or.inl (filling.data k upper)
    have earlier := filling.sound.target_below dataTarget
    refine Loose.put sound ?_ openedHere.inUse target (by omega)
    exact (filling.loose k lower upper).given filling.sound
      (filling.sound.target_positive dataTarget)
  · intro k below
    have upto := filling.upto
    exact stays (filling.held k below) (Or.inl (filling.data k (by omega)))
  · intro block isTarget
    rcases given_target isTarget with old | new
    · exact (filling.complete block old).imp_right fun held => stays held old
    · have same : block = table := by omega
      rw [same]
      exact Or.inr ⟨place, openedHere.inUse, sound.put_here target⟩
  · intro k
    refine (filling.entries kind tableDef used k).put sound openedHere.inUse ?_
    rintro rfl
    have := filling.sound.slot_below opened.inUse
    simp only [Slot.block] at this
    omega
  · intro other otherOpen different
    exact (grown other otherOpen).put sound openedHere.inUse different

/-! ## The loops -/

theorem fillTable_index (table base start togo : Nat) {blocks i : Nat} (map : Memory)
    (upto : i ≤ blocks) :
    (fillTable table base start blocks togo i map).1 = min (i + togo) blocks := by
  induction togo generalizing i map with
  | zero =>
      simp only [fillTable]
      omega
  | succ togo ih =>
      rw [fillTable]
      split
      · rw [ih _ (by omega)]
        omega
      · simp only
        omega

theorem Filling.loop (table base togo : Nat)
    (filling : Filling before inode start blocks i disk) (within : i < blocks → base ≤ i)
    (places : ∀ k, i ≤ k → k < i + togo → k < blocks →
      ∃ place : Slot, place.address = table + 4 * (k - base) ∧ Open before inode disk place) :
    Filling before inode start blocks (min (i + togo) blocks)
        { disk with map := (Fs.fillTable table base start blocks togo i disk.map).2 } ∧
      ∀ other, Open before inode disk other →
        (∀ k, i ≤ k → k < i + togo → k < blocks → other.address ≠ table + 4 * (k - base)) →
        Open before inode
          { disk with map := (Fs.fillTable table base start blocks togo i disk.map).2 } other := by
  induction togo generalizing i disk with
  | zero =>
      have upto := filling.upto
      simp only [Fs.fillTable, Nat.add_zero, min_eq_left upto]
      exact ⟨filling, fun other opened _ => opened⟩
  | succ togo ih =>
      simp only [Fs.fillTable]
      split
      · rename_i more
        obtain ⟨place, address, opened⟩ := places i (Nat.le_refl i) (by omega) more
        have target : Target disk.made (start + i) := Or.inl (filling.data i more)
        have number : (start + i) % 2 ^ 32 = start + i := by
          have below := filling.sound.target_below target
          have last := filling.sound.below
          have small := filling.sound.small
          omega
        have stored : storeLE disk.map (table + 4 * (i - base)) 4 ((start + i) % 2 ^ 32) =
            (disk.put place (start + i)).map := by
          rw [number, ← address, Disk.put]
        have step := filling.next opened more
        have lower := within more
        have rest := ih step (fun _ => by omega) (by
          intro k _ upper below
          obtain ⟨later, laterAddress, laterOpen⟩ := places k (by omega) (by omega) below
          have different : later ≠ place := by
            rintro rfl
            omega
          exact ⟨later, laterAddress, laterOpen.put filling.sound opened.inUse different⟩)
        rw [stored]
        rw [Nat.add_right_comm, Nat.add_assoc] at rest
        refine ⟨rest.1, fun other otherOpen elsewhere => rest.2 other ?_ ?_⟩
        · have different : other ≠ place := by
            rintro rfl
            exact elsewhere i (Nat.le_refl i) (by omega) more address
          exact otherOpen.put filling.sound opened.inUse different
        · intro k lower upper below
          exact elsewhere k (by omega) (by omega) below
      · rename_i done
        have upto := filling.upto
        have last : min (i + (togo + 1)) blocks = i := by omega
        rw [last]
        exact ⟨filling, fun other opened _ => opened⟩

theorem Filling.loopEntries (t base togo : Nat)
    (filling : Filling before inode start blocks i disk)
    (within : i < blocks → base ≤ i ∧ i + togo ≤ base + nIndirect)
    (entries : ∀ k, Open before inode disk (.entry t k)) :
    Filling before inode start blocks (min (i + togo) blocks)
        { disk with map := (Fs.fillTable (4096 * t) base start blocks togo i disk.map).2 } ∧
      ∀ other, Open before inode disk other → other.block ≠ t →
        Open before inode
          { disk with map := (Fs.fillTable (4096 * t) base start blocks togo i disk.map).2 }
          other := by
  obtain ⟨filled, others⟩ := filling.loop (4096 * t) base togo
    (fun more => (within more).1) (by
      intro k lower upper below
      have range := within (by omega)
      refine ⟨.entry t ⟨k - base, by omega⟩, rfl, entries _⟩)
  refine ⟨filled, fun other opened elsewhere => others other opened ?_⟩
  intro k lower upper below same
  have range := within (by omega)
  have bound := other.offset_bound
  simp only [Slot.address, blkSize, nIndirect] at same range
  omega

section Double

variable {j d : Nat}

/-- The data blocks end before the tables from `j` on, or the tables before are full. -/
def Before (blocks i j : Nat) : Prop :=
  i = nDirect + nIndirect + j * nIndirect ∨ i = blocks ∧ i < nDirect + nIndirect + j * nIndirect

theorem Filling.doubleStep (filling : Filling before inode start blocks i disk)
    (first : j < nIndirect) (used : UsedAs disk.made .double d)
    (opened : ∀ k : Fin nIndirect, j ≤ k.val → Open before inode disk (.entry d k))
    (position : Before blocks i j) {ind : Nat} {made : Disk}
    (given : alloc .indirect blkSize disk = .ok (ind, made)) {looped : Nat × Memory}
    (loopedEq : Fs.fillTable ind (nDirect + nIndirect + j * nIndirect) start blocks
      (nDirect + nIndirect + (j + 1) * nIndirect - i) i
      (storeLE made.map (4096 * d + 4 * j) 4 (blockof ind)) = looped) :
    Filling before inode start blocks looped.1 { made with map := looped.2 } ∧
      UsedAs made.made .double d ∧
      (∀ k : Fin nIndirect, j + 1 ≤ k.val →
        Open before inode { made with map := looped.2 } (.entry d k)) ∧
      Before blocks looped.1 (j + 1) := by
  obtain ⟨table, rfl, number, rfl, tableUsed, filled, entries, others⟩ :=
    filling.table (opened ⟨j, first⟩ (Nat.le_refl j)) (Or.inl rfl) given
  have upto := filling.upto
  have stillUsed : UsedAs (disk.given .indirect 1).made .double d := used.append
  have apart : d ≠ table := by
    rintro rfl
    cases filled.sound.use_unique stillUsed tableUsed
  have limit : nDirect + nIndirect + (j + 1) * nIndirect =
      nDirect + nIndirect + j * nIndirect + nIndirect := by
    rw [Nat.succ_mul, ← Nat.add_assoc]
  unfold Before at position ⊢
  obtain ⟨base, baseDef⟩ : ∃ base, nDirect + nIndirect + j * nIndirect = base := ⟨_, rfl⟩
  rw [limit, baseDef, number] at loopedEq
  rw [limit, baseDef]
  rw [baseDef] at position
  have within : i < blocks → base ≤ i ∧ i + (base + nIndirect - i) ≤ base + nIndirect := by
    omega
  obtain ⟨loop, kept⟩ := filled.loopEntries table base (base + nIndirect - i)
    within entries
  have index : looped.1 = min (i + (base + nIndirect - i)) blocks := by
    rw [← loopedEq]
    exact fillTable_index _ _ _ _ _ upto
  rw [index, ← loopedEq]
  refine ⟨loop, stillUsed, ?_, by omega⟩
  intro k later
  have different : Slot.entry d k ≠ Slot.entry d ⟨j, first⟩ := by
    rintro ⟨⟩
    exact absurd later (Nat.not_succ_le_self j)
  exact kept _ (others _ (opened k (by omega)) different) apart

theorem Filling.double {togo : Nat}
    (filling : Filling before inode start blocks i disk) (whole : j + togo = nIndirect)
    (used : UsedAs disk.made .double d)
    (opened : ∀ k : Fin nIndirect, j ≤ k.val → Open before inode disk (.entry d k))
    (position : Before blocks i j)
    (bound : blocks < nDirect + nIndirect + nIndirect * nIndirect)
    (ran : fillDouble (4096 * d) start blocks togo j i disk = .ok after) :
    Filling before inode start blocks blocks after := by
  induction togo generalizing i j disk with
  | zero =>
      have upto := filling.upto
      simp only [Before, nDirect, nIndirect, blkSize] at whole position bound
      have last : i = blocks := by omega
      cases ran
      rwa [last] at filling
  | succ togo ih =>
      rw [fillDouble] at ran
      obtain ⟨⟨ind, made⟩, given, rest⟩ := bind_eq_ok.mp ran
      obtain ⟨filled, stillUsed, open', position'⟩ :=
        filling.doubleStep (by omega) used opened position given rfl
      exact ih filled (by omega) stillUsed open' position' rest

end Double

/-! ## finishinode -/

variable {len : Nat}

theorem Filling.sized (len : Nat) (sound : Sound disk) (used : UsedAs disk.made .inode inode)
    (empty : ∀ slot : Slot, slot.InUse disk.made → slot.block = inode →
      slot.word disk.map = 0)
    (data : ∀ k < blocks, UsedAs disk.made .data (start + k))
    (loose : ∀ k < blocks, Loose disk (start + k)) :
    Filling disk inode start blocks 0
        { disk with map := storeLE disk.map (4096 * inode + iSize) 4 len } ∧
      ∀ slot : Slot, slot.InUse disk.made → slot.block = inode →
        Open disk inode { disk with map := storeLE disk.map (4096 * inode + iSize) 4 len }
          slot := by
  obtain ⟨sound', grows⟩ := @Sound.write disk (storeLE disk.map (4096 * inode + iSize) 4 len)
    sound (by
      intro x notSpare
      refine storeLE_outside ?_
      by_contra within
      simp only [iSize] at within
      have block : x / 4096 = inode := by omega
      refine notSpare (Or.inr (Or.inr ⟨block ▸ used, ?_⟩))
      simp only [iDirect]
      omega)
  have words : ∀ slot : Slot, slot.InUse disk.made →
      slot.word (storeLE disk.map (4096 * inode + iSize) 4 len) = slot.word disk.map :=
    fun slot inUse => grows.words slot inUse not_false
  refine ⟨⟨sound, sound', grows.mono fun _ _ no => no.elim, Nat.zero_le _, data, ?_, ?_, ?_⟩, ?_⟩
  · intro k _ below
    exact Unheld.fill (loose k below) (fun _ => False) (fun slot inUse _ => words slot inUse)
      fun _ no => no.elim
  · intro k below
    omega
  · intro block target
    exact Or.inl target
  · intro slot inUse block
    refine ⟨inUse, ?_, fun _ => block⟩
    exact (words slot inUse).trans (empty slot inUse block)

theorem Filling.finishDouble (filling : Filling before inode start blocks i disk)
    (opened : Open before inode disk (.double inode)) (position : i = nDirect + nIndirect)
    (bound : blocks < nDirect + nIndirect + nIndirect * nIndirect) {inind : Nat} {made : Disk}
    (given : alloc .double blkSize disk = .ok (inind, made))
    (ran : fillDouble inind start blocks nIndirect 0 i
      { made with map := storeLE made.map (4096 * inode + iDouble) 4 (blockof inind) } =
        .ok after) :
    Filling before inode start blocks blocks after := by
  obtain ⟨table, rfl, number, rfl, tableUsed, filled, entries, others⟩ :=
    filling.table opened (Or.inr rfl) given
  rw [number] at ran
  exact filled.double (Nat.zero_add _) tableUsed (fun k _ => entries k) (Or.inl (by omega))
    bound ran

theorem Filling.finishIndirect (filling : Filling before inode start blocks i disk)
    (used : UsedAs disk.made .inode inode) (position : i = nDirect)
    (openIndirect : Open before inode disk (.indirect inode))
    (openDouble : Open before inode disk (.double inode))
    (bound : blocks < nDirect + nIndirect + nIndirect * nIndirect) {ind : Nat} {made : Disk}
    (given : alloc .indirect blkSize disk = .ok (ind, made))
    {looped : Nat × Memory}
    (loopedEq : Fs.fillTable ind nDirect start blocks nIndirect i
      (storeLE made.map (4096 * inode + iIndirect) 4 (blockof ind)) = looped)
    (ran : (if looped.1 = nDirect + nIndirect then do
        let (inind, disk) ← alloc .double blkSize { made with map := looped.2 }
        let map := storeLE disk.map (4096 * inode + iDouble) 4 (blockof inind)
        fillDouble inind start blocks nIndirect 0 looped.1 { disk with map := map }
      else .ok { made with map := looped.2 }) = .ok after) :
    Filling before inode start blocks blocks after := by
  obtain ⟨table, rfl, number, rfl, tableUsed, filled, entries, kept⟩ :=
    filling.table openIndirect (Or.inl rfl) given
  obtain ⟨indirect, others⟩ := filled.loopEntries table nDirect nIndirect (by omega) entries
  have apart : inode ≠ table := by
    rintro rfl
    cases filled.sound.use_unique used.append tableUsed
  have openDouble' := others (.double inode) (kept _ openDouble (by simp)) apart
  have upto := filling.upto
  rw [number] at loopedEq
  have index : looped.1 = min (i + nIndirect) blocks := by
    rw [← loopedEq]
    exact fillTable_index _ _ _ _ _ upto
  rw [index, ← loopedEq] at ran
  split at ran
  · rename_i full
    obtain ⟨⟨inind, made⟩, given', rest⟩ := bind_eq_ok.mp ran
    exact indirect.finishDouble openDouble' full bound given' rest
  · rename_i short
    cases ran
    have last : min (i + nIndirect) blocks = blocks := by
      omega
    rwa [last] at indirect

theorem finishinode_ok (sound : Sound disk) (used : UsedAs disk.made .inode inode)
    (empty : ∀ slot : Slot, slot.InUse disk.made → slot.block = inode →
      slot.word disk.map = 0)
    (small : len + 4096 ≤ 2 ^ 32)
    (data : ∀ k < (len + 4095) / 4096, UsedAs disk.made .data (start + k))
    (loose : ∀ k < (len + 4095) / 4096, Loose disk (start + k))
    (ran : finishinode (4096 * inode) start len disk = .ok after) :
    Filling disk inode start ((len + 4095) / 4096) ((len + 4095) / 4096) after := by
  have size : roundUp len / blkSize = (len + 4095) / 4096 := by
    rw [roundUp_eq small]
    exact Nat.mul_div_cancel _ (by norm_num)
  have word : len % 2 ^ 32 = len := by omega
  have bound : (len + 4095) / 4096 < nDirect + nIndirect + nIndirect * nIndirect := by
    simp only [nDirect, nIndirect, blkSize]
    omega
  obtain ⟨filling, opened⟩ := Filling.sized len sound used empty data loose
  simp only [finishinode, word, size] at ran
  generalize (len + 4095) / 4096 = blocks at *
  obtain ⟨direct, others⟩ := filling.loop (4096 * inode + iDirect) 0 nDirect
    (fun _ => Nat.zero_le _) (by
      intro k _ upper _
      have inUse : (Slot.direct inode ⟨k, by omega⟩).InUse disk.made := used
      exact ⟨.direct inode ⟨k, by omega⟩, Nat.add_assoc _ _ _ |>.symm, opened _ inUse rfl⟩)
  rw [fillTable_index _ _ _ _ _ (Nat.zero_le _)] at ran
  split at ran
  · rename_i full
    have openIndirect := others (.indirect inode) (opened _ used rfl) (by
      intro k _ upper _
      simp only [Slot.address, Slot.block, Slot.offset, iIndirect, iDirect, blkSize,
        nDirect] at upper ⊢
      omega)
    have openDouble := others (.double inode) (opened _ used rfl) (by
      intro k _ upper _
      simp only [Slot.address, Slot.block, Slot.offset, iDouble, iDirect, blkSize,
        nDirect] at upper ⊢
      omega)
    obtain ⟨⟨ind, made⟩, given, rest⟩ := bind_eq_ok.mp ran
    exact direct.finishIndirect used full openIndirect openDouble bound given rfl rest
  · rename_i short
    cases ran
    have last : min (0 + nDirect) blocks = blocks := by
      omega
    rwa [last] at direct

end Filling

end OsLabs.Fs
