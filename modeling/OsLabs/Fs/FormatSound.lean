import OsLabs.Fs.Format
import OsLabs.Lib.PointerSlots

/-!
# Images that fsformat finishes

`Sound` says that the blocks below `diskpos` are exactly the ones given out, each once,
and that the block numbers stored in inodes and index tables are linked: they go to
data and index blocks, and no two slots hold the same one.  Every function of
`fsformat` keeps it (`Advance`).
-/

set_option autoImplicit false

namespace OsLabs.Fs

open OsLabs.ByteMemory OsLabs.ExceptRules OsLabs.PointerSlots

/-! ## Giving blocks out -/

/-- `alloc` moves `diskpos`, records the region and leaves the rest of the disk. -/
theorem alloc_eq_ok {use : Use} {bytes place : Nat} {disk after : Disk} :
    alloc use bytes disk = .ok (place, after) ↔
      blockof (disk.pos + roundUp (bytes % 2 ^ 32)) < disk.nblocks ∧ place = disk.pos ∧
        after = { disk with
          pos := disk.pos + roundUp (bytes % 2 ^ 32)
          made := disk.made ++
            [⟨use, disk.pos / blkSize, roundUp (bytes % 2 ^ 32) / blkSize⟩] } := by
  unfold alloc
  simp only
  split
  · next full =>
      constructor
      · intro stopped
        cases stopped
      · intro given
        exact absurd given.1 (not_lt.mpr full)
  · next room =>
      constructor
      · intro given
        cases given
        exact ⟨not_le.mp room, rfl, rfl⟩
      · rintro ⟨_, rfl, rfl⟩
        rfl

/-! ## Blocks and slots -/

def Region.has (region : Region) (block : Nat) : Prop :=
  region.start ≤ block ∧ block < region.start + region.count

def Region.blocks (region : Region) : List Nat := List.range' region.start region.count

def UsedAs (made : List Region) (use : Use) (block : Nat) : Prop :=
  ∃ region ∈ made, region.use = use ∧ region.has block

/-- A place for a block number, in an inode or in an index table. -/
inductive Slot where
  | direct (inode : Nat) (i : Fin nDirect)
  | indirect (inode : Nat)
  | double (inode : Nat)
  | entry (table : Nat) (k : Fin nIndirect)
  deriving DecidableEq, Repr

def Slot.block : Slot → Nat
  | .direct inode _ | .indirect inode | .double inode => inode
  | .entry table _ => table

def Slot.offset : Slot → Nat
  | .direct _ i => iDirect + 4 * i.val
  | .indirect _ => iIndirect
  | .double _ => iDouble
  | .entry _ k => 4 * k.val

def Slot.address (slot : Slot) : Nat := blkSize * slot.block + slot.offset

def Slot.InUse (made : List Region) : Slot → Prop
  | .direct inode _ | .indirect inode | .double inode => UsedAs made .inode inode
  | .entry table _ => UsedAs made .indirect table ∨ UsedAs made .double table

def Slot.word (map : Memory) (slot : Slot) : Nat := loadLE map slot.address 4

def Target (made : List Region) (block : Nat) : Prop :=
  UsedAs made .data block ∨ UsedAs made .indirect block ∨ UsedAs made .double block

theorem mem_blocks {region : Region} {block : Nat} :
    block ∈ region.blocks ↔ region.has block := by
  rw [Region.blocks, List.mem_range'_1]
  rfl

theorem UsedAs.append {made more : List Region} {use : Use} {block : Nat}
    (used : UsedAs made use block) : UsedAs (made ++ more) use block := by
  obtain ⟨region, member, rest⟩ := used
  exact ⟨region, List.mem_append_left _ member, rest⟩

theorem Target.append {made more : List Region} {block : Nat} (target : Target made block) :
    Target (made ++ more) block :=
  target.imp UsedAs.append (Or.imp UsedAs.append UsedAs.append)

theorem usedAs_concat {made : List Region} {region : Region} {use : Use} {block : Nat} :
    UsedAs (made ++ [region]) use block ↔
      UsedAs made use block ∨ region.use = use ∧ region.has block := by
  unfold UsedAs
  simp only [List.mem_append, List.mem_singleton, or_and_right, exists_or, exists_eq_left]

/-! ## Sound disks -/

structure Sound (disk : Disk) : Prop where
  regions : disk.made.flatMap Region.blocks = List.range (disk.pos / 4096)
  aligned : disk.pos % 4096 = 0
  super : UsedAs disk.made .super 0
  below : disk.pos / 4096 < disk.nblocks
  small : disk.nblocks < 2 ^ 20
  linked : Linked (Slot.InUse disk.made) (Target disk.made) (Slot.word disk.map)
  blank : ∀ x, disk.pos ≤ x → disk.map x = 0

def Loose (disk : Disk) (block : Nat) : Prop :=
  Unheld (Slot.InUse disk.made) (Slot.word disk.map) block

def Held (disk : Disk) (block : Nat) : Prop :=
  ∃ slot : Slot, slot.InUse disk.made ∧ slot.word disk.map = block

/-- The second disk has all that the first one has, except for the words of some
slots. -/
structure Grows (changed : Slot → Prop) (before after : Disk) : Prop where
  nblocks : after.nblocks = before.nblocks
  bitmap : after.bitmap = before.bitmap
  pos : before.pos ≤ after.pos
  made : ∃ more, after.made = before.made ++ more
  words : ∀ slot : Slot, slot.InUse before.made → ¬ changed slot →
    slot.word after.map = slot.word before.map
  bits : ∀ x, UsedAs before.made .bitmap (x / 4096) → after.map x = before.map x

section Sounds

variable {disk : Disk}

theorem Sound.used_below (sound : Sound disk) {use : Use} {block : Nat}
    (used : UsedAs disk.made use block) : block < disk.pos / 4096 := by
  obtain ⟨region, member, _, inside⟩ := used
  rw [← List.mem_range, ← sound.regions, List.mem_flatMap]
  exact ⟨region, member, mem_blocks.mpr inside⟩

theorem Sound.started (sound : Sound disk) : 0 < disk.pos := by
  have := sound.used_below sound.super
  omega

theorem Sound.use_unique (sound : Sound disk) {use other : Use} {block : Nat}
    (used : UsedAs disk.made use block) (usedOther : UsedAs disk.made other block) :
    use = other := by
  obtain ⟨region, member, rfl, inside⟩ := used
  obtain ⟨region', member', rfl, inside'⟩ := usedOther
  have once : (disk.made.flatMap Region.blocks).Nodup := by
    rw [sound.regions]
    exact List.nodup_range
  by_cases same : region = region'
  · rw [same]
  · have symmetric : Std.Symm (Function.onFun List.Disjoint Region.blocks) :=
      ⟨fun _ _ disjoint => disjoint.symm⟩
    have apart := (List.nodup_flatMap.mp once).2.forall member member' same
    exact absurd (mem_blocks.mpr inside') (apart (mem_blocks.mpr inside))

theorem Sound.target_below (sound : Sound disk) {block : Nat}
    (target : Target disk.made block) : block < disk.pos / 4096 := by
  rcases target with used | used | used <;> exact sound.used_below used

theorem Sound.target_positive (sound : Sound disk) {block : Nat}
    (target : Target disk.made block) : block ≠ 0 := by
  rintro rfl
  rcases target with used | used | used <;> cases sound.use_unique used sound.super

theorem Slot.offset_bound (slot : Slot) : slot.offset + 4 ≤ 4096 := by
  cases slot with
  | direct inode i =>
      have := i.isLt
      simp only [Slot.offset, iDirect, nDirect] at this ⊢
      omega
  | entry table k =>
      have := k.isLt
      simp only [Slot.offset, nIndirect, blkSize] at this ⊢
      omega
  | indirect _ => simp [Slot.offset, iIndirect]
  | double _ => simp [Slot.offset, iDouble]

theorem Slot.InUse.used {made : List Region} {slot : Slot} (inUse : slot.InUse made) :
    UsedAs made .inode slot.block ∨ UsedAs made .indirect slot.block ∨
      UsedAs made .double slot.block := by
  cases slot with
  | entry table k => exact Or.inr inUse
  | _ => exact Or.inl inUse

theorem Sound.slot_below (sound : Sound disk) {slot : Slot} (inUse : slot.InUse disk.made) :
    slot.block < disk.pos / 4096 := by
  rcases inUse.used with used | used | used <;> exact sound.used_below used

def Slot.isEntry : Slot → Bool
  | .entry _ _ => true
  | .direct _ _ | .indirect _ | .double _ => false

theorem Slot.offsets_apart {slot other : Slot} (block : slot.block = other.block)
    (kind : slot.isEntry = other.isEntry) (different : other ≠ slot) :
    slot.offset + 4 ≤ other.offset ∨ other.offset + 4 ≤ slot.offset := by
  cases slot with
  | direct inode i =>
      have bound := i.isLt
      cases other with
      | direct other k =>
          have distinct : i.val ≠ k.val := by
            intro equal
            simp only [Slot.block] at block
            exact different (by rw [block, Fin.ext equal])
          simp only [Slot.offset]
          omega
      | indirect other =>
          simp only [Slot.offset, iDirect, iIndirect, nDirect] at bound ⊢
          omega
      | double other =>
          simp only [Slot.offset, iDirect, iDouble, nDirect] at bound ⊢
          omega
      | entry table k => cases kind
  | indirect inode =>
      cases other with
      | direct other k =>
          have bound := k.isLt
          simp only [Slot.offset, iDirect, iIndirect, nDirect] at bound ⊢
          omega
      | indirect other => exact absurd (congrArg Slot.indirect block.symm) different
      | double other => exact Or.inl (by simp [Slot.offset, iIndirect, iDouble])
      | entry table k => cases kind
  | double inode =>
      cases other with
      | direct other k =>
          have bound := k.isLt
          simp only [Slot.offset, iDirect, iDouble, nDirect] at bound ⊢
          omega
      | indirect other => exact Or.inr (by simp [Slot.offset, iIndirect, iDouble])
      | double other => exact absurd (congrArg Slot.double block.symm) different
      | entry table k => cases kind
  | entry table i =>
      cases other with
      | entry other k =>
          have distinct : i.val ≠ k.val := by
            intro equal
            simp only [Slot.block] at block
            exact different (by rw [block, Fin.ext equal])
          simp only [Slot.offset]
          omega
      | _ => cases kind

theorem Sound.kind_eq (sound : Sound disk) {slot other : Slot}
    (inUse : slot.InUse disk.made) (otherInUse : other.InUse disk.made)
    (block : slot.block = other.block) : slot.isEntry = other.isEntry := by
  have clash : ∀ {inode : Nat}, UsedAs disk.made .inode inode →
      UsedAs disk.made .indirect inode ∨ UsedAs disk.made .double inode → False := by
    intro inode used index
    rcases index with index | index
    · exact absurd (sound.use_unique used index) (by decide)
    · exact absurd (sound.use_unique used index) (by decide)
  cases slot with
  | entry table i =>
      cases other with
      | entry other k => rfl
      | _ =>
          simp only [Slot.block] at block
          subst block
          exact (clash otherInUse inUse).elim
  | _ =>
      cases other with
      | entry other k =>
          simp only [Slot.block] at block
          subst block
          exact (clash inUse otherInUse).elim
      | _ => rfl

theorem Sound.slots_apart (sound : Sound disk) {slot other : Slot}
    (inUse : slot.InUse disk.made) (otherInUse : other.InUse disk.made)
    (different : other ≠ slot) :
    slot.address + 4 ≤ other.address ∨ other.address + 4 ≤ slot.address := by
  have bound := slot.offset_bound
  have otherBound := other.offset_bound
  unfold Slot.address
  by_cases same : slot.block = other.block
  · have offsets := Slot.offsets_apart same (sound.kind_eq inUse otherInUse same) different
    rw [same]
    omega
  · simp only [blkSize]
    omega

end Sounds

/-! ## Growing -/

theorem Slot.InUse.append {made more : List Region} {slot : Slot} (inUse : slot.InUse made) :
    slot.InUse (made ++ more) := by
  cases slot with
  | entry table k => exact inUse.imp UsedAs.append UsedAs.append
  | _ => exact UsedAs.append inUse

section Growing

variable {changed changed' : Slot → Prop} {before middle after : Disk}

theorem Grows.refl (disk : Disk) : Grows changed disk disk :=
  ⟨rfl, rfl, Nat.le_refl _, ⟨[], by simp⟩, fun _ _ _ => rfl, fun _ _ => rfl⟩

theorem Grows.used (grows : Grows changed before after) {use : Use} {block : Nat}
    (used : UsedAs before.made use block) : UsedAs after.made use block := by
  obtain ⟨more, made⟩ := grows.made
  rw [made]
  exact used.append

theorem Grows.inUse (grows : Grows changed before after) {slot : Slot}
    (inUse : slot.InUse before.made) : slot.InUse after.made := by
  obtain ⟨more, made⟩ := grows.made
  rw [made]
  exact inUse.append

theorem Grows.trans (first : Grows changed before middle)
    (second : Grows changed middle after) : Grows changed before after := by
  refine ⟨second.nblocks.trans first.nblocks, second.bitmap.trans first.bitmap,
    first.pos.trans second.pos, ?_, ?_, ?_⟩
  · obtain ⟨more, made⟩ := first.made
    obtain ⟨later, made'⟩ := second.made
    exact ⟨more ++ later, by rw [made', made, List.append_assoc]⟩
  · intro slot inUse unchanged
    rw [second.words slot (first.inUse inUse) unchanged, first.words slot inUse unchanged]
  · intro x used
    rw [second.bits x (first.used used), first.bits x used]

theorem Grows.mono (grows : Grows changed before after)
    (weaker : ∀ slot, slot.InUse before.made → changed slot → changed' slot) :
    Grows changed' before after where
  nblocks := grows.nblocks
  bitmap := grows.bitmap
  pos := grows.pos
  made := grows.made
  words := fun slot inUse unchanged =>
    grows.words slot inUse fun was => unchanged (weaker slot inUse was)
  bits := grows.bits

theorem Held.grows {block : Nat} (held : Held before block) (grows : Grows changed before after)
    (empty : ∀ slot, slot.InUse before.made → changed slot → slot.word before.map = 0)
    (positive : block ≠ 0) : Held after block := by
  obtain ⟨slot, inUse, word⟩ := held
  have unchanged : ¬ changed slot := by
    intro was
    rw [empty slot inUse was] at word
    exact positive word.symm
  refine ⟨slot, grows.inUse inUse, ?_⟩
  rw [grows.words slot inUse unchanged, word]

end Growing

/-! ## Writes -/

section Writes

variable {disk : Disk} {map : Memory}

/-- A byte that is neither part of a slot nor of the bitmap. -/
def Spare (made : List Region) (x : Nat) : Prop :=
  UsedAs made .super (x / 4096) ∨ UsedAs made .data (x / 4096) ∨
    UsedAs made .inode (x / 4096) ∧ x % 4096 < iDirect

theorem Sound.spare_below (sound : Sound disk) {x : Nat} (spare : Spare disk.made x) :
    x < disk.pos := by
  have below : x / 4096 < disk.pos / 4096 := by
    rcases spare with used | used | ⟨used, _⟩ <;> exact sound.used_below used
  omega

theorem Slot.byte_block {slot : Slot} {x : Nat} (lower : slot.address ≤ x)
    (upper : x < slot.address + 4) :
    x / 4096 = slot.block ∧ slot.offset ≤ x % 4096 := by
  have bound := slot.offset_bound
  simp only [Slot.address, blkSize] at lower upper
  omega

theorem Sound.spare_slot (sound : Sound disk) {slot : Slot} (inUse : slot.InUse disk.made)
    {x : Nat} (lower : slot.address ≤ x) (upper : x < slot.address + 4) :
    ¬ Spare disk.made x := by
  obtain ⟨block, offset⟩ := Slot.byte_block lower upper
  intro spare
  rw [Spare, block] at spare
  rcases spare with used | used | ⟨used, small⟩
  · rcases inUse.used with slotUsed | slotUsed | slotUsed <;>
      cases sound.use_unique used slotUsed
  · rcases inUse.used with slotUsed | slotUsed | slotUsed <;>
      cases sound.use_unique used slotUsed
  · cases slot with
    | entry table k =>
        rcases inUse with slotUsed | slotUsed <;> cases sound.use_unique used slotUsed
    | direct inode i =>
        simp only [Slot.offset] at offset
        omega
    | indirect inode =>
        simp only [Slot.offset, iIndirect, iDirect] at offset small
        omega
    | double inode =>
        simp only [Slot.offset, iDouble, iDirect] at offset small
        omega

theorem Sound.spare_bitmap (sound : Sound disk) {x : Nat}
    (used : UsedAs disk.made .bitmap (x / 4096)) : ¬ Spare disk.made x := by
  rintro (other | other | ⟨other, _⟩) <;> cases sound.use_unique used other

theorem Sound.words_kept (sound : Sound disk)
    (same : ∀ slot : Slot, slot.InUse disk.made → slot.word map = slot.word disk.map)
    (blank : ∀ x, disk.pos ≤ x → map x = 0) : Sound { disk with map := map } where
  regions := sound.regions
  aligned := sound.aligned
  super := sound.super
  below := sound.below
  small := sound.small
  linked := sound.linked.fill (fun _ => False) (fun slot inUse _ => same slot inUse)
    (fun _ no => no.elim) (fun _ no => no.elim) (fun _ _ no => no.elim)
  blank := blank

theorem Sound.write (sound : Sound disk)
    (same : ∀ x, ¬ Spare disk.made x → map x = disk.map x) :
    Sound { disk with map := map } ∧ Grows (fun _ => False) disk { disk with map := map } := by
  have words : ∀ slot : Slot, slot.InUse disk.made → slot.word map = slot.word disk.map := by
    intro slot inUse
    refine loadLE_congr fun x lower upper => ?_
    exact same x (sound.spare_slot inUse lower upper)
  refine ⟨sound.words_kept words fun x above => ?_, ?_⟩
  · rw [same x fun spare => absurd (sound.spare_below spare) (by omega)]
    exact sound.blank x above
  · exact ⟨rfl, rfl, Nat.le_refl _, ⟨[], by simp⟩, fun slot inUse _ => words slot inUse,
      fun x used => same x (sound.spare_bitmap used)⟩

def Disk.put (disk : Disk) (place : Slot) (block : Nat) : Disk :=
  { disk with map := storeLE disk.map place.address 4 block }

variable {place : Slot} {block : Nat}

theorem Sound.put_here (sound : Sound disk) (target : Target disk.made block) :
    place.word (disk.put place block).map = block := by
  have below := sound.target_below target
  have last := sound.below
  have small := sound.small
  rw [Slot.word, Disk.put, loadLE_storeLE]
  omega

theorem Sound.put_other (sound : Sound disk) (inUse : place.InUse disk.made) {slot : Slot}
    (slotInUse : slot.InUse disk.made) (different : slot ≠ place) :
    slot.word (disk.put place block).map = slot.word disk.map := by
  have apart := sound.slots_apart slotInUse inUse different.symm
  exact loadLE_storeLE_apart _ _ _ _ _ _ apart

theorem Sound.put (sound : Sound disk) (inUse : place.InUse disk.made)
    (target : Target disk.made block) (loose : Loose disk block) :
    Sound (disk.put place block) ∧ Grows (· = place) disk (disk.put place block) := by
  have here : place.word (disk.put place block).map = block := sound.put_here target
  have outside : ∀ x, (x / 4096 ≠ place.block) → (disk.put place block).map x = disk.map x := by
    intro x different
    refine storeLE_outside ?_
    by_contra within
    exact different (Slot.byte_block (by omega) (by omega)).1
  refine ⟨⟨sound.regions, sound.aligned, sound.super, sound.below, sound.small, ?_, ?_⟩, ?_⟩
  · refine sound.linked.fill (· = place) ?_ ?_ ?_ ?_
    · intro slot slotInUse different
      exact sound.put_other inUse slotInUse different
    · rintro slot rfl
      rw [here]
      exact target
    · rintro slot rfl
      rw [here]
      exact loose
    · rintro slot other rfl rfl _
      rfl
  · intro x above
    have below := sound.slot_below inUse
    have beyond : disk.pos ≤ x := above
    rw [outside x (by omega)]
    exact sound.blank x beyond
  · refine ⟨rfl, rfl, Nat.le_refl _, ⟨[], by simp [Disk.put]⟩, ?_, ?_⟩
    · intro slot slotInUse different
      exact sound.put_other inUse slotInUse different
    · intro x used
      refine outside x fun same => ?_
      rw [same] at used
      rcases inUse.used with other | other | other <;> cases sound.use_unique used other

theorem Loose.put (sound : Sound disk) {other : Nat} (loose : Loose disk other)
    (inUse : place.InUse disk.made) (target : Target disk.made block)
    (different : other ≠ block) : Loose (disk.put place block) other := by
  refine Unheld.fill loose (· = place) ?_ ?_
  · intro slot slotInUse elsewhere
    exact sound.put_other inUse slotInUse elsewhere
  · rintro slot rfl
    rw [sound.put_here target]
    exact different.symm

end Writes

/-! ## alloc -/

section Alloc

variable {disk after : Disk} {use : Use} {count : Nat}

/-- The disk after `count` more blocks were given out. -/
def Disk.given (disk : Disk) (use : Use) (count : Nat) : Disk :=
  { disk with
    pos := disk.pos + 4096 * count,
    made := disk.made ++ [⟨use, disk.pos / 4096, count⟩] }

theorem given_used {use' : Use} {block : Nat} :
    UsedAs (disk.given use count).made use' block ↔ UsedAs disk.made use' block ∨
      use = use' ∧ disk.pos / 4096 ≤ block ∧ block < disk.pos / 4096 + count :=
  usedAs_concat

theorem given_target {block : Nat} (target : Target (disk.given use count).made block) :
    Target disk.made block ∨
      disk.pos / 4096 ≤ block ∧ block < disk.pos / 4096 + count := by
  rcases target with used | used | used
  · exact (given_used.mp used).imp Or.inl And.right
  · exact (given_used.mp used).imp (fun old => Or.inr (Or.inl old)) And.right
  · exact (given_used.mp used).imp (fun old => Or.inr (Or.inr old)) And.right

theorem Sound.given_empty (sound : Sound disk) {slot : Slot}
    (beyond : disk.pos / 4096 ≤ slot.block) : slot.word disk.map = 0 := by
  have aligned := sound.aligned
  have zeros : AgreeOn (fun _ => 0) disk.map slot.address 4 := by
    intro x lower upper
    refine sound.blank x ?_
    simp only [Slot.address, blkSize] at lower
    omega
  rw [Slot.word, loadLE_congr zeros]
  rfl

theorem Sound.given_inUse (sound : Sound disk) {slot : Slot}
    (inUse : slot.InUse (disk.given use count).made) :
    slot.InUse disk.made ∨ slot.word disk.map = 0 := by
  cases slot with
  | entry table k =>
      rcases inUse with used | used
      · rcases given_used.mp used with old | ⟨_, lower, _⟩
        · exact Or.inl (Or.inl old)
        · exact Or.inr (sound.given_empty lower)
      · rcases given_used.mp used with old | ⟨_, lower, _⟩
        · exact Or.inl (Or.inr old)
        · exact Or.inr (sound.given_empty lower)
  | _ =>
      rcases given_used.mp inUse with old | ⟨_, lower, _⟩
      · exact Or.inl old
      · exact Or.inr (sound.given_empty lower)

theorem Sound.given (sound : Sound disk)
    (room : disk.pos / 4096 + count < disk.nblocks) : Sound (disk.given use count) := by
  have aligned := sound.aligned
  have started := sound.started
  have blocks : (disk.pos + 4096 * count) / 4096 = disk.pos / 4096 + count := by omega
  refine ⟨?_, ?_, ?_, ?_, sound.small, ?_, ?_⟩
  · simp only [Disk.given, List.flatMap_append, sound.regions, blocks]
    simp only [List.flatMap_cons, List.flatMap_nil, List.append_nil, Region.blocks]
    rw [List.range_eq_range', List.range_eq_range', ← List.range'_append_1, Nat.zero_add]
  · simp only [Disk.given]
    omega
  · exact sound.super.append
  · simp only [Disk.given, blocks]
    exact room
  · refine sound.linked.grow ?_ ?_
    · intro pointer target
      exact target.append
    · intro slot inUse
      exact sound.given_inUse inUse
  · intro x above
    simp only [Disk.given] at above ⊢
    exact sound.blank x (by omega)

theorem Disk.given_grows (disk : Disk) (use : Use) (count : Nat) :
    Grows (fun _ => False) disk (disk.given use count) :=
  ⟨rfl, rfl, Nat.le_add_right _ _, ⟨_, rfl⟩, fun _ _ _ => rfl, fun _ _ => rfl⟩

theorem Loose.given (sound : Sound disk) {block : Nat} (loose : Loose disk block)
    (positive : block ≠ 0) : Loose (disk.given use count) block :=
  Unheld.grow loose positive fun _ inUse => sound.given_inUse inUse

theorem Sound.loose_new (sound : Sound disk) {block : Nat} (new : disk.pos / 4096 ≤ block) :
    Loose disk block := by
  have aligned := sound.aligned
  have started := sound.started
  refine sound.linked.unheld (by omega) fun target => ?_
  have := sound.target_below target
  omega

theorem Sound.alloc_ok (sound : Sound disk) {bytes start : Nat} (small : bytes + 4096 ≤ 2 ^ 32)
    (ran : alloc use bytes disk = .ok (start, after)) :
    start = disk.pos ∧ after = disk.given use ((bytes + 4095) / 4096) ∧ Sound after := by
  have last := sound.below
  have aligned := sound.aligned
  have limit := sound.small
  have size : roundUp (bytes % 2 ^ 32) = 4096 * ((bytes + 4095) / 4096) := by
    rw [Nat.mod_eq_of_lt (by omega), roundUp_eq small, Nat.mul_comm]
  have count : 4096 * ((bytes + 4095) / 4096) / 4096 = (bytes + 4095) / 4096 :=
    Nat.mul_div_cancel_left _ (by norm_num)
  rw [alloc_eq_ok] at ran
  simp only [size, blkSize, count] at ran
  obtain ⟨room, rfl, rfl⟩ := ran
  refine ⟨rfl, rfl, sound.given ?_⟩
  simp only [blockof, blkSize] at room
  omega

end Alloc

end OsLabs.Fs
