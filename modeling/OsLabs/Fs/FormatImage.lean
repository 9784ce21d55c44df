import OsLabs.Fs.FormatFiles

/-!
# The finished image

Every file, and the directory after them, adds an inode, its data and its index tables
to a sound disk; `finishdisk` then clears the bits of the blocks given out.
-/

set_option autoImplicit false

namespace OsLabs.Fs

open OsLabs.ByteMemory OsLabs.ExceptRules OsLabs.PointerSlots

def Complete (disk : Disk) : Prop := ∀ block, Target disk.made block → Held disk block

section Files

variable {disk after : Disk} {inode : Nat}

theorem given_target_plain {use : Use} {count block : Nat}
    (plain : use = .inode ∨ use = .bitmap) (target : Target (disk.given use count).made block) :
    Target disk.made block := by
  rcases target with used | used | used
  · rcases given_used.mp used with old | ⟨rfl, _⟩
    · exact Or.inl old
    · simp at plain
  · rcases given_used.mp used with old | ⟨rfl, _⟩
    · exact Or.inr (Or.inl old)
    · simp at plain
  · rcases given_used.mp used with old | ⟨rfl, _⟩
    · exact Or.inr (Or.inr old)
    · simp at plain

structure EmptyInode (disk : Disk) (inode : Nat) : Prop where
  used : UsedAs disk.made .inode inode
  empty : ∀ slot : Slot, slot.InUse disk.made → slot.block = inode → slot.word disk.map = 0

theorem EmptyInode.grows (fresh : EmptyInode disk inode) (sound : Sound after)
    (grows : Grows (fun _ => False) disk after) : EmptyInode after inode := by
  refine ⟨grows.used fresh.used, fun slot inUse block => ?_⟩
  have old : slot.InUse disk.made := by
    cases slot with
    | entry table k =>
        simp only [Slot.block] at block
        subst block
        rcases inUse with used | used <;>
          cases sound.use_unique (grows.used fresh.used) used
    | _ =>
        simp only [Slot.block] at block
        subst block
        exact fresh.used
  rw [grows.words slot old not_false]
  exact fresh.empty slot old block

theorem contents_ok (sound : Sound disk) (complete : Complete disk)
    (fresh : EmptyInode disk inode) {bytes len start size : Nat} {source : Nat → UInt8}
    {made : Disk} (small : bytes + 4096 ≤ 2 ^ 32) (lenSmall : len + 4096 ≤ 2 ^ 32)
    (same : (len + 4095) / 4096 = (bytes + 4095) / 4096) (inside : size ≤ bytes)
    (given : alloc .data bytes disk = .ok (start, made))
    (ran : finishinode (4096 * inode) (blockof start) len
      { made with map := blit made.map start size source } = .ok after) :
    Sound after ∧ Complete after ∧ Grows (fun slot => slot.block = inode) disk after := by
  have aligned := sound.aligned
  have below := sound.below
  have limit := sound.small
  obtain ⟨rfl, rfl, sound'⟩ := sound.alloc_ok small given
  have number : blockof disk.pos = disk.pos / 4096 := by
    simp only [blockof, blkSize]
    omega
  rw [number] at ran
  set count := (bytes + 4095) / 4096 with countDef
  set map := blit (disk.given .data count).map disk.pos size source with mapDef
  have newData : ∀ k < count, UsedAs (disk.given .data count).made .data
      (disk.pos / 4096 + k) := by
    intro k upper
    exact given_used.mpr (Or.inr ⟨rfl, by omega, by omega⟩)
  obtain ⟨written, growsMap⟩ := @Sound.write _ map sound' (by
    intro x notSpare
    have outside : ¬ (disk.pos ≤ x ∧ x < disk.pos + size) := by
      rintro ⟨lower, upper⟩
      have data := newData (x / 4096 - disk.pos / 4096) (by omega)
      rw [Nat.add_sub_cancel' (by omega)] at data
      exact notSpare (Or.inr (Or.inl data))
    simp only [mapDef, blit, if_neg outside])
  have grows : Grows (fun _ => False) disk { disk.given .data count with map := map } :=
    (disk.given_grows .data count).trans growsMap
  have empty : ∀ slot : Slot, slot.InUse (disk.given .data count).made →
      slot.block = inode → slot.word map = 0 := by
    intro slot inUse block
    rw [growsMap.words slot inUse not_false]
    rcases sound.given_inUse inUse with old | new
    · exact fresh.empty slot old block
    · exact new
  have loose : ∀ k < count, Loose { disk.given .data count with map := map }
      (disk.pos / 4096 + k) := by
    intro k upper
    have started := sound.started
    have before : Loose (disk.given .data count) (disk.pos / 4096 + k) :=
      (sound.loose_new (Nat.le_add_right _ _)).given sound (by omega)
    exact Unheld.fill before (fun _ => False)
      (fun slot inUse _ => growsMap.words slot inUse not_false) fun _ no => no.elim
  have filled := finishinode_ok written fresh.used.append empty lenSmall
    (by rw [same]; exact newData) (by rw [same]; exact loose) ran
  rw [same] at filled
  refine ⟨filled.sound, ?_, (grows.mono fun _ _ no => no.elim).trans filled.grows⟩
  intro block target
  rcases filled.complete block target with old | held
  · have positive := written.target_positive old
    rcases given_target old with older | new
    · refine Held.grows ?_ filled.grows (fun slot inUse => empty slot inUse) positive
      exact (complete block older).grows grows (fun _ _ no => no.elim) positive
    · have held := filled.held (block - disk.pos / 4096) (by omega)
      rwa [Nat.add_sub_cancel' new.1] at held
  · exact held

/-! ## New inodes -/

theorem stampInode_frame {stamp : Stamp} {map : Memory} {x : Nat}
    (outside : ¬ (inode ≤ x ∧ x < inode + iDirect)) :
    stampInode stamp inode map x = map x := by
  simp only [iDirect] at outside
  simp only [stampInode, iNlink, iAtime, iCtime, iMtime, iOwner, iGroup]
  repeat rw [storeLE_outside (by omega)]

theorem Sound.newInode (sound : Sound disk) (complete : Complete disk) {iout : Nat}
    {made : Disk} {map : Memory} (given : alloc .inode blkSize disk = .ok (iout, made))
    (same : ∀ x, ¬ (iout ≤ x ∧ x < iout + iDirect) → map x = made.map x) :
    ∃ inode, iout = 4096 * inode ∧ inode = disk.pos / 4096 ∧
      made.pos = disk.pos + 4096 ∧
      Sound { made with map := map } ∧ Complete { made with map := map } ∧
      Grows (fun _ => False) disk { made with map := map } ∧
      EmptyInode { made with map := map } inode := by
  have aligned := sound.aligned
  have one : (blkSize + 4095) / 4096 = 1 := rfl
  obtain ⟨rfl, rfl, sound'⟩ := sound.alloc_ok (by simp only [blkSize]; omega) given
  rw [one] at sound' same ⊢
  have used : UsedAs (disk.given .inode 1).made .inode (disk.pos / 4096) :=
    given_used.mpr (Or.inr ⟨rfl, Nat.le_refl _, Nat.lt_succ_self _⟩)
  obtain ⟨written, growsMap⟩ := @Sound.write _ map sound' (by
    intro x notSpare
    refine same x ?_
    rintro ⟨lower, upper⟩
    have block : x / 4096 = disk.pos / 4096 := by
      simp only [iDirect] at upper
      omega
    refine notSpare (Or.inr (Or.inr ⟨block ▸ used, ?_⟩))
    simp only [iDirect] at upper ⊢
    omega)
  have grows := (disk.given_grows .inode 1).trans growsMap
  refine ⟨disk.pos / 4096, by omega, rfl, rfl, written, ?_, grows, used, ?_⟩
  · intro block target
    have old := given_target_plain (Or.inl rfl) target
    exact (complete block old).grows grows (fun _ _ no => no.elim)
      (written.target_positive target)
  · intro slot inUse block
    rw [growsMap.words slot inUse not_false]
    exact sound.given_empty (by omega)

theorem growEnts_ok {heap : Heap} {id id' : IDir} {moved : Bool}
    (ran : growEnts heap id = .ok (moved, id')) : id'.inode = id.inode ∧ id'.n = id.n := by
  unfold growEnts at ran
  by_cases full : id.capacity ≤ id.n
  · simp only [if_pos full] at ran
    generalize (if id.capacity * 4 % 2 ^ 32 < id.capacity then 2 ^ 32 - 1
      else id.capacity * 4 % 2 ^ 32) = capacity at ran
    split at ran
    · cases ran
    · cases array : heap.realloc capacity with
      | none =>
          rw [array] at ran
          cases ran
      | some result =>
          rw [array] at ran
          cases ran
          exact ⟨rfl, rfl⟩
  · rw [if_neg full] at ran
    cases ran
    exact ⟨rfl, rfl⟩

structure Writing (disk : Disk) (id : IDir) : Prop where
  sound : Sound disk
  complete : Complete disk
  entries : id.n ≤ disk.pos / 4096

variable {heap : Heap} {stamp : Stamp} {id id' : IDir}

theorem Writing.idiradd (writing : Writing disk id) {mode iout : Nat} {name : List UInt8}
    (ran : Fs.idiradd heap stamp id mode name disk = .ok (iout, id', after)) :
    ∃ inode, iout = 4096 * inode ∧ inode = disk.pos / 4096 ∧ id'.inode = id.inode ∧
      Writing after id' ∧ Grows (fun _ => False) disk after ∧ EmptyInode after inode := by
  unfold Fs.idiradd at ran
  obtain ⟨⟨moved, grown⟩, ents, rest⟩ := bind_eq_ok.mp ran
  obtain ⟨⟨start, made⟩, given, rest⟩ := bind_eq_ok.mp rest
  obtain ⟨sameInode, count⟩ := growEnts_ok ents
  have kept : ∀ x, ¬ (start ≤ x ∧ x < start + iDirect) →
      stampInode stamp start (storeLE (storeLE made.map (start + iMode) 4 mode)
        (start + iSize) 4 0) x = made.map x := by
    intro x outside
    rw [stampInode_frame outside]
    simp only [iDirect] at outside
    simp only [iMode, iSize]
    rw [storeLE_outside (by omega), storeLE_outside (by omega)]
  obtain ⟨inode, number, position, pos, sound, complete, grows, fresh⟩ :=
    writing.sound.newInode writing.complete given kept
  cases rest
  refine ⟨inode, number, position, sameInode, ⟨sound, complete, ?_⟩, grows, fresh⟩
  have entries := writing.entries
  simp only [count, pos]
  have wrapped := Nat.mod_le (id.n + 1) (2 ^ 32)
  omega

/-! ## The files -/

theorem Writing.writeinode (writing : Writing disk id) {file : InputFile}
    (smaller : file.contents.length + 4096 ≤ 2 ^ 32)
    (ran : Fs.writeinode heap stamp id file disk = .ok (id', after)) :
    Writing after id' ∧ id'.inode = id.inode ∧ Grows (fun _ => False) disk after := by
  unfold Fs.writeinode at ran
  split at ran
  · obtain ⟨⟨iout, grown, created⟩, added, rest⟩ := bind_eq_ok.mp ran
    obtain ⟨⟨start, made⟩, given, rest⟩ := bind_eq_ok.mp rest
    obtain ⟨finished, filled, rest⟩ := bind_eq_ok.mp rest
    cases rest
    obtain ⟨inode, rfl, position, sameInode, next, grows, fresh⟩ := writing.idiradd added
    obtain ⟨sound, complete, growsFile⟩ := contents_ok next.sound next.complete fresh smaller
      smaller rfl (Nat.le_refl _) given filled
    refine ⟨⟨sound, complete, ?_⟩, sameInode, ?_⟩
    · have positions := growsFile.pos
      have entries := next.entries
      omega
    · have newInode : Grows (fun slot => slot.block = inode) disk after :=
        (grows.mono fun _ _ no => no.elim).trans growsFile
      refine newInode.mono fun slot inUse block => ?_
      have earlier := writing.sound.slot_below inUse
      omega
  · cases ran

theorem Writing.writeinodes {files : List InputFile} (writing : Writing disk id)
    (smaller : ∀ file ∈ files, file.contents.length + 4096 ≤ 2 ^ 32)
    (ran : Fs.writeinodes heap stamp files id disk = .ok (id', after)) :
    Writing after id' ∧ id'.inode = id.inode ∧ Grows (fun _ => False) disk after := by
  induction files generalizing id disk with
  | nil =>
      cases ran
      exact ⟨writing, rfl, Grows.refl _⟩
  | cons file rest ih =>
      obtain ⟨⟨next, middle⟩, first, others⟩ := bind_eq_ok.mp ran
      obtain ⟨writing', sameInode, grows⟩ := writing.writeinode (smaller file (by simp)) first
      obtain ⟨last, sameInode', grows'⟩ :=
        ih writing' (fun other member => smaller other (by simp [member])) others
      exact ⟨last, sameInode'.trans sameInode, grows.trans grows'⟩

theorem Writing.finishidir (writing : Writing disk id) (root : id.inode = 4096 * inode)
    (fresh : EmptyInode disk inode) (ran : Fs.finishidir id disk = .ok after) :
    Sound after ∧ Complete after ∧ Grows (fun slot => slot.block = inode) disk after := by
  have entries := writing.entries
  have below := writing.sound.below
  have limit := writing.sound.small
  have size : id.n * direntSize % 2 ^ 32 = id.n * 128 := by
    simp only [direntSize]
    omega
  have rounded : roundUp (id.n * 128) = (id.n * 128 + 4095) / 4096 * 4096 :=
    roundUp_eq (by simp only [blkSize]; omega)
  unfold Fs.finishidir at ran
  simp only [size, rounded, root] at ran
  obtain ⟨⟨start, made⟩, given, rest⟩ := bind_eq_ok.mp ran
  exact contents_ok writing.sound writing.complete fresh (by omega) (by omega) (by omega)
    (Nat.le_refl _) given rest

/-! ## The bitmap -/

structure FreshBitmap (disk : Disk) (bytes : Nat) : Prop where
  words : bytes % 4 = 0
  covers : disk.nblocks ≤ 8 * bytes
  used : ∀ x, disk.bitmap ≤ x → x < disk.bitmap + bytes → UsedAs disk.made .bitmap (x / 4096)
  ones : ∀ x, disk.bitmap ≤ x → x < disk.bitmap + bytes → disk.map x = 0xFF

theorem FreshBitmap.grows {bytes : Nat} (bitmap : FreshBitmap disk bytes)
    {changed : Slot → Prop} (grows : Grows changed disk after) : FreshBitmap after bytes := by
  refine ⟨bitmap.words, ?_, ?_, ?_⟩
  · rw [grows.nblocks]
    exact bitmap.covers
  · rw [grows.bitmap]
    intro x lower upper
    exact grows.used (bitmap.used x lower upper)
  · rw [grows.bitmap]
    intro x lower upper
    rw [grows.bits x (bitmap.used x lower upper), bitmap.ones x lower upper]

/-- The bit of a block, as `finishdisk` addresses it. -/
def bitOf (bitmap : Nat) (map : Memory) (block : Nat) : Bool :=
  (BitVec.ofNat 32 (loadLE map (bitmap + 4 * (block / 32)) 4)).getLsbD (block % 32)

theorem loadLE_ones {map : Memory} {address width : Nat}
    (ones : ∀ x, address ≤ x → x < address + width → map x = 0xFF) :
    loadLE map address width = 256 ^ width - 1 := by
  induction width generalizing address with
  | zero => rfl
  | succ width ih =>
      have head := ones address (Nat.le_refl _) (by omega)
      have tail := @ih (address + 1) fun x lower upper => ones x (by omega) (by omega)
      have positive : 0 < 256 ^ width := Nat.pow_pos (by norm_num)
      rw [loadLE, head, tail, pow_succ]
      simp only [UInt8.reduceToNat]
      omega

theorem bitOf_store {bitmap i block : Nat} {map : Memory} (word : BitVec 32) :
    bitOf bitmap (storeLE map (bitmap + 4 * (i / 32)) 4 word.toNat) block =
      if block / 32 = i / 32 then word.getLsbD (block % 32) else bitOf bitmap map block := by
  unfold bitOf
  by_cases same : block / 32 = i / 32
  · have whole : BitVec.ofNat 32 (word.toNat % 256 ^ 4) = word := by
      apply BitVec.eq_of_toNat_eq
      rw [BitVec.toNat_ofNat]
      have := word.isLt
      omega
    rw [if_pos same, same, loadLE_storeLE, whole]
  · rw [if_neg same, loadLE_storeLE_apart _ _ _ _ _ _ (by omega)]

/-- The bit `1 << (i % 32)` is that of the block among the blocks of its word. -/
theorem bit_mask {i block : Nat} (same : block / 32 = i / 32) :
    (1#32 <<< (i % 32)).getLsbD (block % 32) = decide (block = i) := by
  rw [BitVec.getLsbD_shiftLeft, BitVec.getLsbD_one]
  by_cases equal : block = i
  · simp [equal]
    omega
  · simp [equal]
    omega

theorem clearBit_bit {bitmap i block : Nat} {map : Memory} :
    bitOf bitmap (clearBit bitmap map i) block =
      (bitOf bitmap map block && decide (block ≠ i)) := by
  rw [clearBit, bitOf_store]
  by_cases same : block / 32 = i / 32
  · have inWord : block % 32 < 32 := Nat.mod_lt _ (by norm_num)
    rw [if_pos same, BitVec.getLsbD_and, BitVec.getLsbD_not, bit_mask same, bitOf, same]
    simp [inWord]
  · have different : block ≠ i := by
      rintro rfl
      exact same rfl
    rw [if_neg same]
    simp [different]

theorem clearBits_bit {bitmap count block : Nat} {map : Memory} :
    bitOf bitmap (clearBits bitmap map count) block =
      (bitOf bitmap map block && decide (count ≤ block)) := by
  induction count with
  | zero => simp [clearBits]
  | succ count ih =>
      rw [clearBits, clearBit_bit, ih, Bool.and_assoc, ← Bool.decide_and]
      congr 2
      apply propext
      omega

theorem clearBits_frame {bitmap bytes count : Nat} {map : Memory} {x : Nat}
    (words : bytes % 4 = 0) (within : count ≤ 8 * bytes)
    (outside : x < bitmap ∨ bitmap + bytes ≤ x) : clearBits bitmap map count x = map x := by
  induction count with
  | zero => rfl
  | succ count ih =>
      rw [clearBits, clearBit, storeLE_outside (by omega), ih (by omega)]

theorem bitOf_ones {bitmap block : Nat} {map : Memory}
    (ones : ∀ x, bitmap + 4 * (block / 32) ≤ x → x < bitmap + 4 * (block / 32) + 4 →
      map x = 0xFF) : bitOf bitmap map block = true := by
  have all : BitVec.ofNat 32 (256 ^ 4 - 1) = BitVec.allOnes 32 := by decide
  rw [bitOf, loadLE_ones ones, all, BitVec.getLsbD_allOnes, decide_eq_true_eq]
  omega

theorem FreshBitmap.bit_set {bytes : Nat} (bitmap : FreshBitmap disk bytes) {block : Nat}
    (below : block < disk.nblocks) : bitOf disk.bitmap disk.map block = true := by
  have covers := bitmap.covers
  have words := bitmap.words
  exact bitOf_ones fun x lower upper => bitmap.ones x (by omega) (by omega)

theorem FreshBitmap.finishdisk {bytes : Nat} (bitmap : FreshBitmap disk bytes)
    (sound : Sound disk) :
    (∀ block < disk.nblocks, bitOf disk.bitmap (Fs.finishdisk disk).map block = false ↔
      block < blockof disk.pos) ∧
      ∀ slot : Slot, slot.InUse disk.made →
        slot.word (Fs.finishdisk disk).map = slot.word disk.map := by
  have below := sound.below
  have small := sound.small
  have number : blockof disk.pos = disk.pos / 4096 := by
    simp only [blockof, blkSize]
    omega
  refine ⟨?_, ?_⟩
  · intro block inside
    rw [Fs.finishdisk, clearBits_bit, bitmap.bit_set inside]
    simp
  · intro slot inUse
    refine loadLE_congr fun x lower upper => ?_
    have covers := bitmap.covers
    refine clearBits_frame bitmap.words (by omega) ?_
    by_contra within
    have bit := bitmap.used x (by omega) (by omega)
    rw [(Slot.byte_block lower upper).1] at bit
    rcases inUse.used with used | used | used <;> cases sound.use_unique bit used

/-! ## opendisk -/

theorem super_ok {nblocks super : Nat} (small : nblocks < 2 ^ 20)
    (ran : alloc .super blkSize ⟨fun _ => 0, 0, nblocks, 0, []⟩ = .ok (super, disk)) :
    super = 0 ∧ disk.nblocks = nblocks ∧ Sound disk ∧
      ∀ use block, UsedAs disk.made use block → use = .super := by
  have size : roundUp (blkSize % 2 ^ 32) = 4096 := by decide
  have one : blockof 4096 = 1 := by decide
  have only : ∀ use block, UsedAs [⟨.super, 0, 1⟩] use block → use = .super := by
    rintro use block ⟨region, member, rfl, _⟩
    rw [List.mem_singleton] at member
    rw [member]
  rw [alloc_eq_ok, size] at ran
  simp only [Nat.zero_add, one] at ran
  obtain ⟨room, rfl, rfl⟩ := ran
  refine ⟨rfl, rfl, ⟨?_, Nat.mod_self _, ⟨_, List.mem_singleton.mpr rfl, rfl, ?_⟩, ?_, small,
    ?_, fun _ _ => rfl⟩, only⟩
  · simp [Region.blocks]
  · simp [Region.has]
  · simp only
    omega
  · have none : ∀ slot : Slot, ¬ slot.InUse [⟨.super, 0, 1⟩] := by
      intro slot inUse
      rcases inUse.used with used | used | used <;> cases only _ _ used
    exact ⟨fun slot inUse => absurd inUse (none slot),
      fun slot _ inUse => absurd inUse (none slot)⟩

theorem bitmap_ok (sound : Sound disk)
    (only : ∀ use block, UsedAs disk.made use block → use = .super)
    {bytes bitmap : Nat} {made : Disk} (whole : bytes % 4 = 0)
    (covers : disk.nblocks ≤ 8 * bytes) (small : bytes + 4096 ≤ 2 ^ 32)
    (given : alloc .bitmap bytes disk = .ok (bitmap, made)) :
    let after := { made with map := fill made.map bitmap bytes 0xFF, bitmap := bitmap }
    Sound after ∧ Complete after ∧ FreshBitmap after bytes ∧ after.nblocks = disk.nblocks := by
  have aligned := sound.aligned
  obtain ⟨rfl, rfl, sound'⟩ := sound.alloc_ok small given
  intro after
  have two : ∀ use block, UsedAs after.made use block → use = .super ∨ use = .bitmap := by
    intro use block used
    rcases given_used.mp used with old | ⟨rfl, _⟩
    · exact Or.inl (only use block old)
    · exact Or.inr rfl
  have used : ∀ x, disk.pos ≤ x → x < disk.pos + bytes →
      UsedAs after.made .bitmap (x / 4096) := by
    intro x lower upper
    exact given_used.mpr (Or.inr ⟨rfl, by omega, by omega⟩)
  have noSlots : ∀ slot : Slot, ¬ slot.InUse after.made := by
    intro slot inUse
    rcases inUse.used with other | other | other <;> cases two _ _ other <;> contradiction
  refine ⟨⟨sound'.regions, sound'.aligned, sound'.super, sound'.below, sound'.small, ?_, ?_⟩,
    ?_, ⟨whole, covers, used, ?_⟩, rfl⟩
  · exact ⟨fun slot inUse => absurd inUse (noSlots slot),
      fun slot _ inUse => absurd inUse (noSlots slot)⟩
  · intro x above
    have beyond : disk.pos + 4096 * ((bytes + 4095) / 4096) ≤ x := above
    have outside : ¬ (disk.pos ≤ x ∧ x < disk.pos + bytes) := by omega
    simp only [after, fill, if_neg outside]
    exact sound'.blank x above
  · intro block target
    rcases target with other | other | other <;> cases two _ _ other <;> contradiction
  · intro x lower upper
    exact if_pos ⟨lower, upper⟩

theorem opendisk_ok {nblocks position : Nat} (small : nblocks < 2 ^ 20)
    (ran : opendisk stamp nblocks = .ok (disk, position)) :
    ∃ inode bytes, position = 4096 * inode ∧ EmptyInode disk inode ∧ Sound disk ∧
      Complete disk ∧ FreshBitmap disk bytes ∧ disk.nblocks = nblocks := by
  unfold opendisk at ran
  obtain ⟨⟨super, first⟩, superGiven, rest⟩ := bind_eq_ok.mp ran
  obtain ⟨⟨bitmap, second⟩, bitmapGiven, rest⟩ := bind_eq_ok.mp rest
  obtain ⟨⟨root, third⟩, rootGiven, rest⟩ := bind_eq_ok.mp rest
  obtain ⟨rfl, blocks, sound, only⟩ := super_ok small superGiven
  obtain ⟨bytes, bytesEq⟩ : ∃ bytes,
      (nblocks + blkBitSize - 1) % 2 ^ 32 / blkBitSize * blkSize = bytes := ⟨_, rfl⟩
  simp only [bytesEq] at bitmapGiven rootGiven rest
  simp only [blkBitSize, blkSize] at bytesEq
  obtain ⟨sound, complete, bits, blocks'⟩ :=
    bitmap_ok sound only (by omega) (by omega) (by omega) bitmapGiven
  have rootFrame : ∀ x, ¬ (root ≤ x ∧ x < root + iDirect) →
      stampInode stamp root (storeLE third.map (root + iMode) 4 (sIfdir ||| 0o777)) x =
        third.map x := by
    intro x outside
    rw [stampInode_frame outside]
    simp only [iDirect] at outside
    simp only [iMode]
    rw [storeLE_outside (by omega)]
  obtain ⟨inode, rfl, -, -, sound, complete, grows, fresh⟩ :=
    sound.newInode complete rootGiven rootFrame
  cases rest
  obtain ⟨written, growsSuper⟩ := @Sound.write _ (storeLE (storeLE (storeLE (stampInode stamp
    (4096 * inode) (storeLE third.map (4096 * inode + iMode) 4 (sIfdir ||| 0o777)))
    (0 + sMagic) 4 fsMagic) (0 + sNblocks) 4 nblocks) (0 + sRoot) 4
    (blockof (4096 * inode))) sound (by
      intro x notSpare
      have outside : 12 ≤ x := by
        by_contra within
        have zero : x / 4096 = 0 := by omega
        exact notSpare (Or.inl (zero ▸ sound.super))
      simp only [sMagic, sNblocks, sRoot]
      repeat rw [storeLE_outside (by omega)])
  refine ⟨inode, bytes, rfl, fresh.grows written growsSuper, written, ?_,
    (bits.grows grows).grows growsSuper, ?_⟩
  · intro block target
    exact (complete block target).grows growsSuper (fun _ _ no => no.elim)
      (sound.target_positive target)
  · exact growsSuper.nblocks.trans (grows.nblocks.trans (blocks'.trans blocks))

end Files

/-! ## fsformat -/

/-- The blocks below `diskpos` are given out once each and are those whose bit is clear;
the block numbers in inodes and index tables are inside the image and all different, and
all data and index blocks are among them. -/
theorem fsformat_sound {heap : Heap} {stamp : Stamp} {nblocks : Nat} {files : List InputFile}
    {disk : Disk} (small : nblocks < 2 ^ 20)
    (smaller : ∀ file ∈ files, file.contents.length < nblocks * blkSize)
    (ran : fsformat heap stamp nblocks files = .ok disk) :
    (∀ block < nblocks,
      bitOf disk.bitmap disk.map block = false ↔ block < blockof disk.pos) ∧
    disk.made.flatMap Region.blocks = List.range (blockof disk.pos) ∧
    (∀ slot : Slot, slot.InUse disk.made → slot.word disk.map ≠ 0 →
      slot.word disk.map < nblocks ∧ Target disk.made (slot.word disk.map) ∧
        ∀ other : Slot, other.InUse disk.made → other.word disk.map = slot.word disk.map →
          other = slot) ∧
    ∀ block, Target disk.made block →
      ∃ slot : Slot, slot.InUse disk.made ∧ slot.word disk.map = block := by
  unfold fsformat at ran
  split at ran
  · cases ran
  obtain ⟨⟨opened, position⟩, openRan, rest⟩ := bind_eq_ok.mp ran
  obtain ⟨⟨id, written⟩, filesRan, rest⟩ := bind_eq_ok.mp rest
  obtain ⟨final, dirRan, rest⟩ := bind_eq_ok.mp rest
  cases rest
  obtain ⟨inode, bytes, rfl, fresh, sound, complete, bitmap, count⟩ := opendisk_ok small openRan
  have writing : Writing opened (startidir heap (4096 * inode)) :=
    ⟨sound, complete, Nat.zero_le _⟩
  obtain ⟨writing', root, grows⟩ := writing.writeinodes
    (fun file member => by
      have := smaller file member
      simp only [blkSize] at this
      omega) filesRan
  obtain ⟨sound, complete, growsDir⟩ :=
    writing'.finishidir root (fresh.grows writing'.sound grows) dirRan
  have blocks : final.nblocks = nblocks := growsDir.nblocks.trans (grows.nblocks.trans count)
  have below := sound.below
  have number : blockof final.pos = final.pos / 4096 := by
    simp only [blockof, blkSize]
    omega
  obtain ⟨bits, words⟩ := ((bitmap.grows grows).grows growsDir).finishdisk sound
  refine ⟨by rwa [blocks] at bits, ?_, ?_, ?_⟩
  · rw [finishdisk, number]
    exact sound.regions
  · intro slot inUse nonzero
    rw [words slot inUse] at nonzero ⊢
    have target := sound.linked.target slot inUse nonzero
    have inside := sound.target_below target
    refine ⟨by omega, target, fun other otherInUse same => ?_⟩
    rw [words other otherInUse] at same
    exact sound.linked.unique slot other inUse otherInUse nonzero same
  · intro block target
    obtain ⟨slot, inUse, word⟩ := complete block target
    exact ⟨slot, inUse, (words slot inUse).trans word⟩

/-- One file of three bytes on eight blocks. -/
theorem fsformat_sound_sample :
    ∃ disk, fsformat ⟨fun _ => 0, fun _ => none⟩ ⟨1, 2, 3⟩ 8 [⟨[97], true, [1, 2, 3]⟩] =
        .ok disk ∧
      (∀ block < 8,
        bitOf disk.bitmap disk.map block = false ↔ block < blockof disk.pos) ∧
      disk.made.flatMap Region.blocks = List.range (blockof disk.pos) ∧
      (∀ slot : Slot, slot.InUse disk.made → slot.word disk.map ≠ 0 →
        slot.word disk.map < 8 ∧ Target disk.made (slot.word disk.map) ∧
          ∀ other : Slot, other.InUse disk.made → other.word disk.map = slot.word disk.map →
            other = slot) ∧
      ∀ block, Target disk.made block →
        ∃ slot : Slot, slot.InUse disk.made ∧ slot.word disk.map = block := by
  have returns : (fsformat ⟨fun _ => 0, fun _ => none⟩ ⟨1, 2, 3⟩ 8
      [⟨[97], true, [1, 2, 3]⟩]).isOk = true := by decide +kernel
  cases ran : fsformat ⟨fun _ => 0, fun _ => none⟩ ⟨1, 2, 3⟩ 8 [⟨[97], true, [1, 2, 3]⟩] with
  | error stopped =>
      rw [ran] at returns
      cases returns
  | ok disk =>
      refine ⟨disk, rfl, fsformat_sound (by norm_num) ?_ ran⟩
      intro file member
      rw [List.mem_singleton] at member
      rw [member]
      decide

end OsLabs.Fs
