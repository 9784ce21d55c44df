import OsLabs.Fs.FormatImage
import OsLabs.Fs.FormatLayout

/-!
# The root directory that fsformat writes

`idiradd` takes the pointer to the new entry before it lets the array grow.  When
`realloc` moves the array, the name and the number go into the freed block and the
entry keeps what the new memory happened to hold.  `formatDir_recorded_iff` says that
nothing else goes wrong.
-/

set_option autoImplicit false

namespace OsLabs.Fs

open OsLabs.ByteMemory OsLabs.ExceptRules

/-! ## Building a directory -/

/-- A call of `idiradd`, and what its caller does with the inode before the next call. -/
structure DirCall where
  mode : Nat
  name : List UInt8
  work : Nat → Disk → Except Panic Disk

/-- The calls in order: the inodes they return, the array and the disk. -/
def idiraddAll (heap : Heap) (stamp : Stamp) :
    List DirCall → IDir → Disk → Except Panic (List Nat × IDir × Disk)
  | [], id, disk => .ok ([], id, disk)
  | call :: rest, id, disk => do
      let (iout, id, disk) ← idiradd heap stamp id call.mode call.name disk
      let disk ← call.work iout disk
      let (inodes, id, disk) ← idiraddAll heap stamp rest id disk
      .ok (iout :: inodes, id, disk)

/-- `startidir`, the calls and `finishidir`: the inodes, where the entries are written,
and the disk. -/
def formatDir (heap : Heap) (stamp : Stamp) (inode : Nat) (calls : List DirCall)
    (disk : Disk) : Except Panic (List Nat × Nat × Disk) := do
  let (inodes, id, disk) ← idiraddAll heap stamp calls (startidir heap inode) disk
  let last ← finishidir id disk
  .ok (inodes, disk.pos, last)

def Heap.refill (heap : Heap) (bytes : Memory) : Heap where
  fresh := bytes
  realloc capacity := (heap.realloc capacity).map fun (moved, _) => (moved, bytes)

/-- Entry `k` of the array at `table` is that of the file `name` with the inode `inum`. -/
structure EntryAt (map : Memory) (table k : Nat) (name : List UInt8) (inum : Nat) : Prop where
  fits : name.length < nameMax
  number : loadLE map (table + 128 * k + dInum) 4 = inum
  letters : ∀ i, i ≤ name.length → map (table + 128 * k + dName + i) = name.getD i 0

/-- What the directory at `start` should be after the calls. -/
structure DirectoryRecorded (inode start : Nat) (calls : List DirCall) (inodes : List Nat)
    (map : Memory) : Prop where
  count : inodes.length = calls.length
  entries : ∀ (k : Nat) (call : DirCall) (iout : Nat), calls[k]? = some call →
    inodes[k]? = some iout → EntryAt map start k call.name (blockof iout)
  rest : ∀ x, 128 * calls.length ≤ x → x < (128 * calls.length + 4095) / 4096 * 4096 →
    map (start + x) = 0
  size : loadLE map (inode + iSize) 4 = (128 * calls.length + 4095) / 4096 * 4096

/-- Nothing is written yet where `alloc` will go on. -/
structure Blank (disk : Disk) : Prop where
  aligned : disk.pos % 4096 = 0
  zero : ∀ x, disk.pos ≤ x → disk.map x = 0

/-- The work between two calls takes blocks only from `alloc`. -/
def Tidy (work : Nat → Disk → Except Panic Disk) : Prop :=
  ∀ iout disk after, work iout disk = .ok after → iout + blkSize ≤ disk.pos → Blank disk →
    Blank after ∧ disk.pos ≤ after.pos

/-- Call `k` makes the array grow and `realloc` moves it. -/
def MovedAt (heap : Heap) (k : Nat) : Prop :=
  ∃ j fresh, k + 1 = 128 * 4 ^ j ∧ heap.realloc (128 * 4 ^ (j + 1)) = some (true, fresh)

/-! ## The array -/

/-- The array after some calls, over fresh memory that holds `bytes`. -/
structure ArrayHolds (heap : Heap) (bytes : Memory) (entries : List (List UInt8 × Nat))
    (id : IDir) : Prop where
  n : id.n = entries.length
  room : id.n < id.capacity
  capacity : ∃ j, id.capacity = 128 * 4 ^ j ∧ ∀ i, i < j → 128 * 4 ^ i ≤ id.n
  written : ∀ k name inum, entries[k]? = some (name, inum) → ¬ MovedAt heap k →
    EntryAt id.ents 0 k name inum
  stale : ∀ k x, k < entries.length → MovedAt heap k → 128 * k ≤ x → x < 128 * (k + 1) →
    id.ents x = bytes x
  unused : ∀ x, 128 * id.n ≤ x → id.ents x = bytes x

section Array

variable {heap : Heap} {stamp : Stamp} {bytes : Memory} {entries : List (List UInt8 × Nat)}
  {id after : IDir} {disk last : Disk} {mode inode start : Nat} {name : List UInt8}

theorem EntryAt.copy {before next : Memory} {table target k inum : Nat}
    (entry : EntryAt before table k name inum)
    (same : ∀ i, i < 128 → next (target + 128 * k + i) = before (table + 128 * k + i)) :
    EntryAt next target k name inum := by
  have short := entry.fits
  simp only [nameMax] at short
  refine ⟨entry.fits, ?_, ?_⟩
  · rw [← entry.number]
    apply loadLE_copy
    intro i inside
    exact same i (by omega)
  · intro i upto
    rw [← entry.letters i upto, Nat.add_assoc, Nat.add_assoc _ dName i]
    exact same (dName + i) (by simp only [dName]; omega)

theorem writeDirent_entry (ents : Memory) (k : Nat) (short : name.length < nameMax)
    {inum : Nat} (small : inum < 2 ^ 32) :
    EntryAt (writeDirent ents k name inum) 0 k name inum := by
  simp only [writeDirent, direntSize, Nat.mul_comm k 128]
  refine ⟨short, ?_, ?_⟩
  · rw [Nat.zero_add, loadLE_storeLE]
    omega
  · intro i upto
    have apart : 128 * k + dInum + 4 ≤ 128 * k + dName + i := by
      simp only [dInum, dName]
      omega
    have inside : 128 * k + dName ≤ 128 * k + dName + i ∧
        128 * k + dName + i < 128 * k + dName + (name.length + 1) := by omega
    rw [Nat.zero_add, storeLE_outside (Or.inr apart), blit, if_pos inside,
      Nat.add_sub_cancel_left]

theorem writeDirent_frame (ents : Memory) {k : Nat} (short : name.length < nameMax)
    (inum : Nat) {x : Nat} (outside : x < 128 * k ∨ 128 * (k + 1) ≤ x) :
    writeDirent ents k name inum x = ents x := by
  simp only [nameMax] at short
  simp only [writeDirent, direntSize, Nat.mul_comm k 128]
  rw [storeLE_outside (by simp only [dInum]; omega), blit,
    if_neg (by simp only [dName]; omega)]

theorem startidir_holds (heap : Heap) (bytes : Memory) (inode : Nat) :
    ArrayHolds heap bytes [] (startidir (heap.refill bytes) inode) := by
  refine ⟨rfl, Nat.succ_pos _, ⟨0, rfl, by omega⟩, ?_, ?_, ?_⟩
  · intro k name inum none
    simp at none
  · intro k x none
    simp at none
  · intro x _
    rfl

/-- The capacities are 128, 512, 2048 and so on, so only some counts make the array
grow; what the array holds stays. -/
theorem growEnts_spec {moved : Bool} {grown : IDir}
    (holds : ArrayHolds heap bytes entries id) (few : id.n < 2 ^ 20)
    (run : growEnts (heap.refill bytes) { id with n := (id.n + 1) % 2 ^ 32 } =
      .ok (moved, grown)) :
    grown.n = id.n + 1 ∧ grown.inode = id.inode ∧ grown.ents = id.ents ∧
      (moved = true ↔ MovedAt heap id.n) ∧ grown.n < grown.capacity ∧
      ∃ j, grown.capacity = 128 * 4 ^ j ∧ ∀ i, i < j → 128 * 4 ^ i ≤ id.n + 1 := by
  obtain ⟨j, capacity, below⟩ := holds.capacity
  have room := holds.room
  have next : (id.n + 1) % 2 ^ 32 = id.n + 1 := by omega
  simp only [growEnts, next] at run
  by_cases grows : id.capacity ≤ id.n + 1
  · have full : id.n + 1 = 128 * 4 ^ j := by omega
    have fits : id.capacity * 4 % 2 ^ 32 = id.capacity * 4 := by omega
    have quadruple : id.capacity * 4 = 128 * 4 ^ (j + 1) := by
      rw [capacity, pow_succ]
      omega
    rw [if_pos grows, fits, if_neg (by omega : ¬ id.capacity * 4 < id.capacity),
      if_neg (by omega : ¬ id.capacity * 4 ≤ id.n + 1)] at run
    simp only [Heap.refill, quadruple] at run
    cases reply : heap.realloc (128 * 4 ^ (j + 1)) with
    | none =>
        rw [reply] at run
        cases run
    | some answer =>
        obtain ⟨there, fresh⟩ := answer
        rw [reply] at run
        cases run
        refine ⟨rfl, rfl, ?_, ?_, ?_, j + 1, rfl, ?_⟩
        · funext x
          simp only [direntSize]
          by_cases old : x < id.capacity * 128
          · rw [if_pos old]
          · rw [if_neg old, holds.unused x (by omega)]
        · constructor
          · rintro rfl
            exact ⟨j, fresh, full, reply⟩
          · rintro ⟨i, other, here, there'⟩
            have powers : 4 ^ i = 4 ^ j := by omega
            have same : i = j := Nat.pow_right_injective (by omega : 2 ≤ 4) powers
            rw [same, reply] at there'
            simp only [Option.some.injEq, Prod.mk.injEq] at there'
            exact there'.1
        · simp only
          omega
        · intro i under
          have order : 4 ^ i ≤ 4 ^ j := Nat.pow_le_pow_right (by omega) (by omega)
          omega
  · rw [if_neg grows] at run
    cases run
    refine ⟨rfl, rfl, rfl, ?_, by simp only; omega, j, capacity, ?_⟩
    · constructor
      · intro wrong
        cases wrong
      · rintro ⟨i, _, here, _⟩
        have order : i < j := by
          by_contra above
          have := Nat.pow_le_pow_right (by omega : 0 < 4) (by omega : j ≤ i)
          omega
        have := below i order
        omega
    · intro i under
      have := below i under
      omega

/-! ## One call -/

/-- What a call does to the disk: one block, and nothing outside it. -/
theorem idiradd_disk {iout : Nat} {before : IDir}
    (run : idiradd heap stamp before mode name disk = .ok (iout, after, last)) :
    iout = disk.pos ∧ last.pos = disk.pos + 4096 ∧
      ∀ x, x < disk.pos ∨ last.pos ≤ x → last.map x = disk.map x := by
  unfold idiradd at run
  obtain ⟨⟨moved, grown⟩, _, run⟩ := bind_eq_ok.mp run
  obtain ⟨⟨place, made⟩, given, run⟩ := bind_eq_ok.mp run
  have size : roundUp (blkSize % 2 ^ 32) = 4096 := rfl
  rw [alloc_eq_ok, size] at given
  obtain ⟨_, rfl, rfl⟩ := given
  cases run
  refine ⟨rfl, rfl, ?_⟩
  intro x outside
  simp only at outside ⊢
  rw [stampInode_frame (by simp only [iDirect]; omega),
    storeLE_outside (by simp only [iSize]; omega),
    storeLE_outside (by simp only [iMode]; omega)]

theorem idiradd_blank {iout : Nat} {before : IDir} (blank : Blank disk)
    (run : idiradd heap stamp before mode name disk = .ok (iout, after, last)) :
    Blank last := by
  obtain ⟨_, position, frame⟩ := idiradd_disk run
  have aligned := blank.aligned
  refine ⟨by omega, ?_⟩
  intro x lower
  rw [frame x (Or.inr lower)]
  exact blank.zero x (by omega)

theorem idiradd_holds {iout : Nat} (holds : ArrayHolds heap bytes entries id)
    (few : id.n < 2 ^ 20) (short : name.length < nameMax)
    (run : idiradd (heap.refill bytes) stamp id mode name disk = .ok (iout, after, last)) :
    ArrayHolds heap bytes (entries ++ [(name, blockof iout)]) after ∧
      after.inode = id.inode := by
  unfold idiradd at run
  obtain ⟨⟨moved, grown⟩, grew, run⟩ := bind_eq_ok.mp run
  obtain ⟨⟨place, made⟩, given, run⟩ := bind_eq_ok.mp run
  obtain ⟨count, inode, same, movedIff, room, capacity⟩ := growEnts_spec holds few grew
  cases run
  have length := holds.n
  have small : blockof iout < 2 ^ 32 := by
    simp only [blockof]
    omega
  have elsewhere : ∀ x, x < 128 * id.n ∨ 128 * (id.n + 1) ≤ x →
      (if moved = true then grown.ents else
        writeDirent grown.ents id.n name (blockof iout)) x = id.ents x := by
    intro x outside
    split
    · rw [same]
    · rw [writeDirent_frame _ short _ outside, same]
  refine ⟨⟨?_, room, ?_, ?_, ?_, ?_⟩, inode⟩
  · simp only [List.length_append, List.length_singleton]
    omega
  · rw [count]
    exact capacity
  · intro k other inum present still
    by_cases new : k = entries.length
    · subst new
      rw [List.getElem?_concat_length] at present
      cases present
      have stays : ¬ moved = true := fun gone => still (length ▸ movedIff.mp gone)
      simp only [if_neg stays, length]
      exact writeDirent_entry _ _ short small
    · have old : entries[k]? = some (other, inum) := by
        have bound := (List.getElem?_eq_some_iff.mp present).1
        rw [List.length_append, List.length_singleton] at bound
        rwa [List.getElem?_append_left (by omega)] at present
      have bound := (List.getElem?_eq_some_iff.mp old).1
      refine (holds.written k other inum old still).copy ?_
      intro i inside
      exact elsewhere _ (by omega)
  · intro k x inRange movedHere lower upper
    rw [List.length_append, List.length_singleton] at inRange
    by_cases new : k = entries.length
    · have gone : moved = true := movedIff.mpr (by rw [length, ← new]; exact movedHere)
      simp only [if_pos gone, same]
      exact holds.unused x (by omega)
    · refine (elsewhere x (by omega)).trans ?_
      exact holds.stale k x (by omega) movedHere lower upper
  · intro x above
    simp only [count] at above
    refine (elsewhere x (by omega)).trans ?_
    exact holds.unused x (by omega)

/-- The entries go where `alloc` is at the end of the calls, and zeros complete their
last block. -/
theorem finishidir_writes {before : IDir} (blank : Blank disk)
    (below : before.inode + blkSize ≤ disk.pos) (few : before.n < 2 ^ 20)
    (run : finishidir before disk = .ok last) :
    (∀ x, x < 128 * before.n → last.map (disk.pos + x) = before.ents x) ∧
      (∀ x, 128 * before.n ≤ x → x < (128 * before.n + 4095) / 4096 * 4096 →
        last.map (disk.pos + x) = 0) ∧
      loadLE last.map (before.inode + iSize) 4 = (128 * before.n + 4095) / 4096 * 4096 := by
  have size : before.n * direntSize % 2 ^ 32 = 128 * before.n := by
    simp only [direntSize]
    omega
  have rounded : roundUp (128 * before.n) = (128 * before.n + 4095) / 4096 * 4096 :=
    roundUp_eq (by simp only [blkSize]; omega)
  have word : 128 * before.n % 2 ^ 32 = 128 * before.n := by omega
  simp only [finishidir, size] at run
  obtain ⟨⟨place, made⟩, given, run⟩ := bind_eq_ok.mp run
  rw [alloc_eq_ok, word, rounded] at given
  obtain ⟨_, rfl, rfl⟩ := given
  simp only [rounded] at run
  simp only [blkSize] at below
  obtain ⟨further, _, length, kept⟩ := finishinode_frame
    (show before.inode + blkSize ≤ disk.pos + (128 * before.n + 4095) / 4096 * 4096 by
      simp only [blkSize]
      omega) run
  simp only [iSize, iDouble] at further kept
  refine ⟨?_, ?_, ?_⟩
  · intro x inside
    have copied : disk.pos ≤ disk.pos + x ∧ disk.pos + x < disk.pos + 128 * before.n := by
      omega
    rw [kept _ (by omega) (by omega), blit, if_pos copied, Nat.add_sub_cancel_left]
  · intro x lower upper
    have behind : ¬ (disk.pos ≤ disk.pos + x ∧ disk.pos + x < disk.pos + 128 * before.n) := by
      omega
    rw [kept _ (by omega) (by omega), blit, if_neg behind]
    exact blank.zero _ (by omega)
  · rw [length]
    omega

end Array

/-! ## All calls -/

section Calls

variable {heap : Heap} {stamp : Stamp} {bytes : Memory} {calls : List DirCall}
  {id final : IDir} {disk last : Disk} {inodes : List Nat} {inode start : Nat}

theorem idiraddAll_cons {call : DirCall} {rest : List DirCall}
    (run : idiraddAll heap stamp (call :: rest) id disk = .ok (inodes, final, last)) :
    ∃ iout after made worked others,
      idiradd heap stamp id call.mode call.name disk = .ok (iout, after, made) ∧
      call.work iout made = .ok worked ∧
      idiraddAll heap stamp rest after worked = .ok (others, final, last) ∧
      inodes = iout :: others := by
  unfold idiraddAll at run
  obtain ⟨⟨iout, after, made⟩, added, run⟩ := bind_eq_ok.mp run
  obtain ⟨worked, work, run⟩ := bind_eq_ok.mp run
  obtain ⟨⟨others, after', last'⟩, more, run⟩ := bind_eq_ok.mp run
  cases run
  exact ⟨iout, after, made, worked, others, added, work, more, rfl⟩

/-- The calls take at least a block each, and their inodes are among those blocks. -/
theorem idiraddAll_disk (tidy : ∀ call ∈ calls, Tidy call.work) (blank : Blank disk)
    (run : idiraddAll heap stamp calls id disk = .ok (inodes, final, last)) :
    Blank last ∧ disk.pos + 4096 * calls.length ≤ last.pos ∧
      inodes.length = calls.length ∧ ∀ iout ∈ inodes, disk.pos ≤ iout ∧ iout < last.pos := by
  induction calls generalizing id disk inodes with
  | nil =>
      cases run
      exact ⟨blank, Nat.le_refl _, rfl, fun _ none => by cases none⟩
  | cons call rest ih =>
      obtain ⟨iout, after, made, worked, others, added, work, more, rfl⟩ := idiraddAll_cons run
      obtain ⟨place, position, _⟩ := idiradd_disk added
      obtain ⟨blankWorked, further⟩ := tidy call List.mem_cons_self iout made worked work
        (by simp only [blkSize]; omega) (idiradd_blank blank added)
      obtain ⟨blankLast, room, count, range⟩ := ih
        (fun other member => tidy other (List.mem_cons_of_mem _ member)) blankWorked more
      simp only [List.length_cons]
      refine ⟨blankLast, by omega, by omega, ?_⟩
      intro other member
      rcases List.mem_cons.mp member with rfl | later
      · omega
      · have := range other later
        omega

theorem idiraddAll_holds {entries : List (List UInt8 × Nat)}
    (names : ∀ call ∈ calls, call.name.length < nameMax)
    (holds : ArrayHolds heap bytes entries id) (few : id.n + calls.length < 2 ^ 20)
    (run : idiraddAll (heap.refill bytes) stamp calls id disk = .ok (inodes, final, last)) :
    ArrayHolds heap bytes
        (entries ++ (calls.map DirCall.name).zip (inodes.map blockof)) final ∧
      final.inode = id.inode := by
  induction calls generalizing id disk inodes entries with
  | nil =>
      cases run
      refine ⟨?_, rfl⟩
      simp only [List.map_nil, List.zip_nil_left, List.append_nil]
      exact holds
  | cons call rest ih =>
      obtain ⟨iout, after, made, worked, others, added, work, more, rfl⟩ := idiraddAll_cons run
      rw [List.length_cons] at few
      obtain ⟨grown, sameInode⟩ := idiradd_holds holds (by omega)
        (names call List.mem_cons_self) added
      have count : after.n = id.n + 1 := by
        rw [grown.n, holds.n, List.length_append, List.length_singleton]
      obtain ⟨whole, inodeSame⟩ := ih
        (fun other member => names other (List.mem_cons_of_mem _ member)) grown (by omega) more
      rw [List.append_assoc, List.singleton_append] at whole
      exact ⟨whole, inodeSame.trans sameInode⟩

/-! ## Other bytes in the fresh memory -/

/-- Two directories under construction that differ in their bytes only. -/
structure SameShape (left right : IDir) : Prop where
  inode : right.inode = left.inode
  n : right.n = left.n
  capacity : right.capacity = left.capacity

theorem growEnts_refill (bytes : Memory) {before other grown : IDir} {moved : Bool}
    (same : SameShape before other) (run : growEnts heap before = .ok (moved, grown)) :
    ∃ next, growEnts (heap.refill bytes) other = .ok (moved, next) ∧ SameShape grown next := by
  unfold growEnts at run ⊢
  rw [same.n, same.capacity]
  by_cases grows : before.capacity ≤ before.n
  · rw [if_pos grows] at run ⊢
    simp only at run ⊢
    generalize (if before.capacity * 4 % 2 ^ 32 < before.capacity then 2 ^ 32 - 1
      else before.capacity * 4 % 2 ^ 32) = capacity at *
    by_cases many : capacity ≤ before.n
    · rw [if_pos many] at run
      cases run
    · rw [if_neg many] at run ⊢
      cases reply : heap.realloc capacity with
      | none =>
          rw [reply] at run
          cases run
      | some answer =>
          rw [reply] at run
          cases run
          simp only [Heap.refill, reply, Option.map_some]
          exact ⟨_, rfl, same.inode, rfl, rfl⟩
  · rw [if_neg grows] at run ⊢
    cases run
    exact ⟨other, rfl, same⟩

theorem idiradd_refill (bytes : Memory) {before other after : IDir} {mode iout : Nat}
    {name : List UInt8}
    (same : SameShape before other)
    (run : idiradd heap stamp before mode name disk = .ok (iout, after, last)) :
    ∃ next, idiradd (heap.refill bytes) stamp other mode name disk =
      .ok (iout, next, last) ∧ SameShape after next := by
  unfold idiradd at run ⊢
  obtain ⟨⟨moved, grown⟩, grew, run⟩ := bind_eq_ok.mp run
  obtain ⟨⟨place, made⟩, given, run⟩ := bind_eq_ok.mp run
  have shape : SameShape { before with n := (before.n + 1) % 2 ^ 32 }
      { other with n := (other.n + 1) % 2 ^ 32 } :=
    ⟨same.inode, by rw [same.n], same.capacity⟩
  obtain ⟨next, again, shapeNext⟩ := growEnts_refill bytes shape grew
  simp only [Except.ok.injEq, Prod.mk.injEq] at run
  obtain ⟨rfl, rfl, rfl⟩ := run
  rw [again, ok_bind]
  simp only [given, ok_bind]
  exact ⟨_, rfl, shapeNext.inode, shapeNext.n, shapeNext.capacity⟩

theorem idiraddAll_refill (bytes : Memory) {other : IDir} (same : SameShape id other)
    (run : idiraddAll heap stamp calls id disk = .ok (inodes, final, last)) :
    ∃ next, idiraddAll (heap.refill bytes) stamp calls other disk =
      .ok (inodes, next, last) ∧ SameShape final next := by
  induction calls generalizing id other disk inodes with
  | nil =>
      cases run
      exact ⟨other, rfl, same⟩
  | cons call rest ih =>
      unfold idiraddAll at run ⊢
      obtain ⟨⟨iout, after, made⟩, added, run⟩ := bind_eq_ok.mp run
      obtain ⟨worked, work, run⟩ := bind_eq_ok.mp run
      obtain ⟨⟨others, after', last'⟩, more, run⟩ := bind_eq_ok.mp run
      cases run
      obtain ⟨next, again, shape⟩ := idiradd_refill bytes same added
      obtain ⟨final', rest', shape'⟩ := ih shape more
      refine ⟨final', ?_, shape'⟩
      rw [again, ok_bind]
      simp only [work, ok_bind, rest']

/-! Whether `finishinode` returns does not depend on the bytes of the image. -/

theorem fillTable_fst_congr (table base blocks togo i : Nat) (left right : Memory) :
    (fillTable table base start blocks togo i left).1 =
      (fillTable table base start blocks togo i right).1 := by
  induction togo generalizing i left right with
  | zero => rfl
  | succ togo ih =>
      rw [fillTable, fillTable]
      by_cases more : i < blocks
      · rw [if_pos more, if_pos more]
        exact ih _ _ _
      · rw [if_neg more, if_neg more]

structure SameSpace (left right : Disk) : Prop where
  pos : right.pos = left.pos
  nblocks : right.nblocks = left.nblocks

theorem alloc_congr {left right made : Disk} (same : SameSpace left right) {use : Use}
    {size place : Nat} (run : alloc use size left = .ok (place, made)) :
    ∃ next, alloc use size right = .ok (place, next) ∧ SameSpace made next := by
  obtain ⟨room, rfl, rfl⟩ := alloc_eq_ok.mp run
  rw [← same.pos, ← same.nblocks] at room
  refine ⟨_, alloc_eq_ok.mpr ⟨room, same.pos.symm, rfl⟩, ?_, same.nblocks⟩
  simp only [same.pos]

theorem fillDouble_congr {left right after : Disk} (same : SameSpace left right)
    {inind blocks togo j i : Nat}
    (run : fillDouble inind start blocks togo j i left = .ok after) :
    ∃ next, fillDouble inind start blocks togo j i right = .ok next := by
  induction togo generalizing left right j i with
  | zero => exact ⟨right, rfl⟩
  | succ togo ih =>
      rw [fillDouble] at run ⊢
      obtain ⟨⟨ind, made⟩, given, run⟩ := bind_eq_ok.mp run
      obtain ⟨next, again, sameNext⟩ := alloc_congr same given
      rw [again, ok_bind]
      simp only at run ⊢
      rw [fillTable_fst_congr _ _ _ _ _ _ (storeLE made.map (inind + 4 * j) 4 (blockof ind))]
      refine ih (SameSpace.mk ?_ ?_) run
      · exact sameNext.pos
      · exact sameNext.nblocks

theorem finishinode_congr {left right after : Disk} (same : SameSpace left right)
    {len : Nat} (run : finishinode inode start len left = .ok after) :
    ∃ next, finishinode inode start len right = .ok next := by
  simp only [finishinode] at run ⊢
  generalize roundUp (len % 2 ^ 32) / blkSize = blocks at *
  rw [fillTable_fst_congr _ _ _ _ _ _
    (storeLE left.map (inode + iSize) 4 (len % 2 ^ 32))]
  generalize fillTable (inode + iDirect) 0 start blocks nDirect 0
    (storeLE left.map (inode + iSize) 4 (len % 2 ^ 32)) = first at *
  generalize (fillTable (inode + iDirect) 0 start blocks nDirect 0
    (storeLE right.map (inode + iSize) 4 (len % 2 ^ 32))).2 = firstMap
  by_cases full : first.1 = nDirect
  · rw [if_pos full] at run ⊢
    obtain ⟨⟨ind, made⟩, given, run⟩ := bind_eq_ok.mp run
    obtain ⟨next, again, sameNext⟩ := alloc_congr (SameSpace.mk same.pos same.nblocks :
      SameSpace { left with map := first.2 } { right with map := firstMap }) given
    rw [again, ok_bind]
    simp only at run ⊢
    rw [fillTable_fst_congr _ _ _ _ _ _
      (storeLE made.map (inode + iIndirect) 4 (blockof ind))]
    generalize fillTable ind nDirect start blocks nIndirect first.1
      (storeLE made.map (inode + iIndirect) 4 (blockof ind)) = second at *
    generalize (fillTable ind nDirect start blocks nIndirect first.1
      (storeLE next.map (inode + iIndirect) 4 (blockof ind))).2 = secondMap
    by_cases more : second.1 = nDirect + nIndirect
    · rw [if_pos more] at run ⊢
      obtain ⟨⟨inind, further⟩, given', run⟩ := bind_eq_ok.mp run
      obtain ⟨final, again', sameFinal⟩ := alloc_congr
        (SameSpace.mk sameNext.pos sameNext.nblocks :
          SameSpace { made with map := second.2 } { next with map := secondMap }) given'
      rw [again', ok_bind]
      refine fillDouble_congr (SameSpace.mk ?_ ?_) run
      · exact sameFinal.pos
      · exact sameFinal.nblocks
    · rw [if_neg more]
      exact ⟨_, rfl⟩
  · rw [if_neg full]
    exact ⟨_, rfl⟩

/-- The calls return the same inodes whatever the fresh memory holds. -/
theorem formatDir_refill (bytes : Memory)
    (run : formatDir heap stamp inode calls disk = .ok (inodes, start, last)) :
    ∃ next, formatDir (heap.refill bytes) stamp inode calls disk =
      .ok (inodes, start, next) := by
  unfold formatDir at run ⊢
  obtain ⟨⟨made, id, filled⟩, added, run⟩ := bind_eq_ok.mp run
  obtain ⟨finished, wrote, run⟩ := bind_eq_ok.mp run
  cases run
  have shape : SameShape (startidir heap inode) (startidir (heap.refill bytes) inode) :=
    ⟨rfl, rfl, rfl⟩
  obtain ⟨other, again, same⟩ := idiraddAll_refill bytes shape added
  rw [again, ok_bind]
  simp only [finishidir, same.n, same.inode] at wrote ⊢
  obtain ⟨⟨place, space⟩, given, wrote⟩ := bind_eq_ok.mp wrote
  obtain ⟨next, finish⟩ := @finishinode_congr _ _
    { space with map := blit space.map place (id.n * direntSize % 2 ^ 32) id.ents }
    { space with map := blit space.map place (id.n * direntSize % 2 ^ 32) other.ents } _
    ⟨rfl, rfl⟩ _ wrote
  simp only [given, ok_bind, finish]
  exact ⟨next, rfl⟩

/-- What one run leaves: the entries are right but for the calls that move the array. -/
theorem formatDir_entries (tidy : ∀ call ∈ calls, Tidy call.work)
    (names : ∀ call ∈ calls, call.name.length < nameMax) (blank : Blank disk)
    (below : inode + blkSize ≤ disk.pos) (mapped : start ≤ 2 ^ 32)
    (run : formatDir (heap.refill bytes) stamp inode calls disk =
      .ok (inodes, start, last)) :
    ∃ id, ArrayHolds heap bytes ((calls.map DirCall.name).zip (inodes.map blockof)) id ∧
      id.n = calls.length ∧ inodes.length = calls.length ∧
      (∀ iout ∈ inodes, disk.pos ≤ iout ∧ iout < 2 ^ 32) ∧
      (∀ x, x < 128 * id.n → last.map (start + x) = id.ents x) ∧
      (∀ x, 128 * id.n ≤ x → x < (128 * id.n + 4095) / 4096 * 4096 →
        last.map (start + x) = 0) ∧
      loadLE last.map (inode + iSize) 4 = (128 * id.n + 4095) / 4096 * 4096 := by
  unfold formatDir at run
  obtain ⟨⟨made, id, filled⟩, added, run⟩ := bind_eq_ok.mp run
  obtain ⟨finished, wrote, run⟩ := bind_eq_ok.mp run
  cases run
  simp only [blkSize] at below
  obtain ⟨blankFilled, room, count, range⟩ := idiraddAll_disk tidy blank added
  have few : (startidir (heap.refill bytes) inode).n + calls.length < 2 ^ 20 := by
    simp only [startidir]
    omega
  obtain ⟨holds, sameInode⟩ := idiraddAll_holds names (startidir_holds heap bytes inode)
    few added
  rw [List.nil_append] at holds
  have total : id.n = calls.length := by
    rw [holds.n, List.length_zip, List.length_map, List.length_map, count, Nat.min_self]
  have home : id.inode = inode := sameInode
  obtain ⟨data, zeros, size⟩ := finishidir_writes blankFilled
    (by simp only [home, blkSize]; omega) (by omega) wrote
  rw [home] at size
  refine ⟨id, holds, total, count, ?_, data, zeros, size⟩
  intro iout member
  have := range iout member
  omega

theorem formatDir_loses {k : Nat} (tidy : ∀ call ∈ calls, Tidy call.work)
    (names : ∀ call ∈ calls, call.name.length < nameMax) (blank : Blank disk)
    (below : inode + blkSize ≤ disk.pos) (mapped : start ≤ 2 ^ 32)
    (run : formatDir (heap.refill fun _ => 0) stamp inode calls disk =
      .ok (inodes, start, last)) (inCalls : k < calls.length) (moved : MovedAt heap k) :
    ¬ DirectoryRecorded inode start calls inodes last.map := by
  intro recorded
  obtain ⟨id, holds, total, count, range, data, _, _⟩ :=
    formatDir_entries tidy names blank below mapped run
  have length : ((calls.map DirCall.name).zip (inodes.map blockof)).length =
      calls.length := by
    rw [List.length_zip, List.length_map, List.length_map, count, Nat.min_self]
  have bytes : ∀ i, i < 4 →
      last.map (start + 128 * k + dInum + i) = (fun _ => (0 : UInt8)) (0 + i) := by
    intro i inside
    have stale := holds.stale k (128 * k + i) (by omega) moved (by omega) (by omega)
    rw [← stale, ← data _ (by omega)]
    congr 1
    simp only [dInum]
    omega
  have zero : loadLE last.map (start + 128 * k + dInum) 4 = 0 :=
    @loadLE_copy (fun _ => 0) last.map 0 _ 4 bytes
  have inInodes : k < inodes.length := by omega
  have number := (recorded.entries k _ _ (List.getElem?_eq_getElem inCalls)
    (List.getElem?_eq_getElem inInodes)).number
  have bounds := range _ (List.getElem_mem inInodes)
  rw [zero] at number
  simp only [blockof, blkSize] at number below
  omega

theorem growEnts_inode {before after : IDir} {moved : Bool}
    (run : growEnts heap before = .ok (moved, after)) : after.inode = before.inode := by
  unfold growEnts at run
  by_cases grows : before.capacity ≤ before.n
  · simp only [if_pos grows] at run
    generalize (if before.capacity * 4 % 2 ^ 32 < before.capacity then 2 ^ 32 - 1
      else before.capacity * 4 % 2 ^ 32) = capacity at run
    split at run
    · cases run
    · cases reply : heap.realloc capacity with
      | none =>
          rw [reply] at run
          cases run
      | some answer =>
          rw [reply] at run
          cases run
          rfl
  · rw [if_neg grows] at run
    cases run
    rfl

theorem idiraddAll_inode {before after : IDir}
    (run : idiraddAll heap stamp calls before disk = .ok (inodes, after, last)) :
    after.inode = before.inode := by
  induction calls generalizing before disk inodes with
  | nil =>
      cases run
      rfl
  | cons call rest ih =>
      obtain ⟨iout, middle, made, worked, others, added, work, more, rfl⟩ := idiraddAll_cons run
      obtain ⟨⟨moved, grown⟩, grew, added⟩ := bind_eq_ok.mp added
      obtain ⟨⟨place, next⟩, _, added⟩ := bind_eq_ok.mp added
      cases added
      have kept := growEnts_inode grew
      exact (ih more).trans kept

theorem formatDir_further (tidy : ∀ call ∈ calls, Tidy call.work) (blank : Blank disk)
    (below : inode + blkSize ≤ disk.pos)
    (run : formatDir heap stamp inode calls disk = .ok (inodes, start, last)) :
    start ≤ last.pos := by
  unfold formatDir at run
  obtain ⟨⟨made, id, filled⟩, added, run⟩ := bind_eq_ok.mp run
  obtain ⟨finished, wrote, run⟩ := bind_eq_ok.mp run
  cases run
  obtain ⟨_, room, _⟩ := idiraddAll_disk tidy blank added
  have home : id.inode = inode := idiraddAll_inode added
  simp only [finishidir] at wrote
  obtain ⟨⟨place, next⟩, given, wrote⟩ := bind_eq_ok.mp wrote
  obtain ⟨_, rfl, rfl⟩ := alloc_eq_ok.mp given
  obtain ⟨further, _⟩ := finishinode_frame (by simp only [home]; omega) wrote
  simp only at further ⊢
  omega

/-- Where all that the calls reach is mapped, the directory records every file, whatever
fresh memory holds, just when `realloc` never moves the array. -/
theorem formatDir_recorded_iff (tidy : ∀ call ∈ calls, Tidy call.work)
    (names : ∀ call ∈ calls, call.name.length < nameMax) (blank : Blank disk)
    (below : inode + blkSize ≤ disk.pos) (inside : last.pos ≤ mappedBytes disk.nblocks)
    (run : formatDir heap stamp inode calls disk = .ok (inodes, start, last)) :
    (∀ bytes, ∃ next, formatDir (heap.refill bytes) stamp inode calls disk =
        .ok (inodes, start, next) ∧ DirectoryRecorded inode start calls inodes next.map) ↔
      ∀ j fresh, 128 * 4 ^ j ≤ calls.length →
        heap.realloc (128 * 4 ^ (j + 1)) ≠ some (true, fresh) := by
  have mapped : start ≤ 2 ^ 32 := by
    have further := formatDir_further tidy blank below run
    simp only [mappedBytes] at inside
    omega
  constructor
  · intro recorded j fresh reached moves
    obtain ⟨next, again, there⟩ := recorded fun _ => 0
    have positive : 0 < 4 ^ j := Nat.pow_pos (by omega)
    -- the call that fills the array
    obtain ⟨k, kDef⟩ : ∃ k, k + 1 = 128 * 4 ^ j := ⟨128 * 4 ^ j - 1, by omega⟩
    exact formatDir_loses tidy names blank below mapped again (by omega)
      ⟨j, fresh, kDef, moves⟩ there
  · intro stays bytes
    obtain ⟨next, again⟩ := formatDir_refill bytes run
    obtain ⟨id, holds, total, count, _, data, zeros, size⟩ :=
      formatDir_entries tidy names blank below mapped again
    rw [total] at data zeros size
    refine ⟨next, again, count, ?_, zeros, size⟩
    intro k call iout inCalls inInodes
    have inRange := (List.getElem?_eq_some_iff.mp inCalls).1
    have still : ¬ MovedAt heap k := by
      rintro ⟨j, fresh, here, moves⟩
      exact stays j fresh (by omega) moves
    have present : ((calls.map DirCall.name).zip (inodes.map blockof))[k]? =
        some (call.name, blockof iout) := by
      rw [List.getElem?_zip_eq_some, List.getElem?_map, List.getElem?_map, inCalls, inInodes]
      exact ⟨rfl, rfl⟩
    refine (holds.written k _ _ present still).copy ?_
    intro i inside
    rw [Nat.zero_add, Nat.add_assoc]
    exact data _ (by omega)

end Calls

/-! ## The calls of main -/

/-- What `writeinode` does behind `idiradd`. -/
def fileWork (file : InputFile) (inode : Nat) (disk : Disk) : Except Panic Disk := do
  let (start, disk) ← alloc .data file.contents.length disk
  let map := blit disk.map start file.contents.length fun i => file.contents.getD i 0
  finishinode inode (blockof start) file.contents.length { disk with map := map }

def fileCall (file : InputFile) : DirCall :=
  ⟨sIfreg ||| 0o600, basename file.name, fileWork file⟩

/-- A file named `a`, with nothing to do before the next one. -/
def sampleCall : DirCall := ⟨sIfreg ||| 0o600, [97], fun _ disk => .ok disk⟩

def rootDisk : Disk := ⟨fun _ => 0, 4096 * 3, 1024, 4096, []⟩

def movingHeap : Heap := ⟨fun _ => 0, fun _ => some (true, fun _ => 0)⟩

theorem sampleCall_tidy {count : Nat} :
    ∀ call ∈ List.replicate count sampleCall, Tidy call.work := by
  intro call member iout disk after run _ blank
  rw [List.eq_of_mem_replicate member] at run
  cases run
  exact ⟨blank, Nat.le_refl _⟩

theorem sampleCall_names {count : Nat} :
    ∀ call ∈ List.replicate count sampleCall, call.name.length < nameMax := by
  intro call member
  rw [List.eq_of_mem_replicate member]
  exact (by decide : 1 < 124)

theorem rootDisk_blank : Blank rootDisk := ⟨by decide, fun _ _ => rfl⟩

theorem sampleCalls_run (count place pos : Nat)
    (returns : (formatDir movingHeap ⟨1, 2, 3⟩ 8192 (List.replicate count sampleCall)
      rootDisk).toOption.map (fun answer => (answer.2.1, answer.2.2.pos)) =
        some (place, pos)) :
    ∃ inodes last, formatDir movingHeap ⟨1, 2, 3⟩ 8192 (List.replicate count sampleCall)
      rootDisk = .ok (inodes, place, last) ∧ last.pos = pos := by
  cases run : formatDir movingHeap ⟨1, 2, 3⟩ 8192 (List.replicate count sampleCall)
    rootDisk with
  | error stopped =>
      rw [run] at returns
      cases returns
  | ok answer =>
      obtain ⟨inodes, start, last⟩ := answer
      rw [run] at returns
      cases returns
      exact ⟨inodes, last, rfl, rfl⟩

/-- Two files do not make the array grow. -/
theorem formatDir_recorded_iff_sample : ∃ inodes last,
    formatDir movingHeap ⟨1, 2, 3⟩ 8192 (List.replicate 2 sampleCall) rootDisk =
      .ok (inodes, 4096 * 5, last) ∧
    ∀ bytes, ∃ next, formatDir (movingHeap.refill bytes) ⟨1, 2, 3⟩ 8192
        (List.replicate 2 sampleCall) rootDisk = .ok (inodes, 4096 * 5, next) ∧
      DirectoryRecorded 8192 (4096 * 5) (List.replicate 2 sampleCall) inodes next.map := by
  obtain ⟨inodes, last, run, position⟩ := sampleCalls_run 2 (4096 * 5) (4096 * 6)
    (by decide +kernel)
  have inside : last.pos ≤ mappedBytes rootDisk.nblocks := by
    rw [position]
    decide
  have recorded := formatDir_recorded_iff sampleCall_tidy sampleCall_names rootDisk_blank
    (by decide) inside run
  refine ⟨inodes, last, run, recorded.mpr ?_⟩
  intro j fresh reached
  have positive : 0 < 4 ^ j := Nat.pow_pos (by omega)
  rw [List.length_replicate] at reached
  omega

/-- With 128 files the last one is missing, since its call moves the array. -/
theorem formatDir_loses_last : ∃ inodes last,
    formatDir movingHeap ⟨1, 2, 3⟩ 8192 (List.replicate 128 sampleCall) rootDisk =
      .ok (inodes, 4096 * 131, last) ∧
    ¬ DirectoryRecorded 8192 (4096 * 131) (List.replicate 128 sampleCall) inodes
      last.map := by
  obtain ⟨inodes, last, run, _⟩ := sampleCalls_run 128 (4096 * 131) (4096 * 135)
    (by decide +kernel)
  have moved : MovedAt movingHeap 127 := ⟨0, fun _ => 0, rfl, rfl⟩
  have last128 : 127 < (List.replicate 128 sampleCall).length := by
    rw [List.length_replicate]
    omega
  have zeros : movingHeap.refill (fun _ => 0) = movingHeap := rfl
  refine ⟨inodes, last, run, ?_⟩
  rw [← zeros] at run
  exact formatDir_loses sampleCall_tidy sampleCall_names rootDisk_blank (by decide)
    (by decide) run last128 moved

end OsLabs.Fs
