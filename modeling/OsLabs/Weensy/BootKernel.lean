import OsLabs.Weensy.BootLoader

/-!
# From the disk to the kernel

`boot` of boot.c reads the first page of the kernel file, goes through the program headers
there and loads every segment.  Segments may share no sector of memory with the header page
or with what an earlier one has brought.
-/

set_option autoImplicit false

namespace OsLabs.Weensy

open OsLabs.ByteMemory OsLabs.ExceptRules

/-! ## boot -/

/-- `ELFHDR`. -/
def elfHdr : UIntPtr := 0x10000#64

/-- `*ph`. -/
def programAt (memory : Memory) (ph : UIntPtr) : ElfProgram where
  pType := BitVec.ofNat 32 (loadLE memory ph.toNat 4)
  pOffset := BitVec.ofNat 64 (loadLE memory (ph.toNat + 8) 8)
  pVa := BitVec.ofNat 64 (loadLE memory (ph.toNat + 0x10) 8)
  pFilesz := BitVec.ofNat 64 (loadLE memory (ph.toNat + 0x20) 8)
  pMemsz := BitVec.ofNat 64 (loadLE memory (ph.toNat + 0x28) 8)

/-- `*ELFHDR`. -/
def headerAt (memory : Memory) : ElfHeader := elfHeader fun i => memory (elfHdr.toNat + i)

/-- `for (; ph < eph; ++ph)`, with fuel for its iterations. -/
def bootSegments (disk : Nat → UInt8) (eph : UIntPtr) :
    Nat → UIntPtr → Memory → Except BootStop Memory
  | 0, _, _ => .error .spins
  | fuel + 1, ph, memory =>
      if ph < eph then do
        let program := programAt memory ph
        let memory ← bootReadseg disk memory program.pVa
          ((program.pOffset / 512#64 + 1#64).setWidth 32) program.pFilesz program.pMemsz
        bootSegments disk eph fuel (ph + 56#64) memory
      else .ok memory

/-- `boot`: the entry point and the memory there.  There are at most 2^16 headers. -/
def boot (disk : Nat → UInt8) (memory : Memory) : Except BootStop (UIntPtr × Memory) := do
  let memory ← bootReadseg disk memory elfHdr 1#32 pageSize pageSize
  let header := headerAt memory
  if header.eMagic ≠ elfMagic then .error .spins
  else do
    let ph := elfHdr + header.ePhoff
    let eph := ph + BitVec.ofNat 64 (56 * header.ePhnum.toNat)
    let memory ← bootSegments disk eph (2 ^ 16) ph memory
    .ok ((headerAt memory).eEntry, memory)

/-! ## Kernel files -/

def fileBytes (kernel : List UInt8) : Memory := fun i => kernel.getD i 0

def kernelHeader (kernel : List UInt8) : ElfHeader := elfHeader (fileBytes kernel)

def kernelPrograms (kernel : List UInt8) : List ElfProgram :=
  elfPrograms (fileBytes kernel) (kernelHeader kernel)

/-- Where the loader begins to write for a segment, a whole sector. -/
def ElfProgram.windowStart (ph : ElfProgram) : Nat := ph.pVa.toNat / 512 * 512

/-- Where it ends: behind the segment, or the last sector of its bytes. -/
def ElfProgram.windowEnd (ph : ElfProgram) : Nat :=
  max (ph.pVa.toNat + ph.pMemsz.toNat) ((ph.pVa.toNat + ph.pFilesz.toNat + 511) / 512 * 512)

/-- The segment lies in the file as in memory, and behind the header page and below the first
gigabyte, which bootstart.S maps, unless there is nothing to load. -/
structure SegmentFits (kernel : List UInt8) (ph : ElfProgram) : Prop where
  shorter : ph.pFilesz.toNat ≤ ph.pMemsz.toNat
  congruent : ph.pVa.toNat % 512 = ph.pOffset.toNat % 512
  inFile : ph.pOffset.toNat + ph.pFilesz.toNat ≤ kernel.length
  placed : ph.windowStart = ph.windowEnd ∨
    elfHdr.toNat + 4096 ≤ ph.windowStart ∧ ph.windowEnd ≤ 2 ^ 30

/-- Loading `later` leaves what `earlier` has brought. -/
def Spares (earlier later : ElfProgram) : Prop :=
  later.windowEnd ≤ earlier.pVa.toNat ∨
    earlier.pVa.toNat + earlier.pMemsz.toNat ≤ later.windowStart

structure Bootable (kernel : List UInt8) : Prop where
  header : 64 ≤ kernel.length
  small : kernel.length < 2 ^ 36
  magic : (kernelHeader kernel).eMagic = elfMagic
  table : (kernelHeader kernel).ePhoff.toNat + 56 * (kernelHeader kernel).ePhnum.toNat ≤
    min 4096 kernel.length
  fits : ∀ ph ∈ kernelPrograms kernel, SegmentFits kernel ph
  spares : (kernelPrograms kernel).Pairwise Spares

/-- The bytes of a segment are where its header wants them. -/
structure SegmentLoaded (kernel : List UInt8) (ph : ElfProgram) (memory : Memory) : Prop where
  copied : ∀ i, i < ph.pFilesz.toNat →
    kernel[ph.pOffset.toNat + i]? = some (memory (ph.pVa.toNat + i))
  cleared : ∀ i, ph.pFilesz.toNat ≤ i → i < ph.pMemsz.toNat → memory (ph.pVa.toNat + i) = 0

def HeaderRead (kernel : List UInt8) (memory : Memory) : Prop :=
  ∀ i, i < min 4096 kernel.length → memory (elfHdr.toNat + i) = fileBytes kernel i

section Loading

variable {kernel : List UInt8} {memory after : Memory} {disk : Nat → UInt8}

/-! ## The header page -/

theorem HeaderRead.load (read : HeaderRead kernel memory) {i width : Nat}
    (inside : i + width ≤ min 4096 kernel.length) :
    loadLE memory (elfHdr.toNat + i) width = loadLE (fileBytes kernel) i width := by
  apply loadLE_copy
  intro j below
  rw [Nat.add_assoc]
  exact read (i + j) (by omega)

theorem HeaderRead.header (read : HeaderRead kernel memory) (bootable : Bootable kernel) :
    headerAt memory = kernelHeader kernel := by
  have long := bootable.header
  have field : ∀ i width, i + width ≤ 64 →
      loadLE (fun i => memory (elfHdr.toNat + i)) i width = loadLE (fileBytes kernel) i width := by
    intro i width inside
    apply loadLE_copy
    intro j below
    exact read (i + j) (by omega)
  simp only [headerAt, kernelHeader, elfHeader]
  rw [field 0 4 (by omega), field 0x18 8 (by omega), field 0x20 8 (by omega),
    field 0x38 2 (by omega)]

/-- The address of the header of segment `i`. -/
def programAddr (kernel : List UInt8) (i : Nat) : UIntPtr :=
  elfHdr + (kernelHeader kernel).ePhoff + BitVec.ofNat 64 (56 * i)

theorem Bootable.programAddr (bootable : Bootable kernel) {i : Nat}
    (inside : i ≤ (kernelHeader kernel).ePhnum.toNat) :
    (programAddr kernel i).toNat =
      elfHdr.toNat + ((kernelHeader kernel).ePhoff.toNat + 56 * i) := by
  have table := bootable.table
  have start : elfHdr.toNat = 0x10000 := rfl
  rw [Weensy.programAddr, BitVec.toNat_add, BitVec.toNat_add, BitVec.toNat_ofNat, start]
  omega

theorem HeaderRead.program (read : HeaderRead kernel memory) (bootable : Bootable kernel) {i : Nat}
    (inside : i < (kernelHeader kernel).ePhnum.toNat) :
    programAt memory (programAddr kernel i) =
      elfProgram (fileBytes kernel) (kernelHeader kernel) i := by
  have table := bootable.table
  have place := bootable.programAddr inside.le
  have offset : ((kernelHeader kernel).ePhoff + BitVec.ofNat 64 (56 * i)).toNat =
      (kernelHeader kernel).ePhoff.toNat + 56 * i := by
    rw [BitVec.toNat_add, BitVec.toNat_ofNat]
    omega
  simp only [programAt, elfProgram, place, offset, Nat.add_assoc]
  rw [read.load (by omega), read.load (by omega), read.load (by omega), read.load (by omega),
    read.load (by omega)]

/-! ## One segment -/

theorem SegmentRead.loaded {ph : ElfProgram} (read : SegmentRead kernel ph memory after) :
    SegmentLoaded kernel ph after := ⟨read.copied, read.cleared⟩

theorem SegmentRead.outside {ph : ElfProgram} (read : SegmentRead kernel ph memory after) {x : Nat}
    (outside : x < ph.windowStart ∨ ph.windowEnd ≤ x) : after x = memory x :=
  read.kept x outside

theorem SegmentRead.headerRead {ph : ElfProgram} (read : SegmentRead kernel ph memory after)
    (fits : SegmentFits kernel ph) (page : HeaderRead kernel memory) :
    HeaderRead kernel after := by
  intro i inside
  rw [read.outside, page i inside]
  rcases fits.placed with empty | ⟨above, _⟩ <;> omega

theorem SegmentLoaded.spared {earlier later : ElfProgram}
    (loaded : SegmentLoaded kernel earlier memory) (read : SegmentRead kernel later memory after)
    (shorter : earlier.pFilesz.toNat ≤ earlier.pMemsz.toNat) (spares : Spares earlier later) :
    SegmentLoaded kernel earlier after := by
  have kept : ∀ i, i < earlier.pMemsz.toNat →
      after (earlier.pVa.toNat + i) = memory (earlier.pVa.toNat + i) := by
    intro i inside
    apply read.outside
    rcases spares with before | behind <;> omega
  constructor
  · intro i inside
    rw [kept i (by omega)]
    exact loaded.copied i inside
  · intro i lower upper
    rw [kept i upper]
    exact loaded.cleared i lower upper

theorem SegmentFits.reads {bootSector image : List UInt8} {replies : List WriteReply}
    {ph : ElfProgram} (fits : SegmentFits kernel ph) (small : kernel.length < 2 ^ 36)
    (made : mkbootdisk bootSector [.file kernel] replies = .ok image)
    (inserted : Inserted image disk) (memory : Memory) :
    ∃ after, bootReadseg disk memory ph.pVa ((ph.pOffset / 512#64 + 1#64).setWidth 32)
        ph.pFilesz ph.pMemsz = .ok after ∧ SegmentRead kernel ph memory after := by
  have inFile := fits.inFile
  have ends : ph.pVa.toNat + ph.pMemsz.toNat < 2 ^ 64 ∧
      (ph.pVa.toNat + ph.pFilesz.toNat + 511) / 512 * 512 < 2 ^ 64 := by
    have bound := ph.pVa.isLt
    have placed := fits.placed
    simp only [ElfProgram.windowStart, ElfProgram.windowEnd] at placed
    omega
  exact @bootReadseg_loads _ _ _ _ made disk inserted ph fits.shorter fits.congruent inFile
    (by omega) ends.1 ends.2 memory

/-! ## All segments -/

theorem kernelPrograms_get {i : Nat} (inside : i < (kernelPrograms kernel).length) :
    (kernelPrograms kernel)[i] = elfProgram (fileBytes kernel) (kernelHeader kernel) i := by
  simp [kernelPrograms, elfPrograms]

theorem kernelPrograms_length :
    (kernelPrograms kernel).length = (kernelHeader kernel).ePhnum.toNat := by
  simp [kernelPrograms, elfPrograms]

/-- The loop from a header on: the segments before it are loaded, and what no segment from
here on touches is as it was. -/
structure SegmentsLoaded (kernel : List UInt8) (first : Nat) (memory after : Memory) : Prop where
  page : HeaderRead kernel after
  loaded : ∀ i, (inside : i < (kernelPrograms kernel).length) →
    SegmentLoaded kernel ((kernelPrograms kernel)[i]) after
  kept : ∀ x, (∀ ph ∈ (kernelPrograms kernel).drop first,
    x < ph.windowStart ∨ ph.windowEnd ≤ x) → after x = memory x

theorem bootSegments_loads {bootSector image : List UInt8} {replies : List WriteReply}
    (bootable : Bootable kernel)
    (made : mkbootdisk bootSector [.file kernel] replies = .ok image)
    (inserted : Inserted image disk) (count : Nat) {first fuel : Nat} {memory : Memory}
    (rest : first + count = (kernelPrograms kernel).length) (enough : count < fuel)
    (page : HeaderRead kernel memory)
    (earlier : ∀ i, (inside : i < (kernelPrograms kernel).length) → i < first →
      SegmentLoaded kernel ((kernelPrograms kernel)[i]) memory) :
    ∃ after, bootSegments disk (programAddr kernel (kernelPrograms kernel).length) fuel
        (programAddr kernel first) memory = .ok after ∧
      SegmentsLoaded kernel first memory after := by
  have number := @kernelPrograms_length kernel
  have addr := fun i inside => @Bootable.programAddr kernel bootable i inside
  induction count generalizing first fuel memory with
  | zero =>
      obtain ⟨fuel, rfl⟩ := Nat.exists_eq_succ_of_ne_zero (by omega : fuel ≠ 0)
      have done : first = (kernelPrograms kernel).length := by omega
      refine ⟨memory, ?_, page, fun i inside => earlier i inside (by omega), fun _ _ => rfl⟩
      rw [bootSegments, done, if_neg]
      simp
  | succ count ih =>
      obtain ⟨fuel, rfl⟩ := Nat.exists_eq_succ_of_ne_zero (by omega : fuel ≠ 0)
      have inside : first < (kernelPrograms kernel).length := by omega
      have here : programAt memory (programAddr kernel first) = (kernelPrograms kernel)[first] := by
        rw [page.program bootable (by omega), kernelPrograms_get inside]
      have fits := bootable.fits _ (List.getElem_mem inside)
      obtain ⟨middle, ran, read⟩ := fits.reads bootable.small made inserted memory
      have next : programAddr kernel first + 56#64 = programAddr kernel (first + 1) := by
        apply BitVec.eq_of_toNat_eq
        have table := bootable.table
        have start : elfHdr.toNat = 0x10000 := rfl
        rw [BitVec.toNat_add, addr first (by omega), addr (first + 1) (by omega), start,
          show (56#64).toNat = 56 from rfl]
        omega
      have more : programAddr kernel first <
          programAddr kernel (kernelPrograms kernel).length := by
        rw [BitVec.lt_def, addr first (by omega), addr _ (by omega)]
        omega
      obtain ⟨after, loop, all⟩ := @ih (first + 1) fuel middle (by omega) (by omega)
        (read.headerRead fits page) (by
          intro i known below
          by_cases same : i = first
          · subst same
            exact read.loaded
          · have before : i < first := by omega
            exact (earlier i known before).spared read (bootable.fits _
              (List.getElem_mem known)).shorter
              (List.pairwise_iff_getElem.mp bootable.spares i first known inside before))
      refine ⟨after, ?_, all.page, all.loaded, ?_⟩
      · rw [bootSegments, if_pos more]
        simp only [here]
        rw [ran, ok_bind, next, loop]
      · intro x outside
        rw [List.drop_eq_getElem_cons inside] at outside
        rw [all.kept x (fun ph member => outside ph (List.mem_cons_of_mem _ member))]
        exact read.outside (outside _ List.mem_cons_self)

theorem headerPage_reads {bootSector image : List UInt8} {replies : List WriteReply}
    (made : mkbootdisk bootSector [.file kernel] replies = .ok image)
    (inserted : Inserted image disk) (memory : Memory) :
    ∃ after, bootReadseg disk memory elfHdr 1#32 pageSize pageSize = .ok after ∧
      HeaderRead kernel after ∧
      ∀ x, x < elfHdr.toNat ∨ elfHdr.toNat + 4096 ≤ x → after x = memory x := by
  have start : elfHdr.toNat = 0x10000 := rfl
  have page : pageSize.toNat = 4096 := rfl
  have one : (1#32).toNat = 1 := rfl
  refine ⟨_, bootReadseg_ok disk memory (Nat.le_refl _) (by omega) (by omega) (by omega), ?_, ?_⟩
  · intro i inside
    have inKernel : i < kernel.length := by omega
    have byte := mkbootdisk_byte made inKernel
    rw [List.getElem?_eq_getElem inKernel] at byte
    have place : 512 * 1 + (elfHdr.toNat + i - elfHdr.toNat / 512 * 512) = 512 + i := by
      rw [start]
      omega
    rw [fill, if_neg (by omega), blit, if_pos (by omega), one, place, inserted _ _ byte,
      fileBytes, List.getD_eq_getElem?_getD, List.getElem?_eq_getElem inKernel]
    rfl
  · intro x outside
    rw [fill, if_neg (by omega), blit, if_neg (by omega)]

/-- Whatever the image is made with, the boot loader enters the kernel with every segment of
the file in its place, and it has written only the header page and the sectors of segments. -/
theorem boot_loads {bootSector image : List UInt8} {replies : List WriteReply}
    (bootable : Bootable kernel)
    (made : mkbootdisk bootSector [.file kernel] replies = .ok image)
    (inserted : Inserted image disk) (memory : Memory) :
    ∃ after, boot disk memory = .ok ((kernelHeader kernel).eEntry, after) ∧
      (∀ ph ∈ kernelPrograms kernel, SegmentLoaded kernel ph after) ∧
      ∀ x, x < elfHdr.toNat ∨ elfHdr.toNat + 4096 ≤ x →
        (∀ ph ∈ kernelPrograms kernel, x < ph.windowStart ∨ ph.windowEnd ≤ x) →
        after x = memory x := by
  obtain ⟨first, read, page, kept⟩ := headerPage_reads made inserted memory
  have number := @kernelPrograms_length kernel
  have bound := (kernelHeader kernel).ePhnum.isLt
  obtain ⟨after, loop, all⟩ := @bootSegments_loads kernel disk _ _ _ bootable made inserted
    (kernelPrograms kernel).length 0 (2 ^ 16) first (by omega) (by omega) page
    (fun i _ below => absurd below (Nat.not_lt_zero i))
  have start : elfHdr + (kernelHeader kernel).ePhoff = programAddr kernel 0 := by
    rw [programAddr]
    simp
  have finish : elfHdr + (kernelHeader kernel).ePhoff +
      BitVec.ofNat 64 (56 * (kernelHeader kernel).ePhnum.toNat) =
      programAddr kernel (kernelPrograms kernel).length := by
    rw [programAddr, number]
  refine ⟨after, ?_, ?_, ?_⟩
  · rw [boot, read, ok_bind]
    simp only [page.header bootable]
    rw [if_neg (not_not.mpr bootable.magic), finish, start, loop, ok_bind,
      all.page.header bootable]
  · intro ph member
    obtain ⟨i, inside, rfl⟩ := List.getElem_of_mem member
    exact all.loaded i inside
  · intro x outside apart
    rw [all.kept x apart, kept x outside]

end Loading

/-! ## A kernel with two segments -/

def numberBytes (width value : Nat) : List UInt8 :=
  (List.range width).map fun i => UInt8.ofNat (value / 256 ^ i)

def programBytes (offset va filesz memsz : Nat) : List UInt8 :=
  numberBytes 8 1 ++ numberBytes 8 offset ++ numberBytes 16 va ++ numberBytes 8 filesz ++
    numberBytes 16 memsz

def twoSegments : List UInt8 :=
  numberBytes 24 0x464C457F ++ numberBytes 8 0x400B0 ++ numberBytes 24 64 ++ numberBytes 8 2 ++
    programBytes 176 0x400B0 8 8 ++ programBytes 184 0x410B8 4 16 ++
    [1, 2, 3, 4, 5, 6, 7, 8, 9, 10, 11, 12]

def codeSegment : ElfProgram := ⟨elfPtypeLoad, 176#64, 0x400B0#64, 8#64, 8#64⟩

def dataSegment : ElfProgram := ⟨elfPtypeLoad, 184#64, 0x410B8#64, 4#64, 16#64⟩

theorem twoSegments_programs : kernelPrograms twoSegments = [codeSegment, dataSegment] := by
  rfl

theorem twoSegments_bootable : Bootable twoSegments where
  header := by decide +kernel
  small := by decide +kernel
  magic := by decide +kernel
  table := by decide +kernel
  fits := by
    intro ph member
    rw [twoSegments_programs] at member
    simp only [List.mem_cons, List.not_mem_nil, or_false] at member
    rcases member with rfl | rfl
    · exact ⟨by decide, by decide, by decide +kernel, by decide⟩
    · exact ⟨by decide, by decide, by decide +kernel, by decide⟩
  spares := by
    rw [twoSegments_programs]
    simp only [List.pairwise_cons, List.mem_singleton, forall_eq, List.not_mem_nil]
    exact ⟨Or.inr (by decide), fun _ impossible => impossible.elim, .nil⟩

/-- The second segment ends with zeros. -/
theorem boot_loads_sample : ∃ replies image after,
    mkbootdisk [] [.file twoSegments] replies = .ok image ∧
    boot (fun i => image.getD i 0) (fun _ => 1) = .ok (0x400B0#64, after) ∧
    after 0x410BB = 12 ∧ after 0x410BC = 0 ∧ after 0x42000 = 1 := by
  have fits : ([] : List UInt8).length ≤ 510 := by decide
  obtain ⟨replies, image, made⟩ := mkbootdisk_completes fits twoSegments
  have inserted : Inserted image fun i => image.getD i 0 := by
    intro i byte here
    simp [here]
  obtain ⟨after, entered, loaded, kept⟩ := boot_loads twoSegments_bootable made inserted fun _ => 1
  have second := loaded dataSegment (by rw [twoSegments_programs]; simp)
  have last := second.copied 3 (by decide)
  have byte : twoSegments[187]? = some 12 := by decide +kernel
  rw [show dataSegment.pOffset.toNat + 3 = 187 from rfl, byte] at last
  refine ⟨replies, image, after, made, entered, (Option.some.inj last).symm,
    second.cleared 4 (by decide) (by decide), ?_⟩
  apply kept
  · decide
  · intro ph member
    rw [twoSegments_programs] at member
    simp only [List.mem_cons, List.not_mem_nil, or_false] at member
    rcases member with rfl | rfl
    · exact Or.inr (by decide)
    · exact Or.inr (by decide)

end OsLabs.Weensy
