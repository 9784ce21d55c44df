import OsLabs.Weensy.KernelBoot

/-!
# The pages that a loaded program claims

`program_load` on the kernel page table either takes exactly the pages of the LOAD
segments or returns -1, and it returns -1 exactly when one of these pages is needed
twice, in use, or not physical.  This rests on the kernel's own pages being in use,
as `pageinfo_init` leaves them: a segment could otherwise clear the page table that
the loader works with.
-/

set_option autoImplicit false

namespace OsLabs.Weensy

open OsLabs.ByteMemory OsLabs.ExceptRules

/-! ## The pages of the LOAD segments -/

/-- Page `n` meets `[p_va rounded down, p_va + p_memsz)`. -/
def needsPage (ph : ElfProgram) (n : Nat) : Prop :=
  ∃ x, x / 4096 = n ∧ ph.pVa.toNat / 4096 * 4096 ≤ x ∧ x < ph.pVa.toNat + ph.pMemsz.toNat

theorem SegmentFormed.meets_iff {ph : ElfProgram} (formed : SegmentFormed ph) (n : Nat) :
    segmentMeets ph n ↔ needsPage ph n := by
  unfold segmentMeets needsPage
  rw [formed.ends.2]
  constructor
  · intro meets
    exact ⟨4096 * n, by omega, by omega, meets.2⟩
  · rintro ⟨x, rfl, lower, upper⟩
    omega

def loadSegmentsOf (image : KernelImage) (program : Fin 6) : List ElfProgram :=
  (imageSegments image program).filter fun ph => ph.pType = elfPtypeLoad

theorem mem_loadSegmentsOf {image : KernelImage} {program : Fin 6} {ph : ElfProgram} :
    ph ∈ loadSegmentsOf image program ↔
      ph ∈ imageSegments image program ∧ ph.pType = elfPtypeLoad := by
  rw [loadSegmentsOf, List.mem_filter, decide_eq_true_eq]

theorem ImageFormed.formed {image : KernelImage} {program : Fin 6}
    (formed : ImageFormed image program) {ph : ElfProgram}
    (member : ph ∈ loadSegmentsOf image program) : SegmentFormed ph := by
  obtain ⟨header, load⟩ := mem_loadSegmentsOf.mp member
  exact formed.segments ph header load

theorem ImageFormed.pages_iff {image : KernelImage} {program : Fin 6}
    (formed : ImageFormed image program) (pn : PhysicalPage) :
    imagePages image program pn ↔
      ∃ ph ∈ loadSegmentsOf image program, needsPage ph pn.val := by
  constructor
  · rintro ⟨ph, header, load, meets⟩
    have member := mem_loadSegmentsOf.mpr ⟨header, load⟩
    exact ⟨ph, member, ((formed.formed member).meets_iff pn.val).mp meets⟩
  · rintro ⟨ph, member, needs⟩
    obtain ⟨header, load⟩ := mem_loadSegmentsOf.mp member
    exact ⟨ph, header, load, ((formed.formed member).meets_iff pn.val).mpr needs⟩

/-- A page that a LOAD segment needs and cannot have: another LOAD segment needs it,
it is in use, or it is not below `MEMSIZE_PHYSICAL`. -/
def PageRefused (image : KernelImage) (program : Fin 6)
    (pageinfo : PhysicalPage → PhysicalPageinfo) (n : Nat) : Prop :=
  (∃ left right, [left, right].Sublist (loadSegmentsOf image program) ∧
    needsPage left n ∧ needsPage right n) ∨
  ∃ ph ∈ loadSegmentsOf image program, needsPage ph n ∧
    ((∃ bound : n < nPages, (pageinfo ⟨n, bound⟩).refcount ≠ 0) ∨
      memsizePhysical.toNat ≤ 4096 * n)

def SegmentsApart (image : KernelImage) (program : Fin 6) : Prop :=
  (loadSegmentsOf image program).Pairwise fun left right =>
    ∀ n, needsPage left n → ¬ needsPage right n

theorem ProgramFree.segmentsApart {image : KernelImage} {program : Fin 6}
    {pageinfo : PhysicalPage → PhysicalPageinfo}
    (free : ProgramFree pageinfo (imageSegments image program))
    (formed : ImageFormed image program) : SegmentsApart image program := by
  have apart := free.apart
  have loads : (loadSegmentsOf image program).Pairwise fun left right =>
      ∀ n, segmentMeets left n → ¬ segmentMeets right n := by
    rw [loadSegmentsOf, List.pairwise_filter]
    refine apart.imp ?_
    intro left right disjoint leftLoad rightLoad
    exact disjoint (of_decide_eq_true leftLoad) (of_decide_eq_true rightLoad)
  refine loads.imp_of_mem ?_
  intro left right leftMember rightMember disjoint n here there
  exact disjoint n (((formed.formed leftMember).meets_iff n).mpr here)
    (((formed.formed rightMember).meets_iff n).mpr there)

/-- All pages are free and apart exactly when none of them is refused. -/
theorem programFree_iff {image : KernelImage} {program : Fin 6}
    (formed : ImageFormed image program)
    (pageinfo : PhysicalPage → PhysicalPageinfo) :
    ProgramFree pageinfo (imageSegments image program) ↔
      ∀ n, ¬ PageRefused image program pageinfo n := by
  have limit : memsizePhysical.toNat = 4096 * nPages := rfl
  constructor
  · intro free n refused
    rcases refused with ⟨left, right, both, here, there⟩ | ⟨ph, member, needs, kept⟩
    · exact List.pairwise_iff_forall_sublist.mp (free.segmentsApart formed) both n here there
    · obtain ⟨header, load⟩ := mem_loadSegmentsOf.mp member
      obtain ⟨bound, unused⟩ := free.free ph header load n
        (((formed.formed member).meets_iff n).mpr needs)
      rcases kept with ⟨_, used⟩ | above
      · exact used unused
      · omega
  · intro granted
    have needed : ∀ {ph}, ph ∈ imageSegments image program → ph.pType = elfPtypeLoad →
        ∀ {n}, segmentMeets ph n →
          ph ∈ loadSegmentsOf image program ∧ needsPage ph n := by
      intro ph header load n meets
      have member := mem_loadSegmentsOf.mpr ⟨header, load⟩
      exact ⟨member, ((formed.formed member).meets_iff n).mp meets⟩
    refine ⟨?_, ?_⟩
    · intro ph header load n meets
      obtain ⟨member, needs⟩ := needed header load meets
      have bound : n < nPages := by
        by_contra above
        exact granted n (Or.inr ⟨ph, member, needs, Or.inr (by omega)⟩)
      refine ⟨bound, ?_⟩
      by_contra used
      exact granted n (Or.inr ⟨ph, member, needs, Or.inl ⟨bound, used⟩⟩)
    · have loads : (loadSegmentsOf image program).Pairwise fun left right =>
          ∀ n, needsPage left n → ¬ needsPage right n := by
        rw [List.pairwise_iff_forall_sublist]
        intro left right both n here there
        exact granted n (Or.inl ⟨left, right, both, here, there⟩)
      rw [loadSegmentsOf, List.pairwise_filter] at loads
      refine loads.imp_of_mem ?_
      intro left right leftMember rightMember disjoint leftLoad rightLoad n here there
      exact disjoint (decide_eq_true leftLoad) (decide_eq_true rightLoad) n
        (needed leftMember leftLoad here).2 (needed rightMember rightLoad there).2

/-! ## Loading -/

/-- The pages that `pageinfo_init` gives to the kernel are in use. -/
def KernelInUse (image : KernelImage)
    (pageinfo : PhysicalPage → PhysicalPageinfo) : Prop :=
  ∀ pn, initialOwner image (pageAddress pn) = poKernel → (pageinfo pn).refcount ≠ 0

theorem KernelInUse.tablesInUse {image : KernelImage}
    {pageinfo : PhysicalPage → PhysicalPageinfo} (inUse : KernelInUse image pageinfo) :
    TablesInUse image pageinfo :=
  fun t => inUse _ (initialOwner_table image t)

theorem PageinfoOk.kernelInUse {image : KernelImage} {users : Nat} {active : Pid → Prop}
    {pageinfo : PhysicalPage → PhysicalPageinfo}
    (ok : PageinfoOk image users active pageinfo) : KernelInUse image pageinfo := by
  intro pn kernel unused
  rw [ok.assignable_user unused] at kernel
  exact absurd kernel (by decide)

structure LoadedExactly (image : KernelImage) (pid : Pid) (program : Fin 6)
    (before after : KernelState) : Prop where
  changed : ∀ pn, after.pageinfo pn ≠ before.pageinfo pn ↔
    ∃ ph ∈ loadSegmentsOf image program, needsPage ph pn.val
  unused : ∀ pn, after.pageinfo pn ≠ before.pageinfo pn →
    (before.pageinfo pn).refcount = 0
  taken : ∀ pn, after.pageinfo pn ≠ before.pageinfo pn →
    after.pageinfo pn = ⟨((pid.val : Nat) : Int), 1⟩
  apart : SegmentsApart image program
  entry : (after.processes pid).pRegisters.regRip = imageEntry image program

theorem Claims.changed_iff {pid : Pid} {pages : PhysicalPage → Prop}
    {before after : KernelState} (claims : Claims pid pages before after)
    (pn : PhysicalPage) : after.pageinfo pn ≠ before.pageinfo pn ↔ pages pn := by
  constructor
  · intro changed
    by_contra unclaimed
    exact changed (claims.kept pn unclaimed)
  · intro claimed same
    have unused := claims.unused pn claimed
    rw [← same, claims.taken pn claimed] at unused
    exact Int.one_ne_zero unused

/-- With the kernel's pages in use, `program_load` returns 0 and has claimed exactly the
pages of the LOAD segments, or returns -1 because of one of them. -/
theorem programLoad_claims {image : KernelImage} {pid : Pid} {state : KernelState}
    (tables : KernelTables image state.memory)
    (shared : (state.processes pid).pPagetable = image.kernelPagetable)
    (inUse : KernelInUse image state.pageinfo) (program : Fin 6)
    (formed : ImageFormed image program) :
    ∃ r after, programLoad image state pid program.val = .ok (r, after) ∧
      (r = 0 ∨ r = -1) ∧ (r = 0 → LoadedExactly image pid program state after) ∧
      (r = -1 ↔ ∃ n, PageRefused image program state.pageinfo n) := by
  have refused := programFree_iff formed state.pageinfo
  rcases programLoad_cases program state tables inUse.tablesInUse shared with
    ⟨_, _, _, deformed⟩ | ⟨middle, run, claims, free⟩ | ⟨after, run, _, taken⟩
  · exact absurd formed deformed
  · refine ⟨0, _, run, Or.inl rfl, fun _ => ?_, fun failed => absurd failed (by decide),
      fun ⟨n, page⟩ => absurd page (refused.mp free n)⟩
    refine ⟨?_, ?_, ?_, free.segmentsApart formed, ?_⟩
    · intro pn
      rw [← formed.pages_iff]
      exact claims.changed_iff pn
    · intro pn changed
      exact claims.unused pn ((claims.changed_iff pn).mp changed)
    · intro pn changed
      exact claims.taken pn ((claims.changed_iff pn).mp changed)
    · simp [KernelState.setRegisters, KernelState.setProc]
  · refine ⟨-1, after, run, Or.inr rfl, fun zero => absurd zero (by decide),
      fun _ => ?_, fun _ => rfl⟩
    by_contra none
    exact taken (refused.mpr fun n page => none ⟨n, page⟩)

theorem sampleImage_formed (program : Fin 6) : ImageFormed sampleImage program := by
  have fits := sampleImage_fits (fun _ => False) program fun _ _ used => used
  exact ⟨fits.magic, fun ph member load => (fits.segments.inside ph member load).formed⟩

/-- The first sample program loads after a cold boot. -/
theorem programLoad_claims_sample : ∃ state after,
    programLoad sampleImage state 1 (0 : Fin 6).val = .ok (0, after) ∧
    LoadedExactly sampleImage 1 0 state after := by
  obtain ⟨state, users, active, tables, ok, shared, free⟩ := sampleImage_begins
  obtain ⟨r, after, run, _, loaded, _⟩ :=
    programLoad_claims tables shared ok.kernelInUse 0 (sampleImage_formed 0)
  obtain ⟨other, fits⟩ := programLoad_ok 0 state tables ok shared
    (sampleImage_fits _ 0 fun pn region used => used (free pn region))
  rw [run] at fits
  cases fits
  exact ⟨state, after, run, loaded rfl⟩

/-! ## A segment over the kernel page table -/

theorem lookup_cleared {memory : Memory} {root : PageAddr}
    (cleared : ∀ i, slots memory root i = 0#64) (va : UIntPtr) :
    virtualMemoryLookup memory root.addr va = .unmapped := by
  rw [virtualMemoryLookup_eq]
  simp only [vaPath, vaUpper, List.cons_append, RadixTree.trail, cleared, entryChild_zero,
    Option.bind_none, mappingOf]

/-- `set_pagetable` asserts that the handler is mapped, which it is not in an empty
table. -/
theorem setPagetable_cleared {image : KernelImage} {state : KernelState}
    (cleared : ∀ i, slots state.memory (tablePage image 0) i = 0#64) :
    setPagetable image state image.kernelPagetable =
      .error (.assertion .setIntHandlerMapped) := by
  have handler := image.handlerInside
  have below := image.endBelowStack
  have aligned : pageOffset image.kernelPagetable = 0#64 :=
    low12_eq_zero.mpr image.tablesAligned
  have unmapped := lookup_cleared cleared image.defaultIntHandler
  rw [tablePage_zero] at unmapped
  have missing : ¬ (virtualMemoryLookup state.memory image.kernelPagetable
      image.defaultIntHandler).pa = image.defaultIntHandler := by
    rw [unmapped]
    intro same
    rw [← same] at handler
    have top : VaMapping.unmapped.pa.toNat = 2 ^ 64 - 1 := rfl
    omega
  rw [setPagetable, assert_pos aligned, ok_bind]
  have stops : assert ((virtualMemoryLookup state.memory image.kernelPagetable
      image.defaultIntHandler).pa = image.defaultIntHandler) .setIntHandlerMapped =
      .error (.assertion .setIntHandlerMapped) := if_neg missing
  rw [stops]
  rfl

/-- A program whose first segment clears the top-level kernel page table and whose second
one starts at `MEMSIZE_PHYSICAL`. -/
def clearingProgram : Memory :=
  let fields := [(0, 4, 0x464C457F), (0x18, 8, 0x100000), (0x20, 8, 64), (0x38, 2, 2),
    (64, 4, 1), (64 + 0x10, 8, 0x48000), (64 + 0x28, 8, 0x1000),
    (120, 4, 1), (120 + 0x10, 8, 0x200000), (120 + 0x28, 8, 0x1000)]
  fields.foldl (fun memory (address, width, value) =>
    storeLE memory address width value) fun _ => 0

def clearingImage : KernelImage := { sampleImage with ramimages := fun _ => clearingProgram }

def clearingSegment : ElfProgram := ⟨elfPtypeLoad, 0#64, 0x48000#64, 0#64, 0x1000#64⟩

def distantSegment : ElfProgram := ⟨elfPtypeLoad, 0#64, 0x200000#64, 0#64, 0x1000#64⟩

theorem clearingProgram_header :
    elfHeader clearingProgram = ⟨elfMagic, 0x100000#64, 64#64, 2#16⟩ := rfl

theorem clearingProgram_segments :
    elfProgram clearingProgram ⟨elfMagic, 0x100000#64, 64#64, 2#16⟩ 0 = clearingSegment ∧
    elfProgram clearingProgram ⟨elfMagic, 0x100000#64, 64#64, 2#16⟩ 1 = distantSegment :=
  ⟨rfl, rfl⟩

theorem clearingImage_segments (program : Fin 6) :
    imageSegments clearingImage program = [clearingSegment, distantSegment] := by
  have image : clearingImage.ramimages program = clearingProgram := rfl
  obtain ⟨first, second⟩ := clearingProgram_segments
  have headers : List.range (2#16).toNat = [0, 1] := rfl
  rw [imageSegments, image, clearingProgram_header, elfPrograms]
  simp only [headers, List.map_cons, List.map_nil, first, second]

theorem clearingImage_formed (program : Fin 6) : ImageFormed clearingImage program := by
  refine ⟨congrArg ElfHeader.eMagic clearingProgram_header, ?_⟩
  rw [clearingImage_segments]
  intro ph member _
  rw [List.mem_cons, List.mem_singleton] at member
  rcases member with rfl | rfl <;> decide

/-- The identity map is in place, but no page is marked as used. -/
def unmarkedState (memory : Memory) : KernelState :=
  { coldState with
    memory := memory
    processes := fun pid =>
      { processesInit pid with pPagetable := clearingImage.kernelPagetable } }

/-- The first segment is allocated, and clearing it stops the kernel in the assertion of
`set_pagetable` about the interrupt handler. -/
theorem clearingSegment_stops {memory : Memory} (tables : KernelTables clearingImage memory)
    (source : Nat → UInt8) :
    programLoadSegment clearingImage (unmarkedState memory) 1 clearingSegment source =
      .error (.assertion .setIntHandlerMapped) := by
  have limit : memsizePhysical.toNat = 0x200000 := rfl
  have start : (0x48000#64 : UIntPtr).toNat = 0x48000 := rfl
  have stateTables : KernelTables clearingImage (unmarkedState memory).memory := tables
  obtain ⟨r, middle, pages, run, same, _, _, result⟩ :=
    loadPages_spec 1 0x49000#64 (nPages + 1) 0x48000#64 (unmarkedState memory) stateTables
      (by decide) (by decide) (by decide)
  have zero : r = 0 := by
    rcases result with ⟨zero, _⟩ | ⟨_, other, _, upper, aligned, unable⟩
    · exact zero
    · have finish : (0x49000#64 : UIntPtr).toNat = 0x49000 := rfl
      exact absurd ⟨aligned, by omega, rfl⟩ unable
  subst zero
  have middleTables : KernelTables clearingImage middle.memory := by
    rw [same]
    exact tables
  unfold programLoadSegment
  have finish : clearingSegment.pVa + clearingSegment.pMemsz = 0x49000#64 := rfl
  have base : clearingSegment.pVa &&& ~~~0xFFF#64 = 0x48000#64 := rfl
  have file : clearingSegment.pVa + clearingSegment.pFilesz = 0x48000#64 := rfl
  have shared : ((unmarkedState memory).processes 1).pPagetable =
      clearingImage.kernelPagetable := rfl
  simp only [finish, base, file, shared, run, ok_bind]
  rw [if_neg (by decide), setPagetable_ok middleTables, ok_bind]
  have copies : kernelTouches 0x48000#64 (0x48000#64 - 0x48000#64) = .ok () := rfl
  have clears : kernelTouches 0x48000#64 (0x49000#64 - 0x48000#64) = .ok () := rfl
  have size : (0x49000#64 - 0x48000#64 : UIntPtr).toNat = 4096 := rfl
  rw [copies, ok_bind, clears, ok_bind]
  simp only [size]
  rw [setPagetable_cleared]
  · rfl
  · intro i
    have root : (0x48000#64 : UIntPtr).toNat = (tablePage clearingImage 0).addr.toNat := rfl
    simp only [root, slots_fill, RadixTree.clear, if_true]

/-- Without the kernel's pages in use, a program with a page that is not below
`MEMSIZE_PHYSICAL` stops the kernel where the load should return -1. -/
theorem programLoad_clears_table : ∃ begun,
    virtualMemoryInit clearingImage coldState = .ok begun ∧
    KernelTables clearingImage (unmarkedState begun.memory).memory ∧
    ((unmarkedState begun.memory).processes 1).pPagetable = clearingImage.kernelPagetable ∧
    ImageFormed clearingImage 0 ∧
    PageRefused clearingImage 0 (unmarkedState begun.memory).pageinfo 512 ∧
    programLoad clearingImage (unmarkedState begun.memory) 1 (0 : Fin 6).val =
      .error (.assertion .setIntHandlerMapped) := by
  obtain ⟨memory, begun, tables⟩ := virtualMemoryInit_spec clearingImage coldState
  have segments := clearingImage_segments 0
  refine ⟨_, begun, tables, rfl, clearingImage_formed 0, ?_, ?_⟩
  · have member : distantSegment ∈ loadSegmentsOf clearingImage 0 := by
      rw [mem_loadSegmentsOf, segments]
      exact ⟨by simp, rfl⟩
    exact Or.inr ⟨distantSegment, member, ⟨0x200000, rfl, by decide, by decide⟩,
      Or.inr (by decide)⟩
  · have magic := (clearingImage_formed 0).magic
    have load : clearingSegment.pType = elfPtypeLoad := rfl
    have run := clearingSegment_stops tables
    unfold programLoad
    rw [dif_pos (by decide)]
    rw [imageSegments] at segments
    simp only [Int.toNat_natCast, Fin.eta, assert_pos magic, ok_bind, segments,
      loadSegments, if_pos load, run]
    rfl

end OsLabs.Weensy
