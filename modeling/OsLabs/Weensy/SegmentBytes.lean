import OsLabs.Weensy.KernelBoot

/-!
# The bytes of a loaded segment

`program_load_segment` copies to the page that holds `p_va`, not to `p_va`, and
takes the length of the copy from there too.  Where `p_va` begins a page this is
what the comment over the function says; anywhere else every byte comes from the
wrong place of the image and bytes behind `p_filesz` are read.
-/

set_option autoImplicit false

namespace OsLabs.Weensy

open OsLabs.ByteMemory OsLabs.ExceptRules

/-- The image bytes at `src` are apart from the memory of the segment. -/
def SourceApart (ph : ElfProgram) (src : UIntPtr) : Prop :=
  ∀ i j, i < ph.pFilesz.toNat → j < ph.pMemsz.toNat →
    src + BitVec.ofNat 64 i ≠ ph.pVa + BitVec.ofNat 64 j

/-- Where a call that returned 0 has put the bytes of the segment, and that the image
behind `p_filesz` has no part in its result. -/
structure SegmentPlaced (image : KernelImage) (state : KernelState) (pid : Pid)
    (ph : ElfProgram) (source : Nat → UInt8) (after : KernelState) : Prop where
  copied : ∀ i, i < ph.pFilesz.toNat → after.memory (ph.pVa.toNat + i) = source i
  cleared : ∀ i, ph.pFilesz.toNat ≤ i → i < ph.pMemsz.toNat →
    after.memory (ph.pVa.toNat + i) = 0
  unread : ∀ other : Nat → UInt8, (∀ i, i < ph.pFilesz.toNat → other i = source i) →
    programLoadSegment image state pid ph other =
      programLoadSegment image state pid ph source

section Segment

variable {image : KernelImage} {state after : KernelState} {pid : Pid} {ph : ElfProgram}
  {source : Nat → UInt8} {src : UIntPtr}

theorem setPagetable_memory {pagetable : UIntPtr}
    (run : setPagetable image state pagetable = .ok after) :
    after.memory = state.memory := by
  unfold setPagetable assert at run
  simp only [require_bind_eq_ok] at run
  obtain ⟨_, _, _, _, _, same⟩ := run
  cases same
  rfl

theorem kernelTouches_ok {addr size : UIntPtr} (mapped : kernelTouches addr size = .ok ()) :
    size = 0#64 ∨ addr.toNat + size.toNat ≤ memsizePhysical.toNat :=
  require_eq_ok.mp mapped

theorem programLoadSegment_returned
    (run : programLoadSegment image state pid ph source = .ok (0, after)) :
    let va := ph.pVa &&& ~~~0xFFF#64
    let endFile := ph.pVa + ph.pFilesz
    let endMem := ph.pVa + ph.pMemsz
    kernelTouches va (endFile - va) = .ok () ∧
      kernelTouches endFile (endMem - endFile) = .ok () ∧
      ∃ memory, after.memory =
        fill (blit memory va.toNat (endFile - va).toNat source)
          endFile.toNat (endMem - endFile).toNat 0 := by
  intro va endFile endMem
  unfold programLoadSegment at run
  obtain ⟨⟨r, mapped⟩, _, run⟩ := bind_eq_ok.mp run
  simp only at run
  by_cases failed : r < 0
  · rw [if_pos failed] at run
    cases run
  · rw [if_neg failed] at run
    obtain ⟨active, _, run⟩ := bind_eq_ok.mp run
    obtain ⟨_, copies, run⟩ := bind_eq_ok.mp run
    obtain ⟨_, clears, run⟩ := bind_eq_ok.mp run
    obtain ⟨restored, again, run⟩ := bind_eq_ok.mp run
    cases run
    exact ⟨copies, clears, active.memory, setPagetable_memory again⟩

/-- Two places apart leave no room for a segment of half the address space. -/
theorem SourceApart.short (apart : SourceApart ph src)
    (larger : ph.pFilesz.toNat ≤ ph.pMemsz.toNat) : 2 * ph.pFilesz.toNat ≤ 2 ^ 64 := by
  by_contra long
  have fileBound := ph.pFilesz.isLt
  have ahead : ph.pMemsz.toNat ≤ (src - ph.pVa).toNat := by
    by_contra inside
    refine apart 0 (src - ph.pVa).toNat (by omega) (by omega) ?_
    apply BitVec.eq_of_toNat_eq
    simp only [BitVec.toNat_add, BitVec.toNat_ofNat, BitVec.toNat_sub]
    omega
  have behind : ph.pFilesz.toNat ≤ (ph.pVa - src).toNat := by
    by_contra inside
    refine apart (ph.pVa - src).toNat 0 (by omega) (by omega) ?_
    apply BitVec.eq_of_toNat_eq
    simp only [BitVec.toNat_add, BitVec.toNat_ofNat, BitVec.toNat_sub]
    omega
  rw [BitVec.toNat_sub] at ahead behind
  have sourceBound := src.isLt
  have start := ph.pVa.isLt
  omega

/-- The ranges that are copied and cleared, in terms of the header. -/
structure SegmentRanges (ph : ElfProgram) : Prop where
  copySize : (ph.pVa + ph.pFilesz - (ph.pVa &&& ~~~0xFFF#64)).toNat =
    ph.pFilesz.toNat + ph.pVa.toNat % 4096
  clearSize : (ph.pVa + ph.pMemsz - (ph.pVa + ph.pFilesz)).toNat =
    ph.pMemsz.toNat - ph.pFilesz.toNat
  clearStart : ph.pFilesz.toNat < ph.pMemsz.toNat →
    (ph.pVa + ph.pFilesz).toNat = ph.pVa.toNat + ph.pFilesz.toNat
  copyEnd : 0 < ph.pFilesz.toNat + ph.pVa.toNat % 4096 →
    (ph.pVa + ph.pFilesz).toNat = ph.pVa.toNat + ph.pFilesz.toNat

theorem segmentRanges (larger : ph.pFilesz.toNat ≤ ph.pMemsz.toNat)
    (short : 2 * ph.pFilesz.toNat ≤ 2 ^ 64)
    (copies : kernelTouches (ph.pVa &&& ~~~0xFFF#64)
      (ph.pVa + ph.pFilesz - (ph.pVa &&& ~~~0xFFF#64)) = .ok ())
    (clears : kernelTouches (ph.pVa + ph.pFilesz)
      (ph.pVa + ph.pMemsz - (ph.pVa + ph.pFilesz)) = .ok ()) : SegmentRanges ph := by
  have limit : memsizePhysical.toNat = 0x200000 := rfl
  have rounded := roundDown_toNat ph.pVa
  have start := ph.pVa.isLt
  have memBound := ph.pMemsz.isLt
  have copied := kernelTouches_ok copies
  have cleared := kernelTouches_ok clears
  rw [← BitVec.toNat_inj, BitVec.toNat_ofNat] at copied cleared
  simp only [BitVec.toNat_sub, BitVec.toNat_add, rounded] at copied cleared
  have copySize : (ph.pVa + ph.pFilesz - (ph.pVa &&& ~~~0xFFF#64)).toNat =
      ph.pFilesz.toNat + ph.pVa.toNat % 4096 := by
    simp only [BitVec.toNat_sub, BitVec.toNat_add, rounded]
    omega
  have clearSize : (ph.pVa + ph.pMemsz - (ph.pVa + ph.pFilesz)).toNat =
      ph.pMemsz.toNat - ph.pFilesz.toNat := by
    simp only [BitVec.toNat_sub, BitVec.toNat_add]
    omega
  refine ⟨copySize, clearSize, ?_, ?_⟩
  · intro shorter
    rw [BitVec.toNat_add]
    omega
  · intro nonempty
    rw [BitVec.toNat_add]
    omega

theorem programLoadSegment_copies (larger : ph.pFilesz.toNat ≤ ph.pMemsz.toNat)
    (apart : SourceApart ph src)
    (run : programLoadSegment image state pid ph source = .ok (0, after)) {i : Nat}
    (inside : i < ph.pFilesz.toNat + ph.pVa.toNat % 4096) :
    after.memory (ph.pVa.toNat / 4096 * 4096 + i) = source i := by
  obtain ⟨copies, clears, memory, final⟩ := programLoadSegment_returned run
  have ranges := segmentRanges larger (apart.short larger) copies clears
  have fileEnd := ranges.copyEnd (by omega)
  have notCleared : ¬ ((ph.pVa + ph.pFilesz).toNat ≤ ph.pVa.toNat / 4096 * 4096 + i ∧
      ph.pVa.toNat / 4096 * 4096 + i < (ph.pVa + ph.pFilesz).toNat +
        (ph.pVa + ph.pMemsz - (ph.pVa + ph.pFilesz)).toNat) := by omega
  have copied : ph.pVa.toNat / 4096 * 4096 ≤ ph.pVa.toNat / 4096 * 4096 + i ∧
      ph.pVa.toNat / 4096 * 4096 + i < ph.pVa.toNat / 4096 * 4096 +
        (ph.pFilesz.toNat + ph.pVa.toNat % 4096) := by omega
  rw [final, fill, if_neg notCleared, blit, roundDown_toNat, ranges.copySize,
    if_pos copied, Nat.add_sub_cancel_left]

/-- The memory behind the file part is cleared, wherever the segment begins. -/
theorem programLoadSegment_clears (larger : ph.pFilesz.toNat ≤ ph.pMemsz.toNat)
    (apart : SourceApart ph src)
    (run : programLoadSegment image state pid ph source = .ok (0, after)) {i : Nat}
    (lower : ph.pFilesz.toNat ≤ i) (upper : i < ph.pMemsz.toNat) :
    after.memory (ph.pVa.toNat + i) = 0 := by
  obtain ⟨copies, clears, memory, final⟩ := programLoadSegment_returned run
  have ranges := segmentRanges larger (apart.short larger) copies clears
  have fileEnd := ranges.clearStart (by omega)
  have cleared : (ph.pVa + ph.pFilesz).toNat ≤ ph.pVa.toNat + i ∧
      ph.pVa.toNat + i < (ph.pVa + ph.pFilesz).toNat +
        (ph.pVa + ph.pMemsz - (ph.pVa + ph.pFilesz)).toNat := by
    rw [ranges.clearSize]
    omega
  rw [final, fill, if_pos cleared]

theorem programLoadSegment_congr {other : Nat → UInt8}
    (same : ∀ i, i < (ph.pVa + ph.pFilesz - (ph.pVa &&& ~~~0xFFF#64)).toNat →
      other i = source i) :
    programLoadSegment image state pid ph other =
      programLoadSegment image state pid ph source := by
  have copies : ∀ memory : Memory,
      blit memory (ph.pVa &&& ~~~0xFFF#64).toNat
        (ph.pVa + ph.pFilesz - (ph.pVa &&& ~~~0xFFF#64)).toNat other =
      blit memory (ph.pVa &&& ~~~0xFFF#64).toNat
        (ph.pVa + ph.pFilesz - (ph.pVa &&& ~~~0xFFF#64)).toNat source := by
    intro memory
    funext x
    unfold blit
    split
    · exact same _ (by omega)
    · rfl
  simp only [programLoadSegment, copies]

/-- A segment is placed as its header says just when its address begins a page. -/
theorem programLoadSegment_placed_iff (larger : ph.pFilesz.toNat ≤ ph.pMemsz.toNat)
    (apart : SourceApart ph src)
    (run : programLoadSegment image state pid ph source = .ok (0, after)) :
    SegmentPlaced image state pid ph source after ↔ ph.pVa.toNat % 4096 = 0 := by
  constructor
  · intro placed
    by_contra offset
    -- byte `p_filesz` of the image is copied too, so another byte there is seen
    let other : Nat → UInt8 := Function.update source ph.pFilesz.toNat
      (source ph.pFilesz.toNat + 1)
    have agree : ∀ i, i < ph.pFilesz.toNat → other i = source i := by
      intro i inside
      exact Function.update_of_ne (by omega) _ _
    have otherRun : programLoadSegment image state pid ph other = .ok (0, after) := by
      rw [placed.unread other agree]
      exact run
    have here := programLoadSegment_copies larger apart run
      (i := ph.pFilesz.toNat) (by omega)
    have there := programLoadSegment_copies larger apart otherRun
      (i := ph.pFilesz.toNat) (by omega)
    have changed : other ph.pFilesz.toNat = source ph.pFilesz.toNat + 1 :=
      Function.update_self ..
    rw [here, changed] at there
    exact absurd there (by simp)
  · intro aligned
    have whole : ph.pVa.toNat / 4096 * 4096 = ph.pVa.toNat := by omega
    refine ⟨?_, ?_, ?_⟩
    · intro i inside
      have byte := programLoadSegment_copies larger apart run (i := i) (by omega)
      rw [whole] at byte
      exact byte
    · intro i lower upper
      exact programLoadSegment_clears larger apart run lower upper
    · intro other agree
      apply programLoadSegment_congr
      intro i inside
      obtain ⟨copies, clears, _⟩ := programLoadSegment_returned run
      have ranges := segmentRanges larger (apart.short larger) copies clears
      rw [ranges.copySize] at inside
      exact agree i (by omega)

end Segment

/-! ## A segment at the start of a page and one in its middle -/

def smallSegment (va : UIntPtr) : ElfProgram := ⟨elfPtypeLoad, 0#64, va, 4#64, 8#64⟩

/-- The small segment loads for the first process after a cold boot. -/
theorem smallSegment_loads (va : UIntPtr) (user : 0x100000 ≤ va.toNat)
    (below : va.toNat + 8 ≤ memsizePhysical.toNat) (source : Nat → UInt8) :
    ∃ state after, programLoadSegment sampleImage state 1 (smallSegment va) source =
      .ok (0, after) := by
  obtain ⟨state, users, active, tables, ok, shared, free⟩ := sampleImage_begins
  have unused : ∀ pn, segmentPages (smallSegment va) pn →
      (state.pageinfo pn).refcount = 0 := by
    intro pn wanted
    have first := wanted.1
    simp only [smallSegment] at first
    exact free pn (by omega)
  have inside : SegmentInside (smallSegment va) := by
    have shorter : (4#64).toNat ≤ (8#64).toNat := by decide
    exact ⟨shorter, below⟩
  obtain ⟨after, run, _⟩ := programLoadSegment_ok tables ok shared inside unused source
  exact ⟨state, after, run⟩

theorem smallSegment_apart {va src : UIntPtr} (ahead : va.toNat + 8 ≤ src.toNat)
    (short : src.toNat + 4 ≤ 2 ^ 64) : SourceApart (smallSegment va) src := by
  intro i j copied loaded same
  have four : (smallSegment va).pFilesz.toNat = 4 := rfl
  have eight : (smallSegment va).pMemsz.toNat = 8 := rfl
  have equal := congrArg BitVec.toNat same
  simp only [smallSegment, BitVec.toNat_add, BitVec.toNat_ofNat] at equal
  omega

theorem programLoadSegment_placed_iff_sample : ∃ state after,
    programLoadSegment sampleImage state 1 (smallSegment 0x100000#64) UInt8.ofNat =
      .ok (0, after) ∧
    SegmentPlaced sampleImage state 1 (smallSegment 0x100000#64) UInt8.ofNat after := by
  obtain ⟨state, after, run⟩ := smallSegment_loads 0x100000#64 (by decide)
    (by decide) UInt8.ofNat
  have apart : SourceApart (smallSegment 0x100000#64) 0x180000#64 :=
    smallSegment_apart (by decide) (by decide)
  have placed := programLoadSegment_placed_iff (by decide) apart run
  exact ⟨state, after, run, placed.mpr (by decide)⟩

/-- A segment at 0x100010 is loaded without complaint, but `src[0]` is not its first
byte: that one comes from 16 bytes further on, behind `p_filesz`. -/
theorem programLoadSegment_misplaces : ∃ state after,
    programLoadSegment sampleImage state 1 (smallSegment 0x100010#64) UInt8.ofNat =
      .ok (0, after) ∧
    SourceApart (smallSegment 0x100010#64) 0x180000#64 ∧
    after.memory 0x100010 = 0x10 ∧
    ¬ SegmentPlaced sampleImage state 1 (smallSegment 0x100010#64) UInt8.ofNat after := by
  obtain ⟨state, after, run⟩ := smallSegment_loads 0x100010#64 (by decide)
    (by decide) UInt8.ofNat
  have apart : SourceApart (smallSegment 0x100010#64) 0x180000#64 :=
    smallSegment_apart (by decide) (by decide)
  have first : after.memory 0x100010 = 0x10 :=
    programLoadSegment_copies (by decide) apart run (i := 16) (by decide)
  refine ⟨state, after, run, apart, first, ?_⟩
  intro placed
  have promised : after.memory 0x100010 = 0 := placed.copied 0 (by decide)
  rw [first] at promised
  exact absurd promised (by decide)

end OsLabs.Weensy
