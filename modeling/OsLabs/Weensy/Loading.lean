import OsLabs.Weensy.KernelInvariant

/-!
# What the program loader changes

`Claims` says which pages a piece of the loader has taken for its process and that
it has written nowhere else.  Claims compose, and they keep the kernel page table
and the classification of the physical pages.
-/

set_option autoImplicit false

namespace OsLabs.Weensy

open OsLabs.ByteMemory OsLabs.ExceptRules

/-! ## Claims -/

structure Claims (pid : Pid) (pages : PhysicalPage → Prop)
    (before after : KernelState) : Prop where
  unused : ∀ pn, pages pn → (before.pageinfo pn).refcount = 0
  taken : ∀ pn, pages pn → after.pageinfo pn = ⟨((pid.val : Nat) : Int), 1⟩
  kept : ∀ pn, ¬ pages pn → after.pageinfo pn = before.pageinfo pn
  memory : ∀ x, (∀ pn, pages pn → x / 4096 ≠ pn.val) → after.memory x = before.memory x
  processes : after.processes = before.processes

section Claiming

variable {image : KernelImage} {users : Nat} {active : Pid → Prop} {pid : Pid}
  {pages : PhysicalPage → Prop} {before middle after : KernelState}

theorem Claims.refl (pid : Pid) (state : KernelState) :
    Claims pid (fun _ => False) state state :=
  ⟨fun _ none => none.elim, fun _ none => none.elim, fun _ _ => rfl, fun _ _ => rfl, rfl⟩

theorem Claims.trans {first second : PhysicalPage → Prop}
    (left : Claims pid first before middle) (right : Claims pid second middle after) :
    Claims pid (fun pn => first pn ∨ second pn) before after := by
  refine ⟨?_, ?_, ?_, ?_, right.processes.trans left.processes⟩
  · intro pn either
    by_cases early : first pn
    · exact left.unused pn early
    · rw [← left.kept pn early]
      exact right.unused pn (either.resolve_left early)
  · intro pn either
    by_cases late : second pn
    · exact right.taken pn late
    · rw [right.kept pn late]
      exact left.taken pn (either.resolve_right late)
  · intro pn neither
    rw [right.kept pn fun late => neither (Or.inr late),
      left.kept pn fun early => neither (Or.inl early)]
  · intro x outside
    rw [right.memory x fun pn late => outside pn (Or.inr late),
      left.memory x fun pn early => outside pn (Or.inl early)]

theorem Claims.congr {other : PhysicalPage → Prop}
    (claims : Claims pid pages before after) (same : ∀ pn, pages pn ↔ other pn) :
    Claims pid other before after := by
  have equal : other = pages := funext fun pn => propext (same pn).symm
  rw [equal]
  exact claims

theorem Claims.pageinfoOk (claims : Claims pid pages before after)
    (ok : PageinfoOk image users active before.pageinfo) (activePid : active pid) :
    PageinfoOk image users active after.pageinfo := by
  refine ⟨?_, ?_⟩
  · intro pn kept
    have unclaimed : ¬ pages pn := fun claimed =>
      kept (ok.assignable_user (claims.unused pn claimed))
    rw [claims.kept pn unclaimed]
    exact ok.system pn kept
  · intro pn user
    by_cases claimed : pages pn
    · exact Or.inr ⟨pid, activePid, claims.taken pn claimed⟩
    · rw [claims.kept pn claimed]
      exact ok.user pn user

def TablesInUse (image : KernelImage)
    (pageinfo : PhysicalPage → PhysicalPageinfo) : Prop :=
  ∀ t, (pageinfo (tableNumber image t)).refcount ≠ 0

theorem PageinfoOk.tablesInUse {pageinfo : PhysicalPage → PhysicalPageinfo}
    (ok : PageinfoOk image users active pageinfo) : TablesInUse image pageinfo := by
  intro t unused
  have table := initialOwner_table image t
  rw [ok.assignable_user unused] at table
  exact absurd table (by decide)

theorem Claims.stillUsed (claims : Claims pid pages before after) {pn : PhysicalPage}
    (used : (before.pageinfo pn).refcount ≠ 0) : (after.pageinfo pn).refcount ≠ 0 := by
  rw [claims.kept pn fun claimed => used (claims.unused pn claimed)]
  exact used

theorem Claims.tablesInUse (claims : Claims pid pages before after)
    (inUse : TablesInUse image before.pageinfo) : TablesInUse image after.pageinfo :=
  fun t => claims.stillUsed (inUse t)

theorem Claims.tables (claims : Claims pid pages before after)
    (inUse : TablesInUse image before.pageinfo)
    (tables : KernelTables image before.memory) : KernelTables image after.memory := by
  refine tables.congr ?_
  intro x lower upper
  refine claims.memory x ?_
  intro pn claimed same
  have unused := claims.unused pn claimed
  have aligned := image.tablesAligned
  have number : (x - image.kernelPagetable.toNat) / 4096 < 5 := by omega
  have place := tablePage_toNat image ⟨_, number⟩
  have value := physicalPage_val (tablePage_below image ⟨_, number⟩)
  have here : tableNumber image ⟨_, number⟩ = pn := by
    apply Fin.ext
    rw [tableNumber, value, place]
    simp only
    omega
  rw [← here] at unused
  exact inUse _ unused

end Claiming

/-! ## Allocating the pages of a segment -/

/-- The pages that a segment meets, from its address rounded down. -/
def segmentPages (ph : ElfProgram) (pn : PhysicalPage) : Prop :=
  ph.pVa.toNat / 4096 ≤ pn.val ∧ 4096 * pn.val < (ph.pVa + ph.pMemsz).toNat

section Loading

variable {image : KernelImage} {pid : Pid}

theorem claims_setPageinfo {state : KernelState} {page : PhysicalPage}
    (unused : (state.pageinfo page).refcount = 0) :
    Claims pid (fun pn => pn = page) state
      (state.setPageinfo page ⟨((pid.val : Nat) : Int), 1⟩) := by
  refine ⟨?_, ?_, ?_, fun _ _ => rfl, rfl⟩
  · rintro pn rfl
    exact unused
  · rintro pn rfl
    exact Function.update_self ..
  · intro pn different
    exact Function.update_of_ne different _ _

/-- The allocation loop takes all pages up to `endMem`, or stops at one that
`assign_physical_page` refuses. -/
theorem loadPages_spec (pid : Pid) (endMem : UIntPtr) (fuel : Nat) (addr : UIntPtr)
    (state : KernelState) (tables : KernelTables image state.memory)
    (aligned : addr.toNat % 4096 = 0) (fuelled : fuel ≠ 0)
    (enough : nPages + 1 ≤ fuel + addr.toNat / 4096) :
    ∃ r after pages, loadPages pid image.kernelPagetable endMem fuel addr state =
        .ok (r, after) ∧
      after.memory = state.memory ∧ Claims pid pages state after ∧
      (∀ pn, pages pn → addr.toNat / 4096 ≤ pn.val ∧ 4096 * pn.val < endMem.toNat) ∧
      (r = 0 ∧ (∀ pn : PhysicalPage, addr.toNat / 4096 ≤ pn.val →
          4096 * pn.val < endMem.toNat → pages pn) ∧
          (addr.toNat < endMem.toNat → endMem.toNat ≤ memsizePhysical.toNat) ∨
        r = -1 ∧ ∃ other : UIntPtr, addr.toNat ≤ other.toNat ∧
          other.toNat < endMem.toNat ∧ other.toNat % 4096 = 0 ∧
          ¬ Assignable state.pageinfo other) := by
  have limit : memsizePhysical.toNat = 4096 * nPages := rfl
  have small : memsizePhysical.toNat = 0x200000 := rfl
  induction fuel generalizing addr state with
  | zero => exact absurd rfl fuelled
  | succ fuel ih =>
      unfold loadPages
      by_cases more : addr < endMem
      · have below := BitVec.lt_def.mp more
        rw [if_pos more, assignPhysicalPage_eq, ok_bind]
        by_cases able : Assignable state.pageinfo addr
        · have inside := able.2.1
          have value := physicalPage_val inside
          have next : (addr + pageSize).toNat = addr.toNat + 4096 := by
            rw [BitVec.toNat_add, show pageSize.toNat = 4096 from rfl]
            omega
          have claim : Claims pid _ state _ := claims_setPageinfo able.2.2
          obtain ⟨r, after, pages, run, memory, claims, range, result⟩ :=
            ih (addr + pageSize)
              (state.setPageinfo (physicalPage addr) ⟨((pid.val : Nat) : Int), 1⟩)
              tables (by omega) (by omega) (by omega)
          refine ⟨r, after, _, ?_, memory, claim.trans claims, ?_, ?_⟩
          · rw [if_pos able]
            simp only [KernelState.setPageinfo, tables.map_page able.1 inside, ok_bind]
            exact run
          · intro pn member
            rcases member with rfl | member
            · omega
            · have := range pn member
              omega
          · rcases result with ⟨zero, all, fits⟩ | ⟨failed, other, lower, upper, rest⟩
            · refine Or.inl ⟨zero, ?_, ?_⟩
              · intro pn lower upper
                by_cases first : pn = physicalPage addr
                · exact Or.inl first
                · have different : pn.val ≠ (physicalPage addr).val := fun same =>
                    first (Fin.ext same)
                  exact Or.inr (all pn (by omega) upper)
              · intro _
                by_cases further : (addr + pageSize).toNat < endMem.toNat
                · exact fits further
                · omega
            · obtain ⟨alignedOther, unable⟩ := rest
              refine Or.inr ⟨failed, other, by omega, upper, alignedOther, ?_⟩
              intro ableOther
              refine unable ⟨ableOther.1, ableOther.2.1, ?_⟩
              have otherValue := physicalPage_val ableOther.2.1
              have different : physicalPage other ≠ physicalPage addr := by
                intro same
                rw [same] at otherValue
                omega
              simp only [KernelState.setPageinfo, Function.update_of_ne different]
              exact ableOther.2.2
        · rw [if_neg able]
          refine ⟨-1, state, _, rfl, rfl, Claims.refl pid state, fun _ none => none.elim,
            Or.inr ⟨rfl, addr, Nat.le_refl _, below, aligned, able⟩⟩
      · have above := mt BitVec.lt_def.mpr more
        rw [if_neg more]
        refine ⟨0, state, _, rfl, rfl, Claims.refl pid state, fun _ none => none.elim,
          Or.inl ⟨rfl, ?_, fun below => absurd below above⟩⟩
        intro pn lower upper
        omega

/-! ## Copying and clearing -/

theorem kernelTouches_cases (addr size : UIntPtr) :
    kernelTouches addr size = .error (.kernelFault addr) ∨
      kernelTouches addr size = .ok () ∧
        (size = 0#64 ∨ addr.toNat + size.toNat ≤ memsizePhysical.toNat) := by
  unfold kernelTouches require
  split
  · next mapped => exact Or.inr ⟨rfl, mapped⟩
  · exact Or.inl rfl

theorem roundDown_toNat (addr : UIntPtr) :
    (addr &&& ~~~0xFFF#64).toNat = addr.toNat / 4096 * 4096 := pteAddr_toNat addr

/-- The bytes that `memcpy` and `memset` write, when neither faults, are in the pages
of the segment. -/
theorem written_inside {ph : ElfProgram} (x : Nat)
    (copied : ph.pVa + ph.pFilesz - (ph.pVa &&& ~~~0xFFF#64) = 0#64 ∨
      (ph.pVa &&& ~~~0xFFF#64).toNat +
        (ph.pVa + ph.pFilesz - (ph.pVa &&& ~~~0xFFF#64)).toNat ≤ memsizePhysical.toNat)
    (cleared : ph.pVa + ph.pMemsz - (ph.pVa + ph.pFilesz) = 0#64 ∨
      (ph.pVa + ph.pFilesz).toNat +
        (ph.pVa + ph.pMemsz - (ph.pVa + ph.pFilesz)).toNat ≤ memsizePhysical.toNat)
    (written : ((ph.pVa &&& ~~~0xFFF#64).toNat ≤ x ∧
        x < (ph.pVa &&& ~~~0xFFF#64).toNat +
          (ph.pVa + ph.pFilesz - (ph.pVa &&& ~~~0xFFF#64)).toNat) ∨
      ((ph.pVa + ph.pFilesz).toNat ≤ x ∧ x < (ph.pVa + ph.pFilesz).toNat +
        (ph.pVa + ph.pMemsz - (ph.pVa + ph.pFilesz)).toNat)) :
    ph.pVa.toNat / 4096 * 4096 ≤ x ∧ x < (ph.pVa + ph.pMemsz).toNat ∧
      x < memsizePhysical.toNat := by
  have limit : memsizePhysical.toNat = 0x200000 := rfl
  rw [← BitVec.toNat_inj, BitVec.toNat_ofNat] at copied cleared
  rw [BitVec.toNat_sub, roundDown_toNat] at copied written
  rw [BitVec.toNat_sub] at cleared written
  have endFile := (ph.pVa + ph.pFilesz).isLt
  have endMem := (ph.pVa + ph.pMemsz).isLt
  have start := ph.pVa.isLt
  generalize (ph.pVa + ph.pFilesz).toNat = fileEnd at *
  generalize (ph.pVa + ph.pMemsz).toNat = memEnd at *
  generalize ph.pVa.toNat = va at *
  omega

/-- The result of a piece of the loader that claims pages of `wanted`: all of them, or
some and then a refusal. -/
structure LoadResult (pid : Pid) (wanted : PhysicalPage → Prop)
    (before after : KernelState) (r : Int) : Prop where
  result : r = 0 ∧ Claims pid wanted before after ∨
    r = -1 ∧ ∃ pages, Claims pid pages before after ∧ ∀ pn, pages pn → wanted pn

/-- The segment is no longer in the file than in memory and ends in physical memory. -/
def SegmentInside (ph : ElfProgram) : Prop :=
  ph.pFilesz.toNat ≤ ph.pMemsz.toNat ∧
    ph.pVa.toNat + ph.pMemsz.toNat ≤ memsizePhysical.toNat

instance (ph : ElfProgram) : Decidable (SegmentInside ph) := by
  unfold SegmentInside
  infer_instance

/-- The segment is no longer in the file than in memory and does not wrap around the
end of the address space. -/
def SegmentFormed (ph : ElfProgram) : Prop :=
  ph.pFilesz.toNat ≤ ph.pMemsz.toNat ∧ ph.pVa.toNat + ph.pMemsz.toNat < 2 ^ 64

instance (ph : ElfProgram) : Decidable (SegmentFormed ph) := by
  unfold SegmentFormed
  infer_instance

theorem SegmentInside.formed {ph : ElfProgram} (inside : SegmentInside ph) :
    SegmentFormed ph := by
  obtain ⟨shorter, below⟩ := inside
  have limit : memsizePhysical.toNat = 0x200000 := rfl
  exact ⟨shorter, by omega⟩

theorem SegmentFormed.ends {ph : ElfProgram} (formed : SegmentFormed ph) :
    (ph.pVa + ph.pFilesz).toNat = ph.pVa.toNat + ph.pFilesz.toNat ∧
      (ph.pVa + ph.pMemsz).toNat = ph.pVa.toNat + ph.pMemsz.toNat := by
  obtain ⟨shorter, below⟩ := formed
  rw [BitVec.toNat_add, BitVec.toNat_add]
  omega

/-- A segment whose pages, if it has any, are physical pages is copied without a fault. -/
theorem SegmentFormed.touches {ph : ElfProgram} (formed : SegmentFormed ph)
    (fits : ph.pVa.toNat / 4096 * 4096 < (ph.pVa + ph.pMemsz).toNat →
      (ph.pVa + ph.pMemsz).toNat ≤ memsizePhysical.toNat) :
    kernelTouches (ph.pVa &&& ~~~0xFFF#64)
        (ph.pVa + ph.pFilesz - (ph.pVa &&& ~~~0xFFF#64)) = .ok () ∧
      kernelTouches (ph.pVa + ph.pFilesz) (ph.pVa + ph.pMemsz - (ph.pVa + ph.pFilesz)) =
        .ok () := by
  obtain ⟨fileEnd, memEnd⟩ := formed.ends
  have shorter := formed.1
  have rounded := roundDown_toNat ph.pVa
  -- a segment without pages copies and clears nothing
  constructor
  · refine if_pos ?_
    rw [← BitVec.toNat_inj, BitVec.toNat_sub, rounded, fileEnd, BitVec.toNat_ofNat]
    omega
  · refine if_pos ?_
    rw [← BitVec.toNat_inj, BitVec.toNat_sub, fileEnd, memEnd, BitVec.toNat_ofNat]
    omega

/-- Copying the file's bytes and clearing the rest writes only the pages of the segment. -/
theorem Claims.segmentBytes {state middle : KernelState} {ph : ElfProgram}
    (claimed : Claims pid (segmentPages ph) state middle)
    (memory : middle.memory = state.memory) (root : UIntPtr) (source : Nat → UInt8)
    (copied : ph.pVa + ph.pFilesz - (ph.pVa &&& ~~~0xFFF#64) = 0#64 ∨
      (ph.pVa &&& ~~~0xFFF#64).toNat +
        (ph.pVa + ph.pFilesz - (ph.pVa &&& ~~~0xFFF#64)).toNat ≤ memsizePhysical.toNat)
    (cleared : ph.pVa + ph.pMemsz - (ph.pVa + ph.pFilesz) = 0#64 ∨
      (ph.pVa + ph.pFilesz).toNat +
        (ph.pVa + ph.pMemsz - (ph.pVa + ph.pFilesz)).toNat ≤ memsizePhysical.toNat) :
    Claims pid (segmentPages ph) state
      { middle with
        cr3 := root
        memory := fill (blit middle.memory (ph.pVa &&& ~~~0xFFF#64).toNat
          (ph.pVa + ph.pFilesz - (ph.pVa &&& ~~~0xFFF#64)).toNat source)
          (ph.pVa + ph.pFilesz).toNat
          (ph.pVa + ph.pMemsz - (ph.pVa + ph.pFilesz)).toNat 0 } := by
  refine ⟨claimed.unused, claimed.taken, claimed.kept, ?_, claimed.processes⟩
  intro x outside
  have limit : memsizePhysical.toNat = 4096 * nPages := rfl
  have away := fun written => written_inside x copied cleared written
  have avoid : ∀ written : ph.pVa.toNat / 4096 * 4096 ≤ x ∧
      x < (ph.pVa + ph.pMemsz).toNat ∧ x < memsizePhysical.toNat, False := by
    intro written
    refine outside ⟨x / 4096, by omega⟩ ⟨?_, ?_⟩ rfl
    · simp only
      omega
    · simp only
      omega
  have notFilled : ¬ ((ph.pVa + ph.pFilesz).toNat ≤ x ∧
      x < (ph.pVa + ph.pFilesz).toNat +
        (ph.pVa + ph.pMemsz - (ph.pVa + ph.pFilesz)).toNat) :=
    fun written => avoid (away (Or.inr written))
  have notCopied : ¬ ((ph.pVa &&& ~~~0xFFF#64).toNat ≤ x ∧
      x < (ph.pVa &&& ~~~0xFFF#64).toNat +
        (ph.pVa + ph.pFilesz - (ph.pVa &&& ~~~0xFFF#64)).toNat) :=
    fun written => avoid (away (Or.inl written))
  simp only [fill, if_neg notFilled, blit, if_neg notCopied, memory]

/-- The page numbers that a segment meets, whether or not there is such a page. -/
def segmentMeets (ph : ElfProgram) (n : Nat) : Prop :=
  ph.pVa.toNat / 4096 ≤ n ∧ 4096 * n < (ph.pVa + ph.pMemsz).toNat

instance (ph : ElfProgram) (n : Nat) : Decidable (segmentMeets ph n) := by
  unfold segmentMeets
  infer_instance

def SegmentFree (pageinfo : PhysicalPage → PhysicalPageinfo) (ph : ElfProgram) : Prop :=
  ∀ n, segmentMeets ph n → ∃ bound : n < nPages, (pageinfo ⟨n, bound⟩).refcount = 0

/-- `program_load_segment` faults or loads; it returns 0 exactly when the pages of the
segment are free, and a well-formed segment does not fault. -/
theorem programLoadSegment_cases {state : KernelState}
    (tables : KernelTables image state.memory)
    (inUse : TablesInUse image state.pageinfo)
    (shared : (state.processes pid).pPagetable = image.kernelPagetable)
    (ph : ElfProgram) (source : Nat → UInt8) :
    (∃ addr, programLoadSegment image state pid ph source =
      .error (.kernelFault addr) ∧ ¬ SegmentFormed ph) ∨
    ∃ r after, programLoadSegment image state pid ph source = .ok (r, after) ∧
      LoadResult pid (segmentPages ph) state after r ∧
      (r = 0 ↔ SegmentFree state.pageinfo ph) := by
  have limit : memsizePhysical.toNat = 4096 * nPages := rfl
  have rounded := roundDown_toNat ph.pVa
  have aligned : (ph.pVa &&& ~~~0xFFF#64).toNat % 4096 = 0 := by omega
  have first : (ph.pVa &&& ~~~0xFFF#64).toNat / 4096 = ph.pVa.toNat / 4096 := by omega
  obtain ⟨r, middle, pages, run, memory, claims, range, result⟩ :=
    loadPages_spec pid (ph.pVa + ph.pMemsz) (nPages + 1) (ph.pVa &&& ~~~0xFFF#64) state
      tables aligned (by decide) (by omega)
  rw [first] at range result
  unfold programLoadSegment
  simp only [shared, run, ok_bind]
  rcases result with ⟨rfl, all, fits⟩ | ⟨rfl, other, lower, upper, alignedOther, refused⟩
  · have exact_pages : ∀ pn, pages pn ↔ segmentPages ph pn := fun pn =>
      ⟨fun member => range pn member, fun member => all pn member.1 member.2⟩
    have claimed := claims.congr exact_pages
    rw [rounded] at fits
    have middleTables : KernelTables image middle.memory := by
      rw [memory]
      exact tables
    rw [if_neg (by decide), setPagetable_ok middleTables, ok_bind]
    rcases kernelTouches_cases (ph.pVa &&& ~~~0xFFF#64)
      (ph.pVa + ph.pFilesz - (ph.pVa &&& ~~~0xFFF#64)) with fault | ⟨mapped, copied⟩
    · rw [fault]
      refine Or.inl ⟨_, rfl, ?_⟩
      intro formed
      rw [(formed.touches fits).1] at fault
      cases fault
    · rw [mapped, ok_bind]
      rcases kernelTouches_cases (ph.pVa + ph.pFilesz)
        (ph.pVa + ph.pMemsz - (ph.pVa + ph.pFilesz)) with fault | ⟨mapped, cleared⟩
      · rw [fault]
        refine Or.inl ⟨_, rfl, ?_⟩
        intro formed
        rw [(formed.touches fits).2] at fault
        cases fault
      · rw [mapped, ok_bind]
        right
        have loaded :=
          claimed.segmentBytes memory image.kernelPagetable source copied cleared
        refine ⟨0, _, ?_, ⟨Or.inl ⟨rfl, loaded⟩⟩, fun _ => ?_, fun _ => rfl⟩
        · rw [setPagetable_ok (loaded.tables inUse tables)]
          rfl
        · intro n meets
          have bound : n < nPages := by
            have below := fits (by have := meets.1; have := meets.2; omega)
            have := meets.2
            omega
          exact ⟨bound, loaded.unused ⟨n, bound⟩ meets⟩
  · rw [if_pos (by decide)]
    refine Or.inr ⟨-1, middle, rfl, ⟨Or.inr ⟨rfl, pages, claims, range⟩⟩,
      fun zero => absurd zero (by decide), fun free => ?_⟩
    -- the page that was refused is one of the segment's
    obtain ⟨bound, unused⟩ := free (other.toNat / 4096) ⟨by omega, by omega⟩
    have inside : other.toNat < memsizePhysical.toNat := by omega
    have place : physicalPage other = ⟨other.toNat / 4096, bound⟩ :=
      Fin.ext (physicalPage_val inside)
    rw [← place] at unused
    exact absurd ⟨alignedOther, inside, unused⟩ refused

/-- The pages of a segment inside physical memory are physical pages. -/
theorem SegmentInside.free {ph : ElfProgram} (inside : SegmentInside ph)
    {pageinfo : PhysicalPage → PhysicalPageinfo}
    (unused : ∀ pn, segmentPages ph pn → (pageinfo pn).refcount = 0) :
    SegmentFree pageinfo ph := by
  intro n meets
  have limit : memsizePhysical.toNat = 4096 * nPages := rfl
  have memEnd := inside.formed.ends.2
  have below := inside.2
  have last := meets.2
  have bound : n < nPages := by omega
  exact ⟨bound, unused ⟨n, bound⟩ meets⟩

/-- What loading a list of program headers needs: every LOAD segment inside physical
memory, with pages that neither `used` nor another segment has. -/
structure SegmentsFit (used : PhysicalPage → Prop) (programs : List ElfProgram) : Prop where
  inside : ∀ ph ∈ programs, ph.pType = elfPtypeLoad → SegmentInside ph
  unused : ∀ ph ∈ programs, ph.pType = elfPtypeLoad → ∀ pn, segmentPages ph pn → ¬ used pn
  apart : programs.Pairwise fun left right =>
    left.pType = elfPtypeLoad → right.pType = elfPtypeLoad →
      ∀ pn, segmentPages left pn → ¬ segmentPages right pn

theorem programLoadSegment_ok {state : KernelState} {users : Nat} {active : Pid → Prop}
    (tables : KernelTables image state.memory)
    (ok : PageinfoOk image users active state.pageinfo)
    (shared : (state.processes pid).pPagetable = image.kernelPagetable)
    {ph : ElfProgram} (inside : SegmentInside ph)
    (unused : ∀ pn, segmentPages ph pn → (state.pageinfo pn).refcount = 0)
    (source : Nat → UInt8) :
    ∃ after, programLoadSegment image state pid ph source = .ok (0, after) ∧
      Claims pid (segmentPages ph) state after := by
  rcases programLoadSegment_cases tables ok.tablesInUse shared ph source with
    ⟨_, _, deformed⟩ | ⟨r, after, run, result, free⟩
  · exact absurd inside.formed deformed
  · obtain rfl := free.mpr (inside.free unused)
    rcases result.result with ⟨_, claims⟩ | ⟨failed, _⟩
    · exact ⟨after, run, claims⟩
    · exact absurd failed (by decide)

/-! ## program_load -/

/-- The pages that the LOAD segments of some program headers meet. -/
def programPages (programs : List ElfProgram) (pn : PhysicalPage) : Prop :=
  ∃ ph ∈ programs, ph.pType = elfPtypeLoad ∧ segmentPages ph pn

theorem programPages_cons_load {ph : ElfProgram} {rest : List ElfProgram}
    (load : ph.pType = elfPtypeLoad) (pn : PhysicalPage) :
    segmentPages ph pn ∨ programPages rest pn ↔ programPages (ph :: rest) pn := by
  unfold programPages
  constructor
  · rintro (here | ⟨other, member, later⟩)
    · exact ⟨ph, by simp, load, here⟩
    · exact ⟨other, by simp [member], later⟩
  · rintro ⟨other, member, isLoad, here⟩
    rcases List.mem_cons.mp member with rfl | member
    · exact Or.inl here
    · exact Or.inr ⟨other, member, isLoad, here⟩

theorem programPages_cons_other {ph : ElfProgram} {rest : List ElfProgram}
    (other : ph.pType ≠ elfPtypeLoad) (pn : PhysicalPage) :
    programPages rest pn ↔ programPages (ph :: rest) pn := by
  unfold programPages
  constructor
  · rintro ⟨later, member, rest⟩
    exact ⟨later, by simp [member], rest⟩
  · rintro ⟨later, member, isLoad, here⟩
    rcases List.mem_cons.mp member with rfl | member
    · exact absurd isLoad other
    · exact ⟨later, member, isLoad, here⟩

theorem LoadResult.widen {wanted more : PhysicalPage → Prop}
    {before after : KernelState} {r : Int}
    (result : LoadResult pid wanted before after r) (failed : r = -1)
    (sub : ∀ pn, wanted pn → more pn) : LoadResult pid more before after r := by
  rcases result.result with ⟨zero, _⟩ | ⟨_, pages, claims, inside⟩
  · omega
  · exact ⟨Or.inr ⟨failed, pages, claims, fun pn member => sub pn (inside pn member)⟩⟩

theorem LoadResult.claims {wanted : PhysicalPage → Prop} {before after : KernelState}
    {r : Int} (result : LoadResult pid wanted before after r) :
    ∃ pages, Claims pid pages before after := by
  rcases result.result with ⟨_, claims⟩ | ⟨_, pages, claims, _⟩
  · exact ⟨wanted, claims⟩
  · exact ⟨pages, claims⟩

theorem LoadResult.trans {first second : PhysicalPage → Prop}
    {before middle after : KernelState} {r : Int}
    (left : Claims pid first before middle)
    (right : LoadResult pid second middle after r) :
    LoadResult pid (fun pn => first pn ∨ second pn) before after r := by
  rcases right.result with ⟨zero, claims⟩ | ⟨failed, pages, claims, inside⟩
  · exact ⟨Or.inl ⟨zero, left.trans claims⟩⟩
  · refine ⟨Or.inr ⟨failed, _, left.trans claims, ?_⟩⟩
    intro pn member
    exact member.imp_right (inside pn)

theorem LoadResult.congr {wanted other : PhysicalPage → Prop}
    {before after : KernelState} {r : Int}
    (result : LoadResult pid wanted before after r)
    (same : ∀ pn, wanted pn ↔ other pn) : LoadResult pid other before after r := by
  have equal : other = wanted := funext fun pn => propext (same pn).symm
  rw [equal]
  exact result

/-- Every page that the LOAD segments meet is free, and no page belongs to two of them. -/
structure ProgramFree (pageinfo : PhysicalPage → PhysicalPageinfo)
    (programs : List ElfProgram) : Prop where
  free : ∀ ph ∈ programs, ph.pType = elfPtypeLoad → SegmentFree pageinfo ph
  apart : programs.Pairwise fun left right =>
    left.pType = elfPtypeLoad → right.pType = elfPtypeLoad →
      ∀ n, segmentMeets left n → ¬ segmentMeets right n

theorem programFree_cons_other {pageinfo : PhysicalPage → PhysicalPageinfo}
    {ph : ElfProgram} {rest : List ElfProgram} (other : ph.pType ≠ elfPtypeLoad) :
    ProgramFree pageinfo rest ↔ ProgramFree pageinfo (ph :: rest) := by
  constructor
  · rintro ⟨free, apart⟩
    refine ⟨?_, List.pairwise_cons.mpr ⟨fun _ _ load => absurd load other, apart⟩⟩
    intro later member load
    rcases List.mem_cons.mp member with rfl | member
    · exact absurd load other
    · exact free later member load
  · rintro ⟨free, apart⟩
    exact ⟨fun later member => free later (List.mem_cons_of_mem _ member),
      (List.pairwise_cons.mp apart).2⟩

/-- After the first segment has its pages, the rest needs pages that are free and none
of these. -/
theorem Claims.programFree_cons {before after : KernelState} {ph : ElfProgram}
    {rest : List ElfProgram} (claims : Claims pid (segmentPages ph) before after)
    (load : ph.pType = elfPtypeLoad) (here : SegmentFree before.pageinfo ph) :
    ProgramFree after.pageinfo rest ↔ ProgramFree before.pageinfo (ph :: rest) := by
  constructor
  · rintro ⟨free, apart⟩
    have unclaimed : ∀ later ∈ rest, later.pType = elfPtypeLoad → ∀ n,
        segmentMeets later n → ¬ segmentMeets ph n := by
      intro later member isLoad n wanted claimed
      obtain ⟨bound, unused⟩ := free later member isLoad n wanted
      rw [claims.taken ⟨n, bound⟩ claimed] at unused
      exact absurd unused Int.one_ne_zero
    refine ⟨?_, List.pairwise_cons.mpr ⟨?_, apart⟩⟩
    · intro later member isLoad
      rcases List.mem_cons.mp member with rfl | member
      · exact here
      · intro n wanted
        obtain ⟨bound, unused⟩ := free later member isLoad n wanted
        rw [claims.kept ⟨n, bound⟩ (unclaimed later member isLoad n wanted)] at unused
        exact ⟨bound, unused⟩
    · intro later member _ isLoad n claimed wanted
      exact unclaimed later member isLoad n wanted claimed
  · rintro ⟨free, apart⟩
    obtain ⟨first, apart⟩ := List.pairwise_cons.mp apart
    refine ⟨?_, apart⟩
    intro later member isLoad n wanted
    obtain ⟨bound, unused⟩ := free later (List.mem_cons_of_mem _ member) isLoad n wanted
    refine ⟨bound, ?_⟩
    rw [claims.kept ⟨n, bound⟩ fun claimed => first later member load isLoad n claimed wanted]
    exact unused

/-- The loop over the program headers faults, which well-formed segments do not, or
returns 0 exactly when the pages of all LOAD segments are free and apart. -/
theorem loadSegments_cases (ramimage : Memory) (programs : List ElfProgram)
    (state : KernelState) (tables : KernelTables image state.memory)
    (inUse : TablesInUse image state.pageinfo)
    (shared : (state.processes pid).pPagetable = image.kernelPagetable) :
    (∃ addr, loadSegments image pid ramimage programs state =
      .error (.kernelFault addr) ∧
      ∃ ph ∈ programs, ph.pType = elfPtypeLoad ∧ ¬ SegmentFormed ph) ∨
    ∃ r after, loadSegments image pid ramimage programs state = .ok (r, after) ∧
      LoadResult pid (programPages programs) state after r ∧
      (r = 0 ↔ ProgramFree state.pageinfo programs) := by
  induction programs generalizing state with
  | nil =>
      right
      refine ⟨0, state, rfl, ⟨Or.inl ⟨rfl, ?_⟩⟩, fun _ => ⟨?_, List.Pairwise.nil⟩,
        fun _ => rfl⟩
      · refine (Claims.refl pid state).congr ?_
        intro pn
        simp [programPages]
      · intro ph none
        cases none
  | cons ph rest ih =>
      unfold loadSegments
      by_cases load : ph.pType = elfPtypeLoad
      · rw [if_pos load]
        rcases programLoadSegment_cases tables inUse shared ph
          (fun i => ramimage (ph.pOffset + BitVec.ofNat 64 i).toNat) with
          ⟨addr, fault, deformed⟩ | ⟨r, middle, run, result, free⟩
        · rw [fault]
          exact Or.inl ⟨addr, rfl, ph, List.mem_cons_self, load, deformed⟩
        · rw [run, ok_bind]
          rcases result.result with ⟨rfl, claims⟩ | ⟨rfl, _⟩
          · simp only
            rw [if_neg (by decide)]
            have tail : ProgramFree middle.pageinfo rest ↔
                ProgramFree state.pageinfo (ph :: rest) :=
              claims.programFree_cons load (free.mp rfl)
            rcases ih middle (claims.tables inUse tables) (claims.tablesInUse inUse)
              (by rw [claims.processes]; exact shared) with
              ⟨addr, fault, other, member, deformed⟩ | ⟨r, after, later, more, all⟩
            · exact Or.inl ⟨addr, fault, other, List.mem_cons_of_mem _ member, deformed⟩
            · exact Or.inr ⟨r, after, later,
                (LoadResult.trans claims more).congr (programPages_cons_load load),
                all.trans tail⟩
          · simp only
            rw [if_pos (by decide)]
            refine Or.inr ⟨-1, middle, rfl, result.widen rfl fun pn here =>
              (programPages_cons_load load pn).mp (Or.inl here),
              fun zero => absurd zero (by decide), fun all => ?_⟩
            exact free.mpr (all.free ph List.mem_cons_self load)
      · rw [if_neg load]
        rcases ih state tables inUse shared with
          ⟨addr, fault, other, member, deformed⟩ | ⟨r, after, later, more, all⟩
        · exact Or.inl ⟨addr, fault, other, List.mem_cons_of_mem _ member, deformed⟩
        · exact Or.inr ⟨r, after, later, more.congr (programPages_cons_other load),
            all.trans (programFree_cons_other load)⟩

/-- Segments inside physical memory with pages of their own find them free. -/
theorem SegmentsFit.programFree {pageinfo : PhysicalPage → PhysicalPageinfo}
    {programs : List ElfProgram}
    (fit : SegmentsFit (fun pn => (pageinfo pn).refcount ≠ 0) programs) :
    ProgramFree pageinfo programs := by
  have each : ∀ ph ∈ programs, ph.pType = elfPtypeLoad → SegmentFree pageinfo ph :=
    fun ph member load => (fit.inside ph member load).free fun pn wanted =>
      not_not.mp (fit.unused ph member load pn wanted)
  refine ⟨each, fit.apart.imp_of_mem ?_⟩
  intro left right member _ apart leftLoad rightLoad n here there
  obtain ⟨bound, _⟩ := each left member leftLoad n here
  exact apart leftLoad rightLoad ⟨n, bound⟩ here there

def imagePages (image : KernelImage) (program : Fin 6) : PhysicalPage → Prop :=
  programPages (elfPrograms (image.ramimages program)
    (elfHeader (image.ramimages program)))

def imageSegments (image : KernelImage) (program : Fin 6) : List ElfProgram :=
  elfPrograms (image.ramimages program) (elfHeader (image.ramimages program))

/-- The program has the ELF magic number and its LOAD segments are well-formed. -/
structure ImageFormed (image : KernelImage) (program : Fin 6) : Prop where
  magic : (elfHeader (image.ramimages program)).eMagic = elfMagic
  segments : ∀ ph ∈ imageSegments image program, ph.pType = elfPtypeLoad → SegmentFormed ph

def imageEntry (image : KernelImage) (program : Fin 6) : UIntPtr :=
  (elfHeader (image.ramimages program)).eEntry

/-- Loading can stop at the magic number or by running into unmapped memory. -/
def LoadStop (stop : Stop) : Prop :=
  stop = .assertion .programMagic ∨ ∃ addr, stop = .kernelFault addr

theorem programLoad_cases (program : Fin 6) (state : KernelState)
    (tables : KernelTables image state.memory)
    (inUse : TablesInUse image state.pageinfo)
    (shared : (state.processes pid).pPagetable = image.kernelPagetable) :
    (∃ stop, programLoad image state pid program.val = .error stop ∧ LoadStop stop ∧
      ¬ ImageFormed image program) ∨
    (∃ middle, programLoad image state pid program.val =
        .ok (0, middle.setRegisters pid
          { (middle.processes pid).pRegisters with regRip := imageEntry image program }) ∧
      Claims pid (imagePages image program) state middle ∧
      ProgramFree state.pageinfo (imageSegments image program)) ∨
    ∃ after, programLoad image state pid program.val = .ok (-1, after) ∧
      LoadResult pid (imagePages image program) state after (-1) ∧
      ¬ ProgramFree state.pageinfo (imageSegments image program) := by
  have bound := program.isLt
  have valid : (0 : Int) ≤ program.val ∧ (program.val : Int) < 6 := by omega
  unfold programLoad
  rw [dif_pos valid]
  simp only [Int.toNat_natCast, Fin.eta]
  by_cases magic : (elfHeader (image.ramimages program)).eMagic = elfMagic
  · rw [assert_pos magic, ok_bind]
    rcases loadSegments_cases (image.ramimages program) (imageSegments image program)
      state tables inUse shared with
      ⟨addr, fault, ph, member, load, deformed⟩ | ⟨r, middle, run, result, free⟩
    · rw [imageSegments] at fault
      rw [fault]
      exact Or.inl ⟨_, rfl, Or.inr ⟨addr, rfl⟩,
        fun formed => deformed (formed.segments ph member load)⟩
    · rw [imageSegments] at run
      rw [run, ok_bind]
      right
      rcases result.result with ⟨rfl, claims⟩ | ⟨rfl, _⟩
      · exact Or.inl ⟨middle, rfl, claims, free.mp rfl⟩
      · exact Or.inr ⟨middle, rfl, result, fun all => absurd (free.mpr all) (by decide)⟩
  · have stops : assert ((elfHeader (image.ramimages program)).eMagic = elfMagic)
        .programMagic = .error (.assertion .programMagic) := if_neg magic
    rw [stops]
    exact Or.inl ⟨_, rfl, Or.inl rfl, fun formed => magic formed.magic⟩

structure ImageFits (image : KernelImage) (used : PhysicalPage → Prop) (program : Fin 6) :
    Prop where
  magic : (elfHeader (image.ramimages program)).eMagic = elfMagic
  segments : SegmentsFit used (elfPrograms (image.ramimages program)
    (elfHeader (image.ramimages program)))

theorem programLoad_ok {users : Nat} {active : Pid → Prop} (program : Fin 6)
    (state : KernelState) (tables : KernelTables image state.memory)
    (ok : PageinfoOk image users active state.pageinfo)
    (shared : (state.processes pid).pPagetable = image.kernelPagetable)
    (fits : ImageFits image (fun pn => (state.pageinfo pn).refcount ≠ 0) program) :
    ∃ after, programLoad image state pid program.val = .ok (0, after) := by
  rcases programLoad_cases program state tables ok.tablesInUse shared with
    ⟨_, _, _, deformed⟩ | ⟨middle, run, _⟩ | ⟨_, _, _, taken⟩
  · exact absurd ⟨fits.magic, fun ph member load =>
      (fits.segments.inside ph member load).formed⟩ deformed
  · exact ⟨_, run⟩
  · exact absurd fits.segments.programFree taken

end Loading

end OsLabs.Weensy
