import OsLabs.Weensy.KernelTable

/-!
# The kernel invariant

Between exceptions the five tables hold the identity map, the pages that
`pageinfo_init` gave away still have that owner, and every other page is free or
owned once by a process that exists.  The consistency checks of kernel.c pass in
every such state.
-/

set_option autoImplicit false

namespace OsLabs.Weensy

open OsLabs.ByteMemory OsLabs.ExceptRules

/-! ## Physical page numbers -/

def physicalPage (addr : UIntPtr) : PhysicalPage := Fin.ofNat nPages (addr.toNat / 4096)

theorem physicalPage_val {addr : UIntPtr} (inside : addr.toNat < memsizePhysical.toNat) :
    (physicalPage addr).val = addr.toNat / 4096 := by
  have limit : memsizePhysical.toNat = 4096 * nPages := rfl
  rw [physicalPage, Fin.val_ofNat]
  exact Nat.mod_eq_of_lt (by omega)

theorem pageAddress_toNat (pn : PhysicalPage) : (pageAddress pn).toNat = 4096 * pn.val := by
  have bound : pn.val < 512 := pn.isLt
  rw [pageAddress, BitVec.toNat_ofNat]
  omega

theorem pageAddress_physicalPage {addr : UIntPtr} (aligned : addr.toNat % 4096 = 0)
    (inside : addr.toNat < memsizePhysical.toNat) :
    pageAddress (physicalPage addr) = addr := by
  apply BitVec.eq_of_toNat_eq
  rw [pageAddress_toNat, physicalPage_val inside]
  omega

theorem pageinfoIndex_val {pn : Nat} (bound : pn < nPages) :
    pageinfoIndex (pn : Int) = .ok ⟨pn, bound⟩ := by
  have inside : (0 : Int) ≤ pn ∧ (pn : Int) < nPages := by omega
  simp only [pageinfoIndex, dif_pos inside, Int.toNat_natCast]

theorem pageinfoIndex_pageNumber {addr : UIntPtr}
    (inside : addr.toNat < memsizePhysical.toNat) :
    pageinfoIndex (pageNumber addr) = .ok (physicalPage addr) := by
  have limit : memsizePhysical.toNat = 0x200000 := rfl
  have pages : nPages = 512 := rfl
  rw [pageNumber_of_small (by omega), pageinfoIndex_val (by omega)]
  congr 1
  exact Fin.ext (physicalPage_val inside).symm

/-! ## assign_physical_page -/

/-- The condition under which `assign_physical_page` succeeds. -/
def Assignable (pageinfo : PhysicalPage → PhysicalPageinfo) (addr : UIntPtr) : Prop :=
  addr.toNat % 4096 = 0 ∧ addr.toNat < memsizePhysical.toNat ∧
    (pageinfo (physicalPage addr)).refcount = 0

instance (pageinfo : PhysicalPage → PhysicalPageinfo) (addr : UIntPtr) :
    Decidable (Assignable pageinfo addr) :=
  inferInstanceAs (Decidable (_ ∧ _ ∧ _))

theorem low12_eq_zero {addr : UIntPtr} :
    addr &&& 0xFFF#64 = 0#64 ↔ addr.toNat % 4096 = 0 := by
  rw [← BitVec.toNat_inj, low12_toNat]
  rfl

theorem assignPhysicalPage_eq (state : KernelState) (addr : UIntPtr) (owner : Int) :
    assignPhysicalPage state addr owner =
      .ok (if Assignable state.pageinfo addr then
        (0, state.setPageinfo (physicalPage addr) ⟨owner, 1⟩) else (-1, state)) := by
  unfold assignPhysicalPage
  by_cases aligned : addr.toNat % 4096 = 0
  · rw [if_neg (not_not.mpr (low12_eq_zero.mpr aligned))]
    by_cases inside : addr.toNat < memsizePhysical.toNat
    · rw [if_neg (by rw [BitVec.le_def]; omega), pageinfoIndex_pageNumber inside,
        ok_bind]
      by_cases unused : (state.pageinfo (physicalPage addr)).refcount = 0
      · rw [if_neg (not_not.mpr unused), if_pos ⟨aligned, inside, unused⟩]
      · rw [if_pos unused, if_neg fun able => unused able.2.2]
    · rw [if_pos (by rw [BitVec.le_def]; omega), if_neg fun able => inside able.2.1]
  · rw [if_pos fun zero => aligned (low12_eq_zero.mp zero),
      if_neg fun able => aligned able.1]

/-! ## pageinfo -/

/-- The page of `kernel_pagetables[t]`. -/
def tableNumber (image : KernelImage) (t : Fin 5) : PhysicalPage :=
  physicalPage (tablePage image t).addr

/-- What `pageinfo` holds while `users` processes refer to the kernel page table and
pages belong to the processes in `active`. -/
structure PageinfoOk (image : KernelImage) (users : Nat) (active : Pid → Prop)
    (pageinfo : PhysicalPage → PhysicalPageinfo) : Prop where
  system : ∀ pn, initialOwner image (pageAddress pn) ≠ poFree →
    pageinfo pn = ⟨initialOwner image (pageAddress pn),
      if pn = tableNumber image 0 then 1 + users else 1⟩
  user : ∀ pn, initialOwner image (pageAddress pn) = poFree →
    pageinfo pn = ⟨poFree, 0⟩ ∨
      ∃ pid, active pid ∧ pageinfo pn = ⟨((pid.val : Nat) : Int), 1⟩

theorem initialOwner_cases (image : KernelImage) (addr : UIntPtr) :
    initialOwner image addr = poReserved ∨ initialOwner image addr = poKernel ∨
      initialOwner image addr = poFree := by
  unfold initialOwner
  split
  · exact Or.inl rfl
  · split
    · exact Or.inr (Or.inl rfl)
    · exact Or.inr (Or.inr rfl)

theorem tablePage_below (image : KernelImage) (t : Fin 5) :
    (tablePage image t).addr.toNat < memsizePhysical.toNat := by
  have below := tablePage_lt image t
  have limit : memsizePhysical.toNat = 0x200000 := rfl
  omega

theorem pageAddress_tableNumber (image : KernelImage) (t : Fin 5) :
    pageAddress (tableNumber image t) = (tablePage image t).addr :=
  pageAddress_physicalPage (tablePage image t).aligned (tablePage_below image t)

theorem initialOwner_table (image : KernelImage) (t : Fin 5) :
    initialOwner image (pageAddress (tableNumber image t)) = poKernel := by
  have place := tablePage_toNat image t
  have start := image.tablesStart
  have inside := image.tablesEnd
  have below := tablePage_lt image t
  have bound := t.isLt
  have kernelStart : kernelStartAddr.toNat = 0x40000 := rfl
  have io : ioPhysMem.toNat = 0xA0000 := rfl
  rw [pageAddress_tableNumber]
  have unreserved : ¬ physicalMemoryIsreserved (tablePage image t).addr := by
    unfold physicalMemoryIsreserved
    rw [← BitVec.toNat_inj, BitVec.le_def, BitVec.toNat_ofNat]
    omega
  have kernel : kernelStartAddr ≤ (tablePage image t).addr ∧
      (tablePage image t).addr < image.kernelEnd := by
    rw [BitVec.le_def, BitVec.lt_def]
    omega
  rw [initialOwner, if_neg unreserved, if_pos (Or.inl kernel)]

theorem tableNumber_inj {image : KernelImage} {left right : Fin 5}
    (same : tableNumber image left = tableNumber image right) : left = right := by
  have addresses := congrArg pageAddress same
  rw [pageAddress_tableNumber, pageAddress_tableNumber] at addresses
  exact tablePage_inj image (PageAddr.ext addresses)

section Pageinfo

variable {image : KernelImage} {users : Nat} {active : Pid → Prop}
  {pageinfo : PhysicalPage → PhysicalPageinfo}

theorem PageinfoOk.root (ok : PageinfoOk image users active pageinfo) :
    pageinfo (tableNumber image 0) = ⟨poKernel, 1 + users⟩ := by
  have owner := initialOwner_table image 0
  rw [ok.system _ (by rw [owner]; decide), owner, if_pos rfl]

theorem PageinfoOk.lower (ok : PageinfoOk image users active pageinfo) {t : Fin 5}
    (below : t ≠ 0) : pageinfo (tableNumber image t) = ⟨poKernel, 1⟩ := by
  have owner := initialOwner_table image t
  have different : tableNumber image t ≠ tableNumber image 0 := fun same =>
    below (tableNumber_inj same)
  rw [ok.system _ (by rw [owner]; decide), owner, if_neg different]

theorem PageinfoOk.owner_range (ok : PageinfoOk image users active pageinfo)
    (pn : PhysicalPage) : -2 ≤ (pageinfo pn).owner ∧ (pageinfo pn).owner < 16 := by
  by_cases kept : initialOwner image (pageAddress pn) = poFree
  · rcases ok.user pn kept with unused | ⟨pid, _, owned⟩
    · rw [unused]
      decide
    · rw [owned]
      have bound : pid.val < 16 := pid.isLt
      simp only
      omega
  · rw [ok.system pn kept]
    have reserved : poReserved = -1 := rfl
    have kernel : poKernel = -2 := rfl
    have free : poFree = 0 := rfl
    rcases initialOwner_cases image (pageAddress pn) with owner | owner | owner <;>
      simp only [owner] <;> omega

/-- A page in use whose owner is a process belongs to an active one. -/
theorem PageinfoOk.owner_active (ok : PageinfoOk image users active pageinfo)
    {pn : PhysicalPage} (used : (pageinfo pn).refcount > 0)
    (process : (pageinfo pn).owner ≥ 0) :
    ∃ pid, active pid ∧ (pageinfo pn).owner = pid.val := by
  by_cases kept : initialOwner image (pageAddress pn) = poFree
  · rcases ok.user pn kept with unused | ⟨pid, activePid, owned⟩
    · rw [unused] at used
      exact absurd used (by decide)
    · exact ⟨pid, activePid, by rw [owned]⟩
  · rw [ok.system pn kept] at process
    have reserved : poReserved = -1 := rfl
    have kernel : poKernel = -2 := rfl
    rcases initialOwner_cases image (pageAddress pn) with owner | owner | owner
    · simp only [owner] at process
      omega
    · simp only [owner] at process
      omega
    · exact absurd owner kept

theorem PageinfoOk.assignable_user (ok : PageinfoOk image users active pageinfo)
    {pn : PhysicalPage} (unused : (pageinfo pn).refcount = 0) :
    initialOwner image (pageAddress pn) = poFree := by
  by_contra kept
  rw [ok.system pn kept] at unused
  simp only at unused
  split at unused <;> omega

theorem PageinfoOk.assign (ok : PageinfoOk image users active pageinfo)
    {pn : PhysicalPage} (unused : (pageinfo pn).refcount = 0) {pid : Pid}
    (activePid : active pid) :
    PageinfoOk image users active
      (Function.update pageinfo pn ⟨((pid.val : Nat) : Int), 1⟩) := by
  have user := ok.assignable_user unused
  refine ⟨?_, ?_⟩
  · intro other kept
    have different : other ≠ pn := by
      intro same
      exact kept (by rw [same, user])
    rw [Function.update_of_ne different]
    exact ok.system other kept
  · intro other kept
    by_cases same : other = pn
    · subst same
      rw [Function.update_self]
      exact Or.inr ⟨pid, activePid, rfl⟩
    · rw [Function.update_of_ne same]
      exact ok.user other kept

end Pageinfo

/-! ## The invariant -/

def Active (state : KernelState) (pid : Pid) : Prop :=
  (state.processes pid).pState ≠ .free

structure KernelInv (image : KernelImage) (state : KernelState) : Prop where
  tables : KernelTables image state.memory
  pageinfo : PageinfoOk image (usersOf state image.kernelPagetable) (Active state)
    state.pageinfo
  pids : ∀ pid, (state.processes pid).pPid = pid
  processZero : (state.processes 0).pState = .free
  shared : ∀ pid, Active state pid →
    (state.processes pid).pPagetable = image.kernelPagetable

/-- The invariant does not speak about registers, clocks or the log, and it allows
every pageinfo that is right for the same processes. -/
theorem KernelInv.congr {image : KernelImage} {before after : KernelState}
    (inv : KernelInv image before) (tables : KernelTables image after.memory)
    (pageinfo : PageinfoOk image (usersOf before image.kernelPagetable) (Active before)
      after.pageinfo)
    (pids : ∀ pid, (after.processes pid).pPid = (before.processes pid).pPid)
    (free : ∀ pid, (after.processes pid).pState = .free ↔
      (before.processes pid).pState = .free)
    (pagetables : ∀ pid, Active before pid →
      (after.processes pid).pPagetable = (before.processes pid).pPagetable) :
    KernelInv image after := by
  have users : ∀ pagetable, usersOf after pagetable = usersOf before pagetable := by
    intro pagetable
    refine List.countP_congr ?_
    intro pid _
    by_cases activePid : Active before pid
    · simp only [ne_eq, free, pagetables pid activePid]
    · simp only [Active, not_not] at activePid
      simp only [ne_eq, free, activePid, not_true, false_and]
  have active : Active after = Active before := by
    funext pid
    simp only [Active, ne_eq, free pid]
  refine ⟨tables, ?_, ?_, ?_, ?_⟩
  · rw [users, active]
    exact pageinfo
  · intro pid
    rw [pids]
    exact inv.pids pid
  · exact (free 0).mpr inv.processZero
  · intro pid activePid
    rw [active] at activePid
    rw [pagetables pid activePid]
    exact inv.shared pid activePid

/-! ## The checks pass -/

theorem pagesBelow_spec {addr limit : Nat} {va : UIntPtr} (small : limit ≤ 2 ^ 63)
    (member : va ∈ pagesBelow addr limit) : addr ≤ va.toNat ∧ va.toNat < limit := by
  rw [pagesBelow, List.mem_map] at member
  obtain ⟨i, range, rfl⟩ := member
  have bound := List.mem_range.mp range
  rw [BitVec.toNat_ofNat]
  omega

section Checks

variable {image : KernelImage} {state : KernelState}

theorem setPagetable_ok (tables : KernelTables image state.memory) :
    setPagetable image state image.kernelPagetable =
      .ok { state with cr3 := image.kernelPagetable } := by
  have limit : memsizePhysical.toNat = 0x200000 := rfl
  have below := image.endBelowStack
  have handler := image.handlerInside
  have map := image.mapInside
  have inside := image.tablesEnd
  have lookup : ∀ va : UIntPtr, va.toNat < memsizePhysical.toNat →
      (virtualMemoryLookup state.memory image.kernelPagetable va).pa = va := by
    intro va low
    rw [tables.lookup_pa low]
  have aligned : pageOffset image.kernelPagetable = 0#64 :=
    low12_eq_zero.mpr image.tablesAligned
  simp only [setPagetable, assert_pos aligned,
    assert_pos (lookup image.defaultIntHandler (by omega)),
    assert_pos (lookup image.kernelPagetable (by omega)),
    assert_pos (lookup image.virtualMemoryMapCode (by omega)), ok_bind]

theorem pteAddr_of_aligned {addr : UIntPtr} (aligned : addr.toNat % 4096 = 0) :
    pteAddr addr = addr := by
  apply BitVec.eq_of_toNat_eq
  rw [pteAddr_toNat]
  omega

theorem checkPageTableMappings_ok (tables : KernelTables image state.memory) :
    checkPageTableMappings image state image.kernelPagetable = .ok () := by
  have limit : memsizePhysical.toNat = 0x200000 := rfl
  have below := image.endBelowStack
  have aligned := pteAddr_of_aligned image.tablesAligned
  have writable : (7#32 : BitVec 32) &&& pteW.setWidth 32 ≠ 0#32 := by decide
  have kstack : (kernelStackTop - pageSize).toNat < memsizePhysical.toNat := by decide
  have loop : (pagesBelow kernelStartAddr.toNat image.kernelEnd.toNat).forM
      (fun va => do
        let vam := virtualMemoryLookup state.memory image.kernelPagetable va
        assert (vam.pa = va) .checkKernelIdentity
        if image.startData ≤ va then
          assert (vam.perm &&& pteW.setWidth 32 ≠ 0#32) .checkKernelDataWritable) =
      .ok () := by
    refine forM_ok ?_
    intro va member
    have range := pagesBelow_spec (by omega) member
    have inside : va.toNat < memsizePhysical.toNat := by omega
    simp only [tables.lookup_pa inside, assert_pos, ok_bind]
    split
    · exact assert_pos writable
    · rfl
  unfold checkPageTableMappings
  rw [assert_pos aligned, ok_bind, loop, ok_bind]
  simp only [tables.lookup_pa kstack, assert_pos, ok_bind]
  exact assert_pos writable

def linkedFrom (t : Fin 5) : List (Fin 5) :=
  match t with
  | 0 => [1]
  | 1 => [2]
  | 2 => [3, 4]
  | _ => []

theorem KernelTables.linked (tables : KernelTables image state.memory) {t : Fin 5}
    (upper : t.val < 3) {index : Fin 512}
    (present : slots state.memory (tablePage image t) index ≠ 0#64) :
    ∃ lower ∈ linkedFrom t, pteAddr (slots state.memory (tablePage image t) index) =
      (tablePage image lower).addr := by
  have next : ∀ lower : Fin 5,
      pteAddr (tableEntry image lower.val) = (tablePage image lower).addr :=
    fun lower => (tableEntry_open image lower).pteAddr
  rw [tables t] at present ⊢
  fin_cases t
  · by_cases first : index = 0
    · exact ⟨1, by simp [linkedFrom], by simpa [tableContents, first] using next 1⟩
    · simp [tableContents, first] at present
  · by_cases first : index = 0
    · exact ⟨2, by simp [linkedFrom], by simpa [tableContents, first] using next 2⟩
    · simp [tableContents, first] at present
  · by_cases first : index = 0
    · exact ⟨3, by simp [linkedFrom], by simpa [tableContents, first] using next 3⟩
    · by_cases second : index = 1
      · exact ⟨4, by simp [linkedFrom], by simpa [tableContents, second] using next 4⟩
      · simp [tableContents, first, second] at present
  · simp at upper
  · simp at upper

theorem checkLevel_ok (tables : KernelTables image state.memory) (t : Fin 5)
    {levels : Nat} {refcount : Int}
    (info : state.pageinfo (tableNumber image t) = ⟨poKernel, refcount⟩)
    (below : levels ≠ 0 → t.val < 3)
    (next : ∀ rest, levels = rest + 1 → ∀ lower ∈ linkedFrom t,
      checkPageTableOwnershipLevel state poKernel rest (tablePage image lower).addr 1 =
        .ok ()) :
    checkPageTableOwnershipLevel state poKernel levels (tablePage image t).addr
      refcount = .ok () := by
  have inside := tablePage_below image t
  have limit : memsizePhysical.toNat = 0x200000 := rfl
  have pages : nPages = 512 := rfl
  have number : pageNumber (tablePage image t).addr < (nPages : Int) := by
    rw [pageNumber_of_small (by omega)]
    omega
  have entry : state.pageinfo (physicalPage (tablePage image t).addr) =
      ⟨poKernel, refcount⟩ := info
  unfold checkPageTableOwnershipLevel
  rw [assert_pos number, ok_bind, pageinfoIndex_pageNumber inside, ok_bind]
  simp only [entry, assert_pos, ok_bind]
  cases levels with
  | zero => rfl
  | succ rest =>
      refine forM_ok ?_
      intro index _
      split
      · next present =>
          obtain ⟨lower, member, address⟩ := tables.linked (below (by simp)) present
          have step := next rest rfl lower member
          rw [← address] at step
          exact step
      · rfl

theorem checkPageTableOwnership_ok (tables : KernelTables image state.memory)
    (ok : PageinfoOk image (usersOf state image.kernelPagetable) (Active state)
      state.pageinfo) (pid : Int) :
    checkPageTableOwnership image state image.kernelPagetable pid = .ok () := by
  have third : ∀ t : Fin 5, t ≠ 0 →
      checkPageTableOwnershipLevel state poKernel 0 (tablePage image t).addr 1 =
        .ok () := fun t lower =>
    checkLevel_ok tables t (ok.lower lower) (absurd rfl) fun _ wrong => by cases wrong
  have second : checkPageTableOwnershipLevel state poKernel 1 (tablePage image 2).addr 1 =
      .ok () := by
    refine checkLevel_ok tables 2 (ok.lower (by decide)) (fun _ => by decide) ?_
    intro rest same lower member
    cases same
    refine third lower ?_
    rintro rfl
    exact absurd member (by decide)
  have first : checkPageTableOwnershipLevel state poKernel 2 (tablePage image 1).addr 1 =
      .ok () := by
    refine checkLevel_ok tables 1 (ok.lower (by decide)) (fun _ => by decide) ?_
    intro rest same lower member
    cases same
    rw [List.mem_singleton.mp member]
    exact second
  rw [checkPageTableOwnership, if_pos rfl, ← tablePage_zero]
  refine checkLevel_ok tables 0 ?_ (fun _ => by decide) ?_
  · rw [tablePage_zero]
    exact ok.root
  · intro rest same lower member
    cases same
    rw [List.mem_singleton.mp member]
    exact first

theorem KernelInv.checkVirtualMemory_ok (inv : KernelInv image state) :
    checkVirtualMemory image state = .ok () := by
  have processes : (List.finRange nproc).forM (fun pid => do
      let proc := state.processes pid
      if proc.pState ≠ .free ∧ proc.pPagetable ≠ image.kernelPagetable then
        checkPageTableMappings image state proc.pPagetable
        checkPageTableOwnership image state proc.pPagetable pid.val) =
      (.ok () : Except Stop Unit) := by
    refine forM_ok ?_
    intro pid _
    have shared : ¬ ((state.processes pid).pState ≠ .free ∧
        (state.processes pid).pPagetable ≠ image.kernelPagetable) := by
      rintro ⟨active, own⟩
      exact own (inv.shared pid active)
    exact if_neg shared
  have pages : (List.finRange nPages).forM (fun pn => do
      let info := state.pageinfo pn
      if info.refcount > 0 ∧ info.owner ≥ 0 then
        let proc ← processAt state info.owner
        assert (proc.pState ≠ .free) .checkOwnerActive) =
      (.ok () : Except Stop Unit) := by
    refine forM_ok ?_
    intro pn _
    simp only
    split
    · next used =>
        obtain ⟨pid, active, owner⟩ := inv.pageinfo.owner_active used.1 used.2
        have bound : pid.val < 16 := pid.isLt
        have found : processAt state pid.val = .ok (state.processes pid) := by
          have inside : (0 : Int) ≤ pid.val ∧ (pid.val : Int) < nproc := by omega
          simp only [processAt, dif_pos inside, Int.toNat_natCast, Fin.eta]
        rw [owner, found, ok_bind]
        exact assert_pos active
    · rfl
  unfold checkVirtualMemory
  rw [assert_pos inv.processZero, ok_bind, checkPageTableMappings_ok inv.tables, ok_bind,
    checkPageTableOwnership_ok inv.tables inv.pageinfo, ok_bind, processes, ok_bind]
  exact pages

end Checks

end OsLabs.Weensy
