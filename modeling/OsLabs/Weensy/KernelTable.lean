import OsLabs.Weensy.VirtualMemory
import OsLabs.Weensy.Boot

/-!
# The kernel page table

After `virtual_memory_init` the five static tables hold the identity map of
`[0, MEMSIZE_PHYSICAL)`, entry for entry.  `KernelTables` is that statement; what
the lookups report, and that mapping an address to itself again rewrites the entry
that is already there, both follow from it.
-/

set_option autoImplicit false

namespace OsLabs.Weensy

open OsLabs.ByteMemory OsLabs.RadixTree OsLabs.ExceptRules

/-! ## Where the tables are -/

section Addresses

variable (image : KernelImage)

theorem kernelPagetables_toNat {t : Nat} (bound : t < 5) :
    (image.kernelPagetables t).toNat = image.kernelPagetable.toNat + 4096 * t := by
  have inside := image.tablesEnd
  have below := image.endBelowStack
  rw [KernelImage.kernelPagetables, BitVec.toNat_add, BitVec.toNat_ofNat]
  omega

/-- `kernel_pagetables[t]` as a page. -/
def tablePage (t : Fin 5) : PageAddr :=
  ⟨image.kernelPagetables t.val, by
    rw [kernelPagetables_toNat image t.isLt]
    have := image.tablesAligned
    omega⟩

theorem tablePage_toNat (t : Fin 5) :
    (tablePage image t).addr.toNat = image.kernelPagetable.toNat + 4096 * t.val :=
  kernelPagetables_toNat image t.isLt

theorem tablePage_zero : (tablePage image 0).addr = image.kernelPagetable := by
  apply BitVec.eq_of_toNat_eq
  rw [tablePage_toNat]
  rfl

theorem tablePage_lt (t : Fin 5) : (tablePage image t).addr.toNat < 0x7F000 := by
  have inside := image.tablesEnd
  have below := image.endBelowStack
  have bound := t.isLt
  rw [tablePage_toNat]
  omega

theorem tablePage_inj {left right : Fin 5}
    (same : tablePage image left = tablePage image right) : left = right := by
  have equal := congrArg (fun page : PageAddr => page.addr.toNat) same
  simp only [tablePage_toNat] at equal
  omega

end Addresses

/-! ## What the tables hold -/

/-- The entry of the identity map for the `i`-th page. -/
def identityEntry (i : Fin 512) : PageEntry := BitVec.ofNat 64 (4096 * i.val) ||| 7#64

/-- The entries of the five tables once the first `mapped` pages are mapped. -/
def tableContents (image : KernelImage) (mapped : Nat) (t : Fin 5) (i : Fin 512) :
    PageEntry :=
  match t with
  | 0 => if i = 0 then tableEntry image 1 else 0#64
  | 1 => if i = 0 then tableEntry image 2 else 0#64
  | 2 => if i = 0 then tableEntry image 3
      else if i = 1 then tableEntry image 4 else 0#64
  | 3 => if i.val < mapped then identityEntry i else 0#64
  | 4 => 0#64

def TablesFilled (image : KernelImage) (mapped : Nat) (memory : Memory) : Prop :=
  ∀ t i, slots memory (tablePage image t) i = tableContents image mapped t i

def KernelTables (image : KernelImage) (memory : Memory) : Prop :=
  TablesFilled image 512 memory

theorem slots_congr {before after : Memory} {page : PageAddr}
    (same : AgreeOn before after page.addr.toNat 4096) (i : Fin 512) :
    slots after page i = slots before page i := by
  have bound := i.isLt
  simp only [slots, readEntry]
  rw [loadLE_congr (same.mono (by omega) (by omega))]

theorem KernelTables.congr {image : KernelImage} {before after : Memory}
    (tables : KernelTables image before)
    (same : AgreeOn before after image.kernelPagetable.toNat (5 * 4096)) :
    KernelTables image after := by
  intro t i
  have bound := t.isLt
  have place := tablePage_toNat image t
  rw [slots_congr (same.mono (by omega) (by omega)) i]
  exact tables t i

/-! ## The entries -/

theorem flags_eq : pteP ||| pteW ||| pteU = 7#64 := rfl

theorem tableEntry_eq (image : KernelImage) (t : Fin 5) :
    tableEntry image t.val = (tablePage image t).addr ||| 7#64 := by
  rw [tableEntry, BitVec.or_assoc, BitVec.or_assoc, ← flags_eq, BitVec.or_assoc]
  rfl

structure OpenEntry (pe : PageEntry) (page : PageAddr) : Prop where
  child : entryChild pe = some page
  bits : ∀ i < 3, pe.getLsbD i = true

theorem openEntry_of_page (page : PageAddr) : OpenEntry (page.addr ||| 7#64) page := by
  have table : ∀ i < 3, (7#64).getLsbD i = true := by decide
  refine ⟨?_, ?_⟩
  · have entry := newEntry_child page
    have base : pteAddr page.addr = page.addr := by
      apply BitVec.eq_of_toNat_eq
      rw [pteAddr_toNat]
      have := page.aligned
      omega
    rw [base, BitVec.or_assoc, BitVec.or_assoc, ← BitVec.or_assoc pteP, flags_eq]
      at entry
    exact entry
  · intro i low
    rw [BitVec.getLsbD_or, table i low, Bool.or_true]

theorem OpenEntry.present {pe : PageEntry} {page : PageAddr}
    (entry : OpenEntry pe page) : pe &&& pteP ≠ 0#64 := by
  rw [Ne, noP_iff, entry.bits 0 (by decide)]
  simp

theorem OpenEntry.pteAddr {pe : PageEntry} {page : PageAddr}
    (entry : OpenEntry pe page) : pteAddr pe = page.addr := by
  have child := entry.child
  rw [entryChild_of_present entry.present] at child
  exact congrArg PageAddr.addr (Option.some.inj child)

theorem tableEntry_open (image : KernelImage) (t : Fin 5) :
    OpenEntry (tableEntry image t.val) (tablePage image t) := by
  rw [tableEntry_eq]
  exact openEntry_of_page _

/-- The `i`-th physical page. -/
def physicalPageAddr (i : Fin 512) : PageAddr :=
  ⟨BitVec.ofNat 64 (4096 * i.val), by rw [BitVec.toNat_ofNat]; omega⟩

theorem physicalPageAddr_toNat (i : Fin 512) :
    (physicalPageAddr i).addr.toNat = 4096 * i.val := by
  have bound := i.isLt
  rw [physicalPageAddr, BitVec.toNat_ofNat]
  omega

theorem identityEntry_open (i : Fin 512) :
    OpenEntry (identityEntry i) (physicalPageAddr i) :=
  openEntry_of_page (physicalPageAddr i)

/-! ## Following an address -/

/-- The entries on the path of an address in the identity map. -/
def identityTrail (image : KernelImage) (va : UIntPtr) : List PageEntry :=
  [tableEntry image 1, tableEntry image 2, tableEntry image 3,
    identityEntry (pageindex va 3)]

theorem pageindex_zero_iff (va : UIntPtr) :
    (pageindex va 0 = 0 ∧ pageindex va 1 = 0 ∧ pageindex va 2 = 0) ↔
      va.toNat % 2 ^ 48 < memsizePhysical.toNat := by
  have limit : memsizePhysical.toNat = 2 ^ 21 := rfl
  simp only [Fin.ext_iff, pageindex_val, limit]
  simp only [Fin.val_zero, Fin.val_one, Fin.val_two, Nat.reduceMul, Nat.reduceAdd,
    Nat.reduceSub, Nat.reducePow]
  omega

theorem KernelTables.trail {image : KernelImage} {memory : Memory}
    (tables : KernelTables image memory) (va : UIntPtr) :
    RadixTree.trail entryChild (slots memory) (tablePage image 0) (vaPath va) =
      if va.toNat % 2 ^ 48 < memsizePhysical.toNat then some (identityTrail image va)
      else none := by
  have one := (tableEntry_open image 1).child
  have two := (tableEntry_open image 2).child
  have three := (tableEntry_open image 3).child
  have four := (tableEntry_open image 4).child
  have leaf := (identityEntry_open (pageindex va 3)).child
  have mapped : (pageindex va 3).val < 512 := (pageindex va 3).isLt
  simp only [Fin.val_one, Fin.val_two, show (3 : Fin 5).val = 3 from rfl,
    show (4 : Fin 5).val = 4 from rfl] at one two three four
  simp only [← pageindex_zero_iff]
  simp only [vaPath, vaUpper, List.cons_append, List.nil_append, RadixTree.trail]
  rw [tables 0]
  simp only [tableContents]
  by_cases first : pageindex va 0 = 0
  · simp only [first, if_true, one, Option.bind_some, tables 1, tableContents]
    by_cases second : pageindex va 1 = 0
    · simp only [second, if_true, two, Option.bind_some, tables 2, tableContents]
      by_cases third : pageindex va 2 = 0
      · simp only [third, if_true, three, Option.bind_some, tables 3, tableContents,
          mapped, leaf, Option.map_some, and_self, identityTrail]
      · rw [if_neg third]
        by_cases other : pageindex va 2 = 1
        · simp only [if_pos other, four, Option.bind_some, tables 4, tableContents,
            entryChild_zero, Option.bind_none, Option.map_none, third, and_false,
            if_false]
        · simp only [if_neg other, entryChild_zero, Option.bind_none, Option.map_none,
            third, and_false, if_false]
    · simp [second, entryChild_zero]
  · simp [first, entryChild_zero]

/-- What `virtual_memory_lookup` reports for the kernel page table. -/
def identityMapping (va : UIntPtr) : VaMapping :=
  if va.toNat % 2 ^ 48 < memsizePhysical.toNat then
    ⟨((va.toNat % 2 ^ 48 / 4096 : Nat) : Int), BitVec.ofNat 64 (va.toNat % 2 ^ 48),
      (pteP ||| pteW ||| pteU).setWidth 32⟩
  else .unmapped

theorem permsAlong_identityTrail (image : KernelImage) (va : UIntPtr) :
    permsAlong (identityTrail image va) = 7#64 := by
  have one := (tableEntry_open image 1).bits
  have two := (tableEntry_open image 2).bits
  have three := (tableEntry_open image 3).bits
  have leaf := (identityEntry_open (pageindex va 3)).bits
  apply BitVec.eq_of_getLsbD_eq
  intro i bound
  have table : ∀ i < 64, (7#64).getLsbD i = decide (i < 3) := by decide
  rw [permsAlong_getLsbD _ i bound, table i bound]
  by_cases low : i < 3
  · have each : (identityTrail image va).all (fun pe => pe.getLsbD i) = true := by
      simp only [identityTrail, List.all_cons, List.all_nil, leaf i low, Bool.and_true]
      have first := one i low
      have second := two i low
      have third := three i low
      simp only [Fin.val_one, Fin.val_two, show (3 : Fin 5).val = 3 from rfl]
        at first second third
      rw [first, second, third]
      rfl
    rw [each, Bool.and_true]
  · simp [low]

theorem KernelTables.lookup {image : KernelImage} {memory : Memory}
    (tables : KernelTables image memory) (va : UIntPtr) :
    virtualMemoryLookup memory image.kernelPagetable va = identityMapping va := by
  rw [← tablePage_zero, virtualMemoryLookup_eq, tables.trail, identityMapping]
  have limit : memsizePhysical.toNat = 2 ^ 21 := rfl
  split
  · next inside =>
      have index : (pageindex va 3).val = va.toNat % 2 ^ 48 / 4096 := by
        rw [pageindex_val, show ((3 : Fin 4).val) = 3 from rfl]
        omega
      have leaf := identityEntry_open (pageindex va 3)
      have frame : (pteAddr (identityEntry (pageindex va 3))).toNat =
          va.toNat % 2 ^ 48 / 4096 * 4096 := by
        rw [leaf.pteAddr, physicalPageAddr_toNat, index]
        omega
      have number : pageNumber (identityEntry (pageindex va 3)) =
          ((va.toNat % 2 ^ 48 / 4096 : Nat) : Int) := by
        rw [← pageNumber_pteAddr, pageNumber_of_small (by omega), frame]
        congr 1
        omega
      have address : pteAddr (identityEntry (pageindex va 3)) + pageOffset va =
          BitVec.ofNat 64 (va.toNat % 2 ^ 48) := by
        apply BitVec.eq_of_toNat_eq
        rw [BitVec.toNat_add, frame, pageOffset_toNat, BitVec.toNat_ofNat]
        omega
      simp only [mappingOf, permsAlong_identityTrail]
      simp only [identityTrail, List.getLastD_cons, List.getLastD_nil, number, address,
        flags_eq]
  · rfl

theorem KernelTables.lookup_pa {image : KernelImage} {memory : Memory}
    (tables : KernelTables image memory) {va : UIntPtr}
    (inside : va.toNat < memsizePhysical.toNat) :
    virtualMemoryLookup memory image.kernelPagetable va =
      ⟨((va.toNat / 4096 : Nat) : Int), va, 7#32⟩ := by
  have limit : memsizePhysical.toNat = 2 ^ 21 := rfl
  have low : va.toNat % 2 ^ 48 = va.toNat := Nat.mod_eq_of_lt (by omega)
  rw [tables.lookup, identityMapping, low, if_pos inside, BitVec.ofNat_toNat,
    BitVec.setWidth_eq]
  rfl

/-! ## Mapping in the kernel page table -/

theorem checkEntry_open {pe : PageEntry} {page : PageAddr} (entry : OpenEntry pe page)
    (inside : page.addr.toNat < memsizePhysical.toNat) : checkEntry pteAll pe = .ok () := by
  have sensible : pteAddr pe < memsizePhysical := by
    rw [entry.pteAddr, BitVec.lt_def]
    exact inside
  have writable : pe &&& pteW ≠ 0#64 := by
    rw [Ne, noW_iff, entry.bits 1 (by decide)]
    simp
  have user : pe &&& pteU ≠ 0#64 := by
    rw [Ne, noU_iff, entry.bits 2 (by decide)]
    simp
  have wantsW : permWord pteAll &&& pteW ≠ 0#64 := by decide
  have wantsU : permWord pteAll &&& pteU ≠ 0#64 := by decide
  rw [checkEntry, assert_pos sensible, ok_bind, if_pos wantsW, if_pos wantsU,
    assert_pos writable, assert_pos user]
  rfl

theorem lookupLevels_open {va : UIntPtr} {allocator : Allocator} {level : Fin 4}
    {rest : List (Fin 4)} {page next : PageAddr} {state : WalkState} {pe : PageEntry}
    (read : slots state.memory page (pageindex va level) = pe)
    (entry : OpenEntry pe next) (inside : next.addr.toNat < memsizePhysical.toNat) :
    lookupLevels va pteAll allocator (level :: rest) page.addr state =
      lookupLevels va pteAll allocator rest next.addr state := by
  have found : presentEntry va pteAll allocator level page.addr state =
      .ok (some pe, state) := by
    have here : readEntry state.memory page.addr (pageindex va level) = pe := read
    simp only [presentEntry, here, if_neg entry.present]
  rw [lookupLevels, found, ok_bind]
  simp only [checkEntry_open entry inside, ok_bind, entry.pteAddr]

theorem TablesFilled.lookupL4 {image : KernelImage} {mapped : Nat} {state : WalkState}
    (tables : TablesFilled image mapped state.memory) {va : UIntPtr}
    (inside : va.toNat < memsizePhysical.toNat) (allocator : Allocator) :
    lookupL4pagetable image.kernelPagetable va pteAll allocator state =
      .ok (some (tablePage image 3).addr, state) := by
  have limit : memsizePhysical.toNat = 0x200000 := rfl
  have low : va.toNat % 2 ^ 48 < memsizePhysical.toNat := by omega
  obtain ⟨first, second, third⟩ := (pageindex_zero_iff va).mpr low
  have below : ∀ t, (tablePage image t).addr.toNat < memsizePhysical.toNat := by
    intro t
    have := tablePage_lt image t
    omega
  have readOne : slots state.memory (tablePage image 0) (pageindex va 0) =
      tableEntry image 1 := by
    rw [tables, first]
    rfl
  have readTwo : slots state.memory (tablePage image 1) (pageindex va 1) =
      tableEntry image 2 := by
    rw [tables, second]
    rfl
  have readThree : slots state.memory (tablePage image 2) (pageindex va 2) =
      tableEntry image 3 := by
    rw [tables, third]
    rfl
  rw [lookupL4pagetable, ← tablePage_zero,
    lookupLevels_open readOne (tableEntry_open image 1) (below 1),
    lookupLevels_open readTwo (tableEntry_open image 2) (below 2),
    lookupLevels_open readThree (tableEntry_open image 3) (below 3)]
  rfl

/-- The entry that `virtual_memory_map` writes to map a page to itself. -/
theorem identity_requested {va : UIntPtr} (aligned : va.toNat % 4096 = 0)
    (inside : va.toNat < memsizePhysical.toNat) :
    va ||| permWord pteAll = identityEntry (pageindex va 3) := by
  have limit : memsizePhysical.toNat = 0x200000 := rfl
  have same : va = BitVec.ofNat 64 (4096 * (pageindex va 3).val) := by
    apply BitVec.eq_of_toNat_eq
    rw [BitVec.toNat_ofNat, pageindex_val, show ((3 : Fin 4).val) = 3 from rfl]
    omega
  rw [identityEntry, ← same]
  rfl

theorem mapLoop_step {image : KernelImage} {mapped pages : Nat} {state : WalkState}
    (tables : TablesFilled image mapped state.memory) {va : UIntPtr}
    (aligned : va.toNat % 4096 = 0) (inside : va.toNat < memsizePhysical.toNat)
    (lastIndex123 : Int) (l4pagetable : Option UIntPtr)
    (cached : index123 va = lastIndex123 →
      l4pagetable = some (tablePage image 3).addr) (allocator : Allocator) :
    mapLoop image.kernelPagetable pteAll allocator (pages + 1) va va lastIndex123
        l4pagetable state =
      mapLoop image.kernelPagetable pteAll allocator pages (va + pageSize)
        (va + pageSize) (index123 va) (some (tablePage image 3).addr)
        (writtenState state (tablePage image 3).addr (pageindex va 3)
          (identityEntry (pageindex va 3))) := by
  have found : cachedTable image.kernelPagetable va pteAll allocator lastIndex123
      l4pagetable state = .ok (some (tablePage image 3).addr, state) := by
    unfold cachedTable
    split
    · exact tables.lookupL4 inside allocator
    · next hit => rw [cached (not_not.mp hit)]
  have present : permWord pteAll &&& pteP ≠ 0#64 := by decide
  rw [mapLoop, found, ok_bind]
  simp only [if_pos present, identity_requested aligned inside, writtenState]

theorem writeEntry_same {memory : Memory} {page : PageAddr} {i : Fin 512}
    {pe : PageEntry} (read : slots memory page i = pe) :
    writeEntry memory page.addr i pe = memory := by
  subst read
  have bound := loadLE_lt memory (page.addr.toNat + 8 * i.val) 8
  apply storeLE_loadLE
  rw [slots, readEntry, BitVec.toNat_ofNat]
  exact (Nat.mod_eq_of_lt bound).symm

theorem virtualMemoryMap_identity {image : KernelImage} {state : WalkState}
    {va sz : UIntPtr} (aligned : va.toNat % 4096 = 0) (szAligned : sz.toNat % 4096 = 0)
    (inside : va.toNat + sz.toNat ≤ memsizePhysical.toNat) (allocator : Allocator) :
    virtualMemoryMap state image.kernelPagetable va va sz pteAll allocator =
      mapLoop image.kernelPagetable pteAll allocator (sz.toNat / 4096) va va (-1) none
        state := by
  have limit : memsizePhysical.toNat = 0x200000 := rfl
  have sum : (va + sz).toNat = va.toNat + sz.toNat := by
    rw [BitVec.toNat_add]
    omega
  have vaWord : va % pageSize = 0#64 := mod_pageSize_eq_zero.mpr aligned
  have szWord : sz % pageSize = 0#64 := mod_pageSize_eq_zero.mpr szAligned
  have wraps : va ≤ va + sz := by
    rw [BitVec.le_def]
    omega
  have exist : va + sz ≤ memsizePhysical := by
    rw [BitVec.le_def]
    omega
  have present : permWord pteAll &&& pteP ≠ 0#64 := by decide
  have sensible : 0 ≤ pteAll.toInt ∧ pteAll.toInt < 0x1000 := by decide
  have table : image.kernelPagetable % pageSize = 0#64 :=
    mod_pageSize_eq_zero.mpr image.tablesAligned
  have pages : (sz / pageSize).toNat = sz.toNat / 4096 := by
    rw [BitVec.toNat_udiv]
    rfl
  simp only [virtualMemoryMap, assert_pos vaWord, assert_pos szWord,
    assert_pos (Or.inl wraps), assert_pos wraps, assert_pos exist, assert_pos sensible,
    assert_pos table, ok_bind, if_pos present, pages]

/-- Mapping a page to itself in the kernel page table succeeds without a table and
changes nothing. -/
theorem KernelTables.map_page {image : KernelImage} {memory : Memory}
    (tables : KernelTables image memory) {addr : UIntPtr}
    (aligned : addr.toNat % 4096 = 0) (inside : addr.toNat < memsizePhysical.toNat)
    (calls : Nat) (allocator : Allocator) :
    virtualMemoryMap ⟨memory, calls⟩ image.kernelPagetable addr addr pageSize pteAll
      allocator = .ok (0, ⟨memory, calls⟩) := by
  have limit : memsizePhysical.toNat = 0x200000 := rfl
  have size : pageSize.toNat = 4096 := rfl
  have filled : TablesFilled image 512 (WalkState.mk memory calls).memory := tables
  have index : (pageindex addr 3).val < 512 := (pageindex addr 3).isLt
  have read : slots memory (tablePage image 3) (pageindex addr 3) =
      identityEntry (pageindex addr 3) := by
    rw [tables 3]
    exact if_pos index
  have uncached : index123 addr = -1 →
      (none : Option UIntPtr) = some (tablePage image 3).addr := by
    intro wrong
    rw [index123, BitVec.toInt_eq_toNat_cond, BitVec.toNat_setWidth,
      BitVec.toNat_ushiftRight, Nat.shiftRight_eq_div_pow] at wrong
    split at wrong <;> omega
  rw [virtualMemoryMap_identity aligned (by rw [size]) (by omega), size,
    mapLoop_step filled aligned inside (-1) none uncached]
  rw [mapLoop, writtenState, writeEntry_same read]

/-! ## virtual_memory_init -/

theorem tableContents_other (image : KernelImage) {t : Fin 5} (different : t ≠ 3)
    (i : Fin 512) (left right : Nat) :
    tableContents image left t i = tableContents image right t i := by
  fin_cases t
  · rfl
  · rfl
  · rfl
  · exact absurd rfl different
  · rfl

theorem TablesFilled.write_next {image : KernelImage} {mapped : Nat} {memory : Memory}
    (tables : TablesFilled image mapped memory) (bound : mapped < 512) :
    TablesFilled image (mapped + 1)
      (writeEntry memory (tablePage image 3).addr ⟨mapped, bound⟩
        (identityEntry ⟨mapped, bound⟩)) := by
  intro t i
  rw [slots_writeEntry, update]
  by_cases here : tablePage image t = tablePage image 3 ∧ i = ⟨mapped, bound⟩
  · have third := tablePage_inj image here.1
    rw [if_pos here, third, here.2]
    exact (if_pos (Nat.lt_succ_self mapped)).symm
  · rw [if_neg here, tables t i]
    by_cases third : t = 3
    · subst third
      have other : i.val ≠ mapped := by
        intro same
        exact here ⟨rfl, Fin.ext same⟩
      simp only [tableContents]
      have same : i.val < mapped ↔ i.val < mapped + 1 := by omega
      simp only [same]
    · exact tableContents_other image third i mapped (mapped + 1)

theorem mapLoop_fills (image : KernelImage) (allocator : Allocator) (pages : Nat)
    (mapped : Nat) (whole : mapped + pages = 512) (va : UIntPtr)
    (place : va.toNat = 4096 * mapped) (state : WalkState)
    (tables : TablesFilled image mapped state.memory) (lastIndex123 : Int)
    (l4pagetable : Option UIntPtr)
    (cached : index123 va = lastIndex123 →
      l4pagetable = some (tablePage image 3).addr) :
    ∃ memory, mapLoop image.kernelPagetable pteAll allocator pages va va lastIndex123
        l4pagetable state = .ok (0, ⟨memory, state.calls⟩) ∧
      KernelTables image memory := by
  induction pages generalizing mapped va state lastIndex123 l4pagetable with
  | zero =>
      have all : mapped = 512 := by omega
      subst all
      exact ⟨state.memory, rfl, tables⟩
  | succ pages ih =>
      have limit : memsizePhysical.toNat = 0x200000 := rfl
      have bound : mapped < 512 := by omega
      have size : pageSize.toNat = 4096 := rfl
      have next : (va + pageSize).toNat = 4096 * (mapped + 1) := by
        rw [BitVec.toNat_add, size]
        omega
      have value : (pageindex va 3).val = mapped := by
        rw [pageindex_val, show ((3 : Fin 4).val) = 3 from rfl]
        omega
      have index : pageindex va 3 = ⟨mapped, bound⟩ := Fin.ext value
      rw [mapLoop_step tables (by omega) (by omega) lastIndex123 l4pagetable cached,
        index]
      exact ih (mapped + 1) (by omega) (va + pageSize) next
        (writtenState state _ _ _) (tables.write_next bound) (index123 va) _
        (fun _ => rfl)

theorem linkedTables_filled (image : KernelImage) (memory : Memory) :
    TablesFilled image 0 (linkedTables image memory) := by
  have cleared : ∀ t i,
      slots (fill memory image.kernelPagetable.toNat (5 * 4096) 0) (tablePage image t)
        i = 0#64 := by
    intro t i
    have tBound := t.isLt
    have iBound := i.isLt
    have place := tablePage_toNat image t
    simp only [slots, readEntry]
    rw [loadLE_fill_zero _ _ _ _ _ (by omega) (by omega)]
  have distinct : ∀ left right : Fin 5, left ≠ right →
      tablePage image left ≠ tablePage image right := fun left right different same =>
    different (tablePage_inj image same)
  have root : image.kernelPagetables 0 = (tablePage image 0).addr := rfl
  have one : image.kernelPagetables 1 = (tablePage image 1).addr := rfl
  have two : image.kernelPagetables 2 = (tablePage image 2).addr := rfl
  have five : ∀ t : Fin 5, t = 0 ∨ t = 1 ∨ t = 2 ∨ t = 3 ∨ t = 4 := by decide
  intro t i
  simp only [linkedTables, root, one, two, slots_writeEntry, update]
  rcases five t with rfl | rfl | rfl | rfl | rfl
  · by_cases first : i = 0 <;>
      simp [tableContents, cleared, first, distinct 0 1, distinct 0 2]
  · by_cases first : i = 0 <;>
      simp [tableContents, cleared, first, distinct 1 0, distinct 1 2]
  · by_cases first : i = 0
    · subst first
      simp [tableContents]
    · by_cases second : i = 1 <;>
        simp [tableContents, cleared, first, second, distinct 2 0, distinct 2 1]
  · simp [tableContents, cleared, distinct 3 0, distinct 3 1, distinct 3 2]
  · simp [tableContents, cleared, distinct 4 0, distinct 4 1, distinct 4 2]

theorem linkedTables_map (image : KernelImage) (memory : Memory) (calls : Nat)
    (allocator : Allocator) :
    ∃ after, virtualMemoryMap ⟨linkedTables image memory, calls⟩ image.kernelPagetable 0#64
        0#64 memsizePhysical pteAll allocator = .ok (0, ⟨after, calls⟩) ∧
      KernelTables image after := by
  have uncached : index123 0#64 = -1 →
      (none : Option UIntPtr) = some (tablePage image 3).addr := by
    intro wrong
    exact absurd wrong (by decide)
  have pages : memsizePhysical.toNat / 4096 = 512 := rfl
  rw [virtualMemoryMap_identity (by decide) (by decide) (by decide), pages]
  exact mapLoop_fills image allocator 512 0 (by decide) 0#64 rfl
    ⟨linkedTables image memory, calls⟩ (linkedTables_filled image memory) (-1) none uncached

theorem virtualMemoryInit_spec (image : KernelImage) (state : KernelState) :
    ∃ memory, virtualMemoryInit image state =
        .ok { state with memory := memory, cr3 := image.kernelPagetable } ∧
      KernelTables image memory := by
  obtain ⟨memory, mapped, tables⟩ := linkedTables_map image state.memory 0 none
  refine ⟨memory, ?_, tables⟩
  rw [virtualMemoryInit, mapped]
  rfl

end OsLabs.Weensy
