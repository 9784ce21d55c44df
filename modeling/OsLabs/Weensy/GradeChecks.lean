import OsLabs.Weensy.DumpRuns

/-!
# The checks of parse_log.py

Every check looks at the pages of one tick as the reader has them.  On an instance that
holds what a kernel state does, its verdict is a property of the page tables of the
processes and of the owners of the physical pages.
-/

set_option autoImplicit false

namespace OsLabs.Weensy

open OsLabs.ExceptRules

/-! ## The functions of MemMapInstance -/

inductive CheckError where
  | indexError | typeError
  deriving DecidableEq, Repr

/-- `KERNEL_LIMIT` of parse_log.py. -/
def parseKernelLimit : Nat := 0x100000 / 4096

/-- `CGA_BLOCK`. -/
def cgaBlock : Nat := 0xB8000 / 4096

/-- `PTE_W` of parse_log.py. -/
def parsePteW : Int := 2

/-- `PHYSICAL_UNALLOCATED_OFFSET`. -/
def physicalUnallocatedOffset : Nat := 17

namespace MemMapInstance

/-- `self.vm_state.items()`, oldest first. -/
def items (memMap : MemMapInstance) : List (Int × List VMEntry) :=
  (memMap.vmState.entries.map fun entry => (entry.1, entry.2)).reverse

/-- The pages from `KERNEL_LIMIT` on; the loops pass over the others. -/
def userPages (entries : List VMEntry) : List VMEntry := entries.drop parseKernelLimit

def isKernelIsolated (memMap : MemMapInstance) : Bool :=
  memMap.items.all fun (_, entries) =>
    (entries.take parseKernelLimit).zipIdx.all fun (entry, i) =>
      !(decide (i ≠ cgaBlock) && decide (entry.ua ≠ 0))

def areProcessesIsolated (memMap : MemMapInstance) : Bool :=
  memMap.items.all fun (processId, entries) =>
    (userPages entries).all fun entry =>
      !(decide (entry.owner ≠ 0) && decide (entry.owner ≠ processId) && decide (entry.ua ≠ 0))

/-- The loop ends with the first page of a process, or at `KERNEL_LIMIT`. -/
def isVPAUsed (memMap : MemMapInstance) : Except CheckError Bool :=
  match memMap.pmState with
  | none => .error .typeError
  | some pages =>
      .ok (((pages.take parseKernelLimit).drop physicalUnallocatedOffset).any fun entry =>
        decide (entry.owner ≠ 0) && decide (entry.owner ≤ 4))

/-- `occupancy[process_id]`. -/
def occupancy (processId : Int) (entries : List VMEntry) : Nat :=
  (userPages entries).countP fun entry =>
    decide (entry.owner ≠ 0) && decide (entry.owner = processId) && decide (entry.ua ≠ 0)

def areProcessAddressesOverlapping (memMap : MemMapInstance) : Bool :=
  memMap.items.any fun (processId, entries) => decide (64 < occupancy processId entries)

def checkOwnershipInvariant (memMap : MemMapInstance) : Bool :=
  memMap.items.all fun (processId, entries) =>
    (userPages entries).all fun entry =>
      !(decide (entry.owner ≠ 0) && decide (entry.owner = processId) && decide (entry.ua = 0))

/-- `entries[i]`. -/
def entryAt (entries : List VMEntry) (i : Nat) : Except CheckError VMEntry :=
  match entries[i]? with
  | some entry => .ok entry
  | none => .error .indexError

/-- A loop that returns `False` at the first item that is not good. -/
def allItems (good : Int → List VMEntry → Except CheckError Bool) :
    List (Int × List VMEntry) → Except CheckError Bool
  | [] => .ok true
  | (processId, entries) :: rest => do
      if ← good processId entries then allItems good rest else .ok false

def checkCGAAccessInvariant (memMap : MemMapInstance) : Except CheckError Bool :=
  allItems (fun _ entries => do
    let entry ← entryAt entries cgaBlock
    .ok (decide (entry.ua ≠ 0))) memMap.items

def isForkOK (memMap : MemMapInstance) : Except CheckError Bool :=
  allItems (fun processId entries => do
    let entry ← entryAt entries parseKernelLimit
    .ok (!(decide (entry.owner = 0) ||
      decide (entry.owner ≠ processId) && decide (Int.land entry.perm parsePteW ≠ 0))))
    memMap.items

end MemMapInstance

/-! ## What the checks are about -/

section Meaning

variable (state : KernelState)

/-- The process reaches the physical page at virtual page `i`, with some permissions. -/
def Reaches (pid : Pid) (i : Nat) (page : PhysicalPage) (perm : BitVec 32) : Prop :=
  let vam := virtualMemoryLookup state.memory (state.processes pid).pPagetable
    (BitVec.ofNat 64 (4096 * i))
  vam.pn = page.val ∧ vam.perm = perm

/-- With `PTE_U`. -/
def UserReaches (pid : Pid) (i : Nat) (page : PhysicalPage) : Prop :=
  ∃ perm, Reaches state pid i page perm ∧ perm &&& 4#32 ≠ 0#32

/-- No process can use a page of the kernel but the console. -/
def KernelIsolated : Prop :=
  ∀ pid, Active state pid → ∀ i < 256, i ≠ 184 → ∀ page, ¬ UserReaches state pid i page

/-- No process can use a page of another one, or of the kernel, above the kernel. -/
def ProcessesIsolated : Prop :=
  ∀ pid, Active state pid → ∀ i, 256 ≤ i → i < 768 → ∀ page, UserReaches state pid i page →
    (state.pageinfo page).owner = poFree ∨ (state.pageinfo page).owner = pid.val

/-- One of the first four processes owns a page that no program is loaded to. -/
def VirtualPagesUsed : Prop :=
  ∃ page : PhysicalPage, 17 ≤ page.val ∧ page.val < 256 ∧
    1 ≤ (state.pageinfo page).owner ∧ (state.pageinfo page).owner ≤ 4

/-- A process can use more than 64 pages of its own above the kernel. -/
def AddressesOverlap : Prop :=
  ∃ pid, Active state pid ∧ ∃ pages : Finset Nat, 64 < pages.card ∧
    ∀ i ∈ pages, 256 ≤ i ∧ i < 768 ∧ ∃ page, UserReaches state pid i page ∧
      (state.pageinfo page).owner = pid.val ∧ (state.pageinfo page).owner ≠ poFree

/-- Every process has a page at the start of its addresses, its own or one it cannot
write. -/
def ForkShares : Prop :=
  ∀ pid, Active state pid → ∃ page perm, Reaches state pid 256 page perm ∧
    (state.pageinfo page).owner ≠ poFree ∧
    ((state.pageinfo page).owner = pid.val ∨ perm &&& 2#32 = 0#32)

def OwnPagesUsable : Prop :=
  ∀ pid, Active state pid → ∀ i, 256 ≤ i → i < 768 → ∀ page perm,
    Reaches state pid i page perm → (state.pageinfo page).owner = pid.val →
    (state.pageinfo page).owner ≠ poFree → perm &&& 4#32 ≠ 0#32

def ConsoleUsable : Prop :=
  ∀ pid, Active state pid → ∃ page, UserReaches state pid 184 page

end Meaning

/-! ## Entries -/

section Entries

variable {state : KernelState} {memMap : MemMapInstance} {pid : Pid} {i : Nat}
  {entry : VMEntry} {data : List VMEntry}

theorem virtualMemoryLookup_perm (memory : ByteMemory.Memory) (pagetable va : UIntPtr) :
    (virtualMemoryLookup memory pagetable va).perm.toNat < 256 := by
  rw [virtualMemoryLookup]
  simp only
  split
  · decide
  · rw [BitVec.toNat_setWidth]
    have bound := BitVec.isLt
      (lookupLoop memory va [0, 1, 2, 3] pagetable 0#64
        ((pteW ||| pteU ||| pteP).setWidth 8)).2
    omega

theorem land_toInt_ne_zero {perm : BitVec 32} (small : perm.toNat < 256) (flag : Nat)
    (narrow : flag < 2 ^ 32) :
    Int.land perm.toInt flag ≠ 0 ↔ perm &&& BitVec.ofNat 32 flag ≠ 0#32 := by
  have value : perm.toInt = (perm.toNat : Int) := by
    rw [BitVec.toInt_eq_toNat_cond, if_pos (by omega)]
  have same : Int.land (perm.toNat : Int) (flag : Int) = ((perm.toNat &&& flag : Nat) : Int) :=
    rfl
  rw [value, same, Ne, Int.natCast_eq_zero, not_iff_not, ← BitVec.toNat_inj, BitVec.toNat_and,
    BitVec.toNat_ofNat, Nat.mod_eq_of_lt narrow]
  rfl

/-- The entry that the log has for virtual page `i`. -/
def Shown (state : KernelState) (pid : Pid) (i : Nat) (entry : VMEntry) : Prop :=
  VirtualEntry state (state.processes pid).pPagetable (BitVec.ofNat 64 (4096 * i)) entry

/-- An entry of zeros reaches nothing; another one tells the page and the permissions. -/
theorem Shown.cases (shown : Shown state pid i entry) :
    entry = ⟨0, 0, 0, 0⟩ ∧ (∀ page perm, ¬ Reaches state pid i page perm) ∨
    ∃ page perm, Reaches state pid i page perm ∧
      (∀ other later, Reaches state pid i other later → other = page ∧ later = perm) ∧
      entry.owner = (state.pageinfo page).owner % 256 ∧
      (entry.ua ≠ 0 ↔ perm &&& 4#32 ≠ 0#32) ∧
      (Int.land entry.perm parsePteW ≠ 0 ↔ perm &&& 2#32 ≠ 0#32) := by
  rw [Shown, VirtualEntry] at shown
  split at shown
  · next unmapped =>
      refine Or.inl ⟨shown, ?_⟩
      rintro page perm ⟨number, _⟩
      omega
  · next mapped =>
      obtain ⟨page, number, rfl⟩ := shown
      have small := virtualMemoryLookup_perm state.memory (state.processes pid).pPagetable
        (BitVec.ofNat 64 (4096 * i))
      refine Or.inr ⟨page, _, ⟨number, rfl⟩, ?_, rfl, land_toInt_ne_zero small 4 (by decide),
        land_toInt_ne_zero small 2 (by decide)⟩
      rintro other later ⟨otherNumber, rfl⟩
      refine ⟨?_, rfl⟩
      apply Fin.ext
      omega

/-- What can be asked of an entry can be asked of the page behind it. -/
theorem Shown.iff (shown : Shown state pid i entry) {Asked : Int → Prop → Prop → Prop}
    (zero : ¬ Asked 0 False False) :
    Asked entry.owner (entry.ua ≠ 0) (Int.land entry.perm parsePteW ≠ 0) ↔
      ∃ page perm, Reaches state pid i page perm ∧
        Asked ((state.pageinfo page).owner % 256) (perm &&& 4#32 ≠ 0#32)
          (perm &&& 2#32 ≠ 0#32) := by
  rcases shown.cases with ⟨rfl, unmapped⟩ | ⟨page, perm, reaches, only, owner, user, write⟩
  · have none : Int.land 0 parsePteW = 0 := rfl
    simp only [none, ne_eq, not_true]
    constructor
    · intro asked
      exact absurd asked zero
    · rintro ⟨page, perm, reaches, _⟩
      exact absurd reaches (unmapped page perm)
  · rw [owner, propext user, propext write]
    constructor
    · intro asked
      exact ⟨page, perm, reaches, asked⟩
    · rintro ⟨other, later, also, asked⟩
      obtain ⟨rfl, rfl⟩ := only other later also
      exact asked

def OwnersInRange (state : KernelState) : Prop :=
  ∀ page, -2 ≤ (state.pageinfo page).owner ∧ (state.pageinfo page).owner < 16

theorem OwnersInRange.byte (range : OwnersInRange state) (page : PhysicalPage) (pid : Pid) :
    ((state.pageinfo page).owner % 256 = 0 ↔ (state.pageinfo page).owner = poFree) ∧
    ((state.pageinfo page).owner % 256 = pid.val ↔ (state.pageinfo page).owner = pid.val) ∧
    ((state.pageinfo page).owner % 256 ≤ 4 ↔
      0 ≤ (state.pageinfo page).owner ∧ (state.pageinfo page).owner ≤ 4) := by
  obtain ⟨lower, upper⟩ := range page
  have few := pid.isLt
  have count : nproc = 16 := rfl
  have free : poFree = 0 := rfl
  rw [free]
  refine ⟨?_, ?_, ?_⟩ <;> omega

theorem Shown.user (shown : Shown state pid i entry) :
    entry.ua ≠ 0 ↔ ∃ page, UserReaches state pid i page :=
  @Shown.iff _ _ _ _ shown (fun _ user _ => user) id

theorem Shown.foreign (shown : Shown state pid i entry) (range : OwnersInRange state) :
    entry.owner ≠ 0 ∧ entry.owner ≠ pid.val ∧ entry.ua ≠ 0 ↔
      ∃ page, UserReaches state pid i page ∧ (state.pageinfo page).owner ≠ poFree ∧
        (state.pageinfo page).owner ≠ pid.val := by
  rw [@Shown.iff _ _ _ _ shown (fun owner user _ => owner ≠ 0 ∧ owner ≠ pid.val ∧ user)
    (fun asked => asked.1 rfl)]
  simp only [ne_eq, range.byte _ pid, UserReaches]
  tauto

theorem Shown.own (shown : Shown state pid i entry) (range : OwnersInRange state) :
    entry.owner ≠ 0 ∧ entry.owner = pid.val ∧ entry.ua ≠ 0 ↔
      ∃ page, UserReaches state pid i page ∧ (state.pageinfo page).owner = pid.val ∧
        (state.pageinfo page).owner ≠ poFree := by
  rw [@Shown.iff _ _ _ _ shown (fun owner user _ => owner ≠ 0 ∧ owner = pid.val ∧ user)
    (fun asked => asked.1 rfl)]
  simp only [ne_eq, range.byte _ pid, UserReaches]
  tauto

theorem Shown.unusable (shown : Shown state pid i entry) (range : OwnersInRange state) :
    entry.owner ≠ 0 ∧ entry.owner = pid.val ∧ ¬ entry.ua ≠ 0 ↔
      ∃ page perm, Reaches state pid i page perm ∧
        (state.pageinfo page).owner = pid.val ∧ (state.pageinfo page).owner ≠ poFree ∧
        ¬ perm &&& 4#32 ≠ 0#32 := by
  rw [@Shown.iff _ _ _ _ shown (fun owner user _ => owner ≠ 0 ∧ owner = pid.val ∧ ¬ user)
    (fun asked => asked.1 rfl)]
  simp only [ne_eq, range.byte _ pid]
  tauto

theorem Shown.shared (shown : Shown state pid i entry) (range : OwnersInRange state) :
    entry.owner ≠ 0 ∧ (entry.owner = pid.val ∨ ¬ Int.land entry.perm parsePteW ≠ 0) ↔
      ∃ page perm, Reaches state pid i page perm ∧
        (state.pageinfo page).owner ≠ poFree ∧
        ((state.pageinfo page).owner = pid.val ∨ perm &&& 2#32 = 0#32) := by
  rw [@Shown.iff _ _ _ _ shown (fun owner _ write => owner ≠ 0 ∧ (owner = pid.val ∨ ¬ write))
    (fun asked => asked.1 rfl)]
  simp only [ne_eq, range.byte _ pid, not_not]

end Entries

/-! ## Verdicts -/

section Verdicts

variable {state : KernelState} {memMap : MemMapInstance} {pid : Pid} {data : List VMEntry}

theorem mem_items {key : Int} :
    (key, data) ∈ memMap.items ↔ memMap.vmState.lookup key = some data := by
  have entry : memMap.vmState.lookup key = some data ↔
      (⟨key, data⟩ : Sigma fun _ : Int => List VMEntry) ∈ memMap.vmState.entries :=
    AList.mem_lookup_iff
  rw [entry, MemMapInstance.items, List.mem_reverse, List.mem_map]
  constructor
  · rintro ⟨⟨other, later⟩, member, same⟩
    cases same
    exact member
  · intro member
    exact ⟨⟨key, data⟩, member, rfl⟩

theorem Recovered.items (recovered : Recovered state memMap)
    (Good : Int → List VMEntry → Prop) :
    (∀ item ∈ memMap.items, Good item.1 item.2) ↔
      ∀ pid : Pid, Active state pid → ∀ data, ((pid.val : Int), data) ∈ memMap.items →
        Good pid.val data := by
  constructor
  · intro all pid _ data member
    exact all _ member
  · rintro all ⟨key, data⟩ member
    have inside : key ∈ memMap.vmState := by
      rw [← AList.lookup_isSome, mem_items.mp member]
      rfl
    obtain ⟨pid, rfl, active⟩ := recovered.keys key inside
    exact all pid active data member

theorem Recovered.shown (recovered : Recovered state memMap) (active : Active state pid)
    (member : ((pid.val : Int), data) ∈ memMap.items) :
    data.length = 768 ∧ ∀ i < 768, ∃ entry, data[i]? = some entry ∧ Shown state pid i entry := by
  obtain ⟨own, found, length, entries⟩ := recovered.vmState pid active
  rw [mem_items.mp member] at found
  cases found
  exact ⟨length, entries⟩

theorem forall_userPages {Good : VMEntry → Prop} (length : data.length = 768) :
    (∀ entry ∈ MemMapInstance.userPages data, Good entry) ↔
      ∀ i, 256 ≤ i → i < 768 → ∀ entry, data[i]? = some entry → Good entry := by
  have limit : parseKernelLimit = 256 := rfl
  rw [MemMapInstance.userPages, limit]
  constructor
  · intro all i lower _ entry place
    apply all
    rw [List.mem_iff_getElem?]
    exact ⟨i - 256, by rw [List.getElem?_drop, Nat.add_sub_cancel' lower, place]⟩
  · intro all entry member
    obtain ⟨j, place⟩ := List.mem_iff_getElem?.mp member
    rw [List.getElem?_drop] at place
    have inside := (List.getElem?_eq_some_iff.mp place).1
    exact all (256 + j) (by omega) (by omega) entry place

/-- A property of the pages from `low` to `high` in terms of what they show. -/
theorem Recovered.forall_pages (recovered : Recovered state memMap) (active : Active state pid)
    (member : ((pid.val : Int), data) ∈ memMap.items) {low high : Nat} (few : high ≤ 768)
    {Good : Nat → VMEntry → Prop} {Meant : Nat → Prop}
    (same : ∀ i entry, Shown state pid i entry → (Good i entry ↔ Meant i)) :
    (∀ i, low ≤ i → i < high → ∀ entry, data[i]? = some entry → Good i entry) ↔
      ∀ i, low ≤ i → i < high → Meant i := by
  obtain ⟨_, entries⟩ := recovered.shown active member
  constructor
  · intro all i lower upper
    obtain ⟨entry, place, shown⟩ := entries i (by omega)
    exact (same i entry shown).mp (all i lower upper entry place)
  · intro all i lower upper entry place
    obtain ⟨other, also, shown⟩ := entries i (by omega)
    rw [place] at also
    cases also
    exact (same i entry shown).mpr (all i lower upper)

theorem Recovered.present (recovered : Recovered state memMap) (active : Active state pid) :
    ∃ data, ((pid.val : Int), data) ∈ memMap.items := by
  obtain ⟨data, found, _⟩ := recovered.vmState pid active
  exact ⟨data, mem_items.mpr found⟩

theorem Recovered.every_page (recovered : Recovered state memMap) {low high : Nat}
    (few : high ≤ 768) {Good : Int → Nat → VMEntry → Prop} {Meant : Pid → Nat → Prop}
    (same : ∀ (pid : Pid) i entry, Shown state pid i entry → (Good pid.val i entry ↔ Meant pid i)) :
    (∀ item ∈ memMap.items, ∀ i, low ≤ i → i < high → ∀ entry, item.2[i]? = some entry →
      Good item.1 i entry) ↔
      ∀ pid, Active state pid → ∀ i, low ≤ i → i < high → Meant pid i := by
  rw [recovered.items fun key data => ∀ i, low ≤ i → i < high → ∀ entry,
    data[i]? = some entry → Good key i entry]
  constructor
  · intro all pid active
    obtain ⟨data, member⟩ := recovered.present active
    exact (recovered.forall_pages active member few (same pid)).mp (all pid active data member)
  · intro all pid active data member
    exact (recovered.forall_pages active member few (same pid)).mpr (all pid active)

theorem Recovered.every_userPage (recovered : Recovered state memMap)
    (Good : Int → VMEntry → Prop) {Meant : Pid → Nat → Prop}
    (same : ∀ (pid : Pid) i entry, Shown state pid i entry → (Good pid.val entry ↔ Meant pid i)) :
    (∀ item ∈ memMap.items, ∀ entry ∈ MemMapInstance.userPages item.2, Good item.1 entry) ↔
      ∀ pid, Active state pid → ∀ i, 256 ≤ i → i < 768 → Meant pid i := by
  rw [← @Recovered.every_page state memMap recovered 256 768 (le_refl _)
    (fun key _ entry => Good key entry) Meant same,
    recovered.items fun key data => ∀ entry ∈ MemMapInstance.userPages data, Good key entry,
    recovered.items fun key data => ∀ i, 256 ≤ i → i < 768 → ∀ entry,
      data[i]? = some entry → Good key entry]
  refine forall₂_congr fun pid active => forall₂_congr fun data member => ?_
  exact forall_userPages (recovered.shown active member).1

theorem Recovered.kernelIsolated (recovered : Recovered state memMap) :
    memMap.isKernelIsolated = true ↔ KernelIsolated state := by
  have limit : parseKernelLimit = 256 := rfl
  have every := @Recovered.every_page state memMap recovered 0 256 (by omega)
    (fun _ i entry => i = cgaBlock ∨ entry.ua = 0)
    (fun pid i => i ≠ 184 → ∀ page, ¬ UserReaches state pid i page) (by
      intro pid i entry shown
      have block : cgaBlock = 184 := rfl
      rw [block, ← not_exists, ← shown.user, not_not]
      exact or_iff_not_imp_left)
  simp only [Nat.zero_le, true_implies] at every
  rw [KernelIsolated, ← every, MemMapInstance.isKernelIsolated, List.all_eq_true]
  refine forall₂_congr fun item member => ?_
  rw [List.all_eq_true, limit]
  constructor
  · intro all i upper entry place
    have inside : (entry, i) ∈ (item.2.take 256).zipIdx := by
      rw [List.mk_mem_zipIdx_iff_getElem?, List.getElem?_take, if_pos upper, place]
    simpa using all (entry, i) inside
  · rintro all ⟨entry, i⟩ inside
    rw [List.mk_mem_zipIdx_iff_getElem?, List.getElem?_take] at inside
    split at inside
    · next upper => simpa using all i upper entry inside
    · cases inside

theorem Recovered.processesIsolated (recovered : Recovered state memMap)
    (range : OwnersInRange state) :
    memMap.areProcessesIsolated = true ↔ ProcessesIsolated state := by
  rw [ProcessesIsolated, ← recovered.every_userPage
    fun key entry => ¬ (entry.owner ≠ 0 ∧ entry.owner ≠ key ∧ entry.ua ≠ 0),
    MemMapInstance.areProcessesIsolated]
  · simp only [List.all_eq_true]
    refine forall₂_congr fun item member => forall₂_congr fun entry inside => ?_
    simp only [Bool.not_eq_true', ← Bool.not_eq_true, Bool.and_eq_true, decide_eq_true_eq,
      and_assoc]
  · intro pid i entry shown
    rw [shown.foreign range, not_exists]
    refine forall_congr' fun page => ?_
    tauto

theorem Recovered.ownPagesUsable (recovered : Recovered state memMap)
    (range : OwnersInRange state) :
    memMap.checkOwnershipInvariant = true ↔ OwnPagesUsable state := by
  rw [OwnPagesUsable, ← recovered.every_userPage
    fun key entry => ¬ (entry.owner ≠ 0 ∧ entry.owner = key ∧ ¬ entry.ua ≠ 0),
    MemMapInstance.checkOwnershipInvariant]
  · simp only [List.all_eq_true]
    refine forall₂_congr fun item member => forall₂_congr fun entry inside => ?_
    simp only [Bool.not_eq_true', ← Bool.not_eq_true, Bool.and_eq_true, decide_eq_true_eq,
      and_assoc, not_not]
  · intro pid i entry shown
    rw [shown.unusable range, not_exists]
    refine forall_congr' fun page => ?_
    rw [not_exists]
    refine forall_congr' fun perm => ?_
    tauto

theorem Recovered.virtualPagesUsed (recovered : Recovered state memMap)
    (range : OwnersInRange state) :
    ∃ used, memMap.isVPAUsed = .ok used ∧ (used = true ↔ VirtualPagesUsed state) := by
  obtain ⟨pages, found, length, entries⟩ := recovered.pmState
  have limit : parseKernelLimit = 256 := rfl
  have offset : physicalUnallocatedOffset = 17 := rfl
  have count : nPages = 512 := rfl
  rw [MemMapInstance.isVPAUsed, found]
  refine ⟨_, rfl, ?_⟩
  simp only [List.any_eq_true, Bool.and_eq_true, decide_eq_true_eq, limit, offset]
  have owned : ∀ page : PhysicalPage, (state.pageinfo page).owner % 256 ≠ 0 ∧
      (state.pageinfo page).owner % 256 ≤ 4 ↔
      1 ≤ (state.pageinfo page).owner ∧ (state.pageinfo page).owner ≤ 4 := by
    intro page
    obtain ⟨lower, upper⟩ := range page
    omega
  constructor
  · rintro ⟨entry, member, asked⟩
    obtain ⟨j, place⟩ := List.mem_iff_getElem?.mp member
    rw [List.getElem?_drop, List.getElem?_take] at place
    split at place
    · next upper =>
        have inside : 17 + j < nPages := by omega
        rw [entries ⟨17 + j, inside⟩] at place
        rw [← Option.some.inj place] at asked
        exact ⟨⟨17 + j, inside⟩, Nat.le_add_right 17 j, upper, (owned _).mp asked⟩
    · cases place
  · rintro ⟨page, lower, upper, asked⟩
    refine ⟨⟨_, (state.pageinfo page).refcount⟩, ?_, (owned page).mpr asked⟩
    rw [List.mem_iff_getElem?]
    refine ⟨page.val - 17, ?_⟩
    rw [List.getElem?_drop, Nat.add_sub_cancel' lower, List.getElem?_take, if_pos upper]
    exact entries page

/-- A list counts more than `n` entries exactly when it has more than `n` such places. -/
theorem lt_countP_iff {α : Type} {p : α → Bool} {l : List α} {n : Nat} :
    n < l.countP p ↔
      ∃ places : Finset Nat, n < places.card ∧ ∀ i ∈ places, ∃ x, l[i]? = some x ∧ p x = true := by
  have counted : l.countP p = ((Finset.range l.length).filter fun i => l[i]?.any p).card := by
    induction l using List.reverseRecOn with
    | nil => rfl
    | append_singleton l x ih =>
        have old : (Finset.range l.length).filter (fun i => (l ++ [x])[i]?.any p) =
            (Finset.range l.length).filter (fun i => l[i]?.any p) := by
          refine Finset.filter_congr fun i member => ?_
          rw [List.getElem?_append_left (Finset.mem_range.mp member)]
        have last : (l ++ [x])[l.length]?.any p = p x := by
          simp
        rw [List.countP_append, List.countP_singleton, List.length_append, List.length_singleton,
          Finset.range_add_one, Finset.filter_insert, old, ih, last]
        by_cases here : p x = true
        · rw [if_pos here, if_pos here, Finset.card_insert_of_notMem]
          intro member
          exact absurd (Finset.mem_range.mp (Finset.mem_filter.mp member).1) (lt_irrefl _)
        · rw [if_neg here, if_neg here, Nat.add_zero]
  rw [counted]
  constructor
  · intro many
    refine ⟨_, many, fun i member => ?_⟩
    exact (Option.any_eq_true _ _).mp (Finset.mem_filter.mp member).2
  · rintro ⟨places, many, good⟩
    refine lt_of_lt_of_le many (Finset.card_le_card ?_)
    intro i member
    obtain ⟨x, place, holds⟩ := good i member
    rw [Finset.mem_filter, Finset.mem_range]
    exact ⟨(List.getElem?_eq_some_iff.mp place).1,
      (Option.any_eq_true _ _).mpr ⟨x, place, holds⟩⟩

/-- The pages that the loop counts are those from `KERNEL_LIMIT` on. -/
theorem lt_countP_userPages_iff {p : VMEntry → Bool} {n : Nat} :
    n < (MemMapInstance.userPages data).countP p ↔
      ∃ pages : Finset Nat, n < pages.card ∧
        ∀ i ∈ pages, 256 ≤ i ∧ ∃ entry, data[i]? = some entry ∧ p entry = true := by
  have limit : parseKernelLimit = 256 := rfl
  rw [lt_countP_iff, MemMapInstance.userPages, limit]
  simp only [List.getElem?_drop]
  constructor
  · rintro ⟨places, many, good⟩
    refine ⟨places.map (addLeftEmbedding 256), by rwa [Finset.card_map], ?_⟩
    intro i member
    obtain ⟨j, inside, rfl⟩ := Finset.mem_map.mp member
    exact ⟨Nat.le_add_right 256 j, good j inside⟩
  · rintro ⟨pages, many, good⟩
    refine ⟨pages.image (· - 256), ?_, ?_⟩
    · rw [Finset.card_image_of_injOn]
      · exact many
      · intro i member j other same
        have left := (good i member).1
        have right := (good j other).1
        simp only at same
        omega
    · intro j member
      obtain ⟨i, inside, rfl⟩ := Finset.mem_image.mp member
      obtain ⟨lower, found⟩ := good i inside
      rwa [Nat.add_sub_cancel' lower]

theorem Recovered.addressesOverlap (recovered : Recovered state memMap)
    (range : OwnersInRange state) :
    memMap.areProcessAddressesOverlapping = true ↔ AddressesOverlap state := by
  have occupied : ∀ pid : Pid, Active state pid → ∀ data,
      ((pid.val : Int), data) ∈ memMap.items →
      (64 < MemMapInstance.occupancy pid.val data ↔ ∃ pages : Finset Nat, 64 < pages.card ∧
        ∀ i ∈ pages, 256 ≤ i ∧ i < 768 ∧ ∃ page, UserReaches state pid i page ∧
          (state.pageinfo page).owner = pid.val ∧ (state.pageinfo page).owner ≠ poFree) := by
    intro pid active data member
    obtain ⟨length, entries⟩ := recovered.shown active member
    rw [MemMapInstance.occupancy, lt_countP_userPages_iff]
    refine exists_congr fun pages => and_congr_right fun _ => forall₂_congr fun i _ =>
      and_congr_right fun _ => ?_
    simp only [Bool.and_eq_true, decide_eq_true_eq, and_assoc]
    constructor
    · rintro ⟨entry, place, asked⟩
      have inside := (List.getElem?_eq_some_iff.mp place).1
      obtain ⟨other, also, shown⟩ := entries i (by omega)
      rw [place] at also
      cases also
      exact ⟨by omega, (shown.own range).mp asked⟩
    · rintro ⟨inside, asked⟩
      obtain ⟨entry, place, shown⟩ := entries i inside
      exact ⟨entry, place, (shown.own range).mpr asked⟩
  rw [MemMapInstance.areProcessAddressesOverlapping, List.any_eq_true]
  simp only [decide_eq_true_eq]
  constructor
  · rintro ⟨⟨key, data⟩, member, many⟩
    have inside : key ∈ memMap.vmState := by
      rw [← AList.lookup_isSome, mem_items.mp member]
      rfl
    obtain ⟨pid, rfl, active⟩ := recovered.keys key inside
    exact ⟨pid, active, (occupied pid active data member).mp many⟩
  · rintro ⟨pid, active, many⟩
    obtain ⟨data, member⟩ := recovered.present active
    exact ⟨_, member, (occupied pid active data member).mpr many⟩

theorem allItems_ok {items : List (Int × List VMEntry)}
    {good : Int → List VMEntry → Except CheckError Bool} (verdict : Int → List VMEntry → Bool)
    (same : ∀ item ∈ items, good item.1 item.2 = .ok (verdict item.1 item.2)) :
    MemMapInstance.allItems good items =
      .ok (items.all fun item => verdict item.1 item.2) := by
  induction items with
  | nil => rfl
  | cons item rest ih =>
      obtain ⟨key, data⟩ := item
      rw [MemMapInstance.allItems, same (key, data) List.mem_cons_self, ok_bind, List.all_cons]
      cases verdict key data with
      | true => exact ih fun other member => same other (List.mem_cons_of_mem _ member)
      | false => rfl

theorem Recovered.one_page (recovered : Recovered state memMap) {i : Nat} (inside : i < 768)
    {good : Int → List VMEntry → Except CheckError Bool} (test : Int → VMEntry → Bool)
    (tests : ∀ key data entry, data[i]? = some entry → good key data = .ok (test key entry))
    {Meant : Pid → Prop}
    (same : ∀ (pid : Pid) entry, Shown state pid i entry →
      (test pid.val entry = true ↔ Meant pid)) :
    ∃ verdict, MemMapInstance.allItems good memMap.items = .ok verdict ∧
      (verdict = true ↔ ∀ pid, Active state pid → Meant pid) := by
  have shown : ∀ item ∈ memMap.items, ∃ pid : Pid, item.1 = pid.val ∧ Active state pid ∧
      ∃ entry, item.2[i]? = some entry ∧ Shown state pid i entry := by
    rintro ⟨key, data⟩ member
    have present : key ∈ memMap.vmState := by
      rw [← AList.lookup_isSome, mem_items.mp member]
      rfl
    obtain ⟨pid, rfl, active⟩ := recovered.keys key present
    exact ⟨pid, rfl, active, (recovered.shown active member).2 i inside⟩
  refine ⟨_, allItems_ok (fun key data => data[i]?.any (test key)) ?_, ?_⟩
  · intro item member
    obtain ⟨_, _, _, entry, place, _⟩ := shown item member
    rw [tests item.1 item.2 entry place, place]
    rfl
  · rw [List.all_eq_true]
    constructor
    · intro all pid active
      obtain ⟨data, member⟩ := recovered.present active
      obtain ⟨entry, place, here⟩ := (recovered.shown active member).2 i inside
      have tested := all _ member
      rw [place] at tested
      exact (same pid entry here).mp tested
    · intro meant item member
      obtain ⟨pid, key, active, entry, place, here⟩ := shown item member
      rw [place, key]
      exact (same pid entry here).mpr (meant pid active)

theorem entryAt_ok {i : Nat} {entry : VMEntry} (place : data[i]? = some entry) :
    MemMapInstance.entryAt data i = .ok entry := by
  rw [MemMapInstance.entryAt, place]

theorem Recovered.consoleUsable (recovered : Recovered state memMap) :
    ∃ usable, memMap.checkCGAAccessInvariant = .ok usable ∧
      (usable = true ↔ ConsoleUsable state) := by
  have block : (184 : Nat) = cgaBlock := rfl
  refine recovered.one_page (by omega : 184 < 768) (fun _ entry => decide (entry.ua ≠ 0)) ?_ ?_
  · intro key data entry place
    rw [block] at place
    rw [entryAt_ok place, ok_bind]
  · intro pid entry shown
    rw [decide_eq_true_eq, shown.user]

theorem Recovered.forkShares (recovered : Recovered state memMap)
    (range : OwnersInRange state) :
    ∃ shares, memMap.isForkOK = .ok shares ∧ (shares = true ↔ ForkShares state) := by
  have limit : (256 : Nat) = parseKernelLimit := rfl
  refine recovered.one_page (by omega : 256 < 768) (fun key entry =>
    !(decide (entry.owner = 0) ||
      decide (entry.owner ≠ key) && decide (Int.land entry.perm parsePteW ≠ 0))) ?_ ?_
  · intro key data entry place
    rw [limit] at place
    rw [entryAt_ok place, ok_bind]
  · intro pid entry shown
    rw [← shown.shared range]
    simp only [Bool.not_eq_true', ← Bool.not_eq_true, Bool.or_eq_true, Bool.and_eq_true,
      decide_eq_true_eq]
    tauto

/-- The verdict of every check is what it says of the kernel. -/
theorem checks_mean (recovered : Recovered state memMap) (range : OwnersInRange state) :
    (memMap.isKernelIsolated = true ↔ KernelIsolated state) ∧
    (memMap.areProcessesIsolated = true ↔ ProcessesIsolated state) ∧
    (∃ used, memMap.isVPAUsed = .ok used ∧ (used = true ↔ VirtualPagesUsed state)) ∧
    (memMap.areProcessAddressesOverlapping = true ↔ AddressesOverlap state) ∧
    (∃ shares, memMap.isForkOK = .ok shares ∧ (shares = true ↔ ForkShares state)) ∧
    (memMap.checkOwnershipInvariant = true ↔ OwnPagesUsable state) ∧
    ∃ usable, memMap.checkCGAAccessInvariant = .ok usable ∧
      (usable = true ↔ ConsoleUsable state) :=
  ⟨recovered.kernelIsolated, recovered.processesIsolated range, recovered.virtualPagesUsed range,
    recovered.addressesOverlap range, recovered.forkShares range, recovered.ownPagesUsable range,
    recovered.consoleUsable⟩

end Verdicts

end OsLabs.Weensy
