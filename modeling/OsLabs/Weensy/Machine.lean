import OsLabs.Lib.ExceptRules

/-!
# Machine words, constants and the ways the kernel stops

`uintptr_t` and page entries are 64-bit words; an `int` that is only compared
or counted is an `Int`, and an `int` used as a set of flag bits a 32-bit word.
Kernel functions return in `Except Stop`: `Stop` says why control does not come
back to the caller.
-/

set_option autoImplicit false

namespace OsLabs.Weensy

abbrev UIntPtr := BitVec 64
abbrev PageEntry := BitVec 64

/-! ## Constants of x86-64.h, kernel.h and lib.h -/

def pageSize : UIntPtr := 0x1000#64
def nPageTableEntries : Nat := 512

def pteP : PageEntry := 1#64
def pteW : PageEntry := 2#64
def pteU : PageEntry := 4#64

def pferrUser : BitVec 64 := 4#64
def pferrPresent : BitVec 64 := 1#64
def pferrWrite : BitVec 64 := 2#64

/-- `PTE_P | PTE_W | PTE_U` as an `int`. -/
def pteAll : BitVec 32 := 7#32

def intPageFault : BitVec 64 := 14#64
def intTimer : BitVec 64 := 32#64
def intSysPanic : BitVec 64 := 48#64
def intSysGetpid : BitVec 64 := 49#64
def intSysYield : BitVec 64 := 50#64
def intSysPageAlloc : BitVec 64 := 51#64

def hz : BitVec 32 := 100#32

abbrev nproc : Nat := 16
abbrev nPages : Nat := 512

/-! The numerals of the index types: processes, pages and table entries, levels, page
tables and programs. -/

instance nprocNeZero : NeZero nproc := ⟨by decide⟩
instance nPagesNeZero : NeZero nPages := ⟨by decide⟩
instance levelsNeZero : NeZero 4 := ⟨by decide⟩
instance pagetablesNeZero : NeZero 5 := ⟨by decide⟩
instance programsNeZero : NeZero 6 := ⟨by decide⟩

/-- A process ID, as an index of `processes`. -/
abbrev Pid := Fin nproc

/-- A physical page number, as an index of `pageinfo`. -/
abbrev PhysicalPage := Fin nPages

def kernelStartAddr : UIntPtr := 0x40000#64
def kernelStackTop : UIntPtr := 0x80000#64
def procStartAddr : UIntPtr := 0x100000#64
def procSize : UIntPtr := 0x40000#64
def memsizePhysical : UIntPtr := 0x200000#64
def memsizeVirtual : UIntPtr := 0x300000#64

def elfMagic : BitVec 32 := 0x464C457F#32
def elfPtypeLoad : BitVec 32 := 1#32

/-! ## Stopping -/

/-- The `assert`s of the modelled functions, in source order. -/
inductive Assertion where
  -- virtual_memory_map
  | mapVaAligned | mapSzAligned | mapVaWraps | mapPaAligned | mapPaWraps
  | mapPaExists | mapPermSensible | mapPagetableAligned
  -- lookup_l4pagetable
  | newPtAligned | entryAddrSensible | entryAllowsW | entryAllowsU
  -- set_pagetable
  | setPagetableAligned | setIntHandlerMapped | setPagetableMapped
  | setKernelPagetableMapped | setVirtualMemoryMapMapped
  -- program_load and process_setup
  | programNumberValid | programMagic | programLoadSucceeds
  -- run
  | runRunnable
  -- check_page_table_mappings
  | checkPtAligned | checkKernelIdentity | checkKernelDataWritable
  | checkKstackIdentity | checkKstackWritable
  -- check_page_table_ownership_level
  | checkPtNumber | checkPtOwner | checkPtRefcount
  -- check_virtual_memory
  | checkProcessZeroFree | checkOwnerActive
  -- memshow_virtual and memdump_virtual
  | memshowAligned | memshowPhysical | memdumpAligned
  deriving DecidableEq, Repr

inductive Stop where
  | assertion (which : Assertion)
  /-- An array access outside the array. -/
  | outOfBounds
  /-- The kernel itself touches an address that no page table entry maps. -/
  | kernelFault (address : UIntPtr)
  /-- `current` is still `NULL`. -/
  | noCurrent
  | sysPanic
  | kernelPageFaultPanic
  | unexpectedException (intno : BitVec 64)
  | poweroff
  /-- `check_keyboard` jumps back to `entry_from_boot` with a command line. -/
  | softReboot (argument : String)
  /-- `schedule` loops without finding a runnable process. -/
  | spins
  deriving DecidableEq, Repr

/-- `assert(x)` of lib.h: stop in `assert_fail` unless `x`. -/
def assert (condition : Prop) [Decidable condition] (which : Assertion) :
    Except Stop Unit :=
  ExceptRules.require condition (.assertion which)

theorem assert_eq_ok {condition : Prop} [Decidable condition] {which : Assertion}
    {result : Unit} : assert condition which = .ok result ↔ condition :=
  ExceptRules.require_eq_ok

@[simp] theorem assert_pos {condition : Prop} [Decidable condition]
    {which : Assertion} (holds : condition) : assert condition which = .ok () :=
  ExceptRules.require_pos holds

end OsLabs.Weensy
