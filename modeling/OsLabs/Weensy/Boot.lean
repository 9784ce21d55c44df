import OsLabs.Weensy.Kernel

/-!
# Booting: virtual_memory_init, the program loader and kernel()

`kernel` builds the first state from whatever the memory and the static variables
held before, which after a soft reboot is what the previous run left there.
-/

set_option autoImplicit false

namespace OsLabs.Weensy

open OsLabs.ByteMemory

/-! ## virtual_memory_init -/

def KernelImage.kernelPagetables (image : KernelImage) (i : Nat) : UIntPtr :=
  image.kernelPagetable + BitVec.ofNat 64 (4096 * i)

def tableEntry (image : KernelImage) (i : Nat) : PageEntry :=
  image.kernelPagetables i ||| pteP ||| pteW ||| pteU

def linkedTables (image : KernelImage) (memory : Memory) : Memory :=
  let memory := fill memory image.kernelPagetable.toNat (5 * 4096) 0
  let memory := writeEntry memory (image.kernelPagetables 0) 0 (tableEntry image 1)
  let memory := writeEntry memory (image.kernelPagetables 1) 0 (tableEntry image 2)
  let memory := writeEntry memory (image.kernelPagetables 2) 0 (tableEntry image 3)
  writeEntry memory (image.kernelPagetables 2) 1 (tableEntry image 4)

def virtualMemoryInit (image : KernelImage) (state : KernelState) :
    Except Stop KernelState := do
  let (_, walk) ← virtualMemoryMap ⟨linkedTables image state.memory, 0⟩
    image.kernelPagetable 0#64 0#64 memsizePhysical pteAll none
  .ok { state with memory := walk.memory, cr3 := image.kernelPagetable }

/-! ## pageinfo_init -/

def ioPhysMem : UIntPtr := 0xA0000#64
def extPhysMem : UIntPtr := 0x100000#64

def physicalMemoryIsreserved (pa : UIntPtr) : Prop :=
  pa = 0#64 ∨ ioPhysMem ≤ pa ∧ pa < extPhysMem

instance (pa : UIntPtr) : Decidable (physicalMemoryIsreserved pa) := by
  unfold physicalMemoryIsreserved
  infer_instance

def pageAddress (pn : PhysicalPage) : UIntPtr := BitVec.ofNat 64 (4096 * pn.val)

def initialOwner (image : KernelImage) (addr : UIntPtr) : Int :=
  if physicalMemoryIsreserved addr then poReserved
  else if kernelStartAddr ≤ addr ∧ addr < image.kernelEnd ∨
      addr = kernelStackTop - pageSize then poKernel
  else poFree

def pageinfoInit (image : KernelImage) (state : KernelState) : KernelState :=
  { state with
    pageinfo := fun pn =>
      let owner := initialOwner image (pageAddress pn)
      ⟨owner, if owner ≠ poFree then 1 else 0⟩ }

/-! ## process_init -/

def segselAppCode : BitVec 64 := 0x10#64
def segselAppData : BitVec 64 := 0x20#64
def eflagsIf : BitVec 64 := 0x200#64

def zeroRegisters : Registers :=
  ⟨0#64, 0#64, 0#64, 0#64, 0#64, 0#64, 0#64, 0#64, 0#64, 0#64, 0#64, 0#64, 0#64,
    0#64, 0#64, 0#64, 0#64, 0#64, 0#64, 0#64, 0#16, 0#48, 0#64, 0#64, 0#16, 0#48⟩

def processInit : Registers :=
  { zeroRegisters with
    regCs := (segselAppCode ||| 3#64).setWidth 16
    regFs := segselAppData ||| 3#64
    regGs := segselAppData ||| 3#64
    regSs := (segselAppData ||| 3#64).setWidth 16
    regRflags := eflagsIf }

/-! ## ELF images -/

structure ElfHeader where
  eMagic : BitVec 32
  eEntry : UIntPtr
  ePhoff : UIntPtr
  ePhnum : BitVec 16

/-- The fields of `struct elf_program` that the loader reads. -/
structure ElfProgram where
  pType : BitVec 32
  pOffset : UIntPtr
  pVa : UIntPtr
  pFilesz : UIntPtr
  pMemsz : UIntPtr

def elfHeader (image : Memory) : ElfHeader where
  eMagic := BitVec.ofNat 32 (loadLE image 0 4)
  eEntry := BitVec.ofNat 64 (loadLE image 0x18 8)
  ePhoff := BitVec.ofNat 64 (loadLE image 0x20 8)
  ePhnum := BitVec.ofNat 16 (loadLE image 0x38 2)

/-- `ph[i]`; `sizeof(elf_program)` is 56. -/
def elfProgram (image : Memory) (eh : ElfHeader) (i : Nat) : ElfProgram :=
  let ph := (eh.ePhoff + BitVec.ofNat 64 (56 * i)).toNat
  { pType := BitVec.ofNat 32 (loadLE image ph 4)
    pOffset := BitVec.ofNat 64 (loadLE image (ph + 8) 8)
    pVa := BitVec.ofNat 64 (loadLE image (ph + 0x10) 8)
    pFilesz := BitVec.ofNat 64 (loadLE image (ph + 0x20) 8)
    pMemsz := BitVec.ofNat 64 (loadLE image (ph + 0x28) 8) }

def elfPrograms (image : Memory) (eh : ElfHeader) : List ElfProgram :=
  (List.range eh.ePhnum.toNat).map (elfProgram image eh)

/-! ## The loader of k-loader.c, called with a `NULL` allocator -/

/-- The kernel writes `size` bytes from `addr` on; only the memory below
`MEMSIZE_PHYSICAL` is mapped. -/
def kernelTouches (addr size : UIntPtr) : Except Stop Unit :=
  ExceptRules.require (size = 0#64 ∨ addr.toNat + size.toNat ≤ memsizePhysical.toNat)
    (.kernelFault addr)

/-- The loop of `program_load_segment` that allocates memory, with fuel for its
iterations. -/
def loadPages (pid : Pid) (pagetable endMem : UIntPtr) :
    Nat → UIntPtr → KernelState → Except Stop (Int × KernelState)
  | 0, _, _ => .error .spins
  | fuel + 1, addr, state =>
      if addr < endMem then do
        let (r, state) ← assignPhysicalPage state addr pid.val
        if r < 0 then .ok (-1, state)
        else
          let (r, walk) ← virtualMemoryMap ⟨state.memory, 0⟩ pagetable addr addr
            pageSize pteAll none
          let state := { state with memory := walk.memory }
          if r < 0 then .ok (-1, state)
          else loadPages pid pagetable endMem fuel (addr + pageSize) state
      else .ok (0, state)

/-- `program_load_segment`; `source i` is the byte `src[i]`. -/
def programLoadSegment (image : KernelImage) (state : KernelState) (pid : Pid)
    (ph : ElfProgram) (source : Nat → UInt8) : Except Stop (Int × KernelState) := do
  let pagetable := (state.processes pid).pPagetable
  let endFile := ph.pVa + ph.pFilesz
  let endMem := ph.pVa + ph.pMemsz
  let va := ph.pVa &&& ~~~0xFFF#64
  let (r, state) ← loadPages pid pagetable endMem (nPages + 1) va state
  if r < 0 then .ok (-1, state)
  else
    let state ← setPagetable image state pagetable
    kernelTouches va (endFile - va)
    let state := { state with
      memory := blit state.memory va.toNat (endFile - va).toNat source }
    kernelTouches endFile (endMem - endFile)
    let state := { state with
      memory := fill state.memory endFile.toNat (endMem - endFile).toNat 0 }
    let state ← setPagetable image state image.kernelPagetable
    .ok (0, state)

/-- The loop of `program_load` over the program headers. -/
def loadSegments (image : KernelImage) (pid : Pid) (ramimage : Memory) :
    List ElfProgram → KernelState → Except Stop (Int × KernelState)
  | [], state => .ok (0, state)
  | ph :: rest, state =>
      if ph.pType = elfPtypeLoad then do
        let (r, state) ← programLoadSegment image state pid ph
          fun i => ramimage (ph.pOffset + BitVec.ofNat 64 i).toNat
        if r < 0 then .ok (-1, state)
        else loadSegments image pid ramimage rest state
      else loadSegments image pid ramimage rest state

def programLoad (image : KernelImage) (state : KernelState) (pid : Pid)
    (programnumber : Int) : Except Stop (Int × KernelState) :=
  if valid : 0 ≤ programnumber ∧ programnumber < 6 then do
    let ramimage := image.ramimages ⟨programnumber.toNat, by omega⟩
    let eh := elfHeader ramimage
    assert (eh.eMagic = elfMagic) .programMagic
    let (r, state) ← loadSegments image pid ramimage (elfPrograms ramimage eh) state
    if r < 0 then .ok (-1, state)
    else .ok (0, state.setRegisters pid
      { (state.processes pid).pRegisters with regRip := eh.eEntry })
  else .error (.assertion .programNumberValid)

/-! ## process_setup and kernel -/

/-- The value of an `int8_t` variable after an `int` is stored into it. -/
def toInt8 (value : Int) : Int := (BitVec.ofInt 8 value).toInt

/-- `++pageinfo[PAGENUMBER(kernel_pagetable)].refcount`. -/
def addReference (image : KernelImage) (state : KernelState) :
    Except Stop KernelState := do
  let page ← pageinfoIndex (pageNumber image.kernelPagetable)
  let info := state.pageinfo page
  .ok (state.setPageinfo page { info with refcount := toInt8 (info.refcount + 1) })

def stackTop (pid : Pid) : UIntPtr := procStartAddr + procSize * BitVec.ofNat 64 pid.val

def stackPage (pid : Pid) : UIntPtr := stackTop pid - pageSize

/-- The beginning of `process_setup`: registers, page table and the reference to it. -/
def beginSetup (image : KernelImage) (state : KernelState) (pid : Pid) :
    Except Stop KernelState :=
  addReference image (state.setProc pid { state.processes pid with
    pRegisters := processInit, pPagetable := image.kernelPagetable })

/-- The end of `process_setup`: the stack, whose page may already be in use, and the
state. -/
def finishSetup (state : KernelState) (pid : Pid) : Except Stop KernelState := do
  let state := state.setRegisters pid
    { (state.processes pid).pRegisters with regRsp := stackTop pid }
  let (_, state) ← assignPhysicalPage state (stackPage pid) pid.val
  let (_, walk) ← virtualMemoryMap ⟨state.memory, 0⟩ (state.processes pid).pPagetable
    (stackPage pid) (stackPage pid) pageSize pteAll none
  let state := { state with memory := walk.memory }
  .ok (state.setProc pid { state.processes pid with pState := .runnable })

def processSetup (image : KernelImage) (state : KernelState) (pid : Pid)
    (programNumber : Int) : Except Stop KernelState := do
  let state ← beginSetup image state pid
  let (r, state) ← programLoad image state pid programNumber
  assert (0 ≤ r) .programLoadSucceeds
  finishSetup state pid

/-- The process descriptors after `memset` and the loop that numbers them. -/
def processesInit (pid : Pid) : Proc := ⟨pid, zeroRegisters, .free, 0#64⟩

/-- The processes that `kernel(command)` sets up, with their programs. -/
def initialPrograms (command : Option String) : List (Pid × Fin 6) :=
  if command = some "fork" then [(1, 4)]
  else if command = some "forkexit" then [(1, 5)]
  else [(1, 0), (2, 1), (3, 2), (4, 3)]

def setupAll (image : KernelImage) :
    List (Pid × Fin 6) → KernelState → Except Stop KernelState
  | [], state => .ok state
  | (pid, programNumber) :: rest, state => do
      let state ← processSetup image state pid programNumber.val
      setupAll image rest state

def kernel (image : KernelImage) (prior : KernelState) (command : Option String) :
    Except Stop KernelState := do
  let state ← virtualMemoryInit image prior
  let state := pageinfoInit image state
  let state := { state with processes := processesInit }
  let state ← setupAll image (initialPrograms command) state
  run image state 1

end OsLabs.Weensy
