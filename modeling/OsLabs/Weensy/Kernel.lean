import OsLabs.Weensy.Paging

/-!
# The kernel of kernel.c

The kernel's global variables are the fields of `KernelState`; a kernel function
that returns does so with the state it leaves.  Entering user mode ends a path
through the kernel: `run` returns the state in which `exception_return` is
executed, and `exception` that state together with the function that chose the
process.

The console is a device here: what the `memshow` functions draw is computed, so
that their array accesses and assertions happen, but not kept.
-/

set_option autoImplicit false

namespace OsLabs.Weensy

open OsLabs.ByteMemory

/-! ## Process descriptors -/

structure Registers where
  regRax : BitVec 64
  regRcx : BitVec 64
  regRdx : BitVec 64
  regRbx : BitVec 64
  regRbp : BitVec 64
  regRsi : BitVec 64
  regRdi : BitVec 64
  regR8 : BitVec 64
  regR9 : BitVec 64
  regR10 : BitVec 64
  regR11 : BitVec 64
  regR12 : BitVec 64
  regR13 : BitVec 64
  regR14 : BitVec 64
  regR15 : BitVec 64
  regFs : BitVec 64
  regGs : BitVec 64
  regIntno : BitVec 64
  regErr : BitVec 64
  regRip : BitVec 64
  regCs : BitVec 16
  regPadding2 : BitVec 48
  regRflags : BitVec 64
  regRsp : BitVec 64
  regSs : BitVec 16
  regPadding3 : BitVec 48
  deriving DecidableEq

inductive ProcState where
  | free | runnable | blocked | broken
  deriving DecidableEq, Repr

structure Proc where
  pPid : Pid
  pRegisters : Registers
  pState : ProcState
  pPagetable : UIntPtr

/-! ## The kernel's variables -/

/-- An entry of `pageinfo`; the `int8_t` fields hold values of that range. -/
structure PhysicalPageinfo where
  owner : Int
  refcount : Int
  deriving DecidableEq, Repr

def poFree : Int := 0
def poReserved : Int := -1
def poKernel : Int := -2

inductive LogLine where
  /-- `PM_DUMP`, with owner and refcount of every page. -/
  | pmDump (ticks : BitVec 32) (pages : List (BitVec 8 × BitVec 32))
  /-- `VM_DUMP`, with owner, refcount and permissions of every virtual page. -/
  | vmDump (pid : Pid) (ticks : BitVec 32)
      (entries : List (BitVec 8 × BitVec 8 × BitVec 32))

structure KernelState where
  memory : Memory
  pageinfo : PhysicalPage → PhysicalPageinfo
  processes : Pid → Proc
  /-- `current`, a pointer into `processes` or `NULL`. -/
  current : Option Pid
  ticks : BitVec 32
  lastTicks : BitVec 32
  showing : Fin nproc
  cr3 : UIntPtr
  log : List LogLine

/-- What the linker decides about the kernel: where its symbols are, the program
images linked in, and the build constant `TICK_LIMIT` (0 when undefined). -/
structure KernelImage where
  startData : UIntPtr
  kernelEnd : UIntPtr
  /-- The address of `kernel_pagetables[0]`. -/
  kernelPagetable : UIntPtr
  defaultIntHandler : UIntPtr
  virtualMemoryMapCode : UIntPtr
  ramimages : Fin 6 → Memory
  tickLimit : BitVec 32
  tablesAligned : kernelPagetable.toNat % 4096 = 0
  tablesStart : 0x40000 ≤ kernelPagetable.toNat
  tablesEnd : kernelPagetable.toNat + 5 * 4096 ≤ kernelEnd.toNat
  endBelowStack : kernelEnd.toNat ≤ 0x7F000
  handlerInside : defaultIntHandler.toNat < kernelEnd.toNat
  mapInside : virtualMemoryMapCode.toNat < kernelEnd.toNat

/-! ## pageinfo -/

/-- The index `pn` of an access to `pageinfo`. -/
def pageinfoIndex (pn : Int) : Except Stop PhysicalPage :=
  if inside : 0 ≤ pn ∧ pn < nPages then .ok ⟨pn.toNat, by omega⟩
  else .error .outOfBounds

def KernelState.setPageinfo (state : KernelState) (page : PhysicalPage)
    (info : PhysicalPageinfo) : KernelState :=
  { state with pageinfo := Function.update state.pageinfo page info }

def assignPhysicalPage (state : KernelState) (addr : UIntPtr) (owner : Int) :
    Except Stop (Int × KernelState) :=
  if addr &&& 0xFFF#64 ≠ 0#64 then .ok (-1, state)
  else if memsizePhysical ≤ addr then .ok (-1, state)
  else do
    let page ← pageinfoIndex (pageNumber addr)
    if (state.pageinfo page).refcount ≠ 0 then .ok (-1, state)
    else .ok (0, state.setPageinfo page ⟨owner, 1⟩)

/-! ## set_pagetable -/

def setPagetable (image : KernelImage) (state : KernelState) (pagetable : UIntPtr) :
    Except Stop KernelState := do
  assert (pageOffset pagetable = 0#64) .setPagetableAligned
  assert ((virtualMemoryLookup state.memory pagetable image.defaultIntHandler).pa =
    image.defaultIntHandler) .setIntHandlerMapped
  assert ((virtualMemoryLookup state.memory image.kernelPagetable pagetable).pa =
    pagetable) .setPagetableMapped
  assert ((virtualMemoryLookup state.memory pagetable image.kernelPagetable).pa =
    image.kernelPagetable) .setKernelPagetableMapped
  assert ((virtualMemoryLookup state.memory pagetable image.virtualMemoryMapCode).pa =
    image.virtualMemoryMapCode) .setVirtualMemoryMapMapped
  .ok { state with cr3 := pagetable }

/-! ## check_virtual_memory -/

/-- The pages from `addr` on below `limit`, as a `for` loop steps over them. -/
def pagesBelow (addr limit : Nat) : List UIntPtr :=
  (List.range ((limit - addr + 4095) / 4096)).map fun i =>
    BitVec.ofNat 64 (addr + 4096 * i)

def checkPageTableMappings (image : KernelImage) (state : KernelState)
    (pt : UIntPtr) : Except Stop Unit := do
  assert (pteAddr pt = pt) .checkPtAligned
  (pagesBelow kernelStartAddr.toNat image.kernelEnd.toNat).forM fun va => do
    let vam := virtualMemoryLookup state.memory pt va
    assert (vam.pa = va) .checkKernelIdentity
    if image.startData ≤ va then
      assert (vam.perm &&& pteW.setWidth 32 ≠ 0#32) .checkKernelDataWritable
  let kstack := kernelStackTop - pageSize
  let vam := virtualMemoryLookup state.memory pt kstack
  assert (vam.pa = kstack) .checkKstackIdentity
  assert (vam.perm &&& pteW.setWidth 32 ≠ 0#32) .checkKstackWritable

/-- `check_page_table_ownership_level`, with `levels` levels below this one. -/
def checkPageTableOwnershipLevel (state : KernelState) (owner : Int) :
    Nat → UIntPtr → Int → Except Stop Unit
  | levels, pt, refcount => do
      assert (pageNumber pt < nPages) .checkPtNumber
      let page ← pageinfoIndex (pageNumber pt)
      assert ((state.pageinfo page).owner = owner) .checkPtOwner
      assert ((state.pageinfo page).refcount = refcount) .checkPtRefcount
      match levels with
      | 0 => .ok ()
      | levels + 1 =>
          (List.finRange nPageTableEntries).forM fun index => do
            let pe := readEntry state.memory pt index
            if pe ≠ 0#64 then
              checkPageTableOwnershipLevel state owner levels (pteAddr pe) 1

def usersOf (state : KernelState) (pagetable : UIntPtr) : Nat :=
  (List.finRange nproc).countP fun xpid =>
    (state.processes xpid).pState ≠ .free ∧
      (state.processes xpid).pPagetable = pagetable

def checkPageTableOwnership (image : KernelImage) (state : KernelState)
    (pt : UIntPtr) (pid : Int) : Except Stop Unit :=
  if pt = image.kernelPagetable then
    checkPageTableOwnershipLevel state poKernel 3 pt
      (1 + usersOf state image.kernelPagetable)
  else checkPageTableOwnershipLevel state pid 3 pt 1

/-- `processes[index]` for an index read from `pageinfo`. -/
def processAt (state : KernelState) (index : Int) : Except Stop Proc :=
  if inside : 0 ≤ index ∧ index < nproc then
    .ok (state.processes ⟨index.toNat, by omega⟩)
  else .error .outOfBounds

def checkVirtualMemory (image : KernelImage) (state : KernelState) :
    Except Stop Unit := do
  assert ((state.processes 0).pState = .free) .checkProcessZeroFree
  checkPageTableMappings image state image.kernelPagetable
  checkPageTableOwnership image state image.kernelPagetable (-1)
  (List.finRange nproc).forM fun pid => do
    let proc := state.processes pid
    if proc.pState ≠ .free ∧ proc.pPagetable ≠ image.kernelPagetable then
      checkPageTableMappings image state proc.pPagetable
      checkPageTableOwnership image state proc.pPagetable pid.val
  (List.finRange nPages).forM fun pn => do
    let info := state.pageinfo pn
    if info.refcount > 0 ∧ info.owner ≥ 0 then
      let proc ← processAt state info.owner
      assert (proc.pState ≠ .free) .checkOwnerActive

/-! ## memshow -/

def memstateColors : List (BitVec 16) :=
  [0x0D4B#16, 0x0752#16, 0x072E#16, 0x0C31#16, 0x0A32#16, 0x0933#16,
    0x0E34#16, 0x0F35#16, 0x0C36#16, 0x0A37#16, 0x0938#16, 0x0E39#16,
    0x0F41#16, 0x0C42#16, 0x0A43#16, 0x0944#16, 0x0E45#16, 0x0F46#16]

/-- `memstate_colors[owner - PO_KERNEL]` for the owner to show. -/
def memstateColor (info : PhysicalPageinfo) : Except Stop (BitVec 16) :=
  let owner := if info.refcount = 0 then poFree else info.owner
  let index := owner - poKernel
  if 0 ≤ index then
    match memstateColors[index.toNat]? with
    | some color => .ok color
    | none => .error .outOfBounds
  else .error .outOfBounds

def shade (info : PhysicalPageinfo) (color : BitVec 16) : BitVec 16 :=
  if info.refcount > 1 then color &&& 0x77FF#16 else color

def memshowPhysical (state : KernelState) : Except Stop (List (BitVec 16)) :=
  (List.finRange nPages).mapM fun pn => do
    let color ← memstateColor (state.pageinfo pn)
    .ok (shade (state.pageinfo pn) color)

def reverseVideo (perm : BitVec 32) (color : BitVec 16) : BitVec 16 :=
  if perm &&& pteU.setWidth 32 ≠ 0#32 then
    ((color &&& 0x0F00#16) <<< 4) ||| ((color &&& 0xF000#16) >>> 4) |||
      (color &&& 0x00FF#16)
  else color

def memshowVirtual (state : KernelState) (pagetable : UIntPtr) :
    Except Stop (List (BitVec 16)) := do
  assert (pagetable = pteAddr pagetable) .memshowAligned
  (pagesBelow 0 memsizeVirtual.toNat).mapM fun va => do
    let vam := virtualMemoryLookup state.memory pagetable va
    if vam.pn < 0 then .ok 0x0020#16
    else do
      assert (vam.pa < memsizePhysical) .memshowPhysical
      let page ← pageinfoIndex vam.pn
      let color ← memstateColor (state.pageinfo page)
      .ok (shade (state.pageinfo page) (reverseVideo vam.perm color))

/-- The loop that passes over free processes, with fuel for `2*NPROC + 1`
iterations. -/
def skipFree (state : KernelState) : Nat → Nat → Nat
  | 0, showing => showing
  | fuel + 1, showing =>
      if showing ≤ 2 * nproc ∧
          (state.processes (Fin.ofNat nproc showing)).pState = .free then
        skipFree state fuel (showing + 1)
      else showing

/-- `last_ticks` and `showing` after the choice of the process to show. -/
def nextShowing (state : KernelState) : BitVec 32 × Fin nproc :=
  let switch : Bool := state.lastTicks = 0#32 ∨ hz / 2#32 ≤ state.ticks - state.lastTicks
  let lastTicks := if switch then state.ticks else state.lastTicks
  let showing := if switch then state.showing.val + 1 else state.showing.val
  (lastTicks, Fin.ofNat nproc (skipFree state (2 * nproc + 1) showing))

def memshowVirtualAnimate (state : KernelState) : Except Stop KernelState := do
  let (lastTicks, showing) := nextShowing state
  let state := { state with lastTicks := lastTicks, showing := showing }
  if (state.processes showing).pState ≠ .free then
    let _ ← memshowVirtual state (state.processes showing).pPagetable
    .ok state
  else .ok state

/-! ## memdump -/

def memdumpPhysical (state : KernelState) : KernelState :=
  let pages := (List.finRange nPages).map fun pn =>
    (BitVec.ofInt 8 (state.pageinfo pn).owner,
      BitVec.ofInt 32 (state.pageinfo pn).refcount)
  { state with log := state.log ++ [.pmDump state.ticks pages] }

def memdumpVirtual (state : KernelState) (pagetable : UIntPtr) (pid : Pid) :
    Except Stop KernelState := do
  assert (pagetable = pteAddr pagetable) .memdumpAligned
  let entries ← (pagesBelow 0 memsizeVirtual.toNat).mapM fun va => do
    let vam := virtualMemoryLookup state.memory pagetable va
    if vam.pn < 0 then .ok (0#8, 0#8, 0#32)
    else do
      let page ← pageinfoIndex vam.pn
      .ok (BitVec.ofInt 8 (state.pageinfo page).owner,
        BitVec.ofInt 8 (state.pageinfo page).refcount, vam.perm)
  .ok { state with log := state.log ++ [.vmDump pid state.ticks entries] }

def memdumpVirtualAll : List Pid → KernelState → Except Stop KernelState
  | [], state => .ok state
  | pid :: rest, state => do
      if (state.processes pid).pState ≠ .free then
        let state ← memdumpVirtual state (state.processes pid).pPagetable pid
        memdumpVirtualAll rest state
      else memdumpVirtualAll rest state

/-- The part of `exception` under `#if TICK_LIMIT`. -/
def tickLimitDump (image : KernelImage) (state : KernelState) (reg : Registers) :
    Except Stop KernelState :=
  if image.tickLimit = 0#32 then .ok state
  else if state.ticks = image.tickLimit then .error .poweroff
  else if reg.regIntno = intTimer ∧ state.ticks % hz = 0#32 then
    memdumpVirtualAll (List.finRange nproc) (memdumpPhysical state)
  else .ok state

/-! ## check_keyboard -/

/-- `check_keyboard` when `keyboard_readc` returns `c`. -/
def checkKeyboard (c : Int) : Except Stop Unit :=
  if c = 97 then .error (.softReboot "allocator")
  else if c = 102 then .error (.softReboot "fork")
  else if c = 101 then .error (.softReboot "forkexit")
  else if c = 3 ∨ c = 113 then .error .poweroff
  else .ok ()

/-! ## run and schedule -/

def run (image : KernelImage) (state : KernelState) (p : Pid) :
    Except Stop KernelState := do
  assert ((state.processes p).pState = .runnable) .runRunnable
  setPagetable image { state with current := some p } (state.processes p).pPagetable

/-- At most `fuel` iterations of the loop of `schedule`; `keyboard i` is what the
`i`-th `check_keyboard` from now on reads. -/
def scheduleLoop (image : KernelImage) (state : KernelState) :
    Nat → (Nat → Int) → Pid → Except Stop KernelState
  | 0, _, _ => .error .spins
  | fuel + 1, keyboard, pid => do
      let pid := pid + 1
      if (state.processes pid).pState = .runnable then run image state pid
      else
        checkKeyboard (keyboard 0)
        scheduleLoop image state fuel (fun i => keyboard (i + 1)) pid

/-- `schedule`, given up after one round over all processes. -/
def schedule (image : KernelImage) (keyboard : Nat → Int) (state : KernelState)
    (currentProc : Pid) : Except Stop KernelState :=
  scheduleLoop image state nproc keyboard (state.processes currentProc).pPid

/-! ## exception -/

inductive Via where
  | run | schedule
  deriving DecidableEq, Repr

def KernelState.setProc (state : KernelState) (pid : Pid) (proc : Proc) :
    KernelState :=
  { state with processes := Function.update state.processes pid proc }

def KernelState.setRegisters (state : KernelState) (pid : Pid) (reg : Registers) :
    KernelState :=
  state.setProc pid { state.processes pid with pRegisters := reg }

def KernelState.setRax (state : KernelState) (pid : Pid) (value : Int) :
    KernelState :=
  state.setRegisters pid
    { (state.processes pid).pRegisters with regRax := BitVec.ofInt 64 value }

/-- The checks and displays before the `switch` of `exception`. -/
def exceptionChecks (image : KernelImage) (state : KernelState) (reg : Registers) :
    Except Stop KernelState :=
  if reg.regIntno ≠ intPageFault ∨ reg.regErr &&& pferrUser ≠ 0#64 then do
    checkVirtualMemory image state
    let _ ← memshowPhysical state
    let state ← memshowVirtualAnimate state
    tickLimitDump image state reg
  else .ok state

def sysPageAlloc (state : KernelState) (pid : Pid) : Except Stop KernelState := do
  let proc := state.processes pid
  let addr := proc.pRegisters.regRdi
  let (r, state) ← assignPhysicalPage state addr proc.pPid.val
  if 0 ≤ r then
    let (_, walk) ← virtualMemoryMap ⟨state.memory, 0⟩ proc.pPagetable addr addr
      pageSize pteAll none
    .ok ({ state with memory := walk.memory }.setRax pid r)
  else .ok (state.setRax pid r)

/-- The user-mode case of `INT_PAGEFAULT`. -/
def breakProcess (state : KernelState) (pid : Pid) : KernelState :=
  state.setProc pid { state.processes pid with pState := .broken }

/-- The end of `exception`: return to the current process or run something else. -/
def returnOrSchedule (image : KernelImage) (keyboard : Nat → Int)
    (state : KernelState) (pid : Pid) : Except Stop (KernelState × Via) :=
  if (state.processes pid).pState = .runnable then do
    let state ← run image state pid
    .ok (state, .run)
  else do
    let state ← schedule image keyboard state pid
    .ok (state, .schedule)

/-- `schedule` called from a case of `exception`. -/
def scheduled (image : KernelImage) (keyboard : Nat → Int) (state : KernelState)
    (pid : Pid) : Except Stop (KernelState × Via) := do
  let state ← schedule image keyboard state pid
  .ok (state, .schedule)

def exceptionSwitch (image : KernelImage) (keyboard : Nat → Int)
    (state : KernelState) (pid : Pid) (reg : Registers) :
    Except Stop (KernelState × Via) :=
  if reg.regIntno = intSysPanic then .error .sysPanic
  else if reg.regIntno = intSysGetpid then
    returnOrSchedule image keyboard
      (state.setRax pid (state.processes pid).pPid.val) pid
  else if reg.regIntno = intSysYield then scheduled image keyboard state pid
  else if reg.regIntno = intSysPageAlloc then do
    let state ← sysPageAlloc state pid
    returnOrSchedule image keyboard state pid
  else if reg.regIntno = intTimer then
    scheduled image keyboard { state with ticks := state.ticks + 1#32 } pid
  else if reg.regIntno = intPageFault then
    if reg.regErr &&& pferrUser = 0#64 then .error .kernelPageFaultPanic
    else returnOrSchedule image keyboard (breakProcess state pid) pid
  else .error (.unexpectedException reg.regIntno)

/-- `exception(reg)`; `keyboard i` is what the `i`-th `check_keyboard` reads. -/
def exception (image : KernelImage) (keyboard : Nat → Int) (state : KernelState)
    (reg : Registers) : Except Stop (KernelState × Via) :=
  match state.current with
  | none => .error .noCurrent
  | some pid => do
      let state := state.setRegisters pid reg
      let state ← setPagetable image state image.kernelPagetable
      let state ← exceptionChecks image state reg
      checkKeyboard (keyboard 0)
      exceptionSwitch image (fun i => keyboard (i + 1)) state pid reg

end OsLabs.Weensy
