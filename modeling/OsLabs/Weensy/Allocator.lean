import OsLabs.Weensy.ContextSwitch

/-!
# The allocators of the default boot

`process_main` of p-allocator.c is a relation between the points where an interrupt can
hit it.  Its two globals are words in the data pages of the process, its argument and
its results go through the registers that the kernel saves, and besides what the
program says a step may change the rest of the data pages, the stack page and the
other registers.
-/

set_option autoImplicit false

namespace OsLabs.Weensy

open OsLabs.ByteMemory OsLabs.Transition

/-! ## Pointers in memory -/

def loadPtr (memory : Memory) (address : Nat) : UIntPtr :=
  BitVec.ofNat 64 (loadLE memory address 8)

def storePtr (memory : Memory) (address : Nat) (value : UIntPtr) : Memory :=
  storeLE memory address 8 value.toNat

def roundDown (a : UIntPtr) : UIntPtr := a - a % pageSize

def roundUp (a : UIntPtr) : UIntPtr := roundDown (a + pageSize - 1#64)

theorem loadPtr_storePtr (memory : Memory) (address : Nat) (value : UIntPtr) :
    loadPtr (storePtr memory address value) address = value := by
  have bound := value.isLt
  rw [loadPtr, storePtr, loadLE_storeLE, Nat.mod_eq_of_lt (by simpa using bound),
    BitVec.ofNat_toNat, BitVec.setWidth_eq]

theorem loadPtr_congr {before after : Memory} {address : Nat}
    (same : AgreeOn before after address 8) : loadPtr after address = loadPtr before address := by
  rw [loadPtr, loadPtr, loadLE_congr same]

theorem loadPtr_storePtr_apart (memory : Memory) {address other : Nat} (value : UIntPtr)
    (apart : address + 8 ≤ other ∨ other + 8 ≤ address) :
    loadPtr (storePtr memory address value) other = loadPtr memory other :=
  loadPtr_congr (storeLE_frame memory address 8 value.toNat other 8 (by omega))

theorem roundDown_val (a : UIntPtr) : (roundDown a).toNat = a.toNat / 4096 * 4096 := by
  have size : pageSize.toNat = 4096 := rfl
  rw [roundDown, BitVec.toNat_sub, BitVec.toNat_umod, size]
  omega

theorem roundUp_toNat {a : UIntPtr} (small : a.toNat < 2 ^ 63) :
    (roundUp a).toNat = (a.toNat + 4095) / 4096 * 4096 := by
  have size : pageSize.toNat = 4096 := rfl
  have one : (1#64).toNat = 1 := rfl
  have sum : (a + pageSize - 1#64).toNat = a.toNat + 4095 := by
    rw [BitVec.toNat_sub, BitVec.toNat_add, size, one]
    omega
  rw [roundUp, roundDown_val, sum]

/-! ## Where the allocators are linked -/

def Allocates (pid : Pid) : Prop := 1 ≤ pid.val ∧ pid.val ≤ 4

def linkStart (pid : Pid) : Nat := 0x100000 + 0x40000 * (pid.val - 1)

/-- `0x100000 + pid * PROC_SIZE - PAGESIZE`, the address of the stack page. -/
def stackStart (pid : Pid) : Nat := 0x100000 + 0x40000 * pid.val - 0x1000

/-- What the linker decides about the four allocators: the address of the symbol `end`
and where `heap_top` and `stack_bottom` are. -/
structure AllocatorLink (image : KernelImage) where
  imageEnd : Pid → UIntPtr
  heapTop : Pid → Nat
  stackBottom : Pid → Nat
  endBelowStack : ∀ pid, Allocates pid → (imageEnd pid).toNat ≤ stackStart pid
  heapTopInside : ∀ pid, Allocates pid →
    linkStart pid ≤ heapTop pid ∧ heapTop pid + 8 ≤ (imageEnd pid).toNat
  stackBottomInside : ∀ pid, Allocates pid →
    linkStart pid ≤ stackBottom pid ∧ stackBottom pid + 8 ≤ (imageEnd pid).toNat
  variablesApart : ∀ pid, Allocates pid →
    heapTop pid + 8 ≤ stackBottom pid ∨ stackBottom pid + 8 ≤ heapTop pid
  segmentsInside : ∀ entry ∈ initialPrograms none, ∀ pn, imagePages image entry.2 pn →
    linkStart entry.1 / 4096 ≤ pn.val ∧ 4096 * pn.val < (imageEnd entry.1).toNat

/-! ## process_main -/

inductive Pc where
  /-- Before `sys_getpid`. -/
  | start
  /-- Back from `sys_getpid`. -/
  | gotPid
  /-- Before `heap_top = ROUNDUP((uint8_t*) end, PAGESIZE)`. -/
  | setHeap
  /-- Before `stack_bottom = ROUNDDOWN((uint8_t*) read_rsp() - 1, PAGESIZE)`. -/
  | setStack
  /-- Before the random number. -/
  | loop
  /-- Before `heap_top == stack_bottom`. -/
  | check
  /-- Before `sys_page_alloc(heap_top)`, with `heap_top` in `%rdi`. -/
  | call
  /-- Back from `sys_page_alloc`. -/
  | called
  /-- Before `*heap_top = p`. -/
  | store
  /-- Before `heap_top += PAGESIZE`. -/
  | advance
  /-- Before `sys_yield` in the first loop. -/
  | yield
  /-- In the second loop. -/
  | idle
  deriving DecidableEq, Repr

structure Thread where
  pc : Pc
  p : BitVec 32

/-- The system call that the process is about to make, and where it returns. -/
def Pc.call? : Pc → Option (Handler × Pc)
  | .start => some (.sys 1, .gotPid)
  | .call => some (.sys 3, .called)
  | .yield => some (.sys 2, .loop)
  | .idle => some (.sys 2, .idle)
  | .gotPid | .setHeap | .setStack | .loop | .check | .called | .store | .advance => none

section Program

variable {image : KernelImage}

def AllocatorLink.heapTopValue (link : AllocatorLink image) (pid : Pid)
    (memory : Memory) : UIntPtr := loadPtr memory (link.heapTop pid)

def AllocatorLink.stackBottomValue (link : AllocatorLink image) (pid : Pid)
    (memory : Memory) : UIntPtr := loadPtr memory (link.stackBottom pid)

/-- One piece of `process_main` between system calls, and the memory it stores;
`rand() % ALLOC_SLOWDOWN < p` can come out either way. -/
inductive Action (link : AllocatorLink image) (pid : Pid) (memory : Memory)
    (context : Context) : Thread → Thread → Memory → Prop
  | gotPid {p : BitVec 32} : Action link pid memory context ⟨.gotPid, p⟩
      ⟨.setHeap, (context.gpr .rax).setWidth 32⟩ memory
  | setHeap {p : BitVec 32} : Action link pid memory context ⟨.setHeap, p⟩ ⟨.setStack, p⟩
      (storePtr memory (link.heapTop pid) (roundUp (link.imageEnd pid)))
  | setStack {p : BitVec 32} : Action link pid memory context ⟨.setStack, p⟩ ⟨.loop, p⟩
      (storePtr memory (link.stackBottom pid) (roundDown (context.rsp - 1#64)))
  | drawn {p : BitVec 32} : Action link pid memory context ⟨.loop, p⟩ ⟨.check, p⟩ memory
  | passed {p : BitVec 32} : Action link pid memory context ⟨.loop, p⟩ ⟨.yield, p⟩ memory
  | full {p : BitVec 32}
      (equal : link.heapTopValue pid memory = link.stackBottomValue pid memory) :
      Action link pid memory context ⟨.check, p⟩ ⟨.idle, p⟩ memory
  | request {p : BitVec 32}
      (different : link.heapTopValue pid memory ≠ link.stackBottomValue pid memory) :
      Action link pid memory context ⟨.check, p⟩ ⟨.call, p⟩ memory
  | failed {p : BitVec 32} (negative : ((context.gpr .rax).setWidth 32).toInt < 0) :
      Action link pid memory context ⟨.called, p⟩ ⟨.idle, p⟩ memory
  | granted {p : BitVec 32} (natural : ¬ ((context.gpr .rax).setWidth 32).toInt < 0) :
      Action link pid memory context ⟨.called, p⟩ ⟨.store, p⟩ memory
  | store {p : BitVec 32} : Action link pid memory context ⟨.store, p⟩ ⟨.advance, p⟩
      (storeLE memory (link.heapTopValue pid memory).toNat 1 p.toNat)
  | advance {p : BitVec 32} : Action link pid memory context ⟨.advance, p⟩ ⟨.yield, p⟩
      (storePtr memory (link.heapTop pid) (link.heapTopValue pid memory + pageSize))

/-- The bytes that the process may use for anything: its stack page and its image
without the two variables. -/
def Scratch (link : AllocatorLink image) (pid : Pid) (x : Nat) : Prop :=
  stackStart pid ≤ x ∧ x < stackStart pid + 0x1000 ∨
  linkStart pid ≤ x ∧ x < (link.imageEnd pid).toNat ∧
    ¬ (link.heapTop pid ≤ x ∧ x < link.heapTop pid + 8) ∧
    ¬ (link.stackBottom pid ≤ x ∧ x < link.stackBottom pid + 8)

/-- The stack pointer is in the stack page, or at its end while nothing is pushed. -/
def StackPointerInside (pid : Pid) (context : Context) : Prop :=
  stackStart pid < context.rsp.toNat ∧ context.rsp.toNat ≤ stackStart pid + 0x1000

/-- A piece of `process_main` with everything else that its instructions do. -/
structure UserStep (link : AllocatorLink image) (pid : Pid) (memory : Memory)
    (context : Context) (thread : Thread) (memory' : Memory) (context' : Context)
    (thread' : Thread) : Prop where
  action : ∃ stored, Action link pid memory context thread thread' stored ∧
    ∀ x, ¬ Scratch link pid x → memory' x = stored x
  stack : StackPointerInside pid context'
  argument : thread'.pc = .call → context'.gpr .rdi = link.heapTopValue pid memory'

/-! ## The system -/

structure System where
  machine : Machine
  threads : Pid → Thread

/-- The current process goes on, is interrupted by the timer or makes its system call. -/
inductive SystemStep (link : AllocatorLink image) : System → MachineEvent → System → Prop
  | user {system : System} {pid : Pid} {memory : Memory} {context : Context}
      {thread : Thread} (current : system.machine.kernel.current = some pid)
      (step : UserStep link pid system.machine.kernel.memory system.machine.context
        (system.threads pid) memory context thread) :
      SystemStep link system .compute
        ⟨⟨{ system.machine.kernel with memory := memory }, context⟩,
          Function.update system.threads pid thread⟩
  | timer {system : System} {made : Switch} {after : Machine}
      (step : MachineStep image system.machine (.switch made) after)
      (handler : made.handler = .timer) :
      SystemStep link system (.switch made) ⟨after, system.threads⟩
  | call {system : System} {made : Switch} {after : Machine} {next : Pc}
      (step : MachineStep image system.machine (.switch made) after)
      (calls : (system.threads made.trap.pid).pc.call? = some (made.handler, next)) :
      SystemStep link system (.switch made) ⟨after,
        Function.update system.threads made.trap.pid
          { system.threads made.trap.pid with pc := next }⟩

def System.begin (first : Machine) : System := ⟨first, fun _ => ⟨.start, 0#32⟩⟩

def requests (events : List MachineEvent) : List (Pid × UIntPtr) :=
  events.filterMap fun event =>
    match event with
    | .compute => none
    | .switch made =>
        if made.handler = .sys 3 then some (made.trap.pid, made.context.gpr .rdi) else none

end Program

end OsLabs.Weensy
