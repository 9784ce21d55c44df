import OsLabs.Weensy.Allocator
import OsLabs.Weensy.Scheduling

/-!
# What the allocators do with the kernel

`ThreadInv` is what holds of one process wherever an interrupt hits it; `frontier` is the
first address of its heap that is still free.  The pieces of `process_main` and the
system calls keep it, and no step of one process touches what it says about another.
-/

set_option autoImplicit false

namespace OsLabs.Weensy

open OsLabs.ByteMemory OsLabs.Transition

/-! ## The registers of a process -/

/-- The registers that a process has or will be resumed with. -/
def liveContext (machine : Machine) (pid : Pid) : Context :=
  if machine.kernel.current = some pid then machine.context
  else (machine.kernel.processes pid).pRegisters.context

section Live

variable {image : KernelImage} {before after : Machine} {made : Switch}

theorem Switched.live_saved (switched : Switched image before made after) (pid : Pid) :
    liveContext after pid = (after.kernel.processes pid).pRegisters.context := by
  unfold liveContext
  split
  · next current =>
      rw [switched.trapped.entered] at current
      cases current
      rw [switched.restored, switched.resumed]
  · rfl

theorem Switched.live_other (switched : Switched image before made after) {pid : Pid}
    (other : pid ≠ made.trap.pid) : liveContext after pid = liveContext before pid := by
  have away : before.kernel.current ≠ some pid := by
    rw [switched.trapped.current]
    intro same
    exact other (Option.some.inj same).symm
  rw [switched.live_saved, switched.others other, liveContext, if_neg away]

theorem Switched.live_before (switched : Switched image before made after) :
    made.context = liveContext before made.trap.pid := by
  rw [switched.live, liveContext, if_pos switched.trapped.current]

/-- An exception other than a page fault leaves the process that took it resumable. -/
theorem Switched.resumes (switched : Switched image before made after)
    (handler : made.handler ≠ .pagefault) :
    Resumes made (liveContext after made.trap.pid) := by
  rw [switched.live_saved]
  rcases switched.saved.2 with ⟨_, resumes⟩ | ⟨fault, _⟩
  · exact resumes
  · exact absurd fault handler

end Live

/-! ## One process -/

section Thread

variable {image : KernelImage}

theorem linkStart_lt {pid : Pid} (allocates : Allocates pid) :
    linkStart pid + 0x3F000 = stackStart pid := by
  obtain ⟨lower, upper⟩ := allocates
  unfold linkStart stackStart
  omega

def AllocatorLink.heapStart (link : AllocatorLink image) (pid : Pid) : Nat :=
  (roundUp (link.imageEnd pid)).toNat

theorem AllocatorLink.heapStart_spec (link : AllocatorLink image) {pid : Pid}
    (allocates : Allocates pid) :
    (link.imageEnd pid).toNat ≤ link.heapStart pid ∧ link.heapStart pid ≤ stackStart pid ∧
      link.heapStart pid % 4096 = 0 := by
  have below := link.endBelowStack pid allocates
  have upper := allocates.2
  have place : stackStart pid = 0x100000 + 0x40000 * pid.val - 0x1000 := rfl
  rw [AllocatorLink.heapStart, roundUp_toNat (by omega)]
  omega

def frontier (link : AllocatorLink image) (pid : Pid) (memory : Memory) : Pc → Nat
  | .start | .gotPid | .setHeap => link.heapStart pid
  | .called | .store | .advance => (link.heapTopValue pid memory).toNat + 4096
  | .setStack | .loop | .check | .call | .yield | .idle =>
      (link.heapTopValue pid memory).toNat

structure ThreadInv (link : AllocatorLink image) (pid : Pid) (used : PhysicalPage → Prop)
    (memory : Memory) (context : Context) (thread : Thread) : Prop where
  rsp : StackPointerInside pid context
  heap : thread.pc ∉ [.start, .gotPid, .setHeap] →
    (link.heapTopValue pid memory).toNat % 4096 = 0 ∧
      link.heapStart pid ≤ (link.heapTopValue pid memory).toNat
  room : frontier link pid memory thread.pc ≤ stackStart pid
  stack : thread.pc ∉ [.start, .gotPid, .setHeap, .setStack] →
    (link.stackBottomValue pid memory).toNat = stackStart pid
  unused : ∀ pn : PhysicalPage, frontier link pid memory thread.pc ≤ 4096 * pn.val →
    4096 * pn.val < stackStart pid → ¬ used pn
  call : thread.pc = .call → context.gpr .rdi = link.heapTopValue pid memory ∧
    (link.heapTopValue pid memory).toNat < stackStart pid
  called : thread.pc = .called → context.gpr .rax = 0#64
  idle : thread.pc = .idle →
    link.heapTopValue pid memory = link.stackBottomValue pid memory

variable {link : AllocatorLink image} {pid : Pid} {used : PhysicalPage → Prop}
  {memory memory' : Memory} {context context' : Context} {thread thread' : Thread}

theorem ThreadInv.congr (inv : ThreadInv link pid used memory context thread)
    (heapTop : link.heapTopValue pid memory' = link.heapTopValue pid memory)
    (stackBottom : link.stackBottomValue pid memory' = link.stackBottomValue pid memory) :
    ThreadInv link pid used memory' context thread := by
  have same : frontier link pid memory' thread.pc = frontier link pid memory thread.pc := by
    unfold frontier
    rw [heapTop]
  refine ⟨inv.rsp, ?_, ?_, ?_, ?_, ?_, inv.called, ?_⟩
  · rw [heapTop]
    exact inv.heap
  · rw [same]
    exact inv.room
  · rw [stackBottom]
    exact inv.stack
  · rw [same]
    exact inv.unused
  · rw [heapTop]
    exact inv.call
  · rw [heapTop, stackBottom]
    exact inv.idle

theorem values_of_scratch (allocates : Allocates pid) {stored : Memory}
    (kept : ∀ x, ¬ Scratch link pid x → memory' x = stored x) :
    link.heapTopValue pid memory' = link.heapTopValue pid stored ∧
      link.stackBottomValue pid memory' = link.stackBottomValue pid stored := by
  have below := link.endBelowStack pid allocates
  have heapTop := link.heapTopInside pid allocates
  have stackBottom := link.stackBottomInside pid allocates
  constructor
  · refine loadPtr_congr ?_
    intro x lower upper
    refine kept x ?_
    unfold Scratch
    omega
  · refine loadPtr_congr ?_
    intro x lower upper
    refine kept x ?_
    unfold Scratch
    omega

theorem roundDown_rsp (allocates : Allocates pid) (inside : StackPointerInside pid context) :
    (roundDown (context.rsp - 1#64)).toNat = stackStart pid := by
  obtain ⟨lower, upper⟩ := inside
  obtain ⟨positive, few⟩ := allocates
  have one : (1#64).toNat = 1 := rfl
  have place : stackStart pid = 0x100000 + 0x40000 * pid.val - 0x1000 := rfl
  have value : (context.rsp - 1#64).toNat = context.rsp.toNat - 1 := by
    rw [BitVec.toNat_sub, one]
    omega
  rw [roundDown_val, value]
  omega

theorem values_of_heapStore (allocates : Allocates pid) (byte : Nat)
    (start : link.heapStart pid ≤ (link.heapTopValue pid memory).toNat) :
    link.heapTopValue pid (storeLE memory (link.heapTopValue pid memory).toNat 1 byte) =
        link.heapTopValue pid memory ∧
      link.stackBottomValue pid (storeLE memory (link.heapTopValue pid memory).toNat 1 byte) =
        link.stackBottomValue pid memory := by
  have above := (link.heapStart_spec allocates).1
  have heapTop := link.heapTopInside pid allocates
  have stackBottom := link.stackBottomInside pid allocates
  constructor
  · exact loadPtr_congr (storeLE_frame _ _ _ _ _ _ (by omega))
  · exact loadPtr_congr (storeLE_frame _ _ _ _ _ _ (by omega))

theorem values_of_heapTop (allocates : Allocates pid) (value : UIntPtr) :
    link.heapTopValue pid (storePtr memory (link.heapTop pid) value) = value ∧
      link.stackBottomValue pid (storePtr memory (link.heapTop pid) value) =
        link.stackBottomValue pid memory := by
  have apart := link.variablesApart pid allocates
  exact ⟨loadPtr_storePtr _ _ _, loadPtr_storePtr_apart _ _ (by omega)⟩

theorem values_of_stackBottom (allocates : Allocates pid) (value : UIntPtr) :
    link.heapTopValue pid (storePtr memory (link.stackBottom pid) value) =
        link.heapTopValue pid memory ∧
      link.stackBottomValue pid (storePtr memory (link.stackBottom pid) value) = value := by
  have apart := link.variablesApart pid allocates
  exact ⟨loadPtr_storePtr_apart _ _ (by omega), loadPtr_storePtr _ _ _⟩

/-- The heap of an allocator ends far below the end of the address space. -/
theorem heapTop_advance (allocates : Allocates pid)
    (room : (link.heapTopValue pid memory).toNat + 4096 ≤ stackStart pid) :
    (link.heapTopValue pid memory + pageSize).toNat =
      (link.heapTopValue pid memory).toNat + 4096 := by
  have few := allocates.2
  have place : stackStart pid = 0x100000 + 0x40000 * pid.val - 0x1000 := rfl
  have size : pageSize.toNat = 4096 := rfl
  rw [BitVec.toNat_add, size]
  omega

/-- What a piece of `process_main` does to the variables and the free heap. -/
theorem Action.spec {stored : Memory} (allocates : Allocates pid)
    (inv : ThreadInv link pid used memory context thread)
    (action : Action link pid memory context thread thread' stored) :
    (thread'.pc ∉ [.start, .gotPid, .setHeap] →
      (link.heapTopValue pid stored).toNat % 4096 = 0 ∧
        link.heapStart pid ≤ (link.heapTopValue pid stored).toNat) ∧
    frontier link pid stored thread'.pc = frontier link pid memory thread.pc ∧
    (thread'.pc ∉ [.start, .gotPid, .setHeap, .setStack] →
      (link.stackBottomValue pid stored).toNat = stackStart pid) ∧
    (thread'.pc = .call → (link.heapTopValue pid stored).toNat < stackStart pid) ∧
    thread'.pc ≠ .called ∧
    (thread'.pc = .idle →
      link.heapTopValue pid stored = link.stackBottomValue pid stored) := by
  have startAligned := (link.heapStart_spec allocates).2.2
  have room := inv.room
  have heap := inv.heap
  have stack := inv.stack
  cases action with
  | gotPid => simp [frontier]
  | setHeap =>
      have value := (@values_of_heapTop _ link _ memory allocates (roundUp (link.imageEnd pid))).1
      refine ⟨?_, ?_, by simp, by simp, by simp, by simp⟩
      · intro _
        rw [value]
        exact ⟨startAligned, le_refl _⟩
      · simp only [frontier, value]
        rfl
  | setStack =>
      obtain ⟨same, value⟩ := @values_of_stackBottom _ link _ memory allocates
        (roundDown (context.rsp - 1#64))
      refine ⟨?_, ?_, ?_, by simp, by simp, by simp⟩
      · intro _
        rw [same]
        exact heap (by simp)
      · simp only [frontier, same]
      · intro _
        rw [value]
        exact roundDown_rsp allocates inv.rsp
  | drawn =>
      exact ⟨fun _ => heap (by simp), rfl, fun _ => stack (by simp), by simp, by simp,
        by simp⟩
  | passed =>
      exact ⟨fun _ => heap (by simp), rfl, fun _ => stack (by simp), by simp, by simp,
        by simp⟩
  | full equal =>
      exact ⟨fun _ => heap (by simp), rfl, fun _ => stack (by simp), by simp, by simp,
        fun _ => equal⟩
  | request different =>
      refine ⟨fun _ => heap (by simp), rfl, fun _ => stack (by simp), ?_, by simp, by simp⟩
      intro _
      have bottom := stack (by simp)
      have distinct : (link.heapTopValue pid memory).toNat ≠
          (link.stackBottomValue pid memory).toNat := fun same =>
        different (BitVec.eq_of_toNat_eq same)
      simp only [frontier] at room
      omega
  | failed negative =>
      rw [inv.called rfl] at negative
      exact absurd negative (by decide)
  | granted natural =>
      exact ⟨fun _ => heap (by simp), rfl, fun _ => stack (by simp), by simp, by simp,
        by simp⟩
  | @store p =>
      obtain ⟨heapSame, stackSame⟩ :=
        values_of_heapStore allocates p.toNat (heap (by simp)).2
      refine ⟨?_, ?_, ?_, by simp, by simp, by simp⟩
      · intro _
        rw [heapSame]
        exact heap (by simp)
      · simp only [frontier, heapSame]
      · intro _
        rw [stackSame]
        exact stack (by simp)
  | advance =>
      obtain ⟨value, same⟩ := @values_of_heapTop _ link _ memory allocates
        (link.heapTopValue pid memory + pageSize)
      have sum := heapTop_advance allocates room
      obtain ⟨aligned, start⟩ := heap (by simp)
      refine ⟨?_, ?_, ?_, by simp, by simp, by simp⟩
      · intro _
        rw [value, sum]
        omega
      · simp only [frontier, value, sum]
      · intro _
        rw [same]
        exact stack (by simp)

/-- A piece of `process_main` keeps the invariant and the free heap. -/
theorem ThreadInv.userStep (allocates : Allocates pid)
    (inv : ThreadInv link pid used memory context thread)
    (step : UserStep link pid memory context thread memory' context' thread') :
    ThreadInv link pid used memory' context' thread' ∧
      frontier link pid memory' thread'.pc = frontier link pid memory thread.pc := by
  obtain ⟨⟨stored, action, kept⟩, stack, argument⟩ := step
  obtain ⟨heapTop, stackBottom⟩ := values_of_scratch allocates kept
  obtain ⟨heap, same, bottom, call, notCalled, idle⟩ := action.spec allocates inv
  have front : frontier link pid memory' thread'.pc = frontier link pid memory thread.pc := by
    rw [← same]
    unfold frontier
    rw [heapTop]
  refine ⟨⟨stack, ?_, ?_, ?_, ?_, ?_, fun called => absurd called notCalled, ?_⟩, front⟩
  · rw [heapTop]
    exact heap
  · rw [front]
    exact inv.room
  · rw [stackBottom]
    exact bottom
  · rw [front]
    exact inv.unused
  · intro calling
    refine ⟨argument calling, ?_⟩
    rw [heapTop]
    exact call calling
  · rw [heapTop, stackBottom]
    exact idle

/-- A piece of `process_main` writes only between the beginning of the image and the end of
the stack page. -/
theorem UserStep.frame (allocates : Allocates pid)
    (inv : ThreadInv link pid used memory context thread)
    (step : UserStep link pid memory context thread memory' context' thread') {x : Nat}
    (outside : x < linkStart pid ∨ stackStart pid + 0x1000 ≤ x) : memory' x = memory x := by
  obtain ⟨⟨stored, action, kept⟩, _, _⟩ := step
  have below := link.endBelowStack pid allocates
  have heapTop := link.heapTopInside pid allocates
  have stackBottom := link.stackBottomInside pid allocates
  have region := linkStart_lt allocates
  have heapStart := link.heapStart_spec allocates
  have notScratch : ¬ Scratch link pid x := by
    unfold Scratch
    omega
  rw [kept x notScratch]
  cases action with
  | setHeap => exact storeLE_frame _ _ _ _ x 1 (by omega) x (le_refl _) (by omega)
  | setStack => exact storeLE_frame _ _ _ _ x 1 (by omega) x (le_refl _) (by omega)
  | store =>
      have start := (inv.heap (by simp)).2
      have room := inv.room
      simp only [frontier] at room
      exact storeLE_frame _ _ _ _ x 1 (by omega) x (le_refl _) (by omega)
  | advance => exact storeLE_frame _ _ _ _ x 1 (by omega) x (le_refl _) (by omega)
  | _ => rfl

end Thread

/-! ## System calls and the timer -/

section Calls

variable {image : KernelImage} {link : AllocatorLink image} {before after : Machine}
  {made : Switch} {pid : Pid} {memory : Memory} {thread : Thread}

theorem Switched.pageinfo_kept (switched : Switched image before made after)
    (handler : made.handler ≠ .sys 3) :
    after.kernel.pageinfo = before.kernel.pageinfo := by
  refine switched.trapped.pageinfo_kept ?_
  intro intno
  rw [switched.intno] at intno
  exact handler ((@Handler.intno_eq made.handler).2.2.1 intno)

theorem Switched.same (switched : Switched image before made after)
    (handler : made.handler = .sys 2 ∨ made.handler = .timer) :
    liveContext after made.trap.pid = liveContext before made.trap.pid := by
  have notFault : made.handler ≠ .pagefault := by
    rcases handler with is | is <;> rw [is] <;> decide
  have resumes := switched.resumes notFault
  rw [← switched.live_before]
  generalize liveContext after made.trap.pid = context at resumes ⊢
  cases resumes with
  | same _ => rfl
  | getpid other => rcases handler with is | is <;> rw [is] at other <;> simp at other
  | allocated other _ => rcases handler with is | is <;> rw [is] at other <;> simp at other
  | refused other _ => rcases handler with is | is <;> rw [is] at other <;> simp at other

theorem Switched.getpid (switched : Switched image before made after)
    (handler : made.handler = .sys 1) :
    (liveContext after made.trap.pid).rsp = (liveContext before made.trap.pid).rsp := by
  have resumes := switched.resumes (by rw [handler]; decide)
  rw [← switched.live_before]
  generalize liveContext after made.trap.pid = context at resumes ⊢
  cases resumes <;> rfl

theorem Switched.alloc (switched : Switched image before made after)
    (handler : made.handler = .sys 3)
    (able : Assignable before.kernel.pageinfo (made.context.gpr .rdi)) :
    liveContext after made.trap.pid =
        (liveContext before made.trap.pid).withRax 0#64 ∧
      made.trap.saved.regRax = 0#64 ∧
      ∀ pn, Used after.kernel pn → Used before.kernel pn ∨
        pn = physicalPage (made.context.gpr .rdi) := by
  have intno : made.trap.reg.regIntno = intSysPageAlloc := by
    rw [switched.intno, handler]
    rfl
  have argument : made.context.gpr .rdi = made.trap.reg.regRdi := by
    rw [← switched.context]
    rfl
  refine ⟨?_, ?_, ?_⟩
  · have resumes := switched.resumes (by rw [handler]; decide)
    rw [← switched.live_before]
    generalize liveContext after made.trap.pid = context at resumes ⊢
    cases resumes with
    | allocated _ _ => rfl
    | refused _ unable =>
        rw [switched.pageinfo] at unable
        exact absurd able unable
    | getpid other => rw [handler] at other; simp at other
    | same other => rcases other with is | is <;> rw [handler] at is <;> simp at is
  · rcases switched.trapped.page_alloc intno with ⟨_, zero, _⟩ | ⟨unable, _, _⟩
    · exact zero
    · rw [← argument] at unable
      exact absurd able unable
  · intro pn used
    rcases switched.trapped.page_alloc intno with ⟨_, _, changed⟩ | ⟨unable, _, _⟩
    · rw [Used, changed, ← argument] at used
      by_cases here : pn = physicalPage (made.context.gpr .rdi)
      · exact Or.inr here
      · rw [Function.update_of_ne here] at used
        exact Or.inl used
    · rw [← argument] at unable
      exact absurd able unable

end Calls

/-! ## The system -/

section Systems

variable {image : KernelImage} {link : AllocatorLink image}

structure AllocatorsInv (link : AllocatorLink image) (seen : List MachineEvent)
    (system : System) : Prop where
  running : Running image system.machine.kernel
  alone : ∀ pid, Runnable system.machine.kernel pid → Allocates pid
  thread : ∀ pid, Allocates pid →
    ThreadInv link pid (Used system.machine.kernel) system.machine.kernel.memory
      (liveContext system.machine pid) (system.threads pid)
  asked : ∀ entry ∈ requests seen, Allocates entry.1 ∧
    link.heapStart entry.1 ≤ entry.2.toNat ∧ entry.2.toNat % 4096 = 0 ∧
    entry.2.toNat < frontier link entry.1 system.machine.kernel.memory
      (system.threads entry.1).pc
  once : ((requests seen).map Prod.snd).Nodup
  granted : ∀ made, .switch made ∈ seen → made.handler = .sys 3 →
    made.trap.saved.regRax = 0#64

theorem requests_compute (seen : List MachineEvent) :
    requests (seen ++ [.compute]) = requests seen := by
  simp [requests]

theorem requests_other (seen : List MachineEvent) {made : Switch}
    (handler : made.handler ≠ .sys 3) :
    requests (seen ++ [.switch made]) = requests seen := by
  simp [requests, handler]

theorem requests_alloc (seen : List MachineEvent) {made : Switch}
    (handler : made.handler = .sys 3) :
    requests (seen ++ [.switch made]) =
      requests seen ++ [(made.trap.pid, made.context.gpr .rdi)] := by
  simp [requests, handler]

theorem regions_apart {left right : Pid} (leftIn : Allocates left) (rightIn : Allocates right)
    (different : left ≠ right) :
    stackStart left + 0x1000 ≤ linkStart right ∨
      stackStart right + 0x1000 ≤ linkStart left := by
  have values : left.val ≠ right.val := fun same => different (Fin.ext same)
  obtain ⟨leftLower, leftUpper⟩ := leftIn
  obtain ⟨rightLower, rightUpper⟩ := rightIn
  unfold stackStart linkStart
  omega

/-- A piece of `process_main` of one process keeps the invariant of another. -/
theorem ThreadInv.otherStep {pid other : Pid} {used : PhysicalPage → Prop}
    {memory memory' : Memory} {context context' : Context}
    {thread thread' : Thread} (allocates : Allocates pid)
    (inv : ThreadInv link pid used memory context thread)
    (step : UserStep link pid memory context thread memory' context' thread')
    (otherAllocates : Allocates other) (different : other ≠ pid) :
    link.heapTopValue other memory' = link.heapTopValue other memory ∧
      link.stackBottomValue other memory' = link.stackBottomValue other memory := by
  have apart := regions_apart otherAllocates allocates different
  have below := link.endBelowStack other otherAllocates
  have heapTop := link.heapTopInside other otherAllocates
  have stackBottom := link.stackBottomInside other otherAllocates
  have otherRegion := linkStart_lt otherAllocates
  have region := linkStart_lt allocates
  constructor
  · refine loadPtr_congr ?_
    intro x lower upper
    exact step.frame allocates inv (by omega)
  · refine loadPtr_congr ?_
    intro x lower upper
    exact step.frame allocates inv (by omega)

theorem SystemStep.machine {before after : System} {event : MachineEvent}
    {seen : List MachineEvent} (inv : AllocatorsInv link seen before)
    (step : SystemStep link before event after) :
    MachineStep image before.machine event after.machine := by
  cases step with
  | timer step _ => exact step
  | call step _ => exact step
  | @user pid memory context thread current step =>
      obtain ⟨here, running, runnable⟩ := inv.running.entered
      rw [current] at running
      cases running
      have allocates := inv.alone pid runnable
      have region := linkStart_lt allocates
      have start : 0x100000 ≤ linkStart pid := by
        unfold linkStart
        omega
      have kernelTop : kernelStackTop.toNat = 0x80000 := rfl
      have kernelEnd := image.endBelowStack
      have thread := inv.thread pid allocates
      rw [liveContext, if_pos current] at thread
      refine .compute ?_
      intro x kernelMemory
      unfold KernelMemory at kernelMemory
      exact step.frame allocates thread (by omega)

theorem ThreadInv.heapStart_le {pid : Pid} {used : PhysicalPage → Prop} {memory : Memory}
    {context : Context} {thread : Thread}
    (inv : ThreadInv link pid used memory context thread) :
    link.heapStart pid ≤ frontier link pid memory thread.pc := by
  have heap := inv.heap
  cases place : thread.pc <;> simp [frontier, place] at heap ⊢ <;> omega

theorem ThreadInv.grow {pid : Pid} {used more : PhysicalPage → Prop} {memory : Memory}
    {context : Context} {thread : Thread}
    (inv : ThreadInv link pid used memory context thread)
    (grown : ∀ pn : PhysicalPage, more pn → link.heapStart pid ≤ 4096 * pn.val →
      4096 * pn.val < stackStart pid → used pn) :
    ThreadInv link pid more memory context thread := by
  have start := inv.heapStart_le
  refine ⟨inv.rsp, inv.heap, inv.room, inv.stack, ?_, inv.call, inv.called, inv.idle⟩
  intro pn lower upper taken
  exact inv.unused pn lower upper (grown pn taken (by omega) upper)

structure Requested (link : AllocatorLink image) (before : System) (made : Switch) :
    Prop where
  lower : frontier link made.trap.pid before.machine.kernel.memory
    (before.threads made.trap.pid).pc = (made.context.gpr .rdi).toNat
  upper : (made.context.gpr .rdi).toNat + 4096 ≤ stackStart made.trap.pid
  aligned : (made.context.gpr .rdi).toNat % 4096 = 0
  able : Assignable before.machine.kernel.pageinfo (made.context.gpr .rdi)

theorem ThreadInv.requested {before : System} {made : Switch} {next : Pc}
    (allocates : Allocates made.trap.pid)
    (inv : ThreadInv link made.trap.pid (Used before.machine.kernel)
      before.machine.kernel.memory (liveContext before.machine made.trap.pid)
      (before.threads made.trap.pid))
    (live : made.context = liveContext before.machine made.trap.pid)
    (calls : (before.threads made.trap.pid).pc.call? = some (made.handler, next))
    (handler : made.handler = .sys 3) :
    (before.threads made.trap.pid).pc = .call ∧ Requested link before made := by
  have pc : (before.threads made.trap.pid).pc = .call := by
    rw [handler] at calls
    generalize (before.threads made.trap.pid).pc = pc at calls
    cases pc <;> simp [Pc.call?] at calls ⊢
  obtain ⟨argument, below⟩ := inv.call pc
  rw [← live] at argument
  have aligned := (inv.heap (by simp [pc])).1
  obtain ⟨positive, few⟩ := allocates
  have place : stackStart made.trap.pid = 0x100000 + 0x40000 * made.trap.pid.val - 0x1000 :=
    rfl
  have limit : memsizePhysical.toNat = 0x200000 := rfl
  have front : frontier link made.trap.pid before.machine.kernel.memory
      (before.threads made.trap.pid).pc = (made.context.gpr .rdi).toNat := by
    rw [pc, argument]
    rfl
  rw [← argument] at aligned below
  have inside : (made.context.gpr .rdi).toNat < memsizePhysical.toNat := by omega
  have value := physicalPage_val inside
  refine ⟨pc, front, by omega, aligned, aligned, inside, ?_⟩
  by_contra taken
  refine inv.unused (physicalPage (made.context.gpr .rdi)) ?_ ?_ taken
  · rw [front]
    omega
  · omega

theorem ThreadInv.returned {pid : Pid} {used : PhysicalPage → Prop} {memory : Memory}
    {context context' : Context} {thread : Thread} {handler : Handler} {next : Pc}
    (inv : ThreadInv link pid used memory context thread)
    (calls : thread.pc.call? = some (handler, next)) (other : handler ≠ .sys 3)
    (rsp : StackPointerInside pid context') :
    ThreadInv link pid used memory context' { thread with pc := next } ∧
      frontier link pid memory thread.pc = frontier link pid memory next := by
  obtain ⟨_, heap, room, stack, unused, _, _, idle⟩ := inv
  obtain ⟨pc, p⟩ := thread
  cases pc with
  | start =>
      cases calls
      exact ⟨⟨rsp, by simp, room, by simp, unused, by simp, by simp, by simp⟩, rfl⟩
  | yield =>
      cases calls
      exact ⟨⟨rsp, fun _ => heap (by simp), room, fun _ => stack (by simp), unused,
        by simp, by simp, by simp⟩, rfl⟩
  | idle =>
      cases calls
      exact ⟨⟨rsp, heap, room, stack, unused, by simp, by simp, idle⟩, rfl⟩
  | call =>
      cases calls
      exact absurd rfl other
  | _ => cases calls

theorem ThreadInv.allocated {pid : Pid} {used more : PhysicalPage → Prop}
    {memory : Memory} {context : Context} {thread : Thread}
    (inv : ThreadInv link pid used memory context thread) (pc : thread.pc = .call)
    (upper : (link.heapTopValue pid memory).toNat + 4096 ≤ stackStart pid)
    (grown : ∀ pn : PhysicalPage, more pn →
      used pn ∨ 4096 * pn.val = (link.heapTopValue pid memory).toNat) :
    ThreadInv link pid more memory (context.withRax 0#64) { thread with pc := .called } := by
  have heap := inv.heap (by simp [pc])
  refine ⟨inv.rsp, fun _ => heap, upper, fun _ => inv.stack (by simp [pc]), ?_, by simp,
    fun _ => rfl, by simp⟩
  intro pn lower below taken
  simp only [frontier] at lower
  rcases grown pn taken with before | same
  · refine inv.unused pn ?_ below before
    rw [pc]
    simp only [frontier]
    omega
  · omega

theorem ThreadInv.calls {before : System} {after : Machine} {made : Switch} {next : Pc}
    (allocates : Allocates made.trap.pid)
    (inv : ThreadInv link made.trap.pid (Used before.machine.kernel)
      before.machine.kernel.memory (liveContext before.machine made.trap.pid)
      (before.threads made.trap.pid))
    (switched : Switched image before.machine made after)
    (calls : (before.threads made.trap.pid).pc.call? = some (made.handler, next)) :
    ThreadInv link made.trap.pid (Used after.kernel) after.kernel.memory
      (liveContext after made.trap.pid)
      { before.threads made.trap.pid with pc := next } ∧
    frontier link made.trap.pid before.machine.kernel.memory
        (before.threads made.trap.pid).pc +
      (if made.handler = .sys 3 then 4096 else 0) =
      frontier link made.trap.pid after.kernel.memory next := by
  have memory : after.kernel.memory = before.machine.kernel.memory :=
    switched.trapped.handled.settled.memory
  rw [memory]
  by_cases alloc : made.handler = .sys 3
  · obtain ⟨pc, requested⟩ := inv.requested allocates switched.live_before calls alloc
    obtain ⟨live, _, grown⟩ := switched.alloc alloc requested.able
    have upper := requested.upper
    have argument := (inv.call pc).1
    rw [← switched.live_before] at argument
    have value := physicalPage_val requested.able.2.1
    have aligned := requested.aligned
    rw [argument] at upper value grown aligned
    rw [pc, alloc] at calls
    cases calls
    rw [live, pc, if_pos alloc]
    refine ⟨inv.allocated pc upper ?_, rfl⟩
    intro pn taken
    refine (grown pn taken).imp_right ?_
    rintro rfl
    omega
  · have used : Used after.kernel = Used before.machine.kernel := by
      funext pn
      rw [Used, switched.pageinfo_kept alloc]
      rfl
    rw [used, if_neg alloc]
    refine inv.returned calls alloc ?_
    have rsp : (liveContext after made.trap.pid).rsp =
        (liveContext before.machine made.trap.pid).rsp := by
      by_cases getpid : made.handler = .sys 1
      · exact switched.getpid getpid
      · have yield : made.handler = .sys 2 := by
          generalize (before.threads made.trap.pid).pc = pc at calls
          cases pc <;> simp [Pc.call?] at calls <;> simp_all
        rw [switched.same (Or.inl yield)]
    rw [StackPointerInside, rsp]
    exact inv.rsp

theorem AllocatorsInv.user {seen : List MachineEvent} {system : System} {pid : Pid}
    {memory : Memory} {context : Context} {thread : Thread}
    (inv : AllocatorsInv link seen system)
    (current : system.machine.kernel.current = some pid)
    (step : UserStep link pid system.machine.kernel.memory system.machine.context
      (system.threads pid) memory context thread) :
    AllocatorsInv link (seen ++ [.compute])
      ⟨⟨{ system.machine.kernel with memory := memory }, context⟩,
        Function.update system.threads pid thread⟩ := by
  have machine := (SystemStep.user current step).machine inv
  obtain ⟨here, running, runnable⟩ := inv.running.entered
  rw [current] at running
  cases running
  have allocates := inv.alone pid runnable
  have own := inv.thread pid allocates
  rw [liveContext, if_pos current] at own
  obtain ⟨kept, front⟩ := own.userStep allocates step
  have others := fun (other : Pid) (otherAllocates : Allocates other) (different : other ≠ pid) =>
    own.otherStep allocates step otherAllocates different
  refine ⟨machine.kernel.running inv.running, inv.alone, ?_, ?_, ?_, ?_⟩
  · intro other otherAllocates
    by_cases same : other = pid
    · subst same
      simp only [Function.update_self, liveContext, if_pos current]
      exact kept
    · obtain ⟨heapTop, stackBottom⟩ := others other otherAllocates same
      have away : system.machine.kernel.current ≠ some other := by
        rw [current]
        intro equal
        exact same (Option.some.inj equal).symm
      have thread := inv.thread other otherAllocates
      rw [liveContext, if_neg away] at thread
      simp only [Function.update_of_ne same, liveContext, if_neg away]
      exact thread.congr heapTop stackBottom
  · intro entry member
    rw [requests_compute] at member
    obtain ⟨entryAllocates, lower, aligned, upper⟩ := inv.asked entry member
    refine ⟨entryAllocates, lower, aligned, ?_⟩
    by_cases same : entry.1 = pid
    · rw [same] at upper ⊢
      simp only [Function.update_self, front]
      exact upper
    · simp only [Function.update_of_ne same]
      unfold frontier at upper ⊢
      rw [(others entry.1 entryAllocates same).1]
      exact upper
  · rw [requests_compute]
    exact inv.once
  · intro made member
    simp only [List.mem_append, List.mem_singleton, reduceCtorEq, or_false] at member
    exact inv.granted made member

theorem AllocatorsInv.others {seen : List MachineEvent} {system : System} {made : Switch}
    {after : Machine} (inv : AllocatorsInv link seen system)
    (switched : Switched image system.machine made after)
    (grown : ∀ pn, Used after.kernel pn → Used system.machine.kernel pn ∨
      linkStart made.trap.pid ≤ 4096 * pn.val ∧ 4096 * pn.val < stackStart made.trap.pid)
    (allocates : Allocates made.trap.pid) {other : Pid} (otherAllocates : Allocates other)
    (different : other ≠ made.trap.pid) :
    ThreadInv link other (Used after.kernel) after.kernel.memory (liveContext after other)
      (system.threads other) := by
  have memory : after.kernel.memory = system.machine.kernel.memory :=
    switched.trapped.handled.settled.memory
  have apart := regions_apart otherAllocates allocates different
  have region := linkStart_lt otherAllocates
  have start := link.heapStart_spec otherAllocates
  have heapTop := link.heapTopInside other otherAllocates
  rw [memory, switched.live_other different]
  refine (inv.thread other otherAllocates).grow ?_
  intro pn taken lower upper
  refine (grown pn taken).resolve_right ?_
  omega

theorem AllocatorsInv.plain {seen : List MachineEvent} {system : System} {made : Switch}
    {after : Machine} {thread : Thread} (inv : AllocatorsInv link seen system)
    (step : MachineStep image system.machine (.switch made) after)
    (handler : made.handler ≠ .sys 3)
    (kept : ThreadInv link made.trap.pid (Used after.kernel) after.kernel.memory
      (liveContext after made.trap.pid) thread)
    (front : frontier link made.trap.pid system.machine.kernel.memory
        (system.threads made.trap.pid).pc =
      frontier link made.trap.pid after.kernel.memory thread.pc) :
    AllocatorsInv link (seen ++ [.switch made])
      ⟨after, Function.update system.threads made.trap.pid thread⟩ := by
  have switched := step.switched inv.running
  have allocates := inv.alone _ switched.trapped.runnable
  have memory : after.kernel.memory = system.machine.kernel.memory :=
    switched.trapped.handled.settled.memory
  have grown : ∀ pn, Used after.kernel pn → Used system.machine.kernel pn ∨
      linkStart made.trap.pid ≤ 4096 * pn.val ∧
        4096 * pn.val < stackStart made.trap.pid := by
    intro pn taken
    rw [Used, switched.pageinfo_kept handler] at taken
    exact Or.inl taken
  refine ⟨step.kernel.running inv.running, ?_, ?_, ?_, ?_, ?_⟩
  · intro pid runnable
    exact inv.alone pid (switched.trapped.runnable_before runnable)
  · intro pid pidAllocates
    by_cases same : pid = made.trap.pid
    · subst same
      simp only [Function.update_self]
      exact kept
    · simp only [Function.update_of_ne same]
      exact inv.others switched grown allocates pidAllocates same
  · intro entry member
    rw [requests_other seen handler] at member
    obtain ⟨entryAllocates, lower, aligned, upper⟩ := inv.asked entry member
    refine ⟨entryAllocates, lower, aligned, ?_⟩
    by_cases same : entry.1 = made.trap.pid
    · rw [same] at upper ⊢
      simp only [Function.update_self, ← front]
      exact upper
    · simp only [Function.update_of_ne same, memory]
      exact upper
  · rw [requests_other seen handler]
    exact inv.once
  · intro other member alloc
    rw [List.mem_append, List.mem_singleton] at member
    rcases member with earlier | now
    · exact inv.granted other earlier alloc
    · cases now
      exact absurd alloc handler

theorem AllocatorsInv.fresh {seen : List MachineEvent} {system : System} {made : Switch}
    (inv : AllocatorsInv link seen system) (allocates : Allocates made.trap.pid)
    (requested : Requested link system made) :
    made.context.gpr .rdi ∉ (requests seen).map Prod.snd := by
  intro member
  obtain ⟨entry, asked, same⟩ := List.mem_map.mp member
  obtain ⟨entryAllocates, lower, _, upper⟩ := inv.asked entry asked
  have own := inv.thread _ allocates
  have start := own.heapStart_le
  rw [requested.lower] at start
  rw [same] at lower upper
  by_cases here : entry.1 = made.trap.pid
  · rw [here, requested.lower] at upper
    omega
  · have apart := regions_apart entryAllocates allocates here
    have room := (inv.thread _ entryAllocates).room
    have ownUpper := requested.upper
    have entryStart := link.heapStart_spec entryAllocates
    have ownStart := link.heapStart_spec allocates
    have entryTop := link.heapTopInside _ entryAllocates
    have ownTop := link.heapTopInside _ allocates
    have entryRegion := linkStart_lt entryAllocates
    have ownRegion := linkStart_lt allocates
    omega

theorem AllocatorsInv.alloc {seen : List MachineEvent} {system : System} {made : Switch}
    {after : Machine} {next : Pc} (inv : AllocatorsInv link seen system)
    (step : MachineStep image system.machine (.switch made) after)
    (calls : (system.threads made.trap.pid).pc.call? = some (made.handler, next))
    (handler : made.handler = .sys 3) :
    AllocatorsInv link (seen ++ [.switch made])
      ⟨after, Function.update system.threads made.trap.pid
        { system.threads made.trap.pid with pc := next }⟩ := by
  have switched := step.switched inv.running
  have allocates := inv.alone _ switched.trapped.runnable
  have own := inv.thread _ allocates
  obtain ⟨kept, front⟩ := own.calls allocates switched calls
  obtain ⟨_, requested⟩ := own.requested allocates switched.live_before calls handler
  obtain ⟨_, granted, grown⟩ := switched.alloc handler requested.able
  have memory : after.kernel.memory = system.machine.kernel.memory :=
    switched.trapped.handled.settled.memory
  have start := own.heapStart_le
  have upper := requested.upper
  have aligned := requested.aligned
  have value := physicalPage_val requested.able.2.1
  rw [if_pos handler, requested.lower] at front
  rw [requested.lower] at start
  have heapStart := link.heapStart_spec allocates
  have heapTop := link.heapTopInside _ allocates
  refine ⟨step.kernel.running inv.running, ?_, ?_, ?_, ?_, ?_⟩
  · intro pid runnable
    exact inv.alone pid (switched.trapped.runnable_before runnable)
  · intro pid pidAllocates
    by_cases same : pid = made.trap.pid
    · subst same
      simp only [Function.update_self]
      exact kept
    · simp only [Function.update_of_ne same]
      refine inv.others switched ?_ allocates pidAllocates same
      intro pn taken
      refine (grown pn taken).imp_right ?_
      rintro rfl
      omega
  · intro entry member
    rw [requests_alloc seen handler, List.mem_append, List.mem_singleton] at member
    rcases member with earlier | rfl
    · obtain ⟨entryAllocates, lower, entryAligned, entryUpper⟩ := inv.asked entry earlier
      refine ⟨entryAllocates, lower, entryAligned, ?_⟩
      by_cases same : entry.1 = made.trap.pid
      · rw [same, requested.lower] at entryUpper
        rw [same]
        simp only [Function.update_self, ← front]
        omega
      · simp only [Function.update_of_ne same, memory]
        exact entryUpper
    · refine ⟨allocates, start, aligned, ?_⟩
      simp only [Function.update_self, ← front]
      omega
  · rw [requests_alloc seen handler, List.map_append, List.nodup_append]
    refine ⟨inv.once, by simp, ?_⟩
    intro earlier member other only same
    simp only [List.map_cons, List.map_nil, List.mem_singleton] at only
    rw [same, only] at member
    exact inv.fresh allocates requested member
  · intro other member _
    rw [List.mem_append, List.mem_singleton] at member
    rcases member with earlier | now
    · exact inv.granted other earlier ‹_›
    · cases now
      exact granted

theorem AllocatorsInv.step {seen : List MachineEvent} {before after : System}
    {event : MachineEvent} (inv : AllocatorsInv link seen before)
    (step : SystemStep link before event after) :
    AllocatorsInv link (seen ++ [event]) after := by
  cases step with
  | user current step => exact inv.user current step
  | @timer made machine step handler =>
      have switched := step.switched inv.running
      have allocates := inv.alone _ switched.trapped.runnable
      have other : made.handler ≠ .sys 3 := by
        rw [handler]
        decide
      have used : Used machine.kernel = Used before.machine.kernel := by
        funext pn
        rw [Used, switched.pageinfo_kept other]
        rfl
      have memory : machine.kernel.memory = before.machine.kernel.memory :=
        switched.trapped.handled.settled.memory
      have kept := inv.plain step other
        (by
          rw [used, memory, switched.same (Or.inr handler)]
          exact inv.thread _ allocates)
        (by rw [memory])
      rwa [Function.update_eq_self] at kept
  | @call made machine next step calls =>
      by_cases alloc : made.handler = .sys 3
      · exact inv.alloc step calls alloc
      · have switched := step.switched inv.running
        have allocates := inv.alone _ switched.trapped.runnable
        obtain ⟨kept, front⟩ := (inv.thread _ allocates).calls allocates switched calls
        rw [if_neg alloc] at front
        exact inv.plain step alloc kept front

def DefaultBoot (command : Option String) : Prop :=
  command ≠ some "fork" ∧ command ≠ some "forkexit"

theorem DefaultBoot.programs {command : Option String} (boot : DefaultBoot command) :
    initialPrograms command = [(1, 0), (2, 1), (3, 2), (4, 3)] := by
  rw [initialPrograms, if_neg boot.1, if_neg boot.2]

theorem stackTop_val {pid : Pid} (allocates : Allocates pid) :
    (stackTop pid).toNat = stackStart pid + 0x1000 := by
  obtain ⟨positive, few⟩ := allocates
  have place := stackPage_toNat few
  have top : stackPage pid = stackTop pid - pageSize := rfl
  have size : pageSize.toNat = 4096 := rfl
  unfold stackStart
  rw [top, BitVec.toNat_sub, size] at place
  omega

theorem Started.booted {prior : KernelState} {command : Option String} {first : Machine}
    (started : Started image prior command first) : Booted image command first.kernel := by
  cases started with
  | entered boot current popped => exact kernel_booted boot

/-- The first process is entered with the registers that its descriptor holds. -/
theorem Started.live {prior : KernelState} {command : Option String} {first : Machine}
    (started : Started image prior command first) (pid : Pid) :
    liveContext first pid = (first.kernel.processes pid).pRegisters.context := by
  cases started with
  | entered boot current popped =>
      unfold liveContext
      split
      · next same =>
          rw [exceptionReturn_spec] at popped
          cases popped
          rw [current] at same
          cases same
          rfl
      · rfl

theorem Booted.allocates {command : Option String} {state : KernelState} {pid : Pid}
    (booted : Booted image command state)
    (runnable : (state.processes pid).pState = .runnable) : Allocates pid := by
  by_contra outside
  have absent : pid ∉ (initialPrograms command).map Prod.fst := by
    intro member
    obtain ⟨entry, inside, rfl⟩ := List.mem_map.mp member
    exact outside ((initialPrograms_range command).2 entry inside)
  have idle : (state.processes pid).pState = .free := by
    rw [booted.others pid absent]
    rfl
  rw [idle] at runnable
  cases runnable

theorem DefaultBoot.entry {command : Option String} (default : DefaultBoot command) (pid : Pid)
    (allocates : Allocates pid) : ∃ program, (pid, program) ∈ initialPrograms command := by
  rw [default.programs]
  have listed : ∀ pid : Pid, 1 ≤ pid.val ∧ pid.val ≤ 4 → ∃ program : Fin 6,
      (pid, program) ∈ [((1 : Pid), (0 : Fin 6)), (2, 1), (3, 2), (4, 3)] := by decide
  exact listed pid allocates

/-- The pages that an allocator is loaded into are its image's and its stack page. -/
theorem AllocatorLink.setup_inside (link : AllocatorLink image) {command : Option String}
    (default : DefaultBoot command) {entry : Pid × Fin 6}
    (inside : entry ∈ initialPrograms command) {pn : PhysicalPage}
    (claimed : setupPages image entry pn) :
    (linkStart entry.1 ≤ 4096 * pn.val ∧ 4096 * pn.val < link.heapStart entry.1) ∨
      4096 * pn.val = stackStart entry.1 := by
  have allocates : Allocates entry.1 := (initialPrograms_range command).2 entry inside
  have below := link.endBelowStack _ allocates
  have few := allocates.2
  have start := (link.heapStart_spec allocates).1
  have stackPlace : stackStart entry.1 = 0x100000 + 0x40000 * entry.1.val - 0x1000 := rfl
  have aligned : linkStart entry.1 % 4096 = 0 := by
    unfold linkStart
    omega
  rcases claimed with loaded | rfl
  · left
    rw [default.programs, ← @DefaultBoot.programs none ⟨by simp, by simp⟩] at inside
    obtain ⟨lower, upper⟩ := link.segmentsInside entry inside pn loaded
    omega
  · right
    have place := stackPage_toNat few
    have limit : memsizePhysical.toNat = 0x200000 := rfl
    have value := @physicalPage_val (stackPage entry.1) (by omega)
    omega

/-- Between the image and the stack page of an allocator the boot leaves all pages free. -/
theorem Booted.heap_free {command : Option String} {state : KernelState} {pid : Pid}
    (booted : Booted image command state) (link : AllocatorLink image)
    (default : DefaultBoot command) (allocates : Allocates pid) {pn : PhysicalPage}
    (lower : link.heapStart pid ≤ 4096 * pn.val) (upper : 4096 * pn.val < stackStart pid) :
    ¬ Used state pn := by
  intro taken
  have start := (link.heapStart_spec allocates).1
  have heapTop := link.heapTopInside pid allocates
  have region := linkStart_lt allocates
  rcases booted.claimed pn taken with unfree | ⟨other, inside, claimed⟩
  · refine unfree (initialOwner_free image ?_)
    have pageNat := pageAddress_toNat pn
    unfold linkStart at heapTop
    omega
  · have otherAllocates : Allocates other.1 := (initialPrograms_range command).2 other inside
    have otherRegion := linkStart_lt otherAllocates
    have otherHeap := (link.heapStart_spec otherAllocates).2.1
    have placed := link.setup_inside default inside claimed
    by_cases same : other.1 = pid
    · rw [same] at placed
      omega
    · have apart := regions_apart otherAllocates allocates same
      omega

theorem Started.allocators {prior : KernelState} {command : Option String}
    {first : Machine} (started : Started image prior command first)
    (default : DefaultBoot command) : AllocatorsInv link [] (System.begin first) := by
  have booted := started.booted
  refine ⟨booted.running, fun pid => booted.allocates, ?_, ?_, List.nodup_nil, ?_⟩
  · intro pid allocates
    have heapStart := link.heapStart_spec allocates
    have here : System.begin first = ⟨first, fun _ => ⟨.start, 0#32⟩⟩ := rfl
    rw [here]
    refine ⟨?_, by simp, heapStart.2.1, by simp, ?_, by simp, by simp, by simp⟩
    · obtain ⟨program, entry⟩ := default.entry pid allocates
      have top := stackTop_val allocates
      have rsp : (liveContext first pid).rsp = stackTop pid := by
        rw [started.live pid, booted.processes _ entry]
        rfl
      rw [StackPointerInside, rsp, top]
      omega
    · intro pn lower upper
      exact booted.heap_free link default allocates lower upper
  · intro entry member
    cases member
  · intro made member
    cases member

end Systems

/-- In every run of the default boot every page that an allocator asks for is a free page
between its image and its stack page, which it gets; no page is asked for twice; and an
allocator stops only when its heap has reached its stack. -/
theorem allocators_fill_their_regions {image : KernelImage} (link : AllocatorLink image)
    {prior : KernelState} {command : Option String} {first : Machine} {system : System}
    {trace : List MachineEvent} (started : Started image prior command first)
    (default : DefaultBoot command)
    (run : Run (SystemStep link) (System.begin first) trace system) :
    (∀ made, .switch made ∈ trace → made.handler = .sys 3 →
      made.trap.saved.regRax = 0#64) ∧
    (∀ entry ∈ requests trace, (1 ≤ entry.1.val ∧ entry.1.val ≤ 4) ∧
      (roundUp (link.imageEnd entry.1)).toNat ≤ entry.2.toNat ∧
      entry.2.toNat < 0x100000 + procSize.toNat * entry.1.val - pageSize.toNat ∧
      entry.2.toNat % pageSize.toNat = 0) ∧
    ((requests trace).map Prod.snd).Nodup ∧
    (∀ entry ∈ requests trace, ∀ pid : Pid, 1 ≤ pid.val ∧ pid.val ≤ 4 →
      entry.2 ≠ stackPage pid) ∧
    ∀ pid : Pid, 1 ≤ pid.val ∧ pid.val ≤ 4 → (system.threads pid).pc = .idle →
      link.heapTopValue pid system.machine.kernel.memory =
        link.stackBottomValue pid system.machine.kernel.memory := by
  have inv : AllocatorsInv link trace system :=
    run.history (AllocatorsInv link) (started.allocators default)
      fun _ _ _ _ here step => here.step step
  have bound : ∀ entry ∈ requests trace, Allocates entry.1 ∧
      link.heapStart entry.1 ≤ entry.2.toNat ∧ entry.2.toNat % 4096 = 0 ∧
      entry.2.toNat < stackStart entry.1 := by
    intro entry asked
    obtain ⟨allocates, lower, aligned, upper⟩ := inv.asked entry asked
    have room := (inv.thread _ allocates).room
    exact ⟨allocates, lower, aligned, by omega⟩
  refine ⟨inv.granted, ?_, inv.once, ?_, ?_⟩
  · intro entry asked
    obtain ⟨allocates, lower, aligned, upper⟩ := bound entry asked
    exact ⟨allocates, lower, upper, aligned⟩
  · intro entry asked pid allocates same
    obtain ⟨entryAllocates, lower, _, upper⟩ := bound entry asked
    have place := stackPage_toNat allocates.2
    rw [← same] at place
    have stackPlace : stackStart pid = 0x100000 + 0x40000 * pid.val - 0x1000 := rfl
    by_cases here : entry.1 = pid
    · rw [here] at upper
      omega
    · have apart := regions_apart entryAllocates allocates here
      have region := linkStart_lt allocates
      have start := link.heapStart_spec entryAllocates
      have heapTop := link.heapTopInside _ entryAllocates
      omega
  · intro pid allocates idle
    exact (inv.thread pid allocates).idle idle

/-! ## A run with a request -/

section Sample

variable {image : KernelImage} {link : AllocatorLink image}

theorem AllocatorsInv.act {seen : List MachineEvent} {system : System} {pid : Pid}
    {thread : Thread} {stored : Memory} (inv : AllocatorsInv link seen system)
    (current : system.machine.kernel.current = some pid)
    (action : Action link pid system.machine.kernel.memory system.machine.context
      (system.threads pid) thread stored) :
    ∃ after, SystemStep link system .compute after ∧
      after.machine.kernel.current = some pid ∧ after.machine.kernel.memory = stored ∧
      after.threads pid = thread := by
  obtain ⟨here, running, runnable⟩ := inv.running.entered
  rw [current] at running
  cases running
  have own := inv.thread pid (inv.alone pid runnable)
  rw [liveContext, if_pos current] at own
  have step : UserStep link pid system.machine.kernel.memory system.machine.context
      (system.threads pid) stored { system.machine.context with
        gpr := Function.update system.machine.context.gpr .rdi
          (link.heapTopValue pid stored) } thread := by
    refine ⟨⟨stored, action, fun _ _ => rfl⟩, own.rsp, ?_⟩
    intro _
    simp only [Function.update_self]
  exact ⟨_, .user current step, current, rfl, Function.update_self ..⟩

theorem AllocatorsInv.makeCall {seen : List MachineEvent} {system : System} {pid : Pid}
    {handler : Handler} {next : Pc} (inv : AllocatorsInv link seen system)
    (unlimited : image.tickLimit = 0#32)
    (current : system.machine.kernel.current = some pid)
    (calls : (system.threads pid).pc.call? = some (handler, next))
    (result : handler = .sys 1 ∨ handler = .sys 3) :
    ∃ made after, SystemStep link system (.switch made) after ∧ made.handler = handler ∧
      after.machine.kernel.current = some pid ∧
      after.machine.kernel.memory = system.machine.kernel.memory ∧
      after.threads pid = { system.threads pid with pc := next } := by
  have known : handler ∈ [.sys 1, .sys 2, .sys 3, .timer] := by
    rcases result with rfl | rfl <;> decide
  obtain ⟨made, after, step, same⟩ := inv.running.switches unlimited known
  have switched := step.switched inv.running
  have here := switched.trapped.current
  rw [current] at here
  cases here
  have stays : made.trap.via = .run := by
    have intno := switched.intno
    rw [same] at intno
    refine switched.trapped.handled.effect.returns ?_
    rw [intno]
    rcases result with rfl | rfl
    · exact Or.inl rfl
    · exact Or.inr rfl
  have dispatched := switched.trapped.dispatched
  rw [stays] at dispatched
  refine ⟨made, _, .call step (by rw [same]; exact calls), same, ?_,
    switched.trapped.handled.settled.memory, Function.update_self ..⟩
  rw [switched.trapped.entered, dispatched.1]

/-- The variables of the sample programs are on their second page. -/
def sampleLink : AllocatorLink sampleImage where
  imageEnd pid := BitVec.ofNat 64 (linkStart pid + 0x1800)
  heapTop pid := linkStart pid + 0x1000
  stackBottom pid := linkStart pid + 0x1008
  endBelowStack := by
    unfold Allocates
    decide
  heapTopInside := by
    unfold Allocates
    decide
  stackBottomInside := by
    unfold Allocates
    decide
  variablesApart := by
    intro pid _
    omega
  segmentsInside := by
    have programs : initialPrograms none = [(1, 0), (2, 1), (3, 2), (4, 3)] := rfl
    rw [programs]
    have base : ∀ entry ∈ [((1 : Pid), (0 : Fin 6)), (2, 1), (3, 2), (4, 3)],
        linkBase entry.2 = linkStart entry.1 ∧
          (BitVec.ofNat 64 (linkStart entry.1 + 0x1800)).toNat =
            linkStart entry.1 + 0x1800 := by decide
    intro entry member pn inside
    obtain ⟨same, value⟩ := base entry member
    rw [sampleImage_pages, same] at inside
    rw [value]
    exact inside

theorem allocators_fill_their_regions_sample : ∃ first made trace system,
    Started sampleImage coldState none first ∧
    Run (SystemStep sampleLink) (System.begin first) (trace ++ [.switch made]) system ∧
    made.handler = .sys 3 ∧ made.trap.saved.regRax = 0#64 := by
  obtain ⟨start, boot⟩ := sampleImage_boots
  obtain ⟨first, started, same⟩ := Started.exists boot
  have default : DefaultBoot none := ⟨by simp, by simp⟩
  have inv0 : AllocatorsInv sampleLink [] (System.begin first) := started.allocators default
  have current : (System.begin first).machine.kernel.current = some 1 := by
    have booted := (kernel_booted boot).current
    rw [← same] at booted
    exact booted
  obtain ⟨_, one, step1, _, current1, memory1, thread1⟩ :=
    inv0.makeCall rfl current (show Pc.call? .start = _ from rfl) (Or.inl rfl)
  have inv1 := inv0.step step1
  obtain ⟨two, step2, current2, memory2, thread2⟩ :=
    inv1.act current1 (by rw [thread1]; exact .gotPid)
  have inv2 := inv1.step step2
  obtain ⟨three, step3, current3, memory3, thread3⟩ :=
    inv2.act current2 (by rw [thread2]; exact .setHeap)
  have inv3 := inv2.step step3
  obtain ⟨four, step4, current4, memory4, thread4⟩ :=
    inv3.act current3 (by rw [thread3]; exact .setStack)
  have inv4 := inv3.step step4
  obtain ⟨five, step5, current5, memory5, thread5⟩ :=
    inv4.act current4 (by rw [thread4]; exact .drawn)
  have inv5 := inv4.step step5
  have heapTop : sampleLink.heapTopValue 1 five.machine.kernel.memory =
      roundUp (sampleLink.imageEnd 1) := by
    rw [memory5, memory4, memory3]
    unfold AllocatorLink.heapTopValue
    rw [loadPtr_storePtr_apart _ _ (by decide), loadPtr_storePtr]
  have different : sampleLink.heapTopValue 1 five.machine.kernel.memory ≠
      sampleLink.stackBottomValue 1 five.machine.kernel.memory := by
    intro equal
    have bottom := (inv5.thread 1 (by unfold Allocates; decide)).stack
      (by rw [thread5]; simp)
    rw [← equal, heapTop] at bottom
    exact absurd bottom (by decide)
  obtain ⟨six, step6, current6, memory6, thread6⟩ :=
    inv5.act current5 (by rw [thread5]; exact .request different)
  have inv6 := inv5.step step6
  obtain ⟨made, seven, step7, handler, _⟩ :=
    inv6.makeCall rfl current6 (by rw [thread6]; rfl) (Or.inr rfl)
  have whole := ((((((Run.start.extend step1).extend step2).extend step3).extend
    step4).extend step5).extend step6).extend step7
  have filled := allocators_fill_their_regions sampleLink started default whole
  exact ⟨first, made, _, seven, started, whole, handler,
    filled.1 made (by simp) handler⟩

end Sample

end OsLabs.Weensy
