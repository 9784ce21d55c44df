import OsLabs.Weensy.KernelRuns

/-!
# Entering and leaving the kernel

The handlers of k-exception.S are lists of instructions on a CPU and a stack of
words, top first.  An interrupt pushes the hardware's frame and runs a handler, and
`exception` reads the stack as a `struct x86_64_registers`; `exception_return` pops
that structure.  Over the runs of the machine that this makes of the kernel a process
is resumed with the registers it had.
-/

set_option autoImplicit false

namespace OsLabs.Weensy

open OsLabs.ByteMemory OsLabs.Transition

/-! ## The CPU -/

/-- The general registers that are saved by name; `%rsp` is part of the frame. -/
inductive Gpr where
  | rax | rcx | rdx | rbx | rbp | rsi | rdi
  | r8 | r9 | r10 | r11 | r12 | r13 | r14 | r15
  deriving DecidableEq, Repr

inductive SegReg where
  | fs | gs
  deriving DecidableEq, Repr

@[ext] structure Context where
  gpr : Gpr → BitVec 64
  seg : SegReg → BitVec 16
  rip : BitVec 64
  cs : BitVec 16
  rflags : BitVec 64
  rsp : BitVec 64
  ss : BitVec 16

def Context.withRax (context : Context) (value : BitVec 64) : Context :=
  { context with gpr := Function.update context.gpr .rax value }

/-- The registers that handlers push and pop, and the stack at `%rsp`. -/
structure HandlerState where
  gpr : Gpr → BitVec 64
  seg : SegReg → BitVec 16
  stack : List (BitVec 64)

inductive Instr where
  | pushImm (value : BitVec 64)
  | pushGpr (register : Gpr)
  | pushSeg (register : SegReg)
  | popGpr (register : Gpr)
  | popSeg (register : SegReg)
  /-- `addq $bytes, %rsp`. -/
  | addRsp (bytes : Nat)
  deriving DecidableEq, Repr

/-- One instruction; a selector is pushed with zeroes above it. -/
def Instr.exec (state : HandlerState) : Instr → Option HandlerState
  | .pushImm value => some { state with stack := value :: state.stack }
  | .pushGpr register => some { state with stack := state.gpr register :: state.stack }
  | .pushSeg register =>
      some { state with stack := (state.seg register).setWidth 64 :: state.stack }
  | .popGpr register =>
      match state.stack with
      | [] => none
      | word :: rest =>
          some { state with gpr := Function.update state.gpr register word, stack := rest }
  | .popSeg register =>
      match state.stack with
      | [] => none
      | word :: rest => some { state with
          seg := Function.update state.seg register (word.setWidth 16), stack := rest }
  | .addRsp bytes =>
      if 8 * state.stack.length < bytes then none
      else some { state with stack := state.stack.drop (bytes / 8) }

def execAll : List Instr → HandlerState → Option HandlerState
  | [], state => some state
  | instr :: rest, state => do
      let state ← instr.exec state
      execAll rest state

/-! ## k-exception.S -/

/-- The handlers that leave a whole `struct x86_64_registers` on the stack;
`sys i` is `sys_int_handlers[i]`. -/
inductive Handler where
  | gpf | pagefault | timer
  | sys (i : Fin 16)
  deriving DecidableEq, Repr

/-- The pushes before the jump to `generic_exception_handler`. -/
def Handler.code : Handler → List Instr
  | .gpf => [.pushImm 13#64]
  | .pagefault => [.pushImm 14#64]
  | .timer => [.pushImm 0#64, .pushImm 32#64]
  | .sys i => [.pushImm 0#64, .pushImm (BitVec.ofNat 64 (48 + i.val))]

def genericExceptionHandler : List Instr :=
  [.pushSeg .gs, .pushSeg .fs, .pushGpr .r15, .pushGpr .r14, .pushGpr .r13,
    .pushGpr .r12, .pushGpr .r11, .pushGpr .r10, .pushGpr .r9, .pushGpr .r8,
    .pushGpr .rdi, .pushGpr .rsi, .pushGpr .rbp, .pushGpr .rbx, .pushGpr .rdx,
    .pushGpr .rcx, .pushGpr .rax]

/-- `exception_return` up to its `iretq`. -/
def exceptionReturnCode : List Instr :=
  [.popGpr .rax, .popGpr .rcx, .popGpr .rdx, .popGpr .rbx, .popGpr .rbp, .popGpr .rsi,
    .popGpr .rdi, .popGpr .r8, .popGpr .r9, .popGpr .r10, .popGpr .r11, .popGpr .r12,
    .popGpr .r13, .popGpr .r14, .popGpr .r15, .popSeg .fs, .popSeg .gs, .addRsp 16]

/-- The exceptions for which the hardware pushes an error code. -/
def Handler.hasError : Handler → Bool
  | .gpf | .pagefault => true
  | .timer | .sys _ => false

/-- What the hardware pushes, from the new `%rsp` up: the error code of some
exceptions, then `%rip`, `%cs`, `%rflags`, `%rsp` and `%ss`.  What it puts above the
two selectors is not fixed. -/
def hardwareFrame (handler : Handler) (context : Context) (error : BitVec 64)
    (padding2 padding3 : BitVec 48) : List (BitVec 64) :=
  (if handler.hasError then [error] else []) ++
    [context.rip, padding2 ++ context.cs, context.rflags, context.rsp,
      padding3 ++ context.ss]

/-- `iretq`: the five words at `%rsp`, of which two are selectors. -/
def iretq (state : HandlerState) : Option Context :=
  match state.stack with
  | rip :: cs :: rflags :: rsp :: ss :: _ =>
      some ⟨state.gpr, state.seg, rip, cs.setWidth 16, rflags, rsp, ss.setWidth 16⟩
  | _ => none

/-! ## struct x86_64_registers in memory -/

/-- The words of the structure in the order of its fields; a 16-bit field shares a word
with the padding after it. -/
def Registers.words (reg : Registers) : List (BitVec 64) :=
  [reg.regRax, reg.regRcx, reg.regRdx, reg.regRbx, reg.regRbp, reg.regRsi, reg.regRdi,
    reg.regR8, reg.regR9, reg.regR10, reg.regR11, reg.regR12, reg.regR13, reg.regR14,
    reg.regR15, reg.regFs, reg.regGs, reg.regIntno, reg.regErr, reg.regRip,
    reg.regPadding2 ++ reg.regCs, reg.regRflags, reg.regRsp,
    reg.regPadding3 ++ reg.regSs]

def Registers.ofWords : List (BitVec 64) → Option Registers
  | rax :: rcx :: rdx :: rbx :: rbp :: rsi :: rdi :: r8 :: r9 :: r10 :: r11 :: r12 ::
    r13 :: r14 :: r15 :: fs :: gs :: intno :: err :: rip :: cs :: rflags :: rsp ::
    ss :: _ =>
      some ⟨rax, rcx, rdx, rbx, rbp, rsi, rdi, r8, r9, r10, r11, r12, r13, r14, r15,
        fs, gs, intno, err, rip, cs.setWidth 16, (cs >>> 16).setWidth 48, rflags, rsp,
        ss.setWidth 16, (ss >>> 16).setWidth 48⟩
  | _ => none

def Registers.context (reg : Registers) : Context where
  gpr
    | .rax => reg.regRax
    | .rcx => reg.regRcx
    | .rdx => reg.regRdx
    | .rbx => reg.regRbx
    | .rbp => reg.regRbp
    | .rsi => reg.regRsi
    | .rdi => reg.regRdi
    | .r8 => reg.regR8
    | .r9 => reg.regR9
    | .r10 => reg.regR10
    | .r11 => reg.regR11
    | .r12 => reg.regR12
    | .r13 => reg.regR13
    | .r14 => reg.regR14
    | .r15 => reg.regR15
  seg
    | .fs => reg.regFs.setWidth 16
    | .gs => reg.regGs.setWidth 16
  rip := reg.regRip
  cs := reg.regCs
  rflags := reg.regRflags
  rsp := reg.regRsp
  ss := reg.regSs

/-- The argument of `exception` after an interrupt of user mode. -/
def enterKernel (handler : Handler) (context : Context) (error : BitVec 64)
    (padding2 padding3 : BitVec 48) : Option Registers := do
  let state ← execAll (handler.code ++ genericExceptionHandler)
    ⟨context.gpr, context.seg, hardwareFrame handler context error padding2 padding3⟩
  Registers.ofWords state.stack

/-- `exception_return(reg)`, executed with the kernel's own registers in the CPU. -/
def exceptionReturn (gpr : Gpr → BitVec 64) (seg : SegReg → BitVec 16)
    (reg : Registers) : Option Context := do
  let state ← execAll exceptionReturnCode ⟨gpr, seg, reg.words⟩
  iretq state

def Handler.intno : Handler → BitVec 64
  | .gpf => 13#64
  | .pagefault => intPageFault
  | .timer => intTimer
  | .sys i => BitVec.ofNat 64 (48 + i.val)

theorem selector_low (padding : BitVec 48) (low : BitVec 16) :
    (padding ++ low).setWidth 16 = low := BitVec.setWidth_append_eq_right

theorem handler_pushes (handler : Handler) (gpr : Gpr → BitVec 64)
    (seg : SegReg → BitVec 16) (frame : List (BitVec 64)) :
    execAll (handler.code ++ genericExceptionHandler) ⟨gpr, seg, frame⟩ =
      some ⟨gpr, seg,
        [gpr .rax, gpr .rcx, gpr .rdx, gpr .rbx, gpr .rbp, gpr .rsi, gpr .rdi, gpr .r8,
          gpr .r9, gpr .r10, gpr .r11, gpr .r12, gpr .r13, gpr .r14, gpr .r15,
          (seg .fs).setWidth 64, (seg .gs).setWidth 64, handler.intno] ++
        ((if handler.hasError then [] else [0#64]) ++ frame)⟩ := by
  cases handler <;> rfl

theorem enterKernel_eq (handler : Handler) (context : Context) (error : BitVec 64)
    (padding2 padding3 : BitVec 48) :
    enterKernel handler context error padding2 padding3 = Registers.ofWords
      [context.gpr .rax, context.gpr .rcx, context.gpr .rdx, context.gpr .rbx,
        context.gpr .rbp, context.gpr .rsi, context.gpr .rdi, context.gpr .r8,
        context.gpr .r9, context.gpr .r10, context.gpr .r11, context.gpr .r12,
        context.gpr .r13, context.gpr .r14, context.gpr .r15,
        (context.seg .fs).setWidth 64, (context.seg .gs).setWidth 64, handler.intno,
        if handler.hasError then error else 0#64, context.rip, padding2 ++ context.cs,
        context.rflags, context.rsp, padding3 ++ context.ss] := by
  unfold enterKernel hardwareFrame
  rw [handler_pushes]
  cases handler.hasError <;> rfl

/-- The pushes and the structure agree: `exception` gets the registers of user mode and
the number of the interrupt. -/
theorem enterKernel_spec (handler : Handler) (context : Context) (error : BitVec 64)
    (padding2 padding3 : BitVec 48) :
    ∃ reg, enterKernel handler context error padding2 padding3 = some reg ∧
      reg.context = context ∧ reg.regIntno = handler.intno ∧
      reg.regErr = if handler.hasError then error else 0#64 := by
  rw [enterKernel_eq]
  refine ⟨_, rfl, ?_, rfl, rfl⟩
  refine Context.ext (funext ?_) (funext ?_) rfl ?_ rfl rfl ?_
  · intro register
    cases register <;> rfl
  · intro register
    cases register <;> simp [Registers.context]
  · exact selector_low padding2 context.cs
  · exact selector_low padding3 context.ss

theorem exceptionReturn_spec (gpr : Gpr → BitVec 64) (seg : SegReg → BitVec 16)
    (reg : Registers) : exceptionReturn gpr seg reg = some reg.context := by
  refine congrArg some (Context.ext (funext ?_) (funext ?_) rfl ?_ rfl rfl ?_)
  · intro register
    cases register <;> rfl
  · intro register
    cases register <;> rfl
  · exact selector_low reg.regPadding2 reg.regCs
  · exact selector_low reg.regPadding3 reg.regSs

/-! ## The machine -/

structure Machine where
  kernel : KernelState
  context : Context

/-- An exception that was handled: through which handler, with which registers of user
mode and which `pageinfo` it was taken, and the registers of user mode after it. -/
structure Switch where
  trap : Trap
  handler : Handler
  context : Context
  pageinfo : PhysicalPage → PhysicalPageinfo
  resumed : Context

inductive MachineEvent where
  | compute
  | switch (switch : Switch)

/-- User mode computes anything; an exception goes through its handler, `exception` and
`exception_return`. -/
inductive MachineStep (image : KernelImage) : Machine → MachineEvent → Machine → Prop
  | compute {machine : Machine} {memory : Memory} {context : Context}
      (kept : ∀ x, KernelMemory image x → memory x = machine.kernel.memory x) :
      MachineStep image machine .compute
        ⟨{ machine.kernel with memory := memory }, context⟩
  | switch {machine : Machine} {after : KernelState} {keyboard : Nat → Int}
      {handler : Handler} {error : BitVec 64} {padding2 padding3 : BitVec 48}
      {reg : Registers} {via : Via} {pid next : Pid} {gpr : Gpr → BitVec 64}
      {seg : SegReg → BitVec 16} {resumed : Context}
      (current : machine.kernel.current = some pid)
      (entry : enterKernel handler machine.context error padding2 padding3 = some reg)
      (taken : exception image keyboard machine.kernel reg = .ok (after, via))
      (entered : after.current = some next)
      (popped : exceptionReturn gpr seg (after.processes next).pRegisters = some resumed) :
      MachineStep image machine
        (.switch ⟨⟨pid, reg, via, next, (after.processes pid).pRegisters⟩, handler,
          machine.context, machine.kernel.pageinfo, resumed⟩) ⟨after, resumed⟩

/-- The machine when `kernel` has entered the first process. -/
inductive Started (image : KernelImage) (prior : KernelState) (command : Option String) :
    Machine → Prop
  | entered {start : KernelState} {pid : Pid} {gpr : Gpr → BitVec 64}
      {seg : SegReg → BitVec 16} {context : Context}
      (boot : kernel image prior command = .ok start) (current : start.current = some pid)
      (popped : exceptionReturn gpr seg (start.processes pid).pRegisters = some context) :
      Started image prior command ⟨start, context⟩

/-- The event of the kernel that an event of the machine is. -/
def MachineEvent.event : MachineEvent → Event
  | .compute => .compute
  | .switch made => .trap made.trap

theorem MachineStep.kernel {image : KernelImage} {before after : Machine}
    {event : MachineEvent} (step : MachineStep image before event after) :
    Step image before.kernel event.event after.kernel := by
  cases step with
  | compute kept => exact .compute kept
  | switch current entry taken entered popped => exact .trap current taken entered

/-! ## What a process is resumed with -/

inductive Resumes (switch : Switch) : Context → Prop
  | getpid (handler : switch.handler = .sys 1) :
      Resumes switch (switch.context.withRax (BitVec.ofNat 64 switch.trap.pid.val))
  | same (handler : switch.handler = .sys 2 ∨ switch.handler = .timer) :
      Resumes switch switch.context
  | allocated (handler : switch.handler = .sys 3)
      (able : Assignable switch.pageinfo (switch.context.gpr .rdi)) :
      Resumes switch (switch.context.withRax 0#64)
  | refused (handler : switch.handler = .sys 3)
      (unable : ¬ Assignable switch.pageinfo (switch.context.gpr .rdi)) :
      Resumes switch (switch.context.withRax (-1#64))

def lastSwitch (pid : Pid) (events : List MachineEvent) : Option Switch :=
  events.foldl (fun last event =>
    match event with
    | .compute => last
    | .switch switch => if switch.trap.pid = pid then some switch else last) none

/-- The registers that a process has to be resumed with after some events: by its last
exception, or those that it was set up with. -/
def Expected (image : KernelImage) (command : Option String) (events : List MachineEvent)
    (pid : Pid) (context : Context) : Prop :=
  match lastSwitch pid events with
  | some switch => Resumes switch context
  | none => ∃ program, (pid, program) ∈ initialPrograms command ∧
      context = (initialRegisters image pid program).context

theorem lastSwitch_compute (pid : Pid) (events : List MachineEvent) :
    lastSwitch pid (events ++ [.compute]) = lastSwitch pid events := by
  simp only [lastSwitch, List.foldl_append, List.foldl_cons, List.foldl_nil]

theorem lastSwitch_self (events : List MachineEvent) (switch : Switch) :
    lastSwitch switch.trap.pid (events ++ [.switch switch]) = some switch := by
  simp only [lastSwitch, List.foldl_append, List.foldl_cons, List.foldl_nil, if_true]

theorem lastSwitch_other {pid : Pid} (events : List MachineEvent) {switch : Switch}
    (other : pid ≠ switch.trap.pid) :
    lastSwitch pid (events ++ [.switch switch]) = lastSwitch pid events := by
  simp only [lastSwitch, List.foldl_append, List.foldl_cons, List.foldl_nil,
    if_neg (Ne.symm other)]

theorem Registers.context_rax (reg : Registers) (value : BitVec 64) :
    Registers.context { reg with regRax := value } = reg.context.withRax value := by
  refine Context.ext (funext ?_) rfl rfl rfl rfl rfl rfl
  intro register
  cases register <;> rfl

section Machines

variable {image : KernelImage} {command : Option String} {before after : Machine}

structure Switched (image : KernelImage) (before : Machine) (switch : Switch)
    (after : Machine) : Prop where
  trapped : Trapped before.kernel switch.trap after.kernel
  context : switch.trap.reg.context = switch.context
  live : switch.context = before.context
  intno : switch.trap.reg.regIntno = switch.handler.intno
  pageinfo : switch.pageinfo = before.kernel.pageinfo
  resumed : switch.resumed = ((after.kernel.processes switch.trap.next).pRegisters).context
  restored : after.context = switch.resumed

theorem MachineStep.switched {switch : Switch} (running : Running image before.kernel)
    (step : MachineStep image before (.switch switch) after) :
    Switched image before switch after := by
  have trapped := Step.trapped running step.kernel
  cases step with
  | @switch _ _ handler error padding2 padding3 reg _ _ _ _ _ _ current entry taken
      entered popped =>
      obtain ⟨found, pushed, context, intno, _⟩ :=
        enterKernel_spec handler before.context error padding2 padding3
      rw [pushed] at entry
      cases entry
      rw [exceptionReturn_spec] at popped
      cases popped
      exact ⟨trapped, context, rfl, intno, rfl, rfl, rfl⟩

/-- Without a tick limit there is a step for every system call of the kernel and for the
timer. -/
theorem Running.switches {machine : Machine} (running : Running image machine.kernel)
    (unlimited : image.tickLimit = 0#32) {handler : Handler}
    (known : handler ∈ [.sys 1, .sys 2, .sys 3, .timer]) :
    ∃ switch after, MachineStep image machine (.switch switch) after ∧
      switch.handler = handler := by
  obtain ⟨inv, pid, current, runnable⟩ := running
  obtain ⟨reg, entry, _, intno, _⟩ := enterKernel_spec handler machine.context 0#64 0#48 0#48
  have quiet : ∀ i : Nat, checkKeyboard ((fun _ => -1 : Nat → Int) i) = .ok () :=
    fun _ => rfl
  have listed : reg.regIntno ∈ [intSysGetpid, intSysYield, intSysPageAlloc, intTimer] := by
    rw [intno]
    simp only [List.mem_cons, List.not_mem_nil, or_false] at known
    rcases known with rfl | rfl | rfl | rfl <;> decide
  obtain ⟨after, via, taken, handled⟩ :=
    exception_returns quiet unlimited inv current runnable listed
  obtain ⟨next, entered, _⟩ := handled.dispatch
  have popped := exceptionReturn_spec machine.context.gpr machine.context.seg
    (after.processes next).pRegisters
  exact ⟨_, ⟨after, _⟩, .switch current entry taken entered popped, rfl⟩

def Returning (handler : Handler) : Prop :=
  handler = .sys 1 ∨ handler = .sys 2 ∨ handler = .sys 3 ∨ handler = .timer ∨
    handler = .pagefault

theorem Handler.intno_eq {handler : Handler} :
    (handler.intno = intSysGetpid → handler = .sys 1) ∧
    (handler.intno = intSysYield → handler = .sys 2) ∧
    (handler.intno = intSysPageAlloc → handler = .sys 3) ∧
    (handler.intno = intTimer → handler = .timer) ∧
    (handler.intno = intPageFault → handler = .pagefault) := by
  cases handler with
  | sys i => revert i; decide
  | _ => decide

/-- An exception goes through one of these handlers and saves the registers that the
process is resumed with, or breaks the process. -/
theorem Switched.saved {switch : Switch} (switched : Switched image before switch after) :
    Returning switch.handler ∧
    (switch.handler ≠ .pagefault ∧
        Resumes switch (after.kernel.processes switch.trap.pid).pRegisters.context ∨
      switch.handler = .pagefault ∧
        (after.kernel.processes switch.trap.pid).pState = .broken) := by
  obtain ⟨getpid, yield, alloc, timer, fault⟩ := @Handler.intno_eq switch.handler
  have context := switched.context
  have argument : switch.context.gpr .rdi = switch.trap.reg.regRdi := by
    rw [← context]
    rfl
  have effect := switched.trapped.handled.effect
  rw [← switched.pageinfo] at effect
  generalize (after.kernel.processes switch.trap.pid).pRegisters = registers at effect ⊢
  generalize (after.kernel.processes switch.trap.pid).pState = pState at effect ⊢
  generalize after.kernel.pageinfo = pageinfo at effect
  generalize switch.trap.via = via at effect
  cases effect with
  | getpid intno =>
      have handler := getpid (switched.intno.symm.trans intno)
      refine ⟨Or.inl handler, Or.inl ⟨by rw [handler]; decide, ?_⟩⟩
      rw [Registers.context_rax, context]
      exact .getpid handler
  | yield intno =>
      have handler := yield (switched.intno.symm.trans intno)
      refine ⟨Or.inr (Or.inl handler), Or.inl ⟨by rw [handler]; decide, ?_⟩⟩
      rw [context]
      exact .same (Or.inl handler)
  | allocated intno able =>
      have handler := alloc (switched.intno.symm.trans intno)
      refine ⟨Or.inr (Or.inr (Or.inl handler)), Or.inl ⟨by rw [handler]; decide, ?_⟩⟩
      rw [Registers.context_rax, context]
      exact .allocated handler (by rw [argument]; exact able)
  | refused intno unable =>
      have handler := alloc (switched.intno.symm.trans intno)
      refine ⟨Or.inr (Or.inr (Or.inl handler)), Or.inl ⟨by rw [handler]; decide, ?_⟩⟩
      rw [Registers.context_rax, context]
      exact .refused handler (by rw [argument]; exact unable)
  | timer intno =>
      have handler := timer (switched.intno.symm.trans intno)
      refine ⟨Or.inr (Or.inr (Or.inr (Or.inl handler))),
        Or.inl ⟨by rw [handler]; decide, ?_⟩⟩
      rw [context]
      exact .same (Or.inr handler)
  | pagefault intno _ =>
      have handler := fault (switched.intno.symm.trans intno)
      exact ⟨Or.inr (Or.inr (Or.inr (Or.inr handler))), Or.inr ⟨handler, rfl⟩⟩

/-- An exception leaves the descriptors of the other processes alone. -/
theorem Switched.others {switch : Switch} (switched : Switched image before switch after)
    {pid : Pid} (other : pid ≠ switch.trap.pid) :
    after.kernel.processes pid = before.kernel.processes pid := by
  rw [switched.trapped.handled.settled.processes, Function.update_of_ne other]

structure Contexts (image : KernelImage) (command : Option String)
    (seen : List MachineEvent) (machine : Machine) : Prop where
  running : Running image machine.kernel
  saved : ∀ pid, Runnable machine.kernel pid →
    Expected image command seen pid (machine.kernel.processes pid).pRegisters.context
  broken : ∀ switch, .switch switch ∈ seen → switch.handler = .pagefault →
    (machine.kernel.processes switch.trap.pid).pState = .broken

theorem Contexts.step {seen : List MachineEvent} {event : MachineEvent}
    (contexts : Contexts image command seen before)
    (step : MachineStep image before event after) :
    Contexts image command (seen ++ [event]) after := by
  have running := step.kernel.running contexts.running
  cases event with
  | compute =>
      cases step with
      | compute kept =>
          refine ⟨running, ?_, ?_⟩
          · intro pid runnable
            rw [Expected, lastSwitch_compute]
            exact contexts.saved pid runnable
          · intro switch member
            simp only [List.mem_append, List.mem_singleton, reduceCtorEq, or_false] at member
            exact contexts.broken switch member
  | switch switch =>
      have switched := step.switched contexts.running
      obtain ⟨_, outcome⟩ := switched.saved
      refine ⟨running, ?_, ?_⟩
      · intro pid runnable
        by_cases here : pid = switch.trap.pid
        · subst here
          rw [Expected, lastSwitch_self]
          rcases outcome with ⟨_, resumes⟩ | ⟨_, broken⟩
          · exact resumes
          · rw [Runnable, broken] at runnable
            cases runnable
        · rw [Expected, lastSwitch_other seen here, switched.others here]
          refine contexts.saved pid ?_
          rw [Runnable, ← switched.others here]
          exact runnable
      · intro fault member handler
        rw [List.mem_append, List.mem_singleton] at member
        rcases member with earlier | now
        · have broken := contexts.broken fault earlier handler
          have other : fault.trap.pid ≠ switch.trap.pid := by
            intro same
            have runnable := switched.trapped.runnable
            rw [Runnable, ← same, broken] at runnable
            cases runnable
          rw [switched.others other]
          exact broken
        · cases now
          exact (outcome.resolve_left fun resumed => resumed.1 handler).2

theorem Started.contexts {prior : KernelState} {first : Machine}
    (started : Started image prior command first) : Contexts image command [] first := by
  cases started with
  | entered boot current popped =>
      have booted := kernel_booted boot
      refine ⟨booted.running, ?_, fun _ none => absurd none (List.not_mem_nil)⟩
      intro pid runnable
      by_cases member : pid ∈ (initialPrograms command).map Prod.fst
      · obtain ⟨⟨_, program⟩, entry, rfl⟩ := List.mem_map.mp member
        refine ⟨program, entry, ?_⟩
        rw [booted.processes _ entry]
        rfl
      · rw [Runnable, booted.others pid member] at runnable
        cases runnable

end Machines

/-- Along every run of the machine a process is entered with the registers of its last
exception, up to the result of a system call in `%rax`, or with those that it was set
up with; an exception changes the saved registers of no other process; and no process
is entered after it took a page fault. -/
theorem context_switches_preserve {image : KernelImage} {prior : KernelState}
    {command : Option String} {first last : Machine} {trace : List MachineEvent}
    (started : Started image prior command first)
    (run : Run (MachineStep image) first trace last) :
    Expected image command [] 1 first.context ∧
    (∀ earlier switch later, trace = earlier ++ .switch switch :: later →
      Expected image command (earlier ++ [.switch switch]) switch.trap.next
        switch.resumed ∧
      Returning switch.handler ∧
      ∀ fault, .switch fault ∈ earlier ++ [.switch switch] →
        fault.handler = .pagefault → switch.trap.next ≠ fault.trap.pid) ∧
    ∀ switch after, MachineStep image last (.switch switch) after →
      switch.context = last.context ∧ after.context = switch.resumed ∧
      after.kernel.current = some switch.trap.next ∧
      ∀ pid, pid ≠ switch.trap.pid →
        (after.kernel.processes pid).pRegisters = (last.kernel.processes pid).pRegisters := by
  have history := fun {events : List MachineEvent} {machine : Machine}
      (part : Run (MachineStep image) first events machine) =>
    part.history (Contexts image command) started.contexts
      fun _ _ _ _ here step => here.step step
  refine ⟨?_, ?_, ?_⟩
  · cases started with
    | entered boot current popped =>
        have booted := kernel_booted boot
        rw [booted.current] at current
        cases current
        rw [exceptionReturn_spec] at popped
        cases popped
        exact (history .start).saved 1 booted.runnable
  · intro earlier switch later whole
    rw [whole] at run
    obtain ⟨before, front, back⟩ := Run.split earlier _ run
    obtain ⟨after, step, _⟩ := back.head
    have here := (history front).step step
    have switched := step.switched (history front).running
    obtain ⟨pid, current, runnable⟩ := here.running.entered
    rw [switched.trapped.entered] at current
    cases current
    refine ⟨?_, switched.saved.1, ?_⟩
    · rw [switched.resumed]
      exact here.saved _ runnable
    · intro fault member handler same
      have broken := here.broken fault member handler
      rw [← same] at broken
      rw [Runnable, broken] at runnable
      cases runnable
  · intro switch after step
    have switched := step.switched (history run).running
    refine ⟨switched.live, switched.restored, switched.trapped.entered, ?_⟩
    intro pid other
    rw [switched.others other]

theorem Started.exists {image : KernelImage} {prior start : KernelState}
    {command : Option String} (boot : kernel image prior command = .ok start) :
    ∃ first, Started image prior command first ∧ first.kernel = start := by
  have booted := kernel_booted boot
  have popped := exceptionReturn_spec (fun _ => 0#64) (fun _ => 0#16)
    (start.processes 1).pRegisters
  exact ⟨_, .entered boot booted.current popped, rfl⟩

theorem context_switches_preserve_sample : ∃ first switch last,
    Started sampleImage coldState none first ∧
    MachineStep sampleImage first (.switch switch) last ∧ switch.handler = .timer ∧
    Expected sampleImage none [.switch switch] switch.trap.next switch.resumed := by
  obtain ⟨start, boot⟩ := sampleImage_boots
  obtain ⟨first, started, same⟩ := Started.exists boot
  have running : Running sampleImage first.kernel := by
    rw [same]
    exact (kernel_booted boot).running
  obtain ⟨switch, last, step, timer⟩ :=
    running.switches rfl (show Handler.timer ∈ _ by decide)
  have preserved := context_switches_preserve started (.extend .start step)
  exact ⟨first, switch, last, started, step, timer, (preserved.2.1 [] switch [] rfl).1⟩

end OsLabs.Weensy
