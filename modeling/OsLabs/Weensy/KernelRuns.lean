import OsLabs.Lib.Transition
import OsLabs.Weensy.KernelBoot

/-!
# Runs of the kernel

Between exceptions user code may change any byte outside the kernel's own memory; an
exception is taken by the current process with registers of any values.  The kernel
invariant holds along every run from `kernel`.  With `Handled` it gives that no check of the
kernel fails and that no user page has two owners.
-/

set_option autoImplicit false

namespace OsLabs.Weensy

open OsLabs.ByteMemory OsLabs.ExceptRules OsLabs.Transition

/-! ## Steps -/

/-- The memory that only the kernel changes: its image and its stack page. -/
def KernelMemory (image : KernelImage) (x : Nat) : Prop :=
  kernelStartAddr.toNat ≤ x ∧ x < image.kernelEnd.toNat ∨
    kernelStackTop.toNat - 4096 ≤ x ∧ x < kernelStackTop.toNat

/-- An exception that was handled: who took it with which registers, how and with
which process user mode was entered, and what was saved for the one who took it. -/
structure Trap where
  pid : Pid
  reg : Registers
  via : Via
  next : Pid
  saved : Registers

inductive Event where
  | compute
  | trap (trap : Trap)

inductive Step (image : KernelImage) : KernelState → Event → KernelState → Prop
  | compute {state : KernelState} {memory : Memory}
      (kept : ∀ x, KernelMemory image x → memory x = state.memory x) :
      Step image state .compute { state with memory := memory }
  | trap {before after : KernelState} {keyboard : Nat → Int} {reg : Registers}
      {via : Via} {pid next : Pid} (current : before.current = some pid)
      (taken : exception image keyboard before reg = .ok (after, via))
      (entered : after.current = some next) :
      Step image before
        (.trap ⟨pid, reg, via, next, (after.processes pid).pRegisters⟩) after

structure Running (image : KernelImage) (state : KernelState) : Prop where
  inv : KernelInv image state
  entered : ∃ pid, state.current = some pid ∧ Runnable state pid

section Steps

variable {image : KernelImage}

theorem KernelTables.compute {state : KernelState} {memory : Memory}
    (tables : KernelTables image state.memory)
    (kept : ∀ x, KernelMemory image x → memory x = state.memory x) :
    KernelTables image memory := by
  refine tables.congr ?_
  intro x lower upper
  have start := image.tablesStart
  have inside := image.tablesEnd
  have kernelStart : kernelStartAddr.toNat = 0x40000 := rfl
  exact kept x (Or.inl (by omega))

theorem Handled.running {before after : KernelState} {pid : Pid} {reg : Registers}
    {via : Via} (handled : Handled before pid reg after via)
    (inv : KernelInv image before) (runnable : Runnable before pid) :
    Running image after := by
  have active := Runnable.active runnable
  refine ⟨?_, ?_⟩
  · have effect := handled.effect
    have settled := handled.settled
    generalize (after.processes pid).pRegisters = registers at effect settled
    generalize (after.processes pid).pState = pState at effect settled
    generalize after.pageinfo = pageinfo at effect settled
    cases effect with
    | allocated intno able =>
        exact settled.inv inv active (by decide) (inv.pageinfo.assign able.2.2 active)
    | _ => exact settled.inv inv active (by decide) inv.pageinfo
  · obtain ⟨next, current, dispatched⟩ := handled.dispatch
    refine ⟨next, current, ?_⟩
    cases via with
    | run => exact dispatched.1.symm ▸ dispatched.2
    | schedule => exact dispatched.picked

structure Trapped (before : KernelState) (trap : Trap) (after : KernelState) :
    Prop where
  current : before.current = some trap.pid
  runnable : Runnable before trap.pid
  handled : Handled before trap.pid trap.reg after trap.via
  entered : after.current = some trap.next
  saved : trap.saved = (after.processes trap.pid).pRegisters

theorem Step.trapped {before after : KernelState} {trap : Trap}
    (running : Running image before) (step : Step image before (.trap trap) after) :
    Trapped before trap after := by
  cases step with
  | @trap _ keyboard reg via pid next current taken entered =>
      obtain ⟨other, here, runnable⟩ := running.entered
      rw [current] at here
      cases here
      rcases exception_cases keyboard running.inv current runnable reg with
        ⟨stop, stopped, _⟩ | ⟨found, way, run, handled⟩
      · rw [taken] at stopped
        cases stopped
      · rw [taken] at run
        cases run
        exact ⟨current, runnable, handled, entered, rfl⟩

theorem Step.running {before after : KernelState} {event : Event}
    (running : Running image before) (step : Step image before event after) :
    Running image after := by
  cases event with
  | compute =>
      cases step with
      | compute kept =>
          refine ⟨?_, running.entered⟩
          exact running.inv.congr (running.inv.tables.compute kept) running.inv.pageinfo
            (fun _ => rfl) (fun _ => Iff.rfl) fun _ _ => rfl
  | trap trap =>
      have trapped := step.trapped running
      exact trapped.handled.running running.inv trapped.runnable

/-- Without a tick limit and without key commands there is a step for every system call
and timer interrupt. -/
theorem Running.traps {before : KernelState} (running : Running image before)
    (unlimited : image.tickLimit = 0#32) {reg : Registers}
    (known : reg.regIntno ∈ [intSysGetpid, intSysYield, intSysPageAlloc, intTimer]) :
    ∃ trap after, Step image before (.trap trap) after ∧ trap.reg = reg := by
  obtain ⟨inv, pid, current, runnable⟩ := running
  have quiet : ∀ i : Nat, checkKeyboard ((fun _ => -1 : Nat → Int) i) = .ok () :=
    fun _ => rfl
  obtain ⟨after, via, handled, result⟩ :=
    exception_returns quiet unlimited inv current runnable known
  obtain ⟨next, entered, _⟩ := result.dispatch
  exact ⟨_, after, .trap current handled entered, rfl⟩

/-- The registers of a system call with argument `rdi`. -/
def callRegisters (intno rdi : BitVec 64) : Registers :=
  { zeroRegisters with regIntno := intno, regRdi := rdi }

theorem Booted.running {command : Option String} {state : KernelState}
    (booted : Booted image command state) : Running image state :=
  ⟨booted.inv, 1, booted.current, booted.runnable⟩

theorem run_running {prior start state : KernelState} {command : Option String}
    {trace : List Event} (boot : kernel image prior command = .ok start)
    (run : Run (Step image) start trace state) : Running image state :=
  run.invariant (Running image) (kernel_booted boot).running
    fun _ _ _ here step => step.running here

end Steps

/-! ## The consistency checks -/

/-- In every state of every run an exception with any registers ends the run without a
failed assertion, a bad array index or a fault, and the facts that the checks rest on
hold. -/
theorem kernel_checks_pass {image : KernelImage} {prior start state : KernelState}
    {command : Option String} {trace : List Event}
    (boot : kernel image prior command = .ok start)
    (run : Run (Step image) start trace state) :
    (∀ keyboard reg stop, exception image keyboard state reg = .error stop →
      stop.Orderly) ∧
    state.pageinfo (physicalPage image.kernelPagetable) =
      ⟨poKernel, 1 + usersOf state image.kernelPagetable⟩ ∧
    (∀ t : Fin 5, t ≠ 0 →
      state.pageinfo (physicalPage (image.kernelPagetables t.val)) = ⟨poKernel, 1⟩) ∧
    (∀ pn, (state.pageinfo pn).refcount > 0 → (state.pageinfo pn).owner ≥ 0 →
      ∃ pid : Pid, (state.pageinfo pn).owner = pid.val ∧
        (state.processes pid).pState ≠ .free) ∧
    (state.processes 0).pState = .free ∧
    ∀ pn, 0 ≤ (state.pageinfo pn).owner - poKernel ∧
      (state.pageinfo pn).owner - poKernel < memstateColors.length := by
  obtain ⟨inv, pid, current, runnable⟩ := run_running boot run
  have kernel : poKernel = -2 := rfl
  have colors : memstateColors.length = 18 := rfl
  refine ⟨?_, ?_, ?_, ?_, inv.processZero, ?_⟩
  · intro keyboard reg stop stopped
    rcases exception_cases keyboard inv current runnable reg with
      ⟨other, ended, reason⟩ | ⟨after, via, handled, _⟩
    · rw [stopped] at ended
      cases ended
      exact reason.orderly
    · rw [stopped] at handled
      cases handled
  · have root := inv.pageinfo.root
    rw [tableNumber, tablePage_zero] at root
    exact root
  · intro t lower
    exact inv.pageinfo.lower lower
  · intro pn used process
    obtain ⟨owner, active, same⟩ := inv.pageinfo.owner_active used process
    exact ⟨owner, same, active⟩
  · intro pn
    have range := inv.pageinfo.owner_range pn
    omega

theorem kernel_checks_pass_sample : ∃ start trap state,
    kernel sampleImage coldState none = .ok start ∧
    Step sampleImage start (.trap trap) state ∧ trap.reg.regIntno = intSysGetpid ∧
    state.pageinfo (physicalPage sampleImage.kernelPagetable) =
      ⟨poKernel, 1 + usersOf state sampleImage.kernelPagetable⟩ := by
  obtain ⟨start, boot⟩ := sampleImage_boots
  obtain ⟨trap, state, step, same⟩ := (kernel_booted boot).running.traps rfl
    (show (callRegisters intSysGetpid 0#64).regIntno ∈ _ by decide)
  have checked := kernel_checks_pass boot (.extend .start step)
  exact ⟨start, trap, state, boot, step, congrArg Registers.regIntno same, checked.2.1⟩

/-! ## Physical pages -/

/-- `pageinfo` says that the page is in use by the process. -/
def Owns (state : KernelState) (pid : Pid) (pn : PhysicalPage) : Prop :=
  (state.pageinfo pn).refcount ≠ 0 ∧ (state.pageinfo pn).owner = pid.val

/-- A `PAGE_ALLOC` by process `pid` for page `pn` that stored 0 in its `rax`. -/
def Allocated (pid : Pid) (pn : PhysicalPage) : Event → Prop
  | .compute => False
  | .trap trap => trap.pid = pid ∧ trap.reg.regIntno = intSysPageAlloc ∧
      trap.saved.regRax = 0#64 ∧ trap.reg.regRdi = pageAddress pn

section Pages

variable {image : KernelImage} {before after : KernelState} {trap : Trap}

theorem Trapped.page_alloc (trapped : Trapped before trap after)
    (intno : trap.reg.regIntno = intSysPageAlloc) :
    (Assignable before.pageinfo trap.reg.regRdi ∧ trap.saved.regRax = 0#64 ∧
      after.pageinfo = Function.update before.pageinfo (physicalPage trap.reg.regRdi)
        ⟨((trap.pid.val : Nat) : Int), 1⟩) ∨
    (¬ Assignable before.pageinfo trap.reg.regRdi ∧ trap.saved.regRax = -1#64 ∧
      after.pageinfo = before.pageinfo) := by
  rw [trapped.saved]
  exact trapped.handled.effect.of_pageAlloc intno

theorem Trapped.pageinfo_kept (trapped : Trapped before trap after)
    (intno : trap.reg.regIntno ≠ intSysPageAlloc) : after.pageinfo = before.pageinfo :=
  trapped.handled.effect.pageinfo_kept intno

theorem Step.used_kept {event : Event} (running : Running image before)
    (step : Step image before event after) {pn : PhysicalPage}
    (used : (before.pageinfo pn).refcount ≠ 0) :
    after.pageinfo pn = before.pageinfo pn := by
  cases event with
  | compute =>
      cases step with
      | compute _ => rfl
  | trap trap =>
      have trapped := step.trapped running
      by_cases intno : trap.reg.regIntno = intSysPageAlloc
      · rcases trapped.page_alloc intno with ⟨able, _, changed⟩ | ⟨_, _, kept⟩
        · rw [changed]
          refine Function.update_of_ne ?_ _ _
          rintro rfl
          exact used able.2.2
        · rw [kept]
      · rw [trapped.pageinfo_kept intno]

/-- A step gives a process exactly the page of a successful `PAGE_ALLOC`. -/
theorem Step.owns {event : Event} (running : Running image before)
    (step : Step image before event after) (pid : Pid) (pn : PhysicalPage) :
    Owns after pid pn ↔ Owns before pid pn ∨ Allocated pid pn event := by
  cases event with
  | compute =>
      cases step with
      | compute _ => simp [Owns, Allocated]
  | trap trap =>
      have trapped := step.trapped running
      by_cases intno : trap.reg.regIntno = intSysPageAlloc
      · rcases trapped.page_alloc intno with ⟨able, zero, changed⟩ | ⟨_, failed, kept⟩
        · have address := pageAddress_physicalPage able.1 able.2.1
          by_cases here : pn = physicalPage trap.reg.regRdi
          · subst here
            have free : ¬ Owns before pid (physicalPage trap.reg.regRdi) :=
              fun owns => owns.1 able.2.2
            simp only [Owns, changed, Function.update_self, Allocated, intno, zero,
              address, and_true] at free ⊢
            constructor
            · rintro ⟨_, same⟩
              exact Or.inr (Fin.ext (by exact_mod_cast same))
            · rintro (owns | rfl)
              · exact absurd owns free
              · exact ⟨by decide, rfl⟩
          · have elsewhere : trap.reg.regRdi ≠ pageAddress pn := by
              intro same
              refine here (Fin.ext ?_)
              have value := physicalPage_val able.2.1
              rw [same, pageAddress_toNat] at value
              rw [same, value]
              omega
            simp only [Owns, changed, Function.update_of_ne here, Allocated, elsewhere,
              and_false, or_false]
        · have nonzero : trap.saved.regRax ≠ 0#64 := by
            rw [failed]
            decide
          simp only [Owns, kept, Allocated, nonzero, false_and, and_false, or_false]
      · simp only [Owns, trapped.pageinfo_kept intno, Allocated, intno, false_and,
          and_false, or_false]

theorem run_used_kept {events : List Event} (running : Running image before)
    (run : Run (Step image) before events after) {pn : PhysicalPage}
    (used : (before.pageinfo pn).refcount ≠ 0) :
    after.pageinfo pn = before.pageinfo pn := by
  have kept : Running image after ∧ after.pageinfo pn = before.pageinfo pn :=
    run.invariant
      (fun state => Running image state ∧ state.pageinfo pn = before.pageinfo pn)
      ⟨running, rfl⟩ fun middle _ _ here step =>
        ⟨step.running here.1, (step.used_kept here.1 (by rwa [here.2])).trans here.2⟩
  exact kept.2

/-- A run gives a process exactly the pages of its successful `PAGE_ALLOC`s. -/
theorem run_owns {events : List Event} (running : Running image before)
    (run : Run (Step image) before events after) (pid : Pid) (pn : PhysicalPage) :
    Owns after pid pn ↔ Owns before pid pn ∨ ∃ event ∈ events, Allocated pid pn event := by
  have owned := run.history
    (fun seen state => Running image state ∧ (Owns state pid pn ↔
      Owns before pid pn ∨ ∃ event ∈ seen, Allocated pid pn event))
    ⟨running, by simp⟩ (by
      intro seen middle event next here step
      refine ⟨step.running here.1, ?_⟩
      rw [step.owns here.1, here.2]
      simp only [List.mem_append, List.mem_singleton, or_assoc]
      refine or_congr_right ?_
      constructor
      · rintro (⟨other, member, allocated⟩ | allocated)
        · exact ⟨other, Or.inl member, allocated⟩
        · exact ⟨event, Or.inr rfl, allocated⟩
      · rintro ⟨other, member | rfl, allocated⟩
        · exact Or.inl ⟨other, member, allocated⟩
        · exact Or.inr allocated)
  exact owned.2

/-- No process owns a page that the boot marks as reserved or as the kernel's. -/
theorem KernelInv.system_unowned {state : KernelState} (inv : KernelInv image state)
    {pn : PhysicalPage} (system : initialOwner image (pageAddress pn) ≠ poFree) (pid : Pid) :
    ¬ Owns state pid pn := by
  intro owns
  obtain ⟨_, owner⟩ := owns
  rw [inv.pageinfo.system pn system] at owner
  have reserved : poReserved = -1 := rfl
  have kernel : poKernel = -2 := rfl
  simp only at owner
  rcases initialOwner_cases image (pageAddress pn) with is | is | is
  · omega
  · omega
  · exact absurd is system

end Pages

/-- Pages are never given out twice: what each `PAGE_ALLOC` stores and changes, and
what follows for the owners along a run from `middle` on. -/
theorem pages_given_once {image : KernelImage} {prior start middle state : KernelState}
    {command : Option String} {earlier later : List Event}
    (boot : kernel image prior command = .ok start)
    (reached : Run (Step image) start earlier middle)
    (run : Run (Step image) middle later state) :
    (∀ trap after, Step image middle (.trap trap) after →
      trap.reg.regIntno = intSysPageAlloc →
      if trap.reg.regRdi.toNat % 4096 = 0 ∧
          trap.reg.regRdi.toNat < memsizePhysical.toNat ∧
          (middle.pageinfo (physicalPage trap.reg.regRdi)).refcount = 0 then
        trap.saved.regRax = 0#64 ∧
        after.pageinfo = Function.update middle.pageinfo (physicalPage trap.reg.regRdi)
          ⟨((trap.pid.val : Nat) : Int), 1⟩
      else trap.saved.regRax = -1#64 ∧ after.pageinfo = middle.pageinfo ∧
        after.memory = middle.memory) ∧
    (∀ pn, (middle.pageinfo pn).refcount ≠ 0 →
      (state.pageinfo pn).refcount ≠ 0 ∧
      (state.pageinfo pn).owner = (middle.pageinfo pn).owner) ∧
    (∀ pn, initialOwner image (pageAddress pn) ≠ poFree →
      (state.pageinfo pn).owner = initialOwner image (pageAddress pn) ∧
      ∀ pid, ¬ Owns state pid pn) ∧
    ∀ pid pn, Owns state pid pn ↔
      Owns middle pid pn ∨ ∃ event ∈ later, Allocated pid pn event := by
  have running := run_running boot reached
  have final := run_running boot (reached.append run)
  refine ⟨?_, ?_, ?_, ?_⟩
  · intro trap after step intno
    have trapped := step.trapped running
    rcases trapped.page_alloc intno with ⟨able, zero, changed⟩ | ⟨unable, failed, kept⟩
    · exact (if_pos able).mpr ⟨zero, changed⟩
    · exact (if_neg unable).mpr ⟨failed, kept, trapped.handled.settled.memory⟩
  · intro pn used
    rw [run_used_kept running run used]
    exact ⟨used, rfl⟩
  · intro pn system
    refine ⟨?_, final.inv.system_unowned system⟩
    rw [final.inv.pageinfo.system pn system]
  · exact run_owns running run

theorem pages_given_once_sample : ∃ start trap state,
    kernel sampleImage coldState none = .ok start ∧
    Step sampleImage start (.trap trap) state ∧
    trap.reg = callRegisters intSysPageAlloc 0#64 ∧
    ∀ pid, ¬ Owns state pid 0 := by
  obtain ⟨start, boot⟩ := sampleImage_boots
  obtain ⟨trap, state, step, same⟩ := (kernel_booted boot).running.traps rfl
    (show (callRegisters intSysPageAlloc 0#64).regIntno ∈ _ by decide)
  have given := pages_given_once boot .start (.extend .start step)
  exact ⟨start, trap, state, boot, step, same, (given.2.2.1 0 (by decide)).2⟩

end OsLabs.Weensy
