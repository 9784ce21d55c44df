import OsLabs.Weensy.KernelRuns

/-!
# The kernel page table in every reachable state

`Reached` follows the kernel from `virtual_memory_init` on: through `pageinfo_init`, the
pieces of every `process_setup`, `run` and the steps of user mode.  The kernel page
table maps every physical address to itself in all of these states.
-/

set_option autoImplicit false

namespace OsLabs.Weensy

open OsLabs.ExceptRules OsLabs.Transition

/-! ## Reachable states -/

inductive Phase where
  /-- `virtual_memory_init` has returned. -/
  | paged
  /-- Between the calls of `process_setup`. -/
  | settingUp
  /-- In `process_setup` of a process. -/
  | loading (pid : Pid)
  /-- A process is running. -/
  | user

inductive Reached (image : KernelImage) : Phase → KernelState → Prop
  | paged {prior state : KernelState} (run : virtualMemoryInit image prior = .ok state) :
      Reached image .paged state
  | initialized {state : KernelState} (reached : Reached image .paged state) :
      Reached image .settingUp
        { pageinfoInit image state with processes := processesInit }
  | begun {pid : Pid} {before after : KernelState}
      (reached : Reached image .settingUp before)
      (idle : (before.processes pid).pState = .free) (range : 1 ≤ pid.val ∧ pid.val ≤ 4)
      (run : beginSetup image before pid = .ok after) : Reached image (.loading pid) after
  | segment {pid : Pid} {before after : KernelState} {ph : ElfProgram}
      {source : Nat → UInt8} {r : Int} (reached : Reached image (.loading pid) before)
      (run : programLoadSegment image before pid ph source = .ok (r, after)) :
      Reached image (.loading pid) after
  | entry {pid : Pid} {state : KernelState} (reached : Reached image (.loading pid) state)
      (reg : Registers) : Reached image (.loading pid) (state.setRegisters pid reg)
  | finished {pid : Pid} {before after : KernelState}
      (reached : Reached image (.loading pid) before)
      (run : finishSetup before pid = .ok after) : Reached image .settingUp after
  | entered {pid : Pid} {before after : KernelState}
      (reached : Reached image .settingUp before)
      (enter : run image before pid = .ok after) : Reached image .user after
  | step {before after : KernelState} {event : Event}
      (reached : Reached image .user before) (step : Step image before event after) :
      Reached image .user after

section Reaching

variable {image : KernelImage}

/-- The states in `process_setup` of `pid`. -/
def Loading (image : KernelImage) (pid : Pid) (state : KernelState) : Prop :=
  ∃ base proc, KernelInv image base ∧ ¬ Active base pid ∧
    (1 ≤ pid.val ∧ pid.val ≤ 4) ∧ KernelTables image state.memory ∧
    PageinfoOk image (usersOf base image.kernelPagetable + 1)
      (fun other => Active base other ∨ other = pid) state.pageinfo ∧
    state.processes = Function.update base.processes pid proc ∧ proc.pPid = pid ∧
    proc.pPagetable = image.kernelPagetable

def PhaseInv (image : KernelImage) (state : KernelState) : Phase → Prop
  | .paged => KernelTables image state.memory
  | .settingUp => KernelInv image state
  | .loading pid => Loading image pid state
  | .user => Running image state

theorem run_running_of_ok {before after : KernelState} {pid : Pid}
    (inv : KernelInv image before) (enter : run image before pid = .ok after) :
    Running image after := by
  obtain ⟨_, checked, _⟩ := bind_eq_ok.mp enter
  have state := assert_eq_ok.mp checked
  have runnable : Runnable before pid := state
  rw [run_ok inv runnable] at enter
  cases enter
  refine ⟨?_, pid, rfl, runnable⟩
  exact inv.congr inv.tables inv.pageinfo (fun _ => rfl) (fun _ => Iff.rfl) fun _ _ => rfl

theorem Reached.inv {phase : Phase} {state : KernelState}
    (reached : Reached image phase state) : PhaseInv image state phase := by
  induction reached with
  | @paged prior state run =>
      obtain ⟨memory, spec, tables⟩ := virtualMemoryInit_spec image prior
      rw [spec] at run
      cases run
      exact tables
  | @initialized state reached _ =>
      cases reached with
      | @paged prior _ run => exact InitialState.inv ⟨prior, state, run, rfl⟩
  | @begun pid before after _ idle range run ih =>
      obtain ⟨found, begun, tables, ok, processes, _⟩ := beginSetup_spec ih pid
      rw [run] at begun
      cases begun
      exact ⟨before, _, ih, fun active => active idle, range, tables, ok, processes,
        ih.pids pid, rfl⟩
  | @segment pid before after ph source r _ run ih =>
      obtain ⟨base, proc, inv, idle, range, tables, ok, processes, number, shared⟩ := ih
      have here : before.processes pid = proc := by
        rw [processes, Function.update_self]
      rcases programLoadSegment_cases tables ok.tablesInUse (by rw [here]; exact shared) ph
        source with
        ⟨_, fault, _⟩ | ⟨_, _, loaded, result, _⟩
      · rw [run] at fault
        cases fault
      · rw [run] at loaded
        cases loaded
        obtain ⟨pages, claims⟩ := result.claims
        exact ⟨base, proc, inv, idle, range, claims.tables ok.tablesInUse tables,
          claims.pageinfoOk ok (Or.inr rfl), claims.processes.trans processes, number,
          shared⟩
  | @entry pid state _ reg ih =>
      obtain ⟨base, proc, inv, idle, range, tables, ok, processes, number, shared⟩ := ih
      refine ⟨base, { proc with pRegisters := reg }, inv, idle, range, tables, ok, ?_,
        number, shared⟩
      simp only [KernelState.setRegisters, KernelState.setProc, processes,
        Function.update_self, Function.update_idem]
  | @finished pid before after _ run ih =>
      obtain ⟨base, proc, inv, idle, range, tables, ok, processes, number, shared⟩ := ih
      have here : before.processes pid = proc := by
        rw [processes, Function.update_self]
      obtain ⟨found, finished, afterTables, afterOk, result, _⟩ :=
        finishSetup_spec tables ok (Or.inr rfl) (by rw [here]; exact shared) range.2
      rw [run] at finished
      cases finished
      rw [here, processes, Function.update_idem] at result
      exact inv.setup idle range.1 afterTables afterOk result number (by simp) shared
  | entered _ enter ih => exact run_running_of_ok ih enter
  | step _ step ih => exact step.running ih

theorem Reached.tables {phase : Phase} {state : KernelState}
    (reached : Reached image phase state) : KernelTables image state.memory := by
  have inv := reached.inv
  cases phase with
  | paged => exact inv
  | settingUp => exact KernelInv.tables inv
  | loading pid =>
      obtain ⟨_, _, _, _, _, tables, _⟩ := inv
      exact tables
  | user => exact (Running.inv inv).tables

/-! ## The states of kernel() and of its runs are reached -/

theorem Reached.loadSegments {pid : Pid} (ramimage : OsLabs.ByteMemory.Memory)
    (programs : List ElfProgram) {before after : KernelState} {r : Int}
    (reached : Reached image (.loading pid) before)
    (run : loadSegments image pid ramimage programs before = .ok (r, after)) :
    Reached image (.loading pid) after := by
  induction programs generalizing before with
  | nil =>
      cases run
      exact reached
  | cons ph rest ih =>
      unfold OsLabs.Weensy.loadSegments at run
      split at run
      · obtain ⟨⟨code, middle⟩, first, later⟩ := bind_eq_ok.mp run
        have loaded := reached.segment first
        simp only at later
        split at later
        · cases later
          exact loaded
        · exact ih loaded later
      · exact ih reached run

theorem Reached.processSetup {pid : Pid} {before after : KernelState} {program : Int}
    (reached : Reached image .settingUp before)
    (idle : (before.processes pid).pState = .free) (range : 1 ≤ pid.val ∧ pid.val ≤ 4)
    (run : processSetup image before pid program = .ok after) :
    Reached image .settingUp after := by
  obtain ⟨begun, beginning, run⟩ := bind_eq_ok.mp run
  have started := Reached.begun reached idle range beginning
  obtain ⟨⟨code, middle⟩, load, run⟩ := bind_eq_ok.mp run
  obtain ⟨_, _, finish⟩ := bind_eq_ok.mp run
  unfold programLoad at load
  split at load
  · obtain ⟨_, _, load⟩ := bind_eq_ok.mp load
    obtain ⟨⟨segments, last⟩, segmentsRun, load⟩ := bind_eq_ok.mp load
    have loaded := started.loadSegments _ _ segmentsRun
    simp only at load
    split at load
    · cases load
      exact loaded.finished finish
    · cases load
      exact (loaded.entry _).finished finish
  · cases load

theorem Reached.setupAll (programs : List (Pid × Fin 6)) {before after : KernelState}
    (reached : Reached image .settingUp before)
    (distinct : (programs.map Prod.fst).Nodup)
    (range : ∀ entry ∈ programs, 1 ≤ entry.1.val ∧ entry.1.val ≤ 4)
    (idle : ∀ entry ∈ programs, (before.processes entry.1).pState = .free)
    (run : setupAll image programs before = .ok after) :
    Reached image .settingUp after := by
  induction programs generalizing before with
  | nil =>
      cases run
      exact reached
  | cons entry rest ih =>
      obtain ⟨pid, program⟩ := entry
      rw [List.map_cons, List.nodup_cons] at distinct
      obtain ⟨middle, first, later⟩ := bind_eq_ok.mp run
      have member : (pid, program) ∈ (pid, program) :: rest := List.mem_cons_self
      have free := idle _ member
      have inv : KernelInv image before := reached.inv
      refine ih (reached.processSetup free (range _ member) first) distinct.2
        (fun other inside => range other (List.mem_cons_of_mem _ inside)) ?_ later
      intro other inside
      rcases processSetup_cases inv (fun active => active free) (range _ member) program with
        ⟨_, stopped, _⟩ | ⟨_, done, setUp⟩
      · rw [first] at stopped
        cases stopped
      · rw [first] at done
        cases done
        have different : other.1 ≠ pid := by
          intro same
          exact distinct.1 (List.mem_map.mpr ⟨other, inside, same⟩)
        rw [setUp.processes, Function.update_of_ne different]
        exact idle other (List.mem_cons_of_mem _ inside)

theorem Reached.kernel {prior start : KernelState} {command : Option String}
    (boot : kernel image prior command = .ok start) : Reached image .user start := by
  obtain ⟨distinct, range⟩ := initialPrograms_range command
  obtain ⟨paged, init, boot⟩ := bind_eq_ok.mp boot
  obtain ⟨ready, setups, enter⟩ := bind_eq_ok.mp boot
  have initialized := Reached.initialized (.paged init)
  exact .entered (initialized.setupAll _ distinct range (fun _ _ => rfl) setups) enter

theorem Reached.run {prior start state : KernelState} {command : Option String}
    {trace : List Event} (boot : OsLabs.Weensy.kernel image prior command = .ok start)
    (run : Run (Step image) start trace state) : Reached image .user state :=
  run.invariant (Reached image .user) (Reached.kernel boot)
    fun _ _ _ reached step => reached.step step

end Reaching

/-! ## The identity map -/

/-- In every reached state the kernel page table maps exactly the physical addresses,
each to itself, and the calls of `virtual_memory_map` that the kernel makes (at boot,
after `assign_physical_page` and for a stack page) succeed without allocating a
table and, but for the first, without changing memory. -/
theorem kernel_table_identity {image : KernelImage} {phase : Phase} {state : KernelState}
    (reached : Reached image phase state) :
    (∀ va : UIntPtr, virtualMemoryLookup state.memory image.kernelPagetable va =
      if va.toNat % 2 ^ 48 < memsizePhysical.toNat then
        ⟨((va.toNat % 2 ^ 48 / pageSize.toNat : Nat) : Int),
          BitVec.ofNat 64 (va.toNat % 2 ^ 48), (pteP ||| pteW ||| pteU).setWidth 32⟩
      else .unmapped) ∧
    (∀ (prior : KernelState) (calls : Nat) (allocator : Allocator), ∃ memory,
      virtualMemoryMap ⟨linkedTables image prior.memory, calls⟩ image.kernelPagetable 0#64
        0#64 memsizePhysical pteAll allocator = .ok (0, ⟨memory, calls⟩)) ∧
    (∀ (addr : UIntPtr) (owner r : Int) (after : KernelState),
      assignPhysicalPage state addr owner = .ok (r, after) → 0 ≤ r →
      ∀ (calls : Nat) (allocator : Allocator),
        virtualMemoryMap ⟨after.memory, calls⟩ image.kernelPagetable addr addr pageSize
          pteAll allocator = .ok (0, ⟨after.memory, calls⟩)) ∧
    ∀ pid : Pid, 1 ≤ pid.val → pid.val ≤ 4 → ∀ (calls : Nat) (allocator : Allocator),
      virtualMemoryMap ⟨state.memory, calls⟩ image.kernelPagetable (stackPage pid)
        (stackPage pid) pageSize pteAll allocator = .ok (0, ⟨state.memory, calls⟩) := by
  have tables := reached.tables
  refine ⟨tables.lookup, ?_, ?_, ?_⟩
  · intro prior calls allocator
    obtain ⟨memory, mapped, _⟩ := linkedTables_map image prior.memory calls allocator
    exact ⟨memory, mapped⟩
  · intro addr owner r after assigned success calls allocator
    rw [assignPhysicalPage_eq] at assigned
    by_cases able : Assignable state.pageinfo addr
    · rw [if_pos able] at assigned
      cases assigned
      exact tables.map_page able.1 able.2.1 calls allocator
    · rw [if_neg able] at assigned
      cases assigned
      exact absurd success (by decide)
  · intro pid _ few calls allocator
    have place := stackPage_toNat few
    have limit : memsizePhysical.toNat = 0x200000 := rfl
    exact tables.map_page (by omega) (by omega) calls allocator

/-- The map holds after a system call of the first process. -/
theorem kernel_table_identity_sample : ∃ start trap state,
    kernel sampleImage coldState none = .ok start ∧
    Step sampleImage start (.trap trap) state ∧
    trap.reg = callRegisters intSysPageAlloc 0x1FF000#64 ∧
    virtualMemoryLookup state.memory sampleImage.kernelPagetable 0x1FF123#64 =
      ⟨0x1FF, 0x1FF123#64, 7#32⟩ := by
  obtain ⟨start, boot⟩ := sampleImage_boots
  obtain ⟨trap, state, step, same⟩ := (kernel_booted boot).running.traps rfl
    (show (callRegisters intSysPageAlloc 0x1FF000#64).regIntno ∈ _ by decide)
  have identity := (kernel_table_identity (Reached.run boot (.extend .start step))).1
  exact ⟨start, trap, state, boot, step, same, identity 0x1FF123#64⟩

end OsLabs.Weensy
