import OsLabs.Lib.RoundRobin
import OsLabs.Weensy.KernelInvariant

/-!
# What one exception does

Under the invariant an exception either ends the run in one of the ways that the
source provides for, or enters user mode again: `Handled` says everything it has
changed by then, and every property of runs is proved from it.
-/

set_option autoImplicit false

namespace OsLabs.Weensy

open OsLabs.ByteMemory OsLabs.ExceptRules OsLabs.RoundRobin

/-- The stops that are not a failed check, a bad access or a fault of the kernel. -/
def Stop.Orderly : Stop → Prop
  | .assertion _ | .outOfBounds | .kernelFault _ | .noCurrent => False
  | .sysPanic | .kernelPageFaultPanic | .unexpectedException _ | .poweroff
  | .softReboot _ | .spins => True

/-! ## The displays -/

/-- `after` is `before` with other display variables and another log. -/
def Redisplayed (before after : KernelState) : Prop :=
  ∃ lastTicks showing log,
    after = { before with lastTicks := lastTicks, showing := showing, log := log }

section Displays

variable {image : KernelImage} {state : KernelState}

theorem memstateColor_ok {info : PhysicalPageinfo}
    (range : -2 ≤ info.owner ∧ info.owner < 16) :
    ∃ color, memstateColor info = .ok color := by
  have free : poFree = 0 := rfl
  have kernel : poKernel = -2 := rfl
  unfold memstateColor
  generalize shown : (if info.refcount = 0 then poFree else info.owner) = owner
  have bounds : -2 ≤ owner ∧ owner < 16 := by
    subst shown
    split <;> omega
  have index : (owner - poKernel).toNat < memstateColors.length := by
    have length : memstateColors.length = 18 := rfl
    omega
  simp only
  rw [if_pos (by omega), List.getElem?_eq_getElem index]
  exact ⟨_, rfl⟩

theorem memshowPhysical_ok
    (range : ∀ pn, -2 ≤ (state.pageinfo pn).owner ∧ (state.pageinfo pn).owner < 16) :
    ∃ cells, memshowPhysical state = .ok cells := by
  refine mapM_ok ?_
  intro pn _
  obtain ⟨color, drawn⟩ := memstateColor_ok (range pn)
  rw [drawn]
  exact ⟨_, rfl⟩

/-- Every address of the virtual display is unmapped or has its own page. -/
theorem lookup_displayed (tables : KernelTables image state.memory) {va : UIntPtr}
    (member : va ∈ pagesBelow 0 memsizeVirtual.toNat) :
    (virtualMemoryLookup state.memory image.kernelPagetable va).pn < 0 ∨
    ∃ pn : Nat, pn < nPages ∧
      virtualMemoryLookup state.memory image.kernelPagetable va = ⟨pn, va, 7#32⟩ ∧
      va < memsizePhysical := by
  have limit : memsizePhysical.toNat = 0x200000 := rfl
  have virtual : memsizeVirtual.toNat = 0x300000 := rfl
  have pages : nPages = 512 := rfl
  have range := pagesBelow_spec (by omega) member
  by_cases inside : va.toNat < memsizePhysical.toNat
  · right
    refine ⟨va.toNat / 4096, by omega, tables.lookup_pa inside, ?_⟩
    rw [BitVec.lt_def]
    exact inside
  · left
    have outside : ¬ va.toNat % 2 ^ 48 < memsizePhysical.toNat := by omega
    rw [tables.lookup, identityMapping, if_neg outside]
    decide

theorem memshowVirtual_ok (tables : KernelTables image state.memory)
    (range : ∀ pn, -2 ≤ (state.pageinfo pn).owner ∧ (state.pageinfo pn).owner < 16) :
    ∃ cells, memshowVirtual state image.kernelPagetable = .ok cells := by
  have aligned := (pteAddr_of_aligned image.tablesAligned).symm
  unfold memshowVirtual
  rw [assert_pos aligned, ok_bind]
  refine mapM_ok ?_
  intro va member
  rcases lookup_displayed tables member with unmapped | ⟨pn, bound, mapped, inside⟩
  · simp only [if_pos unmapped]
    exact ⟨_, rfl⟩
  · obtain ⟨color, drawn⟩ := memstateColor_ok (range ⟨pn, bound⟩)
    have positive : ¬ ((pn : Int) < 0) := by omega
    simp only [mapped, if_neg positive, assert_pos inside, ok_bind,
      pageinfoIndex_val bound, drawn]
    exact ⟨_, rfl⟩

theorem memdumpVirtual_ok (tables : KernelTables image state.memory) (pid : Pid) :
    ∃ line, memdumpVirtual state image.kernelPagetable pid =
      .ok { state with log := state.log ++ [line] } := by
  have aligned := (pteAddr_of_aligned image.tablesAligned).symm
  unfold memdumpVirtual
  rw [assert_pos aligned, ok_bind]
  have loop : ∃ entries, (pagesBelow 0 memsizeVirtual.toNat).mapM (fun va => do
      let vam := virtualMemoryLookup state.memory image.kernelPagetable va
      if vam.pn < 0 then (.ok (0#8, 0#8, 0#32) : Except Stop _)
      else do
        let page ← pageinfoIndex vam.pn
        .ok (BitVec.ofInt 8 (state.pageinfo page).owner,
          BitVec.ofInt 8 (state.pageinfo page).refcount, vam.perm)) = .ok entries := by
    refine mapM_ok ?_
    intro va member
    rcases lookup_displayed tables member with unmapped | ⟨pn, bound, mapped, _⟩
    · simp only [if_pos unmapped]
      exact ⟨_, rfl⟩
    · have positive : ¬ ((pn : Int) < 0) := by omega
      simp only [mapped, if_neg positive, pageinfoIndex_val bound, ok_bind]
      exact ⟨_, rfl⟩
  obtain ⟨entries, computed⟩ := loop
  rw [computed]
  exact ⟨_, rfl⟩

theorem memdumpVirtualAll_ok (pids : List Pid) (state : KernelState)
    (tables : KernelTables image state.memory)
    (shared : ∀ pid, Active state pid →
      (state.processes pid).pPagetable = image.kernelPagetable) :
    ∃ log, memdumpVirtualAll pids state = .ok { state with log := log } := by
  induction pids generalizing state with
  | nil => exact ⟨state.log, rfl⟩
  | cons pid rest ih =>
      unfold memdumpVirtualAll
      split
      · next active =>
          obtain ⟨line, dumped⟩ := memdumpVirtual_ok tables pid
          rw [shared pid active, dumped, ok_bind]
          exact ih { state with log := state.log ++ [line] } tables shared
      · exact ih state tables shared

theorem memshowVirtualAnimate_ok (inv : KernelInv image state) :
    ∃ lastTicks showing, memshowVirtualAnimate state =
      .ok { state with lastTicks := lastTicks, showing := showing } := by
  unfold memshowVirtualAnimate
  obtain ⟨lastTicks, showing⟩ := nextShowing state
  refine ⟨lastTicks, showing, ?_⟩
  simp only
  split
  · next active =>
      have displayed : KernelTables image
          { state with lastTicks := lastTicks, showing := showing }.memory := inv.tables
      obtain ⟨cells, drawn⟩ := memshowVirtual_ok displayed inv.pageinfo.owner_range
      rw [inv.shared showing active, drawn]
      rfl
  · rfl

theorem tickLimitDump_cases (inv : KernelInv image state) (reg : Registers) :
    tickLimitDump image state reg = .error .poweroff ∧ image.tickLimit ≠ 0#32 ∧
        state.ticks = image.tickLimit ∨
      ∃ log, tickLimitDump image state reg = .ok { state with log := log } := by
  unfold tickLimitDump
  split
  · exact Or.inr ⟨state.log, rfl⟩
  · next limited =>
    split
    · next reached => exact Or.inl ⟨rfl, limited, reached⟩
    · split
      · exact Or.inr (memdumpVirtualAll_ok _ (memdumpPhysical state) inv.tables inv.shared)
      · exact Or.inr ⟨state.log, rfl⟩

theorem exceptionChecks_cases (inv : KernelInv image state) (reg : Registers) :
    exceptionChecks image state reg = .error .poweroff ∧ image.tickLimit ≠ 0#32 ∧
        state.ticks = image.tickLimit ∨
      ∃ after, exceptionChecks image state reg = .ok after ∧ Redisplayed state after := by
  unfold exceptionChecks
  split
  · obtain ⟨cells, drawn⟩ := memshowPhysical_ok inv.pageinfo.owner_range
    obtain ⟨lastTicks, showing, animated⟩ := memshowVirtualAnimate_ok inv
    rw [inv.checkVirtualMemory_ok, ok_bind, drawn, ok_bind, animated, ok_bind]
    have same : KernelInv image
        { state with lastTicks := lastTicks, showing := showing } :=
      inv.congr inv.tables inv.pageinfo (fun _ => rfl) (fun _ => Iff.rfl) fun _ _ => rfl
    rcases tickLimitDump_cases same reg with off | ⟨log, dumped⟩
    · exact Or.inl off
    · exact Or.inr ⟨_, dumped, lastTicks, showing, log, rfl⟩
  · exact Or.inr ⟨state, rfl, state.lastTicks, state.showing, state.log, rfl⟩

end Displays

/-! ## Choosing a process -/

def Runnable (state : KernelState) (pid : Pid) : Prop :=
  (state.processes pid).pState = .runnable

section Choosing

variable {image : KernelImage} {state : KernelState}

theorem checkKeyboard_cases (c : Int) :
    checkKeyboard c = .ok () ∨ ∃ stop, checkKeyboard c = .error stop ∧ stop.Orderly := by
  unfold checkKeyboard
  split
  · exact Or.inr ⟨_, rfl, trivial⟩
  · split
    · exact Or.inr ⟨_, rfl, trivial⟩
    · split
      · exact Or.inr ⟨_, rfl, trivial⟩
      · split
        · exact Or.inr ⟨_, rfl, trivial⟩
        · exact Or.inl rfl

theorem checkKeyboard_ne_spins (c : Int) : checkKeyboard c ≠ .error .spins := by
  unfold checkKeyboard
  split_ifs <;> simp

theorem Runnable.active {pid : Pid} (runnable : Runnable state pid) : Active state pid := by
  unfold Runnable at runnable
  rw [Active, runnable]
  decide

theorem run_ok (inv : KernelInv image state) {p : Pid} (runnable : Runnable state p) :
    run image state p =
      .ok { state with current := some p, cr3 := image.kernelPagetable } := by
  have tables : KernelTables image { state with current := some p }.memory := inv.tables
  unfold Runnable at runnable
  rw [run, assert_pos runnable, ok_bind, inv.shared p (Runnable.active runnable)]
  exact setPagetable_ok tables

theorem steps_next (pid : Pid) : steps pid (pid + 1) = 1 := by
  have bound : pid.val < 16 := pid.isLt
  have value : (pid + 1).val = (pid.val + 1) % 16 := Fin.val_add pid 1
  have count : nproc = 16 := rfl
  unfold steps
  rw [value]
  split_ifs <;> omega

/-- The loop of `schedule` ends by a key command, finds nothing within its iterations
or runs the next runnable process. -/
theorem scheduleLoop_cases (inv : KernelInv image state) (fuel : Nat)
    (keyboard : Nat → Int) (pid : Pid) :
    (∃ i stop, checkKeyboard (keyboard i) = .error stop ∧
      scheduleLoop image state fuel keyboard pid = .error stop) ∨
    (scheduleLoop image state fuel keyboard pid = .error .spins ∧
      ∀ other, Runnable state other → fuel < steps pid other) ∨
    ∃ next, scheduleLoop image state fuel keyboard pid =
        .ok { state with current := some next, cr3 := image.kernelPagetable } ∧
      Next (Runnable state) pid next := by
  induction fuel generalizing keyboard pid with
  | zero => exact Or.inr (Or.inl ⟨rfl, fun other _ => steps_pos pid other⟩)
  | succ fuel ih =>
      unfold scheduleLoop
      simp only
      split
      · next runnable =>
          exact Or.inr (Or.inr ⟨pid + 1, run_ok inv runnable,
            Next.adjacent (steps_next pid) runnable⟩)
      · next idle =>
          rcases checkKeyboard_cases (keyboard 0) with quiet | ⟨stop, stopped, _⟩
          · rw [quiet, ok_bind]
            rcases ih (fun i => keyboard (i + 1)) (pid + 1) with
              ⟨i, stop, pressed, ended⟩ | ⟨spun, far⟩ | ⟨next, found, later⟩
            · exact Or.inl ⟨i + 1, stop, pressed, ended⟩
            · refine Or.inr (Or.inl ⟨spun, ?_⟩)
              intro other runnable
              have different : other ≠ pid + 1 := by
                intro same
                subst same
                exact idle runnable
              have further := far other runnable
              rw [steps_of_succ (steps_next pid) different]
              omega
            · exact Or.inr (Or.inr ⟨next, found, later.skip (steps_next pid) idle⟩)
          · rw [stopped]
            exact Or.inl ⟨0, stop, stopped, rfl⟩

end Choosing

/-! ## Handling -/

/-- What an exception makes of the registers and the state of the process that took
it and of `pageinfo`, and which function enters user mode again. -/
inductive Effect (pageinfo : PhysicalPage → PhysicalPageinfo) (pid : Pid)
    (reg : Registers) :
    Registers → ProcState → (PhysicalPage → PhysicalPageinfo) → Via → Prop
  | getpid (intno : reg.regIntno = intSysGetpid) :
      Effect pageinfo pid reg { reg with regRax := BitVec.ofNat 64 pid.val } .runnable
        pageinfo .run
  | yield (intno : reg.regIntno = intSysYield) :
      Effect pageinfo pid reg reg .runnable pageinfo .schedule
  | allocated (intno : reg.regIntno = intSysPageAlloc)
      (able : Assignable pageinfo reg.regRdi) :
      Effect pageinfo pid reg { reg with regRax := 0#64 } .runnable
        (Function.update pageinfo (physicalPage reg.regRdi) ⟨((pid.val : Nat) : Int), 1⟩)
        .run
  | refused (intno : reg.regIntno = intSysPageAlloc)
      (unable : ¬ Assignable pageinfo reg.regRdi) :
      Effect pageinfo pid reg { reg with regRax := -1#64 } .runnable pageinfo .run
  | timer (intno : reg.regIntno = intTimer) :
      Effect pageinfo pid reg reg .runnable pageinfo .schedule
  | pagefault (intno : reg.regIntno = intPageFault)
      (user : reg.regErr &&& pferrUser ≠ 0#64) :
      Effect pageinfo pid reg reg .broken pageinfo .schedule

section Effects

variable {pageinfo result : PhysicalPage → PhysicalPageinfo} {pid : Pid}
  {reg registers : Registers} {pState : ProcState} {via : Via}

theorem Effect.of_yield (effect : Effect pageinfo pid reg registers pState result via)
    (intno : reg.regIntno = intSysYield) : pState = .runnable ∧ via = .schedule := by
  cases effect with
  | yield _ => exact ⟨rfl, rfl⟩
  | getpid other => exact absurd (intno.symm.trans other) (by decide)
  | allocated other _ => exact absurd (intno.symm.trans other) (by decide)
  | refused other _ => exact absurd (intno.symm.trans other) (by decide)
  | timer other => exact absurd (intno.symm.trans other) (by decide)
  | pagefault other _ => exact absurd (intno.symm.trans other) (by decide)

theorem Effect.of_pageAlloc (effect : Effect pageinfo pid reg registers pState result via)
    (intno : reg.regIntno = intSysPageAlloc) :
    Assignable pageinfo reg.regRdi ∧ registers.regRax = 0#64 ∧
      result = Function.update pageinfo (physicalPage reg.regRdi)
        ⟨((pid.val : Nat) : Int), 1⟩ ∨
    ¬ Assignable pageinfo reg.regRdi ∧ registers.regRax = -1#64 ∧ result = pageinfo := by
  cases effect with
  | allocated _ able => exact Or.inl ⟨able, rfl, rfl⟩
  | refused _ unable => exact Or.inr ⟨unable, rfl, rfl⟩
  | getpid other => exact absurd (intno.symm.trans other) (by decide)
  | yield other => exact absurd (intno.symm.trans other) (by decide)
  | timer other => exact absurd (intno.symm.trans other) (by decide)
  | pagefault other _ => exact absurd (intno.symm.trans other) (by decide)

theorem Effect.pageinfo_kept (effect : Effect pageinfo pid reg registers pState result via)
    (intno : reg.regIntno ≠ intSysPageAlloc) : result = pageinfo := by
  cases effect with
  | allocated other _ => exact absurd other intno
  | _ => rfl

theorem Effect.returns (effect : Effect pageinfo pid reg registers pState result via)
    (call : reg.regIntno = intSysGetpid ∨ reg.regIntno = intSysPageAlloc) : via = .run := by
  cases effect with
  | yield other =>
      rw [other] at call
      exact absurd call (by decide)
  | timer other =>
      rw [other] at call
      exact absurd call (by decide)
  | pagefault other _ =>
      rw [other] at call
      exact absurd call (by decide)
  | _ => rfl

end Effects

/-- `after` is `before` with other registers and another state of one process,
another `pageinfo` and other displays. -/
structure Settled (before : KernelState) (pid : Pid) (registers : Registers)
    (pState : ProcState) (pageinfo : PhysicalPage → PhysicalPageinfo)
    (after : KernelState) : Prop where
  memory : after.memory = before.memory
  processes : after.processes = Function.update before.processes pid
    { before.processes pid with pRegisters := registers, pState := pState }
  pageinfo : after.pageinfo = pageinfo

/-- The process entered is the one that took the exception, or the next runnable one
after it. -/
def Dispatched (state : KernelState) (pid : Pid) (next : Pid) : Via → Prop
  | .run => next = pid ∧ Runnable state pid
  | .schedule => Next (Runnable state) pid next

/-- Why an exception of process `pid` does not enter user mode again. -/
inductive Ended (image : KernelImage) (keyboard : Nat → Int) (before : KernelState)
    (pid : Pid) (reg : Registers) : Stop → Prop
  | tickLimit (limited : image.tickLimit ≠ 0#32) (reached : before.ticks = image.tickLimit) :
      Ended image keyboard before pid reg .poweroff
  | key {stop : Stop} (i : Nat) (pressed : checkKeyboard (keyboard i) = .error stop) :
      Ended image keyboard before pid reg stop
  | panic (intno : reg.regIntno = intSysPanic) :
      Ended image keyboard before pid reg .sysPanic
  | kernelFault (intno : reg.regIntno = intPageFault)
      (kernel : reg.regErr &&& pferrUser = 0#64) :
      Ended image keyboard before pid reg .kernelPageFaultPanic
  | unexpected (intno : reg.regIntno ∉ [intSysPanic, intSysGetpid, intSysYield,
      intSysPageAlloc, intTimer, intPageFault]) :
      Ended image keyboard before pid reg (.unexpectedException reg.regIntno)
  | idle (intno : reg.regIntno = intPageFault)
      (alone : ∀ other, Runnable before other → other = pid) :
      Ended image keyboard before pid reg .spins

theorem Ended.orderly {image : KernelImage} {keyboard : Nat → Int} {before : KernelState}
    {pid : Pid} {reg : Registers} {stop : Stop}
    (ended : Ended image keyboard before pid reg stop) : stop.Orderly := by
  cases ended with
  | key i pressed =>
      rcases checkKeyboard_cases (keyboard i) with quiet | ⟨other, stopped, orderly⟩
      · rw [quiet] at pressed
        cases pressed
      · rw [stopped] at pressed
        cases pressed
        exact orderly
  | _ => trivial

/-- Everything that an exception of process `pid` has changed when user mode is
entered again. -/
structure Handled (before : KernelState) (pid : Pid) (reg : Registers)
    (after : KernelState) (via : Via) : Prop where
  effect : Effect before.pageinfo pid reg (after.processes pid).pRegisters
    (after.processes pid).pState after.pageinfo via
  settled : Settled before pid (after.processes pid).pRegisters
    (after.processes pid).pState after.pageinfo after
  dispatch : ∃ next, after.current = some next ∧ Dispatched after pid next via

section Handling

variable {image : KernelImage} {before state : KernelState} {pid : Pid}
  {reg registers : Registers} {pState : ProcState}
  {pageinfo : PhysicalPage → PhysicalPageinfo}

theorem Settled.inv (settled : Settled before pid registers pState pageinfo state)
    (inv : KernelInv image before) (active : Active before pid) (kept : pState ≠ .free)
    (ok : PageinfoOk image (usersOf before image.kernelPagetable) (Active before)
      pageinfo) : KernelInv image state := by
  refine inv.congr ?_ ?_ ?_ ?_ ?_
  · rw [settled.memory]
    exact inv.tables
  · rw [settled.pageinfo]
    exact ok
  · intro other
    rw [settled.processes]
    by_cases same : other = pid
    · subst same
      rw [Function.update_self]
    · rw [Function.update_of_ne same]
  · intro other
    rw [settled.processes]
    by_cases same : other = pid
    · subst same
      rw [Function.update_self]
      exact ⟨fun free => absurd free kept, fun free => absurd free active⟩
    · rw [Function.update_of_ne same]
  · intro other _
    rw [settled.processes]
    by_cases same : other = pid
    · subst same
      rw [Function.update_self]
    · rw [Function.update_of_ne same]

theorem Settled.self (settled : Settled before pid registers pState pageinfo state) :
    state.processes pid =
      { before.processes pid with pRegisters := registers, pState := pState } := by
  rw [settled.processes, Function.update_self]

theorem Settled.handled {via : Via} {next : Pid}
    (settled : Settled before pid registers pState pageinfo state)
    (effect : Effect before.pageinfo pid reg registers pState pageinfo via)
    (dispatched : Dispatched state pid next via) :
    Handled before pid reg
      { state with current := some next, cr3 := image.kernelPagetable } via := by
  have registersEq : (state.processes pid).pRegisters = registers := by
    rw [settled.self]
  have stateEq : (state.processes pid).pState = pState := by
    rw [settled.self]
  refine ⟨?_, ?_, next, rfl, dispatched⟩
  · simp only [registersEq, stateEq, settled.pageinfo]
    exact effect
  · simp only [registersEq, stateEq]
    exact ⟨settled.memory, settled.processes, rfl⟩

theorem scheduled_cases (keyboard : Nat → Int)
    (settled : Settled before pid registers pState pageinfo state)
    (inv : KernelInv image state)
    (effect : Effect before.pageinfo pid reg registers pState pageinfo .schedule) :
    (∃ i stop, checkKeyboard (keyboard i) = .error stop ∧
      scheduled image keyboard state pid = .error stop) ∨
    (scheduled image keyboard state pid = .error .spins ∧
      ∀ other, ¬ Runnable state other) ∨
    ∃ after, scheduled image keyboard state pid = .ok (after, .schedule) ∧
      Handled before pid reg after .schedule := by
  unfold scheduled schedule
  rw [inv.pids pid]
  rcases scheduleLoop_cases inv nproc keyboard pid with
    ⟨i, stop, pressed, stopped⟩ | ⟨spun, far⟩ | ⟨next, found, picked⟩
  · rw [stopped]
    exact Or.inl ⟨i, stop, pressed, rfl⟩
  · rw [spun]
    refine Or.inr (Or.inl ⟨rfl, ?_⟩)
    intro other runnable
    have := far other runnable
    have := steps_le pid other
    omega
  · rw [found]
    exact Or.inr (Or.inr ⟨_, rfl, settled.handled effect picked⟩)

theorem returnOrSchedule_eq_scheduled (keyboard : Nat → Int)
    (blocked : ¬ Runnable state pid) :
    returnOrSchedule image keyboard state pid = scheduled image keyboard state pid :=
  if_neg blocked

theorem returnOrSchedule_run (keyboard : Nat → Int)
    (settled : Settled before pid registers .runnable pageinfo state)
    (inv : KernelInv image state)
    (effect : Effect before.pageinfo pid reg registers .runnable pageinfo .run) :
    ∃ after, returnOrSchedule image keyboard state pid = .ok (after, .run) ∧
      Handled before pid reg after .run := by
  have runnable : Runnable state pid := by
    rw [Runnable, settled.self]
  unfold Runnable at runnable
  rw [returnOrSchedule, if_pos runnable, run_ok inv runnable]
  have dispatched : Dispatched state pid pid .run := ⟨rfl, runnable⟩
  exact ⟨_, rfl, settled.handled effect dispatched⟩

/-! ## The cases of exception -/

theorem Settled.setRegisters (settled : Settled before pid reg pState pageinfo state)
    (other : Registers) :
    Settled before pid other pState pageinfo (state.setRegisters pid other) := by
  refine ⟨settled.memory, ?_, settled.pageinfo⟩
  simp only [KernelState.setRegisters, KernelState.setProc, settled.processes,
    Function.update_self, Function.update_idem]

theorem Settled.setRax (settled : Settled before pid reg pState pageinfo state)
    (value : Int) :
    Settled before pid { reg with regRax := BitVec.ofInt 64 value } pState pageinfo
      (state.setRax pid value) := by
  have saved : (state.processes pid).pRegisters = reg := by
    rw [settled.self]
  have result := settled.setRegisters
    { (state.processes pid).pRegisters with regRax := BitVec.ofInt 64 value }
  rw [saved] at result
  rw [KernelState.setRax, saved]
  exact result

theorem Settled.breakProcess (settled : Settled before pid reg pState pageinfo state) :
    Settled before pid reg .broken pageinfo (breakProcess state pid) := by
  refine ⟨settled.memory, ?_, settled.pageinfo⟩
  simp only [OsLabs.Weensy.breakProcess, KernelState.setProc, settled.processes,
    Function.update_self, Function.update_idem]

theorem Settled.ticks (settled : Settled before pid reg pState pageinfo state)
    (ticks : BitVec 32) :
    Settled before pid reg pState pageinfo { state with ticks := ticks } :=
  ⟨settled.memory, settled.processes, settled.pageinfo⟩

theorem sysPageAlloc_eq (tables : KernelTables image state.memory)
    (pid_eq : (state.processes pid).pPid = pid)
    (pagetable : (state.processes pid).pPagetable = image.kernelPagetable)
    (saved : (state.processes pid).pRegisters = reg) :
    sysPageAlloc state pid = .ok (if Assignable state.pageinfo reg.regRdi then
      (state.setPageinfo (physicalPage reg.regRdi) ⟨((pid.val : Nat) : Int), 1⟩).setRax
        pid 0
      else state.setRax pid (-1)) := by
  have assigned := assignPhysicalPage_eq state reg.regRdi ((pid.val : Nat) : Int)
  unfold sysPageAlloc
  by_cases able : Assignable state.pageinfo reg.regRdi
  · rw [if_pos able] at assigned
    have mapped := tables.map_page able.1 able.2.1 0 none
    simp only [saved, pid_eq, pagetable, assigned, ok_bind, KernelState.setPageinfo,
      mapped, if_pos able]
    rfl
  · rw [if_neg able] at assigned
    simp only [saved, pid_eq, assigned, ok_bind, if_neg able]
    rfl

theorem sysPageAlloc_cases
    (settled : Settled before pid reg .runnable before.pageinfo state)
    (inv : KernelInv image before) (active : Active before pid)
    (intno : reg.regIntno = intSysPageAlloc) :
    ∃ registers pageinfo after, sysPageAlloc state pid = .ok after ∧
      Settled before pid registers .runnable pageinfo after ∧
      KernelInv image after ∧
      Effect before.pageinfo pid reg registers .runnable pageinfo .run := by
  have free : ProcState.runnable ≠ .free := by decide
  have tables : KernelTables image state.memory := by
    rw [settled.memory]
    exact inv.tables
  rw [sysPageAlloc_eq tables (by rw [settled.self]; exact inv.pids pid)
    (by rw [settled.self]; exact inv.shared pid active) (by rw [settled.self]),
    settled.pageinfo]
  by_cases able : Assignable before.pageinfo reg.regRdi
  · have assigned : Settled before pid reg .runnable
        (Function.update before.pageinfo (physicalPage reg.regRdi)
          ⟨((pid.val : Nat) : Int), 1⟩)
        (state.setPageinfo (physicalPage reg.regRdi) ⟨((pid.val : Nat) : Int), 1⟩) :=
      ⟨settled.memory, settled.processes, by
        rw [KernelState.setPageinfo, settled.pageinfo]⟩
    have result := assigned.setRax 0
    rw [if_pos able]
    exact ⟨_, _, _, rfl, result,
      result.inv inv active free (inv.pageinfo.assign able.2.2 active),
      .allocated intno able⟩
  · have result := settled.setRax (-1)
    rw [if_neg able]
    exact ⟨_, _, _, rfl, result, result.inv inv active free inv.pageinfo,
      .refused intno able⟩

/-- A process that stays runnable is enough for `schedule` to find one. -/
theorem scheduled_runnable (keyboard : Nat → Int)
    (settled : Settled before pid registers .runnable pageinfo state)
    (inv : KernelInv image state)
    (effect : Effect before.pageinfo pid reg registers .runnable pageinfo .schedule) :
    (∃ stop, scheduled image (fun i => keyboard (i + 1)) state pid = .error stop ∧
      Ended image keyboard before pid reg stop) ∨
    ∃ after via, scheduled image (fun i => keyboard (i + 1)) state pid =
        .ok (after, via) ∧ Handled before pid reg after via := by
  rcases scheduled_cases (fun i => keyboard (i + 1)) settled inv effect with
    ⟨i, stop, pressed, stopped⟩ | ⟨_, none⟩ | ⟨after, found, handled⟩
  · exact Or.inl ⟨stop, stopped, .key (i + 1) pressed⟩
  · refine absurd ?_ (none pid)
    rw [Runnable, settled.self]
  · exact Or.inr ⟨after, .schedule, found, handled⟩

theorem exceptionSwitch_cases (keyboard : Nat → Int)
    (settled : Settled before pid reg .runnable before.pageinfo state)
    (inv : KernelInv image before) (active : Active before pid) :
    (∃ stop, exceptionSwitch image (fun i => keyboard (i + 1)) state pid reg =
        .error stop ∧ Ended image keyboard before pid reg stop) ∨
    ∃ after via, exceptionSwitch image (fun i => keyboard (i + 1)) state pid reg =
        .ok (after, via) ∧ Handled before pid reg after via := by
  have free : ProcState.runnable ≠ .free := by decide
  have here : KernelInv image state := settled.inv inv active free inv.pageinfo
  unfold exceptionSwitch
  split
  · next intno => exact Or.inl ⟨_, rfl, .panic intno⟩
  · next notPanic =>
    split
    · next intno =>
        have result := settled.setRax (state.processes pid).pPid.val
        obtain ⟨after, returned, handled⟩ := returnOrSchedule_run
          (fun i => keyboard (i + 1)) result (result.inv inv active free inv.pageinfo)
          (by rw [here.pids pid]; exact .getpid intno)
        exact Or.inr ⟨after, .run, returned, handled⟩
    · next notGetpid =>
      split
      · next intno => exact scheduled_runnable keyboard settled here (.yield intno)
      · next notYield =>
        split
        · next intno =>
            obtain ⟨registers, pageinfo, middle, allocated, result, middleInv, effect⟩ :=
              sysPageAlloc_cases settled inv active intno
            obtain ⟨after, returned, handled⟩ :=
              returnOrSchedule_run (fun i => keyboard (i + 1)) result middleInv effect
            rw [allocated, ok_bind]
            exact Or.inr ⟨after, .run, returned, handled⟩
        · next notAlloc =>
          split
          · next intno =>
              have result := settled.ticks (state.ticks + 1#32)
              exact scheduled_runnable keyboard result
                (result.inv inv active free inv.pageinfo) (.timer intno)
          · next notTimer =>
            split
            · next intno =>
                split
                · next kernel => exact Or.inl ⟨_, rfl, .kernelFault intno kernel⟩
                · next user =>
                    have result := settled.breakProcess
                    have broken : ¬ Runnable (breakProcess state pid) pid := by
                      rw [Runnable, result.self]
                      simp
                    rw [returnOrSchedule_eq_scheduled _ broken]
                    rcases scheduled_cases (fun i => keyboard (i + 1)) result
                      (result.inv inv active (by decide) inv.pageinfo)
                      (.pagefault intno user) with
                      ⟨i, stop, pressed, stopped⟩ | ⟨spun, none⟩ | ⟨after, found, handled⟩
                    · exact Or.inl ⟨stop, stopped, .key (i + 1) pressed⟩
                    · refine Or.inl ⟨.spins, spun, .idle intno ?_⟩
                      intro other runnable
                      by_contra different
                      refine none other ?_
                      rw [Runnable, result.processes, Function.update_of_ne different]
                      exact runnable
                    · exact Or.inr ⟨after, .schedule, found, handled⟩
            · next notFault =>
                refine Or.inl ⟨_, rfl, .unexpected ?_⟩
                simp only [List.mem_cons, List.not_mem_nil, or_false, not_or]
                exact ⟨notPanic, notGetpid, notYield, notAlloc, notTimer, notFault⟩

/-- An exception of a runnable process ends the run for a reason or is handled. -/
theorem exception_cases (keyboard : Nat → Int) (inv : KernelInv image before)
    (current : before.current = some pid) (runnable : Runnable before pid)
    (reg : Registers) :
    (∃ stop, exception image keyboard before reg = .error stop ∧
      Ended image keyboard before pid reg stop) ∨
    ∃ after via, exception image keyboard before reg = .ok (after, via) ∧
      Handled before pid reg after via := by
  have active := Runnable.active runnable
  have saved : Settled before pid reg .runnable before.pageinfo
      { before.setRegisters pid reg with cr3 := image.kernelPagetable } := by
    refine ⟨rfl, ?_, rfl⟩
    unfold Runnable at runnable
    simp only [KernelState.setRegisters, KernelState.setProc, runnable.symm]
  have savedInv := saved.inv inv active (by decide) inv.pageinfo
  have tables : KernelTables image (before.setRegisters pid reg).memory := inv.tables
  unfold exception
  simp only [current, setPagetable_ok tables, ok_bind]
  rcases exceptionChecks_cases savedInv reg with
    ⟨off, limited, reached⟩ | ⟨state, checked, displays⟩
  · rw [off]
    exact Or.inl ⟨.poweroff, rfl, .tickLimit limited reached⟩
  · rw [checked, ok_bind]
    obtain ⟨lastTicks, showing, log, rfl⟩ := displays
    rcases checkKeyboard_cases (keyboard 0) with quiet | ⟨stop, stopped, _⟩
    · rw [quiet, ok_bind]
      exact exceptionSwitch_cases keyboard
        ⟨saved.memory, saved.processes, saved.pageinfo⟩ inv active
    · rw [stopped]
      exact Or.inl ⟨stop, rfl, .key 0 stopped⟩

/-- Without key commands and without a tick limit a system call or a timer interrupt
enters user mode again. -/
theorem exception_returns {keyboard : Nat → Int}
    (quiet : ∀ i, checkKeyboard (keyboard i) = .ok ()) (unlimited : image.tickLimit = 0#32)
    (inv : KernelInv image before) (current : before.current = some pid)
    (runnable : Runnable before pid)
    (known : reg.regIntno ∈ [intSysGetpid, intSysYield, intSysPageAlloc, intTimer]) :
    ∃ after via, exception image keyboard before reg = .ok (after, via) ∧
      Handled before pid reg after via := by
  simp only [List.mem_cons, List.not_mem_nil, or_false] at known
  have notPanic : reg.regIntno ≠ intSysPanic := by
    rcases known with is | is | is | is <;> rw [is] <;> decide
  have notFault : reg.regIntno ≠ intPageFault := by
    rcases known with is | is | is | is <;> rw [is] <;> decide
  rcases exception_cases keyboard inv current runnable reg with
    ⟨stop, _, ended⟩ | handled
  · cases ended with
    | tickLimit limited _ => exact absurd unlimited limited
    | key i pressed =>
        rw [quiet i] at pressed
        cases pressed
    | panic intno => exact absurd intno notPanic
    | kernelFault intno _ => exact absurd intno notFault
    | unexpected intno =>
        simp only [List.mem_cons, List.not_mem_nil, or_false, not_or] at intno
        rcases known with is | is | is | is <;> simp [is] at intno
    | idle intno _ => exact absurd intno notFault
  · exact handled

end Handling

end OsLabs.Weensy
