import OsLabs.Weensy.KernelBoot
import OsLabs.Weensy.LogRoundTrip

/-!
# What writes to the log

Only the memdump functions write to the log and only a timer interrupt changes `ticks`.
An exception that returns has dumped the state it was taken in when it was the timer's
and the tick was a multiple of `HZ`; no hypothesis on the state is needed for this.
-/

set_option autoImplicit false

namespace OsLabs.Weensy

open OsLabs.ByteMemory OsLabs.ExceptRules OsLabs.Text

/-! ## Functions that leave the log alone -/

structure SameLog (before after : KernelState) : Prop where
  ticks : after.ticks = before.ticks
  log : after.log = before.log

theorem SameLog.refl (state : KernelState) : SameLog state state := ⟨rfl, rfl⟩

theorem SameLog.trans {first second third : KernelState} (left : SameLog first second)
    (right : SameLog second third) : SameLog first third :=
  ⟨right.ticks.trans left.ticks, right.log.trans left.log⟩

section Frames

variable {image : KernelImage} {before after : KernelState}

theorem assignPhysicalPage_sameLog {addr : UIntPtr} {owner r : Int}
    (run : assignPhysicalPage before addr owner = .ok (r, after)) : SameLog before after := by
  rw [assignPhysicalPage_eq] at run
  split at run
  · cases run
    exact ⟨rfl, rfl⟩
  · cases run
    exact SameLog.refl before

theorem setPagetable_eq {pagetable : UIntPtr}
    (run : setPagetable image before pagetable = .ok after) :
    after = { before with cr3 := pagetable } := by
  unfold setPagetable at run
  obtain ⟨_, _, run⟩ := bind_eq_ok.mp run
  obtain ⟨_, _, run⟩ := bind_eq_ok.mp run
  obtain ⟨_, _, run⟩ := bind_eq_ok.mp run
  obtain ⟨_, _, run⟩ := bind_eq_ok.mp run
  obtain ⟨_, _, run⟩ := bind_eq_ok.mp run
  cases run
  rfl

theorem setPagetable_sameLog {pagetable : UIntPtr}
    (run : setPagetable image before pagetable = .ok after) : SameLog before after := by
  rw [setPagetable_eq run]
  exact ⟨rfl, rfl⟩

theorem run_sameLog {p : Pid} (entered : run image before p = .ok after) :
    SameLog before after := by
  unfold run at entered
  obtain ⟨_, _, entered⟩ := bind_eq_ok.mp entered
  rw [setPagetable_eq entered]
  exact ⟨rfl, rfl⟩

theorem scheduleLoop_sameLog {fuel : Nat} {keyboard : Nat → Int} {pid : Pid}
    (found : scheduleLoop image before fuel keyboard pid = .ok after) :
    SameLog before after := by
  induction fuel generalizing keyboard pid with
  | zero => cases found
  | succ fuel ih =>
      unfold scheduleLoop at found
      simp only at found
      split at found
      · exact run_sameLog found
      · obtain ⟨_, _, found⟩ := bind_eq_ok.mp found
        exact ih found

theorem scheduled_sameLog {keyboard : Nat → Int} {pid : Pid} {via : Via}
    (found : scheduled image keyboard before pid = .ok (after, via)) :
    SameLog before after := by
  unfold scheduled at found
  obtain ⟨middle, loop, found⟩ := bind_eq_ok.mp found
  cases found
  exact scheduleLoop_sameLog loop

theorem returnOrSchedule_sameLog {keyboard : Nat → Int} {pid : Pid} {via : Via}
    (found : returnOrSchedule image keyboard before pid = .ok (after, via)) :
    SameLog before after := by
  unfold returnOrSchedule at found
  split at found
  · obtain ⟨middle, entered, found⟩ := bind_eq_ok.mp found
    cases found
    exact run_sameLog entered
  · exact scheduled_sameLog found

theorem sysPageAlloc_sameLog {pid : Pid} (run : sysPageAlloc before pid = .ok after) :
    SameLog before after := by
  unfold sysPageAlloc at run
  simp only at run
  obtain ⟨⟨r, middle⟩, assigned, run⟩ := bind_eq_ok.mp run
  have same := assignPhysicalPage_sameLog assigned
  simp only at run
  split at run
  · obtain ⟨_, _, run⟩ := bind_eq_ok.mp run
    cases run
    exact same.trans ⟨rfl, rfl⟩
  · cases run
    exact same.trans ⟨rfl, rfl⟩

theorem exceptionSwitch_log {keyboard : Nat → Int} {pid : Pid} {reg : Registers} {via : Via}
    (returned : exceptionSwitch image keyboard before pid reg = .ok (after, via)) :
    after.log = before.log ∧
      after.ticks = if reg.regIntno = intTimer then before.ticks + 1#32 else before.ticks := by
  unfold exceptionSwitch at returned
  have others : ∀ {middle : KernelState}, SameLog before middle → SameLog middle after →
      reg.regIntno ≠ intTimer → after.log = before.log ∧
      after.ticks = if reg.regIntno = intTimer then before.ticks + 1#32
        else before.ticks := by
    intro middle left right other
    have same := left.trans right
    rw [if_neg other]
    exact ⟨same.log, same.ticks⟩
  split at returned
  · cases returned
  · split at returned
    · next intno =>
        have result : SameLog before
            (before.setRax pid (before.processes pid).pPid.val) := ⟨rfl, rfl⟩
        exact others result (returnOrSchedule_sameLog returned) (by rw [intno]; decide)
    · split at returned
      · next intno =>
          exact others (SameLog.refl before) (scheduled_sameLog returned)
            (by rw [intno]; decide)
      · split at returned
        · next intno =>
            obtain ⟨middle, allocated, returned⟩ := bind_eq_ok.mp returned
            exact others (sysPageAlloc_sameLog allocated)
              (returnOrSchedule_sameLog returned) (by rw [intno]; decide)
        · split at returned
          · next intno =>
              have same := scheduled_sameLog returned
              rw [if_pos intno]
              exact ⟨same.log, same.ticks⟩
          · next timer =>
              split at returned
              · split at returned
                · cases returned
                · have broken : SameLog before (breakProcess before pid) := ⟨rfl, rfl⟩
                  exact others broken (returnOrSchedule_sameLog returned) timer
              · cases returned

end Frames

/-! ## Booting -/

section Boot

variable {image : KernelImage} {before after : KernelState}

theorem loadPages_sameLog {pid : Pid} {pagetable endMem addr : UIntPtr} {fuel : Nat} {r : Int}
    (run : loadPages pid pagetable endMem fuel addr before = .ok (r, after)) :
    SameLog before after := by
  induction fuel generalizing addr before with
  | zero => cases run
  | succ fuel ih =>
      unfold loadPages at run
      split at run
      · obtain ⟨⟨code, assigned⟩, assign, run⟩ := bind_eq_ok.mp run
        have same := assignPhysicalPage_sameLog assign
        simp only at run
        split at run
        · cases run
          exact same
        · obtain ⟨⟨code, walk⟩, _, run⟩ := bind_eq_ok.mp run
          simp only at run
          split at run
          · cases run
            exact same.trans ⟨rfl, rfl⟩
          · have mapped : SameLog assigned { assigned with memory := walk.memory } :=
              ⟨rfl, rfl⟩
            exact (same.trans mapped).trans (ih run)
      · cases run
        exact SameLog.refl _

theorem programLoadSegment_sameLog {pid : Pid} {ph : ElfProgram} {source : Nat → UInt8}
    {r : Int} (run : programLoadSegment image before pid ph source = .ok (r, after)) :
    SameLog before after := by
  unfold programLoadSegment at run
  simp only at run
  obtain ⟨⟨code, loaded⟩, pages, run⟩ := bind_eq_ok.mp run
  have same := loadPages_sameLog pages
  simp only at run
  split at run
  · cases run
    exact same
  · obtain ⟨switched, toProcess, run⟩ := bind_eq_ok.mp run
    have entered := setPagetable_sameLog toProcess
    obtain ⟨_, _, run⟩ := bind_eq_ok.mp run
    obtain ⟨_, _, run⟩ := bind_eq_ok.mp run
    obtain ⟨last, toKernel, run⟩ := bind_eq_ok.mp run
    have left := setPagetable_sameLog toKernel
    cases run
    exact (same.trans entered).trans ⟨left.ticks, left.log⟩

theorem loadSegments_sameLog {pid : Pid} {ramimage : Memory} {segments : List ElfProgram}
    {r : Int} (run : loadSegments image pid ramimage segments before = .ok (r, after)) :
    SameLog before after := by
  induction segments generalizing before with
  | nil =>
      cases run
      exact SameLog.refl _
  | cons ph rest ih =>
      unfold loadSegments at run
      split at run
      · obtain ⟨⟨code, loaded⟩, segment, run⟩ := bind_eq_ok.mp run
        have same := programLoadSegment_sameLog segment
        simp only at run
        split at run
        · cases run
          exact same
        · exact same.trans (ih run)
      · exact ih run

theorem programLoad_sameLog {pid : Pid} {programnumber r : Int}
    (run : programLoad image before pid programnumber = .ok (r, after)) :
    SameLog before after := by
  unfold programLoad at run
  split at run
  · simp only at run
    obtain ⟨_, _, run⟩ := bind_eq_ok.mp run
    obtain ⟨⟨code, loaded⟩, segments, run⟩ := bind_eq_ok.mp run
    have same := loadSegments_sameLog segments
    simp only at run
    split at run
    · cases run
      exact same
    · cases run
      exact same.trans ⟨rfl, rfl⟩
  · cases run

theorem processSetup_sameLog {pid : Pid} {programNumber : Int}
    (run : processSetup image before pid programNumber = .ok after) :
    SameLog before after := by
  unfold processSetup beginSetup addReference finishSetup at run
  obtain ⟨begun, beginning, run⟩ := bind_eq_ok.mp run
  obtain ⟨_, _, beginning⟩ := bind_eq_ok.mp beginning
  cases beginning
  obtain ⟨⟨code, loaded⟩, load, run⟩ := bind_eq_ok.mp run
  have first := programLoad_sameLog load
  obtain ⟨_, _, run⟩ := bind_eq_ok.mp run
  simp only at run
  obtain ⟨⟨assignCode, assigned⟩, assign, run⟩ := bind_eq_ok.mp run
  have second := assignPhysicalPage_sameLog assign
  obtain ⟨_, _, run⟩ := bind_eq_ok.mp run
  cases run
  exact ⟨second.ticks.trans first.ticks, second.log.trans first.log⟩

theorem setupAll_sameLog {programs : List (Pid × Fin 6)}
    (run : setupAll image programs before = .ok after) : SameLog before after := by
  induction programs generalizing before with
  | nil =>
      cases run
      exact SameLog.refl _
  | cons entry rest ih =>
      unfold setupAll at run
      obtain ⟨middle, setup, run⟩ := bind_eq_ok.mp run
      exact (processSetup_sameLog setup).trans (ih run)

theorem kernel_sameLog {command : Option String}
    (boot : kernel image before command = .ok after) : SameLog before after := by
  unfold kernel virtualMemoryInit at boot
  obtain ⟨mapped, init, boot⟩ := bind_eq_ok.mp boot
  obtain ⟨_, _, init⟩ := bind_eq_ok.mp init
  cases init
  obtain ⟨ready, setup, entered⟩ := bind_eq_ok.mp boot
  have programs := setupAll_sameLog setup
  have entry := run_sameLog entered
  exact ⟨entry.ticks.trans programs.ticks, entry.log.trans programs.log⟩

end Boot

/-! ## The dump of a state -/

/-- What `memdump_physical` writes for a page. -/
def physicalNumbers (state : KernelState) (pn : PhysicalPage) : BitVec 8 × BitVec 32 :=
  (BitVec.ofInt 8 (state.pageinfo pn).owner, BitVec.ofInt 32 (state.pageinfo pn).refcount)

def physicalSpace (state : KernelState) : List (BitVec 8 × BitVec 32) :=
  (List.finRange nPages).map (physicalNumbers state)

/-- What `memdump_virtual` writes for the page at `va`. -/
def virtualNumbers (state : KernelState) (pagetable va : UIntPtr) :
    BitVec 8 × BitVec 8 × BitVec 32 :=
  let vam := virtualMemoryLookup state.memory pagetable va
  if vam.pn < 0 then (0#8, 0#8, 0#32)
  else
    match pageinfoIndex vam.pn with
    | .ok page => (BitVec.ofInt 8 (state.pageinfo page).owner,
        BitVec.ofInt 8 (state.pageinfo page).refcount, vam.perm)
    | .error _ => (0#8, 0#8, 0#32)

def virtualSpace (state : KernelState) (pid : Pid) :
    List (BitVec 8 × BitVec 8 × BitVec 32) :=
  (pagesBelow 0 memsizeVirtual.toNat).map
    (virtualNumbers state (state.processes pid).pPagetable)

def activePids (state : KernelState) : List Pid :=
  (List.finRange nproc).filter fun pid => (state.processes pid).pState ≠ .free

/-- What `memdump_physical` and `memdump_virtual_all` write in a state. -/
def stateDump (state : KernelState) : Dump where
  ticks := state.ticks
  pages := physicalSpace state
  spaces := (activePids state).map fun pid => (pid, virtualSpace state pid)
  pages_count := by rw [physicalSpace, List.length_map, List.length_finRange]
  spaces_count := by
    intro space member
    obtain ⟨pid, _, rfl⟩ := List.mem_map.mp member
    rw [virtualSpace, List.length_map, pagesBelow, List.length_map, List.length_range]
    rfl
  once := by
    have pids : (fun pid => (pid, virtualSpace state pid).1) = fun pid : Pid => pid := rfl
    rw [List.map_map, Function.comp_def, pids, List.map_id']
    exact (List.nodup_finRange nproc).filter _

theorem stateDump_pages (state : KernelState) :
    (stateDump state).pages = physicalSpace state := by
  rw [stateDump]

theorem stateDump_spaces (state : KernelState) : (stateDump state).spaces =
    (activePids state).map fun pid => (pid, virtualSpace state pid) := by
  rw [stateDump]

theorem stateDump_congr {state other : KernelState} (ticks : other.ticks = state.ticks)
    (memory : other.memory = state.memory) (pageinfo : other.pageinfo = state.pageinfo)
    (states : ∀ pid, (other.processes pid).pState = (state.processes pid).pState)
    (pagetables : ∀ pid,
      (other.processes pid).pPagetable = (state.processes pid).pPagetable) :
    stateDump other = stateDump state := by
  have numbers : ∀ pagetable va,
      virtualNumbers other pagetable va = virtualNumbers state pagetable va := by
    intro pagetable va
    rw [virtualNumbers, virtualNumbers, memory, pageinfo]
  have spaces : ∀ pid, virtualSpace other pid = virtualSpace state pid := by
    intro pid
    rw [virtualSpace, virtualSpace, pagetables pid]
    exact List.map_congr_left fun va _ => numbers _ va
  have pages : physicalSpace other = physicalSpace state := by
    rw [physicalSpace, physicalSpace]
    exact List.map_congr_left fun pn _ => by rw [physicalNumbers, physicalNumbers, pageinfo]
  have pids : activePids other = activePids state := by
    rw [activePids, activePids]
    exact List.filter_congr fun pid _ => by rw [states pid]
  simp only [stateDump, ticks, pages, pids, spaces]

section Memdump

variable {image : KernelImage} {state after : KernelState}

theorem memdumpVirtual_log {pagetable : UIntPtr} {pid : Pid}
    (dumped : memdumpVirtual state pagetable pid = .ok after) :
    after = { state with log := state.log ++ [.vmDump pid state.ticks
      ((pagesBelow 0 memsizeVirtual.toNat).map (virtualNumbers state pagetable))] } := by
  unfold memdumpVirtual at dumped
  obtain ⟨_, _, dumped⟩ := bind_eq_ok.mp dumped
  obtain ⟨entries, loop, dumped⟩ := bind_eq_ok.mp dumped
  cases dumped
  have known := @mapM_ok_map _ _ _ _ _ (virtualNumbers state pagetable) _ loop (by
    intro va _ found computed
    unfold virtualNumbers
    simp only at computed ⊢
    split at computed
    · next unmapped =>
        cases computed
        rw [if_pos unmapped]
    · next mapped =>
        obtain ⟨page, here, computed⟩ := bind_eq_ok.mp computed
        cases computed
        rw [if_neg mapped, here])
  rw [known]

theorem memdumpVirtualAll_log {pids : List Pid}
    (dumped : memdumpVirtualAll pids state = .ok after) :
    after = { state with log := state.log ++
      (pids.filter fun pid => (state.processes pid).pState ≠ .free).map (fun pid =>
        .vmDump pid state.ticks (virtualSpace state pid)) } := by
  induction pids generalizing state with
  | nil =>
      cases dumped
      simp
  | cons pid rest ih =>
      unfold memdumpVirtualAll at dumped
      split at dumped
      · next active =>
          obtain ⟨middle, one, dumped⟩ := bind_eq_ok.mp dumped
          have first := memdumpVirtual_log one
          rw [ih dumped, List.filter_cons_of_pos (by simpa using active), List.map_cons]
          subst first
          simp only [List.append_assoc, List.singleton_append]
          rfl
      · next free =>
          rw [ih dumped, List.filter_cons_of_neg (by simpa using free)]

theorem memdump_log
    (dumped : memdumpVirtualAll (List.finRange nproc) (memdumpPhysical state) = .ok after) :
    after = { state with log := state.log ++ (stateDump state).lines } := by
  have spaces : ∀ pid, virtualSpace (memdumpPhysical state) pid = virtualSpace state pid :=
    fun _ => rfl
  have lines : (stateDump state).lines = .pmDump state.ticks (physicalSpace state) ::
      (activePids state).map fun pid =>
        .vmDump pid state.ticks (virtualSpace state pid) := by
    rw [Dump.lines, stateDump, List.map_map, Function.comp_def]
  have physical : (memdumpPhysical state).log =
      state.log ++ [.pmDump state.ticks (physicalSpace state)] := by
    rw [memdumpPhysical, physicalSpace]
    rfl
  have written := memdumpVirtualAll_log dumped
  simp only [spaces, physical, List.append_assoc, List.singleton_append] at written
  rw [written, lines]
  rfl

end Memdump

/-! ## exception -/

/-- The condition under which `exception` dumps, before `TICK_LIMIT`. -/
def Dumps (state : KernelState) (reg : Registers) : Prop :=
  reg.regIntno = intTimer ∧ state.ticks % hz = 0#32

instance (state : KernelState) (reg : Registers) : Decidable (Dumps state reg) :=
  inferInstanceAs (Decidable (_ ∧ _))

/-- The dump that an exception with the registers `reg` makes, if any. -/
def dumpOf (state : KernelState) (reg : Registers) : List Dump :=
  if Dumps state reg then [stateDump state] else []

section Exception

variable {image : KernelImage} {state after : KernelState} {reg : Registers}

theorem tickLimitDump_log (limited : image.tickLimit ≠ 0#32)
    (passed : tickLimitDump image state reg = .ok after) :
    state.ticks ≠ image.tickLimit ∧ after =
      { state with log := state.log ++ (dumpOf state reg).flatMap Dump.lines } := by
  unfold tickLimitDump at passed
  rw [if_neg limited] at passed
  split at passed
  · cases passed
  · next below =>
      refine ⟨below, ?_⟩
      split at passed
      · next dumps =>
          have here : Dumps state reg := dumps
          rw [dumpOf, if_pos here, List.flatMap_singleton]
          exact memdump_log passed
      · next quiet =>
          have here : ¬ Dumps state reg := quiet
          cases passed
          rw [dumpOf, if_neg here, List.flatMap_nil, List.append_nil]

theorem memshowVirtualAnimate_eq (shown : memshowVirtualAnimate state = .ok after) :
    ∃ lastTicks showing,
      after = { state with lastTicks := lastTicks, showing := showing } := by
  unfold memshowVirtualAnimate at shown
  simp only at shown
  refine ⟨(nextShowing state).1, (nextShowing state).2, ?_⟩
  split at shown
  · obtain ⟨_, _, shown⟩ := bind_eq_ok.mp shown
    cases shown
    rfl
  · cases shown
    rfl

def FromUser (reg : Registers) : Prop :=
  reg.regIntno ≠ intPageFault ∨ reg.regErr &&& pferrUser ≠ 0#64

/-- What the checks of `exception` write; a fault of the kernel passes them by. -/
theorem exceptionChecks_log (limited : image.tickLimit ≠ 0#32)
    (checked : exceptionChecks image state reg = .ok after) :
    (FromUser reg → state.ticks ≠ image.tickLimit) ∧ after.ticks = state.ticks ∧
      after.log = state.log ++ (dumpOf state reg).flatMap Dump.lines := by
  unfold exceptionChecks at checked
  split at checked
  · obtain ⟨_, _, checked⟩ := bind_eq_ok.mp checked
    obtain ⟨_, _, checked⟩ := bind_eq_ok.mp checked
    obtain ⟨shown, animated, checked⟩ := bind_eq_ok.mp checked
    obtain ⟨lastTicks, showing, rfl⟩ := memshowVirtualAnimate_eq animated
    obtain ⟨below, rfl⟩ := tickLimitDump_log limited checked
    exact ⟨fun _ => below, rfl, rfl⟩
  · next fault =>
      cases checked
      refine ⟨fun user => absurd user fault, rfl, ?_⟩
      have untimely : ¬ Dumps state reg := by
        intro dumps
        have pagefault : reg.regIntno = intPageFault := by
          by_contra other
          exact fault (Or.inl other)
        rw [dumps.1] at pagefault
        exact absurd pagefault (by decide)
      rw [dumpOf, if_neg untimely, List.flatMap_nil, List.append_nil]

/-- The registers saved and the page table changed before the checks do not show in a
dump. -/
theorem dumpOf_saved (pid : Pid) (pagetable : UIntPtr) :
    dumpOf { state.setRegisters pid reg with cr3 := pagetable } reg = dumpOf state reg := by
  have same : stateDump { state.setRegisters pid reg with cr3 := pagetable } =
      stateDump state := by
    refine stateDump_congr rfl rfl rfl ?_ ?_
    all_goals
      intro other
      simp only [KernelState.setRegisters, KernelState.setProc]
      by_cases here : other = pid
      · subst here
        rw [Function.update_self]
      · rw [Function.update_of_ne here]
  unfold dumpOf
  rw [same]
  rfl

/-- Everything that an exception which enters user mode again does to `ticks` and to the
log. -/
theorem exception_log {keyboard : Nat → Int} {via : Via}
    (limited : image.tickLimit ≠ 0#32)
    (returned : exception image keyboard state reg = .ok (after, via)) :
    state.ticks ≠ image.tickLimit ∧
      after.log = state.log ++ (dumpOf state reg).flatMap Dump.lines ∧
      after.ticks = if reg.regIntno = intTimer then state.ticks + 1#32 else state.ticks := by
  unfold exception at returned
  split at returned
  · cases returned
  · next pid _ =>
      obtain ⟨saved, set, returned⟩ := bind_eq_ok.mp returned
      obtain ⟨checked, checks, returned⟩ := bind_eq_ok.mp returned
      obtain ⟨_, _, switched⟩ := bind_eq_ok.mp returned
      have savedEq := setPagetable_eq set
      obtain ⟨below, ticks, log⟩ := exceptionChecks_log limited checks
      obtain ⟨kept, counted⟩ := exceptionSwitch_log switched
      rw [savedEq] at ticks log
      rw [dumpOf_saved] at log
      refine ⟨?_, kept.trans log, ?_⟩
      · -- the `switch` panics on a fault of the kernel
        have user : FromUser reg := by
          by_contra fault
          have pagefault : reg.regIntno = intPageFault := by
            by_contra other
            exact fault (Or.inl other)
          have kernel : reg.regErr &&& pferrUser = 0#64 := by
            by_contra other
            exact fault (Or.inr other)
          unfold exceptionSwitch at switched
          rw [pagefault, kernel] at switched
          simp [intPageFault, intSysPanic, intSysGetpid, intSysYield, intSysPageAlloc,
            intTimer] at switched
        have limit := below user
        rw [savedEq] at limit
        exact limit
      · rw [counted, ticks]
        rfl

end Exception

end OsLabs.Weensy
