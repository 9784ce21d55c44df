import OsLabs.Weensy.Dumps
import OsLabs.Weensy.MemoryPicture

/-!
# What the console shows along a run

Every exception that enters user mode again has drawn the physical memory and the page table
of one active process.  The process changes at the latest 50 ticks after the last change, and
to the next active one, so each of them has its turn.
-/

set_option autoImplicit false

namespace OsLabs.Weensy

open OsLabs.ExceptRules OsLabs.RoundRobin OsLabs.Transition

/-! ## The process to show -/

/-- The condition under which `memshow_virtual_animate` goes on to another process. -/
def Switches (state : KernelState) : Prop :=
  state.lastTicks = 0#32 ∨ hz / 2#32 ≤ state.ticks - state.lastTicks

instance (state : KernelState) : Decidable (Switches state) :=
  inferInstanceAs (Decidable (_ ∨ _))

section Showing

variable {state : KernelState} {pid : Pid}

theorem steps_ofNat_succ (s : Nat) : steps (Fin.ofNat nproc s) (Fin.ofNat nproc (s + 1)) = 1 := by
  have next : Fin.ofNat nproc (s + 1) = Fin.ofNat nproc s + 1 := by
    apply Fin.ext
    rw [Fin.val_add, Fin.val_ofNat, Fin.val_ofNat]
    exact (Nat.mod_add_mod s nproc 1).symm
  rw [next]
  exact steps_next _

theorem skipFree_next {fuel s target : Nat} (lower : s ≤ target) (upper : target ≤ 2 * nproc)
    (active : Active state (Fin.ofNat nproc target)) (enough : target - s < fuel) {here : Pid}
    (adjacent : steps here (Fin.ofNat nproc s) = 1) :
    Next (Active state) here (Fin.ofNat nproc (skipFree state fuel s)) := by
  induction fuel generalizing s here with
  | zero => exact absurd enough (Nat.not_lt_zero _)
  | succ fuel ih =>
      unfold skipFree
      by_cases idle : (state.processes (Fin.ofNat nproc s)).pState = .free
      · have later : s ≠ target := by
          rintro rfl
          exact active idle
        rw [if_pos ⟨by omega, idle⟩]
        exact (ih (by omega) (by omega) (steps_ofNat_succ s)).skip adjacent (not_not.mpr idle)
      · rw [if_neg fun both => idle both.2]
        exact Next.adjacent adjacent idle

theorem active_within (active : Active state pid) {s : Nat} (start : s ≤ nproc + 1) :
    ∃ target, s ≤ target ∧ target < s + nproc ∧ target ≤ 2 * nproc ∧
      Active state (Fin.ofNat nproc target) := by
  have bound : pid.val < 16 := pid.isLt
  have same : ∀ k, Fin.ofNat nproc (pid.val + 16 * k) = pid := by
    intro k
    apply Fin.ext
    show (pid.val + 16 * k) % 16 = pid.val
    omega
  have found : ∃ k, s ≤ pid.val + 16 * k ∧ pid.val + 16 * k < s + nproc := by
    have size : nproc = 16 := rfl
    rcases Nat.lt_or_ge pid.val s with before | behind
    · rcases Nat.lt_or_ge (pid.val + 16) s with far | near
      · exact ⟨2, by omega, by omega⟩
      · exact ⟨1, by omega, by omega⟩
    · exact ⟨0, by omega, by omega⟩
  obtain ⟨k, lower, upper⟩ := found
  refine ⟨pid.val + 16 * k, lower, upper, ?_, ?_⟩
  · have size : nproc = 16 := rfl
    omega
  · rw [same k]
    exact active

theorem nextShowing_cases (active : Active state pid) :
    (nextShowing state).1 = (if Switches state then state.ticks else state.lastTicks) ∧
    (¬ Switches state ∧ Active state state.showing ∧ (nextShowing state).2 = state.showing ∨
      Next (Active state) state.showing (nextShowing state).2) := by
  have size : nproc = 16 := rfl
  have bound : state.showing.val < 16 := state.showing.isLt
  have here : Fin.ofNat nproc state.showing.val = state.showing :=
    Fin.ext (Nat.mod_eq_of_lt state.showing.isLt)
  have adjacent : steps state.showing (Fin.ofNat nproc (state.showing.val + 1)) = 1 := by
    have := steps_ofNat_succ state.showing.val
    rwa [here] at this
  obtain ⟨target, lower, near, upper, found⟩ :=
    active_within active (by omega : state.showing.val + 1 ≤ nproc + 1)
  by_cases switch : Switches state
  · have chosen : decide (state.lastTicks = 0#32 ∨ hz / 2#32 ≤ state.ticks - state.lastTicks) =
        true := decide_eq_true switch
    simp only [nextShowing, chosen, if_true, if_pos switch, true_and]
    exact Or.inr (skipFree_next lower upper found (by omega) adjacent)
  · have chosen : decide (state.lastTicks = 0#32 ∨ hz / 2#32 ≤ state.ticks - state.lastTicks) =
        false := decide_eq_false switch
    simp only [nextShowing, chosen, if_neg switch, Bool.false_eq_true, if_false, true_and]
    by_cases shown : Active state state.showing
    · left
      refine ⟨switch, shown, ?_⟩
      have stays : skipFree state (2 * nproc + 1) state.showing.val = state.showing.val := by
        unfold skipFree
        rw [here, if_neg fun both => shown both.2]
      rw [stays, here]
    · right
      have passes : skipFree state (2 * nproc + 1) state.showing.val =
          skipFree state (2 * nproc) (state.showing.val + 1) := by
        conv => lhs; unfold skipFree
        rw [here, if_pos ⟨by omega, not_not.mp shown⟩]
        rfl
      rw [passes]
      exact skipFree_next lower upper found (by omega) adjacent

theorem nextShowing_active (active : Active state pid) :
    Active state (nextShowing state).2 := by
  rcases (nextShowing_cases active).2 with ⟨_, shown, same⟩ | next
  · rw [same]
    exact shown
  · exact next.picked

end Showing

/-! ## Functions that leave the display alone -/

structure SameDisplay (before after : KernelState) : Prop where
  lastTicks : after.lastTicks = before.lastTicks
  showing : after.showing = before.showing

theorem SameDisplay.trans {first second third : KernelState} (left : SameDisplay first second)
    (right : SameDisplay second third) : SameDisplay first third :=
  ⟨right.lastTicks.trans left.lastTicks, right.showing.trans left.showing⟩

section Frames

variable {image : KernelImage} {before after : KernelState} {keyboard : Nat → Int} {pid : Pid}
  {via : Via} {reg : Registers}

theorem run_sameDisplay (entered : run image before pid = .ok after) :
    SameDisplay before after := by
  unfold run at entered
  obtain ⟨_, _, entered⟩ := bind_eq_ok.mp entered
  rw [setPagetable_eq entered]
  exact ⟨rfl, rfl⟩

theorem scheduleLoop_sameDisplay {fuel : Nat}
    (found : scheduleLoop image before fuel keyboard pid = .ok after) :
    SameDisplay before after := by
  induction fuel generalizing keyboard pid with
  | zero => cases found
  | succ fuel ih =>
      unfold scheduleLoop at found
      simp only at found
      split at found
      · exact run_sameDisplay found
      · obtain ⟨_, _, found⟩ := bind_eq_ok.mp found
        exact ih found

theorem scheduled_sameDisplay
    (found : scheduled image keyboard before pid = .ok (after, via)) :
    SameDisplay before after := by
  unfold scheduled at found
  obtain ⟨middle, loop, found⟩ := bind_eq_ok.mp found
  cases found
  exact scheduleLoop_sameDisplay loop

theorem returnOrSchedule_sameDisplay
    (found : returnOrSchedule image keyboard before pid = .ok (after, via)) :
    SameDisplay before after := by
  unfold returnOrSchedule at found
  split at found
  · obtain ⟨middle, entered, found⟩ := bind_eq_ok.mp found
    cases found
    exact run_sameDisplay entered
  · exact scheduled_sameDisplay found

theorem assignPhysicalPage_sameDisplay {addr : UIntPtr} {owner r : Int}
    (assigned : assignPhysicalPage before addr owner = .ok (r, after)) :
    SameDisplay before after := by
  rw [assignPhysicalPage_eq] at assigned
  split at assigned
  · cases assigned
    exact ⟨rfl, rfl⟩
  · cases assigned
    exact ⟨rfl, rfl⟩

theorem sysPageAlloc_sameDisplay (called : sysPageAlloc before pid = .ok after) :
    SameDisplay before after := by
  unfold sysPageAlloc at called
  simp only at called
  obtain ⟨⟨r, middle⟩, assigned, called⟩ := bind_eq_ok.mp called
  have same := assignPhysicalPage_sameDisplay assigned
  simp only at called
  split at called
  · obtain ⟨_, _, called⟩ := bind_eq_ok.mp called
    cases called
    exact same.trans ⟨rfl, rfl⟩
  · cases called
    exact same.trans ⟨rfl, rfl⟩

theorem exceptionSwitch_sameDisplay
    (returned : exceptionSwitch image keyboard before pid reg = .ok (after, via)) :
    SameDisplay before after := by
  have result : SameDisplay before (before.setRax pid (before.processes pid).pPid.val) := ⟨rfl, rfl⟩
  have counted : SameDisplay before { before with ticks := before.ticks + 1#32 } := ⟨rfl, rfl⟩
  have broken : SameDisplay before (breakProcess before pid) := ⟨rfl, rfl⟩
  unfold exceptionSwitch at returned
  split at returned
  · cases returned
  · split at returned
    · exact result.trans (returnOrSchedule_sameDisplay returned)
    · split at returned
      · exact scheduled_sameDisplay returned
      · split at returned
        · obtain ⟨middle, allocated, returned⟩ := bind_eq_ok.mp returned
          exact (sysPageAlloc_sameDisplay allocated).trans (returnOrSchedule_sameDisplay returned)
        · split at returned
          · exact counted.trans (scheduled_sameDisplay returned)
          · split at returned
            · split at returned
              · cases returned
              · exact broken.trans (returnOrSchedule_sameDisplay returned)
            · cases returned

theorem exceptionSwitch_fromUser
    (returned : exceptionSwitch image keyboard before pid reg = .ok (after, via)) :
    FromUser reg := by
  by_contra fault
  have pagefault : reg.regIntno = intPageFault := by
    by_contra other
    exact fault (Or.inl other)
  have kernel : reg.regErr &&& pferrUser = 0#64 := by
    by_contra other
    exact fault (Or.inr other)
  unfold exceptionSwitch at returned
  rw [pagefault, kernel] at returned
  simp [intPageFault, intSysPanic, intSysGetpid, intSysYield, intSysPageAlloc,
    intTimer] at returned

end Frames

/-! ## One exception -/

/-- The state in which an exception of process `pid` checks and draws. -/
def entered (image : KernelImage) (state : KernelState) (pid : Pid) (reg : Registers) :
    KernelState :=
  { state.setRegisters pid reg with cr3 := image.kernelPagetable }

section Exception

variable {image : KernelImage} {before after : KernelState}

theorem entered_state (state : KernelState) (pid other : Pid) (reg : Registers) :
    ((entered image state pid reg).processes other).pState = (state.processes other).pState := by
  by_cases same : other = pid
  · subst same
    simp [entered, KernelState.setRegisters, KernelState.setProc]
  · simp [entered, KernelState.setRegisters, KernelState.setProc, Function.update_of_ne same]

theorem entered_pagetable (state : KernelState) (pid other : Pid) (reg : Registers) :
    ((entered image state pid reg).processes other).pPagetable =
      (state.processes other).pPagetable := by
  by_cases same : other = pid
  · subst same
    simp [entered, KernelState.setRegisters, KernelState.setProc]
  · simp [entered, KernelState.setRegisters, KernelState.setProc, Function.update_of_ne same]

theorem nextShowing_entered (state : KernelState) (pid : Pid) (reg : Registers) :
    nextShowing (entered image state pid reg) = nextShowing state := by
  have skips : ∀ fuel s, skipFree (entered image state pid reg) fuel s = skipFree state fuel s := by
    intro fuel
    induction fuel with
    | zero => exact fun _ => rfl
    | succ fuel ih =>
        intro s
        simp only [skipFree, entered_state, ih]
  simp only [nextShowing, skips]
  rfl

theorem memshowVirtualAnimate_shows {state : KernelState}
    (animated : memshowVirtualAnimate state = .ok after) :
    after = { state with lastTicks := (nextShowing state).1, showing := (nextShowing state).2 } := by
  unfold memshowVirtualAnimate at animated
  simp only at animated
  split at animated
  · obtain ⟨_, _, animated⟩ := bind_eq_ok.mp animated
    cases animated
    rfl
  · cases animated
    rfl

/-- What a handled exception has done to the display and the clock. -/
structure Displayed (before : KernelState) (reg : Registers) (after : KernelState) : Prop where
  showing : after.showing = (nextShowing before).2
  lastTicks : after.lastTicks = (nextShowing before).1
  ticks : after.ticks = if reg.regIntno = intTimer then before.ticks + 1#32 else before.ticks

theorem Step.displayed {trap : Trap} (step : Step image before (.trap trap) after) :
    Displayed before trap.reg after := by
  cases step with
  | @trap _ keyboard reg via pid next current taken _ =>
      unfold exception at taken
      simp only [current] at taken
      obtain ⟨saved, set, taken⟩ := bind_eq_ok.mp taken
      obtain ⟨checked, checks, taken⟩ := bind_eq_ok.mp taken
      obtain ⟨_, _, switched⟩ := bind_eq_ok.mp taken
      have here : saved = entered image before pid reg := setPagetable_eq set
      subst here
      have user : reg.regIntno ≠ intPageFault ∨ reg.regErr &&& pferrUser ≠ 0#64 :=
        exceptionSwitch_fromUser switched
      unfold exceptionChecks at checks
      rw [if_pos user] at checks
      obtain ⟨_, _, checks⟩ := bind_eq_ok.mp checks
      obtain ⟨_, _, checks⟩ := bind_eq_ok.mp checks
      obtain ⟨shown, animated, checks⟩ := bind_eq_ok.mp checks
      have limit : ∃ log, checked = { shown with log := log } := by
        unfold tickLimitDump at checks
        split at checks
        · cases checks
          exact ⟨_, rfl⟩
        · split at checks
          · cases checks
          · split at checks
            · exact ⟨_, memdump_log checks⟩
            · cases checks
              exact ⟨_, rfl⟩
      obtain ⟨log, rfl⟩ := limit
      have display := memshowVirtualAnimate_shows animated
      have same := exceptionSwitch_sameDisplay switched
      have counted := (exceptionSwitch_log switched).2
      rw [nextShowing_entered] at display
      subst display
      exact ⟨same.showing, same.lastTicks, counted⟩

theorem KernelInv.entered {state : KernelState} (inv : KernelInv image state) (pid : Pid)
    (reg : Registers) : KernelInv image (entered image state pid reg) := by
  refine inv.congr inv.tables inv.pageinfo ?_ ?_ ?_
  · intro other
    by_cases same : other = pid
    · subst same
      simp [Weensy.entered, KernelState.setRegisters, KernelState.setProc]
    · simp [Weensy.entered, KernelState.setRegisters, KernelState.setProc,
        Function.update_of_ne same]
  · intro other
    rw [entered_state]
  · intro other _
    exact entered_pagetable state pid other reg

theorem KernelInv.draws {state : KernelState} {pid : Pid} (inv : KernelInv image state)
    (active : Active state pid) (cells : Cells) :
    ∃ screen, drawMemory state cells =
        .ok ({ state with lastTicks := (nextShowing state).1, showing := (nextShowing state).2 },
          screen) ∧
      Picture (cpos 0 32) physicalTitle 1 512 (physicalShown state) screen ∧
      Picture (cpos 10 26) (virtualTitle (processName (nextShowing state).2)) 11 768
        (virtualShown state image.kernelPagetable) screen ∧
      ∀ x, Beside (cpos 0 32) physicalTitle.length 1 512 x →
        Beside (cpos 10 26) (virtualTitle (processName (nextShowing state).2)).length 11 768 x →
        screen x = cells x := by
  have drawable := fun pn => inv.pageinfo.drawable pn
  have shown := nextShowing_active active
  obtain ⟨middle, drawn, physical, rest⟩ := drawPhysical_draws drawable cells
  obtain ⟨screen, mapped, picture, kept⟩ := @drawVirtual_draws image
    { state with lastTicks := (nextShowing state).1, showing := (nextShowing state).2 }
    inv.tables drawable (nextShowing state).2 middle
  refine ⟨screen, ?_, ?_, picture, ?_⟩
  · rw [drawMemory, drawn, ok_bind, drawVirtualAnimate]
    have live : (state.processes (nextShowing state).2).pState ≠ .free := shown
    simp only
    rw [if_pos live, inv.shared _ shown, snprintf_processName, mapped, ok_bind]
  · -- the rows of the physical picture end above the title of the virtual one
    apply physical.congr (by decide)
    intro x above
    have row : cpos (1 + (512 + 63) / 64) 0 = 720 := rfl
    have title : cpos 10 26 = 826 := rfl
    apply kept
    refine ⟨by omega, ?_⟩
    intro row _
    simp only [cpos]
    omega
  · intro x untouched beside
    rw [kept x beside, rest x untouched]

end Exception

/-! ## The pictures of a run -/

/-- Whatever was on the console, every exception of a run shows the owner of every physical
page and what the page table of an active process maps, and nothing else is drawn. -/
theorem memory_shown {image : KernelImage} {prior start state after : KernelState}
    {command : Option String} {trace : List Event} {trap : Trap}
    (boot : kernel image prior command = .ok start)
    (run : Run (Step image) start trace state)
    (step : Step image state (.trap trap) after) (cells : Cells) :
    ∃ shown screen,
      drawMemory (entered image state trap.pid trap.reg) cells = .ok (shown, screen) ∧
      memshowVirtualAnimate (entered image state trap.pid trap.reg) = .ok shown ∧
      shown.showing = after.showing ∧ Active state after.showing ∧
      Picture (cpos 0 32) physicalTitle 1 512 (physicalShown state) screen ∧
      Picture (cpos 10 26) (virtualTitle (processName after.showing)) 11 768
        (virtualShown state (state.processes after.showing).pPagetable) screen ∧
      ∀ x, Beside (cpos 0 32) physicalTitle.length 1 512 x →
        Beside (cpos 10 26) (virtualTitle (processName after.showing)).length 11 768 x →
        screen x = cells x := by
  have running := run_running boot run
  have active := (step.trapped running).runnable.active
  have checked := running.inv.entered trap.pid trap.reg
  have activeThere : Active (entered image state trap.pid trap.reg) trap.pid := by
    rw [Active, entered_state]
    exact active
  have display := step.displayed
  obtain ⟨screen, drawn, physical, virtual, rest⟩ := checked.draws activeThere cells
  obtain ⟨lastTicks, showing, animated⟩ := memshowVirtualAnimate_ok checked
  have same := memshowVirtualAnimate_shows animated
  rw [nextShowing_entered] at drawn virtual rest same
  have shown := nextShowing_active active
  rw [display.showing]
  refine ⟨_, screen, drawn, ?_, rfl, shown, physical, ?_, rest⟩
  · rw [animated, same]
  · rw [running.inv.shared _ shown]
    exact virtual

/-- After a system call the first page is shown as reserved. -/
theorem memory_shown_sample : ∃ start trap state shown screen,
    kernel sampleImage coldState none = .ok start ∧
    Step sampleImage start (.trap trap) state ∧
    drawMemory (entered sampleImage start trap.pid trap.reg) (fun _ => 0x0720#16) =
      .ok (shown, screen) ∧
    readCell (screen (pageCell 1 0)) = some ⟨poReserved, false, false⟩ ∧
    screen (cpos 9 0) = 0x0720#16 := by
  obtain ⟨start, boot⟩ := sampleImage_boots
  have running := (kernel_booted boot).running
  obtain ⟨trap, state, step, _⟩ := running.traps rfl
    (show (callRegisters intSysGetpid 0#64).regIntno ∈ _ by decide)
  obtain ⟨shown, screen, drawn, _, _, _, physical, _, rest⟩ :=
    memory_shown boot .start step fun _ => 0x0720#16
  have reserved : initialOwner sampleImage (pageAddress 0) = poReserved := by decide
  have other : (0 : PhysicalPage) ≠ tableNumber sampleImage 0 := by
    intro same
    have kernel := initialOwner_table sampleImage 0
    rw [← same, reserved] at kernel
    exact absurd kernel (by decide)
  have info := running.inv.pageinfo.system 0 (by rw [reserved]; decide)
  rw [reserved, if_neg other] at info
  refine ⟨start, trap, state, shown, screen, boot, step, drawn, ?_, ?_⟩
  · rw [physical.pages 0 (by decide)]
    show some (pageShown (start.pageinfo 0) false) = _
    rw [info]
    rfl
  · apply rest
    · refine ⟨by decide, ?_⟩
      intro row below
      simp only [cpos]
      omega
    · refine ⟨by simp [cpos], ?_⟩
      intro row _
      simp only [cpos]
      omega

/-! ## Every process has its turn -/

def Event.isTimer : Event → Bool
  | .compute => false
  | .trap taken => taken.reg.regIntno = intTimer

def timers (events : List Event) : Nat := events.countP Event.isTimer

/-- At most so many timer interrupts pass before `pid` is shown: 50 for each process before it,
less those since the last change. -/
def waiting (state : KernelState) (pid : Pid) : Nat :=
  50 * steps state.showing pid - min 50 (state.ticks - state.lastTicks).toNat

theorem waiting_le (state : KernelState) (pid : Pid) : waiting state pid ≤ 800 := by
  have bound : steps state.showing pid ≤ 16 := steps_le state.showing pid
  unfold waiting
  omega

section Turns

variable {image : KernelImage} {before after state last : KernelState} {pid : Pid}

theorem Step.active {event : Event} (running : Running image before)
    (step : Step image before event after) (active : Active before pid) : Active after pid := by
  cases event with
  | compute =>
      cases step with
      | compute _ => exact active
  | trap trap =>
      have handled := (step.trapped running).handled
      by_cases same : pid = trap.pid
      · subst same
        have effect := handled.effect
        intro free
        rw [free] at effect
        generalize (after.processes trap.pid).pRegisters = registers at effect
        generalize after.pageinfo = pageinfo at effect
        cases effect
      · rw [Active, handled.settled.processes, Function.update_of_ne same]
        exact active

theorem elapsed_tick {ticks lastTicks : BitVec 32} (short : (ticks - lastTicks).toNat < 50) :
    (ticks + 1#32 - lastTicks).toNat = (ticks - lastTicks).toNat + 1 := by
  have one : (1#32).toNat = 1 := rfl
  have := ticks.isLt
  have := lastTicks.isLt
  rw [BitVec.toNat_sub] at short ⊢
  rw [BitVec.toNat_sub, BitVec.toNat_add, one]
  omega

theorem elapsed_early (calm : ¬ Switches before) :
    (before.ticks - before.lastTicks).toNat < 50 := by
  by_contra late
  refine calm (Or.inr ?_)
  rw [BitVec.le_def]
  have half : (hz / 2#32).toNat = 50 := rfl
  omega

/-- An exception that does not show `pid` brings its turn nearer by a tick, if it is one. -/
theorem Displayed.waiting {reg : Registers} (displayed : Displayed before reg after)
    (active : Active before pid) (missed : after.showing ≠ pid) :
    waiting after pid + (if reg.regIntno = intTimer then 1 else 0) ≤ waiting before pid := by
  obtain ⟨lastTicks, chosen⟩ := nextShowing_cases active
  rw [← displayed.showing] at chosen
  rw [← displayed.lastTicks] at lastTicks
  have ticks := displayed.ticks
  have ahead := steps_pos after.showing pid
  have zero : (before.ticks - before.ticks).toNat = 0 := by rw [BitVec.sub_self]; rfl
  unfold Weensy.waiting
  by_cases switch : Switches before
  · -- the change starts a new 50 ticks
    rw [if_pos switch] at lastTicks
    have nearer : steps after.showing pid < steps before.showing pid := by
      rcases chosen with ⟨calm, _⟩ | next
      · exact absurd switch calm
      · exact next.nearer active missed.symm
    rw [lastTicks, ticks]
    by_cases timer : reg.regIntno = intTimer
    · have tick : (before.ticks + 1#32 - before.ticks).toNat =
          (before.ticks - before.ticks).toNat + 1 := elapsed_tick (by omega)
      rw [if_pos timer, if_pos timer, tick]
      omega
    · rw [if_neg timer, if_neg timer]
      omega
  · rw [if_neg switch] at lastTicks
    have early := elapsed_early switch
    have nearer : steps after.showing pid ≤ steps before.showing pid := by
      rcases chosen with ⟨_, _, same⟩ | next
      · rw [same]
      · exact (next.nearer active missed.symm).le
    rw [lastTicks, ticks]
    by_cases timer : reg.regIntno = intTimer
    · rw [if_pos timer, if_pos timer, elapsed_tick early]
      omega
    · rw [if_neg timer, if_neg timer]
      omega

/-- An exception among the events of a run has shown `pid`. -/
def ShownIn (image : KernelImage) (pid : Pid) (first : KernelState) (events : List Event)
    (last : KernelState) : Prop :=
  ∃ front trap back before after, events = front ++ .trap trap :: back ∧
    Run (Step image) first front before ∧ Step image before (.trap trap) after ∧
    Run (Step image) after back last ∧ after.showing = pid

theorem ShownIn.extend {events : List Event} {event : Event}
    (shown : ShownIn image pid state events before) (step : Step image before event after) :
    ShownIn image pid state (events ++ [event]) after := by
  obtain ⟨front, trap, back, here, there, rfl, earlier, drawn, later, same⟩ := shown
  refine ⟨front, trap, back ++ [event], here, there, ?_, earlier, drawn, later.extend step, same⟩
  rw [List.append_assoc, List.cons_append]

/-- Until it is shown, the timer interrupts of a run shorten the time that `pid` waits. -/
theorem run_waiting {events : List Event} (running : Running image state)
    (active : Active state pid) (run : Run (Step image) state events last) :
    Running image last ∧ Active last pid ∧
      (ShownIn image pid state events last ∨ waiting last pid + timers events ≤ waiting state pid) := by
  induction run with
  | start => exact ⟨running, active, Or.inr (Nat.le_refl _)⟩
  | @extend before after events event run step ih =>
      obtain ⟨runningBefore, activeBefore, shown | waited⟩ := ih
      · exact ⟨step.running runningBefore, step.active runningBefore activeBefore,
          Or.inl (shown.extend step)⟩
      · refine ⟨step.running runningBefore, step.active runningBefore activeBefore, ?_⟩
        have counted : timers (events ++ [event]) =
            timers events + if event.isTimer then 1 else 0 := by
          rw [timers, List.countP_append, List.countP_singleton]
          rfl
        cases event with
        | compute =>
            right
            cases step with
            | compute _ =>
                rw [counted]
                exact waited
        | trap trap =>
            by_cases here : after.showing = pid
            · exact Or.inl ⟨events, trap, [], before, after, rfl, run, step, .start, here⟩
            · right
              have less := step.displayed.waiting activeBefore here
              rw [counted]
              simp only [Event.isTimer, decide_eq_true_eq]
              omega

end Turns

/-- In every part of a run with more than 800 timer interrupts, which take eight seconds, the
page table of each active process is shown. -/
theorem every_process_shown {image : KernelImage} {prior start state last : KernelState}
    {command : Option String} {trace events : List Event} {pid : Pid}
    (boot : kernel image prior command = .ok start)
    (run : Run (Step image) start trace state) (active : Active state pid)
    (more : Run (Step image) state events last) (long : 800 < timers events) :
    ShownIn image pid state events last := by
  obtain ⟨_, _, shown | waited⟩ := run_waiting (run_running boot run) active more
  · exact shown
  · have bound := waiting_le state pid
    omega

theorem timers_go_on {image : KernelImage} {state : KernelState} (running : Running image state)
    (unlimited : image.tickLimit = 0#32) (count : Nat) :
    ∃ events last, Run (Step image) state events last ∧ Running image last ∧
      timers events = count := by
  induction count with
  | zero => exact ⟨[], state, .start, running, rfl⟩
  | succ count ih =>
      obtain ⟨events, before, run, runningBefore, counted⟩ := ih
      obtain ⟨trap, after, step, same⟩ := runningBefore.traps unlimited
        (show (callRegisters intTimer 0#64).regIntno ∈ _ by decide)
      refine ⟨events ++ [.trap trap], after, run.extend step, step.running runningBefore, ?_⟩
      have timer : (Event.trap trap).isTimer = true := by
        simp only [Event.isTimer, same]
        rfl
      rw [timers, List.countP_append, List.countP_singleton, if_pos timer, ← counted]
      rfl

theorem every_process_shown_sample : ∃ start events last,
    kernel sampleImage coldState none = .ok start ∧
    Run (Step sampleImage) start events last ∧ timers events = 801 ∧
    ShownIn sampleImage 3 start events last := by
  obtain ⟨start, boot⟩ := sampleImage_boots
  have booted := kernel_booted boot
  obtain ⟨events, last, run, _, counted⟩ := timers_go_on booted.running rfl 801
  have active : Active start 3 := by
    have member : (3, 2) ∈ initialPrograms none := by decide
    rw [Active, booted.processes _ member]
    decide
  exact ⟨start, events, last, boot, run, counted,
    every_process_shown boot .start active run (by omega)⟩

end OsLabs.Weensy
