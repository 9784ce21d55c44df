import OsLabs.Weensy.KernelRuns

/-!
# Round robin

`schedule` starts at the process after the current one, and the current process is the
one that was dispatched last.  Processes only ever stop being runnable, so what is
runnable at the end of a run bounds every pick of the run, and the rule for rounds
applies.
-/

set_option autoImplicit false

namespace OsLabs.Weensy

open OsLabs.RoundRobin OsLabs.Transition

/-- The process that the event dispatches through `schedule`. -/
def Event.dispatch : Event → Option Pid
  | .compute => none
  | .trap taken => if taken.via = .schedule then some taken.next else none

/-- The processes that `schedule` dispatches along some events. -/
def dispatches (events : List Event) : List Pid := events.filterMap Event.dispatch

section Steps

variable {image : KernelImage} {before after : KernelState}

theorem Trapped.runnable_before {trap : Trap} (trapped : Trapped before trap after)
    {other : Pid} (runnable : Runnable after other) : Runnable before other := by
  by_cases same : other = trap.pid
  · rw [same]
    exact trapped.runnable
  · rw [Runnable, trapped.handled.settled.processes, Function.update_of_ne same] at runnable
    exact runnable

theorem Step.runnable_before {event : Event} (running : Running image before)
    (step : Step image before event after) {other : Pid}
    (runnable : Runnable after other) : Runnable before other := by
  cases event with
  | compute =>
      cases step with
      | compute _ => exact runnable
  | trap trap => exact (step.trapped running).runnable_before runnable

theorem Trapped.dispatched {trap : Trap} (trapped : Trapped before trap after) :
    Dispatched after trap.pid trap.next trap.via := by
  obtain ⟨next, entered, dispatched⟩ := trapped.handled.dispatch
  rw [trapped.entered] at entered
  cases entered
  exact dispatched

theorem Trapped.next_runnable {trap : Trap} (trapped : Trapped before trap after) :
    Runnable after trap.next := by
  have dispatched := trapped.dispatched
  cases via : trap.via with
  | run =>
      rw [via] at dispatched
      rw [dispatched.1]
      exact dispatched.2
  | schedule =>
      rw [via] at dispatched
      exact dispatched.picked

/-- The dispatches of a run from a state in which `here` is current are picks, and the
last of them is current. -/
structure Rounds (image : KernelImage) (here : Pid) (seen : List Event)
    (state : KernelState) : Prop where
  running : Running image state
  picks : Picks (Runnable state) here (dispatches seen)
  current : state.current = some ((dispatches seen).getLastD here)

theorem Rounds.step {here : Pid} {seen : List Event} {event : Event}
    (rounds : Rounds image here seen before) (step : Step image before event after) :
    Rounds image here (seen ++ [event]) after := by
  have running := step.running rounds.running
  have picks : Picks (Runnable after) here (dispatches seen) :=
    rounds.picks.mono fun _ runnable => step.runnable_before rounds.running runnable
  cases event with
  | compute =>
      have quiet : dispatches (seen ++ [.compute]) = dispatches seen := by
        simp [dispatches, Event.dispatch]
      cases step with
      | compute _ =>
          refine ⟨running, ?_, ?_⟩
          · rw [quiet]
            exact picks
          · rw [quiet]
            exact rounds.current
  | trap trap =>
      have trapped := step.trapped rounds.running
      have last : (dispatches seen).getLastD here = trap.pid :=
        Option.some.inj (rounds.current.symm.trans trapped.current)
      have dispatched := trapped.dispatched
      cases via : trap.via with
      | run =>
          have quiet : dispatches (seen ++ [.trap trap]) = dispatches seen := by
            simp [dispatches, Event.dispatch, via]
          rw [via] at dispatched
          refine ⟨running, ?_, ?_⟩
          · rw [quiet]
            exact picks
          · rw [quiet, last, trapped.entered, dispatched.1]
      | schedule =>
          have more : dispatches (seen ++ [.trap trap]) = dispatches seen ++ [trap.next] := by
            simp [dispatches, Event.dispatch, via]
          rw [via] at dispatched
          refine ⟨running, ?_, ?_⟩
          · rw [more]
            refine picks.snoc ?_
            rw [last]
            exact dispatched.notPast
          · rw [more, List.getLastD_concat]
            exact trapped.entered

/-- From one dispatch of a process to its next, the run is one round. -/
theorem Running.round {state : KernelState} {first again : Trap} {between : List Event}
    (running : Running image before)
    (run : Run (Step image) before (.trap first :: (between ++ [.trap again])) state)
    (via : again.via = .schedule) (same : again.next = first.next)
    (consecutive : first.next ∉ dispatches between) :
    ((dispatches between).map (offset first.next)).Pairwise (· < ·) ∧
      ∀ other, Runnable state other → other ≠ first.next →
        (dispatches between).count other = 1 := by
  obtain ⟨middle, step, rest⟩ := run.head
  have trapped := step.trapped running
  have rounds : Rounds image first.next (between ++ [.trap again]) state :=
    rest.history (Rounds image first.next) ⟨step.running running, .none _, trapped.entered⟩
      fun _ _ _ _ here step => here.step step
  have list : dispatches (between ++ [.trap again]) = dispatches between ++ [first.next] := by
    simp [dispatches, Event.dispatch, via, same]
  have picks := rounds.picks
  have last := rounds.current
  rw [list, List.getLastD_concat] at last
  rw [list] at picks
  obtain ⟨_, pid, current, runnable⟩ := rounds.running
  rw [current] at last
  cases last
  exact picks.round runnable consecutive

/-- When no key stops it, `schedule` finds the next runnable process if there is one. -/
theorem KernelInv.schedule_finds {state : KernelState} (inv : KernelInv image state)
    {keyboard : Nat → Int} {pid : Pid} (quiet : ∀ i, checkKeyboard (keyboard i) = .ok ())
    (some : ∃ other, Runnable state other) :
    ∃ after next, scheduleLoop image state nproc keyboard pid = .ok after ∧
      after.current = .some next ∧ Next (Runnable state) pid next := by
  obtain ⟨other, runnable⟩ := some
  rcases scheduleLoop_cases inv nproc keyboard pid with
    ⟨i, stop, pressed, _⟩ | ⟨_, far⟩ | ⟨next, found, picked⟩
  · rw [quiet i] at pressed
    cases pressed
  · have beyond := far other runnable
    have bound := steps_le pid other
    omega
  · exact ⟨_, next, found, rfl, picked⟩

/-- Only a page fault of the one runnable process makes an exception spin. -/
theorem Running.spins (running : Running image before) {keyboard : Nat → Int}
    {reg : Registers} (spun : exception image keyboard before reg = .error .spins) :
    reg.regIntno = intPageFault ∧
      ∀ other, Runnable before other → before.current = some other := by
  obtain ⟨inv, pid, current, runnable⟩ := running
  rcases exception_cases keyboard inv current runnable reg with
    ⟨stop, stopped, ended⟩ | ⟨after, via, handled, _⟩
  · rw [spun] at stopped
    cases stopped
    cases ended with
    | key i pressed => exact absurd pressed (checkKeyboard_ne_spins (keyboard i))
    | idle intno alone =>
        refine ⟨intno, ?_⟩
        intro other otherRunnable
        rw [alone other otherRunnable]
        exact current
  · rw [spun] at handled
    cases handled

end Steps

/-- Between two consecutive dispatches of a process by `schedule`, the dispatches follow
the pids and meet every other process that is still runnable exactly once; only
runnable processes are dispatched, and never process 0; `schedule` finds the next
runnable process within `NPROC` iterations, and an exception ends in its endless
loop only when it leaves no process runnable. -/
theorem round_robin {image : KernelImage} {prior start state : KernelState}
    {command : Option String} {trace : List Event}
    (boot : kernel image prior command = .ok start)
    (run : Run (Step image) start trace state) :
    (∀ earlier first between again,
      trace = earlier ++ .trap first :: (between ++ [.trap again]) →
      first.via = .schedule → again.via = .schedule → again.next = first.next →
      first.next ∉ dispatches between →
      ((dispatches between).map (offset first.next)).Pairwise (· < ·) ∧
      ∀ other, Runnable state other → other ≠ first.next →
        (dispatches between).count other = 1) ∧
    (∀ trap after, Step image state (.trap trap) after →
      Runnable after trap.next ∧ trap.next ≠ 0) ∧
    (∀ keyboard pid, (∀ i, checkKeyboard (keyboard i) = .ok ()) →
      (∃ other, Runnable state other) →
      ∃ after next, scheduleLoop image state nproc keyboard pid = .ok after ∧
        after.current = some next ∧ Next (Runnable state) pid next) ∧
    ∀ keyboard reg, exception image keyboard state reg = .error .spins →
      reg.regIntno = intPageFault ∧
      ∀ other, Runnable state other → state.current = some other := by
  have running := run_running boot run
  refine ⟨?_, ?_, ?_, ?_⟩
  · intro earlier first between again whole firstVia againVia same consecutive
    rw [whole] at run
    obtain ⟨before, front, back⟩ := Run.split earlier _ run
    exact (run_running boot front).round back againVia same consecutive
  · intro trap after step
    have next := (step.trapped running).next_runnable
    refine ⟨next, ?_⟩
    intro zero
    have idle := (step.running running).inv.processZero
    rw [zero, Runnable, idle] at next
    cases next
  · intro keyboard origin quiet some
    exact running.inv.schedule_finds quiet some
  · intro keyboard reg spun
    exact running.spins spun

/-- The process after `pid` among 1 to 4. -/
def afterAmongFour (pid : Pid) : Pid := if pid = 4 then 1 else pid + 1

theorem afterAmongFour_range : ∀ pid : Pid, 1 ≤ pid.val ∧ pid.val ≤ 4 →
    1 ≤ (afterAmongFour pid).val ∧ (afterAmongFour pid).val ≤ 4 := by decide

theorem steps_afterAmongFour : ∀ here next : Pid, 1 ≤ here.val ∧ here.val ≤ 4 →
    1 ≤ next.val ∧ next.val ≤ 4 → steps here next ≤ steps here (afterAmongFour here) →
    next = afterAmongFour here := by decide

theorem next_among_four {ready : Pid → Prop} {here next : Pid}
    (four : ∀ other, ready other ↔ 1 ≤ other.val ∧ other.val ≤ 4) (inside : ready here)
    (picked : Next ready here next) : next = afterAmongFour here := by
  have range := (four here).mp inside
  have successor := (four _).mpr (afterAmongFour_range here range)
  exact steps_afterAmongFour here next range ((four next).mp picked.picked)
    (picked.notPast _ successor)

/-- The states of the sample image in which the four processes run. -/
structure FourRun (state : KernelState) (pid : Pid) : Prop where
  running : Running sampleImage state
  current : state.current = some pid
  four : ∀ other, Runnable state other ↔ 1 ≤ other.val ∧ other.val ≤ 4

theorem FourRun.yield {state : KernelState} {pid : Pid} (run : FourRun state pid) :
    ∃ trap after, Step sampleImage state (.trap trap) after ∧ trap.via = .schedule ∧
      trap.next = afterAmongFour pid ∧ FourRun after (afterAmongFour pid) := by
  obtain ⟨trap, after, step, same⟩ := run.running.traps rfl
    (show (callRegisters intSysYield 0#64).regIntno ∈ _ by decide)
  have trapped := step.trapped run.running
  have here := trapped.current
  rw [run.current] at here
  cases here
  have settled := trapped.handled.settled
  have kept : (after.processes trap.pid).pState = .runnable ∧ trap.via = .schedule := by
    have intno : trap.reg.regIntno = intSysYield := by
      rw [same]
      rfl
    exact trapped.handled.effect.of_yield intno
  have four : ∀ other, Runnable after other ↔ 1 ≤ other.val ∧ other.val ≤ 4 := by
    intro other
    rw [← run.four other]
    by_cases here : other = trap.pid
    · rw [here]
      exact ⟨fun _ => trapped.runnable, fun _ => kept.1⟩
    · rw [Runnable, settled.processes, Function.update_of_ne here]
      rfl
  have dispatched := trapped.dispatched
  rw [kept.2] at dispatched
  have next := next_among_four four kept.1 dispatched
  exact ⟨trap, after, step, kept.2, next, step.running run.running,
    next ▸ trapped.entered, four⟩

theorem round_robin_sample : ∃ start state first second third fourth fifth,
    kernel sampleImage coldState none = .ok start ∧
    Run (Step sampleImage) start [.trap first, .trap second, .trap third, .trap fourth,
      .trap fifth] state ∧
    first.next = 2 ∧ fifth.next = 2 ∧
    (dispatches [.trap second, .trap third, .trap fourth]).count 4 = 1 := by
  obtain ⟨start, boot⟩ := sampleImage_boots
  have booted := kernel_booted boot
  have four : ∀ other, Runnable start other ↔ 1 ≤ other.val ∧ other.val ≤ 4 := by
    intro other
    have listed : ∀ other : Pid, other ∈ (initialPrograms none).map Prod.fst ↔
        1 ≤ other.val ∧ other.val ≤ 4 := by decide
    rw [← listed other]
    constructor
    · intro runnable
      by_contra absent
      rw [Runnable, booted.others other absent] at runnable
      cases runnable
    · intro member
      obtain ⟨entry, inside, rfl⟩ := List.mem_map.mp member
      rw [Runnable, booted.processes entry inside]
      rfl
  have zero : FourRun start 1 := ⟨booted.running, booted.current, four⟩
  obtain ⟨first, one, step1, via1, next1, run1⟩ := zero.yield
  obtain ⟨second, two, step2, via2, next2, run2⟩ := run1.yield
  obtain ⟨third, three, step3, via3, next3, run3⟩ := run2.yield
  obtain ⟨fourth, last, step4, via4, next4, run4⟩ := run3.yield
  obtain ⟨fifth, state, step5, via5, next5, run5⟩ := run4.yield
  have whole := ((((Run.start.extend step1).extend step2).extend step3).extend step4).extend
    step5
  have firstNext : first.next = 2 := next1
  have between : dispatches [.trap second, .trap third, .trap fourth] = [3, 4, 1] := by
    simp only [dispatches, Event.dispatch, via2, via3, via4, next2, next3, next4, if_true,
      List.filterMap_cons, List.filterMap_nil]
    decide
  have rounds := (round_robin boot whole).1 [] first
    [.trap second, .trap third, .trap fourth] fifth rfl via1 via5
    (next5.trans firstNext.symm) (by rw [between, firstNext]; decide)
  exact ⟨start, state, first, second, third, fourth, fifth, boot, whole, firstNext, next5,
    rounds.2 4 ((run5.four 4).mpr (by decide)) (by rw [firstNext]; decide)⟩

end OsLabs.Weensy
