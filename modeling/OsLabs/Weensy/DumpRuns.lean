import OsLabs.Weensy.Dumps
import OsLabs.Weensy.KernelRuns

/-!
# The grader reads what the kernel dumped

Along a run with a tick limit the log is the text of the dumps of the states in which a
timer interrupt found a multiple of `HZ`.  Such a tick comes once, since `ticks` only
grows and the machine is off when it reaches the limit; so the reader of parse_log.py
gets every one of these states back.
-/

set_option autoImplicit false

namespace OsLabs.Weensy

open OsLabs.ByteMemory OsLabs.ExceptRules OsLabs.Transition OsLabs.Dictionary

/-! ## What is to be recovered -/

/-- The entry of a virtual page: zeros when it is unmapped, else owner, reference count,
user bit and permissions. -/
def VirtualEntry (state : KernelState) (pagetable va : UIntPtr) (entry : VMEntry) : Prop :=
  let vam := virtualMemoryLookup state.memory pagetable va
  if vam.pn < 0 then entry = ⟨0, 0, 0, 0⟩
  else ∃ page : PhysicalPage, vam.pn = page.val ∧
    entry = ⟨(state.pageinfo page).owner % 256, (state.pageinfo page).refcount,
      Int.land vam.perm.toInt parsePteU, vam.perm.toInt⟩

/-- An instance of the reader holds what the kernel state does. -/
structure Recovered (state : KernelState) (memMap : MemMapInstance) : Prop where
  pmState : ∃ data, memMap.pmState = some data ∧ data.length = 512 ∧
    ∀ pn : PhysicalPage, data[pn.val]? =
      some ⟨(state.pageinfo pn).owner % 256, (state.pageinfo pn).refcount⟩
  vmState : ∀ pid : Pid, (state.processes pid).pState ≠ .free →
    ∃ data, memMap.vmState.lookup (pid.val : Int) = some data ∧ data.length = 768 ∧
      ∀ i < 768, ∃ entry, data[i]? = some entry ∧
        VirtualEntry state (state.processes pid).pPagetable (BitVec.ofNat 64 (4096 * i))
          entry
  keys : ∀ key, key ∈ memMap.vmState →
    ∃ pid : Pid, key = pid.val ∧ (state.processes pid).pState ≠ .free

section Entries

variable {image : KernelImage} {state : KernelState}

theorem ofInt_owner (owner : Int) : ((BitVec.ofInt 8 owner).toNat : Int) = owner % 256 := by
  rw [BitVec.toNat_ofInt]
  omega

theorem ofInt_refcount {w : Nat} {refcount : Int} (range : 0 ≤ refcount ∧ refcount < 2 ^ w) :
    ((BitVec.ofInt w refcount).toNat : Int) = refcount := by
  rw [BitVec.toNat_ofInt, Int.toNat_of_nonneg (Int.emod_nonneg _ (by positivity))]
  exact Int.emod_eq_of_lt range.1 (by exact_mod_cast range.2)

theorem KernelInv.refcount_range (inv : KernelInv image state) (pn : PhysicalPage) :
    0 ≤ (state.pageinfo pn).refcount ∧ (state.pageinfo pn).refcount < 256 := by
  have users := usersOf_le state image.kernelPagetable
  have count : nproc = 16 := rfl
  by_cases kept : initialOwner image (pageAddress pn) = poFree
  · rcases inv.pageinfo.user pn kept with unused | ⟨pid, _, owned⟩
    · rw [unused]
      decide
    · rw [owned]
      simp
  · rw [inv.pageinfo.system pn kept]
    simp only
    split <;> omega

theorem KernelInv.virtualEntry (inv : KernelInv image state) {pid : Pid}
    (active : (state.processes pid).pState ≠ .free) {va : UIntPtr}
    (member : va ∈ pagesBelow 0 memsizeVirtual.toNat) :
    VirtualEntry state (state.processes pid).pPagetable va
      (vmEntryOf (virtualNumbers state (state.processes pid).pPagetable va)) := by
  rw [inv.shared pid active]
  unfold VirtualEntry virtualNumbers
  rcases lookup_displayed inv.tables member with unmapped | ⟨pn, bound, mapped, _⟩
  · simp only [if_pos unmapped]
    rfl
  · have positive : ¬ ((pn : Int) < 0) := by omega
    have range := inv.refcount_range ⟨pn, bound⟩
    have count : ((BitVec.ofInt 8 (state.pageinfo ⟨pn, bound⟩).refcount).toNat : Int) =
        (state.pageinfo ⟨pn, bound⟩).refcount := ofInt_refcount range
    simp only [mapped, if_neg positive, pageinfoIndex_val bound, vmEntryOf, ofInt_owner,
      count]
    exact ⟨⟨pn, bound⟩, rfl, rfl⟩

theorem KernelInv.physicalEntry (inv : KernelInv image state) (pn : PhysicalPage) :
    pmEntryOf (physicalNumbers state pn) =
      ⟨(state.pageinfo pn).owner % 256, (state.pageinfo pn).refcount⟩ := by
  have range := inv.refcount_range pn
  have wide : 0 ≤ (state.pageinfo pn).refcount ∧ (state.pageinfo pn).refcount < 2 ^ 32 :=
    ⟨range.1, by omega⟩
  rw [pmEntryOf, physicalNumbers, ofInt_owner, ofInt_refcount wide]

theorem KernelInv.recovered (inv : KernelInv image state) :
    Recovered state (stateDump state).memMap := by
  have spaces := stateDump_spaces state
  have pages : (stateDump state).memMap.pmState =
      some ((physicalSpace state).map pmEntryOf) := by
    rw [Dump.memMap, stateDump_pages]
  refine ⟨⟨(physicalSpace state).map pmEntryOf, pages, ?_, ?_⟩, ?_, ?_⟩
  · rw [List.length_map, physicalSpace, List.length_map, List.length_finRange]
  · intro pn
    have bound : pn.val < (List.finRange nPages).length := by
      rw [List.length_finRange]
      exact pn.isLt
    rw [List.getElem?_map, physicalSpace, List.getElem?_map,
      List.getElem?_eq_getElem bound, List.getElem_finRange, Option.map_some,
      Option.map_some, ← inv.physicalEntry pn]
    rfl
  · intro pid active
    have member : (pid, virtualSpace state pid) ∈ (stateDump state).spaces := by
      rw [spaces]
      refine List.mem_map.mpr ⟨pid, ?_, rfl⟩
      rw [activePids, List.mem_filter]
      exact ⟨List.mem_finRange pid, decide_eq_true active⟩
    have keys : ((stateDump state).spaces.map spaceKey).Nodup := by
      have numbers : (stateDump state).spaces.map spaceKey =
          ((stateDump state).spaces.map Prod.fst).map fun pid : Pid => (pid.val : Int) := by
        rw [List.map_map]
        rfl
      have apart : Function.Injective fun pid : Pid => (pid.val : Int) :=
        fun _ _ same => Fin.ext (Int.ofNat.inj same)
      rw [numbers]
      exact (stateDump state).once.map apart
    have found := @lookup_insertAll _ _ _ _ _ spaceEntries _ keys _ member ∅
    have entries : spaceEntries (pid, virtualSpace state pid) =
        (virtualSpace state pid).map vmEntryOf := by
      rw [spaceEntries]
    have key : spaceKey (pid, virtualSpace state pid) = pid.val := rfl
    rw [key, entries] at found
    refine ⟨(virtualSpace state pid).map vmEntryOf, ?_, ?_, ?_⟩
    · rw [Dump.memMap]
      exact found
    · rw [List.length_map, virtualSpace, List.length_map, pagesBelow, List.length_map,
        List.length_range]
      rfl
    · intro i bound
      have inside : i < (List.range ((memsizeVirtual.toNat - 0 + 4095) / 4096)).length := by
        rw [List.length_range]
        exact bound
      have place : (pagesBelow 0 memsizeVirtual.toNat)[i]? =
          some (BitVec.ofNat 64 (4096 * i)) := by
        rw [pagesBelow, List.getElem?_map, List.getElem?_eq_getElem inside,
          List.getElem_range, Option.map_some, Nat.zero_add]
      refine ⟨_, ?_, inv.virtualEntry active (List.mem_of_getElem? place)⟩
      rw [virtualSpace, List.getElem?_map, List.getElem?_map, place, Option.map_some,
        Option.map_some]
  · intro key member
    rcases mem_insertAll.mp member with old | ⟨space, present, same⟩
    · exact absurd old (AList.notMem_empty key)
    · rw [spaces] at present
      obtain ⟨pid, inside, rfl⟩ := List.mem_map.mp present
      rw [activePids, List.mem_filter] at inside
      exact ⟨pid, same.symm, of_decide_eq_true inside.2⟩

end Entries

/-! ## Runs -/

def dumpMoment : KernelState × Event → List KernelState
  | (_, .compute) => []
  | (before, .trap trap) => if Dumps before trap.reg then [before] else []

def dumpMoments (history : List (KernelState × Event)) : List KernelState :=
  history.flatMap dumpMoment

theorem dumpMoments_extend (history : List (KernelState × Event))
    (label : KernelState × Event) :
    dumpMoments (history ++ [label]) = dumpMoments history ++ dumpMoment label := by
  rw [dumpMoments, List.flatMap_append, List.flatMap_singleton]
  rfl

theorem dumpMoment_trap (before : KernelState) (trap : Trap) :
    (dumpMoment (before, .trap trap)).map stateDump = dumpOf before trap.reg := by
  by_cases dumps : Dumps before trap.reg
  · rw [dumpMoment, if_pos dumps, dumpOf, if_pos dumps, List.map_singleton]
  · rw [dumpMoment, if_neg dumps, dumpOf, if_neg dumps, List.map_nil]

/-- The log, and the ticks of the dumps in it, along a run. -/
structure Logged (image : KernelImage) (history : List (KernelState × Event))
    (state : KernelState) : Prop where
  running : Running image state
  log : state.log = ((dumpMoments history).map stateDump).flatMap Dump.lines
  limit : state.ticks.toNat ≤ image.tickLimit.toNat
  moments : ∀ moment ∈ dumpMoments history,
    Running image moment ∧ moment.ticks.toNat < state.ticks.toNat
  once : ((dumpMoments history).map fun moment => moment.ticks.toNat).Nodup

section Runs

variable {image : KernelImage} {before after : KernelState}
  {history : List (KernelState × Event)}

theorem Logged.extend (logged : Logged image history before) (running : Running image after)
    (label : KernelState × Event)
    (log : after.log =
      before.log ++ ((dumpMoment label).map stateDump).flatMap Dump.lines)
    (limit : after.ticks.toNat ≤ image.tickLimit.toNat)
    (later : before.ticks.toNat ≤ after.ticks.toNat)
    (moment : dumpMoment label = [] ∨
      dumpMoment label = [before] ∧ before.ticks.toNat < after.ticks.toNat) :
    Logged image (history ++ [label]) after := by
  refine ⟨running, ?_, limit, ?_, ?_⟩
  · rw [log, logged.log, dumpMoments_extend, List.map_append, List.flatMap_append]
  · intro other member
    rw [dumpMoments_extend] at member
    rcases List.mem_append.mp member with earlier | here
    · obtain ⟨active, below⟩ := logged.moments other earlier
      exact ⟨active, lt_of_lt_of_le below later⟩
    · rcases moment with none_here | ⟨own, below⟩
      · rw [none_here] at here
        cases here
      · rw [own, List.mem_singleton] at here
        subst here
        exact ⟨logged.running, below⟩
  · rw [dumpMoments_extend]
    rcases moment with none_here | ⟨own, _⟩
    · rw [none_here, List.append_nil]
      exact logged.once
    · rw [own, List.map_append, List.map_singleton]
      refine List.nodup_append.mpr ⟨logged.once, List.nodup_singleton _, ?_⟩
      intro tick earlier other new same
      obtain ⟨found, member, rfl⟩ := List.mem_map.mp earlier
      rw [List.mem_singleton] at new
      have below := (logged.moments found member).2
      omega

theorem Logged.step (limited : image.tickLimit ≠ 0#32) (logged : Logged image history before)
    {label : KernelState × Event} (step : Recorded (Step image) before label after) :
    Logged image (history ++ [label]) after := by
  obtain ⟨start, event⟩ := label
  obtain ⟨same, step⟩ := step
  simp only at same step
  subst same
  have running := step.running logged.running
  cases event with
  | compute =>
      cases step with
      | compute kept =>
          refine logged.extend running _ ?_ logged.limit (le_refl _) (Or.inl rfl)
          exact (List.append_nil _).symm
  | trap trap =>
      cases step with
      | @trap _ keyboard reg via pid next current taken entered =>
          obtain ⟨below, log, ticks⟩ := exception_log limited taken
          have limit := logged.limit
          have different : start.ticks.toNat ≠ image.tickLimit.toNat :=
            fun equal => below (BitVec.eq_of_toNat_eq equal)
          have small := image.tickLimit.isLt
          rw [← dumpMoment_trap start
            ⟨pid, reg, via, next, (after.processes pid).pRegisters⟩] at log
          by_cases timer : reg.regIntno = intTimer
          · rw [if_pos timer] at ticks
            have counted : after.ticks.toNat = start.ticks.toNat + 1 := by
              rw [ticks, BitVec.toNat_add]
              have one : (1#32).toNat = 1 := rfl
              omega
            refine logged.extend running _ log (by omega) (by omega) ?_
            by_cases dumps : Dumps start reg
            · exact Or.inr ⟨if_pos dumps, by omega⟩
            · exact Or.inl (if_neg dumps)
          · rw [if_neg timer] at ticks
            have untimely : ¬ Dumps start reg := fun dumps => timer dumps.1
            rw [← ticks] at limit
            exact logged.extend running _ log limit (by rw [ticks])
              (Or.inl (if_neg untimely))

theorem run_logged {prior start state : KernelState} {command : Option String}
    (limited : image.tickLimit ≠ 0#32) (zero : prior.ticks = 0#32) (empty : prior.log = [])
    (boot : kernel image prior command = .ok start)
    (run : Run (Recorded (Step image)) start history state) :
    Logged image history state := by
  have booted := kernel_sameLog boot
  have begun : Logged image [] start := by
    refine ⟨(kernel_booted boot).running, ?_, ?_, ?_, ?_⟩
    · rw [booted.log, empty]
      rfl
    · rw [booted.ticks, zero]
      exact Nat.zero_le _
    · intro moment member
      cases member
    · exact List.nodup_nil
  exact run.history (fun seen state => Logged image seen state) begun
    fun seen state label next here step => here.step limited step

end Runs

/-! ## The end of a run -/

/-- The log when an exception stops the machine.  After the checks nothing dumps; the
tick limit, like a failed check, stops them before the first line. -/
def logAtStop (image : KernelImage) (state : KernelState) (reg : Registers) :
    List LogLine :=
  match state.current with
  | none => state.log
  | some pid =>
      match setPagetable image (state.setRegisters pid reg) image.kernelPagetable >>=
          fun state => exceptionChecks image state reg with
      | .ok checked => checked.log
      | .error _ => state.log

/-- Without keyboard input a timer interrupt below the limit enters user mode again. -/
theorem timer_handled {image : KernelImage} {state : KernelState} {pid : Pid}
    {keyboard : Nat → Int} {reg : Registers} (inv : KernelInv image state)
    (current : state.current = some pid) (runnable : Runnable state pid)
    (quiet : ∀ i, keyboard i = -1) (below : state.ticks ≠ image.tickLimit)
    (timer : reg.regIntno = intTimer) :
    ∃ after via, exception image keyboard state reg = .ok (after, via) ∧
      Handled state pid reg after via := by
  rcases exception_cases keyboard inv current runnable reg with ⟨_, _, ended⟩ | handled
  · cases ended with
    | tickLimit _ reached => exact absurd reached below
    | key i pressed =>
        rw [quiet i] at pressed
        cases pressed
    | panic intno => exact absurd (timer.symm.trans intno) (by decide)
    | kernelFault intno _ => exact absurd (timer.symm.trans intno) (by decide)
    | unexpected intno =>
        rw [timer] at intno
        exact absurd (by decide) intno
    | idle intno _ => exact absurd (timer.symm.trans intno) (by decide)
  · exact handled

/-- Without keyboard input, an exception that stops the machine has not dumped. -/
theorem logAtStop_eq {image : KernelImage} {state : KernelState} {keyboard : Nat → Int}
    {reg : Registers} {stop : Stop} (limited : image.tickLimit ≠ 0#32)
    (running : Running image state) (quiet : ∀ i, keyboard i = -1)
    (stopped : exception image keyboard state reg = .error stop) :
    logAtStop image state reg = state.log := by
  obtain ⟨pid, current, runnable⟩ := running.entered
  unfold logAtStop
  rw [current]
  simp only
  split
  · next checked returned =>
      obtain ⟨saved, set, checks⟩ := bind_eq_ok.mp returned
      have savedEq := setPagetable_eq set
      obtain ⟨below, _, log⟩ := exceptionChecks_log limited checks
      rw [savedEq, dumpOf_saved] at log
      have untimely : ¬ Dumps state reg := by
        intro dumps
        have other : reg.regIntno ≠ intPageFault := by
          rw [dumps.1]
          decide
        have unreached := below (Or.inl other)
        rw [savedEq] at unreached
        obtain ⟨_, _, handled, _⟩ :=
          timer_handled running.inv current runnable quiet unreached dumps.1
        rw [stopped] at handled
        cases handled
      rw [log, dumpOf, if_neg untimely, List.flatMap_nil, List.append_nil]
      rfl
  · rfl

/-! ## Reading back -/

/-- `MemMapTimeline` reads the text without a failed assertion; it has an instance for
exactly the ticks of the states in `moments`, which are distinct, and each instance holds
what its state does. -/
def ReadsBack (text : List Char) (moments : List KernelState) : Prop :=
  ∃ timeline, memMapTimeline text = .ok timeline ∧
    (moments.map fun moment => moment.ticks.toNat).Nodup ∧
    (∀ moment ∈ moments, ∃ memMap,
      timeline.memData.lookup (moment.ticks.toNat : Int) = some memMap ∧
        Recovered moment memMap) ∧
    ∀ tick, tick ∈ timeline.memData → ∃ moment ∈ moments, tick = moment.ticks.toNat

theorem Logged.readsBack {image : KernelImage} {state : KernelState}
    {history : List (KernelState × Event)} (logged : Logged image history state)
    {tail : List Char} (trailer : Trailer tail) :
    ReadsBack (logText state.log ++ tail) (dumpMoments history) := by
  have ticks : ((dumpMoments history).map stateDump).map Dump.tick =
      ((dumpMoments history).map fun moment => moment.ticks.toNat).map
        (fun tick : Nat => (tick : Int)) := by
    rw [List.map_map, List.map_map]
    rfl
  have distinct : (((dumpMoments history).map stateDump).map Dump.tick).Nodup := by
    rw [ticks]
    exact logged.once.map fun _ _ same => Int.ofNat.inj same
  obtain ⟨panic, read⟩ := memMapTimeline_dumps distinct trailer
  rw [← logged.log] at read
  refine ⟨_, read, logged.once, ?_, ?_⟩
  · intro moment member
    have dumped : stateDump moment ∈ (dumpMoments history).map stateDump :=
      List.mem_map_of_mem member
    exact ⟨_, lookup_insertAll distinct dumped ∅,
      (logged.moments moment member).1.inv.recovered⟩
  · intro tick member
    rcases mem_insertAll.mp member with old | ⟨dump, dumped, same⟩
    · exact absurd old (AList.notMem_empty tick)
    · obtain ⟨moment, present, rfl⟩ := List.mem_map.mp dumped
      exact ⟨moment, present, same.symm⟩

/-- The grader reads back exactly what the kernel dumped, at every exception boundary and
when an exception has turned the machine off. -/
theorem log_read_back {image : KernelImage} {prior start state : KernelState}
    {command : Option String} {history : List (KernelState × Event)}
    (limited : image.tickLimit ≠ 0#32) (zero : prior.ticks = 0#32) (empty : prior.log = [])
    (boot : kernel image prior command = .ok start)
    (run : Run (Recorded (Step image)) start history state) :
    ReadsBack (logText state.log) (dumpMoments history) ∧
    ∀ keyboard reg stop addr tail, (∀ i, keyboard i = -1) →
      exception image keyboard state reg = .error stop → StopText addr reg stop tail →
      ReadsBack (logText (logAtStop image state reg) ++ tail) (dumpMoments history) := by
  have logged := run_logged limited zero empty boot run
  refine ⟨?_, ?_⟩
  · have read := logged.readsBack (Or.inl rfl)
    rwa [List.append_nil] at read
  · intro keyboard reg stop addr tail quiet stopped written
    rw [logAtStop_eq limited logged.running quiet stopped]
    exact logged.readsBack written.trailer

def limitedImage : KernelImage := { sampleImage with tickLimit := 1000#32 }

theorem limitedImage_boots : ∃ start, kernel limitedImage coldState none = .ok start := by
  refine kernel_ok ⟨?_, sampleImage_programsFit.apart⟩ coldState
  intro entry member
  obtain ⟨magic, inside, unused, apart⟩ := sampleImage_programsFit.fits entry member
  exact ⟨magic, inside, unused, apart⟩

theorem log_read_back_sample : ∃ start trap state,
    kernel limitedImage coldState none = .ok start ∧
    Step limitedImage start (.trap trap) state ∧ trap.reg.regIntno = intTimer ∧
    ReadsBack (logText state.log) [start] := by
  obtain ⟨start, boot⟩ := limitedImage_boots
  have booted := kernel_booted boot
  have zero : start.ticks = 0#32 := (kernel_sameLog boot).ticks
  have below : start.ticks ≠ limitedImage.tickLimit := by
    rw [zero]
    decide
  obtain ⟨state, via, handled, result⟩ := @timer_handled _ _ _ (fun _ => -1)
    (callRegisters intTimer 0#64) booted.inv booted.current booted.runnable (fun _ => rfl)
    below rfl
  obtain ⟨next, entered, _⟩ := result.dispatch
  obtain ⟨trap, step, registers⟩ : ∃ trap, Step limitedImage start (.trap trap) state ∧
      trap.reg = callRegisters intTimer 0#64 :=
    ⟨_, .trap booted.current handled entered, rfl⟩
  have timer : trap.reg.regIntno = intTimer := congrArg Registers.regIntno registers
  have dumps : Dumps start trap.reg := by
    refine ⟨timer, ?_⟩
    rw [zero]
    decide
  have moments : dumpMoments [(start, .trap trap)] = [start] := by
    rw [dumpMoments, List.flatMap_singleton]
    exact if_pos dumps
  have recorded : Recorded (Step limitedImage) start (start, .trap trap) state := ⟨rfl, step⟩
  have read := log_read_back (by decide) rfl rfl boot (.extend .start recorded)
  rw [List.nil_append, moments] at read
  exact ⟨start, trap, state, boot, step, timer, read.1⟩

end OsLabs.Weensy
