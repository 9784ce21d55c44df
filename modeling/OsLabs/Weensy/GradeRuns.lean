import OsLabs.Weensy.GradeChecks

/-!
# Grading a run

`CheckInvariants` and `PerformCheck` of parse_log.py go over the ticks in their order.  A
run dumps at every multiple of `HZ` that it gets past, so that the last tick in the log
tells how far it got.
-/

set_option autoImplicit false

namespace OsLabs.Weensy

open OsLabs.ByteMemory OsLabs.ExceptRules OsLabs.Transition OsLabs.Dictionary OsLabs.Text

/-! ## The functions of MemMapTimeline -/

namespace MemMapTimeline

/-- `sorted(self.mem_data.items())`; no two ticks are the same. -/
def sortedItems (timeline : MemMapTimeline) : List (Int × MemMapInstance) :=
  (timeline.memData.entries.map fun entry => (entry.1, entry.2)).mergeSort
    fun left right => decide (left.1 ≤ right.1)

/-- The loop of `PerformCheck`, with `res` and `tick` so far. -/
def performLoop (check : MemMapInstance → Except CheckError Bool) (startAtTick : Int) :
    List (Int × MemMapInstance) → Nat × Int → Except CheckError (Nat × Int)
  | [], result => .ok result
  | (tick, memMap) :: rest, (res, _) =>
      if tick < startAtTick then performLoop check startAtTick rest (res, tick)
      else do
        if ← check memMap then performLoop check startAtTick rest (1, tick) else .ok (0, tick)

def performCheck (timeline : MemMapTimeline) (check : MemMapInstance → Except CheckError Bool)
    (startAtTick : Int) : Except CheckError (Nat × Int) :=
  performLoop check startAtTick timeline.sortedItems (0, 0)

/-- The functions of `PerformChecks` with their messages. -/
def allFunctions : List ((MemMapInstance → Except CheckError Bool) × String × Int) :=
  [(fun memMap => .ok memMap.isKernelIsolated, "Kernel isolation", 0),
    (fun memMap => .ok memMap.areProcessesIsolated, "Process isolation", 0),
    (MemMapInstance.isVPAUsed, "Virtual page allocation", 500),
    (fun memMap => .ok memMap.areProcessAddressesOverlapping, "Overlapping address spaces", 800),
    (MemMapInstance.isForkOK, "Fork", 800)]

/-- The message, `res` and the tick of every function from `grade_from` up to `up_to`; the
score is the sum of the `res`. -/
def performChecks (timeline : MemMapTimeline) (gradeFrom upTo : Nat) :
    Except CheckError (List (String × Nat × Int)) :=
  ((allFunctions.take upTo).drop gradeFrom).mapM fun (check, message, startAtTick) => do
    let result ← timeline.performCheck check startAtTick
    .ok (message, result)

/-- How `CheckInvariants` leaves the program. -/
inductive Exit where
  | premature (maxTick : Int)
  | notAccessible (tick : Int)
  | noConsole (tick : Int)
  | raised (error : CheckError)
  deriving DecidableEq, Repr

/-- The loop of `CheckInvariants`. -/
def invariantLoop : List (Int × MemMapInstance) → Except Exit Unit
  | [] => .ok ()
  | (tick, memMap) :: rest =>
      if !memMap.checkOwnershipInvariant then .error (.notAccessible tick)
      else
        match memMap.checkCGAAccessInvariant with
        | .error error => .error (.raised error)
        | .ok false => .error (.noConsole tick)
        | .ok true => invariantLoop rest

def checkInvariants (timeline : MemMapTimeline) (expectedMaxTick : Int) : Except Exit Unit :=
  match timeline.memData.keys.max? with
  | none => invariantLoop timeline.sortedItems
  | some maxTick =>
      if timeline.panic = false ∧ expectedMaxTick ≠ maxTick then .error (.premature maxTick)
      else invariantLoop timeline.sortedItems

end MemMapTimeline

/-! ## Over the ticks -/

section Ticks

variable {timeline : MemMapTimeline}

theorem mem_sortedItems {tick : Int} {memMap : MemMapInstance} :
    (tick, memMap) ∈ timeline.sortedItems ↔ timeline.memData.lookup tick = some memMap := by
  have entry : timeline.memData.lookup tick = some memMap ↔
      (⟨tick, memMap⟩ : Sigma fun _ : Int => MemMapInstance) ∈ timeline.memData.entries :=
    AList.mem_lookup_iff
  rw [entry, MemMapTimeline.sortedItems, List.mem_mergeSort, List.mem_map]
  constructor
  · rintro ⟨⟨other, later⟩, member, same⟩
    cases same
    exact member
  · intro member
    exact ⟨⟨tick, memMap⟩, member, rfl⟩

theorem sortedItems_sorted :
    timeline.sortedItems.Pairwise fun left right => left.1 ≤ right.1 := by
  have sorted := @List.pairwise_mergeSort _
    (fun left right : Int × MemMapInstance => decide (left.1 ≤ right.1))
    (fun a b c first second => by
      simp only [decide_eq_true_eq] at *
      omega)
    (fun a b => by
      simp only [Bool.or_eq_true, decide_eq_true_eq]
      omega)
    (timeline.memData.entries.map fun entry => (entry.1, entry.2))
  exact sorted.imp fun order => of_decide_eq_true order

theorem checkInvariants_iff (expectedMaxTick : Int)
    (fine : ∀ tick memMap, timeline.memData.lookup tick = some memMap →
      memMap.checkOwnershipInvariant = true ∧ memMap.checkCGAAccessInvariant = .ok true) :
    timeline.checkInvariants expectedMaxTick = .ok () ↔
      ∀ maxTick, maxTick ∈ timeline.memData → (∀ tick, tick ∈ timeline.memData → tick ≤ maxTick) →
        timeline.panic = true ∨ maxTick = expectedMaxTick := by
  have loop : ∀ items : List (Int × MemMapInstance),
      (∀ item ∈ items, item.2.checkOwnershipInvariant = true ∧
        item.2.checkCGAAccessInvariant = .ok true) →
      MemMapTimeline.invariantLoop items = .ok () := by
    intro items good
    induction items with
    | nil => rfl
    | cons item rest ih =>
        obtain ⟨own, console⟩ := good item List.mem_cons_self
        rw [MemMapTimeline.invariantLoop, own, console]
        exact ih fun other member => good other (List.mem_cons_of_mem _ member)
  have passes := loop timeline.sortedItems fun item member =>
    fine item.1 item.2 (mem_sortedItems.mp member)
  rw [MemMapTimeline.checkInvariants]
  cases largest : timeline.memData.keys.max? with
  | none =>
      have empty : timeline.memData.keys = [] := List.max?_eq_none_iff.mp largest
      simp only [passes, true_iff]
      intro maxTick member
      rw [AList.mem_keys, empty] at member
      cases member
  | some last =>
      obtain ⟨present, above⟩ := List.max?_eq_some_iff.mp largest
      simp only
      constructor
      · intro accepted maxTick member bound
        have same : maxTick = last :=
          le_antisymm (above maxTick (AList.mem_keys.mp member))
            (bound last (AList.mem_keys.mpr present))
        split at accepted
        · cases accepted
        · next kept =>
            rw [same]
            by_cases panic : timeline.panic = true
            · exact Or.inl panic
            · rw [Bool.not_eq_true] at panic
              exact Or.inr (not_not.mp fun other => kept ⟨panic, Ne.symm other⟩)
      · intro allowed
        rw [if_neg]
        · exact passes
        · rintro ⟨panic, other⟩
          rcases allowed last (AList.mem_keys.mpr present)
            (fun tick member => above tick (AList.mem_keys.mp member)) with turned | same
          · rw [turned] at panic
            cases panic
          · exact other same.symm

theorem performCheck_first {check : MemMapInstance → Except CheckError Bool} {first start : Int}
    {memMap : MemMapInstance} (there : timeline.memData.lookup first = some memMap)
    (least : ∀ tick, tick ∈ timeline.memData → first ≤ tick) (early : start ≤ first)
    (fails : check memMap = .ok false) :
    timeline.performCheck check start = .ok (0, first) := by
  have member := mem_sortedItems.mpr there
  have sorted := @sortedItems_sorted timeline
  have ticks : ∀ item ∈ timeline.sortedItems, first ≤ item.1 := by
    intro item inside
    apply least
    rw [← AList.lookup_isSome, mem_sortedItems.mp inside]
    rfl
  rw [MemMapTimeline.performCheck]
  cases items : timeline.sortedItems with
  | nil =>
      rw [items] at member
      cases member
  | cons head rest =>
      rw [items] at member sorted ticks
      have same : head = (first, memMap) := by
        rcases List.mem_cons.mp member with equal | later
        · exact equal.symm
        · have order := (List.pairwise_cons.mp sorted).1 _ later
          have low := ticks head List.mem_cons_self
          have tick : head.1 = first := le_antisymm order low
          have found := mem_sortedItems.mp (show (head.1, head.2) ∈ timeline.sortedItems by
            rw [items]
            exact List.mem_cons_self)
          rw [tick, there] at found
          exact Prod.ext tick (Option.some.inj found).symm
      rw [same, MemMapTimeline.performLoop, if_neg (not_lt.mpr early), fails]
      rfl

end Ticks

/-! ## The panic line -/

theorem Trailer.single {tail : List Char} (trailer : Trailer tail) (some_text : tail ≠ []) :
    lines '\n' tail = [tail] ∧ "PANIC".toList <+: tail := by
  rcases trailer with empty | ⟨body, rfl | rfl, clean, label⟩
  · exact absurd empty some_text
  · exact ⟨lines_last clean.1 some_text, label⟩
  · exact ⟨lines_cons clean.1 [], label.trans (List.prefix_append body ['\n'])⟩

/-- The reader notes a panic for the one exception that it allows for. -/
theorem memMapTimeline_panic {dumps : List Dump} (distinct : (dumps.map Dump.tick).Nodup)
    {tail : List Char} (trailer : Trailer tail) :
    memMapTimeline (logText (dumps.flatMap Dump.lines) ++ tail) =
      .ok ⟨recovered dumps, panicPrefix.isPrefixOf tail⟩ := by
  have fresh : ∀ dump ∈ dumps, dump.tick ∉ emptyTimeline.memData :=
    fun dump _ => AList.notMem_empty _
  rw [memMapTimeline, readlines_logText _ trailer.no_return, List.foldlM_append,
    read_dumps distinct fresh, ok_bind]
  by_cases nothing : tail = []
  · rw [nothing]
    rfl
  · obtain ⟨single, rest, rfl⟩ := trailer.single nothing
    have notPm : ¬ pmPrefix.isPrefixOf ("PANIC".toList ++ rest) = true := Bool.false_ne_true
    have notVm : ¬ vmPrefix.isPrefixOf ("PANIC".toList ++ rest) = true := Bool.false_ne_true
    rw [single, List.foldlM_cons, readLine, if_neg notPm, if_neg notVm]
    cases panicPrefix.isPrefixOf ("PANIC".toList ++ rest) with
    | true => rfl
    | false => rfl

theorem takeWhile_mark {front : List Char} {c : Char} (bare : c ∉ front) (rest : List Char) :
    (front ++ c :: rest).takeWhile (· ≠ c) = front := by
  induction front with
  | nil => simp
  | cons first front ih =>
      rw [List.mem_cons, not_or] at bare
      rw [List.cons_append, List.takeWhile_cons_of_pos (by simpa using Ne.symm bare.1),
        ih bare.2]

theorem intNumeral_fiftyTwo (x : Int) (rest : List Char) :
    "52!".toList.isPrefixOf (intNumeral x ++ '!' :: rest) = true ↔ x = 52 := by
  have mark : ∀ n, '!' ∉ Nat.toDigits 10 n := not_mem_decimal rfl
  constructor
  · intro label
    obtain ⟨later, whole⟩ := List.isPrefixOf_iff_prefix.mp label
    have bare : '!' ∉ intNumeral x := by
      rw [intNumeral]
      split
      · intro member
        rcases List.mem_cons.mp member with sign | digit
        · exact absurd sign (by decide)
        · exact mark _ digit
      · exact mark _
    have text : "52!".toList ++ later = ['5', '2'] ++ '!' :: later := rfl
    rw [text] at whole
    have digits := congrArg (List.takeWhile (· ≠ '!')) whole
    rw [takeWhile_mark (by decide), takeWhile_mark bare, intNumeral] at digits
    split at digits
    · exact absurd (List.cons.inj digits).1 (by decide)
    · have value := congrArg decimalValue digits
      rw [decimalValue_toDigits] at value
      have number : x.natAbs = 52 := (Option.some.inj value).symm
      omega
  · rintro rfl
    rfl

theorem StopText.panic {addr : UIntPtr} {reg : Registers} {stop : Stop} {tail : List Char}
    (written : StopText addr reg stop tail) (proper : ∀ which, stop ≠ .assertion which) :
    panicPrefix.isPrefixOf tail = true ↔
      stop = .unexpectedException reg.regIntno ∧ (reg.regIntno.setWidth 32).toInt = 52 := by
  have label : logPrintf "PANIC: " [] = "PANIC: ".toList := by decide
  cases written with
  | poweroff =>
      refine iff_of_false (by decide) ?_
      rintro ⟨impossible, _⟩
      cases impossible
  | assertion which => exact absurd rfl (proper which)
  | sysPanic =>
      refine iff_of_false (by decide) ?_
      rintro ⟨impossible, _⟩
      cases impossible
  | kernelPageFault =>
      rw [panicText, label, log_kernelPageFault]
      refine iff_of_false Bool.false_ne_true ?_
      rintro ⟨impossible, _⟩
      cases impossible
  | unexpected =>
      have front : panicPrefix =
          "PANIC: ".toList ++ ("Unexpected exception ".toList ++ "52!".toList) := by decide
      have text : panicText "Unexpected exception %d!\n" [.word reg.regIntno] =
          "PANIC: ".toList ++ ("Unexpected exception ".toList ++
            (intNumeral (reg.regIntno.setWidth 32).toInt ++ '!' :: ['\n'])) := by
        rw [panicText, label, log_unexpectedException]
        simp only [List.append_assoc]
        rfl
      rw [text, front, List.isPrefixOf_iff_prefix, List.prefix_append_right_inj,
        List.prefix_append_right_inj, ← List.isPrefixOf_iff_prefix, intNumeral_fiftyTwo]
      simp

/-! ## The ticks of a run -/

/-- Every multiple of `HZ` that the run got past has its dump. -/
def Complete (history : List (KernelState × Event)) (state : KernelState) : Prop :=
  ∀ tick < state.ticks.toNat, tick % 100 = 0 →
    ∃ moment ∈ dumpMoments history, moment.ticks.toNat = tick

section Runs

variable {image : KernelImage} {before after : KernelState}
  {history : List (KernelState × Event)}

theorem Complete.extend (complete : Complete history before) (label : KernelState × Event)
    (here : ∀ tick < after.ticks.toNat, tick % 100 = 0 → tick < before.ticks.toNat ∨
      ∃ moment ∈ dumpMoment label, moment.ticks.toNat = tick) :
    Complete (history ++ [label]) after := by
  intro tick below hundred
  rw [dumpMoments_extend]
  rcases here tick below hundred with earlier | ⟨moment, member, same⟩
  · obtain ⟨moment, member, same⟩ := complete tick earlier hundred
    exact ⟨moment, List.mem_append_left _ member, same⟩
  · exact ⟨moment, List.mem_append_right _ member, same⟩

theorem Complete.step (limited : image.tickLimit ≠ 0#32) (logged : Logged image history before)
    (complete : Complete history before) {label : KernelState × Event}
    (step : Recorded (Step image) before label after) :
    Complete (history ++ [label]) after := by
  obtain ⟨start, event⟩ := label
  obtain ⟨same, step⟩ := step
  simp only at same step
  subst same
  cases event with
  | compute =>
      cases step with
      | compute kept => exact complete.extend _ fun tick below _ => Or.inl below
  | trap trap =>
      cases step with
      | @trap _ keyboard reg via pid next current taken entered =>
          obtain ⟨unreached, _, ticks⟩ := exception_log limited taken
          have limit := logged.limit
          have different : start.ticks.toNat ≠ image.tickLimit.toNat :=
            fun equal => unreached (BitVec.eq_of_toNat_eq equal)
          have small := image.tickLimit.isLt
          apply complete.extend
          intro tick below hundred
          by_cases timer : reg.regIntno = intTimer
          · rw [if_pos timer] at ticks
            have counted : after.ticks.toNat = start.ticks.toNat + 1 := by
              rw [ticks, BitVec.toNat_add]
              have one : (1#32).toNat = 1 := rfl
              omega
            by_cases now : tick = start.ticks.toNat
            · right
              have dumps : Dumps start reg := by
                refine ⟨timer, ?_⟩
                rw [← BitVec.toNat_inj, BitVec.toNat_umod, ← now]
                exact hundred
              exact ⟨start, by rw [dumpMoment, if_pos dumps]; exact List.mem_singleton_self _,
                now.symm⟩
            · left
              omega
          · rw [if_neg timer] at ticks
            rw [ticks] at below
            exact Or.inl below

theorem dumpMoment_hundred {label : KernelState × Event} {moment : KernelState}
    (member : moment ∈ dumpMoment label) : moment.ticks.toNat % 100 = 0 := by
  obtain ⟨start, event⟩ := label
  cases event with
  | compute => cases member
  | trap trap =>
      rw [dumpMoment] at member
      split at member
      · next dumps =>
          rw [List.mem_singleton.mp member]
          have multiple := dumps.2
          rw [← BitVec.toNat_inj, BitVec.toNat_umod] at multiple
          exact multiple
      · cases member

theorem dumpMoments_hundred {moment : KernelState} (member : moment ∈ dumpMoments history) :
    moment.ticks.toNat % 100 = 0 := by
  obtain ⟨label, _, inside⟩ := List.mem_flatMap.mp member
  exact dumpMoment_hundred inside

theorem run_complete {prior start state : KernelState} {command : Option String}
    (limited : image.tickLimit ≠ 0#32) (zero : prior.ticks = 0#32) (empty : prior.log = [])
    (boot : kernel image prior command = .ok start)
    (run : Run (Recorded (Step image)) start history state) :
    Logged image history state ∧ Complete history state := by
  have begun := run_logged limited zero empty boot .start
  refine run.history (fun seen state => Logged image seen state ∧ Complete seen state)
    ⟨begun, ?_⟩ fun seen state label next here step =>
      ⟨here.1.step limited step, here.2.step limited here.1 step⟩
  intro tick below _
  rw [(kernel_sameLog boot).ticks, zero] at below
  cases below

end Runs

/-! ## This kernel -/

section Kernel

variable {image : KernelImage} {state : KernelState} {pid : Pid}

theorem KernelInv.ownersInRange (inv : KernelInv image state) : OwnersInRange state :=
  fun page => inv.pageinfo.owner_range page

/-- All processes share the table that maps every physical page to itself. -/
theorem KernelInv.reaches (inv : KernelInv image state) (active : Active state pid) {i : Nat}
    (inside : i < nPages) : Reaches state pid i ⟨i, inside⟩ 7#32 := by
  have pages : nPages = 512 := rfl
  have limit : memsizePhysical.toNat = 0x200000 := rfl
  have place : (BitVec.ofNat 64 (4096 * i)).toNat = 4096 * i := by
    rw [BitVec.toNat_ofNat]
    omega
  have mapped := inv.tables.lookup_pa
    (show (BitVec.ofNat 64 (4096 * i)).toNat < memsizePhysical.toNat by omega)
  rw [place, Nat.mul_div_cancel_left i (by omega)] at mapped
  rw [Reaches, inv.shared pid active, mapped]
  exact ⟨rfl, rfl⟩

theorem KernelInv.consoleUsable (inv : KernelInv image state) : ConsoleUsable state := by
  intro pid active
  have pages : nPages = 512 := rfl
  exact ⟨_, 7#32, inv.reaches active (by omega), by decide⟩

theorem KernelInv.ownPagesUsable (inv : KernelInv image state) : OwnPagesUsable state := by
  rintro pid active i _ upper page perm ⟨number, rfl⟩ _ _
  have member : BitVec.ofNat 64 (4096 * i) ∈ pagesBelow 0 memsizeVirtual.toNat := by
    rw [pagesBelow, List.mem_map]
    refine ⟨i, ?_, by rw [Nat.zero_add]⟩
    rw [List.mem_range]
    exact upper
  rw [inv.shared pid active] at number ⊢
  rcases lookup_displayed inv.tables member with unmapped | ⟨_, _, mapped, _⟩
  · omega
  · rw [mapped]
    show 7#32 &&& 4#32 ≠ 0#32
    decide

theorem KernelInv.not_isolated (inv : KernelInv image state) (active : Active state pid) :
    ¬ KernelIsolated state := by
  intro isolated
  have pages : nPages = 512 := rfl
  exact isolated pid active 0 (by omega) (by omega) _
    ⟨7#32, inv.reaches active (by omega), by decide⟩

theorem Running.stops (running : Running image state) {keyboard : Nat → Int} {reg : Registers}
    {stop : Stop} (stopped : exception image keyboard state reg = .error stop) :
    ∃ pid, state.current = some pid ∧ Ended image keyboard state pid reg stop := by
  obtain ⟨pid, current, runnable⟩ := running.entered
  refine ⟨pid, current, ?_⟩
  rcases exception_cases keyboard running.inv current runnable reg with
    ⟨other, also, ended⟩ | ⟨_, _, returned, _⟩
  · rw [stopped] at also
    cases also
    exact ended
  · rw [stopped] at returned
    cases returned

/-- The instances of the reader are those of the states that dumped. -/
structure Timeline (history : List (KernelState × Event)) (timeline : MemMapTimeline) : Prop where
  moment : ∀ {tick memMap}, timeline.memData.lookup tick = some memMap →
    ∃ moment ∈ dumpMoments history, tick = moment.ticks.toNat ∧
      memMap = (stateDump moment).memMap
  present : ∀ {moment}, moment ∈ dumpMoments history →
    timeline.memData.lookup (moment.ticks.toNat : Int) = some (stateDump moment).memMap

theorem Logged.timeline {history : List (KernelState × Event)}
    (logged : Logged image history state) {tail : List Char} (trailer : Trailer tail) :
    ∃ timeline, memMapTimeline (logText state.log ++ tail) = .ok timeline ∧
      Timeline history timeline ∧ timeline.panic = panicPrefix.isPrefixOf tail := by
  have distinct : (((dumpMoments history).map stateDump).map Dump.tick).Nodup := by
    have ticks : ((dumpMoments history).map stateDump).map Dump.tick =
        ((dumpMoments history).map fun moment => moment.ticks.toNat).map
          (fun tick : Nat => (tick : Int)) := by
      rw [List.map_map, List.map_map]
      rfl
    rw [ticks]
    exact logged.once.map fun _ _ same => Int.ofNat.inj same
  rw [logged.log]
  have present : ∀ {moment}, moment ∈ dumpMoments history →
      (recovered ((dumpMoments history).map stateDump)).lookup (moment.ticks.toNat : Int) =
        some (stateDump moment).memMap :=
    fun member => lookup_insertAll distinct (List.mem_map_of_mem member) ∅
  refine ⟨_, memMapTimeline_panic distinct trailer, ⟨?_, present⟩, rfl⟩
  intro tick memMap found
  have member : tick ∈ recovered ((dumpMoments history).map stateDump) := by
    rw [← AList.lookup_isSome, found]
    rfl
  rcases mem_insertAll.mp member with old | ⟨dump, dumped, same⟩
  · exact absurd old (AList.notMem_empty tick)
  · obtain ⟨moment, here, rfl⟩ := List.mem_map.mp dumped
    refine ⟨moment, here, same.symm, ?_⟩
    rw [← same] at found
    exact Option.some.inj (found.symm.trans (present here))

theorem Timeline.mem_moment {history : List (KernelState × Event)} {timeline : MemMapTimeline}
    (instances : Timeline history timeline) {tick : Int} (member : tick ∈ timeline.memData) :
    ∃ moment ∈ dumpMoments history, tick = moment.ticks.toNat := by
  obtain ⟨memMap, found⟩ := Option.isSome_iff_exists.mp (AList.lookup_isSome.mpr member)
  obtain ⟨moment, here, same, _⟩ := instances.moment found
  exact ⟨moment, here, same⟩

theorem Timeline.mem_tick {history : List (KernelState × Event)} {timeline : MemMapTimeline}
    (instances : Timeline history timeline) {moment : KernelState}
    (member : moment ∈ dumpMoments history) :
    (moment.ticks.toNat : Int) ∈ timeline.memData := by
  rw [← AList.lookup_isSome, instances.present member]
  rfl

/-- The dumps stand at the multiples of `HZ` below the ticks of the state, so the last one
tells whether tick 900 has passed. -/
theorem Logged.length_accepted {history : List (KernelState × Event)} {timeline : MemMapTimeline}
    (logged : Logged image history state) (complete : Complete history state)
    (instances : Timeline history timeline) (limit : image.tickLimit = 1000#32) :
    (∀ maxTick, maxTick ∈ timeline.memData →
        (∀ tick, tick ∈ timeline.memData → tick ≤ maxTick) →
        timeline.panic = true ∨ maxTick = 900) ↔
      state.ticks.toNat = 0 ∨ 900 < state.ticks.toNat ∨ timeline.panic = true := by
  have below : ∀ moment ∈ dumpMoments history,
      moment.ticks.toNat < state.ticks.toNat ∧ moment.ticks.toNat % 100 = 0 :=
    fun moment member => ⟨(logged.moments moment member).2, dumpMoments_hundred member⟩
  have bound : state.ticks.toNat ≤ 1000 := by
    have whole := logged.limit
    rw [limit] at whole
    exact whole
  constructor
  · intro accepted
    by_cases dumped : state.ticks.toNat = 0
    · exact Or.inl dumped
    · right
      obtain ⟨last, member, tick⟩ := complete (state.ticks.toNat - 1 -
        (state.ticks.toNat - 1) % 100) (by omega) (by omega)
      have largest : ∀ other, other ∈ timeline.memData → other ≤ last.ticks.toNat := by
        intro other inside
        obtain ⟨moment, here, rfl⟩ := instances.mem_moment inside
        have facts := below moment here
        omega
      rcases accepted _ (instances.mem_tick member) largest with turned | same
      · exact Or.inr turned
      · left
        have nine : last.ticks.toNat = 900 := by exact_mod_cast same
        omega
  · rintro allowed maxTick member largest
    obtain ⟨moment, here, rfl⟩ := instances.mem_moment member
    have facts := below moment here
    rcases allowed with none | far | turned
    · omega
    · right
      obtain ⟨last, inside, tick⟩ := complete 900 far (by omega)
      have order := largest _ (instances.mem_tick inside)
      omega
    · exact Or.inl turned

theorem Logged.instances_fine {history : List (KernelState × Event)} {timeline : MemMapTimeline}
    (logged : Logged image history state) (instances : Timeline history timeline) (tick : Int)
    (memMap : MemMapInstance) (found : timeline.memData.lookup tick = some memMap) :
    memMap.checkOwnershipInvariant = true ∧ memMap.checkCGAAccessInvariant = .ok true := by
  obtain ⟨moment, member, _, rfl⟩ := instances.moment found
  have inv := (logged.moments moment member).1.inv
  obtain ⟨usable, checked, meaning⟩ := inv.recovered.consoleUsable
  rw [meaning.mpr inv.consoleUsable] at checked
  exact ⟨(inv.recovered.ownPagesUsable inv.ownersInRange).mpr inv.ownPagesUsable, checked⟩

/-- The first dump, at tick 0, already shows the pages of the kernel open to a process. -/
theorem Logged.isolation_fails {history : List (KernelState × Event)} {timeline : MemMapTimeline}
    (logged : Logged image history state) (complete : Complete history state)
    (instances : Timeline history timeline) :
    timeline.performCheck (fun memMap => .ok memMap.isKernelIsolated) 0 = .ok (0, 0) := by
  by_cases dumped : state.ticks.toNat = 0
  · have nothing : timeline.sortedItems = [] := by
      rw [List.eq_nil_iff_forall_not_mem]
      rintro ⟨tick, memMap⟩ member
      obtain ⟨moment, here, _⟩ := instances.moment (mem_sortedItems.mp member)
      have earlier := (logged.moments moment here).2
      omega
    rw [MemMapTimeline.performCheck, nothing]
    rfl
  · obtain ⟨first, member, tick⟩ := complete 0 (by omega) rfl
    have found := instances.present member
    have inv := (logged.moments first member).1.inv
    obtain ⟨other, _, runnable⟩ := (logged.moments first member).1.entered
    have open_kernel : (stateDump first).memMap.isKernelIsolated = false := by
      rw [← Bool.not_eq_true, inv.recovered.kernelIsolated]
      exact inv.not_isolated runnable.active
    rw [tick] at found
    apply performCheck_first found
    · intro later inside
      obtain ⟨moment, _, rfl⟩ := instances.mem_moment inside
      omega
    · exact le_refl _
    · rw [open_kernel]

/-- The log of a run under the grader.  Its length is accepted when the run got beyond tick
900, nothing was logged or the stop was the panic of a missing system call; the other
invariants hold; and the processes can use the pages of the kernel from the first dump on. -/
theorem log_graded {prior start : KernelState} {command : Option String}
    {history : List (KernelState × Event)} {keyboard : Nat → Int} {reg : Registers} {stop : Stop}
    {addr : UIntPtr} {tail : List Char} (limit : image.tickLimit = 1000#32)
    (zero : prior.ticks = 0#32) (empty : prior.log = [])
    (boot : kernel image prior command = .ok start)
    (run : Run (Recorded (Step image)) start history state) (quiet : ∀ i, keyboard i = -1)
    (stopped : exception image keyboard state reg = .error stop)
    (written : StopText addr reg stop tail) :
    ∃ timeline, memMapTimeline (logText (logAtStop image state reg) ++ tail) = .ok timeline ∧
      (timeline.checkInvariants 900 = .ok () ↔
        state.ticks.toNat = 0 ∨ 900 < state.ticks.toNat ∨
          stop = .unexpectedException reg.regIntno ∧ (reg.regIntno.setWidth 32).toInt = 52) ∧
      timeline.performChecks 0 1 = .ok [("Kernel isolation", 0, 0)] := by
  have limited : image.tickLimit ≠ 0#32 := by
    rw [limit]
    decide
  obtain ⟨logged, complete⟩ := run_complete limited zero empty boot run
  obtain ⟨pid, _, ended⟩ := logged.running.stops stopped
  obtain ⟨timeline, read, instances, panic⟩ := logged.timeline written.trailer
  have proper : ∀ which, stop ≠ .assertion which := by
    rintro which rfl
    exact ended.orderly
  rw [logAtStop_eq limited logged.running quiet stopped]
  refine ⟨timeline, read, ?_, ?_⟩
  · rw [checkInvariants_iff 900 (logged.instances_fine instances),
      logged.length_accepted complete instances limit, panic, written.panic proper]
  · show ([_] : List _).mapM _ = _
    simp only [List.mapM_cons, List.mapM_nil, logged.isolation_fails complete instances]
    rfl

theorem sysPanic_stops {keyboard : Nat → Int} {reg : Registers} (running : Running image state)
    (quiet : ∀ i, keyboard i = -1) (below : state.ticks ≠ image.tickLimit)
    (panics : reg.regIntno = intSysPanic) :
    exception image keyboard state reg = .error .sysPanic := by
  obtain ⟨pid, current, runnable⟩ := running.entered
  rcases exception_cases keyboard running.inv current runnable reg with
    ⟨stop, stopped, ended⟩ | ⟨after, via, returned, _⟩
  · cases ended with
    | tickLimit _ reached => exact absurd reached below
    | key i pressed =>
        rw [quiet i] at pressed
        cases pressed
    | panic _ => exact stopped
    | kernelFault intno _ => exact absurd (panics.symm.trans intno) (by decide)
    | unexpected other => exact absurd (by rw [panics]; exact List.mem_cons_self) other
    | idle intno _ => exact absurd (panics.symm.trans intno) (by decide)
  · rw [exception, current] at returned
    obtain ⟨_, _, returned⟩ := bind_eq_ok.mp returned
    obtain ⟨_, _, returned⟩ := bind_eq_ok.mp returned
    obtain ⟨_, _, returned⟩ := bind_eq_ok.mp returned
    rw [exceptionSwitch, if_pos panics] at returned
    cases returned

/-- A process panics after one tick, which is too early for the grader. -/
theorem log_graded_sample : ∃ start trap state timeline,
    kernel limitedImage coldState none = .ok start ∧
    Step limitedImage start (.trap trap) state ∧
    exception limitedImage (fun _ => -1) state (callRegisters intSysPanic 0#64) =
      .error .sysPanic ∧
    memMapTimeline (logText (logAtStop limitedImage state (callRegisters intSysPanic 0#64)) ++
      logPrintf "PANIC" []) = .ok timeline ∧
    timeline.checkInvariants 900 ≠ .ok () ∧
    timeline.performChecks 0 1 = .ok [("Kernel isolation", 0, 0)] := by
  obtain ⟨start, boot⟩ := limitedImage_boots
  have booted := kernel_booted boot
  have zero : start.ticks = 0#32 := (kernel_sameLog boot).ticks
  have below : start.ticks ≠ limitedImage.tickLimit := by
    rw [zero]
    decide
  obtain ⟨state, via, handled, result⟩ := @timer_handled _ _ _ (fun _ => -1)
    (callRegisters intTimer 0#64) booted.inv booted.current booted.runnable (fun _ => rfl)
    below rfl
  obtain ⟨next, entered, _⟩ := result.dispatch
  obtain ⟨trap, step, registers⟩ : ∃ trap, Step limitedImage start (.trap trap) state ∧
      trap.reg = callRegisters intTimer 0#64 :=
    ⟨_, .trap booted.current handled entered, rfl⟩
  have recorded : Recorded (Step limitedImage) start (start, .trap trap) state := ⟨rfl, step⟩
  have run : Run (Recorded (Step limitedImage)) start [(start, .trap trap)] state :=
    .extend .start recorded
  have ticks : state.ticks = 1#32 := by
    have timer : (callRegisters intTimer 0#64).regIntno = intTimer := rfl
    rw [(exception_log (by decide) handled).2.2, if_pos timer, zero]
    rfl
  have running := step.running booted.running
  have stopped := @sysPanic_stops _ _ (fun _ => -1) (callRegisters intSysPanic 0#64) running
    (fun _ => rfl) (by rw [ticks]; decide) rfl
  obtain ⟨timeline, read, accepted, graded⟩ := @log_graded limitedImage state coldState start none
    [(start, .trap trap)] (fun _ => -1) (callRegisters intSysPanic 0#64) .sysPanic 0#64
    (logPrintf "PANIC" []) rfl rfl rfl boot run (fun _ => rfl) stopped .sysPanic
  refine ⟨start, trap, state, timeline, boot, step, stopped, read, ?_, graded⟩
  rw [Ne, accepted, ticks]
  rintro (none | far | ⟨other, _⟩)
  · exact absurd none (by decide)
  · exact absurd far (by decide)
  · cases other

/-- The checks on the dump of the first state. -/
theorem checks_mean_sample : ∃ start,
    kernel limitedImage coldState none = .ok start ∧
    (stateDump start).memMap.isKernelIsolated = false ∧
    (stateDump start).memMap.checkOwnershipInvariant = true ∧
    (stateDump start).memMap.checkCGAAccessInvariant = .ok true := by
  obtain ⟨start, boot⟩ := limitedImage_boots
  have booted := kernel_booted boot
  have inv := booted.inv
  obtain ⟨kernel, _, _, _, _, own, usable, console, meaning⟩ :=
    checks_mean inv.recovered inv.ownersInRange
  refine ⟨start, boot, ?_, own.mpr inv.ownPagesUsable, ?_⟩
  · rw [← Bool.not_eq_true, kernel]
    exact inv.not_isolated (Runnable.active booted.runnable)
  · rw [console, meaning.mpr inv.consoleUsable]

end Kernel

end OsLabs.Weensy
