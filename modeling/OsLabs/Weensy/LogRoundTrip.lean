import OsLabs.Lib.Dictionary
import OsLabs.Weensy.LogText
import OsLabs.Weensy.ParseLog

/-!
# Reading a dump back

A `Dump` is what one timer interrupt writes: a `PM_DUMP` line and a `VM_DUMP` line for
each of some processes.  The reader gets back the numbers of each line, and the dictionary
that a list of dumps with ticks of their own fills.
-/

set_option autoImplicit false

namespace OsLabs.Weensy

open OsLabs.ExceptRules OsLabs.Text OsLabs.Dictionary

/-! ## Plain words -/

def PlainWord (word : List Char) : Prop :=
  word ≠ [] ∧ ∀ c ∈ word, c ≠ ' ' ∧ c ≠ '\n' ∧ c ≠ '\r'

theorem numeral_plain (n : Nat) : PlainWord (numeral n) := by
  refine ⟨Nat.toDigits_ne_nil, ?_⟩
  intro c member
  have digit := isDigit_of_mem_decimal member
  refine ⟨?_, ?_, ?_⟩
  all_goals
    intro same
    rw [same] at digit
    exact absurd digit (by decide)

theorem words_plain {items : List (List Char)} (plain : ∀ word ∈ items, PlainWord word)
    (rest : List Char) : words ' ' (spaced items ++ rest) = items ++ words ' ' rest :=
  words_written (fun word member => (plain word member).1)
    (fun word member space => ((plain word member).2 ' ' space).1 rfl) rest

theorem NoLineEnd.append {front back : List Char} (left : NoLineEnd front)
    (right : NoLineEnd back) : NoLineEnd (front ++ back) := by
  constructor
  · intro member
    exact (List.mem_append.mp member).elim left.1 right.1
  · intro member
    exact (List.mem_append.mp member).elim left.2 right.2

theorem NoLineEnd.spaced {items : List (List Char)}
    (plain : ∀ word ∈ items, PlainWord word) : NoLineEnd (spaced items) := by
  have letters : ∀ c ∈ OsLabs.Weensy.spaced items, c ≠ '\n' ∧ c ≠ '\r' := by
    intro c member
    obtain ⟨word, inside, here⟩ := List.mem_flatMap.mp member
    rcases List.mem_append.mp here with letter | space
    · exact ((plain word inside).2 c letter).2
    · rw [List.mem_singleton] at space
      rw [space]
      decide
  exact ⟨fun member => (letters _ member).1 rfl, fun member => (letters _ member).2 rfl⟩

/-! ## Lines -/

def LogLine.body : LogLine → List Char
  | .pmDump ticks pages => spaced (pmWords ticks pages)
  | .vmDump pid ticks entries =>
      spaced ["VM_DUMP".toList, numeral pid.val] ++ ' ' :: spaced (vmWords ticks entries)

theorem LogLine.text_eq (line : LogLine) : line.text = line.body ++ ['\n'] := by
  cases line with
  | pmDump ticks pages => exact text_pmDump ticks pages
  | vmDump pid ticks entries => exact text_vmDump pid ticks entries

theorem pmWords_plain (ticks : BitVec 32) (pages : List (BitVec 8 × BitVec 32)) :
    ∀ word ∈ pmWords ticks pages, PlainWord word := by
  intro word member
  simp only [pmWords, List.mem_append, List.mem_cons, List.not_mem_nil, or_false,
    List.mem_flatMap] at member
  rcases member with (rfl | rfl) | ⟨page, _, rfl | rfl⟩
  · exact ⟨by simp, by simp⟩
  all_goals exact numeral_plain _

theorem vmWords_plain (ticks : BitVec 32)
    (entries : List (BitVec 8 × BitVec 8 × BitVec 32)) :
    ∀ word ∈ vmWords ticks entries, PlainWord word := by
  intro word member
  simp only [vmWords, List.mem_cons, List.not_mem_nil, or_false, List.mem_flatMap] at member
  rcases member with rfl | ⟨entry, _, rfl | rfl | rfl⟩
  all_goals exact numeral_plain _

theorem vmHeader_plain (pid : Pid) :
    ∀ word ∈ ["VM_DUMP".toList, numeral pid.val], PlainWord word := by
  intro word member
  simp only [List.mem_cons, List.not_mem_nil, or_false] at member
  rcases member with rfl | rfl
  · exact ⟨by simp, by simp⟩
  · exact numeral_plain _

theorem LogLine.body_noLineEnd (line : LogLine) : NoLineEnd line.body := by
  cases line with
  | pmDump ticks pages => exact NoLineEnd.spaced (pmWords_plain ticks pages)
  | vmDump pid ticks entries =>
      have space : NoLineEnd [' '] := ⟨by decide, by decide⟩
      exact (NoLineEnd.spaced (vmHeader_plain pid)).append
        (space.append (NoLineEnd.spaced (vmWords_plain ticks entries)))

theorem words_newline : words ' ' ['\n'] = [['\n']] := by decide

theorem words_pmDump (ticks : BitVec 32) (pages : List (BitVec 8 × BitVec 32)) :
    words ' ' (LogLine.pmDump ticks pages).text = pmWords ticks pages ++ [['\n']] := by
  rw [text_pmDump, words_plain (pmWords_plain ticks pages), words_newline]

theorem words_vmDump (pid : Pid) (ticks : BitVec 32)
    (entries : List (BitVec 8 × BitVec 8 × BitVec 32)) :
    words ' ' (LogLine.vmDump pid ticks entries).text =
      ["VM_DUMP".toList, numeral pid.val] ++ vmWords ticks entries ++ [['\n']] := by
  rw [text_vmDump, List.append_assoc, List.cons_append, words_plain (vmHeader_plain pid),
    words_separator, words_plain (vmWords_plain ticks entries), words_newline,
    List.append_assoc]

/-! ## The numbers of a line -/

/-- What the reader makes of a page of a `PM_DUMP` line. -/
def pmEntryOf (page : BitVec 8 × BitVec 32) : PMEntry :=
  ⟨page.1.toNat, page.2.toNat⟩

/-- What the reader makes of a page of a `VM_DUMP` line. -/
def vmEntryOf (entry : BitVec 8 × BitVec 8 × BitVec 32) : VMEntry :=
  ⟨entry.1.toNat, entry.2.1.toNat, Int.land entry.2.2.toNat parsePteU, entry.2.2.toNat⟩

theorem int_numeral (n : Nat) : int (numeral n) = .ok (n : Int) := int_toDigits n

theorem pmEntry_page (ticks : BitVec 32) (pages : List (BitVec 8 × BitVec 32)) (i : Nat)
    (bound : i < pages.length) :
    pmEntry (pmWords ticks pages ++ [['\n']]) i = .ok (pmEntryOf (pages.get ⟨i, bound⟩)) := by
  have group := @group_at _ _ pages
    (fun page => [numeral page.1.toNat, numeral page.2.toNat]) 2 (fun _ => rfl) [['\n']] i
    bound
  have start : (pmWords ticks pages ++ [['\n']]).drop (2 * i + 2) =
      (pages.flatMap (fun page => [numeral page.1.toNat, numeral page.2.toNat]) ++
        [['\n']]).drop (2 * i) := rfl
  rw [pmEntry, start, group]
  simp only [int_numeral, ok_bind]
  rfl

theorem vmEntry_page (pid : Pid) (ticks : BitVec 32)
    (entries : List (BitVec 8 × BitVec 8 × BitVec 32)) (i : Nat)
    (bound : i < entries.length) :
    vmEntry (["VM_DUMP".toList, numeral pid.val] ++ vmWords ticks entries ++ [['\n']]) i =
      .ok (vmEntryOf (entries.get ⟨i, bound⟩)) := by
  have group := @group_at _ _ entries (fun entry => [numeral entry.1.toNat,
    numeral entry.2.1.toNat, numeral entry.2.2.toNat]) 3 (fun _ => rfl) [['\n']] i bound
  have start : (["VM_DUMP".toList, numeral pid.val] ++ vmWords ticks entries ++
      [['\n']]).drop (3 * i + 3) =
      (entries.flatMap (fun entry => [numeral entry.1.toNat, numeral entry.2.1.toNat,
        numeral entry.2.2.toNat]) ++ [['\n']]).drop (3 * i) := rfl
  rw [vmEntry, start, group]
  simp only [int_numeral, ok_bind]
  rfl

theorem pmWords_length (ticks : BitVec 32) (pages : List (BitVec 8 × BitVec 32)) :
    (pmWords ticks pages).length = 2 + 2 * pages.length := by
  have pairs := @flatMap_length _ _ pages
    (fun page => [numeral page.1.toNat, numeral page.2.toNat]) 2 fun _ => rfl
  rw [pmWords, List.length_append, pairs]
  rfl

theorem vmWords_length (ticks : BitVec 32)
    (entries : List (BitVec 8 × BitVec 8 × BitVec 32)) :
    (vmWords ticks entries).length = 1 + 3 * entries.length := by
  have triples := @flatMap_length _ _ entries (fun entry => [numeral entry.1.toNat,
    numeral entry.2.1.toNat, numeral entry.2.2.toNat]) 3 fun _ => rfl
  rw [vmWords, List.length_cons, triples, Nat.add_comm]

/-! ## The reader on a line -/

variable {timeline : MemMapTimeline}

theorem readLine_pmDump (ticks : BitVec 32) {pages : List (BitVec 8 × BitVec 32)}
    (count : pages.length = 512)
    (first : (timeline.instanceAt ticks.toNat).pmState = none) :
    readLine timeline (LogLine.pmDump ticks pages).text =
      .ok (timeline.setInstance ticks.toNat
        { timeline.instanceAt ticks.toNat with pmState := some (pages.map pmEntryOf) }) := by
  have label : pmPrefix.isPrefixOf (LogLine.pmDump ticks pages).text = true := by
    rw [text_pmDump]
    rfl
  have length : ((pmWords ticks pages ++ [['\n']]).length : Int) - 3 = 512 * 2 := by
    rw [List.length_append, pmWords_length, count]
    norm_num
  have tick : wordAt (pmWords ticks pages ++ [['\n']]) 1 = .ok (numeral ticks.toNat) := rfl
  have data := mapM_range (pmEntry_page ticks pages)
  rw [count] at data
  rw [readLine, if_pos label, readPmDump]
  simp only [words_pmDump, require_pos length, tick, int_numeral, data, ok_bind, setPmState,
    require_pos first]

/-- A `VM_DUMP` line of 768 pages for a tick and a process without one is read. -/
theorem readLine_vmDump (pid : Pid) (ticks : BitVec 32)
    {entries : List (BitVec 8 × BitVec 8 × BitVec 32)} (count : entries.length = 768)
    (first : (pid.val : Int) ∉ (timeline.instanceAt ticks.toNat).vmState) :
    readLine timeline (LogLine.vmDump pid ticks entries).text =
      .ok (timeline.setInstance ticks.toNat
        { timeline.instanceAt ticks.toNat with
          vmState := (timeline.instanceAt ticks.toNat).vmState.insert pid.val
            (entries.map vmEntryOf) }) := by
  have other : ¬ pmPrefix.isPrefixOf (LogLine.vmDump pid ticks entries).text = true := by
    rw [text_vmDump]
    exact Bool.false_ne_true
  have label : vmPrefix.isPrefixOf (LogLine.vmDump pid ticks entries).text = true := by
    rw [text_vmDump]
    rfl
  have length : ((["VM_DUMP".toList, numeral pid.val] ++ vmWords ticks entries ++
      [['\n']]).length : Int) - 4 = 768 * 3 := by
    rw [List.length_append, List.length_append, vmWords_length, count]
    norm_num
  have process : wordAt (["VM_DUMP".toList, numeral pid.val] ++ vmWords ticks entries ++
      [['\n']]) 1 = .ok (numeral pid.val) := rfl
  have tick : wordAt (["VM_DUMP".toList, numeral pid.val] ++ vmWords ticks entries ++
      [['\n']]) 2 = .ok (numeral ticks.toNat) := rfl
  have data := mapM_range (vmEntry_page pid ticks entries)
  rw [count] at data
  rw [readLine, if_neg other, if_pos label, readVmDump]
  simp only [words_vmDump, require_pos length, process, tick, int_numeral, data, ok_bind,
    addVmState, require_pos first]

/-! ## Dumps -/

theorem instanceAt_setInstance (tick : Int) (memMap : MemMapInstance) :
    (timeline.setInstance tick memMap).instanceAt tick = memMap := by
  simp [MemMapTimeline.instanceAt, MemMapTimeline.setInstance]

theorem setInstance_setInstance (tick : Int) (memMap other : MemMapInstance) :
    (timeline.setInstance tick memMap).setInstance tick other =
      timeline.setInstance tick other := by
  simp [MemMapTimeline.setInstance]

/-- What one timer interrupt writes: pages of physical memory, and the virtual pages of
some processes. -/
structure Dump where
  ticks : BitVec 32
  pages : List (BitVec 8 × BitVec 32)
  spaces : List (Pid × List (BitVec 8 × BitVec 8 × BitVec 32))
  pages_count : pages.length = 512
  spaces_count : ∀ space ∈ spaces, space.2.length = 768
  once : (spaces.map Prod.fst).Nodup

def Dump.tick (dump : Dump) : Int := dump.ticks.toNat

def Dump.lines (dump : Dump) : List LogLine :=
  .pmDump dump.ticks dump.pages ::
    dump.spaces.map fun space => .vmDump space.1 dump.ticks space.2

/-- The key and the value of a process in the dictionary `vm_state`. -/
def spaceKey (space : Pid × List (BitVec 8 × BitVec 8 × BitVec 32)) : Int := space.1.val

def spaceEntries (space : Pid × List (BitVec 8 × BitVec 8 × BitVec 32)) : List VMEntry :=
  space.2.map vmEntryOf

def Dump.memMap (dump : Dump) : MemMapInstance :=
  ⟨some (dump.pages.map pmEntryOf), insertAll spaceKey spaceEntries dump.spaces ∅⟩

theorem read_spaces (ticks : BitVec 32)
    {spaces : List (Pid × List (BitVec 8 × BitVec 8 × BitVec 32))}
    (counts : ∀ space ∈ spaces, space.2.length = 768) (once : (spaces.map Prod.fst).Nodup)
    {memMap : MemMapInstance} (fresh : ∀ space ∈ spaces, spaceKey space ∉ memMap.vmState) :
    (spaces.map fun space => (LogLine.vmDump space.1 ticks space.2).text).foldlM readLine
        (timeline.setInstance ticks.toNat memMap) =
      .ok (timeline.setInstance ticks.toNat
        { memMap with vmState := insertAll spaceKey spaceEntries spaces memMap.vmState }) := by
  induction spaces generalizing memMap with
  | nil => rfl
  | cons space rest ih =>
      rw [List.map_cons, List.nodup_cons] at once
      have first : (space.1.val : Int) ∉
          ((timeline.setInstance ticks.toNat memMap).instanceAt ticks.toNat).vmState := by
        rw [instanceAt_setInstance]
        exact fresh space List.mem_cons_self
      have read := readLine_vmDump space.1 ticks (counts space List.mem_cons_self) first
      rw [instanceAt_setInstance, setInstance_setInstance] at read
      have later : ∀ other ∈ rest, spaceKey other ∉
          memMap.vmState.insert (spaceKey space) (spaceEntries space) := by
        intro other member present
        rcases AList.mem_insert _ |>.mp present with same | old
        · have pids : other.1 = space.1 := Fin.ext (Int.ofNat.inj same)
          exact once.1 (pids ▸ List.mem_map_of_mem member)
        · exact fresh other (List.mem_cons_of_mem _ member) old
      have tail := @ih (fun other member => counts other (List.mem_cons_of_mem _ member))
        once.2 { memMap with
          vmState := memMap.vmState.insert (spaceKey space) (spaceEntries space) } later
      rw [List.map_cons, List.foldlM_cons, read, ok_bind, insertAll_cons]
      exact tail

theorem read_dump (dump : Dump) (fresh : dump.tick ∉ timeline.memData) :
    (dump.lines.map LogLine.text).foldlM readLine timeline =
      .ok (timeline.setInstance dump.tick dump.memMap) := by
  have empty : timeline.instanceAt dump.ticks.toNat = emptyInstance := by
    have absent : timeline.memData.lookup (dump.ticks.toNat : Int) = none :=
      AList.lookup_eq_none.mpr fresh
    rw [MemMapTimeline.instanceAt, absent]
    rfl
  have first : (timeline.instanceAt dump.ticks.toNat).pmState = none := by
    rw [empty]
    rfl
  have read := readLine_pmDump dump.ticks dump.pages_count first
  rw [empty] at read
  have spaces := @read_spaces timeline dump.ticks dump.spaces dump.spaces_count dump.once
    { emptyInstance with pmState := some (dump.pages.map pmEntryOf) }
    fun space _ => AList.notMem_empty _
  rw [Dump.lines, List.map_cons, List.foldlM_cons, read, ok_bind, List.map_map]
  exact spaces

def recovered (dumps : List Dump) : AList fun _ : Int => MemMapInstance :=
  insertAll Dump.tick Dump.memMap dumps ∅

theorem read_dumps {dumps : List Dump} (distinct : (dumps.map Dump.tick).Nodup)
    (fresh : ∀ dump ∈ dumps, dump.tick ∉ timeline.memData) :
    ((dumps.flatMap Dump.lines).map LogLine.text).foldlM readLine timeline =
      .ok { timeline with
        memData := insertAll Dump.tick Dump.memMap dumps timeline.memData } := by
  induction dumps generalizing timeline with
  | nil => rfl
  | cons dump rest ih =>
      rw [List.map_cons, List.nodup_cons] at distinct
      have later : ∀ other ∈ rest,
          other.tick ∉ (timeline.setInstance dump.tick dump.memMap).memData := by
        intro other member present
        rcases AList.mem_insert _ |>.mp present with same | old
        · exact distinct.1 (same ▸ List.mem_map_of_mem member)
        · exact fresh other (List.mem_cons_of_mem _ member) old
      rw [List.flatMap_cons, List.map_append, List.foldlM_append,
        read_dump dump (fresh dump List.mem_cons_self), ok_bind, ih distinct.2 later]
      rfl

/-! ## The whole log -/

/-- The end of a log after its dumps: nothing, or one line that is no dump. -/
def Trailer (tail : List Char) : Prop :=
  tail = [] ∨ ∃ body, (tail = body ∨ tail = body ++ ['\n']) ∧ NoLineEnd body ∧
    "PANIC".toList <+: body

theorem Trailer.no_return {tail : List Char} (trailer : Trailer tail) : '\r' ∉ tail := by
  rcases trailer with rfl | ⟨body, rfl | rfl, clean, _⟩
  · exact List.not_mem_nil
  · exact clean.2
  · intro member
    rcases List.mem_append.mp member with inside | newline
    · exact clean.2 inside
    · exact absurd (List.mem_singleton.mp newline) (by decide)

theorem readLine_panic {line : List Char} (label : "PANIC".toList <+: line) :
    ∃ panic, readLine timeline line = .ok { timeline with panic := panic } := by
  obtain ⟨rest, rfl⟩ := label
  have notPm : ¬ pmPrefix.isPrefixOf ("PANIC".toList ++ rest) = true := Bool.false_ne_true
  have notVm : ¬ vmPrefix.isPrefixOf ("PANIC".toList ++ rest) = true := Bool.false_ne_true
  rw [readLine, if_neg notPm, if_neg notVm]
  split
  · exact ⟨true, rfl⟩
  · exact ⟨timeline.panic, rfl⟩

theorem Trailer.read {tail : List Char} (trailer : Trailer tail) :
    ∃ panic, (lines '\n' tail).foldlM readLine timeline =
      .ok { timeline with panic := panic } := by
  rcases trailer with rfl | ⟨body, whole, clean, label⟩
  · exact ⟨timeline.panic, rfl⟩
  · have single : lines '\n' tail = [tail] := by
      rcases whole with rfl | rfl
      · refine lines_last clean.1 ?_
        intro empty
        rw [empty] at label
        exact absurd (List.prefix_nil.mp label) (by decide)
      · have ended := lines_cons clean.1 []
        exact ended
    have begins : "PANIC".toList <+: tail := by
      rcases whole with rfl | rfl
      · exact label
      · exact label.trans (List.prefix_append body ['\n'])
    obtain ⟨panic, read⟩ := @readLine_panic timeline tail begins
    refine ⟨panic, ?_⟩
    rw [single, List.foldlM_cons, read]
    rfl

theorem fillNumbuf_noLineEnd (val : Nat) : NoLineEnd (fillNumbuf val (-16)) := by
  have letters : ∀ c ∈ fillNumbuf val (-16), c ∈ '0' :: lowerDigits := by
    intro c member
    exact (mem_fillDigits member).resolve_right List.not_mem_nil
  constructor
  · intro member
    exact absurd (letters _ member) (by decide)
  · intro member
    exact absurd (letters _ member) (by decide)

theorem intNumeral_noLineEnd (x : Int) : NoLineEnd (intNumeral x) := by
  have digits : ∀ n, NoLineEnd (Nat.toDigits 10 n) :=
    fun n => ⟨not_mem_decimal rfl n, not_mem_decimal rfl n⟩
  unfold intNumeral
  split
  · have minus : NoLineEnd ['-'] := ⟨by decide, by decide⟩
    exact minus.append (digits _)
  · exact digits _

theorem log_unexpectedException (intno : BitVec 64) :
    logPrintf "Unexpected exception %d!\n" [.word intno] =
      ("Unexpected exception ".toList ++ intNumeral (intno.setWidth 32).toInt ++
        "!".toList) ++ ['\n'] := by
  have format : "Unexpected exception %d!\n".toList =
      "Unexpected exception ".toList ++ '%' :: 'd' :: "!\n".toList := by simp
  have front : '%' ∉ "Unexpected exception ".toList := by simp
  have back : '%' ∉ "!\n".toList := by simp
  have newline : "!\n".toList = "!".toList ++ ['\n'] := by simp
  rw [logPrintf, printerVprintf, format, printFrom_literal front, printFrom_directive,
    directive_d, printFrom_plain back, newline]
  simp only [List.append_assoc]

theorem log_kernelPageFault (addr rip : BitVec 64) (operation problem : List Char) :
    logPrintf "Kernel page fault for %p (%s %s, rip=%p)!\n"
        [.word addr, .string operation, .string problem, .word rip] =
      ("Kernel page fault for ".toList ++ (['0', 'x'] ++ fillNumbuf addr.toNat (-16)) ++
        " (".toList ++ operation ++ " ".toList ++ problem ++ ", rip=".toList ++
        (['0', 'x'] ++ fillNumbuf rip.toNat (-16)) ++ ")!".toList) ++ ['\n'] := by
  have format : "Kernel page fault for %p (%s %s, rip=%p)!\n".toList =
      "Kernel page fault for ".toList ++ '%' :: 'p' :: (" (".toList ++ '%' :: 's' ::
        (" ".toList ++ '%' :: 's' :: (", rip=".toList ++ '%' :: 'p' :: ")!\n".toList))) := by
    simp
  have first : '%' ∉ "Kernel page fault for ".toList := by simp
  have second : '%' ∉ " (".toList := by simp
  have third : '%' ∉ " ".toList := by simp
  have fourth : '%' ∉ ", rip=".toList := by simp
  have back : '%' ∉ ")!\n".toList := by simp
  have newline : ")!\n".toList = ")!".toList ++ ['\n'] := by simp
  rw [logPrintf, printerVprintf, format, printFrom_literal first, printFrom_directive,
    directive_p, printFrom_literal second, printFrom_directive, directive_s,
    printFrom_literal third, printFrom_directive, directive_s, printFrom_literal fourth,
    printFrom_directive, directive_p, printFrom_plain back, newline]
  simp only [List.append_assoc]

theorem log_assertion (file msg : List Char) (line : BitVec 64) :
    logPrintf "%s:%d: assertion '%s' failed\n" [.string file, .word line, .string msg] =
      (file ++ ":".toList ++ intNumeral (line.setWidth 32).toInt ++ ": assertion '".toList ++
        msg ++ "' failed".toList) ++ ['\n'] := by
  have format : "%s:%d: assertion '%s' failed\n".toList =
      '%' :: 's' :: (":".toList ++ '%' :: 'd' :: (": assertion '".toList ++
        '%' :: 's' :: "' failed\n".toList)) := by simp
  have first : '%' ∉ ":".toList := by simp
  have second : '%' ∉ ": assertion '".toList := by simp
  have back : '%' ∉ "' failed\n".toList := by simp
  have newline : "' failed\n".toList = "' failed".toList ++ ['\n'] := by simp
  rw [logPrintf, printerVprintf, format, printFrom_directive, directive_s,
    printFrom_literal first, printFrom_directive, directive_d, printFrom_literal second,
    printFrom_directive, directive_s, printFrom_plain back, newline]
  simp only [List.append_assoc]

theorem Trailer.panic {format : String} {args : List VaArg} {message : List Char}
    (printed : logPrintf format args = message ++ ['\n']) (clean : NoLineEnd message) :
    Trailer (panicText format args) := by
  have label : logPrintf "PANIC: " [] = "PANIC: ".toList := by decide
  have written : panicText format args = ("PANIC: ".toList ++ message) ++ ['\n'] := by
    rw [panicText, label, printed, List.append_assoc]
  have front : NoLineEnd "PANIC: ".toList := ⟨by simp, by simp⟩
  have begins : "PANIC".toList <+: "PANIC: ".toList ++ message :=
    ⟨": ".toList ++ message, rfl⟩
  exact Or.inr ⟨_, Or.inr written, front.append clean, begins⟩

theorem StopText.trailer {addr : UIntPtr} {reg : Registers} {stop : Stop}
    {tail : List Char} (written : StopText addr reg stop tail) : Trailer tail := by
  have constant : ∀ text : String, '\n' ∉ text.toList → '\r' ∉ text.toList →
      NoLineEnd text.toList := fun _ newline feed => ⟨newline, feed⟩
  cases written with
  | poweroff => exact Or.inl rfl
  | assertion which file msg line fileLine msgLine =>
      have place := (fileLine.append (constant ":" (by simp) (by simp))).append
        (intNumeral_noLineEnd (line.setWidth 32).toInt)
      have clean := ((place.append (constant ": assertion '" (by simp) (by simp))).append
        msgLine).append (constant "' failed" (by simp) (by simp))
      exact Trailer.panic (log_assertion file msg line) clean
  | sysPanic =>
      have text : logPrintf "PANIC" [] = "PANIC".toList := by decide
      exact Or.inr ⟨"PANIC".toList, Or.inl text, constant "PANIC" (by simp) (by simp),
        List.prefix_refl _⟩
  | kernelPageFault =>
      have printed := log_kernelPageFault addr reg.regRip (faultOperation reg.regErr)
        (faultProblem reg.regErr)
      have hex : NoLineEnd ['0', 'x'] := ⟨by decide, by decide⟩
      have operation : NoLineEnd (faultOperation reg.regErr) := by
        unfold faultOperation
        split
        · exact constant "write" (by simp) (by simp)
        · exact constant "read" (by simp) (by simp)
      have problem : NoLineEnd (faultProblem reg.regErr) := by
        unfold faultProblem
        split
        · exact constant "protection problem" (by simp) (by simp)
        · exact constant "missing page" (by simp) (by simp)
      have place := (constant "Kernel page fault for " (by simp) (by simp)).append
        (hex.append (fillNumbuf_noLineEnd addr.toNat))
      have access := ((place.append (constant " (" (by simp) (by simp))).append
        operation).append (constant " " (by simp) (by simp))
      have rip := ((access.append problem).append
        (constant ", rip=" (by simp) (by simp))).append
        (hex.append (fillNumbuf_noLineEnd reg.regRip.toNat))
      exact Trailer.panic printed (rip.append (constant ")!" (by simp) (by simp)))
  | unexpected =>
      have printed := log_unexpectedException reg.regIntno
      have clean := ((constant "Unexpected exception " (by simp) (by simp)).append
        (intNumeral_noLineEnd (reg.regIntno.setWidth 32).toInt)).append
        (constant "!" (by simp) (by simp))
      exact Trailer.panic printed clean

theorem logText_eq (log : List LogLine) :
    logText log = (log.map LogLine.body).flatMap fun body => body ++ ['\n'] := by
  induction log with
  | nil => rfl
  | cons line rest ih =>
      rw [List.map_cons, List.flatMap_cons, ← ih, ← line.text_eq]
      rfl

theorem logText_no_return (log : List LogLine) : '\r' ∉ logText log := by
  intro member
  obtain ⟨line, _, inside⟩ := List.mem_flatMap.mp member
  rw [line.text_eq] at inside
  rcases List.mem_append.mp inside with body | newline
  · exact line.body_noLineEnd.2 body
  · exact absurd (List.mem_singleton.mp newline) (by decide)

theorem readlines_logText (log : List LogLine) {tail : List Char} (clean : '\r' ∉ tail) :
    readlines (logText log ++ tail) = log.map LogLine.text ++ lines '\n' tail := by
  have no_return : '\r' ∉ logText log ++ tail := by
    intro member
    exact (List.mem_append.mp member).elim (logText_no_return log) clean
  have bodies : ∀ body ∈ log.map LogLine.body, '\n' ∉ body := by
    intro body member
    obtain ⟨line, _, rfl⟩ := List.mem_map.mp member
    exact line.body_noLineEnd.1
  have texts : (log.map LogLine.body).map (fun body => body ++ ['\n']) =
      log.map LogLine.text := by
    rw [List.map_map]
    exact List.map_congr_left fun line _ => line.text_eq.symm
  rw [readlines, universalNewlines_of_no_return no_return, logText_eq, lines_written bodies,
    texts]

theorem memMapTimeline_dumps {dumps : List Dump} (distinct : (dumps.map Dump.tick).Nodup)
    {tail : List Char} (trailer : Trailer tail) :
    ∃ panic, memMapTimeline (logText (dumps.flatMap Dump.lines) ++ tail) =
      .ok ⟨recovered dumps, panic⟩ := by
  have fresh : ∀ dump ∈ dumps, dump.tick ∉ emptyTimeline.memData :=
    fun dump _ => AList.notMem_empty _
  obtain ⟨panic, ended⟩ := @Trailer.read
    { emptyTimeline with memData := recovered dumps } tail trailer
  refine ⟨panic, ?_⟩
  rw [memMapTimeline, readlines_logText _ trailer.no_return, List.foldlM_append,
    read_dumps distinct fresh, ok_bind]
  exact ended

end OsLabs.Weensy
