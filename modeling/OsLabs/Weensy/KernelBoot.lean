import OsLabs.Weensy.Exceptions
import OsLabs.Weensy.Loading

/-!
# The state that kernel() builds

`process_setup` adds one process to a state with the kernel invariant, or the load
fails.  `Booted` is what holds when the first process is entered.
-/

set_option autoImplicit false

namespace OsLabs.Weensy

open OsLabs.ByteMemory OsLabs.ExceptRules

/-! ## Counting the users of the kernel page table -/

theorem countP_succ {α : Type} {before after : α → Bool} {items : List α} {place : α}
    (once : items.Nodup) (member : place ∈ items) (off : before place = false)
    (on : after place = true) (same : ∀ item, item ≠ place → after item = before item) :
    items.countP after = items.countP before + 1 := by
  induction items with
  | nil => cases member
  | cons item rest ih =>
      rw [List.nodup_cons] at once
      rcases List.mem_cons.mp member with rfl | later
      · have others : rest.countP after = rest.countP before := by
          refine List.countP_congr ?_
          intro other otherMember
          rw [same other fun equal => once.1 (equal ▸ otherMember)]
        rw [List.countP_cons_of_pos on, List.countP_cons_of_neg (by simp [off]), others]
      · have different : item ≠ place := fun equal => once.1 (equal ▸ later)
        have tail := ih once.2 later
        by_cases here : before item = true
        · rw [List.countP_cons_of_pos ((same item different).trans here),
            List.countP_cons_of_pos here, tail]
        · have there : ¬ after item = true := by rw [same item different]; exact here
          rw [List.countP_cons_of_neg there, List.countP_cons_of_neg here, tail]

theorem usersOf_le (state : KernelState) (pagetable : UIntPtr) :
    usersOf state pagetable ≤ nproc := by
  have bound : usersOf state pagetable ≤ (List.finRange nproc).length :=
    List.countP_le_length
  rwa [List.length_finRange] at bound

theorem usersOf_setup {image : KernelImage} {before after : KernelState} {pid : Pid}
    {proc : Proc} (processes : after.processes = Function.update before.processes pid proc)
    (idle : ¬ Active before pid) (state : proc.pState ≠ .free)
    (shared : proc.pPagetable = image.kernelPagetable) :
    usersOf after image.kernelPagetable = usersOf before image.kernelPagetable + 1 := by
  refine countP_succ (List.nodup_finRange nproc) (List.mem_finRange pid) ?_ ?_ ?_
  · unfold Active at idle
    simp [not_not.mp idle]
  · simp [processes, state, shared]
  · intro other different
    simp only [processes, Function.update_of_ne different]

/-! ## Starting states -/

theorem pageinfoInit_ok (image : KernelImage) (state : KernelState) :
    PageinfoOk image 0 (fun _ => False) (pageinfoInit image state).pageinfo := by
  refine ⟨?_, ?_⟩
  · intro pn kept
    simp only [pageinfoInit, ne_eq, kept, not_false_eq_true, if_true]
    simp
  · intro pn user
    left
    simp [pageinfoInit, user]

/-- The state in which `kernel` begins to set up processes. -/
def InitialState (image : KernelImage) (state : KernelState) : Prop :=
  ∃ prior begun, virtualMemoryInit image prior = .ok begun ∧
    state = { pageinfoInit image begun with processes := processesInit }

theorem InitialState.inv {image : KernelImage} {state : KernelState}
    (initial : InitialState image state) : KernelInv image state := by
  obtain ⟨prior, begun, run, rfl⟩ := initial
  obtain ⟨memory, spec, tables⟩ := virtualMemoryInit_spec image prior
  rw [spec] at run
  cases run
  refine ⟨tables, ?_, fun _ => rfl, rfl, fun _ active => absurd rfl active⟩
  have users : usersOf { pageinfoInit image
      { prior with memory := memory, cr3 := image.kernelPagetable } with
      processes := processesInit } image.kernelPagetable = 0 := by
    rw [usersOf, List.countP_eq_zero]
    simp [processesInit]
  have active : Active { pageinfoInit image
      { prior with memory := memory, cr3 := image.kernelPagetable } with
      processes := processesInit } = fun _ => False := by
    funext pid
    simp [Active, processesInit]
  rw [users, active]
  exact pageinfoInit_ok image prior

def Used (state : KernelState) (pn : PhysicalPage) : Prop :=
  (state.pageinfo pn).refcount ≠ 0

/-- The pages that `pageinfo_init` sets aside. -/
def Unfree (image : KernelImage) (pn : PhysicalPage) : Prop :=
  initialOwner image (pageAddress pn) ≠ poFree

theorem InitialState.used {image : KernelImage} {state : KernelState}
    (initial : InitialState image state) : Used state = Unfree image := by
  obtain ⟨prior, begun, _, rfl⟩ := initial
  funext pn
  by_cases free : initialOwner image (pageAddress pn) = poFree <;>
    simp [Used, Unfree, pageinfoInit, free]

/-! ## process_setup -/

/-- Setting up a process can stop while its program is loaded. -/
def SetupStop (stop : Stop) : Prop :=
  LoadStop stop ∨ stop = .assertion .programLoadSucceeds

theorem ImageFits.mono {image : KernelImage} {used fewer : PhysicalPage → Prop}
    {program : Fin 6} (fits : ImageFits image used program)
    (sub : ∀ pn, fewer pn → imagePages image program pn → used pn) :
    ImageFits image fewer program := by
  obtain ⟨magic, inside, unused, apart⟩ := fits
  refine ⟨magic, inside, ?_, apart⟩
  intro ph member load pn wanted taken
  exact unused ph member load pn wanted (sub pn taken ⟨ph, member, load, wanted⟩)

def initialRegisters (image : KernelImage) (pid : Pid) (program : Fin 6) : Registers :=
  { processInit with regRip := imageEntry image program, regRsp := stackTop pid }

def initialProc (image : KernelImage) (pid : Pid) (program : Fin 6) : Proc :=
  ⟨pid, initialRegisters image pid program, .runnable, image.kernelPagetable⟩

/-- What a successful `process_setup` has done. -/
structure SetUp (image : KernelImage) (pid : Pid) (program : Fin 6)
    (before after : KernelState) : Prop where
  inv : KernelInv image after
  processes : after.processes =
    Function.update before.processes pid (initialProc image pid program)
  claimed : ∀ pn, Used after pn → Used before pn ∨
    imagePages image program pn ∨ pn = physicalPage (stackPage pid)

theorem toInt8_small {value : Int} (range : 0 ≤ value ∧ value < 128) :
    toInt8 value = value := by
  rw [toInt8, BitVec.toInt_ofInt]
  exact Int.bmod_eq_of_le (by omega) (by omega)

section Setup

variable {image : KernelImage} {pid : Pid} {state : KernelState} {users : Nat}
  {active : Pid → Prop}

theorem stackPage_toNat (range : pid.val ≤ 4) :
    (stackPage pid).toNat = 0xFF000 + 0x40000 * pid.val := by
  rw [stackPage, stackTop, BitVec.toNat_sub, BitVec.toNat_add, BitVec.toNat_mul,
    BitVec.toNat_ofNat]
  have start : procStartAddr.toNat = 0x100000 := rfl
  have size : procSize.toNat = 0x40000 := rfl
  have page : pageSize.toNat = 0x1000 := rfl
  rw [start, size, page]
  omega

theorem PageinfoOk.addReference (ok : PageinfoOk image users active state.pageinfo)
    (few : users ≤ nproc) :
    ∃ after, addReference image state = .ok after ∧
      PageinfoOk image (users + 1) active after.pageinfo ∧
      after.memory = state.memory ∧ after.processes = state.processes ∧
      ∀ pn, (after.pageinfo pn).refcount ≠ 0 → (state.pageinfo pn).refcount ≠ 0 := by
  have count : nproc = 16 := rfl
  have inside := tablePage_below image 0
  rw [tablePage_zero] at inside
  have root : physicalPage image.kernelPagetable = tableNumber image 0 := by
    rw [tableNumber, tablePage_zero]
  have small : toInt8 (1 + (users : Int) + 1) = 1 + ((users + 1 : Nat) : Int) := by
    rw [toInt8_small (by omega)]
    omega
  have owner := initialOwner_table image 0
  unfold OsLabs.Weensy.addReference
  rw [pageinfoIndex_pageNumber inside, ok_bind, root, ok.root]
  refine ⟨_, rfl, ⟨?_, ?_⟩, rfl, rfl, ?_⟩
  · intro pn kept
    simp only [KernelState.setPageinfo]
    by_cases same : pn = tableNumber image 0
    · subst same
      rw [Function.update_self, small, owner, if_pos rfl]
    · rw [Function.update_of_ne same, ok.system pn kept, if_neg same, if_neg same]
  · intro pn user
    simp only [KernelState.setPageinfo]
    by_cases same : pn = tableNumber image 0
    · subst same
      rw [owner] at user
      exact absurd user (by decide)
    · rw [Function.update_of_ne same]
      exact ok.user pn user
  · intro pn used
    simp only [KernelState.setPageinfo] at used
    by_cases same : pn = tableNumber image 0
    · rw [same, ok.root]
      simp only
      omega
    · rwa [Function.update_of_ne same] at used

/-- The stack page, assigned or already taken, keeps the classification. -/
theorem assignStack (ok : PageinfoOk image users active state.pageinfo)
    (activePid : active pid) (addr : UIntPtr) :
    ∃ r after, assignPhysicalPage state addr ((pid.val : Nat) : Int) = .ok (r, after) ∧
      PageinfoOk image users active after.pageinfo ∧ after.memory = state.memory ∧
      after.processes = state.processes ∧
      ∀ pn, (after.pageinfo pn).refcount ≠ 0 →
        (state.pageinfo pn).refcount ≠ 0 ∨ pn = physicalPage addr := by
  rw [assignPhysicalPage_eq]
  by_cases able : Assignable state.pageinfo addr
  · rw [if_pos able]
    refine ⟨_, _, rfl, ok.assign able.2.2 activePid, rfl, rfl, ?_⟩
    intro pn used
    by_cases same : pn = physicalPage addr
    · exact Or.inr same
    · left
      simp only [KernelState.setPageinfo] at used
      rwa [Function.update_of_ne same] at used
  · rw [if_neg able]
    exact ⟨_, _, rfl, ok, rfl, rfl, fun pn used => Or.inl used⟩

theorem PageinfoOk.mono {more : Pid → Prop} {pageinfo : PhysicalPage → PhysicalPageinfo}
    (ok : PageinfoOk image users active pageinfo) (sub : ∀ pid, active pid → more pid) :
    PageinfoOk image users more pageinfo := by
  refine ⟨ok.system, ?_⟩
  intro pn user
  exact (ok.user pn user).imp_right fun ⟨pid, here, owned⟩ => ⟨pid, sub pid here, owned⟩

theorem KernelInv.setup {after : KernelState} (inv : KernelInv image state)
    (idle : ¬ Active state pid) (positive : 1 ≤ pid.val)
    (tables : KernelTables image after.memory)
    (ok : PageinfoOk image (usersOf state image.kernelPagetable + 1)
      (fun other => Active state other ∨ other = pid) after.pageinfo)
    {proc : Proc} (processes : after.processes = Function.update state.processes pid proc)
    (number : proc.pPid = pid) (kept : proc.pState ≠ .free)
    (shared : proc.pPagetable = image.kernelPagetable) : KernelInv image after := by
  have here : after.processes pid = proc := by
    rw [processes, Function.update_self]
  have others : ∀ other, other ≠ pid → after.processes other = state.processes other := by
    intro other different
    rw [processes, Function.update_of_ne different]
  have active : Active after = fun other => Active state other ∨ other = pid := by
    funext other
    by_cases same : other = pid
    · subst same
      simp only [Active, here, or_true, eq_iff_iff, iff_true]
      exact kept
    · simp only [Active, others other same, same, or_false]
  refine ⟨tables, ?_, ?_, ?_, ?_⟩
  · rw [usersOf_setup processes idle kept shared, active]
    exact ok
  · intro other
    by_cases same : other = pid
    · rw [same, here, number]
    · rw [others other same]
      exact inv.pids other
  · have zero : (0 : Pid) ≠ pid := by
      rintro rfl
      exact absurd positive (by decide)
    rw [others 0 zero]
    exact inv.processZero
  · intro other activeOther
    by_cases same : other = pid
    · rw [same, here, shared]
    · rw [active] at activeOther
      rw [others other same]
      exact inv.shared other (activeOther.resolve_right same)

theorem beginSetup_spec (inv : KernelInv image state) (pid : Pid) :
    ∃ after, beginSetup image state pid = .ok after ∧
      KernelTables image after.memory ∧
      PageinfoOk image (usersOf state image.kernelPagetable + 1)
        (fun other => Active state other ∨ other = pid) after.pageinfo ∧
      after.processes = Function.update state.processes pid
        { state.processes pid with
          pRegisters := processInit, pPagetable := image.kernelPagetable } ∧
      ∀ pn, (after.pageinfo pn).refcount ≠ 0 → (state.pageinfo pn).refcount ≠ 0 := by
  have begun : PageinfoOk image (usersOf state image.kernelPagetable)
      (fun other => Active state other ∨ other = pid)
      (state.setProc pid { state.processes pid with
        pRegisters := processInit, pPagetable := image.kernelPagetable }).pageinfo :=
    inv.pageinfo.mono fun _ here => Or.inl here
  obtain ⟨after, counted, ok, memory, processes, kept⟩ :=
    begun.addReference (usersOf_le state _)
  refine ⟨after, counted, ?_, ok, processes, kept⟩
  rw [memory]
  exact inv.tables

theorem finishSetup_spec (tables : KernelTables image state.memory)
    (ok : PageinfoOk image users active state.pageinfo) (activePid : active pid)
    (pagetable : (state.processes pid).pPagetable = image.kernelPagetable)
    (range : pid.val ≤ 4) :
    ∃ after, finishSetup state pid = .ok after ∧ KernelTables image after.memory ∧
      PageinfoOk image users active after.pageinfo ∧
      after.processes = Function.update state.processes pid
        { state.processes pid with
          pRegisters := { (state.processes pid).pRegisters with regRsp := stackTop pid }
          pState := .runnable } ∧
      ∀ pn, (after.pageinfo pn).refcount ≠ 0 →
        (state.pageinfo pn).refcount ≠ 0 ∨ pn = physicalPage (stackPage pid) := by
  have stackNat := stackPage_toNat range
  have limit : memsizePhysical.toNat = 0x200000 := rfl
  have registered : PageinfoOk image users active (state.setRegisters pid
      { (state.processes pid).pRegisters with regRsp := stackTop pid }).pageinfo := ok
  obtain ⟨r, middle, assigned, stackOk, memory, processes, grown⟩ :=
    assignStack registered activePid (stackPage pid)
  have stackTables : KernelTables image middle.memory := by
    rw [memory]
    exact tables
  have descriptor : middle.processes pid = { state.processes pid with
      pRegisters := { (state.processes pid).pRegisters with regRsp := stackTop pid } } := by
    rw [processes]
    exact Function.update_self ..
  have aligned : (stackPage pid).toNat % 4096 = 0 := by omega
  have inside : (stackPage pid).toNat < memsizePhysical.toNat := by omega
  have mapped := stackTables.map_page aligned inside 0 none
  have table : (middle.processes pid).pPagetable = image.kernelPagetable := by
    rw [descriptor]
    exact pagetable
  unfold finishSetup
  simp only [assigned, ok_bind, table, mapped]
  refine ⟨_, rfl, stackTables, stackOk, ?_, grown⟩
  simp only [KernelState.setProc, descriptor, processes, KernelState.setRegisters,
    Function.update_idem, pagetable]

/-- `process_setup` adds a process, or stops while its program is loaded. -/
theorem processSetup_cases (inv : KernelInv image state) (idle : ¬ Active state pid)
    (range : 1 ≤ pid.val ∧ pid.val ≤ 4) (program : Fin 6) :
    (∃ stop, processSetup image state pid program.val = .error stop ∧ SetupStop stop ∧
      ¬ ImageFits image (Used state) program) ∨
    ∃ after, processSetup image state pid program.val = .ok after ∧
      SetUp image pid program state after := by
  obtain ⟨begun, beginning, tables, ok, processes, kept⟩ := beginSetup_spec inv pid
  have pagetable : (begun.processes pid).pPagetable = image.kernelPagetable := by
    rw [processes, Function.update_self]
  have loads : ImageFits image (Used state) program →
      ∃ after, programLoad image begun pid program.val = .ok (0, after) := by
    intro fits
    exact programLoad_ok program begun tables ok pagetable
      (fits.mono fun pn used _ => kept pn used)
  unfold processSetup
  rw [beginning, ok_bind]
  rcases programLoad_cases program begun tables ok.tablesInUse pagetable with
    ⟨stop, stopped, load, _⟩ | ⟨middle, loaded, claims, _⟩ | ⟨after, failed, _⟩
  · rw [stopped]
    refine Or.inl ⟨stop, rfl, Or.inl load, ?_⟩
    intro fits
    obtain ⟨after, loaded⟩ := loads fits
    rw [stopped] at loaded
    cases loaded
  · have entered : ((middle.setRegisters pid { (middle.processes pid).pRegisters with
        regRip := imageEntry image program }).processes pid) =
        { begun.processes pid with pRegisters := { (begun.processes pid).pRegisters with
          regRip := imageEntry image program } } := by
      rw [KernelState.setRegisters, KernelState.setProc, claims.processes]
      exact Function.update_self ..
    have registered : KernelTables image (middle.setRegisters pid
        { (middle.processes pid).pRegisters with
          regRip := imageEntry image program }).memory := claims.tables ok.tablesInUse tables
    obtain ⟨after, finished, afterTables, afterOk, result, grown⟩ :=
      finishSetup_spec registered (claims.pageinfoOk ok (Or.inr rfl)) (Or.inr rfl)
        (by rw [entered]; exact pagetable) range.2
    have set : after.processes =
        Function.update state.processes pid (initialProc image pid program) := by
      rw [result, entered, KernelState.setRegisters, KernelState.setProc]
      simp only [claims.processes, processes, Function.update_self, Function.update_idem,
        inv.pids pid]
      rfl
    simp only [loaded, ok_bind, le_refl, assert_pos]
    refine Or.inr ⟨after, finished,
      inv.setup idle range.1 afterTables afterOk set rfl (by simp [initialProc]) rfl, set, ?_⟩
    intro pn used
    rcases grown pn used with used | stack
    · by_cases claimed : imagePages image program pn
      · exact Or.inr (Or.inl claimed)
      · left
        refine kept pn ?_
        rw [← claims.kept pn claimed]
        exact used
    · exact Or.inr (Or.inr stack)
  · rw [failed]
    refine Or.inl ⟨.assertion .programLoadSucceeds, rfl, Or.inr rfl, ?_⟩
    intro fits
    obtain ⟨other, loaded⟩ := loads fits
    rw [failed] at loaded
    cases loaded

def setupPages (image : KernelImage) (entry : Pid × Fin 6) (pn : PhysicalPage) : Prop :=
  imagePages image entry.2 pn ∨ pn = physicalPage (stackPage entry.1)

/-- What setting up a list of processes needs: every program fits and meets no page of
a process set up before it. -/
structure ProgramsFit (image : KernelImage) (used : PhysicalPage → Prop)
    (programs : List (Pid × Fin 6)) : Prop where
  fits : ∀ entry ∈ programs, ImageFits image used entry.2
  apart : programs.Pairwise fun earlier later =>
    ∀ pn, setupPages image earlier pn → ¬ imagePages image later.2 pn

theorem ProgramsFit.tail {used more : PhysicalPage → Prop} {entry : Pid × Fin 6}
    {rest : List (Pid × Fin 6)} (fit : ProgramsFit image used (entry :: rest))
    (grown : ∀ pn, more pn → used pn ∨ setupPages image entry pn) :
    ProgramsFit image more rest := by
  obtain ⟨fits, apart⟩ := fit
  obtain ⟨first, apart⟩ := List.pairwise_cons.mp apart
  refine ⟨?_, apart⟩
  intro other member
  refine (fits other (List.mem_cons_of_mem _ member)).mono ?_
  intro pn taken wanted
  exact (grown pn taken).resolve_right fun early => first other member pn early wanted

/-- What the `process_setup` calls for a list of processes have done. -/
structure SetUpAll (image : KernelImage) (programs : List (Pid × Fin 6))
    (before after : KernelState) : Prop where
  inv : KernelInv image after
  processes : ∀ entry ∈ programs,
    after.processes entry.1 = initialProc image entry.1 entry.2
  others : ∀ other ∉ programs.map Prod.fst,
    after.processes other = before.processes other
  claimed : ∀ pn, Used after pn → Used before pn ∨
    ∃ entry ∈ programs, setupPages image entry pn

theorem setupAll_cases (programs : List (Pid × Fin 6)) (state : KernelState)
    (inv : KernelInv image state) (distinct : (programs.map Prod.fst).Nodup)
    (range : ∀ entry ∈ programs, 1 ≤ entry.1.val ∧ entry.1.val ≤ 4)
    (idle : ∀ entry ∈ programs, ¬ Active state entry.1) :
    (∃ stop, setupAll image programs state = .error stop ∧ SetupStop stop ∧
      ¬ ProgramsFit image (Used state) programs) ∨
    ∃ after, setupAll image programs state = .ok after ∧
      SetUpAll image programs state after := by
  induction programs generalizing state with
  | nil =>
      refine Or.inr ⟨state, rfl, inv, ?_, fun _ _ => rfl, fun _ used => Or.inl used⟩
      intro entry none
      cases none
  | cons entry rest ih =>
      obtain ⟨pid, program⟩ := entry
      rw [List.map_cons, List.nodup_cons] at distinct
      obtain ⟨fresh, distinct⟩ := distinct
      have away : ∀ other ∈ rest, other.1 ≠ pid := by
        intro other member same
        exact fresh (List.mem_map.mpr ⟨other, member, same⟩)
      unfold setupAll
      have first : (pid, program) ∈ (pid, program) :: rest := List.mem_cons_self
      rcases processSetup_cases inv (idle _ first) (range _ first) program with
        ⟨stop, stopped, setup, unfit⟩ | ⟨middle, run, setUp⟩
      · rw [stopped]
        exact Or.inl ⟨stop, rfl, setup, fun fit => unfit (fit.fits _ first)⟩
      · rw [run, ok_bind]
        have unchanged : ∀ other, other ≠ pid →
            middle.processes other = state.processes other := by
          intro other different
          rw [setUp.processes, Function.update_of_ne different]
        have stillIdle : ∀ other ∈ rest, ¬ Active middle other.1 := by
          intro other member
          rw [Active, unchanged other.1 (away other member)]
          exact idle other (by simp [member])
        rcases ih middle setUp.inv distinct (fun other member =>
          range other (by simp [member])) stillIdle with
          ⟨stop, stopped, setup, unfit⟩ | ⟨after, later, more⟩
        · exact Or.inl ⟨stop, stopped, setup, fun fit => unfit (fit.tail setUp.claimed)⟩
        · refine Or.inr ⟨after, later, more.inv, ?_, ?_, ?_⟩
          · intro other member
            rcases List.mem_cons.mp member with rfl | member
            · rw [more.others pid fresh, setUp.processes, Function.update_self]
            · exact more.processes other member
          · intro other outside
            rw [List.map_cons, List.mem_cons, not_or] at outside
            rw [more.others other outside.2, unchanged other outside.1]
          · intro pn used
            rcases more.claimed pn used with used | ⟨other, member, claimed⟩
            · rcases setUp.claimed pn used with used | claimed
              · exact Or.inl used
              · exact Or.inr ⟨(pid, program), by simp, claimed⟩
            · exact Or.inr ⟨other, by simp [member], claimed⟩

end Setup

/-! ## kernel -/

structure Booted (image : KernelImage) (command : Option String) (state : KernelState) :
    Prop where
  inv : KernelInv image state
  current : state.current = some 1
  processes : ∀ entry ∈ initialPrograms command,
    state.processes entry.1 = initialProc image entry.1 entry.2
  others : ∀ other ∉ (initialPrograms command).map Prod.fst,
    state.processes other = processesInit other
  claimed : ∀ pn, Used state pn → Unfree image pn ∨
    ∃ entry ∈ initialPrograms command, setupPages image entry pn

theorem initialPrograms_range (command : Option String) :
    ((initialPrograms command).map Prod.fst).Nodup ∧
      ∀ entry ∈ initialPrograms command, 1 ≤ entry.1.val ∧ entry.1.val ≤ 4 := by
  unfold initialPrograms
  split
  · decide
  · split
    · decide
    · decide

theorem initialPrograms_first (command : Option String) :
    ∃ program, (1, program) ∈ initialPrograms command := by
  unfold initialPrograms
  split
  · exact ⟨4, by decide⟩
  · split
    · exact ⟨5, by decide⟩
    · exact ⟨0, by decide⟩

theorem Booted.runnable {image : KernelImage} {command : Option String}
    {state : KernelState} (booted : Booted image command state) : Runnable state 1 := by
  obtain ⟨program, member⟩ := initialPrograms_first command
  rw [Runnable, booted.processes _ member]
  rfl

/-- `kernel` enters the first process, or stops while a program is loaded. -/
theorem kernel_cases (image : KernelImage) (prior : KernelState)
    (command : Option String) :
    (∃ stop, kernel image prior command = .error stop ∧ SetupStop stop ∧
      ¬ ProgramsFit image (Unfree image) (initialPrograms command)) ∨
    ∃ after, kernel image prior command = .ok after ∧ Booted image command after := by
  obtain ⟨memory, begun, _⟩ := virtualMemoryInit_spec image prior
  have initial : InitialState image { pageinfoInit image
      { prior with memory := memory, cr3 := image.kernelPagetable } with
      processes := processesInit } := ⟨prior, _, begun, rfl⟩
  obtain ⟨distinct, range⟩ := initialPrograms_range command
  unfold kernel
  rw [begun, ok_bind]
  rcases setupAll_cases (initialPrograms command) _ initial.inv distinct range
    (fun _ _ active => active rfl) with ⟨stop, stopped, setup⟩ | ⟨middle, run, all⟩
  · rw [initial.used] at setup
    simp only [stopped]
    exact Or.inl ⟨stop, rfl, setup⟩
  · obtain ⟨program, member⟩ := initialPrograms_first command
    have runnable : Runnable middle 1 := by
      rw [Runnable, all.processes _ member]
      rfl
    simp only [run, ok_bind, run_ok all.inv runnable]
    refine Or.inr ⟨_, rfl, ?_, rfl, all.processes, all.others, ?_⟩
    · exact all.inv.congr all.inv.tables all.inv.pageinfo (fun _ => rfl)
        (fun _ => Iff.rfl) fun _ _ => rfl
    · intro pn used
      rw [← initial.used]
      exact all.claimed pn used

/-- Programs that fit are enough for `kernel` to enter the first process. -/
theorem kernel_ok {image : KernelImage} {command : Option String}
    (fit : ProgramsFit image (Unfree image) (initialPrograms command))
    (prior : KernelState) : ∃ start, kernel image prior command = .ok start := by
  rcases kernel_cases image prior command with ⟨_, _, _, unfit⟩ | ⟨after, run, _⟩
  · exact absurd fit unfit
  · exact ⟨after, run⟩

theorem kernel_booted {image : KernelImage} {prior start : KernelState}
    {command : Option String} (boot : kernel image prior command = .ok start) :
    Booted image command start := by
  rcases kernel_cases image prior command with ⟨stop, stopped, _⟩ | ⟨after, run, booted⟩
  · rw [boot] at stopped
    cases stopped
  · rw [boot] at run
    cases run
    exact booted

/-! ## An image whose programs fit -/

theorem initialOwner_free (image : KernelImage) {addr : UIntPtr}
    (above : 0x100000 ≤ addr.toNat) : initialOwner image addr = poFree := by
  have below := image.endBelowStack
  have external : extPhysMem.toNat = 0x100000 := rfl
  have stack : kernelStackTop - pageSize = 0x7F000#64 := rfl
  have unreserved : ¬ physicalMemoryIsreserved addr := by
    rintro (rfl | ⟨_, inside⟩)
    · exact absurd above (by decide)
    · rw [BitVec.lt_def] at inside
      omega
  unfold initialOwner
  rw [if_neg unreserved, if_neg]
  rintro (⟨_, inside⟩ | rfl)
  · rw [BitVec.lt_def] at inside
    omega
  · rw [stack] at above
    exact absurd above (by decide)

/-- Where program `program` is linked. -/
def linkBase (program : Fin 6) : Nat :=
  if program.val < 4 then 0x100000 + 0x40000 * program.val else 0x100000

/-- A program with one LOAD segment of 16 bytes in the file and two pages in memory. -/
def sampleProgram (program : Fin 6) : Memory :=
  let fields := [(0, 4, 0x464C457F), (0x18, 8, linkBase program), (0x20, 8, 64),
    (0x38, 2, 1), (64, 4, 1), (64 + 0x10, 8, linkBase program), (64 + 0x20, 8, 0x10),
    (64 + 0x28, 8, 0x1800)]
  fields.foldl (fun memory (address, width, value) =>
    storeLE memory address width value) fun _ => 0

def sampleImage : KernelImage where
  startData := 0x41000#64
  kernelEnd := 0x50000#64
  kernelPagetable := 0x48000#64
  defaultIntHandler := 0x40100#64
  virtualMemoryMapCode := 0x40200#64
  ramimages := sampleProgram
  tickLimit := 0#32
  tablesAligned := by decide
  tablesStart := by decide
  tablesEnd := by decide
  endBelowStack := by decide
  handlerInside := by decide
  mapInside := by decide

theorem sampleImage_programs (program : Fin 6) :
    elfPrograms (sampleImage.ramimages program) (elfHeader (sampleImage.ramimages program)) =
      [⟨elfPtypeLoad, 0#64, BitVec.ofNat 64 (linkBase program), 0x10#64, 0x1800#64⟩] := by
  fin_cases program <;> rfl

theorem linkBase_range (program : Fin 6) :
    0x100000 ≤ linkBase program ∧ linkBase program < 0x1C0001 := by
  unfold linkBase
  split <;> omega

theorem sampleImage_pages {program : Fin 6} {pn : PhysicalPage} :
    imagePages sampleImage program pn ↔
      linkBase program / 4096 ≤ pn.val ∧ 4096 * pn.val < linkBase program + 0x1800 := by
  have range := linkBase_range program
  have start : (BitVec.ofNat 64 (linkBase program)).toNat = linkBase program := by
    rw [BitVec.toNat_ofNat]
    omega
  have size : (0x1800#64).toNat = 0x1800 := rfl
  unfold imagePages programPages segmentPages
  rw [sampleImage_programs]
  simp only [List.mem_singleton, exists_eq_left, true_and, BitVec.toNat_add, start, size]
  omega

theorem sampleImage_fits (used : PhysicalPage → Prop) (program : Fin 6)
    (unused : ∀ pn : PhysicalPage, 0x100 ≤ pn.val → ¬ used pn) :
    ImageFits sampleImage used program := by
  have range := linkBase_range program
  refine ⟨?_, ?_, ?_, ?_⟩
  · fin_cases program <;> rfl
  · rw [sampleImage_programs]
    intro ph member _
    rw [List.mem_singleton] at member
    subst member
    fin_cases program <;> decide
  · intro ph member load pn wanted
    have here : imagePages sampleImage program pn := ⟨ph, member, load, wanted⟩
    rw [sampleImage_pages] at here
    exact unused pn (by omega)
  · rw [sampleImage_programs]
    exact List.pairwise_singleton _ _

def coldState : KernelState :=
  ⟨fun _ => 0, fun _ => ⟨0, 0⟩, processesInit, none, 0#32, 0#32, 0, 0#64, []⟩

/-- After a cold boot `process_setup` begins with the first process while every page of
the processes' region is free. -/
theorem sampleImage_begins : ∃ (state : KernelState) (users : Nat) (active : Pid → Prop),
    KernelTables sampleImage state.memory ∧
    PageinfoOk sampleImage users active state.pageinfo ∧
    (state.processes 1).pPagetable = sampleImage.kernelPagetable ∧
    ∀ pn : PhysicalPage, 0x100 ≤ pn.val → (state.pageinfo pn).refcount = 0 := by
  obtain ⟨memory, begun, _⟩ := virtualMemoryInit_spec sampleImage coldState
  have inv : KernelInv sampleImage { pageinfoInit sampleImage
      { coldState with memory := memory, cr3 := sampleImage.kernelPagetable } with
      processes := processesInit } := InitialState.inv ⟨_, _, begun, rfl⟩
  obtain ⟨state, _, tables, ok, processes, kept⟩ := beginSetup_spec inv 1
  refine ⟨state, _, _, tables, ok, ?_, ?_⟩
  · rw [processes, Function.update_self]
  · intro pn region
    by_contra used
    have above : 0x100000 ≤ (pageAddress pn).toNat := by
      rw [pageAddress_toNat]
      omega
    have early := kept pn used
    simp [pageinfoInit, initialOwner_free sampleImage above] at early

theorem sampleImage_programsFit :
    ProgramsFit sampleImage (Unfree sampleImage) (initialPrograms none) := by
  refine ⟨?_, ?_⟩
  · intro entry _
    refine sampleImage_fits _ entry.2 ?_
    intro pn above unfree
    refine unfree (initialOwner_free _ ?_)
    rw [pageAddress_toNat]
    omega
  · have stack : ∀ pid : Pid, pid.val ≤ 4 →
        (physicalPage (stackPage pid)).val = 0xFF + 0x40 * pid.val := by
      intro pid few
      have place := stackPage_toNat few
      have limit : memsizePhysical.toNat = 0x200000 := rfl
      rw [physicalPage_val (by omega), place]
      omega
    have disjoint : ∀ (earlier : Pid × Fin 6) (later : Fin 6),
        earlier.1.val = earlier.2.val + 1 → earlier.2.val < later.val → later.val < 4 →
        ∀ pn, setupPages sampleImage earlier pn → ¬ imagePages sampleImage later pn := by
      intro earlier later own before few pn early late
      have place := stack earlier.1 (by omega)
      rw [sampleImage_pages, linkBase, if_pos few] at late
      rcases early with early | rfl
      · rw [sampleImage_pages, linkBase, if_pos (by omega)] at early
        omega
      · omega
    have programs : initialPrograms none = [(1, 0), (2, 1), (3, 2), (4, 3)] := rfl
    rw [programs]
    simp only [List.pairwise_cons, List.mem_cons, List.not_mem_nil, or_false,
      forall_eq_or_imp, forall_eq, IsEmpty.forall_iff, implies_true, List.Pairwise.nil,
      and_true]
    refine ⟨⟨?_, ?_, ?_⟩, ⟨?_, ?_⟩, ?_⟩ <;> refine disjoint (_, _) _ ?_ ?_ ?_ <;> decide

theorem sampleImage_boots : ∃ start, kernel sampleImage coldState none = .ok start :=
  kernel_ok sampleImage_programsFit coldState

end OsLabs.Weensy
