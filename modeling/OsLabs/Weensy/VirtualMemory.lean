import OsLabs.Weensy.PageMap

/-!
# Address spaces

An address space says, for each page of the 48-bit space, which physical page is
behind it and with which permissions.  `virtual_memory_lookup` reads the address
space of a page table, and `virtual_memory_map` refines the abstract operation
`mapPages`, completely when it returns 0 and for a prefix when it returns -1.
-/

set_option autoImplicit false

namespace OsLabs.Weensy

open OsLabs.ByteMemory OsLabs.RadixTree OsLabs.ExceptRules

structure Mapping where
  frame : UIntPtr
  perm : BitVec 32

abbrev AddressSpace := BitVec 36 → Option Mapping

/-- Map `count` pages from the page of `va` on to the frames from `pa` on. -/
def AddressSpace.mapPages (space : AddressSpace) (va pa : UIntPtr)
    (perm : BitVec 32) (count : Nat) : AddressSpace := fun page =>
  if (page - pageOf va).toNat < count then
    some ⟨nthPage pa (page - pageOf va).toNat, perm⟩
  else space page

/-- What `virtual_memory_lookup` reports for an address of a page. -/
def Mapping.report (va : UIntPtr) : Option Mapping → VaMapping
  | none => .unmapped
  | some mapping =>
      ⟨pageNumber mapping.frame, mapping.frame + pageOffset va, mapping.perm⟩

def mappingAt (entries : List PageEntry) : Mapping :=
  ⟨pteAddr (entries.getLastD 0#64), (permsAlong entries).setWidth 32⟩

def addressSpace (memory : Memory) (root : PageAddr) : AddressSpace := fun page =>
  (trail entryChild (slots memory) root (vaPath (page.setWidth 64 <<< 12))).map
    mappingAt

theorem pageOf_shift (page : BitVec 36) : pageOf (page.setWidth 64 <<< 12) = page := by
  apply BitVec.eq_of_toNat_eq
  have bound := page.isLt
  rw [pageOf_toNat, BitVec.toNat_shiftLeft, BitVec.toNat_setWidth, Nat.shiftLeft_eq]
  omega

theorem addressSpace_pageOf (memory : Memory) (root : PageAddr) (va : UIntPtr) :
    addressSpace memory root (pageOf va) =
      (trail entryChild (slots memory) root (vaPath va)).map mappingAt := by
  have same : vaPath ((pageOf va).setWidth 64 <<< 12) = vaPath va :=
    (vaPath_eq_iff _ _).mpr (pageOf_shift _)
  rw [addressSpace, same]

theorem pageNumber_pteAddr (pe : PageEntry) :
    pageNumber (pteAddr pe) = pageNumber pe := by
  have same : pteAddr pe >>> 12 = pe >>> 12 := by
    apply BitVec.eq_of_toNat_eq
    rw [BitVec.toNat_ushiftRight, BitVec.toNat_ushiftRight, pteAddr_toNat,
      Nat.shiftRight_eq_div_pow, Nat.shiftRight_eq_div_pow]
    omega
  rw [pageNumber, same, pageNumber]

theorem virtualMemoryLookup_report (memory : Memory) (root : PageAddr)
    (va : UIntPtr) :
    virtualMemoryLookup memory root.addr va =
      Mapping.report va (addressSpace memory root (pageOf va)) := by
  rw [virtualMemoryLookup_eq, addressSpace_pageOf]
  cases trail entryChild (slots memory) root (vaPath va) with
  | none => rfl
  | some entries =>
      simp only [mappingOf, Option.map_some, Mapping.report, mappingAt,
        pageNumber_pteAddr]

/-! ## The permissions of a mapped page -/

theorem permsAlong_getLsbD (entries : List PageEntry) (i : Nat) (bound : i < 64) :
    (permsAlong entries).getLsbD i =
      (decide (i < 3) && entries.all fun pe => pe.getLsbD i) := by
  have table : ∀ i < 64, (7#64).getLsbD i = decide (i < 3) := by decide
  have general : ∀ word : BitVec 64, (entries.foldl (· &&& ·) word).getLsbD i =
      (word.getLsbD i && entries.all fun pe => pe.getLsbD i) := by
    induction entries with
    | nil =>
        intro word
        simp
    | cons pe rest ih =>
        intro word
        simp only [List.foldl_cons, ih, BitVec.getLsbD_and, List.all_cons,
          Bool.and_assoc]
  rw [permsAlong, general, table i bound]

theorem low_bits_of_aligned {pa : UIntPtr} (aligned : pa.toNat % 4096 = 0) {i : Nat}
    (low : i < 12) : pa.getLsbD i = false := by
  have bits := Nat.testBit_mod_two_pow pa.toNat 12 i
  rw [show (2 : Nat) ^ 12 = 4096 from rfl, aligned] at bits
  simpa [low, BitVec.getLsbD] using bits.symm

theorem permsAlong_requested {perm : BitVec 32} {pa : UIntPtr}
    {read : List PageEntry} (aligned : pa.toNat % 4096 = 0)
    (allowed : ∀ pe ∈ read, Allows perm pe)
    (each : ∀ pe ∈ read, pe &&& pteP ≠ 0#64) :
    (permsAlong (read ++ [pa ||| permWord perm])).setWidth 32 = perm &&& 7#32 := by
  have widen : ∀ i < 12, (permWord perm).getLsbD i = perm.getLsbD i := by
    intro i low
    rw [permWord, BitVec.getLsbD_signExtend]
    simp [show i < 64 by omega, show i < 32 by omega]
  apply BitVec.eq_of_getLsbD_eq
  intro i bound
  have table : ∀ i < 32, (7#32).getLsbD i = decide (i < 3) := by decide
  rw [BitVec.getLsbD_setWidth, permsAlong_getLsbD _ i (by omega),
    BitVec.getLsbD_and, table i bound]
  by_cases low : i < 3
  · have last : (pa ||| permWord perm).getLsbD i = perm.getLsbD i := by
      rw [BitVec.getLsbD_or, low_bits_of_aligned aligned (by omega),
        widen i (by omega), Bool.false_or]
    have upper : perm.getLsbD i = true → ∀ pe ∈ read, pe.getLsbD i = true := by
      intro bit pe member
      have allows := allowed pe member
      have here := each pe member
      rw [Ne, noP_iff, Bool.not_eq_false] at here
      interval_cases i
      · exact here
      · have wanted := allows.writable
        rw [Ne, noW_iff, Bool.not_eq_false, widen 1 (by omega)] at wanted
        simpa [noW_iff] using wanted bit
      · have wanted := allows.user
        rw [Ne, noU_iff, Bool.not_eq_false, widen 2 (by omega)] at wanted
        simpa [noU_iff] using wanted bit
    rw [List.all_append]
    simp only [List.all_cons, List.all_nil, Bool.and_true, last, bound, low,
      decide_true, Bool.true_and]
    cases bit : perm.getLsbD i with
    | false => simp
    | true =>
        have all : (read.all fun pe => pe.getLsbD i) = true := by
          rw [List.all_eq_true]
          exact upper bit
        rw [all]
        rfl
  · simp [low]

/-! ## virtual_memory_map refines mapPages -/

/-- The arguments that pass the assertions of `virtual_memory_map`. -/
structure MapArgs (va pa sz : UIntPtr) (perm : BitVec 32) : Prop where
  vaAligned : va.toNat % 4096 = 0
  szAligned : sz.toNat % 4096 = 0
  vaWraps : va ≤ va + sz ∨ va + sz = 0#64
  paAligned : permWord perm &&& pteP ≠ 0#64 → pa.toNat % 4096 = 0
  paExists : permWord perm &&& pteP ≠ 0#64 →
    pa.toNat + sz.toNat ≤ memsizePhysical.toNat
  permSmall : perm.toNat < 4096

theorem permSmall_of_toInt {perm : BitVec 32}
    (range : 0 ≤ perm.toInt ∧ perm.toInt < 0x1000) : perm.toNat < 4096 := by
  have := perm.isLt
  rw [BitVec.toInt_eq_toNat_cond] at range
  split at range <;> omega

theorem paExists_of_words {pa sz : UIntPtr} (wraps : pa ≤ pa + sz)
    (exist : pa + sz ≤ memsizePhysical) :
    pa.toNat + sz.toNat ≤ memsizePhysical.toNat := by
  have := pa.isLt
  have := sz.isLt
  rw [BitVec.le_def, BitVec.toNat_add] at wraps exist
  omega

theorem virtualMemoryMap_run {state next : WalkState} {pagetable va pa sz : UIntPtr}
    {perm : BitVec 32} {allocator : Allocator} {status : Int}
    (run : virtualMemoryMap state pagetable va pa sz perm allocator =
      .ok (status, next)) :
    MapArgs va pa sz perm ∧ pagetable.toNat % 4096 = 0 ∧
      mapLoop pagetable perm allocator (sz.toNat / 4096) va pa (-1) none state =
        .ok (status, next) := by
  unfold virtualMemoryMap at run
  obtain ⟨_, vaAligned, run⟩ := bind_eq_ok.mp run
  obtain ⟨_, szAligned, run⟩ := bind_eq_ok.mp run
  obtain ⟨_, vaWraps, run⟩ := bind_eq_ok.mp run
  rw [assert_eq_ok] at vaAligned szAligned vaWraps
  rw [mod_pageSize_eq_zero] at vaAligned szAligned
  have pages : (sz / pageSize).toNat = sz.toNat / 4096 := by
    rw [BitVec.toNat_udiv]
    rfl
  split at run
  · next present =>
      obtain ⟨_, paAligned, run⟩ := bind_eq_ok.mp run
      obtain ⟨_, paWraps, run⟩ := bind_eq_ok.mp run
      obtain ⟨_, paExists, run⟩ := bind_eq_ok.mp run
      obtain ⟨_, permSensible, run⟩ := bind_eq_ok.mp run
      obtain ⟨_, tableAligned, run⟩ := bind_eq_ok.mp run
      rw [assert_eq_ok] at paAligned paWraps paExists permSensible tableAligned
      rw [pages] at run
      exact ⟨⟨vaAligned, szAligned, vaWraps,
        fun _ => mod_pageSize_eq_zero.mp paAligned,
        fun _ => paExists_of_words paWraps paExists,
        permSmall_of_toInt permSensible⟩,
        mod_pageSize_eq_zero.mp tableAligned, run⟩
  · next absent =>
      obtain ⟨_, permSensible, run⟩ := bind_eq_ok.mp run
      obtain ⟨_, tableAligned, run⟩ := bind_eq_ok.mp run
      rw [assert_eq_ok] at permSensible tableAligned
      rw [pages] at run
      exact ⟨⟨vaAligned, szAligned, vaWraps, fun present => absurd present absent,
        fun present => absurd present absent, permSmall_of_toInt permSensible⟩,
        mod_pageSize_eq_zero.mp tableAligned, run⟩

theorem pageOf_nthPage (va : UIntPtr) (j : Nat) :
    pageOf (nthPage va j) = pageOf va + BitVec.ofNat 36 j := by
  apply BitVec.eq_of_toNat_eq
  rw [pageOf_toNat, BitVec.toNat_add, pageOf_toNat, nthPage, BitVec.toNat_add,
    BitVec.toNat_ofNat, BitVec.toNat_ofNat]
  omega

theorem pteAddr_requested {pa : UIntPtr} {perm : BitVec 32}
    (aligned : pa.toNat % 4096 = 0) (small : perm.toNat < 4096) :
    pteAddr (pa ||| permWord perm) = pa := by
  have word : (permWord perm).toNat = perm.toNat := by
    have positive : perm.msb = false := by
      rw [BitVec.msb_eq_false_iff_two_mul_lt]
      omega
    rw [permWord, BitVec.toNat_signExtend, positive]
    simp
    omega
  apply BitVec.eq_of_toNat_eq
  rw [pteAddr_toNat, toNat_or_of_aligned aligned (by omega), word]
  omega

theorem nthPage_aligned {pa : UIntPtr} (aligned : pa.toNat % 4096 = 0) (j : Nat) :
    (nthPage pa j).toNat % 4096 = 0 := by
  rw [nthPage, BitVec.toNat_add, BitVec.toNat_ofNat]
  omega

/-- A path whose last entry was written by the loop holds the requested mapping. -/
theorem mappingAt_of_carries {root : PageAddr} {perm : BitVec 32} {state : WalkState}
    {path : List (Fin 512)} {pa : UIntPtr} (aligned : pa.toNat % 4096 = 0)
    (small : perm.toNat < 4096)
    (carries : Carries root perm state path (pa ||| permWord perm)) :
    (trail entryChild (Tables state) root path).map mappingAt =
      some ⟨pa, perm &&& 7#32⟩ := by
  obtain ⟨read, found, allowed⟩ := carries
  have each : ∀ pe ∈ read, pe &&& pteP ≠ 0#64 := fun pe member absent =>
    trail_present _ _ _ _ found pe (by simp [member]) (entryChild_eq_none.mpr absent)
  rw [found, Option.map_some, mappingAt, permsAlong_requested aligned allowed each,
    List.getLastD_concat, pteAddr_requested aligned small]

/-- With `PTE_P`, the address space after the call is the one before with the
pages that were done mapped as requested. -/
theorem virtualMemoryMap_refines {state next : WalkState} {root : PageAddr}
    {va pa sz : UIntPtr} {perm : BitVec 32} {allocator : Allocator} {status : Int}
    (ok : TablesOk root allocator state)
    (present : permWord perm &&& pteP ≠ 0#64)
    (run : virtualMemoryMap state root.addr va pa sz perm allocator =
      .ok (status, next)) :
    ∃ done ≤ sz.toNat / 4096, (status = 0 → done = sz.toNat / 4096) ∧
      addressSpace next.memory root =
        (addressSpace state.memory root).mapPages va pa (perm &&& 7#32) done := by
  obtain ⟨args, _, loop⟩ := virtualMemoryMap_run run
  have spec := mapLoop_spec root perm allocator _ va pa (-1) none state next status ok
    (fun _ pt impossible => by cases impossible) loop
  obtain ⟨done, pages, result⟩ := spec.finished
  have exist := args.paExists present
  have small : done ≤ sz.toNat / 4096 := by
    rcases result with ⟨_, whole⟩ | ⟨_, part, _⟩ <;> omega
  refine ⟨done, small, ?_, ?_⟩
  · intro zero
    rcases result with ⟨_, whole⟩ | ⟨failed, _, _⟩
    · exact whole
    · omega
  · have few : done ≤ 512 := by
      have : memsizePhysical.toNat = 0x200000 := rfl
      omega
    funext page
    have same : ∀ j, vaPath (page.setWidth 64 <<< 12) = vaPath (nthPage va j) ↔
        page - pageOf va = BitVec.ofNat 36 j := by
      intro j
      rw [vaPath_eq_iff, pageOf_shift, pageOf_nthPage]
      exact ⟨fun equal => by rw [equal, BitVec.add_comm, BitVec.add_sub_cancel],
        fun equal => by rw [← equal, BitVec.add_comm, BitVec.sub_add_cancel]⟩
    rcases pages (vaPath (page.setWidth 64 <<< 12)) rfl with
      ⟨j, bound, on, pageDone⟩ | ⟨off, kept⟩
    · have offset : (page - pageOf va).toNat = j := by
        rw [(same j).mp on, BitVec.toNat_ofNat]
        omega
      rw [AddressSpace.mapPages, offset, if_pos bound]
      exact mappingAt_of_carries (nthPage_aligned (args.paAligned present) j)
        args.permSmall (pageDone.mapped present)
    · have outside : ¬ (page - pageOf va).toNat < done := by
        intro inside
        refine off _ inside ((same _).mpr ?_)
        rw [BitVec.ofNat_toNat, BitVec.setWidth_eq]
      rw [AddressSpace.mapPages, if_neg outside]
      exact congrArg (Option.map mappingAt) kept

/-! ## What the caller sees -/

theorem pageOf_offset {va : UIntPtr} (aligned : va.toNat % 4096 = 0) (x : UIntPtr) :
    pageOf (va + x) - pageOf va = BitVec.ofNat 36 (x.toNat / 4096) := by
  have shift : pageOf (va + x) = pageOf va + BitVec.ofNat 36 (x.toNat / 4096) := by
    apply BitVec.eq_of_toNat_eq
    rw [pageOf_toNat, BitVec.toNat_add, BitVec.toNat_add, pageOf_toNat,
      BitVec.toNat_ofNat]
    omega
  rw [shift, BitVec.add_comm, BitVec.add_sub_cancel]

theorem pageNumber_of_small {pa : UIntPtr} (small : pa.toNat ≤ 0x200000) :
    pageNumber pa = ((pa.toNat / 4096 : Nat) : Int) := by
  rw [pageNumber, BitVec.toInt_eq_toNat_cond, BitVec.toNat_setWidth,
    BitVec.toNat_ushiftRight, Nat.shiftRight_eq_div_pow]
  split <;> omega

/-- The report for an address in a page that was mapped as requested. -/
theorem report_mapped {va pa sz x : UIntPtr} {perm : BitVec 32}
    (args : MapArgs va pa sz perm) (present : permWord perm &&& pteP ≠ 0#64)
    (inside : x < sz) :
    Mapping.report (va + x) (some ⟨nthPage pa (x.toNat / 4096), perm &&& 7#32⟩) =
      ⟨(((pa + x).toNat / 4096 : Nat) : Int), pa + x, perm &&& 7#32⟩ := by
  have exist := args.paExists present
  have limit : memsizePhysical.toNat = 0x200000 := rfl
  have paAligned := args.paAligned present
  have vaAligned := args.vaAligned
  rw [BitVec.lt_def] at inside
  have sum : (pa + x).toNat = pa.toNat + x.toNat := by
    rw [BitVec.toNat_add]
    omega
  have frame : (nthPage pa (x.toNat / 4096)).toNat =
      pa.toNat + x.toNat / 4096 * 4096 := by
    rw [nthPage, BitVec.toNat_add, BitVec.toNat_ofNat]
    omega
  have number : pageNumber (nthPage pa (x.toNat / 4096)) =
      (((pa + x).toNat / 4096 : Nat) : Int) := by
    rw [pageNumber_of_small (by omega), frame, sum]
    congr 1
    omega
  have address : nthPage pa (x.toNat / 4096) + pageOffset (va + x) = pa + x := by
    apply BitVec.eq_of_toNat_eq
    rw [BitVec.toNat_add, frame, pageOffset_toNat, BitVec.toNat_add, sum]
    omega
  rw [Mapping.report, number, address]

/-- After a call that returns 0 with `PTE_P`, every address of the range is mapped
as the comment of `virtual_memory_map` promises. -/
theorem virtualMemoryMap_establishes {state next : WalkState} {root : PageAddr}
    {va pa sz : UIntPtr} {perm : BitVec 32} {allocator : Allocator}
    (ok : TablesOk root allocator state)
    (present : permWord perm &&& pteP ≠ 0#64)
    (run : virtualMemoryMap state root.addr va pa sz perm allocator = .ok (0, next))
    (x : UIntPtr) (inside : x < sz) :
    virtualMemoryLookup next.memory root.addr (va + x) =
      ⟨(((pa + x).toNat / 4096 : Nat) : Int), pa + x,
        perm &&& (pteP ||| pteW ||| pteU).setWidth 32⟩ := by
  obtain ⟨args, _, _⟩ := virtualMemoryMap_run run
  obtain ⟨done, _, whole, space⟩ := virtualMemoryMap_refines ok present run
  have exist := args.paExists present
  have limit : memsizePhysical.toNat = 0x200000 := rfl
  have size := BitVec.lt_def.mp inside
  have aligned := args.szAligned
  have offset : (pageOf (va + x) - pageOf va).toNat = x.toNat / 4096 := by
    rw [pageOf_offset args.vaAligned, BitVec.toNat_ofNat]
    omega
  rw [virtualMemoryLookup_report, space, AddressSpace.mapPages, offset, whole rfl,
    if_pos (by omega)]
  exact report_mapped args present inside

def emptyRoot : PageAddr := ⟨0x1000#64, rfl⟩

def zeroState : WalkState := ⟨fun _ => 0, 0⟩

/-- An allocator that hands out `limit` pages from 0x2000 on, then `NULL`. -/
def bumpAllocator (limit : Nat) : Allocator :=
  some fun k =>
    if k < limit then some (BitVec.ofNat 64 (0x2000 + 0x1000 * k)) else none

theorem slots_zero (page : PageAddr) (index : Fin 512) :
    Tables zeroState page index = 0#64 := by
  have zero : ∀ address width, loadLE (fun _ => 0) address width = 0 :=
    fun _ _ => loadLE_zero fun _ _ _ => rfl
  simp [Tables, slots, readEntry, zeroState, zero]

theorem tablesOk_zero {limit : Nat} (small : limit ≤ 0x1FE) :
    TablesOk emptyRoot (bumpAllocator limit) zeroState := by
  have vacant : ∀ index, entryChild (Tables zeroState emptyRoot index) = none := by
    intro index
    rw [slots_zero, entryChild_zero]
  have answer : ∀ k (page : PageAddr),
      (if k < limit then some (BitVec.ofNat 64 (0x2000 + 0x1000 * k)) else none) =
        some page.addr → k < limit ∧ page.addr.toNat = 0x2000 + 0x1000 * k := by
    intro k page given
    split at given
    · next bound =>
        rw [← Option.some.inj given, BitVec.toNat_ofNat]
        exact ⟨bound, by omega⟩
    · cases given
  refine ⟨unshared_empty vacant 3, ?_, ?_⟩
  · intro answers same k _ page given reached
    cases same
    have there := (answer k page given).2
    rw [reaches_empty vacant reached] at there
    have root : emptyRoot.addr.toNat = 0x1000 := rfl
    omega
  · intro answers same j k _ order page late early
    cases same
    have first := (answer j page early).2
    have second := (answer k page late).2
    omega

theorem virtualMemoryMap_establishes_sample :
    ∃ next, virtualMemoryMap zeroState emptyRoot.addr 0x3000#64 0x5000#64 0x2000#64
        7#32 (bumpAllocator 3) = .ok (0, next) ∧
      virtualMemoryLookup next.memory emptyRoot.addr (0x3000#64 + 0x1123#64) =
        ⟨6, 0x6123#64, 7#32⟩ := by
  obtain ⟨next, run⟩ : ∃ next, virtualMemoryMap zeroState emptyRoot.addr 0x3000#64
      0x5000#64 0x2000#64 7#32 (bumpAllocator 3) = .ok (0, next) := ⟨_, rfl⟩
  refine ⟨next, run, ?_⟩
  have ok : TablesOk emptyRoot (bumpAllocator 3) zeroState := tablesOk_zero (by decide)
  exact virtualMemoryMap_establishes ok (by decide) run 0x1123#64 (by decide)

/-- Whatever the result, addresses outside the pages of the range look up as
before; after -1 each address inside is mapped as requested or looks up as
before. -/
theorem virtualMemoryMap_frame {state next : WalkState} {root : PageAddr}
    {va pa sz : UIntPtr} {perm : BitVec 32} {allocator : Allocator} {status : Int}
    (ok : TablesOk root allocator state)
    (run : virtualMemoryMap state root.addr va pa sz perm allocator =
      .ok (status, next)) :
    (∀ other : UIntPtr, (∀ x : UIntPtr, x < sz → pageOf other ≠ pageOf (va + x)) →
      virtualMemoryLookup next.memory root.addr other =
        virtualMemoryLookup state.memory root.addr other) ∧
    (status = -1 → ∀ x : UIntPtr, x < sz →
      virtualMemoryLookup next.memory root.addr (va + x) =
        ⟨(((pa + x).toNat / 4096 : Nat) : Int), pa + x,
          perm &&& (pteP ||| pteW ||| pteU).setWidth 32⟩ ∨
      virtualMemoryLookup next.memory root.addr (va + x) =
        virtualMemoryLookup state.memory root.addr (va + x)) := by
  obtain ⟨args, _, loop⟩ := virtualMemoryMap_run run
  have spec := mapLoop_spec root perm allocator _ va pa (-1) none state next status ok
    (fun _ pt impossible => by cases impossible) loop
  obtain ⟨done, pages, result⟩ := spec.finished
  have size := sz.isLt
  have few : done ≤ sz.toNat / 4096 := by
    rcases result with ⟨_, whole⟩ | ⟨_, part, _⟩ <;> omega
  refine ⟨?_, ?_⟩
  · intro other apart
    rw [virtualMemoryLookup_eq, virtualMemoryLookup_eq]
    rcases pages (vaPath other) rfl with ⟨j, bound, on, _⟩ | ⟨_, kept⟩
    · have inside : BitVec.ofNat 64 (4096 * j) < sz := by
        rw [BitVec.lt_def, BitVec.toNat_ofNat]
        omega
      exact absurd ((vaPath_eq_iff _ _).mp on) (apart _ inside)
    · exact congrArg (mappingOf other) kept
  · intro failed x inside
    have present : permWord perm &&& pteP ≠ 0#64 := by
      rcases result with ⟨zero, _⟩ | ⟨_, _, present⟩
      · omega
      · exact present
    obtain ⟨reached, _, _, space⟩ := virtualMemoryMap_refines ok present run
    have exist := args.paExists present
    have limit : memsizePhysical.toNat = 0x200000 := rfl
    have bound := BitVec.lt_def.mp inside
    have offset : (pageOf (va + x) - pageOf va).toNat = x.toNat / 4096 := by
      rw [pageOf_offset args.vaAligned, BitVec.toNat_ofNat]
      omega
    rw [virtualMemoryLookup_report, virtualMemoryLookup_report, space,
      AddressSpace.mapPages, offset]
    by_cases before : x.toNat / 4096 < reached
    · left
      rw [if_pos before]
      exact report_mapped args present inside
    · right
      rw [if_neg before]

/-- With only three tables the second page of this range cannot be mapped. -/
theorem virtualMemoryMap_frame_sample :
    ∃ next, virtualMemoryMap zeroState emptyRoot.addr 0x1FF000#64 0x5000#64
        0x2000#64 7#32 (bumpAllocator 3) = .ok (-1, next) ∧
      virtualMemoryLookup next.memory emptyRoot.addr 0x1FE000#64 =
        virtualMemoryLookup zeroState.memory emptyRoot.addr 0x1FE000#64 := by
  obtain ⟨next, run⟩ : ∃ next, virtualMemoryMap zeroState emptyRoot.addr 0x1FF000#64
      0x5000#64 0x2000#64 7#32 (bumpAllocator 3) = .ok (-1, next) := ⟨_, rfl⟩
  refine ⟨next, run, ?_⟩
  have ok : TablesOk emptyRoot (bumpAllocator 3) zeroState := tablesOk_zero (by decide)
  refine (virtualMemoryMap_frame ok run).1 0x1FE000#64 ?_
  intro x inside same
  have offset := congrArg BitVec.toNat same
  have bound : x.toNat < 0x2000 := BitVec.lt_def.mp inside
  rw [pageOf_toNat, pageOf_toNat, BitVec.toNat_add] at offset
  simp only [BitVec.toNat_ofNat] at offset
  omega

end OsLabs.Weensy
