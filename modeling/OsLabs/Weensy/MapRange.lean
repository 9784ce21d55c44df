import OsLabs.Weensy.VirtualMemory

/-!
# The ranges of virtual_memory_map

The comment in kernel.h promises -1 only when a page table could not be
allocated.  The loop looks a last-level table up when the index of the page
differs from `last_index123`, which starts as -1, and the index is the upper part
of a 64-bit address converted to `int`: where bits 21 to 52 of the first address
are all ones, it is -1 as well.  Such a range gets no table for its first pages.
The call then fails with every table in place, or passes over mapped pages.
-/

set_option autoImplicit false

namespace OsLabs.Weensy

open OsLabs.ByteMemory OsLabs.RadixTree OsLabs.ExceptRules

/-! ## A walk that lacks a table -/

/-- The allocator is `NULL`, or is called and returns `NULL`. -/
def GivesNoTable (allocator : Allocator) (here after : WalkState) : Prop :=
  (allocator = none ∧ after = here) ∨
  ∃ answers, allocator = some answers ∧ answers here.calls = none ∧
    after = { here with calls := here.calls + 1 }

/-- The walk along `levels` comes to an entry that is not present, and there is no
table to put in its place. -/
def LacksTable (va : UIntPtr) (perm : BitVec 32) (allocator : Allocator)
    (levels : List (Fin 4)) (pagetable : UIntPtr) (before after : WalkState) : Prop :=
  ∃ upper level lower pt here, levels = upper ++ level :: lower ∧
    lookupLevels va perm allocator upper pagetable before = .ok (some pt, here) ∧
    readEntry here.memory pt (pageindex va level) &&& pteP = 0#64 ∧
    GivesNoTable allocator here after

/-- The comment of `virtual_memory_map` on its result, for one range: -1 means that
the walk for some page, made when the pages before it had been mapped, lacked a
table; and unmapping always succeeds. -/
structure FailsOnlyForTables (va pa sz : UIntPtr) (perm : BitVec 32) : Prop where
  present : permWord perm &&& pteP ≠ 0#64 → ∀ state pagetable allocator next,
    virtualMemoryMap state pagetable va pa sz perm allocator = .ok (-1, next) →
    ∃ j < sz.toNat / 4096, ∃ before,
      virtualMemoryMap state pagetable va pa (BitVec.ofNat 64 (4096 * j)) perm
        allocator = .ok (0, before) ∧
      LacksTable (nthPage va j) perm allocator [0, 1, 2] pagetable before next
  absent : permWord perm &&& pteP = 0#64 → ∀ state pagetable allocator status next,
    virtualMemoryMap state pagetable va pa sz perm allocator = .ok (status, next) →
    status = 0 ∧ ∀ x : UIntPtr, x < sz →
      virtualMemoryLookup next.memory pagetable (va + x) = .unmapped

/-- The range is empty, does not start on the index -1, or, when it is unmapped, comes
back to all pages of its first 2 MB in the 48-bit address space. -/
def StartsClear (va sz : UIntPtr) (perm : BitVec 32) : Prop :=
  sz = 0#64 ∨ index123 va ≠ -1 ∨
    permWord perm &&& pteP = 0#64 ∧
      2 ^ 48 + (2 ^ 21 - va.toNat % 2 ^ 21) ≤ sz.toNat

/-! ## Mapping fails where a walk lacks a table -/

theorem presentEntry_lacks {va pt : UIntPtr} {perm : BitVec 32}
    {allocator : Allocator} {level : Fin 4} {state next : WalkState}
    (present : permWord perm &&& pteP ≠ 0#64)
    (run : presentEntry va perm allocator level pt state = .ok (none, next)) :
    readEntry state.memory pt (pageindex va level) &&& pteP = 0#64 ∧
      GivesNoTable allocator state next := by
  simp only [presentEntry, if_neg present] at run
  split at run
  · next absent =>
      refine ⟨absent, ?_⟩
      cases allocator with
      | none =>
          cases run
          exact Or.inl ⟨rfl, rfl⟩
      | some answers =>
          cases answer : answers state.calls with
          | none =>
              simp only [answer] at run
              cases run
              exact Or.inr ⟨answers, rfl, answer, rfl⟩
          | some newPt =>
              simp only [answer] at run
              obtain ⟨_, _, run⟩ := bind_eq_ok.mp run
              cases run
  · cases run

theorem lookupLevels_lacks {va : UIntPtr} {perm : BitVec 32} {allocator : Allocator}
    (levels : List (Fin 4)) (pt : UIntPtr) (state next : WalkState)
    (present : permWord perm &&& pteP ≠ 0#64)
    (run : lookupLevels va perm allocator levels pt state = .ok (none, next)) :
    LacksTable va perm allocator levels pt state next := by
  induction levels generalizing pt state with
  | nil => cases run
  | cons level rest ih =>
      simp only [lookupLevels] at run
      obtain ⟨⟨entry, middle⟩, levelRun, run⟩ := bind_eq_ok.mp run
      cases entry with
      | none =>
          cases run
          obtain ⟨absent, refused⟩ := presentEntry_lacks present levelRun
          exact ⟨[], level, rest, pt, state, rfl, rfl, absent, refused⟩
      | some pe =>
          simp only at run
          obtain ⟨_, checked, run⟩ := bind_eq_ok.mp run
          obtain ⟨upper, stop, lower, last, here, split, walk, absent, refused⟩ :=
            ih (pteAddr pe) middle run
          refine ⟨level :: upper, stop, lower, last, here, ?_, ?_, absent, refused⟩
          · rw [split, List.cons_append]
          · simp only [lookupLevels]
            exact bind_eq_ok.mpr ⟨_, levelRun, bind_eq_ok.mpr ⟨_, checked, walk⟩⟩

/-- As long as a table is at hand whenever the index has not changed, the loop
stops with -1 on a walk of its own. -/
theorem mapLoop_lacks {pagetable : UIntPtr} {perm : BitVec 32} {allocator : Allocator}
    (pages : Nat) (va pa : UIntPtr) (lastIndex123 : Int)
    (l4pagetable : Option UIntPtr) (state next : WalkState)
    (present : permWord perm &&& pteP ≠ 0#64)
    (cached : index123 va = lastIndex123 → l4pagetable ≠ none)
    (run : mapLoop pagetable perm allocator pages va pa lastIndex123 l4pagetable
      state = .ok (-1, next)) :
    ∃ j < pages, ∃ before,
      mapLoop pagetable perm allocator j va pa lastIndex123 l4pagetable state =
        .ok (0, before) ∧
      LacksTable (nthPage va j) perm allocator [0, 1, 2] pagetable before next := by
  induction pages generalizing va pa lastIndex123 l4pagetable state with
  | zero => cases run
  | succ pages ih =>
      simp only [mapLoop] at run
      obtain ⟨⟨found, walked⟩, walkRun, run⟩ := bind_eq_ok.mp run
      cases found with
      | some l4 =>
          obtain ⟨j, bound, before, front, lacks⟩ :=
            ih (va + pageSize) (pa + pageSize) (index123 va) (some l4) _
              (fun _ => Option.some_ne_none l4) run
          refine ⟨j + 1, by omega, before, ?_, ?_⟩
          · simp only [mapLoop]
            exact bind_eq_ok.mpr ⟨_, walkRun, front⟩
          · rw [← nthPage_succ]
            exact lacks
      | none =>
          simp only [if_pos present] at run
          cases run
          refine ⟨0, by omega, state, rfl, ?_⟩
          rw [nthPage_zero]
          unfold cachedTable at walkRun
          split at walkRun
          · exact lookupLevels_lacks [0, 1, 2] pagetable state _ present walkRun
          · next hit =>
              cases walkRun
              exact absurd rfl (cached (not_not.mp hit))

/-! ## Unmapping cuts the pages of the range -/

/-- The loop holds the table that the upper path leads to.  Where tables are shared
an earlier write may have cut that path, and the loop still holds a table. -/
structure HoldsTable (root : PageAddr) (state : WalkState) (va : UIntPtr)
    (l4pagetable : Option UIntPtr) : Prop where
  leads : ∀ page, descend entryChild (Tables state) root (vaUpper va) = some page →
    l4pagetable = some page.addr
  aligned : ∀ pt, l4pagetable = some pt → ∃ page : PageAddr, pt = page.addr

theorem HoldsTable.of_descend {root : PageAddr} {state : WalkState} {va : UIntPtr}
    {l4pagetable : Option UIntPtr}
    (reads : l4pagetable = (descend entryChild (Tables state) root (vaUpper va)).map
      PageAddr.addr) : HoldsTable root state va l4pagetable := by
  subst reads
  refine ⟨?_, ?_⟩
  · intro page here
    rw [here]
    rfl
  · intro pt same
    obtain ⟨page, _, addr⟩ := Option.map_eq_some_iff.mp same
    exact ⟨page, addr.symm⟩

theorem HoldsTable.next {root : PageAddr} {before after : WalkState} {va : UIntPtr}
    {l4pagetable : Option UIntPtr} (holds : HoldsTable root before va l4pagetable)
    (cut : Cut entryChild (Tables before) (Tables after))
    (hit : index123 (va + pageSize) = index123 va) :
    HoldsTable root after (va + pageSize) l4pagetable := by
  refine ⟨?_, holds.aligned⟩
  intro page here
  rw [vaUpper_next va hit] at here
  exact holds.leads page (cut.descend here)

theorem lookupLevels_reads {va : UIntPtr} {perm : BitVec 32} {allocator : Allocator}
    (levels : List (Fin 4)) (page : PageAddr) (state next : WalkState)
    (found : Option UIntPtr) (absent : permWord perm &&& pteP = 0#64)
    (run : lookupLevels va perm allocator levels page.addr state =
      .ok (found, next)) :
    next = state ∧ found = (descend entryChild (Tables state) page
      (levels.map (pageindex va))).map PageAddr.addr := by
  induction levels generalizing page with
  | nil =>
      cases run
      exact ⟨rfl, rfl⟩
  | cons level rest ih =>
      simp only [lookupLevels] at run
      obtain ⟨⟨entry, middle⟩, levelRun, run⟩ := bind_eq_ok.mp run
      have read : readEntry state.memory page.addr (pageindex va level) =
          slots state.memory page (pageindex va level) := rfl
      simp only [presentEntry, if_pos absent, read] at levelRun
      rw [List.map_cons, descend]
      split at levelRun
      · next missing =>
          cases levelRun
          cases run
          rw [entryChild_eq_none.mpr missing]
          exact ⟨rfl, rfl⟩
      · next there =>
          cases levelRun
          simp only at run
          obtain ⟨_, _, run⟩ := bind_eq_ok.mp run
          rw [entryChild_of_present there]
          exact ih (ptePage _) run

/-- One page of the range is unmapped: the walk changes nothing, and the write, if
there is a table, cuts the last entry of the path. -/
structure Unmaps (root : PageAddr) (before after : WalkState) (va : UIntPtr) : Prop where
  cut : Cut entryChild (Tables before) (Tables after)
  gone : trail entryChild (Tables after) root (vaPath va) = none

theorem trail_of_upper_none {root : PageAddr} {state : WalkState} {va : UIntPtr}
    (broken : descend entryChild (Tables state) root (vaUpper va) = none) :
    trail entryChild (Tables state) root (vaPath va) = none := by
  rw [vaPath, trail_append, broken]
  rfl

theorem writtenState_unmaps {root page : PageAddr} {state : WalkState} {va : UIntPtr}
    {pe : PageEntry} (absent : pe &&& pteP = 0#64)
    (holds : HoldsTable root state va (some page.addr)) :
    Unmaps root state (writtenState state page.addr (pageindex va 3) pe) va := by
  have cut : Cut entryChild (Tables state)
      (Tables (writtenState state page.addr (pageindex va 3) pe)) := by
    rw [tables_writtenState]
    exact Cut.of_update _ _ _ (entryChild_eq_none.mpr absent)
  refine ⟨cut, ?_⟩
  cases reached : descend entryChild
      (Tables (writtenState state page.addr (pageindex va 3) pe)) root (vaUpper va) with
  | none => exact trail_of_upper_none reached
  | some last =>
      have same : page = last :=
        PageAddr.ext (Option.some.inj (holds.leads last (cut.descend reached)))
      have count := trail_isSome_iff entryChild
        (Tables (writtenState state page.addr (pageindex va 3) pe)) root (vaPath va)
      have written : Tables (writtenState state page.addr (pageindex va 3) pe) last
          (pageindex va 3) = pe := by
        rw [tables_writtenState, same]
        simp [update]
      rw [vaPath, descend_snoc _ _ _ _ _ reached, written,
        entryChild_eq_none.mpr absent] at count
      simpa [vaPath] using count

theorem cachedTable_reads {root : PageAddr} {va : UIntPtr} {perm : BitVec 32}
    {allocator : Allocator} {lastIndex123 : Int} {l4pagetable found : Option UIntPtr}
    {state next : WalkState} (absent : permWord perm &&& pteP = 0#64)
    (cached : index123 va = lastIndex123 → HoldsTable root state va l4pagetable)
    (run : cachedTable root.addr va perm allocator lastIndex123 l4pagetable state =
      .ok (found, next)) :
    next = state ∧ HoldsTable root state va found := by
  unfold cachedTable at run
  split at run
  · obtain ⟨same, reads⟩ :=
      lookupLevels_reads [0, 1, 2] root state next found absent run
    exact ⟨same, HoldsTable.of_descend reads⟩
  · next hit =>
      cases run
      exact ⟨rfl, cached (not_not.mp hit)⟩

/-- What the loop does without `PTE_P` once every page gets its table: it returns 0
and all pages of the range are unmapped, whatever the table looks like. -/
theorem mapLoop_unmaps {root : PageAddr} {perm : BitVec 32} {allocator : Allocator}
    (pages : Nat) (va pa : UIntPtr) (lastIndex123 : Int)
    (l4pagetable : Option UIntPtr) (state next : WalkState) (status : Int)
    (absent : permWord perm &&& pteP = 0#64)
    (cached : index123 va = lastIndex123 → HoldsTable root state va l4pagetable)
    (run : mapLoop root.addr perm allocator pages va pa lastIndex123 l4pagetable
      state = .ok (status, next)) :
    status = 0 ∧ Cut entryChild (Tables state) (Tables next) ∧
      ∀ j < pages, trail entryChild (Tables next) root (vaPath (nthPage va j)) =
        none := by
  induction pages generalizing va pa lastIndex123 l4pagetable state with
  | zero =>
      cases run
      exact ⟨rfl, Cut.refl _, fun j bound => absurd bound (Nat.not_lt_zero j)⟩
  | succ pages ih =>
      simp only [mapLoop] at run
      obtain ⟨⟨found, walked⟩, walkRun, run⟩ := bind_eq_ok.mp run
      obtain ⟨unread, holds⟩ := cachedTable_reads absent cached walkRun
      subst unread
      -- the remaining pages, from a state in which this page is unmapped
      have onward : ∀ middle, Unmaps root walked middle va →
          mapLoop root.addr perm allocator pages (va + pageSize) (pa + pageSize)
            (index123 va) found middle = .ok (status, next) →
          status = 0 ∧ Cut entryChild (Tables walked) (Tables next) ∧
            ∀ j < pages + 1,
              trail entryChild (Tables next) root (vaPath (nthPage va j)) = none := by
        intro middle first rest
        obtain ⟨zero, cut, gone⟩ := ih (va + pageSize) (pa + pageSize) (index123 va)
          found middle (holds.next first.cut) rest
        refine ⟨zero, first.cut.trans cut, ?_⟩
        intro j bound
        cases j with
        | zero =>
            rw [nthPage_zero]
            exact cut.trail_none first.gone
        | succ j =>
            rw [← nthPage_succ]
            exact gone j (by omega)
      cases found with
      | some l4 =>
          obtain ⟨page, rfl⟩ := holds.aligned l4 rfl
          simp only [absent, ne_eq, not_true_eq_false, if_false] at run
          exact onward _ (writtenState_unmaps absent holds) run
      | none =>
          have broken : descend entryChild (Tables walked) root (vaUpper va) = none := by
            rw [Option.eq_none_iff_forall_ne_some]
            intro page here
            cases holds.leads page here
          simp only [absent, ne_eq, not_true_eq_false, if_false] at run
          exact onward walked ⟨Cut.refl _, trail_of_upper_none broken⟩ run

/-! ## The assertions -/

section Arguments

variable {va pa sz : UIntPtr} {perm : BitVec 32}

theorem MapArgs.run (args : MapArgs va pa sz perm) (state : WalkState)
    (root : PageAddr) (allocator : Allocator) :
    virtualMemoryMap state root.addr va pa sz perm allocator =
      mapLoop root.addr perm allocator (sz.toNat / 4096) va pa (-1) none state := by
  have small := args.permSmall
  have sensible : 0 ≤ perm.toInt ∧ perm.toInt < 0x1000 := by
    rw [BitVec.toInt_eq_toNat_cond]
    split <;> omega
  have pages : (sz / pageSize).toNat = sz.toNat / 4096 := by
    rw [BitVec.toNat_udiv]
    rfl
  unfold virtualMemoryMap
  rw [assert_pos (mod_pageSize_eq_zero.mpr args.vaAligned),
    assert_pos (mod_pageSize_eq_zero.mpr args.szAligned), assert_pos args.vaWraps,
    assert_pos sensible, assert_pos (mod_pageSize_eq_zero.mpr root.aligned), pages]
  by_cases present : permWord perm &&& pteP = 0#64
  · rw [if_neg (not_not.mpr present)]
    rfl
  · have exist := args.paExists present
    have limit : memsizePhysical.toNat = 0x200000 := rfl
    have sum : (pa + sz).toNat = pa.toNat + sz.toNat := by
      rw [BitVec.toNat_add]
      omega
    have wraps : pa ≤ pa + sz := by
      rw [BitVec.le_def, sum]
      omega
    have exist' : pa + sz ≤ memsizePhysical := by
      rw [BitVec.le_def, sum]
      exact exist
    rw [if_pos present, assert_pos (mod_pageSize_eq_zero.mpr (args.paAligned present)),
      assert_pos wraps, assert_pos exist']
    rfl

/-- The first pages of a range that is accepted are a range that is accepted. -/
theorem MapArgs.front (args : MapArgs va pa sz perm) {j : Nat}
    (bound : j < sz.toNat / 4096) :
    MapArgs va pa (BitVec.ofNat 64 (4096 * j)) perm ∧
      (BitVec.ofNat 64 (4096 * j)).toNat / 4096 = j := by
  have size := sz.isLt
  have front : (BitVec.ofNat 64 (4096 * j)).toNat = 4096 * j := by
    rw [BitVec.toNat_ofNat]
    omega
  refine ⟨⟨args.vaAligned, by omega, ?_, args.paAligned, ?_, args.permSmall⟩, by omega⟩
  · left
    have wraps := args.vaWraps
    have start := va.isLt
    rw [BitVec.le_def, BitVec.toNat_add, ← BitVec.toNat_inj, BitVec.toNat_add] at wraps
    rw [BitVec.le_def, BitVec.toNat_add, front]
    simp only [BitVec.toNat_ofNat] at wraps
    omega
  · intro present
    have exist := args.paExists present
    omega

end Arguments

/-! ## Ranges that start on the index -1 -/

theorem index123_eq_neg_one (va : UIntPtr) :
    index123 va = -1 ↔ va.toNat / 2 ^ 21 % 2 ^ 32 = 2 ^ 32 - 1 := by
  have ones : index123 (-1#64) = -1 := by decide
  rw [← ones, index123_eq_iff]
  simp

theorem nthPage_toNat (va : UIntPtr) (j : Nat) :
    (nthPage va j).toNat = (va.toNat + 4096 * j) % 2 ^ 64 := by
  rw [nthPage, BitVec.toNat_add, BitVec.toNat_ofNat]
  omega

/-- The pages from `va` to the end of its 2 MB. -/
def pagesLeft (va : UIntPtr) : Nat := 512 - va.toNat / 4096 % 512

theorem index123_before {va : UIntPtr} (start : index123 va = -1) {j : Nat}
    (near : j < pagesLeft va) : index123 (nthPage va j) = -1 := by
  rw [index123_eq_neg_one] at start ⊢
  rw [pagesLeft] at near
  have bound := va.isLt
  rw [nthPage_toNat]
  omega

theorem index123_after {va : UIntPtr} (start : index123 va = -1) :
    index123 (nthPage va (pagesLeft va)) ≠ -1 := by
  rw [Ne, index123_eq_neg_one]
  rw [index123_eq_neg_one] at start
  have bound := va.isLt
  rw [nthPage_toNat, pagesLeft]
  omega

/-- With `PTE_P` the call gives up at once, with whatever tables there are. -/
theorem mapLoop_sentinel {pagetable va pa : UIntPtr} {perm : BitVec 32}
    {allocator : Allocator} {state : WalkState} {pages : Nat}
    (present : permWord perm &&& pteP ≠ 0#64) (start : index123 va = -1) :
    mapLoop pagetable perm allocator (pages + 1) va pa (-1) none state =
      .ok (-1, state) := by
  simp only [mapLoop, cachedTable, start, ne_eq, not_true_eq_false, if_false]
  exact if_pos present

theorem mapLoop_skips {pagetable : UIntPtr} {perm : BitVec 32} {allocator : Allocator}
    {state : WalkState} (absent : permWord perm &&& pteP = 0#64) (rest count : Nat)
    (va pa : UIntPtr) (all : ∀ j < count, index123 (nthPage va j) = -1) :
    mapLoop pagetable perm allocator (count + rest) va pa (-1) none state =
      mapLoop pagetable perm allocator rest (nthPage va count) (nthPage pa count) (-1)
        none state := by
  induction count generalizing va pa with
  | zero => rw [Nat.zero_add, nthPage_zero, nthPage_zero]
  | succ count ih =>
      have start : index123 va = -1 := by
        have first := all 0 (Nat.zero_lt_succ count)
        rwa [nthPage_zero] at first
      have onward := ih (va + pageSize) (pa + pageSize) fun j bound => by
        rw [nthPage_succ]
        exact all (j + 1) (by omega)
      rw [nthPage_succ, nthPage_succ] at onward
      rw [show count + 1 + rest = count + rest + 1 by omega, ← onward]
      simp only [mapLoop, cachedTable, start, absent, ne_eq, not_true_eq_false,
        if_false]
      rfl

/-! ## Ranges that start clear keep the promise -/

theorem vaPath_inside {va sz x : UIntPtr} (aligned : va.toNat % 4096 = 0)
    (whole : sz.toNat % 4096 = 0) (inside : x < sz) :
    ∃ j < sz.toNat / 4096, vaPath (va + x) = vaPath (nthPage va j) := by
  rw [BitVec.lt_def] at inside
  refine ⟨x.toNat / 4096, by omega, ?_⟩
  rw [vaPath_eq_iff, ← BitVec.toNat_inj, pageOf_toNat, pageOf_toNat, nthPage_toNat,
    BitVec.toNat_add]
  omega

/-- Pages 2^48 bytes apart have the same place in the 48-bit address space. -/
theorem vaPath_around (va : UIntPtr) (j : Nat) :
    vaPath (nthPage va (j + 2 ^ 36)) = vaPath (nthPage va j) := by
  rw [vaPath_eq_iff, ← BitVec.toNat_inj, pageOf_toNat, pageOf_toNat, nthPage_toNat,
    nthPage_toNat]
  omega

theorem nthPage_add (va : UIntPtr) (i j : Nat) :
    nthPage (nthPage va i) j = nthPage va (i + j) := by
  apply BitVec.eq_of_toNat_eq
  rw [nthPage_toNat, nthPage_toNat, nthPage_toNat]
  omega

theorem lookup_of_pages {va sz : UIntPtr} {root : PageAddr} {state : WalkState}
    (aligned : va.toNat % 4096 = 0) (whole : sz.toNat % 4096 = 0)
    (gone : ∀ j < sz.toNat / 4096,
      trail entryChild (Tables state) root (vaPath (nthPage va j)) = none)
    (x : UIntPtr) (inside : x < sz) :
    virtualMemoryLookup state.memory root.addr (va + x) = .unmapped := by
  obtain ⟨j, bound, same⟩ := vaPath_inside aligned whole inside
  rw [virtualMemoryLookup_eq, same, gone j bound]
  rfl

theorem mapLoop_around {root : PageAddr} {va pa : UIntPtr} {perm : BitVec 32}
    {allocator : Allocator} {pages : Nat} {state next : WalkState} {status : Int}
    (absent : permWord perm &&& pteP = 0#64) (start : index123 va = -1)
    (around : 2 ^ 36 + pagesLeft va ≤ pages)
    (run : mapLoop root.addr perm allocator pages va pa (-1) none state =
      .ok (status, next)) :
    status = 0 ∧ ∀ j < pages,
      trail entryChild (Tables next) root (vaPath (nthPage va j)) = none := by
  rw [show pages = pagesLeft va + (pages - pagesLeft va) by omega,
    mapLoop_skips absent _ _ va pa fun j near => index123_before start near] at run
  obtain ⟨zero, _, gone⟩ := mapLoop_unmaps _ _ _ _ _ state next status absent
    (fun hit => absurd hit (index123_after start)) run
  have later : ∀ j, pagesLeft va ≤ j → j < pages →
      trail entryChild (Tables next) root (vaPath (nthPage va j)) = none := by
    intro j past bound
    have reached := gone (j - pagesLeft va) (by omega)
    rwa [nthPage_add, show pagesLeft va + (j - pagesLeft va) = j by omega] at reached
  refine ⟨zero, ?_⟩
  intro j bound
  by_cases past : pagesLeft va ≤ j
  · exact later j past bound
  · have few : pagesLeft va ≤ 512 := Nat.sub_le _ _
    rw [← vaPath_around]
    exact later (j + 2 ^ 36) (by omega) (by omega)

theorem failsOnlyForTables_of_clear {va pa sz : UIntPtr} {perm : BitVec 32}
    (clear : StartsClear va sz perm) : FailsOnlyForTables va pa sz perm := by
  refine ⟨?_, ?_⟩
  · intro present state pagetable allocator next run
    obtain ⟨args, aligned, loop⟩ := virtualMemoryMap_run run
    have apart : sz = 0#64 ∨ index123 va ≠ -1 := by
      rcases clear with empty | apart | ⟨absent, _⟩
      · exact Or.inl empty
      · exact Or.inr apart
      · exact absurd absent present
    rcases apart with rfl | apart
    · cases loop
    · obtain ⟨j, bound, before, front, lacks⟩ := mapLoop_lacks _ va pa (-1) none state
        next present (fun hit => absurd hit apart) loop
      obtain ⟨frontArgs, pages⟩ := args.front bound
      refine ⟨j, bound, before, ?_, lacks⟩
      have run := frontArgs.run state ⟨pagetable, aligned⟩ allocator
      rw [pages, front] at run
      exact run
  · intro absent state pagetable allocator status next run
    obtain ⟨args, aligned, loop⟩ := virtualMemoryMap_run run
    obtain ⟨root, rfl⟩ : ∃ root : PageAddr, root.addr = pagetable :=
      ⟨⟨pagetable, aligned⟩, rfl⟩
    have done : status = 0 ∧ ∀ j < sz.toNat / 4096,
        trail entryChild (Tables next) root (vaPath (nthPage va j)) = none := by
      by_cases start : index123 va = -1
      · rcases clear with rfl | apart | ⟨_, around⟩
        · cases loop
          exact ⟨rfl, fun j bound => absurd bound (Nat.not_lt_zero j)⟩
        · exact absurd start apart
        · have vaAligned := args.vaAligned
          apply mapLoop_around absent start _ loop
          rw [pagesLeft]
          omega
      · obtain ⟨zero, _, gone⟩ := mapLoop_unmaps _ va pa (-1) none state next status
          absent (fun hit => absurd hit start) loop
        exact ⟨zero, gone⟩
    exact ⟨done.1, lookup_of_pages args.vaAligned args.szAligned done.2⟩

/-! ## Unmapping returns on sensible tables -/

/-- An entry that every call of `lookup_l4pagetable` accepts, if it is present. -/
structure PassesChecks (pe : PageEntry) : Prop where
  sensible : pteAddr pe < memsizePhysical
  writable : pe &&& pteW ≠ 0#64
  user : pe &&& pteU ≠ 0#64

def SensibleTables (state : WalkState) : Prop :=
  ∀ (page : PageAddr) (index : Fin 512), Tables state page index &&& pteP ≠ 0#64 →
    PassesChecks (Tables state page index)

theorem PassesChecks.checkEntry {pe : PageEntry} (passes : PassesChecks pe)
    (perm : BitVec 32) : checkEntry perm pe = .ok () := by
  rw [Weensy.checkEntry, assert_pos passes.sensible, assert_pos passes.writable,
    assert_pos passes.user]
  split <;> split <;> rfl

theorem lookupLevels_returns {perm : BitVec 32} {state : WalkState}
    (absent : permWord perm &&& pteP = 0#64) (sensible : SensibleTables state)
    (va : UIntPtr) (allocator : Allocator) (levels : List (Fin 4)) (page : PageAddr) :
    ∃ found, lookupLevels va perm allocator levels page.addr state =
      .ok (found, state) := by
  induction levels generalizing page with
  | nil => exact ⟨some page.addr, rfl⟩
  | cons level rest ih =>
      have read : readEntry state.memory page.addr (pageindex va level) =
          Tables state page (pageindex va level) := rfl
      simp only [lookupLevels, presentEntry, if_pos absent, read]
      by_cases there : Tables state page (pageindex va level) &&& pteP = 0#64
      · rw [if_pos there]
        exact ⟨none, rfl⟩
      · rw [if_neg there]
        obtain ⟨found, run⟩ := ih (ptePage (Tables state page (pageindex va level)))
        refine ⟨found, ?_⟩
        simp only [ok_bind, (sensible page _ there).checkEntry perm]
        exact run

theorem SensibleTables.written {state : WalkState} (sensible : SensibleTables state)
    (page : PageAddr) (index : Fin 512) {pe : PageEntry}
    (passes : pe &&& pteP ≠ 0#64 → PassesChecks pe) :
    SensibleTables (writtenState state page.addr index pe) := by
  intro other position there
  rw [tables_writtenState, update] at there ⊢
  split at there
  · next here =>
      rw [if_pos here]
      exact passes there
  · next apart =>
      rw [if_neg apart]
      exact sensible other position there

theorem mapLoop_returns {root : PageAddr} {perm : BitVec 32} {allocator : Allocator}
    (absent : permWord perm &&& pteP = 0#64) (pages : Nat) (va pa : UIntPtr)
    (lastIndex123 : Int) (l4pagetable : Option UIntPtr) (state : WalkState)
    (sensible : SensibleTables state)
    (aligned : ∀ pt, l4pagetable = some pt → ∃ page : PageAddr, pt = page.addr) :
    ∃ status next, mapLoop root.addr perm allocator pages va pa lastIndex123
      l4pagetable state = .ok (status, next) := by
  induction pages generalizing va pa lastIndex123 l4pagetable state with
  | zero => exact ⟨0, state, rfl⟩
  | succ pages ih =>
      obtain ⟨found, walkRun, foundAligned⟩ : ∃ found,
          cachedTable root.addr va perm allocator lastIndex123 l4pagetable state =
            .ok (found, state) ∧
          ∀ pt, found = some pt → ∃ page : PageAddr, pt = page.addr := by
        unfold cachedTable
        split
        · obtain ⟨found, walk⟩ :=
            lookupLevels_returns absent sensible va allocator [0, 1, 2] root
          obtain ⟨_, reads⟩ :=
            lookupLevels_reads [0, 1, 2] root state state found absent walk
          exact ⟨found, walk, (HoldsTable.of_descend reads).aligned⟩
        · exact ⟨l4pagetable, rfl, aligned⟩
      simp only [mapLoop, walkRun, ok_bind, absent, ne_eq, not_true_eq_false, if_false]
      cases found with
      | none => exact ih _ _ _ none state sensible foundAligned
      | some l4 =>
          obtain ⟨page, rfl⟩ := foundAligned l4 rfl
          exact ih _ _ _ _ _ (sensible.written page (pageindex va 3)
            (fun present => absurd absent present)) foundAligned

/-! ## Tables in which every upper index is 511 -/

/-- The `k`-th page that `bumpAllocator` hands out. -/
def bumpPage (k : Nat) : PageAddr :=
  ⟨BitVec.ofNat 64 (0x2000 + 0x1000 * k), by rw [BitVec.toNat_ofNat]; omega⟩

/-- The tables along `path`, linked by the allocator from the empty root on; the last
of them is empty. -/
structure Branch (state : WalkState) (path : List (Fin 512)) (page : PageAddr) :
    Prop where
  ok : TablesOk emptyRoot (bumpAllocator 3) state
  here : descend entryChild (Tables state) emptyRoot path = some page
  bare : ∀ index, Tables state page index = 0#64
  calls : state.calls = path.length
  sensible : SensibleTables state

theorem Branch.root : Branch zeroState [] emptyRoot where
  ok := tablesOk_zero (by omega)
  here := rfl
  bare := slots_zero emptyRoot
  calls := rfl
  sensible := fun page index there => absurd (by rw [slots_zero]; rfl) there

theorem newEntry_passes {page : PageAddr} (inside : page.addr < memsizePhysical) :
    PassesChecks (pteAddr page.addr ||| pteP ||| pteW ||| pteU) := by
  refine ⟨?_, ?_, ?_⟩
  · have points := newEntry_child page
    rw [entryChild] at points
    split at points
    · cases points
    · have addr : pteAddr (pteAddr page.addr ||| pteP ||| pteW ||| pteU) = page.addr :=
        congrArg PageAddr.addr (Option.some.inj points)
      rw [addr]
      exact inside
  · have bit : pteW.getLsbD 1 = true := rfl
    rw [Ne, noW_iff, Bool.not_eq_false, BitVec.getLsbD_or, BitVec.getLsbD_or, bit,
      Bool.or_true, Bool.true_or]
  · have bit : pteU.getLsbD 2 = true := rfl
    rw [Ne, noU_iff, Bool.not_eq_false, BitVec.getLsbD_or, bit, Bool.or_true]

theorem Branch.link {state : WalkState} {path : List (Fin 512)} {page : PageAddr}
    (branch : Branch state path page) (shallow : path.length < 3) (index : Fin 512) :
    Branch (linkedState state page (bumpPage path.length) index) (path ++ [index])
      (bumpPage path.length) := by
  have absent : Tables state page index &&& pteP = 0#64 := by
    rw [branch.bare index]
    rfl
  have answer : (fun k => if k < 3 then
      some (BitVec.ofNat 64 (0x2000 + 0x1000 * k)) else none) state.calls =
        some (bumpPage path.length).addr := by
    simp only [branch.calls, if_pos shallow]
    rfl
  have link := link_of_answer branch.ok shallow branch.here absent rfl answer
  refine ⟨linkedState_ok branch.ok shallow branch.here absent rfl answer, ?_, ?_, ?_, ?_⟩
  · rw [tables_linkedState, link.descend (by simp; omega), if_pos rfl]
  · intro position
    rw [tables_linkedState, linked, clear, if_pos rfl]
  · rw [linkedState, branch.calls, List.length_append]
    rfl
  · intro other position there
    rw [tables_linkedState, linked, clear] at there ⊢
    split at there
    · exact absurd rfl there
    · next old =>
        rw [if_neg old]
        rw [update] at there ⊢
        split at there
        · next here =>
            rw [if_pos here]
            refine newEntry_passes ?_
            rw [BitVec.lt_def, bumpPage, BitVec.toNat_ofNat]
            have limit : memsizePhysical.toNat = 0x200000 := rfl
            omega
        · next apart =>
            rw [if_neg apart]
            exact branch.sensible other position there

/-- Three tables for the upper indices 511, and a last-level table with one page. -/
def fullBranch : WalkState :=
  linkedState (linkedState (linkedState zeroState emptyRoot (bumpPage 0) 511)
    (bumpPage 0) (bumpPage 1) 511) (bumpPage 1) (bumpPage 2) 511

theorem fullBranch_branch : Branch fullBranch [511, 511, 511] (bumpPage 2) :=
  ((Branch.root.link (by simp) 511).link (by simp) 511).link (by simp) 511

def fullBranchWith (index : Fin 512) : WalkState :=
  writtenState fullBranch (bumpPage 2).addr index 0x5007#64

theorem fullBranchWith_ok (index : Fin 512) :
    TablesOk emptyRoot none (fullBranchWith index) := by
  have built := writtenState_ok fullBranch_branch.ok (by rfl) fullBranch_branch.here
    index 0x5007#64
  exact ⟨built.unshared, fun answers given => (by cases given),
    fun answers given => (by cases given)⟩

theorem fullBranchWith_here (index : Fin 512) :
    descend entryChild (Tables (fullBranchWith index)) emptyRoot [511, 511, 511] =
      some (bumpPage 2) := by
  rw [fullBranchWith, tables_writtenState, descend_update index _
    fullBranch_branch.ok.unshared (by rfl) fullBranch_branch.here (by rfl)]
  exact fullBranch_branch.here

theorem fullBranchWith_mapped (index : Fin 512) :
    trail entryChild (Tables (fullBranchWith index)) emptyRoot
      ([511, 511, 511] ++ [index]) ≠ none := by
  have count := trail_isSome_iff entryChild (Tables (fullBranchWith index)) emptyRoot
    ([511, 511, 511] ++ [index])
  have entry : Tables (fullBranchWith index) (bumpPage 2) index = 0x5007#64 := by
    rw [fullBranchWith, tables_writtenState]
    simp [update]
  rw [descend_snoc _ _ _ _ _ (fullBranchWith_here index), entry] at count
  intro broken
  rw [broken] at count
  cases count

theorem fullBranchWith_sensible (index : Fin 512) :
    SensibleTables (fullBranchWith index) :=
  fullBranch_branch.sensible.written (bumpPage 2) index fun _ =>
    ⟨by decide, by decide, by decide⟩

/-! ## Ranges that start on -1 break the promise -/

theorem vaUpper_of_sentinel {va : UIntPtr} (start : index123 va = -1) :
    vaUpper va = [511, 511, 511] := by
  rw [index123_eq_neg_one] at start
  have bound := va.isLt
  simp only [vaUpper, List.cons.injEq, Fin.ext_iff, pageindex_val, and_true]
  simp only [Fin.val_zero, Fin.val_one, Fin.val_two, Nat.reduceMul, Nat.reduceAdd,
    Nat.reduceSub, Nat.reducePow] at start ⊢
  omega

theorem lookupLevels_present {va : UIntPtr} {perm : BitVec 32} {allocator : Allocator}
    (levels : List (Fin 4)) (page last : PageAddr) (state next : WalkState)
    (found : Option UIntPtr)
    (here : descend entryChild (Tables state) page (levels.map (pageindex va)) =
      some last)
    (run : lookupLevels va perm allocator levels page.addr state =
      .ok (found, next)) : next = state ∧ found = some last.addr := by
  induction levels generalizing page with
  | nil =>
      cases here
      cases run
      exact ⟨rfl, rfl⟩
  | cons level rest ih =>
      simp only [lookupLevels] at run
      obtain ⟨⟨entry, middle⟩, levelRun, run⟩ := bind_eq_ok.mp run
      rw [List.map_cons, descend] at here
      obtain ⟨below, edge, here⟩ := Option.bind_eq_some_iff.mp here
      have there : Tables state page (pageindex va level) &&& pteP ≠ 0#64 := by
        intro absent
        rw [entryChild_eq_none.mpr absent] at edge
        cases edge
      rw [entryChild_of_present there] at edge
      cases edge
      rcases presentEntry_cases levelRun with
        ⟨rfl, rfl, _⟩ | ⟨_, _, _, absent⟩ | ⟨_, _, _, _, absent, _, _⟩
      · obtain ⟨_, _, run⟩ := bind_eq_ok.mp run
        exact ih _ here run
      · exact absurd absent there
      · exact absurd absent there

/-- A walk that lacks a table breaks off in the tables it starts from. -/
theorem LacksTable.broken {va : UIntPtr} {perm : BitVec 32} {allocator : Allocator}
    {root : PageAddr} {before after : WalkState}
    (lacks : LacksTable va perm allocator [0, 1, 2] root.addr before after) :
    descend entryChild (Tables before) root (vaUpper va) = none := by
  obtain ⟨upper, level, lower, pt, here, split, walk, absent, _⟩ := lacks
  rw [Option.eq_none_iff_forall_ne_some]
  intro last whole
  have path : vaUpper va = upper.map (pageindex va) ++
      (pageindex va level :: lower.map (pageindex va)) := by
    rw [← List.map_cons, ← List.map_append, ← split]
    rfl
  rw [path] at whole
  obtain ⟨middle, reached, onward⟩ := descend_prefix _ _ _ _ _ whole
  obtain ⟨same, table⟩ := lookupLevels_present upper root middle before here _ reached walk
  subst same
  cases table
  have missing : Tables here middle (pageindex va level) &&& pteP = 0#64 := absent
  rw [descend, entryChild_eq_none.mpr missing] at onward
  cases onward

theorem sentinel_fails {va pa sz : UIntPtr} {perm : BitVec 32}
    (args : MapArgs va pa sz perm) (some_pages : sz ≠ 0#64) (start : index123 va = -1)
    (present : permWord perm &&& pteP ≠ 0#64) : ¬ FailsOnlyForTables va pa sz perm := by
  intro promise
  have whole := args.szAligned
  have nonzero : sz.toNat ≠ 0 := fun zero => some_pages (BitVec.toNat_inj.mp zero)
  obtain ⟨pages, count⟩ : ∃ pages, sz.toNat / 4096 = pages + 1 :=
    ⟨sz.toNat / 4096 - 1, by omega⟩
  have run := args.run fullBranch emptyRoot none
  rw [count, mapLoop_sentinel present start] at run
  obtain ⟨j, bound, before, front, lacks⟩ :=
    promise.present present fullBranch emptyRoot.addr none fullBranch run
  obtain ⟨frontArgs, frontPages⟩ := args.front bound
  rw [frontArgs.run, frontPages] at front
  cases j with
  | zero =>
      cases front
      have broken := lacks.broken
      rw [nthPage_zero, vaUpper_of_sentinel start, fullBranch_branch.here] at broken
      cases broken
  | succ j =>
      rw [mapLoop_sentinel present start] at front
      cases front

theorem trail_of_unmapped {memory : Memory} {root : PageAddr} {va : UIntPtr}
    (unmapped : virtualMemoryLookup memory root.addr va = .unmapped) :
    trail entryChild (slots memory) root (vaPath va) = none := by
  rw [virtualMemoryLookup_eq] at unmapped
  cases read : trail entryChild (slots memory) root (vaPath va) with
  | none => rfl
  | some entries =>
      rw [read] at unmapped
      have each : ∀ pe ∈ entries, pe &&& pteP ≠ 0#64 := fun pe member absent =>
        trail_present _ _ _ _ read pe member (entryChild_eq_none.mpr absent)
      have bit : (permsAlong entries).getLsbD 0 = true := by
        have kept := present_foldl entries (show 7#64 &&& pteP ≠ 0#64 by decide) each
        rwa [Ne, noP_iff, Bool.not_eq_false] at kept
      have perms : (permsAlong entries).setWidth 32 = 0#32 :=
        congrArg VaMapping.perm unmapped
      have clash : ((permsAlong entries).setWidth 32).getLsbD 0 = false := by
        rw [perms]
        rfl
      rw [BitVec.getLsbD_setWidth, bit] at clash
      cases clash

/-- Unmapping such a range passes over a mapped page, unless the range comes round. -/
theorem sentinel_passes_over {va pa sz : UIntPtr} {perm : BitVec 32}
    (args : MapArgs va pa sz perm) (some_pages : sz ≠ 0#64) (start : index123 va = -1)
    (absent : permWord perm &&& pteP = 0#64)
    (short : sz.toNat < 2 ^ 48 + (2 ^ 21 - va.toNat % 2 ^ 21)) :
    ¬ FailsOnlyForTables va pa sz perm := by
  intro promise
  have whole := args.szAligned
  have vaAligned := args.vaAligned
  have nonzero : sz.toNat ≠ 0 := fun zero => some_pages (BitVec.toNat_inj.mp zero)
  have size := sz.isLt
  have few : sz.toNat / 4096 < 2 ^ 36 + pagesLeft va := by
    rw [pagesLeft]
    omega
  have left : 0 < pagesLeft va := by
    rw [pagesLeft]
    omega
  -- `last` is the last page that the loop passes over
  obtain ⟨last, rest, near, pages, apart⟩ : ∃ last rest, last < pagesLeft va ∧
      sz.toNat / 4096 = last + 1 + rest ∧ rest < 2 ^ 36 := by
    by_cases far : pagesLeft va ≤ sz.toNat / 4096
    · exact ⟨pagesLeft va - 1, sz.toNat / 4096 - pagesLeft va, by omega, by omega,
        by omega⟩
    · exact ⟨sz.toNat / 4096 - 1, 0, by omega, by omega, by omega⟩
  generalize state_eq : fullBranchWith (pageindex (nthPage va last) 3) = state
  have ok : TablesOk emptyRoot none state := state_eq ▸ fullBranchWith_ok _
  have sensible : SensibleTables state := state_eq ▸ fullBranchWith_sensible _
  have mapped : trail entryChild (Tables state) emptyRoot (vaPath (nthPage va last)) ≠
      none := by
    rw [vaPath, vaUpper_of_sentinel (index123_before start near), ← state_eq]
    exact fullBranchWith_mapped _
  obtain ⟨status, next, loop⟩ := @mapLoop_returns emptyRoot perm none absent rest
    (nthPage va (last + 1)) (nthPage pa (last + 1)) (-1) none state sensible
    (fun pt impossible => by cases impossible)
  have run := args.run state emptyRoot none
  rw [pages, mapLoop_skips absent rest (last + 1) va pa
    (fun j bound => index123_before start (by omega)), loop] at run
  -- the rest of the range keeps the path of `last`
  have kept : trail entryChild (Tables next) emptyRoot (vaPath (nthPage va last)) =
      trail entryChild (Tables state) emptyRoot (vaPath (nthPage va last)) := by
    have spec := mapLoop_spec emptyRoot perm none rest _ _ (-1) none state next status ok
      (fun _ pt impossible => by cases impossible) loop
    obtain ⟨done, each, result⟩ := spec.finished
    have bound : done ≤ rest := by
      rcases result with ⟨_, all⟩ | ⟨_, part, _⟩ <;> omega
    rcases each (vaPath (nthPage va last)) rfl with ⟨i, early, same, _⟩ | ⟨_, kept⟩
    · rw [nthPage_add, vaPath_eq_iff, ← BitVec.toNat_inj, pageOf_toNat, pageOf_toNat,
        nthPage_toNat, nthPage_toNat] at same
      omega
    · exact kept
  have inside : BitVec.ofNat 64 (4096 * last) < sz := by
    rw [BitVec.lt_def, BitVec.toNat_ofNat]
    omega
  have unmapped := (promise.absent absent state emptyRoot.addr none status next run).2
    _ inside
  exact mapped (kept.symm.trans (trail_of_unmapped unmapped))

/-- Exactly the ranges that start clear keep the promise, over all page tables and
allocators. -/
theorem failsOnlyForTables_iff {va pa sz : UIntPtr} {perm : BitVec 32}
    (args : MapArgs va pa sz perm) :
    FailsOnlyForTables va pa sz perm ↔ StartsClear va sz perm := by
  refine ⟨?_, failsOnlyForTables_of_clear⟩
  intro promise
  by_cases some_pages : sz = 0#64
  · exact Or.inl some_pages
  · by_cases start : index123 va = -1
    · right
      right
      by_cases absent : permWord perm &&& pteP = 0#64
      · refine ⟨absent, ?_⟩
        by_contra short
        exact sentinel_passes_over args some_pages start absent (by omega) promise
      · exact absurd promise (sentinel_fails args some_pages start absent)
    · exact Or.inr (Or.inl start)

theorem failsOnlyForTables_iff_sample :
    FailsOnlyForTables 0x100000#64 0x5000#64 0x2000#64 7#32 := by
  refine (failsOnlyForTables_iff ⟨by decide, by decide, by decide, by decide, by decide,
    by decide⟩).mpr ?_
  right
  left
  decide

/-- The last page of the address space: mapping it can fail with all tables in place,
and unmapping it can leave it mapped. -/
theorem failsOnlyForTables_fails :
    MapArgs 0xFFFFFFFFFFFFF000#64 0x5000#64 0x1000#64 7#32 ∧
      ¬ FailsOnlyForTables 0xFFFFFFFFFFFFF000#64 0x5000#64 0x1000#64 7#32 ∧
      ¬ FailsOnlyForTables 0xFFFFFFFFFFFFF000#64 0x5000#64 0x1000#64 0#32 := by
  have args : MapArgs 0xFFFFFFFFFFFFF000#64 0x5000#64 0x1000#64 7#32 :=
    ⟨by decide, by decide, by decide, by decide, by decide, by decide⟩
  refine ⟨args, ?_, ?_⟩
  · exact sentinel_fails args (by decide) (by decide) (by decide)
  · exact sentinel_passes_over ⟨by decide, by decide, by decide, by decide, by decide,
      by decide⟩ (by decide) (by decide) (by decide) (by decide)

end OsLabs.Weensy
