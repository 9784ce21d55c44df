import OsLabs.Weensy.PageTree

/-!
# What virtual_memory_map does to the radix tree

The walk of `lookup_l4pagetable` links fresh tables into absent entries and so
changes no complete path; the loop of `virtual_memory_map` writes one slot of a
last-level table for each page.  `mapLoop_spec` is the whole run: the pages done
so far carry the requested entry, every other path reads the same entries.
-/

set_option autoImplicit false

namespace OsLabs.Weensy

open OsLabs.ByteMemory OsLabs.RadixTree OsLabs.ExceptRules

/-! ## Table states -/

abbrev Tables (state : WalkState) : PageAddr → Fin 512 → PageEntry :=
  slots state.memory

/-- No table page is shared, and the answers still to come are pages outside the
table, each given once. -/
structure TablesOk (root : PageAddr) (allocator : Allocator) (state : WalkState) :
    Prop where
  unshared : Unshared entryChild (Tables state) root 3
  outside : ∀ answers, allocator = some answers → ∀ k, state.calls ≤ k →
    ∀ page : PageAddr, answers k = some page.addr →
      ¬ Reaches entryChild (Tables state) root 3 page
  once : ∀ answers, allocator = some answers → ∀ j k, state.calls ≤ j → j < k →
    ∀ page : PageAddr, answers k = some page.addr → answers j ≠ some page.addr

/-- Tables may have been added, but no path of table entries was changed. -/
structure Grows (root : PageAddr) (before after : WalkState) : Prop where
  nodes : ∀ (path : List (Fin 512)) (page : PageAddr), path.length ≤ 3 →
    descend entryChild (Tables before) root path = some page →
    descend entryChild (Tables after) root path = some page
  entries : ∀ (path : List (Fin 512)) (read : List PageEntry), path.length ≤ 3 →
    trail entryChild (Tables before) root path = some read →
    trail entryChild (Tables after) root path = some read

theorem Grows.refl (root : PageAddr) (state : WalkState) : Grows root state state :=
  ⟨fun _ _ _ here => here, fun _ _ _ read => read⟩

theorem Grows.trans {root : PageAddr} {first second third : WalkState}
    (left : Grows root first second) (right : Grows root second third) :
    Grows root first third :=
  ⟨fun path page bound here =>
      right.nodes path page bound (left.nodes path page bound here),
    fun path read bound found =>
      right.entries path read bound (left.entries path read bound found)⟩

def SamePaths (root : PageAddr) (before after : WalkState) : Prop :=
  ∀ path : List (Fin 512), path.length = 4 →
    trail entryChild (Tables after) root path =
      trail entryChild (Tables before) root path

/-- The checks of `lookup_l4pagetable` that an entry has passed. -/
structure Allows (perm : BitVec 32) (pe : PageEntry) : Prop where
  writable : permWord perm &&& pteW ≠ 0#64 → pe &&& pteW ≠ 0#64
  user : permWord perm &&& pteU ≠ 0#64 → pe &&& pteU ≠ 0#64

/-! ## One level of the walk -/

theorem newEntry_child (page : PageAddr) :
    entryChild (pteAddr page.addr ||| pteP ||| pteW ||| pteU) = some page := by
  have flags : pteAddr page.addr ||| pteP ||| pteW ||| pteU =
      pteAddr page.addr ||| 7#64 := by
    rw [BitVec.or_assoc, BitVec.or_assoc]
    rfl
  have base : (pteAddr page.addr).toNat = page.addr.toNat := by
    rw [pteAddr_toNat]
    have := page.aligned
    omega
  have sum : (pteAddr page.addr ||| 7#64).toNat = page.addr.toNat + 7 := by
    rw [toNat_or_of_aligned _ (by decide), base]
    · rfl
    · rw [base]
      exact page.aligned
  have present : (pteAddr page.addr ||| 7#64) &&& pteP ≠ 0#64 := by
    rw [Ne, noP_iff, BitVec.getLsbD_or]
    simp
  rw [flags, entryChild_of_present present]
  congr 1
  apply PageAddr.ext
  apply BitVec.eq_of_toNat_eq
  have := page.aligned
  simp only [ptePage, pteAddr_toNat, sum]
  omega

/-- The state in which `presentEntry` has linked a new table page. -/
def linkedState (state : WalkState) (page fresh : PageAddr) (index : Fin 512) :
    WalkState :=
  ⟨fill (writeEntry state.memory page.addr index
      (pteAddr fresh.addr ||| pteP ||| pteW ||| pteU))
      fresh.addr.toNat pageSize.toNat 0, state.calls + 1⟩

theorem tables_linkedState (state : WalkState) (page fresh : PageAddr)
    (index : Fin 512) :
    Tables (linkedState state page fresh index) =
      linked (Tables state) page index
        (pteAddr fresh.addr ||| pteP ||| pteW ||| pteU) fresh 0#64 := by
  rw [Tables, linkedState, show pageSize.toNat = 4096 from rfl, slots_fill,
    slots_writeEntry]
  rfl

/-- What `presentEntry` can do: find the entry, give up, or link a new table. -/
theorem presentEntry_cases {va : UIntPtr} {perm : BitVec 32}
    {allocator : Allocator} {level : Fin 4} {page : PageAddr} {state next : WalkState}
    {found : Option PageEntry}
    (run : presentEntry va perm allocator level page.addr state =
      .ok (found, next)) :
    (next = state ∧ found = some (Tables state page (pageindex va level)) ∧
        Tables state page (pageindex va level) &&& pteP ≠ 0#64) ∨
    (found = none ∧ next.memory = state.memory ∧ state.calls ≤ next.calls ∧
        Tables state page (pageindex va level) &&& pteP = 0#64) ∨
    (∃ answers fresh, allocator = some answers ∧
      answers state.calls = some fresh.addr ∧
      Tables state page (pageindex va level) &&& pteP = 0#64 ∧
      next = linkedState state page fresh (pageindex va level) ∧
      found = some (pteAddr fresh.addr ||| pteP ||| pteW ||| pteU)) := by
  simp only [presentEntry] at run
  split at run
  · next absent =>
      split at run
      · cases run
        exact Or.inr (Or.inl ⟨rfl, rfl, Nat.le_refl _, absent⟩)
      · cases allocator with
        | none =>
            cases run
            exact Or.inr (Or.inl ⟨rfl, rfl, Nat.le_refl _, absent⟩)
        | some answers =>
            cases answer : answers state.calls with
            | none =>
                simp only [answer] at run
                cases run
                exact Or.inr (Or.inl ⟨rfl, rfl, Nat.le_succ _, absent⟩)
            | some newPt =>
                simp only [answer] at run
                obtain ⟨checked, passed, run⟩ := bind_eq_ok.mp run
                have aligned := mod_pageSize_eq_zero.mp (assert_eq_ok.mp passed)
                cases run
                exact Or.inr (Or.inr ⟨answers, ⟨newPt, aligned⟩, rfl, answer,
                  absent, rfl, rfl⟩)
  · next present =>
      cases run
      exact Or.inl ⟨rfl, rfl, present⟩

/-! ## Linking keeps the tables -/

theorem TablesOk.later {root : PageAddr} {allocator : Allocator}
    {state next : WalkState} (ok : TablesOk root allocator state)
    (memory : next.memory = state.memory) (calls : state.calls ≤ next.calls) :
    TablesOk root allocator next := by
  refine ⟨?_, ?_, ?_⟩
  · simpa only [Tables, memory] using ok.unshared
  · intro answers given k bound page answer
    simpa only [Tables, memory] using
      ok.outside answers given k (by omega) page answer
  · intro answers given j k bound order page answer
    exact ok.once answers given j k (by omega) order page answer

theorem Grows.of_memory {root : PageAddr} {before after : WalkState}
    (memory : after.memory = before.memory) : Grows root before after := by
  refine ⟨?_, ?_⟩
  · intro path page bound here
    simpa only [Tables, memory] using here
  · intro path read bound found
    simpa only [Tables, memory] using found

section Linking

variable {root page fresh : PageAddr} {allocator : Allocator} {state : WalkState}
  {path : List (Fin 512)} {index : Fin 512} {answers : Nat → Option UIntPtr}

theorem link_of_answer (ok : TablesOk root allocator state)
    (shallow : path.length < 3)
    (here : descend entryChild (Tables state) root path = some page)
    (absent : Tables state page index &&& pteP = 0#64)
    (given : allocator = some answers)
    (answer : answers state.calls = some fresh.addr) :
    Link entryChild (Tables state) root 3 path page index
      (pteAddr fresh.addr ||| pteP ||| pteW ||| pteU) fresh 0#64 where
  unshared := ok.unshared
  shallow := shallow
  here := here
  absent := entryChild_eq_none.mpr absent
  points := newEntry_child fresh
  vacant := entryChild_zero
  outside := ok.outside answers given state.calls (Nat.le_refl _) fresh answer

theorem linkedState_ok (ok : TablesOk root allocator state)
    (shallow : path.length < 3)
    (here : descend entryChild (Tables state) root path = some page)
    (absent : Tables state page index &&& pteP = 0#64)
    (given : allocator = some answers)
    (answer : answers state.calls = some fresh.addr) :
    TablesOk root allocator (linkedState state page fresh index) := by
  have link := link_of_answer ok shallow here absent given answer
  refine ⟨?_, ?_, ?_⟩
  · rw [tables_linkedState]
    exact link.unshared_after
  · intro others same k bound later laterAnswer reached
    rw [given] at same
    cases same
    rw [tables_linkedState, link.reaches] at reached
    have after : state.calls < k := bound
    rcases reached with rfl | reached
    · exact ok.once answers given state.calls k (Nat.le_refl _) after _
        laterAnswer answer
    · exact ok.outside answers given k (by omega) later laterAnswer reached
  · intro others same j k bound order later laterAnswer
    have before : state.calls + 1 ≤ j := bound
    exact ok.once others same j k (by omega) order later laterAnswer

theorem linkedState_grows (ok : TablesOk root allocator state)
    (shallow : path.length < 3)
    (here : descend entryChild (Tables state) root path = some page)
    (absent : Tables state page index &&& pteP = 0#64)
    (given : allocator = some answers)
    (answer : answers state.calls = some fresh.addr) :
    Grows root state (linkedState state page fresh index) := by
  have link := link_of_answer ok shallow here absent given answer
  have cut := link.descend_before []
  rw [List.append_nil] at cut
  refine ⟨?_, ?_⟩
  · intro other reached bound there
    have different : other ≠ path ++ [index] := by
      intro same
      rw [same, cut] at there
      cases there
    rw [tables_linkedState, link.descend bound, if_neg different]
    exact there
  · intro other read bound found
    have different : other ≠ path ++ [index] := by
      intro same
      have present := trail_isSome_iff entryChild (Tables state) root other
      rw [found, same, cut] at present
      cases present
    rw [tables_linkedState, link.trail (by omega) different]
    exact found

theorem linkedState_samePaths (ok : TablesOk root allocator state)
    (shallow : path.length < 3)
    (here : descend entryChild (Tables state) root path = some page)
    (absent : Tables state page index &&& pteP = 0#64)
    (given : allocator = some answers)
    (answer : answers state.calls = some fresh.addr) :
    SamePaths root state (linkedState state page fresh index) := by
  have link := link_of_answer ok shallow here absent given answer
  intro other full
  have different : other ≠ path ++ [index] := by
    intro same
    rw [same, List.length_append, List.length_singleton] at full
    omega
  rw [tables_linkedState, link.trail (by omega) different]

end Linking

/-! ## The walk -/

/-- `pt` is the table page that `path` leads to, through entries that passed the
checks. -/
def TableFor (root : PageAddr) (perm : BitVec 32) (state : WalkState)
    (path : List (Fin 512)) (pt : UIntPtr) : Prop :=
  ∃ (page : PageAddr) (read : List PageEntry), pt = page.addr ∧
    descend entryChild (Tables state) root path = some page ∧
    trail entryChild (Tables state) root path = some read ∧
    ∀ pe ∈ read, Allows perm pe

/-- What a walk returns: the tables are kept, and a table that is found is the
node of its path, reached through entries that passed the checks. -/
structure WalkSpec (root : PageAddr) (allocator : Allocator) (perm : BitVec 32)
    (before : WalkState) (path : List (Fin 512)) (found : Option UIntPtr)
    (after : WalkState) : Prop where
  ok : TablesOk root allocator after
  grows : Grows root before after
  same : SamePaths root before after
  table : ∀ pt, found = some pt → TableFor root perm after path pt

theorem WalkSpec.later {root : PageAddr} {allocator : Allocator} {perm : BitVec 32}
    {before middle after : WalkState} {path : List (Fin 512)} {found : Option UIntPtr}
    (spec : WalkSpec root allocator perm middle path found after)
    (grows : Grows root before middle) (same : SamePaths root before middle) :
    WalkSpec root allocator perm before path found after where
  ok := spec.ok
  grows := grows.trans spec.grows
  same := by
    intro other full
    rw [spec.same other full, same other full]
  table := spec.table

theorem checkEntry_allows {perm : BitVec 32} {pe : PageEntry} {result : Unit}
    (run : checkEntry perm pe = .ok result) : Allows perm pe := by
  unfold checkEntry at run
  obtain ⟨_, _, run⟩ := bind_eq_ok.mp run
  refine ⟨?_, ?_⟩
  · intro wanted
    rw [if_pos wanted] at run
    obtain ⟨_, passed, _⟩ := bind_eq_ok.mp run
    exact assert_eq_ok.mp passed
  · intro wanted
    by_cases wantW : permWord perm &&& pteW ≠ 0#64
    · rw [if_pos wantW] at run
      obtain ⟨_, _, run⟩ := bind_eq_ok.mp run
      rw [if_pos wanted] at run
      exact assert_eq_ok.mp run
    · rw [if_neg wantW] at run
      simp only [if_pos wanted] at run
      exact assert_eq_ok.mp run

theorem lookupLevels_spec (root : PageAddr) (va : UIntPtr) (perm : BitVec 32)
    (allocator : Allocator) (levels : List (Fin 4)) (path : List (Fin 512))
    (page : PageAddr) (read : List PageEntry) (state next : WalkState)
    (found : Option UIntPtr) (ok : TablesOk root allocator state)
    (bound : path.length + levels.length ≤ 3)
    (here : descend entryChild (Tables state) root path = some page)
    (entries : trail entryChild (Tables state) root path = some read)
    (allowed : ∀ pe ∈ read, Allows perm pe)
    (run : lookupLevels va perm allocator levels page.addr state =
      .ok (found, next)) :
    WalkSpec root allocator perm state (path ++ levels.map (pageindex va)) found
      next := by
  induction levels generalizing path page read state with
  | nil =>
      simp only [lookupLevels] at run
      cases run
      refine ⟨ok, Grows.refl root _, fun _ _ => rfl, ?_⟩
      intro pt same
      cases same
      refine ⟨page, read, rfl, ?_, ?_, allowed⟩
      · simpa using here
      · simpa using entries
  | cons level rest ih =>
      rw [List.length_cons] at bound
      simp only [lookupLevels] at run
      obtain ⟨⟨entry, middle⟩, level_run, run⟩ := bind_eq_ok.mp run
      -- the rest of the walk, once the entry `pe` of this level is in place
      have onward : ∀ pe, entry = some pe → TablesOk root allocator middle →
          Grows root state middle → SamePaths root state middle →
          descend entryChild (Tables middle) root
            (path ++ [pageindex va level]) = some (ptePage pe) →
          trail entryChild (Tables middle) root
            (path ++ [pageindex va level]) = some (read ++ [pe]) →
          WalkSpec root allocator perm state
            (path ++ (level :: rest).map (pageindex va)) found next := by
        intro pe present middleOk grows same down along
        subst present
        simp only at run
        obtain ⟨_, checked, run⟩ := bind_eq_ok.mp run
        have allows := checkEntry_allows checked
        have spec := ih (path ++ [pageindex va level]) (ptePage pe) (read ++ [pe])
          middle middleOk (by simp; omega) down along
          (by
            intro other member
            rcases List.mem_append.mp member with member | member
            · exact allowed other member
            · rw [List.mem_singleton.mp member]
              exact allows)
          run
        rw [List.append_assoc] at spec
        exact spec.later grows same
      rcases presentEntry_cases level_run with
        ⟨rfl, rfl, present⟩ | ⟨rfl, memory, calls, absent⟩ |
        ⟨answers, fresh, given, answer, absent, rfl, rfl⟩
      · have edge := entryChild_of_present present
        apply onward _ rfl ok (Grows.refl root _) (fun _ _ => rfl)
        · rw [descend_snoc _ root page path _ here, edge]
        · rw [trail_snoc _ root page path _ read here entries, edge]
          rfl
      · cases run
        refine ⟨ok.later memory calls, Grows.of_memory memory, ?_, ?_⟩
        · intro other full
          simp only [Tables, memory]
        · intro pt impossible
          cases impossible
      · have shallow : path.length < 3 := by omega
        have link := link_of_answer ok shallow here absent given answer
        have edge := newEntry_child fresh
        have target : ptePage (pteAddr fresh.addr ||| pteP ||| pteW ||| pteU) =
            fresh := by
          rw [entryChild] at edge
          split at edge
          · cases edge
          · exact Option.some.inj edge
        apply onward _ rfl
          (linkedState_ok ok shallow here absent given answer)
          (linkedState_grows ok shallow here absent given answer)
          (linkedState_samePaths ok shallow here absent given answer)
        · rw [tables_linkedState, link.descend (by simp; omega), if_pos rfl, target]
        · rw [tables_linkedState, link.trail_on entries]

/-! ## Writing the slot of a page -/

section Writing

variable {root page : PageAddr} {allocator : Allocator} {state : WalkState}
  {path : List (Fin 512)}

/-- The state after `l4pagetable->entry[index] = pe`. -/
def writtenState (state : WalkState) (pt : UIntPtr) (index : Fin 512)
    (pe : PageEntry) : WalkState :=
  { state with memory := writeEntry state.memory pt index pe }

theorem tables_writtenState (state : WalkState) (page : PageAddr)
    (index : Fin 512) (pe : PageEntry) :
    Tables (writtenState state page.addr index pe) =
      update (Tables state) page index pe :=
  slots_writeEntry state.memory page index pe

theorem writtenState_ok (ok : TablesOk root allocator state)
    (full : path.length = 3)
    (here : descend entryChild (Tables state) root path = some page)
    (index : Fin 512) (pe : PageEntry) :
    TablesOk root allocator (writtenState state page.addr index pe) := by
  refine ⟨?_, ?_, ok.once⟩
  · rw [tables_writtenState]
    exact unshared_update index pe ok.unshared full here
  · intro answers given k bound later answer reached
    rw [tables_writtenState, reaches_update index pe ok.unshared full here]
      at reached
    exact ok.outside answers given k bound later answer reached

theorem writtenState_grows (ok : TablesOk root allocator state)
    (full : path.length = 3)
    (here : descend entryChild (Tables state) root path = some page)
    (index : Fin 512) (pe : PageEntry) :
    Grows root state (writtenState state page.addr index pe) := by
  refine ⟨?_, ?_⟩
  · intro other reached bound there
    rw [tables_writtenState, descend_update index pe ok.unshared full here bound]
    exact there
  · intro other read bound found
    have different : other ≠ path ++ [index] := by
      intro same
      rw [same, List.length_append, List.length_singleton] at bound
      omega
    rw [tables_writtenState,
      trail_update_off index pe ok.unshared full here (by omega) different]
    exact found

end Writing

/-! ## The loop -/

/-- The address of the `j`-th page from `addr` on. -/
def nthPage (addr : UIntPtr) (j : Nat) : UIntPtr := addr + BitVec.ofNat 64 (4096 * j)

theorem nthPage_zero (addr : UIntPtr) : nthPage addr 0 = addr := by
  simp [nthPage]

theorem nthPage_succ (addr : UIntPtr) (j : Nat) :
    nthPage (addr + pageSize) j = nthPage addr (j + 1) := by
  apply BitVec.eq_of_toNat_eq
  simp only [nthPage, pageSize, BitVec.toNat_add, BitVec.toNat_ofNat]
  omega

/-- The entries on `path` are those of a page mapped by `pe` under `perm`. -/
def Carries (root : PageAddr) (perm : BitVec 32) (state : WalkState)
    (path : List (Fin 512)) (pe : PageEntry) : Prop :=
  ∃ read : List PageEntry,
    trail entryChild (Tables state) root path = some (read ++ [pe]) ∧
    ∀ other ∈ read, Allows perm other

/-- One page is done: mapped as requested, or, without `PTE_P`, unmapped where a
last-level table was found. -/
structure PageDone (root : PageAddr) (perm : BitVec 32) (before after : WalkState)
    (path : List (Fin 512)) (pa : UIntPtr) : Prop where
  mapped : permWord perm &&& pteP ≠ 0#64 →
    Carries root perm after path (pa ||| permWord perm)
  unmapped : permWord perm &&& pteP = 0#64 →
    trail entryChild (Tables after) root path = none ∨
      trail entryChild (Tables after) root path =
        trail entryChild (Tables before) root path

/-- The first `done` pages from `va` on are done, all other paths are as they
were. -/
def PagesDone (root : PageAddr) (perm : BitVec 32) (before after : WalkState)
    (va pa : UIntPtr) (done : Nat) : Prop :=
  ∀ path : List (Fin 512), path.length = 4 →
    (∃ j < done, path = vaPath (nthPage va j) ∧
      PageDone root perm before after path (nthPage pa j)) ∨
    ((∀ j < done, path ≠ vaPath (nthPage va j)) ∧
      trail entryChild (Tables after) root path =
        trail entryChild (Tables before) root path)

theorem vaUpper_length (va : UIntPtr) : (vaUpper va).length = 3 := rfl

theorem cachedTable_spec {root : PageAddr} {va : UIntPtr} {perm : BitVec 32}
    {allocator : Allocator} {lastIndex123 : Int} {l4pagetable : Option UIntPtr}
    {state next : WalkState} {found : Option UIntPtr}
    (ok : TablesOk root allocator state)
    (cached : index123 va = lastIndex123 → ∀ pt, l4pagetable = some pt →
      TableFor root perm state (vaUpper va) pt)
    (run : cachedTable root.addr va perm allocator lastIndex123 l4pagetable state =
      .ok (found, next)) :
    WalkSpec root allocator perm state (vaUpper va) found next := by
  unfold cachedTable at run
  split at run
  · have spec := lookupLevels_spec root va perm allocator [0, 1, 2] [] root []
      state next found ok (by decide) rfl rfl (by simp) run
    simpa [vaUpper] using spec
  · next hit =>
      cases run
      exact ⟨ok, Grows.refl root _, fun _ _ => rfl, cached (not_not.mp hit)⟩

theorem TableFor.grows {root : PageAddr} {perm : BitVec 32}
    {before after : WalkState} {path : List (Fin 512)} {pt : UIntPtr}
    (table : TableFor root perm before path pt) (bound : path.length ≤ 3)
    (grows : Grows root before after) : TableFor root perm after path pt := by
  obtain ⟨page, read, same, here, found, allowed⟩ := table
  exact ⟨page, read, same, grows.nodes path page bound here,
    grows.entries path read bound found, allowed⟩

def requestedEntry (perm : BitVec 32) (pa : UIntPtr) : PageEntry :=
  if permWord perm &&& pteP ≠ 0#64 then pa ||| permWord perm else permWord perm

/-- One iteration that finds a last-level table finishes its own page. -/
theorem writtenState_done {root : PageAddr} {perm : BitVec 32}
    {allocator : Allocator} {va pa l4 : UIntPtr} {before state : WalkState}
    (walk : WalkSpec root allocator perm before (vaUpper va) (some l4) state) :
    PagesDone root perm before
      (writtenState state l4 (pageindex va 3) (requestedEntry perm pa)) va pa 1 := by
  obtain ⟨page, read, rfl, here, found, allowed⟩ := walk.table l4 rfl
  intro path full
  by_cases on : path = vaPath va
  · left
    refine ⟨0, by omega, by rw [nthPage_zero]; exact on, ?_⟩
    have written := trail_update_on (pageindex va 3) (requestedEntry perm pa)
      walk.ok.unshared (vaUpper_length va) here found
    subst on
    refine ⟨?_, ?_⟩
    · intro present
      have entry : requestedEntry perm pa = pa ||| permWord perm := if_pos present
      have flag : (pa ||| permWord perm) &&& pteP ≠ 0#64 := by
        rw [Ne, noP_iff, Bool.not_eq_false] at present
        rw [Ne, noP_iff, BitVec.getLsbD_or, present]
        simp
      rw [entry, entryChild_of_present flag] at written
      refine ⟨read, ?_, allowed⟩
      rw [nthPage_zero, entry, tables_writtenState]
      exact written
    · intro absent
      have entry : requestedEntry perm pa = permWord perm :=
        if_neg (not_not.mpr absent)
      rw [entry, entryChild_eq_none.mpr absent] at written
      left
      rw [entry, tables_writtenState]
      exact written
  · right
    refine ⟨?_, ?_⟩
    · intro j bound
      have first : j = 0 := by omega
      rw [first, nthPage_zero]
      exact on
    · rw [tables_writtenState, trail_update_off (pageindex va 3) _
        walk.ok.unshared (vaUpper_length va) here (by omega) on]
      exact walk.same path full

theorem PagesDone.step {root : PageAddr} {perm : BitVec 32}
    {before middle after : WalkState} {va pa : UIntPtr} {done : Nat}
    (first : PagesDone root perm before middle va pa 1)
    (rest : PagesDone root perm middle after (va + pageSize) (pa + pageSize) done) :
    PagesDone root perm before after va pa (done + 1) := by
  intro path full
  rcases rest path full with ⟨j, bound, same, page⟩ | ⟨off, kept⟩
  · left
    rw [nthPage_succ] at same page
    refine ⟨j + 1, by omega, same, page.mapped, ?_⟩
    intro absent
    rcases page.unmapped absent with gone | kept
    · exact Or.inl gone
    · rw [kept]
      rcases first path full with ⟨_, _, _, here⟩ | ⟨_, unchanged⟩
      · exact here.unmapped absent
      · exact Or.inr unchanged
  · rcases first path full with ⟨j, bound, same, page⟩ | ⟨offFirst, unchanged⟩
    · left
      refine ⟨j, by omega, same, ?_, ?_⟩
      · intro present
        obtain ⟨read, found, allowed⟩ := page.mapped present
        exact ⟨read, kept.trans found, allowed⟩
      · intro absent
        rw [kept]
        exact page.unmapped absent
    · right
      refine ⟨?_, kept.trans unchanged⟩
      intro j bound
      cases j with
      | zero => exact offFirst 0 (by omega)
      | succ j =>
          rw [← nthPage_succ]
          exact off j (by omega)

/-- A page that is passed over without a table counts as done without `PTE_P`. -/
theorem PagesDone.skip {root : PageAddr} {perm : BitVec 32}
    {before after : WalkState} (va pa : UIntPtr)
    (absent : permWord perm &&& pteP = 0#64) (same : SamePaths root before after) :
    PagesDone root perm before after va pa 1 := by
  intro path full
  by_cases on : path = vaPath va
  · left
    refine ⟨0, by omega, by rw [nthPage_zero]; exact on, ?_, ?_⟩
    · intro present
      exact absurd absent present
    · intro _
      exact Or.inr (same path full)
  · right
    refine ⟨?_, same path full⟩
    intro j bound
    have first : j = 0 := by omega
    rw [first, nthPage_zero]
    exact on

/-- The result of the loop: all pages are done, or the loop stopped with -1 and
only a proper prefix of them is. -/
structure MapSpec (root : PageAddr) (perm : BitVec 32) (allocator : Allocator)
    (before after : WalkState) (va pa : UIntPtr) (pages : Nat) (status : Int) :
    Prop where
  ok : TablesOk root allocator after
  finished : ∃ done, PagesDone root perm before after va pa done ∧
    (status = 0 ∧ done = pages ∨
      status = -1 ∧ done < pages ∧ permWord perm &&& pteP ≠ 0#64)

theorem mapLoop_spec (root : PageAddr) (perm : BitVec 32) (allocator : Allocator)
    (pages : Nat) (va pa : UIntPtr) (lastIndex123 : Int)
    (l4pagetable : Option UIntPtr) (state next : WalkState) (status : Int)
    (ok : TablesOk root allocator state)
    (cached : index123 va = lastIndex123 → ∀ pt, l4pagetable = some pt →
      TableFor root perm state (vaUpper va) pt)
    (run : mapLoop root.addr perm allocator pages va pa lastIndex123 l4pagetable
      state = .ok (status, next)) :
    MapSpec root perm allocator state next va pa pages status := by
  induction pages generalizing va pa lastIndex123 l4pagetable state with
  | zero =>
      simp only [mapLoop] at run
      cases run
      refine ⟨ok, 0, ?_, Or.inl ⟨rfl, rfl⟩⟩
      intro path full
      exact Or.inr ⟨fun j bound => absurd bound (Nat.not_lt_zero j), rfl⟩
  | succ pages ih =>
      simp only [mapLoop] at run
      obtain ⟨⟨found, walked⟩, walkRun, run⟩ := bind_eq_ok.mp run
      have walk := cachedTable_spec ok cached walkRun
      -- the remaining pages, from a state in which this page is done
      have onward : ∀ middle, TablesOk root allocator middle →
          PagesDone root perm state middle va pa 1 → Grows root walked middle →
          mapLoop root.addr perm allocator pages (va + pageSize) (pa + pageSize)
            (index123 va) found middle = .ok (status, next) →
          MapSpec root perm allocator state next va pa (pages + 1) status := by
        intro middle middleOk first grows rest
        have spec := ih (va + pageSize) (pa + pageSize) (index123 va) found middle
          middleOk
          (by
            intro hit pt same
            rw [vaUpper_next va hit]
            exact (walk.table pt same).grows (Nat.le_refl _) grows)
          rest
        obtain ⟨done, all, result⟩ := spec.finished
        refine ⟨spec.ok, done + 1, first.step all, ?_⟩
        rcases result with ⟨zero, whole⟩ | ⟨failed, part, present⟩
        · exact Or.inl ⟨zero, by omega⟩
        · exact Or.inr ⟨failed, by omega, present⟩
      cases found with
      | some l4 =>
          obtain ⟨page, read, rfl, here, _, _⟩ := walk.table l4 rfl
          exact onward _
            (writtenState_ok walk.ok (vaUpper_length va) here _ _)
            (writtenState_done walk)
            (writtenState_grows walk.ok (vaUpper_length va) here _ _) run
      | none =>
          simp only at run
          split at run
          · next present =>
              cases run
              refine ⟨walk.ok, 0, ?_, Or.inr ⟨rfl, by omega, present⟩⟩
              intro path full
              exact Or.inr ⟨fun j bound => absurd bound (Nat.not_lt_zero j),
                walk.same path full⟩
          · next absent =>
              exact onward walked walk.ok
                (PagesDone.skip va pa (not_not.mp absent) walk.same)
                (Grows.refl root walked) run

end OsLabs.Weensy
