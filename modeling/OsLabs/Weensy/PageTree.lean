import OsLabs.Lib.RadixTree
import OsLabs.Weensy.Paging

/-!
# Page tables as radix trees

A page table pointer that is page aligned is a node, the entry array its slots,
and an entry with `PTE_P` points to the page it names.  `virtualMemoryLookup`
is then a function of the entries on the path of the address.
-/

set_option autoImplicit false

namespace OsLabs.Weensy

open OsLabs.ByteMemory OsLabs.RadixTree

/-! ## Bits of entries and addresses as arithmetic -/

theorem low12_toNat (word : BitVec 64) :
    (word &&& 0xFFF#64).toNat = word.toNat % 4096 := by
  rw [BitVec.toNat_and]
  exact Nat.and_two_pow_sub_one_eq_mod word.toNat 12

theorem pageOffset_toNat (addr : UIntPtr) :
    (pageOffset addr).toNat = addr.toNat % 4096 := low12_toNat addr

theorem high52_getLsbD : ∀ i < 64, (~~~0xFFF#64).getLsbD i = decide (12 ≤ i) := by
  decide

theorem pteAddr_eq_shift (pe : PageEntry) : pteAddr pe = (pe >>> 12) <<< 12 := by
  apply BitVec.eq_of_getLsbD_eq
  intro i bound
  rw [pteAddr, BitVec.getLsbD_and, high52_getLsbD i bound,
    BitVec.getLsbD_shiftLeft, BitVec.getLsbD_ushiftRight]
  by_cases small : i < 12
  · simp [small]
  · have recombine : 12 + (i - 12) = i := by omega
    have large : 12 ≤ i := by omega
    simp [small, bound, large, recombine]

theorem pteAddr_toNat (pe : PageEntry) :
    (pteAddr pe).toNat = pe.toNat / 4096 * 4096 := by
  have bound := pe.isLt
  rw [pteAddr_eq_shift, BitVec.toNat_shiftLeft, BitVec.toNat_ushiftRight,
    Nat.shiftRight_eq_div_pow, Nat.shiftLeft_eq]
  omega

theorem toNat_or_of_aligned {page flags : BitVec 64}
    (aligned : page.toNat % 4096 = 0) (small : flags.toNat < 4096) :
    (page ||| flags).toNat = page.toNat + flags.toNat := by
  have spec := Nat.two_pow_add_eq_or_of_lt (show flags.toNat < 2 ^ 12 from small)
    (page.toNat / 4096)
  have multiple : 2 ^ 12 * (page.toNat / 4096) = page.toNat := by omega
  rw [multiple] at spec
  rw [BitVec.toNat_or, ← spec]

theorem pageindex_val (va : UIntPtr) (level : Fin 4) :
    (pageindex va level).val =
      va.toNat / 2 ^ (12 + (3 - level.val) * 9) % 512 := by
  simp [pageindex, Nat.shiftRight_eq_div_pow]

theorem index123_eq_iff (va other : UIntPtr) :
    index123 va = index123 other ↔
      va.toNat / 2 ^ 21 % 2 ^ 32 = other.toNat / 2 ^ 21 % 2 ^ 32 := by
  rw [index123, index123, BitVec.toInt_inj, ← BitVec.toNat_inj]
  simp [Nat.shiftRight_eq_div_pow]

theorem mod_pageSize_eq_zero {word : UIntPtr} :
    word % pageSize = 0#64 ↔ word.toNat % 4096 = 0 := by
  rw [← BitVec.toNat_inj, BitVec.toNat_umod]
  rfl

theorem and_twoPow_eq_zero {word : BitVec 64} {i : Nat} (bound : i < 64) :
    word &&& BitVec.twoPow 64 i = 0#64 ↔ word.getLsbD i = false := by
  rw [BitVec.and_twoPow]
  split
  · next bit =>
      rw [bit]
      simp only [Bool.true_eq_false, iff_false]
      intro zero
      have clash := congrArg (fun word => word.getLsbD i) zero
      simp [bound] at clash
  · next bit => simp_all

theorem noP_iff {pe : PageEntry} : pe &&& pteP = 0#64 ↔ pe.getLsbD 0 = false :=
  and_twoPow_eq_zero (show 0 < 64 by decide)

theorem noW_iff {pe : PageEntry} : pe &&& pteW = 0#64 ↔ pe.getLsbD 1 = false :=
  and_twoPow_eq_zero (show 1 < 64 by decide)

theorem noU_iff {pe : PageEntry} : pe &&& pteU = 0#64 ↔ pe.getLsbD 2 = false :=
  and_twoPow_eq_zero (show 2 < 64 by decide)

theorem present_and {left right : PageEntry} (leftPresent : left &&& pteP ≠ 0#64)
    (rightPresent : right &&& pteP ≠ 0#64) : left &&& right &&& pteP ≠ 0#64 := by
  rw [Ne, noP_iff, Bool.not_eq_false] at leftPresent rightPresent
  rw [Ne, noP_iff, BitVec.getLsbD_and, leftPresent, rightPresent]
  decide

/-! ## Nodes, slots and children -/

structure PageAddr where
  addr : UIntPtr
  aligned : addr.toNat % 4096 = 0

theorem PageAddr.ext {left right : PageAddr} (same : left.addr = right.addr) :
    left = right := by
  cases left
  cases right
  simp_all

instance : DecidableEq PageAddr := fun left right =>
  decidable_of_iff (left.addr = right.addr) ⟨PageAddr.ext, congrArg PageAddr.addr⟩

theorem PageAddr.apart {left right : PageAddr} (different : left ≠ right) :
    left.addr.toNat + 4096 ≤ right.addr.toNat ∨
      right.addr.toNat + 4096 ≤ left.addr.toNat := by
  have distinct : left.addr.toNat ≠ right.addr.toNat := fun same =>
    different (PageAddr.ext (BitVec.toNat_inj.mp same))
  have := left.aligned
  have := right.aligned
  omega

def ptePage (pe : PageEntry) : PageAddr :=
  ⟨pteAddr pe, by rw [pteAddr_toNat]; omega⟩

def entryChild (pe : PageEntry) : Option PageAddr :=
  if pe &&& pteP = 0#64 then none else some (ptePage pe)

def slots (memory : Memory) (page : PageAddr) (index : Fin 512) : PageEntry :=
  readEntry memory page.addr index

theorem entryChild_zero : entryChild 0#64 = none := by decide

theorem entryChild_eq_none {pe : PageEntry} :
    entryChild pe = none ↔ pe &&& pteP = 0#64 := by
  simp [entryChild]

theorem entryChild_of_present {pe : PageEntry} (present : pe &&& pteP ≠ 0#64) :
    entryChild pe = some (ptePage pe) := if_neg present

theorem slots_writeEntry (memory : Memory) (page : PageAddr) (index : Fin 512)
    (pe : PageEntry) :
    slots (writeEntry memory page.addr index pe) =
      update (slots memory) page index pe := by
  funext other position
  have indexLt := index.isLt
  have positionLt := position.isLt
  by_cases here : other = page ∧ position = index
  · obtain ⟨rfl, rfl⟩ := here
    simp only [slots, readEntry, writeEntry, update, and_self, if_true,
      loadLE_storeLE]
    apply BitVec.eq_of_toNat_eq
    simpa using pe.isLt
  · simp only [update, if_neg here, slots, readEntry, writeEntry]
    rw [loadLE_storeLE_apart]
    by_cases same : other = page
    · subst other
      have distinct : position.val ≠ index.val := fun equal =>
        here ⟨rfl, Fin.ext equal⟩
      omega
    · rcases PageAddr.apart same with below | above <;> omega

theorem slots_fill (memory : Memory) (page : PageAddr) :
    slots (fill memory page.addr.toNat 4096 0) = clear (slots memory) page 0#64 := by
  funext other position
  have positionLt := position.isLt
  by_cases here : other = page
  · subst other
    simp only [slots, readEntry, clear, if_true]
    rw [loadLE_fill_zero _ _ _ _ _ (by omega) (by omega)]
  · simp only [clear, if_neg here, slots, readEntry]
    rw [loadLE_fill_apart]
    rcases PageAddr.apart here with below | above <;> omega

/-! ## The path of an address -/

def vaUpper (va : UIntPtr) : List (Fin 512) :=
  [pageindex va 0, pageindex va 1, pageindex va 2]

def vaPath (va : UIntPtr) : List (Fin 512) := vaUpper va ++ [pageindex va 3]

def pageOf (va : UIntPtr) : BitVec 36 := (va >>> 12).setWidth 36

theorem pageOf_toNat (va : UIntPtr) : (pageOf va).toNat = va.toNat / 4096 % 2 ^ 36 := by
  simp [pageOf, Nat.shiftRight_eq_div_pow]

theorem vaPath_eq_iff (va other : UIntPtr) :
    vaPath va = vaPath other ↔ pageOf va = pageOf other := by
  rw [← BitVec.toNat_inj, pageOf_toNat, pageOf_toNat]
  simp only [vaPath, vaUpper, List.cons_append, List.nil_append, List.cons.injEq,
    Fin.ext_iff, pageindex_val, and_true]
  simp only [Fin.val_zero, Fin.val_one, Fin.val_two, Nat.reduceMul, Nat.reduceAdd,
    Nat.reduceSub, Nat.reducePow, show ((3 : Fin 4).val) = 3 from rfl]
  omega

/-- Equal truncated indices of neighbouring pages mean equal upper indices. -/
theorem vaUpper_next (va : UIntPtr)
    (same : index123 (va + pageSize) = index123 va) :
    vaUpper (va + pageSize) = vaUpper va := by
  rw [index123_eq_iff] at same
  have bound := va.isLt
  have next : (va + pageSize).toNat = (va.toNat + 4096) % 2 ^ 64 := by
    simp [pageSize, BitVec.toNat_add]
  simp only [vaUpper, List.cons.injEq, Fin.ext_iff, pageindex_val, and_true]
  simp only [Fin.val_zero, Fin.val_one, Fin.val_two, Nat.reduceMul, Nat.reduceAdd,
    Nat.reduceSub, Nat.reducePow] at same next ⊢
  rw [next] at same ⊢
  omega

/-! ## virtual_memory_lookup reads the path -/

def permsAlong (entries : List PageEntry) : PageEntry :=
  entries.foldl (· &&& ·) (7#64)

/-- What `virtual_memory_lookup` reports for the entries on a path. -/
def mappingOf (va : UIntPtr) : Option (List PageEntry) → VaMapping
  | none => .unmapped
  | some entries =>
      ⟨pageNumber (entries.getLastD 0#64),
        pteAddr (entries.getLastD 0#64) + pageOffset va,
        (permsAlong entries).setWidth 32⟩

theorem getLsbD_of_within {word : BitVec 64} (within : word &&& 7#64 = word)
    {i : Nat} (bit : word.getLsbD i = true) : i < 3 := by
  rw [← within, BitVec.getLsbD_and, Bool.and_eq_true] at bit
  have bound : i < 64 := BitVec.lt_of_getLsbD bit.2
  have table : ∀ i < 64, (7#64).getLsbD i = decide (i < 3) := by decide
  simpa [table i bound] using bit.2

theorem within_and {word : BitVec 64} (within : word &&& 7#64 = word)
    (pe : PageEntry) : (word &&& pe) &&& 7#64 = word &&& pe := by
  rw [BitVec.and_assoc, BitVec.and_comm pe, ← BitVec.and_assoc, within]

theorem setWidth_within {word : BitVec 64} (within : word &&& 7#64 = word)
    (width : Nat) :
    (word.setWidth 8).setWidth width = word.setWidth width := by
  apply BitVec.eq_of_getLsbD_eq
  intro i bound
  rw [BitVec.getLsbD_setWidth, BitVec.getLsbD_setWidth, BitVec.getLsbD_setWidth]
  cases bit : word.getLsbD i with
  | false => simp
  | true =>
      have := getLsbD_of_within within bit
      simp [show i < 8 by omega]

theorem widen_within {word : BitVec 64} (within : word &&& 7#64 = word) :
    (word.setWidth 8).setWidth 64 = word := by
  rw [setWidth_within within, BitVec.setWidth_eq]

theorem and_pteFlags_within {word : BitVec 64} (within : word &&& 7#64 = word)
    (pe : PageEntry) : word &&& pteFlags pe = word &&& pe := by
  have widen : word &&& 0xFFF#64 = word := by
    rw [← within, BitVec.and_assoc]
    rfl
  rw [pteFlags, BitVec.and_comm pe, ← BitVec.and_assoc, widen]

theorem lookupLoop_stopped (memory : Memory) (va : UIntPtr)
    (levels : List (Fin 4)) (pt : UIntPtr) (pe : PageEntry) (perms : BitVec 8)
    (stopped : perms.setWidth 64 &&& pteP = 0#64) :
    lookupLoop memory va levels pt pe perms = (pe, perms) := by
  cases levels with
  | nil => rfl
  | cons level rest => simp only [lookupLoop, if_pos stopped]

theorem lookupLoop_spec (memory : Memory) (va : UIntPtr) (levels : List (Fin 4))
    (page : PageAddr) (pe word : PageEntry) (within : word &&& 7#64 = word)
    (present : word &&& pteP ≠ 0#64) :
    match trail entryChild (slots memory) page (levels.map (pageindex va)) with
    | some entries =>
        lookupLoop memory va levels page.addr pe (word.setWidth 8) =
          (entries.getLastD pe, (entries.foldl (· &&& ·) word).setWidth 8)
    | none =>
        (lookupLoop memory va levels page.addr pe (word.setWidth 8)).2.setWidth 64
          &&& pteP = 0#64 := by
  induction levels generalizing page pe word with
  | nil => simp [trail, lookupLoop]
  | cons level rest ih =>
      have read : readEntry memory page.addr (pageindex va level) =
          slots memory page (pageindex va level) := rfl
      simp only [List.map_cons, trail, lookupLoop, widen_within within,
        if_neg present, read]
      rw [and_pteFlags_within within]
      generalize slots memory page (pageindex va level) = next
      have withinNext := within_and within next
      by_cases absent : next &&& pteP = 0#64
      · have stopped :
            ((word &&& next).setWidth 8 : BitVec 8).setWidth 64 &&& pteP = 0#64 := by
          rw [widen_within withinNext, BitVec.and_assoc, absent, BitVec.and_zero]
        rw [entryChild_eq_none.mpr absent, lookupLoop_stopped _ _ _ _ _ _ stopped]
        exact stopped
      · have step := ih (ptePage next) next (word &&& next) withinNext
          (present_and present absent)
        rw [entryChild_of_present absent]
        simp only [Option.bind_some]
        cases found : trail entryChild (slots memory) (ptePage next)
            (rest.map (pageindex va)) with
        | none =>
            rw [found] at step
            exact step
        | some entries =>
            rw [found] at step
            refine step.trans ?_
            cases entries <;> rfl

theorem within_foldl (entries : List PageEntry) {word : BitVec 64}
    (within : word &&& 7#64 = word) :
    entries.foldl (· &&& ·) word &&& 7#64 = entries.foldl (· &&& ·) word := by
  induction entries generalizing word with
  | nil => exact within
  | cons pe rest ih => exact ih (within_and within pe)

theorem present_foldl (entries : List PageEntry) {word : BitVec 64}
    (present : word &&& pteP ≠ 0#64)
    (each : ∀ pe ∈ entries, pe &&& pteP ≠ 0#64) :
    entries.foldl (· &&& ·) word &&& pteP ≠ 0#64 := by
  induction entries generalizing word with
  | nil => exact present
  | cons pe rest ih =>
      have head := each pe (by simp)
      exact ih (present_and present head) fun other member =>
        each other (by simp [member])

theorem virtualMemoryLookup_eq (memory : Memory) (root : PageAddr) (va : UIntPtr) :
    virtualMemoryLookup memory root.addr va =
      mappingOf va (trail entryChild (slots memory) root (vaPath va)) := by
  have start : ((pteW ||| pteU ||| pteP).setWidth 8 : BitVec 8) =
      (7#64).setWidth 8 := by decide
  have spec := lookupLoop_spec memory va [0, 1, 2, 3] root 0#64 7#64
    (by decide) (by decide)
  have path : [0, 1, 2, 3].map (pageindex va) = vaPath va := rfl
  rw [path] at spec
  simp only [virtualMemoryLookup, start]
  cases found : trail entryChild (slots memory) root (vaPath va) with
  | none =>
      rw [found] at spec
      simp only at spec
      simp only [mappingOf]
      rw [if_pos spec]
  | some entries =>
      rw [found] at spec
      simp only at spec
      have each : ∀ pe ∈ entries, pe &&& pteP ≠ 0#64 := fun pe member absent =>
        trail_present _ _ _ _ found pe member (entryChild_eq_none.mpr absent)
      have within := within_foldl entries (show 7#64 &&& 7#64 = 7#64 by decide)
      have present := present_foldl entries (show 7#64 &&& pteP ≠ 0#64 by decide) each
      rw [spec]
      simp only [widen_within within, if_neg present, setWidth_within within,
        mappingOf, permsAlong]

end OsLabs.Weensy
