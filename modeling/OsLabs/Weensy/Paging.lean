import OsLabs.Lib.ByteMemory
import OsLabs.Weensy.Machine

/-!
# Page tables of k-hardware.c

`virtual_memory_map`, `lookup_l4pagetable` and `virtual_memory_lookup` over a
byte-addressed physical memory.  The kernel runs identity mapped, so a page
table pointer is the physical address of the table.

An allocator is the sequence of its answers: the `k`-th call returns
`answers k`, where `none` is `NULL`.  The outer `none` of `Allocator` is a
`NULL` function pointer.
-/

set_option autoImplicit false

namespace OsLabs.Weensy

open OsLabs.ByteMemory

/-! ## Parts of a paged address and of a page entry (x86-64.h) -/

def pageNumber (ptr : UIntPtr) : Int := ((ptr >>> 12).setWidth 32).toInt

/-- `pageindex(addr, level)`; the type of `level` carries its assertion. -/
def pageindex (addr : UIntPtr) (level : Fin 4) : Fin 512 :=
  Fin.ofNat 512 (addr >>> (12 + (3 - level.val) * 9)).toNat

def pageOffset (addr : UIntPtr) : UIntPtr := addr &&& 0xFFF#64

def pteAddr (pe : PageEntry) : UIntPtr := pe &&& ~~~0xFFF#64

def pteFlags (pe : PageEntry) : PageEntry := pe &&& 0xFFF#64

def readEntry (memory : Memory) (pt : UIntPtr) (index : Fin 512) : PageEntry :=
  BitVec.ofNat 64 (loadLE memory (pt.toNat + 8 * index.val) 8)

def writeEntry (memory : Memory) (pt : UIntPtr) (index : Fin 512)
    (pe : PageEntry) : Memory :=
  storeLE memory (pt.toNat + 8 * index.val) 8 pe.toNat

/-! ## virtual_memory_lookup -/

structure VaMapping where
  pn : Int
  pa : UIntPtr
  perm : BitVec 32
  deriving DecidableEq, Repr

def VaMapping.unmapped : VaMapping := ⟨-1, -1#64, 0#32⟩

/-- The loop over the levels, left when `PTE_P` is gone from `perms`. -/
def lookupLoop (memory : Memory) (va : UIntPtr) :
    List (Fin 4) → UIntPtr → PageEntry → BitVec 8 → PageEntry × BitVec 8
  | [], _, pe, perms => (pe, perms)
  | level :: rest, pt, pe, perms =>
      if perms.setWidth 64 &&& pteP = 0#64 then (pe, perms)
      else
        let pe := readEntry memory pt (pageindex va level)
        lookupLoop memory va rest (pteAddr pe) pe
          ((perms.setWidth 64 &&& pteFlags pe).setWidth 8)

def virtualMemoryLookup (memory : Memory) (pagetable va : UIntPtr) : VaMapping :=
  let perms : BitVec 8 := (pteW ||| pteU ||| pteP).setWidth 8
  let (pe, perms) := lookupLoop memory va [0, 1, 2, 3] pagetable 0#64 perms
  if perms.setWidth 64 &&& pteP = 0#64 then .unmapped
  else ⟨pageNumber pe, pteAddr pe + pageOffset va, perms.setWidth 32⟩

/-! ## lookup_l4pagetable -/

abbrev Allocator := Option (Nat → Option UIntPtr)

/-- The memory, and how often the allocator has been called. -/
structure WalkState where
  memory : Memory
  calls : Nat

def permWord (perm : BitVec 32) : PageEntry := perm.signExtend 64

/-- The entry at one level, after allocating a page table page if required;
`none` is the early `return NULL`. -/
def presentEntry (va : UIntPtr) (perm : BitVec 32) (allocator : Allocator)
    (level : Fin 4) (pt : UIntPtr) (state : WalkState) :
    Except Stop (Option PageEntry × WalkState) :=
  let pe := readEntry state.memory pt (pageindex va level)
  if pe &&& pteP = 0#64 then
    if permWord perm &&& pteP = 0#64 then .ok (none, state)
    else
      match allocator with
      | none => .ok (none, state)
      | some answers =>
          match answers state.calls with
          | none => .ok (none, { state with calls := state.calls + 1 })
          | some newPt => do
              assert (newPt % pageSize = 0#64) .newPtAligned
              let pe := pteAddr newPt ||| pteP ||| pteW ||| pteU
              let linked := writeEntry state.memory pt (pageindex va level) pe
              .ok (some pe, ⟨fill linked newPt.toNat pageSize.toNat 0, state.calls + 1⟩)
  else .ok (some pe, state)

def checkEntry (perm : BitVec 32) (pe : PageEntry) : Except Stop Unit := do
  assert (pteAddr pe < memsizePhysical) .entryAddrSensible
  if permWord perm &&& pteW ≠ 0#64 then
    assert (pe &&& pteW ≠ 0#64) .entryAllowsW
  if permWord perm &&& pteU ≠ 0#64 then
    assert (pe &&& pteU ≠ 0#64) .entryAllowsU

def lookupLevels (va : UIntPtr) (perm : BitVec 32) (allocator : Allocator) :
    List (Fin 4) → UIntPtr → WalkState →
      Except Stop (Option UIntPtr × WalkState)
  | [], pt, state => .ok (some pt, state)
  | level :: rest, pt, state => do
      let (found, state) ← presentEntry va perm allocator level pt state
      match found with
      | none => .ok (none, state)
      | some pe =>
          checkEntry perm pe
          lookupLevels va perm allocator rest (pteAddr pe) state

def lookupL4pagetable (pagetable va : UIntPtr) (perm : BitVec 32)
    (allocator : Allocator) (state : WalkState) :
    Except Stop (Option UIntPtr × WalkState) :=
  lookupLevels va perm allocator [0, 1, 2] pagetable state

/-! ## virtual_memory_map -/

def index123 (va : UIntPtr) : Int := ((va >>> 21).setWidth 32).toInt

/-- The last-level table for `va`: the one of the previous iteration unless the
upper indices have changed. -/
def cachedTable (pagetable va : UIntPtr) (perm : BitVec 32)
    (allocator : Allocator) (lastIndex123 : Int) (l4pagetable : Option UIntPtr)
    (state : WalkState) : Except Stop (Option UIntPtr × WalkState) :=
  if index123 va ≠ lastIndex123 then
    lookupL4pagetable pagetable va perm allocator state
  else .ok (l4pagetable, state)

/-- The loop of `virtual_memory_map`, `pages` iterations before `sz` is 0. -/
def mapLoop (pagetable : UIntPtr) (perm : BitVec 32) (allocator : Allocator) :
    Nat → UIntPtr → UIntPtr → Int → Option UIntPtr → WalkState →
      Except Stop (Int × WalkState)
  | 0, _, _, _, _, state => .ok (0, state)
  | pages + 1, va, pa, lastIndex123, l4pagetable, state => do
      let (l4pagetable, state) ←
        cachedTable pagetable va perm allocator lastIndex123 l4pagetable state
      let next := mapLoop pagetable perm allocator pages (va + pageSize)
        (pa + pageSize) (index123 va) l4pagetable
      match l4pagetable with
      | some l4 =>
          let pe := if permWord perm &&& pteP ≠ 0#64 then pa ||| permWord perm
            else permWord perm
          next { state with memory := writeEntry state.memory l4 (pageindex va 3) pe }
      | none =>
          if permWord perm &&& pteP ≠ 0#64 then .ok (-1, state) else next state

def virtualMemoryMap (state : WalkState) (pagetable va pa sz : UIntPtr)
    (perm : BitVec 32) (allocator : Allocator) : Except Stop (Int × WalkState) := do
  assert (va % pageSize = 0#64) .mapVaAligned
  assert (sz % pageSize = 0#64) .mapSzAligned
  assert (va ≤ va + sz ∨ va + sz = 0#64) .mapVaWraps
  if permWord perm &&& pteP ≠ 0#64 then
    assert (pa % pageSize = 0#64) .mapPaAligned
    assert (pa ≤ pa + sz) .mapPaWraps
    assert (pa + sz ≤ memsizePhysical) .mapPaExists
  assert (0 ≤ perm.toInt ∧ perm.toInt < 0x1000) .mapPermSensible
  assert (pagetable % pageSize = 0#64) .mapPagetableAligned
  -- `sz` is a multiple of PAGESIZE: the loop counts it down to 0 in these steps
  mapLoop pagetable perm allocator (sz / pageSize).toNat va pa (-1) none state

end OsLabs.Weensy
