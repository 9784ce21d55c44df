import OsLabs.Lib.ByteMemory
import OsLabs.Lib.DepthFirst

/-!
# find_partition of mkbootdisk.c

The search for the kernel's partition follows extended partition tables wherever the disk
says they are.  All sectors can be read here.
-/

set_option autoImplicit false

namespace OsLabs.Weensy

open OsLabs.ByteMemory OsLabs.DepthFirst

/-! ## The search -/

abbrev Sectors := Nat → Memory

def readsect (disk : Sectors) (sectno : Nat) : Memory := disk (sectno % 2 ^ 32)

/-- The fields of `struct Partitiondesc` that are used. -/
structure Partitiondesc where
  type : Nat
  lbaStart : Nat
  lbaLength : Nat
  deriving DecidableEq, Repr

/-- `ptable[i]`, behind `PTABLE_OFFSET`. -/
def ptable (buf : Memory) (i : Nat) : Partitiondesc :=
  ⟨(buf (446 + 16 * i + 4)).toNat, loadLE buf (446 + 16 * i + 8) 4,
    loadLE buf (446 + 16 * i + 12) 4⟩

def HasMagic (buf : Memory) : Prop := buf 510 = 0x55 ∧ buf 511 = 0xAA

instance (buf : Memory) : Decidable (HasMagic buf) :=
  inferInstanceAs (Decidable (_ ∧ _))

def ptypeJosKern : Nat := 0x27

def ptypesExtended : List Nat := [0x05, 0x0F, 0x85]

/-- The partition that is used: where the file pointer and `maxoff` are set. -/
structure Partition where
  startSector : Nat
  maxoff : Nat
  deriving DecidableEq, Repr

structure Using where
  number : Int
  partition : Partition
  deriving DecidableEq, Repr

/-- The loop over the table; the outer `none` is for a call that was given up, and the inner
one for 0. -/
def searchTable (find : Nat → Nat → Int → Option (Option Using)) (partitionSect : Nat)
    (extendedSect : Nat) (partoff : Int) (buf : Memory) :
    List Nat → Option (Option Using)
  | [] => some none
  | i :: rest =>
      let next := searchTable find partitionSect extendedSect partoff buf rest
      let entry := ptable buf i
      if entry.lbaLength = 0 then next
      else if entry.type = ptypeJosKern then
        some (some ⟨partoff + i + 1, partitionSect + entry.lbaStart, entry.lbaLength * 512⟩)
      else if entry.type ∈ ptypesExtended then
        let innerSect := if extendedSect = 0 then entry.lbaStart else extendedSect
        match find (entry.lbaStart + extendedSect) innerSect
            (if partoff = 0 then 4 else partoff + 1) with
        | none => none
        | some (some found) => some (some found)
        | some none => next
      else next

/-- `find_partition`; the recursion is given up after `fuel` calls. -/
def findPartition (disk : Sectors) : Nat → Nat → Nat → Int → Option (Option Using)
  | 0, _, _, _ => none
  | fuel + 1, partitionSect, extendedSect, partoff =>
      let buf := readsect disk partitionSect
      if HasMagic buf then
        searchTable (findPartition disk fuel) partitionSect extendedSect partoff buf
          [0, 1, 2, 3]
      else some none

/-! ## The tables -/

structure Table where
  partitionSect : Nat
  extendedSect : Nat
  deriving DecidableEq

def Table.entries (disk : Sectors) (table : Table) : List Partitiondesc :=
  let buf := readsect disk table.partitionSect
  if HasMagic buf then [0, 1, 2, 3].map (ptable buf) else []

def Table.item (table : Table) (entry : Partitiondesc) : Item Table Partition :=
  if entry.lbaLength = 0 then .skip
  else if entry.type = ptypeJosKern then
    .hit ⟨table.partitionSect + entry.lbaStart, entry.lbaLength * 512⟩
  else if entry.type ∈ ptypesExtended then
    .link ⟨entry.lbaStart + table.extendedSect,
      if table.extendedSect = 0 then entry.lbaStart else table.extendedSect⟩
  else .skip

def tableItems (disk : Sectors) (table : Table) : List (Item Table Partition) :=
  (table.entries disk).map table.item

def rootTable : Table := ⟨0, 0⟩

def Partitiondesc.IsKernel (entry : Partitiondesc) : Prop :=
  entry.lbaLength ≠ 0 ∧ entry.type = ptypeJosKern

/-- The call ends with a partition of some table that it comes to, or with 0 when none of
these tables has one. -/
def FindsPartition (disk : Sectors) : Prop :=
  ∃ fuel result, findPartition disk fuel 0 0 0 = some result ∧
    match result with
    | some found => ∃ table, Visited (tableItems disk) rootTable table ∧
        ∃ entry ∈ table.entries disk, entry.IsKernel ∧
          found.partition.startSector = table.partitionSect + entry.lbaStart
    | none => ∀ table, Visited (tableItems disk) rootTable table →
        ∀ entry ∈ table.entries disk, ¬ entry.IsKernel

/-- No chain of the links that are followed leads from a table back to it. -/
def NoLoop (disk : Sectors) : Prop :=
  ¬ ∃ table, Visited (tableItems disk) rootTable table ∧
    Relation.TransGen (Follows (tableItems disk)) table table

section Search

variable {disk : Sectors} {table : Table}

theorem item_hit {entry : Partitiondesc} {found : Partition}
    (hit : table.item entry = .hit found) :
    entry.IsKernel ∧ found.startSector = table.partitionSect + entry.lbaStart := by
  unfold Table.item at hit
  split_ifs at hit with empty kernel extended
  cases hit
  exact ⟨⟨empty, kernel⟩, rfl⟩

theorem item_kernel {entry : Partitiondesc} (kernel : entry.IsKernel) :
    ∃ found, table.item entry = .hit found := by
  unfold Table.item
  rw [if_neg kernel.1, if_pos kernel.2]
  exact ⟨_, rfl⟩

theorem searchTable_search {find : Nat → Nat → Int → Option (Option Using)}
    {search : Table → Option (Option Partition)}
    (same : ∀ partitionSect extendedSect partoff,
      (find partitionSect extendedSect partoff).map (·.map Using.partition) =
        search ⟨partitionSect, extendedSect⟩) (partoff : Int) (buf : Memory)
    (indices : List Nat) :
    (searchTable find table.partitionSect table.extendedSect partoff buf indices).map
        (·.map Using.partition) =
      searchItems search ((indices.map (ptable buf)).map table.item) := by
  induction indices with
  | nil => rfl
  | cons i rest ih =>
      simp only [searchTable, List.map_cons]
      generalize ptable buf i = entry
      by_cases empty : entry.lbaLength = 0
      · have skipped : table.item entry = .skip := if_pos empty
        rw [if_pos empty, skipped, ih]
        rfl
      · by_cases kernel : entry.type = ptypeJosKern
        · have hit : table.item entry =
              .hit ⟨table.partitionSect + entry.lbaStart, entry.lbaLength * 512⟩ := by
            rw [Table.item, if_neg empty, if_pos kernel]
          rw [if_neg empty, if_pos kernel, hit]
          rfl
        · by_cases extended : entry.type ∈ ptypesExtended
          · have link : table.item entry = .link ⟨entry.lbaStart + table.extendedSect,
                if table.extendedSect = 0 then entry.lbaStart else table.extendedSect⟩ := by
              rw [Table.item, if_neg empty, if_neg kernel, if_pos extended]
            have inner := same (entry.lbaStart + table.extendedSect)
              (if table.extendedSect = 0 then entry.lbaStart else table.extendedSect)
              (if partoff = 0 then 4 else partoff + 1)
            rw [if_neg empty, if_neg kernel, if_pos extended, link, searchItems, ← inner, ← ih]
            split
            · next call => rw [call]; rfl
            · next call => rw [call]; rfl
            · next call => rw [call]; rfl
          · have skipped : table.item entry = .skip := by
              rw [Table.item, if_neg empty, if_neg kernel, if_neg extended]
            rw [if_neg empty, if_neg kernel, if_neg extended, skipped, ih]
            rfl

theorem findPartition_search (disk : Sectors) (fuel partitionSect extendedSect : Nat)
    (partoff : Int) :
    (findPartition disk fuel partitionSect extendedSect partoff).map
        (·.map Using.partition) =
      search (tableItems disk) fuel ⟨partitionSect, extendedSect⟩ := by
  induction fuel generalizing partitionSect extendedSect partoff with
  | zero => rfl
  | succ fuel ih =>
      simp only [findPartition, search, tableItems, Table.entries]
      split
      · exact @searchTable_search ⟨partitionSect, extendedSect⟩ _ _ ih partoff _ _
      · rfl

def Table.Small (table : Table) : Prop :=
  table.partitionSect < 2 ^ 33 ∧ table.extendedSect < 2 ^ 32

theorem Leads.small {child : Table} (leads : Leads (tableItems disk) table child)
    (small : table.Small) : child.Small := by
  obtain ⟨entry, member, link⟩ := List.mem_map.mp leads
  have lba : entry.lbaStart < 2 ^ 32 := by
    simp only [Table.entries] at member
    split at member
    · obtain ⟨i, _, rfl⟩ := List.mem_map.mp member
      exact loadLE_lt _ _ 4
    · cases member
  unfold Table.item at link
  split_ifs at link
  all_goals
    cases link
    unfold Table.Small at small ⊢
    simp only
    omega

theorem visited_finite (disk : Sectors) :
    {table | Visited (tableItems disk) rootTable table}.Finite := by
  have small : ∀ table, Visited (tableItems disk) rootTable table → table.Small := by
    intro table visited
    induction visited with
    | refl => exact ⟨by decide, by decide⟩
    | tail _ follows ih => exact Leads.small follows.leads ih
  have box : ((fun sects : Nat × Nat => Table.mk sects.1 sects.2) ''
      (Set.Iio (2 ^ 33) ×ˢ Set.Iio (2 ^ 32))).Finite :=
    ((Set.finite_Iio _).prod (Set.finite_Iio _)).image _
  refine box.subset ?_
  intro table visited
  exact ⟨(table.partitionSect, table.extendedSect), small table visited, rfl⟩

theorem FindsPartition.ends (finds : FindsPartition disk) :
    Ends (tableItems disk) rootTable := by
  obtain ⟨fuel, result, ran, _⟩ := finds
  have same := findPartition_search disk fuel 0 0 0
  rw [ran] at same
  exact ⟨fuel, _, same.symm⟩

end Search

/-- The search ends, with the right result, exactly when it does not come back to a table. -/
theorem findPartition_iff (disk : Sectors) : FindsPartition disk ↔ NoLoop disk := by
  rw [NoLoop, ← ends_iff (visited_finite disk)]
  constructor
  · exact FindsPartition.ends
  · rintro ⟨fuel, result, done⟩
    have same := findPartition_search disk fuel 0 0 0
    rw [show (⟨0, 0⟩ : Table) = rootTable from rfl, done] at same
    obtain ⟨found, ran, rfl⟩ := Option.map_eq_some_iff.mp same
    refine ⟨fuel, found, ran, ?_⟩
    cases found with
    | some found =>
        obtain ⟨table, visited, member⟩ := search_some done
        obtain ⟨entry, inside, hit⟩ := List.mem_map.mp member
        obtain ⟨kernel, start⟩ := item_hit hit
        exact ⟨table, visited, entry, inside, kernel, start⟩
    | none =>
        intro table visited entry inside kernel
        obtain ⟨hit, isHit⟩ := @item_kernel table entry kernel
        refine search_none done ⟨table, visited.reaches, hit, ?_⟩
        exact List.mem_map.mpr ⟨entry, inside, isHit⟩

/-- Every sector is an extended partition table that points to sector 0. -/
def loopingDisk : Sectors := fun _ i =>
  if i = 510 then 0x55 else if i = 511 then 0xAA
  else if i = 450 then 0x05 else if i = 458 then 1 else 0

/-- The search of that disk never ends. -/
theorem findPartition_loops : ¬ FindsPartition loopingDisk := by
  intro finds
  have follows : Follows (tableItems loopingDisk) rootTable rootTable := by
    refine ⟨[], [.skip, .skip, .skip], ?_, by simp⟩
    rfl
  exact (ends_iff (visited_finite loopingDisk)).mp finds.ends
    ⟨rootTable, .refl, .single follows⟩

end OsLabs.Weensy
