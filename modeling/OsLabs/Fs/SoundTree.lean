import OsLabs.Fs.Rename

/-!
# What keeps a tree sound

An entry more, an entry less, an entry moved, and a new inode.  Between the link and the unlink
of a rename a directory has two entries, so that its tree is counted but not sound.
-/

set_option autoImplicit false

namespace OsLabs.Fs

open OsLabs.RadixTree

/-- A sound tree but for directories with more than one entry. -/
structure Tree.Counted (t : Tree) : Prop where
  root : t.kind t.root = some .dir
  top : ∀ dir name, t.slot dir name ≠ some t.root
  used : ∀ {dir name ino}, t.slot dir name = some ino → t.kind ino ≠ none
  finite : ∀ ino, (t.links ino).Finite
  counted : ∀ ino, ino ≠ t.root → (t.nlink ino).toNat = (t.links ino).ncard

theorem Tree.Sound.toCounted {t : Tree} (sound : t.Sound) : t.Counted where
  root := sound.root
  top := sound.top
  used := sound.used
  finite := sound.finite
  counted := sound.counted

theorem Tree.Counted.used_resolve {t : Tree} {names : List Name} {ino : Nat} (counted : t.Counted)
    (here : t.resolve names = some ino) : t.kind ino ≠ none := by
  cases names using List.reverseRecOn with
  | nil =>
      cases here
      rw [counted.root]
      exact Option.some_ne_none _
  | append_singleton front last =>
      obtain ⟨_, _, slot⟩ := Tree.resolve_last here
      exact counted.used slot

theorem Tree.Counted.used_find {t : Tree} {path : List UInt8} {ino : Nat} (counted : t.Counted)
    (found : t.find path = some ino) : t.kind ino ≠ none := by
  rw [Tree.find] at found
  split at found
  · exact counted.used_resolve found
  · cases found

/-- `i_nlink` can count another link. -/
def Tree.Linkable (t : Tree) (ino : Nat) : Prop := (t.nlink ino).toNat + 1 < 2 ^ 16

section Keeps

variable {t : Tree} {dir ino old : Nat} {name oldName : Name}

theorem Tree.mem_links {place : Nat × Name} :
    place ∈ t.links ino ↔ t.slot place.1 place.2 = some ino := Iff.rfl

theorem Tree.kind_addEntry (x : Nat) : (t.addEntry dir name ino).kind x = t.kind x := rfl

theorem Tree.links_addEntry (directory : t.kind dir = some .dir) (short : name.length < nameMax)
    (absent : t.slot dir name = none) (x : Nat) : (t.addEntry dir name ino).links x =
      if x = ino then insert (dir, name) (t.links ino) else t.links x := by
  ext ⟨other, later⟩
  rw [Tree.mem_links, Tree.slot_addEntry directory short]
  by_cases here : other = dir ∧ later = name
  · obtain ⟨rfl, rfl⟩ := here
    rw [if_pos ⟨rfl, rfl⟩]
    by_cases same : x = ino
    · rw [if_pos same, same]
      exact iff_of_true rfl (Set.mem_insert _ _)
    · rw [if_neg same, Tree.mem_links, absent]
      exact iff_of_false (fun found => same (Option.some.inj found).symm) (by simp)
  · have other_place : (other, later) ≠ (dir, name) := fun same =>
      here ⟨congrArg Prod.fst same, congrArg Prod.snd same⟩
    rw [if_neg here]
    by_cases same : x = ino
    · rw [if_pos same, same]
      exact ⟨Or.inr, fun member => member.resolve_left other_place⟩
    · rw [if_neg same]
      rfl

theorem Tree.Counted.addEntry (counted : t.Counted) (directory : t.kind dir = some .dir)
    (short : name.length < nameMax) (absent : t.slot dir name = none) (below : ino ≠ t.root)
    (used : t.kind ino ≠ none) (room : t.Linkable ino) :
    (t.addEntry dir name ino).Counted := by
  have slots : ∀ other later, (t.addEntry dir name ino).slot other later =
      if other = dir ∧ later = name then some ino else t.slot other later :=
    Tree.slot_addEntry directory short
  have links : ∀ x, (t.addEntry dir name ino).links x =
      if x = ino then insert (dir, name) (t.links ino) else t.links x :=
    Tree.links_addEntry directory short absent
  constructor
  · exact counted.root
  · intro other later found
    rw [slots] at found
    split at found
    · exact below (Option.some.inj found)
    · exact counted.top other later found
  · intro other later x found
    rw [slots] at found
    split at found
    · cases found
      exact used
    · exact counted.used found
  · intro x
    rw [links]
    split
    · exact (counted.finite ino).insert _
    · exact counted.finite x
  · intro x other
    rw [links]
    simp only [Tree.addEntry]
    by_cases same : x = ino
    · have new : (dir, name) ∉ t.links ino := by
        rw [Tree.mem_links, absent]
        simp
      rw [if_pos same, if_pos same, Set.ncard_insert_of_notMem new (counted.finite ino),
        ← counted.counted ino below, UInt16.toNat_add]
      exact Nat.mod_eq_of_lt room
    · rw [if_neg same, if_neg same]
      exact counted.counted x other

/-- An entry more for an inode in use that is no directory with an entry. -/
theorem Tree.Sound.addEntry (sound : t.Sound) (directory : t.kind dir = some .dir)
    (short : name.length < nameMax) (absent : t.slot dir name = none) (below : ino ≠ t.root)
    (used : t.kind ino ≠ none) (room : t.Linkable ino)
    (first : t.kind ino = some .dir → t.links ino = ∅) : (t.addEntry dir name ino).Sound := by
  have slots : ∀ other later, (t.addEntry dir name ino).slot other later =
      if other = dir ∧ later = name then some ino else t.slot other later :=
    Tree.slot_addEntry directory short
  have after := sound.toCounted.addEntry directory short absent below used room
  have unnamed : ∀ other later, t.kind ino = some .dir → t.slot other later ≠ some ino := by
    intro other later isDirectory found
    have member : (other, later) ∈ t.links ino := found
    rw [first isDirectory] at member
    exact member
  refine ⟨after.root, after.top, ?_, after.used, after.finite, after.counted⟩
  intro other another later last x one two isDirectory
  rw [slots] at one two
  split at one
  · rename_i here
    cases one
    split at two
    · rename_i there
      exact ⟨here.1.trans there.1.symm, here.2.trans there.2.symm⟩
    · exact absurd two (unnamed another last isDirectory)
  · split at two
    · cases two
      exact absurd one (unnamed other later isDirectory)
    · exact sound.single one two isDirectory

/-- With nothing behind its inode, an entry less changes no other. -/
theorem Tree.slot_removed (empty : t.Empty ino) (other : Nat) (later : Name) :
    (t.removeEntry dir name ino).slot other later =
      if other = dir ∧ later = name then none else t.slot other later := by
  rw [Tree.slot_removeEntry]
  by_cases here : other = dir ∧ later = name
  · rw [if_pos (Or.inr here), if_pos here]
  · rw [if_neg here]
    split
    · rename_i cut
      obtain ⟨rfl, _⟩ := cut.resolve_right here
      exact (empty later).symm
    · rfl

theorem Tree.links_removeEntry (empty : t.Empty ino) (x : Nat) :
    (t.removeEntry dir name ino).links x = t.links x \ {(dir, name)} := by
  ext ⟨other, later⟩
  rw [Tree.mem_links, Tree.slot_removed empty, Set.mem_sdiff, Tree.mem_links,
    Set.mem_singleton_iff, Prod.mk.injEq]
  by_cases here : other = dir ∧ later = name
  · simp [here]
  · rw [if_neg here]
    exact (and_iff_left here).symm

theorem Tree.Sound.removeEntry (sound : t.Sound) (slot : t.slot dir name = some ino)
    (empty : t.Empty ino) : (t.removeEntry dir name ino).Sound := by
  have slots : ∀ other later, (t.removeEntry dir name ino).slot other later =
      if other = dir ∧ later = name then none else t.slot other later :=
    Tree.slot_removed empty
  have links : ∀ x, (t.removeEntry dir name ino).links x = t.links x \ {(dir, name)} :=
    Tree.links_removeEntry empty
  have below : ino ≠ t.root := by
    rintro rfl
    exact sound.top dir name slot
  -- what still has an entry is not freed
  have kinds : ∀ other later x, (t.removeEntry dir name ino).slot other later = some x →
      (t.removeEntry dir name ino).kind x = t.kind x := by
    intro other later x found
    rw [slots] at found
    split at found
    · cases found
    · rename_i apart
      simp only [Tree.removeEntry]
      rw [if_neg]
      rintro ⟨rfl, freed⟩
      apply sound.linked_twice found slot _ freed
      intro same
      exact apart ⟨congrArg Prod.fst same, congrArg Prod.snd same⟩
  have before : ∀ other later x, (t.removeEntry dir name ino).slot other later = some x →
      t.slot other later = some x := fun _ _ _ found => (Tree.slot_of_removeEntry found).1
  constructor
  · simp only [Tree.removeEntry]
    rw [if_neg (fun freed => below freed.1.symm)]
    exact sound.root
  · intro other later found
    exact sound.top other later (before _ _ _ found)
  · intro other another later last x one two isDirectory
    rw [kinds _ _ _ one] at isDirectory
    exact sound.single (before _ _ _ one) (before _ _ _ two) isDirectory
  · intro other later x found
    rw [kinds _ _ _ found]
    exact sound.used (before _ _ _ found)
  · intro x
    rw [links]
    exact (sound.finite x).sdiff
  · intro x other
    rw [links]
    simp only [Tree.removeEntry]
    by_cases same : x = ino
    · have member : (dir, name) ∈ t.links ino := slot
      rw [if_pos same, same, Set.ncard_sdiff_singleton_of_mem member, ← sound.counted ino below]
      exact UInt16.toNat_sub_of_le _ _ (UInt16.le_iff_toNat_le.mpr (Nat.pos_of_ne_zero fun zero =>
        sound.linked slot (UInt16.toNat_inj.mp zero)))
    · have absent : (dir, name) ∉ t.links x := by
        rw [Tree.mem_links, slot]
        exact fun found => same (Option.some.inj found).symm
      rw [if_neg same, Set.sdiff_singleton_eq_self absent]
      exact sound.counted x other

/-! ## Moving an entry -/

theorem Tree.kind_move (linked : t.nlink ino ≠ 0) (x : Nat) :
    (t.move dir name old oldName ino).kind x = t.kind x := by
  simp only [Tree.move, Tree.removeEntry, Tree.addEntry, if_true]
  rw [if_neg]
  rintro ⟨_, freed⟩
  rw [UInt16.add_sub_cancel] at freed
  exact linked freed

theorem Tree.nlink_move (x : Nat) : (t.move dir name old oldName ino).nlink x = t.nlink x := by
  simp only [Tree.move, Tree.removeEntry, Tree.addEntry, if_true]
  split
  · rename_i same
    rw [same, UInt16.add_sub_cancel]
  · rfl

theorem Tree.Sound.slot_move (sound : t.Sound) (directory : t.kind dir = some .dir)
    (short : name.length < nameMax) (absent : t.slot dir name = none)
    (slot : t.slot old oldName = some ino) {other x : Nat} {later : Name} :
    (t.move dir name old oldName ino).slot other later = some x ↔
      (other, later) = (dir, name) ∧ x = ino ∨
        (other, later) ≠ (old, oldName) ∧ t.slot other later = some x := by
  rw [(Cleared.refl directory absent).slot_move short (sound.linked slot)]
  simp only [Ne, Prod.mk.injEq]
  by_cases source : other = old ∧ later = oldName
  · have different : ¬ (other = dir ∧ later = name) := by
      rintro ⟨rfl, rfl⟩
      rw [source.1, source.2, slot] at absent
      cases absent
    rw [if_pos source]
    simp only [source, true_and, not_true_eq_false, false_and, or_false]
    rw [source.1, source.2] at different
    simp [different]
  · by_cases target : other = dir ∧ later = name
    · rw [if_neg source, if_pos target, target.1, target.2, absent]
      simp [eq_comm]
    · simp [source, target]

theorem Tree.Sound.links_move (sound : t.Sound) (directory : t.kind dir = some .dir)
    (short : name.length < nameMax) (absent : t.slot dir name = none)
    (slot : t.slot old oldName = some ino) (x : Nat) :
    (t.move dir name old oldName ino).links x =
      if x = ino then insert (dir, name) (t.links ino \ {(old, oldName)}) else t.links x := by
  ext ⟨other, later⟩
  rw [Tree.mem_links, sound.slot_move directory short absent slot]
  by_cases same : x = ino
  · rw [if_pos same, same, Set.mem_insert_iff, Set.mem_sdiff, Set.mem_singleton_iff,
      Tree.mem_links]
    tauto
  · rw [if_neg same, Tree.mem_links]
    constructor
    · rintro (⟨_, moved⟩ | ⟨_, found⟩)
      · exact absurd moved same
      · exact found
    · intro found
      refine Or.inr ⟨?_, found⟩
      intro source
      cases source
      exact same (Option.some.inj (found.symm.trans slot))

/-- A move to a free place, also one behind the source. -/
theorem Tree.Sound.move (sound : t.Sound) (directory : t.kind dir = some .dir)
    (short : name.length < nameMax) (absent : t.slot dir name = none)
    (slot : t.slot old oldName = some ino) : (t.move dir name old oldName ino).Sound := by
  have slots : ∀ {other x later}, (t.move dir name old oldName ino).slot other later = some x ↔
      (other, later) = (dir, name) ∧ x = ino ∨
        (other, later) ≠ (old, oldName) ∧ t.slot other later = some x :=
    sound.slot_move directory short absent slot
  have links := sound.links_move directory short absent slot
  have kinds : ∀ x, (t.move dir name old oldName ino).kind x = t.kind x :=
    Tree.kind_move (sound.linked slot)
  have used : ∀ other later x, (t.move dir name old oldName ino).slot other later = some x →
      ∃ before earlier, t.slot before earlier = some x := by
    intro other later x found
    rcases slots.mp found with ⟨_, rfl⟩ | ⟨_, kept⟩
    · exact ⟨old, oldName, slot⟩
    · exact ⟨other, later, kept⟩
  constructor
  · exact (kinds _).trans sound.root
  · intro other later found
    obtain ⟨_, _, there⟩ := used _ _ _ found
    exact sound.top _ _ there
  · intro other another later last x one two isDirectory
    rw [kinds] at isDirectory
    -- the moved directory had one entry only, the source
    have alone : ∀ place earlier, (place, earlier) ≠ (old, oldName) →
        t.slot place earlier = some ino → x = ino → False := by
      rintro place earlier apart there rfl
      obtain ⟨rfl, rfl⟩ := sound.single there slot isDirectory
      exact apart rfl
    rcases slots.mp one with ⟨here, rfl⟩ | ⟨apart, kept⟩
    · rcases slots.mp two with ⟨there, _⟩ | ⟨apart, kept⟩
      · exact Prod.mk.inj (here.trans there.symm)
      · exact (alone _ _ apart kept rfl).elim
    · rcases slots.mp two with ⟨_, rfl⟩ | ⟨_, also⟩
      · exact (alone _ _ apart kept rfl).elim
      · exact sound.single kept also isDirectory
  · intro other later x found
    obtain ⟨_, _, there⟩ := used _ _ _ found
    rw [kinds]
    exact sound.used there
  · intro x
    rw [links]
    split
    · exact ((sound.finite ino).sdiff).insert _
    · exact sound.finite x
  · intro x other
    rw [Tree.nlink_move, links, sound.counted x other]
    split
    · rename_i same
      have new : (dir, name) ∉ t.links ino := by
        rw [Tree.mem_links, absent]
        simp
      rw [same, Set.ncard_exchange new slot]
    · rfl

/-! ## New inodes -/

/-- A new inode of some kind, still without a name. -/
def Tree.fresh (t : Tree) (ino : Nat) (kind : Kind) : Tree where
  root := t.root
  kind := fun other => if other = ino then some kind else t.kind other
  entry := clear t.entry ino none
  nlink := fun other => if other = ino then 0 else t.nlink other

variable {kind : Kind}

def Tree.enter (t : Tree) (dir : Nat) (name : Name) (ino : Nat) : Tree :=
  { t with entry := update t.entry dir name (some ino) }

def Tree.leave (t : Tree) (dir : Nat) (name : Name) : Tree :=
  { t with entry := update t.entry dir name none }

def Tree.setHeader (t : Tree) (ino : Nat) (kind : Kind) (links : UInt16) : Tree :=
  { t with
    kind := fun other => if other = ino then some kind else t.kind other
    nlink := fun other => if other = ino then links else t.nlink other }

theorem Tree.setHeader_new : ((t.fresh ino .file).enter dir name ino).setHeader ino kind 1 =
    (t.fresh ino kind).addEntry dir name ino := by
  have kinds : (fun other => if other = ino then some kind else
      ((t.fresh ino .file).enter dir name ino).kind other) = (t.fresh ino kind).kind := by
    funext other
    simp only [Tree.enter, Tree.fresh]
    split <;> rfl
  have links : (fun other => if other = ino then 1 else
      ((t.fresh ino .file).enter dir name ino).nlink other) =
        ((t.fresh ino kind).addEntry dir name ino).nlink := by
    funext other
    simp only [Tree.enter, Tree.fresh, Tree.addEntry]
    split <;> simp
  rw [Tree.setHeader, kinds, links]
  rfl

theorem Tree.setHeader_link (has : t.kind ino = some kind) :
    (t.enter dir name ino).setHeader ino kind (t.nlink ino + 1) = t.addEntry dir name ino := by
  have kinds : (fun other => if other = ino then some kind else t.kind other) = t.kind := by
    funext other
    split
    · rename_i here
      rw [here, has]
    · rfl
  rw [Tree.setHeader, Tree.addEntry, Tree.enter]
  simp only [kinds]

theorem Tree.slot_unused (unused : t.kind ino = none) (later : Name) : t.slot ino later = none := by
  rw [slot, if_neg]
  rw [unused]
  rintro ⟨directory, _⟩
  cases directory

theorem Tree.slot_fresh (unused : t.kind ino = none) (other : Nat) (later : Name) :
    (t.fresh ino kind).slot other later = t.slot other later := by
  by_cases same : other = ino
  · rw [same, Tree.slot_unused unused, slot]
    simp [Tree.fresh, clear]
  · simp only [slot, Tree.fresh, clear, if_neg same]

theorem Tree.Sound.links_unused (sound : t.Sound) (unused : t.kind ino = none) :
    t.links ino = ∅ := by
  apply Set.eq_empty_of_forall_notMem
  intro place member
  exact sound.used member unused

theorem Tree.Sound.fresh (sound : t.Sound) (unused : t.kind ino = none) :
    (t.fresh ino kind).Sound := by
  have slots : ∀ other later, (t.fresh ino kind).slot other later = t.slot other later :=
    Tree.slot_fresh unused
  have links : ∀ x, (t.fresh ino kind).links x = t.links x := by
    intro x
    ext place
    rw [Tree.mem_links, Tree.mem_links, slots]
  have kinds : ∀ x, t.kind x ≠ none → (t.fresh ino kind).kind x = t.kind x := by
    intro x used
    simp only [Tree.fresh]
    rw [if_neg]
    rintro rfl
    exact used unused
  constructor
  · exact (kinds t.root (by simp [sound.root])).trans sound.root
  · intro other later found
    rw [slots] at found
    exact sound.top other later found
  · intro other another later last x one two isDirectory
    rw [slots] at one two
    rw [kinds x (sound.used one)] at isDirectory
    exact sound.single one two isDirectory
  · intro other later x found
    rw [slots] at found
    rw [kinds x (sound.used found)]
    exact sound.used found
  · intro x
    rw [links]
    exact sound.finite x
  · intro x other
    rw [links]
    simp only [Tree.fresh]
    split
    · rename_i same
      rw [same, sound.links_unused unused, Set.ncard_empty]
      rfl
    · exact sound.counted x other

end Keeps

end OsLabs.Fs
