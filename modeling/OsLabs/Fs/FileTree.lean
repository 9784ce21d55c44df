import OsLabs.Fs.Path
import OsLabs.Lib.RadixTree
import Mathlib.Data.Set.Card

/-!
# File trees

What the directories of a disk say: the entries of every directory, the kind of every inode
and the number of its links.  A path is followed by its elements.
-/

set_option autoImplicit false

namespace OsLabs.Fs

open OsLabs.ByteMemory OsLabs.RadixTree

abbrev Name := List UInt8

inductive Kind where
  | file | dir
  deriving DecidableEq, Repr

/-- An inode without a kind is not in use, and `i_nlink` is 16 bits wide. -/
structure Tree where
  root : Nat
  kind : Nat → Option Kind
  entry : Nat → Name → Option Nat
  nlink : Nat → UInt16

/-! ## Following a path -/

def Tree.slot (t : Tree) (dir : Nat) (name : Name) : Option Nat :=
  if t.kind dir = some .dir ∧ name.length < nameMax then t.entry dir name else none

def Tree.resolve (t : Tree) (names : List Name) : Option Nat :=
  descend id t.slot t.root names

def Tree.find (t : Tree) (path : List UInt8) : Option Nat :=
  if path.length < pathMax then t.resolve (segments path) else none

def Tree.place (t : Tree) (path : List UInt8) : Option (Nat × Name) :=
  match (segments path).getLast? with
  | none => none
  | some name => (t.resolve (segments path).dropLast).bind fun dir =>
      if path.length < pathMax ∧ t.kind dir = some .dir ∧ name.length < nameMax then
        some (dir, name)
      else none

def Tree.Reachable (t : Tree) (ino : Nat) : Prop := ∃ names, t.resolve names = some ino

def Tree.Empty (t : Tree) (dir : Nat) : Prop := ∀ name, t.slot dir name = none

def Tree.links (t : Tree) (ino : Nat) : Set (Nat × Name) := {place | t.slot place.1 place.2 = some ino}

/-- A directory has one entry, the root none, and the links are counted. -/
structure Tree.Sound (t : Tree) : Prop where
  root : t.kind t.root = some .dir
  top : ∀ dir name, t.slot dir name ≠ some t.root
  single : ∀ {dir other name later ino}, t.slot dir name = some ino →
    t.slot other later = some ino → t.kind ino = some .dir → dir = other ∧ name = later
  used : ∀ {dir name ino}, t.slot dir name = some ino → t.kind ino ≠ none
  finite : ∀ ino, (t.links ino).Finite
  counted : ∀ ino, ino ≠ t.root → (t.nlink ino).toNat = (t.links ino).ncard

/-! ## Entries added and removed -/

def Tree.addEntry (t : Tree) (dir : Nat) (name : Name) (ino : Nat) : Tree where
  root := t.root
  kind := t.kind
  entry := update t.entry dir name (some ino)
  nlink := fun other => if other = ino then t.nlink ino + 1 else t.nlink other

def Tree.removeEntry (t : Tree) (dir : Nat) (name : Name) (ino : Nat) : Tree where
  root := t.root
  kind := fun other => if other = ino ∧ t.nlink ino - 1 = 0 then none else t.kind other
  entry := update t.entry dir name none
  nlink := fun other => if other = ino then t.nlink ino - 1 else t.nlink other

section Trees

variable {t after : Tree} {dir ino : Nat} {name : Name} {path : List UInt8}

theorem Tree.slot_dir (found : t.slot dir name = some ino) : t.kind dir = some .dir := by
  rw [slot] at found
  split at found
  · rename_i ok
    exact ok.1
  · cases found

theorem Tree.slot_short (found : t.slot dir name = some ino) : name.length < nameMax := by
  rw [slot] at found
  split at found
  · rename_i ok
    exact ok.2
  · cases found

theorem Tree.resolve_append (front back : List Name) :
    t.resolve (front ++ back) = (t.resolve front).bind fun node => descend id t.slot node back :=
  descend_append t.slot t.root front back

theorem Tree.resolve_snoc {names : List Name} (here : t.resolve names = some dir) (name : Name) :
    t.resolve (names ++ [name]) = t.slot dir name :=
  descend_snoc t.slot t.root dir names name here

theorem Tree.resolve_prefix {front back : List Name} (found : t.resolve (front ++ back) = some ino) :
    ∃ node, t.resolve front = some node ∧ descend id t.slot node back = some ino :=
  descend_prefix t.slot t.root ino front back found

theorem Tree.resolve_last {names : List Name} (found : t.resolve (names ++ [name]) = some ino) :
    ∃ node, t.resolve names = some node ∧ t.slot node name = some ino := by
  obtain ⟨node, here, _⟩ := Tree.resolve_prefix found
  rw [Tree.resolve_snoc here] at found
  exact ⟨node, here, found⟩

theorem Tree.resolve_congr {names : List Name} (root : after.root = t.root)
    (same : ∀ front name rest dir, names = front ++ name :: rest → t.resolve front = some dir →
      after.slot dir name = t.slot dir name) : after.resolve names = t.resolve names := by
  rw [Tree.resolve, root]
  apply descend_congr
  rintro front name dir ⟨rest, whole⟩ here
  apply same front name rest dir
  · rw [← whole, List.append_assoc]
    rfl
  · exact here

/-- Entries of `after` that the path does not meet are those of `t`. -/
theorem Tree.resolve_back {names : List Name} (root : after.root = t.root)
    (old : ∀ front name rest dir found, names = front ++ name :: rest →
      t.resolve front = some dir → after.slot dir name = some found →
      t.slot dir name = some found)
    (found : after.resolve names = some ino) : t.resolve names = some ino := by
  induction names using List.reverseRecOn generalizing ino with
  | nil =>
      rw [Tree.resolve, root] at found
      exact found
  | append_singleton front name ih =>
      obtain ⟨node, here, last⟩ := Tree.resolve_last found
      have before := ih (by
        intro inner later rest dir found whole
        apply old inner later (rest ++ [name]) dir found
        rw [whole, List.append_assoc]
        rfl) here
      rw [Tree.resolve_snoc before]
      exact old front name [] node ino rfl before last

/-- The inodes with a path whose elements are `good`. -/
def Tree.Along (t : Tree) (good : Name → Prop) (ino : Nat) : Prop :=
  ∃ names, (∀ name ∈ names, good name) ∧ t.resolve names = some ino

/-- Along such paths the root has no entry, and a directory has one. -/
structure Tree.OneWay (t : Tree) (good : Name → Prop) : Prop where
  top : ∀ {dir name}, t.Along good dir → good name → t.slot dir name ≠ some t.root
  single : ∀ {dir other name later ino}, t.Along good dir → t.Along good other → good name →
    good later → t.slot dir name = some ino → t.slot other later = some ino →
    t.kind ino = some .dir → dir = other ∧ name = later

variable {good : Name → Prop}

theorem Tree.along_root : t.Along good t.root :=
  ⟨[], by simp, rfl⟩

theorem Tree.Along.child (along : t.Along good dir) (fits : good name)
    (found : t.slot dir name = some ino) : t.Along good ino := by
  obtain ⟨names, all, here⟩ := along
  refine ⟨names ++ [name], ?_, (Tree.resolve_snoc here name).trans found⟩
  intro other member
  rcases List.mem_append.mp member with member | member
  · exact all other member
  · rw [List.mem_singleton.mp member]
    exact fits

theorem Tree.along_last {names : List Name} (all : ∀ other ∈ names ++ [name], good other)
    (found : t.resolve (names ++ [name]) = some ino) :
    good name ∧ ∃ node, (∀ other ∈ names, good other) ∧ t.resolve names = some node ∧
      t.slot node name = some ino := by
  obtain ⟨node, here, slot⟩ := Tree.resolve_last found
  exact ⟨all name (by simp), node, fun other member => all other (by simp [member]), here, slot⟩

theorem Tree.OneWay.path_unique (oneWay : t.OneWay good) (directory : t.kind dir = some .dir)
    {names others : List Name} (namesGood : ∀ name ∈ names, good name)
    (othersGood : ∀ name ∈ others, good name) (here : t.resolve names = some dir)
    (there : t.resolve others = some dir) : names = others := by
  have rootless : ∀ front last, (∀ name ∈ front ++ [last], good name) →
      t.resolve (front ++ [last]) ≠ some t.root := by
    intro front last all found
    obtain ⟨fits, node, before, reached, slot⟩ := Tree.along_last all found
    exact oneWay.top ⟨front, before, reached⟩ fits slot
  induction names using List.reverseRecOn generalizing dir others with
  | nil =>
      cases here
      cases others using List.reverseRecOn with
      | nil => rfl
      | append_singleton front last => exact absurd there (rootless front last othersGood)
  | append_singleton front last ih =>
      cases others using List.reverseRecOn with
      | nil =>
          cases there
          exact absurd here (rootless front last namesGood)
      | append_singleton inner later =>
          obtain ⟨fits, node, frontGood, before, slot⟩ := Tree.along_last namesGood here
          obtain ⟨also, other, innerGood, beside, same⟩ := Tree.along_last othersGood there
          obtain ⟨rfl, rfl⟩ := oneWay.single ⟨front, frontGood, before⟩
            ⟨inner, innerGood, beside⟩ fits also slot same directory
          rw [ih (Tree.slot_dir slot) frontGood innerGood before beside]

theorem Tree.Sound.oneWay (sound : t.Sound) : t.OneWay fun _ => True where
  top := fun _ _ => sound.top _ _
  single := fun _ _ _ _ slot same directory => sound.single slot same directory

theorem Tree.Sound.path_unique (sound : t.Sound) (directory : t.kind dir = some .dir)
    {names others : List Name} (here : t.resolve names = some dir)
    (there : t.resolve others = some dir) : names = others :=
  sound.oneWay.path_unique directory (fun _ _ => trivial) (fun _ _ => trivial) here there

theorem Tree.place_eq_some {place : Nat × Name} :
    t.place path = some place ↔ ∃ front, segments path = front ++ [place.2] ∧
      t.resolve front = some place.1 ∧ path.length < pathMax ∧ t.kind place.1 = some .dir ∧
      place.2.length < nameMax := by
  rw [Tree.place]
  constructor
  · intro found
    cases last : (segments path).getLast? with
    | none =>
        rw [last] at found
        cases found
    | some name =>
        rw [last] at found
        obtain ⟨dir, here, rest⟩ := Option.bind_eq_some_iff.mp found
        split at rest
        · rename_i ok
          cases rest
          refine ⟨(segments path).dropLast, ?_, here, ok⟩
          rw [List.dropLast_append_getLast?]
          exact last
        · cases rest
  · rintro ⟨front, whole, here, ok⟩
    rw [whole, List.getLast?_concat, List.dropLast_concat]
    simp only [here, Option.bind_some, if_pos ok]

theorem Tree.find_of_place (placed : t.place path = some (dir, name)) :
    t.find path = t.slot dir name := by
  obtain ⟨front, whole, here, short, _⟩ := Tree.place_eq_some.mp placed
  rw [find, if_pos short, whole, Tree.resolve_snoc here]

theorem Tree.place_of_find (found : t.find path = some ino) (below : segments path ≠ []) :
    ∃ dir name, t.place path = some (dir, name) ∧ t.slot dir name = some ino := by
  rw [find] at found
  split at found
  · rename_i short
    obtain ⟨front, name, whole⟩ := (List.eq_nil_or_concat (segments path)).resolve_left below
    rw [List.concat_eq_append] at whole
    rw [whole] at found
    obtain ⟨dir, here, slot⟩ := Tree.resolve_last found
    refine ⟨dir, name, ?_, slot⟩
    apply Tree.place_eq_some.mpr
    exact ⟨front, whole, here, short, Tree.slot_dir slot, Tree.slot_short slot⟩
  · cases found

theorem Tree.place_dir (placed : t.place path = some (dir, name)) : t.kind dir = some .dir := by
  obtain ⟨_, _, _, _, directory, _⟩ := Tree.place_eq_some.mp placed
  exact directory

theorem Tree.Sound.meets (sound : t.Sound) (placed : t.place path = some (dir, name))
    {front : List Name} (here : t.resolve front = some dir) (rest : List Name) :
    segments path <+: front ++ name :: rest := by
  obtain ⟨own, whole, ownHere, _, directory, _⟩ := Tree.place_eq_some.mp placed
  rw [whole, sound.path_unique directory ownHere here]
  exact ⟨rest, by rw [List.append_assoc]; rfl⟩

theorem Tree.not_behind (placed : t.place path = some (dir, name)) :
    ∃ front, segments path = front ++ [name] ∧ t.resolve front = some dir ∧
      ¬ segments path <+: front := by
  obtain ⟨front, whole, here, _⟩ := Tree.place_eq_some.mp placed
  refine ⟨front, whole, here, ?_⟩
  intro behind
  have longer := behind.length_le
  rw [whole, List.length_append, List.length_singleton] at longer
  omega

/-! ## The number of links -/

theorem Tree.Sound.linked (sound : t.Sound) (found : t.slot dir name = some ino) :
    t.nlink ino ≠ 0 := by
  have other : ino ≠ t.root := by
    rintro rfl
    exact sound.top dir name found
  have present : (t.links ino).ncard ≠ 0 :=
    Set.ncard_ne_zero_of_mem (show (dir, name) ∈ t.links ino from found) (sound.finite ino)
  rw [← sound.counted ino other] at present
  rintro zero
  rw [zero] at present
  exact present rfl

theorem Tree.Sound.linked_twice (sound : t.Sound) {other : Nat} {later : Name}
    (found : t.slot dir name = some ino) (again : t.slot other later = some ino)
    (different : (dir, name) ≠ (other, later)) : t.nlink ino - 1 ≠ 0 := by
  have below : ino ≠ t.root := by
    rintro rfl
    exact sound.top dir name found
  have two := (Set.one_lt_ncard (sound.finite ino)).mpr
    ⟨(dir, name), found, (other, later), again, different⟩
  rw [← sound.counted ino below] at two
  intro last
  rw [UInt16.sub_eq_iff_eq_add.mp last] at two
  exact absurd two (by decide)

/-! ## Trees with one entry more or less -/

theorem Tree.slot_addEntry (directory : t.kind dir = some .dir) (short : name.length < nameMax)
    (other : Nat) (later : Name) : (t.addEntry dir name ino).slot other later =
      if other = dir ∧ later = name then some ino else t.slot other later := by
  by_cases here : other = dir ∧ later = name
  · obtain ⟨rfl, rfl⟩ := here
    rw [slot, if_pos ⟨directory, short⟩, if_pos ⟨rfl, rfl⟩]
    simp [addEntry, update]
  · have same : (t.addEntry dir name ino).entry other later = t.entry other later := by
      simp only [addEntry, update, if_neg here]
    rw [if_neg here, slot, slot, same]
    rfl

theorem Tree.slot_removeEntry (other : Nat) (later : Name) :
    (t.removeEntry dir name ino).slot other later =
      if (other = ino ∧ t.nlink ino - 1 = 0) ∨ other = dir ∧ later = name then none
      else t.slot other later := by
  by_cases freed : other = ino ∧ t.nlink ino - 1 = 0
  · rw [if_pos (Or.inl freed), slot, if_neg]
    simp [removeEntry, freed]
  · have kept : (t.removeEntry dir name ino).kind other = t.kind other := by
      simp only [removeEntry, if_neg freed]
    by_cases here : other = dir ∧ later = name
    · rw [if_pos (Or.inr here), slot]
      split
      · simp [removeEntry, update, here]
      · rfl
    · rw [if_neg (by tauto), slot, slot]
      simp only [kept]
      split
      · simp [removeEntry, update, here]
      · rfl

variable {names : List Name}

theorem Tree.resolve_addEntry (directory : t.kind dir = some .dir)
    (short : name.length < nameMax) (absent : t.slot dir name = none) {found : Nat}
    (here : t.resolve names = some found) :
    (t.addEntry dir name ino).resolve names = some found := by
  rw [← here]
  apply Tree.resolve_congr (show (t.addEntry dir name ino).root = t.root from rfl)
  intro front later rest other whole before
  rw [Tree.slot_addEntry directory short, if_neg]
  rintro ⟨rfl, rfl⟩
  rw [whole, List.append_cons] at here
  obtain ⟨node, there, _⟩ := Tree.resolve_prefix here
  rw [Tree.resolve_snoc before, absent] at there
  cases there

/-- Seen along `good` paths, `after` has one name more, with nothing behind it. -/
structure Tree.Gains (t after : Tree) (good : Name → Prop) (dir : Nat) (name : Name)
    (ino : Nat) : Prop where
  root : after.root = t.root
  absent : t.slot dir name = none
  slots : ∀ {other later}, t.Along good other → good later →
    after.slot other later = if other = dir ∧ later = name then some ino
      else t.slot other later
  leaf : ∀ later, after.slot ino later = none

theorem Tree.Gains.kept (gains : t.Gains after good dir name ino) {found : Nat}
    (all : ∀ other ∈ names, good other) (here : t.resolve names = some found) :
    after.resolve names = some found := by
  induction names using List.reverseRecOn generalizing found with
  | nil =>
      rw [Tree.resolve, gains.root]
      exact here
  | append_singleton front later ih =>
      obtain ⟨fits, node, frontGood, before, slot⟩ := Tree.along_last all here
      rw [Tree.resolve_snoc (ih frontGood before),
        gains.slots ⟨front, frontGood, before⟩ fits, if_neg]
      · exact slot
      · intro same
        rw [same.1, same.2, gains.absent] at slot
        cases slot

/-- A path of the larger tree is an old one or ends with the new name. -/
theorem Tree.Gains.back (gains : t.Gains after good dir name ino) {found : Nat}
    (all : ∀ other ∈ names, good other) (here : after.resolve names = some found) :
    t.resolve names = some found ∨ found = ino ∧
      ∃ front, names = front ++ [name] ∧ t.resolve front = some dir := by
  induction names using List.reverseRecOn generalizing found with
  | nil =>
      left
      rw [Tree.resolve, gains.root] at here
      exact here
  | append_singleton front later ih =>
      obtain ⟨fits, node, frontGood, before, slot⟩ := Tree.along_last all here
      rcases ih frontGood before with old | ⟨same, _⟩
      · rw [gains.slots ⟨front, frontGood, old⟩ fits] at slot
        split at slot
        · rename_i new
          right
          refine ⟨(Option.some.inj slot).symm, front, ?_, ?_⟩
          · rw [new.2]
          · rw [old, new.1]
        · left
          rw [Tree.resolve_snoc old]
          exact slot
      · rw [same, gains.leaf] at slot
        cases slot

theorem Tree.Gains.only (gains : t.Gains after good dir name ino) (oneWay : t.OneWay good)
    (directory : t.kind dir = some .dir) {front : List Name}
    (frontGood : ∀ other ∈ front, good other) (frontHere : t.resolve front = some dir)
    {found : Nat} (all : ∀ other ∈ names, good other) (different : names ≠ front ++ [name])
    (here : after.resolve names = some found) : t.resolve names = some found := by
  rcases gains.back all here with old | ⟨_, inner, whole, there⟩
  · exact old
  · have innerGood : ∀ other ∈ inner, good other := by
      intro other member
      apply all
      rw [whole]
      exact List.mem_append_left _ member
    rw [oneWay.path_unique directory innerGood frontGood there frontHere] at whole
    exact absurd whole different

theorem Tree.Gains.along (gains : t.Gains after good dir name ino) {found : Nat}
    (along : after.Along good found) : t.Along good found ∨ found = ino := by
  obtain ⟨names, all, here⟩ := along
  rcases gains.back all here with old | ⟨same, _⟩
  · exact Or.inl ⟨names, all, old⟩
  · exact Or.inr same

theorem Tree.resolve_of_removeEntry {found : Nat}
    (here : (t.removeEntry dir name ino).resolve names = some found) :
    t.resolve names = some found := by
  apply Tree.resolve_back (show (t.removeEntry dir name ino).root = t.root from rfl) _ here
  intro front later rest other found _ _ slot
  rw [Tree.slot_removeEntry] at slot
  split at slot
  · cases slot
  · exact slot

theorem Tree.resolve_removed (placed : t.place path = some (dir, name))
    (behind : segments path <+: names) : (t.removeEntry dir name ino).resolve names = none := by
  obtain ⟨front, whole, here, _⟩ := Tree.not_behind placed
  obtain ⟨rest, rfl⟩ := behind
  cases found : (t.removeEntry dir name ino).resolve (segments path ++ rest) with
  | none => rfl
  | some last =>
      obtain ⟨node, before, _⟩ := Tree.resolve_prefix found
      rw [whole] at before
      obtain ⟨other, there, slot⟩ := Tree.resolve_last before
      have same := (Tree.resolve_of_removeEntry there).symm.trans here
      cases same
      rw [Tree.slot_removeEntry, if_pos (Or.inr ⟨rfl, rfl⟩)] at slot
      cases slot

theorem Tree.Sound.resolve_kept (sound : t.Sound) (placed : t.place path = some (dir, name))
    (slot : t.slot dir name = some ino) {found : Nat} (here : t.resolve names = some found)
    (apart : ¬ segments path <+: names) :
    (t.removeEntry dir name ino).resolve names = some found := by
  obtain ⟨own, ownPath, ownHere, _⟩ := Tree.not_behind placed
  have named : t.resolve (segments path) = some ino := by
    rw [ownPath, Tree.resolve_snoc ownHere, slot]
  rw [← here]
  apply Tree.resolve_congr (show (t.removeEntry dir name ino).root = t.root from rfl)
  intro front later rest other whole before
  rw [Tree.slot_removeEntry]
  cases there : t.slot other later with
  | none => split <;> rfl
  | some next =>
      rw [if_neg]
      rintro (⟨rfl, _⟩ | ⟨rfl, rfl⟩)
      · apply apart
        rw [whole, sound.path_unique (Tree.slot_dir there) named before]
        exact List.prefix_append _ _
      · apply apart
        rw [whole]
        exact sound.meets placed before rest

theorem Tree.Sound.find_kept (sound : t.Sound) (placed : t.place path = some (dir, name))
    (slot : t.slot dir name = some ino) {other : List UInt8} {found : Nat}
    (here : t.find other = some found) (apart : ¬ segments path <+: segments other) :
    (t.removeEntry dir name ino).find other = some found := by
  rw [find] at here ⊢
  split at here
  · rename_i short
    rw [if_pos short]
    exact sound.resolve_kept placed slot here apart
  · cases here

theorem Tree.Sound.place_kept (sound : t.Sound) (placed : t.place path = some (dir, name))
    (slot : t.slot dir name = some ino) {other : List UInt8} {place : Nat × Name}
    (there : t.place other = some place)
    (apart : ∀ front, segments other = front ++ [place.2] → ¬ segments path <+: front) :
    (t.removeEntry dir name ino).place other = some place := by
  obtain ⟨own, ownPath, ownHere, _⟩ := Tree.not_behind placed
  obtain ⟨front, whole, here, pathShort, directory, short⟩ := Tree.place_eq_some.mp there
  have off := apart front whole
  have different : place.1 ≠ ino := by
    intro same
    have named : t.resolve (segments path) = some place.1 := by
      rw [ownPath, Tree.resolve_snoc ownHere, slot, same]
    rw [sound.path_unique directory here named] at off
    exact off (List.prefix_refl _)
  apply Tree.place_eq_some.mpr
  refine ⟨front, whole, sound.resolve_kept placed slot here off, pathShort, ?_, short⟩
  simp only [removeEntry, different, false_and, if_false]
  exact directory

theorem Tree.Sound.place_free (sound : t.Sound) (placed : t.place path = some (dir, name))
    (slot : t.slot dir name = some ino) :
    (t.removeEntry dir name ino).place path = some (dir, name) ∧
      (t.removeEntry dir name ino).find path = none := by
  constructor
  · apply sound.place_kept placed slot placed
    intro front whole
    obtain ⟨own, ownWhole, _, off⟩ := Tree.not_behind placed
    rw [ownWhole] at whole
    rw [← (List.append_inj' whole rfl).1]
    exact off
  · rw [find, Tree.resolve_removed placed (List.prefix_refl _)]
    split <;> rfl

end Trees

end OsLabs.Fs
