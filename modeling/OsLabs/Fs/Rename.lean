import OsLabs.Fs.FileTree

/-!
# Renaming

`fs_rename` of fsdriver.c is a loop of `inode_link` and `inode_unlink`, which the repository
leaves to be written; what the comments above them say are the hypotheses.
-/

set_option autoImplicit false

namespace OsLabs.Fs

open OsLabs.RadixTree

/-- `inode_link` and `inode_unlink`, on whatever stands for the image. -/
structure LinkStubs (Image : Type) where
  link : Image → List UInt8 → List UInt8 → Except Errno Unit × Image
  unlink : Image → List UInt8 → Except Errno Unit × Image

/-- `fs_rename`, with the number of times that `link_retry` may be reached. -/
def fsRename {Image : Type} (stubs : LinkStubs Image) (srcpath dstpath : List UInt8) :
    Nat → Image → Except Stop Unit × Image
  | 0, image => (.error .running, image)
  | retries + 1, image =>
      match stubs.link image srcpath dstpath with
      | (.error .exist, image) =>
          if srcpath = dstpath then (.ok (), image)
          else
            match stubs.unlink image dstpath with
            | (.error number, image) => (.error (.errno number), image)
            | (.ok (), image) => fsRename stubs srcpath dstpath retries image
      | (.error number, image) => (.error (.errno number), image)
      | (.ok (), image) =>
          match stubs.unlink image srcpath with
          | (.error number, image) => (.error (.errno number), image)
          | (.ok (), image) => (.ok (), image)

/-- The comments above `inode_link` and `inode_unlink`.  The root has no entry that could be
removed. -/
structure LinkDocumented (stubs : LinkStubs Tree) : Prop where
  link_exist : ∀ {t src dst ino}, t.find dst = some ino →
    stubs.link t src dst = (.error .exist, t)
  link_adds : ∀ {t src dst ino dir name}, t.find dst = none → t.find src = some ino →
    t.place dst = some (dir, name) → stubs.link t src dst = (.ok (), t.addEntry dir name ino)
  link_refuses : ∀ {t src dst}, t.find dst = none → t.find src = none ∨ t.place dst = none →
    ∃ number, number ≠ .exist ∧ stubs.link t src dst = (.error number, t)
  unlink_removes : ∀ {t path ino dir name}, t.find path = some ino →
    t.place path = some (dir, name) → stubs.unlink t path = (.ok (), t.removeEntry dir name ino)
  unlink_refuses : ∀ {t path}, t.find path = none ∨ segments path = [] →
    ∃ number, stubs.unlink t path = (.error number, t)

structure RenameKeeps (t : Tree) (src dst : List UInt8) (result : Except Stop Unit)
    (after : Tree) : Prop where
  returns : result ≠ .error .running
  failed : ∀ number, result = .error (.errno number) → after = t
  named : result = .ok () → ∃ ino, t.find src = some ino ∧ after.find dst = some ino
  kept : result = .ok () → ∀ ino, t.Reachable ino →
    after.Reachable ino ∧ after.kind ino = t.kind ino ∨
      t.find dst = some ino ∧ (t.kind ino ≠ some .dir ∨ t.Empty ino)

/-- Where a rename loses nothing: it does nothing, or it moves the source to a free place or
over a file or an empty directory, and neither path lies behind the other. -/
def RenameFine (t : Tree) (src dst : List UInt8) : Prop :=
  src = dst ∨ segments dst = [] ∨
  (t.find dst = none ∧ (t.find src = none ∨ t.place dst = none ∨
    ¬ segments src <+: segments dst)) ∨
  ∃ ino old, t.find src = some ino ∧ t.find dst = some old ∧
    ¬ segments src <+: segments dst ∧ ¬ segments dst <+: segments src ∧
    (t.kind old ≠ some .dir ∨ t.Empty old)

section Rename

variable {stubs : LinkStubs Tree} {t u : Tree} {src dst : List UInt8} {retries : Nat}

theorem RenameKeeps.unchanged {number : Errno} :
    RenameKeeps t src dst (.error (.errno number)) t where
  returns := by simp
  failed := fun _ _ => rfl
  named := fun absurd => by cases absurd
  kept := fun absurd => by cases absurd

/-! ## The two parts of the loop -/

def Tree.move (t : Tree) (dir : Nat) (name : Name) (old : Nat) (oldName : Name) (ino : Nat) :
    Tree :=
  (t.addEntry dir name ino).removeEntry old oldName ino

/-- A new link leaves the source where it is. -/
theorem Tree.addEntry_keeps {dir ino old : Nat} {name oldName : Name} (free : u.find dst = none)
    (target : u.place dst = some (dir, name)) (found : u.find src = some ino)
    (source : u.place src = some (old, oldName)) :
    (u.addEntry dir name ino).find src = some ino ∧
      (u.addEntry dir name ino).place src = some (old, oldName) := by
  obtain ⟨_, _, _, _, directory, short⟩ := Tree.place_eq_some.mp target
  have absent : u.slot dir name = none := by
    rw [← Tree.find_of_place target, free]
  have again : ∀ names node, u.resolve names = some node →
      (u.addEntry dir name ino).resolve names = some node :=
    fun names node => Tree.resolve_addEntry directory short absent
  obtain ⟨front, whole, here, pathShort, rest⟩ := Tree.place_eq_some.mp source
  refine ⟨?_, Tree.place_eq_some.mpr ⟨front, whole, again _ _ here, pathShort, rest⟩⟩
  rw [Tree.find, if_pos pathShort] at found ⊢
  exact again _ _ found

theorem LinkDocumented.rename_free (doc : LinkDocumented stubs) (src : List UInt8)
    (retries : Nat) (free : u.find dst = none) :
    ((u.find src = none ∨ u.place dst = none) ∧
      ∃ number, fsRename stubs src dst (retries + 1) u = (.error (.errno number), u)) ∨
    ∃ ino dir name, u.find src = some ino ∧ u.place dst = some (dir, name) ∧
      (segments src = [] ∧ (∃ number, fsRename stubs src dst (retries + 1) u =
          (.error (.errno number), u.addEntry dir name ino)) ∨
        ∃ old oldName, u.place src = some (old, oldName) ∧ u.slot old oldName = some ino ∧
          fsRename stubs src dst (retries + 1) u =
            (.ok (), u.move dir name old oldName ino)) := by
  by_cases missing : u.find src = none ∨ u.place dst = none
  · obtain ⟨number, other, refused⟩ := doc.link_refuses free missing
    refine Or.inl ⟨missing, number, ?_⟩
    rw [fsRename, refused]
    cases number <;> first | rfl | exact absurd rfl other
  · obtain ⟨source, target⟩ := not_or.mp missing
    obtain ⟨ino, found⟩ := Option.ne_none_iff_exists'.mp source
    obtain ⟨⟨dir, name⟩, placed⟩ := Option.ne_none_iff_exists'.mp target
    have linked := doc.link_adds free found placed
    refine Or.inr ⟨ino, dir, name, found, placed, ?_⟩
    by_cases root : segments src = []
    · obtain ⟨number, refused⟩ := doc.unlink_refuses (t := u.addEntry dir name ino)
        (Or.inr root)
      refine Or.inl ⟨root, number, ?_⟩
      rw [fsRename, linked]
      simp only [refused]
    · obtain ⟨old, oldName, oldPlace, slot⟩ := Tree.place_of_find found root
      obtain ⟨still, stays⟩ := Tree.addEntry_keeps free placed found oldPlace
      refine Or.inr ⟨old, oldName, oldPlace, slot, ?_⟩
      rw [fsRename, linked]
      simp only [doc.unlink_removes still stays]
      rfl

theorem LinkDocumented.rename_over (doc : LinkDocumented stubs) {dir old : Nat} {name : Name}
    (different : src ≠ dst) (found : t.find dst = some old)
    (placed : t.place dst = some (dir, name)) :
    fsRename stubs src dst (retries + 1) t =
      fsRename stubs src dst retries (t.removeEntry dir name old) := by
  rw [fsRename, doc.link_exist found]
  simp only [if_neg different, doc.unlink_removes found placed]

/-! ## The tree after a move -/

section Move

variable {dir old ino : Nat} {name oldName : Name}

theorem Tree.slot_move (directory : u.kind dir = some .dir) (short : name.length < nameMax)
    {other found : Nat} {later : Name}
    (slot : (u.move dir name old oldName ino).slot other later = some found) :
    ¬ (other = old ∧ later = oldName) ∧
      ((other = dir ∧ later = name) ∧ found = ino ∨ u.slot other later = some found) := by
  rw [Tree.move, Tree.slot_removeEntry] at slot
  split at slot
  · cases slot
  · rename_i kept
    rw [Tree.slot_addEntry directory short] at slot
    refine ⟨fun here => kept (Or.inr here), ?_⟩
    split at slot
    · rename_i here
      cases slot
      exact Or.inl ⟨here, rfl⟩
    · exact Or.inr slot

/-- The paths after a move that do not meet the new entry were there before and do not meet
the old one. -/
theorem Tree.Sound.resolve_move (sound : t.Sound) (root : u.root = t.root)
    (fewer : ∀ {other later found}, u.slot other later = some found →
      t.slot other later = some found)
    (target : t.place dst = some (dir, name)) (directory : u.kind dir = some .dir)
    (source : t.place src = some (old, oldName)) {names : List Name} {found : Nat}
    (here : (u.move dir name old oldName ino).resolve names = some found)
    (apart : ¬ segments dst <+: names) :
    t.resolve names = some found ∧ ¬ segments src <+: names := by
  obtain ⟨_, _, _, _, _, short⟩ := Tree.place_eq_some.mp target
  have back : ∀ names found, (u.move dir name old oldName ino).resolve names = some found →
      ¬ segments dst <+: names → t.resolve names = some found := by
    intro names found here apart
    apply Tree.resolve_back (show (u.move dir name old oldName ino).root = t.root from root) _ here
    intro front later rest other found whole before slot
    rcases (Tree.slot_move directory short slot).2 with ⟨⟨rfl, rfl⟩, _⟩ | same
    · rw [whole] at apart
      exact absurd (sound.meets target before rest) apart
    · exact fewer same
  refine ⟨back names found here apart, ?_⟩
  rintro ⟨rest, rfl⟩
  obtain ⟨front, whole, oldHere, _⟩ := Tree.not_behind source
  obtain ⟨node, before, _⟩ := Tree.resolve_prefix here
  rw [whole] at before
  obtain ⟨other, there, slot⟩ := Tree.resolve_last before
  have same := back front other there (by
    intro behind
    apply apart
    rw [whole, List.append_assoc]
    exact behind.trans (List.prefix_append _ _))
  rw [oldHere] at same
  cases same
  exact (Tree.slot_move directory short slot).1 ⟨rfl, rfl⟩

theorem Tree.Sound.move_behind (sound : t.Sound) (ino : Nat) (root : u.root = t.root)
    (fewer : ∀ {other later found}, u.slot other later = some found →
      t.slot other later = some found)
    (target : t.place dst = some (dir, name)) (directory : u.kind dir = some .dir)
    (source : t.place src = some (old, oldName)) (behind : segments src <+: segments dst)
    (apart : ¬ segments dst <+: segments src) :
    (u.move dir name old oldName ino).find dst = none := by
  obtain ⟨front, whole, _, shorter⟩ := Tree.not_behind target
  rw [Tree.find]
  split
  · cases found : (u.move dir name old oldName ino).resolve (segments dst) with
    | none => rfl
    | some last =>
        rw [whole] at found
        obtain ⟨node, before, _⟩ := Tree.resolve_last found
        have off := (sound.resolve_move root fewer target directory source before shorter).2
        rw [whole] at behind apart
        rcases List.prefix_concat_iff.mp behind with same | inside
        · rw [same] at apart
          exact absurd (List.prefix_refl _) apart
        · exact absurd inside off
  · rfl

/-- `u` is `t` with the place of the target free, and nothing lies behind that place. -/
structure Cleared (t u : Tree) (dir : Nat) (name : Name) : Prop where
  root : u.root = t.root
  directory : u.kind dir = some .dir
  slots : ∀ other later, ¬ (other = dir ∧ later = name) → u.slot other later = t.slot other later
  free : u.slot dir name = none
  leaf : ∀ {ino}, t.slot dir name = some ino → t.Empty ino

theorem Cleared.slot_move (cleared : Cleared t u dir name) (short : name.length < nameMax)
    (linked : u.nlink ino ≠ 0) (other : Nat) (later : Name) :
    (u.move dir name old oldName ino).slot other later =
      if other = old ∧ later = oldName then none
      else if other = dir ∧ later = name then some ino else t.slot other later := by
  have stays : (u.addEntry dir name ino).nlink ino - 1 ≠ 0 := by
    simp only [Tree.addEntry, if_true, UInt16.add_sub_cancel]
    exact linked
  rw [Tree.move, Tree.slot_removeEntry, Tree.slot_addEntry cleared.directory short]
  simp only [stays, and_false, false_or]
  by_cases here : other = dir ∧ later = name
  · simp only [if_pos here]
  · simp only [if_neg here, cleared.slots other later here]

/-- A path keeps its inode in a move when it meets neither of the two entries. -/
theorem Tree.Sound.move_keeps (sound : t.Sound) (cleared : Cleared t u dir name)
    (linked : u.nlink ino ≠ 0) (target : t.place dst = some (dir, name))
    (source : t.place src = some (old, oldName)) {names : List Name}
    (offSource : ¬ segments src <+: names) (offTarget : ¬ segments dst <+: names) :
    (u.move dir name old oldName ino).resolve names = t.resolve names := by
  obtain ⟨_, _, _, _, _, short⟩ := Tree.place_eq_some.mp target
  have root : (u.move dir name old oldName ino).root = t.root := cleared.root
  apply Tree.resolve_congr root
  intro before later rest other split there
  rw [cleared.slot_move short linked, if_neg, if_neg]
  · rintro ⟨rfl, rfl⟩
    exact offTarget (split ▸ sound.meets target there rest)
  · rintro ⟨rfl, rfl⟩
    exact offSource (split ▸ sound.meets source there rest)

theorem Tree.Sound.move_found (sound : t.Sound) (cleared : Cleared t u dir name)
    (linked : u.nlink ino ≠ 0) (target : t.place dst = some (dir, name))
    (source : t.place src = some (old, oldName)) (ahead : ¬ segments src <+: segments dst)
    (apart : ¬ segments dst <+: segments src) :
    (u.move dir name old oldName ino).resolve (segments dst) = some ino := by
  obtain ⟨front, whole, here, _, _, short⟩ := Tree.place_eq_some.mp target
  obtain ⟨oldFront, oldWhole, oldHere, _⟩ := Tree.not_behind source
  have frontOff : ¬ segments src <+: front := by
    intro inside
    apply ahead
    rw [whole]
    exact inside.trans (List.prefix_append _ _)
  have targetOff : ¬ segments dst <+: front := by
    intro inside
    have longer := inside.length_le
    rw [whole, List.length_append, List.length_singleton] at longer
    omega
  have different : ¬ (dir = old ∧ name = oldName) := by
    rintro ⟨rfl, rfl⟩
    have same := sound.path_unique (Tree.place_dir target) here oldHere
    rw [whole, oldWhole, same] at apart
    exact apart (List.prefix_refl _)
  have before := sound.move_keeps cleared linked target source frontOff targetOff
  rw [whole, Tree.resolve_snoc (before.trans here), cleared.slot_move short linked,
    if_neg different, if_pos ⟨rfl, rfl⟩]

theorem Tree.Sound.move_below (sound : t.Sound) (cleared : Cleared t u dir name)
    (linked : u.nlink ino ≠ 0) (target : t.place dst = some (dir, name))
    (source : t.place src = some (old, oldName)) (slot : t.slot old oldName = some ino)
    (ahead : ¬ segments src <+: segments dst) (apart : ¬ segments dst <+: segments src)
    {rest : List Name} {x : Nat} (reached : t.resolve (segments src ++ rest) = some x)
    (off : ¬ segments dst <+: segments src ++ rest) :
    (u.move dir name old oldName ino).resolve (segments dst ++ rest) = some x := by
  obtain ⟨_, _, _, _, _, short⟩ := Tree.place_eq_some.mp target
  obtain ⟨oldFront, oldWhole, oldHere, oldAhead⟩ := Tree.not_behind source
  obtain ⟨node, there, later⟩ := Tree.resolve_prefix reached
  have srcHere : t.resolve (segments src) = some ino := by
    rw [oldWhole, Tree.resolve_snoc oldHere, slot]
  rw [srcHere] at there
  cases there
  rw [Tree.resolve_append, sound.move_found cleared linked target source ahead apart]
  simp only [Option.bind_some]
  rw [← later]
  apply descend_congr
  rintro inner last node ⟨tail, split⟩ there
  have behind : t.resolve (segments src ++ inner) = some node := by
    rw [Tree.resolve_append, srcHere]
    exact there
  rw [cleared.slot_move short linked, if_neg, if_neg]
  · rintro ⟨rfl, rfl⟩
    apply off
    rw [← split]
    simpa using sound.meets target behind tail
  · rintro ⟨rfl, rfl⟩
    have same := sound.path_unique (Tree.place_dir source) oldHere behind
    apply oldAhead
    rw [same]
    exact List.prefix_append _ _

theorem Tree.Sound.move_reaches (sound : t.Sound) (cleared : Cleared t u dir name)
    (linked : u.nlink ino ≠ 0) (target : t.place dst = some (dir, name))
    (source : t.place src = some (old, oldName)) (slot : t.slot old oldName = some ino)
    (ahead : ¬ segments src <+: segments dst) (apart : ¬ segments dst <+: segments src)
    {x : Nat} (reachable : t.Reachable x) :
    (u.move dir name old oldName ino).Reachable x ∨ t.find dst = some x := by
  obtain ⟨names, reached⟩ := reachable
  by_cases atTarget : segments dst <+: names
  · -- Nothing lies behind the target, so the path ends there.
    obtain ⟨front, whole, here, pathShort, _, _⟩ := Tree.place_eq_some.mp target
    obtain ⟨rest, rfl⟩ := atTarget
    right
    obtain ⟨node, there, later⟩ := Tree.resolve_prefix reached
    have slotDst : t.slot dir name = some node := by
      rw [whole, Tree.resolve_snoc here] at there
      exact there
    have nothing : ∀ name, id (t.slot node name) = none := cleared.leaf slotDst
    obtain ⟨_, rfl⟩ := descend_empty nothing later
    rw [Tree.find, if_pos pathShort, there]
  · left
    by_cases atSource : segments src <+: names
    · obtain ⟨rest, rfl⟩ := atSource
      exact ⟨_, sound.move_below cleared linked target source slot ahead apart reached
        atTarget⟩
    · exact ⟨names, (sound.move_keeps cleared linked target source atSource atTarget).trans
        reached⟩

theorem RenameKeeps.moved (sound : t.Sound) (cleared : Cleared t u dir name)
    (linked : u.nlink ino ≠ 0) (found : t.find src = some ino)
    (target : t.place dst = some (dir, name)) (source : t.place src = some (old, oldName))
    (slot : t.slot old oldName = some ino) (ahead : ¬ segments src <+: segments dst)
    (apart : ¬ segments dst <+: segments src)
    (kinds : ∀ x, t.find dst ≠ some x → u.kind x = t.kind x)
    (leaf : ∀ x, t.find dst = some x → t.kind x ≠ some .dir ∨ t.Empty x) :
    RenameKeeps t src dst (.ok ()) (u.move dir name old oldName ino) := by
  obtain ⟨_, _, _, pathShort, _, _⟩ := Tree.place_eq_some.mp target
  have named : (u.move dir name old oldName ino).find dst = some ino := by
    rw [Tree.find, if_pos pathShort,
      sound.move_found cleared linked target source ahead apart]
  have kind : ∀ x, (u.move dir name old oldName ino).kind x = u.kind x := by
    intro x
    simp only [Tree.move, Tree.removeEntry, Tree.addEntry, if_true, UInt16.add_sub_cancel]
    rw [if_neg]
    exact fun freed => linked freed.2
  constructor
  · simp
  · intro number failed
    cases failed
  · intro _
    exact ⟨ino, found, named⟩
  · intro _ x reached
    by_cases there : t.find dst = some x
    · exact Or.inr ⟨there, leaf x there⟩
    · left
      have moved := sound.move_reaches cleared linked target source slot ahead apart reached
      refine ⟨moved.resolve_right there, ?_⟩
      rw [kind, kinds x there]

end Move

theorem Tree.empty_of_file {ino : Nat} (leaf : t.kind ino ≠ some .dir ∨ t.Empty ino) :
    t.Empty ino := by
  rcases leaf with file | empty
  · intro name
    cases there : t.slot ino name with
    | none => rfl
    | some next => exact absurd (Tree.slot_dir there) file
  · exact empty

theorem Cleared.refl {dir : Nat} {name : Name} (directory : t.kind dir = some .dir)
    (free : t.slot dir name = none) : Cleared t t dir name where
  root := rfl
  directory := directory
  slots := fun _ _ _ => rfl
  free := free
  leaf := fun there => by rw [free] at there; cases there

theorem Cleared.remove {dir gone : Nat} {name : Name} (slot : t.slot dir name = some gone)
    (empty : t.Empty gone) : Cleared t (t.removeEntry dir name gone) dir name where
  root := rfl
  directory := by
    have other : dir ≠ gone := by
      rintro rfl
      rw [empty name] at slot
      cases slot
    simp only [Tree.removeEntry, other, false_and, if_false]
    exact Tree.slot_dir slot
  slots := by
    intro other later apart
    rw [Tree.slot_removeEntry]
    split
    · rename_i cut
      obtain ⟨rfl, _⟩ := cut.resolve_right apart
      exact (empty later).symm
    · rfl
  free := by rw [Tree.slot_removeEntry, if_pos (Or.inr ⟨rfl, rfl⟩)]
  leaf := fun there => by
    rw [slot] at there
    cases there
    exact empty

theorem Tree.free_apart {place : Nat × Name} {ino : Nat} (free : t.find dst = none)
    (target : t.place dst = some place) (found : t.find src = some ino) :
    ¬ segments dst <+: segments src := by
  rintro ⟨rest, whole⟩
  obtain ⟨_, _, _, short, _⟩ := Tree.place_eq_some.mp target
  rw [Tree.find] at found
  split at found
  · rw [← whole] at found
    obtain ⟨node, there, _⟩ := Tree.resolve_prefix found
    rw [Tree.find, if_pos short, there] at free
    cases free
  · cases found

/-! ## Renames that lose nothing -/

theorem LinkDocumented.rename_same (doc : LinkDocumented stubs) :
    RenameKeeps t src src (fsRename stubs src src (retries + 1) t).1
      (fsRename stubs src src (retries + 1) t).2 := by
  cases found : t.find src with
  | none =>
      rcases doc.rename_free src retries found with
        ⟨_, number, refused⟩ | ⟨ino, _, _, there, _⟩
      · rw [refused]
        exact .unchanged
      · rw [found] at there
        cases there
  | some ino =>
      rw [fsRename, doc.link_exist found]
      simp only [if_true]
      constructor
      · simp
      · intro number failed
        cases failed
      · intro _
        exact ⟨ino, found, found⟩
      · intro _ x reached
        exact Or.inl ⟨reached, rfl⟩

theorem LinkDocumented.rename_root (doc : LinkDocumented stubs) (different : src ≠ dst)
    (top : segments dst = []) :
    RenameKeeps t src dst (fsRename stubs src dst (retries + 1) t).1
      (fsRename stubs src dst (retries + 1) t).2 := by
  cases found : t.find dst with
  | none =>
      rcases doc.rename_free src retries found with
        ⟨_, number, refused⟩ | ⟨_, _, _, _, placed, _⟩
      · rw [refused]
        exact .unchanged
      · obtain ⟨front, whole, _⟩ := Tree.place_eq_some.mp placed
        rw [top] at whole
        simp at whole
  | some old =>
      obtain ⟨number, refused⟩ := doc.unlink_refuses (show t.find dst = none ∨ _ from Or.inr top)
      rw [fsRename, doc.link_exist found]
      simp only [if_neg different, refused]
      exact .unchanged

theorem LinkDocumented.rename_new (doc : LinkDocumented stubs) (sound : t.Sound)
    (free : t.find dst = none)
    (fine : t.find src = none ∨ t.place dst = none ∨ ¬ segments src <+: segments dst) :
    RenameKeeps t src dst (fsRename stubs src dst (retries + 1) t).1
      (fsRename stubs src dst (retries + 1) t).2 := by
  rcases doc.rename_free src retries free with
    ⟨_, number, refused⟩ | ⟨ino, dir, name, found, target, ends⟩
  · rw [refused]
    exact .unchanged
  · have ahead : ¬ segments src <+: segments dst := by
      rcases fine with missing | nowhere | ahead
      · rw [missing] at found
        cases found
      · rw [nowhere] at target
        cases target
      · exact ahead
    have absent : t.slot dir name = none := by
      rw [← Tree.find_of_place target, free]
    rcases ends with ⟨root, _⟩ | ⟨old, oldName, source, slot, moved⟩
    · rw [root] at ahead
      exact absurd List.nil_prefix ahead
    · rw [moved]
      apply RenameKeeps.moved sound (.refl (Tree.place_dir target) absent) (sound.linked slot)
        found target source slot ahead (Tree.free_apart free target found) (fun _ _ => rfl)
      intro x there
      rw [free] at there
      cases there

/-- The second half of the loop after an entry at `dstpath` is gone. -/
theorem LinkDocumented.rename_cleared (doc : LinkDocumented stubs) (sound : t.Sound)
    (retries : Nat) {ino gone dir : Nat} {name : Name} (found : t.find src = some ino)
    (target : t.place dst = some (dir, name)) (slot : t.slot dir name = some gone)
    (apart : ¬ segments dst <+: segments src) :
    (segments src = [] ∧ ∃ number, fsRename stubs src dst (retries + 1)
      (t.removeEntry dir name gone) = (.error (.errno number),
        (t.removeEntry dir name gone).addEntry dir name ino)) ∨
    ∃ old oldName, t.place src = some (old, oldName) ∧ t.slot old oldName = some ino ∧
      fsRename stubs src dst (retries + 1) (t.removeEntry dir name gone) =
        (.ok (), (t.removeEntry dir name gone).move dir name old oldName ino) := by
  have source := sound.find_kept target slot found apart
  obtain ⟨place, free⟩ := sound.place_free target slot
  rcases doc.rename_free src retries free with
    ⟨missing, _⟩ | ⟨ino', dir', name', found', target', ends⟩
  · rcases missing with none | none
    · rw [source] at none
      cases none
    · rw [place] at none
      cases none
  · rw [source] at found'
    rw [place] at target'
    cases found'
    cases target'
    rcases ends with root | ⟨old', oldName', source', _, moved⟩
    · exact Or.inl root
    · right
      have below : segments src ≠ [] := by
        obtain ⟨front, whole, _⟩ := Tree.place_eq_some.mp source'
        rw [whole]
        simp
      obtain ⟨old, oldName, before, oldSlot⟩ := Tree.place_of_find found below
      have stays := sound.place_kept target slot before (by
        intro front whole inside
        apply apart
        rw [whole]
        exact inside.trans (List.prefix_append _ _))
      rw [source'] at stays
      cases stays
      exact ⟨_, _, before, oldSlot, moved⟩

theorem LinkDocumented.rename_replace (doc : LinkDocumented stubs) (sound : t.Sound)
    {ino gone : Nat} (different : src ≠ dst) (found : t.find src = some ino)
    (there : t.find dst = some gone) (ahead : ¬ segments src <+: segments dst)
    (apart : ¬ segments dst <+: segments src)
    (leaf : t.kind gone ≠ some .dir ∨ t.Empty gone) :
    RenameKeeps t src dst (fsRename stubs src dst (retries + 2) t).1
      (fsRename stubs src dst (retries + 2) t).2 := by
  have below : segments dst ≠ [] := by
    intro top
    rw [top] at apart
    exact apart List.nil_prefix
  obtain ⟨dir, name, target, slot⟩ := Tree.place_of_find there below
  rw [doc.rename_over different there target]
  rcases doc.rename_cleared sound retries found target slot apart
    with ⟨root, _⟩ | ⟨old, oldName, source, oldSlot, moved⟩
  · rw [root] at ahead
    exact absurd List.nil_prefix ahead
  · rw [moved]
    have only : ∀ x, t.find dst = some x → x = gone := by
      intro x other
      rw [there] at other
      cases other
      rfl
    have linked : (t.removeEntry dir name gone).nlink ino ≠ 0 := by
      simp only [Tree.removeEntry]
      split
      · rename_i same
        cases same
        apply sound.linked_twice oldSlot slot
        intro here
        cases here
        obtain ⟨front, whole, _, off⟩ := Tree.not_behind target
        obtain ⟨oldFront, oldWhole, oldHere, _⟩ := Tree.not_behind source
        have meets := sound.meets target oldHere []
        rw [← oldWhole] at meets
        exact apart meets
      · exact sound.linked oldSlot
    apply RenameKeeps.moved sound (.remove slot (Tree.empty_of_file leaf)) linked found target
      source oldSlot ahead apart
    · intro x other
      have different : x ≠ gone := by
        rintro rfl
        exact other there
      simp only [Tree.removeEntry, different, false_and, if_false]
    · intro x other
      rw [only x other]
      exact leaf

/-! ## Renames that lose something -/

theorem RenameKeeps.new_fine (doc : LinkDocumented stubs) (sound : t.Sound)
    (free : t.find dst = none)
    (keeps : RenameKeeps t src dst (fsRename stubs src dst (retries + 1) t).1
      (fsRename stubs src dst (retries + 1) t).2) :
    t.find src = none ∨ t.place dst = none ∨ ¬ segments src <+: segments dst := by
  by_contra neither
  simp only [not_or, not_not] at neither
  obtain ⟨present, possible, behind⟩ := neither
  rcases doc.rename_free src retries free with
    ⟨missing, _⟩ | ⟨ino, dir, name, found, target, ends⟩
  · exact absurd missing (not_or.mpr ⟨present, possible⟩)
  · obtain ⟨front, whole, here, short, directory, nameShort⟩ := Tree.place_eq_some.mp target
    have absent : t.slot dir name = none := by
      rw [← Tree.find_of_place target, free]
    rcases ends with ⟨_, number, refused⟩ | ⟨old, oldName, source, slot, moved⟩
    · rw [refused] at keeps
      have same := congrArg (fun tree => tree.slot dir name) (keeps.failed number rfl)
      simp only [Tree.slot_addEntry directory nameShort, absent, and_self, if_true] at same
      cases same
    · rw [moved] at keeps
      obtain ⟨_, _, named⟩ := keeps.named rfl
      have lost := sound.move_behind ino rfl (fun here => here) target directory source behind
        (Tree.free_apart free target found)
      rw [lost] at named
      cases named

/-- The entries after an unlink were there before, apart from the one it removed. -/
theorem Tree.slot_of_removeEntry {dir gone other found : Nat} {name later : Name}
    (left : (t.removeEntry dir name gone).slot other later = some found) :
    t.slot other later = some found ∧ ¬ (other = dir ∧ later = name) := by
  rw [Tree.slot_removeEntry] at left
  split at left
  · cases left
  · rename_i kept
    exact ⟨left, fun here => kept (Or.inr here)⟩

theorem Tree.find_of_removeEntry {dir gone ino : Nat} {name : Name} {path : List UInt8}
    (still : (t.removeEntry dir name gone).find path = some ino) :
    t.find path = some ino := by
  rw [Tree.find] at still ⊢
  split at still
  · rename_i short
    rw [if_pos short]
    exact Tree.resolve_of_removeEntry still
  · cases still

theorem RenameKeeps.not_unlinked {dir gone : Nat} {name : Name} {number : Errno}
    (slot : t.slot dir name = some gone) :
    ¬ RenameKeeps t src dst (.error (.errno number)) (t.removeEntry dir name gone) := by
  intro keeps
  have same := congrArg (fun tree => tree.slot dir name) (keeps.failed number rfl)
  simp only [Tree.slot_removeEntry, and_self, or_true, if_true, slot] at same
  cases same

/-- The source is the root, which is linked to the target and cannot be unlinked: the
target has come to name the root. -/
theorem RenameKeeps.not_root (sound : t.Sound) {dir gone ino : Nat} {name : Name}
    {number : Errno} (slot : t.slot dir name = some gone) (found : t.find src = some ino)
    (root : segments src = []) :
    ¬ RenameKeeps t src dst (.error (.errno number))
      ((t.removeEntry dir name gone).addEntry dir name ino) := by
  intro keeps
  have entry : t.entry dir name = some gone := by
    rw [Tree.slot, if_pos ⟨Tree.slot_dir slot, Tree.slot_short slot⟩] at slot
    exact slot
  have same := congrArg (fun tree => tree.entry dir name) (keeps.failed number rfl)
  simp only [Tree.addEntry, update, and_self, if_true, entry] at same
  have named : ino = gone := Option.some.inj same
  rw [Tree.find, root] at found
  split at found
  · have top : t.root = ino := Option.some.inj found
    rw [← named, ← top] at slot
    exact sound.top dir name slot
  · cases found

/-- A directory that the target named cannot be reached after the move. -/
theorem Tree.Sound.move_loses (sound : t.Sound) {dir gone old ino : Nat} {name oldName : Name}
    (place : (t.removeEntry dir name gone).kind dir = some .dir)
    (slot : t.slot dir name = some gone) (oldSlot : t.slot old oldName = some ino)
    (directory : t.kind gone = some .dir) :
    ¬ ((t.removeEntry dir name gone).move dir name old oldName ino).Reachable gone := by
  rintro ⟨names, left⟩
  cases names using List.reverseRecOn with
  | nil =>
      have top : t.root = gone := Option.some.inj left
      rw [← top] at slot
      exact sound.top dir name slot
  | append_singleton front last =>
      obtain ⟨node, _, into⟩ := Tree.resolve_last left
      obtain ⟨other, new | kept⟩ := Tree.slot_move place (Tree.slot_short slot) into
      · obtain ⟨⟨rfl, rfl⟩, rfl⟩ := new
        obtain ⟨rfl, rfl⟩ := sound.single oldSlot slot directory
        exact other ⟨rfl, rfl⟩
      · obtain ⟨before, apart⟩ := Tree.slot_of_removeEntry kept
        exact apart (sound.single before slot directory)

theorem RenameKeeps.replace_fine (doc : LinkDocumented stubs) (sound : t.Sound) {gone : Nat}
    (different : src ≠ dst) (below : segments dst ≠ []) (there : t.find dst = some gone)
    (keeps : RenameKeeps t src dst (fsRename stubs src dst (retries + 2) t).1
      (fsRename stubs src dst (retries + 2) t).2) :
    ∃ ino, t.find src = some ino ∧ ¬ segments src <+: segments dst ∧
      ¬ segments dst <+: segments src ∧ (t.kind gone ≠ some .dir ∨ t.Empty gone) := by
  obtain ⟨dir, name, target, slot⟩ := Tree.place_of_find there below
  obtain ⟨place, free⟩ := sound.place_free target slot
  rw [doc.rename_over different there target] at keeps
  have present : ∃ ino, (t.removeEntry dir name gone).find src = some ino := by
    rcases doc.rename_free src retries free with
      ⟨_, number, refused⟩ | ⟨ino, _, _, found, _⟩
    · rw [refused] at keeps
      exact absurd keeps (RenameKeeps.not_unlinked slot)
    · exact ⟨ino, found⟩
  obtain ⟨ino, still⟩ := present
  have found := Tree.find_of_removeEntry still
  have apart : ¬ segments dst <+: segments src := by
    intro behind
    rw [Tree.find, Tree.resolve_removed target behind] at still
    split at still <;> cases still
  refine ⟨ino, found, ?_⟩
  rcases doc.rename_cleared sound retries found target slot apart
    with ⟨root, number, refused⟩ | ⟨old, oldName, source, oldSlot, moved⟩
  · rw [refused] at keeps
    exact absurd keeps (RenameKeeps.not_root sound slot found root)
  · rw [moved] at keeps
    have directory := Tree.place_dir place
    refine ⟨?_, apart, ?_⟩
    · intro behind
      obtain ⟨_, _, named⟩ := keeps.named rfl
      rw [sound.move_behind ino (show (t.removeEntry dir name gone).root = t.root from rfl)
        (fun left => (Tree.slot_of_removeEntry left).1) target directory source behind apart]
        at named
      cases named
    · by_contra full
      have reached : t.Reachable gone := by
        rw [Tree.find] at there
        split at there
        · exact ⟨_, there⟩
        · cases there
      have goneDir : t.kind gone = some .dir := not_not.mp (not_or.mp full).1
      rcases keeps.kept rfl gone reached with ⟨left, _⟩ | ⟨_, leaf⟩
      · exact sound.move_loses directory slot oldSlot goneDir left
      · exact full leaf

/-- A rename loses nothing exactly when it is fine. -/
theorem fsRename_keeps_iff (doc : LinkDocumented stubs) (sound : t.Sound) :
    RenameKeeps t src dst (fsRename stubs src dst (retries + 2) t).1
      (fsRename stubs src dst (retries + 2) t).2 ↔ RenameFine t src dst := by
  constructor
  · intro keeps
    by_cases same : src = dst
    · exact Or.inl same
    by_cases top : segments dst = []
    · exact Or.inr (Or.inl top)
    cases there : t.find dst with
    | none => exact Or.inr (Or.inr (Or.inl ⟨there, keeps.new_fine doc sound there⟩))
    | some gone =>
        obtain ⟨ino, found, ahead, apart, leaf⟩ :=
          keeps.replace_fine doc sound same top there
        exact Or.inr (Or.inr (Or.inr ⟨ino, gone, found, there, ahead, apart, leaf⟩))
  · intro fine
    by_cases same : src = dst
    · rw [same]
      exact doc.rename_same
    · rcases fine with equal | top | ⟨free, new⟩ | ⟨ino, gone, found, there, ahead, apart, leaf⟩
      · exact absurd equal same
      · exact doc.rename_root same top
      · exact doc.rename_new sound free new
      · exact doc.rename_replace sound same found there ahead apart leaf

end Rename

/-! ## A tree with two directories -/

/-- `inode_link` and `inode_unlink` on trees. -/
def treeStubs : LinkStubs Tree where
  link := fun t src dst =>
    match t.find dst, t.find src, t.place dst with
    | some _, _, _ => (.error .exist, t)
    | none, some ino, some (dir, name) => (.ok (), t.addEntry dir name ino)
    | none, _, _ => (.error .noent, t)
  unlink := fun t path =>
    match t.find path, t.place path with
    | some ino, some (dir, name) => (.ok (), t.removeEntry dir name ino)
    | _, _ => (.error .noent, t)

theorem treeStubs_documented : LinkDocumented treeStubs where
  link_exist := by
    intro t src dst ino found
    simp only [treeStubs, found]
  link_adds := by
    intro t src dst ino dir name free found placed
    simp only [treeStubs, free, found, placed]
  link_refuses := by
    intro t src dst free missing
    refine ⟨.noent, by decide, ?_⟩
    rcases missing with absent | nowhere
    · simp only [treeStubs, free, absent]
    · simp only [treeStubs, free, nowhere]
      cases t.find src <;> rfl
  unlink_removes := by
    intro t path ino dir name found placed
    simp only [treeStubs, found, placed]
  unlink_refuses := by
    intro t path missing
    refine ⟨.noent, ?_⟩
    rcases missing with absent | top
    · simp only [treeStubs, absent]
    · have nowhere : t.place path = none := by
        rw [Tree.place, top]
        rfl
      simp only [treeStubs, nowhere]
      cases t.find path <;> rfl

/-- `/a` is an empty directory, `/b` one with the file `/b/c`. -/
def twoDirs : Tree where
  root := 1
  kind := fun ino =>
    if ino = 1 ∨ ino = 2 ∨ ino = 3 then some .dir else if ino = 4 then some .file else none
  entry := fun dir name =>
    if dir = 1 ∧ name = [97] then some 2
    else if dir = 1 ∧ name = [98] then some 3
    else if dir = 3 ∧ name = [99] then some 4
    else none
  nlink := fun ino => if ino = 1 ∨ ino = 2 ∨ ino = 3 ∨ ino = 4 then 1 else 0

theorem twoDirs_slot {dir ino : Nat} {name : Name} : twoDirs.slot dir name = some ino ↔
    (dir, name, ino) = (1, [97], 2) ∨ (dir, name, ino) = (1, [98], 3) ∨
      (dir, name, ino) = (3, [99], 4) := by
  constructor
  · intro slot
    have directory := Tree.slot_dir slot
    rw [Tree.slot, if_pos ⟨directory, Tree.slot_short slot⟩] at slot
    simp only [twoDirs] at slot
    split at slot
    · rename_i here
      cases slot
      exact Or.inl (by rw [here.1, here.2])
    · split at slot
      · rename_i here
        cases slot
        exact Or.inr (Or.inl (by rw [here.1, here.2]))
      · split at slot
        · rename_i here
          cases slot
          exact Or.inr (Or.inr (by rw [here.1, here.2]))
        · cases slot
  · rintro (here | here | here) <;> cases here <;> rfl

theorem twoDirs_links (ino : Nat) : twoDirs.links ino =
    if ino = 2 then {(1, [97])} else if ino = 3 then {(1, [98])}
    else if ino = 4 then {(3, [99])} else ∅ := by
  ext ⟨dir, name⟩
  have member : (dir, name) ∈ twoDirs.links ino ↔ twoDirs.slot dir name = some ino := Iff.rfl
  rw [member, twoDirs_slot]
  simp only [Prod.mk.injEq]
  split
  · simp_all
  · split
    · simp_all
    · split <;> simp_all

theorem twoDirs_sound : twoDirs.Sound where
  root := rfl
  top := by
    intro dir name slot
    rcases twoDirs_slot.mp slot with here | here | here <;> cases here
  single := by
    intro dir other name later ino first second directory
    rcases twoDirs_slot.mp first with here | here | here <;> cases here <;>
      rcases twoDirs_slot.mp second with there | there | there <;> cases there <;>
      exact ⟨rfl, rfl⟩
  used := by
    intro dir name ino slot
    rcases twoDirs_slot.mp slot with here | here | here <;> cases here <;> decide
  finite := by
    intro ino
    rw [twoDirs_links]
    split_ifs <;> simp
  counted := by
    intro ino other
    have below : ino ≠ 1 := other
    rw [twoDirs_links]
    simp only [twoDirs]
    split_ifs <;> simp_all

/-- `/a` may become `/d` but not `/b`. -/
theorem fsRename_keeps_iff_sample :
    RenameKeeps twoDirs [47, 97] [47, 100]
        (fsRename treeStubs [47, 97] [47, 100] 2 twoDirs).1
        (fsRename treeStubs [47, 97] [47, 100] 2 twoDirs).2 ∧
      ¬ RenameKeeps twoDirs [47, 97] [47, 98]
        (fsRename treeStubs [47, 97] [47, 98] 2 twoDirs).1
        (fsRename treeStubs [47, 97] [47, 98] 2 twoDirs).2 := by
  constructor
  · apply (fsRename_keeps_iff treeStubs_documented twoDirs_sound).mpr
    exact Or.inr (Or.inr (Or.inl ⟨by decide, Or.inr (Or.inr (by decide))⟩))
  · intro keeps
    rcases (fsRename_keeps_iff treeStubs_documented twoDirs_sound).mp keeps with
      equal | top | ⟨free, _⟩ | ⟨ino, gone, _, there, _, _, leaf⟩
    · revert equal
      decide
    · revert top
      decide
    · revert free
      decide
    · have three : twoDirs.find [47, 98] = some 3 := by decide
      rw [three] at there
      cases there
      rcases leaf with file | empty
      · exact file rfl
      · exact absurd (empty [99]) (by decide)

/-- Over a full directory the rename succeeds, and the directory and its file are lost. -/
theorem fsRename_loses :
    ¬ ∀ (stubs : LinkStubs Tree) (t : Tree) (src dst : List UInt8) (retries : Nat),
      LinkDocumented stubs → t.Sound →
      RenameKeeps t src dst (fsRename stubs src dst (retries + 2) t).1
        (fsRename stubs src dst (retries + 2) t).2 := by
  intro always
  have keeps := always treeStubs twoDirs [47, 97] [47, 98] 0 treeStubs_documented twoDirs_sound
  have there : twoDirs.find [47, 98] = some 3 := by decide
  obtain ⟨_, _, _, _, leaf⟩ :=
    keeps.replace_fine treeStubs_documented twoDirs_sound (by decide) (by decide) there
  rcases leaf with file | empty
  · exact file rfl
  · exact absurd (empty [99]) (by decide)

end OsLabs.Fs
