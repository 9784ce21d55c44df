import OsLabs.Fs.SoundTree
import OsLabs.Lib.PathMap

/-!
# Whole trees

What the paths of a tree show, and what a new entry, an entry less and a move do to it.  These
keep a tree whole, and in a whole tree an inode has as many links as paths.
-/

set_option autoImplicit false

namespace OsLabs.Fs

open OsLabs.RadixTree OsLabs.PathMap

/-- Every inode in use has a path. -/
structure Tree.Whole (t : Tree) : Prop extends t.Sound where
  reached : ∀ ino, t.kind ino ≠ none → t.Reachable ino

/-- What paths lead to. -/
abbrev Names := List Name → Option (Nat × Kind)

def Tree.view (t : Tree) : Names := fun names =>
  (t.resolve names).bind fun ino => (t.kind ino).map fun kind => (ino, kind)

section View

variable {t u : Tree} {dir ino old x : Nat} {name oldName : Name} {kind : Kind}
  {path src dst : List UInt8} {names : List Name}

theorem Tree.view_some : t.view names = some (x, kind) ↔
    t.resolve names = some x ∧ t.kind x = some kind := by
  rw [view]
  constructor
  · intro shown
    obtain ⟨other, here, rest⟩ := Option.bind_eq_some_iff.mp shown
    obtain ⟨known, has, same⟩ := Option.map_eq_some_iff.mp rest
    cases same
    exact ⟨here, has⟩
  · rintro ⟨here, has⟩
    rw [here, Option.bind_some, has]
    rfl

theorem Tree.Sound.view_none (sound : t.Sound) : t.view names = none ↔ t.resolve names = none := by
  cases here : t.resolve names with
  | none => simp [view, here]
  | some x =>
      obtain ⟨kind, has⟩ := Option.ne_none_iff_exists'.mp (sound.toCounted.used_resolve here)
      simp [view, here, has]

/-- Two trees show the same when the paths and the kinds along them are the same. -/
theorem Tree.view_congr {shown : Names} (same : ∀ names node, u.view names = some node ↔
    shown names = some node) : u.view = shown := by
  funext names
  apply Option.ext
  intro node
  exact same names node

theorem Tree.Whole.shown (whole : t.Whole) (has : t.kind x = some kind) :
    ∃ names, t.view names = some (x, kind) := by
  obtain ⟨names, here⟩ := whole.reached x (by simp [has])
  exact ⟨names, Tree.view_some.mpr ⟨here, has⟩⟩

theorem Tree.reachable_of_view (shown : t.view names = some (x, kind)) : t.Reachable x :=
  ⟨names, (Tree.view_some.mp shown).1⟩

theorem Tree.Sound.view_free (sound : t.Sound) (placed : t.place path = some (dir, name))
    (free : t.find path = none) (rest : List Name) : t.view (segments path ++ rest) = none := by
  obtain ⟨_, _, _, short, _⟩ := Tree.place_eq_some.mp placed
  rw [Tree.find, if_pos short] at free
  rw [sound.view_none, Tree.resolve_append, free]
  rfl

/-! ## A new entry -/

theorem Tree.Gains.resolve_graft {good : Name → Prop} (gains : t.Gains u good dir name ino)
    (oneWay : t.OneWay good) (directory : t.kind dir = some .dir) {front : List Name}
    (frontGood : ∀ other ∈ front, good other) (here : t.resolve front = some dir)
    (fits : good name) (all : ∀ other ∈ names, good other) :
    u.resolve names = graft (front ++ [name]) ino t.resolve names := by
  by_cases new : names = front ++ [name]
  · rw [new, graft_self, Tree.resolve_snoc (gains.kept frontGood here),
      gains.slots ⟨front, frontGood, here⟩ fits, if_pos ⟨rfl, rfl⟩]
  · rw [graft_other new]
    apply Option.ext
    intro x
    exact ⟨gains.only oneWay directory frontGood here all new, gains.kept all⟩

/-- A new entry for an inode that has none itself shows one path more. -/
theorem Tree.Sound.view_addEntry (sound : t.Sound) (placed : t.place path = some (dir, name))
    (free : t.find path = none) (leaf : t.Empty ino) (has : t.kind ino = some kind)
    (other : ino ≠ dir) :
    (t.addEntry dir name ino).view = graft (segments path) (ino, kind) t.view := by
  obtain ⟨front, whole, here, pathShort, directory, short⟩ := Tree.place_eq_some.mp placed
  have absent : t.slot dir name = none := by
    rw [← Tree.find_of_place placed, free]
  have slots : ∀ other later, (t.addEntry dir name ino).slot other later =
      if other = dir ∧ later = name then some ino else t.slot other later :=
    Tree.slot_addEntry directory short
  have gains : t.Gains (t.addEntry dir name ino) (fun _ => True) dir name ino := by
    refine ⟨rfl, absent, fun _ _ => slots _ _, ?_⟩
    intro later
    rw [slots, if_neg (fun same => other same.1)]
    exact leaf later
  have shows : ∀ names, (t.addEntry dir name ino).resolve names =
      graft (segments path) ino t.resolve names := by
    intro names
    rw [whole]
    exact gains.resolve_graft sound.oneWay directory (fun _ _ => trivial) here trivial
      (fun _ _ => trivial)
  apply Tree.view_congr
  rintro names ⟨x, known⟩
  rw [Tree.view_some, Tree.kind_addEntry, shows]
  by_cases new : names = segments path
  · rw [new, graft_self, graft_self]
    constructor
    · rintro ⟨named, same⟩
      cases named
      cases has.symm.trans same
      rfl
    · intro same
      cases same
      exact ⟨rfl, has⟩
  · rw [graft_other new, graft_other new, Tree.view_some]

theorem Tree.resolve_fresh (unused : t.kind ino = none) (names : List Name) :
    (t.fresh ino kind).resolve names = t.resolve names :=
  Tree.resolve_congr rfl fun _ _ _ _ _ _ => Tree.slot_fresh unused _ _

theorem Tree.Sound.view_fresh (sound : t.Sound) (unused : t.kind ino = none) :
    (t.fresh ino kind).view = t.view := by
  apply Tree.view_congr
  rintro names ⟨x, known⟩
  rw [Tree.view_some, Tree.view_some, Tree.resolve_fresh unused]
  refine and_congr_right fun here => ?_
  have used := sound.toCounted.used_resolve here
  simp only [Tree.fresh]
  rw [if_neg]
  rintro rfl
  exact used unused

/-- `t` becomes `u` when a new inode gets the path. -/
def Makes (t u : Tree) (path : List UInt8) (kind : Kind) (ino : Nat) : Prop :=
  ∃ dir name, t.place path = some (dir, name) ∧ t.find path = none ∧ t.kind ino = none ∧
    u = (t.fresh ino kind).addEntry dir name ino

theorem Tree.place_fresh (unused : t.kind ino = none) (placed : t.place path = some (dir, name)) :
    (t.fresh ino kind).place path = some (dir, name) := by
  obtain ⟨front, whole, here, pathShort, directory, short⟩ := Tree.place_eq_some.mp placed
  apply Tree.place_eq_some.mpr
  refine ⟨front, whole, ?_, pathShort, ?_, short⟩
  · rw [Tree.resolve_fresh unused]
    exact here
  · have other : dir ≠ ino := by
      rintro rfl
      rw [directory] at unused
      cases unused
    simp only [Tree.fresh, if_neg other]
    exact directory

theorem Tree.find_fresh (unused : t.kind ino = none) :
    (t.fresh ino kind).find path = t.find path := by
  rw [Tree.find, Tree.find, Tree.resolve_fresh unused]

theorem Makes.entry (makes : Makes t u path kind ino) : ∃ dir name,
    (t.fresh ino kind).place path = some (dir, name) ∧ (t.fresh ino kind).find path = none ∧
      t.kind ino = none ∧ u = (t.fresh ino kind).addEntry dir name ino := by
  obtain ⟨dir, name, placed, free, unused, rfl⟩ := makes
  refine ⟨dir, name, Tree.place_fresh unused placed, ?_, unused, rfl⟩
  rw [Tree.find_fresh unused]
  exact free

theorem Makes.view (makes : Makes t u path kind ino) (sound : t.Sound) :
    u.view = graft (segments path) (ino, kind) t.view := by
  obtain ⟨dir, name, placed, free, unused, rfl⟩ := makes.entry
  have leaf : (t.fresh ino kind).Empty ino := by
    intro later
    rw [Tree.slot_fresh unused, Tree.slot_unused unused]
  rw [(sound.fresh unused).view_addEntry placed free leaf, sound.view_fresh unused]
  · simp [Tree.fresh]
  · rintro rfl
    obtain ⟨_, _, there, _⟩ := Tree.place_eq_some.mp placed
    rw [Tree.resolve_fresh unused] at there
    exact sound.toCounted.used_resolve there unused

theorem Makes.whole (makes : Makes t u path kind ino) (whole : t.Whole) : u.Whole := by
  have shows := makes.view whole.toSound
  obtain ⟨dir, name, placed, free, unused, rfl⟩ := makes.entry
  obtain ⟨_, _, _, _, directory, short⟩ := Tree.place_eq_some.mp placed
  have absent : (t.fresh ino kind).slot dir name = none := by
    rw [← Tree.find_of_place placed, free]
  have unlinked : (t.fresh ino kind).links ino = ∅ := by
    ext place
    rw [Tree.mem_links, Tree.slot_fresh unused]
    exact iff_of_false (fun found => whole.used found unused) id
  constructor
  · apply (whole.toSound.fresh unused).addEntry directory short absent
    · intro same
      have top : ino = t.root := same
      rw [top, whole.root] at unused
      cases unused
    · simp [Tree.fresh]
    · simp [Tree.Linkable, Tree.fresh]
    · exact fun _ => unlinked
  · intro x used
    obtain ⟨known, has⟩ := Option.ne_none_iff_exists'.mp used
    by_cases new : x = ino
    · have shown : ((t.fresh ino kind).addEntry dir name ino).view (segments path) =
          some (x, kind) := by
        rw [shows, graft_self, new]
      exact Tree.reachable_of_view shown
    · have before : t.kind x = some known := by
        rw [Tree.kind_addEntry] at has
        simpa only [Tree.fresh, if_neg new] using has
      obtain ⟨names, shown⟩ := whole.shown before
      have still : t.view (segments path) = none := by
        rw [← whole.toSound.view_fresh unused, ← List.append_nil (segments path)]
        exact (whole.toSound.fresh unused).view_free placed free []
      have later : graft (segments path) (ino, kind) t.view names = some (x, known) :=
        graft_keeps still shown
      rw [← shows] at later
      exact Tree.reachable_of_view later

theorem Tree.Whole.addEntry (whole : t.Whole) (placed : t.place path = some (dir, name))
    (free : t.find path = none) (file : t.kind ino = some .file) (room : t.Linkable ino) :
    (t.addEntry dir name ino).Whole := by
  obtain ⟨_, _, _, _, directory, short⟩ := Tree.place_eq_some.mp placed
  have absent : t.slot dir name = none := by
    rw [← Tree.find_of_place placed, free]
  constructor
  · apply whole.toSound.addEntry directory short absent
    · rintro rfl
      rw [whole.root] at file
      cases file
    · rw [file]
      simp
    · exact room
    · intro isDirectory
      rw [file] at isDirectory
      cases isDirectory
  · intro x used
    obtain ⟨names, here⟩ := whole.reached x used
    exact ⟨names, Tree.resolve_addEntry directory short absent here⟩

/-! ## An entry less -/

/-- What still has a path is not freed. -/
theorem Tree.Sound.kind_removeEntry (sound : t.Sound) (slot : t.slot dir name = some ino)
    (empty : t.Empty ino) (here : (t.removeEntry dir name ino).resolve names = some x) :
    (t.removeEntry dir name ino).kind x = t.kind x := by
  have used := (sound.removeEntry slot empty).toCounted.used_resolve here
  simp only [Tree.removeEntry] at used ⊢
  split
  · rename_i freed
    rw [if_pos freed] at used
    exact absurd rfl used
  · rfl

theorem Tree.Sound.view_removeEntry (sound : t.Sound) (placed : t.place path = some (dir, name))
    (slot : t.slot dir name = some ino) (empty : t.Empty ino) :
    (t.removeEntry dir name ino).view = prune (segments path) t.view := by
  apply Tree.view_congr
  rintro names ⟨x, known⟩
  rw [Tree.view_some]
  by_cases behind : segments path <+: names
  · rw [Tree.resolve_removed placed behind, prune_behind behind]
    simp
  · rw [prune_off behind, Tree.view_some]
    constructor
    · rintro ⟨here, has⟩
      rw [sound.kind_removeEntry slot empty here] at has
      exact ⟨Tree.resolve_of_removeEntry here, has⟩
    · rintro ⟨here, has⟩
      have still := sound.resolve_kept placed slot here behind
      rw [sound.kind_removeEntry slot empty still]
      exact ⟨still, has⟩

theorem Tree.Sound.another (sound : t.Sound) (slot : t.slot dir name = some ino)
    (linked : t.nlink ino - 1 ≠ 0) :
    ∃ other later, t.slot other later = some ino ∧ (other, later) ≠ (dir, name) := by
  have below : ino ≠ t.root := by
    rintro rfl
    exact sound.top dir name slot
  have two : 1 < (t.links ino).ncard := by
    have some := sound.linked slot
    rw [← sound.counted ino below]
    by_contra few
    rw [ne_eq, ← UInt16.toNat_inj] at some
    have one : t.nlink ino = 1 := UInt16.toNat_inj.mp (by
      simp only [UInt16.toNat_zero, UInt16.toNat_one] at some ⊢
      omega)
    rw [one] at linked
    exact linked rfl
  obtain ⟨⟨other, later⟩, member, different⟩ := Set.exists_ne_of_one_lt_ncard two (dir, name)
  exact ⟨other, later, member, different⟩

theorem Tree.Whole.removeEntry (whole : t.Whole) (placed : t.place path = some (dir, name))
    (slot : t.slot dir name = some ino) (empty : t.Empty ino) :
    (t.removeEntry dir name ino).Whole := by
  obtain ⟨front, own, ownHere, _, directory, _⟩ := Tree.place_eq_some.mp placed
  refine ⟨whole.toSound.removeEntry slot empty, ?_⟩
  -- a path that does not meet the entry is still there
  have other : ∀ x names, t.resolve names = some x → ¬ segments path <+: names →
      (t.removeEntry dir name ino).Reachable x := fun x names here off =>
    ⟨names, whole.toSound.resolve_kept placed slot here off⟩
  have nothing : ∀ rest x, t.resolve (segments path ++ rest) = some x → rest = [] ∧ x = ino := by
    intro rest x here
    obtain ⟨node, there, later⟩ := Tree.resolve_prefix here
    rw [own, Tree.resolve_snoc ownHere, slot] at there
    cases there
    exact descend_empty (show ∀ name, id (t.slot ino name) = none from empty) later
  intro x used
  simp only [Tree.removeEntry] at used
  split at used
  · exact absurd rfl used
  · rename_i linked
    obtain ⟨names, here⟩ := whole.reached x used
    by_cases behind : segments path <+: names
    · -- the path ends with the entry, and there is another link
      obtain ⟨rest, rfl⟩ := behind
      obtain ⟨_, rfl⟩ := nothing rest x here
      obtain ⟨another, last, link, different⟩ := whole.toSound.another slot
        (fun freed => linked ⟨rfl, freed⟩)
      obtain ⟨more, found⟩ := whole.reached another (by rw [Tree.slot_dir link]; simp)
      have there := (Tree.resolve_snoc found last).trans link
      apply other x (more ++ [last]) there
      rintro ⟨tail, same⟩
      rw [← same] at there
      obtain ⟨rfl, _⟩ := nothing tail x there
      rw [List.append_nil, own] at same
      obtain ⟨rfl, final⟩ := List.append_inj' same rfl
      cases final
      rw [ownHere] at found
      cases found
      exact different rfl
    · exact other x names here behind

/-! ## A move -/

section Move

variable (sound : t.Sound) (target : t.place dst = some (dir, name)) (free : t.find dst = none)
  (source : t.place src = some (old, oldName)) (slot : t.slot old oldName = some ino)
  (ahead : ¬ segments src <+: segments dst)

include sound target free source slot ahead

/-- What lies behind the target after a move lay behind the source. -/
theorem Tree.Sound.move_back {rest : List Name}
    (here : (t.move dir name old oldName ino).resolve (segments dst ++ rest) = some x) :
    t.resolve (segments src ++ rest) = some x := by
  obtain ⟨_, _, _, _, directory, short⟩ := Tree.place_eq_some.mp target
  obtain ⟨oldFront, oldWhole, oldHere, _⟩ := Tree.place_eq_some.mp source
  have absent : t.slot dir name = none := by
    rw [← Tree.find_of_place target, free]
  have slots : ∀ {other x later}, (t.move dir name old oldName ino).slot other later = some x ↔
      (other, later) = (dir, name) ∧ x = ino ∨
        (other, later) ≠ (old, oldName) ∧ t.slot other later = some x :=
    sound.slot_move directory short absent slot
  have found : t.find src = some ino := by
    rw [Tree.find_of_place source, slot]
  have named := sound.move_found (.refl directory absent) (sound.linked slot) target source ahead
    (Tree.free_apart free target found)
  induction rest using List.reverseRecOn generalizing x with
  | nil =>
      rw [List.append_nil, named] at here
      cases here
      rw [List.append_nil, oldWhole, Tree.resolve_snoc oldHere]
      exact slot
  | append_singleton inner last ih =>
      rw [← List.append_assoc] at here ⊢
      obtain ⟨node, before, into⟩ := Tree.resolve_last here
      have there := ih before
      rcases slots.mp into with ⟨place, _⟩ | ⟨_, kept⟩
      · -- the directory of the target does not lie behind the source
        cases place
        obtain ⟨own, ownWhole, ownHere, _⟩ := Tree.place_eq_some.mp target
        have same := sound.path_unique directory ownHere there
        rw [ownWhole, same, List.append_assoc] at ahead
        exact absurd (List.prefix_append _ _) ahead
      · rw [Tree.resolve_snoc there]
        exact kept

theorem Tree.Sound.view_move : (t.move dir name old oldName ino).view =
    carry (segments src) (segments dst) t.view := by
  obtain ⟨_, _, _, pathShort, directory, short⟩ := Tree.place_eq_some.mp target
  have absent : t.slot dir name = none := by
    rw [← Tree.find_of_place target, free]
  have linked := sound.linked slot
  have cleared := Cleared.refl directory absent
  have found : t.find src = some ino := by
    rw [Tree.find_of_place source, slot]
  have apart := Tree.free_apart free target found
  apply Tree.view_congr
  rintro names ⟨x, known⟩
  rw [Tree.view_some, Tree.kind_move linked]
  by_cases atTarget : segments dst <+: names
  · obtain ⟨rest, rfl⟩ := atTarget
    rw [carry_behind, Tree.view_some]
    refine and_congr_left fun _ => ⟨sound.move_back target free source slot ahead, ?_⟩
    intro here
    apply sound.move_below cleared linked target source slot ahead apart here
    rintro ⟨tail, behind⟩
    rw [← behind, Tree.resolve_append] at here
    rw [Tree.find, if_pos pathShort] at free
    rw [free] at here
    cases here
  · by_cases atSource : segments src <+: names
    · rw [carry_source atSource atTarget]
      constructor
      · rintro ⟨here, _⟩
        exact absurd atSource (sound.resolve_move rfl (fun same => same) target directory source
          here atTarget).2
      · intro impossible
        cases impossible
    · rw [carry_off atSource atTarget, Tree.view_some,
        sound.move_keeps cleared linked target source atSource atTarget]

end Move

theorem Tree.Whole.move (whole : t.Whole) (target : t.place dst = some (dir, name))
    (free : t.find dst = none) (source : t.place src = some (old, oldName))
    (slot : t.slot old oldName = some ino) (ahead : ¬ segments src <+: segments dst) :
    (t.move dir name old oldName ino).Whole := by
  obtain ⟨_, _, _, _, directory, short⟩ := Tree.place_eq_some.mp target
  have absent : t.slot dir name = none := by
    rw [← Tree.find_of_place target, free]
  refine ⟨whole.toSound.move directory short absent slot, ?_⟩
  intro x used
  rw [Tree.kind_move (whole.toSound.linked slot)] at used
  obtain ⟨kind, has⟩ := Option.ne_none_iff_exists'.mp used
  obtain ⟨names, shown⟩ := whole.shown has
  obtain ⟨others, later⟩ : ∃ others, carry (segments src) (segments dst) t.view others =
      some (x, kind) := carry_keeps (whole.toSound.view_free target free) shown
  rw [← whole.toSound.view_move target free source slot ahead] at later
  exact Tree.reachable_of_view later

/-! ## The number of links -/

/-- An inode has as many links as paths. -/
theorem Tree.Whole.nlink_paths (whole : t.Whole) (below : ino ≠ t.root) :
    (t.nlink ino).toNat = {names | t.resolve names = some ino}.ncard := by
  have reached : ∀ place ∈ t.links ino, ∃ names, t.resolve names = some place.1 := by
    intro place member
    apply whole.reached
    rw [Tree.slot_dir member]
    simp
  choose pathTo leads using reached
  rw [whole.counted ino below]
  refine Set.ncard_congr (fun place member => pathTo place member ++ [place.2]) ?_ ?_ ?_
  · intro place member
    exact (Tree.resolve_snoc (leads place member) place.2).trans member
  · intro one two memberOne memberTwo same
    obtain ⟨front, last⟩ := List.append_inj' same rfl
    have there := leads one memberOne
    rw [front, leads two memberTwo] at there
    exact Prod.ext (Option.some.inj there).symm (List.cons.inj last).1
  · intro names here
    cases names using List.reverseRecOn with
    | nil => exact absurd (Option.some.inj here).symm below
    | append_singleton front last =>
        obtain ⟨node, there, into⟩ := Tree.resolve_last here
        refine ⟨(node, last), into, ?_⟩
        have same := whole.toSound.path_unique (Tree.slot_dir into)
          (leads (node, last) into) there
        simp only [same]

end View

end OsLabs.Fs
