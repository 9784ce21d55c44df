import OsLabs.Fs.SmallDisk
import OsLabs.Lib.Transition

/-!
# Runs of the callbacks that change names

From an image that shows a whole tree, a run of safe requests goes on through such images, and
what the paths of the image lead to changes as `Acts` says.
-/

set_option autoImplicit false

namespace OsLabs.Fs

open OsLabs.ByteMemory OsLabs.Transition

abbrev Asked := Caller × NameRequest × Except Failure Unit

section Runs

variable (stubs : Nat → InodeStubs) (allocBlock : Memory → Except Errno Nat × Memory)
  (links : LinkStubs Memory) (valid : (Nat → Prop) → Memory → Prop)

/-- A request that is safe in the tree that the image shows, and the end of its loop. -/
structure NameStep (map : Memory) (asked : Asked) (after : Memory) : Prop where
  serves : ∃ turns, serveName stubs allocBlock links asked.1 turns map asked.2.1 =
    (asked.2.2, after)
  ended : asked.2.2 ≠ .error (.stop .running)
  strings : ∀ path ∈ asked.2.1.strings, (0 : UInt8) ∉ path
  safe : ∀ t : Tree, t.Whole → ShowsTree stubs valid t map → Safe t asked.2.1

/-- What the paths of an image lead to. -/
structure PathsOf (map : Memory) (names : Names) : Prop where
  opens : ∀ {path ino}, (0 : UInt8) ∉ path →
    (Opens stubs map path ino ↔ ∃ kind, findIn names path = some (ino, kind))
  kinds : ∀ {path ino kind}, findIn names path = some (ino, kind) →
    (isDir map ino = true ↔ kind = .dir)

/-- A step of the image and of what its paths lead to. -/
structure PathStep (before : Memory × Names) (asked : Asked) (after : Memory × Names) : Prop where
  serves : NameStep stubs allocBlock links valid before.1 asked after.1
  answered : Answered asked.2.2
  paths : PathsOf stubs after.1 after.2
  acts : Acts asked.2.1 asked.2.2 before.2 after.2

end Runs

section Runs

variable {stubs : Nat → InodeStubs} {allocBlock : Memory → Except Errno Nat × Memory}
  {links : LinkStubs Memory} {valid : (Nat → Prop) → Memory → Prop} {t : Tree}
  {map after : Memory} {asked : List Asked}

theorem ShowsTree.pathsOf (doc : DiskDocumented stubs allocBlock valid) (whole : t.Whole)
    (shown : ShowsTree stubs valid t map) : PathsOf stubs map t.view where
  opens := by
    intro path ino string
    rw [shown.opens_iff doc whole.toCounted string]
    constructor
    · intro found
      obtain ⟨kind, has⟩ := Option.ne_none_iff_exists'.mp (whole.toCounted.used_find found)
      exact ⟨kind, Tree.findIn_some.mpr ⟨found, has⟩⟩
    · rintro ⟨kind, found⟩
      exact (Tree.findIn_some.mp found).1
  kinds := fun found => shown.kind (Tree.findIn_some.mp found).2

/-- Every image of a run shows a whole tree, and its paths change as the requests say. -/
theorem serveNames_run (doc : NamesDocumented stubs allocBlock links valid) (whole : t.Whole)
    (shown : ShowsTree stubs valid t map)
    (run : Run (NameStep stubs allocBlock links valid) map asked after) :
    ∃ u : Tree, u.Whole ∧ ShowsTree stubs valid u after ∧
      Run (PathStep stubs allocBlock links valid) (map, t.view) asked (after, u.view) := by
  induction run with
  | start => exact ⟨t, whole, shown, .start⟩
  | @extend last next seen label _ step ih =>
      obtain ⟨u, kept, shows, paths⟩ := ih
      obtain ⟨turns, served⟩ := step.serves
      have settled := serveName_settled (by
        rw [served]
        exact step.ended) 2
      obtain ⟨answered, v, later, final, acts⟩ :=
        serveName_fine doc kept shows turns step.strings (step.safe u kept shows)
      rw [settled, served] at answered final acts
      exact ⟨v, later, final,
        paths.extend ⟨step, answered, final.pathsOf doc.toDiskDocumented later, acts⟩⟩

end Runs

/-! ## Steps on the disk with room for one inode -/

section Steps

variable {t : Tree} {map : Memory} {path : List UInt8}

def user : Caller := ⟨7, 1000, 1000⟩

def smallServe (map : Memory) (request : NameRequest) : Reply :=
  serveName smallStubs allocForty smallLinks user 2 map request

theorem smallServe_step (map : Memory) (request : NameRequest) (answer : Except Failure Unit)
    (served : (smallServe map request).1 = answer) (ended : answer ≠ .error (.stop .running))
    (strings : ∀ path ∈ request.strings, (0 : UInt8) ∉ path)
    (safe : ∀ t : Tree, t.Whole → SmallShows t map → Safe t request) :
    NameStep smallStubs allocForty smallLinks SmallValid map (user, request, answer)
      (smallServe map request).2 :=
  ⟨⟨2, Prod.ext served rfl⟩, ended, strings, safe⟩

theorem SmallShows.linkSafe (shown : SmallShows t map) (whole : t.Whole)
    (string : (0 : UInt8) ∉ path) (opened : Opens smallStubs map path smallIno)
    (few : loadLE map (smallIno + iNlink) 2 + 1 < 2 ^ 16) : LinkSafe t path := by
  intro ino found
  have same := (shown.opens_iff smallStubs_documented whole.toCounted string).mp opened
  rw [found] at same
  cases same
  rw [Tree.Linkable, shown.nlink (whole.toCounted.used_find found)]
  exact few

theorem SmallShows.free (shown : SmallShows t map) (whole : t.Whole)
    (string : (0 : UInt8) ∉ path)
    (refused : ∀ ino, (inodeOpen smallStubs map path).1 ≠ .ok ino) : t.find path = none := by
  apply Option.eq_none_iff_forall_ne_some.mpr
  intro ino found
  have opened := (shown.opens_iff smallStubs_documented whole.toCounted string).mpr found
  exact refused _ opened

end Steps

section Runs

variable {stubs : Nat → InodeStubs} {allocBlock : Memory → Except Errno Nat × Memory}
  {links : LinkStubs Memory} {valid : (Nat → Prop) → Memory → Prop} {t : Tree}
  {map after : Memory} {asked : List Asked}

/-- With safe requests the image goes on showing a whole tree, the `i_nlink` of an inode counts
its paths, and the next safe request is answered. -/
theorem serveNames_whole (doc : NamesDocumented stubs allocBlock links valid) (whole : t.Whole)
    (shown : ShowsTree stubs valid t map)
    (run : Run (NameStep stubs allocBlock links valid) map asked after) :
    ∃ u : Tree, u.Whole ∧ ShowsTree stubs valid u after ∧
      (∀ ino, u.InUse ino → ino ≠ u.root →
        loadLE after (ino + iNlink) 2 = {names | u.resolve names = some ino}.ncard) ∧
      ∀ caller request, (∀ path ∈ request.strings, (0 : UInt8) ∉ path) → Safe u request →
        Answered (serveName stubs allocBlock links caller 2 after request).1 := by
  obtain ⟨u, kept, shows, _⟩ := serveNames_run doc whole shown run
  refine ⟨u, kept, shows, ?_, ?_⟩
  · intro ino used below
    rw [← shows.nlink used, kept.nlink_paths below]
  · intro caller request strings safe
    exact (serveName_fine doc kept shows 0 strings safe).1

end Runs

def madeMap : Memory := (smallServe createMap (.mknod [47, 97] 0o100644 0)).2

def linkedMap : Memory := (smallServe madeMap (.link [47, 97] [47, 98])).2

def movedMap : Memory := (smallServe linkedMap (.rename [47, 98] [47, 99])).2

/-- The file `/a` is made, linked to `/b`, which becomes `/c`. -/
theorem serveNames_whole_sample : loadLE movedMap (smallIno + iNlink) 2 = 2 ∧
    ∃ u : Tree, u.Whole ∧ SmallShows u movedMap ∧
      (∀ ino, u.InUse ino → ino ≠ u.root →
        loadLE movedMap (ino + iNlink) 2 = {names | u.resolve names = some ino}.ncard) ∧
      ∀ caller request, (∀ path ∈ request.strings, (0 : UInt8) ∉ path) → Safe u request →
        Answered (serveName smallStubs allocForty smallLinks caller 2 movedMap request).1 := by
  refine ⟨by decide +kernel, ?_⟩
  have made := smallServe_step createMap (.mknod [47, 97] 0o100644 0) (.ok ())
    (by decide +kernel) (by simp) (by decide) fun _ _ _ => trivial
  have linked := smallServe_step madeMap (.link [47, 97] [47, 98]) (.ok ())
    (by decide +kernel) (by simp) (by decide) fun t whole shown =>
      SmallShows.linkSafe shown whole (by decide) (by rw [Opens]; decide +kernel)
        (by decide +kernel)
  have moved := smallServe_step linkedMap (.rename [47, 98] [47, 99]) (.ok ())
    (by decide +kernel) (by simp) (by decide) fun t whole shown => by
      have refused : (inodeOpen smallStubs linkedMap [47, 99]).1 = .error (.errno .noent) := by
        decide +kernel
      have free : t.find [47, 99] = none :=
        SmallShows.free shown whole (by decide) (by simp [refused])
      refine Or.inr (Or.inr ⟨?_, Or.inr (Or.inr (Or.inr ⟨by decide, ?_⟩))⟩)
      · intro gone found
        rw [free] at found
        cases found
      · exact SmallShows.linkSafe shown whole (by decide) (by rw [Opens]; decide +kernel)
          (by decide +kernel)
  exact serveNames_whole smallDisk_documented bareTree_whole bareTree_shown
    (((Run.start.extend made).extend linked).extend moved)

section Runs

variable {stubs : Nat → InodeStubs} {allocBlock : Memory → Except Errno Nat × Memory}
  {links : LinkStubs Memory} {valid : (Nat → Prop) → Memory → Prop} {t : Tree}
  {map after : Memory} {asked : List Asked}

end Runs

end OsLabs.Fs
