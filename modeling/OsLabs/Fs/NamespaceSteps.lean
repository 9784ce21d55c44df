import OsLabs.Fs.Namespace
import OsLabs.Fs.WholeTree

/-!
# What the callbacks do to paths

`inode_link` and `inode_unlink` are missing, so that what their comments say of the tree is a
hypothesis; nothing is said of when there is room for a link.  `fs_rename` checks neither that
its target is no full directory nor that it does not lie behind the source, and no function
checks that `i_nlink` can count another link.  Every other request keeps a tree whole.
-/

set_option autoImplicit false

namespace OsLabs.Fs

open OsLabs.ByteMemory OsLabs.PathMap

/-! ## The missing functions -/

/-- The comments above `inode_link` and `inode_unlink`, for trees that an image shows. -/
structure LinksDocumented (links : LinkStubs Memory) (shows : Tree → Memory → Prop) : Prop where
  link_exist : ∀ {t map after src dst answer}, t.Counted → shows t map → (0 : UInt8) ∉ src →
    (0 : UInt8) ∉ dst → t.find dst ≠ none → links.link map src dst = (answer, after) →
    answer = .error .exist ∧ shows t after
  link_adds : ∀ {t map after src dst}, t.Counted → shows t map → (0 : UInt8) ∉ src →
    (0 : UInt8) ∉ dst → t.find dst = none → links.link map src dst = (.ok (), after) →
    ∃ ino dir name, t.find src = some ino ∧ t.place dst = some (dir, name) ∧
      shows (t.addEntry dir name ino) after
  link_refuses : ∀ {t map after src dst number}, t.Counted → shows t map → (0 : UInt8) ∉ src →
    (0 : UInt8) ∉ dst → t.find dst = none → links.link map src dst = (.error number, after) →
    number ≠ .exist ∧ shows t after
  unlink_removes : ∀ {t map after path answer ino dir name}, t.Counted → shows t map →
    (0 : UInt8) ∉ path → t.find path = some ino → t.place path = some (dir, name) →
    links.unlink map path = (answer, after) →
    answer = .ok () ∧ shows (t.removeEntry dir name ino) after
  unlink_refuses : ∀ {t map after path answer}, t.Counted → shows t map → (0 : UInt8) ∉ path →
    t.find path = none ∨ segments path = [] → links.unlink map path = (answer, after) →
    ∃ number, answer = .error number ∧ shows t after

structure NamesDocumented (stubs : Nat → InodeStubs)
    (allocBlock : Memory → Except Errno Nat × Memory) (links : LinkStubs Memory)
    (valid : (Nat → Prop) → Memory → Prop) : Prop
    extends DiskDocumented stubs allocBlock valid where
  links : LinksDocumented links (ShowsTree stubs valid)

/-! ## Paths before and after -/

def kindOf (mode : Nat) : Kind := if mode % 2 ^ 32 &&& 0o170000 = sIfdir then .dir else .file

/-- The inode of a path that is not too long. -/
def findIn (names : Names) (path : List UInt8) : Option (Nat × Kind) :=
  if path.length < pathMax then names (segments path) else none

/-- A file, or a directory without names. -/
def Bare (names : Names) (path : List UInt8) (node : Nat × Kind) : Prop :=
  node.2 = .file ∨ ∀ name, names (segments path ++ [name]) = none

/-- What a refusal tells about the paths. -/
def Refuses (names : Names) : NameRequest → Failure → Prop
  | .mknod path _ _, failure => findIn names path ≠ none → failure = .errno .exist
  | .mkdir path _, failure => findIn names path ≠ none → failure = .errno .exist
  | .symlink target path, failure =>
      target.length < pathMax → findIn names path ≠ none → failure = .errno .exist
  | .unlink path, failure => ∀ ino kind, findIn names path = some (ino, kind) →
      kind = .dir ∧ failure = .isdir
  | .rmdir path, failure => ∀ ino kind, findIn names path = some (ino, kind) →
      (segments path = [] → failure = .perm) ∧
      (kind = .file → failure = .notdir) ∧
      (failure = .notempty → ∃ name, names (segments path ++ [name]) ≠ none)
  | .link src dst, failure => ∀ ino kind, findIn names src = some (ino, kind) →
      (kind = .dir → failure = .perm) ∧
      (kind = .file → findIn names dst ≠ none → failure = .errno .exist)
  | .rename src dst, _ => src = dst → findIn names dst = none

/-- A request, its answer, and the paths before and after it.  The inode of a new file has had
no path, and a rename that fails may have unlinked its target. -/
inductive Acts : NameRequest → Except Failure Unit → Names → Names → Prop
  | refused {request : NameRequest} {failure : Failure} {names : Names}
      (why : Refuses names request failure) : Acts request (.error failure) names names
  | mknod {path : List UInt8} {mode rdev ino : Nat} {names : Names}
      (free : findIn names path = none) (new : ∀ others kind, names others ≠ some (ino, kind)) :
      Acts (.mknod path mode rdev) (.ok ()) names
        (graft (segments path) (ino, kindOf mode) names)
  | mkdir {path : List UInt8} {mode ino : Nat} {names : Names}
      (free : findIn names path = none) (new : ∀ others kind, names others ≠ some (ino, kind)) :
      Acts (.mkdir path mode) (.ok ()) names (graft (segments path) (ino, .dir) names)
  | symlink {target path : List UInt8} {ino : Nat} {names : Names}
      (free : findIn names path = none) (new : ∀ others kind, names others ≠ some (ino, kind)) :
      Acts (.symlink target path) (.ok ()) names (graft (segments path) (ino, .file) names)
  | unlink {path : List UInt8} {ino : Nat} {names : Names}
      (found : findIn names path = some (ino, .file)) :
      Acts (.unlink path) (.ok ()) names (prune (segments path) names)
  | rmdir {path : List UInt8} {dir : Nat} {names : Names}
      (below : segments path ≠ []) (found : findIn names path = some (dir, .dir))
      (empty : ∀ name, names (segments path ++ [name]) = none) :
      Acts (.rmdir path) (.ok ()) names (prune (segments path) names)
  | link {src dst : List UInt8} {ino : Nat} {names : Names}
      (found : findIn names src = some (ino, .file)) (free : findIn names dst = none) :
      Acts (.link src dst) (.ok ()) names (graft (segments dst) (ino, .file) names)
  | same {path : List UInt8} {names : Names} : Acts (.rename path path) (.ok ()) names names
  | rename {src dst : List UInt8} {node : Nat × Kind} {names : Names}
      (found : findIn names src = some node) (ahead : ¬ segments src <+: segments dst)
      (bare : ∀ gone, findIn names dst = some gone → Bare names dst gone) :
      Acts (.rename src dst) (.ok ()) names (carry (segments src) (segments dst) names)
  | unlinked {src dst : List UInt8} {gone : Nat × Kind} {failure : Failure} {names : Names}
      (there : findIn names dst = some gone) (bare : Bare names dst gone) :
      Acts (.rename src dst) (.error failure) names (prune (segments dst) names)

/-- `i_nlink` can count another link to what the path leads to. -/
def LinkSafe (t : Tree) (src : List UInt8) : Prop := ∀ ino, t.find src = some ino → t.Linkable ino

/-- A rename that does nothing, or moves the source to a free place or over a file or an empty
directory that does not lie behind the source. -/
def RenameSafe (t : Tree) (src dst : List UInt8) : Prop :=
  src = dst ∨ segments dst = [] ∨
    ((∀ gone, t.find dst = some gone → t.kind gone ≠ some .dir ∨ t.Empty gone) ∧
      (t.find src = none ∨ t.place dst = none ∨ segments src = segments dst ∨
        ¬ segments src <+: segments dst ∧ LinkSafe t src))

def Safe (t : Tree) : NameRequest → Prop
  | .link src _ => LinkSafe t src
  | .rename src dst => RenameSafe t src dst
  | _ => True

/-- A request is answered and leaves an image that shows a whole tree. -/
def Fine (shows : Tree → Memory → Prop) (t : Tree) (request : NameRequest) (reply : Reply) : Prop :=
  Answered reply.1 ∧ ∃ u, u.Whole ∧ shows u reply.2 ∧ Acts request reply.1 t.view u.view

section Trees

variable {t u : Tree} {path src dst : List UInt8} {ino : Nat} {kind : Kind} {name : Name}

theorem Tree.Sound.findIn_view (sound : t.Sound) :
    findIn t.view path = none ↔ t.find path = none := by
  rw [findIn, Tree.find]
  split
  · exact sound.view_none
  · simp

theorem Tree.findIn_some : findIn t.view path = some (ino, kind) ↔
    t.find path = some ino ∧ t.kind ino = some kind := by
  rw [findIn, Tree.find]
  split
  · exact Tree.view_some
  · simp

theorem Makes.new (makes : Makes t u path kind ino) (others : List Name) (known : Kind) :
    t.view others ≠ some (ino, known) := by
  obtain ⟨_, _, _, _, unused, _⟩ := makes
  intro shown
  rw [(Tree.view_some.mp shown).2] at unused
  cases unused

theorem Makes.free (makes : Makes t u path kind ino) (sound : t.Sound) :
    findIn t.view path = none := by
  obtain ⟨_, _, _, free, _⟩ := makes
  exact sound.findIn_view.mpr free

theorem Makes.findIn (makes : Makes t u path kind ino) (sound : t.Sound) :
    findIn u.view path = some (ino, kind) := by
  obtain ⟨dir, name, placed, _⟩ := id makes
  obtain ⟨_, _, _, short, _⟩ := Tree.place_eq_some.mp placed
  rw [Fs.findIn, if_pos short, makes.view sound, graft_self]

theorem Makes.below (makes : Makes t u path kind ino) : segments path ≠ [] := by
  obtain ⟨_, _, placed, _⟩ := makes
  obtain ⟨front, own, _⟩ := Tree.place_eq_some.mp placed
  rw [own]
  simp

theorem Tree.Sound.file_of_used (sound : t.Sound) (found : t.find path = some ino)
    (other : t.kind ino ≠ some .dir) : t.kind ino = some .file := by
  obtain ⟨kind, has⟩ := Option.ne_none_iff_exists'.mp (sound.toCounted.used_find found)
  cases kind with
  | dir => exact absurd has other
  | file => exact has

theorem Tree.Sound.view_inner (sound : t.Sound) {dir : Nat} (here : t.find path = some dir)
    (name : Name) : t.view (segments path ++ [name]) = none ↔ t.slot dir name = none := by
  rw [Tree.find] at here
  split at here
  · rw [sound.view_none, Tree.resolve_snoc here]
  · cases here

theorem Tree.findIn_only (found : t.find path = some ino) (has : t.kind ino = some kind)
    {good : Kind → Prop} (holds : good kind) (other : Nat) (known : Kind)
    (also : findIn t.view path = some (other, known)) : good known := by
  rw [Tree.findIn_some.mpr ⟨found, has⟩] at also
  cases also
  exact holds

theorem Tree.find_top (top : segments path = []) (found : t.find path = some ino) :
    ino = t.root := by
  rw [Tree.find, top] at found
  split at found
  · exact (Option.some.inj found).symm
  · cases found

theorem Tree.find_removed {dir gone : Nat} {name : Name} (placed : t.place dst = some (dir, name))
    (behind : segments dst <+: segments src) :
    (t.removeEntry dir name gone).find src = none := by
  rw [Tree.find, Tree.resolve_removed placed behind]
  split <;> rfl

theorem Tree.Sound.bare (sound : t.Sound) {gone : Nat} (there : t.find dst = some gone)
    (leaf : t.kind gone ≠ some .dir ∨ t.Empty gone) :
    ∃ known, findIn t.view dst = some (gone, known) ∧ Bare t.view dst (gone, known) := by
  by_cases directory : t.kind gone = some .dir
  · refine ⟨.dir, Tree.findIn_some.mpr ⟨there, directory⟩, Or.inr ?_⟩
    have empty := leaf.resolve_left (not_not.mpr directory)
    exact fun name => (sound.view_inner there name).mpr (empty name)
  · exact ⟨.file, Tree.findIn_some.mpr ⟨there, sound.file_of_used there directory⟩, Or.inl rfl⟩

theorem Tree.place_top (top : segments dst = []) : t.place dst = none := by
  rw [Tree.place, top]
  rfl

/-- Another way to write a free path. -/
theorem Tree.free_alike (free : t.find dst = none) (equal : segments src = segments dst) :
    t.find src = none ∨ t.place dst = none := by
  rw [Tree.find] at free ⊢
  split at free
  · left
    rw [equal, free]
    split <;> rfl
  · rename_i long
    right
    cases placed : t.place dst with
    | none => rfl
    | some place =>
        obtain ⟨_, _, _, short, _⟩ := Tree.place_eq_some.mp placed
        exact absurd short long

end Trees

section Requests

variable {stubs : Nat → InodeStubs} {allocBlock : Memory → Except Errno Nat × Memory}
  {links : LinkStubs Memory} {valid : (Nat → Prop) → Memory → Prop} {caller : Caller}
  {t u : Tree} {map after : Memory} {path src dst : List UInt8} {ino : Nat} {kind : Kind}
  {request : NameRequest}

/-! ## inode_open and inode_unlink -/

theorem Fine.refused {failure : Failure} (whole : t.Whole) (shown : ShowsTree stubs valid t map)
    (answered : Answered (.error failure)) (why : Refuses t.view request failure) :
    Fine (ShowsTree stubs valid) t request (.error failure, map) :=
  ⟨answered, t, whole, shown, .refused why⟩

theorem withInode_fine (doc : NamesDocumented stubs allocBlock links valid) (whole : t.Whole)
    (shown : ShowsTree stubs valid t map) (string : (0 : UInt8) ∉ path)
    {body : Nat → Memory → Reply}
    (missing : ∀ failure, findIn t.view path = none → Refuses t.view request failure)
    (fine : ∀ ino after, t.find path = some ino → ShowsTree stubs valid t after →
      Fine (ShowsTree stubs valid) t request (body ino after)) :
    Fine (ShowsTree stubs valid) t request (withInode stubs map path body) := by
  rw [withInode]
  cases opened : inodeOpen stubs map path with
  | mk reply after =>
      obtain ⟨later, ends⟩ :=
        shown.opens doc.toDiskDocumented whole.toCounted string opened
      rcases ends with ⟨ino, rfl, found⟩ | ⟨number, rfl, free⟩
      · exact fine ino after found later
      · exact .refused whole later trivial (missing _ (whole.toSound.findIn_view.mpr free))

/-- The change time of an inode does not show. -/
theorem ShowsTree.stamp (doc : NamesDocumented stubs allocBlock links valid)
    (shown : ShowsTree stubs valid t map) (there : t.InUse ino) (time : Nat) :
    ShowsTree stubs valid t (storeLE map (ino + iCtime) 8 time) := by
  have outside : ∀ x, x < ino ∨ ino + iSize ≤ x → storeLE map (ino + iCtime) 8 time x = map x := by
    intro x apart
    apply storeLE_outside
    simp only [iCtime, iSize] at *
    omega
  obtain ⟨stays, written⟩ := doc.write_header shown.valid there outside
  refine shown.quiet stays (written.quiet ?_)
  intro x lower upper
  apply storeLE_outside
  simp only [iCtime, iMode, iAtime] at *
  omega

theorem replyErrno_ok {reply : Except Errno Unit × Memory} (ok : reply.1 = .ok ()) :
    replyErrno reply = (.ok (), reply.2) := by
  obtain ⟨answer, after⟩ := reply
  cases ok
  rfl

theorem NamesDocumented.unlink_leaf (doc : NamesDocumented stubs allocBlock links valid)
    (whole : t.Whole) (shown : ShowsTree stubs valid t map) (string : (0 : UInt8) ∉ path)
    (found : t.find path = some ino) (below : segments path ≠ []) (empty : t.Empty ino) :
    (links.unlink map path).1 = .ok () ∧ ∃ u, u.Whole ∧
      ShowsTree stubs valid u (links.unlink map path).2 ∧
      u.view = prune (segments path) t.view := by
  obtain ⟨dir, name, placed, slot⟩ := Tree.place_of_find found below
  obtain ⟨done, later⟩ := doc.links.unlink_removes whole.toCounted shown string found placed rfl
  exact ⟨done, _, whole.removeEntry placed slot empty, later,
    whole.toSound.view_removeEntry placed slot empty⟩

theorem fsUnlink_fine (doc : NamesDocumented stubs allocBlock links valid) (whole : t.Whole)
    (shown : ShowsTree stubs valid t map) (string : (0 : UInt8) ∉ path) :
    Fine (ShowsTree stubs valid) t (.unlink path) (fsUnlink stubs links caller map path) := by
  apply withInode_fine doc whole shown string (by simp +contextual [Refuses])
  intro ino after found later
  have used : t.InUse ino := whole.toCounted.used_find found
  split
  · rename_i directory
    have has := (later.isDir_iff used).mp directory
    exact .refused whole later trivial (Tree.findIn_only found has ⟨rfl, rfl⟩)
  · rename_i file
    have other : t.kind ino ≠ some .dir := fun directory =>
      file ((later.isDir_iff used).mpr directory)
    have has := whole.toSound.file_of_used found other
    have below : segments path ≠ [] := by
      intro top
      rw [Tree.find_top top found] at other
      exact other whole.root
    obtain ⟨done, u, kept, last, shows⟩ := doc.unlink_leaf whole
      (later.stamp doc used caller.time) string found below (Tree.empty_of_file (Or.inl other))
    rw [replyErrno_ok done]
    refine ⟨trivial, u, kept, last, ?_⟩
    rw [shows]
    exact .unlink (Tree.findIn_some.mpr ⟨found, has⟩)

/-! ## fs_rmdir -/

theorem entryNamed_tests {live : Nat → Prop} {dir : Nat} (there : live dir) :
    Tests stubs live dir map entryNamed
      fun k => byteAt (stubs dir) map (k * direntSize + dName) != 0 :=
  fun _ _ _ _ quiet place inside => congrArg not (entryFree_tests there quiet place inside)

theorem ShowsDir.empty {dir : Nat} {slot : Name → Option Nat} (shown : ShowsDir stubs dir map slot)
    (free : ∀ k < iSizeOf dir map / blkSize * blkDirents,
      (byteAt (stubs dir) map (k * direntSize + dName) != 0) = false) (name : Name) :
    slot name = none := by
  apply Option.eq_none_iff_forall_ne_some.mpr
  intro ino found
  obtain ⟨some, k, named, _⟩ := (shown.lists.slots _ _).mp found
  apply some
  rw [← named]
  by_cases inside : k < iSizeOf dir map / blkSize * blkDirents
  · rw [nameOf_nil]
    simpa using free k inside
  · exact shown.free_from (Or.inl shown.size_eq.ge) (not_lt.mp inside)

theorem ShowsDir.named {dir k : Nat} {slot : Name → Option Nat}
    (shown : ShowsDir stubs dir map slot)
    (here : (byteAt (stubs dir) map (k * direntSize + dName) != 0) = true) :
    ∃ name ino, slot name = some ino := by
  have some : nameOf (byteAt (stubs dir) map) k ≠ [] := by
    rw [Ne, nameOf_nil]
    simpa using here
  obtain ⟨ino, leads⟩ := Option.ne_none_iff_exists'.mp (shown.lists.leads k some)
  exact ⟨_, ino, (shown.lists.slot_at some).trans leads⟩

theorem unlessRoot_fine (shown : ShowsTree stubs valid t map) (whole : t.Whole)
    {body : Memory → Reply} (root : ino = t.root → Refuses t.view request .perm)
    (fine : ino ≠ t.root → Fine (ShowsTree stubs valid) t request (body map)) :
    Fine (ShowsTree stubs valid) t request (unlessRoot map ino body) := by
  rw [unlessRoot, shown.root]
  simp only
  split
  · next same => exact .refused whole shown trivial (root same)
  · next below => exact fine below

theorem fsRmdir_fine (doc : NamesDocumented stubs allocBlock links valid) (whole : t.Whole)
    (shown : ShowsTree stubs valid t map) (string : (0 : UInt8) ∉ path) :
    Fine (ShowsTree stubs valid) t (.rmdir path) (fsRmdir stubs links map path) := by
  apply withInode_fine doc whole shown string (by simp +contextual [Refuses])
  intro dir after found later
  have used : t.InUse dir := whole.toCounted.used_find found
  apply unlessRoot_fine later whole
  · rintro rfl
    exact Tree.findIn_only found whole.root ⟨fun _ => rfl, by simp, by simp⟩
  intro below
  have inner : segments path ≠ [] := fun top => below (Tree.find_top top found)
  split
  · rename_i file
    have other : t.kind dir ≠ some .dir := fun directory =>
      file ((later.isDir_iff used).mpr directory)
    exact .refused whole later trivial (Tree.findIn_only found (whole.toSound.file_of_used found other)
      ⟨fun top => absurd top inner, fun _ => rfl, by simp⟩)
  · rename_i directory
    have has := (later.isDir_iff used).mp (not_not.mp directory)
    cases scanned : scanBlocks (stubs dir) entryNamed (iSizeOf dir after / blkSize) 0 after with
    | mk reply last =>
        obtain ⟨lastValid, quiet, ends⟩ := doc.scan used (entryNamed_tests used) later.valid
          Quiet.refl (by simp) (by simp) scanned
        have final := later.quiet lastValid quiet
        rw [Nat.zero_add] at ends
        cases ends with
        | found here =>
            obtain ⟨name, ino, slot⟩ := (later.dirs has).named here
            refine .refused whole final trivial (Tree.findIn_only found has
              ⟨fun top => absurd top inner, by simp, fun _ => ⟨name, ?_⟩⟩)
            rw [Ne, whole.toSound.view_inner found, slot]
            simp
        | refused =>
            exact .refused whole final trivial (Tree.findIn_only found has
              ⟨fun top => absurd top inner, by simp, fun impossible => by cases impossible⟩)
        | missing free _ =>
            have empty : t.Empty dir := (later.dirs has).empty free
            obtain ⟨done, u, kept, shows_last, shows⟩ :=
              doc.unlink_leaf whole final string found inner empty
            simp only [replyErrno_ok done]
            refine ⟨trivial, u, kept, shows_last, ?_⟩
            rw [shows]
            exact .rmdir inner (Tree.findIn_some.mpr ⟨found, has⟩)
              fun name => (whole.toSound.view_inner found name).mpr (empty name)

/-! ## fs_link -/

theorem fsLink_fine (doc : NamesDocumented stubs allocBlock links valid) (whole : t.Whole)
    (shown : ShowsTree stubs valid t map) (string : (0 : UInt8) ∉ src)
    (dstString : (0 : UInt8) ∉ dst) (safe : LinkSafe t src) :
    Fine (ShowsTree stubs valid) t (.link src dst) (fsLink stubs links caller map src dst) := by
  apply withInode_fine doc whole shown string (by simp +contextual [Refuses])
  intro ino after found later
  have used : t.InUse ino := whole.toCounted.used_find found
  split
  · rename_i directory
    exact .refused whole later trivial (Tree.findIn_only found ((later.isDir_iff used).mp directory)
      ⟨fun _ => rfl, by simp⟩)
  · rename_i file
    have other : t.kind ino ≠ some .dir := fun directory =>
      file ((later.isDir_iff used).mpr directory)
    have has := whole.toSound.file_of_used found other
    have stamped := later.stamp doc used caller.time
    cases linked : links.link (storeLE after (ino + iCtime) 8 caller.time) src dst with
    | mk reply last =>
        simp only [linked]
        by_cases free : t.find dst = none
        · cases reply with
          | error number =>
              obtain ⟨_, final⟩ :=
                doc.links.link_refuses whole.toCounted stamped string dstString free linked
              exact .refused whole final trivial (Tree.findIn_only found has
                ⟨by simp, fun _ there => absurd (whole.toSound.findIn_view.mpr free) there⟩)
          | ok done =>
              obtain ⟨same, dir, name, source, target, final⟩ :=
                doc.links.link_adds whole.toCounted stamped string dstString free linked
              rw [found] at source
              cases source
              have apart : dir ≠ ino := Tree.apart (Tree.place_dir target) other
              refine ⟨trivial, _, whole.addEntry target free has (safe ino found), final, ?_⟩
              rw [whole.toSound.view_addEntry target free (Tree.empty_of_file (Or.inl other)) has
                apart.symm]
              exact .link (Tree.findIn_some.mpr ⟨found, has⟩) (whole.toSound.findIn_view.mpr free)
        · obtain ⟨rfl, final⟩ :=
            doc.links.link_exist whole.toCounted stamped string dstString free linked
          exact .refused whole final trivial
            (Tree.findIn_only found has ⟨by simp, fun _ _ => rfl⟩)

/-! ## fs_mknod, fs_mkdir and fs_symlink -/

theorem withNew_cases (doc : NamesDocumented stubs allocBlock links valid) (whole : t.Whole)
    (shown : ShowsTree stubs valid t map) (string : (0 : UInt8) ∉ path)
    {body : Nat → Memory → Reply} :
    (∃ number after, withNew stubs allocBlock map path body = (.error (.errno number), after) ∧
        ShowsTree stubs valid t after ∧ (t.find path ≠ none → number = .exist)) ∨
      ∃ ino dir name after, t.place path = some (dir, name) ∧ t.find path = none ∧
        t.kind ino = none ∧
        ShowsTree stubs valid ((t.fresh ino .file).enter dir name ino) after ∧
        BlankInode (stubs ino) ino after ∧
        withNew stubs allocBlock map path body = body ino after := by
  rw [withNew]
  cases created : inodeCreate stubs allocBlock map path with
  | mk reply after =>
      rcases shown.create doc.toDiskDocumented whole.toCounted string created with
        ⟨number, rfl, later, why⟩ | ⟨ino, dir, name, rfl, placed, free, unused, later, blank⟩
      · exact Or.inl ⟨number, after, rfl, later, why⟩
      · exact Or.inr ⟨ino, dir, name, after, placed, free, unused, later, blank, rfl⟩

/-- What the callbacks store in a new inode. -/
structure TypeSet (ino size mode : Nat) (before after : Memory) : Prop where
  outside : ∀ x, x < ino ∨ ino + iSize ≤ x → after x = storeLE before (ino + iSize) 4 size x
  mode : loadLE after (ino + iMode) 4 = mode % 2 ^ 32
  links : loadLE after (ino + iNlink) 2 = 1

theorem setType_set (map : Memory) (ino size mode : Nat) :
    TypeSet ino size mode map (setType map ino size mode) where
  outside := by
    intro x apart
    simp only [iSize] at apart
    rw [setType, storeLE_outside (by simp only [iNlink]; omega),
      storeLE_outside (by simp only [iMode]; omega)]
  mode := by
    rw [setType, loadLE_storeLE_apart _ _ _ _ _ _ (by simp only [iMode, iNlink]; omega),
      loadLE_storeLE]
    norm_num
  links := by
    rw [setType, loadLE_storeLE]
    norm_num

theorem TypeSet.store {size mode : Nat} (set : TypeSet ino size mode map after)
    (field width value : Nat) (inside : field + width ≤ iSize)
    (apart : field + width ≤ iMode ∨ iMode + 4 ≤ field)
    (off : field + width ≤ iNlink ∨ iNlink + 2 ≤ field) :
    TypeSet ino size mode map (storeLE after (ino + field) width value) where
  outside := by
    intro x away
    rw [storeLE_outside (by omega)]
    exact set.outside x away
  mode := by
    rw [loadLE_storeLE_apart _ _ _ _ _ _ (by omega)]
    exact set.mode
  links := by
    rw [loadLE_storeLE_apart _ _ _ _ _ _ (by omega)]
    exact set.links

theorem TypeSet.setCaller {size mode : Nat} (set : TypeSet ino size mode map after)
    (user : Caller) : TypeSet ino size mode map (setCaller user after ino) := by
  rw [Fs.setCaller]
  apply TypeSet.store _ iGroup 4 _ (by decide) (by decide) (by decide)
  apply TypeSet.store _ iOwner 4 _ (by decide) (by decide) (by decide)
  apply TypeSet.store _ iMtime 8 _ (by decide) (by decide) (by decide)
  apply TypeSet.store _ iCtime 8 _ (by decide) (by decide) (by decide)
  exact set.store iAtime 8 _ (by decide) (by decide) (by decide)

theorem TypeSet.isDir {size mode : Nat} (set : TypeSet ino size mode map after) :
    isDir after ino = true ↔ kindOf mode = .dir := by
  rw [Fs.isDir, set.mode, beq_iff_eq, kindOf]
  by_cases directory : mode % 2 ^ 32 &&& 0o170000 = sIfdir
  · rw [if_pos directory]
    exact iff_of_true directory rfl
  · rw [if_neg directory]
    exact iff_of_false directory (by simp)

theorem TypeSet.makes (doc : NamesDocumented stubs allocBlock links valid) {dir size mode : Nat}
    {name : Name} (placed : t.place path = some (dir, name)) (free : t.find path = none)
    (unused : t.kind ino = none)
    (shown : ShowsTree stubs valid ((t.fresh ino .file).enter dir name ino) map)
    (blank : BlankInode (stubs ino) ino map) (set : TypeSet ino size mode map after)
    (bound : size < 2 ^ 32) (zero : kindOf mode = .dir → size = 0) :
    ∃ u, Makes t u path (kindOf mode) ino ∧ ShowsTree stubs valid u after := by
  have apart : dir ≠ ino := Tree.apart (Tree.place_dir placed) (by simp [unused])
  have file : ((t.fresh ino .file).enter dir name ino).kind ino = some .file := by
    simp [Tree.fresh, Tree.enter]
  obtain ⟨sized, size_eq, places⟩ := shown.setSize doc.toDiskDocumented file bound rfl
  have there : ((t.fresh ino .file).enter dir name ino).InUse ino := by simp [Tree.InUse, file]
  obtain ⟨stays, written⟩ := doc.write_header sized.valid there set.outside
  refine ⟨_, ⟨dir, name, placed, free, unused, rfl⟩, ?_⟩
  rw [← Tree.setHeader_new]
  apply sized.setNew file _ _ stays written set.isDir set.links
  · intro later
    simp [Tree.enter, Tree.fresh, RadixTree.update, RadixTree.clear, apart.symm]
  · intro directory
    refine ⟨?_, fun n => (places n).trans (blank.blocks n)⟩
    rw [size_eq, zero directory]

theorem Makes.fine (makes : Makes t u path kind ino) (whole : t.Whole)
    (shown : ShowsTree stubs valid u after)
    (acts : Acts request (.ok ()) t.view (graft (segments path) (ino, kind) t.view)) :
    Fine (ShowsTree stubs valid) t request (.ok (), after) := by
  refine ⟨trivial, u, makes.whole whole, shown, ?_⟩
  rw [makes.view whole.toSound]
  exact acts

theorem fsMknod_fine (doc : NamesDocumented stubs allocBlock links valid) (whole : t.Whole)
    (shown : ShowsTree stubs valid t map) (string : (0 : UInt8) ∉ path) {mode rdev : Nat} :
    Fine (ShowsTree stubs valid) t (.mknod path mode rdev)
      (fsMknod stubs allocBlock caller map path mode rdev) := by
  rw [fsMknod]
  rcases withNew_cases doc whole shown string with
    ⟨number, after, refused, later, why⟩ |
    ⟨ino, dir, name, after, placed, free, unused, later, blank, made⟩
  · rw [refused]
    exact .refused whole later trivial fun there =>
      congrArg Failure.errno (why (mt whole.toSound.findIn_view.mpr there))
  · rw [made]
    have set := ((setType_set after ino 0 mode).store iRdev 8 rdev (by decide) (by decide)
      (by decide)).setCaller caller
    obtain ⟨u, makes, last⟩ := set.makes doc placed free unused later blank (by norm_num)
      fun _ => rfl
    exact makes.fine whole last (.mknod (makes.free whole.toSound) makes.new)

theorem kindOf_dir (mode : Nat) : kindOf (sIfdir ||| (mode &&& 0o777)) = .dir := by
  have small : sIfdir ||| (mode &&& 0o777) < 2 ^ 32 := by
    apply Nat.or_lt_two_pow
    · decide
    · exact lt_of_le_of_lt Nat.and_le_right (by norm_num)
  have bits : (sIfdir ||| (mode &&& 0o777)) &&& 0o170000 = sIfdir := by
    rw [Nat.and_or_distrib_right, Nat.and_assoc, show 0o777 &&& 0o170000 = 0 by decide,
      Nat.and_zero, Nat.or_zero]
    decide
  rw [kindOf, Nat.mod_eq_of_lt small, if_pos bits]

theorem fsMkdir_fine (doc : NamesDocumented stubs allocBlock links valid) (whole : t.Whole)
    (shown : ShowsTree stubs valid t map) (string : (0 : UInt8) ∉ path) {mode : Nat} :
    Fine (ShowsTree stubs valid) t (.mkdir path mode)
      (fsMkdir stubs allocBlock caller map path mode) := by
  rw [fsMkdir]
  rcases withNew_cases doc whole shown string with
    ⟨number, after, refused, later, why⟩ |
    ⟨ino, dir, name, after, placed, free, unused, later, blank, made⟩
  · rw [refused]
    exact .refused whole later trivial fun there =>
      congrArg Failure.errno (why (mt whole.toSound.findIn_view.mpr there))
  · rw [made]
    have set := (setType_set after ino 0 (sIfdir ||| (mode &&& 0o777))).setCaller caller
    obtain ⟨u, makes, last⟩ := set.makes doc placed free unused later blank (by norm_num)
      fun _ => rfl
    rw [kindOf_dir] at makes
    exact makes.fine whole last (.mkdir (makes.free whole.toSound) makes.new)

/-- A failed symbolic link goes again. -/
theorem Makes.undone (makes : Makes t u path .file ino)
    (doc : NamesDocumented stubs allocBlock links valid) (whole : t.Whole)
    (shown : ShowsTree stubs valid u map) (string : (0 : UInt8) ∉ path) {number : Errno}
    {target : List UInt8} :
    Fine (ShowsTree stubs valid) t (.symlink target path)
      (.error (.errno number), (links.unlink map path).2) := by
  obtain ⟨found, file⟩ := Tree.findIn_some.mp (makes.findIn whole.toSound)
  have leaf : u.Empty ino := Tree.empty_of_file (Or.inl (by rw [file]; simp))
  obtain ⟨_, v, kept, last, shows⟩ :=
    doc.unlink_leaf (makes.whole whole) shown string found makes.below leaf
  have same : v.view = t.view := by
    rw [shows, makes.view whole.toSound]
    obtain ⟨_, _, placed, free, _⟩ := makes
    exact prune_graft (whole.toSound.view_free placed free)
  refine ⟨trivial, v, kept, last, ?_⟩
  rw [same]
  exact .refused fun _ there => absurd (makes.free whole.toSound) there

theorem fsSymlink_fine (doc : NamesDocumented stubs allocBlock links valid) (whole : t.Whole)
    (shown : ShowsTree stubs valid t map) (string : (0 : UInt8) ∉ path) {target : List UInt8} :
    Fine (ShowsTree stubs valid) t (.symlink target path)
      (fsSymlink stubs allocBlock links caller map target path) := by
  rw [fsSymlink]
  by_cases long : pathMax ≤ target.length
  · rw [if_pos long]
    exact .refused whole shown trivial fun short => absurd short (not_lt.mpr long)
  · rw [if_neg long]
    rcases withNew_cases doc whole shown string with
      ⟨number, after, refused, later, why⟩ |
      ⟨ino, dir, name, after, placed, free, unused, later, blank, made⟩
    · rw [refused]
      exact .refused whole later trivial fun _ there =>
        congrArg Failure.errno (why (mt whole.toSound.findIn_view.mpr there))
    · rw [made]
      simp only
      obtain ⟨typed, typedEq⟩ : ∃ typed, setCaller caller
          (setType after ino target.length (sIflnk ||| 0o777)) ino = typed := ⟨_, rfl⟩
      have set := (setType_set after ino target.length (sIflnk ||| 0o777)).setCaller caller
      have file : kindOf (sIflnk ||| 0o777) = .file := by decide
      rw [typedEq] at set ⊢
      have bound : target.length < 2 ^ 32 := by
        simp only [pathMax] at long
        omega
      obtain ⟨u, makes, last⟩ := set.makes doc placed free unused later blank bound (by simp [file])
      rw [file] at makes
      have has := (Tree.findIn_some.mp (makes.findIn whole.toSound)).2
      cases got : (stubs ino).getBlock typed 0 with
      | mk reply final =>
          obtain ⟨stays, quiet, ends⟩ := doc.get last.valid
            (show u.InUse ino by simp [Tree.InUse, has]) got
          have shown_final := last.quiet stays quiet
          rcases ends with ⟨blk, rfl, place⟩ | ⟨number, rfl, _⟩
          · have outside : ∀ x, x < blk ∨ blk + blkSize ≤ x →
                blit final blk target.length (fun i => target.getD i 0) x = final x := by
              intro x apart
              rw [blit, if_neg]
              simp only [pathMax, blkSize] at *
              omega
            have written := shown_final.fillBlock doc.toDiskDocumented has place outside
            obtain ⟨blocks, flushed⟩ := written.flushes doc.toDiskDocumented
              (show u.InUse ino by simp [Tree.InUse, has])
            simp only [flushed]
            exact makes.fine whole written (.symlink (makes.free whole.toSound) makes.new)
          · exact makes.undone doc whole shown_final string

/-! ## fs_rename -/

theorem rename_free_fine (doc : NamesDocumented stubs allocBlock links valid) (whole : t.Whole)
    (shown : ShowsTree stubs valid t map) (string : (0 : UInt8) ∉ src)
    (dstString : (0 : UInt8) ∉ dst) (free : t.find dst = none)
    (fine : t.find src = none ∨ t.place dst = none ∨
      ¬ segments src <+: segments dst ∧ LinkSafe t src)
    {retries : Nat} {answer : Except Stop Unit}
    (ran : fsRename links src dst (retries + 1) map = (answer, after)) :
    (∃ number, answer = .error (.errno number) ∧ ShowsTree stubs valid t after) ∨
      ∃ node u, findIn t.view src = some node ∧ ¬ segments src <+: segments dst ∧
        answer = .ok () ∧ ShowsTree stubs valid u after ∧ u.Whole ∧
        u.view = carry (segments src) (segments dst) t.view := by
  rw [fsRename] at ran
  cases linked : links.link map src dst with
  | mk reply middle =>
      rw [linked] at ran
      cases reply with
      | error number =>
          obtain ⟨other, later⟩ :=
            doc.links.link_refuses whole.toCounted shown string dstString free linked
          cases number with
          | exist => exact absurd rfl other
          | _ =>
              cases ran
              exact Or.inl ⟨_, rfl, later⟩
      | ok done =>
          obtain ⟨ino, dir, name, found, target, later⟩ :=
            doc.links.link_adds whole.toCounted shown string dstString free linked
          obtain ⟨ahead, room⟩ : ¬ segments src <+: segments dst ∧ LinkSafe t src := by
            rcases fine with missing | nowhere | safe
            · rw [missing] at found
              cases found
            · rw [nowhere] at target
              cases target
            · exact safe
          have below : segments src ≠ [] := by
            intro top
            rw [top] at ahead
            exact ahead List.nil_prefix
          obtain ⟨old, oldName, source, slot⟩ := Tree.place_of_find found below
          obtain ⟨_, _, _, _, directory, short⟩ := Tree.place_eq_some.mp target
          have absent : t.slot dir name = none := by
            rw [← Tree.find_of_place target, free]
          have not_root : ino ≠ t.root := by
            rintro rfl
            exact whole.top old oldName slot
          have counted := whole.toCounted.addEntry directory short absent not_root
            (whole.used slot) (room ino found)
          obtain ⟨still, stays⟩ := Tree.addEntry_keeps free target found source
          obtain ⟨kind, has⟩ := Option.ne_none_iff_exists'.mp (whole.used slot)
          cases unlinked : links.unlink middle src with
          | mk reply last =>
              obtain ⟨rfl, final⟩ :=
                doc.links.unlink_removes counted later string still stays unlinked
              simp only [unlinked] at ran
              cases ran
              exact Or.inr ⟨(ino, kind), _, Tree.findIn_some.mpr ⟨found, has⟩, ahead, rfl, final,
                whole.move target free source slot ahead,
                whole.toSound.view_move target free source slot ahead⟩

/-- A link less leaves room for one more. -/
theorem LinkSafe.removeEntry (safe : LinkSafe t src) (sound : t.Sound) {dir gone : Nat}
    {name : Name} (slot : t.slot dir name = some gone) :
    LinkSafe (t.removeEntry dir name gone) src := by
  intro ino found
  have room := safe ino (Tree.find_of_removeEntry found)
  rw [Tree.Linkable] at room ⊢
  simp only [Tree.removeEntry]
  split
  · rename_i same
    have some : 0 < (t.nlink gone).toNat := Nat.pos_of_ne_zero fun zero =>
      sound.linked slot (UInt16.toNat_inj.mp zero)
    have one : (1 : UInt16) ≤ t.nlink gone := UInt16.le_iff_toNat_le.mpr some
    rw [UInt16.toNat_sub_of_le _ _ one, ← same]
    exact lt_of_le_of_lt (Nat.succ_le_succ (Nat.sub_le _ _)) room
  · exact room

theorem rename_replace_fine (doc : NamesDocumented stubs allocBlock links valid) (whole : t.Whole)
    (shown : ShowsTree stubs valid t map) (string : (0 : UInt8) ∉ src)
    (dstString : (0 : UInt8) ∉ dst) {gone : Nat} (different : src ≠ dst)
    (below : segments dst ≠ []) (there : t.find dst = some gone)
    (leaf : t.kind gone ≠ some .dir ∨ t.Empty gone)
    (fine : t.find src = none ∨ t.place dst = none ∨ segments src = segments dst ∨
      ¬ segments src <+: segments dst ∧ LinkSafe t src)
    {retries : Nat} {answer : Except Stop Unit}
    (ran : fsRename links src dst (retries + 2) map = (answer, after)) :
    Fine (ShowsTree stubs valid) t (.rename src dst) (answer.mapError .stop, after) := by
  have empty := Tree.empty_of_file leaf
  obtain ⟨dir, name, target, slot⟩ := Tree.place_of_find there below
  obtain ⟨place, free⟩ := whole.toSound.place_free target slot
  have cleared := whole.removeEntry target slot empty
  have shows := whole.toSound.view_removeEntry target slot empty
  obtain ⟨known, known_dst, bare⟩ := whole.toSound.bare there leaf
  have still : (t.removeEntry dir name gone).find src = none ∨
      (t.removeEntry dir name gone).place dst = none ∨
      ¬ segments src <+: segments dst ∧ LinkSafe (t.removeEntry dir name gone) src := by
    rcases fine with missing | nowhere | same | ⟨ahead, room⟩
    · left
      by_contra other
      obtain ⟨ino, found⟩ := Option.ne_none_iff_exists'.mp other
      rw [Tree.find_of_removeEntry found] at missing
      cases missing
    · rw [nowhere] at target
      cases target
    · exact Or.inl (Tree.find_removed target (same ▸ List.prefix_refl _))
    · exact Or.inr (Or.inr ⟨ahead, room.removeEntry whole.toSound slot⟩)
  rw [fsRename] at ran
  cases linked : links.link map src dst with
  | mk reply middle =>
      obtain ⟨rfl, later⟩ := doc.links.link_exist whole.toCounted shown string dstString
        (by rw [there]; simp) linked
      rw [linked] at ran
      cases unlinked : links.unlink middle dst with
      | mk reply last =>
          obtain ⟨rfl, removed⟩ :=
            doc.links.unlink_removes whole.toCounted later dstString there target unlinked
          simp only [if_neg different, unlinked] at ran
          rcases rename_free_fine doc cleared removed string dstString free still ran with
            ⟨number, rfl, final⟩ | ⟨node, u, found, ahead, rfl, final, kept, carried⟩
          · refine ⟨trivial, _, cleared, final, ?_⟩
            rw [shows]
            exact .unlinked known_dst bare
          · refine ⟨trivial, u, kept, final, ?_⟩
            obtain ⟨here, _⟩ :=
              Tree.findIn_some.mp (show findIn _ _ = some (node.1, node.2) from found)
            have apart : ¬ segments dst <+: segments src := by
              intro behind
              rw [Tree.find_removed target behind] at here
              cases here
            rw [carried, shows, carry_prune ahead apart]
            rw [findIn] at found
            split at found
            · rename_i short
              rw [shows, prune_off apart] at found
              have source : findIn t.view src = some node := by
                rw [findIn, if_pos short]
                exact found
              refine .rename source ahead ?_
              intro other same
              rw [known_dst] at same
              cases same
              exact bare
            · cases found

/-- A safe rename ends within two turns of its loop. -/
theorem fsRename_fine (doc : NamesDocumented stubs allocBlock links valid) (whole : t.Whole)
    (shown : ShowsTree stubs valid t map) (string : (0 : UInt8) ∉ src)
    (dstString : (0 : UInt8) ∉ dst) (safe : RenameSafe t src dst)
    {retries : Nat} {answer : Except Stop Unit}
    (ran : fsRename links src dst (retries + 2) map = (answer, after)) :
    Fine (ShowsTree stubs valid) t (.rename src dst) (answer.mapError .stop, after) := by
  have new : t.find dst = none → (t.find src = none ∨ t.place dst = none ∨
      ¬ segments src <+: segments dst ∧ LinkSafe t src) →
      Fine (ShowsTree stubs valid) t (.rename src dst) (answer.mapError .stop, after) := by
    intro free fine
    rcases rename_free_fine doc whole shown string dstString free fine ran with
      ⟨number, rfl, later⟩ | ⟨node, u, found, ahead, rfl, later, kept, shows⟩
    · exact .refused whole later trivial fun _ => whole.toSound.findIn_view.mpr free
    · refine ⟨trivial, u, kept, later, ?_⟩
      rw [shows]
      refine .rename found ahead ?_
      intro gone there
      rw [whole.toSound.findIn_view.mpr free] at there
      cases there
  by_cases free : t.find dst = none
  · rcases safe with same | top | ⟨_, fine⟩
    · exact new free (Or.inl (same ▸ free))
    · exact new free (Or.inr (Or.inl (Tree.place_top top)))
    · apply new free
      rcases fine with missing | nowhere | equal | safe
      · exact Or.inl missing
      · exact Or.inr (Or.inl nowhere)
      · exact (Tree.free_alike free equal).imp_right Or.inl
      · exact Or.inr (Or.inr safe)
  · obtain ⟨gone, there⟩ := Option.ne_none_iff_exists'.mp free
    by_cases top : segments dst = [] ∨ src = dst
    · rw [fsRename] at ran
      cases linked : links.link map src dst with
      | mk reply middle =>
          obtain ⟨rfl, later⟩ := doc.links.link_exist whole.toCounted shown string dstString free
            linked
          rw [linked] at ran
          by_cases same : src = dst
          · simp only [if_pos same] at ran
            cases ran
            exact ⟨trivial, t, whole, later, same ▸ .same⟩
          · simp only [if_neg same] at ran
            cases unlinked : links.unlink middle dst with
            | mk reply last =>
                obtain ⟨number, rfl, final⟩ := doc.links.unlink_refuses whole.toCounted later
                  dstString (Or.inr (top.resolve_right same)) unlinked
                rw [unlinked] at ran
                cases ran
                exact .refused whole final trivial fun other => absurd other same
    · obtain ⟨below, different⟩ := not_or.mp top
      obtain ⟨leaf, fine⟩ := (safe.resolve_left different).resolve_left below
      exact rename_replace_fine doc whole shown string dstString different below there
        (leaf gone there) fine ran

/-- More turns change nothing. -/
theorem fsRename_settled {turns : Nat}
    (done : (fsRename links src dst turns map).1 ≠ .error .running) (more : Nat) :
    fsRename links src dst (turns + more) map = fsRename links src dst turns map := by
  induction turns generalizing map with
  | zero => exact absurd rfl done
  | succ turns ih =>
      rw [Nat.add_right_comm, fsRename, fsRename]
      rw [fsRename] at done
      cases linked : links.link map src dst with
      | mk reply middle =>
          rw [linked] at done
          cases reply with
          | ok _ => rfl
          | error number =>
              cases number with
              | exist =>
                  simp only at done ⊢
                  split
                  · rfl
                  · rename_i different
                    rw [if_neg different] at done
                    cases unlinked : links.unlink middle dst with
                    | mk reply last =>
                        rw [unlinked] at done
                        cases reply with
                        | error number => rfl
                        | ok _ => exact ih done
              | _ => rfl

/-- A safe request is answered and keeps a whole tree. -/
theorem serveName_fine (doc : NamesDocumented stubs allocBlock links valid) (whole : t.Whole)
    (shown : ShowsTree stubs valid t map) (turns : Nat)
    (strings : ∀ path ∈ request.strings, (0 : UInt8) ∉ path) (safe : Safe t request) :
    Fine (ShowsTree stubs valid) t request
      (serveName stubs allocBlock links caller (turns + 2) map request) := by
  cases request with
  | mknod path mode rdev =>
      exact fsMknod_fine doc whole shown (strings path (List.mem_singleton_self _))
  | mkdir path mode =>
      exact fsMkdir_fine doc whole shown (strings path (List.mem_singleton_self _))
  | symlink target path =>
      exact fsSymlink_fine doc whole shown (strings path (List.mem_pair.mpr (Or.inr rfl)))
  | unlink path => exact fsUnlink_fine doc whole shown (strings path (List.mem_singleton_self _))
  | rmdir path => exact fsRmdir_fine doc whole shown (strings path (List.mem_singleton_self _))
  | link src dst =>
      exact fsLink_fine doc whole shown (strings src (List.mem_pair.mpr (Or.inl rfl)))
        (strings dst (List.mem_pair.mpr (Or.inr rfl))) safe
  | rename src dst =>
      exact fsRename_fine doc whole shown (strings src (List.mem_pair.mpr (Or.inl rfl)))
        (strings dst (List.mem_pair.mpr (Or.inr rfl))) safe rfl

theorem serveName_settled {turns : Nat}
    (done : (serveName stubs allocBlock links caller turns map request).1 ≠
      .error (.stop .running)) (more : Nat) :
    serveName stubs allocBlock links caller (turns + more) map request =
      serveName stubs allocBlock links caller turns map request := by
  cases request with
  | rename src dst =>
      have ended : (fsRename links src dst turns map).1 ≠ .error .running := by
        intro running
        apply done
        simp only [serveName, running]
        rfl
      simp only [serveName, fsRename_settled ended]
  | _ => rfl

end Requests

end OsLabs.Fs
