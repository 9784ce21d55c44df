import OsLabs.Fs.Offsets
import OsLabs.Fs.ShownTree

/-!
# Paths of an image that shows a tree

`dir_lookup`, `walk_path` and `inode_open` find in the image what the tree has, and leave an
image that shows the same tree.
-/

set_option autoImplicit false

namespace OsLabs.Fs

open OsLabs.ByteMemory

section Paths

variable {stubs : Nat → InodeStubs} {t : Tree} {map after : Memory}
  {valid : (Nat → Prop) → Memory → Prop} {allocBlock : Memory → Except Errno Nat × Memory}
  {live : Nat → Prop} {dir ino : Nat} {name : Name} {path : List UInt8}

/-! ## dir_lookup -/

/-- The entry of the name stands in a block that is there. -/
def EntryFor (file : InodeStubs) (map : Memory) (name : Name) (d : Nat) : Prop :=
  ∃ k, d = entryAddress file map k ∧ nameOf (byteAt file map) k = name ∧
    blockAt file map (k / blkDirents) ≠ none

inductive LooksUp (t : Tree) (file : InodeStubs) (dir : Nat) (name : Name) (after : Memory) :
    Except Stop (Nat × Nat) → Prop
  | found {d ino : Nat} (slot : t.slot dir name = some ino) (entry : EntryFor file after name d) :
      LooksUp t file dir name after (.ok (d, ino))
  | missing {number : Errno} (absent : t.slot dir name = none) :
      LooksUp t file dir name after (.error (.errno number))

theorem nameMatches_tests (short : name.length < nameMax) (there : live dir) :
    Tests stubs live dir map (nameMatches name)
      fun k => NameAt (byteAt (stubs dir) map) k name := by
  intro after n blk j quiet place inside
  have present : blockAt (stubs dir) after n ≠ none := by
    rw [place]
    exact Option.some_ne_none _
  rw [← dirBlock_eq place, nameMatches_eq short present inside, quiet.bytes there]

theorem ShowsDir.free_from {slot : Name → Option Nat} (shows : ShowsDir stubs dir map slot)
    {n k : Nat} (last : iSizeOf dir map ≤ n * blkSize ∨ blockAt (stubs dir) map n = none)
    (beyond : n * blkDirents ≤ k) : nameOf (byteAt (stubs dir) map) k = [] := by
  have far : n * blkSize ≤ k * direntSize + dName := by
    simp only [blkDirents, blkSize, direntSize] at *
    omega
  apply nameOf_nil.mpr
  rcases last with size | absent
  · exact shows.behind _ (size.trans far)
  · exact shows.ends n absent _ far

theorem ShowsDir.size_eq {slot : Name → Option Nat} (shows : ShowsDir stubs dir map slot) :
    iSizeOf dir map / blkSize * blkSize = iSizeOf dir map :=
  Nat.div_mul_cancel (Nat.dvd_of_mod_eq_zero shows.whole)

theorem entryInum_eq {file : InodeStubs} {k : Nat}
    (present : blockAt file map (k / blkDirents) ≠ none) :
    loadLE map (entryAddress file map k + dInum) 4 = entryInum (byteAt file map) k := by
  apply (loadLE_copy _).symm
  intro i below
  rw [Nat.add_assoc, Nat.add_assoc]
  exact entryAddress_byte present (by simp only [dInum, direntSize]; omega)

theorem ShowsTree.lookup (doc : DiskDocumented stubs allocBlock valid)
    (shows : ShowsTree stubs valid t map) (directory : t.kind dir = some .dir) (fits : Element name)
    (short : name.length < nameMax) {answer : Except Stop (Nat × Nat)}
    (ran : dirLookup (stubs dir) dir map name = (answer, after)) :
    ShowsTree stubs valid t after ∧ LooksUp t (stubs dir) dir name after answer := by
  have there : t.InUse dir := by simp [Tree.InUse, directory]
  have before := shows.dirs directory
  have other : ∀ k, NameAt (byteAt (stubs dir) map) k name = false →
      nameOf (byteAt (stubs dir) map) k ≠ name := by
    intro k differs same
    rw [(nameAt_iff fits.string short).mpr same] at differs
    cases differs
  rw [dirLookup, if_neg (not_not.mpr before.whole)] at ran
  cases scanned : scanBlocks (stubs dir) (nameMatches name) (iSizeOf dir map / blkSize) 0 map with
  | mk reply last =>
      obtain ⟨lastValid, quiet, ends⟩ := doc.scan there (nameMatches_tests short there)
        shows.valid Quiet.refl (by simp) (by simp) scanned
      have later := shows.quiet lastValid quiet
      have lists := (later.dirs directory).lists
      rw [Nat.zero_add] at ends
      rw [scanned] at ran
      cases ends with
      | @found k here inside present =>
          have named : nameOf (byteAt (stubs dir) last) k = name := by
            rw [quiet.bytes there]
            exact (nameAt_iff fits.string short).mp here
          have some : nameOf (byteAt (stubs dir) last) k ≠ [] := named ▸ fits.some
          obtain ⟨ino, leads⟩ := Option.ne_none_iff_exists'.mp (lists.leads k some)
          have slot := lists.slot_at some
          rw [named, leads] at slot
          have block := present _ (Nat.le_refl _)
          simp only [entryInum_eq block] at ran
          cases address : diskblock2memaddr last (entryInum (byteAt (stubs dir) last) k) with
          | error stopped =>
              rw [address] at leads
              cases leads
          | ok found =>
              rw [address] at leads ran
              cases leads
              cases ran
              exact ⟨later, .found slot ⟨k, rfl, named, block⟩⟩
      | missing free present =>
          cases ran
          refine ⟨later, .missing (before.lists.slot_none ?_)⟩
          intro k
          by_cases inside : k < iSizeOf dir map / blkSize * blkDirents
          · exact other k (free k inside)
          · rw [before.free_from (Or.inl before.size_eq.ge) (not_lt.mp inside)]
            exact fits.some.symm
      | @refused n number absent free _ =>
          cases ran
          refine ⟨later, .missing (before.lists.slot_none ?_)⟩
          intro k
          by_cases inside : k < n * blkDirents
          · exact other k (free k inside)
          · rw [before.free_from (Or.inr absent) (not_lt.mp inside)]
            exact fits.some.symm

/-! ## walk_path -/

/-- How a walk over `names` ends that starts at the end of `front`. -/
inductive Walks (stubs : Nat → InodeStubs) (t : Tree) (front names : List Name) (cur : Cursor)
    (out : Outputs) (after : Memory) : Except Stop Unit → Outputs → Prop
  | here (done : names = []) :
      Walks stubs t front names cur out after (.ok ())
        ⟨cur.dir, some cur.ino, cur.dent, out.lastelem⟩
  | found {inner : List Name} {name : Name} {dir ino d : Nat} {lastelem : List UInt8}
      (whole : front ++ names = inner ++ [name]) (resolved : t.resolve inner = some dir)
      (slot : t.slot dir name = some ino) (entry : EntryFor (stubs dir) after name d) :
      Walks stubs t front names cur out after (.ok ()) ⟨some dir, some ino, some d, lastelem⟩
  | missing {inner : List Name} {name : Name} {dir : Nat} (whole : front ++ names = inner ++ [name])
      (resolved : t.resolve inner = some dir) (directory : t.kind dir = some .dir)
      (short : name.length < nameMax) (absent : t.slot dir name = none) :
      Walks stubs t front names cur out after (.error (.errno .noent))
        ⟨some dir, none, none, name⟩
  | lost {number : Errno} (absent : t.resolve (front ++ names) = none) :
      Walks stubs t front names cur out after (.error (.errno number)) out

theorem Tree.resolve_cut {front rest : List Name} {name : Name}
    (here : t.resolve front = some dir) (absent : t.slot dir name = none) :
    t.resolve (front ++ name :: rest) = none := by
  rw [Tree.resolve_append, here]
  simp [RadixTree.descend, absent]

theorem ShowsTree.isDir_iff (shows : ShowsTree stubs valid t map) (there : t.InUse ino) :
    isDir map ino = true ↔ t.kind ino = some .dir := by
  obtain ⟨kind, has⟩ := Option.ne_none_iff_exists'.mp there
  rw [shows.kind has, has, Option.some.injEq]

theorem walkLoop_nil {fuel : Nat} {cur : Cursor} {out : Outputs} :
    walkLoop stubs fuel map [] cur out =
      (.ok (), ⟨cur.dir, some cur.ino, cur.dent, out.lastelem⟩, map) := by
  cases fuel <;> rfl

theorem ShowsTree.walkLoop (doc : DiskDocumented stubs allocBlock valid) (counted : t.Counted)
    {fuel : Nat} (front : List Name) {cur : Cursor} {out outputs : Outputs}
    {answer : Except Stop Unit} (shows : ShowsTree stubs valid t map) (enough : path.length ≤ fuel)
    (slashless : skipSlash path = path) (fits : ∀ name ∈ segments path, Element name)
    (here : t.resolve front = some cur.ino)
    (ran : walkLoop stubs fuel map path cur out = (answer, outputs, after)) :
    ShowsTree stubs valid t after ∧
      Walks stubs t front (segments path) cur out after answer outputs := by
  induction fuel generalizing path cur front map with
  | zero =>
      have empty : path = [] := List.length_eq_zero_iff.mp (Nat.le_zero.mp enough)
      subst empty
      cases ran
      exact ⟨shows, .here segments_nil⟩
  | succ fuel ih =>
      cases path with
      | nil =>
          cases ran
          exact ⟨shows, .here segments_nil⟩
      | cons byte rest =>
          have other := skipSlash_fixed slashless
          obtain ⟨name, nameEq⟩ : ∃ name, (byte :: rest).takeWhile (· ≠ slash) = name := ⟨_, rfl⟩
          obtain ⟨path, pathEq⟩ : ∃ path,
              skipSlash ((byte :: rest).dropWhile (· ≠ slash)) = path := ⟨_, rfl⟩
          have shorter : path.length ≤ fuel := by
            rw [← pathEq]
            exact (scan_shorter other).trans (Nat.le_of_succ_le_succ enough)
          have again : skipSlash path = path := by
            rw [← pathEq, skipSlash_skipSlash]
          rw [segments_scan other, nameEq, pathEq] at fits ⊢
          have nameFits := fits name (List.mem_cons_self ..)
          have restFits : ∀ later ∈ segments path, Element later :=
            fun later member => fits later (List.mem_cons_of_mem _ member)
          simp only [Fs.walkLoop, nameEq, pathEq] at ran
          split at ran
          · next long =>
              cases ran
              refine ⟨shows, .lost (Tree.resolve_cut here ?_)⟩
              rw [Tree.slot, if_neg (fun ok => not_lt.mpr long ok.2)]
          · next short =>
              have short := not_le.mp short
              have kindIff := shows.isDir_iff (counted.used_resolve here)
              split at ran
              · next file =>
                  cases ran
                  refine ⟨shows, .lost (Tree.resolve_cut here ?_)⟩
                  rw [Tree.slot, if_neg (fun ok => file (kindIff.mpr ok.1))]
              · next directory =>
                  have directory := kindIff.mp (not_not.mp directory)
                  cases looked : dirLookup (stubs cur.ino) cur.ino map name with
                  | mk reply middle =>
                      obtain ⟨later, looks⟩ := shows.lookup doc directory nameFits short looked
                      rw [looked] at ran
                      cases looks with
                      | @found d ino slot entry =>
                          have deeper : t.resolve (front ++ [name]) = some ino :=
                            (Tree.resolve_snoc here name).trans slot
                          obtain ⟨last, walks⟩ := ih (front ++ [name]) later shorter again restFits
                            deeper ran
                          refine ⟨last, ?_⟩
                          have whole : front ++ name :: segments path =
                              front ++ [name] ++ segments path := List.append_cons ..
                          cases walks with
                          | here done =>
                              -- the loop ends with the entry that it has just found
                              obtain rfl := (segments_eq_nil again).mp done
                              simp only [walkLoop_nil] at ran
                              cases ran
                              rw [done]
                              exact .found rfl here slot entry
                          | found own resolved slot entry =>
                              exact .found (whole.trans own) resolved slot entry
                          | missing own resolved directory short absent =>
                              exact .missing (whole.trans own) resolved directory short absent
                          | lost absent => exact .lost (whole ▸ absent)
                      | @missing number absent =>
                          simp only at ran
                          split at ran
                          · next final =>
                              obtain ⟨noent, done⟩ := final
                              cases noent
                              cases ran
                              rw [done, segments_nil]
                              exact ⟨later, .missing rfl here directory short absent⟩
                          · cases ran
                            exact ⟨later, .lost (Tree.resolve_cut here absent)⟩

/-- What `walk_path` has found in a tree. -/
inductive WalkEnds (stubs : Nat → InodeStubs) (t : Tree) (path : List UInt8) (after : Memory) :
    Except Stop Unit → Outputs → Prop
  | found {ino : Nat} {outputs : Outputs} (found : t.find path = some ino)
      (pino : outputs.pino = some ino) (top : segments path = [] → outputs.pdent = none)
      (entry : segments path ≠ [] → ∃ dir name d, t.place path = some (dir, name) ∧
        outputs.pdent = some d ∧ EntryFor (stubs dir) after name d) :
      WalkEnds stubs t path after (.ok ()) outputs
  | missing {number : Errno} {outputs : Outputs} (free : t.find path = none)
      (place : number = .noent → ∀ dir, outputs.pdir = some dir →
        t.place path = some (dir, outputs.lastelem)) :
      WalkEnds stubs t path after (.error (.errno number)) outputs

theorem ShowsTree.walk (doc : DiskDocumented stubs allocBlock valid) (counted : t.Counted)
    (shows : ShowsTree stubs valid t map) (string : (0 : UInt8) ∉ path) {out outputs : Outputs}
    {answer : Except Stop Unit} (ran : walkPath stubs map path out = (answer, outputs, after)) :
    ShowsTree stubs valid t after ∧ WalkEnds stubs t path after answer outputs := by
  rw [walkPath] at ran
  split at ran
  · next long =>
      cases ran
      refine ⟨shows, .missing ?_ ?_⟩
      · rw [Tree.find, if_neg (not_lt.mpr long)]
      · intro impossible
        cases impossible
  · next short =>
      have short := not_le.mp short
      rw [shows.root] at ran
      have fits : ∀ name ∈ segments (skipSlash path), Element name := by
        rw [segments_skipSlash]
        exact segments_element string
      obtain ⟨later, walks⟩ := ShowsTree.walkLoop doc counted [] shows (skipSlash_length path)
        (skipSlash_skipSlash path) fits rfl ran
      rw [segments_skipSlash] at walks
      refine ⟨later, ?_⟩
      cases walks with
      | here done =>
          refine .found ?_ rfl (fun _ => rfl) (fun some => absurd done some)
          rw [Tree.find, if_pos short, done]
          rfl
      | @found inner name dir ino d _ whole resolved slot entry =>
          rw [List.nil_append] at whole
          have placed : t.place path = some (dir, name) := Tree.place_eq_some.mpr
            ⟨inner, whole, resolved, short, Tree.slot_dir slot, Tree.slot_short slot⟩
          exact .found ((Tree.find_of_place placed).trans slot) rfl
            (fun top => by simp [top] at whole) fun _ => ⟨dir, name, d, placed, rfl, entry⟩
      | @missing inner name dir whole resolved directory nameShort absent =>
          rw [List.nil_append] at whole
          have placed : t.place path = some (dir, name) := Tree.place_eq_some.mpr
            ⟨inner, whole, resolved, short, directory, nameShort⟩
          refine .missing ((Tree.find_of_place placed).trans absent) ?_
          intro _ other same
          cases same
          exact placed
      | lost absent =>
          refine .missing ?_ ?_
          · rw [Tree.find, if_pos short]
            exact absent
          · intro _ dir impossible
            cases impossible

theorem ShowsTree.opens (doc : DiskDocumented stubs allocBlock valid) (counted : t.Counted)
    (shows : ShowsTree stubs valid t map) (string : (0 : UInt8) ∉ path)
    {answer : Except Stop (Option Nat)} (ran : inodeOpen stubs map path = (answer, after)) :
    ShowsTree stubs valid t after ∧ ((∃ ino, answer = .ok (some ino) ∧ t.find path = some ino) ∨
      ∃ number, answer = .error (.errno number) ∧ t.find path = none) := by
  rw [inodeOpen] at ran
  cases walked : walkPath stubs map path ⟨none, none, none, []⟩ with
  | mk reply rest =>
      obtain ⟨outputs, last⟩ := rest
      obtain ⟨later, ends⟩ := shows.walk doc counted string walked
      rw [walked] at ran
      cases ends with
      | @found ino _ found pino _ _ =>
          cases ran
          exact ⟨later, Or.inl ⟨ino, congrArg Except.ok pino, found⟩⟩
      | @missing number _ free _ =>
          cases ran
          exact ⟨later, Or.inr ⟨number, rfl, free⟩⟩

/-- `inode_open` opens what the tree has under the path. -/
theorem ShowsTree.opens_iff (doc : DiskDocumented stubs allocBlock valid) (counted : t.Counted)
    (shows : ShowsTree stubs valid t map) (string : (0 : UInt8) ∉ path) :
    Opens stubs map path ino ↔ t.find path = some ino := by
  rw [Opens]
  cases ran : inodeOpen stubs map path with
  | mk answer after =>
      rcases (shows.opens doc counted string ran).2 with ⟨other, rfl, found⟩ |
        ⟨number, rfl, free⟩
      · rw [found]
        simp
      · rw [free]
        simp

end Paths

end OsLabs.Fs
