import OsLabs.Fs.Create
import OsLabs.Fs.ShownPath
import Mathlib.Data.Finset.Card

/-!
# Changes of an image that shows a tree

What a free entry, a new name, a new inode and a new header do to the tree.
-/

set_option autoImplicit false

namespace OsLabs.Fs

open OsLabs.ByteMemory

section Changes

variable {stubs : Nat → InodeStubs} {t u : Tree} {map after : Memory}
  {valid : (Nat → Prop) → Memory → Prop} {allocBlock : Memory → Except Errno Nat × Memory}
  {live : Nat → Prop} {dir ino number : Nat} {name : Name} {kind : Kind}

theorem ShowsTree.within (shows : ShowsTree stubs valid t map) (afterValid : valid t.InUse after)
    (image : SameImage stubs t.InUse (· = dir) map after) (root : u.root = t.root)
    (kinds : u.kind = t.kind) (nlinks : u.nlink = t.nlink)
    (others : ∀ other, other ≠ dir → ∀ name, u.slot other name = t.slot other name)
    (here : t.kind dir = some .dir → ShowsDir stubs dir after (u.slot dir)) :
    ShowsTree stubs valid u after where
  valid := by
    rw [show u.InUse = t.InUse from funext fun ino => by rw [Tree.InUse, kinds, ← Tree.InUse]]
    exact afterValid
  few := by
    rw [image.nblocks]
    exact shows.few
  root := by
    rw [image.root, diskblock2memaddr_congr image.nblocks, root]
    exact shows.root
  kind := fun {ino kind} has => by
    rw [kinds] at has
    rw [image.isDir (show t.InUse ino by simp [Tree.InUse, has])]
    exact shows.kind has
  nlink := fun {ino} there => by
    have before : t.InUse ino := by rwa [Tree.InUse, kinds] at there
    rw [nlinks, image.nlink before]
    exact shows.nlink before
  dirs := fun {other} directory => by
    rw [kinds] at directory
    by_cases same : other = dir
    · subst same
      exact here directory
    · have there : t.InUse other := by simp [Tree.InUse, directory]
      rw [show u.slot other = t.slot other from funext (others other same)]
      exact (shows.dirs directory).congr image.nblocks (image.size there same)
        (image.byteAt there same) fun n _ => (image.blocks there same n).1

/-! ## dir_alloc_dirent -/

theorem blockAt_number {file : InodeStubs} {n blk : Nat} (place : blockAt file map n = some blk) :
    ∃ number, diskblock2memaddr map number = .ok blk := by
  rw [blockAt] at place
  split at place
  · split at place
    · cases place
    · next slot _ _ =>
        refine ⟨loadLE map slot 4, ?_⟩
        cases address : diskblock2memaddr map (loadLE map slot 4) with
        | error stopped =>
            rw [address] at place
            cases place
        | ok found =>
            rw [address] at place
            cases place
            rfl
  · cases place

theorem ShowsTree.small (doc : DiskDocumented stubs allocBlock valid)
    (shows : ShowsTree stubs valid t map) (there : t.InUse dir)
    (present : ∀ n < iSizeOf dir map / blkSize, blockAt (stubs dir) map n ≠ none) :
    iSizeOf dir map / blkSize + 1 < 2 ^ 20 := by
  have few := shows.few
  have numbered : ∀ n, ∃ number, n < iSizeOf dir map / blkSize →
      blockAt (stubs dir) map n = some (number * blkSize) ∧ number ≠ 0 ∧
        number < loadLE map sNblocks 4 := by
    intro n
    by_cases below : n < iSizeOf dir map / blkSize
    · obtain ⟨blk, place⟩ := Option.ne_none_iff_exists'.mp (present n below)
      obtain ⟨number, address⟩ := blockAt_number place
      obtain ⟨some, inside, blkEq⟩ := diskblock2memaddr_eq_ok.mp address
      refine ⟨number, fun _ => ⟨?_, some, inside⟩⟩
      rw [place, blkEq, Nat.mod_eq_of_lt (by simp only [blkSize] at *; omega)]
    · exact ⟨0, fun inside => absurd inside below⟩
  choose number fits using numbered
  have inside : Set.MapsTo number (Finset.range (iSizeOf dir map / blkSize))
      (Finset.Ico 1 (loadLE map sNblocks 4)) := by
    intro n member
    obtain ⟨_, some, below⟩ := fits n (Finset.mem_range.mp member)
    exact Finset.mem_Ico.mpr ⟨Nat.pos_of_ne_zero some, below⟩
  have apart : Set.InjOn number (Finset.range (iSizeOf dir map / blkSize)) := by
    intro n nMember m mMember same
    obtain ⟨place, _⟩ := fits n (Finset.mem_range.mp nMember)
    obtain ⟨other, _⟩ := fits m (Finset.mem_range.mp mMember)
    have holds : ∀ k, blockAt (stubs dir) map k = some (number n * blkSize) →
        (Owner.block dir k).Holds stubs t.InUse map (number n * blkSize) := fun k place =>
      ⟨there, _, place, Nat.le_refl _, Nat.lt_add_of_pos_right (by decide)⟩
    exact (Owner.block.inj ((doc.image t.InUse).once shows.valid (holds n place)
      (holds m (same ▸ other)))).2
  have count := Finset.card_le_card_of_injOn number inside apart
  rw [Finset.card_range, Nat.card_Ico] at count
  have positive : 0 < loadLE map sNblocks 4 := by
    obtain ⟨_, below, _⟩ := diskblock2memaddr_eq_ok.mp shows.root
    omega
  exact lt_of_le_of_lt (show _ ≤ loadLE map sNblocks 4 by omega) few

/-- An entry that can be filled. -/
structure FreeEntry (file : InodeStubs) (dir : Nat) (map : Memory) (k : Nat) : Prop where
  free : nameOf (byteAt file map) k = []
  inside : k / blkDirents < iSizeOf dir map / blkSize
  present : ∀ n ≤ k / blkDirents, blockAt file map n ≠ none

theorem entryFree_tests (there : live dir) : Tests stubs live dir map entryFree
    fun k => byteAt (stubs dir) map (k * direntSize + dName) == 0 := by
  intro after n blk j quiet place inside
  have present : blockAt (stubs dir) after n ≠ none := by
    rw [place]
    exact Option.some_ne_none _
  rw [← dirBlock_eq place, entryFree_eq present inside, quiet.bytes there]

theorem ShowsTree.extend (doc : DiskDocumented stubs allocBlock valid)
    (shows : ShowsTree stubs valid t map) (directory : t.kind dir = some .dir)
    (present : ∀ n < iSizeOf dir map / blkSize, blockAt (stubs dir) map n ≠ none)
    {answer : Except Errno Nat} (ran : (stubs dir).getBlock
      (storeLE map (dir + iSize) 4 ((iSizeOf dir map + blkSize) % 2 ^ 32))
      (iSizeOf dir map / blkSize) = (answer, after)) :
    ShowsTree stubs valid t after ∧ ∀ blk, answer = .ok blk → ∃ k,
      blk = entryAddress (stubs dir) after k ∧ FreeEntry (stubs dir) dir after k := by
  have there : t.InUse dir := by simp [Tree.InUse, directory]
  have before := shows.dirs directory
  have bound := before.size_eq
  have small := shows.small doc there present
  obtain ⟨nblock, blocks⟩ : ∃ nblock, iSizeOf dir map / blkSize = nblock := ⟨_, rfl⟩
  rw [blocks] at bound present ran small
  have larger : iSizeOf dir map + blkSize < 2 ^ 32 := by
    simp only [blkSize] at *
    omega
  rw [Nat.mod_eq_of_lt larger] at ran
  obtain ⟨grown, grownEq⟩ : ∃ grown,
      storeLE map (dir + iSize) 4 (iSizeOf dir map + blkSize) = grown := ⟨_, rfl⟩
  rw [grownEq] at ran
  obtain ⟨stays, image, size, kept⟩ := (doc.image t.InUse).write_size shows.valid there larger
    grownEq.symm
  have bytes : byteAt (stubs dir) grown = byteAt (stubs dir) map := by
    funext i
    exact (kept (i / blkSize)).byteAt
  have onward : ShowsTree stubs valid t grown := by
    refine shows.within stays image rfl rfl rfl (fun _ _ _ => rfl) fun _ => ?_
    apply before.grow image.nblocks _ (by omega) bytes fun n _ => (kept n).1
    rw [size, Nat.add_mod_right]
    exact before.whole
  obtain ⟨afterValid, quiet, ends⟩ := doc.get stays there ran
  refine ⟨onward.quiet afterValid quiet, ?_⟩
  rintro blk rfl
  rcases ends with ⟨_, same, place⟩ | ⟨_, impossible, _⟩
  · cases same
    have first : nblock * blkDirents / blkDirents = nblock := Nat.mul_div_cancel _ (by decide)
    refine ⟨nblock * blkDirents, ?_, ?_, ?_, ?_⟩
    · rw [entryAddress, first, dirBlock_eq place, Nat.mul_mod_left, Nat.zero_mul, Nat.add_zero]
    · rw [quiet.bytes there, bytes]
      exact before.free_from (Or.inl bound.ge) (Nat.le_refl _)
    · rw [first, quiet.size there, size, ← bound, ← Nat.succ_mul,
        Nat.mul_div_cancel _ (by decide)]
      exact Nat.lt_succ_self _
    · rw [first]
      intro n upto
      by_cases last : n = nblock
      · rw [last, place]
        exact Option.some_ne_none _
      · apply quiet.present there
        rw [(kept n).1]
        exact present n (by omega)
  · cases impossible

theorem ShowsTree.allocDirent (doc : DiskDocumented stubs allocBlock valid)
    (shows : ShowsTree stubs valid t map) (directory : t.kind dir = some .dir)
    {answer : Except Stop Nat} (ran : dirAllocDirent (stubs dir) dir map = (answer, after)) :
    ShowsTree stubs valid t after ∧
      ((∃ k, answer = .ok (entryAddress (stubs dir) after k) ∧
        FreeEntry (stubs dir) dir after k) ∨ ∃ number, answer = .error (.errno number)) := by
  have there : t.InUse dir := by simp [Tree.InUse, directory]
  have before := shows.dirs directory
  rw [dirAllocDirent, if_neg (not_not.mpr before.whole)] at ran
  simp only at ran
  cases scanned : scanBlocks (stubs dir) entryFree (iSizeOf dir map / blkSize) 0 map with
  | mk reply last =>
      obtain ⟨lastValid, quiet, ends⟩ := doc.scan there (entryFree_tests there)
        shows.valid Quiet.refl (by simp) (by simp) scanned
      have later := shows.quiet lastValid quiet
      rw [Nat.zero_add] at ends
      rw [scanned] at ran
      cases ends with
      | @found k here inside present =>
          cases ran
          refine ⟨later, Or.inl ⟨k, rfl, ?_, ?_, present⟩⟩
          · rw [nameOf_nil, quiet.bytes there]
            simpa using here
          · rw [quiet.size there]
            exact inside
      | missing free present =>
          simp only [← quiet.size there] at ran present
          cases got : (stubs dir).getBlock
              (storeLE last (dir + iSize) 4 ((iSizeOf dir last + blkSize) % 2 ^ 32))
              (iSizeOf dir last / blkSize) with
          | mk reply final =>
              obtain ⟨shown, fills⟩ := later.extend doc directory present got
              rw [got] at ran
              cases reply with
              | error number =>
                  cases ran
                  exact ⟨shown, Or.inr ⟨number, rfl⟩⟩
              | ok blk =>
                  cases ran
                  obtain ⟨k, rfl, free⟩ := fills blk rfl
                  exact ⟨shown, Or.inl ⟨k, rfl, free⟩⟩
      | @refused n number absent free _ =>
          cases ran
          exact ⟨later, Or.inr ⟨_, rfl⟩⟩

/-! ## Names -/

theorem Tree.slot_enter (directory : t.kind dir = some .dir) (short : name.length < nameMax)
    (other : Nat) (later : Name) : (t.enter dir name ino).slot other later =
      if other = dir ∧ later = name then some ino else t.slot other later := by
  simp only [Tree.slot, Tree.enter, RadixTree.update]
  by_cases here : other = dir ∧ later = name
  · rw [here.1, here.2]
    simp [directory, short]
  · simp only [if_neg here]

theorem ShowsTree.setEntry (doc : DiskDocumented stubs allocBlock valid)
    (shows : ShowsTree stubs valid t map) (directory : t.kind dir = some .dir) {k : Nat}
    (entry : FreeEntry (stubs dir) dir map k) (fits : Element name)
    (short : name.length < nameMax) (absent : t.slot dir name = none)
    (leads : diskblock2memaddr map number = .ok ino)
    (stored : after = setDirent map (entryAddress (stubs dir) map k) name number) :
    ShowsTree stubs valid (t.enter dir name ino) after ∧
      SameImage stubs t.InUse (· = dir) map after := by
  have there : t.InUse dir := by simp [Tree.InUse, directory]
  have before := shows.dirs directory
  obtain ⟨stays, set⟩ := (doc.image t.InUse).set_entry shows.valid there
    (entry.present _ (Nat.le_refl _)) short fits.string (diskblock2memaddr_lt leads) stored
  have slots : ∀ other later, (t.enter dir name ino).slot other later =
      if other = dir ∧ later = name then some ino else t.slot other later :=
    Tree.slot_enter directory short
  have address : (fun number => (diskblock2memaddr after number).toOption) =
      fun number => (diskblock2memaddr map number).toOption := by
    funext number
    rw [diskblock2memaddr_congr set.image.nblocks]
  have inside := entry.inside
  have bound := before.size_eq
  refine ⟨shows.within stays set.image rfl rfl rfl ?_ fun _ => ⟨?_, ?_, ?_, ?_⟩, set.image⟩
  · intro other apart later
    rw [slots, if_neg (fun here => apart here.1)]
  · rw [set.size]
    exact before.whole
  · intro i beyond
    rw [set.size] at beyond
    rw [set.others]
    · exact before.behind i beyond
    · simp only [blkDirents, blkSize, direntSize] at *
      omega
  · intro n gone i beyond
    rw [set.places] at gone
    have later : k / blkDirents < n := by
      by_contra upto
      exact entry.present n (not_lt.mp upto) gone
    rw [set.others]
    · exact before.ends n gone i beyond
    · simp only [blkDirents, blkSize, direntSize] at *
      omega
  · rw [address]
    have entered := before.lists.enter entry.free absent fits
      (fun j other => entry_congr fun x within => set.others _ (by
        simp only [direntSize] at *
        omega))
      set.named set.terminated (by rw [set.inum, leads]; rfl)
    apply entered.congr_slot
    intro later
    rw [slots]
    simp only [true_and]

theorem ShowsTree.clearEntry (doc : DiskDocumented stubs allocBlock valid)
    (shows : ShowsTree stubs valid t map) (directory : t.kind dir = some .dir) {k : Nat}
    (named : nameOf (byteAt (stubs dir) map) k = name) (some : name ≠ [])
    (present : blockAt (stubs dir) map (k / blkDirents) ≠ none)
    (stored : after = fill map (entryAddress (stubs dir) map k) direntSize 0) :
    ShowsTree stubs valid (t.leave dir name) after := by
  have there : t.InUse dir := by simp [Tree.InUse, directory]
  have before := shows.dirs directory
  have outside : ∀ x, x < entryAddress (stubs dir) map k ∨
      entryAddress (stubs dir) map k + direntSize ≤ x → after x = map x := by
    intro x apart
    rw [stored, fill, if_neg (by omega)]
  obtain ⟨stays, written, bytes⟩ :=
    (doc.image t.InUse).write_entry shows.valid there present outside
  have zero : ∀ x < direntSize, byteAt (stubs dir) after (k * direntSize + x) = 0 := by
    intro x within
    rw [bytes x within, stored, fill, if_pos (by omega)]
  -- a byte is as before, or zero
  have kept : ∀ i, byteAt (stubs dir) map i = 0 → byteAt (stubs dir) after i = 0 := by
    intro i free
    by_cases inside : k * direntSize ≤ i ∧ i < k * direntSize + direntSize
    · rw [← Nat.add_sub_cancel' inside.1]
      exact zero _ (by omega)
    · rw [written.others i (by omega)]
      exact free
  have slots : ∀ other later, (t.leave dir name).slot other later =
      if other = dir ∧ later = name then none else t.slot other later := by
    intro other later
    simp only [Tree.slot, Tree.leave, RadixTree.update]
    by_cases here : other = dir ∧ later = name <;> simp [here]
  have address : (fun number => (diskblock2memaddr after number).toOption) =
      fun number => (diskblock2memaddr map number).toOption := by
    funext number
    rw [diskblock2memaddr_congr written.image.nblocks]
  refine shows.within stays written.image rfl rfl rfl ?_ fun _ => ⟨?_, ?_, ?_, ?_⟩
  · intro other apart later
    rw [slots, if_neg (fun here => apart here.1)]
  · rw [written.size]
    exact before.whole
  · intro i beyond
    rw [written.size] at beyond
    exact kept i (before.behind i beyond)
  · intro n gone i beyond
    rw [written.places] at gone
    exact kept i (before.ends n gone i beyond)
  · rw [address]
    obtain ⟨free, terminated⟩ := entry_zero zero
    have cleared := before.lists.clear named some
      (fun j other => entry_congr fun x within => written.others _ (by
        simp only [direntSize] at *
        omega))
      free terminated
    apply cleared.congr_slot
    intro later
    rw [slots]
    simp only [true_and]

/-! ## alloc_block -/

/-- A new inode without size and blocks. -/
structure BlankInode (file : InodeStubs) (ino : Nat) (map : Memory) : Prop where
  size : iSizeOf ino map = 0
  blocks : ∀ n, blockAt file map n = none

/-- A new block, zeroed, is a file without a name. -/
theorem ShowsTree.adopt (doc : DiskDocumented stubs allocBlock valid)
    (shows : ShowsTree stubs valid t map) {middle : Memory}
    (alloc : allocBlock map = (.ok number, middle))
    (leads : diskblock2memaddr middle number = .ok ino)
    (zeroed : fill middle ino blkSize 0 = after) :
    t.kind ino = none ∧ ShowsTree stubs valid (t.fresh ino .file) after ∧
      SameImage stubs t.InUse (fun _ => False) map after ∧ BlankInode (stubs ino) ino after ∧
      diskblock2memaddr after number = .ok ino := by
  obtain ⟨blk, address, apart, later⟩ := (doc.image t.InUse).alloc shows.valid alloc
  obtain rfl : blk = ino := by
    rw [diskblock2memaddr_congr (later middle fun _ _ => rfl).2.nblocks, address] at leads
    exact Except.ok.inj leads
  have outside : ∀ x, x < blk ∨ blk + blkSize ≤ x → after x = middle x := by
    intro x away
    rw [← zeroed, fill, if_neg (by omega)]
  have zero : ∀ inner size, blk ≤ inner → inner + size ≤ blk + blkSize →
      loadLE after inner size = 0 := by
    intro inner size lower upper
    rw [← zeroed]
    exact loadLE_fill_zero _ _ _ _ _ lower upper
  have unused : t.kind blk = none := by
    by_contra there
    have away := apart (.inode blk) blk ⟨there, Nat.le_refl _, by simp [inodeSize]⟩
    simp only [blkSize] at away
    omega
  have used : ∀ {other}, t.InUse other → other ≠ blk := by
    rintro _ there rfl
    exact there unused
  have same := (later after outside).2
  obtain ⟨afterValid, blocks⟩ := doc.adopt shows.valid alloc address outside fun x lower upper => by
    rw [← zeroed, fill, if_pos ⟨lower, upper⟩]
  have inUse : (t.fresh blk .file).InUse = fun other => t.InUse other ∨ other = blk := by
    funext other
    simp only [Tree.InUse, Tree.fresh]
    by_cases new : other = blk <;> simp [new]
  refine ⟨unused, ⟨?_, ?_, ?_, ?_, ?_, ?_⟩, same, ⟨?_, blocks⟩, ?_⟩
  · rw [inUse]
    exact afterValid
  · rw [same.nblocks]
    exact shows.few
  · rw [same.root, diskblock2memaddr_congr same.nblocks]
    exact shows.root
  · intro other known has
    simp only [Tree.fresh] at has
    split at has
    · rename_i new
      cases has
      rw [new, isDir, zero _ _ (Nat.le_add_right _ _) (by simp [iMode, blkSize])]
      decide
    · rw [same.isDir (show t.InUse other by simp [Tree.InUse, has])]
      exact shows.kind has
  · intro other there
    rw [inUse] at there
    simp only [Tree.fresh]
    split
    · rename_i new
      rw [new, zero _ _ (Nat.le_add_right _ _) (by simp [iNlink, blkSize])]
      rfl
    · rename_i old
      rw [same.nlink (there.resolve_right old)]
      exact shows.nlink (there.resolve_right old)
  · intro dir directory
    simp only [Tree.fresh] at directory
    split at directory
    · cases directory
    · have there : t.InUse dir := by simp [Tree.InUse, directory]
      rw [show (t.fresh blk .file).slot dir = t.slot dir from
        funext fun later => Tree.slot_fresh unused dir later]
      exact (shows.dirs directory).congr same.nblocks (same.size there not_false)
        (same.byteAt there not_false) fun n _ => (same.blocks there not_false n).1
  · exact zero _ _ (Nat.le_add_right _ _) (by simp [iSize, blkSize])
  · rw [diskblock2memaddr_congr same.nblocks, address]

/-! ## inode_create -/

theorem FreeEntry.kept {k : Nat} (entry : FreeEntry (stubs dir) dir map k)
    (same : SameImage stubs live (fun _ => False) map after) (there : live dir) :
    FreeEntry (stubs dir) dir after k ∧
      entryAddress (stubs dir) after k = entryAddress (stubs dir) map k := by
  have places : ∀ n, blockAt (stubs dir) after n = blockAt (stubs dir) map n :=
    fun n => (same.blocks there not_false n).1
  refine ⟨⟨?_, ?_, ?_⟩, ?_⟩
  · rw [same.byteAt there not_false]
    exact entry.free
  · rw [same.size there not_false]
    exact entry.inside
  · intro n upto
    rw [places]
    exact entry.present n upto
  · rw [entryAddress, entryAddress, dirBlock, dirBlock, places]

theorem BlankInode.congr (blank : BlankInode (stubs ino) ino map)
    (same : SameImage stubs live (· = dir) map after) (there : live ino) (apart : ino ≠ dir) :
    BlankInode (stubs ino) ino after where
  size := (same.size there apart).trans blank.size
  blocks := fun n => (same.blocks there apart n).1.trans (blank.blocks n)

/-- The part of `inode_create` behind `alloc_block`. -/
theorem ShowsTree.putName (doc : DiskDocumented stubs allocBlock valid)
    (shows : ShowsTree stubs valid t map) (directory : t.kind dir = some .dir) {k : Nat}
    (entry : FreeEntry (stubs dir) dir map k) (fits : Element name)
    (short : name.length < nameMax) (absent : t.slot dir name = none) {middle : Memory}
    (alloc : allocBlock map = (.ok number, middle))
    (leads : diskblock2memaddr middle number = .ok ino)
    (stored : setDirent (fill middle ino blkSize 0) (entryAddress (stubs dir) map k) name number =
      after) :
    t.kind ino = none ∧ ShowsTree stubs valid ((t.fresh ino .file).enter dir name ino) after ∧
      BlankInode (stubs ino) ino after ∧
      diskblock2memaddr after (loadLE after (entryAddress (stubs dir) map k + dInum) 4) =
        .ok ino := by
  obtain ⟨zeroed, zeroedEq⟩ : ∃ zeroed, fill middle ino blkSize 0 = zeroed := ⟨_, rfl⟩
  obtain ⟨unused, adopted, same, blank, lead⟩ := shows.adopt doc alloc leads zeroedEq
  have there : t.InUse dir := by simp [Tree.InUse, directory]
  have apart : dir ≠ ino := Tree.apart directory (by simp [unused])
  obtain ⟨still, address⟩ := entry.kept same there
  rw [zeroedEq, ← address] at stored
  obtain ⟨shown, image⟩ := adopted.setEntry doc (by simpa [Tree.fresh, apart] using directory) still
    fits short (by rw [Tree.slot_fresh unused, absent]) lead stored.symm
  have used : (t.fresh ino .file).InUse ino := by simp [Tree.InUse, Tree.fresh]
  refine ⟨unused, shown, blank.congr image used apart.symm, ?_⟩
  rw [← address, (setDirent_bytes short stored.symm).2.2,
    Nat.mod_eq_of_lt (diskblock2memaddr_lt leads), diskblock2memaddr_congr image.nblocks, lead]

theorem ShowsTree.flushes (doc : DiskDocumented stubs allocBlock valid)
    (shows : ShowsTree stubs valid t map) (there : t.InUse ino) :
    ∃ blocks, inodeFlush (stubs ino) ino map = .ok blocks := by
  obtain ⟨numbers, index⟩ := doc.numbers shows.valid there
  exact index.flushes numbers

/-- A directory with a place for the name gets it with a new file, or the tree stays. -/
theorem ShowsTree.createIn (doc : DiskDocumented stubs allocBlock valid)
    (shows : ShowsTree stubs valid t map) (directory : t.kind dir = some .dir) (fits : Element name)
    (short : name.length < nameMax) (absent : t.slot dir name = none)
    {answer : Except Stop Nat} (ran : createIn stubs allocBlock map dir name = (answer, after)) :
    (∃ number, answer = .error (.errno number) ∧ ShowsTree stubs valid t after) ∨
      ∃ ino, answer = .ok ino ∧ t.kind ino = none ∧
        ShowsTree stubs valid ((t.fresh ino .file).enter dir name ino) after ∧
        BlankInode (stubs ino) ino after := by
  rw [Fs.createIn] at ran
  cases dirent : dirAllocDirent (stubs dir) dir map with
  | mk reply middle =>
      obtain ⟨prepared, ends⟩ := shows.allocDirent doc directory dirent
      rcases ends with ⟨k, rfl, entry⟩ | ⟨number, rfl⟩
      · simp only [dirent] at ran
        cases alloc : allocBlock middle with
        | mk reply alloced =>
            simp only [alloc] at ran
            cases reply with
            | error number =>
                cases ran
                obtain ⟨stays, same⟩ := doc.full prepared.valid alloc
                exact Or.inl ⟨number, rfl, prepared.quiet stays same.quiet⟩
            | ok number =>
                obtain ⟨blk, address, _, later⟩ := (doc.image t.InUse).alloc prepared.valid alloc
                rw [← diskblock2memaddr_congr (later alloced fun _ _ => rfl).2.nblocks] at address
                simp only [address] at ran
                obtain ⟨unused, shown, blank, found⟩ :=
                  prepared.putName doc directory entry fits short absent alloc address rfl
                have apart : dir ≠ blk := Tree.apart directory (by simp [unused])
                have there : ((t.fresh blk .file).enter dir name blk).InUse dir := by
                  simp [Tree.InUse, Tree.enter, Tree.fresh, apart, directory]
                obtain ⟨blocks, flushed⟩ := shown.flushes doc there
                simp only [found, flushed] at ran
                cases ran
                exact Or.inr ⟨blk, rfl, unused, shown, blank⟩
      · rw [dirent] at ran
        cases ran
        exact Or.inl ⟨number, rfl, prepared⟩

theorem ShowsTree.create (doc : DiskDocumented stubs allocBlock valid) (counted : t.Counted)
    (shows : ShowsTree stubs valid t map) {path : List UInt8} (string : (0 : UInt8) ∉ path)
    {answer : Except Stop Nat}
    (ran : inodeCreate stubs allocBlock map path = (answer, after)) :
    (∃ number, answer = .error (.errno number) ∧ ShowsTree stubs valid t after ∧
        (t.find path ≠ none → number = .exist)) ∨
      ∃ ino dir name, answer = .ok ino ∧ t.place path = some (dir, name) ∧
        t.find path = none ∧ t.kind ino = none ∧
        ShowsTree stubs valid ((t.fresh ino .file).enter dir name ino) after ∧
        BlankInode (stubs ino) ino after := by
  rw [inodeCreate] at ran
  cases walked : walkPath stubs map path ⟨none, none, none, []⟩ with
  | mk reply rest =>
      obtain ⟨outputs, middle⟩ := rest
      obtain ⟨later, ends⟩ := shows.walk doc counted string walked
      rw [walked] at ran
      cases ends with
      | found =>
          cases ran
          exact Or.inl ⟨.exist, rfl, later, fun _ => rfl⟩
      | @missing number _ free place =>
          simp only at ran
          split at ran
          · cases ran
            exact Or.inl ⟨number, rfl, later, absurd free⟩
          · rename_i noent
            cases parent : outputs.pdir with
            | none =>
                rw [parent] at ran
                cases ran
                exact Or.inl ⟨number, rfl, later, absurd free⟩
            | some dir =>
                rw [parent] at ran
                have placed := place (by simpa using noent) dir parent
                obtain ⟨front, whole, _, _, directory, short⟩ := Tree.place_eq_some.mp placed
                have fits := segments_element string outputs.lastelem (by simp [whole])
                have absent : t.slot dir outputs.lastelem = none := by
                  rw [← Tree.find_of_place placed, free]
                rcases later.createIn doc directory fits short absent ran with
                  ⟨failure, rfl, shown⟩ | ⟨ino, rfl, unused, shown, blank⟩
                · exact Or.inl ⟨failure, rfl, shown, absurd free⟩
                · exact Or.inr ⟨ino, dir, outputs.lastelem, rfl, placed, free, unused, shown,
                    blank⟩

/-! ## The header of an inode -/

/-- Nothing but the header of `ino` in front of its size has been written. -/
structure HeaderWritten (stubs : Nat → InodeStubs) (live : Nat → Prop) (ino : Nat)
    (before after : Memory) : Prop where
  nblocks : loadLE after sNblocks 4 = loadLE before sNblocks 4
  root : loadLE after sRoot 4 = loadLE before sRoot 4
  header : ∀ {other}, live other → other ≠ ino →
    AgreeOn before after (other + iMode) (iAtime - iMode)
  size : ∀ {other}, live other → iSizeOf other after = iSizeOf other before
  bytes : ∀ {other}, live other → byteAt (stubs other) after = byteAt (stubs other) before
  blocks : ∀ {other}, live other → ∀ n,
    blockAt (stubs other) after n = blockAt (stubs other) before n

theorem DiskDocumented.write_header (doc : DiskDocumented stubs allocBlock valid)
    (mapValid : valid live map) (there : live ino)
    (outside : ∀ x, x < ino ∨ ino + iSize ≤ x → after x = map x) :
    valid live after ∧ HeaderWritten stubs live ino map after := by
  obtain ⟨stays, places⟩ := doc.header mapValid there outside
  have same : ∀ owner : Owner, owner ≠ .inode ino → ∀ x, owner.Holds stubs live map x →
      after x = map x := by
    intro owner different x holds
    by_cases inside : ino ≤ x ∧ x < ino + iSize
    · have also : (Owner.inode ino).Holds stubs live map x := by
        refine ⟨there, inside.1, ?_⟩
        simp only [iSize, inodeSize] at *
        omega
      exact absurd ((doc.image live).once mapValid holds also) different
    · exact outside x (by omega)
  have super := same .super (by simp)
  refine ⟨stays, ?_, ?_, ?_, ?_, ?_, fun live_other n => places _ live_other n⟩
  · apply loadLE_owner .super _ super
    intro y _ upper
    show y < superSize
    simp only [sNblocks, superSize] at *
    omega
  · apply loadLE_owner .super _ super
    intro y _ upper
    show y < superSize
    simp only [sRoot, superSize] at *
    omega
  · intro other live_other apart x lower upper
    apply same (.inode other) (by simpa using apart) x ⟨live_other, ?_, ?_⟩
    · exact (Nat.le_add_right _ _).trans lower
    · simp only [iMode, iAtime, inodeSize] at *
      omega
  · intro other live_other
    apply loadLE_congr
    intro x lower upper
    by_cases here : other = ino
    · apply outside x
      rw [here] at lower
      exact Or.inr lower
    · apply same (.inode other) (by simpa using here) x ⟨live_other, ?_, ?_⟩
      · exact (Nat.le_add_right _ _).trans lower
      · simp only [iSize, inodeSize] at *
        omega
  · intro other live_other
    funext i
    apply Kept.byteAt
    refine ⟨places other live_other _, ?_⟩
    intro blk place x lower upper
    exact same (.block other (i / blkSize)) (by simp) x ⟨live_other, blk, place, lower, upper⟩

theorem HeaderWritten.quiet (written : HeaderWritten stubs live ino map after)
    (same : AgreeOn map after (ino + iMode) (iAtime - iMode)) : Quiet stubs live map after where
  nblocks := written.nblocks
  root := written.root
  header := fun {other} there => by
    by_cases here : other = ino
    · rw [here]
      exact same
    · exact written.header there here
  size := written.size
  bytes := written.bytes
  blocks := fun there _ => written.blocks there _

theorem BlankInode.showsDir (blank : BlankInode (stubs ino) ino map) :
    ShowsDir stubs ino map fun _ => none := by
  have zeros : byteAt (stubs ino) map = fun _ => 0 := by
    funext i
    exact byteAt_none (blank.blocks _)
  constructor
  · rw [blank.size]
    exact Nat.zero_mod _
  · intro i _
    rw [zeros]
  · intro n _ i _
    rw [zeros]
  · rw [zeros]
    exact Lists.zeros

theorem ShowsTree.setHeader (shows : ShowsTree stubs valid t map) (there : t.InUse ino)
    {links : UInt16} (afterValid : valid t.InUse after)
    (written : HeaderWritten stubs t.InUse ino map after)
    (mode : isDir after ino = true ↔ kind = .dir)
    (counted : links.toNat = loadLE after (ino + iNlink) 2)
    (directory : kind = .dir → ShowsDir stubs ino map ((t.setHeader ino kind links).slot ino)) :
    ShowsTree stubs valid (t.setHeader ino kind links) after := by
  have inUse : (t.setHeader ino kind links).InUse = t.InUse := by
    funext other
    simp only [Tree.InUse, Tree.setHeader]
    split
    · rename_i here
      rw [Tree.InUse] at there
      simp [here, there]
    · rfl
  have header : ∀ {other}, t.InUse other → other ≠ ino →
      isDir after other = isDir map other ∧
        loadLE after (other + iNlink) 2 = loadLE map (other + iNlink) 2 := by
    intro other used apart
    have same := written.header used apart
    constructor
    · rw [isDir, isDir, loadLE_congr (same.mono (Nat.le_refl _) (by simp [iMode, iAtime]))]
    · apply loadLE_congr (same.mono _ _) <;> simp only [iMode, iNlink, iAtime] <;> omega
  have still : ∀ {other slot}, t.InUse other → ShowsDir stubs other map slot →
      ShowsDir stubs other after slot := fun used shown =>
    shown.congr written.nblocks (written.size used) (written.bytes used)
      fun n _ => written.blocks used n
  constructor
  · rw [inUse]
    exact afterValid
  · rw [written.nblocks]
    exact shows.few
  · rw [written.root, diskblock2memaddr_congr written.nblocks]
    exact shows.root
  · intro other known has
    simp only [Tree.setHeader] at has
    split at has
    · rename_i here
      cases has
      rw [here]
      exact mode
    · rename_i apart
      rw [(header (show t.InUse other by simp [Tree.InUse, has]) apart).1]
      exact shows.kind has
  · intro other used
    rw [inUse] at used
    simp only [Tree.setHeader]
    split
    · rename_i here
      rw [here, counted]
    · rename_i apart
      rw [(header used apart).2]
      exact shows.nlink used
  · intro other isDirectory
    have used : t.InUse other := by
      rw [← inUse, Tree.InUse, isDirectory]
      simp
    simp only [Tree.setHeader] at isDirectory
    split at isDirectory
    · rename_i here
      cases isDirectory
      rw [here]
      exact still there (directory rfl)
    · rename_i apart
      have slots : (t.setHeader ino kind links).slot other = t.slot other := by
        funext later
        simp [Tree.slot, Tree.setHeader, apart]
      rw [slots]
      exact still used (shows.dirs isDirectory)

/-- A new file becomes an inode of some kind, with one link. -/
theorem ShowsTree.setNew (shows : ShowsTree stubs valid t map) (file : t.kind ino = some .file)
    (bare : ∀ name, t.entry ino name = none) (blank : kind = .dir → BlankInode (stubs ino) ino map)
    (afterValid : valid t.InUse after) (written : HeaderWritten stubs t.InUse ino map after)
    (mode : isDir after ino = true ↔ kind = .dir) (links : loadLE after (ino + iNlink) 2 = 1) :
    ShowsTree stubs valid (t.setHeader ino kind 1) after := by
  apply shows.setHeader (by simp [Tree.InUse, file]) afterValid written mode (by rw [links]; rfl)
  intro directory
  have slots : (t.setHeader ino kind 1).slot ino = fun _ => none := by
    funext later
    simp [Tree.slot, Tree.setHeader, bare]
  rw [slots]
  exact (blank directory).showsDir

/-! ## The size and the blocks of a file -/

theorem ShowsTree.setSize (doc : DiskDocumented stubs allocBlock valid)
    (shows : ShowsTree stubs valid t map) (file : t.kind ino = some .file) {size : Nat}
    (bound : size < 2 ^ 32) (stored : after = storeLE map (ino + iSize) 4 size) :
    ShowsTree stubs valid t after ∧ iSizeOf ino after = size ∧
      ∀ n, blockAt (stubs ino) after n = blockAt (stubs ino) map n := by
  obtain ⟨stays, image, sized, kept⟩ := (doc.image t.InUse).write_size shows.valid
    (show t.InUse ino by simp [Tree.InUse, file]) bound stored
  refine ⟨shows.within stays image rfl rfl rfl (fun _ _ _ => rfl) ?_, sized, fun n => (kept n).1⟩
  intro directory
  rw [file] at directory
  cases directory

theorem ShowsTree.fillBlock (doc : DiskDocumented stubs allocBlock valid)
    (shows : ShowsTree stubs valid t map) (file : t.kind ino = some .file) {n blk : Nat}
    (place : blockAt (stubs ino) map n = some blk)
    (outside : ∀ x, x < blk ∨ blk + blkSize ≤ x → after x = map x) :
    ShowsTree stubs valid t after := by
  obtain ⟨stays, image, _⟩ := (doc.image t.InUse).write_block shows.valid
    (show t.InUse ino by simp [Tree.InUse, file]) place outside
  refine shows.within stays image rfl rfl rfl (fun _ _ _ => rfl) ?_
  intro directory
  rw [file] at directory
  cases directory

end Changes

end OsLabs.Fs
