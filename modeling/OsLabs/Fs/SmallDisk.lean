import OsLabs.Fs.Create
import OsLabs.Fs.NamespaceSteps

/-!
# A disk with room for one inode

The root directory has the blocks of `directStubs`, and block 40 is the only one that
`alloc_block` may find; an inode there gets no blocks.  Its `inode_link` and `inode_unlink` are
written after their comments.
-/

set_option autoImplicit false

namespace OsLabs.Fs

open OsLabs.ByteMemory

def smallIno : Nat := 40 * blkSize

def bareStubs : InodeStubs where
  blockWalk := fun _ _ => .error .noent
  getBlock := fun map _ => (.error .nospc, map)
  truncateBlocks := fun map _ => map

def smallStubs (ino : Nat) : InodeStubs := if ino = directIno then directStubs else bareStubs

/-- The inode in block 40 is in use only while its bit is cleared.  There are no index blocks. -/
structure SmallValid (live : Nat → Prop) (map : Memory) : Prop where
  direct : DirectValid map
  root : loadLE map sRoot 4 = 3
  inodes : ∀ ino, live ino → ino = directIno ∨ ino = smallIno ∧ map (blkSize + 5) = 0
  index : ∀ ino, live ino → AgreeOn (fun _ => 0) map (ino + iIndirect) 8

section Disk

variable {live : Nat → Prop} {changed : Nat → Prop} {map after : Memory} {ino n : Nat}

theorem smallStubs_direct : smallStubs directIno = directStubs := if_pos rfl

theorem smallStubs_small : smallStubs smallIno = bareStubs := if_neg (by decide)

theorem small_block : blockAt (smallStubs smallIno) map n = none := by
  rw [smallStubs_small]
  rfl

/-- The inode of the root and, while it is in use, the other one. -/
theorem SmallValid.sameImage (mapValid : SmallValid live map)
    (root : SameImage (fun _ => directStubs) (· = directIno) changed map after)
    (other : live smallIno → AgreeOn map after smallIno inodeSize) :
    SameImage smallStubs live changed map after where
  nblocks := root.nblocks
  root := root.root
  header := fun {ino} there => by
    rcases mapValid.inodes ino there with rfl | ⟨rfl, _⟩
    · exact root.header rfl
    · exact (other there).mono (Nat.le_add_right _ _) (by simp [iMode, iAtime, inodeSize])
  size := fun {ino} there apart => by
    rcases mapValid.inodes ino there with rfl | ⟨rfl, _⟩
    · exact root.size rfl apart
    · exact loadLE_congr ((other there).mono (Nat.le_add_right _ _) (by simp [iSize, inodeSize]))
  blocks := fun {ino} there apart n => by
    rcases mapValid.inodes ino there with rfl | ⟨rfl, _⟩
    · rw [smallStubs_direct]
      exact root.blocks rfl apart n
    · refine ⟨by rw [small_block, small_block], ?_⟩
      intro blk place
      rw [small_block] at place
      cases place

/-- Every byte in use has one owner. -/
theorem SmallValid.owner (mapValid : SmallValid live map) {owner : Owner} {x : Nat}
    (holds : owner.Holds smallStubs live map x) :
    owner = if smallIno ≤ x then .inode smallIno else directOwner x := by
  have direct : ∀ other : Owner, other.Holds (fun _ => directStubs) (· = directIno) map x →
      other = if smallIno ≤ x then .inode smallIno else directOwner x := by
    intro other inside
    have below : x < smallIno := direct_below mapValid.direct inside
    rw [if_neg (not_le.mpr below)]
    exact direct_owner mapValid.direct inside
  cases owner with
  | super => exact direct _ holds
  | inode ino =>
      obtain ⟨there, lower, upper⟩ := holds
      rcases mapValid.inodes ino there with rfl | ⟨rfl, _⟩
      · exact direct (.inode directIno) ⟨rfl, lower, upper⟩
      · rw [if_pos lower]
  | block ino n =>
      obtain ⟨there, blk, place, inside⟩ := holds
      rcases mapValid.inodes ino there with rfl | ⟨rfl, _⟩
      · rw [smallStubs_direct] at place
        exact direct (.block directIno n) ⟨rfl, blk, place, inside⟩
      · rw [small_block] at place
        cases place

theorem SmallValid.bit_later (mapValid : SmallValid live map)
    (outside : ∀ x, x ≠ blkSize + 5 → x < 40 * blkSize ∨ 41 * blkSize ≤ x → after x = map x)
    (other : live smallIno → AgreeOn map after smallIno inodeSize ∧ after (blkSize + 5) = 0) :
    SmallValid live after ∧ SameImage smallStubs live (fun _ => False) map after := by
  obtain ⟨stays, image⟩ := allocForty_later mapValid.direct outside
  refine ⟨⟨stays, image.root.trans mapValid.root, ?_, ?_⟩,
    mapValid.sameImage image fun there => (other there).1⟩
  · intro ino there
    rcases mapValid.inodes ino there with rfl | ⟨rfl, _⟩
    · exact Or.inl rfl
    · exact Or.inr ⟨rfl, (other there).2⟩
  · intro ino there
    apply (mapValid.index ino there).trans
    rcases mapValid.inodes ino there with rfl | ⟨rfl, _⟩
    · intro x lower upper
      apply outside <;> simp only [directIno, iIndirect, blkSize] at * <;> omega
    · exact (other there).1.mono (Nat.le_add_right _ _) (by decide)

/-- Own bytes are no numbers of index blocks. -/
theorem SmallValid.own_index (mapValid : SmallValid live map) (there : live ino)
    (same : ∀ x, ¬ OwnByte (smallStubs ino) ino map x → after x = map x) {other : Nat}
    (used : live other) : AgreeOn map after (other + iIndirect) 8 := by
  intro x lower upper
  apply same
  rintro (⟨m, blk, place, low, high⟩ | ⟨low, high⟩)
  · rcases mapValid.inodes ino there with rfl | ⟨rfl, _⟩
    · rw [smallStubs_direct] at place
      obtain ⟨inside, rfl⟩ := mapValid.direct.place place
      rcases mapValid.inodes other used with rfl | ⟨rfl, _⟩ <;>
        simp only [directBlock, directIno, smallIno, iIndirect, nDirect, blkSize] at * <;> omega
    · rw [small_block] at place
      cases place
  · rcases mapValid.inodes ino there with rfl | ⟨rfl, _⟩ <;>
      rcases mapValid.inodes other used with rfl | ⟨rfl, _⟩ <;>
        simp only [directIno, smallIno, iIndirect, iSize, blkSize] at * <;> omega

theorem SmallValid.own (mapValid : SmallValid live map) (there : live ino)
    (unchanged : ∀ x, ¬ OwnByte (smallStubs ino) ino map x → after x = map x) :
    SmallValid live after ∧ ∀ other, live other → ∀ n,
      blockAt (smallStubs other) after n = blockAt (smallStubs other) map n := by
  -- neither the bitmap nor the block numbers of the root are the inode's own bytes
  have rest : DirectValid after ∧
      (∀ n, blockAt directStubs after n = blockAt directStubs map n) ∧
        ∀ x < directIno, after x = map x := by
    have same := unchanged
    rcases mapValid.inodes ino there with rfl | ⟨rfl, _⟩
    · rw [smallStubs_direct] at same
      obtain ⟨stays, places⟩ := directStubs_documented.own mapValid.direct same
      refine ⟨stays, places, fun x low => same x ?_⟩
      rintro (⟨m, blk, place, lower, _⟩ | ⟨lower, _⟩)
      · obtain ⟨_, rfl⟩ := mapValid.direct.place place
        simp only [directBlock, directIno, blkSize] at lower low
        omega
      · omega
    · have low : ∀ x, x < smallIno → after x = map x := by
        intro x below
        apply same
        rintro (⟨m, blk, place, _⟩ | ⟨lower, _⟩)
        · rw [small_block] at place
          cases place
        · omega
      have word : ∀ x, x + 4 ≤ smallIno → loadLE after x 4 = loadLE map x 4 := by
        intro x below
        apply loadLE_congr
        intro y _ upper
        exact low y (by omega)
      obtain ⟨stays, places⟩ := mapValid.direct.congr (word _ (by decide)) fun n inside => by
        apply word
        simp only [directSlot, directIno, iDirect, nDirect, smallIno, blkSize] at *
        omega
      exact ⟨stays, places, fun x below => low x (below.trans (by decide))⟩
  obtain ⟨stays, places, low⟩ := rest
  refine ⟨⟨stays, ?_, ?_, ?_⟩, ?_⟩
  · rw [← mapValid.root]
    exact loadLE_congr fun x _ upper => low x (upper.trans_le (by decide))
  · rw [low _ (by decide)]
    exact mapValid.inodes
  · intro other used
    exact (mapValid.index other used).trans (mapValid.own_index there unchanged used)
  · intro other live_other n
    rcases mapValid.inodes other live_other with rfl | ⟨rfl, _⟩
    · rw [smallStubs_direct]
      exact places n
    · rw [small_block, small_block]

theorem SmallValid.new {blk : Nat} (mapValid : SmallValid live map) (there : live ino)
    (absent : blockAt (smallStubs ino) map n = none)
    (got : (smallStubs ino).getBlock map n = (.ok blk, after)) :
    SmallValid live after ∧ SameImage smallStubs live (· = ino) map after ∧
      iSizeOf ino after = iSizeOf ino map ∧ blockAt (smallStubs ino) after n = some blk ∧
      AgreeOn (fun _ => 0) after blk blkSize ∧
      ∀ m, m ≠ n → Kept (smallStubs ino) map after m := by
  rcases mapValid.inodes ino there with rfl | ⟨rfl, _⟩
  · rw [smallStubs_direct] at absent got ⊢
    obtain ⟨stays, image, size, place, zero, others⟩ :=
      directStubs_image.new mapValid.direct rfl absent got
    -- a new block of the root lies in front of block 40, and its number among the direct ones
    have far : ∀ x, x = blkSize + 5 ∨ smallIno ≤ x ∨
        directIno + iIndirect ≤ x ∧ x < directIno + blkSize → after x = map x := by
      intro x apart
      obtain ⟨inside, _⟩ := stays.place place
      simp only [directStubs, if_pos inside] at got
      split at got
      · obtain ⟨_, stored⟩ := Prod.mk.inj got
        rw [← stored, storeLE_outside, fill, if_neg]
        · simp only [directBlock, directIno, smallIno, iIndirect, nDirect, blkSize] at *
          omega
        · simp only [directSlot, directIno, iDirect, iIndirect, smallIno, nDirect, blkSize] at *
          omega
      · cases got
        rfl
    refine ⟨⟨stays, image.root.trans mapValid.root, ?_, ?_⟩, mapValid.sameImage image ?_, size,
      place, zero, others⟩
    · rw [far _ (Or.inl rfl)]
      exact mapValid.inodes
    · intro other used
      apply (mapValid.index other used).trans
      intro x lower upper
      apply far
      rcases mapValid.inodes other used with rfl | ⟨rfl, _⟩
      · simp only [iIndirect, blkSize] at *
        omega
      · omega
    · intro _ x lower _
      exact far x (Or.inr (Or.inl lower))
  · rw [smallStubs_small] at got
    cases got

theorem allocForty_ok {number : Nat} (got : allocForty map = (.ok number, after)) :
    number = 40 ∧ map (blkSize + 5) ≠ 0 ∧ after = storeLE map (blkSize + 5) 1 0 := by
  rw [allocForty] at got
  split at got
  · cases got
  · rename_i bit
    cases got
    exact ⟨rfl, bit, rfl⟩

theorem SmallValid.root_address (mapValid : SmallValid live map) :
    diskblock2memaddr map (loadLE map sRoot 4) = .ok directIno := by
  rw [diskblock2memaddr, mapValid.direct.blocks, mapValid.root]
  rfl

theorem SmallValid.address (mapValid : SmallValid live map) :
    diskblock2memaddr map 40 = .ok smallIno := by
  rw [diskblock2memaddr, mapValid.direct.blocks, if_neg (by omega)]
  rfl

theorem smallStubs_image : ImageDocumented smallStubs live allocForty (SmallValid live) where
  once := by
    intro map owner other x mapValid first second
    rw [mapValid.owner first, mapValid.owner second]
  own := fun mapValid there same => mapValid.own there same
  found := by
    intro map ino n blk mapValid there place
    rcases mapValid.inodes ino there with rfl | ⟨rfl, _⟩
    · rw [smallStubs_direct] at place ⊢
      exact directStubs_image.found mapValid.direct rfl place
    · rw [small_block] at place
      cases place
  new := fun mapValid there absent got => mapValid.new there absent got
  alloc := by
    intro map after number mapValid got
    obtain ⟨rfl, bit, rfl⟩ := allocForty_ok got
    have unused : ¬ live smallIno := by
      intro there
      rcases mapValid.inodes _ there with same | ⟨_, cleared⟩
      · cases same
      · exact bit cleared
    refine ⟨smallIno, mapValid.address, ?_, ?_⟩
    · intro owner x holds
      have own := mapValid.owner holds
      by_contra inside
      rw [if_pos (by omega)] at own
      subst own
      exact unused holds.1
    · intro later outside
      apply mapValid.bit_later _ fun there => absurd there unused
      intro x notBitmap apart
      rw [outside x (by simp only [smallIno, blkSize] at *; omega), storeLE_outside (by omega)]

theorem smallStubs_documented : DiskDocumented smallStubs allocForty SmallValid where
  image := fun _ => smallStubs_image
  refused := by
    intro live map after ino n number mapValid there got
    rcases mapValid.inodes ino there with rfl | ⟨rfl, _⟩
    · rw [smallStubs_direct] at got
      simp only [directStubs] at got
      split at got
      · split at got <;> cases got
      · cases got
        exact ⟨by simp, mapValid, SameImage.refl⟩
    · rw [smallStubs_small] at got
      cases got
      exact ⟨by simp, mapValid, SameImage.refl⟩
  full := by
    intro live map after number mapValid got
    rw [allocForty] at got
    split at got
    · cases got
      exact ⟨mapValid, SameImage.refl⟩
    · cases got
  numbers := by
    intro live map ino mapValid there
    have none : ∀ field, iIndirect ≤ field → field + 4 ≤ iIndirect + 8 →
        loadLE map (ino + field) 4 = 0 := fun field lower upper =>
      loadLE_zero ((mapValid.index ino there).mono (by omega) (by omega))
    refine ⟨?_, ⟨absurd (none iIndirect (by decide) (by decide)),
      absurd (none iDouble (by decide) (by decide))⟩⟩
    intro n slot walked full
    rcases mapValid.inodes ino there with rfl | ⟨rfl, _⟩
    · rw [smallStubs_direct] at walked
      simp only [directStubs] at walked
      split at walked
      · next inside =>
          cases walked
          have number := (mapValid.direct.slots n inside).resolve_left full
          simp only [nDirect] at inside
          rw [number, diskblock2memaddr, mapValid.direct.blocks, if_neg (by omega)]
          exact ⟨_, rfl⟩
      · cases walked
    · rw [smallStubs_small] at walked
      cases walked
  header := by
    intro live map after ino mapValid there outside
    have apart : ∀ x, x < directIno ∨ directIno + iDirect ≤ x ∧ x < smallIno → after x = map x := by
      intro x away
      apply outside
      rcases mapValid.inodes ino there with rfl | ⟨rfl, _⟩ <;>
        simp only [directIno, iDirect, iSize, smallIno, blkSize] at * <;> omega
    obtain ⟨stays, places⟩ := mapValid.direct.congr
      (loadLE_congr fun x _ upper => apart x (Or.inl (upper.trans_le (by decide))))
      fun n inside => loadLE_congr fun x lower upper => apart x (Or.inr (by
        simp only [directSlot, directIno, iDirect, smallIno, nDirect, blkSize] at *
        omega))
    refine ⟨⟨stays, ?_, ?_, ?_⟩, ?_⟩
    · rw [← mapValid.root]
      exact loadLE_congr fun x _ upper => apart x (Or.inl (upper.trans_le (by decide)))
    · rw [apart _ (Or.inl (by decide))]
      exact mapValid.inodes
    · intro other used
      apply (mapValid.index other used).trans
      intro x lower upper
      apply outside
      rcases mapValid.inodes ino there with rfl | ⟨rfl, _⟩ <;>
        rcases mapValid.inodes other used with rfl | ⟨rfl, _⟩ <;>
          simp only [directIno, smallIno, iIndirect, iSize, blkSize] at * <;> omega
    · intro other live_other n
      rcases mapValid.inodes other live_other with rfl | ⟨rfl, _⟩
      · rw [smallStubs_direct]
        exact places n
      · rw [small_block, small_block]
  adopt := by
    intro live map after later number blk mapValid got address outside zero
    obtain ⟨rfl, _, rfl⟩ := allocForty_ok got
    rw [mapValid.address] at address
    cases address
    have bit : later (blkSize + 5) = 0 := by
      rw [outside _ (Or.inl (by decide)), storeLE, if_pos ⟨Nat.le_refl _, Nat.lt_succ_self _⟩]
      decide
    obtain ⟨stays, image⟩ : DirectValid later ∧ SameImage (fun _ => directStubs) (· = directIno)
        (fun _ => False) map later := allocForty_later mapValid.direct (by
      intro x notBitmap apart
      rw [outside x (by simp only [smallIno, blkSize] at *; omega), storeLE_outside (by omega)])
    refine ⟨⟨stays, image.root.trans mapValid.root, ?_, ?_⟩, fun _ => small_block⟩
    · rintro ino (there | rfl)
      · exact (mapValid.inodes ino there).imp_right fun here => ⟨here.1, bit⟩
      · exact Or.inr ⟨rfl, bit⟩
    · have new : AgreeOn (fun _ => 0) later (smallIno + iIndirect) 8 :=
        zero.mono (Nat.le_add_right _ _) (by decide)
      rintro ino (there | rfl)
      · rcases mapValid.inodes ino there with rfl | ⟨rfl, _⟩
        · apply (mapValid.index directIno there).trans
          intro x lower upper
          rw [outside, storeLE_outside] <;>
            simp only [directIno, smallIno, iIndirect, blkSize] at * <;> omega
        · exact new
      · exact new

end Disk

/-! ## Links -/

def smallLink (map : Memory) (src dst : List UInt8) : Except Errno Unit × Memory :=
  match walkPath smallStubs map dst ⟨none, none, none, []⟩ with
  | (.ok (), _, map) => (.error .exist, map)
  | (.error stopped, out, map) =>
      match stopped, out.pdir with
      | .errno .noent, some dir =>
          match inodeOpen smallStubs map src with
          | (.ok (some ino), map) =>
              match dirAllocDirent (smallStubs dir) dir map with
              | (.ok d, map) =>
                  let map := setDirent map d out.lastelem (ino / blkSize)
                  (.ok (), storeLE map (ino + iNlink) 2 (loadLE map (ino + iNlink) 2 + 1))
              | (.error _, map) => (.error .nospc, map)
          | (_, map) => (.error .noent, map)
      | _, _ => (.error .noent, map)

/-- `inode_free` is left with the bit of the block. -/
def smallUnlink (map : Memory) (path : List UInt8) : Except Errno Unit × Memory :=
  match walkPath smallStubs map path ⟨none, none, none, []⟩ with
  | (.ok (), out, map) =>
      match out.pino, out.pdent with
      | some ino, some d =>
          let map := fill map d direntSize 0
          let map := storeLE map (ino + iNlink) 2 (loadLE map (ino + iNlink) 2 + (2 ^ 16 - 1))
          if loadLE map (ino + iNlink) 2 = 0 then (.ok (), storeLE map (blkSize + 5) 1 1)
          else (.ok (), map)
      | _, _ => (.error .inval, map)
  | (.error (.errno number), _, map) => (.error number, map)
  | (.error _, _, map) => (.error .inval, map)

def smallLinks : LinkStubs Memory := ⟨smallLink, smallUnlink⟩

section Links

variable {t : Tree} {map after : Memory} {path src dst : List UInt8} {dir ino d : Nat}
  {name : Name}

abbrev SmallShows : Tree → Memory → Prop := ShowsTree smallStubs SmallValid

theorem SmallShows.inodes (shown : SmallShows t map) (there : t.InUse ino) :
    ino = directIno ∨ ino = smallIno :=
  (shown.valid.inodes ino there).imp_right And.left

/-- The number in an entry for an inode in use. -/
theorem SmallShows.number (shown : SmallShows t map) (there : t.InUse ino) :
    diskblock2memaddr map (ino / blkSize) = .ok ino := by
  rcases SmallShows.inodes shown there with rfl | rfl <;>
    rw [diskblock2memaddr, shown.valid.direct.blocks, if_neg (by decide)] <;> rfl

/-- Another number of links. -/
theorem SmallShows.relink {kind : Kind} (shown : SmallShows t map) (has : t.kind ino = some kind)
    {links : UInt16} {value : Nat} (same : links.toNat = value % 2 ^ 16)
    (stored : after = storeLE map (ino + iNlink) 2 value) :
    SmallShows (t.setHeader ino kind links) after := by
  have there : t.InUse ino := by simp [Tree.InUse, has]
  have outside : ∀ x, x < ino ∨ ino + iSize ≤ x → after x = map x := by
    intro x apart
    rw [stored]
    apply storeLE_outside
    simp only [iNlink, iSize] at *
    omega
  obtain ⟨stays, written⟩ := smallStubs_documented.write_header shown.valid there outside
  refine shown.setHeader there stays written ?_ ?_ ?_
  · rw [← shown.kind has, isDir, isDir, stored, loadLE_storeLE_apart]
    simp only [iMode, iNlink]
    omega
  · rw [stored, loadLE_storeLE, same]
    norm_num
  · rintro rfl
    have slots : (t.setHeader ino .dir links).slot ino = t.slot ino := by
      funext later
      simp [Tree.slot, Tree.setHeader, has]
    rw [slots]
    exact shown.dirs has

/-- `inode_link` behind `dir_alloc_dirent`. -/
theorem SmallShows.putLink (shown : SmallShows t map) (there : t.InUse ino)
    (directory : t.kind dir = some .dir) {k : Nat} (entry : FreeEntry (smallStubs dir) dir map k)
    (fits : Element name) (short : name.length < nameMax) (absent : t.slot dir name = none)
    {filled : Memory}
    (filledEq : setDirent map (entryAddress (smallStubs dir) map k) name (ino / blkSize) = filled)
    (stored : after = storeLE filled (ino + iNlink) 2 (loadLE filled (ino + iNlink) 2 + 1)) :
    SmallShows (t.addEntry dir name ino) after := by
  obtain ⟨kind, has⟩ := Option.ne_none_iff_exists'.mp there
  obtain ⟨entered, _⟩ := shown.setEntry smallStubs_documented directory entry fits short absent
    (SmallShows.number shown there) filledEq.symm
  rw [← Tree.setHeader_link has]
  refine SmallShows.relink entered has ?_ stored
  have count : (t.nlink ino).toNat = loadLE filled (ino + iNlink) 2 := entered.nlink there
  rw [UInt16.toNat_add, count]
  rfl

theorem smallLink_spec (counted : t.Counted) (shown : SmallShows t map) (string : (0 : UInt8) ∉ src)
    (dstString : (0 : UInt8) ∉ dst) {answer : Except Errno Unit}
    (ran : smallLink map src dst = (answer, after)) :
    t.find dst ≠ none ∧ answer = .error .exist ∧ SmallShows t after ∨
      t.find dst = none ∧ ((∃ number, answer = .error number ∧ number ≠ .exist ∧
          SmallShows t after) ∨
        answer = .ok () ∧ ∃ ino dir name, t.find src = some ino ∧ t.place dst = some (dir, name) ∧
          SmallShows (t.addEntry dir name ino) after) := by
  rw [smallLink] at ran
  cases walked : walkPath smallStubs map dst ⟨none, none, none, []⟩ with
  | mk reply rest =>
      obtain ⟨out, middle⟩ := rest
      obtain ⟨later, ends⟩ := shown.walk smallStubs_documented counted dstString walked
      rw [walked] at ran
      cases ends with
      | found found =>
          cases ran
          exact Or.inl ⟨by simp [found], rfl, later⟩
      | @missing number _ free place =>
          refine Or.inr ⟨free, ?_⟩
          simp only at ran
          split at ran
          · next dir same parent =>
              cases same
              obtain placed := place rfl dir parent
              cases opened : inodeOpen smallStubs middle src with
              | mk reply last =>
                  obtain ⟨still, ends⟩ := later.opens smallStubs_documented counted string opened
                  rw [opened] at ran
                  rcases ends with ⟨ino, rfl, found⟩ | ⟨number, rfl, _⟩
                  · cases alloc : dirAllocDirent (smallStubs dir) dir last with
                    | mk reply final =>
                        obtain ⟨front, whole, _, _, directory, short⟩ :=
                          Tree.place_eq_some.mp placed
                        obtain ⟨prepared, ends⟩ :=
                          still.allocDirent smallStubs_documented directory alloc
                        simp only [alloc] at ran
                        rcases ends with ⟨k, rfl, entry⟩ | ⟨number, rfl⟩
                        · cases ran
                          refine Or.inr ⟨rfl, ino, dir, out.lastelem, found, placed, ?_⟩
                          apply SmallShows.putLink prepared (counted.used_find found) directory
                            entry (segments_element dstString _ (by simp [whole])) short _ rfl rfl
                          rw [← Tree.find_of_place placed, free]
                        · cases ran
                          exact Or.inl ⟨_, rfl, by simp, prepared⟩
                  · cases ran
                    exact Or.inl ⟨_, rfl, by simp, still⟩
          · cases ran
            exact Or.inl ⟨_, rfl, by simp, later⟩

def Tree.forget (t : Tree) (ino : Nat) : Tree :=
  { t with kind := fun other => if other = ino then none else t.kind other }

/-- The block of the inode is free again. -/
theorem SmallShows.forget (shown : SmallShows t map)
    (stored : after = storeLE map (blkSize + 5) 1 1) : SmallShows (t.forget smallIno) after := by
  have before : ∀ {other}, (t.forget smallIno).InUse other → t.InUse other ∧ other ≠ smallIno := by
    intro other there
    simp only [Tree.InUse, Tree.forget] at there ⊢
    split at there
    · exact absurd rfl there
    · rename_i apart
      exact ⟨there, apart⟩
  have same : ∀ {other}, other ≠ smallIno → (t.forget smallIno).kind other = t.kind other :=
    fun apart => if_neg apart
  have fewer : SmallShows (t.forget smallIno) map := by
    refine ⟨⟨shown.valid.direct, shown.valid.root,
      fun ino there => shown.valid.inodes ino (before there).1,
      fun ino there => shown.valid.index ino (before there).1⟩,
      shown.few, shown.root, ?_, fun there => shown.nlink (before there).1, ?_⟩
    · intro other known has
      rw [same (before (by simp [Tree.InUse, has])).2] at has
      exact shown.kind has
    · intro other directory
      have apart := (before (show (t.forget smallIno).InUse other by
        simp [Tree.InUse, directory])).2
      have slots : (t.forget smallIno).slot other = t.slot other := by
        funext later
        rw [Tree.slot, Tree.slot, same apart]
        rfl
      rw [same apart] at directory
      rw [slots]
      exact shown.dirs directory
  have outside : ∀ x, x ≠ blkSize + 5 → x < 40 * blkSize ∨ 41 * blkSize ≤ x →
      after x = map x := by
    intro x notBitmap _
    rw [stored]
    exact storeLE_outside (by omega)
  obtain ⟨stays, image⟩ := fewer.valid.bit_later outside fun there => absurd rfl (before there).2
  exact fewer.quiet stays image.quiet

theorem Tree.removeEntry_linked {kind : Kind} (has : t.kind ino = some kind)
    (linked : t.nlink ino - 1 ≠ 0) : t.removeEntry dir name ino =
      (t.leave dir name).setHeader ino kind (t.nlink ino - 1) := by
  have kinds : (fun other => if other = ino then some kind else t.kind other) = t.kind := by
    funext other
    split
    · rename_i here
      rw [here, has]
    · rfl
  simp only [Tree.removeEntry, Tree.setHeader, Tree.leave, linked, and_false, if_false, kinds]

theorem Tree.removeEntry_freed (kind : Kind) (freed : t.nlink ino - 1 = 0) :
    t.removeEntry dir name ino =
      ((t.leave dir name).setHeader ino kind (t.nlink ino - 1)).forget ino := by
  have kinds : (fun other => if other = ino then none else t.kind other) =
      fun other => if other = ino then none else if other = ino then some kind
        else t.kind other := by
    funext other
    split <;> rfl
  simp only [Tree.removeEntry, Tree.setHeader, Tree.leave, Tree.forget, freed, and_true, kinds]

/-- `inode_unlink` behind `walk_path`. -/
theorem SmallShows.dropLink (shown : SmallShows t map) (counted : t.Counted)
    (slot : t.slot dir name = some ino) (entry : EntryFor (smallStubs dir) map name d)
    {cleared linked : Memory} (clearedEq : fill map d direntSize 0 = cleared)
    (stored : linked = storeLE cleared (ino + iNlink) 2
      (loadLE cleared (ino + iNlink) 2 + (2 ^ 16 - 1))) :
    (loadLE linked (ino + iNlink) 2 = 0 →
      SmallShows (t.removeEntry dir name ino) (storeLE linked (blkSize + 5) 1 1)) ∧
    (loadLE linked (ino + iNlink) 2 ≠ 0 → SmallShows (t.removeEntry dir name ino) linked) := by
  obtain ⟨kind, has⟩ := Option.ne_none_iff_exists'.mp (counted.used slot)
  obtain ⟨k, rfl, named, present⟩ := entry
  have directory := Tree.slot_dir slot
  have some : name ≠ [] := ((shown.dirs directory).lists.slots _ _ |>.mp slot).1
  have left := shown.clearEntry smallStubs_documented directory named some present clearedEq.symm
  have there : t.InUse ino := by simp [Tree.InUse, has]
  have count : (t.nlink ino).toNat = loadLE cleared (ino + iNlink) 2 := left.nlink there
  have less : (t.nlink ino - 1).toNat =
      (loadLE cleared (ino + iNlink) 2 + (2 ^ 16 - 1)) % 2 ^ 16 := by
    rw [UInt16.toNat_sub, count, Nat.add_comm]
    rfl
  have relinked := SmallShows.relink left has less stored
  have value : loadLE linked (ino + iNlink) 2 = (t.nlink ino - 1).toNat := by
    rw [less, stored, loadLE_storeLE]
    norm_num
  obtain rfl : ino = smallIno := by
    refine (SmallShows.inodes shown there).resolve_left ?_
    rintro rfl
    have top := shown.root
    rw [shown.valid.root_address] at top
    exact counted.top dir name (slot.trans (congrArg Option.some (Except.ok.inj top)))
  constructor
  · intro zero
    have freed : t.nlink smallIno - 1 = 0 := UInt16.toNat_inj.mp (value.symm.trans zero)
    rw [Tree.removeEntry_freed kind freed]
    exact SmallShows.forget relinked rfl
  · intro other
    have still : t.nlink smallIno - 1 ≠ 0 := by
      intro freed
      rw [value, freed] at other
      exact other rfl
    rw [Tree.removeEntry_linked has still]
    exact relinked

theorem smallUnlink_spec (counted : t.Counted) (shown : SmallShows t map)
    (string : (0 : UInt8) ∉ path) {answer : Except Errno Unit}
    (ran : smallUnlink map path = (answer, after)) :
    (∃ ino dir name, t.find path = some ino ∧ t.place path = some (dir, name) ∧
        answer = .ok () ∧ SmallShows (t.removeEntry dir name ino) after) ∨
      (t.find path = none ∨ segments path = []) ∧
        (∃ number, answer = .error number) ∧ SmallShows t after := by
  rw [smallUnlink] at ran
  cases walked : walkPath smallStubs map path ⟨none, none, none, []⟩ with
  | mk reply rest =>
      obtain ⟨out, middle⟩ := rest
      obtain ⟨later, ends⟩ := shown.walk smallStubs_documented counted string walked
      rw [walked] at ran
      cases ends with
      | @found ino _ found pino top entry =>
          simp only [pino] at ran
          by_cases root : segments path = []
          · rw [top root] at ran
            cases ran
            exact Or.inr ⟨Or.inr root, ⟨_, rfl⟩, later⟩
          · obtain ⟨dir, name, d, placed, dent, stands⟩ := entry root
            have slot : t.slot dir name = some ino := by
              rw [← Tree.find_of_place placed, found]
            obtain ⟨freed, kept⟩ := SmallShows.dropLink later counted slot stands rfl rfl
            simp only [dent] at ran
            refine Or.inl ⟨ino, dir, name, found, placed, ?_⟩
            split at ran
            · next zero =>
                cases ran
                exact ⟨rfl, freed zero⟩
            · next other =>
                cases ran
                exact ⟨rfl, kept other⟩
      | missing free =>
          cases ran
          exact Or.inr ⟨Or.inl free, ⟨_, rfl⟩, later⟩

theorem smallLinks_documented : LinksDocumented smallLinks SmallShows where
  link_exist := by
    intro t map after src dst answer counted shown string dstString found ran
    rcases smallLink_spec counted shown string dstString ran with ⟨_, same⟩ | ⟨free, _⟩
    · exact same
    · exact absurd free found
  link_adds := by
    intro t map after src dst counted shown string dstString free ran
    rcases smallLink_spec counted shown string dstString ran with
      ⟨found, _⟩ | ⟨_, ⟨_, failed, _⟩ | ⟨_, added⟩⟩
    · exact absurd free found
    · cases failed
    · exact added
  link_refuses := by
    intro t map after src dst number counted shown string dstString free ran
    rcases smallLink_spec counted shown string dstString ran with
      ⟨found, _⟩ | ⟨_, ⟨_, same, refused⟩ | ⟨done, _⟩⟩
    · exact absurd free found
    · cases same
      exact refused
    · cases done
  unlink_removes := by
    intro t map after path answer ino dir name counted shown string found placed ran
    rcases smallUnlink_spec counted shown string ran with
      ⟨_, _, _, there, target, removed⟩ | ⟨missing, _⟩
    · rw [found] at there
      rw [placed] at target
      cases there
      cases target
      exact removed
    · rcases missing with free | top
      · rw [free] at found
        cases found
      · rw [Tree.place_top top] at placed
        cases placed
  unlink_refuses := by
    intro t map after path answer counted shown string missing ran
    rcases smallUnlink_spec counted shown string ran with
      ⟨_, _, _, there, target, _⟩ | ⟨_, ⟨number, failed⟩, later⟩
    · rcases missing with free | top
      · rw [free] at there
        cases there
      · rw [Tree.place_top top] at target
        cases target
    · exact ⟨number, failed, later⟩

theorem smallDisk_documented : NamesDocumented smallStubs allocForty smallLinks SmallValid where
  toDiskDocumented := smallStubs_documented
  links := smallLinks_documented

end Links

/-! ## The empty root -/

def bareTree : Tree where
  root := directIno
  kind := fun ino => if ino = directIno then some .dir else none
  entry := fun _ _ => none
  nlink := fun _ => 0

theorem bareTree_slot (dir : Nat) (name : Name) : bareTree.slot dir name = none := by
  rw [Tree.slot]
  split <;> rfl

theorem bareTree_links (ino : Nat) : bareTree.links ino = ∅ := by
  simp [Tree.links, bareTree_slot]

theorem bareTree_whole : bareTree.Whole where
  root := rfl
  top := fun dir name => by simp [bareTree_slot]
  single := fun found => by simp [bareTree_slot] at found
  used := fun found => by simp [bareTree_slot] at found
  finite := fun ino => by simp [bareTree_links]
  counted := fun ino _ => by
    rw [bareTree_links, Set.ncard_empty]
    rfl
  reached := by
    intro ino used
    refine ⟨[], ?_⟩
    by_contra other
    apply used
    simp only [bareTree]
    rw [if_neg]
    rintro rfl
    exact other rfl

theorem bareTree_dir {ino : Nat} (there : bareTree.kind ino ≠ none) : ino = directIno := by
  by_contra other
  exact there (if_neg other)

theorem bareTree_shown : SmallShows bareTree createMap where
  valid := by
    refine ⟨createMap_valid, by decide +kernel, fun _ there => Or.inl (bareTree_dir there), ?_⟩
    intro ino there
    obtain rfl := bareTree_dir there
    have zero : ∀ n < 8, createMap (directIno + iIndirect + n) = 0 := by decide +kernel
    intro x lower upper
    have here := zero (x - (directIno + iIndirect)) (by omega)
    rwa [Nat.add_sub_cancel' lower] at here
  few := by
    rw [createMap_valid.blocks]
    norm_num
  root := by decide +kernel
  kind := by
    intro ino kind has
    obtain rfl := bareTree_dir (show bareTree.kind ino ≠ none by simp [has])
    cases has
    exact iff_of_true (by decide +kernel) rfl
  nlink := by
    intro ino there
    obtain rfl := bareTree_dir there
    decide +kernel
  dirs := by
    intro dir directory
    obtain rfl := bareTree_dir (show bareTree.kind dir ≠ none by simp [directory])
    rw [show bareTree.slot directIno = fun _ => none from funext (bareTree_slot directIno)]
    apply BlankInode.showsDir
    refine ⟨by decide +kernel, fun n => ?_⟩
    have zero : ∀ n < nDirect, loadLE createMap (directSlot n) 4 = 0 := by decide +kernel
    rw [smallStubs_direct, createMap_valid.blockAt, if_neg]
    exact fun full => full.2 (zero n full.1)

end OsLabs.Fs
