import OsLabs.Fs.Inode

/-!
# The bytes of an inode

What each call does to `byteAt`, the bytes that the blocks of a file hold, from the
documented behaviour of the functions it uses.
-/

set_option autoImplicit false

namespace OsLabs.Fs

open OsLabs.ByteMemory OsLabs.ExceptRules

section Bytes

variable {stubs : InodeStubs} {ino : Nat} {valid : Memory → Prop}

theorem byteAt_some {map : Memory} {i blk : Nat}
    (place : blockAt stubs map (i / blkSize) = some blk) :
    byteAt stubs map i = map (blk + i % blkSize) := by
  rw [byteAt, place]

theorem byteAt_none {map : Memory} {i : Nat} (place : blockAt stubs map (i / blkSize) = none) :
    byteAt stubs map i = 0 := by
  rw [byteAt, place]

theorem Kept.byteAt {before after : Memory} {i : Nat}
    (kept : Kept stubs before after (i / blkSize)) :
    byteAt stubs after i = byteAt stubs before i := by
  obtain ⟨same, bytes⟩ := kept
  cases place : blockAt stubs before (i / blkSize) with
  | none => rw [byteAt_none place, byteAt_none (same.trans place)]
  | some blk =>
      rw [byteAt_some place, byteAt_some (same.trans place)]
      have inBlock : i % blkSize < blkSize := Nat.mod_lt _ (by norm_num)
      exact bytes blk place _ (Nat.le_add_right _ _) (by omega)

/-! ## inode_write -/

theorem Documented.get_bytes (doc : Documented stubs ino valid) {map map' : Memory} {n a : Nat}
    (mapValid : valid map) (got : stubs.getBlock map n = (.ok a, map')) (i : Nat) :
    byteAt stubs map' i = byteAt stubs map i := by
  obtain ⟨_, _, place, here, others⟩ := doc.get mapValid got
  by_cases same : i / blkSize = n
  · rcases here with kept | ⟨absent, zeros⟩
    · exact Kept.byteAt (same ▸ kept)
    · rw [← same] at place absent
      rw [byteAt_some place, byteAt_none absent]
      have inBlock : i % blkSize < blkSize := Nat.mod_lt _ (by norm_num)
      exact zeros _ (Nat.le_add_right _ _) (by omega)
  · exact Kept.byteAt (others _ same)

theorem Documented.write (doc : Documented stubs ino valid) {map after : Memory}
    {n a start bn : Nat} {source : Nat → UInt8} (mapValid : valid map)
    (place : blockAt stubs map n = some a) (fits : start + bn ≤ blkSize)
    (written : blit map (a + start) bn source = after) :
    valid after ∧ iSizeOf ino after = iSizeOf ino map ∧
      (∀ m, blockAt stubs after m = blockAt stubs map m) ∧
      ∀ i, byteAt stubs after i =
        if n * blkSize + start ≤ i ∧ i < n * blkSize + start + bn then
          source (i - (n * blkSize + start))
        else byteAt stubs map i := by
  have inside : ∀ x, a + start ≤ x → x < a + start + bn → after x = source (x - (a + start)) := by
    intro x lower upper
    rw [← written, blit, if_pos ⟨lower, upper⟩]
  have outside : ∀ x, x < a + start ∨ a + start + bn ≤ x → after x = map x := by
    intro x apart
    rw [← written]
    exact blit_frame map (a + start) bn source x 1 (by omega) x (Nat.le_refl _) (by omega)
  have own : ∀ x, ¬ OwnByte stubs ino map x → after x = map x := by
    intro x notOwn
    refine outside x ?_
    by_contra within
    exact notOwn (Or.inl ⟨n, a, place, by omega, by omega⟩)
  obtain ⟨stays, places⟩ := doc.own mapValid own
  refine ⟨stays, ?_, places, ?_⟩
  · have size := doc.inode mapValid place
    refine loadLE_congr fun x lower upper => outside x ?_
    omega
  · intro i
    have inBlock : i % blkSize < blkSize := Nat.mod_lt _ (by norm_num)
    have position := Nat.div_add_mod i blkSize
    cases iPlace : blockAt stubs map (i / blkSize) with
    | none =>
        have elsewhere : i / blkSize ≠ n := by
          rintro rfl
          rw [place] at iPlace
          cases iPlace
        rw [if_neg, byteAt_none iPlace, byteAt_none ((places _).trans iPlace)]
        rintro ⟨lower, upper⟩
        simp only [blkSize] at *
        omega
    | some b =>
        rw [byteAt_some iPlace, byteAt_some ((places _).trans iPlace)]
        by_cases here : i / blkSize = n
        · rw [here, place] at iPlace
          cases iPlace
          by_cases within : n * blkSize + start ≤ i ∧ i < n * blkSize + start + bn
          · rw [if_pos within, inside _ (by simp only [blkSize] at *; omega)
              (by simp only [blkSize] at *; omega)]
            congr 1
            simp only [blkSize] at *
            omega
          · rw [if_neg within]
            refine outside _ ?_
            simp only [blkSize] at *
            omega
        · have apart := doc.apart mapValid place iPlace (Ne.symm here)
          rw [if_neg (by simp only [blkSize] at *; omega)]
          refine outside _ ?_
          omega

/-- The bytes from `pos` to `reached` are written, and no block is lost. -/
structure Written (stubs : InodeStubs) (ino : Nat) (valid : Memory → Prop)
    (before after : Memory) (source : Nat → UInt8) (pos reached : Nat) : Prop where
  valid : valid after
  size : iSizeOf ino after = iSizeOf ino before
  blocks : ∀ {n a}, blockAt stubs before n = some a → blockAt stubs after n = some a
  got : ∀ {i}, pos ≤ i → i < reached → blockAt stubs after (i / blkSize) ≠ none
  bytes : ∀ i, byteAt stubs after i =
    if pos ≤ i ∧ i < reached then source (i - pos) else byteAt stubs before i

theorem Written.nothing {map : Memory} (mapValid : valid map) (source : Nat → UInt8)
    (pos : Nat) : Written stubs ino valid map map source pos pos where
  valid := mapValid
  size := rfl
  blocks := fun place => place
  got := fun lower upper => by omega
  bytes := fun i => by rw [if_neg (by omega)]

theorem Written.append {first second third : Memory} {source later : Nat → UInt8}
    {pos middle reached : Nat}
    (front : Written stubs ino valid first second source pos middle)
    (back : Written stubs ino valid second third later middle reached)
    (lower : pos ≤ middle) (upper : middle ≤ reached)
    (same : ∀ i, middle ≤ i → later (i - middle) = source (i - pos)) :
    Written stubs ino valid first third source pos reached where
  valid := back.valid
  size := back.size.trans front.size
  blocks := fun place => back.blocks (front.blocks place)
  got := by
    intro i lower upper
    by_cases new : middle ≤ i
    · exact back.got new upper
    · obtain ⟨a, place⟩ := Option.ne_none_iff_exists'.mp (front.got lower (by omega))
      rw [back.blocks place]
      exact Option.some_ne_none a
  bytes := by
    intro i
    rw [back.bytes, front.bytes]
    by_cases new : middle ≤ i ∧ i < reached
    · rw [if_pos new, if_pos (by omega), same i new.1]
    · rw [if_neg new]
      by_cases old : pos ≤ i ∧ i < middle
      · rw [if_pos old, if_pos (by omega)]
      · rw [if_neg old, if_neg (by omega)]

theorem Documented.turn (doc : Documented stubs ino valid) {map got : Memory} {pos bn blk : Nat}
    {source : Nat → UInt8} (mapValid : valid map)
    (gotten : stubs.getBlock map (pos / blkSize) = (.ok blk, got))
    (fits : pos % blkSize + bn ≤ blkSize) :
    Written stubs ino valid map (blit got (blk + pos % blkSize) bn source) source pos
      (pos + bn) := by
  obtain ⟨gotValid, gotSize, place, here, others⟩ := doc.get mapValid gotten
  obtain ⟨blitValid, blitSize, places, bytes⟩ := doc.write gotValid place fits
    (rfl : blit got (blk + pos % blkSize) bn source = _)
  have start : pos / blkSize * blkSize + pos % blkSize = pos := by
    rw [Nat.mul_comm]
    exact Nat.div_add_mod pos blkSize
  constructor
  · exact blitValid
  · exact blitSize.trans gotSize
  · intro n a before
    rw [places]
    by_cases same : n = pos / blkSize
    · subst same
      rcases here with kept | ⟨absent, _⟩
      · exact kept.1.trans before
      · rw [absent] at before
        cases before
    · exact (others n same).1.trans before
  · intro i lower upper
    have position := Nat.div_add_mod pos blkSize
    have here : i / blkSize = pos / blkSize := by
      simp only [blkSize] at *
      omega
    rw [here, places, place]
    exact Option.some_ne_none blk
  · intro i
    rw [bytes, doc.get_bytes mapValid gotten, start]

/-- The loop of `inode_write` writes the range, or all of it before the first block that it
does not get. -/
theorem Documented.writeLoop (doc : Documented stubs ino valid) {buf : Nat → UInt8}
    {stop fuel pos done : Nat} {map : Memory} (mapValid : valid map) (start : pos ≤ stop)
    (bound : stop < 2 ^ 32) (enough : stop - pos < fuel) :
    ∃ reached middle, pos ≤ reached ∧ reached ≤ stop ∧
      Written stubs ino valid map middle (fun i => buf (done + i)) pos reached ∧
      (reached = stop ∧ Fs.writeLoop stubs buf stop fuel pos done map = (.ok (), middle) ∨
        reached < stop ∧ (reached = pos ∨ reached % blkSize = 0) ∧ ∃ number after,
          stubs.getBlock middle (reached / blkSize) = (.error number, after) ∧
          Fs.writeLoop stubs buf stop fuel pos done map = (.error (.errno number), after)) := by
  induction fuel generalizing pos done map with
  | zero => omega
  | succ fuel ih =>
      have nothing : Written stubs ino valid map map (fun i => buf (done + i)) pos pos :=
        Written.nothing mapValid _ _
      by_cases more : pos < stop
      · rw [Fs.writeLoop, if_pos more]
        obtain ⟨answer, got, gotten⟩ :
            ∃ answer got, stubs.getBlock map (pos / blkSize) = (answer, got) := ⟨_, _, rfl⟩
        cases answer with
        | error number =>
            refine ⟨pos, map, Nat.le_refl _, start, nothing, Or.inr ⟨more, Or.inl rfl, ?_⟩⟩
            exact ⟨number, got, gotten, by rw [gotten]⟩
        | ok blk =>
            simp only [gotten]
            have inBlock : pos % blkSize < blkSize := Nat.mod_lt _ (by norm_num)
            have position := Nat.div_add_mod pos blkSize
            obtain ⟨bn, bnEq⟩ : ∃ bn, min (blkSize - pos % blkSize) (stop - pos) = bn :=
              ⟨_, rfl⟩
            simp only [bnEq]
            have turn : Written stubs ino valid map _ (fun i => buf (done + i)) pos (pos + bn) :=
              doc.turn mapValid gotten (by omega)
            rw [Nat.mod_eq_of_lt (show pos + bn < 2 ^ 32 by omega)]
            obtain ⟨reached, middle, lower, upper, written, ends⟩ :=
              @ih (pos + bn) (done + bn) _ turn.valid (by omega) (by omega)
            refine ⟨reached, middle, by omega, upper, ?_, ?_⟩
            · apply turn.append written (by omega) lower
              intro i above
              show buf _ = buf _
              congr 1
              omega
            · rcases ends with whole | ⟨short, place, failed⟩
              · exact Or.inl whole
              · refine Or.inr ⟨short, Or.inr ?_, failed⟩
                rcases place with same | aligned
                · have full : bn = blkSize - pos % blkSize := by omega
                  rw [same, full]
                  simp only [blkSize] at *
                  omega
                · exact aligned
      · have whole : pos = stop := by omega
        rw [Fs.writeLoop, if_neg more]
        exact ⟨pos, map, Nat.le_refl _, start, nothing, Or.inl ⟨whole, rfl⟩⟩

/-! ## inode_set_size -/

theorem Documented.storeSize (doc : Documented stubs ino valid) {map after : Memory}
    {newsize : Nat} (mapValid : valid map) (bound : newsize < 2 ^ 32)
    (stored : storeLE map (ino + iSize) 4 newsize = after) :
    valid after ∧ iSizeOf ino after = newsize ∧
      (∀ n, blockAt stubs after n = blockAt stubs map n) ∧
      ∀ i, byteAt stubs after i = byteAt stubs map i := by
  have outside : ∀ x, x < ino + iSize ∨ ino + iSize + 4 ≤ x → after x = map x := by
    intro x apart
    rw [← stored]
    exact storeLE_outside apart
  have own : ∀ x, ¬ OwnByte stubs ino map x → after x = map x := by
    intro x notOwn
    refine outside x ?_
    by_contra within
    exact notOwn (Or.inr (by omega))
  obtain ⟨stays, places⟩ := doc.own mapValid own
  refine ⟨stays, ?_, places, fun i => ?_⟩
  · rw [iSizeOf, ← stored, loadLE_storeLE]
    omega
  · refine Kept.byteAt ⟨places _, fun blk place x lower upper => outside x ?_⟩
    have size := doc.inode mapValid place
    omega

theorem Documented.truncate_bytes (doc : Documented stubs ino valid) {map : Memory}
    {newsize : Nat} (mapValid : valid map) (shorter : newsize < iSizeOf ino map) (i : Nat) :
    byteAt stubs (stubs.truncateBlocks map newsize) i =
      if i < blocksOf newsize * blkSize ∨ blocksOf (iSizeOf ino map) * blkSize ≤ i then
        byteAt stubs map i
      else 0 := by
  have block := (doc.truncate mapValid shorter).2.2 (i / blkSize)
  have position := Nat.div_add_mod i blkSize
  have inBlock : i % blkSize < blkSize := Nat.mod_lt _ (by norm_num)
  generalize blocksOf newsize = low at *
  generalize blocksOf (iSizeOf ino map) = high at *
  simp only [blkSize] at *
  split at block
  · rw [byteAt_none block, if_neg (by omega)]
  · rw [Kept.byteAt block, if_pos (by omega)]

theorem le_blocksOf (size : Nat) : size ≤ blocksOf size * blkSize := by
  simp only [blocksOf, blkSize]
  omega

variable {map : Memory}

theorem Documented.setSize_bytes (doc : Documented stubs ino valid) (mapValid : valid map)
    {newsize : Nat} (bound : newsize < 2 ^ 32) :
    valid (inodeSetSize stubs ino map newsize) ∧
      iSizeOf ino (inodeSetSize stubs ino map newsize) = newsize ∧
      ∀ i < blocksOf newsize * blkSize,
        byteAt stubs (inodeSetSize stubs ino map newsize) i = byteAt stubs map i := by
  unfold inodeSetSize
  split
  · rename_i shorter
    obtain ⟨cutValid, _, _⟩ := doc.truncate mapValid shorter
    obtain ⟨stays, size, _, bytes⟩ := doc.storeSize cutValid bound rfl
    refine ⟨stays, size, fun i below => ?_⟩
    rw [bytes, doc.truncate_bytes mapValid shorter, if_pos (Or.inl below)]
  · obtain ⟨stays, size, _, bytes⟩ := doc.storeSize mapValid bound rfl
    exact ⟨stays, size, fun i _ => bytes i⟩

theorem Documented.extend (doc : Documented stubs ino valid) (mapValid : valid map)
    {newsize : Nat} (bound : newsize < 2 ^ 32) {after : Memory}
    (grown : (if iSizeOf ino map < newsize then inodeSetSize stubs ino map newsize
      else map) = after) :
    valid after ∧ iSizeOf ino after = max (iSizeOf ino map) newsize ∧
      (∀ n, blockAt stubs after n = blockAt stubs map n) ∧
      ∀ i, byteAt stubs after i = byteAt stubs map i := by
  split at grown
  · rename_i longer
    rw [inodeSetSize, if_neg (by omega)] at grown
    rw [max_eq_right (by omega)]
    exact doc.storeSize mapValid bound grown
  · rw [← grown, max_eq_left (by omega)]
    exact ⟨mapValid, rfl, fun _ => rfl, fun _ => rfl⟩

theorem Documented.inodeWrite (doc : Documented stubs ino valid) (mapValid : valid map)
    {buf : Nat → UInt8} {fuel count offset : Nat} (bound : offset + count < 2 ^ 32)
    (enough : count < fuel) :
    ∃ grown reached middle, valid grown ∧
      iSizeOf ino grown = max (iSizeOf ino map) (offset + count) ∧
      (∀ n, blockAt stubs grown n = blockAt stubs map n) ∧
      (∀ i, byteAt stubs grown i = byteAt stubs map i) ∧
      offset ≤ reached ∧ reached ≤ offset + count ∧
      Written stubs ino valid grown middle buf offset reached ∧
      (reached = offset + count ∧
          Fs.inodeWrite stubs ino fuel map buf count offset = (.ok (intOf count), middle) ∨
        reached < offset + count ∧ (reached = offset ∨ reached % blkSize = 0) ∧
          ∃ number after, stubs.getBlock middle (reached / blkSize) = (.error number, after) ∧
          Fs.inodeWrite stubs ino fuel map buf count offset =
            (.error (.errno number), after)) := by
  have stop : (offset + count) % 2 ^ 64 = offset + count := Nat.mod_eq_of_lt (by omega)
  obtain ⟨grown, grows⟩ : ∃ grown, (if iSizeOf ino map < offset + count then
      inodeSetSize stubs ino map (offset + count) else map) = grown := ⟨_, rfl⟩
  obtain ⟨grownValid, size, places, bytes⟩ := doc.extend mapValid bound grows
  obtain ⟨reached, middle, lower, upper, written, ends⟩ :=
    @Documented.writeLoop _ _ _ doc buf (offset + count) fuel offset 0 _ grownValid
      (Nat.le_add_right _ _) bound (by omega)
  simp only [Nat.zero_add] at written
  refine ⟨grown, reached, middle, grownValid, size, places, bytes, lower, upper, written, ?_⟩
  simp only [Fs.inodeWrite, stop, Nat.mod_eq_of_lt bound, grows]
  rcases ends with ⟨whole, loop⟩ | ⟨short, place, number, after, refused, loop⟩
  · exact Or.inl ⟨whole, by rw [loop]⟩
  · exact Or.inr ⟨short, place, number, after, refused, by rw [loop]⟩

/-! ## inode_read -/

theorem readChunk_bytes {pos bn : Nat} {pblkno : Option Nat} {out : List UInt8}
    (walked : readWalk stubs map (pos / blkSize) = .ok pblkno)
    (fits : pos % blkSize + bn ≤ blkSize)
    (ran : readChunk map pblkno (pos % blkSize) bn = .ok out) :
    out = (List.range' pos bn).map (byteAt stubs map) := by
  have position := Nat.div_add_mod pos blkSize
  have chunk : ∀ k < bn, (pos + k) / blkSize = pos / blkSize ∧
      (pos + k) % blkSize = pos % blkSize + k := by
    intro k below
    simp only [blkSize] at *
    omega
  rw [List.range'_eq_map_range, List.map_map]
  have absent : blockAt stubs map (pos / blkSize) = none →
      List.replicate bn 0 = (List.range bn).map (byteAt stubs map ∘ (pos + ·)) := by
    intro none
    symm
    rw [List.eq_replicate_iff]
    refine ⟨by simp, fun byte member => ?_⟩
    obtain ⟨k, below, rfl⟩ := List.mem_map.mp member
    refine byteAt_none ?_
    rw [(chunk k (List.mem_range.mp below)).1]
    exact none
  have block : ∀ slot, stubs.blockWalk map (pos / blkSize) = .ok slot →
      blockAt stubs map (pos / blkSize) = if loadLE map slot 4 = 0 then none
        else (diskblock2memaddr map (loadLE map slot 4)).toOption := by
    intro slot found
    rw [blockAt, found]
  unfold readWalk at walked
  split at walked
  · rename_i slot found
    cases walked
    simp only [readChunk] at ran
    split at ran
    · rename_i zero
      cases ran
      exact absent (by rw [block slot found, if_pos zero])
    · rename_i nonzero
      obtain ⟨blk, address, rest⟩ := bind_eq_ok.mp ran
      cases rest
      have place : blockAt stubs map (pos / blkSize) = some blk := by
        rw [block slot found, if_neg nonzero, address]
        rfl
      refine List.map_congr_left fun k member => ?_
      obtain ⟨sameBlock, offset⟩ := chunk k (List.mem_range.mp member)
      simp only [Function.comp]
      rw [byteAt_some (sameBlock ▸ place), offset, Nat.add_assoc]
  · rename_i missing
    cases walked
    cases ran
    exact absent (by rw [blockAt, missing])
  · cases walked

theorem readLoop_bytes {stop togo pos : Nat} {out : List UInt8} (bound : stop < 2 ^ 32)
    (enough : stop ≤ pos + togo) (ran : readLoop stubs map stop togo pos = .ok out) :
    out = (List.range' pos (stop - pos)).map (byteAt stubs map) := by
  induction togo generalizing pos out with
  | zero =>
      cases ran
      rw [Nat.sub_eq_zero_of_le (by omega)]
      rfl
  | succ togo ih =>
      rw [readLoop] at ran
      split at ran
      · obtain ⟨pblkno, walked, rest⟩ := bind_eq_ok.mp ran
        have inBlock : pos % blkSize < blkSize := Nat.mod_lt _ (by norm_num)
        obtain ⟨bn, bnEq⟩ : ∃ bn, min (blkSize - pos % blkSize) (stop - pos) = bn := ⟨_, rfl⟩
        simp only [bnEq] at rest
        obtain ⟨bytes, chunk, rest⟩ := bind_eq_ok.mp rest
        obtain ⟨others, loop, rest⟩ := bind_eq_ok.mp rest
        cases rest
        rw [Nat.mod_eq_of_lt (by omega)] at loop
        have split : stop - pos = bn + (stop - (pos + bn)) := by omega
        rw [readChunk_bytes walked (by omega) chunk, ih (by omega) loop, split,
          ← List.range'_append_1, List.map_append]
      · cases ran
        rw [Nat.sub_eq_zero_of_le (by omega)]
        rfl

theorem inodeRead_bytes {count offset : Nat} {out : List UInt8}
    (bound : iSizeOf ino map < 2 ^ 32) (ran : inodeRead stubs ino map count offset = .ok out) :
    out = (List.range' offset (min count (iSizeOf ino map - offset))).map
      (byteAt stubs map) := by
  unfold inodeRead at ran
  split at ran
  · cases ran
    rw [Nat.sub_eq_zero_of_le (by omega), Nat.min_zero]
    rfl
  · have loop := readLoop_bytes (by omega) (Nat.le_refl _) ran
    rw [loop, Nat.add_sub_cancel_left]

end Bytes

end OsLabs.Fs
