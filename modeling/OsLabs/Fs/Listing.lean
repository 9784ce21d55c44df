import OsLabs.Fs.Directory
import OsLabs.Fs.ReadWrite

/-!
# Listing a directory

`fs_readdir` of fsdriver.c passes the entries on until the filler refuses one, and a later
call goes on behind the last one it took.
-/

set_option autoImplicit false

namespace OsLabs.Fs

open OsLabs.ByteMemory OsLabs.ExceptRules

/-- The names that a filler took, with the offsets behind them, and whether it refused one. -/
structure Listing where
  accepted : List (List UInt8 × Nat)
  refused : Bool
  deriving DecidableEq, Repr

section Calls

variable (stubs : InodeStubs) (dir : Nat)

/-- `while ((r = inode_read(dir, &dent, sizeof(dent), offset)) > 0)` with the bytes of `dent`
and the number of names passed on so far.  The filler takes a name as `accept` says. -/
def readdirLoop (map : Memory) (accept : Nat → Bool) :
    Nat → List UInt8 → Nat → Nat → Except Stop Listing
  | 0, _, _, _ => .error .running
  | fuel + 1, dent, offset, passed =>
      match inodeRead stubs dir map direntSize (offset % 2 ^ 32) with
      | .error (.errno _) => .ok ⟨[], false⟩
      | .error stopped => .error stopped
      | .ok bytes =>
          if bytes = [] then .ok ⟨[], false⟩
          else
            let dent := bytes ++ dent.drop bytes.length
            let offset := offset + bytes.length
            if dent.getD dName 0 = 0 then readdirLoop map accept fuel dent offset passed
            else if accept passed then do
              let later ← readdirLoop map accept fuel dent offset (passed + 1)
              .ok ⟨((dent.drop dName).take nameMax, offset) :: later.accepted, later.refused⟩
            else .ok ⟨[], true⟩

def fsReaddir (fuel : Nat) (map : Memory) (time : Nat) (accept : Nat → Bool)
    (dent : List UInt8) (offset : Nat) : Except Stop (Listing × Memory) := do
  let listing ← readdirLoop stubs dir map accept fuel dent offset 0
  .ok (listing, if listing.refused then map else storeLE map (dir + iAtime) 8 time)

end Calls

/-- Calls until one in which nothing is refused; each goes on at the offset that came with
the last name the one before it took. -/
inductive Resumed (call : Nat → Nat → Except Stop (Listing × Memory)) :
    Nat → Nat → List Listing → Prop where
  | last {number offset : Nat} {listing : Listing} {after : Memory} :
      call number offset = .ok (listing, after) → listing.refused = false →
      Resumed call number offset [listing]
  | more {number offset next : Nat} {listing : Listing} {after : Memory} {name : List UInt8}
      {rest : List Listing} : call number offset = .ok (listing, after) →
      listing.refused = true → listing.accepted.getLast? = some (name, next) →
      Resumed call (number + 1) next rest → Resumed call number offset (listing :: rest)

/-! ## The entries in use -/

section Entries

variable {stubs : InodeStubs} {dir : Nat} {valid : Memory → Prop} {map : Memory}

/-- `d_name` of an entry. -/
def entryName (bytes : Nat → UInt8) (k : Nat) : List UInt8 :=
  (List.range nameMax).map fun i => bytes (k * direntSize + dName + i)

def entryUsed (bytes : Nat → UInt8) (k : Nat) : Bool := bytes (k * direntSize + dName) != 0

/-- The entries in use from entry `k` on, with the offsets behind them. -/
def listedFrom (bytes : Nat → UInt8) (entries k : Nat) : List (List UInt8 × Nat) :=
  ((List.range' k (entries - k)).filter (entryUsed bytes)).map fun k =>
    (entryName bytes k, (k + 1) * direntSize)

theorem listedFrom_end {bytes : Nat → UInt8} {entries k : Nat} (beyond : entries ≤ k) :
    listedFrom bytes entries k = [] := by
  rw [listedFrom, Nat.sub_eq_zero_of_le beyond]
  rfl

theorem listedFrom_step {bytes : Nat → UInt8} {entries k : Nat} (inside : k < entries) :
    listedFrom bytes entries k =
      if entryUsed bytes k then
        (entryName bytes k, (k + 1) * direntSize) :: listedFrom bytes entries (k + 1)
      else listedFrom bytes entries (k + 1) := by
  have length : entries - k = entries - (k + 1) + 1 := by omega
  rw [listedFrom, length, List.range'_succ, List.filter_cons]
  split
  · rfl
  · rfl

/-! ## One call -/

theorem dent_fields (bytes : Nat → UInt8) (k : Nat) (rest : List UInt8) :
    ((List.range' (k * direntSize) direntSize).map bytes ++ rest).getD dName 0 =
        bytes (k * direntSize + dName) ∧
      (((List.range' (k * direntSize) direntSize).map bytes ++ rest).drop dName).take nameMax =
        entryName bytes k := by
  have length : ((List.range' (k * direntSize) direntSize).map bytes).length = direntSize := by
    rw [List.length_map, List.length_range']
  constructor
  · rw [List.getD_eq_getElem?_getD, List.getElem?_append_left (by rw [length]; decide)]
    simp [dName, direntSize]
  · rw [List.drop_append_of_le_length (by rw [length]; decide),
      List.take_append_of_le_length (by rw [List.length_drop, length]; decide), entryName,
      List.range'_eq_map_range]
    apply List.ext_getElem
    · simp [nameMax, dName, direntSize]
    · intro i inside _
      simp [Nat.add_assoc]

theorem WalkDocumented.entry (walk : WalkDocumented stubs valid) (mapValid : valid map)
    {entries k : Nat} (size : iSizeOf dir map = entries * direntSize) (inside : k < entries) :
    inodeRead stubs dir map direntSize (k * direntSize % 2 ^ 32) =
      .ok ((List.range' (k * direntSize) direntSize).map (byteAt stubs map)) := by
  have bound := iSizeOf_lt dir map
  have small : k * direntSize % 2 ^ 32 = k * direntSize := by
    simp only [direntSize] at *
    omega
  have length : min direntSize (iSizeOf dir map - k * direntSize) = direntSize := by
    simp only [direntSize] at *
    omega
  rw [small, walk.read mapValid, length]

theorem WalkDocumented.atEnd (walk : WalkDocumented stubs valid) (mapValid : valid map)
    {entries : Nat} (size : iSizeOf dir map = entries * direntSize) :
    inodeRead stubs dir map direntSize (entries * direntSize % 2 ^ 32) = .ok [] := by
  have bound := iSizeOf_lt dir map
  rw [← size, Nat.mod_eq_of_lt bound, walk.read mapValid, Nat.sub_self, Nat.min_zero]
  rfl

/-- What a call that starts at entry `k` passes on is the entries in use up to `next`, and the
last of them comes with the offset of `next`. -/
structure Passes (bytes : Nat → UInt8) (entries k next : Nat) (listing : Listing) : Prop where
  upper : next ≤ entries
  listed : listedFrom bytes entries k = listing.accepted ++ listedFrom bytes entries next
  ended : listing.refused = false → listedFrom bytes entries next = []
  resumes : listing.refused = true → ∀ last, listing.accepted.getLast? = some last →
    last.2 = next * direntSize ∧ k < next

section Passes

variable {bytes : Nat → UInt8} {entries k next : Nat} {listing : Listing}

theorem passes_end : Passes bytes entries entries entries ⟨[], false⟩ where
  upper := Nat.le_refl _
  listed := rfl
  ended := fun _ => listedFrom_end (Nat.le_refl _)
  resumes := by
    intro impossible
    cases impossible

theorem passes_refused (start : k ≤ entries) : Passes bytes entries k k ⟨[], true⟩ where
  upper := start
  listed := rfl
  ended := by
    intro impossible
    cases impossible
  resumes := by
    intro _ last impossible
    cases impossible

theorem Passes.free (passes : Passes bytes entries (k + 1) next listing)
    (inside : k < entries) (unused : entryUsed bytes k = false) :
    Passes bytes entries k next listing where
  upper := passes.upper
  listed := by
    rw [listedFrom_step inside, if_neg (by simp [unused])]
    exact passes.listed
  ended := passes.ended
  resumes := by
    intro refused last isLast
    obtain ⟨offset, further⟩ := passes.resumes refused last isLast
    exact ⟨offset, by omega⟩

/-- Where nothing is taken after this name, the next call goes on behind it. -/
theorem Passes.used (passes : Passes bytes entries (k + 1) next listing)
    (inside : k < entries) (used : entryUsed bytes k = true) :
    ∃ next, Passes bytes entries k next
      ⟨(entryName bytes k, (k + 1) * direntSize) :: listing.accepted, listing.refused⟩ := by
  have step := @listedFrom_step bytes entries k inside
  rw [if_pos used] at step
  cases others : listing.accepted with
  | nil =>
      have whole := passes.listed
      rw [others, List.nil_append] at whole
      refine ⟨k + 1, ⟨inside, step, ?_, ?_⟩⟩
      · intro finished
        rw [whole]
        exact passes.ended finished
      · intro _ last isLast
        cases isLast
        exact ⟨rfl, by omega⟩
  | cons head tail =>
      refine ⟨next, ⟨passes.upper, ?_, passes.ended, ?_⟩⟩
      · rw [step, passes.listed, others]
        rfl
      · intro refused last isLast
        rw [List.getLast?_cons_cons, ← others] at isLast
        obtain ⟨offset, further⟩ := passes.resumes refused last isLast
        exact ⟨offset, by omega⟩

end Passes

/-- The loop passes on the entries in use, and a name is taken before one is refused where the
filler takes the first. -/
theorem WalkDocumented.readdirLoop (walk : WalkDocumented stubs valid) (mapValid : valid map)
    {entries k fuel passed : Nat} {accept : Nat → Bool} {dent : List UInt8}
    (size : iSizeOf dir map = entries * direntSize) (start : k ≤ entries)
    (enough : entries - k < fuel) :
    ∃ listing next, Fs.readdirLoop stubs dir map accept fuel dent (k * direntSize) passed =
        .ok listing ∧
      Passes (byteAt stubs map) entries k next listing ∧
      (listing.refused = true → accept passed = true → listing.accepted ≠ []) := by
  induction fuel generalizing k passed dent with
  | zero => omega
  | succ fuel ih =>
      rw [Fs.readdirLoop]
      by_cases inside : k < entries
      · rw [walk.entry mapValid size inside]
        obtain ⟨bytes, bytesEq⟩ : ∃ bytes,
            (List.range' (k * direntSize) direntSize).map (byteAt stubs map) = bytes := ⟨_, rfl⟩
        have length : bytes.length = direntSize := by
          rw [← bytesEq, List.length_map, List.length_range']
        have some : bytes ≠ [] := by
          rintro rfl
          cases length
        obtain ⟨first, name⟩ :=
          dent_fields (byteAt stubs map) k (dent.drop bytes.length)
        have after : k * direntSize + bytes.length = (k + 1) * direntSize := by
          rw [length, Nat.succ_mul]
        rw [bytesEq] at first name ⊢
        simp only [if_neg some, first, name, after]
        by_cases free : byteAt stubs map (k * direntSize + dName) = 0
        · have unused : entryUsed (byteAt stubs map) k = false := by simp [entryUsed, free]
          rw [if_pos free]
          obtain ⟨listing, next, ran, passes, taken⟩ :=
            @ih (k + 1) passed (bytes ++ dent.drop bytes.length) (by omega) (by omega)
          exact ⟨listing, next, ran, passes.free inside unused, taken⟩
        · have used : entryUsed (byteAt stubs map) k = true := by simp [entryUsed, free]
          rw [if_neg free]
          by_cases accepted : accept passed = true
          · rw [if_pos accepted]
            obtain ⟨listing, _, ran, passes, _⟩ :=
              @ih (k + 1) (passed + 1) (bytes ++ dent.drop bytes.length) (by omega) (by omega)
            obtain ⟨next, more⟩ := passes.used inside used
            rw [ran, ok_bind]
            exact ⟨_, next, rfl, more, fun _ _ => List.cons_ne_nil _ _⟩
          · rw [if_neg accepted]
            exact ⟨_, k, rfl, passes_refused start, fun _ taken => absurd taken accepted⟩
      · obtain rfl : k = entries := by omega
        rw [walk.atEnd mapValid size]
        refine ⟨⟨[], false⟩, k, rfl, passes_end, ?_⟩
        intro impossible
        cases impossible

/-! ## A sequence of calls -/

structure Contents (stubs : InodeStubs) (dir : Nat) (valid : Memory → Prop) (length : Nat)
    (content : Nat → UInt8) (map : Memory) : Prop where
  valid : valid map
  size : iSizeOf dir map = length
  bytes : ∀ i < length, byteAt stubs map i = content i

theorem Contents.listed {size entries : Nat} {bytes : Nat → UInt8}
    (contents : Contents stubs dir valid size bytes map) (whole : size = entries * direntSize)
    (k : Nat) : listedFrom (byteAt stubs map) entries k = listedFrom bytes entries k := by
  have same : (List.range' k (entries - k)).filter (entryUsed (byteAt stubs map)) =
      (List.range' k (entries - k)).filter (entryUsed bytes) := by
    apply List.filter_congr
    intro entry member
    have inside := List.mem_range'_1.mp member
    simp only [entryUsed]
    rw [contents.bytes]
    simp only [direntSize, dName] at *
    omega
  rw [listedFrom, listedFrom, same]
  apply List.map_congr_left
  intro entry member
  have inside := List.mem_range'_1.mp (List.mem_of_mem_filter member)
  congr 1
  apply List.map_congr_left
  intro i below
  apply contents.bytes
  have short := List.mem_range.mp below
  simp only [direntSize, dName, nameMax] at *
  omega

theorem Contents.passes {size entries k next : Nat} {bytes : Nat → UInt8} {listing : Listing}
    (contents : Contents stubs dir valid size bytes map) (whole : size = entries * direntSize)
    (passes : Passes (byteAt stubs map) entries k next listing) :
    Passes bytes entries k next listing where
  upper := passes.upper
  listed := by
    rw [← contents.listed whole, ← contents.listed whole]
    exact passes.listed
  ended := by
    intro finished
    rw [← contents.listed whole]
    exact passes.ended finished
  resumes := passes.resumes

variable {size fuel entries : Nat} {bytes : Nat → UInt8} {maps : Nat → Memory}
  {times : Nat → Nat} {accepts : Nat → Nat → Bool} {dents : Nat → List UInt8}

theorem WalkDocumented.fsReaddir (walk : WalkDocumented stubs valid)
    (contents : Contents stubs dir valid size bytes map) (whole : size = entries * direntSize)
    (enough : entries < fuel) {k : Nat} (start : k ≤ entries) (time : Nat)
    (accept : Nat → Bool) (dent : List UInt8) :
    ∃ listing after next, Fs.fsReaddir stubs dir fuel map time accept dent (k * direntSize) =
        .ok (listing, after) ∧
      Passes bytes entries k next listing ∧
      (listing.refused = true → accept 0 = true → listing.accepted ≠ []) := by
  obtain ⟨listing, next, ran, passes, taken⟩ :=
    @WalkDocumented.readdirLoop _ _ _ _ walk contents.valid entries k fuel 0 accept dent
      (contents.size.trans whole) start (by omega)
  refine ⟨listing, if listing.refused then map else storeLE map (dir + iAtime) 8 time, next,
    ?_, contents.passes whole passes, taken⟩
  rw [Fs.fsReaddir, ran, ok_bind]

theorem Resumed.lists (walk : WalkDocumented stubs valid)
    (contents : ∀ number, Contents stubs dir valid size bytes (maps number))
    (whole : size = entries * direntSize) (enough : entries < fuel) {number k offset : Nat}
    {listings : List Listing} (start : k ≤ entries) (here : offset = k * direntSize)
    (resumed : Resumed (fun number offset => fsReaddir stubs dir fuel (maps number)
      (times number) (accepts number) (dents number) offset) number offset listings) :
    listings.flatMap Listing.accepted = listedFrom bytes entries k := by
  induction resumed generalizing k with
  | @last number offset listing after ran finished =>
      obtain ⟨_, _, next, again, passes, _⟩ := walk.fsReaddir
        (contents number) whole enough start (times number) (accepts number) (dents number)
      rw [here, again] at ran
      cases ran
      rw [passes.listed, passes.ended finished]
      simp
  | @more number offset next listing after name rest ran refused isLast _ ih =>
      obtain ⟨_, _, place, again, passes, _⟩ := walk.fsReaddir
        (contents number) whole enough start (times number) (accepts number) (dents number)
      rw [here, again] at ran
      cases ran
      rw [List.flatMap_cons, ih passes.upper (passes.resumes refused _ isLast).1, passes.listed]

/-- A call is the last one, or its last name comes with the offset of a later entry. -/
theorem WalkDocumented.advances (walk : WalkDocumented stubs valid)
    (contents : Contents stubs dir valid size bytes map) (whole : size = entries * direntSize)
    (enough : entries < fuel) {k : Nat} (start : k ≤ entries) (time : Nat)
    {accept : Nat → Bool} (takes : accept 0 = true) (dent : List UInt8) :
    ∃ listing after, Fs.fsReaddir stubs dir fuel map time accept dent (k * direntSize) =
        .ok (listing, after) ∧
      (listing.refused = false ∨ listing.refused = true ∧ ∃ name next,
        listing.accepted.getLast? = some (name, next * direntSize) ∧ k < next ∧
          next ≤ entries) := by
  obtain ⟨listing, after, next, ran, passes, taken⟩ :=
    walk.fsReaddir contents whole enough start time accept dent
  refine ⟨listing, after, ran, ?_⟩
  cases refused : listing.refused with
  | false => exact Or.inl rfl
  | true =>
      obtain ⟨⟨name, place⟩, isLast⟩ := Option.ne_none_iff_exists'.mp fun none =>
        taken refused takes (List.getLast?_eq_none_iff.mp none)
      obtain ⟨offset, further⟩ := passes.resumes refused _ isLast
      simp only at offset
      rw [offset] at isLast
      exact Or.inr ⟨rfl, name, next, isLast, further, passes.upper⟩

theorem WalkDocumented.resumed (walk : WalkDocumented stubs valid)
    (contents : ∀ number, Contents stubs dir valid size bytes (maps number))
    (whole : size = entries * direntSize) (enough : entries < fuel)
    (takes : ∀ number, accepts number 0 = true) {togo k : Nat} (start : k ≤ entries)
    (left : entries - k ≤ togo) (number : Nat) :
    ∃ listings, Resumed (fun number offset => Fs.fsReaddir stubs dir fuel (maps number)
      (times number) (accepts number) (dents number) offset) number (k * direntSize)
      listings := by
  induction togo generalizing k number with
  | zero =>
      obtain ⟨listing, after, ran, finished | ⟨_, _, next, _, further, upper⟩⟩ :=
        walk.advances (contents number) whole enough start (times number) (takes number)
          (dents number)
      · exact ⟨[listing], .last ran finished⟩
      · omega
  | succ togo ih =>
      obtain ⟨listing, after, ran, finished | ⟨refused, name, next, isLast, further, upper⟩⟩ :=
        walk.advances (contents number) whole enough start (times number) (takes number)
          (dents number)
      · exact ⟨[listing], .last ran finished⟩
      · obtain ⟨rest, later⟩ := ih upper (by omega) (number + 1)
        exact ⟨listing :: rest, .more ran refused isLast later⟩

/-- The names that the fillers of a sequence of calls take are those of the entries in use,
each once and in the order of the entries; every sequence comes to its end. -/
theorem fsReaddir_complete (walk : WalkDocumented stubs valid)
    (contents : ∀ number, Contents stubs dir valid size bytes (maps number))
    (blocks : size % blkSize = 0) (enough : size / direntSize < fuel)
    (takes : ∀ number, accepts number 0 = true) :
    (∃ listings, Resumed (fun number offset => fsReaddir stubs dir fuel (maps number)
      (times number) (accepts number) (dents number) offset) 0 0 listings) ∧
    ∀ listings, Resumed (fun number offset => fsReaddir stubs dir fuel (maps number)
        (times number) (accepts number) (dents number) offset) 0 0 listings →
      (listings.flatMap Listing.accepted).map Prod.fst =
        ((List.range (size / direntSize)).filter (entryUsed bytes)).map (entryName bytes) := by
  have whole : size = size / direntSize * direntSize := by
    simp only [blkSize, direntSize] at *
    omega
  have first : (0 : Nat) = 0 * direntSize := (Nat.zero_mul _).symm
  constructor
  · rw [first]
    exact walk.resumed contents whole enough takes (Nat.zero_le _) (Nat.le_refl _) 0
  · intro listings resumed
    rw [resumed.lists walk contents whole enough (Nat.zero_le _) first, listedFrom,
      List.map_map, Nat.sub_zero, ← List.range_eq_range']
    rfl

end Entries

/-- Entry 1 has the name `a`, entry 3 the name `b`, and the others are free. -/
def twoNames : Nat → UInt8 := fun i => if i = 132 then 97 else if i = 388 then 98 else 0

theorem twoNames_contents :
    ∃ map, Contents sparseStubs directIno DirectValid 4096 twoNames map := by
  have answer : (inodeWrite sparseStubs directIno 4097 directMap twoNames 4096 0).1 =
      .ok 4096 := by
    decide +kernel
  obtain ⟨grown, reached, map, _, size, _, _, _, _, written, ends⟩ :=
    @Documented.inodeWrite _ _ _ _ sparseStubs_documented.toDocumented directMap_fresh.valid
      twoNames 4097 4096 0 (by norm_num) (by norm_num)
  rcases ends with ⟨rfl, ran⟩ | ⟨_, _, number, after, _, ran⟩
  · refine ⟨map, written.valid, ?_, ?_⟩
    · rw [written.size, size, directMap_fresh.size]
      rfl
    · intro i below
      rw [written.bytes, if_pos (by omega), Nat.sub_zero]
  · rw [ran] at answer
    cases answer

/-- The first call takes one name and refuses the next. -/
theorem fsReaddir_complete_sample : ∃ map listings,
    Resumed (fun number offset => fsReaddir sparseStubs directIno 33 map 0
      (fun passed => number != 0 || passed == 0) [] offset) 0 0 listings ∧
    (listings.flatMap Listing.accepted).map Prod.fst =
      [97 :: List.replicate 123 0, 98 :: List.replicate 123 0] := by
  obtain ⟨map, contents⟩ := twoNames_contents
  obtain ⟨⟨listings, resumed⟩, complete⟩ :=
    @fsReaddir_complete sparseStubs directIno DirectValid 4096 33 twoNames (fun _ => map)
      (fun _ => 0) (fun number passed => number != 0 || passed == 0) (fun _ => [])
      sparseStubs_walk (fun _ => contents) (by decide) (by decide) (fun _ => by simp)
  refine ⟨map, listings, resumed, ?_⟩
  rw [complete listings resumed]
  decide +kernel

end OsLabs.Fs
