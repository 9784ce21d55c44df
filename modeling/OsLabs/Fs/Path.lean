import OsLabs.Fs.Directory
import OsLabs.Lib.ExceptRules
import Mathlib.Data.List.TakeWhile

/-!
# Path names

`walk_path` of dir.c, a scanner with a lookup after every element, and the walk over the
list of the elements.  A null pointer is `none`, and a string stands without its final zero.
-/

set_option autoImplicit false

namespace OsLabs.Fs

open OsLabs.ByteMemory OsLabs.ExceptRules

abbrev pathMax : Nat := 1024

def slash : UInt8 := 47

/-- `S_ISDIR` of `i_mode`. -/
def isDir (map : Memory) (ino : Nat) : Bool :=
  loadLE map (ino + iMode) 4 &&& 0o170000 == 0o040000

def skipSlash : List UInt8 → List UInt8
  | [] => []
  | byte :: rest => if byte = slash then skipSlash rest else byte :: rest

/-- What the pointers given to `walk_path` point to. -/
structure Outputs where
  pdir : Option Nat
  pino : Option Nat
  pdent : Option Nat
  lastelem : List UInt8
  deriving DecidableEq, Repr

structure Cursor where
  dir : Option Nat
  ino : Nat
  dent : Option Nat
  deriving DecidableEq, Repr

section Walk

variable (stubs : Nat → InodeStubs)

/-- `while (*path != '\0')` with the rest of the path. -/
def walkLoop : Nat → Memory → List UInt8 → Cursor → Outputs → Except Stop Unit × Outputs × Memory
  | _, map, [], cur, out => (.ok (), ⟨cur.dir, some cur.ino, cur.dent, out.lastelem⟩, map)
  | 0, map, _ :: _, _, out => (.error .running, out, map)
  | fuel + 1, map, byte :: rest, cur, out =>
      let dir := cur.ino
      let name := (byte :: rest).takeWhile (· ≠ slash)
      let path := (byte :: rest).dropWhile (· ≠ slash)
      if nameMax ≤ name.length then (.error (.errno .inval), out, map)
      else
        let path := skipSlash path
        if ¬ isDir map dir then (.error (.errno .noent), out, map)
        else
          match dirLookup (stubs dir) dir map name with
          | (.ok (dent, ino), map) => walkLoop fuel map path ⟨some dir, ino, some dent⟩ out
          | (.error stopped, map) =>
              if stopped = .errno .noent ∧ path = [] then
                (.error stopped, ⟨some dir, none, none, name⟩, map)
              else (.error stopped, out, map)

def walkPath (map : Memory) (path : List UInt8) (out : Outputs) :
    Except Stop Unit × Outputs × Memory :=
  if pathMax ≤ path.length then (.error (.errno .nametoolong), out, map)
  else
    match diskblock2memaddr map (loadLE map sRoot 4) with
    | .error stopped => (.error stopped, out, map)
    | .ok root =>
        walkLoop stubs path.length map (skipSlash path) ⟨none, root, none⟩
          { out with pdir := none, pino := none, pdent := none }

/-! ## The walk over the elements -/

def resolveStep (map : Memory) (cur : Cursor) (name : List UInt8) : Except Stop Cursor :=
  if nameMax ≤ name.length then .error (.errno .inval)
  else if ¬ isDir map cur.ino then .error (.errno .noent)
  else
    (dirLookup (stubs cur.ino) cur.ino map name).1.map fun found =>
      ⟨some cur.ino, found.2, some found.1⟩

def resolve (map : Memory) (root : Nat) (names : List (List UInt8)) : Except Stop Cursor :=
  names.foldlM (resolveStep stubs map) ⟨none, root, none⟩

inductive InTree (map : Memory) (root : Nat) : Nat → Prop where
  | root : InTree map root root
  | child {dir d ino : Nat} {name : List UInt8} : InTree map root dir → isDir map dir →
      name.length < nameMax → (dirLookup (stubs dir) dir map name).1 = .ok (d, ino) →
      InTree map root ino

/-- The blocks of every directory are there, and `inode_get_block` returns them. -/
structure TreeReady (map : Memory) (root : Nat) : Prop where
  allocated : ∀ {dir}, InTree stubs map root dir → isDir map dir →
    Allocated (stubs dir) dir map
  returns : ∀ {dir}, InTree stubs map root dir → isDir map dir →
    Returns (stubs dir) dir (· = map)

/-- Lookups of the `good` names lead from `known` inodes to `known` inodes and change
nothing. -/
structure Walkable (map : Memory) (known : Nat → Prop) (good : List UInt8 → Prop) : Prop where
  looks : ∀ {dir name}, known dir → isDir map dir → name.length < nameMax → good name →
    dirLookup (stubs dir) dir map name = (.error .assertion, map) ∨
      dirLookup (stubs dir) dir map name = (firstNamed (stubs dir) dir map name, map)
  child : ∀ {dir d ino name}, known dir → isDir map dir → name.length < nameMax → good name →
    (dirLookup (stubs dir) dir map name).1 = .ok (d, ino) → known ino

def MissingIn (map : Memory) (dir : Nat) (name : List UInt8) : Prop :=
  isDir map dir ∧ name.length < nameMax ∧
    ∀ k ∈ entriesOf dir map, NameAt (byteAt (stubs dir) map) k name = false

end Walk

def segments (path : List UInt8) : List (List UInt8) :=
  (path.splitOn slash).filter (· ≠ [])

/-! ## The elements of a path -/

theorem segments_nil : segments [] = [] := by
  simp [segments]

theorem segments_append (front back : List UInt8) :
    segments (front ++ slash :: back) = segments front ++ segments back := by
  simp only [segments, List.splitOn_append_cons_self, List.filter_append]

theorem segments_single {name : List UInt8} (free : slash ∉ name) (some : name ≠ []) :
    segments name = [name] := by
  simp [segments, List.splitOn_eq_singleton free, some]

theorem segments_skipSlash (path : List UInt8) : segments (skipSlash path) = segments path := by
  induction path with
  | nil => rfl
  | cons byte rest ih =>
      rw [skipSlash]
      split
      · rename_i here
        have front := segments_append [] rest
        rw [segments_nil, List.nil_append, List.nil_append] at front
        rw [ih, here, front]
      · rfl

theorem skipSlash_suffix (path : List UInt8) : skipSlash path <:+ path := by
  induction path with
  | nil => exact List.suffix_refl _
  | cons byte rest ih =>
      rw [skipSlash]
      split
      · exact ih.trans (List.suffix_cons ..)
      · exact List.suffix_refl _

theorem skipSlash_length (path : List UInt8) : (skipSlash path).length ≤ path.length :=
  (skipSlash_suffix path).length_le

theorem skipSlash_skipSlash (path : List UInt8) :
    skipSlash (skipSlash path) = skipSlash path := by
  induction path with
  | nil => rfl
  | cons byte rest ih =>
      rw [skipSlash]
      split
      · exact ih
      · rename_i other
        rw [skipSlash, if_neg other]

theorem dropWhile_slash (path : List UInt8) :
    path.dropWhile (· ≠ slash) = [] ∨ ∃ rest, path.dropWhile (· ≠ slash) = slash :: rest := by
  induction path with
  | nil => exact Or.inl rfl
  | cons byte rest ih =>
      by_cases here : byte = slash
      · exact Or.inr ⟨rest, by simp [here]⟩
      · simpa [List.dropWhile_cons, here] using ih

/-- The element that the scanner takes is the first, and the others are those of the rest. -/
theorem segments_scan {byte : UInt8} {rest : List UInt8} (other : byte ≠ slash) :
    segments (byte :: rest) = (byte :: rest).takeWhile (· ≠ slash) ::
      segments (skipSlash ((byte :: rest).dropWhile (· ≠ slash))) := by
  obtain ⟨name, nameEq⟩ : ∃ name, (byte :: rest).takeWhile (· ≠ slash) = name := ⟨_, rfl⟩
  have whole : byte :: rest = name ++ (byte :: rest).dropWhile (· ≠ slash) := by
    rw [← nameEq, List.takeWhile_append_dropWhile]
  have free : slash ∉ name := by
    intro member
    rw [← nameEq] at member
    simpa using List.mem_takeWhile_imp member
  have nonempty : name ≠ [] := by
    rw [← nameEq]
    simp [other]
  rw [nameEq, segments_skipSlash]
  rcases dropWhile_slash (byte :: rest) with done | ⟨later, more⟩
  · rw [done, List.append_nil] at whole
    rw [done, segments_nil, whole, segments_single free nonempty]
  · have back := segments_append [] later
    rw [segments_nil, List.nil_append, List.nil_append] at back
    rw [more] at whole ⊢
    rw [whole, segments_append, segments_single free nonempty, back]
    rfl

theorem skipSlash_fixed {byte : UInt8} {rest : List UInt8}
    (front : skipSlash (byte :: rest) = byte :: rest) : byte ≠ slash := by
  intro here
  have shorter := skipSlash_length rest
  rw [skipSlash, if_pos here] at front
  rw [front, List.length_cons] at shorter
  omega

theorem scan_shorter {byte : UInt8} {rest : List UInt8} (other : byte ≠ slash) :
    (skipSlash ((byte :: rest).dropWhile (· ≠ slash))).length ≤ rest.length := by
  have skipped := skipSlash_length ((byte :: rest).dropWhile (· ≠ slash))
  rw [List.dropWhile_cons_of_pos (by simpa using other)] at skipped ⊢
  exact skipped.trans (List.dropWhile_suffix _).length_le

theorem scan_induction {motive : List UInt8 → Prop} (done : motive [])
    (scan : ∀ byte rest, byte ≠ slash →
      motive (skipSlash ((byte :: rest).dropWhile (· ≠ slash))) → motive (byte :: rest))
    {path : List UInt8} (front : skipSlash path = path) : motive path := by
  obtain ⟨size, bound⟩ : ∃ size, path.length ≤ size := ⟨path.length, Nat.le_refl _⟩
  induction size generalizing path with
  | zero =>
      rw [List.length_eq_zero_iff.mp (Nat.le_zero.mp bound)]
      exact done
  | succ size ih =>
      cases path with
      | nil => exact done
      | cons byte rest =>
          have other := skipSlash_fixed front
          apply scan byte rest other
          apply ih (skipSlash_skipSlash _)
          exact (scan_shorter other).trans (Nat.le_of_succ_le_succ bound)

/-- After the slashes nothing is left exactly when there is no element. -/
theorem segments_eq_nil {path : List UInt8} (front : skipSlash path = path) :
    segments path = [] ↔ path = [] := by
  cases path with
  | nil => simp [segments_nil]
  | cons byte rest =>
      rw [segments_scan (skipSlash_fixed front)]
      simp

section Resolve

variable {stubs : Nat → InodeStubs} {map : Memory} {root : Nat}

/-! ## Lookups on the way -/

theorem TreeReady.lookup (ready : TreeReady stubs map root) {dir : Nat} {name : List UInt8}
    (tree : InTree stubs map root dir) (directory : isDir map dir)
    (short : name.length < nameMax) :
    dirLookup (stubs dir) dir map name = (.error .assertion, map) ∨
      dirLookup (stubs dir) dir map name = (firstNamed (stubs dir) dir map name, map) := by
  by_cases whole : iSizeOf dir map % blkSize = 0
  · obtain ⟨after, same, found⟩ := (ready.returns tree directory).lookup rfl whole
      (ready.allocated tree directory) short
    rw [same.valid] at found
    exact Or.inr found
  · exact Or.inl (by rw [dirLookup, if_pos whole])

theorem TreeReady.walkable (ready : TreeReady stubs map root) :
    Walkable stubs map (InTree stubs map root) (fun _ => True) where
  looks := fun tree directory short _ => ready.lookup tree directory short
  child := fun tree directory short _ found => .child tree directory short found

variable {known : Nat → Prop} {good : List UInt8 → Prop}

theorem Walkable.lookup_map (walkable : Walkable stubs map known good) {dir : Nat}
    {name : List UInt8} (here : known dir) (directory : isDir map dir)
    (short : name.length < nameMax) (fits : good name) :
    (dirLookup (stubs dir) dir map name).2 = map := by
  rcases walkable.looks here directory short fits with asserted | found
  · rw [asserted]
  · rw [found]

theorem firstNamed_noent {dirStubs : InodeStubs} {dir : Nat} {name : List UInt8} :
    firstNamed dirStubs dir map name = .error (.errno .noent) ↔
      ∀ k ∈ entriesOf dir map, NameAt (byteAt dirStubs map) k name = false := by
  rw [firstNamed]
  cases found : (entriesOf dir map).find? fun k => NameAt (byteAt dirStubs map) k name with
  | none =>
      have missing := List.find?_eq_none.mp found
      simpa using missing
  | some k =>
      have member := List.mem_of_find?_eq_some found
      have named := List.find?_some found
      constructor
      · intro failed
        simp only [entryFound, diskblock2memaddr] at failed
        split at failed <;> cases failed
      · intro missing
        rw [missing k member] at named
        cases named

theorem Walkable.step_noent (walkable : Walkable stubs map known good) {cur : Cursor}
    {name : List UInt8} (here : known cur.ino) (fits : good name)
    (failed : resolveStep stubs map cur name = .error (.errno .noent)) :
    MissingIn stubs map cur.ino name ↔ isDir map cur.ino := by
  rw [resolveStep] at failed
  split at failed
  · cases failed
  · rename_i short
    split at failed
    · rename_i other
      constructor
      · intro missing
        exact missing.1
      · intro directory
        exact absurd directory other
    · rename_i directory
      have directory := not_not.mp directory
      have short := not_le.mp short
      constructor
      · intro missing
        exact missing.1
      · intro _
        refine ⟨directory, short, firstNamed_noent.mp ?_⟩
        rcases walkable.looks here directory short fits with asserted | found
        · rw [asserted] at failed
          cases failed
        · rw [found] at failed
          cases first : firstNamed (stubs cur.ino) cur.ino map name with
          | error stopped =>
              rw [first] at failed
              cases failed
              rfl
          | ok answer =>
              rw [first] at failed
              cases failed

theorem resolveStep_found {cur next : Cursor} {name : List UInt8}
    (stepped : resolveStep stubs map cur name = .ok next) :
    isDir map cur.ino ∧ name.length < nameMax ∧
      ∃ d, (dirLookup (stubs cur.ino) cur.ino map name).1 = .ok (d, next.ino) := by
  rw [resolveStep] at stepped
  split at stepped
  · cases stepped
  · rename_i short
    split at stepped
    · cases stepped
    · rename_i directory
      cases found : (dirLookup (stubs cur.ino) cur.ino map name).1 with
      | error stopped =>
          rw [found] at stepped
          cases stepped
      | ok answer =>
          rw [found] at stepped
          cases stepped
          exact ⟨not_not.mp directory, not_le.mp short, answer.1, rfl⟩

theorem Walkable.step (walkable : Walkable stubs map known good) {cur next : Cursor}
    {name : List UInt8} (here : known cur.ino) (fits : good name)
    (stepped : resolveStep stubs map cur name = .ok next) : known next.ino := by
  obtain ⟨directory, short, d, found⟩ := resolveStep_found stepped
  exact walkable.child here directory short fits found

/-! ## The scanner -/

def walkSegments (stubs : Nat → InodeStubs) (map : Memory) :
    List (List UInt8) → Cursor → Outputs → Except Stop Unit × Outputs
  | [], cur, out => (.ok (), ⟨cur.dir, some cur.ino, cur.dent, out.lastelem⟩)
  | name :: rest, cur, out =>
      match resolveStep stubs map cur name with
      | .ok next => walkSegments stubs map rest next out
      | .error stopped =>
          if stopped = .errno .noent ∧ rest = [] ∧ isDir map cur.ino then
            (.error stopped, ⟨some cur.ino, none, none, name⟩)
          else (.error stopped, out)

theorem Walkable.loop (walkable : Walkable stubs map known good) {fuel : Nat}
    {path : List UInt8} {cur : Cursor} {out : Outputs} (enough : path.length ≤ fuel)
    (front : skipSlash path = path) (fits : ∀ name ∈ segments path, good name)
    (here : known cur.ino) :
    walkLoop stubs fuel map path cur out =
      ((walkSegments stubs map (segments path) cur out).1,
        (walkSegments stubs map (segments path) cur out).2, map) := by
  induction fuel generalizing path cur with
  | zero =>
      have empty : path = [] := List.length_eq_zero_iff.mp (Nat.le_zero.mp enough)
      rw [empty, segments_nil]
      rfl
  | succ fuel ih =>
      cases path with
      | nil =>
          rw [segments_nil]
          rfl
      | cons byte rest =>
          have other := skipSlash_fixed front
          obtain ⟨name, nameEq⟩ : ∃ name, (byte :: rest).takeWhile (· ≠ slash) = name :=
            ⟨_, rfl⟩
          obtain ⟨path, pathEq⟩ : ∃ path,
              skipSlash ((byte :: rest).dropWhile (· ≠ slash)) = path := ⟨_, rfl⟩
          have shorter : path.length ≤ fuel := by
            rw [← pathEq]
            exact (scan_shorter other).trans (Nat.le_of_succ_le_succ enough)
          have again : skipSlash path = path := by
            rw [← pathEq, skipSlash_skipSlash]
          rw [segments_scan other, nameEq, pathEq] at fits
          have nameFits := fits name (List.mem_cons_self ..)
          rw [segments_scan other]
          simp only [walkLoop, nameEq, pathEq, walkSegments, resolveStep]
          by_cases long : nameMax ≤ name.length
          · rw [if_pos long, if_pos long]
            simp
          · rw [if_neg long, if_neg long]
            by_cases directory : isDir map cur.ino
            · have place := walkable.lookup_map here directory (not_le.mp long) nameFits
              cases found : dirLookup (stubs cur.ino) cur.ino map name with
              | mk answer after =>
                  rw [found] at place
                  cases place
                  cases answer with
                  | error stopped =>
                      simp only [directory, segments_eq_nil again, not_true, if_false,
                        Except.map, and_true]
                      split <;> rfl
                  | ok answer =>
                      simp only [directory, not_true, if_false, Except.map]
                      apply ih shorter again
                      · intro other member
                        exact fits other (List.mem_cons_of_mem _ member)
                      · exact walkable.child here directory (not_le.mp long) nameFits
                          (by rw [found])
            · simp [directory]

theorem walkSegments_result {names : List (List UInt8)} {cur : Cursor} {out : Outputs} :
    (walkSegments stubs map names cur out).1 =
      (names.foldlM (resolveStep stubs map) cur).map fun _ => () := by
  induction names generalizing cur with
  | nil => rfl
  | cons name rest ih =>
      rw [walkSegments, List.foldlM_cons]
      cases stepped : resolveStep stubs map cur name with
      | ok next => exact ih
      | error stopped =>
          simp only []
          split <;> rfl

theorem walkSegments_found {names : List (List UInt8)} {cur last : Cursor} {out : Outputs}
    (found : names.foldlM (resolveStep stubs map) cur = .ok last) :
    (walkSegments stubs map names cur out).2 =
      ⟨last.dir, some last.ino, last.dent, out.lastelem⟩ := by
  induction names generalizing cur with
  | nil =>
      cases found
      rfl
  | cons name rest ih =>
      rw [List.foldlM_cons] at found
      obtain ⟨next, stepped, others⟩ := bind_eq_ok.mp found
      rw [walkSegments, stepped]
      exact ih others

/-- After `-ENOENT` the outputs tell whether only the last element is missing. -/
theorem Walkable.missing (walkable : Walkable stubs map known good)
    {names : List (List UInt8)} {cur : Cursor} (out : Outputs) (here : known cur.ino)
    (fits : ∀ name ∈ names, good name)
    (failed : names.foldlM (resolveStep stubs map) cur = .error (.errno .noent)) :
    (∃ front last at_dir, names = front ++ [last] ∧
      front.foldlM (resolveStep stubs map) cur = .ok at_dir ∧
      MissingIn stubs map at_dir.ino last ∧
      (walkSegments stubs map names cur out).2 = ⟨some at_dir.ino, none, none, last⟩) ∨
    (∀ front last at_dir, names = front ++ [last] →
      front.foldlM (resolveStep stubs map) cur = .ok at_dir →
      ¬ MissingIn stubs map at_dir.ino last) ∧
      (walkSegments stubs map names cur out).2 = out := by
  induction names generalizing cur with
  | nil => cases failed
  | cons name rest ih =>
      rw [List.foldlM_cons] at failed
      rcases bind_eq_error.mp failed with stopped | ⟨next, stepped, later⟩
      · have missing := walkable.step_noent here (fits name (List.mem_cons_self ..)) stopped
        have first : ∀ front last at_dir, name :: rest = front ++ [last] →
            front.foldlM (resolveStep stubs map) cur = .ok at_dir →
            rest = [] ∧ last = name ∧ at_dir = cur := by
          intro front last at_dir split before
          cases front with
          | nil =>
              cases split
              cases before
              exact ⟨rfl, rfl, rfl⟩
          | cons head others =>
              cases split
              rw [List.foldlM_cons, stopped] at before
              cases before
        simp only [walkSegments, stopped, true_and]
        by_cases ends : rest = [] ∧ isDir map cur.ino
        · left
          refine ⟨[], name, cur, ?_, rfl, missing.mpr ends.2, ?_⟩
          · rw [ends.1]
            rfl
          · rw [if_pos ends]
        · right
          constructor
          · intro front last at_dir split before absent
            obtain ⟨done, rfl, rfl⟩ := first front last at_dir split before
            exact ends ⟨done, missing.mp absent⟩
          · rw [if_neg ends]
      · have walk : walkSegments stubs map (name :: rest) cur out =
            walkSegments stubs map rest next out := by
          rw [walkSegments, stepped]
        have nonempty : rest ≠ [] := by
          rintro rfl
          cases later
        rw [walk]
        rcases ih (walkable.step here (fits name (List.mem_cons_self ..)) stepped)
          (fun other member => fits other (List.mem_cons_of_mem _ member)) later with
          found | ⟨nowhere, same⟩
        · obtain ⟨front, last, at_dir, split, before, absent, answer⟩ := found
          left
          refine ⟨name :: front, last, at_dir, ?_, ?_, absent, answer⟩
          · rw [split]
            rfl
          · rw [List.foldlM_cons, stepped]
            exact before
        · right
          refine ⟨?_, same⟩
          intro front last at_dir split before
          cases front with
          | nil =>
              cases split
              exact absurd rfl nonempty
          | cons head others =>
              cases split
              rw [List.foldlM_cons, stepped] at before
              exact nowhere others last at_dir rfl before

/-- The result and the outputs of a walk over these elements. -/
structure WalkAnswer (stubs : Nat → InodeStubs) (map : Memory) (root : Nat)
    (names : List (List UInt8)) (out : Outputs) (result : Except Stop Unit)
    (outputs : Outputs) : Prop where
  resolved : result = (resolve stubs map root names).map fun _ => ()
  found : ∀ cur, resolve stubs map root names = .ok cur →
    outputs = ⟨cur.dir, some cur.ino, cur.dent, out.lastelem⟩
  pdir : result = .error (.errno .noent) → ∀ dir, outputs.pdir = some dir ↔
    ∃ front last cur, names = front ++ [last] ∧ resolve stubs map root front = .ok cur ∧
      cur.ino = dir ∧ MissingIn stubs map dir last
  lastelem : result = .error (.errno .noent) → outputs.pdir ≠ none →
    names.getLast? = some outputs.lastelem

theorem walkSegments_answer (ready : TreeReady stubs map root) {names : List (List UInt8)}
    {out start : Outputs} (cleared : start = { out with pdir := none, pino := none, pdent := none }) :
    WalkAnswer stubs map root names out (walkSegments stubs map names ⟨none, root, none⟩ start).1
      (walkSegments stubs map names ⟨none, root, none⟩ start).2 := by
  have missing : (walkSegments stubs map names ⟨none, root, none⟩ start).1 =
      .error (.errno .noent) → names.foldlM (resolveStep stubs map) ⟨none, root, none⟩ =
        .error (.errno .noent) := by
    intro failed
    rw [walkSegments_result] at failed
    cases walked : names.foldlM (resolveStep stubs map) ⟨none, root, none⟩ with
    | ok last =>
        rw [walked] at failed
        cases failed
    | error stopped =>
        rw [walked] at failed
        cases failed
        rfl
  constructor
  · exact walkSegments_result
  · intro cur walked
    rw [walkSegments_found walked, cleared]
  · intro failed dir
    rcases ready.walkable.missing start .root (fun _ _ => trivial)
      (missing failed) with here | nowhere
    · obtain ⟨front, last, at_dir, split, before, absent, answer⟩ := here
      rw [answer]
      constructor
      · intro found
        cases found
        exact ⟨front, last, at_dir, split, before, rfl, absent⟩
      · rintro ⟨front', last', cur, split', before', rfl, _⟩
        obtain ⟨rfl, _⟩ := List.append_inj' (split.symm.trans split') rfl
        have same := before.symm.trans before'
        cases same
        rfl
    · obtain ⟨none, answer⟩ := nowhere
      rw [answer, cleared]
      constructor
      · intro found
        cases found
      · rintro ⟨front, last, cur, split, before, rfl, absent⟩
        exact absurd absent (none front last cur split before)
  · intro failed some
    rcases ready.walkable.missing start .root (fun _ _ => trivial)
      (missing failed) with here | nowhere
    · obtain ⟨front, last, at_dir, split, _, _, answer⟩ := here
      rw [answer, split, List.getLast?_concat]
    · rw [nowhere.2, cleared] at some
      exact absurd rfl some

theorem Walkable.walkPath (walkable : Walkable stubs map known good) (here : known root)
    (super : diskblock2memaddr map (loadLE map sRoot 4) = .ok root) {path : List UInt8}
    (short : path.length < pathMax) (fits : ∀ name ∈ segments path, good name) (out : Outputs)
    {start : Outputs} (cleared : start = { out with pdir := none, pino := none, pdent := none }) :
    walkPath stubs map path out =
      ((walkSegments stubs map (segments path) ⟨none, root, none⟩ start).1,
        (walkSegments stubs map (segments path) ⟨none, root, none⟩ start).2, map) := by
  have loop := @Walkable.loop _ _ _ _ walkable path.length (skipSlash path) ⟨none, root, none⟩
    start (skipSlash_length path) (skipSlash_skipSlash path)
    (by rw [segments_skipSlash]; exact fits) here
  rw [segments_skipSlash] at loop
  rw [Fs.walkPath, if_neg (not_le.mpr short), super]
  simp only []
  rw [← loop, cleared]

/-- A path that is too long is refused; any other is resolved element by element, and only
its elements matter. -/
theorem walkPath_resolves (ready : TreeReady stubs map root)
    (super : diskblock2memaddr map (loadLE map sRoot 4) = .ok root) (path : List UInt8)
    (out : Outputs) :
    (pathMax ≤ path.length →
      walkPath stubs map path out = (.error (.errno .nametoolong), out, map)) ∧
    (path.length < pathMax → ∃ result outputs,
      walkPath stubs map path out = (result, outputs, map) ∧
      WalkAnswer stubs map root (segments path) out result outputs ∧
      ∀ other, other.length < pathMax → segments other = segments path →
        walkPath stubs map other out = (result, outputs, map)) := by
  constructor
  · intro long
    rw [walkPath, if_pos long]
  · intro _
    obtain ⟨start, cleared⟩ : ∃ start : Outputs,
        start = { out with pdir := none, pino := none, pdent := none } := ⟨_, rfl⟩
    have walks : ∀ other : List UInt8, other.length < pathMax →
        segments other = segments path → walkPath stubs map other out =
          ((walkSegments stubs map (segments path) ⟨none, root, none⟩ start).1,
            (walkSegments stubs map (segments path) ⟨none, root, none⟩ start).2, map) := by
      intro other short same
      rw [ready.walkable.walkPath .root super short (fun _ _ => trivial) out cleared, same]
    exact ⟨_, _, walks path (by assumption) rfl, walkSegments_answer ready cleared, walks⟩

end Resolve

/-- The sample image with its inode as an empty root directory. -/
def rootMap : Memory :=
  storeLE (storeLE directMap sRoot 4 3) (directIno + iMode) 4 0o040755

def plainStubs (ino : Nat) : InodeStubs where
  blockWalk _ n := if n < nDirect then .ok (ino + iDirect + 4 * n) else .error .inval
  getBlock map n :=
    if n < nDirect then
      match diskblock2memaddr map (loadLE map (ino + iDirect + 4 * n) 4) with
      | .ok blk => (.ok blk, map)
      | .error _ => (.error .nospc, map)
    else (.error .inval, map)
  truncateBlocks map _ := map

theorem plainStubs_returns (ino : Nat) (map : Memory) :
    Returns (plainStubs ino) ino (· = map) := by
  rintro _ rfl n there
  refine ⟨_, ?_, .refl rfl⟩
  obtain ⟨blk, place⟩ := Option.ne_none_iff_exists'.mp there
  rw [dirBlock_eq place]
  simp only [blockAt, plainStubs] at place ⊢
  by_cases inside : n < nDirect
  · simp only [if_pos inside] at place ⊢
    split at place
    · cases place
    · cases address : diskblock2memaddr _ (loadLE _ (ino + iDirect + 4 * n) 4) with
      | error stopped =>
          rw [address] at place
          cases place
      | ok found =>
          rw [address] at place
          cases place
          rfl
  · simp [if_neg inside] at place

/-- The inode in block `number` is a directory of one block. -/
def putDirectory (map : Memory) (number block : Nat) : Memory :=
  storeLE (storeLE (storeLE map (number * blkSize + iMode) 4 0o040755)
    (number * blkSize + iSize) 4 blkSize) (number * blkSize + iDirect) 4 block

def putEntry (map : Memory) (block k : Nat) (byte : UInt8) (number : Nat) : Memory :=
  storeLE (storeLE map (block * blkSize + k * direntSize + dName) 1 byte.toNat)
    (block * blkSize + k * direntSize + dInum) 4 number

/-- The root has the directory `d` as its entry 1 and a file `f` as its entry 3, and `d` has
a file `e` as its entry 2. -/
def homeMap : Memory :=
  putEntry (putDirectory (putEntry (putEntry (putDirectory (storeLE directMap sRoot 4 3) 3 16)
    16 1 100 5) 16 3 102 7) 5 17) 17 2 101 8

theorem homeMap_directory {dir : Nat} (member : dir ∈ [3 * blkSize, 5 * blkSize]) :
    iSizeOf dir homeMap = blkSize ∧ blockAt (plainStubs dir) homeMap 0 ≠ none ∧
      ∀ k ∈ entriesOf dir homeMap, entryInum (byteAt (plainStubs dir) homeMap) k ∈ [0, 5, 7, 8] := by
  have both : ∀ dir ∈ [3 * blkSize, 5 * blkSize], iSizeOf dir homeMap = blkSize ∧
      blockAt (plainStubs dir) homeMap 0 ≠ none ∧ ∀ k ∈ entriesOf dir homeMap,
        entryInum (byteAt (plainStubs dir) homeMap) k ∈ [0, 5, 7, 8] := by
    decide +kernel
  exact both dir member

theorem homeMap_allocated {dir : Nat} (member : dir ∈ [3 * blkSize, 5 * blkSize]) :
    Allocated (plainStubs dir) dir homeMap := by
  obtain ⟨size, there, _⟩ := homeMap_directory member
  intro n below
  rw [size, Nat.div_self (by norm_num)] at below
  obtain rfl : n = 0 := by omega
  exact there

theorem homeMap_address {number place : Nat} (member : number ∈ [0, 5, 7, 8])
    (address : diskblock2memaddr homeMap number = .ok place) :
    place ∈ [3 * blkSize, 5 * blkSize, 7 * blkSize, 8 * blkSize] := by
  have blocks : loadLE homeMap sNblocks 4 = 64 := by decide +kernel
  rw [diskblock2memaddr, blocks] at address
  split at address
  · cases address
  · cases address
    revert number
    decide

/-- The tree is the four inodes, and the two files are no directories. -/
theorem homeMap_tree {ino : Nat} (tree : InTree plainStubs homeMap (3 * blkSize) ino) :
    ino ∈ [3 * blkSize, 5 * blkSize, 7 * blkSize, 8 * blkSize] ∧
      (isDir homeMap ino → ino ∈ [3 * blkSize, 5 * blkSize]) := by
  have directories : ∀ ino ∈ [3 * blkSize, 5 * blkSize, 7 * blkSize, 8 * blkSize],
      isDir homeMap ino → ino ∈ [3 * blkSize, 5 * blkSize] := by
    decide +kernel
  suffices here : ino ∈ [3 * blkSize, 5 * blkSize, 7 * blkSize, 8 * blkSize] from
    ⟨here, directories ino here⟩
  induction tree with
  | root => simp
  | @child dir d ino name _ directory short found ih =>
      have member := directories dir ih directory
      obtain ⟨size, _, inums⟩ := homeMap_directory member
      obtain ⟨after, _, looked⟩ := (plainStubs_returns dir homeMap).lookup rfl
        (by rw [size]; rfl) (homeMap_allocated member) short
      rw [looked, firstNamed] at found
      cases first : (entriesOf dir homeMap).find? fun k =>
          NameAt (byteAt (plainStubs dir) homeMap) k name with
      | none =>
          rw [first] at found
          cases found
      | some k =>
          have inum := inums k (List.mem_of_find?_eq_some first)
          rw [first] at found
          simp only [entryFound] at found
          cases address : diskblock2memaddr homeMap
              (entryInum (byteAt (plainStubs dir) homeMap) k) with
          | error stopped =>
              rw [address] at found
              cases found
          | ok place =>
              rw [address] at found
              cases found
              exact homeMap_address inum address

theorem homeMap_ready : TreeReady plainStubs homeMap (3 * blkSize) where
  allocated := fun tree directory => homeMap_allocated ((homeMap_tree tree).2 directory)
  returns := fun {dir} _ _ => plainStubs_returns dir homeMap

/-- The path `//d//e/` leads to the file `e`, and `/d/g` is missing in `d`. -/
theorem walkPath_resolves_sample :
    walkPath plainStubs homeMap [47, 47, 100, 47, 47, 101, 47] ⟨none, none, none, [66]⟩ =
        (.ok (), ⟨some (5 * blkSize), some (8 * blkSize), some (17 * blkSize + 2 * direntSize),
          [66]⟩, homeMap) ∧
      walkPath plainStubs homeMap [100, 47, 101] ⟨none, none, none, [66]⟩ =
        walkPath plainStubs homeMap [47, 47, 100, 47, 47, 101, 47] ⟨none, none, none, [66]⟩ ∧
      (walkPath plainStubs homeMap [47, 100, 47, 103] ⟨none, none, none, [66]⟩).2.1.pdir =
        some (5 * blkSize) := by
  have resolves := fun path => walkPath_resolves homeMap_ready (by decide +kernel) path
    ⟨none, none, none, [66]⟩
  refine ⟨?_, ?_, ?_⟩
  · obtain ⟨result, outputs, ran, answer, _⟩ :=
      (resolves [47, 47, 100, 47, 47, 101, 47]).2 (by decide)
    have found : resolve plainStubs homeMap (3 * blkSize)
        (segments [47, 47, 100, 47, 47, 101, 47]) =
        .ok ⟨some (5 * blkSize), 8 * blkSize, some (17 * blkSize + 2 * direntSize)⟩ := by
      decide +kernel
    rw [ran, answer.found _ found, answer.resolved, found]
    rfl
  · obtain ⟨result, outputs, ran, _, same⟩ :=
      (resolves [47, 47, 100, 47, 47, 101, 47]).2 (by decide)
    rw [ran, same [100, 47, 101] (by decide) (by decide)]
  · obtain ⟨result, outputs, ran, answer, _⟩ := (resolves [47, 100, 47, 103]).2 (by decide)
    have missing : resolve plainStubs homeMap (3 * blkSize) (segments [47, 100, 47, 103]) =
        .error (.errno .noent) := by
      decide +kernel
    have failed : result = .error (.errno .noent) := by
      rw [answer.resolved, missing]
      rfl
    rw [ran]
    apply (answer.pdir failed (5 * blkSize)).mpr
    exact ⟨[[100]], [103], ⟨some (3 * blkSize), 5 * blkSize, some (16 * blkSize + direntSize)⟩,
      by decide, by decide +kernel, rfl, by decide +kernel, by decide, by decide +kernel⟩

end OsLabs.Fs
