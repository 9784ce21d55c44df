import Mathlib.Data.List.Basic
import Mathlib.Data.List.Infix
import Mathlib.Tactic

/-!
# Radix trees stored in a heap of nodes

A node has one entry for each index; `child` says which node an entry points
to, if any.  A path of indices is followed from a root by `descend`, and `trail`
collects the entries read on the way.  The tree is `Unshared` up to a depth when
no node is reached along two different paths.

Two writes keep such a tree: replacing an entry of a node at full depth, and
linking an empty fresh node into an absent entry.  Each has one lemma for the
nodes reached afterwards and one for the entries read afterwards.  Entries that are
cut, in a tree of any shape, only take paths away.
-/

set_option autoImplicit false

namespace OsLabs.RadixTree

variable {Node Index Entry : Type} [DecidableEq Node] [DecidableEq Index]
variable (child : Entry → Option Node)

/-- The node reached from `node` along a path. -/
def descend (slot : Node → Index → Entry) : Node → List Index → Option Node
  | node, [] => some node
  | node, index :: rest =>
      (child (slot node index)).bind fun next => descend slot next rest

/-- The entries read along a path, when every one of them points somewhere. -/
def trail (slot : Node → Index → Entry) : Node → List Index → Option (List Entry)
  | _, [] => some []
  | node, index :: rest =>
      (child (slot node index)).bind fun next =>
        (trail slot next rest).map (slot node index :: ·)

/-- `node` is in the tree, at most `depth` edges below the root. -/
def Reaches (slot : Node → Index → Entry) (root : Node) (depth : Nat)
    (node : Node) : Prop :=
  ∃ path : List Index, path.length ≤ depth ∧
    descend child slot root path = some node

def Unshared (slot : Node → Index → Entry) (root : Node) (depth : Nat) : Prop :=
  ∀ (left right : List Index) (node : Node),
    left.length ≤ depth → right.length ≤ depth →
    descend child slot root left = some node →
    descend child slot root right = some node → left = right

def update (slot : Node → Index → Entry) (node : Node) (index : Index)
    (entry : Entry) : Node → Index → Entry := fun other position =>
  if other = node ∧ position = index then entry else slot other position

def clear (slot : Node → Index → Entry) (node : Node) (empty : Entry) :
    Node → Index → Entry := fun other position =>
  if other = node then empty else slot other position

variable {child}

/-! ## Following a path -/

omit [DecidableEq Node] [DecidableEq Index] in
theorem descend_append (slot : Node → Index → Entry) (root : Node)
    (front back : List Index) :
    descend child slot root (front ++ back) =
      (descend child slot root front).bind fun node =>
        descend child slot node back := by
  induction front generalizing root with
  | nil => rfl
  | cons index rest ih =>
      simp only [List.cons_append, descend]
      cases child (slot root index) with
      | none => rfl
      | some next => exact ih next

omit [DecidableEq Node] [DecidableEq Index] in
theorem descend_snoc (slot : Node → Index → Entry) (root node : Node)
    (path : List Index) (index : Index)
    (here : descend child slot root path = some node) :
    descend child slot root (path ++ [index]) = child (slot node index) := by
  rw [descend_append, here]
  simp only [Option.bind_some, descend]
  cases child (slot node index) <;> rfl

omit [DecidableEq Node] [DecidableEq Index] in
theorem trail_append (slot : Node → Index → Entry) (root : Node)
    (front back : List Index) :
    trail child slot root (front ++ back) =
      (descend child slot root front).bind fun node =>
        (trail child slot root front).bind fun entries =>
          (trail child slot node back).map (entries ++ ·) := by
  induction front generalizing root with
  | nil => simp [descend, trail]
  | cons index rest ih =>
      simp only [List.cons_append, descend, trail]
      cases child (slot root index) with
      | none => rfl
      | some next =>
          simp only [Option.bind_some, ih next]
          cases descend child slot next rest with
          | none => rfl
          | some node =>
              cases trail child slot next rest with
              | none => rfl
              | some entries => simp [Function.comp_def]

omit [DecidableEq Node] [DecidableEq Index] in
theorem trail_snoc (slot : Node → Index → Entry) (root node : Node)
    (path : List Index) (index : Index) (entries : List Entry)
    (here : descend child slot root path = some node)
    (read : trail child slot root path = some entries) :
    trail child slot root (path ++ [index]) =
      (child (slot node index)).map fun _ => entries ++ [slot node index] := by
  rw [trail_append, here, read]
  simp only [Option.bind_some, trail]
  cases child (slot node index) <;> rfl

omit [DecidableEq Node] [DecidableEq Index] in
/-- A path can be followed exactly when all its entries are present. -/
theorem trail_isSome_iff (child : Entry → Option Node)
    (slot : Node → Index → Entry) (root : Node)
    (path : List Index) :
    (trail child slot root path).isSome = (descend child slot root path).isSome := by
  induction path generalizing root with
  | nil => rfl
  | cons index rest ih =>
      simp only [descend, trail]
      cases child (slot root index) with
      | none => rfl
      | some next => simpa using ih next

omit [DecidableEq Node] [DecidableEq Index] in
theorem trail_present (slot : Node → Index → Entry) (root : Node)
    (path : List Index) (entries : List Entry)
    (read : trail child slot root path = some entries) :
    ∀ entry ∈ entries, child entry ≠ none := by
  induction path generalizing root entries with
  | nil =>
      cases read
      simp
  | cons index rest ih =>
      simp only [trail] at read
      obtain ⟨next, edge, read⟩ := Option.bind_eq_some_iff.mp read
      obtain ⟨tail, tailRead, rfl⟩ := Option.map_eq_some_iff.mp read
      intro entry member
      rcases List.mem_cons.mp member with rfl | member
      · rw [edge]
        simp
      · exact ih next tail tailRead entry member

omit [DecidableEq Node] [DecidableEq Index] in
theorem descend_prefix (slot : Node → Index → Entry) (root node : Node)
    (front back : List Index)
    (here : descend child slot root (front ++ back) = some node) :
    ∃ middle, descend child slot root front = some middle ∧
      descend child slot middle back = some node := by
  rw [descend_append] at here
  exact Option.bind_eq_some_iff.mp here

/-! ## A root without children -/

omit [DecidableEq Node] [DecidableEq Index] in
theorem descend_empty {slot : Node → Index → Entry} {root node : Node}
    (empty : ∀ index, child (slot root index) = none) {path : List Index}
    (here : descend child slot root path = some node) : path = [] ∧ node = root := by
  cases path with
  | nil => exact ⟨rfl, (Option.some.inj here).symm⟩
  | cons index rest =>
      rw [descend, empty index] at here
      cases here

omit [DecidableEq Node] [DecidableEq Index] in
theorem unshared_empty {slot : Node → Index → Entry} {root : Node}
    (empty : ∀ index, child (slot root index) = none) (depth : Nat) :
    Unshared child slot root depth := by
  intro left right node _ _ leftHere rightHere
  rw [(descend_empty empty leftHere).1, (descend_empty empty rightHere).1]

omit [DecidableEq Node] [DecidableEq Index] in
theorem reaches_empty {slot : Node → Index → Entry} {root node : Node} {depth : Nat}
    (empty : ∀ index, child (slot root index) = none)
    (reached : Reaches child slot root depth node) : node = root := by
  obtain ⟨path, _, here⟩ := reached
  exact (descend_empty empty here).2

/-! ## Writes that a path does not meet -/

/-- `after` has the entries of `before` at every slot that the path reads. -/
def AgreeAlong (child : Entry → Option Node) (before after : Node → Index → Entry)
    (root : Node) (path : List Index) : Prop :=
  ∀ (front : List Index) (index : Index) (node : Node),
    front ++ [index] <+: path → descend child before root front = some node →
    after node index = before node index

omit [DecidableEq Node] [DecidableEq Index] in
theorem AgreeAlong.tail {before after : Node → Index → Entry} {root next : Node}
    {index : Index} {rest : List Index}
    (agree : AgreeAlong child before after root (index :: rest))
    (edge : child (before root index) = some next) :
    AgreeAlong child before after next rest := by
  intro front position node isPrefix here
  refine agree (index :: front) position node ?_ ?_
  · simpa using isPrefix
  · simpa [descend, edge] using here

omit [DecidableEq Node] [DecidableEq Index] in
theorem descend_congr {before after : Node → Index → Entry} {root : Node}
    {path : List Index} (agree : AgreeAlong child before after root path) :
    descend child after root path = descend child before root path := by
  induction path generalizing root with
  | nil => rfl
  | cons index rest ih =>
      have same : after root index = before root index :=
        agree [] index root (by simp) rfl
      simp only [descend, same]
      cases edge : child (before root index) with
      | none => rfl
      | some next => exact ih (agree.tail edge)

omit [DecidableEq Node] [DecidableEq Index] in
theorem trail_congr {before after : Node → Index → Entry} {root : Node}
    {path : List Index} (agree : AgreeAlong child before after root path) :
    trail child after root path = trail child before root path := by
  induction path generalizing root with
  | nil => rfl
  | cons index rest ih =>
      have same : after root index = before root index :=
        agree [] index root (by simp) rfl
      simp only [trail, same]
      cases edge : child (before root index) with
      | none => rfl
      | some next => simp only [Option.bind_some, ih (agree.tail edge)]

/-! ## Replacing one entry -/

/-- In an unshared tree the slot of a node lies on the paths through it only. -/
theorem agreeAlong_update {slot : Node → Index → Entry} {root node : Node}
    {depth : Nat} {path : List Index} (index : Index) (entry : Entry)
    (unshared : Unshared child slot root depth) (bound : path.length ≤ depth)
    (here : descend child slot root path = some node) {other : List Index}
    (otherBound : other.length ≤ depth + 1)
    (off : ¬ path ++ [index] <+: other) :
    AgreeAlong child slot (update slot node index entry) root other := by
  intro front position reached isPrefix there
  have frontBound : front.length ≤ depth := by
    have := isPrefix.length_le
    simp only [List.length_append, List.length_singleton] at this
    omega
  have different : ¬ (reached = node ∧ position = index) := by
    rintro ⟨rfl, rfl⟩
    have same := unshared front path reached frontBound bound there here
    exact off (same ▸ isPrefix)
  simp only [update, if_neg different]

theorem descend_update {slot : Node → Index → Entry} {root node : Node}
    {depth : Nat} {path : List Index} (index : Index) (entry : Entry)
    (unshared : Unshared child slot root depth) (bound : path.length = depth)
    (here : descend child slot root path = some node) {other : List Index}
    (otherBound : other.length ≤ depth) :
    descend child (update slot node index entry) root other =
      descend child slot root other := by
  apply descend_congr
  apply agreeAlong_update index entry unshared (by omega) here (by omega)
  intro isPrefix
  have := isPrefix.length_le
  simp only [List.length_append, List.length_singleton] at this
  omega

theorem unshared_update {slot : Node → Index → Entry} {root node : Node}
    {depth : Nat} {path : List Index} (index : Index) (entry : Entry)
    (unshared : Unshared child slot root depth) (bound : path.length = depth)
    (here : descend child slot root path = some node) :
    Unshared child (update slot node index entry) root depth := by
  intro left right reached leftBound rightBound leftHere rightHere
  rw [descend_update index entry unshared bound here leftBound] at leftHere
  rw [descend_update index entry unshared bound here rightBound] at rightHere
  exact unshared left right reached leftBound rightBound leftHere rightHere

theorem reaches_update {slot : Node → Index → Entry} {root node : Node}
    {depth : Nat} {path : List Index} (index : Index) (entry : Entry)
    (unshared : Unshared child slot root depth) (bound : path.length = depth)
    (here : descend child slot root path = some node) (other : Node) :
    Reaches child (update slot node index entry) root depth other ↔
      Reaches child slot root depth other := by
  constructor
  · rintro ⟨front, frontBound, there⟩
    rw [descend_update index entry unshared bound here frontBound] at there
    exact ⟨front, frontBound, there⟩
  · rintro ⟨front, frontBound, there⟩
    refine ⟨front, frontBound, ?_⟩
    rw [descend_update index entry unshared bound here frontBound]
    exact there

theorem trail_update_off {slot : Node → Index → Entry} {root node : Node}
    {depth : Nat} {path : List Index} (index : Index) (entry : Entry)
    (unshared : Unshared child slot root depth) (bound : path.length = depth)
    (here : descend child slot root path = some node) {other : List Index}
    (otherBound : other.length ≤ depth + 1) (off : other ≠ path ++ [index]) :
    trail child (update slot node index entry) root other =
      trail child slot root other := by
  apply trail_congr
  apply agreeAlong_update index entry unshared (by omega) here otherBound
  intro isPrefix
  apply off
  symm
  apply isPrefix.eq_of_length_le
  simp only [List.length_append, List.length_singleton]
  omega

theorem trail_update_on {slot : Node → Index → Entry} {root node : Node}
    {depth : Nat} {path : List Index} (index : Index) (entry : Entry)
    (unshared : Unshared child slot root depth) (bound : path.length = depth)
    (here : descend child slot root path = some node) {entries : List Entry}
    (read : trail child slot root path = some entries) :
    trail child (update slot node index entry) root (path ++ [index]) =
      (child entry).map fun _ => entries ++ [entry] := by
  have unmoved : descend child (update slot node index entry) root path =
      descend child slot root path :=
    descend_update index entry unshared bound here (by omega)
  have unread : trail child (update slot node index entry) root path =
      trail child slot root path :=
    trail_update_off index entry unshared bound here (by omega) (by simp)
  rw [trail_snoc _ root node path index entries (unmoved.trans here)
    (unread.trans read)]
  simp [update]

/-! ## Linking a fresh node -/

/-- `entry` points to a node outside the tree and replaces an absent entry. -/
structure Link (child : Entry → Option Node) (slot : Node → Index → Entry)
    (root : Node) (depth : Nat) (path : List Index) (node : Node) (index : Index)
    (entry : Entry) (fresh : Node) (empty : Entry) : Prop where
  unshared : Unshared child slot root depth
  shallow : path.length < depth
  here : descend child slot root path = some node
  absent : child (slot node index) = none
  points : child entry = some fresh
  vacant : child empty = none
  outside : ¬ Reaches child slot root depth fresh

section Linked

variable {slot : Node → Index → Entry} {root node fresh : Node} {depth : Nat}
  {path : List Index} {index : Index} {entry empty : Entry}

/-- The heap after the link: the entry is written and the fresh node cleared. -/
def linked (slot : Node → Index → Entry) (node : Node) (index : Index)
    (entry : Entry) (fresh : Node) (empty : Entry) : Node → Index → Entry :=
  clear (update slot node index entry) fresh empty

omit [DecidableEq Node] [DecidableEq Index] in
theorem Link.node_ne (link : Link child slot root depth path node index entry
    fresh empty) : node ≠ fresh := by
  rintro rfl
  exact link.outside ⟨path, by have := link.shallow; omega, link.here⟩

theorem Link.agreeAlong (link : Link child slot root depth path node index entry
    fresh empty) {other : List Index} (otherBound : other.length ≤ depth + 1)
    (off : ¬ path ++ [index] <+: other) :
    AgreeAlong child slot (linked slot node index entry fresh empty) root other := by
  intro front position reached isPrefix there
  have frontBound : front.length ≤ depth := by
    have := isPrefix.length_le
    simp only [List.length_append, List.length_singleton] at this
    omega
  have inside : reached ≠ fresh := by
    rintro rfl
    exact link.outside ⟨front, frontBound, there⟩
  have agree := agreeAlong_update index entry link.unshared
    (by have := link.shallow; omega) link.here otherBound off
  simp only [linked, clear, if_neg inside]
  exact agree front position reached isPrefix there

theorem Link.descend_below (link : Link child slot root depth path node index
    entry fresh empty) (rest : List Index) :
    descend child (linked slot node index entry fresh empty) root
        (path ++ [index] ++ rest) = if rest = [] then some fresh else none := by
  have off : ¬ path ++ [index] <+: path := by
    intro isPrefix
    have := isPrefix.length_le
    simp at this
  have unmoved := descend_congr (link.agreeAlong
    (by have := link.shallow; omega) off)
  have edge : child (linked slot node index entry fresh empty node index) =
      some fresh := by
    simp [linked, clear, update, link.node_ne, link.points]
  rw [descend_append, descend_snoc _ root node path index
    (unmoved.trans link.here), edge]
  cases rest with
  | nil => rfl
  | cons position rest =>
      have cut : child (linked slot node index entry fresh empty fresh position) =
          none := by
        simp [linked, clear, link.vacant]
      simp [descend, cut]

omit [DecidableEq Node] [DecidableEq Index] in
theorem Link.descend_before (link : Link child slot root depth path node index
    entry fresh empty) (rest : List Index) :
    descend child slot root (path ++ [index] ++ rest) = none := by
  rw [descend_append, descend_snoc slot root node path index link.here,
    link.absent]
  rfl

theorem Link.descend (link : Link child slot root depth path node index entry
    fresh empty) {other : List Index} (otherBound : other.length ≤ depth) :
    RadixTree.descend child (linked slot node index entry fresh empty) root other =
      if other = path ++ [index] then some fresh
      else RadixTree.descend child slot root other := by
  by_cases on : path ++ [index] <+: other
  · obtain ⟨rest, rfl⟩ := on
    rw [link.descend_below rest, link.descend_before rest]
    cases rest <;> simp
  · have different : other ≠ path ++ [index] := by
      rintro rfl
      exact on (List.prefix_refl _)
    rw [if_neg different, descend_congr (link.agreeAlong (by omega) on)]

theorem Link.trail (link : Link child slot root depth path node index entry
    fresh empty) {other : List Index} (otherBound : other.length ≤ depth + 1)
    (different : other ≠ path ++ [index]) :
    RadixTree.trail child (linked slot node index entry fresh empty) root other =
      RadixTree.trail child slot root other := by
  by_cases on : path ++ [index] <+: other
  · obtain ⟨rest, rfl⟩ := on
    have proper : rest ≠ [] := by
      rintro rfl
      simp at different
    have before := trail_isSome_iff child slot root (path ++ [index] ++ rest)
    have after := trail_isSome_iff child
      (linked slot node index entry fresh empty) root (path ++ [index] ++ rest)
    rw [link.descend_before rest] at before
    rw [link.descend_below rest, if_neg proper] at after
    rw [Option.isSome_none, Option.isSome_eq_false_iff, Option.isNone_iff_eq_none]
      at before after
    rw [before, after]
  · exact trail_congr (link.agreeAlong otherBound on)

theorem Link.trail_on (link : Link child slot root depth path node index entry
    fresh empty) {entries : List Entry}
    (read : RadixTree.trail child slot root path = some entries) :
    RadixTree.trail child (linked slot node index entry fresh empty) root
        (path ++ [index]) = some (entries ++ [entry]) := by
  have shallow := link.shallow
  have unmoved : RadixTree.descend child
      (linked slot node index entry fresh empty) root path = some node := by
    rw [link.descend (by omega), if_neg (by simp), link.here]
  have unread : RadixTree.trail child
      (linked slot node index entry fresh empty) root path = some entries := by
    rw [link.trail (by omega) (by simp), read]
  have written : linked slot node index entry fresh empty node index = entry := by
    simp [linked, clear, update, link.node_ne]
  rw [trail_snoc _ root node path index entries unmoved unread,
    written, link.points]
  rfl

theorem Link.reaches (link : Link child slot root depth path node index entry
    fresh empty) (other : Node) :
    Reaches child (linked slot node index entry fresh empty) root depth other ↔
      other = fresh ∨ Reaches child slot root depth other := by
  have shallow := link.shallow
  constructor
  · rintro ⟨front, frontBound, there⟩
    rw [link.descend frontBound] at there
    split at there
    · exact Or.inl (Option.some.inj there).symm
    · exact Or.inr ⟨front, frontBound, there⟩
  · rintro (rfl | ⟨front, frontBound, there⟩)
    · refine ⟨path ++ [index], by simpa using shallow, ?_⟩
      rw [link.descend (by simpa using shallow), if_pos rfl]
    · have different : front ≠ path ++ [index] := by
        rintro rfl
        have cut := link.descend_before []
        simp only [List.append_nil] at cut
        rw [cut] at there
        cases there
      exact ⟨front, frontBound, by rw [link.descend frontBound, if_neg different, there]⟩

theorem Link.unshared_after (link : Link child slot root depth path node index
    entry fresh empty) :
    Unshared child (linked slot node index entry fresh empty) root depth := by
  intro left right reached leftBound rightBound leftHere rightHere
  rw [link.descend leftBound] at leftHere
  rw [link.descend rightBound] at rightHere
  split at leftHere <;> split at rightHere
  · next leftOn rightOn => rw [leftOn, rightOn]
  · next leftOn rightOff =>
      cases leftHere
      exact absurd ⟨right, rightBound, rightHere⟩ link.outside
  · next leftOff rightOn =>
      cases rightHere
      exact absurd ⟨left, leftBound, leftHere⟩ link.outside
  · exact link.unshared left right reached leftBound rightBound leftHere rightHere

end Linked

/-! ## Cutting entries -/

/-- `after` is `before` with some entries made childless. -/
def Cut (child : Entry → Option Node) (before after : Node → Index → Entry) : Prop :=
  ∀ node index, after node index = before node index ∨ child (after node index) = none

omit [DecidableEq Node] [DecidableEq Index] in
theorem Cut.refl (slot : Node → Index → Entry) : Cut child slot slot :=
  fun _ _ => Or.inl rfl

omit [DecidableEq Node] [DecidableEq Index] in
theorem Cut.trans {first second third : Node → Index → Entry}
    (left : Cut child first second) (right : Cut child second third) :
    Cut child first third := by
  intro node index
  rcases right node index with same | gone
  · rw [same]
    exact left node index
  · exact Or.inr gone

theorem Cut.of_update (slot : Node → Index → Entry) (node : Node) (index : Index)
    {entry : Entry} (childless : child entry = none) :
    Cut child slot (update slot node index entry) := by
  intro other position
  by_cases here : other = node ∧ position = index
  · right
    rw [update, if_pos here]
    exact childless
  · left
    rw [update, if_neg here]

omit [DecidableEq Node] [DecidableEq Index] in
theorem Cut.descend {before after : Node → Index → Entry}
    (cut : Cut child before after) {root node : Node} {path : List Index}
    (here : RadixTree.descend child after root path = some node) :
    RadixTree.descend child before root path = some node := by
  induction path generalizing root with
  | nil => exact here
  | cons index rest ih =>
      simp only [RadixTree.descend] at here ⊢
      obtain ⟨next, edge, below⟩ := Option.bind_eq_some_iff.mp here
      rcases cut root index with same | gone
      · rw [← same, edge]
        exact ih below
      · rw [gone] at edge
        cases edge

omit [DecidableEq Node] [DecidableEq Index] in
theorem Cut.trail_none {before after : Node → Index → Entry}
    (cut : Cut child before after) {root : Node} {path : List Index}
    (broken : RadixTree.trail child before root path = none) :
    RadixTree.trail child after root path = none := by
  have gone := trail_isSome_iff child before root path
  have left := trail_isSome_iff child after root path
  rw [broken] at gone
  cases there : RadixTree.descend child after root path with
  | none =>
      rw [there] at left
      simpa using left
  | some node =>
      rw [cut.descend there] at gone
      cases gone

end OsLabs.RadixTree
