import Mathlib.Data.List.Infix
import Mathlib.Tactic

/-!
# Maps from paths

What the paths of a tree lead to, without the tree: a node is added under a new path, a path
is cut off with everything behind it, and a path is carried to another.
-/

set_option autoImplicit false

namespace OsLabs.PathMap

variable {Step Node : Type} [DecidableEq Step]

/-- One path more. -/
def graft (path : List Step) (node : Node) (map : List Step → Option Node) :
    List Step → Option Node := fun names => if names = path then some node else map names

/-- A path less, with everything behind it. -/
def prune (path : List Step) (map : List Step → Option Node) : List Step → Option Node :=
  fun names => if path <+: names then none else map names

/-- Everything from `src` on is found from `dst` on. -/
def carry (src dst : List Step) (map : List Step → Option Node) : List Step → Option Node :=
  fun names =>
    if dst <+: names then map (src ++ names.drop dst.length)
    else if src <+: names then none
    else map names

variable {path src dst names : List Step} {node : Node} {map : List Step → Option Node}

theorem graft_self : graft path node map path = some node := if_pos rfl

theorem graft_other (other : names ≠ path) : graft path node map names = map names := if_neg other

theorem prune_behind (behind : path <+: names) : prune path map names = none := if_pos behind

theorem prune_off (off : ¬ path <+: names) : prune path map names = map names := if_neg off

theorem carry_behind (rest : List Step) : carry src dst map (dst ++ rest) = map (src ++ rest) := by
  rw [carry, if_pos (List.prefix_append _ _), List.drop_left]

theorem carry_source (source : src <+: names) (off : ¬ dst <+: names) :
    carry src dst map names = none := by
  rw [carry, if_neg off, if_pos source]

theorem carry_off (offSource : ¬ src <+: names) (off : ¬ dst <+: names) :
    carry src dst map names = map names := by
  rw [carry, if_neg off, if_neg offSource]

/-- A graft is undone by cutting it off again, when there was nothing at its place. -/
theorem prune_graft (free : ∀ rest, map (path ++ rest) = none) :
    prune path (graft path node map) = map := by
  funext names
  by_cases behind : path <+: names
  · obtain ⟨rest, rfl⟩ := behind
    rw [prune_behind (List.prefix_append _ _), free]
  · have other : names ≠ path := by
      rintro rfl
      exact behind (List.prefix_refl _)
    rw [prune_off behind, graft_other other]

theorem graft_keeps (free : map path = none) {found : Node} (there : map names = some found) :
    graft path node map names = some found := by
  rw [graft_other]
  · exact there
  · rintro rfl
    rw [free] at there
    cases there

/-- What was at the target does not show after a move. -/
theorem carry_prune (ahead : ¬ src <+: dst) (apart : ¬ dst <+: src) :
    carry src dst (prune dst map) = carry src dst map := by
  funext names
  by_cases atTarget : dst <+: names
  · obtain ⟨rest, rfl⟩ := atTarget
    rw [carry_behind, carry_behind, prune_off]
    intro behind
    rcases List.prefix_or_prefix_of_prefix behind (List.prefix_append src rest) with one | two
    · exact apart one
    · exact ahead two
  · by_cases atSource : src <+: names
    · rw [carry_source atSource atTarget, carry_source atSource atTarget]
    · rw [carry_off atSource atTarget, carry_off atSource atTarget, prune_off atTarget]

theorem carry_keeps (free : ∀ rest, map (dst ++ rest) = none) {found : Node}
    (there : map names = some found) : ∃ others, carry src dst map others = some found := by
  have off : ¬ dst <+: names := by
    rintro ⟨rest, rfl⟩
    rw [free] at there
    cases there
  by_cases atSource : src <+: names
  · obtain ⟨rest, rfl⟩ := atSource
    exact ⟨dst ++ rest, by rw [carry_behind, there]⟩
  · exact ⟨names, by rw [carry_off atSource off, there]⟩

end OsLabs.PathMap
