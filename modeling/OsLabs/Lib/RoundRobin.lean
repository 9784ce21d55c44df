import Mathlib.Data.List.Basic
import Mathlib.Tactic

/-!
# Picking in rounds

Positions on a ring of `n` are picked one after the other.  A pick that passes over
no ready position goes at most as far as the next ready one; from that alone, two
picks of the same position enclose each ready position exactly once, in the order
of the ring.
-/

set_option autoImplicit false

namespace OsLabs.RoundRobin

variable {n : Nat}

/-- How far `there` is after `here`: from 1 for the next position to `n` for
`here` itself. -/
def steps (here there : Fin n) : Nat :=
  if here.val < there.val then there.val - here.val else n + there.val - here.val

/-- How far `there` is after `base` when `base` itself counts 0. -/
def offset (base there : Fin n) : Nat :=
  if base.val ≤ there.val then there.val - base.val else n + there.val - base.val

theorem steps_pos (here there : Fin n) : 0 < steps here there := by
  have := here.isLt
  unfold steps
  split <;> omega

theorem steps_le (here there : Fin n) : steps here there ≤ n := by
  have := here.isLt
  have := there.isLt
  unfold steps
  split <;> omega

theorem offset_lt (base there : Fin n) : offset base there < n := by
  have := base.isLt
  have := there.isLt
  unfold offset
  split <;> omega

theorem offset_self (base : Fin n) : offset base base = 0 := by
  simp [offset]

theorem offset_inj {base left right : Fin n}
    (same : offset base left = offset base right) : left = right := by
  have := base.isLt
  have := left.isLt
  have := right.isLt
  apply Fin.ext
  unfold offset at same
  split at same <;> split at same <;> omega

theorem steps_base (base here : Fin n) : steps here base = n - offset base here := by
  have := base.isLt
  have := here.isLt
  unfold steps offset
  split <;> split <;> omega

theorem steps_ahead {base here there : Fin n}
    (ahead : offset base here < offset base there) :
    steps here there = offset base there - offset base here := by
  have := base.isLt
  have := here.isLt
  have := there.isLt
  unfold steps
  unfold offset at ahead ⊢
  split_ifs at ahead ⊢ <;> omega

theorem offset_move {base here there : Fin n}
    (short : steps here there < n - offset base here) :
    offset base there = offset base here + steps here there := by
  have := base.isLt
  have := here.isLt
  have := there.isLt
  unfold steps at short ⊢
  unfold offset at short ⊢
  split_ifs at short ⊢ <;> omega

/-- No ready position is passed over in going from `here` to `next`. -/
def NotPast (ready : Fin n → Prop) (here next : Fin n) : Prop :=
  ∀ other, ready other → steps here next ≤ steps here other

/-- `next` is the first ready position after `here`. -/
structure Next (ready : Fin n → Prop) (here next : Fin n) : Prop where
  picked : ready next
  notPast : NotPast ready here next

/-- The position right after `here` is the only one a single step away. -/
theorem steps_of_succ {here succ other : Fin n} (adjacent : steps here succ = 1)
    (different : other ≠ succ) : steps here other = steps succ other + 1 := by
  have := here.isLt
  have := succ.isLt
  have := other.isLt
  have distinct : other.val ≠ succ.val := fun same => different (Fin.ext same)
  unfold steps at adjacent ⊢
  split_ifs at adjacent ⊢ <;> omega

theorem Next.skip {ready : Fin n → Prop} {here succ next : Fin n}
    (adjacent : steps here succ = 1) (idle : ¬ ready succ)
    (later : Next ready succ next) : Next ready here next := by
  have away : ∀ other, ready other → other ≠ succ := by
    rintro other otherReady rfl
    exact idle otherReady
  refine ⟨later.picked, ?_⟩
  intro other otherReady
  have bound := later.notPast other otherReady
  rw [steps_of_succ adjacent (away next later.picked),
    steps_of_succ adjacent (away other otherReady)]
  omega

theorem Next.adjacent {ready : Fin n → Prop} {here succ : Fin n}
    (adjacent : steps here succ = 1) (succReady : ready succ) : Next ready here succ :=
  ⟨succReady, fun other _ => by rw [adjacent]; exact steps_pos here other⟩

theorem Next.nearer {ready : Fin n → Prop} {here next other : Fin n}
    (first : Next ready here next) (otherReady : ready other) (different : other ≠ next) :
    steps next other < steps here other := by
  have bound := first.notPast other otherReady
  have := here.isLt
  have := next.isLt
  have := other.isLt
  have distinct : other.val ≠ next.val := fun same => different (Fin.ext same)
  unfold steps at bound ⊢
  split_ifs at bound ⊢ <;> omega

/-- A sequence of picks, none of which passes over a ready position. -/
inductive Picks (ready : Fin n → Prop) : Fin n → List (Fin n) → Prop
  | none (here : Fin n) : Picks ready here []
  | pick {here next : Fin n} {rest : List (Fin n)} (notPast : NotPast ready here next)
      (picks : Picks ready next rest) : Picks ready here (next :: rest)

theorem NotPast.mono {small large : Fin n → Prop} {here next : Fin n}
    (sub : ∀ other, small other → large other) (notPast : NotPast large here next) :
    NotPast small here next := fun other ready => notPast other (sub other ready)

theorem Picks.mono {small large : Fin n → Prop} {here : Fin n} {list : List (Fin n)}
    (sub : ∀ other, small other → large other) (picks : Picks large here list) :
    Picks small here list := by
  induction picks with
  | none here => exact .none here
  | pick notPast _ ih => exact .pick (notPast.mono sub) ih

theorem Picks.snoc {ready : Fin n → Prop} {here next : Fin n} {list : List (Fin n)}
    (picks : Picks ready here list) (notPast : NotPast ready (list.getLastD here) next) :
    Picks ready here (list ++ [next]) := by
  induction picks with
  | none here => exact .pick notPast (.none next)
  | @pick here first rest earlier _ ih =>
      rw [List.getLastD_cons] at notPast
      exact .pick earlier (ih notPast)

/-- Until the base is picked again, the offsets from it increase, and every ready
position still ahead is met. -/
theorem Picks.ahead {ready : Fin n → Prop} {base here : Fin n} {round : List (Fin n)}
    (baseReady : ready base) (picks : Picks ready here (round ++ [base]))
    (between : base ∉ round) :
    (∀ next ∈ round, offset base here < offset base next) ∧
    (round.map (offset base)).Pairwise (· < ·) ∧
    ∀ other, ready other → offset base here < offset base other → other ∈ round := by
  induction round generalizing here with
  | nil =>
      cases picks with
      | pick notPast _ =>
          refine ⟨by simp, by simp, ?_⟩
          intro other otherReady later
          have bound := notPast other otherReady
          have whole := offset_lt base other
          rw [steps_base base here, steps_ahead later] at bound
          omega
  | cons next rest ih =>
      cases picks with
      | pick notPast picks =>
          have different : next ≠ base := by
            intro same
            exact between (by simp [same])
          obtain ⟨later, sorted, met⟩ := ih picks fun member =>
            between (by simp [member])
          have short : steps here next < n - offset base here := by
            have bound := notPast base baseReady
            rw [steps_base base here] at bound
            refine lt_of_le_of_ne bound ?_
            intro same
            rw [← steps_base base here] at same
            have hereLt := here.isLt
            have nextLt := next.isLt
            have baseLt := base.isLt
            refine different (Fin.ext ?_)
            unfold steps at same
            split at same <;> split at same <;> omega
          have forward := offset_move short
          have positive := steps_pos here next
          refine ⟨?_, ?_, ?_⟩
          · intro other member
            rcases List.mem_cons.mp member with rfl | member
            · omega
            · have := later other member
              omega
          · rw [List.map_cons, List.pairwise_cons]
            refine ⟨?_, sorted⟩
            intro value member
            obtain ⟨other, otherMember, rfl⟩ := List.mem_map.mp member
            exact later other otherMember
          · intro other otherReady ahead
            have bound := notPast other otherReady
            rw [steps_ahead ahead] at bound
            by_cases equal : offset base other = offset base next
            · rw [offset_inj equal]
              exact List.mem_cons_self
            · exact List.mem_cons_of_mem _ (met other otherReady (by omega))

/-- Between two picks of `base`, the picks follow the ring and meet each other ready
position exactly once. -/
theorem Picks.round {ready : Fin n → Prop} {base : Fin n} {round : List (Fin n)}
    (baseReady : ready base) (picks : Picks ready base (round ++ [base]))
    (between : base ∉ round) :
    (round.map (offset base)).Pairwise (· < ·) ∧
    ∀ other, ready other → other ≠ base → round.count other = 1 := by
  obtain ⟨_, sorted, met⟩ := picks.ahead baseReady between
  refine ⟨sorted, ?_⟩
  intro other otherReady different
  have ahead : offset base base < offset base other := by
    rw [offset_self]
    refine Nat.pos_of_ne_zero ?_
    intro zero
    exact different (offset_inj (zero.trans (offset_self base).symm))
  have once : round.Nodup := by
    refine List.Nodup.of_map (offset base) ?_
    exact sorted.imp fun less => Nat.ne_of_lt less
  exact List.count_eq_one_of_mem once (met other otherReady ahead)

end OsLabs.RoundRobin
