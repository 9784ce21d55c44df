import Mathlib.Tactic

/-!
# Rules for computations that may stop

`Except` computations are taken apart from the outside: a sequence that
returns has a first part that returns and a rest that returns on its result.
-/

set_option autoImplicit false

namespace OsLabs.ExceptRules

variable {Fault α β : Type}

/-- A check that stops with `fault` when `condition` fails. -/
def require (condition : Prop) [Decidable condition] (fault : Fault) :
    Except Fault Unit :=
  if condition then .ok () else .error fault

@[simp] theorem ok_bind (value : α) (next : α → Except Fault β) :
    (Except.ok value >>= next) = next value := rfl

@[simp] theorem error_bind (fault : Fault) (next : α → Except Fault β) :
    ((Except.error fault : Except Fault α) >>= next) = .error fault := rfl

theorem bind_eq_ok {first : Except Fault α} {next : α → Except Fault β}
    {result : β} :
    (first >>= next) = .ok result ↔
      ∃ value, first = .ok value ∧ next value = .ok result := by
  cases first with
  | error fault => simp
  | ok value => simp

theorem bind_eq_error {first : Except Fault α} {next : α → Except Fault β}
    {fault : Fault} :
    (first >>= next) = .error fault ↔
      first = .error fault ∨ ∃ value, first = .ok value ∧ next value = .error fault := by
  cases first with
  | error other => simp
  | ok value => simp

@[simp] theorem require_pos {condition : Prop} [Decidable condition]
    {fault : Fault} (holds : condition) : require condition fault = .ok () := by
  simp [require, holds]

theorem require_eq_ok {condition : Prop} [Decidable condition] {fault : Fault}
    {result : Unit} : require condition fault = .ok result ↔ condition := by
  by_cases holds : condition <;> simp [require, holds]

theorem require_bind_eq_ok {condition : Prop} [Decidable condition]
    {fault : Fault} {next : Unit → Except Fault β} {result : β} :
    (require condition fault >>= next) = .ok result ↔
      condition ∧ next () = .ok result := by
  by_cases holds : condition <;> simp [require, holds]

/-! ## Loops over lists -/

theorem forM_ok {items : List α} {check : α → Except Fault Unit}
    (pass : ∀ item ∈ items, check item = .ok ()) : items.forM check = .ok () := by
  induction items with
  | nil => rfl
  | cons item rest ih =>
      have head := pass item (by simp)
      have tail := ih fun other member => pass other (by simp [member])
      rw [List.forM_eq_forM] at tail ⊢
      rw [List.forM_cons, head, ok_bind, tail]

theorem mapM_ok {items : List α} {compute : α → Except Fault β}
    (returns : ∀ item ∈ items, ∃ result, compute item = .ok result) :
    ∃ results, items.mapM compute = .ok results := by
  induction items with
  | nil => exact ⟨[], rfl⟩
  | cons item rest ih =>
      obtain ⟨first, head⟩ := returns item (by simp)
      obtain ⟨others, tail⟩ := ih fun other member => returns other (by simp [member])
      refine ⟨first :: others, ?_⟩
      rw [List.mapM_cons, head, ok_bind, tail]
      rfl

/-- A loop over the indices of a list that computes a known result for every item. -/
theorem mapM_range {items : List α} {compute : Nat → Except Fault β} {result : α → β}
    (returns : ∀ (i : Nat) (bound : i < items.length),
      compute i = .ok (result (items.get ⟨i, bound⟩))) :
    (List.range items.length).mapM compute = .ok (items.map result) := by
  induction items generalizing compute with
  | nil => rfl
  | cons item rest ih =>
      have head := returns 0 (Nat.zero_lt_succ _)
      have tail : (List.range rest.length).mapM (compute ∘ Nat.succ) =
          .ok (rest.map result) :=
        ih fun i bound => returns (i + 1) (Nat.succ_lt_succ bound)
      rw [List.length_cons, List.range_succ_eq_map, List.mapM_cons, head, ok_bind,
        List.mapM_map, tail]
      rfl

/-- A loop that returned has computed a known result for every item. -/
theorem mapM_ok_map {items : List α} {compute : α → Except Fault β} {result : α → β}
    {results : List β} (loop : items.mapM compute = .ok results)
    (known : ∀ item ∈ items, ∀ found, compute item = .ok found → found = result item) :
    results = items.map result := by
  induction items generalizing results with
  | nil =>
      cases loop
      rfl
  | cons item rest ih =>
      rw [List.mapM_cons] at loop
      obtain ⟨first, head, loop⟩ := bind_eq_ok.mp loop
      obtain ⟨others, tail, loop⟩ := bind_eq_ok.mp loop
      cases loop
      rw [known item List.mem_cons_self first head, List.map_cons,
        ih tail fun other member => known other (List.mem_cons_of_mem _ member)]

end OsLabs.ExceptRules
