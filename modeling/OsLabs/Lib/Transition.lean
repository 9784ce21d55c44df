import Mathlib.Data.List.Basic
import Mathlib.Tactic

/-!
# Runs of a labelled transition relation

A run goes from a state to a state along the labels of its steps, oldest first.
What every step preserves holds at the end of a run, also when it speaks about the
labels seen so far.
-/

set_option autoImplicit false

namespace OsLabs.Transition

variable {State Label : Type} {step : State → Label → State → Prop}

inductive Run (step : State → Label → State → Prop) (first : State) :
    List Label → State → Prop
  | start : Run step first [] first
  | extend {last next : State} {labels : List Label} {label : Label}
      (run : Run step first labels last) (last_step : step last label next) :
      Run step first (labels ++ [label]) next

theorem Run.history {first last : State} {labels : List Label}
    (run : Run step first labels last) (inv : List Label → State → Prop)
    (start : inv [] first)
    (keeps : ∀ seen state label next, inv seen state → step state label next →
      inv (seen ++ [label]) next) : inv labels last := by
  induction run with
  | start => exact start
  | extend _ last_step ih => exact keeps _ _ _ _ ih last_step

theorem Run.invariant {first last : State} {labels : List Label}
    (run : Run step first labels last) (inv : State → Prop) (start : inv first)
    (keeps : ∀ state label next, inv state → step state label next → inv next) :
    inv last :=
  run.history (fun _ state => inv state) start
    fun _ state label next here => keeps state label next here

theorem Run.mono {wider : State → Label → State → Prop} {first last : State}
    {labels : List Label} (run : Run step first labels last)
    (widen : ∀ state label next, step state label next → wider state label next) :
    Run wider first labels last := by
  induction run with
  | start => exact .start
  | extend _ last_step ih => exact ih.extend (widen _ _ _ last_step)

theorem Run.nil {first last : State} (run : Run step first [] last) : last = first := by
  generalize empty : ([] : List Label) = labels at run
  cases run with
  | start => rfl
  | extend => simp at empty

theorem Run.last {first last : State} {labels : List Label} {label : Label}
    (run : Run step first (labels ++ [label]) last) :
    ∃ before, Run step first labels before ∧ step before label last := by
  generalize whole : labels ++ [label] = all at run
  cases run with
  | start => simp at whole
  | extend before last_step =>
      obtain ⟨rfl, same⟩ := List.append_inj' whole rfl
      cases same
      exact ⟨_, before, last_step⟩

theorem Run.append {first middle last : State} {front back : List Label}
    (left : Run step first front middle) (right : Run step middle back last) :
    Run step first (front ++ back) last := by
  induction right with
  | start => rwa [List.append_nil]
  | extend _ last_step ih =>
      rw [← List.append_assoc]
      exact ih.extend last_step

theorem Run.split {first last : State} (front back : List Label)
    (run : Run step first (front ++ back) last) :
    ∃ middle, Run step first front middle ∧ Run step middle back last := by
  induction back using List.reverseRecOn generalizing last with
  | nil => exact ⟨last, by simpa using run, .start⟩
  | append_singleton back label ih =>
      rw [← List.append_assoc] at run
      obtain ⟨before, earlier, last_step⟩ := run.last
      obtain ⟨middle, left, right⟩ := ih earlier
      exact ⟨middle, left, right.extend last_step⟩

theorem Run.head {first last : State} {label : Label} {rest : List Label}
    (run : Run step first (label :: rest) last) :
    ∃ next, step first label next ∧ Run step next rest last := by
  obtain ⟨next, left, right⟩ := Run.split [label] rest run
  rw [← List.nil_append [label]] at left
  obtain ⟨before, empty, head_step⟩ := left.last
  rw [empty.nil] at head_step
  exact ⟨next, head_step, right⟩

/-! ## States in the labels -/

/-- A step whose label also holds the state it starts from. -/
def Recorded (step : State → Label → State → Prop) (before : State) (label : State × Label)
    (after : State) : Prop :=
  label.1 = before ∧ step before label.2 after

end OsLabs.Transition
