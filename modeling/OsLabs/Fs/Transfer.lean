import OsLabs.Lib.ByteMemory

/-!
# Reading a file completely

`readn` of fsformat.c.  The result of `read` goes into a `size_t`, in which -1 is the
largest value.
-/

set_option autoImplicit false

namespace OsLabs.Fs

open OsLabs.ByteMemory

/-- What one `read` does: up to `short + 1` bytes of those asked for, 0 or -1. -/
inductive ReadOutcome where
  | data (short : Nat)
  | eof
  | error
  deriving DecidableEq, Repr

/-- The bytes that it stores when `want` are asked for. -/
def ReadOutcome.count (want : Nat) : ReadOutcome → Nat
  | .data short => min (short + 1) want
  | .eof | .error => 0

/-- The result as a `size_t`. -/
def ReadOutcome.result (want : Nat) : ReadOutcome → Nat
  | .data short => min (short + 1) want
  | .eof => 0
  | .error => 2 ^ 64 - 1

inductive ReadnEnd where
  | returned | readError | unexpectedEof
  /-- The last read of the list is done and the loop goes on. -/
  | reading
  deriving DecidableEq, Repr

structure ReadnResult where
  out : Memory
  unread : List ReadOutcome
  ended : ReadnEnd

/-- `while (p < n)`, with the position in the stream. -/
def readnLoop (stream : Nat → UInt8) (n : Nat) :
    List ReadOutcome → Nat → Nat → Memory → ReadnResult
  | [], p, _, out => ⟨out, [], if p < n then .reading else .returned⟩
  | outcome :: rest, p, q, out =>
      if p < n then
        let out := blit out p (outcome.count (n - p)) fun i => stream (q + i)
        let m := outcome.result (n - p)
        -- `m` is unsigned
        if m < 0 then ⟨out, rest, .readError⟩
        else if m = 0 then ⟨out, rest, .unexpectedEof⟩
        else readnLoop stream n rest ((p + m) % 2 ^ 64) (q + outcome.count (n - p)) out
      else ⟨out, outcome :: rest, .returned⟩

def readn (stream : Nat → UInt8) (n : Nat) (outcomes : List ReadOutcome) (out : Memory) :
    ReadnResult :=
  readnLoop stream n outcomes 0 0 out

/-! ## What readn is for -/

/-- The buffer is complete when the call returns, a failing read and an early end of the
stream are panics, and nothing is stored behind the buffer. -/
structure ReadnComplete (stream : Nat → UInt8) (n : Nat) (outcomes : List ReadOutcome)
    (out : Memory) : Prop where
  whole : (readn stream n outcomes out).ended = .returned →
    ∀ i < n, (readn stream n outcomes out).out i = stream i
  failed : ∀ front back, outcomes = front ++ .error :: back →
    (readn stream n outcomes out).unread.length ≤ back.length →
      (readn stream n outcomes out).ended = .readError
  early : ∀ front back, outcomes = front ++ .eof :: back →
    (readn stream n outcomes out).unread.length ≤ back.length →
      (readn stream n outcomes out).ended = .unexpectedEof
  inside : ∀ x, n ≤ x → (readn stream n outcomes out).out x = out x

/-- The bytes of a read that none of its requests cuts short. -/
def ReadOutcome.most : ReadOutcome → Nat
  | .data short => short + 1
  | .eof | .error => 0

def beforeError (outcomes : List ReadOutcome) : List ReadOutcome :=
  outcomes.takeWhile (· ≠ .error)

/-- No read fails before `n` bytes have come or the stream has ended. -/
def ErrorLate (n : Nat) (outcomes : List ReadOutcome) : Prop :=
  .error ∉ outcomes ∨ .eof ∈ beforeError outcomes ∨
    n ≤ ((beforeError outcomes).map ReadOutcome.most).sum

section Loop

variable {stream : Nat → UInt8} {n p q : Nat} {outcomes : List ReadOutcome} {out : Memory}

theorem ReadOutcome.count_le (outcome : ReadOutcome) (want : Nat) :
    outcome.count want ≤ want := by
  cases outcome with
  | data short => exact Nat.min_le_right _ _
  | eof => exact Nat.zero_le _
  | error => exact Nat.zero_le _

theorem readnLoop_ended : (readnLoop stream n outcomes p q out).ended ≠ .readError := by
  induction outcomes generalizing p q out with
  | nil =>
      rw [readnLoop]
      split <;> simp
  | cons outcome rest ih =>
      rw [readnLoop]
      by_cases more : p < n
      · simp only [if_pos more, Nat.not_lt_zero, if_false]
        split
        · simp
        · exact ih
      · simp [if_neg more]

theorem readnLoop_unread : (readnLoop stream n outcomes p q out).unread.length ≤
    outcomes.length := by
  induction outcomes generalizing p q out with
  | nil => exact Nat.le_refl _
  | cons outcome rest ih =>
      rw [readnLoop]
      by_cases more : p < n
      · simp only [if_pos more, Nat.not_lt_zero, if_false, List.length_cons]
        split
        · exact Nat.le_succ _
        · exact ih.trans (Nat.le_succ _)
      · simp [if_neg more]

theorem readnLoop_inside {x : Nat} (behind : n ≤ x) :
    (readnLoop stream n outcomes p q out).out x = out x := by
  induction outcomes generalizing p q out with
  | nil => rfl
  | cons outcome rest ih =>
      rw [readnLoop]
      by_cases more : p < n
      · have fits := outcome.count_le (n - p)
        have kept : blit out p (outcome.count (n - p)) (fun i => stream (q + i)) x = out x :=
          blit_frame out p _ _ x 1 (by omega) x (Nat.le_refl _) (by omega)
        simp only [if_pos more, Nat.not_lt_zero, if_false]
        split
        · exact kept
        · rw [ih, kept]
      · simp [if_neg more]

/-! ## Up to the first failing read -/

theorem beforeError_data {short : Nat} {rest : List ReadOutcome} :
    beforeError (.data short :: rest) = .data short :: beforeError rest := rfl

theorem errorLate_data {short : Nat} {rest : List ReadOutcome} :
    ErrorLate n (.data short :: rest) ↔ ErrorLate (n - (short + 1)) rest := by
  have counts : n ≤ short + 1 + ((beforeError rest).map ReadOutcome.most).sum ↔
      n - (short + 1) ≤ ((beforeError rest).map ReadOutcome.most).sum := by
    omega
  simp only [ErrorLate, beforeError_data, List.mem_cons, List.map_cons, List.sum_cons,
    ReadOutcome.most, counts, reduceCtorEq, false_or]

theorem errorLate_error {rest : List ReadOutcome} : ErrorLate n (.error :: rest) ↔ n = 0 := by
  simp [ErrorLate, beforeError]

theorem readnLoop_data (small : n < 2 ^ 64) (more : p < n) {short : Nat}
    {rest : List ReadOutcome} :
    readnLoop stream n (.data short :: rest) p q out =
      readnLoop stream n rest (p + min (short + 1) (n - p)) (q + min (short + 1) (n - p))
        (blit out p (min (short + 1) (n - p)) fun i => stream (q + i)) := by
  have positive : min (short + 1) (n - p) ≠ 0 := by omega
  have next : (p + min (short + 1) (n - p)) % 2 ^ 64 = p + min (short + 1) (n - p) :=
    Nat.mod_eq_of_lt (by omega)
  simp only [readnLoop, if_pos more, Nat.not_lt_zero, if_false, ReadOutcome.result,
    ReadOutcome.count, if_neg positive, next]

theorem errorLate_next {short : Nat} {rest : List ReadOutcome} :
    ErrorLate (n - p) (.data short :: rest) ↔
      ErrorLate (n - (p + min (short + 1) (n - p))) rest := by
  rw [errorLate_data,
    show n - (p + min (short + 1) (n - p)) = n - p - (short + 1) by omega]

theorem behind_first {first item : ReadOutcome} (other : first ≠ item)
    {rest front back : List ReadOutcome} (split : first :: rest = front ++ item :: back) :
    ∃ between, rest = between ++ item :: back := by
  cases front with
  | nil =>
      injection split with same
      exact absurd same other
  | cons head front =>
      injection split with _ same
      exact ⟨front, same⟩

theorem length_behind {item : ReadOutcome} {front back : List ReadOutcome} :
    back.length < (front ++ item :: back).length := by
  rw [List.length_append, List.length_cons]
  omega

/-- While no read has failed the buffer holds the front of the stream. -/
theorem readnLoop_complete (small : n < 2 ^ 64) (upto : p ≤ n)
    (filled : ∀ i < p, out i = stream i) (late : ErrorLate (n - p) outcomes) :
    ((readnLoop stream n outcomes p p out).ended = .returned →
      ∀ i < n, (readnLoop stream n outcomes p p out).out i = stream i) ∧
    (∀ front back, outcomes = front ++ .error :: back →
      back.length < (readnLoop stream n outcomes p p out).unread.length) ∧
    ∀ front back, outcomes = front ++ .eof :: back →
      (readnLoop stream n outcomes p p out).unread.length ≤ back.length →
        (readnLoop stream n outcomes p p out).ended = .unexpectedEof := by
  induction outcomes generalizing p out with
  | nil =>
      rw [readnLoop]
      refine ⟨?_, by simp, by simp⟩
      intro returned i below
      split at returned
      · cases returned
      · exact filled i (by omega)
  | cons outcome rest ih =>
      by_cases more : p < n
      · cases outcome with
        | data short =>
            have longer : ∀ i < p + min (short + 1) (n - p),
                blit out p (min (short + 1) (n - p)) (fun i => stream (p + i)) i =
                  stream i := by
              intro i below
              rw [blit]
              split
              · congr 1
                omega
              · exact filled i (by omega)
            obtain ⟨whole, failed, early⟩ := ih (by omega) longer (errorLate_next.mp late)
            rw [readnLoop_data small more]
            refine ⟨whole, ?_, ?_⟩
            · intro front back split
              obtain ⟨between, split⟩ := behind_first (by simp) split
              exact failed between back split
            · intro front back split
              obtain ⟨between, split⟩ := behind_first (by simp) split
              exact early between back split
        | eof =>
            rw [readnLoop]
            simp only [if_pos more, Nat.not_lt_zero, if_false, ReadOutcome.result, if_true]
            refine ⟨by simp, ?_, by simp⟩
            intro front back split
            obtain ⟨between, rfl⟩ := behind_first (by simp) split
            exact length_behind
        | error =>
            rw [errorLate_error] at late
            omega
      · rw [readnLoop]
        simp only [if_neg more]
        refine ⟨fun _ i below => filled i (by omega), ?_, ?_⟩
        · intro front back split
          rw [split]
          exact length_behind
        · intro front back split short
          rw [split] at short
          exact absurd length_behind (not_lt.mpr short)

theorem readnLoop_fails (small : n < 2 ^ 64) (upto : p ≤ n)
    (early : ¬ ErrorLate (n - p) outcomes) : ∃ front back, outcomes = front ++ .error :: back ∧
      (readnLoop stream n outcomes p q out).unread.length ≤ back.length := by
  induction outcomes generalizing p q out with
  | nil =>
      simp [ErrorLate] at early
  | cons outcome rest ih =>
      have more : p < n := by
        by_contra full
        apply early
        rw [Nat.sub_eq_zero_of_le (not_lt.mp full)]
        exact Or.inr (Or.inr (Nat.zero_le _))
      cases outcome with
      | data short =>
          rw [readnLoop_data small more]
          obtain ⟨front, back, split, unread⟩ := ih (by omega) (mt errorLate_next.mpr early)
          refine ⟨.data short :: front, back, ?_, unread⟩
          rw [split]
          rfl
      | eof =>
          exact absurd (Or.inr (Or.inl (by simp [beforeError]))) early
      | error =>
          refine ⟨[], rest, rfl, ?_⟩
          have failing : ReadOutcome.error.result (n - p) ≠ 0 := by
            simp [ReadOutcome.result]
          rw [readnLoop]
          simp only [if_pos more, Nat.not_lt_zero, if_false]
          rw [if_neg failing]
          exact readnLoop_unread

/-- `readn` is right exactly when no read fails before it has ended. -/
theorem readn_complete_iff (small : n < 2 ^ 64) :
    ReadnComplete stream n outcomes out ↔ ErrorLate n outcomes := by
  constructor
  · intro complete
    by_contra early
    obtain ⟨front, back, split, unread⟩ :=
      @readnLoop_fails stream n 0 0 outcomes out small (Nat.zero_le _) early
    exact readnLoop_ended (complete.failed front back split unread)
  · intro late
    obtain ⟨whole, failed, early⟩ := @readnLoop_complete stream n 0 outcomes out small
      (Nat.zero_le _) (fun i below => absurd below (Nat.not_lt_zero i)) late
    refine ⟨whole, ?_, early, fun x behind => readnLoop_inside behind⟩
    intro front back split unread
    exact absurd (failed front back split) (not_lt.mpr unread)

end Loop

/-- The loop takes the result of a failing first read for a count of bytes. -/
theorem readn_complete_fails : ¬ ∀ (stream : Nat → UInt8) (n : Nat)
    (outcomes : List ReadOutcome) (out : Memory), ReadnComplete stream n outcomes out := by
  intro claimed
  have complete := claimed (fun _ => 1) 3 [.error, .data 7] (fun _ => 0)
  have ended : (readn (fun _ => 1) 3 [.error, .data 7] (fun _ => 0)).ended = .returned := by
    decide
  exact absurd (complete.whole ended 0 (by norm_num)) (by decide)

/-- Two short reads and an end of the stream that is never met, and a failing first read. -/
theorem readn_complete_iff_sample :
    ReadnComplete (fun _ => 1) 3 [.data 1, .data 7, .eof] (fun _ => 0) ∧
      ¬ ReadnComplete (fun _ => 1) 3 [.error, .data 7] (fun _ => 0) := by
  constructor
  · exact (readn_complete_iff (by norm_num)).mpr (Or.inl (by decide))
  · intro complete
    have late := (readn_complete_iff (by norm_num)).mp complete
    rw [errorLate_error] at late
    cases late

end OsLabs.Fs
