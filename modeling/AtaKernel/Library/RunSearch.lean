import Mathlib

/-! The first-fit search for a row of free places: one pass over the places,
with a counter of how many free ones came last. It finds the lowest row that
is long enough, and it finds one whenever there is one. -/
namespace RunSearch

/-- The `count` places from `first` on are free. -/
def Run (free : Nat → Bool) (first count : Nat) : Prop := ∀ i < count, free (first + i) = true

/-- Looks at `k` places from `f` on; `streak` free ones came right before. The result is the last
place of the row. -/
def find (free : Nat → Bool) (count : Nat) : Nat → Nat → Nat → Option Nat
  | 0, _, _ => none
  | k + 1, f, streak =>
    let streak := if free f then streak + 1 else 0
    if streak = count then some f else find free count k (f + 1) streak

/-- The row of `count` places from `low` on is the first one within `[first, last)`. -/
structure FirstRun (free : Nat → Bool) (count first last low : Nat) : Prop where
  from_ : first ≤ low
  within : low + count ≤ last
  run : Run free low count
  least : ∀ lower, first ≤ lower → lower < low → ¬ Run free lower count

variable {free : Nat → Bool} {count first k f streak : Nat}

/-- The scan seen from the middle: before `f` there are `streak` free places in a row, too few,
and no row starts earlier. -/
private theorem find_from (start : first + streak ≤ f) (few : streak < count)
    (row : Run free (f - streak) streak)
    (blocked : ∀ lower, first ≤ lower → lower < f - streak → ¬ Run free lower count) :
    match find free count k f streak with
    | some last => ∃ low, FirstRun free count first (f + k) low ∧ last + 1 = low + count
    | none => ∀ low, first ≤ low → low + count ≤ f + k → ¬ Run free low count := by
  induction k generalizing f streak with
  | zero =>
    intro low from_ within run
    by_cases early : low < f - streak
    · exact blocked low from_ early run
    · omega
  | succ k ih =>
    simp only [find]
    cases free_ : free f with
    | true =>
      have longer : Run free (f - streak) (streak + 1) := by
        intro i low
        by_cases last : i = streak
        · rw [last, Nat.sub_add_cancel (by omega)]
          exact free_
        · exact row i (by omega)
      by_cases enough : streak + 1 = count
      · rw [if_pos rfl, if_pos enough]
        exact ⟨f - streak, ⟨by omega, by omega, enough ▸ longer, blocked⟩, by omega⟩
      · rw [if_pos rfl, if_neg enough]
        have rest := @ih (f + 1) (streak + 1) (by omega) (by omega)
          (by rwa [Nat.add_sub_add_right]) (by rwa [Nat.add_sub_add_right])
        rwa [Nat.add_right_comm, Nat.add_assoc] at rest
    | false =>
      have some_ : ¬ (0 = count) := by omega
      rw [if_neg Bool.false_ne_true, if_neg some_]
      have rest := @ih (f + 1) 0 (by omega) (by omega)
        (fun i low => absurd low (Nat.not_lt_zero i)) ?_
      · rwa [Nat.add_right_comm, Nat.add_assoc] at rest
      · intro lower from_ below run
        by_cases early : lower < f - streak
        · exact blocked lower from_ early run
        · have here := run (f - lower) (by omega)
          rw [Nat.add_sub_cancel' (by omega), free_] at here
          cases here

theorem find_some (some_ : 0 < count) {last : Nat} (found : find free count k first 0 = some last) :
    ∃ low, FirstRun free count first (first + k) low ∧ last + 1 = low + count := by
  have scan := @find_from free count first k first 0 le_rfl some_
    (fun i low => absurd low (Nat.not_lt_zero i)) (fun lower from_ below => absurd from_ (by omega))
  rwa [found] at scan

theorem find_none (some_ : 0 < count) (none_ : find free count k first 0 = none) :
    ∀ low, first ≤ low → low + count ≤ first + k → ¬ Run free low count := by
  have scan := @find_from free count first k first 0 le_rfl some_
    (fun i low => absurd low (Nat.not_lt_zero i)) (fun lower from_ below => absurd from_ (by omega))
  rwa [none_] at scan

end RunSearch
