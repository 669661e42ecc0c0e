import Mathlib

/-! A ring of `n` cells that takes items one after the other, item `i` in cell
`i % n`. Where the next item goes, and where the next one is taken from, follows
from how many have come and how many were taken. A reader that keeps within `n` of the
writer gets every item; one that is overtaken finds later ones, but never goes back. -/
namespace RingBuffer

variable {α : Type} {n : Nat} {cells cells' : Nat → α} {xs : List α} {x : α} {i r w w' : Nat}

/-- The last `n` items are in their cells. -/
def Holds (n : Nat) (cells : Nat → α) (xs : List α) : Prop :=
  ∀ i (within : i < xs.length), xs.length ≤ i + n → cells (i % n) = xs[i]

theorem holds_nil : Holds n cells ([] : List α) := fun _ within => absurd within (Nat.not_lt_zero _)

/-- Places less than a round apart are different cells. -/
theorem cell_ne (later : i < w) (near_ : w < i + n) : i % n ≠ w % n := by
  intro same
  have whole : (w - i) % n = 0 := Nat.sub_mod_eq_zero_of_mod_eq same.symm
  rw [Nat.mod_eq_of_lt (by omega)] at whole
  omega

theorem Holds.congr (holds : Holds n cells xs) (some_ : 0 < n) (same : ∀ c < n, cells' c = cells c) :
    Holds n cells' xs :=
  fun i within recent => (same _ (Nat.mod_lt _ some_)).trans (holds i within recent)

/-- The next item goes into its cell. -/
theorem Holds.put (holds : Holds n cells xs) (some_ : 0 < n)
    (written : ∀ c < n, cells' c = if c = xs.length % n then x else cells c) : Holds n cells' (xs ++ [x]) := by
  intro i within recent
  rw [List.length_append, List.length_singleton] at within recent
  rw [written _ (Nat.mod_lt _ some_)]
  obtain rfl | old : i = xs.length ∨ i < xs.length := by omega
  · rw [if_pos rfl, List.getElem_concat_length rfl]
  · rw [if_neg (cell_ne old (by omega)), List.getElem_append_left old]
    exact holds i old (by omega)

/-- The item that is found at place `r` when `w` have come. -/
def latest (n r w : Nat) : Nat := r + n * ((w - 1 - r) / n)

theorem latest_lt (some_ : r < w) : latest n r w < w := by
  have below := Nat.mul_div_le (w - 1 - r) n
  unfold latest
  omega

theorem latest_mono (later : w ≤ w') : latest n r w ≤ latest n r w' := by
  have more : (w - 1 - r) / n ≤ (w' - 1 - r) / n := Nat.div_le_div_right (by omega)
  exact Nat.add_le_add_left (Nat.mul_le_mul_left n more) r

theorem latest_near (near_ : w ≤ r + n) (some_ : r < w) : latest n r w = r := by
  rw [latest, Nat.div_eq_of_lt (by omega), Nat.mul_zero, Nat.add_zero]

theorem Holds.latest (holds : Holds n cells xs) (some_ : r < xs.length) (cells_ : 0 < n) :
    xs[RingBuffer.latest n r xs.length]? = some (cells (r % n)) := by
  have low : RingBuffer.latest n r xs.length < xs.length := latest_lt some_
  have round := Nat.lt_mul_div_succ (xs.length - 1 - r) cells_
  have recent : xs.length ≤ RingBuffer.latest n r xs.length + n := by
    unfold RingBuffer.latest
    rw [Nat.mul_add] at round
    omega
  have here := holds _ low recent
  rw [show RingBuffer.latest n r xs.length % n = r % n from Nat.add_mul_mod_self_left _ _ _] at here
  rw [List.getElem?_eq_getElem low, here]

/-- Items that have not been overtaken are found in order. -/
theorem Holds.at (holds : Holds n cells xs) (some_ : r < xs.length) (near_ : xs.length ≤ r + n) :
    xs[r]? = some (cells (r % n)) := by
  rw [List.getElem?_eq_getElem some_, holds r some_ near_]

/-- The heads meet after whole rounds. -/
theorem heads_meet_iff (ahead : r ≤ w) : w % n = r % n ↔ n ∣ w - r := by
  constructor
  · intro meet
    exact Nat.dvd_of_mod_eq_zero (Nat.sub_mod_eq_zero_of_mod_eq meet)
  · rintro ⟨rounds, sum⟩
    rw [show w = r + n * rounds by omega, Nat.add_mul_mod_self_left]

/-- A reader that goes on where the heads do not meet finds a later item than the one before. -/
theorem latest_advance (some_ : r < w) (later : w ≤ w') (apart : ¬ n ∣ w' - (r + 1)) :
    latest n r w < latest n (r + 1) w' := by
  have ahead : r + 1 < w' := by
    by_contra met
    exact apart ⟨0, by omega⟩
  have rest := Nat.div_add_mod (w - 1 - r) n
  have rounds : (w - 1 - r) / n ≤ (w' - 1 - (r + 1)) / n := by
    by_cases more : n * ((w - 1 - r) / n) ≤ w' - 1 - (r + 1)
    · obtain rfl | some_ := Nat.eq_zero_or_pos n
      · rw [Nat.div_zero, Nat.div_zero]
      · exact (Nat.le_div_iff_mul_le some_).mpr (by rwa [Nat.mul_comm])
    · exact absurd ⟨(w - 1 - r) / n, by omega⟩ apart
  have further := Nat.mul_le_mul_left n rounds
  unfold latest
  omega

end RingBuffer
