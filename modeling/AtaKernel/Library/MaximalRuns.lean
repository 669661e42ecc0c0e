import Mathlib

/-! The maximal runs of a row of values: the longest stretches on which the value
stays the same. A scan from left to right knows the runs that have ended and the one
that it is in; a value that differs ends that one. -/
namespace MaximalRuns

/-- A stretch of places with the value that they have. -/
structure Stretch (α : Type) where
  first : Nat
  last : Nat
  value : α
  deriving DecidableEq

/-- The stretch can be extended neither to the left nor to the right within the first `n` places. -/
structure Maximal {α : Type} (g : Nat → α) (n : Nat) (r : Stretch α) : Prop where
  order : r.first ≤ r.last
  within : r.last < n
  inside : ∀ i, r.first ≤ i → i ≤ r.last → g i = r.value
  left : r.first = 0 ∨ g (r.first - 1) ≠ r.value
  right : r.last + 1 = n ∨ g (r.last + 1) ≠ r.value

/-- The maximal runs of the first `n` places, in order. -/
structure Runs {α : Type} (g : Nat → α) (n : Nat) (rs : List (Stretch α)) : Prop where
  maximal : ∀ r ∈ rs, Maximal g n r
  ordered : rs.Pairwise fun r r' => r.last < r'.first
  covers : ∀ i < n, ∃! r, r ∈ rs ∧ r.first ≤ i ∧ i ≤ r.last

/-- The runs that have ended ahead of place `start`, and the one that goes from there to place `f` at least. -/
structure Scanned {α : Type} (g : Nat → α) (n : Nat) (rs : List (Stretch α)) (start f : Nat) (v : α) : Prop where
  maximal : ∀ r ∈ rs, Maximal g n r
  ordered : rs.Pairwise fun r r' => r.last < r'.first
  before : ∀ r ∈ rs, r.last < start
  covers : ∀ i < start, ∃ r ∈ rs, r.first ≤ i ∧ i ≤ r.last
  some_ : start < f
  within : f ≤ n
  inside : ∀ i, start ≤ i → i < f → g i = v
  left : start = 0 ∨ g (start - 1) ≠ v

variable {α : Type} {g : Nat → α} {n start f : Nat} {rs : List (Stretch α)} {r r' : Stretch α} {v : α}

/-- A place is in one of the runs only. -/
theorem unique_of_ordered (ordered : rs.Pairwise fun r r' => r.last < r'.first) {i : Nat} (here : r ∈ rs)
    (there : r' ∈ rs) (place : r.first ≤ i ∧ i ≤ r.last) (place' : r'.first ≤ i ∧ i ≤ r'.last) : r = r' := by
  have apart : rs.Pairwise fun r r' => r.last < r'.first ∨ r'.last < r.first := ordered.imp Or.inl
  have symm : Std.Symm fun r r' : Stretch α => r.last < r'.first ∨ r'.last < r.first := ⟨fun _ _ => Or.symm⟩
  by_contra other
  have sides := apart.forall here there other
  omega

theorem scanned_first (some_ : 0 < n) : Scanned g n [] 0 1 (g 0) where
  maximal _ none_ := nomatch none_
  ordered := .nil
  before _ none_ := nomatch none_
  covers _ none_ := absurd none_ (Nat.not_lt_zero _)
  some_ := Nat.one_pos
  within := some_
  inside i _ first := by rw [Nat.lt_one_iff.mp first]
  left := .inl rfl

theorem Scanned.same (scanned : Scanned g n rs start f v) (more : f < n) (same : g f = v) :
    Scanned g n rs start (f + 1) v where
  __ := scanned
  some_ := Nat.lt_succ_of_lt scanned.some_
  within := more
  inside i from_ upto := by
    obtain rfl | before : i = f ∨ i < f := by omega
    · exact same
    · exact scanned.inside i from_ before

/-- The run that has ended. -/
theorem Scanned.ended (scanned : Scanned g n rs start f v) (right : f = n ∨ g f ≠ v) :
    Maximal g n ⟨start, f - 1, v⟩ := by
  have some_ := scanned.some_
  have within := scanned.within
  have last : f - 1 + 1 = f := by omega
  refine ⟨by dsimp only; omega, by dsimp only; omega, fun i from_ upto => ?_, scanned.left, ?_⟩
  · exact scanned.inside i from_ (by dsimp only at upto; omega)
  · dsimp only
    rwa [last]

/-- The runs up to place `f`, with the one that has ended there. -/
theorem Scanned.more (scanned : Scanned g n rs start f v) (right : f = n ∨ g f ≠ v) {r : Stretch α}
    (new : r = ⟨start, f - 1, v⟩) : (∀ r' ∈ rs ++ [r], Maximal g n r' ∧ r'.last < f) ∧
      (rs ++ [r]).Pairwise (fun r r' => r.last < r'.first) ∧ ∀ i < f, ∃ r' ∈ rs ++ [r], r'.first ≤ i ∧ i ≤ r'.last := by
  have some_ := scanned.some_
  have ended : Maximal g n r := new ▸ scanned.ended right
  have first : r.first = start := by rw [new]
  have last : r.last = f - 1 := by rw [new]
  refine ⟨fun r' inside => ?_, ?_, fun i low => ?_⟩
  · obtain old | last_ := List.mem_append.mp inside
    · exact ⟨scanned.maximal r' old, (scanned.before r' old).trans some_⟩
    · rw [List.mem_singleton.mp last_]
      exact ⟨ended, by omega⟩
  · refine List.pairwise_append.mpr ⟨scanned.ordered, List.pairwise_singleton _ _, fun r' old r'' last_ => ?_⟩
    rw [List.mem_singleton.mp last_, first]
    exact scanned.before r' old
  · by_cases early : i < start
    · obtain ⟨r', old, place⟩ := scanned.covers i early
      exact ⟨r', List.mem_append_left _ old, place⟩
    · exact ⟨r, List.mem_append_right _ List.mem_cons_self, by omega, by omega⟩

/-- Another value begins the next run. -/
theorem Scanned.next (scanned : Scanned g n rs start f v) (more : f < n) (other : g f ≠ v) :
    Scanned g n (rs ++ [⟨start, f - 1, v⟩]) f (f + 1) (g f) := by
  obtain ⟨maximal, ordered, covers⟩ := scanned.more (.inr other) rfl
  have some_ := scanned.some_
  refine ⟨fun r inside => (maximal r inside).1, ordered, fun r inside => (maximal r inside).2, covers, f.lt_succ_self,
    more, fun i from_ upto => ?_, .inr ?_⟩
  · rw [show i = f by omega]
  · rw [scanned.inside (f - 1) (by omega) (by omega)]
    exact other.symm

/-- At the end, the run that the scan is in is the last one. -/
theorem Scanned.runs (scanned : Scanned g n rs start n v) : Runs g n (rs ++ [⟨start, n - 1, v⟩]) := by
  obtain ⟨maximal, ordered, covers⟩ := scanned.more (.inl rfl) rfl
  refine ⟨fun r inside => (maximal r inside).1, ordered, fun i low => ?_⟩
  obtain ⟨r, inside, place⟩ := covers i low
  exact ⟨r, ⟨inside, place⟩, fun r' there => unique_of_ordered ordered there.1 inside there.2 place⟩

/-- The last place is in none of the runs that have ended. -/
theorem Scanned.not_runs (scanned : Scanned g n rs start n v) : ¬ Runs g n rs := by
  intro runs
  have some_ := scanned.some_
  obtain ⟨r, ⟨inside, place⟩, -⟩ := runs.covers (n - 1) (by omega)
  have before := scanned.before r inside
  omega

/-- Every row of values has its runs. -/
theorem runs_exist (g : Nat → α) (n : Nat) : ∃ rs, Runs g n rs := by
  have scan (m : Nat) (within : m < n) : ∃ rs start v, Scanned g n rs start (m + 1) v := by
    induction m with
    | zero => exact ⟨[], 0, g 0, scanned_first within⟩
    | succ m ih =>
      obtain ⟨rs, start, v, scanned⟩ := ih (Nat.lt_of_succ_lt within)
      by_cases same : g (m + 1) = v
      · exact ⟨rs, start, v, scanned.same within same⟩
      · exact ⟨_, _, _, scanned.next within same⟩
  cases n with
  | zero => exact ⟨[], fun _ none_ => absurd none_ List.not_mem_nil, .nil,
      fun _ none_ => absurd none_ (Nat.not_lt_zero _)⟩
  | succ n =>
    obtain ⟨rs, start, v, scanned⟩ := scan n n.lt_succ_self
    exact ⟨_, scanned.runs⟩

/-- Of two maximal runs with a common place, neither goes further to the left. -/
theorem Maximal.first_le (maximal : Maximal g n r) (maximal' : Maximal g n r') {i : Nat}
    (place : r.first ≤ i ∧ i ≤ r.last) (place' : r'.first ≤ i ∧ i ≤ r'.last) : r.first ≤ r'.first := by
  have value : r.value = r'.value := (maximal.inside i place.1 place.2).symm.trans (maximal'.inside i place'.1 place'.2)
  by_contra later
  obtain zero_ | other := maximal.left
  · omega
  · exact other ((maximal'.inside (r.first - 1) (by omega) (by omega)).trans value.symm)

theorem Maximal.le_last (maximal : Maximal g n r) (maximal' : Maximal g n r') {i : Nat}
    (place : r.first ≤ i ∧ i ≤ r.last) (place' : r'.first ≤ i ∧ i ≤ r'.last) : r'.last ≤ r.last := by
  have value : r.value = r'.value := (maximal.inside i place.1 place.2).symm.trans (maximal'.inside i place'.1 place'.2)
  have within := maximal'.within
  by_contra later
  obtain end_ | other := maximal.right
  · omega
  · exact other ((maximal'.inside (r.last + 1) (by omega) (by omega)).trans value.symm)

/-- Maximal runs with a common place are the same. -/
theorem Maximal.unique (maximal : Maximal g n r) (maximal' : Maximal g n r') {i : Nat}
    (place : r.first ≤ i ∧ i ≤ r.last) (place' : r'.first ≤ i ∧ i ≤ r'.last) : r = r' := by
  have first := le_antisymm (maximal.first_le maximal' place place') (maximal'.first_le maximal place' place)
  have last := le_antisymm (maximal'.le_last maximal place' place) (maximal.le_last maximal' place place')
  have value : r.value = r'.value := (maximal.inside i place.1 place.2).symm.trans (maximal'.inside i place'.1 place'.2)
  obtain ⟨first_, last_, value_⟩ := r
  obtain ⟨first', last', value'⟩ := r'
  dsimp only at first last value
  rw [first, last, value]

/-- The runs of one value, in order. -/
structure RunsOf {α : Type} (g : Nat → α) (n : Nat) (v : α) (rs : List (Stretch α)) : Prop where
  ordered : rs.Pairwise fun r r' => r.last < r'.first
  mem : ∀ r, r ∈ rs ↔ Maximal g n r ∧ r.value = v

theorem runsOf_exist [DecidableEq α] (g : Nat → α) (n : Nat) (v : α) : ∃ rs, RunsOf g n v rs := by
  obtain ⟨rs, runs⟩ := runs_exist g n
  refine ⟨rs.filter (·.value = v), runs.ordered.filter _, fun r => ?_⟩
  rw [List.mem_filter, decide_eq_true_iff]
  refine and_congr_left fun _ => ⟨runs.maximal r, fun maximal => ?_⟩
  have order := maximal.order
  have within := maximal.within
  obtain ⟨r', ⟨inside, place⟩, -⟩ := runs.covers r.first (by omega)
  rwa [maximal.unique (runs.maximal r' inside) ⟨le_rfl, order⟩ place]

/-- A place with the value is in one of the runs. -/
theorem RunsOf.covers (runs : RunsOf g n v rs) {i : Nat} (within : i < n) (here : g i = v) :
    ∃ r ∈ rs, r.first ≤ i ∧ i ≤ r.last := by
  obtain ⟨rs', all⟩ := runs_exist g n
  obtain ⟨r, ⟨inside, place⟩, -⟩ := all.covers i within
  have maximal := all.maximal r inside
  exact ⟨r, (runs.mem r).mpr ⟨maximal, (maximal.inside i place.1 place.2).symm.trans here⟩, place⟩

end MaximalRuns
