import Mathlib

/-! The fields of a list: the runs between its separators, without the empty ones. A scanner
that takes one field after the other, and passes by all separators in front of it, comes
to exactly these. -/
namespace Fields

variable {α : Type*} {sep : α → Bool} {c : α} {f s t : List α}

/-- The next field, and what is behind the separator at its end. -/
def next (sep : α → Bool) (s : List α) : Option (List α × List α) :=
  if (s.dropWhile sep).isEmpty then none
  else some ((s.dropWhile sep).takeWhile fun c => !sep c, ((s.dropWhile sep).dropWhile fun c => !sep c).tail)

noncomputable def fields (sep : α → Bool) (s : List α) : List (List α) := (s.splitOnP sep).filter fun f => !f.isEmpty

/-- No character of `f` is a separator. -/
def Free (sep : α → Bool) (f : List α) : Prop := ∀ c ∈ f, sep c = false

@[simp] theorem next_nil : next sep ([] : List α) = none := rfl

@[simp] theorem fields_nil : fields sep ([] : List α) = [] := rfl

theorem next_separator (end_ : sep c = true) : next sep (c :: s) = next sep s := by
  simp [next, end_]

theorem fields_separator (end_ : sep c = true) : fields sep (c :: s) = fields sep s := by
  simp [fields, List.splitOnP_cons_eq_if_modifyHead, end_]

theorem dropWhile_free (some_ : f ≠ []) (free : Free sep f) : (f ++ t).dropWhile sep = f ++ t := by
  obtain ⟨c, f, rfl⟩ := List.exists_cons_of_ne_nil some_
  simp [free c List.mem_cons_self]

theorem takeWhile_free (free : Free sep f) : (f ++ t).takeWhile (fun c => !sep c) = f ++ t.takeWhile fun c => !sep c :=
  List.takeWhile_append_of_pos fun c inside => by simp [free c inside]

theorem dropWhile_not_free (free : Free sep f) : (f ++ t).dropWhile (fun c => !sep c) = t.dropWhile fun c => !sep c :=
  List.dropWhile_append_of_pos fun c inside => by simp [free c inside]

/-- A field in front of a separator. -/
theorem next_field (some_ : f ≠ []) (free : Free sep f) (end_ : sep c = true) :
    next sep (f ++ c :: s) = some (f, s) := by
  rw [next, dropWhile_free some_ free, takeWhile_free free, dropWhile_not_free free]
  simp [end_]

/-- A field at the end. -/
theorem next_last (some_ : f ≠ []) (free : Free sep f) : next sep f = some (f, []) := by
  have whole := dropWhile_free (t := []) some_ free
  have taken := takeWhile_free (t := []) free
  have left := dropWhile_not_free (t := []) free
  simp only [List.append_nil] at whole taken left
  rw [next, whole, taken, left]
  simp [some_]

theorem fields_field (some_ : f ≠ []) (free : Free sep f) (end_ : sep c = true) :
    fields sep (f ++ c :: s) = f :: fields sep s := by
  rw [fields, List.splitOnP_append_cons_of_forall_mem free c end_ s, List.filter_cons_of_pos (by simpa using some_)]
  rfl

theorem fields_last (some_ : f ≠ []) (free : Free sep f) : fields sep f = [f] := by
  rw [fields, List.splitOnP_eq_singleton free]
  simp [some_]

/-- A list without a separator in front begins with a field, which goes up to a separator or to the end. -/
theorem begins (first : sep c = false) :
    ∃ f, f ≠ [] ∧ Free sep f ∧ (c :: s = f ∨ ∃ d t, sep d = true ∧ c :: s = f ++ d :: t) := by
  refine ⟨(c :: s).takeWhile fun d => !sep d, by simp [first], fun d inside => ?_, ?_⟩
  · simpa using List.mem_takeWhile_imp inside
  · have whole := List.takeWhile_append_dropWhile (p := fun d => !sep d) (l := c :: s)
    cases rest : (c :: s).dropWhile fun d => !sep d with
    | nil =>
      rw [rest, List.append_nil] at whole
      exact .inl whole.symm
    | cons d t =>
      have ends := List.head?_dropWhile_not (fun d => !sep d) (c :: s)
      rw [rest] at whole ends
      exact .inr ⟨d, t, by simpa using ends, whole.symm⟩

/-- The scanner comes to the first field, with the others behind it. -/
theorem fields_next (sep : α → Bool) (s : List α) :
    fields sep s = (next sep s).elim [] fun taken => taken.1 :: fields sep taken.2 := by
  induction s with
  | nil => rfl
  | cons c s ih =>
    cases first : sep c with
    | true => rw [fields_separator first, next_separator first, ih]
    | false =>
      obtain ⟨f, some_, free, last | ⟨d, t, end_, split⟩⟩ := begins (s := s) first
      · rw [last, fields_last some_ free, next_last some_ free]
        rfl
      · rw [split, fields_field some_ free end_, next_field some_ free end_]
        rfl

theorem next_none_iff : next sep s = none ↔ fields sep s = [] := by
  rw [fields_next]
  cases next sep s <;> simp

theorem next_some (taken : next sep s = some (f, t)) : fields sep s = f :: fields sep t := by
  rw [fields_next, taken]
  rfl

end Fields
