import Mathlib

/-! Numbered blocks, kept apart by a key, and rows of writes to them. What a
block holds in the end is what the last write that covers it put there. -/
namespace BlockStore

variable {κ β : Type} [DecidableEq κ]

abbrev Store (κ β : Type) := κ → Nat → β

/-- A write of `count` blocks from `first` on. -/
structure Write (κ β : Type) where
  key : κ
  first : Nat
  count : Nat
  blocks : Nat → β

abbrev Write.Covers (x : Write κ β) (key : κ) (n : Nat) : Prop :=
  key = x.key ∧ x.first ≤ n ∧ n < x.first + x.count

def Store.write (s : Store κ β) (x : Write κ β) : Store κ β := fun key n =>
  if x.Covers key n then x.blocks (n - x.first) else s key n

/-- The store after a row of writes. -/
def Store.after (s : Store κ β) (xs : List (Write κ β)) : Store κ β := xs.foldl Store.write s

variable (s : Store κ β) {xs : List (Write κ β)} {x : Write κ β} {key : κ} {n : Nat}

theorem write_covered (covers : x.Covers key n) : s.write x key n = x.blocks (n - x.first) :=
  if_pos covers

theorem write_apart (apart : ¬ x.Covers key n) : s.write x key n = s key n :=
  if_neg apart

@[simp] theorem after_nil : s.after [] = s := rfl

@[simp] theorem after_cons (x : Write κ β) (xs : List (Write κ β)) :
    s.after (x :: xs) = (s.write x).after xs := rfl

theorem after_append (xs ys : List (Write κ β)) :
    s.after (xs ++ ys) = (s.after xs).after ys :=
  List.foldl_append

/-- A block that no write covers keeps what it held. -/
theorem after_apart (apart : ∀ x ∈ xs, ¬ x.Covers key n) : s.after xs key n = s key n := by
  induction xs generalizing s with
  | nil => rfl
  | cons x xs ih =>
    have first := apart x List.mem_cons_self
    rw [after_cons, ih _ fun y later => apart y (List.mem_cons_of_mem x later),
      write_apart s first]

/-- The last write that covers a block decides what it holds. -/
theorem after_last_writer (before : List (Write κ β)) {later : List (Write κ β)}
    (covers : x.Covers key n) (last : ∀ y ∈ later, ¬ y.Covers key n) :
    s.after (before ++ x :: later) key n = x.blocks (n - x.first) := by
  rw [after_append, after_cons, after_apart _ last, write_covered _ covers]

end BlockStore
