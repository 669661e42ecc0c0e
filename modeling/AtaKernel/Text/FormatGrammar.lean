import AtaKernel.Text.NumberText

/-! The formats that `sprintf` understands, as a grammar: a format is a row of items, and
every text is such a row and a rest that no item begins. The rest is empty, a lone percent
sign, or a placeholder that is not there. An item stands for a text of its own, which
depends on the arguments. -/
namespace AtaKernel.Text
open CString Numerals

/-- `b`, `w` and `d` ahead of a base: how many bits of the argument count. -/
inductive Size
  | byte
  | word
  | dword
  deriving DecidableEq

inductive Base
  | binary
  | octal
  | decimal
  | hex
  deriving DecidableEq

def Size.letter : Size → UInt8
  | .byte => 'b'.toUInt8
  | .word => 'w'.toUInt8
  | .dword => 'd'.toUInt8

def Size.bits : Size → Nat
  | .byte => 8
  | .word => 16
  | .dword => 32

def Base.letter : Base → UInt8
  | .binary => 'b'.toUInt8
  | .octal => 'o'.toUInt8
  | .decimal => 'd'.toUInt8
  | .hex => 'x'.toUInt8

def Base.radix : Base → UInt8
  | .binary => 2
  | .octal => 8
  | .decimal => 10
  | .hex => 16

/-- What stands ahead of the digits. -/
def Base.sign : Base → List UInt8
  | .binary => []
  | .octal => ['0'.toUInt8]
  | .decimal => []
  | .hex => ['0'.toUInt8, 'x'.toUInt8]

/-- A literal character, `%%`, `%s`, `%q` with a base, or a size and a base. -/
inductive Item
  | literal (c : UInt8) (plain : c ≠ 0 ∧ c ≠ '%'.toUInt8)
  | percent
  | string
  | quad (base : Base)
  | number (size : Size) (base : Base)

def Item.chars : Item → List UInt8
  | .literal c _ => [c]
  | .percent => ['%'.toUInt8, '%'.toUInt8]
  | .string => ['%'.toUInt8, 's'.toUInt8]
  | .quad base => ['%'.toUInt8, 'q'.toUInt8, base.letter]
  | .number size base => ['%'.toUInt8, size.letter, base.letter]

def format (items : List Item) : List UInt8 := items.flatMap Item.chars

/-! ## Reading a format -/

def sizeOf? (letter : UInt8) : Option Size := [Size.byte, .word, .dword].find? (·.letter = letter)

def baseOf? (letter : UInt8) : Option Base := [Base.binary, .octal, .decimal, .hex].find? (·.letter = letter)

/-- The item that two letters behind a percent sign name. -/
def twoLetters (kind letter : UInt8) : Option Item := do
  let base ← baseOf? letter
  if kind = 'q'.toUInt8 then some (.quad base)
  else
    let size ← sizeOf? kind
    some (.number size base)

/-- The item that a text begins with, and what is behind it. -/
def nextItem : List UInt8 → Option (Item × List UInt8)
  | [] => none
  | c :: t =>
    if plain : c ≠ 0 ∧ c ≠ '%'.toUInt8 then some (.literal c plain, t)
    else if c = 0 then none
    else match t with
      | [] => none
      | kind :: t =>
        if kind = '%'.toUInt8 then some (.percent, t)
        else if kind = 's'.toUInt8 then some (.string, t)
        else match t with
          | [] => none
          | letter :: t => (twoLetters kind letter).map (·, t)

variable {i : Item} {items items' : List Item} {t tail tail' : List UInt8} {kind letter : UInt8} {base : Base}
  {size : Size}

theorem baseOf?_letter : baseOf? base.letter = some base := by
  cases base <;> decide

theorem sizeOf?_letter : sizeOf? size.letter = some size := by
  cases size <;> decide

theorem letter_of_baseOf? (named : baseOf? letter = some base) : base.letter = letter := by
  have found := List.find?_some named
  exact of_decide_eq_true found

theorem letter_of_sizeOf? (named : sizeOf? letter = some size) : size.letter = letter := by
  have found := List.find?_some named
  exact of_decide_eq_true found

theorem size_letter_ne : size.letter ≠ '%'.toUInt8 ∧ size.letter ≠ 's'.toUInt8 ∧ size.letter ≠ 'q'.toUInt8 := by
  cases size <;> decide

theorem percent_not_plain : ¬ ('%'.toUInt8 ≠ 0 ∧ '%'.toUInt8 ≠ '%'.toUInt8) := fun plain => plain.2 rfl

theorem percent_ne_zero : '%'.toUInt8 ≠ 0 := by decide

theorem twoLetters_quad : twoLetters 'q'.toUInt8 base.letter = some (.quad base) := by
  rw [twoLetters, baseOf?_letter]
  rfl

theorem twoLetters_number : twoLetters size.letter base.letter = some (.number size base) := by
  rw [twoLetters, baseOf?_letter]
  change (if size.letter = 'q'.toUInt8 then _ else _) = _
  rw [if_neg size_letter_ne.2.2, sizeOf?_letter]
  rfl

/-- An item is read back. -/
theorem nextItem_chars (i : Item) (t : List UInt8) : nextItem (i.chars ++ t) = some (i, t) := by
  cases i with
  | literal c plain =>
    change nextItem (c :: t) = _
    unfold nextItem
    exact dif_pos plain
  | percent => rfl
  | string => rfl
  | quad base =>
    change nextItem ('%'.toUInt8 :: 'q'.toUInt8 :: base.letter :: t) = _
    unfold nextItem
    dsimp only
    rw [dif_neg percent_not_plain, if_neg percent_ne_zero, if_neg (by decide), if_neg (by decide), twoLetters_quad]
    rfl
  | number size base =>
    change nextItem ('%'.toUInt8 :: size.letter :: base.letter :: t) = _
    unfold nextItem
    dsimp only
    rw [dif_neg percent_not_plain, if_neg percent_ne_zero, if_neg size_letter_ne.1, if_neg size_letter_ne.2.1,
      twoLetters_number]
    rfl

theorem twoLetters_some (named : twoLetters kind letter = some i) : i.chars = ['%'.toUInt8, kind, letter] := by
  obtain ⟨base, base_, rest⟩ := Option.bind_eq_some_iff.mp named
  split at rest
  · next quad =>
    obtain rfl := Option.some_inj.mp rest
    rw [Item.chars, letter_of_baseOf? base_, quad]
  · obtain ⟨size, size_, same⟩ := Option.bind_eq_some_iff.mp rest
    obtain rfl := Option.some_inj.mp same
    rw [Item.chars, letter_of_baseOf? base_, letter_of_sizeOf? size_]

theorem nextItem_some {rest : List UInt8} (read : nextItem t = some (i, rest)) : t = i.chars ++ rest := by
  unfold nextItem at read
  split at read
  · cases read
  next c t =>
  split at read
  · cases read
    rfl
  next other =>
  split at read
  · cases read
  next some_ =>
  have sign : c = '%'.toUInt8 := by
    by_contra plain
    exact other ⟨some_, plain⟩
  subst sign
  split at read
  · cases read
  next kind t =>
  split at read
  · next percent =>
    cases read
    rw [percent]
    rfl
  split at read
  · next string =>
    cases read
    rw [string]
    rfl
  split at read
  · cases read
  · obtain ⟨i', named, same⟩ := Option.map_eq_some_iff.mp read
    obtain ⟨rfl, rfl⟩ := Prod.mk.inj same
    rw [twoLetters_some named]
    rfl

/-- Every text is a format and a rest that no item begins. -/
theorem format_exists (t : List UInt8) : ∃ items tail, t = format items ++ tail ∧ nextItem tail = none := by
  induction long : t.length using Nat.strong_induction_on generalizing t with
  | _ n ih =>
    cases read : nextItem t with
    | none => exact ⟨[], t, rfl, read⟩
    | some pair =>
      obtain ⟨i, rest⟩ := pair
      obtain rfl := nextItem_some read
      have some_ : 0 < i.chars.length := by cases i <;> exact Nat.succ_pos _
      rw [List.length_append] at long
      obtain ⟨items, tail, rfl, none_⟩ := ih rest.length (by omega) rest rfl
      exact ⟨i :: items, tail, (List.append_assoc _ _ _).symm, none_⟩

/-- In one way only. -/
theorem format_unique (none_ : nextItem tail = none) (none_' : nextItem tail' = none)
    (same : format items ++ tail = format items' ++ tail') : items = items' ∧ tail = tail' := by
  induction items generalizing items' with
  | nil =>
    cases items' with
    | nil => exact ⟨rfl, same⟩
    | cons i items' =>
      have whole : tail = i.chars ++ (format items' ++ tail') := same.trans (List.append_assoc _ _ _)
      rw [whole, nextItem_chars] at none_
      cases none_
  | cons i items ih =>
    have whole : format (i :: items) ++ tail = i.chars ++ (format items ++ tail) := List.append_assoc _ _ _
    cases items' with
    | nil =>
      have whole' : tail' = i.chars ++ (format items ++ tail) := same.symm.trans whole
      rw [whole', nextItem_chars] at none_'
      cases none_'
    | cons i' items' =>
      have whole' : format (i' :: items') ++ tail' = i'.chars ++ (format items' ++ tail') := List.append_assoc _ _ _
      have read := nextItem_chars i (format items ++ tail)
      rw [← whole, same, whole', nextItem_chars] at read
      obtain ⟨rfl, rest⟩ := Prod.mk.inj (Option.some_inj.mp read)
      obtain ⟨rfl, rfl⟩ := ih rest.symm
      exact ⟨rfl, rfl⟩

theorem format_whole (none_ : nextItem tail = none) (same : format items ++ tail = format items') :
    items = items' ∧ tail = [] := format_unique none_ rfl (same.trans (List.append_nil _).symm)

/-- With a rest, a text is no format. -/
theorem not_format (none_ : nextItem tail = none) (some_ : tail ≠ []) :
    ¬ ∃ items', format items ++ tail = format items' := by
  rintro ⟨items', same⟩
  exact some_ (format_whole none_ same).2

/-! ## Where a format ends -/

theorem twoLetters_good (good : Good kind letter) : (twoLetters kind letter).isSome := by
  obtain ⟨kind_, letter_⟩ := good
  simp only [List.map_cons, List.map_nil, List.mem_cons, List.not_mem_nil, or_false] at kind_ letter_
  obtain rfl | rfl | rfl | rfl := kind_ <;> obtain rfl | rfl | rfl | rfl := letter_ <;> decide

/-- What no item begins: nothing, a lone percent sign, or a bad placeholder. -/
theorem nextItem_none (clean : 0 ∉ tail) (none_ : nextItem tail = none) : tail = [] ∨ tail = ['%'.toUInt8] ∨
    ∃ kind rest, tail = '%'.toUInt8 :: kind :: rest ∧ ∀ after v, meaning kind (rest ++ 0 :: after) v = .bad := by
  obtain _ | ⟨c, t⟩ := tail
  · exact .inl rfl
  obtain ⟨here, behind⟩ := List.ne_and_not_mem_of_not_mem_cons clean
  unfold nextItem at none_
  dsimp only at none_
  split at none_
  · cases none_
  next other =>
  have sign : c = '%'.toUInt8 := by
    by_contra plain
    exact other ⟨here.symm, plain⟩
  subst sign
  rw [if_neg percent_ne_zero] at none_
  obtain _ | ⟨kind, rest⟩ := t
  · exact .inr (.inl rfl)
  refine .inr (.inr ⟨kind, rest, rfl, fun after v => ?_⟩)
  dsimp only at none_
  split at none_
  · cases none_
  next percent =>
  split at none_
  · cases none_
  next string =>
  obtain _ | ⟨letter, rest⟩ := rest
  · exact meaning_bad string percent fun good => absurd good.2 (by decide)
  · refine meaning_bad string percent fun good => ?_
    have some_ := twoLetters_good good
    rw [Option.map_eq_none_iff.mp none_] at some_
    cases some_

end AtaKernel.Text
