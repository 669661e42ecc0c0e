import Mathlib

/-! Numerals in a base of at most 16, as bytes: the digits from the highest one on, with
small letters for those from ten on. A numeral is canonical if it does not begin with a
zero, but for the one that is a single zero, and each number has one that is. -/
namespace Numerals

/-- The character of a digit. -/
def glyph (d : Nat) : UInt8 := if d < 10 then UInt8.ofNat (48 + d) else UInt8.ofNat (87 + d)

/-- The digit of a character. -/
def digit (b : Nat) (c : UInt8) : Option Nat := (List.range b).find? fun d => glyph d = c

/-- The digits of a text, in its order. -/
def digits (b : Nat) : List UInt8 → Option (List Nat)
  | [] => some []
  | c :: t => do
    let d ← digit b c
    let ds ← digits b t
    some (d :: ds)

/-- The number that a text stands for. -/
def parse (b : Nat) (t : List UInt8) : Option Nat :=
  if t = [] then none else (digits b t).map fun ds => Nat.ofDigits b ds.reverse

/-- The text of a number. -/
def numeral (b n : Nat) : List UInt8 :=
  if n = 0 then [glyph 0] else ((Nat.digits b n).map glyph).reverse

/-- A text with a value and with no zero ahead of it. -/
structure Canonical (b : Nat) (t : List UInt8) : Prop where
  value : (parse b t).isSome
  lead : t.head? = some (glyph 0) → t = [glyph 0]

example : numeral 16 2026 = [0x37, 0x65, 0x61] ∧ parse 16 [0x37, 0x65, 0x61] = some 2026 := by decide

variable {b n m d : Nat} {c : UInt8} {t u : List UInt8} {ds : List Nat}

theorem glyph_inj {d e : Nat} (left : d < 16) (right : e < 16) (same : glyph d = glyph e) : d = e := by
  have all : ∀ d < 16, ∀ e < 16, glyph d = glyph e → d = e := by decide
  exact all d left e right same

theorem digit_iff (base : b ≤ 16) : digit b c = some d ↔ d < b ∧ c = glyph d := by
  unfold digit
  rw [List.find?_range_eq_some]
  constructor
  · rintro ⟨same, low, -⟩
    exact ⟨List.mem_range.mp low, (of_decide_eq_true same).symm⟩
  · rintro ⟨low, rfl⟩
    refine ⟨decide_eq_true rfl, List.mem_range.mpr low, fun e before => ?_⟩
    rw [Bool.not_eq_true', decide_eq_false_iff_not]
    exact fun same => absurd (glyph_inj (by omega) (by omega) same) before.ne

theorem digits_iff (base : b ≤ 16) : digits b t = some ds ↔ t = ds.map glyph ∧ ∀ d ∈ ds, d < b := by
  induction t generalizing ds with
  | nil =>
    rw [digits, Option.some_inj]
    constructor
    · rintro rfl
      exact ⟨rfl, fun _ none_ => nomatch none_⟩
    · rintro ⟨empty, -⟩
      exact (List.map_eq_nil_iff.mp empty.symm).symm
  | cons c t ih =>
    rw [digits]
    constructor
    · intro read
      obtain ⟨d, first, rest⟩ := Option.bind_eq_some_iff.mp read
      obtain ⟨es, behind, same⟩ := Option.bind_eq_some_iff.mp rest
      obtain rfl := Option.some_inj.mp same
      obtain ⟨low, rfl⟩ := (digit_iff base).mp first
      obtain ⟨rfl, lows⟩ := ih.mp behind
      exact ⟨rfl, List.forall_mem_cons.mpr ⟨low, lows⟩⟩
    · rintro ⟨same, lows⟩
      obtain _ | ⟨d, es⟩ := ds
      · cases same
      obtain ⟨rfl, rfl⟩ := List.cons_eq_cons.mp same
      obtain ⟨low, lows⟩ := List.forall_mem_cons.mp lows
      rw [(digit_iff base).mpr ⟨low, rfl⟩, ih.mpr ⟨rfl, lows⟩]
      rfl

/-- A text has a value if it consists of digits. -/
theorem parse_iff (base : b ≤ 16) : parse b t = some n ↔
    ∃ ds, ds ≠ [] ∧ t = (ds.map glyph).reverse ∧ (∀ d ∈ ds, d < b) ∧ Nat.ofDigits b ds = n := by
  unfold parse
  constructor
  · intro read
    split at read
    · cases read
    next some_ =>
    obtain ⟨ds, found, value⟩ := Option.map_eq_some_iff.mp read
    obtain ⟨rfl, lows⟩ := (digits_iff base).mp found
    refine ⟨ds.reverse, ?_, ?_, fun d inside => lows d (List.mem_reverse.mp inside), value⟩
    · exact fun empty => some_ (List.map_eq_nil_iff.mpr (List.reverse_eq_nil_iff.mp empty))
    · rw [List.map_reverse, List.reverse_reverse]
  · rintro ⟨ds, some_, rfl, lows, rfl⟩
    have read : digits b (ds.map glyph).reverse = some ds.reverse :=
      (digits_iff base).mpr ⟨List.map_reverse.symm, fun d inside => lows d (List.mem_reverse.mp inside)⟩
    rw [if_neg (by simpa using some_), read, Option.map_some, List.reverse_reverse]

theorem parse_numeral (two : 2 ≤ b) (base : b ≤ 16) : parse b (numeral b n) = some n := by
  refine (parse_iff base).mpr ?_
  unfold numeral
  split
  · next zero_ => exact ⟨[0], by simp, rfl, by simp; omega, by simp [zero_]⟩
  · next some_ =>
    exact ⟨Nat.digits b n, Nat.digits_ne_nil_iff_ne_zero.mpr some_, rfl, fun d inside => Nat.digits_lt_base two inside,
      Nat.ofDigits_digits b n⟩

/-- The first character is that of the highest digit. -/
theorem head_reverse (some_ : ds ≠ []) : ((ds.map glyph).reverse).head? = some (glyph (ds.getLast some_)) := by
  rw [List.head?_reverse, List.getLast?_map, List.getLast?_eq_getLast_of_ne_nil some_, Option.map_some]

theorem numeral_canonical (two : 2 ≤ b) (base : b ≤ 16) : Canonical b (numeral b n) where
  value := by rw [parse_numeral two base, Option.isSome_some]
  lead := by
    unfold numeral
    split
    · exact fun _ => rfl
    · next some_ =>
      have digits_ : Nat.digits b n ≠ [] := Nat.digits_ne_nil_iff_ne_zero.mpr some_
      have low : (Nat.digits b n).getLast digits_ < b := Nat.digits_lt_base two (List.getLast_mem digits_)
      rw [head_reverse digits_, Option.some_inj]
      intro zero_
      exact absurd (glyph_inj (by omega) (by decide) zero_) (Nat.getLast_digit_ne_zero b some_)

/-- No other canonical text stands for the number. -/
theorem Canonical.unique (canonical : Canonical b t) (two : 2 ≤ b) (base : b ≤ 16) (value : parse b t = some n) :
    t = numeral b n := by
  obtain ⟨ds, some_, rfl, lows, rfl⟩ := (parse_iff base).mp value
  by_cases zero_ : ds.getLast some_ = 0
  · have single := canonical.lead (by rw [head_reverse some_, zero_])
    obtain ⟨d, rfl⟩ : ∃ d, ds = [d] := by
      have length := congrArg List.length single
      rw [List.length_reverse, List.length_map] at length
      exact List.length_eq_one_iff.mp length
    rw [List.getLast_singleton] at zero_
    rw [zero_, Nat.ofDigits_singleton]
    rfl
  · have same : Nat.digits b (Nat.ofDigits b ds) = ds := Nat.digits_ofDigits b two ds lows fun _ => zero_
    have number : Nat.ofDigits b ds ≠ 0 := by
      intro none_
      rw [none_, Nat.digits_zero] at same
      exact some_ same.symm
    rw [numeral, if_neg number, same]

/-- Digits that follow a numeral shift its value. -/
theorem parse_append (base : b ≤ 16) (left : parse b t = some n) (right : parse b u = some m) :
    parse b (t ++ u) = some (m + b ^ u.length * n) := by
  obtain ⟨ds, some_, rfl, lows, rfl⟩ := (parse_iff base).mp left
  obtain ⟨es, -, rfl, lows', rfl⟩ := (parse_iff base).mp right
  refine (parse_iff base).mpr ⟨es ++ ds, by simp [some_], by simp, fun d inside => ?_, ?_⟩
  · exact (List.mem_append.mp inside).elim (lows' d) (lows d)
  · rw [Nat.ofDigits_append, List.length_reverse, List.length_map]

end Numerals
