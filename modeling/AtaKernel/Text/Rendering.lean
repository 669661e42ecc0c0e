import AtaKernel.Text.FormatGrammar

/-! What `sprintf` makes of a format, item by item. Each item adds its text to what was
stored and the length of it to the count, and takes its own arguments. Behind the last
item the function returns the count, or -1 where a bad placeholder follows; nowhere
does it store the zero that would end the text. -/
namespace AtaKernel.Text
open CString Numerals

/-- What an item stands for. -/
def Item.text (strings : UInt32 → List UInt8) : Item → VaList → List UInt8
  | .literal c _, _ => [c]
  | .percent, _ => ['%'.toUInt8]
  | .string, v => (strings (v 0)).takeWhile (· ≠ 0)
  | .quad .binary, v => binaryText (vaArg64 v).1
  | .quad _, v => hexText (vaArg64 v).1
  | .number size base, v => base.sign ++ numeral base.radix.toNat ((v 0).toNat % 2 ^ size.bits)

/-- The arguments behind those of an item. -/
def Item.behind : Item → VaList → VaList
  | .literal _ _, v => v
  | .percent, v => v
  | .string, v => (vaArg v).2
  | .quad _, v => (vaArg64 v).2
  | .number _ _, v => (vaArg v).2

/-- The texts of the items, one behind the other. -/
def rendering (strings : UInt32 → List UInt8) : List Item → VaList → List UInt8
  | [], _ => []
  | i :: items, v => i.text strings v ++ rendering strings items (i.behind v)

/-- Where a `%s` stands, the argument points to a string. -/
def Matching (strings : UInt32 → List UInt8) : List Item → VaList → Prop
  | [], _ => True
  | i :: items, v => (i = .string → 0 ∈ strings (v 0)) ∧ Matching strings items (i.behind v)

/-- `sprintf` from the middle of a format on. -/
def sprintfFrom (strings : UInt32 → List UInt8) : Nat → List UInt8 →
    Printing (List UInt8) → Option (Int32 × List UInt8) :=
  readText (sprintfRound strings) fun p => (p.count.toInt32, p.out)

/-- The count of `n` characters, as the function returns it. -/
def returned (n : Nat) : Int32 := (UInt32.ofNat n).toInt32

variable {strings : UInt32 → List UInt8} {i : Item} {items : List Item} {v v' : VaList} {base : Base} {size : Size}
  {buf buf' out out' fmt rest t after chars : List UInt8} {count count' : UInt32} {rounds : Nat} {kind : UInt8}

/-! ## One item -/

theorem radix_allowed : Allowed base.radix := by
  unfold Allowed
  cases base <;> decide

theorem lead_radix : lead base.radix = base.sign := by
  cases base <;> rfl

theorem narrowed_argument (d : UInt32) : ∃ cut, narrowing size.letter = some cut ∧
    (cut d).toNat = d.toNat % 2 ^ size.bits := by
  have small := d.toNat_lt
  cases size with
  | byte => exact ⟨_, rfl, by simp [Size.bits]⟩
  | word => exact ⟨_, rfl, by simp [Size.bits]⟩
  | dword => exact ⟨_, rfl, (Nat.mod_eq_of_lt small).symm⟩

theorem baseOf_letter : baseOf base.letter = some base.radix := by
  cases base <;> rfl

/-- What the letters of an item mean. -/
theorem meaning_number : meaning size.letter (base.letter :: rest) v =
    .own ((Item.number size base).text strings v) rest (vaArg v).2 := by
  obtain ⟨percent, string, quad⟩ := @size_letter_ne size
  obtain ⟨cut, named, value⟩ := @narrowed_argument size (v 0)
  rw [meaning, if_neg string, if_neg percent, if_neg quad, named, List.head?_cons, Option.bind_some, baseOf_letter]
  change Meaning.own (written (cut (v 0)) base.radix 0) rest _ = _
  rw [written_numeral radix_allowed, lead_radix, value]
  rfl

theorem meaning_quad : meaning 'q'.toUInt8 (base.letter :: rest) v =
    .own ((Item.quad base).text strings v) rest (vaArg64 v).2 := by
  cases base <;> rfl

/-- The two rounds of a placeholder. -/
theorem placeholder_rounds (some_ : kind ≠ 0) (went : sprintfRound strings kind fmt ⟨true, v, buf, count, out⟩ =
      some (.go rest ⟨false, v', buf', count', out'⟩)) :
    sprintfFrom strings (rounds + 2) ('%'.toUInt8 :: kind :: fmt) ⟨false, v, buf, count, out⟩ =
      sprintfFrom strings rounds rest ⟨false, v', buf', count', out'⟩ := by
  have sign : sprintfRound strings '%'.toUInt8 (kind :: fmt) ⟨false, v, buf, count, out⟩ =
      some (.go (kind :: fmt) ⟨true, v, buf, count, out⟩) := rfl
  exact (readText_go percent_ne_zero sign).trans (readText_go some_ went)

/-- A placeholder that prints a text of its own. -/
theorem own_rounds (some_ : kind ≠ 0) (behind : fmt ≠ []) (room : numBufLen ≤ buf.length)
    (means : meaning kind fmt v = .own t rest v') : ∃ buf',
    sprintfFrom strings (rounds + 2) ('%'.toUInt8 :: kind :: fmt) ⟨false, v, buf, count, out⟩ =
      sprintfFrom strings rounds rest ⟨false, v', buf', count + UInt32.ofNat t.length, out ++ t⟩ ∧
      numBufLen ≤ buf'.length := by
  have ran := @placeholder_means buf fmt kind v behind room
  rw [means] at ran
  obtain ⟨buf', ran, filled⟩ := ran
  exact ⟨buf', placeholder_rounds some_ (sprintfRound_own ran filled.holds), room.trans filled.length.ge⟩

theorem holds_of_mem (zero_ : 0 ∈ t) : Holds t (t.takeWhile (· ≠ 0)) := by
  obtain ⟨a, rest, rfl, first⟩ := List.eq_append_cons_of_mem zero_
  have same : (a ++ 0 :: rest).takeWhile (· ≠ 0) = a := by
    rw [List.takeWhile_append_of_pos, List.takeWhile_cons_of_neg (by decide), List.append_nil]
    intro c inside
    exact decide_eq_true fun zero_ => first (zero_ ▸ inside)
  rw [same]
  exact ⟨first, rest, rfl⟩

/-- The length of what is left in the format is a bound for the rounds that are left. -/
theorem rounds_left {n k : Nat} (enough : (i.chars ++ rest).length ≤ n) (long : k ≤ i.chars.length) :
    ∃ left, n = left + k ∧ rest.length ≤ left := by
  rw [List.length_append] at enough
  exact ⟨n - k, by omega, by omega⟩

/-- An item adds its text. -/
theorem item_rounds (args : i = .string → 0 ∈ strings (v 0)) (room : numBufLen ≤ buf.length) (some_ : rest ≠ [])
    (enough : (i.chars ++ rest).length ≤ rounds) : ∃ rounds' buf',
    sprintfFrom strings rounds (i.chars ++ rest) ⟨false, v, buf, count, out⟩ =
      sprintfFrom strings rounds' rest ⟨false, i.behind v, buf', count + UInt32.ofNat (i.text strings v).length,
        out ++ i.text strings v⟩ ∧ rest.length ≤ rounds' ∧ numBufLen ≤ buf'.length := by
  cases i with
  | literal c plain =>
    obtain ⟨left, rfl, shorter⟩ := rounds_left (k := 1) enough le_rfl
    have round : sprintfRound strings c rest ⟨false, v, buf, count, out⟩ =
        some (.go rest ⟨false, v, buf, count + 1, out ++ [c]⟩) := by
      rw [sprintfRound, if_pos rfl, if_neg plain.2]
    exact ⟨left, buf, readText_go plain.1 round, shorter, room⟩
  | percent =>
    obtain ⟨left, rfl, shorter⟩ := rounds_left (k := 2) enough le_rfl
    obtain ⟨buf', ran, room'⟩ := own_rounds percent_ne_zero some_ room (v := v) rfl
    exact ⟨left, buf', ran, shorter, room'⟩
  | string =>
    obtain ⟨left, rfl, shorter⟩ := rounds_left (k := 2) enough le_rfl
    have ran : placeholder 's'.toUInt8 rest v buf = some (.text (.argument (vaArg v).1) buf rest (vaArg v).2) := rfl
    have round := @sprintfRound_argument buf _ rest _ v _ rest buf out _ count _ ran (holds_of_mem (args rfl))
    exact ⟨left, buf, placeholder_rounds (by decide) round, shorter, room⟩
  | quad base =>
    obtain ⟨left, rfl, shorter⟩ := rounds_left (k := 2) enough (Nat.le_succ 2)
    obtain ⟨buf', ran, room'⟩ := own_rounds (by decide) (List.cons_ne_nil _ _) room meaning_quad
    exact ⟨left, buf', ran, shorter, room'⟩
  | number size base =>
    obtain ⟨left, rfl, shorter⟩ := rounds_left (k := 2) enough (Nat.le_succ 2)
    have some_ : size.letter ≠ 0 := by cases size <;> decide
    obtain ⟨buf', ran, room'⟩ := own_rounds some_ (List.cons_ne_nil _ _) room meaning_number
    exact ⟨left, buf', ran, shorter, room'⟩

/-- The items add their texts. -/
theorem items_rounds (args : Matching strings items v) (room : numBufLen ≤ buf.length) (some_ : rest ≠ [])
    (enough : (format items ++ rest).length ≤ rounds) : ∃ rounds' v' buf',
    sprintfFrom strings rounds (format items ++ rest) ⟨false, v, buf, count, out⟩ =
      sprintfFrom strings rounds' rest ⟨false, v', buf', count + UInt32.ofNat (rendering strings items v).length,
        out ++ rendering strings items v⟩ ∧ rest.length ≤ rounds' ∧ numBufLen ≤ buf'.length := by
  induction items generalizing v buf count out rounds with
  | nil =>
    refine ⟨rounds, v, buf, ?_, enough, room⟩
    rw [rendering, List.append_nil, List.length_nil, show UInt32.ofNat 0 = 0 from rfl, UInt32.add_zero]
    rfl
  | cons i items ih =>
    have split : format (i :: items) ++ rest = i.chars ++ (format items ++ rest) := List.append_assoc _ _ _
    rw [split] at enough ⊢
    obtain ⟨rounds', buf', ran, enough', room'⟩ := item_rounds args.1 room (by simp [some_]) enough
    obtain ⟨rounds'', v'', buf'', ran', enough'', room''⟩ := ih args.2 room' enough'
    refine ⟨rounds'', v'', buf'', ran.trans (ran'.trans ?_), enough'', room''⟩
    rw [rendering, List.length_append, UInt32.ofNat_add, UInt32.add_assoc, List.append_assoc]

/-! ## The end of a format -/

/-- Behind the last item, `sprintf` returns the count, and -1 where a bad placeholder follows. -/
theorem sprintf_tail {tail : List UInt8} (clean : 0 ∉ tail) (none_ : nextItem tail = none)
    (args : Matching strings items v) (room : numBufLen ≤ buf.length) :
    sprintf strings (format items ++ tail ++ 0 :: after) v buf =
      some (if tail = [] ∨ tail = ['%'.toUInt8] then returned (rendering strings items v).length else -1,
        rendering strings items v) := by
  rw [List.append_assoc]
  obtain ⟨n, v', buf', ran, enough, room'⟩ := @items_rounds strings items v buf [] _ 0 _ args room
    (List.append_ne_nil_of_right_ne_nil tail (List.cons_ne_nil 0 after)) le_rfl
  rw [UInt32.zero_add, List.nil_append] at ran
  refine Eq.trans ran ?_
  obtain rfl | rfl | ⟨kind, rest, rfl, bad⟩ := nextItem_none clean none_
  · obtain ⟨n, rfl⟩ := Nat.exists_eq_add_of_lt (Nat.lt_of_lt_of_le (Nat.succ_pos _) enough)
    rw [if_pos (.inl rfl), Nat.zero_add]
    exact readText_end
  · obtain ⟨n, rfl⟩ := Nat.exists_eq_add_of_le' (Nat.le_trans (Nat.le_add_left 2 _) enough)
    rw [if_pos (.inr rfl)]
    exact (readText_go percent_ne_zero rfl).trans readText_end
  · obtain ⟨n, rfl⟩ := Nat.exists_eq_add_of_le' (Nat.le_trans (Nat.le_add_left 2 _) enough)
    have some_ : kind ≠ 0 := fun zero_ => clean (by simp [zero_])
    have switch := @placeholder_means buf' (rest ++ 0 :: after) kind v' (by simp) room'
    rw [bad] at switch
    rw [if_neg (by simp)]
    exact (readText_go percent_ne_zero rfl).trans (readText_leave some_ (sprintfRound_bad switch))

/-! ## What sprintf returns -/

theorem returned_toInt {n : Nat} (small : n < 2 ^ 31) : (returned n).toInt = n := by
  have whole : (UInt32.ofNat n).toNat = n := UInt32.toNat_ofNat_of_lt' (small.trans (by decide))
  change (UInt32.ofNat n).toBitVec.toInt = n
  rw [BitVec.toInt_eq_toNat_of_lt, UInt32.toNat_toBitVec, whole]
  rw [UInt32.toNat_toBitVec, whole]
  omega

/-- A format is rendered. What is returned is the length as an `int`, which is the length itself below 2^31. -/
theorem sprintf_renders (args : Matching strings items v)
    (room : numBufLen ≤ buf.length) (after : List UInt8) :
    sprintf strings (format items ++ 0 :: after) v buf =
        some (returned (rendering strings items v).length, rendering strings items v) ∧
      ((rendering strings items v).length < 2 ^ 31 →
        (returned (rendering strings items v).length).toInt = (rendering strings items v).length) := by
  have ran := @sprintf_tail strings items v buf after [] List.not_mem_nil rfl args room
  rw [List.append_nil, if_pos (.inl rfl)] at ran
  exact ⟨ran, returned_toInt⟩

theorem sprintf_renders_number_and_string :
    sprintf (fun _ => ['h'.toUInt8, 'i'.toUInt8, 0]) (format [.number .byte .hex, .percent, .string] ++ 0 :: [])
        (fun _ => 0x1ff) (List.replicate numBufLen 0) =
      some (returned (rendering (fun _ => ['h'.toUInt8, 'i'.toUInt8, 0]) [.number .byte .hex, .percent, .string]
          fun _ => 0x1ff).length,
        rendering (fun _ => ['h'.toUInt8, 'i'.toUInt8, 0]) [.number .byte .hex, .percent, .string] fun _ => 0x1ff) ∧
      ((rendering (fun _ => ['h'.toUInt8, 'i'.toUInt8, 0]) [.number .byte .hex, .percent, .string]
          fun _ => 0x1ff).length < 2 ^ 31 →
        (returned (rendering (fun _ => ['h'.toUInt8, 'i'.toUInt8, 0]) [.number .byte .hex, .percent, .string]
          fun _ => 0x1ff).length).toInt =
        (rendering (fun _ => ['h'.toUInt8, 'i'.toUInt8, 0]) [.number .byte .hex, .percent, .string]
          fun _ => 0x1ff).length) :=
  sprintf_renders (by simp [Matching]) (by simp) []

/-- A string of `n` characters. -/
def longString (n : Nat) : List UInt8 := List.replicate n 'a'.toUInt8 ++ [0]

theorem longString_twice (n : Nat) : (rendering (fun _ => longString n) [.string, .string] v).length = n + n := by
  have text : (longString n).takeWhile (· ≠ 0) = List.replicate n 'a'.toUInt8 := by
    rw [longString, List.takeWhile_append_of_pos, List.takeWhile_cons_of_neg (by decide), List.append_nil]
    intro c inside
    rw [List.eq_of_mem_replicate inside]
    decide
  change ((longString n).takeWhile (· ≠ 0) ++ ((longString n).takeWhile (· ≠ 0) ++ [])).length = _
  rw [text, List.append_nil, List.length_append, List.length_replicate]

/-- A string of 2^30 characters, printed twice with `%s%s`, has a negative length. -/
theorem two_long_strings_negative : Matching (fun _ => longString (2 ^ 30)) [.string, .string] (fun _ => 0x1000) ∧
    ∃ n, sprintf (fun _ => longString (2 ^ 30)) (format [.string, .string] ++ [0]) (fun _ => 0x1000)
        (List.replicate numBufLen 0) =
          some (n, rendering (fun _ => longString (2 ^ 30)) [.string, .string] fun _ => 0x1000) ∧
      (rendering (fun _ => longString (2 ^ 30)) [.string, .string] fun _ => 0x1000).length = 2 ^ 31 ∧
      n.toInt = -2 ^ 31 := by
  have args : Matching (fun _ => longString (2 ^ 30)) [.string, .string] (fun _ => 0x1000) :=
    ⟨fun _ => List.mem_append_right _ (List.mem_singleton_self 0),
      fun _ => List.mem_append_right _ (List.mem_singleton_self 0), trivial⟩
  have length := @longString_twice (fun _ => 0x1000) (2 ^ 30)
  have ran := @sprintf_tail _ _ (fun _ => 0x1000) (List.replicate numBufLen 0) [] [] List.not_mem_nil rfl args (by simp)
  rw [if_pos (.inl rfl)] at ran
  refine ⟨args, _, ran, length, ?_⟩
  rw [length]
  decide

/-! ## What is in the destination -/

/-- The bytes from `dst` on behind the call: those that were stored, and above them those that were there. -/
def stored (prior : Nat → UInt8) (out : List UInt8) (k : Nat) : UInt8 := out.getD k (prior k)

/-- A string of `n` characters, with its end. -/
def Terminated (dst : Nat → UInt8) (n : Int) : Prop :=
  ∃ length : Nat, n = length ∧ dst length = 0 ∧ ∀ k < length, dst k ≠ 0

/-- Nothing behind the end of the format counts, -1 stands for a bad format, and a good one leaves a string of the
length that is returned, if an `int` is large enough for it. -/
def ResultContract (strings : UInt32 → List UInt8) (chars : List UInt8) (v : VaList) (buf : List UInt8)
    (prior : Nat → UInt8) : Prop :=
  ∃ n out, (∀ after, sprintf strings (chars ++ 0 :: after) v buf = some (n, out)) ∧
    (n = -1 ↔ ¬ ∃ items, chars = format items) ∧
    ∀ items, chars = format items → (rendering strings items v).length < 2 ^ 31 →
      Terminated (stored prior out) n.toInt

/-- Where the code keeps the contract: a format that ends behind a percent sign returns -1 by chance alone, and the
end of the text was there before the call. -/
def ZeroBehindText (strings : UInt32 → List UInt8) (chars : List UInt8) (v : VaList) (prior : Nat → UInt8) : Prop :=
  ∀ items, (chars = format items ++ ['%'.toUInt8] → returned (rendering strings items v).length = -1) ∧
    (chars = format items → returned (rendering strings items v).length ≠ -1 ∧
      ((rendering strings items v).length < 2 ^ 31 → prior (rendering strings items v).length = 0))

variable {prior : Nat → UInt8}

theorem own_nonzero (behind : fmt ≠ []) (means : meaning kind fmt v = .own t rest v') : 0 ∉ t := by
  have ran := @placeholder_means (List.replicate numBufLen 0) fmt kind v behind (by simp)
  rw [means] at ran
  obtain ⟨buf', -, filled⟩ := ran
  exact filled.holds.1

/-- Any arguments match where there is a string at every address. -/
theorem matching_of_strings (all : ∀ s, 0 ∈ strings s) : Matching strings items v := by
  induction items generalizing v with
  | nil => trivial
  | cons i items ih => exact ⟨fun _ => all _, ih⟩

theorem text_nonzero : 0 ∉ i.text strings v := by
  cases i with
  | literal c plain => exact fun zero_ => plain.1 (List.mem_singleton.mp zero_).symm
  | percent => exact (by decide : 0 ∉ ['%'.toUInt8])
  | string => exact fun zero_ => absurd (List.mem_takeWhile_imp zero_) (by decide)
  | quad base => exact own_nonzero (List.cons_ne_nil base.letter []) meaning_quad
  | number size base => exact own_nonzero (List.cons_ne_nil base.letter []) meaning_number

theorem rendering_nonzero : 0 ∉ rendering strings items v := by
  induction items generalizing v with
  | nil => exact List.not_mem_nil
  | cons i items ih => exact fun zero_ => (List.mem_append.mp zero_).elim text_nonzero ih

/-- What was stored is a string if the byte behind it was zero. -/
theorem terminated_iff (nonzero : 0 ∉ out) : Terminated (stored prior out) out.length ↔ prior out.length = 0 := by
  have behind : stored prior out out.length = prior out.length := by
    rw [stored, List.getD_eq_getElem?_getD, List.getElem?_eq_none le_rfl, Option.getD_none]
  have inside (k : Nat) (low : k < out.length) : stored prior out k ≠ 0 := by
    rw [stored, List.getD_eq_getElem?_getD, List.getElem?_eq_getElem low, Option.getD_some]
    exact fun zero_ => nonzero (zero_ ▸ List.getElem_mem low)
  constructor
  · rintro ⟨length, same, zero_, -⟩
    obtain rfl := Int.ofNat.inj same
    exact behind.symm.trans zero_
  · exact fun zero_ => ⟨out.length, rfl, behind.trans zero_, inside⟩

/-- The contract, of what the function is known to return. -/
theorem resultContract_of_result {n : Int32}
    (ran : ∀ after, sprintf strings (chars ++ 0 :: after) v buf = some (n, out)) :
    ResultContract strings chars v buf prior ↔ (n = -1 ↔ ¬ ∃ items, chars = format items) ∧
      ∀ items, chars = format items → (rendering strings items v).length < 2 ^ 31 →
        Terminated (stored prior out) n.toInt := by
  constructor
  · rintro ⟨n', out', ran', contract⟩
    have same := (ran' []).symm.trans (ran [])
    cases same
    exact contract
  · exact fun contract => ⟨n, out, ran, contract⟩

/-- The contract is kept if and only if the format does not end behind a percent sign and a zero was behind the
text already. -/
theorem resultContract_iff (clean : 0 ∉ chars)
    (args : ∀ items tail, chars = format items ++ tail → Matching strings items v) (room : numBufLen ≤ buf.length) :
    ResultContract strings chars v buf prior ↔ ZeroBehindText strings chars v prior := by
  obtain ⟨items, tail, rfl, none_⟩ := format_exists chars
  have behind : 0 ∉ tail := fun zero_ => clean (List.mem_append_right _ zero_)
  have ran (after : List UInt8) := @sprintf_tail strings items v buf after tail behind none_ (args items tail rfl) room
  have bad (some_ : tail ≠ []) : ¬ ∃ items', format items ++ tail = format items' := not_format none_ some_
  have lone : nextItem ['%'.toUInt8] = none := rfl
  rw [resultContract_of_result ran]
  obtain rfl | rfl | ⟨kind, rest, rfl, -⟩ := nextItem_none behind none_
  · -- The format is good, and has no other items.
    have good : ∃ items', format items ++ [] = format items' := ⟨items, List.append_nil _⟩
    rw [if_pos (.inl rfl)]
    constructor
    · rintro ⟨minus, ends⟩ items'
      refine ⟨fun same => absurd (format_unique none_ lone same).2 (by simp), fun same => ?_⟩
      obtain ⟨rfl, -⟩ := format_whole none_ same
      refine ⟨fun returns => minus.mp returns good, fun small => ?_⟩
      have terminated := ends items same small
      rw [returned_toInt small] at terminated
      exact (terminated_iff rendering_nonzero).mp terminated
    · intro holds
      obtain ⟨other, zero_⟩ := (holds items).2 (List.append_nil _)
      refine ⟨⟨fun returns => absurd returns other, fun none_ => absurd good none_⟩, fun items' same small => ?_⟩
      obtain ⟨rfl, -⟩ := format_whole none_ same
      rw [returned_toInt small]
      exact (terminated_iff rendering_nonzero).mpr (zero_ small)
  · rw [if_pos (.inr rfl)]
    have bad := bad (List.cons_ne_nil _ _)
    constructor
    · rintro ⟨minus, -⟩ items'
      refine ⟨fun same => ?_, fun same => absurd ⟨items', same⟩ bad⟩
      obtain ⟨rfl, -⟩ := format_unique none_ lone same
      exact minus.mpr bad
    · intro holds
      have returns := (holds items).1 rfl
      exact ⟨⟨fun _ => bad, fun _ => returns⟩, fun items' same => absurd ⟨items', same⟩ bad⟩
  · have bad := bad (List.cons_ne_nil _ _)
    have longer (items' : List Item) : format items ++ '%'.toUInt8 :: kind :: rest ≠ format items' ++ ['%'.toUInt8] :=
      fun same => absurd (format_unique none_ lone same).2 (by simp)
    rw [if_neg (by simp)]
    exact ⟨fun _ items' => ⟨fun same => absurd same (longer items'), fun same => absurd ⟨items', same⟩ bad⟩,
      fun _ => ⟨⟨fun _ => bad, fun _ => rfl⟩, fun items' same => absurd ⟨items', same⟩ bad⟩⟩

/-- `"%s!"`, with a pointer to `hi`. -/
def greeting : List Item := [.string, .literal '!'.toUInt8 (by decide)]

def hi : UInt32 → List UInt8 := fun _ => ['h'.toUInt8, 'i'.toUInt8, 0]

/-- Among the bytes that were there before the call the fourth is the only zero. -/
theorem resultContract_iff_greeting : ResultContract hi (format greeting) (fun _ => 0x1000) (List.replicate numBufLen 0)
    (fun x => if x = 3 then 0 else 7) := by
  have length : (rendering hi greeting fun _ => 0x1000).length = 3 := rfl
  refine (resultContract_iff (by decide) (fun _ _ _ => matching_of_strings fun _ => ?_) (by simp)).mpr fun items => ?_
  · change 0 ∈ ['h'.toUInt8, 'i'.toUInt8, 0]
    decide
  constructor
  · intro same
    have none_ : nextItem [] = none := rfl
    have none_' : nextItem ['%'.toUInt8] = none := rfl
    cases (format_unique none_ none_' ((List.append_nil _).trans same)).2
  · intro same
    have none_ : nextItem [] = none := rfl
    obtain ⟨rfl, -⟩ := format_whole none_ ((List.append_nil _).trans same)
    rw [length]
    exact ⟨by decide, fun _ => rfl⟩

/-- Where the byte behind the text was not zero, there is no string, and a format that is a percent sign alone
returns 0. -/
theorem contract_not_kept :
    ¬ ResultContract (fun _ => [0]) ['a'.toUInt8] (fun _ => 0) (List.replicate numBufLen 0) (fun _ => 7) ∧
    ¬ ResultContract (fun _ => [0]) ['%'.toUInt8] (fun _ => 0) (List.replicate numBufLen 0) (fun _ => 0) := by
  constructor
  · rintro ⟨n, out, ran, -, ends⟩
    have ran' : sprintf (fun _ => [0]) ['a'.toUInt8, 0] (fun _ => 0) (List.replicate numBufLen 0) =
        some (1, ['a'.toUInt8]) := rfl
    obtain ⟨rfl, rfl⟩ := Prod.mk.inj (Option.some_inj.mp ((ran []).symm.trans ran'))
    obtain ⟨length, same, zero_, -⟩ := ends [.literal 'a'.toUInt8 (by decide)] rfl (by decide)
    obtain rfl : length = 1 := by
      have one : (1 : Int32).toInt = 1 := by decide
      omega
    exact absurd zero_ (by decide)
  · rintro ⟨n, out, ran, minus, -⟩
    have ran' : sprintf (fun _ => [0]) ['%'.toUInt8, 0] (fun _ => 0) (List.replicate numBufLen 0) = some (0, []) := rfl
    obtain ⟨rfl, rfl⟩ := Prod.mk.inj (Option.some_inj.mp ((ran []).symm.trans ran'))
    have bad : ¬ ∃ items, ['%'.toUInt8] = format items := @not_format [] ['%'.toUInt8] rfl (List.cons_ne_nil _ _)
    exact absurd (minus.mpr bad) (by decide)

end AtaKernel.Text
