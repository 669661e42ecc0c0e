import AtaKernel.Library.Numerals
import AtaKernel.Text.Formats

/-! The numbers that string.c prints, read as numerals. `itoa` writes the canonical
numeral of its number behind the prefix of the base. The placeholders for 64 bits
put two such texts together, and fill the second one up with zero bytes where zeros
were meant: the text ends there, so that the low half is lost unless it needs no
filling. -/
namespace AtaKernel.Text
open CString Numerals

variable {i : UInt32} {base padding : UInt8} {a rest buf t : List UInt8} {q : UInt64} {letter : UInt8}
  {good : List UInt8 → Prop}

/-! ## itoa -/

theorem digitChar_glyph {d : Nat} (low : d < 16) : digitChar d = glyph d := by
  have all : ∀ d < 16, digitChar d = glyph d := by decide
  exact all d low

theorem figures_numeral (allowed : Allowed base) : (figures i base).reverse = numeral base.toNat i.toNat := by
  have zero_iff : i.toNat = 0 ↔ i = 0 := UInt32.toNat_inj (b := 0)
  unfold figures numeral
  by_cases zero_ : i = 0
  · rw [if_pos zero_, if_pos (zero_iff.mpr zero_)]
    rfl
  · have digits_ : (Nat.digits base.toNat i.toNat).map digitChar = (Nat.digits base.toNat i.toNat).map glyph := by
      refine List.map_congr_left fun d inside => digitChar_glyph ?_
      exact (Nat.digits_lt_base allowed.bounds.1 inside).trans_le allowed.bounds.2
    rw [if_neg zero_, if_neg fun same => zero_ (zero_iff.mp same), digits_]

theorem padded_numeral (allowed : Allowed base) : padded i base padding =
    List.replicate (padding.toNat - (figures i base).length) 0 ++ numeral base.toNat i.toNat := by
  rw [padded, figures_numeral allowed]

theorem written_numeral (allowed : Allowed base) : written i base 0 = lead base ++ numeral base.toNat i.toNat := by
  rw [written, padded_numeral allowed, show (0 : UInt8).toNat = 0 from rfl, Nat.zero_sub, List.replicate_zero,
    List.nil_append]

/-- `itoa` writes the prefix of the base and the canonical numeral of the number, which stands for nothing but the
number, in at most 33 bytes. -/
theorem itoa_round_trip (i : UInt32) (allowed : Allowed base) (a : List UInt8) (room : 33 ≤ rest.length) : ∃ t,
    itoa i base (a ++ rest) a.length 0 =
        some (a ++ (lead base ++ t ++ 0 :: rest.drop ((lead base ++ t).length + 1))) ∧
      (lead base ++ t).length + 1 ≤ 33 ∧ 0 ∉ lead base ++ t ∧
      Canonical base.toNat t ∧ parse base.toNat t = some i.toNat ∧
      ∀ t', Canonical base.toNat t' → parse base.toNat t' = some i.toNat → t' = t := by
  obtain ⟨two, sixteen⟩ := allowed.bounds
  have short := @written_unpadded i base allowed
  have nonzero := @written_nonzero i base allowed
  have ran := @itoa_over a rest i base 0 allowed (short.trans (by decide)) (by omega)
  rw [written_numeral allowed] at short nonzero ran
  exact ⟨numeral base.toNat i.toNat, ran, Nat.succ_le_succ short, nonzero, numeral_canonical two sixteen,
    parse_numeral two sixteen, fun t' canonical value => canonical.unique two sixteen value⟩

theorem itoa_round_trip_hex : ∃ t,
    itoa 0xbeef 16 ([7] ++ List.replicate 40 1) 1 0 =
        some ([7] ++ (lead 16 ++ t ++ 0 :: (List.replicate 40 1).drop ((lead 16 ++ t).length + 1))) ∧
      (lead 16 ++ t).length + 1 ≤ 33 ∧ 0 ∉ lead 16 ++ t ∧
      Canonical 16 t ∧ parse 16 t = some 0xbeef ∧
      ∀ t', Canonical 16 t' → parse 16 t' = some 0xbeef → t' = t :=
  @itoa_round_trip 16 _ 0xbeef (by unfold Allowed; decide) [7] (by decide)

/-! ## Numbers of 64 bits -/

/-- In every format, and whatever is in the local buffer, `%q` with this letter prints a text as it should be. -/
def QuadPrints (letter : UInt8) (q : UInt64) (good : List UInt8 → Prop) : Prop :=
  ∀ strings fmt v buf count out, numBufLen ≤ buf.length → (vaArg64 v).1 = q → ∃ t p,
    sprintfRound strings 'q'.toUInt8 (letter :: fmt) ⟨true, v, buf, count, out⟩ = some (.go fmt p) ∧
      p.out = out ++ t ∧ good t

/-- The two dwords of `q`, and zeros behind them. -/
def quadArgs (q : UInt64) : VaList := fun k => if k = 0 then q.toUInt32 else if k = 1 then (q >>> 32).toUInt32 else 0

theorem quad_halves (q : UInt64) : q.toNat = q.toUInt32.toNat + 2 ^ 32 * (q >>> 32).toUInt32.toNat := by
  have small := q.toNat_lt
  rw [UInt64.toNat_toUInt32, UInt64.toNat_toUInt32, UInt64.toNat_shiftRight, Nat.shiftRight_eq_div_pow,
    show (32 : UInt64).toNat % 64 = 32 from rfl]
  omega

theorem vaArg64_quadArgs : (vaArg64 (quadArgs q)).1 = q := by
  have high := (q >>> 32).toUInt32.toNat_lt
  have low := q.toUInt32.toNat_lt
  apply UInt64.toNat_inj.mp
  change ((q >>> 32).toUInt32.toUInt64 <<< 32 ||| q.toUInt32.toUInt64).toNat = q.toNat
  rw [UInt64.toNat_or, UInt64.toNat_shiftLeft, UInt32.toNat_toUInt64, UInt32.toNat_toUInt64,
    show (32 : UInt64).toNat % 64 = 32 from rfl, Nat.shiftLeft_eq, Nat.mod_eq_of_lt (by omega), Nat.mul_comm,
    ← Nat.two_pow_add_eq_or_of_lt low, Nat.add_comm, ← quad_halves]

/-- The text does not depend on anything but the letter and the number. -/
theorem quadPrints_iff {text : UInt64 → List UInt8}
    (means : ∀ fmt v, meaning 'q'.toUInt8 (letter :: fmt) v = .own (text (vaArg64 v).1) fmt (vaArg64 v).2) :
    QuadPrints letter q good ↔ good (text q) := by
  have prints (strings : UInt32 → List UInt8) (fmt : List UInt8) (v : VaList) (buf : List UInt8) (count : UInt32)
      (out : List UInt8) (room : numBufLen ≤ buf.length) : ∃ p,
      sprintfRound strings 'q'.toUInt8 (letter :: fmt) ⟨true, v, buf, count, out⟩ = some (.go fmt p) ∧
        p.out = out ++ text (vaArg64 v).1 := by
    have ran := @placeholder_means buf (letter :: fmt) 'q'.toUInt8 v (by simp) room
    rw [means] at ran
    obtain ⟨buf', ran, filled⟩ := ran
    exact ⟨_, sprintfRound_own ran filled.holds, rfl⟩
  constructor
  · intro all
    obtain ⟨t, p, ran, out, fine⟩ := all (fun _ => []) [] (quadArgs q) (List.replicate numBufLen 0) 0 [] (by simp)
      vaArg64_quadArgs
    obtain ⟨p', ran', out'⟩ := prints (fun _ => []) [] (quadArgs q) (List.replicate numBufLen 0) 0 [] (by simp)
    rw [ran] at ran'
    cases ran'
    rw [vaArg64_quadArgs] at out'
    rwa [← List.append_cancel_left (out.symm.trans out')]
  · rintro fine strings fmt v buf count out room rfl
    obtain ⟨p, ran, out'⟩ := prints strings fmt v buf count out room
    exact ⟨_, p, ran, out', fine⟩

theorem figures_length_iff (allowed : Allowed base) {k : Nat} (some_ : 0 < k) :
    (figures i base).length ≤ k ↔ i.toNat < base.toNat ^ k := by
  refine ⟨fun short => ?_, fun small => figures_length allowed some_ small⟩
  unfold figures at short
  split at short
  · next zero_ =>
    rw [zero_]
    exact Nat.pow_pos (by have := allowed.bounds.1; omega)
  · rw [List.length_map] at short
    exact (Nat.digits_length_le_iff allowed.bounds.1 _).mp short

/-- A number that is filled up shows nothing, and the others show all their digits. -/
theorem padded_text (allowed : Allowed base) {k : Nat} (some_ : 0 < k) (wide : padding.toNat = k + 1) :
    (padded i base padding).takeWhile (· ≠ 0) =
      if base.toNat ^ k ≤ i.toNat then numeral base.toNat i.toNat else [] := by
  have short := @figures_length_iff i base allowed k some_
  rw [padded_numeral allowed, wide]
  split
  · next large =>
    have none_ : k + 1 - (figures i base).length = 0 := by omega
    rw [none_, List.replicate_zero, List.nil_append, ← figures_numeral allowed, List.takeWhile_eq_self_iff]
    intro c inside
    refine decide_eq_true fun zero_ => figures_nonzero (i := i) allowed ?_
    rw [← zero_]
    exact List.mem_reverse.mp inside
  · next small =>
    obtain ⟨n, zeros⟩ : ∃ n, k + 1 - (figures i base).length = n + 1 := ⟨k - (figures i base).length, by omega⟩
    rw [zeros]
    rfl

/-- The two halves stand for the number if the low one has all the digits that it can have. -/
theorem halves_value_iff (allowed : Allowed base) {k : Nat} (some_ : 0 < k) (fills : base.toNat ^ (k + 1) = 2 ^ 32) :
    parse base.toNat (numeral base.toNat (q >>> 32).toUInt32.toNat ++
        if base.toNat ^ k ≤ q.toUInt32.toNat then numeral base.toNat q.toUInt32.toNat else []) = some q.toNat ↔
      q = 0 ∨ base.toNat ^ k ≤ q.toUInt32.toNat := by
  obtain ⟨two, sixteen⟩ := allowed.bounds
  have halves := quad_halves q
  have high : parse base.toNat (numeral base.toNat (q >>> 32).toUInt32.toNat) = _ := parse_numeral two sixteen
  have zero_iff : q.toNat = 0 ↔ q = 0 := UInt64.toNat_inj (b := 0)
  by_cases large : base.toNat ^ k ≤ q.toUInt32.toNat
  · have low : parse base.toNat (numeral base.toNat q.toUInt32.toNat) = _ := parse_numeral two sixteen
    have long : ¬ (figures q.toUInt32 base).length ≤ k := fun short =>
      absurd ((figures_length_iff allowed some_).mp short) (not_lt.mpr large)
    have most : (figures q.toUInt32 base).length ≤ k + 1 :=
      (figures_length_iff allowed k.succ_pos).mpr (fills ▸ q.toUInt32.toNat_lt)
    have length : (numeral base.toNat q.toUInt32.toNat).length = k + 1 := by
      rw [← figures_numeral allowed, List.length_reverse]
      omega
    rw [if_pos large, parse_append sixteen high low, length, fills, ← halves]
    exact iff_of_true rfl (.inr large)
  · rw [if_neg large, List.append_nil, high, Option.some_inj, or_iff_left large, ← zero_iff]
    omega

/-- A number of 64 bits is printed in full if and only if it is 0 or the highest digit of its low half is not. -/
theorem quads_print_in_full_iff (q : UInt64) :
    (QuadPrints 'b'.toUInt8 q (fun t => parse 2 t = some q.toNat) ↔ q = 0 ∨ 2 ^ 31 ≤ q.toNat % 2 ^ 32) ∧
    (QuadPrints 'x'.toUInt8 q (fun t => ∃ n, t = ['0'.toUInt8, 'x'.toUInt8] ++ n ∧ parse 16 n = some q.toNat) ↔
      q = 0 ∨ 2 ^ 28 ≤ q.toNat % 2 ^ 32) := by
  have low : q.toUInt32.toNat = q.toNat % 2 ^ 32 := UInt64.toNat_toUInt32 q
  have two : Allowed 2 := .inl rfl
  have sixteen : Allowed 16 := .inr (.inr (.inr rfl))
  constructor
  · rw [@quadPrints_iff _ _ _ binaryText fun _ _ => rfl, binaryText, written_numeral two, written, ← low]
    change parse 2 (numeral 2 _ ++ (padded _ 2 32).takeWhile _) = _ ↔ _
    rw [padded_text two (k := 31) (by decide) rfl]
    exact halves_value_iff two (by decide) (by decide)
  · rw [@quadPrints_iff _ _ _ hexText fun _ _ => rfl, hexText, written_numeral sixteen, written, ← low]
    change (∃ n, ['0'.toUInt8, 'x'.toUInt8] ++ numeral 16 _ ++ (padded _ 16 8).takeWhile _ = _ ∧ _) ↔ _
    rw [padded_text sixteen (k := 7) (by decide) rfl]
    refine Iff.trans ⟨?_, fun value => ⟨_, List.append_assoc _ _ _, value⟩⟩
      (halves_value_iff sixteen (by decide) (by decide))
    rintro ⟨n, same, value⟩
    rw [List.append_assoc] at same
    rwa [List.append_cancel_left same]

/-- The number 1 is printed as `0`, and as `0x0`. -/
theorem quad_one_not_in_full : binaryText 1 = ['0'.toUInt8] ∧
    ¬ QuadPrints 'b'.toUInt8 1 (fun t => parse 2 t = some 1) ∧
    ¬ QuadPrints 'x'.toUInt8 1 (fun t => ∃ n, t = ['0'.toUInt8, 'x'.toUInt8] ++ n ∧ parse 16 n = some 1) := by
  have binary : binaryText 1 = ['0'.toUInt8] := by decide
  have hex : hexText 1 = ['0'.toUInt8, 'x'.toUInt8] ++ ['0'.toUInt8] := by decide
  refine ⟨binary, ?_, ?_⟩
  · rw [@quadPrints_iff _ _ _ binaryText fun _ _ => rfl, binary]
    decide
  · rw [@quadPrints_iff _ _ _ hexText fun _ _ => rfl, hex]
    rintro ⟨n, same, value⟩
    rw [← List.append_cancel_left same] at value
    exact absurd value (by decide)

end AtaKernel.Text
