import AtaKernel.Text.Numbers

/-! The formats of `sprintf` and `fb_printf`. The two functions read a placeholder
in the same words, which are here once, and each has a loop of its own around
them. What a placeholder leaves in the local buffer is a string that depends on
the format and the arguments, and not on what was in the buffer. -/
namespace AtaKernel.Text
open CString

/-! ## Arguments -/

/-- The dwords that `v` points to, on the stack of the caller. -/
abbrev VaList := Nat → UInt32

/-- `va_arg(v, u32)` and `va_arg(v, char *)` -/
def vaArg (v : VaList) : UInt32 × VaList := (v 0, fun k => v (k + 1))

/-- `va_arg(v, u64)` -/
def vaArg64 (v : VaList) : UInt64 × VaList :=
  ((v 1).toUInt64 <<< 32 ||| (v 0).toUInt64, fun k => v (k + 2))

/-! ## Placeholders -/

/-- What `s` points to. -/
inductive Pointed
  | argument (s : UInt32)
  | buf

/-- Where the `switch` on a placeholder comes out. -/
inductive Placeholder
  | badFormat
  | text (s : Pointed) (buf fmt : List UInt8) (v : VaList)

/-- `%b`, `%w` and `%d`: how the argument becomes `d`. -/
def narrowing (kind : UInt8) : Option (UInt32 → UInt32) :=
  if kind = 'b'.toUInt8 then some fun d => d.toUInt8.toUInt32
  else if kind = 'w'.toUInt8 then some fun d => d.toUInt16.toUInt32
  else if kind = 'd'.toUInt8 then some fun d => d
  else none

/-- The base behind `%b`, `%w` and `%d`. -/
def baseOf (letter : UInt8) : Option UInt8 :=
  if letter = 'b'.toUInt8 then some 2
  else if letter = 'o'.toUInt8 then some 8
  else if letter = 'd'.toUInt8 then some 10
  else if letter = 'x'.toUInt8 then some 16
  else none

/-- `%qb` -/
def quadBinary (q : UInt64) (buf : List UInt8) : Option (List UInt8) := do
  let buf ← itoa (q >>> 32).toUInt32 2 buf 0 0
  let d ← strlen buf
  itoa q.toUInt32 2 buf d.toNat 32

/-- `%qo`, `%qd` and `%qx` -/
def quadHex (q : UInt64) (buf : List UInt8) : Option (List UInt8) := do
  let buf ← itoa (q >>> 32).toUInt32 16 buf 0 0
  let d ← strlen buf
  let buf ← itoa q.toUInt32 16 buf d.toNat 8
  strcpy buf d.toNat (d.toNat + 2)

/-- `switch (*fmt)` in `STATE_PLACEHOLDER`, with `*fmt` and what lies behind it. -/
def placeholder (c : UInt8) (fmt : List UInt8) (v : VaList) (buf : List UInt8) : Option Placeholder :=
  if c = 's'.toUInt8 then
    let (s, v) := vaArg v
    some (.text (.argument s) buf fmt v)
  else if c = '%'.toUInt8 then do
    let buf ← setAt buf 0 '%'.toUInt8
    let buf ← setAt buf 1 0
    some (.text .buf buf fmt v)
  else if c = 'q'.toUInt8 then
    let (q, v) := vaArg64 v
    match fmt with
    | [] => none
    | letter :: fmt =>
      if letter = 'b'.toUInt8 then do
        let buf ← quadBinary q buf
        some (.text .buf buf fmt v)
      else if letter = 'o'.toUInt8 ∨ letter = 'd'.toUInt8 ∨ letter = 'x'.toUInt8 then do
        let buf ← quadHex q buf
        some (.text .buf buf fmt v)
      else some .badFormat
  else match narrowing c with
    | none => some .badFormat
    | some cut =>
      let (d, v) := vaArg v
      match fmt with
      | [] => none
      | letter :: fmt =>
        match baseOf letter with
        | none => some .badFormat
        | some base => do
          let buf ← itoa (cut d) base buf 0 0
          some (.text .buf buf fmt v)

/-! ## sprintf -/

/-- The variables of a loop over a format, and what it prints to. -/
structure Printing (ω : Type) where
  /-- `state == STATE_PLACEHOLDER` -/
  inPlaceholder : Bool
  v : VaList
  buf : List UInt8
  count : UInt32
  out : ω

/-- `for (; *s != '\0'; *dst = *s, dst ++, s ++, count ++);` -/
def copyOut : List UInt8 → UInt32 → List UInt8 → Option (UInt32 × List UInt8)
  | [], _, _ => none
  | c :: s, count, dst => if c = 0 then some (count, dst) else copyOut s (count + 1) (dst ++ [c])

/-- A round of `sprintf`. `strings` is what lies at an address, and `out` is what was stored through
`dst`, in order. -/
def sprintfRound (strings : UInt32 → List UInt8) (c : UInt8) (fmt : List UInt8) (p : Printing (List UInt8)) :
    Option (Turn (Int32 × List UInt8) (Printing (List UInt8))) :=
  if p.inPlaceholder = false then
    if c = '%'.toUInt8 then some (.go fmt { p with inPlaceholder := true })
    else some (.go fmt { p with out := p.out ++ [c], count := p.count + 1 })
  else do
    match ← placeholder c fmt p.v p.buf with
    | .badFormat => some (.leave (-1, p.out))
    | .text s buf fmt v =>
      let text := match s with
        | .argument s => strings s
        | .buf => buf
      let (count, out) ← copyOut text p.count p.out
      some (.go fmt ⟨false, v, buf, count, out⟩)

/-- `sprintf`: what it returns, and what it stores from `dst` on. At the start, `buf` is what lies in
the local buffer and above it on the stack. -/
def sprintf (strings : UInt32 → List UInt8) (fmt : List UInt8) (v : VaList) (buf : List UInt8) :
    Option (Int32 × List UInt8) :=
  readText (sprintfRound strings) (fun p => (p.count.toInt32, p.out)) fmt.length fmt ⟨false, v, buf, 0, []⟩

/-! ## What a placeholder means -/

/-- The text of `%qb`: the low half is filled up with zero bytes, which end the string. -/
def binaryText (q : UInt64) : List UInt8 :=
  written (q >>> 32).toUInt32 2 0 ++ (written q.toUInt32 2 32).takeWhile (· ≠ 0)

/-- The text of `%qo`, `%qd` and `%qx`. -/
def hexText (q : UInt64) : List UInt8 :=
  written (q >>> 32).toUInt32 16 0 ++ ((written q.toUInt32 16 8).drop 2).takeWhile (· ≠ 0)

inductive Meaning
  | bad
  | argument (s : UInt32) (fmt : List UInt8) (v : VaList)
  | own (t fmt : List UInt8) (v : VaList)

def meaning (c : UInt8) (fmt : List UInt8) (v : VaList) : Meaning :=
  if c = 's'.toUInt8 then .argument (vaArg v).1 fmt (vaArg v).2
  else if c = '%'.toUInt8 then .own ['%'.toUInt8] fmt v
  else if c = 'q'.toUInt8 then
    if fmt.head? = some 'b'.toUInt8 then .own (binaryText (vaArg64 v).1) fmt.tail (vaArg64 v).2
    else if fmt.head? = some 'o'.toUInt8 ∨ fmt.head? = some 'd'.toUInt8 ∨ fmt.head? = some 'x'.toUInt8 then
      .own (hexText (vaArg64 v).1) fmt.tail (vaArg64 v).2
    else .bad
  else match narrowing c, fmt.head?.bind baseOf with
    | some cut, some base => .own (written (cut (vaArg v).1) base 0) fmt.tail (vaArg v).2
    | _, _ => .bad

/-- The buffer holds the string `t` now, and nothing has changed above its own bytes. -/
structure Filled (before after t : List UInt8) : Prop where
  holds : Holds after t
  short : t.length < numBufLen
  length : after.length = before.length
  above : after.drop numBufLen = before.drop numBufLen

variable {buf t fmt : List UInt8} {c : UInt8} {v : VaList} {q : UInt64} {base : UInt8} {i : UInt32}

theorem filled_of_split {old new rest : List UInt8} (holds : Holds new t) (same : new.length = old.length)
    (within : old.length ≤ numBufLen) : Filled (old ++ rest) (new ++ rest) t := by
  obtain ⟨nonzero, after, split⟩ := holds
  have long := congrArg List.length split
  rw [List.length_append, List.length_cons] at long
  refine ⟨⟨nonzero, after ++ rest, by rw [split]; simp⟩, by omega, by simp [same], ?_⟩
  rw [List.drop_append, List.drop_append, List.drop_eq_nil_of_le within, List.drop_eq_nil_of_le (same ▸ within), same]

/-- What stands at the beginning of the array is overwritten up to a zero. -/
theorem filled_over {s : List UInt8} (nonzero : 0 ∉ s) (within : s.length < numBufLen) (room : numBufLen ≤ buf.length) :
    Filled buf (s ++ 0 :: buf.drop (s.length + 1)) s := by
  have filled := @filled_of_split s (buf.take (s.length + 1)) (s ++ [0]) (buf.drop (s.length + 1))
    ⟨nonzero, [], rfl⟩ (by simp; omega) (by rw [List.length_take]; omega)
  rw [List.take_append_drop] at filled
  simpa using filled

theorem itoa_filled (allowed : Allowed base) (room : numBufLen ≤ buf.length) :
    ∃ buf', itoa i base buf 0 0 = some buf' ∧ Filled buf buf' (written i base 0) := by
  have short := @written_unpadded i base allowed
  have ran := @itoa_over [] buf i base 0 allowed (short.trans (by decide))
      (short.trans_lt (lt_of_lt_of_le (by decide) room))
  exact ⟨_, ran, filled_over (written_nonzero allowed) (short.trans_lt (by decide)) room⟩

/-- `itoa(i, base, buf, 0); d = strlen(buf); itoa(j, base, buf + d, padding);` -/
theorem itoa_twice (allowed : Allowed base) {j : UInt32} {padding : UInt8}
    (within : (written i base 0).length + (written j base padding).length < numBufLen) (room : numBufLen ≤ buf.length) :
    ∃ first d old rest, itoa i base buf 0 0 = some first ∧ strlen first = some d ∧
      d.toNat = (written i base 0).length ∧
      itoa j base first d.toNat padding = some (written i base 0 ++ (written j base padding ++ 0 :: rest)) ∧
      buf = old ++ rest ∧ old.length = (written i base 0).length + (written j base padding).length + 1 := by
  have nonzero := @written_nonzero i base allowed
  have fits : (written i base 0).length ≤ numBufLen ∧ (written i base 0).length < buf.length ∧
    (written j base padding).length ≤ numBufLen := by omega
  have count : (UInt32.ofNat (written i base 0).length).toNat = (written i base 0).length :=
    UInt32.toNat_ofNat_of_lt' (lt_of_le_of_lt fits.1 (by decide))
  have ran := @itoa_over [] buf i base 0 allowed fits.1 fits.2.1
  have ran' := @itoa_over (written i base 0) (0 :: buf.drop ((written i base 0).length + 1)) j base padding allowed
    fits.2.2 (by rw [List.length_cons, List.length_drop]; omega)
  have rest : (written i base 0).length + 1 + (written j base padding).length =
      (written i base 0).length + (written j base padding).length + 1 := by omega
  rw [List.drop_succ_cons, List.drop_drop, rest] at ran'
  refine ⟨_, _, _, _, ran, strlen_string nonzero, count, ?_,
    (List.take_append_drop ((written i base 0).length + (written j base padding).length + 1) buf).symm, ?_⟩
  · rw [count]
    exact ran'
  · rw [List.length_take]
    omega

theorem quadBinary_filled (room : numBufLen ≤ buf.length) :
    ∃ buf', quadBinary q buf = some buf' ∧ Filled buf buf' (binaryText q) := by
  have high := @written_two (q >>> 32).toUInt32 0 (Nat.zero_le _)
  have low := @written_two q.toUInt32 32 le_rfl
  have within : (written (q >>> 32).toUInt32 2 0).length + (written q.toUInt32 2 32).length < numBufLen := by
    unfold numBufLen
    omega
  obtain ⟨first, d, old, rest, ran, count, -, ran', rfl, long⟩ :=
    @itoa_twice buf 2 (q >>> 32).toUInt32 (.inl rfl) q.toUInt32 32 within room
  have holds : Holds (written (q >>> 32).toUInt32 2 0 ++ (written q.toUInt32 2 32 ++ [0])) (binaryText q) :=
    Holds.behind (written_nonzero (.inl rfl)) holds_takeWhile
  refine ⟨_, ?_, @filled_of_split (binaryText q) old
    (written (q >>> 32).toUInt32 2 0 ++ (written q.toUInt32 2 32 ++ [0])) rest
    holds (by simp; omega) (by omega)⟩
  rw [quadBinary, ran]
  simp only [Option.bind_eq_bind, Option.bind_some, count]
  simpa using ran'

theorem quadHex_filled (room : numBufLen ≤ buf.length) :
    ∃ buf', quadHex q buf = some buf' ∧ Filled buf buf' (hexText q) := by
  have high := @written_sixteen (q >>> 32).toUInt32 0 (Nat.zero_le _)
  have low := @written_sixteen q.toUInt32 8 le_rfl
  have within : (written (q >>> 32).toUInt32 16 0).length + (written q.toUInt32 16 8).length < numBufLen := by
    unfold numBufLen
    omega
  have first_ : 0 ∉ written (q >>> 32).toUInt32 16 0 := written_nonzero (.inr (.inr (.inr rfl)))
  obtain ⟨first, d, old, rest, ran, count, length, ran', rfl, long⟩ :=
    @itoa_twice buf 16 (q >>> 32).toUInt32 (.inr (.inr (.inr rfl))) q.toUInt32 8 within room
  -- The copy takes the `0x` of the low half out.
  obtain ⟨p, split⟩ : ∃ p, written q.toUInt32 16 8 = ['0'.toUInt8, 'x'.toUInt8] ++ p := ⟨_, rfl⟩
  have text : hexText q = written (q >>> 32).toUInt32 16 0 ++ p.takeWhile (· ≠ 0) := by
    rw [hexText, split]
    rfl
  obtain ⟨nonzero, after, zeros⟩ : Holds (p ++ [0]) (p.takeWhile (· ≠ 0)) := holds_takeWhile
  obtain ⟨z, two, copied⟩ := @strcpy_down (written (q >>> 32).toUInt32 16 0) (p.takeWhile (· ≠ 0)) (after ++ rest)
    ['0'.toUInt8, 'x'.toUInt8] (by simp) nonzero
  have lengths := congrArg List.length zeros
  have short : old.length ≤ numBufLen := by omega
  rw [split] at long ran'
  simp only [List.length_append, List.length_cons, List.length_nil] at lengths long two
  have low_ : p ++ 0 :: rest = p.takeWhile (· ≠ 0) ++ 0 :: (after ++ rest) := by
    have more := congrArg (· ++ rest) zeros
    simpa using more
  refine ⟨_, ?_, @filled_of_split (hexText q) old
    (written (q >>> 32).toUInt32 16 0 ++ (p.takeWhile (· ≠ 0) ++ 0 :: (z ++ after))) rest ?_ ?_ short⟩
  · rw [quadHex, ran]
    rw [length] at ran'
    simp only [Option.bind_eq_bind, Option.bind_some, count, length]
    rw [ran', Option.bind_some, List.append_assoc, low_, ← List.append_assoc]
    simpa using copied
  · rw [text]
    exact ⟨fun zero_ => (List.mem_append.mp zero_).elim first_ nonzero, z ++ after, (List.append_assoc _ _ _).symm⟩
  · simp only [List.length_append, List.length_cons]
    omega

theorem baseOf_allowed {letter : UInt8} (named : baseOf letter = some base) : Allowed base := by
  unfold baseOf at named
  split at named
  · cases named
    exact .inl rfl
  split at named
  · cases named
    exact .inr (.inl rfl)
  split at named
  · cases named
    exact .inr (.inr (.inl rfl))
  split at named
  · cases named
    exact .inr (.inr (.inr rfl))
  · cases named

/-- The `switch` does what the placeholder means, whatever is in the buffer. -/
theorem placeholder_means (behind : fmt ≠ []) (room : numBufLen ≤ buf.length) :
    match meaning c fmt v with
    | .bad => placeholder c fmt v buf = some .badFormat
    | .argument s fmt' v' => placeholder c fmt v buf = some (.text (.argument s) buf fmt' v')
    | .own t fmt' v' => ∃ buf', placeholder c fmt v buf = some (.text .buf buf' fmt' v') ∧ Filled buf buf' t := by
  obtain ⟨letter, fmt, rfl⟩ := List.exists_cons_of_ne_nil behind
  unfold meaning placeholder
  by_cases string : c = 's'.toUInt8
  · rw [if_pos string, if_pos string]
  rw [if_neg string, if_neg string]
  by_cases percent : c = '%'.toUInt8
  · rw [if_pos percent, if_pos percent]
    obtain ⟨x, y, buf, rfl⟩ : ∃ x y b, buf = x :: y :: b := by
      obtain _ | ⟨x, _ | ⟨y, b⟩⟩ := buf
      · exact absurd room (by decide)
      · exact absurd room (by simp [numBufLen])
      · exact ⟨x, y, b, rfl⟩
    refine ⟨'%'.toUInt8 :: 0 :: buf, ?_, filled_over (s := ['%'.toUInt8]) (by decide) (by decide) room⟩
    have first : setAt (x :: y :: buf) 0 '%'.toUInt8 = some ('%'.toUInt8 :: y :: buf) := setAt_some (by simp)
    have second : setAt ('%'.toUInt8 :: y :: buf) 1 0 = some ('%'.toUInt8 :: 0 :: buf) := setAt_some (by simp)
    rw [first, Option.bind_eq_bind, Option.bind_some, second]
    rfl
  rw [if_neg percent, if_neg percent]
  by_cases quad : c = 'q'.toUInt8
  · rw [if_pos quad, if_pos quad]
    simp only [List.head?_cons, Option.some.injEq, List.tail_cons]
    by_cases binary : letter = 'b'.toUInt8
    · obtain ⟨buf', ran, filled⟩ := @quadBinary_filled buf (vaArg64 v).1 room
      rw [if_pos binary, if_pos binary]
      exact ⟨buf', by rw [ran]; rfl, filled⟩
    rw [if_neg binary, if_neg binary]
    by_cases hex : letter = 'o'.toUInt8 ∨ letter = 'd'.toUInt8 ∨ letter = 'x'.toUInt8
    · obtain ⟨buf', ran, filled⟩ := @quadHex_filled buf (vaArg64 v).1 room
      rw [if_pos hex, if_pos hex]
      exact ⟨buf', by rw [ran]; rfl, filled⟩
    · rw [if_neg hex, if_neg hex]
  rw [if_neg quad, if_neg quad]
  cases narrowing c with
  | none => rfl
  | some cut =>
    simp only [List.head?_cons, Option.bind_some]
    cases named : baseOf letter with
    | none => rfl
    | some base =>
      obtain ⟨buf', ran, filled⟩ := @itoa_filled buf base (cut (vaArg v).1) (baseOf_allowed named) room
      refine ⟨buf', ?_, filled⟩
      change (itoa (cut (vaArg v).1) base buf 0 0).bind _ = _
      rw [ran]
      rfl

theorem copyOut_string {rest dst : List UInt8} {count : UInt32} (nonzero : 0 ∉ t) :
    copyOut (t ++ 0 :: rest) count dst = some (count + UInt32.ofNat t.length, dst ++ t) := by
  induction t generalizing count dst with
  | nil => simp [copyOut]
  | cons x t ih =>
    obtain ⟨here, behind⟩ := List.ne_and_not_mem_of_not_mem_cons nonzero
    rw [List.cons_append, copyOut, if_neg (Ne.symm here), ih behind, List.length_cons, UInt32.ofNat_add,
      UInt32.add_assoc, UInt32.add_comm 1, List.append_assoc]
    rfl

/-! ## Good placeholders and bad ones -/

/-- The kinds of numbers, with the letters for their bases. -/
def Good (kind letter : UInt8) : Prop :=
  kind ∈ ['q', 'b', 'w', 'd'].map Char.toUInt8 ∧ letter ∈ ['b', 'o', 'd', 'x'].map Char.toUInt8

instance (kind letter : UInt8) : Decidable (Good kind letter) := inferInstanceAs (Decidable (_ ∧ _))

/-- A `%s` is reached: there is one, and the placeholders ahead of it are good. -/
def namesString : List UInt8 → Bool
  | [] => false
  | [_] => false
  | [c, kind] => c = '%'.toUInt8 ∧ kind = 's'.toUInt8
  | c :: kind :: letter :: fmt =>
    if c ≠ '%'.toUInt8 then namesString (kind :: letter :: fmt)
    else if kind = 's'.toUInt8 then true
    else if kind = '%'.toUInt8 then namesString (letter :: fmt)
    else if Good kind letter then namesString fmt
    else false

variable {letter : UInt8}

theorem letters_of_baseOf (named : baseOf letter ≠ none) : letter ∈ ['b', 'o', 'd', 'x'].map Char.toUInt8 := by
  unfold baseOf at named
  simp only [List.map_cons, List.map_nil, List.mem_cons]
  by_contra other
  obtain ⟨b, o, d, x, -⟩ : _ ∧ _ ∧ _ ∧ _ ∧ _ := by simpa only [not_or] using other
  rw [if_neg b, if_neg o, if_neg d, if_neg x] at named
  exact named rfl

theorem kinds_of_narrowing (named : narrowing c ≠ none) : c ∈ ['q', 'b', 'w', 'd'].map Char.toUInt8 := by
  unfold narrowing at named
  simp only [List.map_cons, List.map_nil, List.mem_cons]
  by_contra other
  obtain ⟨-, b, w, d, -⟩ : _ ∧ _ ∧ _ ∧ _ ∧ _ := by simpa only [not_or] using other
  rw [if_neg b, if_neg w, if_neg d] at named
  exact named rfl

theorem meaning_good (good : Good c letter) : ∃ t v', meaning c (letter :: fmt) v = .own t fmt v' := by
  obtain ⟨kind, named⟩ := good
  simp only [List.map_cons, List.map_nil, List.mem_cons, List.not_mem_nil, or_false] at kind named
  obtain rfl | rfl | rfl | rfl := kind <;> obtain rfl | rfl | rfl | rfl := named <;> exact ⟨_, _, rfl⟩

theorem meaning_bad (string : c ≠ 's'.toUInt8) (percent : c ≠ '%'.toUInt8) (bad : ¬ Good c letter) :
    meaning c (letter :: fmt) v = .bad := by
  rw [meaning, if_neg string, if_neg percent]
  split
  · next quad =>
    have other : letter ∉ ['b', 'o', 'd', 'x'].map Char.toUInt8 := fun named => bad ⟨by rw [quad]; decide, named⟩
    simp only [List.map_cons, List.map_nil, List.mem_cons, List.not_mem_nil, or_false, not_or] at other
    simp [other]
  · simp only [List.head?_cons, Option.bind_some]
    split
    · next cut base kind named =>
      exact absurd ⟨kinds_of_narrowing (by rw [kind]; simp), letters_of_baseOf (by rw [named]; simp)⟩ bad
    · rfl

/-! ## Formats with `%s` and without -/

theorem namesString_literal {chars : List UInt8} (literal : c ≠ '%'.toUInt8) :
    namesString (c :: chars) = namesString chars := by
  obtain _ | ⟨d, _ | ⟨e, chars⟩⟩ := chars
  · rfl
  · exact decide_eq_false fun both => literal both.1
  · rw [namesString, if_pos literal]

theorem namesString_string {chars : List UInt8} : namesString ('%'.toUInt8 :: 's'.toUInt8 :: chars) = true := by
  cases chars with
  | nil => decide
  | cons letter chars => rw [namesString, if_neg (by simp), if_pos rfl]

theorem namesString_percent {chars : List UInt8} :
    namesString ('%'.toUInt8 :: '%'.toUInt8 :: chars) = namesString chars := by
  cases chars with
  | nil => decide
  | cons letter chars => rw [namesString, if_neg (by simp), if_neg (by decide), if_pos rfl]

theorem namesString_good {chars : List UInt8} (good : Good c letter) :
    namesString ('%'.toUInt8 :: c :: letter :: chars) = namesString chars := by
  have string : c ≠ 's'.toUInt8 := fun same => absurd good.1 (by rw [same]; decide)
  have percent : c ≠ '%'.toUInt8 := fun same => absurd good.1 (by rw [same]; decide)
  rw [namesString, if_neg (by simp), if_neg string, if_neg percent, if_pos good]

theorem namesString_bad {chars : List UInt8} (string : c ≠ 's'.toUInt8) (percent : c ≠ '%'.toUInt8)
    (bad : ∀ letter ∈ chars.head?, ¬ Good c letter) : namesString ('%'.toUInt8 :: c :: chars) = false := by
  cases chars with
  | nil => exact decide_eq_false fun both => string both.2
  | cons letter chars =>
    rw [namesString, if_neg (by simp), if_neg string, if_neg percent, if_neg (bad letter rfl)]

/-- What a placeholder in front of the rest of a format can be. -/
theorem meaning_cases (c : UInt8) (chars after : List UInt8) (v : VaList) :
    (c = 's'.toUInt8 ∧ meaning c (chars ++ 0 :: after) v = .argument (vaArg v).1 (chars ++ 0 :: after) (vaArg v).2) ∨
    (∃ t chars' v', meaning c (chars ++ 0 :: after) v = .own t (chars' ++ 0 :: after) v' ∧
      (∃ taken, chars = taken ++ chars') ∧ namesString ('%'.toUInt8 :: c :: chars) = namesString chars') ∨
    (meaning c (chars ++ 0 :: after) v = .bad ∧ namesString ('%'.toUInt8 :: c :: chars) = false) := by
  by_cases string : c = 's'.toUInt8
  · exact .inl ⟨string, by rw [meaning, if_pos string]⟩
  by_cases percent : c = '%'.toUInt8
  · refine .inr (.inl ⟨['%'.toUInt8], chars, v, ?_, ⟨[], rfl⟩, ?_⟩)
    · rw [meaning, if_neg string, if_pos percent]
    · rw [percent, namesString_percent]
  cases chars with
  | nil =>
    have bad : ¬ Good c 0 := fun good => absurd good.2 (by decide)
    exact .inr (.inr ⟨meaning_bad string percent bad, namesString_bad string percent (by simp)⟩)
  | cons letter chars =>
    by_cases good : Good c letter
    · obtain ⟨t, v', means⟩ := @meaning_good (chars ++ 0 :: after) c v letter good
      exact .inr (.inl ⟨t, chars, v', means, ⟨[letter], rfl⟩, namesString_good good⟩)
    · refine .inr (.inr ⟨meaning_bad string percent good, namesString_bad string percent fun x here => ?_⟩)
      cases here
      exact good

/-! ## Rounds of sprintf -/

section Rounds

variable {strings : UInt32 → List UInt8} {fmt' own out : List UInt8} {v' : VaList} {count s : UInt32}

theorem sprintfRound_bad (bad : placeholder c fmt v buf = some .badFormat) :
    sprintfRound strings c fmt ⟨true, v, buf, count, out⟩ = some (.leave (-1, out)) := by
  rw [sprintfRound, if_neg (by simp), bad]
  rfl

/-- What was left in the buffer is copied. -/
theorem sprintfRound_own (ran : placeholder c fmt v buf = some (.text .buf own fmt' v')) (holds : Holds own t) :
    sprintfRound strings c fmt ⟨true, v, buf, count, out⟩ =
      some (.go fmt' ⟨false, v', own, count + UInt32.ofNat t.length, out ++ t⟩) := by
  obtain ⟨nonzero, rest, split⟩ := holds
  rw [sprintfRound, if_neg (by simp), ran]
  simp only [Option.bind_eq_bind, Option.bind_some, split, copyOut_string nonzero]

theorem sprintfRound_argument (ran : placeholder c fmt v buf = some (.text (.argument s) own fmt' v'))
    (holds : Holds (strings s) t) : sprintfRound strings c fmt ⟨true, v, buf, count, out⟩ =
      some (.go fmt' ⟨false, v', own, count + UInt32.ofNat t.length, out ++ t⟩) := by
  obtain ⟨nonzero, rest, split⟩ := holds
  rw [sprintfRound, if_neg (by simp), ran]
  simp only [Option.bind_eq_bind, Option.bind_some, split, copyOut_string nonzero]

end Rounds

end AtaKernel.Text
