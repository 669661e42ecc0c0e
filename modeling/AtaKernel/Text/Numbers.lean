import AtaKernel.Library.CString

/-! The routines of string.c that write numbers: `strlen`, `strcpy` and `itoa`. An
access outside of an array, and a division by zero, have no value. What `itoa`
writes depends on the number, the base and the padding alone. -/
namespace AtaKernel.Text
open CString

def numBufLen : Nat := 65

def strlen : List UInt8 → Option UInt32
  | [] => none
  | c :: s => if c = 0 then some 0 else (strlen s).map (· + 1)

/-- The rounds of `strcpy` from the `i`-th on, both pointers going into one array. -/
def strcpyLoop (dst src : Nat) : Nat → Nat → List UInt8 → Option (List UInt8)
  | 0, _, _ => none
  | rounds + 1, i, buf => do
    let c ← buf[src + i]?
    if c = 0 then setAt buf (dst + i) 0
    else
      let buf ← setAt buf (dst + i) c
      strcpyLoop dst src rounds (i + 1) buf

/-- `strcpy(buf + dst, buf + src)` -/
def strcpy (buf : List UInt8) (dst src : Nat) : Option (List UInt8) :=
  strcpyLoop dst src buf.length 0 buf

/-! ## itoa -/

/-- `map` -/
def digitMap : List UInt8 :=
  ['0', '1', '2', '3', '4', '5', '6', '7', '8', '9', 'a', 'b', 'c', 'd', 'e', 'f'].map Char.toUInt8

/-- `for (c = 0; i > 0; c++) { r = i % base; tmp[c] = map[r]; i = i / base; }`, with more rounds than
`tmp` has bytes. -/
def itoaDigits (base : UInt8) : Nat → UInt32 → Nat → List UInt8 → Option (Nat × List UInt8)
  | 0, _, _, _ => none
  | rounds + 1, i, c, tmp =>
    if i = 0 then some (c, tmp)
    else if base = 0 then none
    else do
      let r := (i % base.toUInt32).toUInt8
      let digit ← digitMap[r.toNat]?
      let tmp ← setAt tmp c digit
      itoaDigits base rounds (i / base.toUInt32) (c + 1) tmp

/-- `for (; c < padding; tmp[c] = '\0', c ++);`, with the rounds that are left. -/
def itoaPad : Nat → Nat → List UInt8 → Option (List UInt8)
  | 0, _, tmp => some tmp
  | rounds + 1, c, tmp => do
    let tmp ← setAt tmp c 0
    itoaPad rounds (c + 1) tmp

/-- `switch (base)`, behind which `c` is the index of the last character. -/
def itoaBase (base : UInt8) (c : Nat) (tmp : List UInt8) : Option (Nat × List UInt8) :=
  if base = 2 ∨ base = 10 then some (c - 1, tmp)
  else if base = 8 then do
    let tmp ← setAt tmp c '0'.toUInt8
    some (c, tmp)
  else if base = 16 then do
    let tmp ← setAt tmp c 'x'.toUInt8
    let tmp ← setAt tmp (c + 1) '0'.toUInt8
    some (c + 1, tmp)
  else some (c, tmp)

/-- `memset(tmp, '\0', NUM_BUF_LEN)` and what the digits of `i` make of it. -/
def itoaNumber (i : UInt32) (base : UInt8) : Option (Nat × List UInt8) :=
  let tmp := List.replicate numBufLen 0
  if i = 0 then do
    let tmp ← setAt tmp 0 '0'.toUInt8
    some (1, tmp)
  else itoaDigits base (numBufLen + 1) i 0 tmp

/-- What happens ahead of the copy to `buf`. -/
def itoaTmp (i : UInt32) (base padding : UInt8) : Option (Nat × List UInt8) := do
  let (c, tmp) ← itoaNumber i base
  let tmp ← itoaPad (padding.toNat - c) c tmp
  itoaBase base (max c padding.toNat) tmp

/-- `for (r = 0; c >= 0; r ++, c --) buf[r] = tmp[c]; buf[r] = '\0';` -/
def itoaCopy (tmp : List UInt8) : Nat → List UInt8 → Nat → Option (List UInt8)
  | 0, buf, r => do
    let digit ← tmp[0]?
    let buf ← setAt buf r digit
    setAt buf (r + 1) 0
  | c + 1, buf, r => do
    let digit ← tmp[c + 1]?
    let buf ← setAt buf r digit
    itoaCopy tmp c buf (r + 1)

/-- `itoa(i, base, buf + start, padding)` -/
def itoa (i : UInt32) (base : UInt8) (buf : List UInt8) (start : Nat) (padding : UInt8) :
    Option (List UInt8) := do
  let (c, tmp) ← itoaTmp i base padding
  itoaCopy tmp c buf start

example : itoa 2026 16 (List.replicate 8 7) 1 0 = some [7, 0x30, 0x78, 0x37, 0x65, 0x61, 0, 7] := by decide

/-! ## Strings -/

variable {a t rest : List UInt8}

theorem strlen_string (nonzero : 0 ∉ t) : strlen (t ++ 0 :: rest) = some (UInt32.ofNat t.length) := by
  induction t with
  | nil => rfl
  | cons c t ih =>
    obtain ⟨here, behind⟩ := List.ne_and_not_mem_of_not_mem_cons nonzero
    rw [List.cons_append, strlen, if_neg (Ne.symm here), ih behind, Option.map_some, List.length_cons, UInt32.ofNat_add]
    rfl

/-- The copy goes down over a gap between the pointers: what it reads it has not written yet. -/
theorem strcpyLoop_copies {m : List UInt8} {dst src rounds i : Nat} (gap : m ≠ []) (nonzero : 0 ∉ t)
    (place : dst + i = a.length) (ahead : src = dst + m.length) (enough : t.length < rounds) :
    ∃ z, z.length = m.length ∧
      strcpyLoop dst src rounds i (a ++ m ++ (t ++ 0 :: rest)) = some (a ++ (t ++ 0 :: (z ++ rest))) := by
  induction t generalizing a m i rounds with
  | nil =>
    obtain ⟨x, m, rfl⟩ := List.exists_cons_of_ne_nil gap
    obtain _ | rounds := rounds
    · cases enough
    have read : src + i = (a ++ x :: m).length := by
      rw [List.length_append]
      omega
    refine ⟨m ++ [0], by simp, ?_⟩
    rw [List.nil_append, strcpyLoop, read, at_middle]
    simp only [Option.bind_eq_bind, Option.bind_some, if_true]
    rw [place, List.append_assoc, List.cons_append, setAt_middle]
    simp
  | cons c t ih =>
    obtain ⟨x, m, rfl⟩ := List.exists_cons_of_ne_nil gap
    obtain _ | rounds := rounds
    · cases enough
    obtain ⟨here, behind⟩ := List.ne_and_not_mem_of_not_mem_cons nonzero
    have read : src + i = (a ++ x :: m).length := by
      rw [List.length_append]
      omega
    have place' : dst + (i + 1) = (a ++ [c]).length := by
      rw [List.length_append, ← place]
      rfl
    obtain ⟨z, long, copied⟩ := @ih (a ++ [c]) (m ++ [c]) rounds (i + 1) (by simp) behind place'
      (by simpa using ahead) (Nat.lt_of_succ_lt_succ enough)
    refine ⟨z, by simpa using long, ?_⟩
    rw [List.cons_append, strcpyLoop, read, at_middle]
    simp only [Option.bind_eq_bind, Option.bind_some]
    rw [if_neg (Ne.symm here), place, List.append_assoc, List.cons_append, setAt_middle, Option.bind_some]
    simpa using copied

/-- `strcpy(buf + d, buf + d + k)` takes out the `k` bytes in between. -/
theorem strcpy_down {m : List UInt8} (gap : m ≠ []) (nonzero : 0 ∉ t) : ∃ z, z.length = m.length ∧
    strcpy (a ++ m ++ (t ++ 0 :: rest)) a.length (a.length + m.length) =
      some (a ++ (t ++ 0 :: (z ++ rest))) :=
  strcpyLoop_copies gap nonzero rfl rfl (by simp; omega)

/-! ## What itoa writes -/

def digitChar (d : Nat) : UInt8 := digitMap.getD d 0

/-- The digits of `i`, the lowest first. -/
def figures (i : UInt32) (base : UInt8) : List UInt8 :=
  if i = 0 then ['0'.toUInt8] else (Nat.digits base.toNat i.toNat).map digitChar

/-- What stands ahead of the digits. -/
def lead (base : UInt8) : List UInt8 :=
  if base = 8 then ['0'.toUInt8] else if base = 16 then ['0'.toUInt8, 'x'.toUInt8] else []

/-- The digits behind the zero bytes that fill them up. -/
def padded (i : UInt32) (base padding : UInt8) : List UInt8 :=
  List.replicate (padding.toNat - (figures i base).length) 0 ++ (figures i base).reverse

/-- The bytes that `itoa` writes ahead of the last zero. -/
def written (i : UInt32) (base padding : UInt8) : List UInt8 := lead base ++ padded i base padding

/-- `itoa`: the allowed bases. -/
def Allowed (base : UInt8) : Prop := base = 2 ∨ base = 8 ∨ base = 10 ∨ base = 16

section Digits

variable {i : UInt32} {base padding : UInt8} {k : Nat}

theorem Allowed.bounds (allowed : Allowed base) : 2 ≤ base.toNat ∧ base.toNat ≤ 16 := by
  obtain rfl | rfl | rfl | rfl := allowed <;> decide

theorem digitMap_at {d : Nat} (small : d < 16) : digitMap[d]? = some (digitChar d) ∧ digitChar d ≠ 0 := by
  have all : ∀ d < 16, digitMap[d]? = some (digitChar d) ∧ digitChar d ≠ 0 := by decide
  exact all d small

theorem digit_char (allowed : Allowed base) :
    digitMap[(i % base.toUInt32).toUInt8.toNat]? = some (digitChar (i.toNat % base.toNat)) := by
  obtain ⟨two, sixteen⟩ := allowed.bounds
  have low : i.toNat % base.toNat < base.toNat := Nat.mod_lt _ (by omega)
  have same : (i % base.toUInt32).toUInt8.toNat = i.toNat % base.toNat := by
    simp only [UInt32.toNat_toUInt8, UInt32.toNat_mod, UInt8.toNat_toUInt32]
    omega
  rw [same]
  exact (digitMap_at (by omega)).1

theorem itoaDigits_figures (allowed : Allowed base) {lo hi ds : List UInt8} {rounds : Nat}
    (digits : ds = (Nat.digits base.toNat i.toNat).map digitChar) (room : ds.length ≤ hi.length)
    (enough : ds.length < rounds) : itoaDigits base rounds i lo.length (lo ++ hi) =
      some ((lo ++ ds).length, lo ++ ds ++ hi.drop ds.length) := by
  obtain ⟨two, -⟩ := allowed.bounds
  induction rounds generalizing i lo hi ds with
  | zero => cases enough
  | succ rounds ih =>
    rw [itoaDigits]
    by_cases zero_ : i = 0
    · rw [zero_, show (0 : UInt32).toNat = 0 from rfl, Nat.digits_zero, List.map_nil] at digits
      rw [if_pos zero_, digits]
      simp
    have positive : 0 < i.toNat := Nat.pos_of_ne_zero fun same => zero_ (UInt32.toNat_inj.mp same)
    have base_ : base ≠ 0 := fun same => by
      rw [same] at two
      exact absurd two (by decide)
    rw [Nat.digits_def' two positive, List.map_cons] at digits
    subst digits
    obtain _ | ⟨x, hi⟩ := hi
    · cases room
    have next : (i / base.toUInt32).toNat = i.toNat / base.toNat := by simp
    have rest := @ih (i / base.toUInt32) (lo ++ [digitChar (i.toNat % base.toNat)]) hi
      ((Nat.digits base.toNat (i.toNat / base.toNat)).map digitChar) (by rw [next])
      (by simpa using room) (by simpa using enough)
    rw [if_neg zero_, if_neg base_]
    simp only [digit_char allowed, Option.bind_eq_bind, Option.bind_some]
    rw [setAt_middle, Option.bind_some]
    simpa using rest

theorem itoaPad_zeros {lo : List UInt8} {n m : Nat} (room : n ≤ m) :
    itoaPad n lo.length (lo ++ List.replicate m 0) = some (lo ++ List.replicate m 0) := by
  induction n generalizing lo m with
  | zero => rfl
  | succ n ih =>
    obtain _ | m := m
    · cases room
    have rest := @ih (lo ++ [0]) m (Nat.le_of_succ_le_succ room)
    rw [itoaPad, List.replicate_succ, setAt_middle, Option.bind_eq_bind, Option.bind_some]
    simpa using rest

/-- The copy turns the characters around. -/
theorem itoaCopy_reverses {tmp old : List UInt8} {c : Nat} (inside : c < tmp.length) (room : old.length = c + 2) :
    itoaCopy tmp c (a ++ (old ++ rest)) a.length = some (a ++ ((tmp.take (c + 1)).reverse ++ 0 :: rest)) := by
  induction c generalizing a old with
  | zero =>
    obtain ⟨x, y, rfl⟩ := List.length_eq_two.mp room
    obtain ⟨z, tmp, rfl⟩ := List.exists_cons_of_length_pos inside
    have first : setAt (a ++ x :: y :: rest) a.length z = some (a ++ z :: y :: rest) := setAt_middle
    have last : setAt (a ++ [z] ++ y :: rest) (a ++ [z]).length 0 = _ := setAt_middle
    simpa [itoaCopy, first] using last
  | succ c ih =>
    obtain _ | ⟨x, old⟩ := old
    · cases room
    have here : tmp[c + 1]? = some tmp[c + 1] := List.getElem?_eq_getElem inside
    have rest' := @ih (a ++ [tmp[c + 1]]) old (Nat.lt_of_succ_lt inside) (by simpa using room)
    have turned : (tmp.take (c + 1 + 1)).reverse = tmp[c + 1] :: (tmp.take (c + 1)).reverse := by
      rw [List.take_add_one, here, List.reverse_append]
      rfl
    rw [itoaCopy, here, turned]
    simp only [Option.bind_eq_bind, Option.bind_some, List.cons_append]
    rw [setAt_middle, Option.bind_some]
    simpa using rest'

theorem figures_nonzero (allowed : Allowed base) : 0 ∉ figures i base := by
  unfold figures
  split
  · decide
  · intro zero_
    obtain ⟨d, digit, same⟩ := List.mem_map.mp zero_
    have low : d < base.toNat := Nat.digits_lt_base allowed.bounds.1 digit
    exact (digitMap_at (low.trans_le allowed.bounds.2)).2 same

theorem figures_length (allowed : Allowed base) (positive : 0 < k) (small : i.toNat < base.toNat ^ k) :
    (figures i base).length ≤ k := by
  unfold figures
  split
  · exact positive
  · rw [List.length_map]
    exact (Nat.digits_length_le_iff allowed.bounds.1 _).mpr small

theorem figures_positive : 0 < (figures i base).length := by
  unfold figures
  split
  · exact Nat.one_pos
  · next nonzero =>
    rw [List.length_map, List.length_pos_iff]
    exact Nat.digits_ne_nil_iff_ne_zero.mpr fun same => nonzero (UInt32.toNat_inj.mp same)

theorem padded_length : (padded i base padding).length = max (figures i base).length padding.toNat := by
  simp only [padded, List.length_append, List.length_replicate, List.length_reverse]
  omega

theorem lead_nonzero : 0 ∉ lead base := by
  unfold lead
  split
  · decide
  split <;> decide

theorem written_nonzero (allowed : Allowed base) : 0 ∉ written i base 0 := by
  intro zero_
  obtain lead_ | digits := List.mem_append.mp zero_
  · exact lead_nonzero lead_
  · rw [padded, show (0 : UInt8).toNat = 0 from rfl, Nat.zero_sub, List.replicate_zero, List.nil_append,
      List.mem_reverse] at digits
    exact figures_nonzero allowed digits

/-- The characters in `tmp`, ahead of what the base adds. -/
def unturned (i : UInt32) (base padding : UInt8) : List UInt8 := (padded i base padding).reverse

theorem itoaNumber_figures (allowed : Allowed base) (room : (figures i base).length ≤ numBufLen) :
    itoaNumber i base = some ((figures i base).length,
      figures i base ++ List.replicate (numBufLen - (figures i base).length) 0) := by
  unfold itoaNumber
  by_cases zero_ : i = 0
  · have zero_figure : figures i base = ['0'.toUInt8] := if_pos zero_
    rw [if_pos zero_, zero_figure]
    rfl
  · have digits : figures i base = (Nat.digits base.toNat i.toNat).map digitChar := if_neg zero_
    rw [if_neg zero_]
    have ran := @itoaDigits_figures i base allowed [] (List.replicate numBufLen 0) _ (numBufLen + 1) digits
      (by simpa using room) (Nat.lt_succ_of_le room)
    simpa using ran

theorem unturned_split (room : (padded i base padding).length ≤ numBufLen) :
    figures i base ++ List.replicate (numBufLen - (figures i base).length) 0 =
      unturned i base padding ++ List.replicate (numBufLen - (padded i base padding).length) 0 := by
  have rest : numBufLen - (figures i base).length =
      (padding.toNat - (figures i base).length) + (numBufLen - (padded i base padding).length) := by
    rw [padded_length] at room ⊢
    omega
  rw [rest, unturned, padded, List.reverse_append, List.reverse_reverse, List.reverse_replicate,
    List.append_assoc, List.replicate_append_replicate]

theorem itoaBase_leads (allowed : Allowed base) {u : List UInt8} {m : Nat} (some_ : u ≠ [])
    (room : (lead base).length ≤ m) : ∃ c tmp,
      itoaBase base u.length (u ++ List.replicate m 0) = some (c, tmp) ∧ c < tmp.length ∧
      (tmp.take (c + 1)).reverse = lead base ++ u.reverse := by
  have positive : u.length - 1 + 1 = u.length := Nat.sub_add_cancel (List.length_pos_of_ne_nil some_)
  have all : (u ++ List.replicate m 0).take (u.length - 1 + 1) = u := by rw [positive, List.take_left]
  have inside : u.length - 1 < (u ++ List.replicate m 0).length := by
    rw [List.length_append]
    omega
  obtain rfl | rfl | rfl | rfl := allowed
  · exact ⟨_, _, rfl, inside, congrArg List.reverse all⟩
  · obtain _ | m := m
    · cases room
    have set : setAt (u ++ List.replicate (m + 1) 0) u.length '0'.toUInt8 = some _ := setAt_middle
    refine ⟨u.length, u ++ '0'.toUInt8 :: List.replicate m 0, ?_, by simp, ?_⟩
    · change (setAt _ _ _).bind _ = _
      rw [set, Option.bind_some]
    · rw [List.take_length_add_append, List.reverse_append]
      rfl
  · exact ⟨_, _, rfl, inside, congrArg List.reverse all⟩
  · obtain _ | _ | m := m
    · cases room
    · exact absurd room (by decide)
    have set : setAt (u ++ List.replicate (m + 2) 0) u.length 'x'.toUInt8 = some _ := setAt_middle
    have set' : setAt (u ++ ['x'.toUInt8] ++ 0 :: List.replicate m 0) (u ++ ['x'.toUInt8]).length
      '0'.toUInt8 = some _ := setAt_middle
    simp only [List.append_assoc, List.length_append, List.length_cons, List.length_nil] at set'
    refine ⟨u.length + 1, u ++ 'x'.toUInt8 :: '0'.toUInt8 :: List.replicate m 0, ?_, by simp, ?_⟩
    · change (setAt _ _ _).bind _ = _
      rw [set, Option.bind_some]
      exact congrArg (Option.bind · _) set'
    · rw [Nat.add_assoc, List.take_length_add_append, List.reverse_append]
      rfl

/-- `tmp` holds what is to be written, from its end on. -/
theorem itoaTmp_written (allowed : Allowed base) (room : (written i base padding).length ≤ numBufLen) :
    ∃ c tmp, itoaTmp i base padding = some (c, tmp) ∧ c < tmp.length ∧
      (tmp.take (c + 1)).reverse = written i base padding := by
  have short : (lead base).length + (padded i base padding).length ≤ numBufLen := by
    rwa [written, List.length_append] at room
  have short' : (padded i base padding).length ≤ numBufLen := by omega
  have long : (unturned i base padding).length = (padded i base padding).length := List.length_reverse
  have length := @padded_length i base padding
  have positive := @figures_positive i base
  have pad := @itoaPad_zeros (figures i base) (padding.toNat - (figures i base).length)
    (numBufLen - (figures i base).length) (by omega)
  rw [unturned_split short'] at pad
  have some_ : unturned i base padding ≠ [] := List.ne_nil_of_length_pos (by omega)
  have turned : (unturned i base padding).reverse = padded i base padding := List.reverse_reverse _
  have ended := itoaBase_leads allowed some_ (m := numBufLen - (unturned i base padding).length) (by omega)
  rw [turned] at ended
  unfold itoaTmp
  rw [itoaNumber_figures allowed (by omega), unturned_split short', Option.bind_eq_bind, Option.bind_some]
  simp only [pad, Option.bind_eq_bind, Option.bind_some]
  rw [← length, ← long]
  exact ended

/-- `itoa` puts the same bytes in every array that has room for them. -/
theorem itoa_writes (allowed : Allowed base) {old : List UInt8} (room : (written i base padding).length ≤ numBufLen)
    (fits : old.length = (written i base padding).length + 1) :
    itoa i base (a ++ (old ++ rest)) a.length padding = some (a ++ (written i base padding ++ 0 :: rest)) := by
  obtain ⟨c, tmp, ran, inside, same⟩ := itoaTmp_written allowed room
  have count : (written i base padding).length = c + 1 := by
    rw [← same, List.length_reverse, List.length_take]
    omega
  rw [itoa, ran, ← same]
  exact itoaCopy_reverses inside (by omega)

/-- The same, where the array goes on behind the place. -/
theorem itoa_over (allowed : Allowed base) (room : (written i base padding).length ≤ numBufLen)
    (fits : (written i base padding).length < rest.length) :
    itoa i base (a ++ rest) a.length padding =
      some (a ++ (written i base padding ++ 0 :: rest.drop ((written i base padding).length + 1))) := by
  have split := List.take_append_drop ((written i base padding).length + 1) rest
  nth_rw 1 [← split]
  exact itoa_writes allowed room (by rw [List.length_take]; omega)

theorem written_length : (written i base padding).length =
    (lead base).length + max (figures i base).length padding.toNat := by
  rw [written, List.length_append, padded_length]

theorem figures_at_most {k : Nat} (allowed : Allowed base) (enough : 2 ^ 32 ≤ base.toNat ^ k) (positive : 0 < k) :
    (figures i base).length ≤ k :=
  figures_length allowed positive (i.toNat_lt.trans_le enough)

theorem written_two (pad : padding.toNat ≤ 32) : (written i 2 padding).length ≤ 32 := by
  have digits : (figures i 2).length ≤ 32 := figures_at_most (.inl rfl) (by decide) (by decide)
  rw [written_length, show (lead 2).length = 0 from rfl]
  omega

theorem written_sixteen (pad : padding.toNat ≤ 8) : (written i 16 padding).length ≤ 10 := by
  have digits : (figures i 16).length ≤ 8 := figures_at_most (.inr (.inr (.inr rfl))) (by decide) (by decide)
  rw [written_length, show (lead 16).length = 2 from rfl]
  omega

theorem written_unpadded (allowed : Allowed base) : (written i base 0).length ≤ 32 := by
  have zero_ : (0 : UInt8).toNat = 0 := rfl
  obtain rfl | rfl | rfl | rfl := allowed
  · exact written_two (Nat.zero_le _)
  · have digits : (figures i 8).length ≤ 11 := figures_at_most (.inr (.inl rfl)) (by decide) (by decide)
    rw [written_length, show (lead 8).length = 1 from rfl, zero_]
    omega
  · have digits : (figures i 10).length ≤ 10 :=
      figures_at_most (.inr (.inr (.inl rfl))) (by decide) (by decide)
    rw [written_length, show (lead 10).length = 0 from rfl, zero_]
    omega
  · exact (written_sixteen (Nat.zero_le _)).trans (by decide)

end Digits

end AtaKernel.Text
