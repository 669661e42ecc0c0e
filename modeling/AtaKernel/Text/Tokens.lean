import AtaKernel.Library.CString
import AtaKernel.Library.MaximalRuns

/-! `strtok`, which keeps a pointer into the string between its calls. The tokens are the
maximal runs of characters other than the delimiter. Each call takes the next one and
ends it with a zero in place of the delimiter, and behind the last one all calls
return NULL. -/
namespace AtaKernel.Text
open CString MaximalRuns

/-- A `while` over the bytes from `ptr` on that ends at a zero in any case: how far `ptr` goes. -/
def walk (on : UInt8 → Prop) [DecidablePred on] : List UInt8 → Option Nat
  | [] => none
  | c :: rest => if on c then if c = 0 then some 0 else (walk on rest).map (· + 1) else some 0

/-- The array of the string, and `ptr`, which is an index there. -/
structure Strtok where
  bytes : List UInt8
  ptr : Option Nat

/-- `strtok`. What is at NULL is not known. -/
def strtok (str : Option Nat) (delim : UInt8) (s : Strtok) : Option (Option Nat × Strtok) := do
  let ptr ← str <|> s.ptr
  let leading ← walk (· = delim) (s.bytes.drop ptr)
  let p := ptr + leading
  if (← s.bytes[p]?) = 0 then some (none, ⟨s.bytes, some p⟩)
  else
    let length ← walk (· ≠ delim) (s.bytes.drop p)
    let ptr := p + length
    if (← s.bytes[ptr]?) ≠ 0 then some (some p, ⟨s.bytes.set ptr 0, some (ptr + 1)⟩)
    else some (some p, ⟨s.bytes, some ptr⟩)

/-- `n` calls `strtok(NULL, delim)`. -/
def strtokNexts (delim : UInt8) : Nat → Strtok → Option (List (Option Nat) × Strtok)
  | 0, s => some ([], s)
  | n + 1, s => do
    let (p, s) ← strtok none delim s
    let (ps, s) ← strtokNexts delim n s
    some (p :: ps, s)

/-- `strtok(s, delim)`, and `n` calls behind it. -/
def strtokCalls (delim : UInt8) (n : Nat) (s : Strtok) : Option (List (Option Nat) × Strtok) := do
  let (p, s) ← strtok (some 0) delim s
  let (ps, s) ← strtokNexts delim n s
  some (p :: ps, s)

/-- Whether a place has a character that is not the delimiter. -/
def freeOf (delim : UInt8) (chars : List UInt8) (i : Nat) : Bool := chars[i]? ≠ some delim

/-- The maximal runs of characters other than the delimiter, in order. -/
abbrev Tokens (delim : UInt8) (chars : List UInt8) (toks : List (Stretch Bool)) : Prop :=
  RunsOf (freeOf delim chars) chars.length true toks

/-- The characters of a token. -/
def tokenOf (chars : List UInt8) (r : Stretch Bool) : List UInt8 := (chars.drop r.first).take (r.last + 1 - r.first)

/-- Behind `k` calls: the ends of `k` tokens are zeros, and the others lie ahead of `ptr`. -/
structure Taken (chars after : List UInt8) (toks : List (Stretch Bool)) (k p : Nat) (s : Strtok) : Prop where
  ptr : s.ptr = some p
  within : p ≤ chars.length
  bytes : ∀ j, s.bytes[j]? = if ∃ r ∈ toks.take k, j = r.last + 1 then some 0 else (chars ++ 0 :: after)[j]?
  behind : ∀ r ∈ toks.take k, r.last < p ∧ (r.last + 1 < p ∨ r.last + 1 = chars.length)
  ahead : ∀ r ∈ toks.drop k, p ≤ r.first

variable {chars after bytes : List UInt8} {toks : List (Stretch Bool)} {k p n i : Nat} {s : Strtok} {delim c : UInt8}
  {r : Stretch Bool}

/-! ## The loops -/

theorem eq_cons_of_first (here : bytes[0]? = some c) : ∃ rest, bytes = c :: rest :=
  List.head?_eq_some_iff.mp (List.head?_eq_getElem?.trans here)

theorem walk_eq {on : UInt8 → Prop} [DecidablePred on] (goes : ∀ i < n, ∃ c, bytes[i]? = some c ∧ on c ∧ c ≠ 0)
    (stops : ∃ c, bytes[n]? = some c ∧ (on c → c = 0)) : walk on bytes = some n := by
  induction n generalizing bytes with
  | zero =>
    obtain ⟨c, here, ends⟩ := stops
    obtain ⟨rest, rfl⟩ := eq_cons_of_first here
    rw [walk]
    split
    · next goes => rw [if_pos (ends goes)]
    · rfl
  | succ n ih =>
    obtain ⟨c, here, goes_, more⟩ := goes 0 n.succ_pos
    obtain ⟨rest, rfl⟩ := eq_cons_of_first here
    rw [walk, if_pos goes_, if_neg more, ih (fun i low => goes (i + 1) (Nat.succ_lt_succ low)) stops]
    rfl

theorem walk_from {on : UInt8 → Prop} [DecidablePred on] {m : Nat} (upto : p ≤ m)
    (goes : ∀ j, p ≤ j → j < m → ∃ c, bytes[j]? = some c ∧ on c ∧ c ≠ 0)
    (stops : ∃ c, bytes[m]? = some c ∧ (on c → c = 0)) : walk on (bytes.drop p) = some (m - p) := by
  refine walk_eq (fun i low => ?_) ?_
  · rw [List.getElem?_drop]
    exact goes (p + i) (Nat.le_add_right p i) (by omega)
  · rwa [List.getElem?_drop, Nat.add_sub_cancel' upto]

/-! ## The string -/

theorem text_char (low : i < chars.length) : (chars ++ 0 :: after)[i]? = some chars[i] := by
  rw [List.getElem?_append_left low, List.getElem?_eq_getElem low]

theorem text_end : (chars ++ 0 :: after)[chars.length]? = some 0 := by simp

theorem free_iff (low : i < chars.length) : freeOf delim chars i = true ↔ chars[i] ≠ delim := by
  unfold freeOf
  rw [decide_eq_true_iff, List.getElem?_eq_getElem low, Ne, Option.some_inj]

theorem char_ne_zero (clean : 0 ∉ chars) (low : i < chars.length) : chars[i] ≠ 0 :=
  fun zero_ => clean (zero_ ▸ List.getElem_mem low)

/-- No character of a token is a delimiter. -/
theorem token_char (tokens : Tokens delim chars toks) (inside : r ∈ toks) (from_ : r.first ≤ i) (upto : i ≤ r.last)
    (low : i < chars.length) : chars[i] ≠ delim := by
  obtain ⟨maximal, free⟩ := (tokens.mem r).mp inside
  exact (free_iff low).mp ((maximal.inside i from_ upto).trans free)

/-- Behind a token, there is a delimiter or the end. -/
theorem token_end (tokens : Tokens delim chars toks) (inside : r ∈ toks) (low : r.last + 1 < chars.length) :
    chars[r.last + 1] = delim := by
  obtain ⟨maximal, free⟩ := (tokens.mem r).mp inside
  by_contra other
  obtain end_ | stops := maximal.right
  · omega
  · rw [free] at stops
    exact stops ((free_iff low).mpr other)

/-- Between two tokens, there is a delimiter at least. -/
theorem token_gap {r' : Stretch Bool} (tokens : Tokens delim chars toks) (here : r ∈ toks) (there : r' ∈ toks)
    (before : r.last < r'.first) : r.last + 1 < r'.first := by
  obtain ⟨maximal, -⟩ := (tokens.mem r').mp there
  have order := maximal.order
  have within := maximal.within
  have free := token_char tokens there le_rfl order (by omega)
  by_contra early
  have same : r'.first = r.last + 1 := by omega
  simp only [same] at free
  exact free (token_end tokens here (by omega))

/-- From `ptr` on, the string is as it was. -/
theorem Taken.unchanged (taken : Taken chars after toks k p s) {j : Nat} (from_ : p ≤ j) :
    s.bytes[j]? = (chars ++ 0 :: after)[j]? := by
  have within := taken.within
  rw [taken.bytes]
  split
  · next ends =>
    obtain ⟨r, inside, rfl⟩ := ends
    obtain ⟨-, before | last⟩ := taken.behind r inside
    · omega
    · rw [last, text_end]
  · rfl

theorem Taken.byte (taken : Taken chars after toks k p s) (from_ : p ≤ i) (low : i < chars.length) :
    s.bytes[i]? = some chars[i] := (taken.unchanged from_).trans (text_char low)

theorem Taken.end_byte (taken : Taken chars after toks k p s) : s.bytes[chars.length]? = some 0 :=
  (taken.unchanged taken.within).trans text_end

/-- The first loop goes to the next token, or to the end. -/
theorem Taken.leading (taken : Taken chars after toks k p s) (tokens : Tokens delim chars toks) (clean : 0 ∉ chars)
    {m : Nat} (upto : p ≤ m) (within : m ≤ chars.length) (next : ∀ r ∈ toks.drop k, m ≤ r.first)
    (stops : ∃ c, s.bytes[m]? = some c ∧ (c = delim → c = 0)) : walk (· = delim) (s.bytes.drop p) = some (m - p) := by
  refine walk_from upto (fun j from_ before => ?_) stops
  have low : j < chars.length := by omega
  refine ⟨chars[j], taken.byte from_ low, ?_, char_ne_zero clean low⟩
  by_contra free
  obtain ⟨r, inside, place⟩ := tokens.covers low ((free_iff low).mpr free)
  rw [← List.take_append_drop k toks] at inside
  obtain old | new := List.mem_append.mp inside
  · have behind := (taken.behind r old).1
    omega
  · have ahead := next r new
    omega

/-- The second loop goes to the end of the token. -/
theorem Taken.length (taken : Taken chars after toks k p s) (tokens : Tokens delim chars toks) (clean : 0 ∉ chars)
    (inside : r ∈ toks) (ahead : p ≤ r.first) (stops : ∃ c, s.bytes[r.last + 1]? = some c ∧ (c ≠ delim → c = 0)) :
    walk (· ≠ delim) (s.bytes.drop r.first) = some (r.last + 1 - r.first) := by
  obtain ⟨maximal, -⟩ := (tokens.mem r).mp inside
  have order := maximal.order
  have last := maximal.within
  refine walk_from (by omega) (fun j from_ before => ?_) stops
  have low : j < chars.length := by omega
  exact ⟨chars[j], taken.byte (ahead.trans from_) low, token_char tokens inside from_ (by omega) low,
    char_ne_zero clean low⟩

/-! ## A call -/

theorem strtok_null {m : Nat} (ptr : s.ptr = some p) (leading : walk (· = delim) (s.bytes.drop p) = some m)
    (here : s.bytes[p + m]? = some 0) : strtok none delim s = some (none, ⟨s.bytes, some (p + m)⟩) := by
  have start : (none <|> s.ptr) = some p := ptr
  simp only [strtok, start, leading, here, Option.bind_eq_bind, Option.bind_some, if_true]

theorem strtok_token {m length : Nat} (ptr : s.ptr = some p) (leading : walk (· = delim) (s.bytes.drop p) = some m)
    (here : s.bytes[p + m]? = some c) (some_ : c ≠ 0)
    (token : walk (· ≠ delim) (s.bytes.drop (p + m)) = some length) {d : UInt8}
    (there : s.bytes[p + m + length]? = some d) : strtok none delim s =
      if d ≠ 0 then some (some (p + m), ⟨s.bytes.set (p + m + length) 0, some (p + m + length + 1)⟩)
      else some (some (p + m), ⟨s.bytes, some (p + m + length)⟩) := by
  have start : (none <|> s.ptr) = some p := ptr
  simp only [strtok, start, leading, here, token, there, some_, Option.bind_eq_bind, Option.bind_some, if_false]

/-- Behind the last token, a call returns NULL. -/
theorem Taken.null (taken : Taken chars after toks k p s) (tokens : Tokens delim chars toks) (clean : 0 ∉ chars)
    (none_ : toks.length ≤ k) : ∃ s', strtok none delim s = some (none, s') ∧
      Taken chars after toks (k + 1) chars.length s' := by
  have within := taken.within
  have all : toks.take k = toks := List.take_of_length_le none_
  have all' : toks.take (k + 1) = toks := List.take_of_length_le (Nat.le_succ_of_le none_)
  have rest : toks.drop k = [] := List.drop_of_length_le none_
  have leading := taken.leading tokens clean within le_rfl (by rw [rest]; simp) ⟨0, taken.end_byte, fun _ => rfl⟩
  have here := taken.end_byte
  rw [← Nat.add_sub_cancel' within] at here
  refine ⟨_, strtok_null taken.ptr leading here, ?_, le_rfl, ?_, fun r inside => ?_, ?_⟩
  · rw [Nat.add_sub_cancel' within]
  · rw [all', ← all]
    exact taken.bytes
  · rw [all', ← all] at inside
    obtain ⟨before, ends⟩ := taken.behind r inside
    exact ⟨by omega, by omega⟩
  · rw [List.drop_of_length_le (Nat.le_succ_of_le none_)]
    simp

theorem drop_next (more : k < toks.length) : toks.drop k = toks[k] :: toks.drop (k + 1) :=
  List.drop_eq_getElem_cons more

theorem mem_take_next (more : k < toks.length) : r ∈ toks.take (k + 1) ↔ r ∈ toks.take k ∨ r = toks[k] := by
  rw [List.take_succ_eq_append_getElem more, List.mem_append, List.mem_singleton]

/-- A token ends, and `ptr` goes behind it. -/
theorem Taken.next (taken : Taken chars after toks k p s) (more : k < toks.length) {p' : Nat}
    (ends : ∀ j, bytes[j]? = if j = toks[k].last + 1 then some 0 else s.bytes[j]?) (within : p' ≤ chars.length)
    (later : p ≤ p') (behind : toks[k].last < p' ∧ (toks[k].last + 1 < p' ∨ toks[k].last + 1 = chars.length))
    (ahead : ∀ r ∈ toks.drop (k + 1), p' ≤ r.first) : Taken chars after toks (k + 1) p' ⟨bytes, some p'⟩ := by
  refine ⟨rfl, within, fun j => ?_, fun r inside => ?_, ahead⟩
  · dsimp only
    rw [ends, taken.bytes]
    by_cases here : j = toks[k].last + 1
    · rw [if_pos here, if_pos ⟨_, (mem_take_next more).mpr (.inr rfl), here⟩]
    · rw [if_neg here]
      refine if_congr (exists_congr fun r => ?_) rfl rfl
      rw [mem_take_next more]
      constructor
      · rintro ⟨old, place⟩
        exact ⟨.inl old, place⟩
      · rintro ⟨old | rfl, place⟩
        · exact ⟨old, place⟩
        · exact absurd place here
  · obtain old | rfl := (mem_take_next more).mp inside
    · obtain ⟨before, ends'⟩ := taken.behind r old
      exact ⟨by omega, by omega⟩
    · exact behind

theorem token_later (tokens : Tokens delim chars toks) (more : k < toks.length) (inside : r ∈ toks.drop (k + 1)) :
    toks[k].last < r.first := by
  have sorted := tokens.ordered.drop (i := k)
  rw [drop_next more] at sorted
  exact (List.pairwise_cons.mp sorted).1 r inside

theorem Taken.ahead_next (taken : Taken chars after toks k p s) (more : k < toks.length) : p ≤ toks[k].first := by
  refine taken.ahead _ ?_
  rw [drop_next more]
  exact List.mem_cons_self

/-- A call takes the next token. -/
theorem Taken.token (taken : Taken chars after toks k p s) (tokens : Tokens delim chars toks) (clean : 0 ∉ chars)
    (more : k < toks.length) : ∃ p' s', strtok none delim s = some (some toks[k].first, s') ∧
      Taken chars after toks (k + 1) p' s' := by
  have inside : toks[k] ∈ toks := List.getElem_mem more
  obtain ⟨maximal, -⟩ := (tokens.mem toks[k]).mp inside
  have order := maximal.order
  have last := maximal.within
  have ahead := taken.ahead_next more
  have next : ∀ r ∈ toks.drop k, toks[k].first ≤ r.first := by
    intro r there
    rw [drop_next more] at there
    obtain rfl | later := List.mem_cons.mp there
    · exact le_rfl
    · exact order.trans (token_later tokens more later).le
  have first : toks[k].first < chars.length := by omega
  have leading := taken.leading tokens clean ahead first.le next
    ⟨_, taken.byte ahead first, fun same => absurd same (token_char tokens inside le_rfl order first)⟩
  have here := taken.byte ahead first
  have sum : p + (toks[k].first - p) = toks[k].first := Nat.add_sub_cancel' ahead
  have sum' : toks[k].first + (toks[k].last + 1 - toks[k].first) = toks[k].last + 1 := by omega
  -- What is behind the token ends the second loop, and is cleared unless it is the terminator.
  have ran {d : UInt8} (there : s.bytes[toks[k].last + 1]? = some d) (stops : d ≠ delim → d = 0) :=
    @strtok_token p s delim chars[toks[k].first] (toks[k].first - p) (toks[k].last + 1 - toks[k].first)
      taken.ptr leading (by rwa [sum]) (char_ne_zero clean first)
      (by rw [sum]; exact taken.length tokens clean inside ahead ⟨d, there, stops⟩)
      d (by rwa [sum, sum'])
  rw [sum, sum'] at ran
  by_cases whole : toks[k].last + 1 = chars.length
  · have there : s.bytes[toks[k].last + 1]? = some 0 := by
      rw [whole]
      exact taken.end_byte
    refine ⟨_, _, (ran there fun _ => rfl).trans (if_neg (not_not.mpr rfl)), taken.next more (fun j => ?_) whole.le
      (by omega) ⟨by omega, .inr whole⟩ fun r later => ?_⟩
    · split
      · next end_ => rw [end_, there]
      · rfl
    · have behind := token_later tokens more later
      omega
  · have low : toks[k].last + 1 < chars.length := by omega
    have delim_ := token_end tokens inside low
    have there := taken.byte (ahead.trans (by omega)) low
    refine ⟨_, _, (ran there fun other => absurd delim_ other).trans (if_pos (char_ne_zero clean low)),
      taken.next more (fun j => ?_) low (by omega) ⟨by omega, .inl (by omega)⟩ fun r later => ?_⟩
    · have inside' := (List.getElem?_eq_some_iff.mp there).1
      rw [List.getElem?_set, if_pos inside']
      exact if_congr eq_comm rfl rfl
    · exact token_gap tokens inside (List.mem_of_mem_drop later) (token_later tokens more later)

theorem Taken.call (taken : Taken chars after toks k p s) (tokens : Tokens delim chars toks) (clean : 0 ∉ chars) :
    ∃ p' s', strtok none delim s = some (toks[k]?.map Stretch.first, s') ∧ Taken chars after toks (k + 1) p' s' := by
  by_cases more : k < toks.length
  · rw [List.getElem?_eq_getElem more]
    exact taken.token tokens clean more
  · rw [List.getElem?_eq_none (not_lt.mp more)]
    exact ⟨_, taken.null tokens clean (not_lt.mp more)⟩

/-! ## All calls -/

theorem Taken.calls (taken : Taken chars after toks k p s) (tokens : Tokens delim chars toks) (clean : 0 ∉ chars)
    (n : Nat) : ∃ p' s', strtokNexts delim n s = some ((List.range n).map fun i => toks[k + i]?.map Stretch.first, s') ∧
      Taken chars after toks (k + n) p' s' := by
  induction n generalizing k p s with
  | zero => exact ⟨p, s, rfl, taken⟩
  | succ n ih =>
    obtain ⟨p₁, s₁, first, taken₁⟩ := taken.call tokens clean
    obtain ⟨p₂, s₂, rest, taken₂⟩ := ih taken₁
    have count : k + 1 + n = k + (n + 1) := by omega
    rw [count] at taken₂
    refine ⟨p₂, s₂, ?_, taken₂⟩
    have shift : (List.range n).map (fun i => toks[k + 1 + i]?.map Stretch.first) =
        ((List.range n).map Nat.succ).map fun i => toks[k + i]?.map Stretch.first := by
      rw [List.map_map]
      refine List.map_congr_left fun i _ => ?_
      rw [Function.comp_apply, Nat.add_assoc, Nat.add_comm 1 i]
    rw [strtokNexts, first, List.range_succ_eq_map, List.map_cons, ← shift]
    simp only [Option.bind_eq_bind, Option.bind_some, rest, Nat.add_zero]

/-- A token that was returned is a string. -/
theorem Taken.holds (taken : Taken chars after toks k p s) (tokens : Tokens delim chars toks) (clean : 0 ∉ chars)
    (inside : r ∈ toks.take k) : Holds (s.bytes.drop r.first) (tokenOf chars r) := by
  have inside' := List.mem_of_mem_take inside
  obtain ⟨maximal, -⟩ := (tokens.mem r).mp inside'
  have order := maximal.order
  have last := maximal.within
  have ends : (s.bytes.drop r.first)[r.last + 1 - r.first]? = some 0 := by
    rw [List.getElem?_drop, taken.bytes, if_pos ⟨r, inside, by omega⟩]
  have token : (s.bytes.drop r.first).take (r.last + 1 - r.first) = tokenOf chars r := by
    refine List.ext_getElem? fun i => ?_
    rw [tokenOf, List.getElem?_take, List.getElem?_take]
    split
    · next low =>
      have low' : r.first + i < chars.length := by omega
      have other : ¬ ∃ r' ∈ toks.take k, r.first + i = r'.last + 1 := by
        rintro ⟨r', there, same⟩
        have end_ := token_end tokens (List.mem_of_mem_take there) (by omega)
        have free := token_char tokens inside' (Nat.le_add_right _ i) (by omega) low'
        simp only [same] at free
        exact free end_
      rw [List.getElem?_drop, List.getElem?_drop, taken.bytes, if_neg other, text_char low',
        List.getElem?_eq_getElem low']
    · rfl
  refine ⟨fun zero_ => clean (List.mem_of_mem_drop (List.mem_of_mem_take zero_)), ?_⟩
  obtain ⟨low, here⟩ := List.getElem?_eq_some_iff.mp ends
  refine ⟨(s.bytes.drop r.first).drop (r.last + 1 - r.first + 1), ?_⟩
  rw [← token, ← here, ← List.drop_eq_getElem_cons low, List.take_append_drop]

/-- The calls return the tokens, in order, and then NULL. Each token that was returned is a string, the zero of which
is in place of the delimiter behind it, and nothing else has changed. The array may end with the terminator, so that
no call reads past it. -/
theorem strtok_splits (clean : 0 ∉ chars) (delim : UInt8) : ∃ toks, Tokens delim chars toks ∧
    (∀ r ∈ toks, r.last + 1 = chars.length ∨ chars[r.last + 1]? = some delim) ∧
    ∀ after ptr n, ∃ s, strtokCalls delim n ⟨chars ++ 0 :: after, ptr⟩ =
        some ((List.range (n + 1)).map fun i => toks[i]?.map Stretch.first, s) ∧
      (∀ r ∈ toks.take (n + 1), Holds (s.bytes.drop r.first) (tokenOf chars r)) ∧
      ∀ j, s.bytes[j]? =
        if ∃ r ∈ toks.take (n + 1), j = r.last + 1 then some 0 else (chars ++ 0 :: after)[j]? := by
  obtain ⟨toks, tokens⟩ := runsOf_exist (freeOf delim chars) chars.length true
  refine ⟨toks, tokens, fun r inside => ?_, fun after ptr n => ?_⟩
  · have last := ((tokens.mem r).mp inside).1.within
    by_cases low : r.last + 1 < chars.length
    · exact .inr (by rw [List.getElem?_eq_getElem low, token_end tokens inside low])
    · exact .inl (by omega)
  · have start : Taken chars after toks 0 0 ⟨chars ++ 0 :: after, some 0⟩ := by
      refine ⟨rfl, Nat.zero_le _, fun j => ?_, fun r none_ => ?_, fun r _ => Nat.zero_le _⟩
      · rw [List.take_zero, if_neg (by simp)]
      · exact absurd none_ List.not_mem_nil
    obtain ⟨p, s, ran, taken⟩ := start.calls tokens clean (n + 1)
    rw [Nat.zero_add] at taken
    simp only [Nat.zero_add] at ran
    exact ⟨s, ran, fun r inside => taken.holds tokens clean inside, taken.bytes⟩

theorem strtok_splits_spaces : ∃ toks, Tokens 0x20 [0x20, 0x61, 0x20, 0x20, 0x62, 0x63] toks ∧
    (∀ r ∈ toks, r.last + 1 = 6 ∨ [0x20, 0x61, 0x20, 0x20, 0x62, 0x63][r.last + 1]? = some (0x20 : UInt8)) ∧
    ∀ after ptr n, ∃ s, strtokCalls 0x20 n ⟨[0x20, 0x61, 0x20, 0x20, 0x62, 0x63] ++ 0 :: after, ptr⟩ =
        some ((List.range (n + 1)).map fun i => toks[i]?.map Stretch.first, s) ∧
      (∀ r ∈ toks.take (n + 1), Holds (s.bytes.drop r.first) (tokenOf [0x20, 0x61, 0x20, 0x20, 0x62, 0x63] r)) ∧
      ∀ j, s.bytes[j]? =
        if ∃ r ∈ toks.take (n + 1), j = r.last + 1 then some 0
        else ([0x20, 0x61, 0x20, 0x20, 0x62, 0x63] ++ 0 :: after)[j]? :=
  strtok_splits (by decide) 0x20

/-- The two words, and NULL. -/
example : (strtokCalls 0x20 2 ⟨[0x20, 0x61, 0x20, 0x20, 0x62, 0x63, 0], none⟩).map (fun r => (r.1, r.2.bytes)) =
    some ([some 1, some 4, none], [0x20, 0x61, 0, 0x20, 0x62, 0x63, 0]) := by decide

end AtaKernel.Text
