import AtaKernel.Text.Framebuffer

/-! Whether `fb_printf` prints what `sprintf` formats. The two read a format alike and
fill their buffers alike, and for `%s` alone `fb_printf` writes its buffer where
`sprintf` copies the argument. -/
namespace AtaKernel.Text
open CString Framebuffer

/-- The characters that were stored to cells, in order. -/
def characters : List Access → List UInt8
  | [] => []
  | .store offset value :: older =>
    if offset % 2 = 0 then characters older ++ [value] else characters older
  | .outb _ _ :: older => characters older

/-- The two return the same, and what one writes on the screen is what the other stores. -/
def PrintsAlike (strings : UInt32 → List UInt8) (fmt : List UInt8) (v : VaList) (buf buf' : List UInt8)
    (fb : Framebuffer) : Prop :=
  ∃ n text fb', fb.fbPrintf fmt v buf = some (n, fb') ∧ sprintf strings fmt v buf' = some (n, text) ∧
    characters fb'.trace = characters fb.trace ++ text

variable {c : UInt8} {fmt t : List UInt8} {v : VaList} {fb : Framebuffer} {buf : List UInt8}

/-! ## What is written -/

theorem advance_characters : characters (fb.advance c).trace = characters fb.trace ++ [c] := by
  have even : fb.pos.toNat * 2 % 2 = 0 := Nat.mul_mod_left _ _
  have odd : ¬ (fb.pos.toNat * 2 + 1) % 2 = 0 := by omega
  change (if (fb.pos.toNat * 2 + 1) % 2 = 0 then _ else if fb.pos.toNat * 2 % 2 = 0 then _ else _) = _
  rw [if_neg odd, if_pos even]

theorem fbWriteLoop_string {rest : List UInt8} {rounds : Nat} (nonzero : 0 ∉ t) (enough : rounds = t.length) :
    ∃ fb', fbWriteLoop rounds (t ++ rest) fb = some fb' ∧
      characters fb'.trace = characters fb.trace ++ t := by
  subst enough
  induction t generalizing fb with
  | nil => exact ⟨fb, rfl, (List.append_nil _).symm⟩
  | cons c t ih =>
    obtain ⟨here, behind⟩ := List.ne_and_not_mem_of_not_mem_cons nonzero
    obtain ⟨fb', ran, same⟩ := @ih (fb.advance c) behind
    refine ⟨fb', (if_neg (Ne.symm here)).trans ran, same.trans ?_⟩
    rw [advance_characters, List.append_assoc]
    rfl

/-- The strings in the buffer are written whole. -/
theorem fbWrite_filled {before after : List UInt8} (filled : Filled before after t) :
    strlen after = some (UInt32.ofNat t.length) ∧ ∃ fb', fb.fbWrite after (UInt32.ofNat t.length) = some fb' ∧
      characters fb'.trace = characters fb.trace ++ t := by
  obtain ⟨nonzero, rest, rfl⟩ := filled.holds
  have count : (UInt32.ofNat t.length).toNat = t.length :=
    UInt32.toNat_ofNat_of_lt' (filled.short.trans (by decide))
  exact ⟨strlen_string nonzero, fbWriteLoop_string nonzero count⟩

theorem fbSyncCur_characters : characters fb.fbSyncCur.trace = characters fb.trace := by
  unfold fbSyncCur fbSetCur
  split <;> rfl

/-! ## The two loops -/

/-- Where the two loops stand alike, ahead of a text without a new line and without `%s`. -/
structure Alike (old : List UInt8) (text : List UInt8) (p : Printing Framebuffer) (p' : Printing (List UInt8)) :
    Prop where
  inPlaceholder : p.inPlaceholder = p'.inPlaceholder
  v : p.v = p'.v
  count : p.count = p'.count
  room : numBufLen ≤ p.buf.length
  room' : numBufLen ≤ p'.buf.length
  out : characters p.out.trace = old ++ p'.out
  chars : ∃ chars after, text = chars ++ 0 :: after ∧ '\n'.toUInt8 ∉ chars ∧ '\r'.toUInt8 ∉ chars ∧
    namesString (if p'.inPlaceholder then '%'.toUInt8 :: chars else chars) = false

/-- The results that belong together. -/
def SamePrint (old : List UInt8) (r : Int32 × Framebuffer) (r' : Int32 × List UInt8) : Prop :=
  r.1 = r'.1 ∧ characters r.2.trace = old ++ r'.2

theorem rounds_alike {strings : UInt32 → List UInt8} {old rest : List UInt8} {p : Printing Framebuffer}
    {p' : Printing (List UInt8)} (more : c ≠ 0) (alike : Alike old (c :: rest) p p') :
    (∃ r r', fbPrintfRound c rest p = some (.leave r) ∧ sprintfRound strings c rest p' = some (.leave r') ∧
      SamePrint old r r') ∨
    ∃ rest' t t', fbPrintfRound c rest p = some (.go rest' t) ∧
      sprintfRound strings c rest p' = some (.go rest' t') ∧ rest'.length ≤ rest.length ∧ Alike old rest' t t' := by
  obtain ⟨inPlaceholder, v, buf, count, fb⟩ := p
  obtain ⟨inPlaceholder', v', buf', count', out⟩ := p'
  obtain ⟨rfl, rfl, rfl, room, room', same, chars, after, split, newline, return_, names⟩ := alike
  obtain ⟨chars, rfl, rfl⟩ := chars_cons more split
  obtain ⟨notNewline, newline⟩ := List.ne_and_not_mem_of_not_mem_cons newline
  obtain ⟨notReturn, return_⟩ := List.ne_and_not_mem_of_not_mem_cons return_
  cases inPlaceholder with
  | false =>
    by_cases percent : c = '%'.toUInt8
    · refine .inr ⟨_, _, _, if_pos percent, if_pos percent, le_rfl, rfl, rfl, rfl, room, room', same, chars, after,
        rfl, newline, return_, ?_⟩
      rw [percent] at names
      exact names
    · obtain ⟨fb', ran, wrote⟩ := @fbWriteLoop_string [c] fb (chars ++ 0 :: after) 1
        (fun zero_ => more (List.mem_singleton.mp zero_).symm) rfl
      have round : fbPrintfRound c (chars ++ 0 :: after) ⟨false, v, buf, count, fb⟩ =
          some (.go (chars ++ 0 :: after) ⟨false, v, buf, count + 1, fb'⟩) :=
        fbPrintfRound_literal percent (Ne.symm notNewline) (Ne.symm notReturn) ran
      refine .inr ⟨_, _, _, round, if_neg percent, le_rfl, rfl, rfl, rfl, room, room', ?_, chars, after,
        rfl, newline, return_, ?_⟩
      · rw [wrote, same, List.append_assoc]
      · rw [← namesString_literal percent]
        exact names
  | true =>
    have behind : chars ++ 0 :: after ≠ [] := by simp
    have first := @placeholder_means buf (chars ++ 0 :: after) c v behind room
    have second := @placeholder_means buf' (chars ++ 0 :: after) c v behind room'
    obtain ⟨string, -⟩ | ⟨t, chars', v', means, ⟨taken, rfl⟩, next⟩ | ⟨means, -⟩ := meaning_cases c chars after v
    · rw [string] at names
      exact absurd (namesString_string.symm.trans names) (by decide)
    · rw [means] at first second
      obtain ⟨own, ran, filled⟩ := first
      obtain ⟨own', ran', filled'⟩ := second
      obtain ⟨count_, fb', wrote, more'⟩ := @fbWrite_filled t fb buf own filled
      have round : fbPrintfRound c _ ⟨true, v, buf, count, fb⟩ = _ := fbPrintfRound_text ran count_ wrote
      have round' : sprintfRound strings c _ ⟨true, v, buf', count, out⟩ = _ := sprintfRound_own ran' filled'.holds
      refine .inr ⟨_, _, _, round, round', by simp, rfl, rfl, rfl, ?_, ?_, ?_, chars', after, rfl, ?_, ?_,
        next.symm.trans names⟩
      · rw [filled.length]
        exact room
      · rw [filled'.length]
        exact room'
      · rw [more', same, List.append_assoc]
      · exact fun inside => newline (List.mem_append_right _ inside)
      · exact fun inside => return_ (List.mem_append_right _ inside)
    · rw [means] at first second
      refine .inl ⟨_, _, fbPrintfRound_bad first, sprintfRound_bad second, rfl, ?_⟩
      rw [fbSyncCur_characters]
      exact same

/-- Without `%s`, the two do the same, up to where a bad placeholder is. -/
theorem printsAlike_without_string {strings : UInt32 → List UInt8} {chars after buf' : List UInt8}
    (newline : '\n'.toUInt8 ∉ chars) (return_ : '\r'.toUInt8 ∉ chars) (room : numBufLen ≤ buf.length)
    (room' : numBufLen ≤ buf'.length) (names : namesString chars = false) :
    PrintsAlike strings (chars ++ 0 :: after) v buf buf' fb := by
  have start : Alike (characters fb.trace) (chars ++ 0 :: after) ⟨false, v, buf, 0, fb⟩ ⟨false, v, buf', 0, []⟩ :=
    ⟨rfl, rfl, rfl, room, room', (List.append_nil _).symm, chars, after, rfl, newline, return_, names⟩
  have inside : ∀ p p', ¬ Alike (characters fb.trace) [] p p' := by
    rintro p p' ⟨-, -, -, -, -, -, chars, after, split, -⟩
    simp at split
  have ends : ∀ rest p p', Alike (characters fb.trace) (0 :: rest) p p' → SamePrint (characters fb.trace)
      (p.count.toInt32, p.out.fbSyncCur) (p'.count.toInt32, p'.out) := by
    rintro rest p p' alike
    refine ⟨congrArg UInt32.toInt32 alike.count, ?_⟩
    rw [fbSyncCur_characters]
    exact alike.out
  obtain ⟨⟨n, fb'⟩, ⟨n', text⟩, ran, ran', rfl, same⟩ := readText_together (Alike (characters fb.trace))
    (SamePrint (characters fb.trace)) inside ends
    (fun c rest p p' more alike => @rounds_alike c strings _ rest p p' more alike) start le_rfl
  exact ⟨n, text, fb', ran, ran', same⟩

/-! ## Long arguments -/

/-- Behind a `%s`, or ahead of one. -/
structure Lengthens (n : Nat) (text : List UInt8) (p : Printing (List UInt8)) : Prop where
  room : numBufLen ≤ p.buf.length
  chars : ∃ chars after, text = chars ++ 0 :: after ∧ 0 ∉ chars ∧
    (n ≤ p.out.length ∨ namesString (if p.inPlaceholder then '%'.toUInt8 :: chars else chars) = true)

/-- `n` times the same character, at every address. -/
def longStrings (n : Nat) : UInt32 → List UInt8 := fun _ => List.replicate n 'a'.toUInt8 ++ [0]

theorem round_lengthens {n : Nat} {rest : List UInt8} {p : Printing (List UInt8)} (more : c ≠ 0)
    (lengthens : Lengthens n (c :: rest) p) :
    (∃ r, sprintfRound (longStrings n) c rest p = some (.leave r) ∧ n ≤ r.2.length) ∨
    ∃ rest' t, sprintfRound (longStrings n) c rest p = some (.go rest' t) ∧ Lengthens n rest' t := by
  obtain ⟨inPlaceholder, v, buf, count, out⟩ := p
  obtain ⟨room, chars, after, split, nonzero, far⟩ := lengthens
  obtain ⟨chars, rfl, rfl⟩ := chars_cons more split
  have nonzero := List.not_mem_of_not_mem_cons nonzero
  cases inPlaceholder with
  | false =>
    by_cases percent : c = '%'.toUInt8
    · rw [percent] at far
      exact .inr ⟨_, _, if_pos percent, room, chars, after, rfl, nonzero, far⟩
    · refine .inr ⟨_, _, if_neg percent, room, chars, after, rfl, nonzero, ?_⟩
      refine far.imp (fun long => long.trans (by simp)) fun names => ?_
      rw [← namesString_literal percent]
      exact names
  | true =>
    have behind : chars ++ 0 :: after ≠ [] := by simp
    have means_ := @placeholder_means buf (chars ++ 0 :: after) c v behind room
    obtain ⟨-, means⟩ | ⟨t, chars', v', means, ⟨taken, rfl⟩, next⟩ | ⟨means, bad⟩ := meaning_cases c chars after v
    · rw [means] at means_
      have plain : 0 ∉ List.replicate n 'a'.toUInt8 := fun zero_ =>
        absurd (List.eq_of_mem_replicate zero_) (by decide)
      have round : sprintfRound (longStrings n) c _ ⟨true, v, buf, count, out⟩ = _ :=
        sprintfRound_argument means_ ⟨plain, [], rfl⟩
      exact .inr ⟨_, _, round, room, chars, after, rfl, nonzero, .inl (by simp)⟩
    · rw [means] at means_
      obtain ⟨own, ran, filled⟩ := means_
      have round : sprintfRound (longStrings n) c _ ⟨true, v, buf, count, out⟩ = _ := sprintfRound_own ran filled.holds
      refine .inr ⟨_, _, round, ?_, chars', after, rfl, ?_, ?_⟩
      · rw [filled.length]
        exact room
      · exact fun inside => nonzero (List.mem_append_right _ inside)
      · exact far.imp (fun long => long.trans (by simp)) next.symm.trans
    · rw [means] at means_
      refine .inl ⟨_, sprintfRound_bad means_, far.resolve_right fun names => ?_⟩
      exact absurd (bad.symm.trans names) (by decide)

theorem sprintf_long {n : Nat} {chars after text : List UInt8} {r : Int32} (nonzero : 0 ∉ chars)
    (room : numBufLen ≤ buf.length) (names : namesString chars = true)
    (ran : sprintf (longStrings n) (chars ++ 0 :: after) v buf = some (r, text)) : n ≤ text.length := by
  have start : Lengthens n (chars ++ 0 :: after) ⟨false, v, buf, 0, []⟩ :=
    ⟨room, chars, after, rfl, nonzero, .inr names⟩
  refine readText_invariant (Lengthens n) (fun r => n ≤ r.2.length) ?_ ?_ ?_ start ran
  · rintro rest p ⟨-, chars, after, split, nonzero, far⟩
    obtain _ | ⟨d, chars⟩ := chars
    · refine far.resolve_right ?_
      split <;> decide
    · cases split
      exact absurd List.mem_cons_self nonzero
  · intro c rest p r more lengthens left
    obtain ⟨r', left', long⟩ | ⟨rest', t, went, -⟩ := round_lengthens more lengthens
    · cases left.symm.trans left'
      exact long
    · cases left.symm.trans went
  · intro c rest p rest' t more lengthens went
    obtain ⟨r', left, -⟩ | ⟨rest'', t', went', next⟩ := round_lengthens more lengthens
    · cases went.symm.trans left
    · cases went.symm.trans went'
      exact next

/-- `fb_printf` prints what `sprintf` formats, whatever strings its arguments are, exactly if no `%s`
is reached in the format. -/
theorem printsAlike_iff {chars after buf' : List UInt8} (nonzero : 0 ∉ chars) (newline : '\n'.toUInt8 ∉ chars)
    (return_ : '\r'.toUInt8 ∉ chars) (room : numBufLen ≤ buf.length) (room' : numBufLen ≤ buf'.length) :
    (∀ strings, (∀ s, 0 ∈ strings s) → PrintsAlike strings (chars ++ 0 :: after) v buf buf' fb) ↔
      namesString chars = false := by
  constructor
  · intro alike
    by_contra names
    have names := Bool.eq_true_of_not_eq_false names
    have strings : ∀ n s, 0 ∈ longStrings n s := fun n s => List.mem_append_right _ List.mem_cons_self
    obtain ⟨n, text, fb', ran, -, same⟩ := alike (longStrings 0) (strings 0)
    -- An argument that is longer than all that is on the screen.
    obtain ⟨n', text', fb'', ran'', long, same'⟩ := alike (longStrings (text.length + 1)) (strings _)
    cases ran.symm.trans ran''
    have texts : text = text' := List.append_cancel_left (same.symm.trans same')
    have longer := sprintf_long nonzero room' names long
    rw [← texts] at longer
    omega
  · exact fun names strings _ => printsAlike_without_string newline return_ room room' names

/-- `"%dx %s"`, with a number and a string: the text of the number is in the buffer when the string is due. -/
def numberAndString : List UInt8 := ['%', 'd', 'x', ' ', '%', 's'].map Char.toUInt8

theorem printsAlike_iff_number_and_string :
    ¬ ∀ strings, (∀ s, 0 ∈ strings s) → PrintsAlike strings (numberAndString ++ 0 :: []) (fun _ => 5)
      (List.replicate 65 0) (List.replicate 65 0) (.started fun _ => 0) := by
  intro alike
  have names := (printsAlike_iff (by decide : 0 ∉ numberAndString) (by decide) (by decide) (by decide)
    (by decide)).mp alike
  exact absurd names (by decide)

/-- For `"%s"` with the string `hi`, `sprintf` stores `hi` and returns 2, and `fb_printf` writes nothing
and returns 0. -/
theorem string_argument_not_printed :
    let strings : UInt32 → List UInt8 := fun _ => ['h'.toUInt8, 'i'.toUInt8, 0]
    let fmt : List UInt8 := ['%'.toUInt8, 's'.toUInt8, 0]
    let buf : List UInt8 := List.replicate 65 0
    let fb : Framebuffer := .started fun _ => 0
    sprintf strings fmt (fun _ => 0) buf = some (2, ['h'.toUInt8, 'i'.toUInt8]) ∧
      (fb.fbPrintf fmt (fun _ => 0) buf).map (fun r => (r.1, characters r.2.trace)) = some (0, []) ∧
      ¬ PrintsAlike strings fmt (fun _ => 0) buf buf fb := by
  intro strings fmt buf fb
  have stored : sprintf strings fmt (fun _ => 0) buf = some (2, ['h'.toUInt8, 'i'.toUInt8]) := by decide
  have shown : (fb.fbPrintf fmt (fun _ => 0) buf).map (fun r => (r.1, characters r.2.trace)) = some (0, []) := by decide
  refine ⟨stored, shown, ?_⟩
  rintro ⟨n, text, fb', ran, ran', -⟩
  rw [ran] at shown
  rw [stored] at ran'
  cases ran'
  have returned : (2 : Int32) = 0 := congrArg Prod.fst (Option.some.inj shown)
  exact absurd returned (by decide)

end AtaKernel.Text
