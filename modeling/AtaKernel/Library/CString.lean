import Mathlib

/-! Strings as C keeps them, in arrays of bytes up to a zero. An array is the list
of its bytes from a pointer on; an access behind its end has no value. A loop over
a text takes a character in each round, and a round may take some more of them. -/
namespace CString

/-- `a[k] = v` -/
def setAt (a : List UInt8) (k : Nat) (v : UInt8) : Option (List UInt8) :=
  if k < a.length then some (a.set k v) else none

/-- The array begins with the string `t`. -/
def Holds (a t : List UInt8) : Prop := 0 ∉ t ∧ ∃ rest, a = t ++ 0 :: rest

/-- What a round of a loop comes to. -/
inductive Turn (ρ σ : Type) where
  | leave (result : ρ)
  | go (rest : List UInt8) (state : σ)

variable {ρ ρ' σ σ' : Type}

/-- `for (; *text != 0; text++)`, where a round gets what lies behind its character, and
`rounds` is no less than the length of the array. -/
def readText (round : UInt8 → List UInt8 → σ → Option (Turn ρ σ)) (finish : σ → ρ) :
    Nat → List UInt8 → σ → Option ρ
  | 0, _, _ => none
  | _ + 1, [], _ => none
  | rounds + 1, c :: rest, s =>
    if c = 0 then some (finish s)
    else match round c rest s with
      | none => none
      | some (.leave r) => some r
      | some (.go rest s) => readText round finish rounds rest s

/-! ## Arrays -/

variable {a b t rest : List UInt8} {x v : UInt8} {k : Nat}

theorem setAt_middle : setAt (a ++ x :: rest) a.length v = some (a ++ v :: rest) := by
  have inside : a.length < (a ++ x :: rest).length := by simp
  rw [setAt, if_pos inside, List.set_append_right _ _ le_rfl, Nat.sub_self]
  rfl

theorem at_middle : (a ++ x :: rest)[a.length]? = some x := by simp

theorem setAt_some (inside : k < a.length) : setAt a k v = some (a.set k v) := if_pos inside

/-- An array with a zero in it begins with the characters up to the first one. -/
theorem holds_takeWhile : Holds (a ++ 0 :: rest) (a.takeWhile (· ≠ 0)) := by
  constructor
  · intro zero_
    simpa using List.all_eq_true.mp List.all_takeWhile _ zero_
  induction a with
  | nil => exact ⟨rest, rfl⟩
  | cons c a ih =>
    by_cases zero_ : c = 0
    · rw [zero_]
      exact ⟨a ++ 0 :: rest, by simp⟩
    · obtain ⟨after, same⟩ := ih
      refine ⟨after, ?_⟩
      rw [List.takeWhile_cons_of_pos (by simpa using zero_), List.cons_append, same]
      rfl

theorem Holds.behind (first : 0 ∉ a) (holds : Holds b t) : Holds (a ++ b) (a ++ t) := by
  obtain ⟨nonzero, after, rfl⟩ := holds
  refine ⟨fun zero_ => ?_, after, (List.append_assoc _ _ _).symm⟩
  exact (List.mem_append.mp zero_).elim first nonzero

/-- A character that is not the terminator is one of the string. -/
theorem chars_cons {c : UInt8} {chars after : List UInt8} (more : c ≠ 0) (split : c :: rest = chars ++ 0 :: after) :
    ∃ chars', chars = c :: chars' ∧ rest = chars' ++ 0 :: after := by
  cases chars with
  | nil =>
    cases split
    exact absurd rfl more
  | cons d chars =>
    rw [List.cons_append] at split
    obtain ⟨rfl, rfl⟩ := List.cons_eq_cons.mp split
    exact ⟨chars, rfl, rfl⟩

/-! ## Loops over a text -/

section Loops

variable {round : UInt8 → List UInt8 → σ → Option (Turn ρ σ)} {finish : σ → ρ}
  {round' : UInt8 → List UInt8 → σ' → Option (Turn ρ' σ')} {finish' : σ' → ρ'}
  {text : List UInt8} {s : σ} {s' : σ'} {r : ρ} {rounds : Nat}

theorem readText_end {n : Nat} {rest : List UInt8} : readText round finish (n + 1) (0 :: rest) s = some (finish s) := by
  rw [readText, if_pos rfl]

theorem readText_go {n : Nat} {c : UInt8} {rest rest' : List UInt8} {s' : σ} (more : c ≠ 0)
    (went : round c rest s = some (.go rest' s')) :
    readText round finish (n + 1) (c :: rest) s = readText round finish n rest' s' := by
  rw [readText, if_neg more, went]

theorem readText_leave {n : Nat} {c : UInt8} {rest : List UInt8} (more : c ≠ 0)
    (left : round c rest s = some (.leave r)) : readText round finish (n + 1) (c :: rest) s = some r := by
  rw [readText, if_neg more, left]

/-- What every round keeps holds where the loop ends, if it ends. -/
theorem readText_invariant (inv : List UInt8 → σ → Prop) (post : ρ → Prop)
    (ends : ∀ rest s, inv (0 :: rest) s → post (finish s))
    (leaves : ∀ c rest s r, c ≠ 0 → inv (c :: rest) s → round c rest s = some (.leave r) → post r)
    (keeps : ∀ c rest s rest' t, c ≠ 0 → inv (c :: rest) s → round c rest s = some (.go rest' t) → inv rest' t)
    (start : inv text s) (ran : readText round finish rounds text s = some r) : post r := by
  induction rounds generalizing text s with
  | zero => cases ran
  | succ n ih =>
    cases text with
    | nil => cases ran
    | cons c rest =>
      rw [readText] at ran
      split at ran
      · next zero_ =>
        cases ran
        exact ends rest s (zero_ ▸ start)
      next more =>
      split at ran
      · cases ran
      · next r' left =>
        cases ran
        exact leaves c rest s r more start left
      · next rest' t went => exact ih (keeps c rest s rest' t more start went) ran

/-- Two loops over one text that go on and leave together: both return, with results that belong
together. -/
theorem readText_together (rel : List UInt8 → σ → σ' → Prop) (post : ρ → ρ' → Prop)
    (inside : ∀ s s', ¬ rel [] s s')
    (ends : ∀ rest s s', rel (0 :: rest) s s' → post (finish s) (finish' s'))
    (keeps : ∀ c rest s s', c ≠ 0 → rel (c :: rest) s s' →
      (∃ r r', round c rest s = some (.leave r) ∧ round' c rest s' = some (.leave r') ∧ post r r') ∨
      ∃ rest' t t', round c rest s = some (.go rest' t) ∧ round' c rest s' = some (.go rest' t') ∧
        rest'.length ≤ rest.length ∧ rel rest' t t')
    (start : rel text s s') (enough : text.length ≤ rounds) :
    ∃ r r', readText round finish rounds text s = some r ∧
      readText round' finish' rounds text s' = some r' ∧ post r r' := by
  induction rounds generalizing text s s' with
  | zero =>
    rw [List.length_eq_zero_iff.mp (Nat.le_zero.mp enough)] at start
    exact absurd start (inside s s')
  | succ n ih =>
    cases text with
    | nil => exact absurd start (inside s s')
    | cons c rest =>
      simp only [readText]
      by_cases zero_ : c = 0
      · rw [if_pos zero_, if_pos zero_]
        exact ⟨_, _, rfl, rfl, ends rest s s' (zero_ ▸ start)⟩
      · rw [if_neg zero_, if_neg zero_]
        obtain ⟨r, r', left, left', both⟩ | ⟨rest', t, t', went, went', shorter, related⟩ :=
          keeps c rest s s' zero_ start
        · rw [left, left']
          exact ⟨r, r', rfl, rfl, both⟩
        · rw [went, went']
          exact ih related (shorter.trans (Nat.le_of_succ_le_succ enough))

/-- A loop whose rounds all go on or leave returns. -/
theorem readText_returns (inv : List UInt8 → σ → Prop) (inside : ∀ s, ¬ inv [] s)
    (keeps : ∀ c rest s, c ≠ 0 → inv (c :: rest) s → (∃ r, round c rest s = some (.leave r)) ∨
      ∃ rest' t, round c rest s = some (.go rest' t) ∧ rest'.length ≤ rest.length ∧ inv rest' t)
    (start : inv text s) (enough : text.length ≤ rounds) : ∃ r, readText round finish rounds text s = some r := by
  have keeps' : ∀ c rest s s', c ≠ 0 → (s = s' ∧ inv (c :: rest) s) →
      (∃ r r', round c rest s = some (.leave r) ∧ round c rest s' = some (.leave r') ∧ True) ∨
      ∃ rest' t t', round c rest s = some (.go rest' t) ∧ round c rest s' = some (.go rest' t') ∧
        rest'.length ≤ rest.length ∧ t = t' ∧ inv rest' t := by
    rintro c rest s _ more ⟨rfl, here⟩
    obtain ⟨r, left⟩ | ⟨rest', t, went, shorter, next⟩ := keeps c rest s more here
    · exact .inl ⟨r, r, left, left, trivial⟩
    · exact .inr ⟨rest', t, t, went, went, shorter, rfl, next⟩
  obtain ⟨r, -, ran, -⟩ := @readText_together ρ ρ σ σ round finish round finish text s s rounds
    (fun text s s' => s = s' ∧ inv text s) (fun _ _ => True) (fun s _ both => inside s both.2)
    (fun _ _ _ _ => trivial) keeps' ⟨rfl, start⟩ enough
  exact ⟨r, ran⟩

end Loops

end CString
