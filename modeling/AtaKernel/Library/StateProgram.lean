import Mathlib

/-! Programs that change a state and may stop with an error, in the state they
got to, and loops over a row of rounds that pass the loop's own variables on.
A run that returns is taken apart at its binds; a loop that keeps an invariant
has it at the end, and one whose rounds all return does so itself. -/
namespace StateProgram

variable {ε σ α β : Type} {x : EStateM ε σ α} {f : α → EStateM ε σ β} {s s' : σ} {a a' : α} {b : β}

theorem bind_ok_iff : (x >>= f) s = .ok b s' ↔ ∃ a mid, x s = .ok a mid ∧ f a mid = .ok b s' := by
  change EStateM.bind x f s = _ ↔ _
  unfold EStateM.bind
  cases run : x s with
  | ok a mid =>
    constructor
    · intro rest
      exact ⟨a, mid, rfl, rest⟩
    · rintro ⟨a', mid', same, rest⟩
      cases same
      exact rest
  | error e mid =>
    constructor
    · intro stopped
      cases stopped
    · rintro ⟨a', mid', same, -⟩
      cases same

theorem bind_of_ok {mid : σ} (run : x s = .ok a mid) : (x >>= f) s = f a mid := by
  change EStateM.bind x f s = _
  unfold EStateM.bind
  rw [run]

theorem bind_of_error {e : ε} {mid : σ} (run : x s = .error e mid) : (x >>= f) s = .error e mid := by
  change EStateM.bind x f s = _
  unfold EStateM.bind
  rw [run]

theorem map_ok_iff {g : α → β} : (g <$> x) s = .ok b s' ↔ ∃ a, x s = .ok a s' ∧ g a = b := by
  change EStateM.map g x s = _ ↔ _
  unfold EStateM.map
  cases run : x s with
  | ok a mid =>
    simp only [EStateM.Result.ok.injEq]
    constructor
    · rintro ⟨same, rfl⟩
      exact ⟨a, ⟨rfl, rfl⟩, same⟩
    · rintro ⟨a', ⟨rfl, rfl⟩, same⟩
      exact ⟨same, rfl⟩
  | error e mid =>
    constructor
    · intro stopped
      cases stopped
    · rintro ⟨a', same, -⟩
      cases same

theorem get_bind {g : σ → EStateM ε σ β} : (get >>= g) s = g s s := rfl

theorem modify_bind {g : σ → σ} {h : Unit → EStateM ε σ β} : (modify g >>= h) s = h () (g s) := rfl

theorem pure_ok_iff : (pure a : EStateM ε σ α) s = .ok a' s' ↔ a = a' ∧ s = s' := by
  change EStateM.Result.ok a s = _ ↔ _
  rw [EStateM.Result.ok.injEq]

/-- Where a program stops with an error, it returns on a condition that does not hold. -/
theorem error_ok_iff {e : ε} {c : Prop} (fails : ¬ c) :
    (EStateM.Result.error e s : EStateM.Result ε σ α) = .ok a s' ↔ c :=
  ⟨(nomatch ·), fun holds => absurd holds fails⟩

/-- A value that is there on a condition only. -/
theorem guarded_ok_iff {e : ε} {c : Prop} [Decidable c] :
    (if c then pure a else throw e : EStateM ε σ α) s = .ok a' s' ↔ s' = s ∧ c ∧ a = a' := by
  split
  · next holds =>
    rw [pure_ok_iff, @eq_comm _ s]
    exact ⟨fun both => ⟨both.2, holds, both.1⟩, fun all => ⟨all.2.2, all.1⟩⟩
  · next fails => exact error_ok_iff fun all => fails all.2.1

/-! ### What a program keeps -/

/-- The state that a program ends in, whether it returns or stops. -/
def finalState : EStateM.Result ε σ α → σ
  | .ok _ s => s
  | .error _ s => s

/-- However the program ends, what `view` shows of the state is as before. -/
def Keeps {γ : Type} (view : σ → γ) (x : EStateM ε σ α) : Prop := ∀ s, view (finalState (x s)) = view s

section Keeps

variable {γ : Type} {view : σ → γ}

theorem keeps_pure (a : α) : Keeps view (pure a : EStateM ε σ α) := fun _ => rfl

theorem keeps_throw (e : ε) : Keeps view (throw e : EStateM ε σ α) := fun _ => rfl

theorem keeps_get : Keeps view (get : EStateM ε σ σ) := fun _ => rfl

theorem keeps_modify {g : σ → σ} (same : ∀ s, view (g s) = view s) : Keeps view (modify g : EStateM ε σ PUnit) :=
  same

theorem Keeps.bind (first : Keeps view x) (rest : ∀ a, Keeps view (f a)) : Keeps view (x >>= f) := by
  intro s
  have before := first s
  change view (finalState (EStateM.bind x f s)) = _
  unfold EStateM.bind
  cases run : x s with
  | ok a mid =>
    rw [run] at before
    exact (rest a mid).trans before
  | error e mid =>
    rw [run] at before
    exact before

theorem Keeps.ok (keeps : Keeps view x) (ran : x s = .ok a s') : view s' = view s := by
  have same := keeps s
  rwa [ran] at same

theorem Keeps.error {e : ε} (keeps : Keeps view x) (stopped : x s = .error e s') : view s' = view s := by
  have same := keeps s
  rwa [stopped] at same

end Keeps

/-! ### What a program does not see -/

/-- A run from a state with `pre` is also one from the image of the state. It returns the same, and leaves the
image of a state with `post`. -/
def Carries (image : σ → σ) (pre post : σ → Prop) (x : EStateM ε σ α) : Prop :=
  ∀ s a s', pre s → x s = .ok a s' → x (image s) = .ok a (image s') ∧ post s'

section Carries

variable {image : σ → σ} {pre mid post : σ → Prop}

theorem carries_pure (a : α) : Carries image pre pre (pure a : EStateM ε σ α) := by
  intro s a' s' holds ran
  obtain ⟨rfl, rfl⟩ := pure_ok_iff.mp ran
  exact ⟨rfl, holds⟩

theorem carries_throw (e : ε) : Carries image pre post (throw e : EStateM ε σ α) := fun _ _ _ _ ran => nomatch ran

theorem Carries.bind (first : Carries image pre mid x) (rest : ∀ a, Carries image mid post (f a)) :
    Carries image pre post (x >>= f) := by
  intro s b s' holds ran
  obtain ⟨a, s₁, one, two⟩ := bind_ok_iff.mp ran
  obtain ⟨one', between⟩ := first s a s₁ holds one
  obtain ⟨two', after⟩ := rest a s₁ b s' between two
  exact ⟨bind_ok_iff.mpr ⟨a, image s₁, one', two'⟩, after⟩

end Carries

/-! ### Loops -/

/-- `for (i = 0; i < n; i++)`, with the variables that a round passes to the next one. -/
def upTo (round : Nat → β → EStateM ε σ β) : Nat → β → EStateM ε σ β
  | 0, b => pure b
  | n + 1, b => do round n (← upTo round n b)

variable {round : Nat → β → EStateM ε σ β} {n : Nat} {b' : β}

theorem upTo_succ_ok_iff : upTo round (n + 1) b s = .ok b' s' ↔
    ∃ c mid, upTo round n b s = .ok c mid ∧ round n c mid = .ok b' s' :=
  bind_ok_iff

/-- What every round that returns keeps holds where the loop returns. -/
theorem upTo_invariant (inv : Nat → β → σ → Prop) (start : inv 0 b s)
    (keeps : ∀ i < n, ∀ c mid c' mid', inv i c mid → round i c mid = .ok c' mid' → inv (i + 1) c' mid')
    (ran : upTo round n b s = .ok b' s') : inv n b' s' := by
  induction n generalizing b' s' with
  | zero =>
    obtain ⟨rfl, rfl⟩ := pure_ok_iff.mp ran
    exact start
  | succ n ih =>
    obtain ⟨c, mid, before, last⟩ := upTo_succ_ok_iff.mp ran
    have here := ih (fun i low => keeps i (Nat.lt_succ_of_lt low)) before
    exact keeps n n.lt_succ_self c mid b' s' here last

/-- A loop returns where the invariant makes every round return. -/
theorem upTo_returns (inv : Nat → β → σ → Prop) (start : inv 0 b s)
    (returns : ∀ i < n, ∀ c mid, inv i c mid → ∃ c' mid', round i c mid = .ok c' mid' ∧ inv (i + 1) c' mid') :
    ∃ b' s', upTo round n b s = .ok b' s' ∧ inv n b' s' := by
  induction n with
  | zero => exact ⟨b, s, rfl, start⟩
  | succ n ih =>
    obtain ⟨c, mid, before, here⟩ := ih fun i low => returns i (Nat.lt_succ_of_lt low)
    obtain ⟨c', mid', last, after⟩ := returns n n.lt_succ_self c mid here
    exact ⟨c', mid', upTo_succ_ok_iff.mpr ⟨c, mid, before, last⟩, after⟩

/-! ### Resources -/

/-- The program uses up `n` of what `left` counts, and stops with `e` only where there are fewer. -/
structure Spends (left : σ → Nat) (e : ε) (n : Nat) (x : EStateM ε σ α) (s : σ) : Prop where
  ok : ∀ a s', x s = .ok a s' → left s = left s' + n
  short : ∀ s', x s = .error e s' → left s < n

section Resources

variable {left : σ → Nat} {e : ε} {m n k : Nat}

theorem spends_pure (a : α) : Spends left e 0 (pure a : EStateM ε σ α) s where
  ok _ _ ran := by
    obtain ⟨-, rfl⟩ := pure_ok_iff.mp ran
    rfl
  short _ ran := nomatch ran

theorem spends_throw {e' : ε} (other : e' ≠ e) : Spends left e n (throw e' : EStateM ε σ α) s where
  ok _ _ ran := nomatch ran
  short s' ran := by
    cases (show EStateM.Result.error e' s = .error e s' from ran)
    exact absurd rfl other

theorem Spends.bind (first : Spends left e m x s) (rest : ∀ a mid, x s = .ok a mid → Spends left e n (f a) mid)
    (sum : m + n = k) : Spends left e k (x >>= f) s := by
  constructor
  · intro b s' ran
    obtain ⟨a, mid, ran₁, ran₂⟩ := bind_ok_iff.mp ran
    have before := first.ok a mid ran₁
    have after := (rest a mid ran₁).ok b s' ran₂
    omega
  · intro s' stopped
    cases ran : x s with
    | ok a mid =>
      rw [bind_of_ok ran] at stopped
      have before := first.ok a mid ran
      have after := (rest a mid ran).short s' stopped
      omega
    | error e' mid =>
      rw [bind_of_error ran] at stopped
      cases stopped
      have before := first.short _ ran
      omega

theorem Spends.map {g : α → β} (spends : Spends left e n x s) : Spends left e n (g <$> x) s where
  ok b s' ran := by
    obtain ⟨a, ran', -⟩ := map_ok_iff.mp ran
    exact spends.ok a s' ran'
  short s' ran := by
    change EStateM.map g x s = _ at ran
    unfold EStateM.map at ran
    split at ran
    · cases ran
    · next stopped =>
      cases ran
      exact spends.short _ stopped

theorem spends_get {g : σ → EStateM ε σ β} (rest : Spends left e n (g s) s) : Spends left e n (get >>= g) s :=
  ⟨rest.ok, rest.short⟩

theorem spends_modify {g : σ → σ} (same : left (g s) = left s) : Spends left e 0 (modify g : EStateM ε σ PUnit) s where
  ok _ s' ran := by
    cases (show EStateM.Result.ok PUnit.unit (g s) = .ok _ s' from ran)
    exact same.symm
  short _ ran := nomatch ran

/-- A loop uses up what its rounds do. -/
theorem upTo_spends {cost : Nat → Nat} (inv : Nat → β → σ → Prop) (start : inv 0 b s)
    (keeps : ∀ i < n, ∀ c mid c' mid', inv i c mid → round i c mid = .ok c' mid' → inv (i + 1) c' mid')
    (spends : ∀ i < n, ∀ c mid, inv i c mid → Spends left e (cost i) (round i c) mid) :
    Spends left e ((List.range n).map cost).sum (upTo round n b) s := by
  induction n with
  | zero => exact spends_pure b
  | succ n ih =>
    have before := ih (fun i low => keeps i (Nat.lt_succ_of_lt low)) fun i low => spends i (Nat.lt_succ_of_lt low)
    refine before.bind (fun c mid ran => spends n n.lt_succ_self c mid ?_) ?_
    · exact upTo_invariant inv start (fun i low => keeps i (Nat.lt_succ_of_lt low)) ran
    · rw [List.range_succ, List.map_append, List.sum_append, List.map_singleton, List.sum_singleton]

end Resources

/-! ### Jumps -/

section Jumps

variable {γ : Type}

/-- Code that goes from place to place until it leaves, with a bound on the number of jumps. -/
def iterate (round : β → EStateM ε σ (β ⊕ γ)) : Nat → β → σ → Option (EStateM.Result ε σ γ)
  | 0, _, _ => none
  | fuel + 1, b, s =>
    match round b s with
    | .ok (.inl b) s => iterate round fuel b s
    | .ok (.inr c) s => some (.ok c s)
    | .error e s => some (.error e s)

/-- The code leaves with `r`, whatever the bound is from some number on. -/
def Ends (round : β → EStateM ε σ (β ⊕ γ)) (b : β) (s : σ) (r : EStateM.Result ε σ γ) : Prop :=
  ∃ n, ∀ fuel, n ≤ fuel → iterate round fuel b s = some r

variable {round : β → EStateM ε σ (β ⊕ γ)} {r r' : EStateM.Result ε σ γ} {c : γ} {e : ε} {n : Nat}

theorem Ends.next (step : round b s = .ok (.inl b') s') (rest : Ends round b' s' r) : Ends round b s r := by
  obtain ⟨n, rest⟩ := rest
  refine ⟨n + 1, fun fuel enough => ?_⟩
  obtain ⟨left, rfl⟩ : ∃ left, fuel = left + 1 := ⟨fuel - 1, by omega⟩
  rw [iterate, step]
  exact rest left (by omega)

theorem Ends.done (step : round b s = .ok (.inr c) s') : Ends round b s (.ok c s') := by
  refine ⟨1, fun fuel enough => ?_⟩
  obtain ⟨left, rfl⟩ : ∃ left, fuel = left + 1 := ⟨fuel - 1, by omega⟩
  rw [iterate, step]

theorem Ends.stop (step : round b s = .error e s') : Ends round b s (.error e s') := by
  refine ⟨1, fun fuel enough => ?_⟩
  obtain ⟨left, rfl⟩ : ∃ left, fuel = left + 1 := ⟨fuel - 1, by omega⟩
  rw [iterate, step]

/-- The code gets from one place to another. -/
inductive Leads (round : β → EStateM ε σ (β ⊕ γ)) : β → σ → β → σ → Prop
  | refl (b : β) (s : σ) : Leads round b s b s
  | step {b b₁ b₂ : β} {s s₁ s₂ : σ} (run : round b s = .ok (.inl b₁) s₁) (rest : Leads round b₁ s₁ b₂ s₂) :
      Leads round b s b₂ s₂

theorem Leads.trans {b₁ b₂ : β} {s₁ s₂ : σ} (one : Leads round b s b₁ s₁) (two : Leads round b₁ s₁ b₂ s₂) :
    Leads round b s b₂ s₂ := by
  induction one with
  | refl => exact two
  | step run _ ih => exact .step run (ih two)

theorem Ends.after (ends : Ends round b' s' r) (way : Leads round b s b' s') : Ends round b s r := by
  induction way with
  | refl => exact ends
  | step run _ ih => exact (ih ends).next run

theorem Ends.unique (one : Ends round b s r) (two : Ends round b s r') : r = r' := by
  obtain ⟨n, one⟩ := one
  obtain ⟨n', two⟩ := two
  exact Option.some_inj.mp ((one (n + n') (by omega)).symm.trans (two (n + n') (by omega)))

/-- What the code has at every place it gets to, and what it leaves with. -/
theorem Ends.invariant (inv : β → σ → Prop) (post : γ → σ → Prop)
    (steps : ∀ b s b' s', inv b s → round b s = .ok (.inl b') s' → inv b' s')
    (last : ∀ b s c s', inv b s → round b s = .ok (.inr c) s' → post c s') (start : inv b s)
    (ends : Ends round b s (.ok c s')) : post c s' := by
  obtain ⟨n, ends⟩ := ends
  have run := ends n le_rfl
  clear ends
  induction n generalizing b s with
  | zero => cases run
  | succ n ih =>
    rw [iterate] at run
    split at run
    · next b' mid step => exact ih (steps b s b' mid start step) run
    · next c' mid step =>
      cases run
      exact last b s c s' start step
    · cases run

/-- Code that stands within other code: each of its jumps is one there, and it leaves for a place there. -/
structure Within {δ ζ : Type} (round : β → EStateM ε σ (β ⊕ γ)) (whole : δ → EStateM ε σ (δ ⊕ ζ)) (into : β → δ)
    (exit : γ → δ) : Prop where
  next : ∀ {b s b' s'}, round b s = .ok (.inl b') s' → whole (into b) s = .ok (.inl (into b')) s'
  done : ∀ {b s c s'}, round b s = .ok (.inr c) s' → whole (into b) s = .ok (.inl (exit c)) s'
  stop : ∀ {b s e s'}, round b s = .error e s' → whole (into b) s = .error e s'

section Within

variable {δ ζ : Type} {whole : δ → EStateM ε σ (δ ⊕ ζ)} {into : β → δ} {exit : γ → δ}

/-- Code that leaves by itself leads on, within other code, to where it leaves for. -/
theorem Within.leads (within : Within round whole into exit) (ends : Ends round b s (.ok c s')) :
    Leads whole (into b) s (exit c) s' := by
  refine Ends.invariant (fun b' mid => Leads whole (into b) s (into b') mid)
    (fun c s' => Leads whole (into b) s (exit c) s') ?_ ?_ (.refl _ _) ends
  · intro b' mid b'' mid' way step
    exact way.trans (.step (within.next step) (.refl _ _))
  · intro b' mid c s' way step
    exact way.trans (.step (within.done step) (.refl _ _))

theorem Within.stops (within : Within round whole into exit) (ends : Ends round b s (.error e s')) :
    Ends whole (into b) s (.error e s') := by
  obtain ⟨n, ends⟩ := ends
  have run := ends n le_rfl
  clear ends
  induction n generalizing b s with
  | zero => cases run
  | succ n ih =>
    rw [iterate] at run
    split at run
    · next b' mid step => exact (ih run).next (within.next step)
    · cases run
    · next e' mid step =>
      cases run
      exact Ends.stop (within.stop step)

end Within

/-- `n` jumps, each of which moves an invariant on, and what comes after them. -/
theorem Ends.counted (inv : Nat → β → σ → Prop) (post : EStateM.Result ε σ γ → Prop)
    (steps : ∀ i < n, ∀ b s, inv i b s → ∃ b' s', round b s = .ok (.inl b') s' ∧ inv (i + 1) b' s')
    (last : ∀ b s, inv n b s → ∃ r, Ends round b s r ∧ post r) (start : inv 0 b s) :
    ∃ r, Ends round b s r ∧ post r := by
  have from_ : ∀ left i, i + left = n → ∀ b s, inv i b s → ∃ r, Ends round b s r ∧ post r := by
    intro left
    induction left with
    | zero =>
      rintro i rfl b s here
      exact last b s here
    | succ left ih =>
      intro i sum b s here
      obtain ⟨b', s', step, there⟩ := steps i (by omega) b s here
      obtain ⟨r, ends, holds⟩ := ih (i + 1) (by omega) b' s' there
      exact ⟨r, ends.next step, holds⟩
  exact from_ n 0 (by omega) b s start

end Jumps

end StateProgram
