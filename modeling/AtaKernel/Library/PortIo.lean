import AtaKernel.Library.ByteMemory

/-! Programs that drive devices through ports. A device is whatever answers
the reads and takes the writes; a program runs in a world made of the device,
the memory, and the record of every port access made so far. Loops that wait
for a device take a bound on their rounds: a run that is still waiting when
the bound is spent is stuck, and keeps the world it got to, so a statement
over all bounds also speaks of runs that never return. -/
namespace PortIo
open ByteMemory

/-- One port access, with the value that crossed the bus. -/
inductive Access where
  | inb (port : UInt16) (value : UInt8)
  | inw (port : UInt16) (value : UInt16)
  | outb (port : UInt16) (value : UInt8)
  | outw (port : UInt16) (value : UInt16)
  deriving DecidableEq, Repr

def Access.port : Access → UInt16
  | .inb port _ | .inw port _ | .outb port _ | .outw port _ => port

/-- What a device does at each kind of access. -/
structure Bus (σ : Type) where
  inb : UInt16 → σ → UInt8 × σ
  inw : UInt16 → σ → UInt16 × σ
  outb : UInt16 → UInt8 → σ → σ
  outw : UInt16 → UInt16 → σ → σ

structure World (σ : Type) where
  device : σ
  /-- The accesses made so far, the latest first. -/
  trace : List Access
  memory : Memory

/-- A program: it returns a value, or is stuck (`none`) in the world it reached. -/
def Io (σ α : Type) : Type := World σ → Option α × World σ

variable {σ α β γ : Type}

instance : Monad (Io σ) where
  pure a := fun w => (some a, w)
  bind x f := fun w =>
    match x w with
    | (some a, w') => f a w'
    | (none, w') => (none, w')

/-- The program that never comes back from where it stands. -/
def stuck : Io σ α := fun w => (none, w)

def inb (bus : Bus σ) (port : UInt16) : Io σ UInt8 := fun w =>
  let (value, device) := bus.inb port w.device
  (some value, { w with device, trace := .inb port value :: w.trace })

def inw (bus : Bus σ) (port : UInt16) : Io σ UInt16 := fun w =>
  let (value, device) := bus.inw port w.device
  (some value, { w with device, trace := .inw port value :: w.trace })

def outb (bus : Bus σ) (port : UInt16) (value : UInt8) : Io σ Unit := fun w =>
  (some (), { w with
    device := bus.outb port value w.device
    trace := .outb port value :: w.trace })

def outw (bus : Bus σ) (port : UInt16) (value : UInt16) : Io σ Unit := fun w =>
  (some (), { w with
    device := bus.outw port value w.device
    trace := .outw port value :: w.trace })

/-- The `n`-byte little-endian value at `a`. -/
def peek (a n : Nat) : Io σ Nat := fun w => (some (load w.memory a n), w)

/-- Stores the `n` low bytes of `v` at `a`. -/
def poke (a n v : Nat) : Io σ Unit := fun w =>
  (some (), { w with memory := store w.memory a n v })

/-- `for (i = 0; i < n; ++i) body(i)`. -/
def times : Nat → (Nat → Io σ Unit) → Io σ Unit
  | 0, _ => pure ()
  | n + 1, body => do times n body; body n

/-- The same loop over a body that may return from the surrounding routine. -/
def timesReturn : Nat → (Nat → Io σ (Option α)) → Io σ (Option α)
  | 0, _ => pure none
  | n + 1, body => do
    match ← timesReturn n body with
    | some a => pure (some a)
    | none => body n

/-- The same loop over a body that carries a value from round to round. -/
def timesCarry : Nat → (Nat → α → Io σ α) → α → Io σ α
  | 0, _, a => pure a
  | n + 1, body, a => do
    let a' ← timesCarry n body a
    body n a'

/-- A loop that carries `a` from round to round until it is left with a result;
it is stuck when `fuel` rounds were not enough. -/
def loop : Nat → (α → Io σ (α ⊕ β)) → α → Io σ β
  | 0, _, _ => stuck
  | fuel + 1, body, a => do
    match ← body a with
    | .inl a' => loop fuel body a'
    | .inr b => pure b

/-- One round of `while (test(value) is silent) value = inb(port);`. -/
def testThenRead (bus : Bus σ) (port : UInt16) (test : UInt8 → Option β) (value : UInt8) :
    Io σ (UInt8 ⊕ β) :=
  match test value with
  | some b => pure (.inr b)
  | none => do
    let value ← inb bus port
    pure (.inl value)

/-- One round of `do value = inb(port); while (test(value) is silent);`. -/
def readThenTest (bus : Bus σ) (port : UInt16) (test : UInt8 → Option β) (_ : Unit) :
    Io σ (Unit ⊕ β) := do
  let value ← inb bus port
  match test value with
  | some b => pure (.inr b)
  | none => pure (.inl ())

/-! ### What a run returns -/

/-- From `w` the program returns `a` in the world `w'`. -/
def Returns (x : Io σ α) (w : World σ) (a : α) (w' : World σ) : Prop := x w = (some a, w')

variable {x : Io σ α} {f : α → Io σ β} {w w' w'' : World σ} {a a' : α} {b : β}
  {bus : Bus σ} {port : UInt16}

theorem Returns.deterministic (first : Returns x w a w') (second : Returns x w a' w'') :
    a = a' ∧ w' = w'' := by
  have same := first.symm.trans second
  simpa using same

@[simp] theorem returns_pure : Returns (pure a : Io σ α) w a' w' ↔ a = a' ∧ w = w' := by
  simp [Returns, pure]

@[simp] theorem returns_stuck : ¬ Returns (stuck : Io σ α) w a w' := by
  simp [Returns, stuck]

/-- A sequence returns exactly when its parts do, one after the other. -/
theorem returns_bind :
    Returns (x >>= f) w b w'' ↔ ∃ a w', Returns x w a w' ∧ Returns (f a) w' b w'' := by
  simp only [Returns, bind]
  rcases x w with ⟨_ | a, w'⟩
  · simp
  · simp

theorem Returns.bind (first : Returns x w a w') (second : Returns (f a) w' b w'') :
    Returns (x >>= f) w b w'' :=
  returns_bind.mpr ⟨a, w', first, second⟩

/-- After a part that is known to return, the rest decides. -/
theorem Returns.bind_iff (first : Returns x w a w') :
    Returns (x >>= f) w b w'' ↔ Returns (f a) w' b w'' := by
  constructor
  · intro run
    obtain ⟨a', v, first', rest⟩ := returns_bind.mp run
    obtain ⟨rfl, rfl⟩ := first.deterministic first'
    exact rest
  · exact first.bind

/-- A sequence goes on from where its first part returned. -/
theorem Returns.bind_eq (first : Returns x w a w') : (x >>= f) w = f a w' := by
  simp only [Bind.bind]
  rw [show x w = (some a, w') from first]

theorem bind_stuck (first : x w = (none, w')) : (x >>= f) w = (none, w') := by
  simp only [Bind.bind]
  rw [first]

/-- From `w` the program comes back. -/
def Halts (x : Io σ α) (w : World σ) : Prop := ∃ a w', Returns x w a w'

theorem Returns.halts (run : Returns x w a w') : Halts x w := ⟨a, w', run⟩

theorem Returns.halts_bind (first : Returns x w a w') (rest : Halts (f a) w') :
    Halts (x >>= f) w := by
  obtain ⟨b, w'', second⟩ := rest
  exact ⟨b, w'', first.bind second⟩

@[simp] theorem returns_inb {value : UInt8} : Returns (inb bus port) w value w' ↔
    (bus.inb port w.device).1 = value ∧
      w' = ⟨(bus.inb port w.device).2, .inb port (bus.inb port w.device).1 :: w.trace,
        w.memory⟩ := by
  simp only [Returns, inb, Prod.mk.injEq, Option.some.injEq, eq_comm]

@[simp] theorem returns_inw {value : UInt16} : Returns (inw bus port) w value w' ↔
    (bus.inw port w.device).1 = value ∧
      w' = ⟨(bus.inw port w.device).2, .inw port (bus.inw port w.device).1 :: w.trace,
        w.memory⟩ := by
  simp only [Returns, inw, Prod.mk.injEq, Option.some.injEq, eq_comm]

@[simp] theorem returns_outb {value : UInt8} : Returns (outb bus port value) w () w' ↔
    w' = ⟨bus.outb port value w.device, .outb port value :: w.trace, w.memory⟩ := by
  simp [Returns, outb, eq_comm]

@[simp] theorem returns_outw {value : UInt16} : Returns (outw bus port value) w () w' ↔
      w' = ⟨bus.outw port value w.device, .outw port value :: w.trace, w.memory⟩ := by
  simp [Returns, outw, eq_comm]

@[simp] theorem returns_peek {a n v : Nat} : Returns (peek a n) w v w' ↔
    load w.memory a n = v ∧ w = w' := by
  simp [Returns, peek]

@[simp] theorem returns_poke {a n v : Nat} : Returns (poke a n v) w () w' ↔
    w' = ⟨w.device, w.trace, store w.memory a n v⟩ := by
  simp [Returns, poke, eq_comm]

/-- The world after one byte was written to `port`. -/
def World.put (bus : Bus σ) (port : UInt16) (value : UInt8) (w : World σ) : World σ :=
  ⟨bus.outb port value w.device, .outb port value :: w.trace, w.memory⟩

theorem returns_put (bus : Bus σ) (port : UInt16) (value : UInt8) (w : World σ) :
    Returns (outb bus port value) w () (w.put bus port value) :=
  returns_outb.mpr rfl

/-! ### Loops -/

variable {n : Nat} {body : Nat → Io σ Unit} {attempt : Nat → Io σ (Option α)}
  {round : α → Io σ (α ⊕ β)} {fuel : Nat}

theorem returns_times_succ : Returns (times (n + 1) body) w () w'' ↔
    ∃ w', Returns (times n body) w () w' ∧ Returns (body n) w' () w'' := by
  simp only [times, returns_bind]
  exact ⟨fun ⟨_, w', before, last⟩ => ⟨w', before, last⟩,
    fun ⟨w', before, last⟩ => ⟨(), w', before, last⟩⟩

/-- A counted loop that goes through returns what its last round leaves. -/
theorem returns_times (I : Nat → World σ → Prop) (start : I 0 w)
    (step : ∀ i < n, ∀ v, I i v → ∃ v', Returns (body i) v () v' ∧ I (i + 1) v') :
    ∃ w', Returns (times n body) w () w' ∧ I n w' := by
  induction n with
  | zero => exact ⟨w, by simp [times], start⟩
  | succ n ih =>
    obtain ⟨w', before, holds⟩ := ih fun i hi => step i (by omega)
    obtain ⟨w'', last, holds'⟩ := step n (by omega) w' holds
    exact ⟨w'', returns_times_succ.mpr ⟨w', before, last⟩, holds'⟩

/-- The same for a loop that carries a value. -/
theorem returns_timesCarry {carry : Nat → α → Io σ α} (I : Nat → α → World σ → Prop)
    (start : I 0 a w) (step : ∀ i < n, ∀ b v, I i b v →
      ∃ b' v', Returns (carry i b) v b' v' ∧ I (i + 1) b' v') :
    ∃ b w', Returns (timesCarry n carry a) w b w' ∧ I n b w' := by
  induction n with
  | zero => exact ⟨a, w, returns_pure.mpr ⟨rfl, rfl⟩, start⟩
  | succ n ih =>
    obtain ⟨b, v, before, holds⟩ := ih fun i low => step i (by omega)
    obtain ⟨b', v', last, holds'⟩ := step n (by omega) b v holds
    exact ⟨b', v', before.bind last, holds'⟩

theorem returns_timesReturn_none : Returns (timesReturn (n + 1) attempt) w none w'' ↔
    ∃ w', Returns (timesReturn n attempt) w none w' ∧ Returns (attempt n) w' none w'' := by
  constructor
  · intro run
    obtain ⟨r, w', before, last⟩ := returns_bind.mp run
    cases r with
    | none => exact ⟨w', before, last⟩
    | some a => simp at last
  · rintro ⟨w', before, last⟩
    exact before.bind last

theorem returns_timesReturn_some : Returns (timesReturn (n + 1) attempt) w (some a) w'' ↔
    Returns (timesReturn n attempt) w (some a) w'' ∨
      ∃ w', Returns (timesReturn n attempt) w none w' ∧
        Returns (attempt n) w' (some a) w'' := by
  constructor
  · intro run
    obtain ⟨r, w', before, last⟩ := returns_bind.mp run
    cases r with
    | none => exact .inr ⟨w', before, last⟩
    | some a' =>
      simp only [returns_pure, Option.some.injEq] at last
      obtain ⟨rfl, rfl⟩ := last
      exact .inl before
  · rintro (before | ⟨w', before, last⟩)
    · exact before.bind (by simp)
    · exact before.bind last

theorem returns_loop_succ : Returns (loop (fuel + 1) round a) w b w'' ↔
    ∃ w', (∃ a', Returns (round a) w (.inl a') w' ∧ Returns (loop fuel round a') w' b w'') ∨
      (Returns (round a) w (.inr b) w' ∧ w' = w'') := by
  constructor
  · intro run
    obtain ⟨next | result, w', first, rest⟩ := returns_bind.mp run
    · exact ⟨w', .inl ⟨next, first, rest⟩⟩
    · simp only [returns_pure] at rest
      obtain ⟨rfl, rfl⟩ := rest
      exact ⟨w', .inr ⟨first, rfl⟩⟩
  · rintro ⟨w', ⟨a', first, rest⟩ | ⟨first, rfl⟩⟩
    · exact first.bind rest
    · exact first.bind (by simp)

/-! ### Reading one port again and again -/

/-- The world after one byte was read from `port`. -/
def World.readOnce (bus : Bus σ) (port : UInt16) (w : World σ) : World σ :=
  ⟨(bus.inb port w.device).2, .inb port (bus.inb port w.device).1 :: w.trace, w.memory⟩

/-- The world after `n` reads of `port` and nothing else. -/
def afterReads (bus : Bus σ) (port : UInt16) (n : Nat) (w : World σ) : World σ :=
  (World.readOnce bus port)^[n] w

/-- The answer to the `n`-th of a row of reads of `port` that starts in `w`. -/
def answer (bus : Bus σ) (port : UInt16) (w : World σ) (n : Nat) : UInt8 :=
  (bus.inb port (afterReads bus port n w).device).1

theorem returns_inb_now (bus : Bus σ) (port : UInt16) (w : World σ) :
    Returns (inb bus port) w (answer bus port w 0) (w.readOnce bus port) :=
  returns_inb.mpr ⟨rfl, rfl⟩

theorem afterReads_succ (bus : Bus σ) (port : UInt16) (n : Nat) (w : World σ) :
    afterReads bus port (n + 1) w = (afterReads bus port n w).readOnce bus port :=
  Function.iterate_succ_apply' _ _ _

@[simp] theorem afterReads_memory (bus : Bus σ) (port : UInt16) (n : Nat) (w : World σ) :
    (afterReads bus port n w).memory = w.memory := by
  induction n with
  | zero => rfl
  | succ n ih => rw [afterReads_succ, World.readOnce, ih]

theorem returns_inb_afterReads {value : UInt8} :
    Returns (inb bus port) (afterReads bus port n w) value w' ↔
      answer bus port w n = value ∧ w' = afterReads bus port (n + 1) w := by
  rw [returns_inb, afterReads_succ]
  rfl

/-- A fixed number of reads whose values nobody looks at. -/
theorem returns_times_inb (bus : Bus σ) (port : UInt16) (n : Nat) (w : World σ) :
    Returns (times n fun _ => do let _ ← inb bus port) w () (afterReads bus port n w) := by
  induction n with
  | zero => simp [times, afterReads]
  | succ n ih =>
    refine returns_times_succ.mpr ⟨_, ih, ?_⟩
    exact returns_bind.mpr ⟨_, _, returns_inb_afterReads.mpr ⟨rfl, rfl⟩, returns_pure.mpr ⟨rfl, rfl⟩⟩

/-- A search from `k` on that is over at once. -/
theorem found_here {f : Nat → Option β} {p : Nat → Prop} {k : Nat} {b' : β} (spoken : f k = some b') :
    (∃ n, k ≤ n ∧ n < k + (fuel + 1) ∧ (∀ i, k ≤ i → i < n → f i = none) ∧ f n = some b ∧ p n) ↔
      b' = b ∧ p k := by
  constructor
  · rintro ⟨n, low, -, silent, found, last⟩
    obtain rfl : n = k := by
      by_contra other
      simp [silent k le_rfl (by omega)] at spoken
    rw [found] at spoken
    exact ⟨(Option.some.inj spoken).symm, last⟩
  · rintro ⟨rfl, last⟩
    exact ⟨k, le_rfl, by omega, fun i low high => absurd low (by omega), spoken, last⟩

/-- A search from `k` on that finds nothing there is one from `k + 1` on. -/
theorem found_later {f : Nat → Option β} {p : Nat → Prop} {k : Nat} (spoken : f k = none) :
    (∃ n, k ≤ n ∧ n < k + (fuel + 1) ∧ (∀ i, k ≤ i → i < n → f i = none) ∧ f n = some b ∧ p n) ↔
      ∃ n, k + 1 ≤ n ∧ n < k + 1 + fuel ∧ (∀ i, k + 1 ≤ i → i < n → f i = none) ∧ f n = some b ∧ p n := by
  constructor
  · rintro ⟨n, low, high, silent, found, last⟩
    have later : n ≠ k := by
      rintro rfl
      simp [found] at spoken
    exact ⟨n, by omega, by omega, fun i from_ below => silent i (by omega) below, found, last⟩
  · rintro ⟨n, low, high, silent, found, last⟩
    refine ⟨n, by omega, by omega, fun i from_ below => ?_, found, last⟩
    by_cases here : i = k
    · exact here ▸ spoken
    · exact silent i (by omega) below

/-- A loop that goes through the places in order is left at the first one that `f` speaks about. -/
theorem returns_scan (f : Nat → Option β) (start : Nat → α) (world : Nat → World σ) {left : Nat → World σ} {k : Nat}
    (speaks : ∀ i b, f i = some b → ∀ r v, Returns (round (start i)) (world i) r v ↔ .inr b = r ∧ left i = v)
    (silent : ∀ i, f i = none → ∀ r v,
      Returns (round (start i)) (world i) r v ↔ .inl (start (i + 1)) = r ∧ world (i + 1) = v) :
    Returns (loop fuel round (start k)) (world k) b w' ↔
      ∃ n, k ≤ n ∧ n < k + fuel ∧ (∀ i, k ≤ i → i < n → f i = none) ∧ f n = some b ∧ w' = left n := by
  induction fuel generalizing k with
  | zero =>
    simp only [loop, returns_stuck, false_iff]
    rintro ⟨n, low, high, -⟩
    omega
  | succ fuel ih =>
    rw [returns_loop_succ]
    cases spoken : f k with
    | some b' =>
      rw [found_here (p := fun n => w' = left n) spoken]
      simp only [speaks k b' spoken, reduceCtorEq, false_and, exists_false, Sum.inr.injEq, false_or]
      constructor
      · rintro ⟨v, ⟨rfl, rfl⟩, rfl⟩
        exact ⟨rfl, rfl⟩
      · rintro ⟨rfl, rfl⟩
        exact ⟨_, ⟨rfl, rfl⟩, rfl⟩
    | none =>
      rw [found_later (p := fun n => w' = left n) spoken, ← ih]
      simp only [silent k spoken, Sum.inl.injEq, reduceCtorEq, false_and, or_false]
      constructor
      · rintro ⟨v, a', ⟨rfl, rfl⟩, rest⟩
        exact rest
      · intro rest
        exact ⟨_, _, ⟨rfl, rfl⟩, rest⟩

/-- The scan of the answers from the `k`-th on is left at the first one `test` speaks about. -/
theorem returns_testThenRead {test : UInt8 → Option β} {k : Nat} :
    Returns (loop fuel (testThenRead bus port test) (answer bus port w k))
        (afterReads bus port (k + 1) w) b w' ↔
      ∃ n, k ≤ n ∧ n < k + fuel ∧ (∀ i, k ≤ i → i < n → test (answer bus port w i) = none) ∧
        test (answer bus port w n) = some b ∧ w' = afterReads bus port (n + 1) w := by
  refine returns_scan (fun i => test (answer bus port w i)) (answer bus port w) (fun i => afterReads bus port (i + 1) w)
    (fun i b spoken r v => ?_) fun i spoken r v => ?_
  · simp only [testThenRead, spoken, returns_pure]
  · simp only [testThenRead, spoken, returns_bind, returns_inb_afterReads, returns_pure]
    constructor
    · rintro ⟨value, v', ⟨rfl, rfl⟩, rfl, rfl⟩
      exact ⟨rfl, rfl⟩
    · rintro ⟨rfl, rfl⟩
      exact ⟨_, _, ⟨rfl, rfl⟩, rfl, rfl⟩

/-- The same for a loop that reads before it tests. -/
theorem returns_readThenTest {test : UInt8 → Option β} {k : Nat} :
    Returns (loop fuel (readThenTest bus port test) ()) (afterReads bus port k w) b w' ↔
      ∃ n, k ≤ n ∧ n < k + fuel ∧ (∀ i, k ≤ i → i < n → test (answer bus port w i) = none) ∧
        test (answer bus port w n) = some b ∧ w' = afterReads bus port (n + 1) w := by
  refine returns_scan (fun i => test (answer bus port w i)) (fun _ => ()) (fun i => afterReads bus port i w)
    (fun i b spoken r v => ?_) fun i spoken r v => ?_
  all_goals
    simp only [readThenTest, returns_bind, returns_inb_afterReads]
    constructor
    · rintro ⟨value, v', ⟨rfl, rfl⟩, rest⟩
      simp only [spoken, returns_pure] at rest
      exact rest
    · rintro ⟨rfl, rfl⟩
      refine ⟨_, _, ⟨rfl, rfl⟩, ?_⟩
      simp only [spoken, returns_pure, true_and]

/-! ### Reading words into memory -/

/-- The device after `n` words were read from `port` and nothing else was done, and the record of
it; the memory is as it was. -/
def afterWords (bus : Bus σ) (port : UInt16) (n : Nat) (w : World σ) : World σ :=
  (fun v => ⟨(bus.inw port v.device).2, .inw port (bus.inw port v.device).1 :: v.trace,
    v.memory⟩)^[n] w

/-- The `n`-th word of a row of reads of `port` that starts in `w`. -/
def wordAt (bus : Bus σ) (port : UInt16) (w : World σ) (n : Nat) : UInt16 :=
  (bus.inw port (afterWords bus port n w).device).1

theorem afterWords_succ (bus : Bus σ) (port : UInt16) (n : Nat) (w : World σ) :
    afterWords bus port (n + 1) w =
      ⟨(bus.inw port (afterWords bus port n w).device).2,
        .inw port (wordAt bus port w n) :: (afterWords bus port n w).trace,
        (afterWords bus port n w).memory⟩ :=
  Function.iterate_succ_apply' _ _ _

/-- The words of a counted loop of reads lie one after the other from `a` on. -/
theorem returns_times_words (bus : Bus σ) (port : UInt16) (a n : Nat) (w : World σ) :
    Returns (times n fun i => do
        let word ← inw bus port
        poke (a + i * 2) 2 word.toNat) w ()
      { afterWords bus port n w with memory := storeWords w.memory a (wordAt bus port w) n } := by
  induction n with
  | zero => simp [times, afterWords, storeWords]
  | succ n ih =>
    refine returns_times_succ.mpr ⟨_, ih, ?_⟩
    refine Returns.bind (returns_inw.mpr ⟨rfl, rfl⟩) (returns_poke.mpr ?_)
    rw [afterWords_succ, storeWords, Nat.mul_comm n 2]
    rfl

/-! ### Enough fuel -/

/-- With enough fuel the program returns `a` in `w'`, however much more it is given. -/
def Finishes (x : Nat → Io σ α) (w : World σ) (a : α) (w' : World σ) : Prop :=
  ∃ enough, ∀ fuel ≥ enough, Returns (x fuel) w a w'

/-- More fuel never changes a result that was reached. -/
def FuelSteady (x : Nat → Io σ α) : Prop :=
  ∀ fuel more w a w', fuel ≤ more → Returns (x fuel) w a w' → Returns (x more) w a w'

variable {p : Nat → Io σ α} {q : Nat → α → Io σ β}

theorem Returns.finishes (run : Returns x w a w') : Finishes (fun _ => x) w a w' :=
  ⟨0, fun _ _ => run⟩

theorem Finishes.bind (first : Finishes p w a w') (second : Finishes (fun n => q n a) w' b w'') :
    Finishes (fun n => p n >>= q n) w b w'' := by
  obtain ⟨enough, before⟩ := first
  obtain ⟨more, after⟩ := second
  exact ⟨max enough more, fun fuel le =>
    (before fuel (by omega)).bind (after fuel (by omega))⟩

theorem Finishes.deterministic (first : Finishes p w a w') (second : Finishes p w a' w'') :
    a = a' ∧ w' = w'' := by
  obtain ⟨enough, run⟩ := first
  obtain ⟨more, run'⟩ := second
  exact (run (max enough more) (by omega)).deterministic (run' (max enough more) (by omega))

theorem FuelSteady.finishes (steady : FuelSteady p) (run : Returns (p fuel) w a w') :
    Finishes p w a w' :=
  ⟨fuel, fun more le => steady fuel more w a w' le run⟩

/-- A run at any one bound agrees with the result that enough fuel gives. -/
theorem Finishes.agrees (done : Finishes p w a w') (steady : FuelSteady p)
    (run : Returns (p fuel) w a' w'') : a' = a ∧ w'' = w' :=
  (steady.finishes run).deterministic done

theorem fuelSteady_const (x : Io σ α) : FuelSteady fun _ => x :=
  fun _ _ _ _ _ _ run => run

theorem FuelSteady.bind (first : FuelSteady p) (second : ∀ a, FuelSteady fun n => q n a) :
    FuelSteady fun n => p n >>= q n := by
  intro fuel more w b w'' le run
  obtain ⟨a, w', before, after⟩ := returns_bind.mp run
  exact (first fuel more w a w' le before).bind (second a fuel more w' b w'' le after)

theorem fuelSteady_timesReturn {attempts : Nat → Nat → Io σ (Option α)}
    (steady : ∀ i, FuelSteady fun m => attempts m i) (n : Nat) :
    FuelSteady fun m => timesReturn n (attempts m) := by
  induction n with
  | zero => exact fuelSteady_const _
  | succ n ih =>
    refine ih.bind fun r => ?_
    cases r with
    | none => exact steady n
    | some a => exact fuelSteady_const _

theorem Finishes.timesReturn_none {attempts : Nat → Nat → Io σ (Option α)}
    (before : Finishes (fun m => timesReturn n (attempts m)) w none w')
    (last : Finishes (fun m => attempts m n) w' none w'') :
    Finishes (fun m => timesReturn (n + 1) (attempts m)) w none w'' :=
  before.bind last

/-- The round that returns from the surrounding routine is the last one made. -/
theorem Finishes.timesReturn_some {attempts : Nat → Nat → Io σ (Option α)} {k : Nat}
    (before : Finishes (fun m => timesReturn k (attempts m)) w none w')
    (last : Finishes (fun m => attempts m k) w' (some a) w'') (more : k < n) :
    Finishes (fun m => timesReturn n (attempts m)) w (some a) w'' := by
  induction n with
  | zero => omega
  | succ n ih =>
    by_cases here : k = n
    · subst here
      exact before.bind last
    · exact (ih (by omega)).bind ⟨0, fun _ _ => returns_pure.mpr ⟨rfl, rfl⟩⟩

/-- A round that never comes back keeps every longer loop from returning. -/
theorem Finishes.timesReturn_never {attempts : Nat → Nat → Io σ (Option α)} {k : Nat}
    (before : Finishes (fun m => PortIo.timesReturn k (attempts m)) w none w')
    (steady : ∀ i, FuelSteady fun m => attempts m i)
    (never : ∀ m r v, ¬ Returns (attempts m k) w' r v) (more : k < n) (m : Nat) (r : Option α)
    (v : World σ) : ¬ Returns (PortIo.timesReturn n (attempts m)) w r v := by
  induction n generalizing r v with
  | zero => omega
  | succ n ih =>
    intro run
    obtain ⟨r', v', first, last⟩ := returns_bind.mp run
    by_cases here : k = n
    · subst here
      obtain ⟨rfl, rfl⟩ := before.agrees (fuelSteady_timesReturn steady k) first
      exact never m r v last
    · exact ih (by omega) r' v' first

theorem fuelSteady_loop (round : α → Io σ (α ⊕ β)) (a : α) :
    FuelSteady fun n => loop n round a := by
  intro fuel
  induction fuel generalizing a with
  | zero =>
    intro more w b w' le run
    simp [loop] at run
  | succ fuel ih =>
    intro more w b w' le run
    obtain ⟨more, rfl⟩ : ∃ m, more = m + 1 := ⟨more - 1, by omega⟩
    obtain ⟨v, ⟨a', first, rest⟩ | ⟨first, last⟩⟩ := returns_loop_succ.mp run
    · exact returns_loop_succ.mpr ⟨v, .inl ⟨a', first, ih a' more v b w' (by omega) rest⟩⟩
    · exact returns_loop_succ.mpr ⟨v, .inr ⟨first, last⟩⟩

/-! ### What every run keeps of the record -/

/-- Whatever the program does, also when it gets stuck, the record of accesses keeps `T`. -/
def Keeps (T : List Access → Prop) (x : Io σ α) : Prop := ∀ w, T w.trace → T (x w).2.trace

variable {T : List Access → Prop}

theorem keeps_pure (a : α) : Keeps T (pure a : Io σ α) := fun _ holds => holds

theorem keeps_stuck : Keeps T (stuck : Io σ α) := fun _ holds => holds

theorem Keeps.bind (first : Keeps T x) (second : ∀ a, Keeps T (f a)) : Keeps T (x >>= f) := by
  intro w holds
  have before := first w holds
  simp only [Bind.bind]
  generalize x w = result at before ⊢
  obtain ⟨_ | a, w'⟩ := result
  · exact before
  · exact second a w' before

theorem keeps_inb (step : ∀ v t, T t → T (.inb port v :: t)) : Keeps T (inb bus port) :=
  fun w holds => step (bus.inb port w.device).1 w.trace holds

theorem keeps_inw (step : ∀ v t, T t → T (.inw port v :: t)) : Keeps T (inw bus port) :=
  fun w holds => step (bus.inw port w.device).1 w.trace holds

theorem keeps_outb {value : UInt8} (step : ∀ t, T t → T (.outb port value :: t)) :
    Keeps T (outb bus port value) :=
  fun w holds => step w.trace holds

theorem keeps_outw {value : UInt16} (step : ∀ t, T t → T (.outw port value :: t)) :
    Keeps T (outw bus port value) :=
  fun w holds => step w.trace holds

theorem keeps_peek (a n : Nat) : Keeps T (peek a n : Io σ Nat) := fun _ holds => holds

theorem keeps_poke (a n v : Nat) : Keeps T (poke a n v : Io σ Unit) := fun _ holds => holds

theorem Keeps.times (step : ∀ i, Keeps T (body i)) (n : Nat) : Keeps T (PortIo.times n body) := by
  induction n with
  | zero => exact keeps_pure ()
  | succ n ih => exact ih.bind fun _ => step n

theorem Keeps.timesReturn (step : ∀ i, Keeps T (attempt i)) (n : Nat) :
    Keeps T (PortIo.timesReturn n attempt) := by
  induction n with
  | zero => exact keeps_pure none
  | succ n ih =>
    refine ih.bind fun r => ?_
    cases r with
    | none => exact step n
    | some a => exact keeps_pure (some a)

theorem Keeps.loop (step : ∀ a, Keeps T (round a)) (fuel : Nat) (a : α) :
    Keeps T (PortIo.loop fuel round a) := by
  induction fuel generalizing a with
  | zero => exact keeps_stuck
  | succ fuel ih =>
    refine (step a).bind fun r => ?_
    cases r with
    | inl a' => exact ih a'
    | inr b => exact keeps_pure b

theorem keeps_testThenRead {test : UInt8 → Option β} (step : ∀ v t, T t → T (.inb port v :: t))
    (value : UInt8) : Keeps T (testThenRead bus port test value) := by
  unfold testThenRead
  split
  · exact keeps_pure _
  · exact (keeps_inb step).bind fun _ => keeps_pure _

theorem keeps_readThenTest {test : UInt8 → Option β} (step : ∀ v t, T t → T (.inb port v :: t)) :
    Keeps T (readThenTest bus port test ()) := by
  refine (keeps_inb step).bind fun v => ?_
  split <;> exact keeps_pure _

theorem Keeps.returns (keeps : Keeps T x) (run : Returns x w a w') (holds : T w.trace) :
    T w'.trace := by
  have kept := keeps w holds
  rwa [run] at kept

/-- A longer loop ends where a shorter one did, or where one more round does. -/
theorem world_timesReturn (n : Nat) (attempt : Nat → Io σ (Option α)) (w : World σ) :
    (timesReturn (n + 1) attempt w).2 = (timesReturn n attempt w).2 ∨
      ∃ v, Returns (timesReturn n attempt) w none v ∧
        (timesReturn (n + 1) attempt w).2 = (attempt n v).2 := by
  simp only [timesReturn, Bind.bind, Returns]
  rcases timesReturn n attempt w with ⟨_ | _ | a, v⟩
  · exact .inl rfl
  · exact .inr ⟨v, rfl, rfl⟩
  · exact .inl rfl

/-! ### A device that answers from a script -/

/-- Every byte read takes the next value of the script, and zero once it is used up; words read
as zero, and writes change nothing. -/
def scriptBus : Bus (List UInt8) where
  inb _ script := (script.headD 0, script.tail)
  inw _ script := (0, script)
  outb _ _ script := script
  outw _ _ script := script

def scripted (script : List UInt8) : World (List UInt8) := ⟨script, [], fun _ => 0⟩

theorem device_script (port : UInt16) (n : Nat) (w : World (List UInt8)) :
    (afterReads scriptBus port n w).device = w.device.drop n := by
  induction n with
  | zero => rfl
  | succ n ih =>
    rw [afterReads_succ, World.readOnce, ih]
    simp [scriptBus]

theorem answer_script (port : UInt16) (w : World (List UInt8)) (n : Nat) :
    answer scriptBus port w n = w.device.getD n 0 := by
  rw [answer, device_script]
  simp [scriptBus, List.head?_drop]

end PortIo
