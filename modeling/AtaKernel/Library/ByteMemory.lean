import Mathlib

/-! A flat byte memory with a 32-bit address space. Addresses are natural
numbers that wrap at `2 ^ 32`, multi-byte values are little-endian, and every
statement about an access is about the bytes it names and nothing else. -/
namespace ByteMemory

/-- One byte for each address; only the addresses below `2 ^ 32` are reachable. -/
abbrev Memory := Nat → UInt8

/-- The cell that address `a` names once it has wrapped. -/
def cell (a : Nat) : Nat := a % 2 ^ 32

def load8 (m : Memory) (a : Nat) : UInt8 := m (cell a)

def store8 (m : Memory) (a : Nat) (v : UInt8) : Memory := Function.update m (cell a) v

/-- The little-endian value of the `n` bytes from `a` on. -/
def load (m : Memory) (a : Nat) : Nat → Nat
  | 0 => 0
  | n + 1 => (load8 m a).toNat + 256 * load m (a + 1) n
termination_by structural n => n

/-- The memory after the `n` low bytes of `v` are stored from `a` on. -/
def store (m : Memory) (a : Nat) : Nat → Nat → Memory
  | 0, _ => m
  | n + 1, v => store8 (store m (a + 1) n (v / 256)) a (UInt8.ofNat v)
termination_by structural n => n

/-- The `n` bytes from `a` and the `k` bytes from `b` have no cell in common. -/
def Apart (a n b k : Nat) : Prop := ∀ i < n, ∀ j < k, cell (a + i) ≠ cell (b + j)

/-- The memory after the words `f 0, …, f (n - 1)` are stored one after the other from `a` on. -/
def storeWords (m : Memory) (a : Nat) (f : Nat → UInt16) : Nat → Memory
  | 0 => m
  | n + 1 => store (storeWords m a f n) (a + 2 * n) 2 (f n).toNat

variable {m m' : Memory} {a b n k v : Nat}

@[simp] theorem load8_store8_same (m : Memory) (a : Nat) (v : UInt8) :
    load8 (store8 m a v) a = v := by
  simp [load8, store8]

theorem load8_store8_apart (m : Memory) (v : UInt8) (apart : cell b ≠ cell a) :
    load8 (store8 m a v) b = load8 m b := by
  simp [load8, store8, Function.update_of_ne apart]

/-- A load depends on nothing but the bytes it covers. -/
theorem load_congr (same : ∀ i < n, load8 m (a + i) = load8 m' (a + i)) :
    load m a n = load m' a n := by
  induction n generalizing a with
  | zero => rfl
  | succ n ih =>
    have head := same 0 (by omega)
    have tail : ∀ i < n, load8 m (a + 1 + i) = load8 m' (a + 1 + i) := by
      intro i hi
      have := same (i + 1) (by omega)
      rwa [show a + (i + 1) = a + 1 + i by omega] at this
    simp only [Nat.add_zero] at head
    simp only [load, head, ih tail]

/-- A store changes only the cells it covers. -/
theorem store_outside (m : Memory) {x : Nat} (outside : ∀ i < n, x ≠ cell (a + i)) (v : Nat) :
    store m a n v x = m x := by
  induction n generalizing a v with
  | zero => rfl
  | succ n ih =>
    have head := outside 0 (by omega)
    have tail : ∀ i < n, x ≠ cell (a + 1 + i) := by
      intro i hi
      have := outside (i + 1) (by omega)
      rwa [show a + (i + 1) = a + 1 + i by omega] at this
    simp only [Nat.add_zero] at head
    simp only [store, store8, Function.update_of_ne head, ih tail]

theorem load8_store_apart (m : Memory) (v : Nat) (apart : Apart b 1 a n) :
    load8 (store m a n v) b = load8 m b :=
  store_outside m (fun i hi => by simpa using apart 0 (by omega) i hi) v

theorem load_store_apart (m : Memory) (v : Nat) (apart : Apart b k a n) :
    load (store m a n v) b k = load m b k :=
  load_congr fun i hi => load8_store_apart m v (fun i' hi' j hj => by
    simpa [show i' = 0 by omega] using apart i hi j hj)

/-- Reading back a stored value gives its low bytes. -/
theorem load_store_same (m : Memory) (a v : Nat) (fits : n ≤ 2 ^ 32) :
    load (store m a n v) a n = v % 256 ^ n := by
  induction n generalizing a v with
  | zero => simp [load, Nat.mod_one]
  | succ n ih =>
    have apart : Apart (a + 1) n a 1 := by
      intro i hi j hj
      unfold cell
      omega
    have rest : load (store8 (store m (a + 1) n (v / 256)) a (UInt8.ofNat v)) (a + 1) n =
        load (store m (a + 1) n (v / 256)) (a + 1) n :=
      load_congr fun i hi => load8_store8_apart _ _ (by simpa using apart i hi 0 (by omega))
    simp only [load, store, load8_store8_same, rest, ih (a + 1) (v / 256) (by omega)]
    rw [Nat.pow_succ', Nat.mod_mul]
    simp

theorem load_lt (m : Memory) (a n : Nat) : load m a n < 256 ^ n := by
  induction n generalizing a with
  | zero => simp [load]
  | succ n ih =>
    have head := (load8 m a).toNat_lt
    have tail := ih (a + 1)
    simp only [load, Nat.pow_succ']
    omega

/-- Words of one array are apart, however the array wraps. -/
theorem words_apart {i j : Nat} (different : i ≠ j) (left : i < 2 ^ 31) (right : j < 2 ^ 31) :
    Apart (a + 2 * i) 2 (a + 2 * j) 2 := by
  intro s hs t ht
  unfold cell
  omega

theorem load_storeWords (m : Memory) (a : Nat) (f : Nat → UInt16) {i : Nat} (within : i < n)
    (fits : n ≤ 2 ^ 31) : load (storeWords m a f n) (a + 2 * i) 2 = (f i).toNat := by
  induction n with
  | zero => omega
  | succ n ih =>
    rw [storeWords]
    by_cases last : i = n
    · subst last
      rw [load_store_same _ _ _ (by omega)]
      exact Nat.mod_eq_of_lt (f i).toNat_lt
    · rw [load_store_apart _ _ (words_apart last (by omega) (by omega)), ih (by omega) (by omega)]

/-- A row of words changes only the cells it covers. -/
theorem storeWords_outside (m : Memory) (f : Nat → UInt16) {x : Nat}
    (outside : ∀ i < 2 * n, x ≠ cell (a + i)) : storeWords m a f n x = m x := by
  induction n with
  | zero => rfl
  | succ n ih =>
    rw [storeWords, store_outside, ih fun i low => outside i (by omega)]
    intro i low
    rw [Nat.add_assoc]
    exact outside (2 * n + i) (by omega)

theorem storeWords_congr (m : Memory) (a : Nat) {f g : Nat → UInt16} (same : ∀ i < n, f i = g i) :
    storeWords m a f n = storeWords m a g n := by
  induction n with
  | zero => rfl
  | succ n ih =>
    rw [storeWords, storeWords, ih fun i low => same i (by omega), same n n.lt_succ_self]

/-- A word by its two bytes. -/
theorem load_two (m : Memory) (a : Nat) :
    load m a 2 = (load8 m a).toNat + 256 * (load8 m (a + 1)).toNat := by
  simp [load]

/-- A double word by its two words. -/
theorem load_four (m : Memory) (a : Nat) :
    load m a 4 = load m a 2 + 65536 * load m (a + 2) 2 := by
  simp only [load, Nat.add_assoc, Nat.reduceAdd]
  omega

/-- A quadword by its two double words. -/
theorem load_eight (m : Memory) (a : Nat) : load m a 8 = load m a 4 + 2 ^ 32 * load m (a + 4) 4 := by
  simp only [load, Nat.add_assoc, Nat.reduceAdd]
  omega

theorem low_byte (m : Memory) (a : Nat) : load8 m a = UInt8.ofNat (load m a 2) := by
  apply UInt8.toNat_inj.mp
  have bound := (load8 m a).toNat_lt
  rw [load_two, UInt8.toNat_ofNat']
  omega

theorem high_byte (m : Memory) (a : Nat) :
    load8 m (a + 1) = UInt8.ofNat (load m a 2 / 256) := by
  apply UInt8.toNat_inj.mp
  have low := (load8 m a).toNat_lt
  have high := (load8 m (a + 1)).toNat_lt
  rw [load_two, UInt8.toNat_ofNat']
  omega

theorem load_zero (zero_ : ∀ i < n, m (cell (a + i)) = 0) : load m a n = 0 := by
  induction n generalizing a with
  | zero => rfl
  | succ n ih =>
    have first : load8 m a = 0 := zero_ 0 n.succ_pos
    rw [load, first, ih fun i low => ?_]
    · rfl
    · rw [Nat.add_right_comm, Nat.add_assoc]
      exact zero_ (i + 1) (by omega)

theorem stored_word {v : UInt16} : UInt16.ofNat (load (store m a 2 v.toNat) a 2) = v := by
  rw [load_store_same _ _ _ (by decide), Nat.mod_eq_of_lt (show v.toNat < 256 ^ 2 from v.toNat_lt),
    UInt16.ofNat_toNat]

theorem stored_dword {v : UInt32} : UInt32.ofNat (load (store m a 4 v.toNat) a 4) = v := by
  rw [load_store_same _ _ _ (by decide), Nat.mod_eq_of_lt (show v.toNat < 256 ^ 4 from v.toNat_lt),
    UInt32.ofNat_toNat]

/-! ### Below the wrap -/

theorem cell_low (low : a < 2 ^ 32) : cell a = a := Nat.mod_eq_of_lt low

theorem load8_low (low : a < 2 ^ 32) : load8 m a = m a := by
  rw [load8, cell_low low]

/-- A store changes nothing below and nothing behind it. -/
theorem store_away {x : Nat} (fits : a + n ≤ 2 ^ 32) (away : x < a ∨ a + n ≤ x) : store m a n v x = m x := by
  refine store_outside m (fun i low => ?_) v
  rw [cell_low (by omega)]
  omega

end ByteMemory
