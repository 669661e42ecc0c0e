import Mathlib

/-! A table of bits, packed eight to a byte of a buffer. Writing a bit changes
that bit and no other, and two tables of one size with the same bits are equal. -/
namespace BitTable

abbrev Table := Array UInt8

/-! ### One byte -/

def mask (n : Nat) : UInt8 := 1 <<< UInt8.ofNat (n % 8)

private theorem mask_eq (n : Nat) : mask n = ⟨BitVec.twoPow 8 (n % 8)⟩ := by
  have slot := Nat.mod_lt n (show 0 < 8 by decide)
  unfold mask
  generalize n % 8 = i at slot
  interval_cases i <;> rfl

/-- The bit that the mask selects. -/
theorem and_mask (b : UInt8) (n : Nat) : (b &&& mask n ≠ 0) ↔ b.toBitVec.getLsbD (n % 8) = true := by
  have slot := Nat.mod_lt n (show 0 < 8 by decide)
  have masked : (b &&& mask n).toBitVec = if b.toBitVec.getLsbD (n % 8) then BitVec.twoPow 8 (n % 8) else 0#8 := by
    rw [mask_eq, UInt8.toBitVec_and, BitVec.and_twoPow]
  have some_ : BitVec.twoPow 8 (n % 8) ≠ 0#8 := by
    generalize n % 8 = i at slot
    interval_cases i <;> decide
  rw [ne_eq, ← UInt8.toBitVec_inj, masked]
  cases b.toBitVec.getLsbD (n % 8) with
  | true => exact iff_of_true some_ rfl
  | false => exact iff_of_false (fun apart => apart rfl) Bool.false_ne_true

theorem or_mask (b : UInt8) {n k : Nat} :
    ((b ||| mask n) &&& mask k ≠ 0) ↔ k % 8 = n % 8 ∨ b &&& mask k ≠ 0 := by
  have slot := Nat.mod_lt n (show 0 < 8 by decide)
  rw [and_mask, and_mask, mask_eq, UInt8.toBitVec_or, BitVec.getLsbD_or, BitVec.getLsbD_twoPow]
  simp only [slot, decide_true, Bool.true_and, Bool.or_eq_true, decide_eq_true_eq, @eq_comm _ (n % 8)]
  exact or_comm

theorem and_not_mask (b : UInt8) {n k : Nat} :
    ((b &&& ~~~ mask n) &&& mask k ≠ 0) ↔ k % 8 ≠ n % 8 ∧ b &&& mask k ≠ 0 := by
  have slot := Nat.mod_lt n (show 0 < 8 by decide)
  have slot' := Nat.mod_lt k (show 0 < 8 by decide)
  rw [and_mask, and_mask, mask_eq, UInt8.toBitVec_and, UInt8.toBitVec_not, BitVec.getLsbD_and,
    BitVec.getLsbD_not, BitVec.getLsbD_twoPow]
  simp only [slot, slot', decide_true, Bool.true_and, Bool.and_eq_true, Bool.not_eq_true',
    decide_eq_false_iff_not, ne_eq, @eq_comm _ (n % 8)]
  exact and_comm

/-! ### The table -/

/-- Bit `n`; none beyond the buffer. -/
def bit (t : Table) (n : Nat) : Option Bool := t[n / 8]?.map fun b => decide (b &&& mask n ≠ 0)

def setBit (t : Table) (n : Nat) : Table := t.modify (n / 8) (· ||| mask n)

def unsetBit (t : Table) (n : Nat) : Table := t.modify (n / 8) (· &&& ~~~ mask n)

variable {s t : Table} {n k : Nat} {v : Bool}

theorem bit_isSome : (bit t n).isSome ↔ n / 8 < t.size := by
  simp [bit]

theorem bit_ofFn {m : Nat} (f : Fin m → UInt8) (within : n / 8 < m) :
    bit (Array.ofFn f) n = some (decide (f ⟨n / 8, within⟩ &&& mask n ≠ 0)) := by
  rw [bit, Array.getElem?_ofFn, dif_pos within, Option.map_some]

private theorem same_place (together : k / 8 = n / 8) : k % 8 = n % 8 ↔ k = n := by omega

/-- A byte in which one bit is written changes that bit of the table. -/
private theorem bit_modify {write : UInt8 → UInt8} {new : Bool} (within : bit t n = some v)
    (writes : ∀ b k, k / 8 = n / 8 → (write b &&& mask k ≠ 0 ↔ if k = n then new = true else b &&& mask k ≠ 0)) :
    bit (t.modify (n / 8) write) k = if k = n then some new else bit t k := by
  unfold bit
  rw [Array.getElem?_modify]
  by_cases together : n / 8 = k / 8
  · have here : k / 8 < t.size := together ▸ bit_isSome.mp (within ▸ rfl)
    rw [if_pos together, Array.getElem?_eq_getElem here, Option.map_some, Option.map_some, Option.map_some]
    simp only [writes _ k together.symm]
    by_cases same : k = n
    · simp only [if_pos same, Bool.decide_eq_true]
    · simp only [if_neg same]
  · rw [if_neg together, if_neg (by rintro rfl; exact together rfl)]

theorem bit_setBit (within : bit t n = some v) :
    bit (setBit t n) k = if k = n then some true else bit t k := by
  refine bit_modify within fun b k together => ?_
  rw [or_mask, same_place together]
  split
  · next same => exact iff_of_true (.inl same) rfl
  · next other => exact or_iff_right other

theorem bit_unsetBit (within : bit t n = some v) :
    bit (unsetBit t n) k = if k = n then some false else bit t k := by
  refine bit_modify within fun b k together => ?_
  rw [and_not_mask, ne_eq, same_place together]
  split
  · next same => exact iff_of_false (fun both => both.1 same) Bool.false_ne_true
  · next other => exact and_iff_right other

theorem size_setBit : (setBit t n).size = t.size := Array.size_modify

theorem size_unsetBit : (unsetBit t n).size = t.size := Array.size_modify

theorem size_setBits (ks : List Nat) : (ks.foldl setBit t).size = t.size := by
  induction ks generalizing t with
  | nil => rfl
  | cons k ks ih => rw [List.foldl_cons, ih, size_setBit]

/-- Several bits are set, one after the other. -/
theorem bit_setBits {ks : List Nat} (within : ∀ k ∈ ks, (bit t k).isSome) :
    bit (ks.foldl setBit t) n = if n ∈ ks then some true else bit t n := by
  induction ks generalizing t with
  | nil => rfl
  | cons k ks ih =>
    obtain ⟨v, here⟩ := Option.isSome_iff_exists.mp (within k List.mem_cons_self)
    have rest : ∀ l ∈ ks, (bit (setBit t k) l).isSome := by
      intro l inside
      rw [bit_isSome, size_setBit]
      exact bit_isSome.mp (within l (List.mem_cons_of_mem k inside))
    rw [List.foldl_cons, ih rest, bit_setBit here]
    by_cases later : n ∈ ks
    · rw [if_pos later, if_pos (List.mem_cons_of_mem k later)]
    · rw [if_neg later]
      by_cases first : n = k
      · rw [if_pos first, if_pos (first ▸ List.mem_cons_self)]
      · rw [if_neg first, if_neg fun inside => (List.mem_cons.mp inside).elim first later]

/-- A table is its size and its bits. -/
theorem table_ext (size : s.size = t.size) (bits : ∀ n, bit s n = bit t n) : s = t := by
  apply Array.ext size
  intro i left right
  apply UInt8.toBitVec_inj.mp
  apply BitVec.eq_of_getLsbD_eq
  intro j low
  have byte : (8 * i + j) / 8 = i := by omega
  have slot : (8 * i + j) % 8 = j := by omega
  have here := bits (8 * i + j)
  unfold bit at here
  rw [byte, Array.getElem?_eq_getElem left, Array.getElem?_eq_getElem right, Option.map_some, Option.map_some,
    Option.some_inj, decide_eq_decide, and_mask, and_mask, slot] at here
  exact Bool.eq_iff_iff.mpr here

end BitTable
