import AtaKernel.Library.ByteMemory

/-! A table of two-bit entries, packed four to a byte. Setting an entry changes
that entry and no other, although it rewrites the byte they share. -/
namespace PackedTable
open ByteMemory

/-! ### One byte -/

/-- Where the entry in place `slot` of a byte starts. -/
def shift (slot : Nat) : UInt8 := UInt8.ofNat (slot * 2)

def unpack (pack : UInt8) (slot : Nat) : UInt8 := pack >>> shift slot &&& 0x03

def repack (pack status : UInt8) (slot : Nat) : UInt8 :=
  (pack &&& ~~~((0x03 : UInt8) <<< shift slot)) ||| ((status &&& 0x03) <<< shift slot)

/-- The four entries of a byte do not disturb each other. -/
theorem unpack_repack {i j : Nat} (here : i < 4) (there : j < 4) (pack status : UInt8) :
    unpack (repack pack status i) j = if j = i then status &&& 0x03 else unpack pack j := by
  interval_cases i <;> interval_cases j <;>
    · apply UInt8.toBitVec_inj.mp
      simp only [unpack, repack, shift]
      simp
      ext k low
      interval_cases k <;> simp

/-! ### The table -/

def entry (m : Memory) (base i : Nat) : UInt8 := unpack (load8 m (base + i / 4)) (i % 4)

def setEntry (m : Memory) (base i : Nat) (status : UInt8) : Memory :=
  store8 m (base + i / 4) (repack (load8 m (base + i / 4)) status (i % 4))

variable {m m' : Memory} {base i j : Nat}

/-- An entry is a matter of its byte alone. -/
theorem entry_congr (same : load8 m (base + i / 4) = load8 m' (base + i / 4)) :
    entry m base i = entry m' base i := by
  rw [entry, entry, same]

theorem entry_setEntry (status : UInt8) (here : i < 2 ^ 32) (there : j < 2 ^ 32) :
    entry (setEntry m base i status) base j =
      if j = i then status &&& 0x03 else entry m base j := by
  by_cases together : j / 4 = i / 4
  · rw [entry, setEntry, together, load8_store8_same,
      unpack_repack (Nat.mod_lt i (by decide)) (Nat.mod_lt j (by decide))]
    have slots : j % 4 = i % 4 ↔ j = i := by omega
    simp only [slots, entry, together]
  · have apart : cell (base + j / 4) ≠ cell (base + i / 4) := by
      unfold cell
      omega
    rw [if_neg (by omega), entry, setEntry, load8_store8_apart _ _ apart, entry]

/-- A byte that is zero holds four zero entries. -/
theorem entry_of_zero (zero : load8 m (base + i / 4) = 0) : entry m base i = 0 := by
  rw [entry, zero]
  have slot := Nat.mod_lt i (show 0 < 4 by decide)
  generalize i % 4 = j at slot
  interval_cases j <;> decide

theorem setEntry_outside (status : UInt8) {x : Nat} (outside : x ≠ cell (base + i / 4)) :
    setEntry m base i status x = m x := by
  rw [setEntry, store8, Function.update_of_ne outside]

end PackedTable
