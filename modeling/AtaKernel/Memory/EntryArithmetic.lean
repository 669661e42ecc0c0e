import AtaKernel.Memory.Frames

/-! The entries of the bitmap as C computes them. The operators work on `int`: a byte
is promoted ahead of each one, the complement of a mask has all its high bits set, and
what is assigned back is cut to eight bits. Nothing is lost on the way, so that an entry
is a matter of two bits of one byte. -/
namespace AtaKernel.Memory
open ByteMemory

/-- A `u8` as an operand. -/
def promoted (v : UInt8) : Int32 := v.toUInt32.toInt32

/-- An `int` that is assigned to a `u8`. -/
def narrowed (v : Int32) : UInt8 := v.toUInt32.toUInt8

/-- `(frame % MEM_BITMAP_ENTRIES_PER_BYTE) * 2` -/
def entryShift (frame : UInt32) : UInt32 := frame % 4 * 2

/-- `mem_bitmap_set_entry`, with every operator at its own type. -/
def memBitmapSetEntryInt (m : Memory) (frame : UInt32) (status : UInt8) : Memory :=
  let status := narrowed (promoted status &&& 0x03)
  let pack := load8 m (memBitmapAddr + (frame / 4).toNat)
  let pack := narrowed (promoted pack &&& ~~~((0x03 : Int32) <<< (entryShift frame).toInt32))
  let pack := narrowed (promoted pack ||| promoted status <<< (entryShift frame).toInt32)
  store8 m (memBitmapAddr + (frame / 4).toNat) pack

/-- `mem_bitmap_get_entry`, likewise. -/
def memBitmapGetEntryInt (m : Memory) (frame : UInt32) : UInt8 :=
  let pack := load8 m (memBitmapAddr + (frame / 4).toNat)
  narrowed (promoted pack >>> (entryShift frame).toInt32 &&& 0x03)

variable {m : Memory} {frame : UInt32} {pack status : UInt8} {k : Nat}

/-! ## The operators -/

theorem narrowed_status : narrowed (promoted status &&& 0x03) = status &&& 0x03 := by
  apply UInt8.toBitVec_inj.mp
  simp [narrowed, promoted]

/-- The complement of a shifted mask clears the two bits and keeps the others. -/
theorem narrowed_clear (low : k < 4) : narrowed (promoted pack &&& ~~~((0x03 : Int32) <<< Int32.ofNat (k * 2))) =
    pack &&& ~~~((0x03 : UInt8) <<< UInt8.ofNat (k * 2)) := by
  interval_cases k <;>
  · apply UInt8.toBitVec_inj.mp
    simp [narrowed, promoted]

theorem narrowed_put (low : k < 4) : narrowed (promoted pack ||| promoted status <<< Int32.ofNat (k * 2)) =
    pack ||| status <<< UInt8.ofNat (k * 2) := by
  interval_cases k <;>
  · apply UInt8.toBitVec_inj.mp
    simp [narrowed, promoted]

/-- A byte is promoted to a number that is not negative, and its sign does not come in from above. -/
theorem narrowed_get (low : k < 4) : narrowed (promoted pack >>> Int32.ofNat (k * 2) &&& 0x03) =
    pack >>> UInt8.ofNat (k * 2) &&& 0x03 := by
  have positive : (BitVec.setWidth 32 pack.toBitVec).msb = false := by
    rw [BitVec.msb_setWidth]
    exact BitVec.getLsbD_of_ge _ _ (by decide)
  have shifted (n : Nat) : BitVec.setWidth 8 (BitVec.setWidth 32 pack.toBitVec >>> n) = pack.toBitVec >>> n := by
    have byte : pack.toBitVec.toNat < 2 ^ 32 := pack.toNat_lt.trans (by decide)
    have short : pack.toBitVec.toNat >>> n < 2 ^ 8 := (Nat.shiftRight_le _ _).trans_lt pack.toNat_lt
    apply BitVec.eq_of_toNat_eq
    rw [BitVec.toNat_setWidth, BitVec.toNat_ushiftRight, BitVec.toNat_ushiftRight, BitVec.toNat_setWidth,
      Nat.mod_eq_of_lt byte, Nat.mod_eq_of_lt short]
  interval_cases k <;>
  · apply UInt8.toBitVec_inj.mp
    simp [narrowed, promoted, BitVec.sshiftRight_eq_of_msb_false positive, shifted]

theorem entryShift_eq : (entryShift frame).toInt32 = Int32.ofNat (frame.toNat % 4 * 2) := by
  have few : frame.toNat % 4 < 4 := Nat.mod_lt _ (by decide)
  have same : entryShift frame = UInt32.ofNat (frame.toNat % 4 * 2) := by
    apply UInt32.toNat_inj.mp
    rw [entryShift, UInt32.toNat_mul, UInt32.toNat_mod, UInt32.toNat_ofNat']
    rfl
  rw [same]
  generalize frame.toNat % 4 = k at few
  interval_cases k <;> rfl

theorem entryPlace_eq : (frame / 4).toNat = frame.toNat / memBitmapEntriesPerByte := UInt32.toNat_div _ _

/-! ## The entries -/

theorem memBitmapSetEntryInt_eq : memBitmapSetEntryInt m frame status = memBitmapSetEntry m frame.toNat status := by
  have few : frame.toNat % 4 < 4 := Nat.mod_lt _ (by decide)
  unfold memBitmapSetEntryInt memBitmapSetEntry
  rw [entryShift_eq, entryPlace_eq, narrowed_status]
  dsimp only
  rw [narrowed_clear few, narrowed_put few]
  rfl

theorem memBitmapGetEntryInt_eq : memBitmapGetEntryInt m frame = memBitmapGetEntry m frame.toNat := by
  unfold memBitmapGetEntryInt memBitmapGetEntry
  rw [entryShift_eq, entryPlace_eq]
  exact narrowed_get (Nat.mod_lt _ (by decide))

/-- Setting an entry changes that entry and no other, and one byte of memory at most. -/
theorem entries_apart (m : Memory) (f g : UInt32) (s : UInt8) :
    memBitmapGetEntryInt (memBitmapSetEntryInt m g s) f = (if f = g then s &&& 3 else memBitmapGetEntryInt m f) ∧
      ∀ x, x ≠ memBitmapAddr + g.toNat / 4 → memBitmapSetEntryInt m g s x = m x := by
  simp only [memBitmapGetEntryInt_eq, memBitmapSetEntryInt_eq]
  constructor
  · rw [getEntry_setEntry s g.toNat_lt f.toNat_lt]
    exact if_congr UInt32.toNat_inj rfl rfl
  · exact fun x outside => setEntry_outside s g.toNat_lt outside

end AtaKernel.Memory
