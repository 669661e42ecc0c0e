import AtaKernel.Boot.InstalledKernel
import AtaKernel.Minix.Reopening

/-! The master boot record's code (`mbr.asm`). It moves out of the way, and for one
entry of the partition table after the other it asks for the first sector of a
partition that is marked active. The first one that can be read gets control at
0x7c00, with the drive still in DL; where a read fails the code goes on to the
next entry, and behind the fourth it halts. -/
namespace AtaKernel.Boot
open ByteMemory StateProgram Minix

/-! ## The code -/

/-- Where the layout of the code puts its variables: behind one another, and in front of the table. -/
structure MbrLayout where
  dev : UInt16
  diskAddressPackedStructure : UInt16
  partNo : UInt16
  baseAddr : UInt16
  code : 0x500 ≤ dev.toNat
  first : dev.toNat < diskAddressPackedStructure.toNat
  second : diskAddressPackedStructure.toNat + 16 ≤ partNo.toNat
  third : partNo.toNat < baseAddr.toNat
  table : baseAddr.toNat + 2 ≤ 0x6be

/-- How the code comes to its end: it calls what it has loaded, or it halts. -/
inductive ChainEnding
  | chainLoads
  | halts
  deriving DecidableEq

abbrev MasterBoot (σ : Type) := EStateM ChainEnding (Machine σ)

section Code

variable {σ : Type} (int13 : Machine σ → Machine σ) (layout : MbrLayout) (back : Nat → UInt16)

/-- Up to the call of `main`. -/
def mbrRelocate (main : UInt16) (m : Machine σ) : Machine σ :=
  let m := { m with eax := setLow m.eax 0 }
  let m := { m with ds := m.eax.toUInt16 }
  let m := { m with es := m.eax.toUInt16 }
  let m := { m with ss := m.eax.toUInt16 }
  let m := copyBytes 0x7c00 0x0500 0x200 m
  let m := { m with bp := 0x8000 }
  let m := { m with sp := m.bp }
  { m with eax := setLow m.eax main }

/-- `inspect_std_mbr_init`, up to the test of the status. -/
def inspectStdMbrInit (m : Machine σ) : Machine σ :=
  let m := m.setByte m.ds layout.partNo m.eax.toUInt8
  let m := { m with ebx := setLow m.ebx 0 }
  let m := { m with ebx := setByteLow m.ebx 16 }
  let m := { m with eax := setLow m.eax (m.eax.toUInt8.toUInt16 * m.ebx.toUInt8.toUInt16) }
  let m := { m with eax := setLow m.eax (m.eax.toUInt16 + 0x0500) }
  let m := { m with eax := setLow m.eax (m.eax.toUInt16 + 0x01be) }
  let m := m.setWord m.ds layout.baseAddr m.eax.toUInt16
  let m := { m with ebx := setLow m.ebx (m.word m.ds layout.baseAddr) }
  let m := { m with eax := setLow m.eax 0 }
  let m := { m with eax := setByteLow m.eax (m.byte m.ds m.ebx.toUInt16) }
  { m with eax := setByteLow m.eax (m.eax.toUInt8 &&& 0x80) }

/-- The missing field of the packet, and the registers for INT 0x13. -/
def fillLowLba (m : Machine σ) : Machine σ :=
  let m := { m with eax := m.dword m.ds (m.ebx.toUInt16 + 8) }
  let m := m.setDword m.ds (layout.diskAddressPackedStructure + 8) m.eax
  let m := { m with si := layout.diskAddressPackedStructure }
  let m := { m with edx := setByteLow m.edx (m.byte m.ds layout.dev) }
  { m with eax := setByteHigh m.eax 0x42 }

/-- `inspect_std_mbr_entry`, which returns where it does not call what it has loaded. -/
def inspectStdMbrEntry : MasterBoot σ Unit := do
  modify (inspectStdMbrInit layout)
  if (← get).eax.toUInt8 = 0 then pure ()
  else do
    modify (fillLowLba layout)
    modify fun m => { int13 m with requests := m.dword m.ds (m.si + 8) :: m.requests }
    if (← get).carry then pure ()
    else do
      modify fun m => { m with eax := setLow m.eax 0x7c00 }
      modify fun m => m.push (back 5)
      throw .chainLoads

/-- `mov ax, n` and the call. -/
def callInspect (n : Nat) : MasterBoot σ Unit := do
  modify fun m => { m with eax := setLow m.eax (UInt16.ofNat n) }
  modify fun m => m.push (back (n + 1))
  inspectStdMbrEntry int13 layout back
  modify fun m => m.addSp 2

def mbrMain : MasterBoot σ Unit := do
  modify fun m => m.setByte m.ds layout.dev m.edx.toUInt8
  callInspect int13 layout back 0
  callInspect int13 layout back 1
  callInspect int13 layout back 2
  callInspect int13 layout back 3
  throw .halts

def masterBoot (main : UInt16) : MasterBoot σ Unit := do
  modify (mbrRelocate main)
  modify fun m => m.push (back 0)
  mbrMain int13 layout back

end Code

/-! ## INT 0x13 -/

/-- The machine asks for `count` sectors from `lba` on, to be put at `segment:offset`. -/
structure AsksSectors {σ : Type} (m : Machine σ) (drive : UInt8) (count segment offset : UInt16)
    (lba : UInt32) : Prop where
  ah : (m.eax >>> 8).toUInt8 = 0x42
  dl : m.edx.toUInt8 = drive
  size : load m.memory (linear m.ds m.si) 1 = 16
  count : m.word m.ds (m.si + 2) = count
  offset : m.word m.ds (m.si + 4) = offset
  segment : m.word m.ds (m.si + 6) = segment
  low : m.dword m.ds (m.si + 8) = lba
  high : m.dword m.ds (m.si + 12) = 0

/-- INT 0x13 on a drive of which some sectors may be unreadable. A read that fails may have changed the memory that it
was to fill, and no other. -/
structure ReadsDisk {σ : Type} (int13 : Machine σ → Machine σ) (drive : UInt8) (disk : Nat → UInt8)
    (readable : UInt32 → UInt16 → Prop) : Prop where
  kept : ∀ m count segment offset lba, AsksSectors m drive count segment offset lba → (int13 m).bp = m.bp ∧
    (int13 m).sp = m.sp ∧ (int13 m).ds = m.ds ∧ (int13 m).es = m.es ∧ (int13 m).ss = m.ss ∧ (int13 m).edx = m.edx
  carry : ∀ m count segment offset lba, AsksSectors m drive count segment offset lba →
    ((int13 m).carry = false ↔ readable lba count)
  there : ∀ m count segment offset lba, AsksSectors m drive count segment offset lba → (int13 m).carry = false →
    ∀ i < 512 * count.toNat, (int13 m).memory (linear segment offset + i) = disk (512 * lba.toNat + i)
  away : ∀ m count segment offset lba, AsksSectors m drive count segment offset lba →
    ∀ x, x < linear segment offset ∨ linear segment offset + 512 * count.toNat ≤ x → (int13 m).memory x = m.memory x

variable {σ : Type} {int13 int10 : Machine σ → Machine σ} {layout : MbrLayout} {drive : UInt8} {disk : Nat → UInt8}
  {readable : UInt32 → UInt16 → Prop} {m m' : Machine σ} {img : Image} {back : Nat → UInt16} {n : Nat}
  {t' t₀ t₁ : Tool} {root : Inode} {kernelStr : UInt16} {i : Nat} {ks : List Nat} {dir : Nat → Block} {sel : Fin 4}
  {input : InstallInput}

/-- What the loader of a partition asks for is such a request. -/
theorem ReadsDisk.loadsSectors (bios : ReadsDisk int13 drive disk readable) (all : ∀ lba, readable lba 2) :
    LoadsSectors int13 drive disk := by
  have asks {m : Machine σ} {segment offset : UInt16} {lba : UInt32} (asks : Asks13 m drive segment offset lba) :
      AsksSectors m drive 2 segment offset lba :=
    ⟨by rw [asks.ax]; rfl, asks.dl, asks.size, asks.count, asks.offset, asks.segment, asks.low, asks.high⟩
  refine ⟨fun m segment offset lba here => (bios.carry _ _ _ _ _ (asks here)).mpr (all lba),
    fun m segment offset lba here => ?_, fun m segment offset lba here x => ?_⟩
  · obtain ⟨bp, sp, ds, es, ss, -⟩ := bios.kept _ _ _ _ _ (asks here)
    exact ⟨bp, sp, ds, es, ss⟩
  · have read := (bios.carry _ _ _ _ _ (asks here)).mpr (all lba)
    split
    · next inside =>
      have byte := bios.there _ _ _ _ _ (asks here) read (x - linear segment offset) (by
        rw [show (2 : UInt16).toNat = 2 from rfl]
        omega)
      rwa [Nat.add_sub_cancel' inside.1] at byte
    · next outside =>
      exact bios.away _ _ _ _ _ (asks here) x (by
        rw [show (2 : UInt16).toNat = 2 from rfl]
        omega)

/-! ## The code at its new place -/

/-- The packet as it stands in the code, without the sector. -/
def packetByte (i : Nat) : UInt8 := [16, 0, 1, 0, 0, 0x7c, 0, 0].getD i 0

/-- The boot record has the packet where the layout says. -/
def HasPacket (layout : MbrLayout) (img : Image) : Prop :=
  ∀ i < 16, img.bytes (layout.diskAddressPackedStructure.toNat - 0x500 + i) = packetByte i

instance (layout : MbrLayout) (img : Image) : Decidable (HasPacket layout img) :=
  inferInstanceAs (Decidable (∀ i < 16, _ = _))

/-- The bytes that the code writes to, in front of the table. -/
def Scratch (layout : MbrLayout) (x : Nat) : Prop :=
  x = layout.dev.toNat ∨ x = layout.partNo.toNat ∨ (layout.baseAddr.toNat ≤ x ∧ x < layout.baseAddr.toNat + 2) ∨
    (layout.diskAddressPackedStructure.toNat + 8 ≤ x ∧ x < layout.diskAddressPackedStructure.toNat + 12)

/-- The boot record stands at 0x500, but for what the code writes to; the drive is in `dev`. -/
structure AtTable {σ : Type} (layout : MbrLayout) (drive : UInt8) (img : Image) (m : Machine σ) : Prop where
  ds : m.ds = 0
  es : m.es = 0
  ss : m.ss = 0
  dev : m.memory layout.dev.toNat = drive
  record : ∀ x < 510, ¬ Scratch layout (0x500 + x) → m.memory (0x500 + x) = img.bytes x

theorem AtTable.keep (stands : AtTable layout drive img m) (ds : m'.ds = m.ds) (es : m'.es = m.es) (ss : m'.ss = m.ss)
    (dev : m'.memory layout.dev.toNat = m.memory layout.dev.toNat)
    (same : ∀ x, 0x500 ≤ x → x < 0x700 → ¬ Scratch layout x → m'.memory x = m.memory x) :
    AtTable layout drive img m' where
  ds := ds.trans stands.ds
  es := es.trans stands.es
  ss := ss.trans stands.ss
  dev := dev.trans stands.dev
  record x low other := (same _ (by omega) (by omega) other).trans (stands.record x low other)

/-- Behind the code there is the table. -/
theorem AtTable.entry (stands : AtTable layout drive img m) (from_ : 446 ≤ n) (upto : n < 510) :
    m.memory (0x500 + n) = img.bytes n := by
  have table := layout.table
  have first := layout.first
  have second := layout.second
  have third := layout.third
  exact stands.record n upto (by unfold Scratch; omega)

theorem AtTable.packet (stands : AtTable layout drive img m) (has : HasPacket layout img) (low : n < 16)
    (other : n < 8 ∨ 12 ≤ n) : m.memory (layout.diskAddressPackedStructure.toNat + n) = packetByte n := by
  have code := layout.code
  have first := layout.first
  have second := layout.second
  have third := layout.third
  have table := layout.table
  rw [show layout.diskAddressPackedStructure.toNat + n =
      0x500 + (layout.diskAddressPackedStructure.toNat - 0x500 + n) by omega,
    stands.record _ (by omega) (by unfold Scratch; omega)]
  exact has n low

/-- The registers and the stack of one step that writes to `dev` not at all. -/
structure Scratches {σ : Type} (layout : MbrLayout) (m m' : Machine σ) : Prop where
  ds : m'.ds = m.ds
  es : m'.es = m.es
  ss : m'.ss = m.ss
  sp : m'.sp = m.sp
  dev : m'.memory layout.dev.toNat = m.memory layout.dev.toNat
  same : ∀ x, ¬ Scratch layout x → m'.memory x = m.memory x

theorem AtTable.scratch (stands : AtTable layout drive img m) (step : Scratches layout m m') :
    AtTable layout drive img m' :=
  stands.keep step.ds step.es step.ss step.dev fun x _ _ other => step.same x other

theorem setByte_memory (ds : m.ds = 0) (offset : UInt16) (v : UInt8) :
    (m.setByte m.ds offset v).memory = store m.memory offset.toNat 1 v.toNat := by
  rw [ds]
  unfold Machine.setByte
  rw [linear_zero]

theorem setWord_memory (ds : m.ds = 0) (offset v : UInt16) :
    (m.setWord m.ds offset v).memory = store m.memory offset.toNat 2 v.toNat := by
  rw [ds]
  unfold Machine.setWord
  rw [linear_zero]

theorem setDword_memory (ds : m.ds = 0) (offset : UInt16) (v : UInt32) :
    (m.setDword m.ds offset v).memory = store m.memory offset.toNat 4 v.toNat := by
  rw [ds]
  unfold Machine.setDword
  rw [linear_zero]

theorem scratches_byte (layout : MbrLayout) (ds : m.ds = 0) (v : UInt8) :
    Scratches layout m (m.setByte m.ds layout.partNo v) := by
  have first := layout.first
  have second := layout.second
  have wide := layout.partNo.toNat_lt
  refine ⟨rfl, rfl, rfl, rfl, ?_, fun x other => ?_⟩ <;> rw [setByte_memory ds]
  · exact store_away (by omega) (by omega)
  · exact store_away (by omega) (by unfold Scratch at other; omega)

theorem scratches_word (layout : MbrLayout) (ds : m.ds = 0) (v : UInt16) :
    Scratches layout m (m.setWord m.ds layout.baseAddr v) := by
  have first := layout.first
  have second := layout.second
  have third := layout.third
  have wide := layout.baseAddr.toNat_lt
  refine ⟨rfl, rfl, rfl, rfl, ?_, fun x other => ?_⟩ <;> rw [setWord_memory ds]
  · exact store_away (by omega) (by omega)
  · exact store_away (by omega) (by unfold Scratch at other; omega)

theorem Scratches.trans {m₁ m₂ : Machine σ} (one : Scratches layout m m₁) (two : Scratches layout m₁ m₂) :
    Scratches layout m m₂ where
  ds := two.ds.trans one.ds
  es := two.es.trans one.es
  ss := two.ss.trans one.ss
  sp := two.sp.trans one.sp
  dev := two.dev.trans one.dev
  same x other := (two.same x other).trans (one.same x other)

/-! ## One entry -/

/-- The address of an entry. -/
theorem entry_address {r : UInt32} (low : n < 4) (al : r.toUInt16 = UInt16.ofNat n) :
    r.toUInt8.toUInt16 * (16 : UInt8).toUInt16 + 0x0500 + 0x01be = UInt16.ofNat (0x6be + 16 * n) := by
  have byte : r.toUInt8 = UInt8.ofNat n := by
    rw [← UInt32.toUInt8_toUInt16, al]
    interval_cases n <;> rfl
  rw [byte]
  interval_cases n <;> rfl

theorem byte_zero (ds : m.ds = 0) (offset : UInt16) : m.byte m.ds offset = m.memory offset.toNat := by
  rw [ds, byte_eq]

theorem inspectStdMbrInit_reads (stands : AtTable layout drive img m) (low : n < 4)
    (al : m.eax.toUInt16 = UInt16.ofNat n) : Scratches layout m (inspectStdMbrInit layout m) ∧
      (inspectStdMbrInit layout m).ebx.toUInt16 = UInt16.ofNat (0x6be + 16 * n) ∧
      (inspectStdMbrInit layout m).eax.toUInt8 = (img.mbrEntry n).status &&& 0x80 ∧
      (inspectStdMbrInit layout m).edx = m.edx := by
  have one := scratches_byte layout stands.ds m.eax.toUInt8
  have two := one.trans (scratches_word layout (one.ds.trans stands.ds) (UInt16.ofNat (0x6be + 16 * n)))
  have stored :
      ((m.setByte m.ds layout.partNo m.eax.toUInt8).setWord m.ds layout.baseAddr (UInt16.ofNat (0x6be + 16 * n))).word
      m.ds layout.baseAddr = UInt16.ofNat (0x6be + 16 * n) := stored_word
  have place : (UInt16.ofNat (0x6be + 16 * n)).toNat = 0x500 + (446 + 16 * n) := by
    rw [UInt16.toNat_ofNat']
    omega
  have stands' := stands.scratch two
  have status := (byte_zero stands'.ds (UInt16.ofNat (0x6be + 16 * n))).trans
    (place ▸ stands'.entry (n := 446 + 16 * n) (by omega) (by omega))
  have code : inspectStdMbrInit layout m = { (m.setByte m.ds layout.partNo m.eax.toUInt8).setWord m.ds layout.baseAddr
      (UInt16.ofNat (0x6be + 16 * n)) with
        ebx := (inspectStdMbrInit layout m).ebx, eax := (inspectStdMbrInit layout m).eax } := by
    rw [← entry_address low al]
    simp only [inspectStdMbrInit, setLow_toUInt16, setByteLow_toUInt8]
    rfl
  have base : (inspectStdMbrInit layout m).ebx.toUInt16 = UInt16.ofNat (0x6be + 16 * n) := by
    simp only [inspectStdMbrInit, setLow_toUInt16, setByteLow_toUInt8]
    refine Eq.trans ?_ stored
    rw [← entry_address low al]
    rfl
  refine ⟨?_, base, ?_, by rw [code]; rfl⟩
  · rw [code]
    exact ⟨two.ds, two.es, two.ss, two.sp, two.dev, two.same⟩
  · have read :
        ((m.setByte m.ds layout.partNo m.eax.toUInt8).setWord m.ds layout.baseAddr (UInt16.ofNat (0x6be + 16 * n))).byte
        m.ds (((m.setByte m.ds layout.partNo m.eax.toUInt8).setWord m.ds layout.baseAddr
          (UInt16.ofNat (0x6be + 16 * n))).word m.ds layout.baseAddr) = (img.mbrEntry n).status := by
      rw [stored]
      exact status
    rw [← entry_address low al] at read
    rw [← read]
    simp only [inspectStdMbrInit, setLow_toUInt16, setByteLow_toUInt8]
    rfl

theorem word_bytes {offset : UInt16} : m.word 0 offset =
    UInt16.ofNat ((m.memory offset.toNat).toNat + 256 * (m.memory (offset.toNat + 1)).toNat) := by
  have wide := offset.toNat_lt
  rw [Machine.word, linear_zero, load_two, load8_low (by omega), load8_low (by omega)]

theorem dword_bytes {offset : UInt16} : m.dword 0 offset = UInt32.ofNat ((m.memory offset.toNat).toNat +
    256 * (m.memory (offset.toNat + 1)).toNat + 65536 * (m.memory (offset.toNat + 2)).toNat +
      16777216 * (m.memory (offset.toNat + 3)).toNat) := by
  have wide := offset.toNat_lt
  rw [Machine.dword, linear_zero, load_four, load_two, load_two, load8_low (by omega), load8_low (by omega),
    load8_low (by omega), load8_low (by omega), Nat.add_assoc offset.toNat 2 1]
  exact congrArg UInt32.ofNat (by omega)

/-- The fields of the packet. -/
theorem packet_place {k : UInt16} (low : k.toNat < 16) :
    (layout.diskAddressPackedStructure + k).toNat = layout.diskAddressPackedStructure.toNat + k.toNat := by
  have second := layout.second
  have third := layout.third
  have table := layout.table
  rw [UInt16.toNat_add]
  exact Nat.mod_eq_of_lt (by omega)

theorem setByteHigh_high (r : UInt32) (v : UInt8) : (setByteHigh r v >>> 8).toUInt8 = v := by
  apply UInt8.toBitVec_inj.mp
  ext i low
  unfold setByteHigh
  simp only [UInt32.toBitVec_toUInt8, UInt32.toBitVec_shiftRight, UInt32.toBitVec_or, UInt32.toBitVec_and,
    UInt32.toBitVec_shiftLeft, UInt8.toBitVec_toUInt32]
  interval_cases i <;> simp

theorem fillLowLba_asks (stands : AtTable layout drive img m) (has : HasPacket layout img) (low : n < 4)
    (base : m.ebx.toUInt16 = UInt16.ofNat (0x6be + 16 * n)) :
    Scratches layout m (fillLowLba layout m) ∧
      AsksSectors (fillLowLba layout m) drive 1 0 0x7c00 (img.mbrEntry n).lbaStart := by
  have code := layout.code
  have first := layout.first
  have second := layout.second
  have third := layout.third
  have table := layout.table
  have eight : (layout.diskAddressPackedStructure + 8).toNat = layout.diskAddressPackedStructure.toNat + 8 :=
    packet_place (by decide)
  have lba : m.dword m.ds (m.ebx.toUInt16 + 8) = (img.mbrEntry n).lbaStart := by
    have place : (m.ebx.toUInt16 + 8).toNat = 0x500 + (446 + 16 * n + 8) := by
      rw [base]
      interval_cases n <;> rfl
    rw [stands.ds, dword_bytes, place, stands.entry (by omega) (by omega), Nat.add_assoc 0x500, Nat.add_assoc 0x500,
      Nat.add_assoc 0x500, stands.entry (by omega) (by omega), stands.entry (by omega) (by omega),
      stands.entry (by omega) (by omega)]
    rfl
  have memory : (fillLowLba layout m).memory =
      store m.memory (layout.diskAddressPackedStructure + 8).toNat 4 (img.mbrEntry n).lbaStart.toNat := by
    rw [← lba, ← setDword_memory stands.ds]
    rfl
  have step : Scratches layout m (fillLowLba layout m) := by
    refine ⟨rfl, rfl, rfl, rfl, ?_, fun x other => ?_⟩ <;> rw [memory, eight]
    · exact store_away (by omega) (by omega)
    · exact store_away (by omega) (by unfold Scratch at other; omega)
  have stands' := stands.scratch step
  have ds : (fillLowLba layout m).ds = 0 := stands'.ds
  have si : (fillLowLba layout m).si = layout.diskAddressPackedStructure := rfl
  have field {k : Nat} (low : k < 16) (other : k < 8 ∨ 12 ≤ k) := stands'.packet has low other
  have dl : (fillLowLba layout m).edx.toUInt8 = drive := by
    have set_ : (m.setDword m.ds (layout.diskAddressPackedStructure + 8) (m.dword m.ds (m.ebx.toUInt16 + 8))).byte
        m.ds layout.dev = drive := by
      rw [stands.ds, byte_eq, ← stands.ds]
      exact step.dev.trans stands.dev
    exact (setByteLow_toUInt8 _ _).trans set_
  refine ⟨step, setByteHigh_high _ _, dl, ?_, ?_, ?_, ?_, ?_, ?_⟩ <;> rw [ds, si]
  · have zero_ := field (k := 0) (by decide) (by decide)
    rw [linear_zero, load, load, load8_low (by omega), ← Nat.add_zero layout.diskAddressPackedStructure.toNat, zero_]
    rfl
  · rw [word_bytes, packet_place (by decide), show (2 : UInt16).toNat = 2 from rfl, Nat.add_assoc,
      field (by decide) (by decide), field (by decide) (by decide)]
    rfl
  · rw [word_bytes, packet_place (by decide), show (4 : UInt16).toNat = 4 from rfl, Nat.add_assoc,
      field (by decide) (by decide), field (by decide) (by decide)]
    rfl
  · rw [word_bytes, packet_place (by decide), show (6 : UInt16).toNat = 6 from rfl, Nat.add_assoc,
      field (by decide) (by decide), field (by decide) (by decide)]
    rfl
  · rw [Machine.dword, memory, linear_zero]
    exact stored_dword
  · rw [dword_bytes, packet_place (by decide), show (12 : UInt16).toNat = 12 from rfl, Nat.add_assoc _ 12 1,
      Nat.add_assoc _ 12 2, Nat.add_assoc _ 12 3, field (by decide) (by decide), field (by decide) (by decide),
      field (by decide) (by decide), field (by decide) (by decide)]
    rfl

/-- The first sectors of the active partitions among the first `n`. -/
def asked (img : Image) (n : Nat) : List UInt32 :=
  ((List.range n).filter fun i => (img.mbrEntry i).Active).map fun i => (img.mbrEntry i).lbaStart

theorem asked_succ (img : Image) (n : Nat) : asked img (n + 1) =
    asked img n ++ if (img.mbrEntry n).Active then [(img.mbrEntry n).lbaStart] else [] := by
  unfold asked
  rw [List.range_succ, List.filter_append, List.map_append]
  by_cases active : (img.mbrEntry n).Active
  · rw [if_pos active, List.filter_cons_of_pos (by simpa using active)]
    rfl
  · rw [if_neg active, List.filter_cons_of_neg (by simpa using active)]
    rfl

/-- In front of entry `n`. -/
structure Waiting {σ : Type} (layout : MbrLayout) (drive : UInt8) (img : Image) (before : List UInt32) (n : Nat)
    (m : Machine σ) : Prop extends AtTable layout drive img m where
  sp : m.sp = 0x7ffe
  requests : m.requests = (asked img n).reverse ++ before

/-- At the first instruction of the partition of entry `n`. -/
structure ChainLoaded {σ : Type} (drive : UInt8) (img : Image) (before : List UInt32) (n : Nat) (m : Machine σ) : Prop
    extends HandedOver drive img.bytes (img.mbrEntry n).lbaStart m where
  ds : m.ds = 0
  es : m.es = 0
  ss : m.ss = 0
  requests : m.requests = (asked img (n + 1)).reverse ++ before

/-- A partition that the code would start. -/
def Startable (readable : UInt32 → UInt16 → Prop) (entry : MbrEntry) : Prop := entry.Active ∧ readable entry.lbaStart 1

instance (readable : UInt32 → UInt16 → Prop) [∀ lba count, Decidable (readable lba count)] (entry : MbrEntry) :
    Decidable (Startable readable entry) := inferInstanceAs (Decidable (_ ∧ _))

variable {before : List UInt32}

/-- A read into 0x7c00 leaves the record. -/
theorem AtTable.read (stands : AtTable layout drive img m) (ds : m'.ds = m.ds) (es : m'.es = m.es) (ss : m'.ss = m.ss)
    (away : ∀ x < 0x700, m'.memory x = m.memory x) : AtTable layout drive img m' := by
  have first := layout.first
  have second := layout.second
  have third := layout.third
  have table := layout.table
  exact stands.keep ds es ss (away _ (by omega)) fun x _ low _ => away x low

/-- The entry is passed by, or what it stands for gets control. -/
theorem inspectStdMbrEntry_steps (back : Nat → UInt16) (bios : ReadsDisk int13 drive img.bytes readable)
    (has : HasPacket layout img) (stands : AtTable layout drive img m) (sp : m.sp = 0x7ffc)
    (requests : m.requests = (asked img n).reverse ++ before) (low : n < 4) (al : m.eax.toUInt16 = UInt16.ofNat n) :
    (Startable readable (img.mbrEntry n) ∧ ∃ m', inspectStdMbrEntry int13 layout back m = .error .chainLoads m' ∧
        ChainLoaded drive img before n m') ∨
      (¬ Startable readable (img.mbrEntry n) ∧ ∃ m', inspectStdMbrEntry int13 layout back m = .ok () m' ∧
        AtTable layout drive img m' ∧ m'.sp = 0x7ffc ∧ m'.requests = (asked img (n + 1)).reverse ++ before) := by
  obtain ⟨step, base, status, -⟩ := inspectStdMbrInit_reads stands low al
  have requests₁ : (inspectStdMbrInit layout m).requests = (asked img n).reverse ++ before := requests
  unfold inspectStdMbrEntry
  rw [modify_bind, get_bind, status]
  generalize inspectStdMbrInit layout m = m₁ at *
  by_cases active : (img.mbrEntry n).Active
  · rw [if_neg active, modify_bind, modify_bind, get_bind]
    obtain ⟨fills, asks⟩ := fillLowLba_asks (stands.scratch step) has low base
    have requests₂ : (fillLowLba layout m₁).requests = (asked img n).reverse ++ before := requests₁
    have stands₂ := (stands.scratch step).scratch fills
    have sp₂ : (fillLowLba layout m₁).sp = 0x7ffc := fills.sp.trans (step.sp.trans sp)
    generalize fillLowLba layout m₁ = m₂ at *
    have more : m₂.dword m₂.ds (m₂.si + 8) :: m₂.requests = (asked img (n + 1)).reverse ++ before := by
      rw [asked_succ, if_pos active, asks.low, requests₂, List.reverse_append]
      rfl
    obtain ⟨bp, spKept, dsKept, esKept, ssKept, edx⟩ := bios.kept _ _ _ _ _ asks
    have carries := bios.carry _ _ _ _ _ asks
    have there := bios.there _ _ _ _ _ asks
    have away := bios.away _ _ _ _ _ asks
    have dl : (int13 m₂).edx.toUInt8 = drive := by
      rw [edx]
      exact asks.dl
    rw [show linear 0 0x7c00 = 0x7c00 from rfl, show 512 * (1 : UInt16).toNat = 512 from rfl] at there away
    cases carry : (int13 m₂).carry with
    | true =>
      refine .inr ⟨fun both => ?_, _, rfl, stands₂.read dsKept esKept ssKept fun x below => away x (.inl (by omega)),
        spKept.trans sp₂, more⟩
      rw [carries.mpr both.2] at carry
      cases carry
    | false =>
      refine .inl ⟨⟨active, carries.mp carry⟩, _, rfl, ⟨fun i below => ?_, dl⟩, dsKept.trans stands₂.ds,
        esKept.trans stands₂.es, ssKept.trans stands₂.ss, more⟩
      obtain ⟨-, -, outside⟩ := push_onto (s := 0x7ffa) (m := { int13 m₂ with
        requests := m₂.dword m₂.ds (m₂.si + 8) :: m₂.requests, eax := setLow (int13 m₂).eax 0x7c00 })
        (ssKept.trans stands₂.ss) (spKept.trans sp₂) (by decide) (back 5)
      exact (outside _ (by omega)).trans (there carry i below)
  · rw [if_pos (not_not.mp active)]
    refine .inr ⟨fun both => active both.1, m₁, rfl, stands.scratch step, step.sp.trans sp, ?_⟩
    rw [requests₁, asked_succ, if_neg active, List.append_nil]

/-- One entry: its partition is started, or the code is in front of the next one. -/
theorem callInspect_steps (back : Nat → UInt16) (bios : ReadsDisk int13 drive img.bytes readable)
    (has : HasPacket layout img) (waiting : Waiting layout drive img before n m) (low : n < 4) :
    (Startable readable (img.mbrEntry n) ∧ ∃ m', callInspect int13 layout back n m = .error .chainLoads m' ∧
        ChainLoaded drive img before n m') ∨
      (¬ Startable readable (img.mbrEntry n) ∧ ∃ m', callInspect int13 layout back n m = .ok () m' ∧
        Waiting layout drive img before (n + 1) m') := by
  obtain ⟨down, -, away⟩ := push_onto (m := { m with eax := setLow m.eax (UInt16.ofNat n) }) (s := 0x7ffc) waiting.ss
    waiting.sp (by decide) (back (n + 1))
  have stands :
      AtTable layout drive img (({ m with eax := setLow m.eax (UInt16.ofNat n) } : Machine σ).push (back (n + 1))) :=
    waiting.toAtTable.read rfl rfl rfl fun x below => away x (by omega)
  unfold callInspect
  rw [modify_bind, modify_bind]
  obtain ⟨starts, m', run, loaded⟩ | ⟨not_, m', run, stands', sp, requests⟩ :=
    inspectStdMbrEntry_steps back bios has stands down waiting.requests low (setLow_toUInt16 _ _)
  · exact .inl ⟨starts, m', bind_of_error run, loaded⟩
  · refine .inr ⟨not_, m'.addSp 2, bind_of_ok run, stands'.read rfl rfl rfl fun _ _ => rfl, ?_, requests⟩
    change m'.sp + 2 = 0x7ffe
    rw [sp]
    rfl

/-! ## All entries -/

/-- `main` starts in front of the first entry. -/
theorem mbrRelocate_waits (layout : MbrLayout) (back : Nat → UInt16) (main : UInt16)
    (handed : HandedOver drive img.bytes 0 m) : Waiting layout drive img m.requests 0
      (((mbrRelocate main m).push (back 0)).setByte ((mbrRelocate main m).push (back 0)).ds layout.dev
        ((mbrRelocate main m).push (back 0)).edx.toUInt8) := by
  have moved := copyBytes_moves (m := { m with eax := setLow m.eax 0, ds := 0, es := 0, ss := 0 }) 0x7c00 0x0500 0x200
    rfl rfl (by decide) (by decide) (by decide)
  have code : mbrRelocate main m = { copyBytes 0x7c00 0x0500 0x200
      { m with eax := setLow m.eax 0, ds := 0, es := 0, ss := 0 } with
        bp := 0x8000, sp := 0x8000
        eax := setLow (copyBytes 0x7c00 0x0500 0x200 { m with eax := setLow m.eax 0, ds := 0, es := 0, ss := 0 }).eax
          main } := by
    simp only [mbrRelocate, setLow_toUInt16]
  rw [code]
  generalize copyBytes 0x7c00 0x0500 0x200 { m with eax := setLow m.eax 0, ds := 0, es := 0, ss := 0 } = m₁ at moved
  obtain ⟨down, -, away⟩ :=
    push_onto (m := { m₁ with bp := 0x8000, sp := 0x8000, eax := setLow m₁.eax main }) (s := 0x7ffe)
      moved.ss rfl (by decide) (back 0)
  have fields : (({ m₁ with bp := 0x8000, sp := 0x8000, eax := setLow m₁.eax main } : Machine σ).push (back 0)).ds = 0 ∧
      (({ m₁ with bp := 0x8000, sp := 0x8000, eax := setLow m₁.eax main } : Machine σ).push (back 0)).edx.toUInt8 =
        drive ∧
      (({ m₁ with bp := 0x8000, sp := 0x8000, eax := setLow m₁.eax main } : Machine σ).push (back 0)).requests =
        m.requests :=
    ⟨moved.ds, (congrArg _ moved.edx).trans handed.dl, moved.requests⟩
  have segments :
      (({ m₁ with bp := 0x8000, sp := 0x8000, eax := setLow m₁.eax main } : Machine σ).push (back 0)).es = 0 ∧
      (({ m₁ with bp := 0x8000, sp := 0x8000, eax := setLow m₁.eax main } : Machine σ).push (back 0)).ss = 0 :=
    ⟨moved.es, moved.ss⟩
  have there (i : Nat) (low : i < 512) : (({ m₁ with bp := 0x8000, sp := 0x8000, eax := setLow m₁.eax main } :
      Machine σ).push (back 0)).memory (0x500 + i) = img.bytes i := by
    rw [away _ (by omega)]
    refine (moved.there i low).trans ((handed.code i low).trans ?_)
    rw [show 512 * (0 : UInt32).toNat + i = i from Nat.zero_add i]
  generalize ({ m₁ with bp := 0x8000, sp := 0x8000, eax := setLow m₁.eax main } : Machine σ).push (back 0) = m₂ at *
  obtain ⟨ds, dl, requests⟩ := fields
  have first := layout.first
  have second := layout.second
  have wide := layout.dev.toNat_lt
  have stored : (m₂.setByte m₂.ds layout.dev m₂.edx.toUInt8).memory =
      store m₂.memory layout.dev.toNat 1 m₂.edx.toUInt8.toNat := by
    rw [setByte_memory ds]
  refine ⟨⟨ds, segments.1, segments.2, ?_, fun x low other => ?_⟩, down, requests⟩
  · rw [stored, store, store, store8, cell_low (by omega), Function.update_self, UInt8.ofNat_toNat, dl]
  · rw [stored, store_away (by omega) (by unfold Scratch at other; omega)]
    exact there x (by omega)

/-- `main` starts the first partition that is marked active and can be read, or it halts behind the last entry. -/
theorem mbrMain_runs (back : Nat → UInt16) (bios : ReadsDisk int13 drive img.bytes readable)
    (has : HasPacket layout img) (waits : Waiting layout drive img before 0 (m.setByte m.ds layout.dev m.edx.toUInt8)) :
    (∃ i < 4, Startable readable (img.mbrEntry i) ∧ (∀ j < i, ¬ Startable readable (img.mbrEntry j)) ∧
        ∃ m', mbrMain int13 layout back m = .error .chainLoads m' ∧ ChainLoaded drive img before i m') ∨
      ((∀ i < 4, ¬ Startable readable (img.mbrEntry i)) ∧
        ∃ m', mbrMain int13 layout back m = .error .halts m' ∧ m'.requests = (asked img 4).reverse ++ before) := by
  unfold mbrMain
  rw [modify_bind]
  obtain ⟨starts, m₁, run₁, loaded⟩ | ⟨not₀, m₁, run₁, waits⟩ := callInspect_steps back bios has waits (by decide)
  · exact .inl ⟨0, by decide, starts, fun j low => absurd low j.not_lt_zero, m₁, bind_of_error run₁, loaded⟩
  rw [bind_of_ok run₁]
  obtain ⟨starts, m₂, run₂, loaded⟩ | ⟨not₁, m₂, run₂, waits⟩ := callInspect_steps back bios has waits (by decide)
  · refine .inl ⟨1, by decide, starts, fun j low => ?_, m₂, bind_of_error run₂, loaded⟩
    obtain rfl : j = 0 := by omega
    exact not₀
  rw [bind_of_ok run₂]
  obtain ⟨starts, m₃, run₃, loaded⟩ | ⟨not₂, m₃, run₃, waits⟩ := callInspect_steps back bios has waits (by decide)
  · refine .inl ⟨2, by decide, starts, fun j low => ?_, m₃, bind_of_error run₃, loaded⟩
    interval_cases j <;> assumption
  rw [bind_of_ok run₃]
  obtain ⟨starts, m₄, run₄, loaded⟩ | ⟨not₃, m₄, run₄, waits⟩ := callInspect_steps back bios has waits (by decide)
  · refine .inl ⟨3, by decide, starts, fun j low => ?_, m₄, bind_of_error run₄, loaded⟩
    interval_cases j <;> assumption
  rw [bind_of_ok run₄]
  refine .inr ⟨fun j low => ?_, m₄, rfl, waits.requests⟩
  interval_cases j <;> assumption

/-! ## The first active partition -/

/-- The code starts the first partition that is marked active and can be read, with the drive in DL, and has asked for
the first sectors of the active ones up to it. Where there is none it halts. -/
theorem masterBoot_starts (bios : ReadsDisk int13 drive img.bytes readable) (has : HasPacket layout img)
    (handed : HandedOver drive img.bytes 0 m) (back : Nat → UInt16) (main : UInt16) :
    (∃ i < 4, Startable readable (img.mbrEntry i) ∧ (∀ j < i, ¬ Startable readable (img.mbrEntry j)) ∧
        ∃ m', masterBoot int13 layout back main m = .error .chainLoads m' ∧ ChainLoaded drive img m.requests i m') ∨
      ((∀ i < 4, ¬ Startable readable (img.mbrEntry i)) ∧
        ∃ m', masterBoot int13 layout back main m = .error .halts m' ∧
          m'.requests = (asked img 4).reverse ++ m.requests) := by
  have runs := mbrMain_runs back bios has (mbrRelocate_waits layout back main handed)
  unfold masterBoot
  rw [modify_bind, modify_bind]
  exact runs

/-! ### A drive whose first sectors are bad -/

/-- The code as it is assembled. -/
def mbrLayout : MbrLayout where
  dev := 0x51d
  diskAddressPackedStructure := 0x520
  partNo := 0x530
  baseAddr := 0x531
  code := by decide
  first := by decide
  second := by decide
  third := by decide
  table := by decide

/-- INT 0x13 on a drive on which the sectors below `bad` cannot be read. -/
def readSectorsFrom (bad : Nat) (disk : Nat → UInt8) (m : Machine Unit) : Machine Unit :=
  if (m.dword m.ds (m.si + 8)).toNat < bad then { m with carry := true } else readSectors disk m

theorem readSectorsFrom_reads (bad : Nat) (disk : Nat → UInt8) (drive : UInt8) :
    ReadsDisk (readSectorsFrom bad disk) drive disk fun lba _ => bad ≤ lba.toNat where
  kept m _ _ _ _ _ := by
    unfold readSectorsFrom
    split <;> exact ⟨rfl, rfl, rfl, rfl, rfl, rfl⟩
  carry m _ _ _ lba asks := by
    unfold readSectorsFrom
    rw [asks.low]
    split
    · next low => exact ⟨fun none_ => (nomatch none_), fun high => absurd low (Nat.not_lt.mpr high)⟩
    · next high => exact ⟨fun _ => Nat.not_lt.mp high, fun _ => rfl⟩
  there m count segment offset lba asks read i inside := by
    unfold readSectorsFrom at read ⊢
    split at read
    · cases read
    · next high =>
      rw [if_neg high]
      simp only [readSectors, asks.segment, asks.offset, asks.low, asks.high, asks.count, UInt32.toNat_zero,
        Nat.mul_zero, Nat.add_zero, Nat.add_sub_cancel_left]
      exact if_pos ⟨Nat.le_add_right _ _, Nat.add_lt_add_left inside _⟩
  away m count segment offset lba asks x outside := by
    unfold readSectorsFrom
    split
    · rfl
    · simp only [readSectors, asks.segment, asks.offset, asks.count]
      exact if_neg (by omega)

/-- The packet, and two active entries with one between them that is not: sectors 1 and 8. -/
def twoActive : Image where
  bytes x :=
    if 32 ≤ x ∧ x < 48 then packetByte (x - 32)
    else if 446 ≤ x ∧ x < 494 then
      [0x80, 0, 0, 0, 0x81, 0, 0, 0, 1, 0, 0, 0, 7, 0, 0, 0, 0, 0, 0, 0, 0x83, 0, 0, 0, 4, 0, 0, 0, 4, 0, 0, 0,
        0x80, 0, 0, 0, 0x81, 0, 0, 0, 8, 0, 0, 0, 8].getD (x - 446) 0
    else 0
  size := 8192

theorem masterBoot_starts_third : ∃ m', masterBoot (readSectorsFrom 4 twoActive.bytes) mbrLayout (fun _ => 0) 0x56c
      (handedMachine twoActive.bytes 0) = .error .chainLoads m' ∧ ChainLoaded 0x80 twoActive [] 2 m' := by
  obtain ⟨i, low, starts, before, m', run, loaded⟩ | ⟨none_, -⟩ :=
    masterBoot_starts (readSectorsFrom_reads 4 twoActive.bytes 0x80) (by decide : HasPacket mbrLayout twoActive)
      (handedMachine_handed twoActive.bytes 0) (fun _ => 0) 0x56c
  · have third : Startable (fun lba _ => 4 ≤ lba.toNat) (twoActive.mbrEntry 2) := by decide
    have same : i = 2 := by
      obtain below | same | above := lt_trichotomy i 2
      · revert starts
        interval_cases i <;> decide
      · exact same
      · exact absurd third (before 2 above)
    subst same
    exact ⟨m', run, loaded⟩
  · exact absurd (by decide : Startable _ (twoActive.mbrEntry 2)) (none_ 2 (by decide))

/-! ## From power on to the kernel -/

theorem mbr_some {mbr : Mbr} (read : img.mbr = some mbr) : 512 ≤ img.size ∧ mbr = fun i : Fin 4 => img.mbrEntry i := by
  unfold Image.mbr at read
  split at read
  · next wide => exact ⟨wide, (Option.some_inj.mp read).symm⟩
  · cases read

/-- After an install on the first active partition, the two boot programs that were on the disk before come from the
boot record to the kernel that was installed. -/
theorem power_on_reaches_kernel (opened : minixOpen input t₀ = .ok root t₁) (geometry : Geometry t₁)
    (spread : Spread ks root.scanBlocks dir root t₁) (some_ : 0 < root.iSize.toNat) (whole : root.iSize.toNat % 32 = 0)
    (old : OldKernel input.trunc ks root t₁) (atEnd : SlotAtEnd t₁ (t₁.fileByte root) root.iSize.toNat)
    (ran : minixWrite input t₀ = .ok i t') (none_ : input.partno = none)
    (active : FirstActive (fun j => t₀.img.mbrEntry j) sel) (near_ : (t₀.img.mbrEntry sel).lbaStart.toNat < 2 ^ 22)
    (rootSize : root.iSize.toNat + 32 ≤ 2 ^ 25) (low : (t₁.sb.inodeBlock i).toNat < 2 ^ 15)
    (size : input.kernel.bytes.size ≤ 623104) (has : HasPacket layout t₀.img)
    (onDisk : OnDisk kernelStr t₀.img.bytes (t₀.img.mbrEntry sel).lbaStart)
    (bios : ReadsDisk int13 drive t'.img.bytes readable) (all : ∀ lba count, readable lba count)
    (video : PrintsOnly int10) (back back' : Nat → UInt16) (main main' : UInt16)
    (handed : HandedOver drive t'.img.bytes 0 m) :
    ∃ m₁ m', masterBoot int13 layout back main m = .error .chainLoads m₁ ∧
      Ends (loader int13 int10 back' kernelStr main') .relocate m₁ (.ok () m') ∧
      (∀ x, ∀ low : x < input.kernel.bytes.size, m'.memory (kernelBase.toNat + x) = input.kernel.bytes[x]) ∧
      m'.eax.toUInt16 = kernelBase ∧ m'.ds = 0 ∧ m'.ss = 0 := by
  obtain ⟨-, given, ks', t₂, -, keeps, -⟩ := minixWrite_keepsOthers opened geometry spread some_ old ran
  obtain ⟨-, -, mbr, sel', data, t₃, t₄, inodesMap, zonesMap, read, selected, rfl, -, rfl, -, -, same, -⟩ :=
    minixOpen_ok_iff.mp opened
  obtain ⟨wide, rfl⟩ := mbr_some read
  rw [none_] at selected
  obtain ⟨rfl, -⟩ := (minixPartno_active active).mp selected
  have image : t₁.img = t₀.img := by rw [same]
  have start : t₁.ps.toInt = 512 * (t₀.img.mbrEntry sel').lbaStart.toNat := by
    rw [same]
    change (partitionStart (t₀.img.mbrEntry sel').lbaStart).toInt = _
    rw [partitionStart_toInt, Nat.mod_eq_of_lt (by omega), if_pos near_]
  have front (x : Nat) (inside : x < 512) : t'.img.bytes x = t₀.img.bytes x := by
    rw [← image] at wide ⊢
    exact keeps.front x (by omega) (by rw [start]; omega)
  have entries (j : Fin 4) : t'.img.mbrEntry j = t₀.img.mbrEntry j := by
    have more := keeps.size
    rw [image] at more
    obtain ⟨-, all_⟩ := mbr_some (mbr_kept more (fun x inside _ => front x inside) read)
    exact (congrFun all_ j).symm
  have has' : HasPacket layout t'.img := fun x inside => by
    have third := layout.third
    have table := layout.table
    have second := layout.second
    rw [front _ (by omega)]
    exact has x inside
  obtain ⟨i', below, starts, before, m₁, run, loaded⟩ | ⟨never, -⟩ :=
    mbrMain_runs back bios has' (mbrRelocate_waits layout back main handed)
  · obtain rfl : (⟨i', below⟩ : Fin 4) = sel' := by
      refine firstActive_unique ⟨?_, fun j before_ active_ => ?_⟩ active
      · rw [← entries ⟨i', below⟩]
        exact starts.1
      · refine before j before_ ⟨?_, all _ _⟩
        rw [entries j]
        exact active_
    have handed' := loaded.toHandedOver
    rw [entries ⟨i', below⟩] at handed'
    obtain ⟨m', ends, file, ax, ds, ss, -⟩ :=
      installed_kernel_boots opened geometry spread some_ whole old atEnd ran start
        rootSize low size onDisk (bios.loadsSectors fun lba => all lba 2) video back' main' handed'
    refine ⟨m₁, m', ?_, ends, file, ax, ds, ss⟩
    unfold masterBoot
    rw [modify_bind, modify_bind]
    exact run
  · refine absurd ⟨?_, all _ _⟩ (never sel' sel'.isLt)
    rw [entries sel']
    exact active.1

end AtaKernel.Boot
