import AtaKernel.Boot.LoadKernel
import AtaKernel.Minix.Directory

/-! Step 5 of the boot loader: the entries of the root directory are gone through
for one with the name `kernel`. Nothing looks at the inode number of an entry,
and the test for the end lets one more entry pass, so what is found is the first
entry of that name among those the loops get to, live or not. -/
namespace AtaKernel.Boot
open ByteMemory StateProgram Minix

/-! ## The loops -/

def currentDirentryIndex : UInt16 := 0x0556
def currentDirentryOffset : UInt16 := 0x0558
def currentDirentryAddr : UInt16 := 0x055a

/-- `mov` to the lowest byte of a register. -/
def setByteLow (r : UInt32) (v : UInt8) : UInt32 := r &&& 0xffffff00 ||| v.toUInt32

/-- `mov` to the byte above it. -/
def setByteHigh (r : UInt32) (v : UInt8) : UInt32 := (r &&& 0xffff00ff) ||| (v.toUInt32 <<< (8 : UInt32))

/-- The labels that are jumped to. -/
inductive Place
  | outerLoop
  | innerLoop
  | strcmpLoop
  | innerLoopContinue
  | printStrLoop
  deriving DecidableEq

section Code

variable {σ : Type}

def Machine.byte (m : Machine σ) (segment offset : UInt16) : UInt8 :=
  UInt8.ofNat (load m.memory (linear segment offset) 1)

/-- `lodsb`, with the direction flag clear. -/
def lodsb (m : Machine σ) : Machine σ := { m with eax := setByteLow m.eax (m.byte m.ds m.si), si := m.si + 1 }

/-! ### print_str -/

/-- Up to `_print_str_loop`. -/
def psEnter (m : Machine σ) : Machine σ :=
  let m := m.push m.bp
  let m := { m with bp := m.sp, sp := m.sp - 2 }
  let m := { m with eax := setLow m.eax (m.word m.ss (m.bp + 4)) }
  m.setWord m.ss (m.bp - 2) m.eax.toUInt16

/-- The next character in AL. -/
def psChar (m : Machine σ) : Machine σ := lodsb { m with si := m.word m.ss (m.bp - 2) }

/-- `mov ah, 0xe` -/
def psTeletype (m : Machine σ) : Machine σ := { m with eax := setByteHigh m.eax 0x0e }

/-- `ps_s ++` -/
def psNext (m : Machine σ) : Machine σ :=
  let m := { m with eax := setLow m.eax (m.word m.ss (m.bp - 2)) }
  let m := { m with eax := setLow m.eax (m.eax.toUInt16 + 1) }
  m.setWord m.ss (m.bp - 2) m.eax.toUInt16

def psDone (m : Machine σ) : Machine σ := ((m.addSp 2).popBp).addSp 2

/-! ### strcmp -/

/-- Up to `_strcmp_loop`. -/
def stEnter (m : Machine σ) : Machine σ :=
  let m := m.push m.bp
  let m := { m with bp := m.sp }
  let m := { m with si := m.word m.ss (m.bp + 4) }
  { m with di := m.word m.ss (m.bp + 6) }

/-- The next characters in AL and BL. -/
def stLoad (m : Machine σ) : Machine σ :=
  let m := { m with eax := setByteLow m.eax (m.byte m.ds m.si) }
  { m with ebx := setByteLow m.ebx (m.byte m.ds m.di) }

/-- The result in AX, and back to the caller, up to behind its `add sp, 4`. -/
def stDone (ax : UInt16) (m : Machine σ) : Machine σ :=
  let m := { m with eax := setLow m.eax ax }
  (m.popBp.addSp 2).addSp 4

/-! ### The directory -/

/-- Where the entry is, in the block and in memory. -/
def deAddress (m : Machine σ) : Machine σ :=
  let m := { m with eax := setLow m.eax (m.word m.ds currentDirentryIndex) }
  let m := { m with eax := setLow m.eax (m.eax.toUInt16 <<< 5) }
  let m := m.setWord m.ds currentDirentryOffset m.eax.toUInt16
  let m := { m with eax := setLow m.eax (m.eax.toUInt16 + bufferBase) }
  m.setWord m.ds currentDirentryAddr m.eax.toUInt16

/-- Where it is in the file in EAX, and the size of the file in EBX. -/
def deOffset (m : Machine σ) : Machine σ :=
  let m := { m with eax := setLow m.eax (m.word m.ds currentDirentryOffset) }
  let m := { m with eax := m.eax &&& 0x0000ffff }
  let m := { m with ebx := m.dword m.ds currentZoneBytes }
  let m := { m with eax := m.eax + m.ebx }
  { m with ebx := m.dword m.ds inodeSize }

/-- `mov word ax, [CURRENT_DIRENTRY_ADDR]` -/
def deLoad (m : Machine σ) : Machine σ := { m with eax := setLow m.eax (m.word m.ds currentDirentryAddr) }

/-- `add ax, 2` and `push word ax` -/
def dePushName (m : Machine σ) : Machine σ :=
  let m := { m with eax := setLow m.eax (m.eax.toUInt16 + 2) }
  m.push m.eax.toUInt16

/-- `current_direntry_index ++` -/
def deNext (m : Machine σ) : Machine σ :=
  let m := { m with eax := setLow m.eax (m.word m.ds currentDirentryIndex) }
  let m := { m with eax := setLow m.eax (m.eax.toUInt16 + 1) }
  m.setWord m.ds currentDirentryIndex m.eax.toUInt16

/-- Behind the call of `strcmp`: `_step_6` or `_inner_loop_continue`. -/
def compared (ax : UInt16) : Vbr σ (Place ⊕ Unit) := do
  modify (stDone ax)
  if (← get).eax.toUInt16 = 0 then pure (.inr ()) else pure (.inl .innerLoopContinue)

/-- Behind the call of `print_str`: the next entry or `_outer_loop_continue`. -/
def printed : Vbr σ (Place ⊕ Unit) := do
  modify fun m => (psDone m).addSp 2
  modify deNext
  if 32 ≤ (← get).eax.toUInt16.toInt16 then do
    modify lkNext
    pure (.inl .outerLoop)
  else pure (.inl .innerLoop)

variable (int13 int10 : Machine σ → Machine σ) (back : Nat → UInt16) (kernelStr : UInt16)

/-- From one label to the next; what comes out is that `_step_6` is reached. -/
def search : Place → Vbr σ (Place ⊕ Unit)
  | .outerLoop => do
    modify lkZone
    let m ← get
    if m.ebx.toInt32 < m.eax.toInt32 then throw .noFileStr
    else do
      callLoadZone int13 back (m.word m.ds currentZoneIndex)
      modify fun m => m.setWord m.ds currentDirentryIndex 0
      pure (.inl .innerLoop)
  | .innerLoop => do
    modify deAddress
    modify deOffset
    let m ← get
    if m.ebx.toInt32 < m.eax.toInt32 then throw .noFileStr
    else do
      modify deLoad
      -- The address is compared, not the inode number that is there.
      if (← get).eax.toUInt16 = 0 then pure (.inl .innerLoopContinue)
      else do
        modify dePushName
        modify fun m => m.push kernelStr
        modify fun m => stEnter (m.push (back 4))
        pure (.inl .strcmpLoop)
  | .strcmpLoop => do
    modify stLoad
    let m ← get
    let al := m.eax.toUInt8
    let bl := m.ebx.toUInt8
    if al.toInt8 < bl.toInt8 then compared (-1)
    else if bl.toInt8 < al.toInt8 then compared 1
    else if al = 0 then compared 0
    else do
      modify fun m => { m with si := m.si + 1, di := m.di + 1 }
      pure (.inl .strcmpLoop)
  | .innerLoopContinue => do
    modify deLoad
    modify dePushName
    modify fun m => psEnter (m.push (back 5))
    pure (.inl .printStrLoop)
  | .printStrLoop => do
    modify psChar
    if (← get).eax.toUInt8 = 0 then printed
    else do
      modify psTeletype
      modify int10
      modify psNext
      pure (.inl .printStrLoop)

end Code

/-- INT 0x10 with AH = 0x0e prints a character. It leaves the stack, the segments and the loader's own
memory as they are. -/
structure Prints {σ : Type} (int10 : Machine σ → Machine σ) : Prop where
  kept : ∀ m : Machine σ, (m.eax >>> 8).toUInt8 = 0x0e → (int10 m).bp = m.bp ∧ (int10 m).sp = m.sp ∧
    (int10 m).ds = m.ds ∧ (int10 m).ss = m.ss
  memory : ∀ m : Machine σ, (m.eax >>> 8).toUInt8 = 0x0e →
    ∀ x, (0x500 ≤ x ∧ x < 0xe00) ∨ (m.sp.toNat ≤ x ∧ x < 0x1000) →
    (int10 m).memory x = m.memory x

/-! ## Registers -/

variable {σ : Type} {int13 int10 : Machine σ → Machine σ} {drive : UInt8} {disk : Nat → UInt8} {inode : Inode}
  {first : UInt32} {kernelStr : UInt16} {m m' : Machine σ} {e k x : Nat}

@[simp] theorem setByteLow_toUInt8 (r : UInt32) (v : UInt8) : (setByteLow r v).toUInt8 = v := by
  apply UInt8.toBitVec_inj.mp
  ext i low
  unfold setByteLow
  simp only [UInt32.toBitVec_toUInt8, UInt32.toBitVec_or, UInt32.toBitVec_and, UInt8.toBitVec_toUInt32]
  interval_cases i <;> simp

/-- AH = 0x0e -/
theorem psTeletype_ah (m : Machine σ) : ((psTeletype m).eax >>> 8).toUInt8 = 0x0e := by
  apply UInt8.toBitVec_inj.mp
  ext i low
  unfold psTeletype setByteHigh
  simp only [UInt32.toBitVec_toUInt8, UInt32.toBitVec_or, UInt32.toBitVec_and, UInt8.toBitVec_toUInt32,
    UInt32.toBitVec_shiftRight, UInt32.toBitVec_shiftLeft]
  interval_cases i <;> simp

theorem byte_eq (m : Machine σ) (offset : UInt16) : m.byte 0 offset = m.memory offset.toNat := by
  have fits := offset.toNat_lt
  rw [Machine.byte, linear_zero, load, load, load8_low (by omega)]
  exact UInt8.ofNat_toNat

theorem ofNat_toNat_low {n : Nat} (low : n < 2 ^ 16) : (UInt16.ofNat n).toNat = n := by
  rw [UInt16.toNat_ofNat']
  exact Nat.mod_eq_of_lt low

/-- A push, by the address that it goes to. -/
theorem push_onto {s : Nat} (ss : m.ss = 0) (sp : m.sp = UInt16.ofNat (s + 2)) (fits : s + 2 < 2 ^ 16) (v : UInt16) :
    (m.push v).sp = UInt16.ofNat s ∧ (m.push v).word 0 (UInt16.ofNat s) = v ∧
      ∀ x, x < s ∨ s + 2 ≤ x → (m.push v).memory x = m.memory x := by
  have top : m.sp.toNat = s + 2 := by rw [sp, ofNat_toNat_low fits]
  have pushed := push_pushed ss (by omega) v
  have down : (m.push v).sp = UInt16.ofNat s := by
    apply UInt16.toNat_inj.mp
    rw [ofNat_toNat_low (by omega)]
    have two := pushed.sp
    omega
  refine ⟨down, ?_, fun x away => pushed.away x ?_⟩
  · rw [← down]
    exact push_top ss v
  · rw [down, ofNat_toNat_low (by omega), top]
    exact away

/-- A word above a push stays. -/
theorem word_above {s a : Nat} (same : ∀ x, x < s ∨ s + 2 ≤ x → m'.memory x = m.memory x) (above : s + 2 ≤ a)
    (fits : a < 2 ^ 16) : m'.word 0 (UInt16.ofNat a) = m.word 0 (UInt16.ofNat a) :=
  word_congr fun i low => same _ (by rw [ofNat_toNat_low fits]; omega)

/-- Three words, below the top of the stack. -/
theorem frame_pushed (ss : m.ss = 0) (sp : m.sp = stackTop) (a b c : UInt16) :
    (((m.push a).push b).push c).sp = 0xffa ∧ (((m.push a).push b).push c).word 0 0xffe = a ∧
      (((m.push a).push b).push c).word 0 0xffc = b ∧
      ∀ x, x < 0xffa ∨ 0x1000 ≤ x → (((m.push a).push b).push c).memory x = m.memory x := by
  obtain ⟨sp₁, a₁, away₁⟩ := push_onto (s := 0xffe) ss sp (by decide) a
  have ss₁ : (m.push a).ss = 0 := ss
  generalize m.push a = m₁ at sp₁ a₁ away₁ ss₁ ⊢
  obtain ⟨sp₂, b₂, away₂⟩ := push_onto (s := 0xffc) ss₁ sp₁ (by decide) b
  have ss₂ : (m₁.push b).ss = 0 := ss₁
  generalize m₁.push b = m₂ at sp₂ b₂ away₂ ss₂ ⊢
  obtain ⟨sp₃, -, away₃⟩ := push_onto (s := 0xffa) ss₂ sp₂ (by decide) c
  refine ⟨sp₃, ?_, ?_, fun x away => ?_⟩
  · exact (word_above away₃ (a := 0xffe) (by decide) (by decide)).trans
      ((word_above away₂ (a := 0xffe) (by decide) (by decide)).trans a₁)
  · exact (word_above away₃ (a := 0xffc) (by decide) (by decide)).trans b₂
  · rw [away₃ x (by omega), away₂ x (by omega), away₁ x (by omega)]

/-! ## What the loops keep -/

/-- Where entry `e` is in the buffer. -/
def entryAddr (e : Nat) : Nat := 0x600 + 32 * (e % 32)

/-- The loader has got to the zone of entry `e`. -/
structure Searching {σ : Type} (drive : UInt8) (inode : Inode) (first : UInt32) (kernelStr : UInt16) (e : Nat)
    (m : Machine σ) : Prop extends Ready drive inode first m where
  text : ∀ k < 7, m.memory (kernelStr.toNat + k) = kernelText k
  zone : m.word 0 currentZoneIndex = UInt16.ofNat (e / 32)

/-- The zone is in the buffer. -/
structure InZone {σ : Type} (drive : UInt8) (disk : Nat → UInt8) (inode : Inode) (first : UInt32)
    (kernelStr : UInt16) (e : Nat) (m : Machine σ) : Prop extends Searching drive inode first kernelStr e m where
  bytes : m.dword 0 currentZoneBytes = UInt32.ofNat (1024 * (e / 32))
  index : m.word 0 currentDirentryIndex = UInt16.ofNat (e % 32)
  buffer : ∀ i < 1024, m.memory (0x600 + i) = fileByte disk first inode (1024 * (e / 32) + i)

/-- `CURRENT_DIRENTRY_ADDR` is set. -/
structure AtEntry {σ : Type} (drive : UInt8) (disk : Nat → UInt8) (inode : Inode) (first : UInt32)
    (kernelStr : UInt16) (e : Nat) (m : Machine σ) : Prop extends InZone drive disk inode first kernelStr e m where
  addr : m.word 0 currentDirentryAddr = UInt16.ofNat (entryAddr e)

/-- In `strcmp`, with the first `k` characters the same. -/
structure Comparing {σ : Type} (drive : UInt8) (disk : Nat → UInt8) (inode : Inode) (first : UInt32)
    (kernelStr : UInt16) (e k : Nat) (m : Machine σ) : Prop
    extends AtEntry drive disk inode first kernelStr e m where
  sp : m.sp = 0xff8
  si : m.si = UInt16.ofNat (kernelStr.toNat + k)
  di : m.di = UInt16.ofNat (entryAddr e + 2 + k)
  low : k < 7
  same : ∀ j < k, fileByte disk first inode (32 * e + 2 + j) = kernelText j

/-- In `print_str`, at address `x`. -/
structure Printing {σ : Type} (drive : UInt8) (disk : Nat → UInt8) (inode : Inode) (first : UInt32)
    (kernelStr : UInt16) (e x : Nat) (m : Machine σ) : Prop
    extends AtEntry drive disk inode first kernelStr e m where
  sp : m.sp = 0xff8
  bp : m.bp = 0xffa
  pointer : m.word 0 0xff8 = UInt16.ofNat x
  above : 0x600 ≤ x
  below : x ≤ kernelStr.toNat + 6

/-- What the loops have in memory, but for the variables of the entry. -/
def Held (x : Nat) : Prop := (0x510 ≤ x ∧ x < 0x53c) ∨ (0x550 ≤ x ∧ x < 0x558) ∨ (0x600 ≤ x ∧ x < 0xe00)

/-- The text is in the loader's own code. -/
def InCode (kernelStr : UInt16) : Prop := 0xa00 ≤ kernelStr.toNat ∧ kernelStr.toNat + 7 ≤ 0xe00

theorem Searching.keep (there : Searching drive inode first kernelStr e m) (code : InCode kernelStr)
    (ds : m'.ds = m.ds) (ss : m'.ss = m.ss)
    (same : ∀ x, (0x510 ≤ x ∧ x < 0x53c) ∨ (0x550 ≤ x ∧ x < 0x552) ∨ (0xa00 ≤ x ∧ x < 0xe00) →
      m'.memory x = m.memory x) : Searching drive inode first kernelStr e m' where
  toReady := there.toReady.keep ds ss fun x here => same x (by omega)
  text k low := (same _ (by unfold InCode at code; omega)).trans (there.text k low)
  zone := (word_congr fun i low => same _ (by change _ ∨ (0x550 ≤ 0x550 + i ∧ 0x550 + i < 0x552) ∨ _; omega)).trans
    there.zone

theorem InZone.keep (there : InZone drive disk inode first kernelStr e m) (code : InCode kernelStr)
    (ds : m'.ds = m.ds) (ss : m'.ss = m.ss) (same : ∀ x, Held x → m'.memory x = m.memory x) :
    InZone drive disk inode first kernelStr e m' where
  toSearching := there.toSearching.keep code ds ss fun x here => same x (by unfold Held; omega)
  bytes := (dword_congr fun i low => same _ (by
    change _ ∨ (0x550 ≤ 0x552 + i ∧ 0x552 + i < 0x558) ∨ _
    omega)).trans there.bytes
  index := (word_congr fun i low => same _ (by
    change _ ∨ (0x550 ≤ 0x556 + i ∧ 0x556 + i < 0x558) ∨ _
    omega)).trans there.index
  buffer i low := (same _ (by unfold Held; omega)).trans (there.buffer i low)

theorem AtEntry.keep (there : AtEntry drive disk inode first kernelStr e m) (code : InCode kernelStr)
    (ds : m'.ds = m.ds) (ss : m'.ss = m.ss)
    (same : ∀ x, Held x ∨ (0x55a ≤ x ∧ x < 0x55c) → m'.memory x = m.memory x) :
    AtEntry drive disk inode first kernelStr e m' where
  toInZone := there.toInZone.keep code ds ss fun x here => same x (.inl here)
  addr := (word_congr fun i low => same _ (by
    right
    change 0x55a ≤ 0x55a + i ∧ 0x55a + i < 0x55c
    omega)).trans there.addr

/-- A byte of the entry, in the buffer. -/
theorem AtEntry.entry_byte (there : AtEntry drive disk inode first kernelStr e m) {i : Nat} (low : i < 32) :
    m.memory (entryAddr e + i) = fileByte disk first inode (32 * e + i) := by
  have byte := there.buffer (32 * (e % 32) + i) (by omega)
  rw [show 1024 * (e / 32) + (32 * (e % 32) + i) = 32 * e + i by omega] at byte
  rw [entryAddr, Nat.add_assoc, byte]

/-! ## The outer loop -/

theorem ofNat_toNat_small {n : Nat} (low : n < 2 ^ 32) : (UInt32.ofNat n).toNat = n := by
  rw [UInt32.toNat_ofNat']
  exact Nat.mod_eq_of_lt low

/-- `jl` on sizes below `2 ^ 31`. -/
theorem signed_less {a b : UInt32} (left : a.toNat < 2 ^ 31) (right : b.toNat < 2 ^ 31) :
    a.toInt32 < b.toInt32 ↔ a.toNat < b.toNat := by
  rw [Int32.lt_iff_toInt_lt, toInt32_small left, toInt32_small right]
  omega

/-- The zone number and the two sides of the compare. -/
theorem outer_compare (there : Searching drive inode first kernelStr e m) (code : InCode kernelStr)
    (size : inode.iSize.toNat ≤ 2 ^ 25) (low : 32 * e ≤ 2 ^ 25) :
    Searching drive inode first kernelStr e (lkZone m) ∧ (lkZone m).sp = m.sp ∧
      (lkZone m).dword 0 currentZoneBytes = UInt32.ofNat (1024 * (e / 32)) ∧
      ((lkZone m).ebx.toInt32 < (lkZone m).eax.toInt32 ↔ inode.iSize.toNat < 1024 * (e / 32)) := by
  have zone := lkZone_eq there.ds there.zone (by omega)
  rw [there.size] at zone
  generalize lkZone m = z at zone ⊢
  have fields : z.ds = m.ds ∧ z.ss = m.ss ∧ z.sp = m.sp ∧ z.memory = store m.memory 0x552 4 (1024 * (e / 32)) ∧
      z.eax = UInt32.ofNat (1024 * (e / 32)) ∧ z.ebx = inode.iSize := by
    rw [zone]
    exact ⟨rfl, rfl, rfl, rfl, rfl, rfl⟩
  obtain ⟨ds, ss, sp, memory, eax, ebx⟩ := fields
  refine ⟨there.keep code ds ss fun x here => ?_, sp, ?_, ?_⟩
  · rw [memory, store_away (by decide) (by omega)]
  · rw [Machine.dword, memory]
    change UInt32.ofNat (load (store m.memory 0x552 4 _) 0x552 4) = _
    rw [load_store_same _ _ _ (by decide), Nat.mod_eq_of_lt (by omega)]
  · have value : (UInt32.ofNat (1024 * (e / 32))).toNat = 1024 * (e / 32) := ofNat_toNat_small (by omega)
    rw [eax, ebx, signed_less (by omega) (by omega), value]

/-- Behind the last zone the loader halts, with one text or the other. -/
theorem outerLoop_halts (int13 int10 : Machine σ → Machine σ) (back : Nat → UInt16)
    (there : Searching drive inode first kernelStr e m) (code : InCode kernelStr) (sp : m.sp = stackTop)
    (size : inode.iSize.toNat ≤ 2 ^ 25) (low : 32 * e ≤ 2 ^ 25) (past : inode.iSize.toNat ≤ 1024 * (e / 32)) :
    ∃ h m', search int13 int10 back kernelStr .outerLoop m = .error h m' := by
  obtain ⟨there', sp', -, compare⟩ := outer_compare there code size low
  simp only [search]
  rw [modify_bind, get_bind]
  split
  · exact ⟨_, _, rfl⟩
  · obtain ⟨m', run⟩ := callLoadZone_halts int13 back there'.toReady (sp'.trans sp) size
      (show e / 32 ≤ 2 ^ 15 by omega) (by omega)
    rw [there'.ds, there'.zone, bind_of_error run]
    exact ⟨_, _, rfl⟩

/-- Else the zone is loaded, and its entries are gone through from the first one on. -/
theorem outerLoop_loads (bios : LoadsSectors int13 drive disk) (int10 : Machine σ → Machine σ) (back : Nat → UInt16)
    (there : Searching drive inode first kernelStr e m) (code : InCode kernelStr) (sp : m.sp = stackTop)
    (size : inode.iSize.toNat ≤ 2 ^ 25) (starts : e % 32 = 0) (more : 32 * e < inode.iSize.toNat) :
    ∃ m', search int13 int10 back kernelStr .outerLoop m = .ok (.inl .innerLoop) m' ∧ m'.sp = stackTop ∧
      InZone drive disk inode first kernelStr e m' := by
  obtain ⟨there', sp', bytes, compare⟩ := outer_compare there code size (by omega)
  generalize enter : lkZone m = z at there' sp' bytes compare
  have top : z.sp = stackTop := sp'.trans sp
  have top' : z.sp.toNat = 0x1000 := congrArg UInt16.toNat top
  obtain ⟨m₁, way, run, loaded⟩ := callLoadZone_loads (b := e / 32) bios back there'.toReady top size (by omega)
  have outside {x : Nat} (packet_ : x < 0x500 ∨ 0x510 ≤ x) (buffer_ : x < 0x600 ∨ 0xa00 ≤ x) (stack : x < 0xfec) :
      m₁.memory x = z.memory x := loaded.away x packet_ buffer_ (by omega)
  have memory : (m₁.setWord m₁.ds currentDirentryIndex 0).memory = store m₁.memory 0x556 2 (0 : UInt16).toNat := by
    rw [loaded.ds, there'.ds]
    rfl
  have outside' {x : Nat} (away : x < 0x556 ∨ 0x558 ≤ x) :
      (m₁.setWord m₁.ds currentDirentryIndex 0).memory x = m₁.memory x := by
    rw [memory, store_away (by decide) away]
  generalize started : m₁.setWord m₁.ds currentDirentryIndex 0 = s at memory outside'
  have fields : s.ds = z.ds ∧ s.ss = z.ss ∧ s.sp = stackTop := by
    rw [← started]
    exact ⟨loaded.ds, loaded.ss, loaded.sp.trans top⟩
  obtain ⟨ds, ss, sp₁⟩ := fields
  have kept : Searching drive inode first kernelStr e s := there'.keep code ds ss fun x here => by
    rw [outside' (by omega), outside (by omega) (by omega) (by omega)]
  refine ⟨s, ?_, sp₁, { kept with bytes := ?_, index := ?_, buffer := fun i low => ?_ }⟩
  · simp only [search]
    rw [modify_bind, get_bind, enter, if_neg (by rw [compare]; omega), there'.ds, there'.zone, bind_of_ok run,
      modify_bind, started]
    rfl
  · rw [← bytes]
    have place : currentZoneBytes.toNat = 0x552 := rfl
    exact dword_congr fun i low => by rw [outside' (by omega), outside (by omega) (by omega) (by omega)]
  · rw [Machine.word, memory, starts]
    exact stored_word
  · rw [outside' (by omega), loaded.buffer i low, fileByte, show (1024 * (e / 32) + i) / 1024 = e / 32 by omega,
      show (1024 * (e / 32) + i) % 1024 = i by omega]

/-! ## The inner loop -/

theorem deAddress_stores (there : InZone drive disk inode first kernelStr e m) (code : InCode kernelStr) :
    AtEntry drive disk inode first kernelStr e (deAddress m) ∧ (deAddress m).sp = m.sp ∧
      (deAddress m).word 0 currentDirentryOffset = UInt16.ofNat (32 * (e % 32)) := by
  have shifted : UInt16.ofNat (e % 32) <<< 5 = UInt16.ofNat (32 * (e % 32)) := by
    apply UInt16.toNat_inj.mp
    rw [UInt16.toNat_shiftLeft, ofNat_toNat_low (by omega), ofNat_toNat_low (by omega), show (5 : UInt16).toNat % 16 = 5
      from rfl, Nat.shiftLeft_eq]
    omega
  have based : UInt16.ofNat (32 * (e % 32)) + bufferBase = UInt16.ofNat (entryAddr e) := by
    rw [show bufferBase = UInt16.ofNat 0x600 from rfl, ← UInt16.ofNat_add, entryAddr, Nat.add_comm]
  have memory : (deAddress m).memory = store (store m.memory 0x558 2 (UInt16.ofNat (32 * (e % 32))).toNat) 0x55a 2
      (UInt16.ofNat (entryAddr e)).toNat := by
    have ds := there.ds
    have index := there.index
    rw [← based, ← shifted, ← index]
    clear there shifted based index
    obtain ⟨⟩ := m
    dsimp only at ds
    subst ds
    simp only [deAddress, setLow_toUInt16, Machine.setWord, linear_zero]
    rfl
  have fields : (deAddress m).ds = m.ds ∧ (deAddress m).ss = m.ss ∧ (deAddress m).sp = m.sp := ⟨rfl, rfl, rfl⟩
  generalize deAddress m = z at memory fields ⊢
  obtain ⟨ds, ss, sp⟩ := fields
  have kept : InZone drive disk inode first kernelStr e z := there.keep code ds ss fun x here => by
    unfold Held at here
    rw [memory, store_away (by decide) (by omega), store_away (by decide) (by omega)]
  refine ⟨{ kept with addr := ?_ }, sp, ?_⟩
  · rw [Machine.word, memory]
    exact stored_word
  · rw [Machine.word, memory]
    change UInt16.ofNat (load _ 0x558 2) = _
    rw [load_store_apart _ _ (by decide)]
    exact stored_word

/-- The two sides of the compare with the end. -/
theorem inner_compare (there : InZone drive disk inode first kernelStr e m) (code : InCode kernelStr)
    (size : inode.iSize.toNat ≤ 2 ^ 25) (low : 32 * e ≤ 2 ^ 25) :
    AtEntry drive disk inode first kernelStr e (deOffset (deAddress m)) ∧ (deOffset (deAddress m)).sp = m.sp ∧
      ((deOffset (deAddress m)).ebx.toInt32 < (deOffset (deAddress m)).eax.toInt32 ↔
        inode.iSize.toNat < 32 * e) := by
  obtain ⟨at_, sp, offset⟩ := deAddress_stores there code
  generalize deAddress m = z at at_ sp offset ⊢
  have value : ((UInt16.ofNat (32 * (e % 32))).toUInt32 + UInt32.ofNat (1024 * (e / 32))).toNat = 32 * e := by
    rw [UInt32.toNat_add, UInt16.toNat_toUInt32, ofNat_toNat_low (by omega), ofNat_toNat_small (by omega)]
    omega
  have fields : (deOffset z).ebx = inode.iSize ∧
      (deOffset z).eax = (UInt16.ofNat (32 * (e % 32))).toUInt32 + UInt32.ofNat (1024 * (e / 32)) := by
    constructor
    · rw [← at_.size, ← at_.ds]
      rfl
    · rw [← at_.bytes, ← offset, ← at_.ds, ← setLow_and z.eax]
      rfl
  refine ⟨at_.keep code rfl rfl fun x _ => rfl, sp, ?_⟩
  rw [fields.1, fields.2, signed_less (by omega) (by omega), value]

theorem innerLoop_halts (int13 int10 : Machine σ → Machine σ) (back : Nat → UInt16)
    (there : InZone drive disk inode first kernelStr e m) (code : InCode kernelStr)
    (size : inode.iSize.toNat ≤ 2 ^ 25) (low : 32 * e ≤ 2 ^ 25) (past : inode.iSize.toNat < 32 * e) :
    ∃ m', search int13 int10 back kernelStr .innerLoop m = .error .noFileStr m' := by
  obtain ⟨-, -, compare⟩ := inner_compare there code size low
  simp only [search]
  rw [modify_bind, modify_bind, get_bind, if_pos (compare.mpr past)]
  exact ⟨_, rfl⟩

/-- The address of the entry in AX. -/
theorem deLoad_ax (at_ : AtEntry drive disk inode first kernelStr e m) :
    (deLoad m).eax.toUInt16 = UInt16.ofNat (entryAddr e) := by
  change (setLow m.eax (m.word m.ds currentDirentryAddr)).toUInt16 = _
  rw [setLow_toUInt16, at_.ds, at_.addr]

theorem dePushName_eq (at_ : AtEntry drive disk inode first kernelStr e m) :
    ∃ eax, dePushName (deLoad m) = { m with eax := eax }.push (UInt16.ofNat (entryAddr e + 2)) := by
  refine ⟨setLow (deLoad m).eax (UInt16.ofNat (entryAddr e + 2)), ?_⟩
  unfold dePushName
  rw [deLoad_ax at_, UInt16.ofNat_add]
  simp only [setLow_toUInt16]
  rfl

/-- The call of `strcmp`. -/
theorem stEnter_compares (at_ : AtEntry drive disk inode first kernelStr e m) (code : InCode kernelStr)
    (sp : m.sp = stackTop) (back₄ : UInt16) :
    Comparing drive disk inode first kernelStr e 0
      (stEnter (((dePushName (deLoad m)).push kernelStr).push back₄)) := by
  obtain ⟨eax, pushes⟩ := dePushName_eq at_
  rw [pushes]
  obtain ⟨sp₃, name, text, away⟩ := frame_pushed (m := { m with eax := eax }) at_.ss sp
    (UInt16.ofNat (entryAddr e + 2)) kernelStr back₄
  have fields : ((({ m with eax := eax }.push (UInt16.ofNat (entryAddr e + 2))).push kernelStr).push back₄).ds = m.ds ∧
      ((({ m with eax := eax }.push (UInt16.ofNat (entryAddr e + 2))).push kernelStr).push back₄).ss = m.ss :=
    ⟨rfl, rfl⟩
  generalize (({ m with eax := eax }.push (UInt16.ofNat (entryAddr e + 2))).push kernelStr).push back₄ = c at *
  obtain ⟨ds, ss⟩ := fields
  obtain ⟨sp₄, -, away₄⟩ := push_onto (s := 0xff8) (ss.trans at_.ss) sp₃ (by decide) c.bp
  have name₄ := (word_above away₄ (a := 0xffe) (by decide) (by decide)).trans name
  have text₄ := (word_above away₄ (a := 0xffc) (by decide) (by decide)).trans text
  have kept : AtEntry drive disk inode first kernelStr e (stEnter c) := at_.keep code ds ss fun x here => by
    unfold Held at here
    exact (away₄ x (by omega)).trans (away x (by omega))
  have ss₄ : (c.push c.bp).ss = 0 := ss.trans at_.ss
  refine { kept with sp := sp₄, si := ?_, di := ?_, low := by decide, same := fun j low => absurd low (by omega) }
  · change (c.push c.bp).word (c.push c.bp).ss ((c.push c.bp).sp + 4) = _
    rw [ss₄, sp₄, Nat.add_zero, UInt16.ofNat_toNat]
    exact text₄
  · change (c.push c.bp).word (c.push c.bp).ss ((c.push c.bp).sp + 6) = _
    rw [ss₄, sp₄]
    exact name₄

/-- An entry that is not behind the end is compared, whatever its inode number is. -/
theorem innerLoop_compares (int13 int10 : Machine σ → Machine σ) (back : Nat → UInt16)
    (there : InZone drive disk inode first kernelStr e m) (code : InCode kernelStr) (sp : m.sp = stackTop)
    (size : inode.iSize.toNat ≤ 2 ^ 25) (within : 32 * e ≤ inode.iSize.toNat) :
    ∃ m', search int13 int10 back kernelStr .innerLoop m = .ok (.inl .strcmpLoop) m' ∧
      Comparing drive disk inode first kernelStr e 0 m' := by
  obtain ⟨at_, sp', compare⟩ := inner_compare there code size (by omega)
  generalize enter : deOffset (deAddress m) = z at at_ sp' compare
  have nonzero : ¬ (deLoad z).eax.toUInt16 = 0 := by
    rw [deLoad_ax at_]
    intro zero
    have value := congrArg UInt16.toNat zero
    rw [ofNat_toNat_low (by unfold entryAddr; omega)] at value
    change 0x600 + 32 * (e % 32) = 0 at value
    omega
  refine ⟨_, ?_, stEnter_compares at_ code (sp'.trans sp) (back 4)⟩
  simp only [search]
  rw [modify_bind, modify_bind, get_bind, enter, if_neg (by rw [compare]; omega), modify_bind, get_bind,
    if_neg nonzero, modify_bind, modify_bind, modify_bind]
  rfl

/-! ## strcmp -/

theorem Comparing.chars (there : Comparing drive disk inode first kernelStr e k m) (code : InCode kernelStr) :
    (stLoad m).eax.toUInt8 = kernelText k ∧ (stLoad m).ebx.toUInt8 = fileByte disk first inode (32 * e + 2 + k) := by
  have low := there.low
  have left : m.byte m.ds m.si = kernelText k := by
    rw [there.ds, byte_eq, there.si, ofNat_toNat_low (by unfold InCode at code; omega), there.text k low]
  have right : m.byte m.ds m.di = fileByte disk first inode (32 * e + 2 + k) := by
    rw [there.ds, byte_eq, there.di, ofNat_toNat_low (by unfold entryAddr; omega), Nat.add_assoc,
      there.entry_byte (by omega), Nat.add_assoc]
  rw [← left, ← right]
  exact ⟨setByteLow_toUInt8 _ _, setByteLow_toUInt8 _ _⟩

theorem compared_run (ax : UInt16) (m : Machine σ) : compared ax m =
    .ok (if ax = 0 then .inr () else .inl .innerLoopContinue) (stDone ax m) := by
  have result : (stDone ax m).eax.toUInt16 = ax := setLow_toUInt16 _ _
  unfold compared
  rw [modify_bind, get_bind, result]
  split <;> rfl

/-- Back from `strcmp`. -/
theorem stDone_keeps (there : Comparing drive disk inode first kernelStr e k m) (code : InCode kernelStr)
    (ax : UInt16) : AtEntry drive disk inode first kernelStr e (stDone ax (stLoad m)) ∧
      (stDone ax (stLoad m)).sp = stackTop := by
  refine ⟨there.keep code rfl rfl fun x _ => rfl, ?_⟩
  change m.sp + 2 + 2 + 4 = stackTop
  rw [there.sp]
  rfl

theorem strcmp_differs (int13 int10 : Machine σ → Machine σ) (back : Nat → UInt16)
    (there : Comparing drive disk inode first kernelStr e k m) (code : InCode kernelStr)
    (differs : fileByte disk first inode (32 * e + 2 + k) ≠ kernelText k) :
    ∃ m', search int13 int10 back kernelStr .strcmpLoop m = .ok (.inl .innerLoopContinue) m' ∧
      AtEntry drive disk inode first kernelStr e m' ∧ m'.sp = stackTop := by
  obtain ⟨al, bl⟩ := there.chars code
  simp only [search]
  rw [modify_bind, get_bind, al, bl]
  split
  · exact ⟨_, compared_run _ _, stDone_keeps there code _⟩
  split
  · exact ⟨_, compared_run _ _, stDone_keeps there code _⟩
  · next above below =>
    exact absurd (congrArg Int8.toUInt8 (Int8.le_antisymm (Int8.not_lt.mp above) (Int8.not_lt.mp below))) differs

theorem strcmp_same (int13 int10 : Machine σ → Machine σ) (back : Nat → UInt16)
    (there : Comparing drive disk inode first kernelStr e k m) (code : InCode kernelStr)
    (same : fileByte disk first inode (32 * e + 2 + k) = kernelText k) :
    ∃ m', (k = 6 ∧ search int13 int10 back kernelStr .strcmpLoop m = .ok (.inr ()) m' ∧
        AtEntry drive disk inode first kernelStr e m') ∨
      (search int13 int10 back kernelStr .strcmpLoop m = .ok (.inl .strcmpLoop) m' ∧
        Comparing drive disk inode first kernelStr e (k + 1) m') := by
  have low := there.low
  obtain ⟨al, bl⟩ := there.chars code
  simp only [search]
  rw [modify_bind, get_bind, al, bl, same, if_neg Int8.lt_irrefl, if_neg Int8.lt_irrefl]
  by_cases last : k = 6
  · rw [if_pos ((kernelText_zero_iff low).mpr last)]
    exact ⟨_, .inl ⟨last, compared_run _ _, (stDone_keeps there code _).1⟩⟩
  · rw [if_neg (mt (kernelText_zero_iff low).mp last)]
    have kept : AtEntry drive disk inode first kernelStr e
        { stLoad m with si := (stLoad m).si + 1, di := (stLoad m).di + 1 } := there.keep code rfl rfl fun x _ => rfl
    refine ⟨_, .inr ⟨rfl, { kept with
      sp := there.sp, si := ?_, di := ?_, low := by omega, same := fun j before => ?_ }⟩⟩
    · change m.si + 1 = _
      rw [there.si, ← Nat.add_assoc, UInt16.ofNat_add _ 1]
      rfl
    · change m.di + 1 = _
      rw [there.di, ← Nat.add_assoc, UInt16.ofNat_add _ 1]
      rfl
    · obtain rfl | earlier : j = k ∨ j < k := by omega
      · exact same
      · exact there.same j earlier

/-! ## print_str -/

theorem psEnter_prints (int13 int10 : Machine σ → Machine σ) (back : Nat → UInt16)
    (there : AtEntry drive disk inode first kernelStr e m) (code : InCode kernelStr) (sp : m.sp = stackTop) :
    ∃ m', search int13 int10 back kernelStr .innerLoopContinue m = .ok (.inl .printStrLoop) m' ∧
      Printing drive disk inode first kernelStr e (entryAddr e + 2) m' := by
  refine ⟨psEnter ((dePushName (deLoad m)).push (back 5)), rfl, ?_⟩
  obtain ⟨eax, pushes⟩ := dePushName_eq there
  rw [pushes]
  obtain ⟨down, name, -, away⟩ := frame_pushed (m := { m with eax := eax }) there.ss sp
    (UInt16.ofNat (entryAddr e + 2)) (back 5) m.bp
  have fields : ((({ m with eax := eax }.push (UInt16.ofNat (entryAddr e + 2))).push (back 5)).push m.bp).ds = m.ds ∧
      ((({ m with eax := eax }.push (UInt16.ofNat (entryAddr e + 2))).push (back 5)).push m.bp).ss = m.ss := ⟨rfl, rfl⟩
  have same : psEnter (({ m with eax := eax }.push (UInt16.ofNat (entryAddr e + 2))).push (back 5)) =
      let c := (({ m with eax := eax }.push (UInt16.ofNat (entryAddr e + 2))).push (back 5)).push m.bp
      let ax := setLow c.eax (c.word c.ss (c.sp + 4))
      { c with bp := c.sp, sp := c.sp - 2, eax := ax }.setWord c.ss (c.sp - 2) ax.toUInt16 := rfl
  rw [same]
  generalize (({ m with eax := eax }.push (UInt16.ofNat (entryAddr e + 2))).push (back 5)).push m.bp = c at *
  obtain ⟨ds, ss⟩ := fields
  have ss₀ : c.ss = 0 := ss.trans there.ss
  have arg : c.word c.ss (c.sp + 4) = UInt16.ofNat (entryAddr e + 2) := by
    rw [ss₀, down]
    exact name
  dsimp only
  rw [arg, setLow_toUInt16, ss₀, down, show (0xffa : UInt16) - 2 = 0xff8 from rfl]
  generalize result : Machine.setWord _ _ _ _ = p
  have fields : p.ds = c.ds ∧ p.ss = c.ss ∧ p.sp = 0xff8 ∧ p.bp = 0xffa ∧
      p.memory = store c.memory 0xff8 2 (UInt16.ofNat (entryAddr e + 2)).toNat := by
    rw [← result]
    exact ⟨rfl, ss₀.symm, rfl, rfl, rfl⟩
  obtain ⟨ds', ss', sp', bp', memory⟩ := fields
  have kept : AtEntry drive disk inode first kernelStr e p := there.keep code (ds'.trans ds) (ss'.trans ss)
    fun x here => by
      unfold Held at here
      rw [memory, store_away (by decide) (by omega), away x (by omega)]
  refine { kept with sp := sp', bp := bp', pointer := ?_, above := ?_, below := ?_ }
  · rw [Machine.word, memory]
    exact stored_word
  · unfold entryAddr
    omega
  · unfold entryAddr InCode at *
    omega

theorem Printing.char (there : Printing drive disk inode first kernelStr e x m) (code : InCode kernelStr) :
    (psChar m).eax.toUInt8 = m.memory x := by
  have below := there.below
  have pointer : m.word m.ss (m.bp - 2) = UInt16.ofNat x := by
    rw [there.ss, there.bp]
    exact there.pointer
  have read : m.byte m.ds (m.word m.ss (m.bp - 2)) = m.memory x := by
    rw [there.ds, pointer, byte_eq, ofNat_toNat_low (by unfold InCode at code; omega)]
  rw [← read]
  exact setByteLow_toUInt8 _ _

/-- A character is printed. The text of the loader ends the string at the latest. -/
theorem printStr_next (video : Prints int10) (int13 : Machine σ → Machine σ) (back : Nat → UInt16)
    (there : Printing drive disk inode first kernelStr e x m) (code : InCode kernelStr) (char : m.memory x ≠ 0) :
    ∃ m', search int13 int10 back kernelStr .printStrLoop m = .ok (.inl .printStrLoop) m' ∧
      Printing drive disk inode first kernelStr e (x + 1) m' := by
  have below := there.below
  have zero_ : m.memory (kernelStr.toNat + 6) = 0 := there.text 6 (by decide)
  have before : x ≠ kernelStr.toNat + 6 := fun same => char (same ▸ zero_)
  refine ⟨psNext (int10 (psTeletype (psChar m))), ?_, ?_⟩
  · simp only [search]
    rw [modify_bind, get_bind, there.char code, if_neg char]
    rfl
  obtain ⟨bp, sp, ds, ss⟩ := video.kept _ (psTeletype_ah (psChar m))
  have memory := video.memory _ (psTeletype_ah (psChar m))
  have fields : (psTeletype (psChar m)).bp = m.bp ∧ (psTeletype (psChar m)).sp = m.sp ∧
      (psTeletype (psChar m)).ds = m.ds ∧ (psTeletype (psChar m)).ss = m.ss ∧
      (psTeletype (psChar m)).memory = m.memory := ⟨rfl, rfl, rfl, rfl, rfl⟩
  generalize psTeletype (psChar m) = p at *
  obtain ⟨bp₀, sp₀, ds₀, ss₀, memory₀⟩ := fields
  rw [bp₀] at bp
  rw [sp₀] at sp
  rw [ds₀] at ds
  rw [ss₀] at ss
  have low : m.sp.toNat = 0xff8 := congrArg UInt16.toNat there.sp
  rw [sp₀, low, memory₀] at memory
  generalize int10 p = q at *
  have pointer : q.word q.ss (q.bp - 2) = UInt16.ofNat x := by
    rw [ss, bp, there.ss, there.bp, ← there.pointer]
    exact word_congr fun i low => memory _ (by
      right
      change 0xff8 ≤ 0xff8 + i ∧ 0xff8 + i < 0x1000
      omega)
  have stored : (psNext q).memory = store q.memory 0xff8 2 (UInt16.ofNat (x + 1)).toNat := by
    have memory' : (psNext q).memory = store q.memory (linear q.ss (q.bp - 2)) 2
        (setLow (setLow q.eax (q.word q.ss (q.bp - 2)))
          ((setLow q.eax (q.word q.ss (q.bp - 2))).toUInt16 + 1)).toUInt16.toNat := rfl
    rw [memory', setLow_toUInt16, setLow_toUInt16, pointer, ss, bp, there.ss, there.bp, UInt16.ofNat_add x 1]
    rfl
  have fields : (psNext q).ds = q.ds ∧ (psNext q).ss = q.ss ∧ (psNext q).sp = q.sp ∧ (psNext q).bp = q.bp :=
    ⟨rfl, rfl, rfl, rfl⟩
  generalize psNext q = r at *
  obtain ⟨ds', ss', sp', bp'⟩ := fields
  have kept : AtEntry drive disk inode first kernelStr e r :=
    there.keep code (ds'.trans ds) (ss'.trans ss) fun y here => by
      unfold Held at here
      rw [stored, store_away (by decide) (by omega), memory y (by omega)]
  have above := there.above
  refine { kept with
    sp := sp'.trans (sp.trans there.sp), bp := bp'.trans (bp.trans there.bp), pointer := ?_, above := by omega
    below := by omega }
  rw [Machine.word, stored]
  exact stored_word

/-- The loader goes on with entry `e`, in the zone of the last one or in the next zone. -/
inductive Entering {σ : Type} (drive : UInt8) (disk : Nat → UInt8) (inode : Inode) (first : UInt32)
    (kernelStr : UInt16) (e : Nat) : Place → Machine σ → Prop
  | zone {m : Machine σ} (starts : e % 32 = 0) (sp : m.sp = stackTop)
      (there : Searching drive inode first kernelStr e m) : Entering drive disk inode first kernelStr e .outerLoop m
  | inside {m : Machine σ} (within : e % 32 ≠ 0) (sp : m.sp = stackTop)
      (there : InZone drive disk inode first kernelStr e m) :
      Entering drive disk inode first kernelStr e .innerLoop m

theorem deNext_index (there : InZone drive disk inode first kernelStr e m) :
    (deNext m).eax.toUInt16 = UInt16.ofNat (e % 32 + 1) ∧
      (deNext m).memory = store m.memory 0x556 2 (UInt16.ofNat (e % 32 + 1)).toNat := by
  have result : (deNext m).eax.toUInt16 = UInt16.ofNat (e % 32 + 1) := by
    change (setLow (setLow m.eax (m.word m.ds currentDirentryIndex))
      ((setLow m.eax (m.word m.ds currentDirentryIndex)).toUInt16 + 1)).toUInt16 = _
    rw [setLow_toUInt16, setLow_toUInt16, there.ds, there.index, UInt16.ofNat_add _ 1]
    rfl
  refine ⟨result, ?_⟩
  have ds := there.ds
  have index := there.index
  clear result there
  rw [UInt16.ofNat_add _ 1]
  obtain ⟨⟩ := m
  dsimp only at ds
  subst ds
  simp only [deNext, index, setLow_toUInt16, Machine.setWord, linear_zero]
  rfl

/-- Behind the string, the next entry is gone to. -/
theorem printStr_ends (int13 int10 : Machine σ → Machine σ) (back : Nat → UInt16)
    (there : Printing drive disk inode first kernelStr e x m) (code : InCode kernelStr) (char : m.memory x = 0) :
    ∃ place m', search int13 int10 back kernelStr .printStrLoop m = .ok (.inl place) m' ∧
      Entering drive disk inode first kernelStr (e + 1) place m' := by
  have returned : InZone drive disk inode first kernelStr e ((psDone (psChar m)).addSp 2) :=
    there.toInZone.keep code rfl rfl fun x _ => rfl
  have top : ((psDone (psChar m)).addSp 2).sp = stackTop := by
    change m.sp + 2 + 2 + 2 + 2 = stackTop
    rw [there.sp]
    rfl
  have run : search int13 int10 back kernelStr .printStrLoop m = printed (psChar m) := by
    simp only [search]
    rw [modify_bind, get_bind, there.char code, if_pos char]
  rw [run]
  unfold printed
  rw [modify_bind, modify_bind, get_bind]
  generalize (psDone (psChar m)).addSp 2 = p at returned top ⊢
  obtain ⟨index, memory⟩ := deNext_index returned
  have fields : (deNext p).ds = p.ds ∧ (deNext p).ss = p.ss ∧ (deNext p).sp = p.sp := ⟨rfl, rfl, rfl⟩
  have compare : 32 ≤ (deNext p).eax.toUInt16.toInt16 ↔ 32 ≤ e % 32 + 1 := by
    rw [index]
    exact signed_compare (n := 32) (by omega) (by decide)
  generalize deNext p = q at index memory fields compare ⊢
  obtain ⟨ds, ss, sp⟩ := fields
  have outside {x : Nat} (away : x < 0x556 ∨ 0x558 ≤ x) : q.memory x = p.memory x := by
    rw [memory, store_away (by decide) away]
  have zone : q.word 0 currentZoneIndex = UInt16.ofNat (e / 32) :=
    (word_congr fun i low => outside (by left; change 0x550 + i < 0x556; omega)).trans returned.zone
  have kept : Searching drive inode first kernelStr e q := returned.toSearching.keep code ds ss fun x here =>
    outside (by omega)
  by_cases last : 32 ≤ e % 32 + 1
  · rw [if_pos (compare.mpr last)]
    obtain ⟨ds', ss', sp', memory'⟩ := lkNext_keeps kept.ds zone
    have outside' {x : Nat} (away : x < 0x550 ∨ 0x552 ≤ x) : (lkNext q).memory x = q.memory x := by
      rw [memory', store_away (by decide) away]
    refine ⟨.outerLoop, lkNext q, rfl, .zone (by omega) (sp'.trans (sp.trans top)) {
      kept.toReady.keep ds' ss' fun x here => outside' (by omega) with
      text := fun k low => (outside' (by unfold InCode at code; omega)).trans (kept.text k low), zone := ?_ }⟩
    rw [Machine.word, memory', show (e + 1) / 32 = e / 32 + 1 by omega]
    exact stored_word
  · rw [if_neg (mt compare.mp last)]
    refine ⟨.innerLoop, q, rfl, .inside (by omega) (sp.trans top) { kept with
      zone := ?_, bytes := ?_, index := ?_, buffer := fun i low => ?_ }⟩
    · rw [zone, show (e + 1) / 32 = e / 32 by omega]
    · rw [show (e + 1) / 32 = e / 32 by omega, ← returned.bytes]
      exact dword_congr fun i low => outside (by left; change 0x552 + i < 0x556; omega)
    · rw [Machine.word, memory, show (e + 1) % 32 = e % 32 + 1 by omega]
      exact stored_word
    · rw [outside (by omega), returned.buffer i low, show (e + 1) / 32 = e / 32 by omega]

/-! ## Runs -/

/-- `strcmp` returns, and tells whether the entry has the name. -/
theorem strcmp_returns (int13 int10 : Machine σ → Machine σ) (back : Nat → UInt16)
    (there : Comparing drive disk inode first kernelStr e k m) (code : InCode kernelStr) :
    ∃ m', AtEntry drive disk inode first kernelStr e m' ∧
      ((Named (fileByte disk first inode) e ∧
          Ends (search int13 int10 back kernelStr) .strcmpLoop m (.ok () m')) ∨
        (¬ Named (fileByte disk first inode) e ∧ m'.sp = stackTop ∧
          Leads (search int13 int10 back kernelStr) .strcmpLoop m .innerLoopContinue m')) := by
  have low := there.low
  obtain ⟨left, sum⟩ : ∃ left, k + left = 6 := ⟨6 - k, by omega⟩
  induction left generalizing k m with
  | zero =>
    by_cases same : fileByte disk first inode (32 * e + 2 + k) = kernelText k
    · obtain ⟨m', ⟨-, run, at_⟩ | ⟨-, next⟩⟩ := strcmp_same int13 int10 back there code same
      · refine ⟨m', at_, .inl ⟨fun j low' => ?_, .done run⟩⟩
        obtain rfl | before : j = k ∨ j < k := by omega
        · exact same
        · exact there.same j before
      · exact absurd next.low (by omega)
    · obtain ⟨m', run, at_, sp⟩ := strcmp_differs int13 int10 back there code same
      exact ⟨m', at_, .inr ⟨fun named => same (named k low), sp, .step run (.refl _ _)⟩⟩
  | succ left ih =>
    by_cases same : fileByte disk first inode (32 * e + 2 + k) = kernelText k
    · obtain ⟨m₁, ⟨last, -⟩ | ⟨run, next⟩⟩ := strcmp_same int13 int10 back there code same
      · omega
      · obtain ⟨m', at_, ⟨named, ends⟩ | ⟨other, sp, way⟩⟩ := ih next next.low (by omega)
        · exact ⟨m', at_, .inl ⟨named, ends.next run⟩⟩
        · exact ⟨m', at_, .inr ⟨other, sp, .step run way⟩⟩
    · obtain ⟨m', run, at_, sp⟩ := strcmp_differs int13 int10 back there code same
      exact ⟨m', at_, .inr ⟨fun named => same (named k low), sp, .step run (.refl _ _)⟩⟩

/-- `print_str` returns, whatever the name of the entry is. -/
theorem printStr_returns (video : Prints int10) (int13 : Machine σ → Machine σ) (back : Nat → UInt16)
    (there : Printing drive disk inode first kernelStr e x m) (code : InCode kernelStr) :
    ∃ place m', Leads (search int13 int10 back kernelStr) .printStrLoop m place m' ∧
      Entering drive disk inode first kernelStr (e + 1) place m' := by
  have below := there.below
  obtain ⟨left, sum⟩ : ∃ left, x + left = kernelStr.toNat + 6 := ⟨kernelStr.toNat + 6 - x, by omega⟩
  induction left generalizing x m with
  | zero =>
    have zero_ : m.memory x = 0 := by
      rw [show x = kernelStr.toNat + 6 by omega]
      exact there.text 6 (by decide)
    obtain ⟨place, m', run, next⟩ := printStr_ends int13 int10 back there code zero_
    exact ⟨place, m', .step run (.refl _ _), next⟩
  | succ left ih =>
    by_cases char : m.memory x = 0
    · obtain ⟨place, m', run, next⟩ := printStr_ends int13 int10 back there code char
      exact ⟨place, m', .step run (.refl _ _), next⟩
    · obtain ⟨m₁, run, rest⟩ := printStr_next video int13 back there code char
      obtain ⟨place, m', way, next⟩ := ih rest rest.below (by omega)
      exact ⟨place, m', .step run way, next⟩

/-- The loops get to entry `e`: it does not start behind the end, and its zone starts before it. -/
def Examined (size e : Nat) : Prop := 32 * e ≤ size ∧ 1024 * (e / 32) < size

/-- What becomes of an entry that the loops get to. -/
theorem entry_compared (video : Prints int10) (int13 : Machine σ → Machine σ) (back : Nat → UInt16)
    (there : InZone drive disk inode first kernelStr e m) (code : InCode kernelStr) (sp : m.sp = stackTop)
    (size : inode.iSize.toNat ≤ 2 ^ 25) (within : 32 * e ≤ inode.iSize.toNat) :
    (Named (fileByte disk first inode) e ∧ ∃ m', AtEntry drive disk inode first kernelStr e m' ∧
        Ends (search int13 int10 back kernelStr) .innerLoop m (.ok () m')) ∨
      (¬ Named (fileByte disk first inode) e ∧ ∃ place m', Entering drive disk inode first kernelStr (e + 1) place m' ∧
        Leads (search int13 int10 back kernelStr) .innerLoop m place m') := by
  obtain ⟨m₁, run, comparing⟩ := innerLoop_compares int13 int10 back there code sp size within
  obtain ⟨m₂, at_, ⟨named, ends⟩ | ⟨other, sp₂, way⟩⟩ := strcmp_returns int13 int10 back comparing code
  · exact .inl ⟨named, m₂, at_, ends.next run⟩
  · obtain ⟨m₃, enter, printing⟩ := psEnter_prints int13 int10 back at_ code sp₂
    obtain ⟨place, m', rest, next⟩ := printStr_returns video int13 back printing code
    exact .inr ⟨other, place, m', next, (Leads.step run way).trans (.step enter rest)⟩

/-- How the search ends, from entry `e` on: at the first entry of the name, or halted with none. -/
inductive Outcome {σ : Type} (drive : UInt8) (disk : Nat → UInt8) (inode : Inode) (first : UInt32)
    (kernelStr : UInt16) (e : Nat) : EStateM.Result Halt (Machine σ) Unit → Prop
  | found {e' : Nat} {m : Machine σ} (behind : e ≤ e') (examined : Examined inode.iSize.toNat e')
      (named : Named (fileByte disk first inode) e')
      (before : ∀ i, e ≤ i → i < e' → ¬ Named (fileByte disk first inode) i)
      (at_ : AtEntry drive disk inode first kernelStr e' m) : Outcome drive disk inode first kernelStr e (.ok () m)
  | halted {h : Halt} {m : Machine σ}
      (none_ : ∀ i, e ≤ i → Examined inode.iSize.toNat i → ¬ Named (fileByte disk first inode) i) :
      Outcome drive disk inode first kernelStr e (.error h m)

/-- An entry without the name is passed by. -/
theorem Outcome.skip {r : EStateM.Result Halt (Machine σ) Unit}
    (rest : Outcome drive disk inode first kernelStr (e + 1) r) (other : ¬ Named (fileByte disk first inode) e) :
    Outcome drive disk inode first kernelStr e r := by
  cases rest with
  | @found e' m behind examined named before at_ =>
    refine .found (by omega) examined named (fun i from_ upto => ?_) at_
    obtain rfl | later : i = e ∨ e + 1 ≤ i := by omega
    · exact other
    · exact before i later upto
  | halted none_ =>
    refine .halted fun i from_ => ?_
    obtain rfl | later : i = e ∨ e + 1 ≤ i := by omega
    · exact fun _ => other
    · exact none_ i later

theorem search_from (bios : LoadsSectors int13 drive disk) (video : Prints int10) (back : Nat → UInt16)
    (code : InCode kernelStr) (size : inode.iSize.toNat ≤ 2 ^ 25) {place : Place}
    (entering : Entering drive disk inode first kernelStr e place m) (low : e ≤ 2 ^ 20) :
    ∃ r, Ends (search int13 int10 back kernelStr) place m r ∧ Outcome drive disk inode first kernelStr e r := by
  obtain ⟨left, sum⟩ : ∃ left, e + left = 2 ^ 20 := ⟨2 ^ 20 - e, by omega⟩
  induction left generalizing e place m with
  | zero =>
    have past : ∀ i, e ≤ i → Examined inode.iSize.toNat i → ¬ Named (fileByte disk first inode) i :=
      fun i from_ examined => by unfold Examined at examined; omega
    cases entering with
    | zone starts sp there =>
      obtain ⟨h, m', run⟩ := outerLoop_halts int13 int10 back there code sp size (by omega) (by omega)
      exact ⟨_, .stop run, .halted past⟩
    | inside within => omega
  | succ left ih =>
    by_cases examined : Examined inode.iSize.toNat e
    · obtain ⟨m₁, way, inZone, sp⟩ : ∃ m₁, Leads (search int13 int10 back kernelStr) place m .innerLoop m₁ ∧
          InZone drive disk inode first kernelStr e m₁ ∧ m₁.sp = stackTop := by
        cases entering with
        | zone starts sp there =>
          obtain ⟨m₁, run, sp', inZone⟩ := outerLoop_loads bios int10 back there code sp size starts
            (by unfold Examined at examined; omega)
          exact ⟨m₁, .step run (.refl _ _), inZone, sp'⟩
        | inside within sp there => exact ⟨m, .refl _ _, there, sp⟩
      obtain ⟨named, m', at_, ends⟩ | ⟨other, place', m', next, way'⟩ :=
        entry_compared video int13 back inZone code sp size examined.1
      · exact ⟨_, ends.after way, .found (le_refl e) examined named (fun i from_ upto => by omega) at_⟩
      · obtain ⟨r, ends, outcome⟩ := ih next (by omega) (by omega)
        exact ⟨r, ends.after (way.trans way'), outcome.skip other⟩
    · have past : ∀ i, e ≤ i → Examined inode.iSize.toNat i → ¬ Named (fileByte disk first inode) i :=
        fun i from_ reached => by unfold Examined at examined reached; omega
      cases entering with
      | zone starts sp there =>
        obtain ⟨h, m', run⟩ := outerLoop_halts int13 int10 back there code sp size (by omega)
          (by unfold Examined at examined; omega)
        exact ⟨_, .stop run, .halted past⟩
      | inside within sp there =>
        by_cases behind : inode.iSize.toNat < 32 * e
        · obtain ⟨m', run⟩ := innerLoop_halts int13 int10 back there code size (by omega) behind
          exact ⟨_, .stop run, .halted past⟩
        · unfold Examined at examined
          omega

/-! ## The search -/

/-- Step 5, from its first instruction on. -/
def Searches (int13 int10 : Machine σ → Machine σ) (back : Nat → UInt16) (kernelStr : UInt16) (m : Machine σ)
    (r : EStateM.Result Halt (Machine σ) Unit) : Prop :=
  Ends (search int13 int10 back kernelStr) .outerLoop (m.setWord m.ds currentZoneIndex 0) r

/-- `_step_6` is reached at the first live entry with the name, and not reached where there is none. -/
def FindsKernel (int13 int10 : Machine σ → Machine σ) (back : Nat → UInt16) (kernelStr : UInt16) (drive : UInt8)
    (disk : Nat → UInt8) (inode : Inode) (first : UInt32) (m : Machine σ) : Prop :=
  (∀ e, FirstLive (fileByte disk first inode) inode.iSize.toNat e → ∃ m',
    AtEntry drive disk inode first kernelStr e m' ∧ Searches int13 int10 back kernelStr m (.ok () m')) ∧
    ((∀ e, 32 * e < inode.iSize.toNat → ¬ Live (fileByte disk first inode) e) →
      ∃ h m', Searches int13 int10 back kernelStr m (.error h m'))

/-- No hole in front of the first live entry with the name has the name as well; where no entry is live
with it, no hole has it, nor has what is in the slot right behind the end, if its zone is loaded. -/
def NoStaleName (dir : Nat → UInt8) (size : Nat) : Prop :=
  (∀ e, FirstLive dir size e → ∀ e' < e, ¬ Named dir e') ∧
    ((∀ e, 32 * e < size → ¬ Live dir e) → ∀ e, Examined size e → ¬ Named dir e)

theorem search_outcome (bios : LoadsSectors int13 drive disk) (video : Prints int10) (back : Nat → UInt16)
    (ready : Ready drive inode first m) (sp : m.sp = stackTop) (code : InCode kernelStr)
    (text : ∀ k < 7, m.memory (kernelStr.toNat + k) = kernelText k) (size : inode.iSize.toNat ≤ 2 ^ 25) :
    ∃ r, Searches int13 int10 back kernelStr m r ∧ Outcome drive disk inode first kernelStr 0 r := by
  obtain ⟨kept, zone, outside⟩ := ready.rewound
  refine search_from bios video back code size (.zone rfl sp { kept with text := fun k low => ?_, zone := zone })
    (by decide)
  rw [outside _ (by unfold InCode at code; omega), text k low]

theorem AtEntry.unique {e' : Nat} (one : AtEntry drive disk inode first kernelStr e m)
    (two : AtEntry drive disk inode first kernelStr e' m) (low : e < 2 ^ 20) (low' : e' < 2 ^ 20) : e = e' := by
  have zone := congrArg UInt16.toNat (one.zone.symm.trans two.zone)
  have addr := congrArg UInt16.toNat (one.addr.symm.trans two.addr)
  rw [ofNat_toNat_low (by omega), ofNat_toNat_low (by omega)] at zone
  unfold entryAddr at addr
  rw [ofNat_toNat_low (by omega), ofNat_toNat_low (by omega)] at addr
  omega

/-- The search is right for exactly the directories without a stale name in its way. -/
theorem finds_kernel_iff_no_stale_name (bios : LoadsSectors int13 drive disk) (video : Prints int10)
    (back : Nat → UInt16) (ready : Ready drive inode first m) (sp : m.sp = stackTop) (code : InCode kernelStr)
    (text : ∀ k < 7, m.memory (kernelStr.toNat + k) = kernelText k) (size : inode.iSize.toNat ≤ 2 ^ 25) :
    FindsKernel int13 int10 back kernelStr drive disk inode first m ↔
      NoStaleName (fileByte disk first inode) inode.iSize.toNat := by
  obtain ⟨r, ends, outcome⟩ := search_outcome bios video back ready sp code text size
  have small {e : Nat} (examined : Examined inode.iSize.toNat e) : e < 2 ^ 20 := by
    unfold Examined at examined
    omega
  have reached {e : Nat} (within : 32 * e < inode.iSize.toNat) : Examined inode.iSize.toNat e := by
    unfold Examined
    omega
  constructor
  · rintro ⟨finds, halts⟩
    constructor
    · intro e live e' before named
      obtain ⟨m', at_, ends'⟩ := finds e live
      cases Ends.unique ends ends'
      cases outcome with
      | @found e'' _ _ examined _ earlier at'' =>
        have same := at_.unique at'' (small (reached live.1)) (small examined)
        exact earlier e' (Nat.zero_le _) (by omega) named
    · intro none_ e examined named
      obtain ⟨h, m', ends'⟩ := halts none_
      cases Ends.unique ends ends'
      cases outcome with
      | halted never => exact never e (Nat.zero_le _) examined named
  · rintro ⟨holes, behind⟩
    constructor
    · intro e live
      cases outcome with
      | @found e' m' _ examined named earlier at_ =>
        have same : e' = e := by
          obtain before | same | after := Nat.lt_trichotomy e' e
          · exact absurd named (holes e live e' before)
          · exact same
          · exact absurd live.2.1.2 (earlier e (Nat.zero_le _) after)
        exact ⟨m', same ▸ at_, ends⟩
      | halted never => exact absurd live.2.1.2 (never e (Nat.zero_le _) (reached live.1))
    · intro none_
      cases outcome with
      | @found e' m' _ examined named _ _ => exact absurd named (behind none_ e' examined)
      | @halted h m' never => exact ⟨h, m', ends⟩

/-- A root directory in zone 5: a hole, which may still have the name, and behind it the entry of
`kernel`. -/
def rootDisk (stale : Bool) (x : Nat) : UInt8 :=
  if 5122 ≤ x ∧ x < 5128 then if stale then kernelText (x - 5122) else 0
  else if x = 5152 then 5
  else if 5154 ≤ x ∧ x < 5160 then kernelText (x - 5154)
  else 0

def rootInode : Inode := ⟨0, 0, 64, 0, 0, 0, fun i => if i = 0 then 5 else 0⟩

def searchingMachine : Machine Unit := { loadingMachine with
  memory := fun x =>
    if x = 0x510 then 0x80
    else if x = 0x520 then 64
    else if x = 0x52a then 5
    else if 0xa60 ≤ x ∧ x < 0xa67 then kernelText (x - 0xa60)
    else 0 }

theorem searchingMachine_ready : Ready 0x80 rootInode 0 searchingMachine :=
  ⟨rfl, rfl, rfl, by decide, by decide, by decide⟩

theorem prints_nothing : Prints fun m : Machine Unit => m where
  kept _ _ := ⟨rfl, rfl, rfl, rfl⟩
  memory _ _ _ _ := rfl

theorem rootDisk_first_live (stale : Bool) (zero_ : ¬ Live (fileByte (rootDisk stale) 0 rootInode) 0)
    (one : Live (fileByte (rootDisk stale) 0 rootInode) 1) :
    FirstLive (fileByte (rootDisk stale) 0 rootInode) rootInode.iSize.toNat 1 :=
  ⟨by decide, one, fun e' before => by
    rw [show e' = 0 by omega]
    exact zero_⟩

/-- The hole is taken for the entry. -/
theorem stale_hole_found : ¬ FindsKernel (readSectors (rootDisk true)) (fun m => m) (fun _ => 0) 0xa60 0x80
    (rootDisk true) rootInode 0 searchingMachine := by
  rintro ⟨finds, -⟩
  obtain ⟨r, ends, outcome⟩ := search_outcome (readSectors_loads (rootDisk true) 0x80) prints_nothing (fun _ => 0)
    searchingMachine_ready rfl (show InCode 0xa60 from ⟨by decide, by decide⟩) (by decide) (by decide)
  obtain ⟨m', at_, ends'⟩ := finds 1 (rootDisk_first_live true (by decide) (by decide))
  cases Ends.unique ends ends'
  cases outcome with
  | @found e' _ _ examined _ before at' =>
    have here : (1 : Nat) = e' := at_.unique at' (by decide) (by
      have within : 32 * e' ≤ 64 := examined.1
      omega)
    exact before 0 (Nat.le_refl 0) (by omega) (by decide)

theorem finds_kernel_behind_hole : FindsKernel (readSectors (rootDisk false)) (fun m => m) (fun _ => 0) 0xa60 0x80
    (rootDisk false) rootInode 0 searchingMachine := by
  refine (finds_kernel_iff_no_stale_name (readSectors_loads (rootDisk false) 0x80) prints_nothing (fun _ => 0)
    searchingMachine_ready rfl ⟨by decide, by decide⟩ (by decide) (by decide)).mpr ⟨fun e live e' before => ?_,
      fun none_ => absurd (none_ 1 (by decide)) (by decide)⟩
  have within : 32 * e < 64 := live.1
  rw [show e' = 0 by omega]
  decide

end AtaKernel.Boot
