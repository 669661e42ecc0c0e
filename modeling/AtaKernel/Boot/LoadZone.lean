import AtaKernel.Library.ByteMemory
import AtaKernel.Library.StateProgram

/-! The part of the boot loader (`vbr.asm`) that loads a block of a file. It runs
in real mode on the inode at `INODE_BASE`; every block it loads goes to one
buffer, the blocks of zones on the way included. INT 0x13 is a parameter: what
the call does to the machine. -/
namespace AtaKernel.Boot
open ByteMemory StateProgram

/-- The machine in real mode. The requests are the sectors that INT 0x13 was asked for, the last
one first. -/
structure Machine (σ : Type) where
  eax : UInt32
  ebx : UInt32
  ecx : UInt32
  edx : UInt32
  si : UInt16
  di : UInt16
  bp : UInt16
  sp : UInt16
  ds : UInt16
  es : UInt16
  ss : UInt16
  carry : Bool
  memory : Memory
  requests : List UInt32
  bios : σ

/-- Where the loader stops for good, by the text that it prints before. -/
inductive Halt
  | errDisk
  | noFileStr
  | errZone
  deriving DecidableEq

def Halt.text : Halt → String
  | .errDisk => "Disk error"
  | .noFileStr => "No /kernel found"
  | .errZone => "Bad zone number"

abbrev Vbr (σ : Type) := EStateM Halt (Machine σ)

/-! ## Memory -/

def dapsBase : UInt16 := 0x0500
def device : UInt16 := 0x0510
def inodeBase : UInt16 := 0x051c
def inodeSize : UInt16 := inodeBase + 4
def inodeZones : UInt16 := inodeBase + 14
def bufferBase : UInt16 := 0x0600
def vbrBase : UInt16 := 0x0a00
/-- Behind a jump of two bytes, at the start of the code. -/
def sector : UInt16 := vbrBase + 2
def stackTop : UInt16 := 0x1000

def linear (segment offset : UInt16) : Nat := 16 * segment.toNat + offset.toNat

/-- `mov` to the lower half of a register. -/
def setLow (r : UInt32) (v : UInt16) : UInt32 := r &&& 0xffff0000 ||| v.toUInt32

section Machine

variable {σ : Type} (m : Machine σ)

def Machine.word (segment offset : UInt16) : UInt16 := UInt16.ofNat (load m.memory (linear segment offset) 2)

def Machine.dword (segment offset : UInt16) : UInt32 := UInt32.ofNat (load m.memory (linear segment offset) 4)

def Machine.setByte (segment offset : UInt16) (v : UInt8) : Machine σ :=
  { m with memory := store m.memory (linear segment offset) 1 v.toNat }

def Machine.setWord (segment offset v : UInt16) : Machine σ :=
  { m with memory := store m.memory (linear segment offset) 2 v.toNat }

def Machine.setDword (segment offset : UInt16) (v : UInt32) : Machine σ :=
  { m with memory := store m.memory (linear segment offset) 4 v.toNat }

def Machine.push (v : UInt16) : Machine σ :=
  { m with sp := m.sp - 2 }.setWord m.ss (m.sp - 2) v

def Machine.pushDword (v : UInt32) : Machine σ :=
  { m with sp := m.sp - 4 }.setDword m.ss (m.sp - 4) v

/-- `pop bp` -/
def Machine.popBp : Machine σ := { m with bp := m.word m.ss m.sp, sp := m.sp + 2 }

def Machine.addSp (n : UInt16) : Machine σ := { m with sp := m.sp + n }

end Machine

section Calls

variable {σ : Type} (int13 : Machine σ → Machine σ) (back : Nat → UInt16)

/-- `call`, with the address behind it, up to behind the `ret` of the routine. The addresses are those
that the layout of the code gives. -/
def call (back : UInt16) (routine : Vbr σ Unit) : Vbr σ Unit := do
  modify fun m => m.push back
  routine
  modify fun m => m.addSp 2

/-- `int 0x13` -/
def interrupt : Vbr σ Unit :=
  modify fun m => { int13 m with requests := m.dword m.ds (m.si + 8) :: m.requests }

/-! ## load_sectors -/

/-- The packet for INT 0x13, with AH = 0x42. -/
def fillPacket (m : Machine σ) : Machine σ :=
  let m := { m with edx := setLow m.edx (m.word m.ds device &&& 0x00ff) }
  let m := m.setDword m.ds (dapsBase + 12) 0
  let m := { m with eax := m.dword m.ss (m.bp + 4) }
  let m := m.setDword m.ds (dapsBase + 8) m.eax
  let m := m.setWord m.ds (dapsBase + 6) m.ds
  let m := m.setWord m.ds (dapsBase + 4) bufferBase
  let m := m.setWord m.ds (dapsBase + 2) 2
  let m := m.setByte m.ds (dapsBase + 1) 0
  let m := m.setByte m.ds dapsBase 16
  { m with eax := 0x4200, si := dapsBase }

def loadSectors : Vbr σ Unit := do
  modify fun m => m.push m.bp
  modify fun m => { m with bp := m.sp }
  modify fillPacket
  interrupt int13
  if (← get).carry then throw .errDisk
  else modify Machine.popBp

/-! ## load_zone -/

/-- The size of the file in EAX and the start of the zone in EBX. -/
def lzSize (m : Machine σ) : Machine σ :=
  let m := { m with eax := m.dword m.ds inodeSize }
  let m := { m with ebx := setLow m.ebx (m.word m.ss (m.bp + 4)) }
  { m with ebx := (m.ebx &&& 0x0000ffff) <<< 10 }

/-- The index at each level, -1 where a level is not needed. -/
def lzLevels (m : Machine σ) : Machine σ :=
  let m := { m with eax := setLow m.eax (m.word m.ss (m.bp + 4)) }
  let ax := m.eax.toUInt16
  if 519 ≤ ax.toInt16 then
    let ax := ax - 519
    let m := { m with
      eax := setLow m.eax (ax / 512)
      edx := setLow m.edx (ax % 512)
      ebx := setLow m.ebx 512 }
    let m := m.setWord m.ss (m.bp - 6) (ax % 512)
    let m := m.setWord m.ss (m.bp - 4) (ax / 512)
    m.setWord m.ss (m.bp - 2) 8
  else if 7 ≤ ax.toInt16 then
    let m := m.setWord m.ss (m.bp - 6) (-1)
    let ax := ax - 7
    let m := { m with eax := setLow m.eax ax }
    let m := m.setWord m.ss (m.bp - 4) ax
    m.setWord m.ss (m.bp - 2) 7
  else
    let m := m.setWord m.ss (m.bp - 6) (-1)
    let m := m.setWord m.ss (m.bp - 4) (-1)
    m.setWord m.ss (m.bp - 2) ax

/-- The sector of entry `[level]` of the table at `base`, pushed. -/
def lzPushLba (level base : UInt16) (m : Machine σ) : Machine σ :=
  let m := { m with ebx := setLow m.ebx (m.word m.ss level <<< 1) }
  let m := { m with eax := setLow m.eax base }
  let m := { m with ebx := setLow m.ebx (m.ebx.toUInt16 + m.eax.toUInt16) }
  let m := { m with eax := setLow m.eax (m.word m.ds m.ebx.toUInt16) }
  let m := { m with eax := (m.eax &&& 0x0000ffff) <<< 1 }
  let m := { m with ebx := m.dword m.ds sector }
  let m := { m with eax := m.eax + m.ebx }
  m.pushDword m.eax

/-- One level: the block in entry `[bp - local_]` of the table at `base` is loaded. -/
def lzLoadLevel (back local_ base : UInt16) : Vbr σ Unit := do
  modify fun m => lzPushLba (m.bp - local_) base m
  call back (loadSectors int13)
  modify fun m => m.addSp 4

/-- `mov word ax, [bp - local_]` -/
def lzNext (local_ : UInt16) (m : Machine σ) : Machine σ :=
  { m with eax := setLow m.eax (m.word m.ss (m.bp - local_)) }

/-- The level behind, if there is one. -/
def lzDive (back local_ : UInt16) (below : Vbr σ Unit) : Vbr σ Unit := do
  modify (lzNext local_)
  if (← get).eax.toUInt16 = -1 then pure ()
  else do
    lzLoadLevel int13 back local_ bufferBase
    below

def loadZone : Vbr σ Unit := do
  modify fun m => m.push m.bp
  modify fun m => { m with bp := m.sp, sp := m.sp - 6 }
  modify lzSize
  let m ← get
  if m.eax.toInt32 ≤ m.ebx.toInt32 then throw .errZone
  else do
    modify lzLevels
    lzLoadLevel int13 (back 1) 2 inodeZones
    lzDive int13 (back 2) 4 (lzDive int13 (back 3) 6 (pure ()))
    modify fun m => m.addSp 6
    modify Machine.popBp

/-- `push word zone`, the call and `add sp, 2`, as both loops of the loader have it. -/
def callLoadZone (zone : UInt16) : Vbr σ Unit := do
  modify fun m => m.push zone
  call (back 0) (loadZone int13 back)
  modify fun m => m.addSp 2

end Calls

/-! ## INT 0x13 -/

/-- The machine asks for two sectors from `lba` on, to be put at `segment:offset`. -/
structure Asks13 {σ : Type} (m : Machine σ) (drive : UInt8) (segment offset : UInt16) (lba : UInt32) : Prop where
  ax : m.eax = 0x4200
  dl : m.edx.toUInt8 = drive
  size : load m.memory (linear m.ds m.si) 1 = 16
  count : m.word m.ds (m.si + 2) = 2
  offset : m.word m.ds (m.si + 4) = offset
  segment : m.word m.ds (m.si + 6) = segment
  low : m.dword m.ds (m.si + 8) = lba
  high : m.dword m.ds (m.si + 12) = 0

/-- INT 0x13 loads the two sectors that it is asked for, and changes no other memory. -/
structure LoadsSectors {σ : Type} (int13 : Machine σ → Machine σ) (drive : UInt8) (disk : Nat → UInt8) : Prop where
  carry : ∀ m segment offset lba, Asks13 m drive segment offset lba → (int13 m).carry = false
  kept : ∀ m segment offset lba, Asks13 m drive segment offset lba → (int13 m).bp = m.bp ∧ (int13 m).sp = m.sp ∧
    (int13 m).ds = m.ds ∧ (int13 m).es = m.es ∧ (int13 m).ss = m.ss
  memory : ∀ m segment offset lba, Asks13 m drive segment offset lba → ∀ x, (int13 m).memory x =
    if linear segment offset ≤ x ∧ x < linear segment offset + 1024 then
      disk (512 * lba.toNat + (x - linear segment offset))
    else m.memory x

/-! ## What the routines do -/

instance (a n b k : Nat) : Decidable (Apart a n b k) :=
  inferInstanceAs (Decidable (∀ i < n, ∀ j < k, cell (a + i) ≠ cell (b + j)))

variable {σ : Type} {int13 : Machine σ → Machine σ} {drive : UInt8} {disk : Nat → UInt8} {m m' : Machine σ}

theorem linear_zero (offset : UInt16) : linear 0 offset = offset.toNat := Nat.zero_add _

theorem word_congr {offset : UInt16} (same : ∀ i < 2, m'.memory (offset.toNat + i) = m.memory (offset.toNat + i)) :
    m'.word 0 offset = m.word 0 offset := by
  have fits := offset.toNat_lt
  have bytes : load m'.memory offset.toNat 2 = load m.memory offset.toNat 2 :=
    load_congr fun i low => by rw [load8_low (by omega), load8_low (by omega), same i low]
  rw [Machine.word, Machine.word, linear_zero, bytes]

theorem dword_congr {offset : UInt16}
    (same : ∀ i < 4, m'.memory (offset.toNat + i) = m.memory (offset.toNat + i)) :
    m'.dword 0 offset = m.dword 0 offset := by
  have fits := offset.toNat_lt
  have bytes : load m'.memory offset.toNat 4 = load m.memory offset.toNat 4 :=
    load_congr fun i low => by rw [load8_low (by omega), load8_low (by omega), same i low]
  rw [Machine.dword, Machine.dword, linear_zero, bytes]

/-! ### The stack -/

/-- The stack has grown by `n` bytes; but for these, memory is as it was. -/
structure Pushed (n : Nat) (m m' : Machine σ) : Prop where
  sp : m'.sp.toNat + n = m.sp.toNat
  ds : m'.ds = m.ds
  es : m'.es = m.es
  ss : m'.ss = m.ss
  requests : m'.requests = m.requests
  away : ∀ x, x < m'.sp.toNat ∨ m.sp.toNat ≤ x → m'.memory x = m.memory x

theorem toNat_sub_add {a n : UInt16} (enough : n.toNat ≤ a.toNat) : (a - n).toNat + n.toNat = a.toNat := by
  rw [UInt16.toNat_sub_of_le _ _ (UInt16.le_iff_toNat_le.mpr enough), Nat.sub_add_cancel enough]

theorem push_memory {v : UInt16} (ss : m.ss = 0) :
    (m.push v).memory = store m.memory (m.sp - 2).toNat 2 v.toNat := by
  rw [← linear_zero, ← ss]
  rfl

theorem pushDword_memory {v : UInt32} (ss : m.ss = 0) :
    (m.pushDword v).memory = store m.memory (m.sp - 4).toNat 4 v.toNat := by
  rw [← linear_zero, ← ss]
  rfl

theorem push_pushed (ss : m.ss = 0) (enough : 2 ≤ m.sp.toNat) (v : UInt16) : Pushed 2 m (m.push v) := by
  have sp : (m.sp - 2).toNat + 2 = m.sp.toNat := toNat_sub_add enough
  have wide := m.sp.toNat_lt
  refine ⟨sp, rfl, rfl, rfl, rfl, fun x away => ?_⟩
  change x < (m.sp - 2).toNat ∨ _ at away
  rw [push_memory ss, store_away (by omega) (by omega)]

theorem pushDword_pushed (ss : m.ss = 0) (enough : 4 ≤ m.sp.toNat) (v : UInt32) : Pushed 4 m (m.pushDword v) := by
  have sp : (m.sp - 4).toNat + 4 = m.sp.toNat := toNat_sub_add enough
  have wide := m.sp.toNat_lt
  refine ⟨sp, rfl, rfl, rfl, rfl, fun x away => ?_⟩
  change x < (m.sp - 4).toNat ∨ _ at away
  rw [pushDword_memory ss, store_away (by omega) (by omega)]

theorem Pushed.trans {n n' : Nat} {m₁ m₂ : Machine σ} (one : Pushed n m m₁) (two : Pushed n' m₁ m₂) :
    Pushed (n + n') m m₂ where
  sp := by
    have below := one.sp
    have above := two.sp
    omega
  ds := two.ds.trans one.ds
  es := two.es.trans one.es
  ss := two.ss.trans one.ss
  requests := two.requests.trans one.requests
  away x away := by
    have below := one.sp
    have above := two.sp
    rw [two.away x (by omega), one.away x (by omega)]

/-- The word that was pushed last is on top. -/
theorem push_top (ss : m.ss = 0) (v : UInt16) : (m.push v).word 0 (m.push v).sp = v := by
  rw [Machine.word, push_memory ss, linear_zero]
  exact stored_word

theorem pushDword_top (ss : m.ss = 0) (v : UInt32) : (m.pushDword v).dword 0 (m.pushDword v).sp = v := by
  rw [Machine.dword, pushDword_memory ss, linear_zero]
  exact stored_dword

/-! ### The packet -/

/-- The packet, in memory. -/
def packet (mem : Memory) (lba : UInt32) : Memory :=
  store (store (store (store (store (store (store mem 0x50c 4 0) 0x508 4 lba.toNat) 0x506 2 0) 0x504 2 0x600)
    0x502 2 2) 0x501 1 0) 0x500 1 16

theorem packet_away {mem : Memory} {lba : UInt32} {x : Nat} (away : x < 0x500 ∨ 0x510 ≤ x) :
    packet mem lba x = mem x := by
  unfold packet
  rw [store_away (by decide) (by omega), store_away (by decide) (by omega), store_away (by decide) (by omega),
    store_away (by decide) (by omega), store_away (by decide) (by omega), store_away (by decide) (by omega),
    store_away (by decide) (by omega)]

theorem packet_fields (mem : Memory) (lba : UInt32) : load (packet mem lba) 0x500 1 = 16 ∧
    load (packet mem lba) 0x502 2 = 2 ∧ load (packet mem lba) 0x504 2 = 0x600 ∧ load (packet mem lba) 0x506 2 = 0 ∧
    load (packet mem lba) 0x508 4 = lba.toNat ∧ load (packet mem lba) 0x50c 4 = 0 := by
  have wide := lba.toNat_lt
  unfold packet
  refine ⟨?_, ?_, ?_, ?_, ?_, ?_⟩ <;> simp (disch := decide) only [load_store_apart, load_store_same]
  all_goals exact Nat.mod_eq_of_lt (by omega)

theorem daps_places : (dapsBase + 12).toNat = 0x50c ∧ (dapsBase + 8).toNat = 0x508 ∧
    (dapsBase + 6).toNat = 0x506 ∧ (dapsBase + 4).toNat = 0x504 ∧ (dapsBase + 2).toNat = 0x502 ∧
    (dapsBase + 1).toNat = 0x501 ∧ dapsBase.toNat = 0x500 := by
  decide

/-- The fields of a machine whose packet is filled in. -/
theorem fillPacket_eq (ds : m.ds = 0) (ss : m.ss = 0) (above : 0x510 ≤ (m.bp + 4).toNat) :
    fillPacket m = { m with
      eax := 0x4200
      edx := setLow m.edx (m.word 0 device &&& 0x00ff)
      si := dapsBase
      memory := packet m.memory (m.dword 0 (m.bp + 4)) } := by
  have fits := (m.bp + 4).toNat_lt
  have apart : Apart (m.bp + 4).toNat 4 0x50c 4 := by
    intro i low j low'
    unfold cell
    omega
  have lba : (m.setDword 0 (dapsBase + 12) 0).dword 0 (m.bp + 4) = m.dword 0 (m.bp + 4) := by
    unfold Machine.dword Machine.setDword
    simp only [linear_zero]
    rw [show (dapsBase + 12).toNat = 0x50c from rfl, load_store_apart _ _ apart]
  have values : bufferBase.toNat = 0x600 ∧ (2 : UInt16).toNat = 2 ∧ (16 : UInt8).toNat = 16 ∧
      (0 : UInt32).toNat = 0 ∧ (0 : UInt16).toNat = 0 ∧ (0 : UInt8).toNat = 0 := by decide
  rw [← lba]
  obtain ⟨⟩ := m
  dsimp only at ds ss
  subst ds ss
  simp only [fillPacket, packet, Machine.setDword, Machine.setWord, Machine.setByte, Machine.dword, Machine.word,
    linear_zero, daps_places, values]

@[simp] theorem setLow_toUInt16 (r : UInt32) (v : UInt16) : (setLow r v).toUInt16 = v := by
  apply UInt16.toBitVec_inj.mp
  ext i low
  unfold setLow
  simp only [UInt32.toBitVec_toUInt16, UInt32.toBitVec_or, UInt32.toBitVec_and, UInt16.toBitVec_toUInt32]
  interval_cases i <;> simp

theorem low_byte_word (v : UInt16) : (v &&& 0x00ff).toUInt8 = v.toUInt8 := by
  apply UInt8.toBitVec_inj.mp
  ext i low
  simp only [UInt16.toBitVec_toUInt8, UInt16.toBitVec_and]
  interval_cases i <;> simp

theorem fillPacket_asks (ds : m.ds = 0) (ss : m.ss = 0) (above : 0x510 ≤ (m.bp + 4).toNat)
    (dl : load8 m.memory 0x510 = drive) :
    Asks13 (fillPacket m) drive 0 bufferBase (m.dword 0 (m.bp + 4)) := by
  rw [fillPacket_eq ds ss above]
  generalize m.dword 0 (m.bp + 4) = lba
  obtain ⟨size, count, offset, segment, low, high⟩ := packet_fields m.memory lba
  have number : (setLow m.edx (m.word 0 device &&& 0x00ff)).toUInt8 = drive := by
    rw [← UInt32.toUInt8_toUInt16, setLow_toUInt16, low_byte_word, ← dl, Machine.word, linear_zero,
      show device.toNat = 0x510 from rfl, low_byte]
    apply UInt8.toNat_inj.mp
    rw [UInt16.toNat_toUInt8, UInt16.toNat_ofNat', UInt8.toNat_ofNat']
    omega
  refine ⟨rfl, number, ?_, ?_, ?_, ?_, ?_, ?_⟩ <;>
    simp only [Machine.word, Machine.dword, ds, linear_zero, daps_places]
  · exact size
  · rw [count]
    rfl
  · rw [offset]
    rfl
  · rw [segment]
    rfl
  · rw [low, UInt32.ofNat_toNat]
  · rw [high]
    rfl

/-- From `m` to `m'` the blocks at the sectors of `way` were loaded, and last the one at sector `lba`.
In memory only the buffer, the packet and the `room` bytes below the stack pointer have changed. -/
structure Loaded (disk : Nat → UInt8) (room : Nat) (lba : UInt32) (way : List UInt32) (m m' : Machine σ) :
    Prop where
  sp : m'.sp = m.sp
  bp : m'.bp = m.bp
  ds : m'.ds = m.ds
  es : m'.es = m.es
  ss : m'.ss = m.ss
  requests : m'.requests = lba :: (way ++ m.requests)
  buffer : ∀ i < 1024, m'.memory (0x600 + i) = disk (512 * lba.toNat + i)
  away : ∀ x, (x < 0x500 ∨ 0x510 ≤ x) → (x < 0x600 ∨ 0xa00 ≤ x) → (x + room < m.sp.toNat ∨ m.sp.toNat ≤ x) →
    m'.memory x = m.memory x

/-- A load from further down the stack, once the stack is back where it was. -/
theorem Loaded.popped {n room : Nat} {lba : UInt32} {way : List UInt32} {m₁ m₂ : Machine σ}
    (pushed : Pushed n m m₁) (loaded : Loaded disk room lba way m₁ m₂) (sp : m'.sp = m.sp) (bp : m'.bp = m.bp)
    (ds : m'.ds = m₂.ds) (es : m'.es = m₂.es) (ss : m'.ss = m₂.ss) (requests : m'.requests = m₂.requests)
    (memory : m'.memory = m₂.memory) : Loaded disk (room + n) lba way m m' where
  sp := sp
  bp := bp
  ds := ds.trans (loaded.ds.trans pushed.ds)
  es := es.trans (loaded.es.trans pushed.es)
  ss := ss.trans (loaded.ss.trans pushed.ss)
  requests := by rw [requests, loaded.requests, pushed.requests]
  buffer i low := by rw [memory, loaded.buffer i low]
  away x packet_ buffer_ stack := by
    have below := pushed.sp
    rw [memory, loaded.away x packet_ buffer_ (by omega), pushed.away x (by omega)]

/-- With the packet filled in, INT 0x13 loads the block into the buffer and leaves the rest. -/
theorem interrupt_loads (bios : LoadsSectors int13 drive disk) (ds : m.ds = 0) (ss : m.ss = 0)
    (above : 0x510 ≤ (m.bp + 4).toNat) (dl : m.memory 0x510 = drive) :
    ∃ m', interrupt int13 (fillPacket m) = .ok () m' ∧ m'.carry = false ∧
      Loaded disk 0 (m.dword 0 (m.bp + 4)) [] m m' := by
  have asks := fillPacket_asks ds ss above (show load8 m.memory 0x510 = drive from dl)
  have eq := fillPacket_eq ds ss above
  generalize m.dword 0 (m.bp + 4) = lba at asks eq ⊢
  generalize fillPacket m = f at asks eq ⊢
  have fields : f.sp = m.sp ∧ f.bp = m.bp ∧ f.ds = m.ds ∧ f.es = m.es ∧ f.ss = m.ss ∧ f.requests = m.requests ∧
      f.memory = packet m.memory lba := by
    rw [eq]
    exact ⟨rfl, rfl, rfl, rfl, rfl, rfl, rfl⟩
  obtain ⟨sp, bp, ds', es, ss', requests, memory⟩ := fields
  obtain ⟨bpKept, spKept, dsKept, esKept, ssKept⟩ := bios.kept _ _ _ _ asks
  have filled := bios.memory _ _ _ _ asks
  rw [show linear 0 bufferBase = 0x600 from rfl] at filled
  refine ⟨_, rfl, bios.carry _ _ _ _ asks, spKept.trans sp, bpKept.trans bp, dsKept.trans ds', esKept.trans es,
    ssKept.trans ss', ?_, ?_, ?_⟩
  · change f.dword f.ds (f.si + 8) :: f.requests = lba :: m.requests
    rw [asks.low, requests]
  · intro i low
    change (int13 f).memory (0x600 + i) = _
    rw [filled, if_pos (by omega), Nat.add_sub_cancel_left]
  · intro x packet_ buffer_ _
    change (int13 f).memory x = _
    rw [filled x, if_neg (by omega), memory, packet_away packet_]

theorem loadSectors_loads (bios : LoadsSectors int13 drive disk) (ds : m.ds = 0) (ss : m.ss = 0)
    (above : 0xa02 ≤ m.sp.toNat) (below : m.sp.toNat + 6 ≤ 2 ^ 16) (dl : m.memory 0x510 = drive) :
    ∃ m', loadSectors int13 m = .ok () m' ∧ Loaded disk 2 (m.dword 0 (m.sp + 2)) [] m m' := by
  have pushed := push_pushed ss (by omega) m.bp
  have top := push_top ss m.bp
  have down : (m.push m.bp).sp = m.sp - 2 := rfl
  generalize entry : m.push m.bp = p at pushed top down
  have arg : p.sp + 4 = m.sp + 2 := by
    rw [down]
    change m.sp - 2 + (2 + 2) = m.sp + 2
    rw [← UInt16.add_assoc, UInt16.sub_add_cancel]
  have up : (m.sp + 2).toNat = m.sp.toNat + 2 := by
    rw [UInt16.toNat_add]
    exact Nat.mod_eq_of_lt (by change m.sp.toNat + 2 < 2 ^ 16; omega)
  have room := pushed.sp
  have inFrame : Pushed 2 m { p with bp := p.sp } :=
    ⟨pushed.sp, pushed.ds, pushed.es, pushed.ss, pushed.requests, pushed.away⟩
  have lba : ({ p with bp := p.sp } : Machine σ).dword 0 (p.sp + 4) = m.dword 0 (m.sp + 2) := by
    rw [arg]
    exact dword_congr fun i low => inFrame.away _ (by rw [up]; omega)
  obtain ⟨m₂, run, carry, loaded⟩ := interrupt_loads (m := { p with bp := p.sp }) bios (pushed.ds.trans ds)
    (pushed.ss.trans ss) (by change _ ≤ (p.sp + 4).toNat; rw [arg, up]; omega)
    ((pushed.away _ (by omega)).trans dl)
  have saved : m₂.word m₂.ss m₂.sp = m.bp := by
    rw [loaded.ss, loaded.sp, ← top]
    change m₂.word p.ss p.sp = _
    rw [pushed.ss, ss]
    exact word_congr fun i low => loaded.away _ (by omega) (by omega) (by right; exact Nat.le_add_right _ _)
  change Loaded disk 0 (({ p with bp := p.sp } : Machine σ).dword 0 (p.sp + 4)) [] _ _ at loaded
  rw [lba] at loaded
  refine ⟨m₂.popBp, ?_, loaded.popped inFrame ?_ saved rfl rfl rfl rfl rfl⟩
  · unfold loadSectors
    rw [modify_bind, modify_bind, modify_bind, entry, bind_of_ok run, get_bind, if_neg (by rw [carry]; decide)]
    rfl
  · change m₂.sp + 2 = m.sp
    rw [loaded.sp]
    change p.sp + 2 = m.sp
    rw [down, UInt16.sub_add_cancel]

/-! ## One level -/

theorem setLow_and (r : UInt32) (v : UInt16) : setLow r v &&& 0x0000ffff = v.toUInt32 := by
  have low := congrArg UInt16.toUInt32 (setLow_toUInt16 r v)
  rw [UInt32.toUInt32_toUInt16] at low
  rw [← low]
  apply UInt32.toNat_inj.mp
  rw [UInt32.toNat_and, UInt32.toNat_mod]
  exact Nat.and_two_pow_sub_one_eq_mod _ 16

/-- The sector of entry `level` of the table at `base`. -/
def Machine.lbaOf (m : Machine σ) (level base : UInt16) : UInt32 :=
  (m.word 0 (m.word 0 level <<< 1 + base)).toUInt32 <<< 1 + m.dword 0 sector

theorem lzPushLba_eq (ds : m.ds = 0) (ss : m.ss = 0) (level base : UInt16) :
    lzPushLba level base m = { m with eax := m.lbaOf level base, ebx := m.dword 0 sector }.pushDword
      (m.lbaOf level base) := by
  obtain ⟨⟩ := m
  dsimp only at ds ss
  subst ds ss
  simp only [lzPushLba, Machine.lbaOf, Machine.word, Machine.dword, setLow_toUInt16, setLow_and]

theorem call_of_ok {back : UInt16} {routine : Vbr σ Unit} (run : routine (m.push back) = .ok () m') :
    call back routine m = .ok () (m'.addSp 2) := by
  unfold call
  rw [modify_bind, bind_of_ok run]
  rfl

/-- A level is loaded whatever number the table holds. -/
theorem lzLoadLevel_loads (bios : LoadsSectors int13 drive disk) (ds : m.ds = 0) (ss : m.ss = 0)
    (above : 0xa08 ≤ m.sp.toNat) (dl : m.memory 0x510 = drive) (back local_ base : UInt16) :
    ∃ m', lzLoadLevel int13 back local_ base m = .ok () m' ∧
      Loaded disk 8 (m.lbaOf (m.bp - local_) base) [] m m' := by
  have argument := lzPushLba_eq ds ss (m.bp - local_) base
  generalize m.lbaOf (m.bp - local_) base = lba at argument ⊢
  generalize start : lzPushLba (m.bp - local_) base m = m₁ at argument
  have pushed : Pushed 4 m m₁ ∧ m₁.bp = m.bp ∧ m₁.sp = m.sp - 4 ∧ m₁.dword 0 m₁.sp = lba := by
    rw [argument]
    have four := pushDword_pushed (m := { m with eax := lba, ebx := m.dword 0 sector }) ss
      (show 4 ≤ m.sp.toNat by omega) lba
    exact ⟨⟨four.sp, four.ds, four.es, four.ss, four.requests, four.away⟩, rfl, rfl, pushDword_top ss lba⟩
  obtain ⟨four, bp, down, top⟩ := pushed
  have room := four.sp
  have wide := m.sp.toNat_lt
  have two := push_pushed (four.ss.trans ss) (by omega) back
  have down' : (m₁.push back).sp + 2 = m₁.sp := UInt16.sub_add_cancel _ 2
  have found : (m₁.push back).dword 0 ((m₁.push back).sp + 2) = lba := by
    rw [down', ← top]
    exact dword_congr fun i low => two.away _ (by omega)
  have both := four.trans two
  have room' := both.sp
  obtain ⟨m₂, run, loaded⟩ := loadSectors_loads (m := m₁.push back) bios (both.ds.trans ds) (both.ss.trans ss)
    (by omega) (by omega) ((both.away _ (by omega)).trans dl)
  rw [found] at loaded
  refine ⟨(m₂.addSp 2).addSp 4, ?_, loaded.popped both ?_ (loaded.bp.trans bp) rfl rfl rfl rfl rfl⟩
  · unfold lzLoadLevel
    rw [modify_bind, start, bind_of_ok (call_of_ok run)]
    rfl
  · change m₂.sp + 2 + 4 = m.sp
    rw [loaded.sp, down', down, UInt16.sub_add_cancel]

end AtaKernel.Boot
