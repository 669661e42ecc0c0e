import AtaKernel.Drivers.Machine

/-! The serial driver (`drivers/serial.c`): a port is set up with a buffer from the
heap, its interrupt handler puts bytes into the buffer, and `serial_read` takes
them out, one a call. Between its steps a call of `serial_read` may be interrupted. -/
namespace AtaKernel.Drivers
open ByteMemory Memory

abbrev SerialDevice := UInt16

def serialCom1 : SerialDevice := 0x03f8
def serialCom2 : SerialDevice := 0x02f8
def serialCom3 : SerialDevice := 0x03e8
def serialCom4 : SerialDevice := 0x02e8

structure SerialPortConfig where
  divisor : UInt16
  availableInterrupts : UInt8
  lineConfig : UInt8

def serialBufferLen : Nat := 64

/-! ## The tables -/

/-- `serial_buffers + offset`, if there is one. -/
def serialDev2Offset (dev : SerialDevice) : Option (Fin 4) :=
  if dev = serialCom1 then some 0
  else if dev = serialCom2 then some 1
  else if dev = serialCom3 then some 2
  else if dev = serialCom4 then some 3
  else none

def serialIrq2Offset (irq : UInt8) : Option (Fin 4) :=
  if irq = picSerial1Irq then some 0
  else if irq = picSerial2Irq then some 1
  else none

def serialIrq2Dev (irq : UInt8) : Option SerialDevice :=
  if irq = picSerial1Irq then some serialCom1
  else if irq = picSerial2Irq then some serialCom2
  else none

/-! ## Initialisation -/

def Machine.setSerial (m : Machine) (o : Fin 4) (b : SerialBuffer) : Machine :=
  { m with serialBuffers := Function.update m.serialBuffers o b }

/-- The settings of the port: the divisor with DLAB set, the line, the interrupts, the FIFO and the
modem. -/
def Machine.serialSetUp (m : Machine) (dev : SerialDevice) (config : SerialPortConfig) : Machine :=
  ((((((m.outb (dev + 3) 0x80).outb dev (config.divisor &&& 0x00ff).toUInt8).outb (dev + 1)
    ((config.divisor >>> 8) &&& 0x00ff).toUInt8).outb (dev + 3) (config.lineConfig &&& 0x7f)).outb (dev + 1)
    config.availableInterrupts).outb (dev + 2) 0x07).outb (dev + 4) 0

/-- Only the handler of the first vector is ever registered. -/
def serialInit (memHead fuel : Nat) (dev : SerialDevice) (config : SerialPortConfig) (m : Machine) :
    Option (Int × Machine) :=
  match serialDev2Offset dev with
  | none => some (-1, m)
  | some o =>
    ((m.serialSetUp dev config).kalloc memHead fuel serialBufferLen).map fun (p, m) =>
      if p = 0 then (-1, m.setSerial o { m.serialBuffers o with buffer := 0 })
      else (0, (m.setSerial o ⟨0, 0, p⟩).itrSetInterruptHandler picSerial1Irq .serialInterruptHandler interruptGate)

/-! ## Receiving -/

/-- Bit `SERIAL_LINE_STATUS_DATA_RECEIVED` of the line status port. -/
def DataReceived (dev : SerialDevice) (inb : UInt16 → UInt8) : Prop := inb (dev + 5) &&& 0x01 ≠ 0

instance {dev : SerialDevice} {inb : UInt16 → UInt8} : Decidable (DataReceived dev inb) :=
  inferInstanceAs (Decidable (_ ≠ _))

/-- A byte goes into a buffer. -/
def Machine.serialPut (m : Machine) (o : Fin 4) (v : UInt8) : Machine :=
  let b := m.serialBuffers o
  (m.setByte (b.buffer + b.writeHead.toNat) v).setSerial o { b with writeHead := (b.writeHead + 1) % 64 }

def serialInterruptHandler (irq : UInt8) (inb : UInt16 → UInt8) (m : Machine) : Machine :=
  let m :=
    match serialIrq2Offset irq with
    | none => m
    | some o =>
      match serialIrq2Dev irq with
      | none => m
      | some dev => if DataReceived dev inb then m.serialPut o (inb dev) else m
  m.picSendEoi irq

/-! ## Reading -/

/-- The heads are the same, and `serial_read` halts the processor until the next interrupt. -/
def Machine.serialEmpty (m : Machine) (o : Fin 4) : Prop :=
  (m.serialBuffers o).writeHead = (m.serialBuffers o).readHead

instance (m : Machine) (o : Fin 4) : Decidable (m.serialEmpty o) := inferInstanceAs (Decidable (_ = _))

def Machine.serialFetch (m : Machine) (o : Fin 4) : UInt8 :=
  m.byte ((m.serialBuffers o).buffer + (m.serialBuffers o).readHead.toNat)

def Machine.serialAdvance (m : Machine) (o : Fin 4) : Machine :=
  m.setSerial o { m.serialBuffers o with readHead := ((m.serialBuffers o).readHead + 1) % 64 }

/-- A call that no interrupt comes into, with the bytes that it leaves in `buf`: nothing where it
waits. -/
def serialRead (dev : SerialDevice) (len : UInt32) (m : Machine) : Option (UInt32 × List UInt8 × Machine) :=
  if len < 1 then some (0, [], m)
  else
    match serialDev2Offset dev with
    | none => some (0, [], m)
    | some o => if m.serialEmpty o then none else some (1, [m.serialFetch o], m.serialAdvance o)

/-! ## What the parts do -/

variable {m m' : Machine} {o o' : Fin 4} {dev : SerialDevice} {irq : UInt8} {inb : UInt16 → UInt8} {v : UInt8}
  {config : SerialPortConfig} {head : MemHead} {blocks : List Block} {fuel : Nat} {result : Int}

@[simp] theorem setSerial_same {b : SerialBuffer} : (m.setSerial o b).serialBuffers o = b := Function.update_self _ _ _

theorem setSerial_other {b : SerialBuffer} (other : o' ≠ o) :
    (m.setSerial o b).serialBuffers o' = m.serialBuffers o' := Function.update_of_ne other _ _

theorem picSendEoi_serialBuffers : (m.picSendEoi irq).serialBuffers = m.serialBuffers :=
  picSendEoi_keeps Machine.serialBuffers fun _ _ => rfl

theorem picSendEoi_byte {a : Nat} : (m.picSendEoi irq).byte a = m.byte a :=
  congrFun (picSendEoi_keeps Machine.byte fun _ _ => rfl) a

/-- A vector leads to the slot of the port that it leads to. -/
theorem irq2offset_of_dev (maps : serialIrq2Dev irq = some dev) : serialIrq2Offset irq = serialDev2Offset dev := by
  unfold serialIrq2Dev at maps
  unfold serialIrq2Offset
  split at maps
  · next first =>
    obtain rfl := Option.some_inj.mp maps
    rw [if_pos first]
    rfl
  next other =>
  split at maps
  · next second =>
    obtain rfl := Option.some_inj.mp maps
    rw [if_neg other, if_pos second]
    rfl
  · cases maps

/-- An interrupt with data puts a byte into the buffer of its port. -/
theorem handler_puts (maps : serialIrq2Dev irq = some dev) (slot : serialDev2Offset dev = some o)
    (data : DataReceived dev inb) :
    serialInterruptHandler irq inb m = (m.serialPut o (inb dev)).picSendEoi irq := by
  unfold serialInterruptHandler
  rw [irq2offset_of_dev maps, slot, maps]
  dsimp only
  rw [if_pos data]

theorem head_succ (h : UInt32) : ((h + 1) % 64).toNat = (h.toNat + 1) % 64 := by
  rw [UInt32.toNat_mod, UInt32.toNat_add, show (1 : UInt32).toNat = 1 from rfl, show (64 : UInt32).toNat = 64 from rfl]
  omega

/-- The port's settings go out, and nothing else happens. -/
theorem serialSetUp_output (m : Machine) (dev : SerialDevice) (config : SerialPortConfig) :
    ∃ output, m.serialSetUp dev config = { m with output := output } := by
  unfold Machine.serialSetUp Machine.outb
  exact ⟨_, rfl⟩

/-- The outcomes of an initialisation. -/
theorem serialInit_ok (sound : Sound head m.kernel blocks)
    (ran : serialInit head.addr fuel dev config m = some (result, m')) :
    (serialDev2Offset dev = none ∧ result = -1 ∧ m' = m) ∨
      ∃ o p k output, serialDev2Offset dev = some o ∧ (∃ blocks', Sound head k blocks') ∧
        Untouched m.kernel k ∧ k.live = (if p = 0 then m.kernel.live else (p, serialBufferLen) :: m.kernel.live) ∧
        ((p = 0 ∧ result = -1 ∧ m' = ({ m with kernel := k, output := output }).setSerial o
            { m.serialBuffers o with buffer := 0 }) ∨
          (p ≠ 0 ∧ result = 0 ∧ m' =
            (({ m with kernel := k, output := output }).setSerial o ⟨0, 0, p⟩).itrSetInterruptHandler
            picSerial1Irq .serialInterruptHandler interruptGate)) := by
  unfold serialInit at ran
  cases slot : serialDev2Offset dev with
  | none =>
    rw [slot] at ran
    obtain ⟨rfl, rfl⟩ := Prod.mk.inj (Option.some_inj.mp ran)
    exact .inl ⟨rfl, rfl, rfl⟩
  | some o =>
    rw [slot] at ran
    obtain ⟨output, setUp⟩ := serialSetUp_output m dev config
    rw [setUp] at ran
    obtain ⟨⟨p, mid⟩, returned, same⟩ := Option.map_eq_some_iff.mp ran
    have sound' : Sound head ({ m with output := output }).kernel blocks := sound
    obtain ⟨k, rfl, sound'', kept, live⟩ := kalloc_ok sound' (by decide) returned
    refine .inr ⟨o, p, k, output, rfl, sound'', kept, live, ?_⟩
    dsimp only at same
    split at same
    · next null =>
      obtain ⟨rfl, rfl⟩ := Prod.mk.inj same
      exact .inl ⟨null, rfl, rfl⟩
    · next some_ =>
      obtain ⟨rfl, rfl⟩ := Prod.mk.inj same
      exact .inr ⟨some_, rfl, rfl⟩

/-- A port that is set up has a buffer of its own, and nothing is unread. -/
theorem serialInit_slot {m₀ : Machine} (sound : Sound head m₀.kernel blocks)
    (initialised : serialInit head.addr fuel dev config m₀ = some (0, m)) (slot : serialDev2Offset dev = some o) :
    ∃ p, m.serialBuffers o = ⟨0, 0, p⟩ ∧ (p, serialBufferLen) ∈ m.kernel.live ∧
      (∃ blocks', Sound head m.kernel blocks') ∧
      m.interruptHandlers = Function.update m₀.interruptHandlers picSerial1Irq (some .serialInterruptHandler) := by
  obtain ⟨none_, -, -⟩ | ⟨o', p, k, output, here, sound', -, live, outcome⟩ := serialInit_ok sound initialised
  · rw [slot] at none_
    cases none_
  obtain rfl := Option.some_inj.mp (slot.symm.trans here)
  obtain ⟨-, failed, -⟩ | ⟨some_, -, rfl⟩ := outcome
  · cases failed
  rw [if_neg some_] at live
  exact ⟨p, setSerial_same, live ▸ List.mem_cons_self, sound', rfl⟩

theorem serialInit_returns {memHead p : Nat} {s' : State} (slot : serialDev2Offset dev = some o)
    (ran : Memory.kalloc memHead fuel m.kernel.state serialBufferLen = some (p, s')) (some_ : p ≠ 0) :
    ∃ m', serialInit memHead fuel dev config m = some (0, m') := by
  obtain ⟨output, setUp⟩ := serialSetUp_output m dev config
  obtain ⟨mid, ran'⟩ : ∃ mid, (m.serialSetUp dev config).kalloc memHead fuel serialBufferLen = some (p, mid) := by
    rw [setUp]
    exact ⟨_, Option.map_eq_some_iff.mpr ⟨(p, s'), ran, rfl⟩⟩
  unfold serialInit
  rw [slot]
  dsimp only
  rw [ran', Option.map_some]
  dsimp only
  rw [if_neg some_]
  exact ⟨_, rfl⟩

/-! ## A machine with three megabytes -/

/-- The settings that the kernel uses. -/
def kernelConfig : SerialPortConfig := ⟨3, 1, 3⟩

theorem serialInit_threeMegabytes (slot : serialDev2Offset dev = some o) : ∃ s fuel m,
    Sound lowHead (.boot s) [] ∧ serialInit lowHead.addr fuel dev kernelConfig (.started (.boot s)) = some (0, m) := by
  obtain ⟨s, fuel, p, s', sound, ran, some_⟩ := @kalloc_threeMegabytes 64 (by decide) (by decide)
  obtain ⟨m, initialised⟩ := @serialInit_returns (.started (.boot s)) o dev kernelConfig fuel _ _ _ slot ran some_
  exact ⟨s, fuel, m, sound, initialised⟩

end AtaKernel.Drivers
