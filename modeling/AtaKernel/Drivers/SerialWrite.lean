import AtaKernel.Drivers.Serial
import AtaKernel.Library.PortIo

/-! The sending half of the serial driver (`serial_write` in `drivers/serial.c`) and the transmitter behind it. The
driver waits before each byte until the transmitter has taken all the others, so none is lost however slow it is, and
a transmitter that never stops for good lets every call return. -/
namespace AtaKernel.Drivers
open ByteMemory Memory PortIo

/-! ## The transmitter -/

structure UartSettings where
  divisorLsb : UInt8
  divisorMsb : UInt8
  interrupts : UInt8
  lineControl : UInt8
  modemControl : UInt8
  fifo : Bool
  deriving DecidableEq

/-- What a UART keeps for sending. `queue` are the bytes that wait, the next one first, `sent` those that went out over
the line, in order, and `lost` those that did neither. `clock` counts the moments at which the transmitter may take a
byte, one behind each read of the line status; at moment `n` it does if `takes n`. The bits of the status that are not
about the transmitter are those of `status n`. -/
structure Uart extends UartSettings where
  queue : List UInt8
  sent : List UInt8
  lost : List UInt8
  status : Nat → UInt8
  takes : Nat → Bool
  clock : Nat

namespace Uart

/-- `DLAB`, which makes the divisor of ports 0 and 1. -/
def Dlab (u : Uart) : Prop := u.lineControl &&& 0x80 ≠ 0

instance {u : Uart} : Decidable u.Dlab := inferInstanceAs (Decidable (_ ≠ _))

def capacity (u : Uart) : Nat := if u.fifo then 16 else 1

def put (u : Uart) (v : UInt8) : Uart :=
  if u.queue.length < u.capacity then { u with queue := u.queue ++ [v] } else { u with lost := u.lost ++ [v] }

/-- To switch the FIFO on or off clears it, and so does bit 2. -/
def fifoControl (u : Uart) (v : UInt8) : Uart :=
  if (v &&& 0x01 ≠ 0) = (u.fifo = true) ∧ v &&& 0x04 = 0 then u
  else { u with fifo := v &&& 0x01 ≠ 0, queue := [], lost := u.lost ++ u.queue }

def outb (u : Uart) (register : UInt16) (v : UInt8) : Uart :=
  if register = 0 then if u.Dlab then { u with divisorLsb := v } else u.put v
  else if register = 1 then if u.Dlab then { u with divisorMsb := v } else { u with interrupts := v }
  else if register = 2 then u.fifoControl v
  else if register = 3 then { u with lineControl := v }
  else if register = 4 then { u with modemControl := v }
  else u

/-- The transmitter has had time for a byte, which it may have used. -/
def tick (u : Uart) : Uart :=
  { u with
    clock := u.clock + 1
    queue := if u.takes u.clock then u.queue.drop 1 else u.queue
    sent := if u.takes u.clock then u.sent ++ u.queue.take 1 else u.sent }

/-- Bit 5 says that nothing waits. -/
def lineStatus (u : Uart) : UInt8 :=
  if u.queue = [] then u.status u.clock ||| 0x20 else u.status u.clock &&& 0xdf

end Uart

/-- The ports of one device. Of what can be read there only the line status is about sending. -/
def uartBus (dev : SerialDevice) : Bus Uart where
  inb port u := if port = dev + 5 then (u.lineStatus, u.tick) else (0, u)
  inw _ u := (0, u)
  outb port v u := u.outb (port - dev) v
  outw _ _ u := u

/-! ## The driver -/

variable {σ : Type}

/-- `SERIAL_LINE_STATUS_EMPTY_TRANSMITTER_REG` -/
def transmitterTest (s : UInt8) : Option Unit := if s &&& 0x20 = 0 then none else some ()

/-- What `serial_write` does with byte `i`. -/
def serialWriteByte (bus : Bus σ) (fuel : Nat) (dev : SerialDevice) (buf i : Nat) : Io σ Unit := do
  loop fuel (readThenTest bus (dev + 5) transmitterTest) ()
  let v ← peek (buf + i) 1
  outb bus dev (UInt8.ofNat v)

/-- The index is an `int` and is compared as a `u32`; addresses wrap, and so a wrapped index names the same byte. -/
def serialWrite (bus : Bus σ) (fuel : Nat) (dev : SerialDevice) (buf : Nat) (len : UInt32) : Io σ Unit :=
  times len.toNat (serialWriteByte bus fuel dev buf)

/-- `((u8*)(buf))[0..len]` -/
def bufferBytes (memory : Memory) (buf len : Nat) : List UInt8 := (List.range len).map fun i => load8 memory (buf + i)

/-! ## One byte -/

namespace Uart

variable {u : Uart} {v : UInt8} {n : Nat}

/-- What has been given to the line, sent or not. -/
def line (u : Uart) : List UInt8 := u.sent ++ u.queue

@[simp] theorem tick_line : u.tick.line = u.line := by
  unfold tick line
  dsimp only
  split
  · rw [List.append_assoc, List.take_append_drop]
  · rfl

theorem lineStatus_empty : transmitterTest u.lineStatus = some () ↔ u.queue = [] := by
  have set_ : ∀ s : UInt8, ¬ (s ||| 0x20) &&& 0x20 = 0 := by decide +kernel
  have clear : ∀ s : UInt8, (s &&& 0xdf) &&& 0x20 = 0 := by decide +kernel
  unfold transmitterTest lineStatus
  by_cases empty : u.queue = []
  · simp [empty, set_]
  · simp [empty, clear]

/-- An empty queue has room. -/
theorem put_empty (empty : u.queue = []) : u.put v = { u with queue := [v] } := by
  have room : u.queue.length < u.capacity := by
    rw [empty, capacity]
    split <;> decide
  rw [put, if_pos room, empty, List.nil_append]

/-- The settings stay, and nothing is lost. -/
structure Same (u u' : Uart) : Prop where
  settings : u'.toUartSettings = u.toUartSettings
  lost : u'.lost = u.lost
  takes : u'.takes = u.takes

theorem Same.refl (u : Uart) : Same u u := ⟨rfl, rfl, rfl⟩

theorem Same.trans {u' u'' : Uart} (first : Same u u') (second : Same u' u'') : Same u u'' :=
  ⟨second.settings.trans first.settings, second.lost.trans first.lost, second.takes.trans first.takes⟩

theorem Same.clear {u' : Uart} (same : Same u u') (clear : ¬ u.Dlab) : ¬ u'.Dlab := by
  unfold Dlab
  rw [same.settings]
  exact clear

theorem same_tick : Same u u.tick := ⟨rfl, rfl, rfl⟩

/-- The UART after time for `n` bytes. -/
def ticks (n : Nat) (u : Uart) : Uart := tick^[n] u

theorem ticks_succ (n : Nat) (u : Uart) : u.ticks (n + 1) = (u.ticks n).tick := Function.iterate_succ_apply' _ _ _

theorem same_ticks (n : Nat) : Same u (u.ticks n) := by
  induction n with
  | zero => exact Same.refl u
  | succ n ih =>
    rw [ticks_succ]
    exact ih.trans same_tick

theorem ticks_line (n : Nat) : (u.ticks n).line = u.line := by
  induction n with
  | zero => rfl
  | succ n ih => rw [ticks_succ, tick_line, ih]

/-- A byte is put behind an empty queue while `DLAB` is clear. -/
theorem outb_data (clear : ¬ u.Dlab) (empty : u.queue = []) :
    Same u (u.outb 0 v) ∧ (u.outb 0 v).line = u.line ++ [v] := by
  rw [outb, if_pos rfl, if_neg clear, put_empty empty]
  refine ⟨⟨rfl, rfl, rfl⟩, ?_⟩
  rw [line, line, empty, List.append_nil]

/-! ### The transmitter comes to the end of its queue -/

/-- The transmitter never stops for good. -/
def Transmits (u : Uart) : Prop := ∀ n, ∃ k ≥ n, u.takes k = true

theorem Same.transmits {u' : Uart} (same : Same u u') (transmits : u.Transmits) : u'.Transmits := by
  intro n
  rw [same.takes]
  exact transmits n

theorem tick_length : u.tick.queue.length = if u.takes u.clock then u.queue.length - 1 else u.queue.length := by
  unfold tick
  dsimp only
  split
  · exact List.length_drop
  · rfl

theorem ticks_shorter {j : Nat} (taken : u.takes (u.clock + j) = true) :
    (u.ticks (j + 1)).queue.length ≤ u.queue.length - 1 := by
  induction j generalizing u with
  | zero =>
    have now : u.takes u.clock = true := taken
    change u.tick.queue.length ≤ _
    rw [tick_length, if_pos now]
  | succ j ih =>
    have later : u.tick.takes (u.tick.clock + j) = true := by
      change u.takes (u.clock + 1 + j) = true
      rwa [Nat.add_right_comm]
    have shorter := ih later
    have first : u.tick.queue.length ≤ u.queue.length := by
      rw [tick_length]
      split <;> omega
    change (u.tick.ticks (j + 1)).queue.length ≤ _
    omega

theorem ticks_empty (transmits : u.Transmits) : ∃ n, (u.ticks n).queue = [] := by
  obtain ⟨length, bound⟩ : ∃ length, u.queue.length ≤ length := ⟨_, le_rfl⟩
  induction length generalizing u with
  | zero => exact ⟨0, List.eq_nil_of_length_eq_zero (Nat.le_zero.mp bound)⟩
  | succ length ih =>
    obtain ⟨k, late, taken⟩ := transmits u.clock
    obtain ⟨j, rfl⟩ := Nat.exists_eq_add_of_le late
    have shorter := ticks_shorter taken
    obtain ⟨n, empty⟩ := ih ((same_ticks (j + 1)).transmits transmits) (by omega)
    refine ⟨n + (j + 1), ?_⟩
    rwa [ticks, Function.iterate_add_apply]

end Uart

variable {dev : SerialDevice} {w w' : World Uart} {bytes : List UInt8} {fuel buf i n : Nat}

theorem afterReads_status (dev : SerialDevice) (n : Nat) (w : World Uart) :
    (afterReads (uartBus dev) (dev + 5) n w).device = w.device.ticks n := by
  induction n with
  | zero => rfl
  | succ n ih =>
    have read : (uartBus dev).inb (dev + 5) (w.device.ticks n) =
        ((w.device.ticks n).lineStatus, (w.device.ticks n).tick) :=
      if_pos rfl
    rw [afterReads_succ, World.readOnce, ih, read, Uart.ticks_succ]

theorem answer_empty :
    transmitterTest (answer (uartBus dev) (dev + 5) w n) = some () ↔ (w.device.ticks n).queue = [] := by
  rw [answer, afterReads_status, ← Uart.lineStatus_empty]
  change transmitterTest (if dev + 5 = dev + 5 then _ else _ : UInt8 × Uart).1 = _ ↔ _
  rw [if_pos rfl]

/-- A byte goes out after the first status that shows an empty queue, and not before. -/
theorem serialWriteByte_returns : Returns (serialWriteByte (uartBus dev) fuel dev buf i) w () w' ↔
    ∃ n < fuel, (∀ k < n, (w.device.ticks k).queue ≠ []) ∧ (w.device.ticks n).queue = [] ∧
      w' = (afterReads (uartBus dev) (dev + 5) (n + 1) w).put (uartBus dev) dev (load8 w.memory (buf + i)) := by
  have waiting : ∀ k,
      transmitterTest (answer (uartBus dev) (dev + 5) w k) = none ↔ (w.device.ticks k).queue ≠ [] := by
    intro k
    rw [Ne, ← @answer_empty dev, Option.eq_none_iff_forall_ne_some]
    exact ⟨fun none_ => none_ (), fun none_ _ => none_⟩
  have byte : ∀ v : UInt8, UInt8.ofNat (v.toNat + 256 * 0) = v := by
    intro v
    rw [Nat.mul_zero, Nat.add_zero, UInt8.ofNat_toNat]
  have poll : ∀ v, Returns (loop fuel (readThenTest (uartBus dev) (dev + 5) transmitterTest) ()) w () v ↔ _ :=
    fun v => @returns_readThenTest _ _ w v () (uartBus dev) (dev + 5) fuel transmitterTest 0
  have load_one : ∀ m a, UInt8.ofNat (load m a 1) = load8 m a := fun m a => byte _
  rw [serialWriteByte, returns_bind]
  simp only [poll, returns_bind, returns_peek, returns_outb, Nat.zero_add, Nat.zero_le, true_and, forall_const, waiting,
    answer_empty]
  constructor
  · rintro ⟨-, v, ⟨n, low, busy, empty, rfl⟩, _, _, ⟨rfl, rfl⟩, rfl⟩
    exact ⟨n, low, busy, empty, by rw [load_one, World.put, afterReads_memory]⟩
  · rintro ⟨n, low, busy, empty, rfl⟩
    refine ⟨(), _, ⟨n, low, busy, empty, rfl⟩, _, _, ⟨rfl, rfl⟩, ?_⟩
    rw [load_one, World.put, afterReads_memory]

/-- What a call leaves that gives `bytes` to the line. -/
structure Gives (bytes : List UInt8) (w w' : World Uart) : Prop where
  same : Uart.Same w.device w'.device
  line : w'.device.line = w.device.line ++ bytes
  memory : w'.memory = w.memory

theorem Gives.trans {more : List UInt8} {w'' : World Uart} (first : Gives bytes w w') (second : Gives more w' w'') :
    Gives (bytes ++ more) w w'' :=
  ⟨first.same.trans second.same, by rw [second.line, first.line, List.append_assoc], second.memory.trans first.memory⟩

theorem serialWriteByte_gives (clear : ¬ w.device.Dlab)
    (ran : Returns (serialWriteByte (uartBus dev) fuel dev buf i) w () w') :
    Gives [load8 w.memory (buf + i)] w w' := by
  obtain ⟨n, -, -, empty, rfl⟩ := serialWriteByte_returns.mp ran
  have ticked : (afterReads (uartBus dev) (dev + 5) (n + 1) w).device = (w.device.ticks n).tick := by
    rw [afterReads_status, Uart.ticks_succ]
  have same : Uart.Same w.device (w.device.ticks n).tick := (Uart.same_ticks n).trans Uart.same_tick
  -- the last status was read with an empty queue, and time does not fill it
  have empty' : (w.device.ticks n).tick.queue = [] := by
    unfold Uart.tick
    dsimp only
    rw [empty, List.drop_nil, ite_self]
  obtain ⟨put, line⟩ := Uart.outb_data (v := load8 w.memory (buf + i)) (same.clear clear) empty'
  have device :
      ((afterReads (uartBus dev) (dev + 5) (n + 1) w).put (uartBus dev) dev (load8 w.memory (buf + i))).device =
      (w.device.ticks n).tick.outb 0 (load8 w.memory (buf + i)) := by
    change Uart.outb _ (dev - dev) _ = _
    rw [ticked, UInt16.sub_self]
  refine ⟨?_, ?_, afterReads_memory _ _ _ _⟩
  · rw [device]
    exact same.trans put
  · rw [device, line, Uart.tick_line, Uart.ticks_line]

theorem serialWriteByte_finishes (transmits : w.device.Transmits) :
    ∃ w', Finishes (fun fuel => serialWriteByte (uartBus dev) fuel dev buf i) w () w' := by
  have empties := Uart.ticks_empty transmits
  obtain ⟨n, empty, first⟩ : ∃ n, (w.device.ticks n).queue = [] ∧ ∀ k < n, (w.device.ticks k).queue ≠ [] :=
    ⟨Nat.find empties, Nat.find_spec empties, fun k before => Nat.find_min empties before⟩
  exact ⟨_, n + 1, fun fuel enough => serialWriteByte_returns.mpr ⟨n, by omega, first, empty, rfl⟩⟩

/-! ## Whole calls -/

theorem bufferBytes_succ (memory : Memory) (buf n : Nat) :
    bufferBytes memory buf (n + 1) = bufferBytes memory buf n ++ [load8 memory (buf + n)] := by
  rw [bufferBytes, List.range_succ, List.map_append]
  rfl

theorem times_gives (clear : ¬ w.device.Dlab)
    (ran : Returns (times n (serialWriteByte (uartBus dev) fuel dev buf)) w () w') :
    Gives (bufferBytes w.memory buf n) w w' := by
  induction n generalizing w' with
  | zero =>
    obtain ⟨-, rfl⟩ := returns_pure.mp ran
    exact ⟨Uart.Same.refl _, (List.append_nil _).symm, rfl⟩
  | succ n ih =>
    obtain ⟨v, before, last⟩ := returns_times_succ.mp ran
    have given := ih before
    have next := serialWriteByte_gives (given.same.clear clear) last
    rw [given.memory] at next
    rw [bufferBytes_succ]
    exact given.trans next

theorem times_finishes (transmits : w.device.Transmits) (clear : ¬ w.device.Dlab) (n : Nat) :
    ∃ w', Finishes (fun fuel => times n (serialWriteByte (uartBus dev) fuel dev buf)) w () w' := by
  induction n with
  | zero => exact ⟨w, (returns_pure.mpr ⟨rfl, rfl⟩ : Returns (pure ()) w () w).finishes⟩
  | succ n ih =>
    obtain ⟨v, before⟩ := ih
    obtain ⟨enough, ran⟩ := before
    have given := times_gives clear (ran enough le_rfl)
    obtain ⟨w', last⟩ := @serialWriteByte_finishes dev v buf n (given.same.transmits transmits)
    exact ⟨w', Finishes.bind ⟨enough, ran⟩ last⟩

/-- The runs from `start` on: calls of `serial_write`, and between them other code that stores what it likes, and time
for the transmitter. `bytes` are the bytes of the calls, in their order. -/
inductive Sending (dev : SerialDevice) (start : World Uart) : List UInt8 → World Uart → Prop
  | start : Sending dev start [] start
  | call {bytes : List UInt8} {w w' : World Uart} {fuel buf : Nat} {len : UInt32} (before : Sending dev start bytes w)
      (ran : Returns (serialWrite (uartBus dev) fuel dev buf len) w () w') :
      Sending dev start (bytes ++ bufferBytes w.memory buf len.toNat) w'
  | stored {bytes : List UInt8} {w : World Uart} (memory : Memory) (before : Sending dev start bytes w) :
      Sending dev start bytes { w with memory }
  | tick {bytes : List UInt8} {w : World Uart} (before : Sending dev start bytes w) :
      Sending dev start bytes { w with device := w.device.tick }

/-- A run gives the line the bytes of its calls and nothing else. -/
theorem sending_gives {start : World Uart} (clear : ¬ start.device.Dlab) (sending : Sending dev start bytes w) :
    Uart.Same start.device w.device ∧ w.device.line = start.device.line ++ bytes := by
  induction sending with
  | start => exact ⟨Uart.Same.refl _, (List.append_nil _).symm⟩
  | @call bytes w w' fuel buf len before ran ih =>
    obtain ⟨same, line⟩ := ih
    have given := times_gives (same.clear clear) ran
    exact ⟨same.trans given.same, by rw [given.line, line, List.append_assoc]⟩
  | stored memory before ih => exact ih
  | tick before ih => exact ⟨ih.1.trans Uart.same_tick, Uart.tick_line.trans ih.2⟩

/-! ## Behind the initialisation -/

/-- What the driver wrote to the ports of a device, the latest first. -/
def Uart.replay (dev : SerialDevice) (u : Uart) (outputs : List Output) : Uart :=
  outputs.foldr (fun output u => match output with
    | .outb port v => u.outb (port - dev) v
    | .generic _ => u) u

/-- The settings that the configuration asks for; `DLAB` is clear. -/
structure Uart.Configured (config : SerialPortConfig) (u : Uart) : Prop where
  divisor : u.divisorLsb.toNat + 256 * u.divisorMsb.toNat = config.divisor.toNat
  interrupts : u.interrupts = config.availableInterrupts
  line : u.lineControl = config.lineConfig &&& 0x7f
  modem : u.modemControl = 0
  fifo : u.fifo = true

variable {m m' : Machine} {u : Uart} {config : SerialPortConfig} {memHead enough : Nat} {new : List Output}

theorem Uart.Configured.clear (configured : u.Configured config) : ¬ u.Dlab := by
  have low : ∀ v : UInt8, v &&& 0x7f &&& 0x80 = 0 := by decide +kernel
  unfold Uart.Dlab
  rw [configured.line, low]
  exact fun some_ => some_ rfl

theorem Uart.Configured.same {u' : Uart} (configured : u.Configured config) (same : Uart.Same u u') :
    u'.Configured config := by
  obtain ⟨divisor, interrupts, line, modem, fifo⟩ := configured
  constructor <;> rw [same.settings]
  · exact divisor
  · exact interrupts
  · exact line
  · exact modem
  · exact fifo

theorem divisor_bytes (d : UInt16) :
    (d &&& 0x00ff).toUInt8.toNat + 256 * ((d >>> 8) &&& 0x00ff).toUInt8.toNat = d.toNat := by
  have low : ∀ d : UInt16, (d &&& 0x00ff).toUInt8.toNat = d.toNat % 256 := by
    intro d
    rw [UInt16.toNat_toUInt8, UInt16.toNat_and, show (0x00ff : UInt16).toNat = 2 ^ 8 - 1 from rfl,
      Nat.and_two_pow_sub_one_eq_mod]
    exact Nat.mod_mod _ _
  have bound := d.toNat_lt
  rw [low, low, UInt16.toNat_shiftRight, show (8 : UInt16).toNat % 16 = 8 from rfl, Nat.shiftRight_eq_div_pow]
  omega

theorem line_clear (v : UInt8) : v &&& 0x7f &&& 0x80 = 0 := by
  have all : ∀ v : UInt8, v &&& 0x7f &&& 0x80 = 0 := by decide +kernel
  exact all v

/-- What `serial_init` writes to the FIFO control clears what waits. -/
theorem fifoControl_set (u : Uart) :
    u.fifoControl 0x07 = { u with fifo := true, queue := [], lost := u.lost ++ u.queue } := by
  have clears : ¬ ((0x07 : UInt8) &&& 0x04 = 0) := by decide
  rw [Uart.fifoControl, if_neg fun keeps => clears keeps.2]
  rfl

/-- `serial_init` sets the port up as it was asked to. It clears the queue, which is lost. -/
theorem replay_setUp (setUp : (m.serialSetUp dev config).output = new ++ m.output) :
    u.replay dev new = { u with
      divisorLsb := (config.divisor &&& 0x00ff).toUInt8, divisorMsb := ((config.divisor >>> 8) &&& 0x00ff).toUInt8
      interrupts := config.availableInterrupts, lineControl := config.lineConfig &&& 0x7f, modemControl := 0
      fifo := true, queue := [], lost := u.lost ++ u.queue } := by
  have offset : ∀ k : UInt16, dev + k - dev = k := fun k => by rw [UInt16.add_comm, UInt16.add_sub_cancel]
  obtain rfl : [.outb (dev + 4) 0, .outb (dev + 2) 0x07, .outb (dev + 1) config.availableInterrupts,
      .outb (dev + 3) (config.lineConfig &&& 0x7f), .outb (dev + 1) ((config.divisor >>> 8) &&& 0x00ff).toUInt8,
      .outb dev (config.divisor &&& 0x00ff).toUInt8, .outb (dev + 3) 0x80] = new :=
    @List.append_cancel_right _ _ m.output _ setUp
  simp only [Uart.replay, List.foldr, offset, UInt16.sub_self]
  simp [Uart.outb, Uart.Dlab, fifoControl_set, line_clear]

theorem serialInit_output (initialised : serialInit memHead enough dev config m = some (0, m')) :
    m'.output = (m.serialSetUp dev config).output := by
  unfold serialInit at initialised
  split at initialised
  · simp at initialised
  · obtain ⟨⟨p, m₁⟩, allocated, result⟩ := Option.map_eq_some_iff.mp initialised
    obtain ⟨r, -, same⟩ := Option.map_eq_some_iff.mp allocated
    obtain ⟨-, rfl⟩ := Prod.mk.inj same
    dsimp only at result
    split at result
    · simp at result
    · obtain ⟨-, rfl⟩ := Prod.mk.inj result
      rfl

/-- After `serial_init` every byte given to `serial_write` is sent or waits to be, in order and once; only what waited
before the initialisation is lost. A transmitter that never stops for good lets every further call return. -/
theorem serialWrite_loses_nothing {start : World Uart}
    (initialised : serialInit memHead enough dev config m = some (0, m')) (outputs : m'.output = new ++ m.output)
    (begins : start.device = u.replay dev new) (sending : Sending dev start bytes w) :
    w.device.Configured config ∧ w.device.sent ++ w.device.queue = u.sent ++ bytes ∧
      w.device.lost = u.lost ++ u.queue ∧
      (u.Transmits → ∀ buf len, ∃ w', Finishes (fun fuel => serialWrite (uartBus dev) fuel dev buf len) w () w') := by
  have setUp := @replay_setUp dev m u config new ((serialInit_output initialised).symm.trans outputs)
  have configured : start.device.Configured config := by
    rw [begins, setUp]
    exact ⟨divisor_bytes config.divisor, rfl, rfl, rfl, rfl⟩
  obtain ⟨same, line⟩ := sending_gives configured.clear sending
  have configured' : w.device.Configured config := configured.same same
  refine ⟨configured', ?_, ?_, fun transmits buf len => ?_⟩
  · have empty : start.device.line = u.sent := by
      rw [begins, setUp]
      exact List.append_nil _
    rw [← empty]
    exact line
  · rw [same.lost, begins, setUp]
  · have takes : w.device.takes = u.takes := by rw [same.takes, begins, setUp]
    refine times_finishes ?_ configured'.clear len.toNat
    intro n
    rw [takes]
    exact transmits n

/-- Takes a byte after every third read, with one still waiting when `serial_init` is called. -/
def slowUart : Uart :=
  { divisorLsb := 0, divisorMsb := 0, interrupts := 0, lineControl := 0x80, modemControl := 0, fifo := false
    queue := [0x20], sent := [], lost := [], status := fun _ => 0x41, takes := fun n => n % 3 = 0, clock := 0 }

theorem slowUart_transmits : slowUart.Transmits := fun n =>
  ⟨3 * n, by omega, decide_eq_true (Nat.mul_mod_right 3 n)⟩

theorem serialWrite_loses_nothing_two_letters : ∃ s enough m' w,
    serialInit lowHead.addr enough serialCom1 kernelConfig (.started (.boot s)) = some (0, m') ∧
      Sending serialCom1 ⟨slowUart.replay serialCom1 m'.output, [], fun a => UInt8.ofNat (0x41 + a)⟩ [0x41, 0x42] w ∧
      w.device.sent ++ w.device.queue = [0x41, 0x42] ∧ w.device.lost = [0x20] ∧
      ∃ w', Finishes (fun fuel => serialWrite (uartBus serialCom1) fuel serialCom1 0 2) w () w' := by
  obtain ⟨s, enough, m', -, initialised⟩ := @serialInit_threeMegabytes 0 serialCom1 rfl
  have outputs : m'.output = m'.output ++ (Machine.started (.boot s)).output := (List.append_nil _).symm
  have begins := @serialWrite_loses_nothing serialCom1 _ [] _ _ slowUart _ _ _ _
    ⟨slowUart.replay serialCom1 m'.output, [], fun a => UInt8.ofNat (0x41 + a)⟩ initialised outputs rfl .start
  obtain ⟨configured, -, -, returns⟩ := begins
  obtain ⟨w, enough', ran⟩ := returns slowUart_transmits 0 2
  have sending := Sending.call .start (ran enough' le_rfl)
  obtain ⟨-, line, lost, next⟩ := serialWrite_loses_nothing initialised outputs rfl sending
  exact ⟨s, enough, m', w, initialised, sending, line, lost, next slowUart_transmits 0 2⟩

end AtaKernel.Drivers
