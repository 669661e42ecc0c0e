import AtaKernel.Drivers.SerialRouting
import AtaKernel.Library.RingBuffer

/-! What a port receives and what `serial_read` returns, in every order of
interrupts and steps of the reader. An interrupt on any vector may come between any
two steps of a call, also between the test of its loop and `hlt`. The bytes that
come out are always among those that came in, in order. Of those of COM1 none is
missing as long as no byte arrives while 63 are unread, and none between a test
that found nothing and `hlt`. -/
namespace AtaKernel.Drivers
open ByteMemory Memory RingBuffer Relation

/-- Where a call of `serial_read` stands. -/
inductive Reader
  | idle
  /-- Before the test of the loop. -/
  | testing
  /-- The heads were the same, and `hw_hlt` comes next. -/
  | halting
  /-- In `hw_hlt`, until an interrupt. -/
  | halted
  /-- Behind the loop. -/
  | ready
  | fetched (v : UInt8)
  deriving DecidableEq

/-- The bytes that a call is about to return. -/
def Reader.inFlight : Reader → Nat
  | .ready => 1
  | .fetched _ => 1
  | _ => 0

/-- An interrupt ends `hlt`. -/
def Reader.wake : Reader → Reader
  | .halted => .testing
  | reader => reader

/-- A port, with what has come in and what was returned so far. -/
structure Port where
  machine : Machine
  reader : Reader
  received : List UInt8
  returned : List UInt8

/-- The vector is that of the port, which has a byte. -/
def Receives (dev : SerialDevice) (irq : UInt8) (inb : UInt16 → UInt8) : Prop :=
  serialIrq2Dev irq = some dev ∧ DataReceived dev inb

instance {dev : SerialDevice} {irq : UInt8} {inb : UInt16 → UInt8} : Decidable (Receives dev irq inb) :=
  inferInstanceAs (Decidable (_ ∧ _))

def Port.interrupt (dev : SerialDevice) (irq : UInt8) (inb : UInt16 → UInt8) (p : Port) : Port where
  machine := itrInterruptHandler irq inb p.machine
  reader := p.reader.wake
  received := if Receives dev irq inb then p.received ++ [inb dev] else p.received
  returned := p.returned

/-- An interrupt, or a step of the reader. -/
inductive PortStep (dev : SerialDevice) (o : Fin 4) (allowed : UInt8 → (UInt16 → UInt8) → Port → Prop) :
    Port → Port → Prop
  | interrupt {p : Port} {irq : UInt8} {inb : UInt16 → UInt8} (may : allowed irq inb p) :
      PortStep dev o allowed p (p.interrupt dev irq inb)
  | call {p : Port} (stands : p.reader = .idle) : PortStep dev o allowed p { p with reader := .testing }
  | fails {p : Port} (stands : p.reader = .testing) (none_ : p.machine.serialEmpty o) :
      PortStep dev o allowed p { p with reader := .halting }
  | passes {p : Port} (stands : p.reader = .testing) (some_ : ¬ p.machine.serialEmpty o) :
      PortStep dev o allowed p { p with reader := .ready }
  | halt {p : Port} (stands : p.reader = .halting) : PortStep dev o allowed p { p with reader := .halted }
  | fetch {p : Port} (stands : p.reader = .ready) :
      PortStep dev o allowed p { p with reader := .fetched (p.machine.serialFetch o) }
  | finish {p : Port} {v : UInt8} (stands : p.reader = .fetched v) :
      PortStep dev o allowed p ⟨p.machine.serialAdvance o, .idle, p.received, p.returned ++ [v]⟩

/-- The runs whose interrupts are all allowed where they come. -/
abbrev PortRun (dev : SerialDevice) (o : Fin 4) (allowed : UInt8 → (UInt16 → UInt8) → Port → Prop) :
    Port → Port → Prop :=
  ReflTransGen (PortStep dev o allowed)

def Anytime (_ : UInt8) (_ : UInt16 → UInt8) (_ : Port) : Prop := True

def Never (_ : UInt8) (_ : UInt16 → UInt8) (_ : Port) : Prop := False

/-- Fewer than 63 bytes are unread, but for the one that a call is about to return. -/
def Port.Room (p : Port) : Prop := p.received.length < p.returned.length + p.reader.inFlight + 63

/-- A byte comes only on COM1, where there is room, and not between a test that found nothing and `hlt`. -/
def Timely (dev : SerialDevice) (irq : UInt8) (inb : UInt16 → UInt8) (p : Port) : Prop :=
  Receives dev irq inb → dev = serialCom1 ∧ p.Room ∧ p.reader ≠ .halting

/-- The bytes came out in order, and all of them: the calls that follow return those that are left, and
only when none is left does a call wait. -/
structure Lossless (dev : SerialDevice) (o : Fin 4) (p : Port) : Prop where
  order : p.returned <+: p.received
  kept : ∃ q, PortRun dev o Never p q ∧ q.received = p.received ∧ q.returned = p.received
  waits : p.reader = .halting ∨ p.reader = .halted → p.returned = p.received
  next : p.reader = .idle → serialRead dev 1 p.machine = none → p.returned = p.received

/-- The call is in `hlt` with bytes unread, and stays there as long as no interrupt comes. -/
structure Stuck (dev : SerialDevice) (o : Fin 4) (p : Port) : Prop where
  reader : p.reader = .halted
  unread : p.returned ≠ p.received
  stays : ∀ q, PortRun dev o Never p q → q = p

variable {dev : SerialDevice} {o : Fin 4} {m m₁ m₂ : Machine} {p p' : Port} {base fuel : Nat}
  {allowed : UInt8 → (UInt16 → UInt8) → Port → Prop} {config : SerialPortConfig} {head : MemHead} {blocks : List Block}
  {irq : UInt8} {inb : UInt16 → UInt8} {xs ys : List UInt8} {reader : Reader} {v x : UInt8} {k : Kernel} {s : Ports}

/-! ## Interrupts and one buffer -/

/-- The heads and the cells of a buffer stay as they are. -/
structure SameRing (o : Fin 4) (m m' : Machine) : Prop where
  heads : m'.serialBuffers o = m.serialBuffers o
  cells : ∀ c < serialBufferLen, m'.byte ((m.serialBuffers o).buffer + c) = m.byte ((m.serialBuffers o).buffer + c)

theorem SameRing.rfl' : SameRing o m m := ⟨rfl, fun _ _ => rfl⟩

theorem SameRing.trans (first : SameRing o m m₁) (second : SameRing o m₁ m₂) : SameRing o m m₂ := by
  refine ⟨second.heads.trans first.heads, fun c inside => ?_⟩
  have later := second.cells c inside
  rw [first.heads] at later
  exact later.trans (first.cells c inside)

theorem SameRing.eoi (same : SameRing o m m₁) : SameRing o m (m₁.picSendEoi irq) := by
  refine same.trans ⟨?_, fun c _ => picSendEoi_byte⟩
  rw [picSendEoi_serialBuffers]

/-- A store into another buffer, or through NULL, misses the buffer. -/
theorem Wired.store_misses {q size i : Nat} (wired : Wired head m) (image : 64 ≤ head.addr)
    (some_ : (m.serialBuffers o).buffer ≠ 0) (handed : Handed m.kernel q size) (within : i < size) (few : size ≤ 64)
    (other : q ≠ (m.serialBuffers o).buffer ∨ size ≠ serialBufferLen) : SameRing o m (m.setByte (q + i) v) := by
  refine ⟨rfl, fun c inside => ?_⟩
  obtain ⟨blocks, sound⟩ := wired.sound
  have own := (wired.handed o).resolve_left some_
  have top : (m.serialBuffers o).buffer + serialBufferLen < 2 ^ 32 := (sound.live_bounds own).2
  have cell : (m.serialBuffers o).buffer + c ∈ Set.Ico (m.serialBuffers o).buffer
      ((m.serialBuffers o).buffer + serialBufferLen) := ⟨Nat.le_add_right _ _, Nat.add_lt_add_left inside _⟩
  obtain rfl | live := handed
  · have high := sound.live_high own cell
    rw [byte_setByte (by omega) (by omega), if_neg (by omega)]
  · have top' := (sound.live_bounds live).2
    have apart := sound.disjoint live own fun same => by
      obtain ⟨place, length⟩ := Prod.mk.inj same
      exact other.elim (fun differ => differ place) fun differ => differ length
    dsimp only at top' apart
    rw [byte_setByte (by omega) (by omega), if_neg]
    rintro same
    refine Set.disjoint_left.mp apart ⟨Nat.le_add_right _ i, Nat.add_lt_add_left within q⟩ ?_
    rw [← same]
    exact cell

theorem Wired.kbPut_misses (wired : Wired head m) (image : 64 ≤ head.addr) (some_ : (m.serialBuffers o).buffer ≠ 0) :
    SameRing o m (m.kbPut v) := by
  obtain ⟨i, within, same⟩ := @Wired.kbPut_cell m v head wired
  have misses := @Wired.store_misses o m head v _ _ _ wired image some_ wired.kb within (by decide) (.inr (by decide))
  rw [same]
  exact ⟨misses.heads, misses.cells⟩

theorem Wired.kbPuts_miss (bytes : List UInt8) (wired : Wired head m) (image : 64 ≤ head.addr)
    (some_ : (m.serialBuffers o).buffer ≠ 0) : SameRing o m (bytes.foldl Machine.kbPut m) := by
  induction bytes generalizing m with
  | nil => exact .rfl'
  | cons v bytes ih =>
    have first := @Wired.kbPut_misses o m head v wired image some_
    have some_' : ((m.kbPut v).serialBuffers o).buffer ≠ 0 := by rwa [first.heads]
    exact first.trans (ih (wired.kbPut image) some_')

theorem Wired.kbHandler_misses (wired : Wired head m) (image : 64 ≤ head.addr)
    (some_ : (m.serialBuffers o).buffer ≠ 0) : SameRing o m (kbInterruptHandler irq inb m) := by
  unfold kbInterruptHandler
  dsimp only
  apply SameRing.eoi
  split
  · exact ⟨rfl, fun _ _ => rfl⟩
  split
  · have puts := wired.kbPuts_miss (m.kb.part ++ [inb kbEncoderBuf]) image some_
    exact ⟨puts.heads, puts.cells⟩
  · exact ⟨rfl, fun _ _ => rfl⟩

/-- A byte for another port goes into another buffer. -/
theorem Wired.serialPut_misses {o' : Fin 4} (wired : Wired head m) (image : 64 ≤ head.addr)
    (some_ : (m.serialBuffers o).buffer ≠ 0) (other : o ≠ o') : SameRing o m (m.serialPut o' v) := by
  have within : (m.serialBuffers o').writeHead.toNat < serialBufferLen := UInt32.lt_iff_toNat_lt.mp (wired.low o').1
  have misses := @Wired.store_misses o m head v _ _ _ wired image some_ (wired.handed o') within le_rfl
    (.inl (wired.apart o o' other some_).symm)
  exact ⟨setSerial_other other, misses.cells⟩

theorem irq_of_com1 (maps : serialIrq2Dev irq = some serialCom1) : irq = picSerial1Irq := by
  unfold serialIrq2Dev at maps
  split at maps
  · assumption
  split at maps
  · cases maps
  · cases maps

/-- An interrupt with a byte for COM1 puts it into the buffer. -/
theorem interrupt_puts (registered : m.interruptHandlers picSerial1Irq = some .serialInterruptHandler)
    (slot : serialDev2Offset serialCom1 = some o) (receives : Receives serialCom1 irq inb) :
    itrInterruptHandler irq inb m = (m.serialPut o (inb serialCom1)).picSendEoi irq := by
  have reached : m.interruptHandlers irq = some .serialInterruptHandler := irq_of_com1 receives.1 ▸ registered
  rw [dispatch_serial reached, handler_puts receives.1 slot receives.2]

/-- Any other interrupt leaves the buffer of a port as it is: only the vector of COM1 leads to the handler. -/
theorem Wired.interrupt_misses (wired : Wired head m) (image : 64 ≤ head.addr) (some_ : (m.serialBuffers o).buffer ≠ 0)
    (slot : serialDev2Offset dev = some o) (none_ : ¬ (dev = serialCom1 ∧ Receives dev irq inb)) :
    SameRing o m (itrInterruptHandler irq inb m) := by
  cases reached : m.interruptHandlers irq with
  | none =>
    unfold itrInterruptHandler
    rw [reached]
    exact SameRing.eoi ⟨rfl, fun _ _ => rfl⟩
  | some handler =>
    obtain ⟨rfl, rfl⟩ | ⟨-, rfl⟩ := wired.handlers irq handler reached
    · rw [dispatch_serial reached]
      by_cases data : DataReceived serialCom1 inb
      · have first : Receives serialCom1 picSerial1Irq inb := ⟨rfl, data⟩
        rw [handler_puts first.1 (o := 0) rfl data]
        refine SameRing.eoi (wired.serialPut_misses image some_ ?_)
        rintro rfl
        obtain rfl := dev2offset_inj slot (rfl : serialDev2Offset serialCom1 = some 0)
        exact none_ ⟨rfl, first⟩
      · unfold serialInterruptHandler
        dsimp only
        apply SameRing.eoi
        rw [show serialIrq2Offset picSerial1Irq = some 0 from rfl,
          show serialIrq2Dev picSerial1Irq = some serialCom1 from rfl]
        dsimp only
        rw [if_neg data]
        exact .rfl'
    · unfold itrInterruptHandler
      rw [reached]
      exact wired.kbHandler_misses image some_

/-! ## The ring -/

/-- What is stored of what has come in: only the vector of COM1 leads to the handler. -/
def Port.stored (dev : SerialDevice) (p : Port) : List UInt8 := if dev = serialCom1 then p.received else []

/-- The port has a buffer, and the handler is registered. -/
structure Attached (head : MemHead) (o : Fin 4) (base : Nat) (m : Machine) : Prop where
  wired : Wired head m
  registered : m.interruptHandlers picSerial1Irq = some .serialInterruptHandler
  place : (m.serialBuffers o).buffer = base
  some_ : base ≠ 0

theorem Attached.same (attached : Attached head o base m) (kept : Wired head m₁ ∧ SamePorts m m₁) :
    Attached head o base m₁ where
  wired := kept.1
  registered := kept.2.handler.trans attached.registered
  place := (kept.2.buffers o).trans attached.place
  some_ := attached.some_

theorem Attached.buffer_some (attached : Attached head o base m) : (m.serialBuffers o).buffer ≠ 0 :=
  attached.place ▸ attached.some_

theorem Attached.words (attached : Attached head o base m) : base + 64 < 2 ^ 32 := by
  obtain ⟨blocks, sound⟩ := attached.wired.sound
  have own := (attached.wired.handed o).resolve_left attached.buffer_some
  rw [attached.place] at own
  exact (sound.live_bounds own).2

/-- The heads and the cells are those of a ring that got `xs`, and lost what was returned. -/
structure RingAt (head : MemHead) (o : Fin 4) (base : Nat) (xs : List UInt8) (p : Port) : Prop where
  attached : Attached head o base p.machine
  write : (p.machine.serialBuffers o).writeHead.toNat = xs.length % 64
  read : (p.machine.serialBuffers o).readHead.toNat = p.returned.length % 64
  cells : Holds 64 (fun c => p.machine.byte (base + c)) xs
  ahead : p.returned.length + p.reader.inFlight ≤ xs.length

theorem head_advance {h : UInt32} {n : Nat} (place : h.toNat = n % 64) : ((h + 1) % 64).toNat = (n + 1) % 64 := by
  rw [head_succ, place, Nat.mod_add_mod]

theorem wake_inFlight : reader.wake.inFlight = reader.inFlight := by
  cases reader <;> rfl

/-- A byte that arrives on COM1 is put into the ring. -/
theorem RingAt.receive (ring : RingAt head o base xs p) (image : 64 ≤ head.addr)
    (slot : serialDev2Offset serialCom1 = some o) (receives : Receives serialCom1 irq inb) :
    RingAt head o base (xs ++ [inb serialCom1]) (p.interrupt serialCom1 irq inb) := by
  have attached := ring.attached
  have words := attached.words
  have low : xs.length % 64 < 64 := Nat.mod_lt _ (by decide)
  have puts := @interrupt_puts o p.machine irq inb attached.registered slot receives
  have after : (itrInterruptHandler irq inb p.machine).serialBuffers o =
      { p.machine.serialBuffers o with writeHead := ((p.machine.serialBuffers o).writeHead + 1) % 64 } := by
    rw [puts, picSendEoi_serialBuffers]
    exact setSerial_same
  constructor
  · exact attached.same (interrupt_keeps attached.wired image)
  · dsimp only [Port.interrupt]
    rw [after, List.length_append, List.length_singleton]
    exact head_advance ring.write
  · dsimp only [Port.interrupt]
    rw [after]
    exact ring.read
  · refine ring.cells.put (by decide) fun c inside => ?_
    dsimp only [Port.interrupt]
    rw [puts, picSendEoi_byte]
    change (p.machine.setByte ((p.machine.serialBuffers o).buffer + (p.machine.serialBuffers o).writeHead.toNat)
      (inb serialCom1)).byte (base + c) = _
    rw [attached.place, ring.write, byte_setByte (by omega) (by omega)]
    exact if_congr Nat.add_left_cancel_iff rfl rfl
  · have ahead := ring.ahead
    dsimp only [Port.interrupt]
    rw [List.length_append, wake_inFlight]
    omega

/-- Any other interrupt leaves the ring as it is. -/
theorem RingAt.wait (ring : RingAt head o base xs p) (image : 64 ≤ head.addr) (slot : serialDev2Offset dev = some o)
    (none_ : ¬ (dev = serialCom1 ∧ Receives dev irq inb)) : RingAt head o base xs (p.interrupt dev irq inb) := by
  have attached := ring.attached
  have same := attached.wired.interrupt_misses image attached.buffer_some slot none_
  constructor
  · exact attached.same (interrupt_keeps attached.wired image)
  · dsimp only [Port.interrupt]
    rw [same.heads]
    exact ring.write
  · dsimp only [Port.interrupt]
    rw [same.heads]
    exact ring.read
  · refine ring.cells.congr (by decide) fun c inside => ?_
    have kept := same.cells c inside
    rwa [attached.place] at kept
  · dsimp only [Port.interrupt]
    rw [wake_inFlight]
    exact ring.ahead

theorem RingAt.stands (ring : RingAt head o base xs p) (ahead : p.returned.length + reader.inFlight ≤ xs.length) :
    RingAt head o base xs { p with reader } :=
  ⟨ring.attached, ring.write, ring.read, ring.cells, ahead⟩

/-- The reader takes the next cell. -/
theorem RingAt.fetches (ring : RingAt head o base xs p) (some_ : p.returned.length < xs.length) :
    xs[latest 64 p.returned.length xs.length]? = some (p.machine.serialFetch o) := by
  rw [ring.cells.latest some_ (by decide), Machine.serialFetch, ring.attached.place, ring.read]

theorem RingAt.advance (ring : RingAt head o base xs p) (stands : p.reader = .fetched v) :
    RingAt head o base xs ⟨p.machine.serialAdvance o, .idle, p.received, p.returned ++ [v]⟩ := by
  have after : (p.machine.serialAdvance o).serialBuffers o =
      { p.machine.serialBuffers o with readHead := ((p.machine.serialBuffers o).readHead + 1) % 64 } := setSerial_same
  constructor
  · exact ring.attached.same ⟨ring.attached.wired.serialAdvance, serialAdvance_same⟩
  · dsimp only
    rw [after]
    exact ring.write
  · dsimp only
    rw [after, List.length_append, List.length_singleton]
    exact head_advance ring.read
  · exact ring.cells
  · have ahead := ring.ahead
    rw [stands] at ahead
    dsimp only [Reader.inFlight] at ahead ⊢
    rw [List.length_append, List.length_singleton]
    omega

/-- A call waits where a whole number of rounds is unread. -/
theorem RingAt.empty_iff (ring : RingAt head o base xs p) :
    p.machine.serialEmpty o ↔ 64 ∣ xs.length - p.returned.length := by
  have ahead : p.returned.length ≤ xs.length := by
    have behind := ring.ahead
    omega
  rw [← heads_meet_iff ahead, ← ring.write, ← ring.read, UInt32.toNat_inj]
  rfl

theorem RingAt.some_unread (ring : RingAt head o base xs p) (some_ : ¬ p.machine.serialEmpty o) :
    p.returned.length < xs.length := by
  rw [ring.empty_iff] at some_
  by_contra none_
  exact some_ ⟨0, by omega⟩

/-! ## Order -/

/-- Between calls: what was returned lies before the byte that the next call will find. -/
def Between (xs ys : List UInt8) : Prop :=
  ys = [] ∨ ∃ r w, ys.length = r + 1 ∧ r < w ∧ w ≤ xs.length ∧ ys.Sublist (xs.take (latest 64 r w + 1))

/-- What was returned lies before the byte that a call is about to return, and that before the next. -/
def InOrder (xs ys : List UInt8) : Reader → Prop
  | .ready => ∃ w, ys.length < w ∧ w ≤ xs.length ∧ ys.Sublist (xs.take (latest 64 ys.length w))
  | .fetched v => ∃ w, ys.length < w ∧ w ≤ xs.length ∧ xs[latest 64 ys.length w]? = some v ∧
      ys.Sublist (xs.take (latest 64 ys.length w))
  | _ => Between xs ys

theorem InOrder.wake (order : InOrder xs ys reader) : InOrder xs ys reader.wake := by
  cases reader <;> exact order

theorem Between.sublist (between : Between xs ys) : ys.Sublist xs := by
  obtain rfl | ⟨r, w, -, -, -, before⟩ := between
  · exact List.nil_sublist _
  · exact before.trans (List.take_sublist _ _)

theorem InOrder.sublist (order : InOrder xs ys reader) : ys.Sublist xs := by
  cases reader with
  | ready =>
    obtain ⟨w, -, -, before⟩ := order
    exact before.trans (List.take_sublist _ _)
  | fetched v =>
    obtain ⟨w, -, -, -, before⟩ := order
    exact before.trans (List.take_sublist _ _)
  | idle => exact Between.sublist order
  | testing => exact Between.sublist order
  | halting => exact Between.sublist order
  | halted => exact Between.sublist order

theorem take_more {i : Nat} (within : i ≤ xs.length) : (xs ++ [x]).take i = xs.take i :=
  List.take_append_of_le_length within

theorem Between.receive (between : Between xs ys) : Between (xs ++ [x]) ys := by
  obtain none_ | ⟨r, w, count, some_, upto, before⟩ := between
  · exact .inl none_
  · have low : latest 64 r w < w := latest_lt some_
    refine .inr ⟨r, w, count, some_, ?_, ?_⟩
    · rw [List.length_append]
      omega
    · rwa [take_more (by omega)]

/-- Bytes that arrive come last. -/
theorem InOrder.receive (order : InOrder xs ys reader) : InOrder (xs ++ [x]) ys reader := by
  have length : (xs ++ [x]).length = xs.length + 1 := by
    rw [List.length_append, List.length_singleton]
  cases reader with
  | ready =>
    obtain ⟨w, some_, upto, before⟩ := order
    have low : latest 64 ys.length w < w := latest_lt some_
    refine ⟨w, some_, by omega, ?_⟩
    rwa [take_more (by omega)]
  | fetched v =>
    obtain ⟨w, some_, upto, here, before⟩ := order
    have low : latest 64 ys.length w < w := latest_lt some_
    refine ⟨w, some_, by omega, ?_, ?_⟩
    · rwa [List.getElem?_append_left (by omega)]
    · rwa [take_more (by omega)]
  | idle => exact Between.receive order
  | testing => exact Between.receive order
  | halting => exact Between.receive order
  | halted => exact Between.receive order

/-- A call that is past its loop is behind what was returned. -/
theorem Between.passes (between : Between xs ys) (some_ : ¬ 64 ∣ xs.length - ys.length) (more : ys.length < xs.length) :
    InOrder xs ys .ready := by
  refine ⟨xs.length, more, le_rfl, ?_⟩
  obtain rfl | ⟨r, w, count, low, upto, before⟩ := between
  · exact List.nil_sublist _
  · rw [count] at some_ ⊢
    have further : latest 64 r w < latest 64 (r + 1) xs.length := latest_advance low upto some_
    exact before.trans (List.take_sublist_take_left further)

theorem InOrder.fetches (order : InOrder xs ys .ready) (more : ys.length < xs.length)
    (here : xs[latest 64 ys.length xs.length]? = some v) : InOrder xs ys (.fetched v) := by
  obtain ⟨w, low, upto, before⟩ := order
  exact ⟨xs.length, more, le_rfl, here, before.trans (List.take_sublist_take_left (latest_mono upto))⟩

theorem InOrder.finishes (order : InOrder xs ys (.fetched v)) : Between xs (ys ++ [v]) := by
  obtain ⟨w, low, upto, here, before⟩ := order
  refine .inr ⟨ys.length, w, List.length_append, low, upto, ?_⟩
  rw [List.take_add_one, here]
  exact before.append (List.Sublist.refl _)

theorem stored_receive (receives : Receives serialCom1 irq inb) :
    (p.interrupt serialCom1 irq inb).stored serialCom1 = p.stored serialCom1 ++ [inb serialCom1] := by
  unfold Port.stored
  rw [if_pos rfl, if_pos rfl]
  exact if_pos receives

theorem stored_wait (none_ : ¬ (dev = serialCom1 ∧ Receives dev irq inb)) :
    (p.interrupt dev irq inb).stored dev = p.stored dev := by
  unfold Port.stored
  split
  · next first => exact if_neg fun receives => none_ ⟨first, receives⟩
  · rfl

/-- Every step keeps the ring and the order. -/
theorem step_keeps (slot : serialDev2Offset dev = some o) (image : 64 ≤ head.addr) (step : PortStep dev o allowed p p')
    (ring : RingAt head o base (p.stored dev) p) (order : InOrder (p.stored dev) p.returned p.reader) :
    RingAt head o base (p'.stored dev) p' ∧ InOrder (p'.stored dev) p'.returned p'.reader := by
  have ahead := ring.ahead
  cases step with
  | @interrupt irq inb may =>
    by_cases stores : dev = serialCom1 ∧ Receives dev irq inb
    · obtain ⟨rfl, receives⟩ := stores
      rw [stored_receive receives]
      exact ⟨ring.receive image slot receives, order.wake.receive⟩
    · rw [stored_wait stores]
      exact ⟨ring.wait image slot stores, order.wake⟩
  | call stands =>
    rw [stands] at ahead order
    exact ⟨ring.stands ahead, order⟩
  | fails stands none_ =>
    rw [stands] at ahead order
    exact ⟨ring.stands ahead, order⟩
  | passes stands some_ =>
    rw [stands] at order
    have more := ring.some_unread some_
    rw [ring.empty_iff] at some_
    exact ⟨ring.stands more, Between.passes order some_ more⟩
  | halt stands =>
    rw [stands] at ahead order
    exact ⟨ring.stands ahead, order⟩
  | fetch stands =>
    rw [stands] at ahead order
    exact ⟨ring.stands ahead, order.fetches ahead (ring.fetches ahead)⟩
  | finish stands =>
    rw [stands] at order
    exact ⟨ring.advance stands, order.finishes⟩

theorem run_keeps (slot : serialDev2Offset dev = some o) (image : 64 ≤ head.addr) (run : PortRun dev o allowed p p')
    (ring : RingAt head o base (p.stored dev) p) (order : InOrder (p.stored dev) p.returned p.reader) :
    RingAt head o base (p'.stored dev) p' ∧ InOrder (p'.stored dev) p'.returned p'.reader := by
  induction run with
  | refl => exact ⟨ring, order⟩
  | tail _ step ih => exact step_keeps slot image step ih.1 ih.2

/-! ## Nothing is lost -/

/-- Where a run stands in which every byte came at a good time. -/
structure Exact (head : MemHead) (o : Fin 4) (base : Nat) (p : Port) : Prop where
  ring : RingAt head o base p.received p
  near_ : p.received.length ≤ p.returned.length + p.reader.inFlight + 63
  order : p.returned <+: p.received
  fetched : ∀ v, p.reader = .fetched v → p.received[p.returned.length]? = some v
  waits : p.reader = .halting ∨ p.reader = .halted → p.returned = p.received

theorem Exact.all_returned (exact_ : Exact head o base p) (all : p.received.length ≤ p.returned.length) :
    p.returned = p.received := exact_.order.eq_of_length_le all

/-- Before the end of the loop, the heads meet only where everything was returned. -/
theorem Exact.empty_iff (exact_ : Exact head o base p) (before : p.reader.inFlight = 0) :
    p.machine.serialEmpty o ↔ p.returned = p.received := by
  have near_ := exact_.near_
  have ahead := exact_.ring.ahead
  rw [before] at near_ ahead
  rw [exact_.ring.empty_iff]
  constructor
  · rintro ⟨rounds, sum⟩
    exact exact_.all_returned (by omega)
  · intro all
    rw [all, Nat.sub_self]
    exact ⟨0, rfl⟩

/-- Of the places in a call, an interrupt leaves all but `hlt`. -/
theorem wake_waits (waits : reader.wake = .halting ∨ reader.wake = .halted) : reader = .halting := by
  cases reader <;> simp_all [Reader.wake]

theorem wake_fetched (stands : reader.wake = .fetched v) : reader = .fetched v := by
  cases reader <;> simp_all [Reader.wake]

theorem Exact.receive (exact_ : Exact head o base p) (image : 64 ≤ head.addr)
    (slot : serialDev2Offset serialCom1 = some o) (receives : Receives serialCom1 irq inb) (room : p.Room)
    (awake : p.reader ≠ .halting) : Exact head o base (p.interrupt serialCom1 irq inb) := by
  have more : p.received.length < p.returned.length + p.reader.inFlight + 63 := room
  have all : (p.interrupt serialCom1 irq inb).received = p.received ++ [inb serialCom1] := if_pos receives
  constructor
  · rw [all]
    exact exact_.ring.receive image slot receives
  · rw [all, List.length_append]
    dsimp only [Port.interrupt]
    rw [wake_inFlight]
    exact more
  · rw [all]
    exact exact_.order.trans (List.prefix_append _ _)
  · intro v stands
    have here := exact_.fetched v (wake_fetched stands)
    rw [all]
    exact (List.getElem?_append_left (List.getElem?_eq_some_iff.mp here).1).trans here
  · exact fun waits => absurd (wake_waits waits) awake

theorem Exact.wait (exact_ : Exact head o base p) (image : 64 ≤ head.addr) (slot : serialDev2Offset dev = some o)
    (none_ : ¬ Receives dev irq inb) : Exact head o base (p.interrupt dev irq inb) := by
  have all : (p.interrupt dev irq inb).received = p.received := if_neg none_
  constructor
  · rw [all]
    exact exact_.ring.wait image slot fun stores => none_ stores.2
  · rw [all]
    dsimp only [Port.interrupt]
    rw [wake_inFlight]
    exact exact_.near_
  · rw [all]
    exact exact_.order
  · intro v stands
    rw [all]
    exact exact_.fetched v (wake_fetched stands)
  · intro waits
    rw [all]
    exact exact_.waits (.inl (wake_waits waits))

/-- The byte that a call takes is the next one. -/
theorem Exact.fetch (exact_ : Exact head o base p) (stands : p.reader = .ready) :
    Exact head o base { p with reader := .fetched (p.machine.serialFetch o) } := by
  have near_ := exact_.near_
  have ahead := exact_.ring.ahead
  rw [stands] at near_ ahead
  refine ⟨exact_.ring.stands ahead, near_, exact_.order, ?_, fun waits => waits.elim nofun nofun⟩
  rintro v ⟨⟩
  have more : p.returned.length < p.received.length := ahead
  have here := exact_.ring.fetches more
  have near' : p.received.length ≤ p.returned.length + 64 := near_
  rwa [latest_near near' more] at here

theorem Exact.finish (exact_ : Exact head o base p) (stands : p.reader = .fetched v) :
    Exact head o base ⟨p.machine.serialAdvance o, .idle, p.received, p.returned ++ [v]⟩ := by
  have near_ := exact_.near_
  rw [stands] at near_
  have here := exact_.fetched v stands
  refine ⟨exact_.ring.advance stands, ?_, ?_, nofun, fun waits => waits.elim nofun nofun⟩
  · dsimp only
    rw [List.length_append, List.length_singleton]
    exact near_
  · obtain ⟨rest, whole⟩ := exact_.order
    rw [← whole, List.getElem?_append_right le_rfl, Nat.sub_self] at here
    obtain ⟨rest, rfl⟩ : ∃ rest', rest = v :: rest' := by
      cases rest with
      | nil => cases here
      | cons x rest => exact ⟨rest, by rw [Option.some_inj.mp here]⟩
    exact ⟨rest, by rw [← whole, List.append_assoc]; rfl⟩

theorem Exact.step (exact_ : Exact head o base p) (slot : serialDev2Offset dev = some o) (image : 64 ≤ head.addr)
    (timely : ∀ irq inb q, allowed irq inb q → Timely dev irq inb q) (step : PortStep dev o allowed p p') :
    Exact head o base p' := by
  have near_ := exact_.near_
  have ahead := exact_.ring.ahead
  cases step with
  | @interrupt irq inb may =>
    by_cases receives : Receives dev irq inb
    · obtain ⟨rfl, room, awake⟩ := timely irq inb p may receives
      exact exact_.receive image slot receives room awake
    · exact exact_.wait image slot receives
  | call stands =>
    rw [stands] at near_ ahead
    exact ⟨exact_.ring.stands ahead, near_, exact_.order, nofun, fun waits => waits.elim nofun nofun⟩
  | fails stands none_ =>
    have all := (exact_.empty_iff (stands ▸ rfl)).mp none_
    rw [stands] at near_ ahead
    exact ⟨exact_.ring.stands ahead, near_, exact_.order, nofun, fun _ => all⟩
  | passes stands some_ =>
    rw [stands] at near_
    have more := exact_.ring.some_unread some_
    exact ⟨exact_.ring.stands more, near_.trans (Nat.add_le_add_right (Nat.le_succ _) _), exact_.order, nofun,
      fun waits => waits.elim nofun nofun⟩
  | halt stands =>
    have all := exact_.waits (.inl stands)
    rw [stands] at near_ ahead
    exact ⟨exact_.ring.stands ahead, near_, exact_.order, nofun, fun _ => all⟩
  | fetch stands => exact exact_.fetch stands
  | finish stands => exact exact_.finish stands

theorem Exact.run (exact_ : Exact head o base p) (slot : serialDev2Offset dev = some o) (image : 64 ≤ head.addr)
    (timely : ∀ irq inb q, allowed irq inb q → Timely dev irq inb q) (run : PortRun dev o allowed p p') :
    Exact head o base p' := by
  induction run with
  | refl => exact exact_
  | tail _ step ih => exact ih.step slot image timely step

/-! ## Calls that no interrupt comes into -/

theorem run_of_never (run : PortRun dev o Never p p') : PortRun dev o allowed p p' := by
  refine ReflTransGen.mono (fun q q' step => ?_) p p' run
  cases step with
  | interrupt may => exact may.elim
  | call stands => exact .call stands
  | fails stands none_ => exact .fails stands none_
  | passes stands some_ => exact .passes stands some_
  | halt stands => exact .halt stands
  | fetch stands => exact .fetch stands
  | finish stands => exact .finish stands

theorem run_fetched (stands : p.reader = .fetched v) : PortRun dev o Never p
    ⟨p.machine.serialAdvance o, .idle, p.received, p.returned ++ [v]⟩ := .single (.finish stands)

theorem run_ready (stands : p.reader = .ready) : PortRun dev o Never p
    ⟨p.machine.serialAdvance o, .idle, p.received, p.returned ++ [p.machine.serialFetch o]⟩ :=
  .head (.fetch stands) (run_fetched rfl)

theorem run_testing (stands : p.reader = .testing) (some_ : ¬ p.machine.serialEmpty o) : PortRun dev o Never p
    ⟨p.machine.serialAdvance o, .idle, p.received, p.returned ++ [p.machine.serialFetch o]⟩ :=
  .head (.passes stands some_) (run_ready rfl)

theorem run_idle (stands : p.reader = .idle) (some_ : ¬ p.machine.serialEmpty o) : PortRun dev o Never p
    ⟨p.machine.serialAdvance o, .idle, p.received, p.returned ++ [p.machine.serialFetch o]⟩ :=
  .head (.call stands) (run_testing rfl some_)

theorem serialRead_waits_iff (slot : serialDev2Offset dev = some o) :
    serialRead dev 1 m = none ↔ m.serialEmpty o := by
  unfold serialRead
  rw [if_neg (by decide), slot]
  dsimp only
  split
  · next empty => exact iff_of_true rfl empty
  · next some_ => exact iff_of_false (by simp) some_

/-- `serial_read` goes through the steps of the reader. -/
theorem serialRead_runs {count : UInt32} {bytes : List UInt8} (slot : serialDev2Offset dev = some o)
    (stands : p.reader = .idle) (returned : serialRead dev 1 p.machine = some (count, bytes, m)) :
    PortRun dev o Never p ⟨m, .idle, p.received, p.returned ++ bytes⟩ := by
  have some_ : ¬ p.machine.serialEmpty o := by
    rw [← serialRead_waits_iff slot, returned]
    nofun
  rw [serialRead_some slot some_] at returned
  obtain ⟨-, same⟩ := Prod.mk.inj (Option.some_inj.mp returned)
  obtain ⟨rfl, rfl⟩ := Prod.mk.inj same
  exact run_idle stands some_

theorem run_waits (stands : p.reader = .idle) (none_ : p.machine.serialEmpty o) :
    PortRun dev o Never p { p with reader := .halted } :=
  .head (.call stands) (.head (.fails rfl none_) (.single (.halt rfl)))

/-- Where a byte is unread, the call goes on until it returns one. -/
theorem Exact.returns (exact_ : Exact head o base p) (unread : p.returned ≠ p.received) :
    ∃ q, PortRun dev o Never p q ∧ q.received = p.received ∧ q.returned.length = p.returned.length + 1 := by
  have some_ (before : p.reader.inFlight = 0) : ¬ p.machine.serialEmpty o := by
    rw [exact_.empty_iff before]
    exact unread
  cases stands : p.reader with
  | idle => exact ⟨_, run_idle stands (some_ (stands ▸ rfl)), rfl, List.length_append⟩
  | testing => exact ⟨_, run_testing stands (some_ (stands ▸ rfl)), rfl, List.length_append⟩
  | halting => exact absurd (exact_.waits (.inl stands)) unread
  | halted => exact absurd (exact_.waits (.inr stands)) unread
  | ready => exact ⟨_, run_ready stands, rfl, List.length_append⟩
  | fetched v => exact ⟨_, run_fetched stands, rfl, List.length_append⟩

/-- The calls that follow return what is unread. -/
theorem Exact.drains (exact_ : Exact head o base p) (slot : serialDev2Offset dev = some o) (image : 64 ≤ head.addr) :
    ∃ q, PortRun dev o Never p q ∧ q.received = p.received ∧ q.returned = p.received := by
  -- by induction on the number of bytes that are unread
  induction left : p.received.length - p.returned.length generalizing p with
  | zero => exact ⟨p, .refl, rfl, exact_.all_returned (by omega)⟩
  | succ n ih =>
    have unread : p.returned ≠ p.received := by
      intro all
      rw [all] at left
      omega
    obtain ⟨q, first, received, length⟩ := @Exact.returns dev o p base head exact_ unread
    obtain ⟨q', rest, received', all⟩ :=
      ih (exact_.run slot image (fun _ _ _ no => no.elim) first) (by rw [received, length]; omega)
    rw [received] at received' all
    exact ⟨q', first.trans rest, received', all⟩

theorem Exact.lossless (exact_ : Exact head o base p) (slot : serialDev2Offset dev = some o) (image : 64 ≤ head.addr) :
    Lossless dev o p where
  order := exact_.order
  kept := exact_.drains slot image
  waits := exact_.waits
  next stands none_ := (exact_.empty_iff (stands ▸ rfl)).mp ((serialRead_waits_iff slot).mp none_)

/-! ## The three ways to lose a byte -/

/-- With 63 bytes unread between two calls, one more makes the heads meet. -/
theorem Exact.overflows (exact_ : Exact head o base p) (slot : serialDev2Offset serialCom1 = some o)
    (image : 64 ≤ head.addr) (stands : p.reader = .idle) (full : ¬ p.Room) (receives : Receives serialCom1 irq inb) :
    serialRead serialCom1 1 (itrInterruptHandler irq inb p.machine) = none := by
  have near_ := exact_.near_
  unfold Port.Room at full
  rw [stands] at near_ full
  dsimp only [Reader.inFlight] at near_ full
  rw [serialRead_waits_iff slot]
  refine (exact_.ring.receive image slot receives).empty_iff.mpr ⟨1, ?_⟩
  dsimp only [Port.interrupt]
  rw [List.length_append, List.length_singleton]
  omega

/-- From `hlt` there is no step without an interrupt. -/
theorem halted_stays (stands : p.reader = .halted) (run : PortRun dev o Never p p') : p' = p := by
  induction run with
  | refl => rfl
  | tail _ step ih =>
    subst ih
    cases step with
    | interrupt may => exact may.elim
    | call other => cases stands.symm.trans other
    | fails other => cases stands.symm.trans other
    | passes other => cases stands.symm.trans other
    | halt other => cases stands.symm.trans other
    | fetch other => cases stands.symm.trans other
    | finish other => cases stands.symm.trans other

/-- A byte that comes between the test and `hlt` does not end `hlt`. -/
theorem Exact.sticks (exact_ : Exact head o base p) (stands : p.reader = .halting)
    (receives : Receives dev irq inb) : ∃ q, PortRun dev o Anytime p q ∧ Stuck dev o q := by
  have all : (p.interrupt dev irq inb).received = p.received ++ [inb dev] := if_pos receives
  have still : (p.interrupt dev irq inb).reader = .halting := by
    change p.reader.wake = _
    rw [stands]
    rfl
  refine ⟨_, .tail (.single (.interrupt trivial)) (.halt still), rfl, ?_, fun q => halted_stays rfl⟩
  dsimp only
  rw [all]
  change p.returned ≠ _
  rw [exact_.waits (.inl stands)]
  intro same
  have length := congrArg List.length same
  rw [List.length_append] at length
  exact absurd length (Nat.ne_of_lt (Nat.lt_succ_self _))

/-- What other ports receive is never stored. -/
theorem none_returned (other : dev ≠ serialCom1) (slot : serialDev2Offset dev = some o)
    (ring : RingAt head o base (p.stored dev) p) : p.returned = [] ∧ serialRead dev 1 p.machine = none := by
  have nothing : p.stored dev = [] := if_neg other
  have ahead := ring.ahead
  rw [nothing] at ring ahead
  refine ⟨List.eq_nil_of_length_eq_zero (Nat.le_zero.mp ((Nat.le_add_right _ _).trans ahead)), ?_⟩
  rw [serialRead_waits_iff slot, ring.empty_iff]
  exact ⟨0, Nat.zero_sub _⟩

/-! ## From the initialisation on -/

theorem attached_of_init (sound : Sound head k blocks) (image : 64 ≤ head.addr)
    (before : ReflTransGen (PortsStep head.addr) ⟨.started k, fun _ => []⟩ s)
    (initialised : serialInit head.addr fuel dev config s.machine = some (0, m))
    (slot : serialDev2Offset dev = some o) : ∃ base, m.serialBuffers o = ⟨0, 0, base⟩ ∧ Attached head o base m := by
  obtain ⟨wired, told⟩ := run_keeps_wired image sound (before.tail (.serialInit initialised))
  obtain ⟨blocks', sound'⟩ := (run_keeps_wired image sound before).1.sound
  obtain ⟨base, port, handed, ⟨blocks'', sound''⟩, -⟩ := serialInit_slot sound' initialised slot
  refine ⟨base, port, wired, told.registered dev ?_, ?_, (sound''.live_bounds handed).1.ne'⟩
  · dsimp only
    rw [Function.update_self]
    exact List.mem_cons_self
  · rw [port]

/-- A port that is set up is a ring that nothing was put into. -/
theorem exact_of_init (sound : Sound head k blocks) (image : 64 ≤ head.addr)
    (before : ReflTransGen (PortsStep head.addr) ⟨.started k, fun _ => []⟩ s)
    (initialised : serialInit head.addr fuel dev config s.machine = some (0, m))
    (slot : serialDev2Offset dev = some o) : ∃ base, Exact head o base ⟨m, .idle, [], []⟩ := by
  obtain ⟨base, port, attached⟩ := attached_of_init sound image before initialised slot
  refine ⟨base, ⟨attached, ?_, ?_, holds_nil, le_rfl⟩, Nat.zero_le _, List.prefix_refl _, nofun,
    fun waits => waits.elim nofun nofun⟩
  · dsimp only
    rw [port]
    rfl
  · dsimp only
    rw [port]
    rfl

/-- What comes out of a port that is set up is always part of what came in, in order. Nothing is missing in the
runs in which every byte comes on COM1, where there is room for it, and not between a test that found nothing
and `hlt`. Where there is no room between two calls, the next call waits after one more byte although 64 are
unread; a byte behind such a test leaves the call in `hlt`; and of what another port receives nothing is returned. -/
theorem serial_is_fifo (sound : Sound head k blocks) (image : 64 ≤ head.addr)
    (before : ReflTransGen (PortsStep head.addr) ⟨.started k, fun _ => []⟩ s)
    (initialised : serialInit head.addr fuel dev config s.machine = some (0, m))
    (slot : serialDev2Offset dev = some o) :
    (∀ p, PortRun dev o Anytime ⟨m, .idle, [], []⟩ p → p.returned.Sublist p.received) ∧
      (∀ p, PortRun dev o (Timely dev) ⟨m, .idle, [], []⟩ p → Lossless dev o p) ∧
      (dev = serialCom1 → ∀ p irq inb, PortRun dev o (Timely dev) ⟨m, .idle, [], []⟩ p → Receives dev irq inb →
        (p.reader = .idle → ¬ p.Room → serialRead dev 1 (itrInterruptHandler irq inb p.machine) = none) ∧
          (p.reader = .halting → ∃ q, PortRun dev o Anytime p q ∧ Stuck dev o q)) ∧
      (dev ≠ serialCom1 → ∀ p, PortRun dev o Anytime ⟨m, .idle, [], []⟩ p →
        p.returned = [] ∧ serialRead dev 1 p.machine = none) := by
  obtain ⟨base, start⟩ := exact_of_init sound image before initialised slot
  have ring : RingAt head o base (Port.stored dev ⟨m, .idle, [], []⟩) ⟨m, .idle, [], []⟩ := by
    unfold Port.stored
    rw [ite_self]
    exact start.ring
  have kept {p : Port} (run : PortRun dev o Anytime ⟨m, .idle, [], []⟩ p) := run_keeps slot image run ring (.inl rfl)
  have exact_ {p : Port} (run : PortRun dev o (Timely dev) ⟨m, .idle, [], []⟩ p) :=
    start.run slot image (fun _ _ _ timely => timely) run
  refine ⟨fun p run => ?_, fun p run => (exact_ run).lossless slot image, ?_, fun other p run => ?_⟩
  · have order := (kept run).2.sublist
    unfold Port.stored at order
    split at order
    · exact order
    · exact order.trans (List.nil_sublist _)
  · rintro rfl p irq inb run receives
    exact ⟨fun stands full => (exact_ run).overflows slot image stands full receives,
      fun stands => (exact_ run).sticks stands receives⟩
  · exact none_returned other slot (kept run).1

/-- The port has the byte `v`. -/
def brings (v : UInt8) (port : UInt16) : UInt8 := if port = serialCom1 then v else 1

theorem received_brings : (p.interrupt serialCom1 picSerial1Irq (brings v)).received = p.received ++ [v] := by
  have status : brings v (serialCom1 + 5) = 1 := if_neg (by decide)
  have data : DataReceived serialCom1 (brings v) := by
    unfold DataReceived
    rw [status]
    decide
  exact (if_pos ⟨rfl, data⟩).trans rfl

/-- A call waits in `hlt`. A byte wakes it, a second one comes before the test, and the call returns the first. -/
theorem serial_is_fifo_com1 : ∃ s fuel m p, Sound lowHead (.boot s) [] ∧
    serialInit lowHead.addr fuel serialCom1 kernelConfig (.started (.boot s)) = some (0, m) ∧
    PortRun serialCom1 0 (Timely serialCom1) ⟨m, .idle, [], []⟩ p ∧ p.received = [0x41, 0x42] ∧ p.returned = [0x41] ∧
    Lossless serialCom1 0 p := by
  obtain ⟨s, fuel, m, sound, initialised⟩ := @serialInit_threeMegabytes 0 serialCom1 rfl
  obtain ⟨-, lossless, -⟩ := serial_is_fifo sound (by decide) .refl initialised rfl
  obtain ⟨base, start⟩ := exact_of_init sound (by decide) .refl initialised rfl
  have none_ : m.serialEmpty 0 := (start.empty_iff rfl).mpr rfl
  let waiting : Port := ⟨m, .halted, [], []⟩
  let woken := waiting.interrupt serialCom1 picSerial1Irq (brings 0x41)
  let second := woken.interrupt serialCom1 picSerial1Irq (brings 0x42)
  have first : woken.received = [0x41] := received_brings
  have both : second.received = [0x41, 0x42] := received_brings.trans (congrArg (· ++ [0x42]) first)
  have run : PortRun serialCom1 0 (Timely serialCom1) ⟨m, .idle, [], []⟩ second := by
    refine .tail (.tail (run_of_never (run_waits rfl none_)) (.interrupt fun _ => ⟨rfl, ?_, nofun⟩))
      (.interrupt fun _ => ⟨rfl, ?_, nofun⟩)
    · exact (by decide : (0 : Nat) < 63)
    · change woken.received.length < 0 + 0 + 63
      rw [first]
      decide
  have some_ : ¬ second.machine.serialEmpty 0 := by
    rw [(start.run rfl (by decide) (fun _ _ _ timely => timely) run).empty_iff rfl, both]
    nofun
  have whole := run.trans (run_of_never (run_testing rfl some_))
  have end_ := lossless _ whole
  refine ⟨s, fuel, m, _, sound, initialised, whole, both, ?_, end_⟩
  have order : [second.machine.serialFetch 0] <+: second.received := end_.order
  rw [both] at order
  exact congrArg (· :: []) (List.cons_prefix_cons.mp order).1

/-- Up to 64 bytes come in, and nothing is read. -/
theorem receives (n : Nat) (m : Machine) (few : n ≤ 64) : ∃ p,
    PortRun serialCom1 0 (fun _ _ q => q.received.length < q.returned.length + serialBufferLen) ⟨m, .idle, [], []⟩ p ∧
      p.reader = .idle ∧ p.received.length = n ∧ p.returned = [] := by
  induction n with
  | zero => exact ⟨_, .refl, rfl, rfl, rfl⟩
  | succ n ih =>
    obtain ⟨p, run, stands, length, none_⟩ := ih (by omega)
    have may : p.received.length < p.returned.length + serialBufferLen := by
      rw [length, none_]
      exact (Nat.zero_add 64).symm ▸ few
    have all : (p.interrupt serialCom1 picSerial1Irq (brings 1)).received = p.received ++ [1] := received_brings
    refine ⟨p.interrupt serialCom1 picSerial1Irq (brings 1), run.tail (.interrupt may), ?_, ?_, none_⟩
    · change p.reader.wake = _
      rw [stands]
      rfl
    · rw [all, List.length_append, length]
      rfl

/-- None of the 64 bytes came while 64 were unread, and all are lost: the next call waits. -/
theorem whole_buffer_lost : ∃ s fuel m p,
    serialInit lowHead.addr fuel serialCom1 kernelConfig (.started (.boot s)) = some (0, m) ∧
    PortRun serialCom1 0 (fun _ _ q => q.received.length < q.returned.length + serialBufferLen) ⟨m, .idle, [], []⟩ p ∧
    p.reader = .idle ∧ serialRead serialCom1 1 p.machine = none ∧ p.received.length = 64 ∧ p.returned = [] := by
  obtain ⟨s, fuel, m, sound, initialised⟩ := @serialInit_threeMegabytes 0 serialCom1 rfl
  obtain ⟨p, run, stands, length, none_⟩ := receives 64 m le_rfl
  obtain ⟨base, start⟩ := exact_of_init sound (by decide) .refl initialised rfl
  have ring := (run_keeps rfl (by decide) run start.ring (.inl rfl)).1
  have all : p.stored serialCom1 = p.received := if_pos rfl
  have empty : p.machine.serialEmpty 0 := by
    rw [ring.empty_iff, all, length, none_]
    exact ⟨1, rfl⟩
  exact ⟨s, fuel, m, p, initialised, run, stands, (serialRead_waits_iff rfl).mpr empty, length, none_⟩

end AtaKernel.Drivers
