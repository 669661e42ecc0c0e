import AtaKernel.Drivers.Keyboard
import AtaKernel.Drivers.Serial

/-! From the vector of an interrupt to the buffer of a port: the dispatcher of
`interrupts.c`, the handlers that the drivers register, and the tables of the
serial driver. The runs are over calls of `kb_init`, `serial_init` and
`serial_read` and interrupts on any vector, in any order. -/
namespace AtaKernel.Drivers
open ByteMemory Memory Relation

def itrInterruptHandler (irq : UInt8) (inb : UInt16 → UInt8) (m : Machine) : Machine :=
  match m.interruptHandlers irq with
  | some .kbInterruptHandler => kbInterruptHandler irq inb m
  | some .serialInterruptHandler => serialInterruptHandler irq inb m
  | none => ({ m with output := .generic irq :: m.output }).picSendEoi irq

/-- The kernel, with what the calls of `serial_init` for each port returned, the latest first. -/
structure Ports where
  machine : Machine
  results : SerialDevice → List Int

inductive PortsStep (memHead : Nat) : Ports → Ports → Prop
  | kbInit {s : Ports} {m : Machine} {result : Option Int} {fuel : Nat}
      (ran : kbInit memHead fuel s.machine = some (result, m)) : PortsStep memHead s ⟨m, s.results⟩
  | serialInit {s : Ports} {m : Machine} {dev : SerialDevice} {config : SerialPortConfig} {result : Int} {fuel : Nat}
      (ran : serialInit memHead fuel dev config s.machine = some (result, m)) :
      PortsStep memHead s ⟨m, Function.update s.results dev (result :: s.results dev)⟩
  | interrupt {s : Ports} (irq : UInt8) (inb : UInt16 → UInt8) :
      PortsStep memHead s ⟨itrInterruptHandler irq inb s.machine, s.results⟩
  | read {s : Ports} {m : Machine} {dev : SerialDevice} {len count : UInt32} {bytes : List UInt8}
      (ran : serialRead dev len s.machine = some (count, bytes, m)) : PortsStep memHead s ⟨m, s.results⟩

/-- Calls of `serial_read` that no interrupt comes into, with the bytes that they return. -/
def serialReads (dev : SerialDevice) : Nat → Machine → Option (List UInt8)
  | 0, _ => some []
  | n + 1, m => (serialRead dev 1 m).bind fun (_, bytes, m) => (serialReads dev n m).map (bytes ++ ·)

/-- How far the write head is ahead of the read head. -/
def Machine.serialUnread (m : Machine) (o : Fin 4) : Nat :=
  ((m.serialBuffers o).writeHead.toNat + (64 - (m.serialBuffers o).readHead.toNat)) % 64

/-- An interrupt on the vector `irq` brings a byte to the buffer of its port, which `serial_read` then returns
behind those that were unread, and to no other. -/
structure Routed (dev : SerialDevice) (o : Fin 4) (irq : UInt8) (inb : UInt16 → UInt8) (m : Machine) : Prop where
  reached : m.interruptHandlers irq = some .serialInterruptHandler
  own : ((m.serialBuffers o).buffer, serialBufferLen) ∈ m.kernel.live
  stored : (itrInterruptHandler irq inb m).byte ((m.serialBuffers o).buffer + (m.serialBuffers o).writeHead.toNat) =
    inb dev
  advanced : (itrInterruptHandler irq inb m).serialBuffers o =
    { m.serialBuffers o with writeHead := ((m.serialBuffers o).writeHead + 1) % 64 }
  heads : ∀ o', o' ≠ o → (itrInterruptHandler irq inb m).serialBuffers o' = m.serialBuffers o'
  buffers : ∀ o', o' ≠ o → ((m.serialBuffers o').buffer, serialBufferLen) ∈ m.kernel.live → ∀ i < serialBufferLen,
    (itrInterruptHandler irq inb m).byte ((m.serialBuffers o').buffer + i) = m.byte ((m.serialBuffers o').buffer + i)
  readable : ∃ bytes, bytes.length = m.serialUnread o ∧
    serialReads dev (m.serialUnread o + 1) (itrInterruptHandler irq inb m) = some (bytes ++ [inb dev])

variable {m m' : Machine} {o o' : Fin 4} {dev : SerialDevice} {irq : UInt8} {inb : UInt16 → UInt8} {v : UInt8}
  {config : SerialPortConfig} {head : MemHead} {blocks : List Block} {fuel : Nat} {result : Int} {s s' : Ports}
  {results : SerialDevice → List Int} {k k' : Kernel}

/-! ## The invariant -/

/-- Nothing, or a block that was handed out. -/
def Handed (k : Kernel) (p size : Nat) : Prop := p = 0 ∨ (p, size) ∈ k.live

/-- What holds of the drivers in every state of a run. -/
structure Wired (head : MemHead) (m : Machine) : Prop where
  sound : ∃ blocks, Sound head m.kernel blocks
  handlers : ∀ irq handler, m.interruptHandlers irq = some handler →
    (irq = picSerial1Irq ∧ handler = .serialInterruptHandler) ∨ (irq = picKeyboardIrq ∧ handler = .kbInterruptHandler)
  low : ∀ o, (m.serialBuffers o).writeHead < 64 ∧ (m.serialBuffers o).readHead < 64
  handed : ∀ o, Handed m.kernel (m.serialBuffers o).buffer serialBufferLen
  apart : ∀ o o', o ≠ o' → (m.serialBuffers o).buffer ≠ 0 → (m.serialBuffers o).buffer ≠ (m.serialBuffers o').buffer
  kb : Handed m.kernel m.kb.buffer kbBufLen
  kbHead : 0 ≤ m.kb.head ∧ m.kb.head < 32
  kbCount : 0 ≤ m.kb.count

/-- What the calls of `serial_init` returned shows in the slots and in the table of handlers. -/
structure Told (results : SerialDevice → List Int) (m : Machine) : Prop where
  latest : ∀ dev o, serialDev2Offset dev = some o → ((results dev).head? = some 0 ↔ (m.serialBuffers o).buffer ≠ 0)
  registered : ∀ dev, 0 ∈ results dev → m.interruptHandlers picSerial1Irq = some .serialInterruptHandler

/-- Both, for a machine with the same drivers. -/
theorem Wired.congr (wired : Wired head m) (kernel : m'.kernel = m.kernel)
    (handlers : m'.interruptHandlers = m.interruptHandlers) (buffers : m'.serialBuffers = m.serialBuffers)
    (kb : m'.kb.buffer = m.kb.buffer ∧ m'.kb.head = m.kb.head ∧ m'.kb.count = m.kb.count) : Wired head m' where
  sound := kernel ▸ wired.sound
  handlers := handlers ▸ wired.handlers
  low := buffers ▸ wired.low
  handed := by
    rw [kernel, buffers]
    exact wired.handed
  apart := buffers ▸ wired.apart
  kb := by
    rw [kernel, kb.1]
    exact wired.kb
  kbHead := kb.2.1 ▸ wired.kbHead
  kbCount := kb.2.2 ▸ wired.kbCount

theorem Wired.eoi (wired : Wired head m) : Wired head (m.picSendEoi irq) :=
  wired.congr (picSendEoi_keeps Machine.kernel fun _ _ => rfl)
    (picSendEoi_keeps Machine.interruptHandlers fun _ _ => rfl)
    (picSendEoi_keeps Machine.serialBuffers fun _ _ => rfl) (by rw [picSendEoi_kb]; exact ⟨rfl, rfl, rfl⟩)

/-! ## The handlers -/

/-- A store into a buffer, or through NULL to an address below the image of the kernel. -/
theorem Wired.setByte {p size i : Nat} (wired : Wired head m) (image : 64 ≤ head.addr) (handed : Handed m.kernel p size)
    (within : i < size) (few : size ≤ 64) : Wired head (m.setByte (p + i) v) := by
  obtain ⟨blocks, sound⟩ := wired.sound
  have kept : Sound head (m.kernel.stored (p + i) v) blocks := by
    obtain rfl | live := handed
    · exact sound.stored_plain (by omega) (sound.low_plain (by omega))
    · have bounds := sound.live_bounds live
      dsimp only at bounds
      exact sound.stored (by omega) (.inl ⟨_, live, Nat.le_add_right _ _, Nat.add_lt_add_left within _⟩)
  exact ⟨⟨blocks, kept⟩, wired.handlers, wired.low, wired.handed, wired.apart, wired.kb, wired.kbHead, wired.kbCount⟩

theorem Wired.setSerial {b : SerialBuffer} (wired : Wired head m) (low : b.writeHead < 64 ∧ b.readHead < 64)
    (handed : Handed m.kernel b.buffer serialBufferLen)
    (apart : ∀ o', o' ≠ o → b.buffer ≠ 0 → b.buffer ≠ (m.serialBuffers o').buffer) : Wired head (m.setSerial o b) where
  sound := wired.sound
  handlers := wired.handlers
  low o' := by
    by_cases same : o' = o
    · rw [same, setSerial_same]
      exact low
    · rw [setSerial_other same]
      exact wired.low o'
  handed o' := by
    by_cases same : o' = o
    · rw [same, setSerial_same]
      exact handed
    · rw [setSerial_other same]
      exact wired.handed o'
  apart o₁ o₂ differ some_ := by
    by_cases first : o₁ = o
    · subst first
      rw [setSerial_same] at some_ ⊢
      rw [setSerial_other differ.symm]
      exact apart o₂ differ.symm some_
    rw [setSerial_other first] at some_ ⊢
    by_cases second : o₂ = o
    · subst second
      rw [setSerial_same]
      intro same
      exact apart o₁ first (same ▸ some_) same.symm
    · rw [setSerial_other second]
      exact wired.apart o₁ o₂ differ some_
  kb := wired.kb
  kbHead := wired.kbHead
  kbCount := wired.kbCount

theorem head_low (h : UInt32) : (h + 1) % 64 < 64 := by
  rw [UInt32.lt_iff_toNat_lt, UInt32.toNat_mod]
  exact Nat.mod_lt _ (by decide)

theorem Wired.serialPut (wired : Wired head m) (image : 64 ≤ head.addr) : Wired head (m.serialPut o v) := by
  have within : (m.serialBuffers o).writeHead.toNat < serialBufferLen := UInt32.lt_iff_toNat_lt.mp (wired.low o).1
  have stored := @Wired.setByte m v head _ _ _ wired image (wired.handed o) within le_rfl
  exact stored.setSerial ⟨head_low _, (wired.low o).2⟩ (wired.handed o)
    fun o' other some_ => wired.apart o o' other.symm some_

/-- The byte goes into the buffer of the keyboard. -/
theorem Wired.kbPut_cell (wired : Wired head m) : ∃ i < kbBufLen,
    m.kbPut v = { m.setByte (m.kb.buffer + i) v with kb := { m.kb with count := m.kb.count + 1 } } := by
  have kbHead := wired.kbHead
  have kbCount := wired.kbCount
  obtain ⟨n, place⟩ : ∃ n : Nat, m.kb.head + m.kb.count = n := ⟨(m.kb.head + m.kb.count).toNat, by omega⟩
  have top : m.kb.buffer + 32 ≤ 2 ^ 32 := by
    obtain null | live := wired.kb
    · omega
    · obtain ⟨blocks, sound⟩ := wired.sound
      exact (sound.live_bounds live).2.le
  have cell : m.kbAddr ((m.kb.head + m.kb.count).tmod kbBufLen) = m.kb.buffer + n % 32 := by
    rw [place, tmod_place]
    exact kbAddr_of rfl top (Nat.mod_lt _ (by decide))
  refine ⟨n % 32, Nat.mod_lt n (by decide), ?_⟩
  rw [← cell]
  rfl

theorem Wired.kbPut (wired : Wired head m) (image : 64 ≤ head.addr) : Wired head (m.kbPut v) := by
  obtain ⟨i, within, same⟩ := @Wired.kbPut_cell m v head wired
  have stored := @Wired.setByte m v head _ _ _ wired image wired.kb within (by decide)
  have kbCount := wired.kbCount
  rw [same]
  exact ⟨stored.sound, stored.handlers, stored.low, stored.handed, stored.apart, stored.kb, wired.kbHead,
    by dsimp only; omega⟩

/-- What all but `serial_init` leaves as it is. -/
structure SamePorts (m m' : Machine) : Prop where
  handler : m'.interruptHandlers picSerial1Irq = m.interruptHandlers picSerial1Irq
  buffers : ∀ o, (m'.serialBuffers o).buffer = (m.serialBuffers o).buffer

theorem kbPuts_keep (bytes : List UInt8) (wired : Wired head m) (image : 64 ≤ head.addr) :
    Wired head (bytes.foldl Machine.kbPut m) ∧ SamePorts m (bytes.foldl Machine.kbPut m) := by
  induction bytes generalizing m with
  | nil => exact ⟨wired, rfl, fun _ => rfl⟩
  | cons v bytes ih =>
    obtain ⟨wired', handlers, buffers⟩ := ih (wired.kbPut image)
    exact ⟨wired', handlers, buffers⟩

theorem eoi_keeps (kept : Wired head m' ∧ SamePorts m m') :
    Wired head (m'.picSendEoi irq) ∧ SamePorts m (m'.picSendEoi irq) := by
  refine ⟨kept.1.eoi, ?_, fun o => ?_⟩
  · rw [picSendEoi_keeps Machine.interruptHandlers fun _ _ => rfl]
    exact kept.2.handler
  · rw [picSendEoi_serialBuffers]
    exact kept.2.buffers o

theorem kbHandler_keeps (wired : Wired head m) (image : 64 ≤ head.addr) :
    Wired head (kbInterruptHandler irq inb m) ∧ SamePorts m (kbInterruptHandler irq inb m) := by
  unfold kbInterruptHandler
  dsimp only
  apply eoi_keeps
  split
  · exact ⟨wired.congr rfl rfl rfl ⟨rfl, rfl, rfl⟩, rfl, fun _ => rfl⟩
  split
  · obtain ⟨wired', handlers, buffers⟩ := kbPuts_keep (m.kb.part ++ [inb kbEncoderBuf]) wired image
    exact ⟨wired'.congr rfl rfl rfl ⟨rfl, rfl, rfl⟩, handlers, buffers⟩
  · exact ⟨wired.congr rfl rfl rfl ⟨rfl, rfl, rfl⟩, rfl, fun _ => rfl⟩

theorem serialPut_same : SamePorts m (m.serialPut o v) := by
  refine ⟨rfl, fun o' => ?_⟩
  unfold Machine.serialPut
  dsimp only
  by_cases same : o' = o
  · rw [same, setSerial_same]
  · rw [setSerial_other same]
    rfl

theorem serialHandler_keeps (wired : Wired head m) (image : 64 ≤ head.addr) :
    Wired head (serialInterruptHandler irq inb m) ∧ SamePorts m (serialInterruptHandler irq inb m) := by
  unfold serialInterruptHandler
  dsimp only
  apply eoi_keeps
  split
  · exact ⟨wired, rfl, fun _ => rfl⟩
  next o _ =>
  split
  · exact ⟨wired, rfl, fun _ => rfl⟩
  next dev _ =>
  split
  · exact ⟨wired.serialPut image, serialPut_same⟩
  · exact ⟨wired, rfl, fun _ => rfl⟩

theorem interrupt_keeps (wired : Wired head m) (image : 64 ≤ head.addr) :
    Wired head (itrInterruptHandler irq inb m) ∧ SamePorts m (itrInterruptHandler irq inb m) := by
  unfold itrInterruptHandler
  split
  · exact kbHandler_keeps wired image
  · exact serialHandler_keeps wired image
  · apply eoi_keeps
    exact ⟨wired.congr rfl rfl rfl ⟨rfl, rfl, rfl⟩, rfl, fun _ => rfl⟩

/-! ## The calls -/

theorem Handed.untouched {p size q n : Nat} (handed : Handed k p size)
    (live : k'.live = if q = 0 then k.live else (q, n) :: k.live) : Handed k' p size := by
  refine handed.imp_right fun inside => ?_
  rw [live]
  split
  · exact inside
  · exact List.mem_cons_of_mem _ inside

/-- A call of `kalloc` leaves the drivers as they are. -/
theorem Wired.kalloced {p bytes : Nat} (wired : Wired head m) (sound : ∃ blocks, Sound head k' blocks)
    (live : k'.live = if p = 0 then m.kernel.live else (p, bytes) :: m.kernel.live) :
    Wired head { m with kernel := k' } where
  sound := sound
  handlers := wired.handlers
  low := wired.low
  handed o := (wired.handed o).untouched live
  apart := wired.apart
  kb := wired.kb.untouched live
  kbHead := wired.kbHead
  kbCount := wired.kbCount

/-- A new block is none of those that there are. -/
theorem Wired.fresh {p bytes : Nat} (wired : Wired head m) (sound : ∃ blocks, Sound head k' blocks)
    (live : k'.live = (p, bytes) :: m.kernel.live) (some_ : p ≠ 0) (o : Fin 4) : p ≠ (m.serialBuffers o).buffer := by
  rintro rfl
  obtain ⟨blocks, sound⟩ := sound
  have once := sound.ledger.once
  rw [live, List.map_cons, List.nodup_cons] at once
  obtain null | inside := wired.handed o
  · exact some_ null
  · exact once.1 (List.mem_map.mpr ⟨_, inside, rfl⟩)

theorem Wired.register {handler : Handler} (wired : Wired head m)
    (own : (irq = picSerial1Irq ∧ handler = .serialInterruptHandler) ∨
      (irq = picKeyboardIrq ∧ handler = .kbInterruptHandler)) :
    Wired head (m.itrSetInterruptHandler irq handler interruptGate) where
  sound := wired.sound
  handlers irq' handler' registered := by
    by_cases same : irq' = irq
    · rw [same, itrSetInterruptHandler_same] at registered
      rw [same, ← Option.some_inj.mp registered]
      exact own
    · rw [itrSetInterruptHandler_other same] at registered
      exact wired.handlers irq' handler' registered
  low := wired.low
  handed := wired.handed
  apart := wired.apart
  kb := wired.kb
  kbHead := wired.kbHead
  kbCount := wired.kbCount

theorem Told.same (told : Told results m) (same : SamePorts m m') : Told results m' where
  latest dev o slot := by
    rw [same.buffers]
    exact told.latest dev o slot
  registered dev some_ := same.handler.trans (told.registered dev some_)

theorem kbInit_keeps {returned : Option Int} (wired : Wired head m)
    (ran : kbInit head.addr fuel m = some (returned, m')) : Wired head m' ∧ SamePorts m m' := by
  obtain ⟨⟨p, mid⟩, given, same⟩ := Option.map_eq_some_iff.mp ran
  obtain ⟨blocks, sound⟩ := wired.sound
  have sound' : Sound head ({ m with kb := { m.kb with head := 0, count := 0 } }).kernel blocks := sound
  obtain ⟨kernel, rfl, sound'', -, live⟩ := kalloc_ok sound' (by decide) given
  have wired' : Wired head { m with kernel, kb := { m.kb with buffer := p, head := 0, count := 0 } } := by
    have before := wired.kalloced sound'' live
    refine ⟨before.sound, before.handlers, before.low, before.handed, before.apart, ?_,
      ⟨le_rfl, show (0 : Int) < 32 by decide⟩, le_rfl⟩
    by_cases null : p = 0
    · exact .inl null
    · rw [if_neg null] at live
      refine .inr ?_
      dsimp only
      rw [live]
      exact List.mem_cons_self
  dsimp only at same
  split at same
  · obtain ⟨-, rfl⟩ := Prod.mk.inj same
    exact ⟨wired', rfl, fun _ => rfl⟩
  · obtain ⟨-, rfl⟩ := Prod.mk.inj same
    refine ⟨wired'.register (.inr ⟨rfl, rfl⟩), ?_, fun _ => rfl⟩
    exact itrSetInterruptHandler_other (by decide)

/-- No two ports have a slot in common. -/
theorem dev2offset_inj {dev' : SerialDevice} (slot : serialDev2Offset dev = some o)
    (slot' : serialDev2Offset dev' = some o) : dev = dev' := by
  have port {d : SerialDevice} (slot : serialDev2Offset d = some o) :
      d = ![serialCom1, serialCom2, serialCom3, serialCom4] o := by
    unfold serialDev2Offset at slot
    repeat' split at slot
    all_goals cases slot
    all_goals assumption
  rw [port slot, port slot']

/-- A call that fails adds no call that succeeded. -/
theorem returned_before {dev' : SerialDevice} (some_ : 0 ∈ Function.update results dev (-1 :: results dev) dev') :
    0 ∈ results dev' := by
  by_cases same : dev' = dev
  · rw [same, Function.update_self] at some_
    obtain zero | before := List.mem_cons.mp some_
    · cases zero
    · exact same ▸ before
  · rwa [Function.update_of_ne same] at some_

/-- A call of `serial_init`, whatever it returns. -/
theorem serialInit_keeps (wired : Wired head m) (told : Told results m)
    (ran : serialInit head.addr fuel dev config m = some (result, m')) :
    Wired head m' ∧ Told (Function.update results dev (result :: results dev)) m' := by
  obtain ⟨blocks, sound⟩ := wired.sound
  obtain ⟨none_, rfl, rfl⟩ | ⟨o, p, k, output, slot, sound', -, live, outcome⟩ := serialInit_ok sound ran
  · refine ⟨wired, fun dev' o slot => ?_, fun dev' some_ => ?_⟩
    · have other : dev' ≠ dev := by
        rintro rfl
        rw [none_] at slot
        cases slot
      rw [Function.update_of_ne other]
      exact told.latest dev' o slot
    · exact told.registered dev' (returned_before some_)
  have wired' : Wired head { m with kernel := k, output := output } :=
    (wired.kalloced sound' live).congr rfl rfl rfl ⟨rfl, rfl, rfl⟩
  -- The slots of the other ports, and what was returned for them, stay as they are.
  have latest {b : SerialBuffer} {m₁ : Machine}
      (slots : m₁.serialBuffers = (({ m with kernel := k, output := output }).setSerial o b).serialBuffers)
      (here : result = 0 ↔ b.buffer ≠ 0) (dev' : SerialDevice) (o' : Fin 4) (slot' : serialDev2Offset dev' = some o') :
      (Function.update results dev (result :: results dev) dev').head? = some 0 ↔ (m₁.serialBuffers o').buffer ≠ 0 := by
    rw [slots]
    by_cases same : dev' = dev
    · subst same
      obtain rfl := Option.some_inj.mp (slot.symm.trans slot')
      rw [Function.update_self, setSerial_same, List.head?_cons, Option.some_inj]
      exact here
    · have other : o' ≠ o := by
        rintro rfl
        exact same (dev2offset_inj slot' slot)
      rw [Function.update_of_ne same, setSerial_other other]
      exact told.latest dev' o' slot'
  obtain ⟨rfl, rfl, rfl⟩ | ⟨some_, rfl, rfl⟩ := outcome
  · refine ⟨wired'.setSerial (wired.low o) (.inl rfl) fun _ _ some_ => absurd rfl some_, latest rfl ?_, ?_⟩
    · exact iff_of_false (by decide) fun some_ => some_ rfl
    · exact fun dev' some_ => told.registered dev' (returned_before some_)
  · rw [if_neg some_] at live
    have handed : Handed k p serialBufferLen := .inr (live ▸ List.mem_cons_self)
    have low : (0 : UInt32) < 64 ∧ (0 : UInt32) < 64 := by decide
    refine ⟨(wired'.setSerial low handed fun o' _ _ => wired.fresh sound' live some_ o').register (.inl ⟨rfl, rfl⟩),
      latest rfl (iff_of_true rfl some_), fun _ _ => ?_⟩
    exact itrSetInterruptHandler_same

theorem Wired.serialAdvance (wired : Wired head m) : Wired head (m.serialAdvance o) :=
  wired.setSerial ⟨(wired.low o).1, head_low _⟩ (wired.handed o) fun o' other some_ =>
    wired.apart o o' other.symm some_

theorem serialAdvance_same : SamePorts m (m.serialAdvance o) := by
  refine ⟨rfl, fun o' => ?_⟩
  unfold Machine.serialAdvance
  by_cases same : o' = o
  · rw [same, setSerial_same]
  · rw [setSerial_other same]

theorem serialRead_keeps {len count : UInt32} {bytes : List UInt8} (wired : Wired head m)
    (ran : serialRead dev len m = some (count, bytes, m')) : Wired head m' ∧ SamePorts m m' := by
  unfold serialRead at ran
  split at ran
  · obtain ⟨-, same⟩ := Prod.mk.inj (Option.some_inj.mp ran)
    obtain ⟨-, rfl⟩ := Prod.mk.inj same
    exact ⟨wired, rfl, fun _ => rfl⟩
  split at ran
  · obtain ⟨-, same⟩ := Prod.mk.inj (Option.some_inj.mp ran)
    obtain ⟨-, rfl⟩ := Prod.mk.inj same
    exact ⟨wired, rfl, fun _ => rfl⟩
  next o _ =>
  split at ran
  · cases ran
  obtain ⟨-, same⟩ := Prod.mk.inj (Option.some_inj.mp ran)
  obtain ⟨-, rfl⟩ := Prod.mk.inj same
  exact ⟨wired.serialAdvance, serialAdvance_same⟩

theorem step_keeps_wired (image : 64 ≤ head.addr) (step : PortsStep head.addr s s')
    (inv : Wired head s.machine ∧ Told s.results s.machine) : Wired head s'.machine ∧ Told s'.results s'.machine := by
  obtain ⟨wired, told⟩ := inv
  cases step with
  | kbInit ran =>
    obtain ⟨wired', same⟩ := kbInit_keeps wired ran
    exact ⟨wired', told.same same⟩
  | serialInit ran => exact serialInit_keeps wired told ran
  | interrupt irq inb =>
    obtain ⟨wired', same⟩ := @interrupt_keeps s.machine irq inb head wired image
    exact ⟨wired', told.same same⟩
  | read ran =>
    obtain ⟨wired', same⟩ := serialRead_keeps wired ran
    exact ⟨wired', told.same same⟩

theorem run_keeps_wired (image : 64 ≤ head.addr) (sound : Sound head k blocks)
    (run : ReflTransGen (PortsStep head.addr) ⟨.started k, fun _ => []⟩ s) :
    Wired head s.machine ∧ Told s.results s.machine := by
  induction run with
  | refl =>
    refine ⟨⟨⟨blocks, sound⟩, fun _ _ none_ => (nomatch none_),
      fun _ => (by decide : (0 : UInt32) < 64 ∧ (0 : UInt32) < 64),
      fun _ => .inl rfl, fun _ _ _ some_ => absurd rfl some_, .inl rfl,
      (by decide : (0 : Int) ≤ 0 ∧ (0 : Int) < 32), le_rfl⟩, fun _ _ _ => ?_, fun _ none_ => (nomatch none_)⟩
    exact iff_of_false (fun latest => nomatch latest) fun some_ => some_ rfl
  | tail _ step ih => exact step_keeps_wired image step ih

/-! ## Reading -/

/-- The heads of a slot are below 64. -/
def Low (m : Machine) (o : Fin 4) : Prop :=
  (m.serialBuffers o).writeHead.toNat < 64 ∧ (m.serialBuffers o).readHead.toNat < 64

theorem Wired.heads_low (wired : Wired head m) : Low m o :=
  ⟨UInt32.lt_iff_toNat_lt.mp (wired.low o).1, UInt32.lt_iff_toNat_lt.mp (wired.low o).2⟩

theorem Low.empty_iff (low : Low m o) : m.serialEmpty o ↔ m.serialUnread o = 0 := by
  unfold Machine.serialEmpty Machine.serialUnread
  rw [← UInt32.toNat_inj]
  obtain ⟨write, read⟩ := low
  omega

theorem serialAdvance_slot : (m.serialAdvance o).serialBuffers o =
    { m.serialBuffers o with readHead := ((m.serialBuffers o).readHead + 1) % 64 } := setSerial_same

theorem Low.advance (low : Low m o) : Low (m.serialAdvance o) o := by
  unfold Low
  rw [serialAdvance_slot]
  dsimp only
  rw [head_succ]
  exact ⟨low.1, Nat.mod_lt _ (by decide)⟩

theorem Low.unread_advance (low : Low m o) (some_ : m.serialUnread o ≠ 0) :
    (m.serialAdvance o).serialUnread o = m.serialUnread o - 1 := by
  obtain ⟨write, read⟩ := low
  unfold Machine.serialUnread at *
  rw [serialAdvance_slot]
  dsimp only
  rw [head_succ]
  omega

theorem serialRead_some (slot : serialDev2Offset dev = some o) (some_ : ¬ m.serialEmpty o) :
    serialRead dev 1 m = some (1, [m.serialFetch o], m.serialAdvance o) := by
  unfold serialRead
  rw [if_neg (by decide), slot]
  exact if_neg some_

/-- As many calls as there are unread bytes return, and the last of them returns the byte before the write
head. -/
theorem serialReads_last {n : Nat} (slot : serialDev2Offset dev = some o) (low : Low m o)
    (unread : m.serialUnread o = n + 1) : ∃ bytes, bytes.length = n ∧ serialReads dev (n + 1) m =
      some (bytes ++ [m.byte ((m.serialBuffers o).buffer + ((m.serialBuffers o).writeHead.toNat + 63) % 64)]) := by
  induction n generalizing m with
  | zero =>
    have some_ : ¬ m.serialEmpty o := by
      rw [low.empty_iff, unread]
      decide
    have last : (m.serialBuffers o).readHead.toNat = ((m.serialBuffers o).writeHead.toNat + 63) % 64 := by
      obtain ⟨write, read⟩ := low
      unfold Machine.serialUnread at unread
      omega
    refine ⟨[], rfl, ?_⟩
    rw [serialReads, serialRead_some slot some_, Machine.serialFetch, last]
    rfl
  | succ n ih =>
    have some_ : ¬ m.serialEmpty o := by
      rw [low.empty_iff, unread]
      exact Nat.succ_ne_zero _
    have left : (m.serialAdvance o).serialUnread o = n + 1 := by
      rw [low.unread_advance (by omega), unread]
      rfl
    obtain ⟨bytes, length, rest⟩ := ih low.advance left
    refine ⟨m.serialFetch o :: bytes, congrArg Nat.succ length, ?_⟩
    rw [serialReads, serialRead_some slot some_]
    dsimp only [Option.bind_some]
    rw [rest, serialAdvance_slot]
    rfl

/-! ## The way of a byte -/

theorem dispatch_serial (reached : m.interruptHandlers irq = some .serialInterruptHandler) :
    itrInterruptHandler irq inb m = serialInterruptHandler irq inb m := by
  unfold itrInterruptHandler
  rw [reached]

theorem serialPut_slot : (m.serialPut o v).serialBuffers o =
    { m.serialBuffers o with writeHead := ((m.serialBuffers o).writeHead + 1) % 64 } := setSerial_same

/-- Where the first byte after 63 unread ones comes, the heads meet. -/
theorem Low.unread_put (low : Low m o) : (m.serialPut o v).serialUnread o = (m.serialUnread o + 1) % 64 := by
  obtain ⟨write, read⟩ := low
  unfold Machine.serialUnread
  rw [serialPut_slot]
  dsimp only
  rw [head_succ]
  omega

theorem Low.put (low : Low m o) : Low (m.serialPut o v) o := by
  unfold Low
  rw [serialPut_slot]
  dsimp only
  rw [head_succ]
  exact ⟨Nat.mod_lt _ (by decide), low.2⟩

/-- The bytes that a byte from a port leaves as they are. -/
theorem serialPut_byte {x : Nat} (words : x < 2 ^ 32)
    (words' : (m.serialBuffers o).buffer + (m.serialBuffers o).writeHead.toNat < 2 ^ 32) :
    (m.serialPut o v).byte x =
      if x = (m.serialBuffers o).buffer + (m.serialBuffers o).writeHead.toNat then v else m.byte x :=
  byte_setByte words words'

theorem Wired.routed (wired : Wired head m) (maps : serialIrq2Dev irq = some dev) (slot : serialDev2Offset dev = some o)
    (data : DataReceived dev inb) (reached : m.interruptHandlers irq = some .serialInterruptHandler)
    (some_ : (m.serialBuffers o).buffer ≠ 0) (room : m.serialUnread o < 63) : Routed dev o irq inb m := by
  have own : ((m.serialBuffers o).buffer, serialBufferLen) ∈ m.kernel.live := (wired.handed o).resolve_left some_
  obtain ⟨blocks, sound⟩ := wired.sound
  have top : (m.serialBuffers o).buffer + 64 < 2 ^ 32 := (sound.live_bounds own).2
  have low : Low m o := wired.heads_low
  have within := low.1
  have after : itrInterruptHandler irq inb m = (m.serialPut o (inb dev)).picSendEoi irq :=
    (dispatch_serial reached).trans (handler_puts maps slot data)
  have stored : (m.serialPut o (inb dev)).byte ((m.serialBuffers o).buffer + (m.serialBuffers o).writeHead.toNat) =
      inb dev := by
    rw [serialPut_byte (by omega) (by omega), if_pos rfl]
  refine ⟨reached, own, ?_, ?_, fun o' other => ?_, fun o' other own' i inside => ?_, ?_⟩
  · rw [after, picSendEoi_byte]
    exact stored
  · rw [after, picSendEoi_serialBuffers]
    exact serialPut_slot
  · rw [after, picSendEoi_serialBuffers]
    exact setSerial_other other
  · have top' := (sound.live_bounds own').2
    have words : (m.serialBuffers o').buffer + i < 2 ^ 32 := (Nat.add_lt_add_left inside _).trans top'
    have apart := sound.disjoint own own' fun same => wired.apart o o' other.symm some_ (Prod.mk.inj same).1
    rw [after, picSendEoi_byte, serialPut_byte words (by omega), if_neg]
    intro same
    refine Set.disjoint_left.mp apart ⟨Nat.le_add_right _ _, Nat.add_lt_add_left within _⟩ ?_
    rw [← same]
    exact ⟨Nat.le_add_right _ _, Nat.add_lt_add_left inside _⟩
  · have unread : (itrInterruptHandler irq inb m).serialUnread o = m.serialUnread o + 1 := by
      rw [after, Machine.serialUnread, picSendEoi_serialBuffers]
      exact low.unread_put.trans (by omega)
    have low' : Low (itrInterruptHandler irq inb m) o := by
      rw [after, Low, picSendEoi_serialBuffers]
      exact low.put
    obtain ⟨bytes, length, returned⟩ := serialReads_last slot low' unread
    refine ⟨bytes, length, ?_⟩
    rw [returned, after, picSendEoi_byte, picSendEoi_serialBuffers, serialPut_slot]
    dsimp only
    have last : (((m.serialBuffers o).writeHead.toNat + 1) % 64 + 63) % 64 =
        (m.serialBuffers o).writeHead.toNat := by omega
    rw [head_succ, last, stored]

/-- Where the 63 bytes before it are unread, `serial_read` cannot return the byte. -/
theorem Low.full (low : Low m o) (full : ¬ m.serialUnread o < 63) (maps : serialIrq2Dev irq = some dev)
    (slot : serialDev2Offset dev = some o) (data : DataReceived dev inb)
    (reached : m.interruptHandlers irq = some .serialInterruptHandler) (n : Nat) :
    serialReads dev (n + 1) (itrInterruptHandler irq inb m) = none := by
  have empty : (itrInterruptHandler irq inb m).serialEmpty o := by
    rw [dispatch_serial reached, handler_puts maps slot data, Machine.serialEmpty, picSendEoi_serialBuffers]
    refine low.put.empty_iff.mpr ?_
    have most : m.serialUnread o < 64 := Nat.mod_lt _ (by decide)
    rw [low.unread_put]
    omega
  have waits : serialRead dev 1 (itrInterruptHandler irq inb m) = none := by
    unfold serialRead
    rw [if_neg (by decide), slot]
    exact if_pos empty
  rw [serialReads, waits]
  rfl

/-- In every run, an interrupt on the vector of a port that `serial_init` has set up reaches the buffer of
that port exactly if the port is COM1, its latest `serial_init` succeeded, and fewer than 63 bytes are
unread. -/
theorem interrupt_routed_iff (sound : Sound head k blocks) (image : 64 ≤ head.addr)
    (run : ReflTransGen (PortsStep head.addr) ⟨.started k, fun _ => []⟩ s) (done : 0 ∈ s.results dev)
    (maps : serialIrq2Dev irq = some dev) (slot : serialDev2Offset dev = some o) (data : DataReceived dev inb) :
    Routed dev o irq inb s.machine ↔
      dev = serialCom1 ∧ (s.results dev).head? = some 0 ∧ s.machine.serialUnread o < 63 := by
  obtain ⟨wired, told⟩ := run_keeps_wired image sound run
  constructor
  · intro routed
    have first : irq = picSerial1Irq := by
      obtain ⟨first, -⟩ | ⟨-, other⟩ := wired.handlers irq _ routed.reached
      · exact first
      · cases other
    have some_ : (s.machine.serialBuffers o).buffer ≠ 0 := by
      obtain ⟨blocks, sound⟩ := wired.sound
      exact (sound.live_bounds routed.own).1.ne'
    refine ⟨?_, (told.latest dev o slot).mpr some_, ?_⟩
    · rw [first] at maps
      exact (Option.some_inj.mp maps).symm
    · by_contra full
      obtain ⟨bytes, -, returned⟩ := routed.readable
      rw [wired.heads_low.full full maps slot data routed.reached] at returned
      cases returned
  · rintro ⟨rfl, latest, room⟩
    have first : irq = picSerial1Irq := by
      unfold serialIrq2Dev at maps
      split at maps
      · assumption
      split at maps
      · cases maps
      · cases maps
    refine wired.routed maps slot data ?_ ((told.latest _ o slot).mp latest) room
    rw [first]
    exact told.registered _ done

theorem interrupt_routed_iff_com1 : ∃ s fuel m, Sound lowHead (.boot s) [] ∧
    serialInit lowHead.addr fuel serialCom1 kernelConfig (.started (.boot s)) = some (0, m) ∧
    Routed serialCom1 0 picSerial1Irq (fun _ => 1) m := by
  obtain ⟨s, fuel, m, sound, initialised⟩ := @serialInit_threeMegabytes 0 serialCom1 rfl
  obtain ⟨p, port, -⟩ := serialInit_slot sound initialised rfl
  have run : ReflTransGen (PortsStep lowHead.addr) ⟨.started (.boot s), fun _ => []⟩
      ⟨m, Function.update (fun _ => []) serialCom1 [0]⟩ := .single (.serialInit initialised)
  have here : Function.update (fun _ => ([] : List Int)) serialCom1 [0] serialCom1 = [0] := Function.update_self _ _ _
  have empty : m.serialUnread 0 = 0 := by
    rw [Machine.serialUnread, port]
    dsimp only
    rw [show (0 : UInt32).toNat = 0 from rfl]
  refine ⟨s, fuel, m, sound, initialised, (interrupt_routed_iff sound (by decide) run ?_ rfl rfl (by decide)).mpr
    ⟨rfl, ?_, ?_⟩⟩
  · dsimp only
    rw [here]
    exact List.mem_singleton_self 0
  · dsimp only
    rw [here]
    rfl
  · dsimp only
    omega

/-- COM2 is set up, and a byte arrives on its vector: the dispatcher has no handler for it, nothing is stored, and
`serial_read` waits. -/
theorem com2_never_routed : ∃ s fuel m, Sound lowHead (.boot s) [] ∧
    serialInit lowHead.addr fuel serialCom2 kernelConfig (.started (.boot s)) = some (0, m) ∧
    serialIrq2Dev picSerial2Irq = some serialCom2 ∧ DataReceived serialCom2 (fun _ => 1) ∧
    itrInterruptHandler picSerial2Irq (fun _ => 1) m =
      ({ m with output := .generic picSerial2Irq :: m.output }).picSendEoi picSerial2Irq ∧
    serialRead serialCom2 1 (itrInterruptHandler picSerial2Irq (fun _ => 1) m) = none ∧
    ¬ Routed serialCom2 1 picSerial2Irq (fun _ => 1) m := by
  obtain ⟨s, fuel, m, sound, initialised⟩ := @serialInit_threeMegabytes 1 serialCom2 rfl
  obtain ⟨p, port, -, -, handlers⟩ := serialInit_slot sound initialised rfl
  have none_ : m.interruptHandlers picSerial2Irq = none := by
    rw [handlers]
    exact Function.update_of_ne (by decide) _ _
  have generic : itrInterruptHandler picSerial2Irq (fun _ => 1) m =
      ({ m with output := .generic picSerial2Irq :: m.output }).picSendEoi picSerial2Irq := by
    unfold itrInterruptHandler
    rw [none_]
  refine ⟨s, fuel, m, sound, initialised, rfl, by decide, generic, ?_, fun routed => ?_⟩
  · have empty : (itrInterruptHandler picSerial2Irq (fun _ => 1) m).serialEmpty 1 := by
      rw [generic, Machine.serialEmpty, picSendEoi_serialBuffers]
      dsimp only
      rw [port]
    unfold serialRead
    rw [if_neg (by decide)]
    exact if_pos empty
  · have reached := routed.reached
    rw [none_] at reached
    cases reached

end AtaKernel.Drivers
