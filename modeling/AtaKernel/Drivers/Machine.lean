import AtaKernel.Memory.Coexistence

/-! What the drivers of the kernel share: the memory with the heap, the table of
interrupt handlers, the variables of the serial and of the keyboard driver, and
what was written to ports and to the screen. The values that `inb` gives come from
outside. -/
namespace AtaKernel.Drivers
open ByteMemory Memory

/-- The functions that the drivers register. -/
inductive Handler
  | kbInterruptHandler
  | serialInterruptHandler
  deriving DecidableEq

/-- `serial_buffer_t`, with the address of the buffer, 0 for NULL. -/
structure SerialBuffer where
  writeHead : UInt32
  readHead : UInt32
  buffer : Nat

/-- `kb_buffer`, `kb_buf_head` and `kb_buf_count`, and the first `len` bytes of the code that
`kb_interrupt_handler` is in. -/
structure Kb where
  buffer : Nat
  head : Int
  count : Int
  part : List UInt8

inductive Output
  | outb (port : UInt16) (value : UInt8)
  /-- `">> Generic intr handler called with IRQ: %dd\n"` -/
  | generic (irq : UInt8)
  deriving DecidableEq

structure Machine where
  kernel : Kernel
  /-- `interrupt_handlers[irq]` -/
  interruptHandlers : UInt8 → Option Handler
  /-- `idt[irq].flags` -/
  idtFlags : UInt8 → UInt16
  serialBuffers : Fin 4 → SerialBuffer
  kb : Kb
  /-- The latest first. -/
  output : List Output

/-- Behind `itr_set_up`: there are no handlers, and the variables of the drivers are zeros. -/
def Machine.started (k : Kernel) : Machine :=
  ⟨k, fun _ => none, fun _ => 0x8e00, fun _ => ⟨0, 0, 0⟩, ⟨0, 0, 0, []⟩, []⟩

/-! ## Memory -/

def Machine.byte (m : Machine) (a : Nat) : UInt8 := load8 m.kernel.state.memory a

def Machine.setByte (m : Machine) (a : Nat) (v : UInt8) : Machine := { m with kernel := m.kernel.stored a v }

/-- `kalloc(bytes)` -/
def Machine.kalloc (memHead fuel bytes : Nat) (m : Machine) : Option (Nat × Machine) :=
  (Memory.kalloc memHead fuel m.kernel.state bytes).map fun r =>
    (r.1, { m with kernel := m.kernel.kalloced bytes r.1 r.2 })

/-! ## Ports -/

def Machine.outb (m : Machine) (port : UInt16) (value : UInt8) : Machine :=
  { m with output := .outb port value :: m.output }

/-- `pic_send_eoi` -/
def Machine.picSendEoi (m : Machine) (irq : UInt8) : Machine :=
  if 0x20 ≤ irq ∧ irq ≤ 0x27 then m.outb 0x20 0x20
  else if 0x28 ≤ irq ∧ irq ≤ 0x2f then (m.outb 0xa0 0x20).outb 0x20 0x20
  else m

/-! ## Interrupt handlers -/

def picKeyboardIrq : UInt8 := 0x21
def picSerial2Irq : UInt8 := 0x23
def picSerial1Irq : UInt8 := 0x24

/-- `IDT_PRESENT | IDT_DPL_RING_0 | IDT_GATE_INTR` -/
def interruptGate : UInt16 := 0x8e00

def Machine.itrSetInterruptHandler (m : Machine) (irq : UInt8) (handler : Handler) (flags : UInt16) : Machine :=
  { m with
    interruptHandlers := Function.update m.interruptHandlers irq (some handler)
    idtFlags := Function.update m.idtFlags irq flags }

/-! ## What stays as it is -/

variable {m m' : Machine} {irq : UInt8} {v : UInt8} {a bytes fuel p : Nat} {head : MemHead} {blocks : List Block}

/-- Everything but the output. -/
theorem picSendEoi_keeps {γ : Type} (view : Machine → γ) (same : ∀ m output, view { m with output } = view m) :
    view (m.picSendEoi irq) = view m := by
  unfold Machine.picSendEoi
  split
  · exact same _ _
  split
  · exact (same (m.outb 0xa0 0x20) _).trans (same _ _)
  · rfl

theorem itrSetInterruptHandler_same {handler : Handler} {flags : UInt16} :
    (m.itrSetInterruptHandler irq handler flags).interruptHandlers irq = some handler := Function.update_self _ _ _

theorem itrSetInterruptHandler_other {irq' : UInt8} {handler : Handler} {flags : UInt16} (other : irq' ≠ irq) :
    (m.itrSetInterruptHandler irq handler flags).interruptHandlers irq' = m.interruptHandlers irq' :=
  Function.update_of_ne other _ _

theorem byte_setByte {x : Nat} (words : x < 2 ^ 32) (words' : a < 2 ^ 32) :
    (m.setByte a v).byte x = if x = a then v else m.byte x := by
  change load8 (store8 m.kernel.state.memory a v) x = if x = a then v else load8 m.kernel.state.memory x
  split
  · next same =>
    rw [same]
    exact load8_store8_same _ _ _
  · next other =>
    refine load8_store8_apart _ _ ?_
    rwa [cell, cell, Nat.mod_eq_of_lt words, Nat.mod_eq_of_lt words']

/-- `kalloc` changes nothing but the heap, and nothing that is handed out. -/
theorem kalloc_ok (sound : Sound head m.kernel blocks) (limit : bytes ≤ 0xFFFFFFE0)
    (ran : m.kalloc head.addr fuel bytes = some (p, m')) : ∃ k, m' = { m with kernel := k } ∧
      (∃ blocks', Sound head k blocks') ∧ Untouched m.kernel k ∧
      k.live = if p = 0 then m.kernel.live else (p, bytes) :: m.kernel.live := by
  obtain ⟨⟨q, s⟩, returned, same⟩ := Option.map_eq_some_iff.mp ran
  obtain ⟨rfl, rfl⟩ := Prod.mk.inj same
  have step : Step head.addr m.kernel (.kalloc bytes) (m.kernel.kalloced bytes q s) := .kalloc limit returned
  have well : GoesWell m.kernel (.kalloc bytes) := trivial
  exact ⟨_, rfl, step_sound sound well step, step_untouched sound well step (by simp), rfl⟩

/-- On a machine with three megabytes, the first call of `kalloc` succeeds if the frames are there. -/
theorem kalloc_threeMegabytes (limit : bytes ≤ 0xFFFFFFE0) (room : 257 + framesOf (unitsOf bytes) ≤ memUserFirstFrame) :
    ∃ s fuel p s', Sound lowHead (.boot s) [] ∧
    Memory.kalloc lowHead.addr fuel s bytes = some (p, s') ∧ p ≠ 0 := by
  obtain ⟨mem, returned⟩ := memInit_threeMegabytes lowHead.addr ⟨fun _ => 0, 0⟩
  have stage := stage_of_memInit returned rfl
  obtain ⟨k, step, -, live, -⟩ := stage.kalloc_grows limit room fun c inside => (List.not_mem_nil inside).elim
  cases step with
  | @kalloc _ fuel p s' limit ran =>
    refine ⟨_, fuel, p, s', stage.sound, ran, fun null => ?_⟩
    rw [Kernel.kalloced, if_pos null] at live
    exact absurd live (List.cons_ne_self _ _).symm

end AtaKernel.Drivers
