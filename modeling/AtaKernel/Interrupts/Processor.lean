import AtaKernel.Library.DwordStack

/-! The processor in protected mode, as far as an interrupt and the code of
`interrupts.asm` need it: registers, the memory of the stack, what the processor
pushes when an interrupt comes, and `iretd`. -/
namespace AtaKernel.Interrupts
open ByteMemory DwordStack

@[ext] structure Cpu where
  eax : UInt32
  ecx : UInt32
  edx : UInt32
  ebx : UInt32
  esp : UInt32
  ebp : UInt32
  esi : UInt32
  edi : UInt32
  eip : UInt32
  eflags : UInt32
  cs : UInt16
  ss : UInt16
  ds : UInt16
  es : UInt16
  fs : UInt16
  gs : UInt16
  memory : Memory

def gdtKernelCodeSegment : UInt16 := 0x08

/-- The privilege level in a selector; that of `cs` is the current one. -/
def ringOf (selector : UInt16) : UInt16 := selector &&& 3

/-! ## Instructions -/

def Cpu.push (c : Cpu) (v : UInt32) : Cpu := { c with esp := c.esp - 4, memory := put c.memory (c.esp - 4) v }

/-- `[esp + offset]` -/
def Cpu.dword (c : Cpu) (offset : UInt32) : UInt32 := dwordAt c.memory (c.esp + offset)

def Cpu.word (c : Cpu) (offset : UInt32) : UInt16 := wordAt c.memory (c.esp + offset)

def Cpu.pushad (c : Cpu) : Cpu :=
  (((((((c.push c.eax).push c.ecx).push c.edx).push c.ebx).push c.esp).push c.ebp).push c.esi).push c.edi

/-- The place of ESP is passed over. -/
def Cpu.popad (c : Cpu) : Cpu :=
  { c with
    edi := c.dword 0
    esi := c.dword 4
    ebp := c.dword 8
    ebx := c.dword 16
    edx := c.dword 20
    ecx := c.dword 24
    eax := c.dword 28
    esp := c.esp + 32 }

/-- The register behind a move to its low half. -/
def setLow (r : UInt32) (v : UInt16) : UInt32 := r &&& 0xffff0000 ||| v.toUInt32

def Cpu.movAx (c : Cpu) (v : UInt16) : Cpu := { c with eax := setLow c.eax v }

def Cpu.movBx (c : Cpu) (v : UInt16) : Cpu := { c with ebx := setLow c.ebx v }

def Cpu.addEsp (c : Cpu) (v : UInt32) : Cpu := { c with esp := c.esp + v }

def Cpu.setDataSegments (c : Cpu) (v : UInt16) : Cpu := { c with ds := v, es := v, fs := v, gs := v }

/-- At CPL 0. A return to an outer ring takes SS and ESP too, and empties the data segment registers that this
ring may not use: `dpl` tells the privilege level of a descriptor. -/
def Cpu.iretd (dpl : UInt16 → UInt16) (c : Cpu) : Cpu :=
  let cs := (c.dword 4).toUInt16
  if ringOf cs = ringOf c.cs then
    { c with eip := c.dword 0, cs := cs, eflags := c.dword 8, esp := c.esp + 12 }
  else
    let usable (selector : UInt16) : UInt16 := if dpl selector < ringOf cs then 0 else selector
    { c with
      eip := c.dword 0
      cs := cs
      eflags := c.dword 8
      esp := c.dword 12
      ss := (c.dword 16).toUInt16
      ds := usable c.ds
      es := usable c.es
      fs := usable c.fs
      gs := usable c.gs }

/-! ## An interrupt -/

/-- The vectors whose interrupts come with an error code. -/
def PushesError (irq : UInt8) : Prop := irq = 8 ∨ (10 ≤ irq ∧ irq ≤ 14) ∨ irq = 17

instance (irq : UInt8) : Decidable (PushesError irq) := inferInstanceAs (Decidable (_ ∨ _))

/-- The vector, the error code, and the upper halves of the selectors that are pushed. -/
structure Arrival where
  irq : UInt8
  err : UInt32
  csHigh : UInt16
  ssHigh : UInt16

/-- What the image and the task state hold: the entries of the IDT, the address behind the call of
`itr_interrupt_handler`, and the stack of ring 0. -/
structure Platform where
  offset : UInt8 → UInt32
  back : UInt32
  ss0 : UInt16
  esp0 : UInt32

/-- A selector as it is pushed. -/
def wide (high selector : UInt16) : UInt32 := UInt32.ofNat (65536 * high.toNat + selector.toNat)

/-- The privilege level changes. -/
def Cpu.Switches (c : Cpu) : Prop := ringOf c.cs ≠ ringOf gdtKernelCodeSegment

instance (c : Cpu) : Decidable c.Switches := inferInstanceAs (Decidable (_ ≠ _))

/-- The bits TF, IF, NT, RF and VM are cleared behind an interrupt gate. -/
def gateMask : UInt32 := 0xfffcbcff

/-- The way through an interrupt gate. -/
def Cpu.deliver (p : Platform) (i : Arrival) (c : Cpu) : Cpu :=
  let inner :=
    if c.Switches then ({ c with ss := p.ss0, esp := p.esp0 }.push (wide i.ssHigh c.ss)).push c.esp else c
  let inner := ((inner.push c.eflags).push (wide i.csHigh c.cs)).push c.eip
  let inner := if PushesError i.irq then inner.push i.err else inner
  { inner with cs := gdtKernelCodeSegment, eip := p.offset i.irq, eflags := c.eflags &&& gateMask }

/-! ## The stack -/

variable {c : Cpu} {ws : List UInt32} {v w : UInt32} {i n : Nat}

@[simp] theorem push_cs : (c.push v).cs = c.cs := rfl

@[simp] theorem pushad_cs : c.pushad.cs = c.cs := by simp [Cpu.pushad]

/-- What lies on the stack. -/
def Cpu.Stack (c : Cpu) (ws : List UInt32) : Prop := Row c.memory c.esp ws

theorem Cpu.Stack.push (stack : c.Stack ws) (room : 4 * ws.length + 4 ≤ 2 ^ 32) : (c.push v).Stack (v :: ws) :=
  Row.push stack room

theorem Cpu.Stack.at {offset : UInt32} (stack : c.Stack ws) (here : ws[i]? = some w) (place : offset.toNat = 4 * i) :
    c.dword offset = w := Row.at stack here place

theorem toUInt16_wide (high selector : UInt16) : (wide high selector).toUInt16 = selector := by
  apply UInt16.toNat_inj.mp
  have low := selector.toNat_lt
  rw [wide, UInt32.toNat_toUInt16, UInt32.toNat_ofNat']
  omega

end AtaKernel.Interrupts
