import AtaKernel.Boot.KernelInit
import AtaKernel.Memory.KernelStack
import AtaKernel.Text.Screen

/-! `kmain` of kernel.c, with mem.asm: the kernel starts its memory from the map that the
code before it collected, takes a frame for its stack and moves there, or it shows why
not and halts. Of the frame of the C function on the old stack its size is known, and
behind the call that moves the stack what the compiler takes off it. -/
namespace AtaKernel.Boot.KernelMain
open ByteMemory Memory DwordStack StateProgram Segmentation Text KernelInit CString

/-- What the compiler and the linker settle: the place of `mem_head`, what the stack holds between the frame of the
caller and the argument, what is taken off it behind the call, the argument or more, and the addresses of the two calls
and behind them. -/
structure Built where
  head : MemHead
  frame : UInt32
  popped : UInt32
  memRelocateStackTo : UInt32
  relocated : UInt32
  kmain2 : UInt32
  back : UInt32

inductive Outcome
  /-- The screen when the processor halts. -/
  | panics (fb : Framebuffer)
  /-- The run up to the first instruction of `kmain2`. -/
  | goesOn (fb : Framebuffer) (totalFrames : Nat) (run : EStateM.Result Fault Processor Unit)

def textOf (s : String) : List UInt8 := s.toList.map Char.toUInt8

def noMemory : List UInt8 := textOf "Could not initialize memory :("
def noStack : List UInt8 := textOf "Could not allocate a frame for the kernel's stack :("

/-! ## The code -/

/-- `mem.asm` -/
def memRelocateStackTo : Code Unit := do
  let back ← stackDword 0
  modify fun p => { p with eax := back }
  let top ← stackDword 4
  modify fun p => { p with esp := top }
  modify fun p => { p with ebp := p.esp }
  push 0
  push (← get).eax
  ret

/-- The call of `mem_relocate_stack_to`, behind which the caller cleans the stack up, and that of `kmain2`. -/
def enterKmain2 (built : Built) : Code Unit := do
  modify fun p => { p with esp := p.esp - built.frame }
  push (UInt32.ofNat memKernelStackTop)
  Segmentation.call built.memRelocateStackTo built.relocated
  memRelocateStackTo
  modify fun p => { p with esp := p.esp + built.popped }
  Segmentation.call built.kmain2 built.back

/-- The entries that the loops of `mem_init` find; `none` means that the fuel ran out. -/
def readMap (m : Memory) (place : Nat) : Nat → Option (List MemBiosMmapEntry)
  | 0 => none
  | fuel + 1 =>
    let e := descriptorAt m place
    if e.size = 0 ∧ e.base = 0 ∧ e.type = 0 then some []
    else (readMap m (place + 20) fuel).map (e :: ·)

def kmain (built : Built) (fuel : Nat) (fb : Framebuffer) (totalFrames : Nat) (p : Processor) : Option Outcome := do
  let fb := fb.fbReset
  let map ← readMap p.memory (dwordAt p.memory (p.esp + 8)).toNat fuel
  let started := memInit built.head.addr map ⟨p.memory, totalFrames⟩
  if started.1 = -1 then (kernelPanic (noMemory ++ [0]) fb).map .panics
  else
    let stack := memAllocateFrames started.2 1 memKernelStackFrame memUserFirstFrame
    if stack.1 = 0 then (kernelPanic (noStack ++ [0]) fb).map .panics
    else
      let p := { p with memory := stack.2.memory }
      some (.goesOn fb stack.2.totalFrames (enterKmain2 built p))

variable {built : Built} {labels : Labels} {p : Processor} {m : Memory} {es : List MemBiosMmapEntry}
  {e : MemBiosMmapEntry} {a fuel f x : Nat} {back top v : UInt32} {fb : Framebuffer}

/-! ## The stack moves -/

/-- Where `kmain2` finds its return address: with nothing but the argument taken off, in the last dword of the frame. -/
def Built.kmain2Stack (built : Built) : UInt32 := 0x2ffff8 + built.popped

/-- The frame of the stack lies behind the bitmap, in memory that no region reserves. -/
def StackFree (es : List MemBiosMmapEntry) : Prop :=
  mapBitmapLast es < memKernelStackFrame ∧ memKernelStackFrame < mapFrames es ∧
    ∀ e ∈ es, ¬ e.Reserves memKernelStackFrame

/-- How `kmain2` finds the machine: on the new stack, with the heap empty, the stack's frame in use and the others as
the map has them, and the kernel as it was loaded. -/
structure SetUp (built : Built) (es : List MemBiosMmapEntry) (before : Memory) (frames : Nat)
    (p : Processor) : Prop where
  eip : p.eip = built.kmain2
  stack : p.esp = built.kmain2Stack ∧ p.ebp = 0x300000 ∧ dwordAt p.memory p.esp = built.back
  interrupts : p.interruptFlag = false
  total : frames = mapFrames es
  sound : Sound built.head ⟨⟨p.memory, frames⟩, ∅, {memKernelStackFrame}, []⟩ []
  bitmap : ∀ f < mapFrames es, memBitmapGetEntry p.memory f =
    if f = memKernelStackFrame then memBitmapEntryUsed
    else if f ≤ mapBitmapLast es ∨ ∃ e ∈ es, e.Reserves f then memBitmapEntryReserved else memBitmapEntryFree
  image : ∀ x, 0x1400 ≤ x → x < memBitmapAddr → ¬ (built.head.addr ≤ x ∧ x < built.head.addr + entryBytes) →
    p.memory x = before x

/-- The outcome that the map asks for. -/
def Outcome.Fits (built : Built) (es : List MemBiosMmapEntry) (before : Memory) : Outcome → Prop
  | .panics fb => (¬ ∃ e ∈ es, HoldsBitmap es e) ∧ Shows noMemory 0x4f fb ∨
      (∃ e ∈ es, HoldsBitmap es e) ∧ ¬ StackFree es ∧ Shows noStack 0x4f fb
  | .goesOn _ frames run => (∃ e ∈ es, HoldsBitmap es e) ∧ StackFree es ∧
      ∃ p, run = .ok () p ∧ SetUp built es before frames p

end AtaKernel.Boot.KernelMain
