import AtaKernel.Boot.LoadZone
import AtaKernel.Boot.MapCollection
import AtaKernel.Library.Segmentation

/-! The rest of `kernel_init.asm`, and `kernel_entry.asm`: behind the memory map the
code writes a table of three descriptors, turns the processor to protected mode, and
calls the kernel with the table and the map. What the BIOS and the boot programs left
in the segment registers is gone by then. -/
namespace AtaKernel.Boot.KernelInit
open ByteMemory Memory DwordStack StateProgram Segmentation

def gdtBase : UInt32 := 0x0508
def stackTop : UInt16 := 0x1400
def kernelEntry : UInt32 := 0x1400
def kernelCodeSegment : UInt16 := 8
def kernelDataSegment : UInt16 := 16

/-- The addresses in the code and behind its two calls, and that of `kmain`. -/
structure Labels where
  initPm : UInt32
  hlt : UInt32
  kmain : UInt32
  entryHlt : UInt32

/-! ## The code -/

/-- The five moves to segment registers. -/
def movSegments (selector : UInt16) : Code Unit := do
  movData .ds selector
  movStack selector
  movData .es selector
  movData .fs selector
  movData .gs selector

def initPm (labels : Labels) : Code Unit := do
  modify fun p => { p with eax := setLow p.eax kernelDataSegment }
  movSegments kernelDataSegment
  modify fun p => { p with esp := stackTop.toUInt32, ebp := stackTop.toUInt32 }
  push memMapOffset.toUInt32
  push gdtBase
  farCall kernelCodeSegment kernelEntry labels.hlt

/-- The table, with the upper halves of its entries for code and data. -/
def Table (m : Memory) (code data : UInt32) : Prop := Row m gdtBase [0, 0, 0x0000ffff, code, 0x0000ffff, data]

def flatData : Descriptor := ⟨0, 0xffffffff, true, 0, true, false, false, true, true⟩

/-- A segment of the whole address space. -/
def flat (selector : UInt16) : Segment := ⟨selector, 0, 0xffffffff, true⟩

variable {σ : Type} {int15 : σ → Cpu → σ × Cpu} {ending : Ending} {bios : σ} {labels : Labels} {p : Processor}
  {m m' : Memory} {code data v a offset : UInt32} {ds : List MemBiosMmapEntry} {cpu : Cpu} {x fuel : Nat}
  {done : List MemBiosMmapEntry}

/-- Stores of other places leave the table. -/
theorem Table.congr (table : Table m code data) (same : ∀ x, 0x508 ≤ x → x < 0x520 → m' x = m x) :
    Table m' code data := by
  refine Row.congr table fun i low => ?_
  change i < 24 at low
  rw [cell_low (by change 0x508 + i < 2 ^ 32; omega)]
  exact same _ (Nat.le_add_right _ _) (by change 0x508 + i < 0x520; omega)

theorem Table.mark_data (table : Table m code data) : Table (put m (gdtBase + 20) v) code v :=
  Row.set table (show 5 < 6 by decide) (show 4 * 6 ≤ 2 ^ 32 by decide) rfl

/-- The processor in ring 0, with the table. -/
structure Protected (p : Processor) (code data : UInt32) : Prop where
  cpl : p.cpl = 0
  base : p.gdtBase = gdtBase
  limit : p.gdtLimit = 23
  table : Table p.memory code data

def DataHalf (data : UInt32) : Prop := data = 0x00cf9200 ∨ data = 0x00cf9300

theorem Protected.selects_data (protected_ : Protected p code data) (half : DataHalf data) :
    p.Selects kernelDataSegment (gdtBase + 16) flatData := by
  obtain ⟨-, base, limit, -, -, -, -, low, high, -⟩ := protected_
  refine ⟨by decide, by decide, ?_, ?_, ?_⟩
  · rw [limit]
    decide
  · rw [base]
    rfl
  · rw [show dwordAt p.memory (gdtBase + 16) = _ from low, show dwordAt p.memory (gdtBase + 16 + 4) = _ from high]
    obtain rfl | rfl := half <;> decide

def markData (m : Memory) : Memory := put m (gdtBase + 20) 0x00cf9300

theorem Protected.marks_data (protected_ : Protected p code data) (half : DataHalf data) :
    p.marked (gdtBase + 16) = { p with memory := markData p.memory } := by
  have high : dwordAt p.memory (gdtBase + 16 + 4) = data := protected_.table.2.2.2.2.2.1
  have marked : data ||| 0x100 = 0x00cf9300 := by obtain rfl | rfl := half <;> decide
  unfold Processor.marked
  rw [high, marked]
  rfl

theorem Protected.loads (protected_ : Protected p code data) (half : DataHalf data) (register : DataRegister) :
    movData register kernelDataSegment p =
      .ok () ({ p with memory := markData p.memory }.setData (flat kernelDataSegment) register) := by
  have serves : flatData.Serves p.cpl kernelDataSegment := by
    rw [protected_.cpl]
    decide
  rw [movData_loads (protected_.selects_data half) serves rfl, protected_.marks_data half]
  rfl

/-- A load keeps the table. -/
theorem Protected.loaded (protected_ : Protected p code data) (register : DataRegister) :
    Protected ({ p with memory := markData p.memory }.setData (flat kernelDataSegment) register) code 0x00cf9300 := by
  obtain ⟨cpl, base, limit, table⟩ := protected_
  cases register <;> exact ⟨cpl, base, limit, table.mark_data⟩

end AtaKernel.Boot.KernelInit
