import AtaKernel.Library.DwordStack
import AtaKernel.Library.StateProgram

/-! The segments of an x86 processor in protected mode: descriptors as they lie in a
table, what a segment register keeps of one, and the instructions that load a segment
register, with the checks that make them fault. Gates, tasks and local tables are left
out; a selector that names one faults. -/
namespace Segmentation
open ByteMemory DwordStack StateProgram

inductive Fault
  | generalProtection
  | notPresent
  | stackFault
  deriving DecidableEq

structure Descriptor where
  base : UInt32
  /-- The last offset. -/
  limit : UInt32
  present : Bool
  dpl : UInt16
  codeOrData : Bool
  executable : Bool
  /-- Of code; for data, that it expands down. -/
  conforming : Bool
  /-- Readable code, or data that can be written. -/
  accessible : Bool
  /-- 32 bits. -/
  wide : Bool
  deriving DecidableEq

/-- The two halves of an entry. -/
def descriptor (low high : UInt32) : Descriptor where
  base := (low >>> 16) ||| ((high &&& 0xff) <<< 16) ||| (high &&& 0xff000000)
  limit :=
    let limit := (low &&& 0xffff) ||| (high &&& 0x000f0000)
    if high &&& 0x00800000 ≠ 0 then (limit <<< 12) ||| 0xfff else limit
  present := high &&& 0x8000 ≠ 0
  dpl := ((high >>> 13) &&& 3).toUInt16
  codeOrData := high &&& 0x1000 ≠ 0
  executable := high &&& 0x0800 ≠ 0
  conforming := high &&& 0x0400 ≠ 0
  accessible := high &&& 0x0200 ≠ 0
  wide := high &&& 0x00400000 ≠ 0

/-- A segment register, with what it has of the descriptor. -/
structure Segment where
  selector : UInt16
  base : UInt32
  limit : UInt32
  wide : Bool
  deriving DecidableEq

structure Processor where
  eax : UInt32
  esp : UInt32
  ebp : UInt32
  eip : UInt32
  cs : Segment
  ss : Segment
  ds : Segment
  es : Segment
  fs : Segment
  gs : Segment
  cpl : UInt16
  gdtBase : UInt32
  gdtLimit : UInt16
  cr0 : UInt32
  interruptFlag : Bool
  memory : Memory

abbrev Code := EStateM Fault Processor

/-! ## Instructions -/

/-- The entry that a selector names, and its address. -/
def selected (selector : UInt16) : Code (UInt32 × Descriptor) := do
  let p ← get
  let offset := selector &&& 0xfff8
  if offset = 0 ∨ selector &&& 4 ≠ 0 ∨ p.gdtLimit < offset + 7 then throw .generalProtection
  else
    let place := p.gdtBase + offset.toUInt32
    pure (place, descriptor (dwordAt p.memory place) (dwordAt p.memory (place + 4)))

/-- The processor marks an entry that it loads. -/
def Processor.marked (p : Processor) (place : UInt32) : Processor :=
  { p with memory := put p.memory (place + 4) (dwordAt p.memory (place + 4) ||| 0x100) }

def Descriptor.segment (d : Descriptor) (selector : UInt16) : Segment := ⟨selector, d.base, d.limit, d.wide⟩

/-- The current ring may run the code. -/
def Descriptor.Runs (d : Descriptor) (cpl selector : UInt16) : Prop :=
  d.codeOrData ∧ d.executable ∧ if d.conforming then d.dpl ≤ cpl else selector &&& 3 ≤ cpl ∧ d.dpl = cpl

/-- The current ring may use the data. -/
def Descriptor.Serves (d : Descriptor) (cpl selector : UInt16) : Prop :=
  d.codeOrData ∧ (d.executable → d.accessible) ∧
    (d.executable ∧ d.conforming ∨ cpl ≤ d.dpl ∧ selector &&& 3 ≤ d.dpl)

/-- The current ring may have its stack there. -/
def Descriptor.Stacks (d : Descriptor) (cpl selector : UInt16) : Prop :=
  d.codeOrData ∧ ¬ d.executable ∧ d.accessible ∧ selector &&& 3 = cpl ∧ d.dpl = cpl

variable {d : Descriptor} {cpl selector : UInt16}

instance : Decidable (d.Runs cpl selector) := inferInstanceAs (Decidable (_ ∧ _))

instance : Decidable (d.Serves cpl selector) := inferInstanceAs (Decidable (_ ∧ _))

instance : Decidable (d.Stacks cpl selector) := inferInstanceAs (Decidable (_ ∧ _))

/-- The checks of a far transfer. -/
def codeSegment (selector : UInt16) (offset : UInt32) : Code (UInt32 × Descriptor) := do
  let entry ← selected selector
  let p ← get
  if ¬ entry.2.Runs p.cpl selector then throw .generalProtection
  else if ¬ entry.2.present then throw .notPresent
  else if entry.2.limit < offset then throw .generalProtection
  else pure entry

def Processor.enter (p : Processor) (entry : UInt32 × Descriptor) (selector : UInt16) (offset : UInt32) : Processor :=
  { p.marked entry.1 with cs := entry.2.segment (selector &&& 0xfffc ||| p.cpl), eip := offset }

inductive DataRegister
  | ds
  | es
  | fs
  | gs

def Processor.setData (p : Processor) (s : Segment) : DataRegister → Processor
  | .ds => { p with ds := s }
  | .es => { p with es := s }
  | .fs => { p with fs := s }
  | .gs => { p with gs := s }

/-- `mov` to a data segment register, of a selector that is not null. -/
def movData (register : DataRegister) (selector : UInt16) : Code Unit := do
  let entry ← selected selector
  let p ← get
  if ¬ entry.2.Serves p.cpl selector then throw .generalProtection
  else if ¬ entry.2.present then throw .notPresent
  else modify fun p => (p.marked entry.1).setData (entry.2.segment selector) register

/-- `mov ss` -/
def movStack (selector : UInt16) : Code Unit := do
  let entry ← selected selector
  let p ← get
  if ¬ entry.2.Stacks p.cpl selector then throw .generalProtection
  else if ¬ entry.2.present then throw .stackFault
  else modify fun p => { p.marked entry.1 with ss := entry.2.segment selector }

/-- The stack pointer behind a push of four bytes. -/
def Processor.below (p : Processor) : UInt32 :=
  if p.ss.wide then p.esp - 4 else (p.esp &&& 0xffff0000) ||| ((p.esp - 4) &&& 0xffff)

/-- The offset that a stack pointer means. -/
def Segment.stackOffset (s : Segment) (esp : UInt32) : UInt32 := if s.wide then esp else esp &&& 0xffff

/-- A push of four bytes; the segment does not expand down. -/
def push (v : UInt32) : Code Unit := do
  let p ← get
  let offset := p.ss.stackOffset p.below
  if p.ss.limit.toNat < offset.toNat + 3 then throw .stackFault
  else modify fun p => { p with esp := p.below, memory := put p.memory (p.ss.base + offset) v }

/-- A far call of a 32-bit segment. -/
def farCall (selector : UInt16) (offset back : UInt32) : Code Unit := do
  let entry ← codeSegment selector offset
  push (← get).cs.selector.toUInt32
  push back
  modify fun p => p.enter entry selector offset

def call (offset back : UInt32) : Code Unit := do
  if (← get).cs.limit < offset then throw .generalProtection
  else
    push back
    modify fun p => { p with eip := offset }

/-- The four bytes at an offset from the stack pointer. -/
def stackDword (offset : UInt32) : Code UInt32 := do
  let p ← get
  if p.ss.limit.toNat < (p.esp + offset).toNat + 3 then throw .stackFault
  else pure (dwordAt p.memory (p.ss.base + (p.esp + offset)))

/-- The stack pointer behind a pop of four bytes. -/
def Processor.above (p : Processor) : UInt32 :=
  if p.ss.wide then p.esp + 4 else (p.esp &&& 0xffff0000) ||| ((p.esp + 4) &&& 0xffff)

/-- A return to the same segment. -/
def ret : Code Unit := do
  let p ← get
  let offset := p.ss.stackOffset p.esp
  if p.ss.limit.toNat < offset.toNat + 3 then throw .stackFault
  else if p.cs.limit < dwordAt p.memory (p.ss.base + offset) then throw .generalProtection
  else modify fun p => { p with esp := p.above, eip := dwordAt p.memory (p.ss.base + offset) }

variable {p : Processor} {place v offset : UInt32}

/-- A selector names the entry `d` at `place`. -/
structure Processor.Selects (p : Processor) (selector : UInt16) (place : UInt32) (d : Descriptor) : Prop where
  some_ : selector &&& 0xfff8 ≠ 0
  table : selector &&& 4 = 0
  within : (selector &&& 0xfff8) + 7 ≤ p.gdtLimit
  at_ : p.gdtBase + (selector &&& 0xfff8).toUInt32 = place
  here : descriptor (dwordAt p.memory place) (dwordAt p.memory (place + 4)) = d

theorem selected_entry (selects : p.Selects selector place d) : selected selector p = .ok (place, d) p := by
  obtain ⟨some_, table, within, rfl, rfl⟩ := selects
  have passes : ¬ (selector &&& 0xfff8 = 0 ∨ selector &&& 4 ≠ 0 ∨ p.gdtLimit < (selector &&& 0xfff8) + 7) := by
    rintro (null | local_ | beyond)
    · exact some_ null
    · exact local_ table
    · exact absurd within (UInt16.not_le.mpr beyond)
  unfold selected
  rw [get_bind]
  dsimp only
  rw [if_neg passes]
  rfl

theorem movData_loads (selects : p.Selects selector place d) (serves : d.Serves p.cpl selector) (present : d.present)
    (register : DataRegister) :
    movData register selector p = .ok () ((p.marked place).setData (d.segment selector) register) := by
  unfold movData
  rw [bind_of_ok (selected_entry selects), get_bind]
  dsimp only
  rw [if_neg (not_not.mpr serves), if_neg (not_not.mpr present)]
  rfl

end Segmentation
