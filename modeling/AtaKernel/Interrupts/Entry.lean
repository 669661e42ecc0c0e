import AtaKernel.Interrupts.Processor

/-! From an interrupt to `itr_interrupt_handler` and back: the 256 entry points and
the common part of `interrupts.asm`. The C handler is a parameter that keeps the
calling convention. What the interrupted code had in the registers is there again
behind `iretd`, in either shape of the frame and with or without an error code. -/
namespace AtaKernel.Interrupts
open ByteMemory DwordStack

/-- `itr_cpu_regs_t` -/
structure ItrCpuRegs where
  edi : UInt32
  esi : UInt32
  ebp : UInt32
  esp : UInt32
  ebx : UInt32
  edx : UInt32
  ecx : UInt32
  eax : UInt32

/-- `itr_intr_data_t` -/
structure ItrIntrData where
  irq : UInt32
  err : UInt32

/-- `itr_stack_state_t` -/
structure ItrStackState where
  eip : UInt32
  cs : UInt32
  eflags : UInt32

/-! ## The code -/

/-- `itr_handler_0` to `itr_handler_255`, up to the jump. -/
def itrHandler (irq : UInt8) (c : Cpu) : Cpu :=
  if irq = 8 ∨ irq = 10 ∨ irq = 11 ∨ irq = 12 ∨ irq = 13 ∨ irq = 14 ∨ irq = 17 then c.push irq.toUInt32
  else (c.push 0).push irq.toUInt32

/-- `itr_common_part`, with the call. -/
def itrCommonCall (back : UInt32) (c : Cpu) : Cpu :=
  let c := c.pushad
  let ax := c.ss
  ((c.movAx ax).setDataSegments ax).push back

/-- `itr_common_part`, behind the call. The flags that `cmp` and `add` leave are not those that `iretd` loads. -/
def itrCommonReturn (dpl : UInt16 → UInt16) (c : Cpu) : Cpu :=
  let ax := c.cs
  let bx := c.word 44
  let c := (c.movAx ax).movBx bx
  let c := if ax = bx then c else (c.movBx (c.word 56)).setDataSegments (c.word 56)
  (c.popad.addEsp 8).iretd dpl

/-- The state at the first instruction of `itr_interrupt_handler`. -/
def itrEntered (p : Platform) (i : Arrival) (c : Cpu) : Cpu := itrCommonCall p.back (itrHandler i.irq (c.deliver p i))

/-- The state in which the interrupted code goes on. -/
def itrResumed (p : Platform) (dpl : UInt16 → UInt16) (handler : Cpu → Cpu) (i : Arrival) (c : Cpu) : Cpu :=
  itrCommonReturn dpl (handler (itrEntered p i c))

/-- The three arguments, behind the address to return to. -/
def itrArguments (c : Cpu) : ItrCpuRegs × ItrIntrData × ItrStackState :=
  (⟨c.dword 4, c.dword 8, c.dword 12, c.dword 16, c.dword 20, c.dword 24, c.dword 28, c.dword 32⟩,
    ⟨c.dword 36, c.dword 40⟩, ⟨c.dword 44, c.dword 48, c.dword 52⟩)

/-! ## What is assumed -/

/-- Interrupted code: each ring has one code selector, and the data segments are that of the stack, whose
privilege level is the current one. -/
structure Interruptible (dpl : UInt16 → UInt16) (c : Cpu) : Prop where
  code : ¬ c.Switches → c.cs = gdtKernelCodeSegment
  data : c.ds = c.ss ∧ c.es = c.ss ∧ c.fs = c.ss ∧ c.gs = c.ss
  level : dpl c.ss = ringOf c.cs

/-- The bytes of the arguments, and of the stack pointer behind them where the processor has pushed one. -/
def frameSize (c : Cpu) : Nat := if c.Switches then 60 else 52

/-- The calling convention, from a state with the return address on the stack: the function returns, keeps
EBX, ESI, EDI, EBP and the segments, and leaves the `size` bytes of its caller's frame as they are. -/
structure Cdecl (handler : Cpu → Cpu) (c : Cpu) (size : Nat) : Prop where
  esp : (handler c).esp = c.esp + 4
  ebx : (handler c).ebx = c.ebx
  esi : (handler c).esi = c.esi
  edi : (handler c).edi = c.edi
  ebp : (handler c).ebp = c.ebp
  cs : (handler c).cs = c.cs
  ss : (handler c).ss = c.ss
  data : (handler c).ds = c.ds ∧ (handler c).es = c.es ∧ (handler c).fs = c.fs ∧ (handler c).gs = c.gs
  frame : ∀ i < size, (handler c).memory (cell ((c.esp + 4).toNat + i)) = c.memory (cell ((c.esp + 4).toNat + i))

variable {c d : Cpu} {p : Platform} {i : Arrival} {dpl : UInt16 → UInt16} {handler : Cpu → Cpu} {ws : List UInt32}
  {back : UInt32} {irq : UInt8}

/-! ## The way in -/

/-- The words that the processor pushes under the error code, the last one first. -/
def processorFrame (i : Arrival) (c : Cpu) : List UInt32 :=
  [c.eip, wide i.csHigh c.cs, c.eflags] ++ if c.Switches then [c.esp, wide i.ssHigh c.ss] else []

/-- What the C handler gets for the error code. -/
def errorOf (i : Arrival) : UInt32 := if PushesError i.irq then i.err else 0

/-- The entry points without a pushed zero are those of the vectors with an error code. -/
theorem pushesError_iff : PushesError irq ↔
    irq = 8 ∨ irq = 10 ∨ irq = 11 ∨ irq = 12 ∨ irq = 13 ∨ irq = 14 ∨ irq = 17 := by
  unfold PushesError
  simp only [← UInt8.toNat_inj, UInt8.le_iff_toNat_le, UInt8.reduceToNat]
  omega

/-- The words `ws` lie on the stack, on top of what the interrupted code has there if it is the same stack. -/
structure Framed (c d : Cpu) (ws : List UInt32) : Prop where
  stack : d.Stack ws
  ss : ¬ c.Switches → d.ss = c.ss
  esp : ¬ c.Switches → d.esp + 4 * UInt32.ofNat ws.length = c.esp

theorem Framed.push {v : UInt32} (framed : Framed c d ws) (room : ws.length < 64) : Framed c (d.push v) (v :: ws) where
  stack := framed.stack.push (by omega)
  ss := framed.ss
  esp same := by
    rw [← framed.esp same, List.length_cons, UInt32.ofNat_add, UInt32.mul_add]
    change d.esp - 4 + (4 * UInt32.ofNat ws.length + 4) = d.esp + 4 * UInt32.ofNat ws.length
    rw [UInt32.add_comm (4 * UInt32.ofNat ws.length), ← UInt32.add_assoc, UInt32.sub_add_cancel]

theorem Framed.pushes (framed : Framed c d ws) (vs : List UInt32) (room : vs.length + ws.length ≤ 64) :
    Framed c (vs.foldl Cpu.push d) (vs.reverse ++ ws) := by
  induction vs generalizing d ws with
  | nil => exact framed
  | cons v vs ih =>
    rw [List.length_cons] at room
    have rest := ih (framed.push (v := v) (by omega)) (by rw [List.length_cons]; omega)
    rwa [List.reverse_cons, List.append_assoc]

theorem Framed.congr {d' : Cpu} (framed : Framed c d ws) (memory : d'.memory = d.memory) (esp : d'.esp = d.esp)
    (ss : d'.ss = d.ss) : Framed c d' ws where
  stack := by
    unfold Cpu.Stack
    rw [memory, esp]
    exact framed.stack
  ss same := ss.trans (framed.ss same)
  esp same := esp ▸ framed.esp same

/-- The data segments are loaded through AX. -/
theorem Framed.loaded {ax v : UInt16} (framed : Framed c d ws) : Framed c ((d.movAx ax).setDataSegments v) ws :=
  framed.congr rfl rfl rfl

/-- The general registers but ESP. -/
structure SameRegs (c d : Cpu) : Prop where
  eax : d.eax = c.eax
  ecx : d.ecx = c.ecx
  edx : d.edx = c.edx
  ebx : d.ebx = c.ebx
  ebp : d.ebp = c.ebp
  esi : d.esi = c.esi
  edi : d.edi = c.edi

theorem processorFrame_length : (processorFrame i c).length ≤ 5 := by
  unfold processorFrame
  split <;> simp

theorem deliver_frame (p : Platform) (i : Arrival) (c : Cpu) :
    Framed c (c.deliver p i) ((if PushesError i.irq then [i.err] else []) ++ processorFrame i c) ∧
      SameRegs c (c.deliver p i) := by
  have start : ∃ d : Cpu, Framed c d (if c.Switches then [c.esp, wide i.ssHigh c.ss] else []) ∧ SameRegs c d ∧
      d = if c.Switches then ({ c with ss := p.ss0, esp := p.esp0 }.push (wide i.ssHigh c.ss)).push c.esp else c := by
    by_cases switches : c.Switches
    · have inner : Framed c { c with ss := p.ss0, esp := p.esp0 } [] :=
          ⟨trivial, (absurd switches ·), (absurd switches ·)⟩
      rw [if_pos switches, if_pos switches]
      exact ⟨_, inner.pushes [wide i.ssHigh c.ss, c.esp] (by simp), ⟨rfl, rfl, rfl, rfl, rfl, rfl, rfl⟩, rfl⟩
    · rw [if_neg switches, if_neg switches]
      exact ⟨c, ⟨trivial, fun _ => rfl, fun _ => UInt32.add_zero _⟩, ⟨rfl, rfl, rfl, rfl, rfl, rfl, rfl⟩, rfl⟩
  obtain ⟨d, framed, regs, same⟩ := start
  have few := @processorFrame_length c i
  have framed' : Framed c (((d.push c.eflags).push (wide i.csHigh c.cs)).push c.eip) (processorFrame i c) :=
    framed.pushes [c.eflags, wide i.csHigh c.cs, c.eip] (by split <;> simp)
  unfold Cpu.deliver
  dsimp only
  rw [← same]
  split
  · exact ⟨(framed'.push (by omega)).congr rfl rfl rfl, regs.eax, regs.ecx, regs.edx, regs.ebx, regs.ebp, regs.esi,
      regs.edi⟩
  · exact ⟨framed'.congr rfl rfl rfl, regs.eax, regs.ecx, regs.edx, regs.ebx, regs.ebp, regs.esi, regs.edi⟩

/-- Both shapes of the frame and both kinds of entry points leave one layout behind. -/
theorem handler_frame (p : Platform) (i : Arrival) (c : Cpu) :
    Framed c (itrHandler i.irq (c.deliver p i)) (i.irq.toUInt32 :: errorOf i :: processorFrame i c) ∧
      SameRegs c (itrHandler i.irq (c.deliver p i)) := by
  obtain ⟨framed, regs⟩ := deliver_frame p i c
  have few := @processorFrame_length c i
  have same : SameRegs c (itrHandler i.irq (c.deliver p i)) := by
    unfold itrHandler
    split
    · exact ⟨regs.eax, regs.ecx, regs.edx, regs.ebx, regs.ebp, regs.esi, regs.edi⟩
    · exact ⟨regs.eax, regs.ecx, regs.edx, regs.ebx, regs.ebp, regs.esi, regs.edi⟩
  refine ⟨?_, same⟩
  unfold itrHandler errorOf
  by_cases pushes : PushesError i.irq
  · rw [if_pos pushes] at framed ⊢
    rw [if_pos (pushesError_iff.mp pushes)]
    exact framed.push (by rw [List.length_append, List.length_singleton]; omega)
  · rw [if_neg pushes] at framed ⊢
    rw [if_neg fun kind => pushes (pushesError_iff.mpr kind)]
    exact framed.pushes [0, i.irq.toUInt32] (by simp; omega)

/-- What lies on the stack at the call, behind the address to return to. -/
def argumentWords (esp : UInt32) (i : Arrival) (c : Cpu) : List UInt32 :=
  [c.edi, c.esi, c.ebp, esp, c.ebx, c.edx, c.ecx, c.eax, i.irq.toUInt32, errorOf i] ++ processorFrame i c

theorem pushad_eq : d.pushad = [d.eax, d.ecx, d.edx, d.ebx, d.esp, d.ebp, d.esi, d.edi].foldl Cpu.push d := rfl

theorem entered_frame (p : Platform) (i : Arrival) (c : Cpu) : ∃ esp,
    Framed c (itrEntered p i c) (p.back :: argumentWords esp i c) := by
  obtain ⟨framed, regs⟩ := handler_frame p i c
  have few := @processorFrame_length c i
  unfold itrEntered itrCommonCall
  generalize itrHandler i.irq (c.deliver p i) = d at framed regs
  have pushed : Framed c d.pushad (argumentWords d.esp i c) := by
    have all := framed.pushes [d.eax, d.ecx, d.edx, d.ebx, d.esp, d.ebp, d.esi, d.edi] (by simp; omega)
    rw [regs.eax, regs.ecx, regs.edx, regs.ebx, regs.ebp, regs.esi, regs.edi] at all
    rw [pushad_eq, regs.eax, regs.ecx, regs.edx, regs.ebx, regs.ebp, regs.esi, regs.edi]
    exact all
  refine ⟨d.esp, pushed.loaded.push ?_⟩
  unfold argumentWords
  simp
  omega

/-! ## The way back -/

/-- The registers behind the call, for code that was interrupted on the same stack. -/
structure SameRing (c d : Cpu) : Prop where
  esp : d.esp + 52 = c.esp
  ss : d.ss = c.ss
  data : d.ds = c.ss ∧ d.es = c.ss ∧ d.fs = c.ss ∧ d.gs = c.ss

theorem returned_frame {esp : UInt32} (framed : Framed c d (back :: argumentWords esp i c))
    (cdecl : Cdecl handler d (frameSize c)) : (handler d).Stack (argumentWords esp i c) := by
  have size : 4 * (argumentWords esp i c).length = frameSize c := by
    unfold argumentWords processorFrame frameSize
    split <;> rfl
  have row : Row d.memory (d.esp + 4) (argumentWords esp i c) := framed.stack.2
  unfold Cpu.Stack
  rw [cdecl.esp]
  refine row.congr fun k low => cdecl.frame k ?_
  rwa [← size]

theorem sameRing_of_cdecl {esp : UInt32} (framed : Framed c d (back :: argumentWords esp i c))
    (cdecl : Cdecl handler d (frameSize c)) (data : d.ds = d.ss ∧ d.es = d.ss ∧ d.fs = d.ss ∧ d.gs = d.ss)
    (same : ¬ c.Switches) : SameRing c (handler d) where
  esp := by
    have length : (back :: argumentWords esp i c).length = 14 := by
      unfold argumentWords processorFrame
      rw [if_neg same]
      rfl
    rw [← framed.esp same, length, cdecl.esp, UInt32.add_assoc]
    rfl
  ss := cdecl.ss.trans (framed.ss same)
  data := by
    rw [cdecl.data.1, cdecl.data.2.1, cdecl.data.2.2.1, cdecl.data.2.2.2, ← framed.ss same]
    exact data

/-- The general registers are what they were, behind `popad`. -/
theorem popad_restores {esp : UInt32} (stack : d.Stack (argumentWords esp i c)) : SameRegs c d.popad where
  eax := stack.at (i := 7) rfl rfl
  ecx := stack.at (i := 6) rfl rfl
  edx := stack.at (i := 5) rfl rfl
  ebx := stack.at (i := 4) rfl rfl
  ebp := stack.at (i := 2) rfl rfl
  esi := stack.at (i := 1) rfl rfl
  edi := stack.at (i := 0) rfl rfl

theorem dword_skip {d' : Cpu} {offset skip total : UInt32} (memory : d'.memory = d.memory) (esp : d'.esp = d.esp + skip)
    (sum : skip + offset = total) : d'.dword offset = d.dword total := by
  unfold Cpu.dword
  rw [memory, esp, UInt32.add_assoc, sum]

/-- The stack pointer that the processor has pushed. -/
theorem outer_words {esp : UInt32} (stack : d.Stack (argumentWords esp i c)) (switches : c.Switches) :
    d.dword 52 = c.esp ∧ d.dword 56 = wide i.ssHigh c.ss := by
  have both : argumentWords esp i c = [c.edi, c.esi, c.ebp, esp, c.ebx, c.edx, c.ecx, c.eax, i.irq.toUInt32, errorOf i,
      c.eip, wide i.csHigh c.cs, c.eflags, c.esp, wide i.ssHigh c.ss] := by
    unfold argumentWords processorFrame
    rw [if_pos switches]
    rfl
  rw [both] at stack
  exact ⟨stack.at (i := 13) rfl rfl, stack.at (i := 14) rfl rfl⟩

/-- What `iretd` finds behind the forty bytes of the code. -/
theorem frame_words {esp : UInt32} (stack : d.Stack (argumentWords esp i c)) {d' : Cpu} (memory : d'.memory = d.memory)
    (place : d'.esp = d.esp + 40) :
    d'.dword 0 = c.eip ∧ (d'.dword 4).toUInt16 = c.cs ∧ d'.dword 8 = c.eflags ∧
      (c.Switches → d'.dword 12 = c.esp ∧ (d'.dword 16).toUInt16 = c.ss) := by
  have skip {offset total : UInt32} (sum : 40 + offset = total) : d'.dword offset = d.dword total :=
    dword_skip memory place sum
  have eip : d.dword 40 = c.eip := stack.at (i := 10) rfl rfl
  have cs : d.dword 44 = wide i.csHigh c.cs := stack.at (i := 11) rfl rfl
  have eflags : d.dword 48 = c.eflags := stack.at (i := 12) rfl rfl
  refine ⟨?_, ?_, ?_, fun switches => ?_⟩
  · rw [@skip _ 40 (by decide), eip]
  · rw [@skip _ 44 (by decide), cs, toUInt16_wide]
  · rw [@skip _ 48 (by decide), eflags]
  · obtain ⟨top, ss⟩ := outer_words stack switches
    rw [@skip _ 52 (by decide), @skip _ 56 (by decide), top, ss, toUInt16_wide]
    exact ⟨rfl, rfl⟩

theorem past_frame : (d.popad.addEsp 8).esp = d.esp + 40 := UInt32.add_assoc _ _ _

theorem return_same {esp : UInt32} (stack : d.Stack (argumentWords esp i c)) (same : ¬ c.Switches)
    (ready : Interruptible dpl c) (cs : d.cs = gdtKernelCodeSegment) (ring : SameRing c d) :
    (d.popad.addEsp 8).iretd dpl = { c with memory := d.memory } := by
  obtain ⟨top, ss, ds, es, fs, gs⟩ := ring
  obtain ⟨cds, ces, cfs, cgs⟩ := ready.data
  have regs := popad_restores stack
  obtain ⟨eip, code, eflags, -⟩ := @frame_words c d i esp stack (d.popad.addEsp 8) rfl past_frame
  have kernel : (d.popad.addEsp 8).cs = c.cs := cs.trans (ready.code same).symm
  have stop : (d.popad.addEsp 8).esp + 12 = c.esp := by
    rw [past_frame, UInt32.add_assoc]
    exact top
  unfold Cpu.iretd
  dsimp only
  rw [code, kernel, if_pos rfl, eip, eflags, stop]
  exact Cpu.ext regs.eax regs.ecx regs.edx regs.ebx rfl regs.ebp regs.esi regs.edi rfl rfl rfl ss (ds.trans cds.symm)
    (es.trans ces.symm) (fs.trans cfs.symm) (gs.trans cgs.symm) rfl

/-- The segments of the outer ring, which `iretd` leaves in the registers. -/
theorem return_outer {esp : UInt32} (stack : d.Stack (argumentWords esp i c)) (switches : c.Switches)
    (ready : Interruptible dpl c) (cs : d.cs = gdtKernelCodeSegment)
    (data : d.ds = c.ss ∧ d.es = c.ss ∧ d.fs = c.ss ∧ d.gs = c.ss) :
    (d.popad.addEsp 8).iretd dpl = { c with memory := d.memory } := by
  obtain ⟨ds, es, fs, gs⟩ := data
  obtain ⟨cds, ces, cfs, cgs⟩ := ready.data
  have regs := popad_restores stack
  obtain ⟨eip, code, eflags, outer⟩ := @frame_words c d i esp stack (d.popad.addEsp 8) rfl past_frame
  obtain ⟨top, ss⟩ := outer switches
  have kernel : (d.popad.addEsp 8).cs = gdtKernelCodeSegment := cs
  have usable {selector : UInt16} (same : selector = c.ss) :
      (if dpl selector < ringOf c.cs then 0 else selector) = c.ss := by
    rw [same, ready.level, if_neg (UInt16.lt_irrefl _)]
  unfold Cpu.iretd
  dsimp only
  rw [code, kernel, if_neg switches, eip, eflags, top, ss]
  exact Cpu.ext regs.eax regs.ecx regs.edx regs.ebx rfl regs.ebp regs.esi regs.edi rfl rfl rfl rfl
    ((usable ds).trans cds.symm) ((usable es).trans ces.symm) ((usable fs).trans cfs.symm)
    ((usable gs).trans cgs.symm) rfl

theorem word_of_dword {offset : UInt32} {high selector : UInt16} (pushed : d.dword offset = wide high selector) :
    d.word offset = selector := by
  rw [Cpu.word, wordAt_eq]
  exact (congrArg UInt32.toUInt16 pushed).trans (toUInt16_wide _ _)

theorem common_return {esp : UInt32} (stack : d.Stack (argumentWords esp i c)) (ready : Interruptible dpl c)
    (cs : d.cs = gdtKernelCodeSegment) (same : ¬ c.Switches → SameRing c d) :
    itrCommonReturn dpl d = { c with memory := d.memory } := by
  have code : d.word 44 = c.cs := word_of_dword (stack.at (i := 11) rfl rfl)
  have moved : ((d.movAx gdtKernelCodeSegment).movBx c.cs).word 56 = d.word 56 := rfl
  unfold itrCommonReturn
  dsimp only
  rw [code, cs, moved]
  by_cases switches : c.Switches
  · have differ : gdtKernelCodeSegment ≠ c.cs := fun equal => switches (congrArg ringOf equal.symm)
    rw [if_neg differ, word_of_dword (outer_words stack switches).2]
    exact return_outer stack switches ready cs ⟨rfl, rfl, rfl, rfl⟩
  · obtain ⟨top, ss, data⟩ := same switches
    rw [if_pos (ready.code switches).symm]
    exact return_same stack switches ready cs ⟨top, ss, data⟩

/-! ## There and back -/

theorem arguments_of_stack {esp : UInt32} (stack : d.Stack (back :: argumentWords esp i c)) :
    itrArguments d = (⟨c.edi, c.esi, c.ebp, esp, c.ebx, c.edx, c.ecx, c.eax⟩,
      ⟨i.irq.toUInt32, errorOf i⟩, ⟨c.eip, wide i.csHigh c.cs, c.eflags⟩) := by
  have edi : d.dword 4 = c.edi := stack.at (i := 1) rfl rfl
  have esi : d.dword 8 = c.esi := stack.at (i := 2) rfl rfl
  have ebp : d.dword 12 = c.ebp := stack.at (i := 3) rfl rfl
  have above : d.dword 16 = esp := stack.at (i := 4) rfl rfl
  have ebx : d.dword 20 = c.ebx := stack.at (i := 5) rfl rfl
  have edx : d.dword 24 = c.edx := stack.at (i := 6) rfl rfl
  have ecx : d.dword 28 = c.ecx := stack.at (i := 7) rfl rfl
  have eax : d.dword 32 = c.eax := stack.at (i := 8) rfl rfl
  have irq : d.dword 36 = i.irq.toUInt32 := stack.at (i := 9) rfl rfl
  have err : d.dword 40 = errorOf i := stack.at (i := 10) rfl rfl
  have eip : d.dword 44 = c.eip := stack.at (i := 11) rfl rfl
  have cs : d.dword 48 = wide i.csHigh c.cs := stack.at (i := 12) rfl rfl
  have eflags : d.dword 52 = c.eflags := stack.at (i := 13) rfl rfl
  rw [itrArguments, edi, esi, ebp, above, ebx, edx, ecx, eax, irq, err, eip, cs, eflags]

/-- The C handler runs in the code segment of the kernel, with the data segments of the stack. -/
theorem entered_segments (p : Platform) (i : Arrival) (c : Cpu) : (itrEntered p i c).cs = gdtKernelCodeSegment ∧
    (itrEntered p i c).ds = (itrEntered p i c).ss ∧ (itrEntered p i c).es = (itrEntered p i c).ss ∧
      (itrEntered p i c).fs = (itrEntered p i c).ss ∧ (itrEntered p i c).gs = (itrEntered p i c).ss := by
  have stub {d : Cpu} : (itrHandler i.irq d).pushad.cs = d.cs := by
    unfold itrHandler
    split <;> simp
  have call (d : Cpu) (v : UInt32) {e : Cpu} (same : e = ((d.movAx d.ss).setDataSegments d.ss).push v) :
      e.cs = d.cs ∧ e.ds = e.ss ∧ e.es = e.ss ∧ e.fs = e.ss ∧ e.gs = e.ss := by
    subst same
    exact ⟨rfl, rfl, rfl, rfl, rfl⟩
  obtain ⟨cs, data⟩ := call (itrHandler i.irq (c.deliver p i)).pushad p.back (e := itrEntered p i c) rfl
  exact ⟨cs.trans (stub.trans rfl), data⟩

/-- Every interrupt passes the registers of the interrupted code to `itr_interrupt_handler`, with the vector and
the error code, and the code goes on with the registers it had. -/
theorem interrupts_transparent (p : Platform) (i : Arrival) (ready : Interruptible dpl c)
    (cdecl : Cdecl handler (itrEntered p i c) (frameSize c)) :
    (∃ esp, itrArguments (itrEntered p i c) = (⟨c.edi, c.esi, c.ebp, esp, c.ebx, c.edx, c.ecx, c.eax⟩,
      ⟨i.irq.toUInt32, errorOf i⟩, ⟨c.eip, wide i.csHigh c.cs, c.eflags⟩)) ∧
    itrResumed p dpl handler i c = { c with memory := (handler (itrEntered p i c)).memory } := by
  obtain ⟨esp, framed⟩ := entered_frame p i c
  obtain ⟨cs, data⟩ := entered_segments p i c
  refine ⟨⟨esp, arguments_of_stack framed.stack⟩, ?_⟩
  unfold itrResumed
  generalize itrEntered p i c = d at framed cs data cdecl
  exact common_return (returned_frame framed cdecl) ready (cdecl.cs.trans cs) (sameRing_of_cdecl framed cdecl data)

/-- A page fault in code of ring 3, with a handler that changes EAX and returns. -/
theorem interrupts_transparent_pageFault :
    let c : Cpu := ⟨1, 2, 3, 4, 0xbffff000, 5, 6, 7, 0x8048000, 0x202, 0x1b, 0x23, 0x23, 0x23, 0x23, 0x23, fun _ => 0⟩
    let p : Platform := ⟨fun _ => 0x1400, 0x2000, 0x10, 0x9000⟩
    let handler (c : Cpu) : Cpu := { c with esp := c.esp + 4, eax := 0 }
    (∃ esp, itrArguments (itrEntered p ⟨14, 6, 0, 0⟩ c) =
      (⟨7, 6, 5, esp, 4, 3, 2, 1⟩, ⟨14, 6⟩, ⟨0x8048000, 0x1b, 0x202⟩)) ∧
      itrResumed p ringOf handler ⟨14, 6, 0, 0⟩ c = { c with memory := (itrEntered p ⟨14, 6, 0, 0⟩ c).memory } := by
  intro c p handler
  have ready : Interruptible ringOf c := ⟨fun same => absurd (by decide) same, ⟨rfl, rfl, rfl, rfl⟩, by decide⟩
  have cdecl (d : Cpu) (size : Nat) : Cdecl handler d size :=
    ⟨rfl, rfl, rfl, rfl, rfl, rfl, rfl, ⟨rfl, rfl, rfl, rfl⟩, fun _ _ => rfl⟩
  have err : errorOf ⟨14, 6, 0, 0⟩ = 6 := by decide
  have cs : wide 0 0x1b = 0x1b := by decide
  obtain ⟨⟨esp, arguments⟩, resumed⟩ := interrupts_transparent p ⟨14, 6, 0, 0⟩ ready (cdecl _ _)
  rw [err] at arguments
  dsimp only at arguments
  rw [cs] at arguments
  exact ⟨⟨esp, arguments⟩, resumed⟩

end AtaKernel.Interrupts
