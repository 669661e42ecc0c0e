import AtaKernel.Drivers.Machine

/-! The two interrupt controllers, 8259A, and the driver pic.c. A controller takes its
initialization words one after the other, and then masks, in what is written to its two
ports. Between an interrupt and its end-of-interrupt command it holds back what has no
higher priority. -/
namespace AtaKernel.Interrupts

/-! ## The controllers -/

/-- The word that a controller takes next at its data port. -/
inductive PicStage
  | icw2
  | icw3
  | icw4
  | ready
  deriving DecidableEq

structure Pic where
  stage : PicStage
  /-- Of the first word: that a fourth word comes, and that the third does not. -/
  needsIcw4 : Bool
  single : Bool
  base : UInt8
  cascade : UInt8
  mode : UInt8
  mask : UInt8
  requests : Fin 8 → Bool
  service : Fin 8 → Bool

structure Pics where
  master : Pic
  slave : Pic

def bitOf (v : UInt8) (i : Fin 8) : Bool := v.toNat.testBit i

/-- The line in service that has the highest priority. -/
def Pic.inService (c : Pic) : Option (Fin 8) := (List.finRange 8).find? (c.service ·)

/-- A write to the command port: the first initialization word, or an end of interrupt that names no line. Nothing else
is sent to it. -/
def Pic.command (c : Pic) (v : UInt8) : Pic :=
  if v &&& 0x10 ≠ 0 then
    { c with
      stage := .icw2
      needsIcw4 := v &&& 1 ≠ 0
      single := v &&& 2 ≠ 0
      mode := 0
      mask := 0
      requests := fun _ => false
      service := fun _ => false }
  else if v = 0x20 then
    match c.inService with
    | some i => { c with service := Function.update c.service i false }
    | none => c
  else c

/-- A write to the data port. -/
def Pic.data (c : Pic) (v : UInt8) : Pic :=
  match c.stage with
  | .icw2 => { c with
      base := v &&& 0xf8
      stage := if ¬ c.single then .icw3 else if c.needsIcw4 then .icw4 else .ready }
  | .icw3 => { c with cascade := v, stage := if c.needsIcw4 then .icw4 else .ready }
  | .icw4 => { c with mode := v, stage := .ready }
  | .ready => { c with mask := v }

def Pics.outb (p : Pics) (port : UInt16) (v : UInt8) : Pics :=
  if port = 0x20 then { p with master := p.master.command v }
  else if port = 0x21 then { p with master := p.master.data v }
  else if port = 0xa0 then { p with slave := p.slave.command v }
  else if port = 0xa1 then { p with slave := p.slave.data v }
  else p

/-- The data ports give the masks. -/
def Pics.inb (p : Pics) (port : UInt16) : UInt8 := if port = 0x21 then p.master.mask else p.slave.mask

/-! ## The driver -/

def picMasterCmdPort : UInt16 := 0x20
def picMasterDataPort : UInt16 := 0x21
def picSlaveCmdPort : UInt16 := 0xa0
def picSlaveDataPort : UInt16 := 0xa1
def picEoi : UInt8 := 0x20
def picIcw1Init : UInt8 := 0x10
def picIcw1Icw4 : UInt8 := 0x01
def picIcw48086 : UInt8 := 0x01
def picMasterBaseIrq : UInt8 := 0x20
def picSlaveBaseIrq : UInt8 := 0x28

def picRemap (p : Pics) : Pics :=
  let masterMask := p.inb picMasterDataPort
  let slaveMask := p.inb picSlaveDataPort
  let p := p.outb picMasterCmdPort (picIcw1Init ||| picIcw1Icw4)
  let p := p.outb picSlaveCmdPort (picIcw1Init ||| picIcw1Icw4)
  let p := p.outb picMasterDataPort picMasterBaseIrq
  let p := p.outb picSlaveDataPort picSlaveBaseIrq
  let p := p.outb picMasterDataPort 0x04
  let p := p.outb picSlaveDataPort 0x02
  let p := p.outb picMasterDataPort picIcw48086
  let p := p.outb picSlaveDataPort picIcw48086
  let p := p.outb picMasterDataPort masterMask
  p.outb picSlaveDataPort slaveMask

/-- `1 << (dev - base)`, cut to a byte. -/
def picBit (dev : UInt32) (base : UInt8) : UInt8 := UInt8.ofNat (2 ^ (dev.toNat - base.toNat))

/-- The two drivers of the masks differ in what they make of a mask and the bit of the device. -/
def picChangeMask (change : UInt8 → UInt8 → UInt8) (dev : UInt32) (p : Pics) : Pics :=
  if picMasterBaseIrq.toUInt32 ≤ dev ∧ dev ≤ picMasterBaseIrq.toUInt32 + 7 then
    p.outb picMasterDataPort (change (p.inb picMasterDataPort) (picBit dev picMasterBaseIrq))
  else if picSlaveBaseIrq.toUInt32 ≤ dev ∧ dev ≤ picSlaveBaseIrq.toUInt32 + 7 then
    p.outb picSlaveDataPort (change (p.inb picSlaveDataPort) (picBit dev picSlaveBaseIrq))
  else p

def picMaskDev (dev : UInt32) (p : Pics) : Pics := picChangeMask (fun mask bit => mask ||| bit) dev p

def picUnmaskDev (dev : UInt32) (p : Pics) : Pics := picChangeMask (fun mask bit => mask &&& ~~~bit) dev p

/-- What `pic_init` masks: all but the line of the second controller. -/
def picInitDevs : List UInt32 :=
  [0x20, 0x21, 0x23, 0x24, 0x25, 0x26, 0x27, 0x28, 0x29, 0x2a, 0x2b, 0x2c, 0x2d, 0x2e, 0x2f]

def picInit (p : Pics) : Pics := picInitDevs.foldl (fun p dev => picMaskDev dev p) (picRemap p)

def picSendEoi (irq : UInt8) (p : Pics) : Pics :=
  if picMasterBaseIrq ≤ irq ∧ irq ≤ picMasterBaseIrq + 7 then p.outb picMasterCmdPort picEoi
  else if picSlaveBaseIrq ≤ irq ∧ irq ≤ picSlaveBaseIrq + 7 then
    (p.outb picSlaveCmdPort picEoi).outb picMasterCmdPort picEoi
  else p

/-- What the handlers of the drivers have written to the controllers, the latest first. -/
def replay (p : Pics) (outputs : List Drivers.Output) : Pics :=
  outputs.foldr (fun output p => match output with
    | .outb port v => p.outb port v
    | .generic _ => p) p

/-- The end-of-interrupt commands that the handlers' model records are those of the driver. -/
theorem replay_eoi (m : Drivers.Machine) (irq : UInt8) (p : Pics) :
    ∃ new, (m.picSendEoi irq).output = new ++ m.output ∧ replay p new = picSendEoi irq p := by
  unfold Drivers.Machine.picSendEoi picSendEoi
  by_cases master : 0x20 ≤ irq ∧ irq ≤ 0x27
  · rw [if_pos master]
    exact ⟨[.outb 0x20 0x20], rfl, (if_pos master).symm⟩
  rw [if_neg master]
  by_cases slave : 0x28 ≤ irq ∧ irq ≤ 0x2f
  · rw [if_pos slave]
    exact ⟨[.outb 0x20 0x20, .outb 0xa0 0x20], rfl, ((if_neg master).trans (if_pos slave)).symm⟩
  · rw [if_neg slave]
    exact ⟨[], rfl, ((if_neg master).trans (if_neg slave)).symm⟩

/-! ## Interrupts -/

/-- A line whose request the mask lets through. -/
def Pic.Waits (c : Pic) (i : Fin 8) : Prop := bitOf c.mask i = false ∧ c.requests i = true

/-- Nothing of the same or a higher priority is in service. -/
def Pic.Clear (c : Pic) (i : Fin 8) : Prop := ∀ j ≤ i, c.service j = false

/-- The line that the controller gives out. -/
def Pic.Next (c : Pic) (i : Fin 8) : Prop := c.Waits i ∧ c.Clear i ∧ ∀ j < i, ¬ c.Waits j

/-- Line 2 of the first controller belongs to the second one. -/
def cascadeLine : Fin 8 := 2

def Pics.Waits (p : Pics) (i : Fin 8) : Prop :=
  bitOf p.master.mask i = false ∧ if i = cascadeLine then ∃ j, p.slave.Next j else p.master.requests i = true

/-- The line that the processor is interrupted for. -/
def Pics.Next (p : Pics) (i : Fin 8) : Prop := p.Waits i ∧ p.master.Clear i ∧ ∀ j < i, ¬ p.Waits j

def Pic.serve (c : Pic) (i : Fin 8) : Pic :=
  { c with requests := Function.update c.requests i false, service := Function.update c.service i true }

def Pic.vector (c : Pic) (i : Fin 8) : UInt8 := c.base ||| UInt8.ofNat i

/-- What the processor is interrupted for: a line of one of the controllers, or a request that went away. -/
inductive Cause
  | master (i : Fin 8)
  | slave (i : Fin 8)
  | spurious

/-- The processor asks for a vector. A request that went away by then is answered as line 7. -/
inductive Acknowledges : Pics → Cause → UInt8 → Pics → Prop
  | master {p : Pics} {i : Fin 8} (other : i ≠ cascadeLine) (next : p.Next i) :
      Acknowledges p (.master i) (p.master.vector i) { p with master := p.master.serve i }
  | slave {p : Pics} {i : Fin 8} (next : p.Next cascadeLine) (next' : p.slave.Next i) :
      Acknowledges p (.slave i) (p.slave.vector i) ⟨p.master.serve cascadeLine, p.slave.serve i⟩
  | spuriousMaster {p : Pics} : Acknowledges p .spurious (p.master.vector 7) p
  | spuriousSlave {p : Pics} (unmasked : bitOf p.master.mask cascadeLine = false)
      (clear : p.master.Clear cascadeLine) :
      Acknowledges p .spurious (p.slave.vector 7) { p with master := p.master.serve cascadeLine }

/-- The controllers, and the interrupt whose handler runs. -/
structure PicState where
  pics : Pics
  handling : Option UInt8

/-- A call of the driver that changes a mask. -/
structure MaskCall where
  dev : UInt32
  masks : Bool

def MaskCall.run (c : MaskCall) (p : Pics) : Pics := if c.masks then picMaskDev c.dev p else picUnmaskDev c.dev p

/-- The kernel's gates hold back interrupts while a handler runs, and each handler ends with `pic_send_eoi`. -/
inductive PicStep : PicState → Option MaskCall → PicState → Prop
  | masterLine {s : PicState} (requests : Fin 8 → Bool) :
      PicStep s none { s with pics.master.requests := requests }
  | slaveLine {s : PicState} (requests : Fin 8 → Bool) :
      PicStep s none { s with pics.slave.requests := requests }
  | interrupt {p p' : Pics} {cause : Cause} {v : UInt8} (given : Acknowledges p cause v p') :
      PicStep ⟨p, none⟩ none ⟨p', some v⟩
  | eoi {p : Pics} {v : UInt8} : PicStep ⟨p, some v⟩ none ⟨picSendEoi v p, none⟩
  | mask {s : PicState} (call : MaskCall) : PicStep s (some call) { s with pics := call.run s.pics }

/-- The states of a run behind `pic_init`, with the calls on the masks, the latest first. -/
inductive PicReachable (start : Pics) : List MaskCall → PicState → Prop
  | start : PicReachable start [] ⟨picInit start, none⟩
  | step {calls : List MaskCall} {s s' : PicState} {call : Option MaskCall} :
      PicReachable start calls s → PicStep s call s' → PicReachable start (call.toList ++ calls) s'

/-! ## The masks -/

variable {start p p' : Pics} {s s' : PicState} {calls : List MaskCall} {call : MaskCall} {c : Pic} {i j : Fin 8}
  {cause : Cause} {v mask : UInt8} {k : Nat}

theorem bitOf_or (low : k < 8) : bitOf (mask ||| UInt8.ofNat (2 ^ k)) i = (bitOf mask i || decide (k = i)) := by
  have power : (UInt8.ofNat (2 ^ k)).toNat = 2 ^ k :=
    UInt8.toNat_ofNat_of_lt' (Nat.pow_lt_pow_right (by decide) low)
  unfold bitOf
  rw [UInt8.toNat_or, power, Nat.testBit_or, Nat.testBit_two_pow]

theorem bitOf_and_not (low : k < 8) :
    bitOf (mask &&& ~~~UInt8.ofNat (2 ^ k)) i = (bitOf mask i && !decide (k = i)) := by
  have power : (UInt8.ofNat (2 ^ k)).toNat = 2 ^ k :=
    UInt8.toNat_ofNat_of_lt' (Nat.pow_lt_pow_right (by decide) low)
  have turned : (~~~UInt8.ofNat (2 ^ k)).toNat = 2 ^ 8 - (2 ^ k + 1) := by
    rw [UInt8.toNat_not, power]
    change 256 - 1 - 2 ^ k = 256 - (2 ^ k + 1)
    omega
  have small : 2 ^ k < 2 ^ 8 := Nat.pow_lt_pow_right (by decide) low
  unfold bitOf
  rw [UInt8.toNat_and, turned, Nat.testBit_and, Nat.testBit_two_pow_sub_succ small, Nat.testBit_two_pow,
    decide_eq_true i.isLt, Bool.true_and]

/-- Both controllers as `pic_remap` sets them up, but for the masks. -/
structure Configured (p : Pics) : Prop where
  ready : p.master.stage = .ready ∧ p.slave.stage = .ready
  bases : p.master.base = 0x20 ∧ p.slave.base = 0x28
  cascade : p.master.cascade = 0x04 ∧ p.slave.cascade = 0x02
  mode : p.master.mode = 1 ∧ p.slave.mode = 1

/-- From whatever state the controllers are in, also within an initialization. -/
theorem picRemap_configures (p : Pics) : Configured (picRemap p) ∧
    (picRemap p).master.mask = p.master.mask ∧ (picRemap p).slave.mask = p.slave.mask ∧
      ∀ i, (picRemap p).master.service i = false ∧ (picRemap p).slave.service i = false :=
  ⟨⟨⟨rfl, rfl⟩, ⟨rfl, rfl⟩, ⟨rfl, rfl⟩, ⟨rfl, rfl⟩⟩, rfl, rfl, fun _ => ⟨rfl, rfl⟩⟩

theorem Pic.data_ready (ready : c.stage = .ready) (v : UInt8) : c.data v = { c with mask := v } := by
  unfold Pic.data
  rw [ready]

/-- What a call does to the mask of the controller with the vectors from `base` on. -/
def MaskCall.change (call : MaskCall) (base : Nat) (mask : UInt8) : UInt8 :=
  if base ≤ call.dev.toNat ∧ call.dev.toNat ≤ base + 7 then
    if call.masks then mask ||| UInt8.ofNat (2 ^ (call.dev.toNat - base))
    else mask &&& ~~~UInt8.ofNat (2 ^ (call.dev.toNat - base))
  else mask

theorem change_bit {base : Nat} : bitOf (call.change base mask) i =
    if call.dev.toNat = base + i then call.masks else bitOf mask i := by
  have small := i.isLt
  unfold MaskCall.change
  by_cases within : base ≤ call.dev.toNat ∧ call.dev.toNat ≤ base + 7
  · have low : call.dev.toNat - base < 8 := by omega
    have here : call.dev.toNat - base = i ↔ call.dev.toNat = base + i := by omega
    rw [if_pos within]
    cases kind : call.masks with
    | true =>
      rw [if_pos rfl, bitOf_or low]
      by_cases same : call.dev.toNat = base + i <;> simp [here, same]
    | false =>
      rw [if_neg Bool.false_ne_true, bitOf_and_not low]
      by_cases same : call.dev.toNat = base + i <;> simp [here, same]
  · rw [if_neg within, if_neg (by omega)]

theorem run_eq (configured : Configured p) : call.run p =
    ⟨{ p.master with mask := call.change 0x20 p.master.mask },
      { p.slave with mask := call.change 0x28 p.slave.mask }⟩ := by
  have first : (picMasterBaseIrq.toUInt32 ≤ call.dev ∧ call.dev ≤ picMasterBaseIrq.toUInt32 + 7) ↔
      0x20 ≤ call.dev.toNat ∧ call.dev.toNat ≤ 0x20 + 7 := and_congr UInt32.le_iff_toNat_le UInt32.le_iff_toNat_le
  have second : (picSlaveBaseIrq.toUInt32 ≤ call.dev ∧ call.dev ≤ picSlaveBaseIrq.toUInt32 + 7) ↔
      0x28 ≤ call.dev.toNat ∧ call.dev.toNat ≤ 0x28 + 7 := and_congr UInt32.le_iff_toNat_le UInt32.le_iff_toNat_le
  have run : call.run p =
      picChangeMask (fun mask bit => if call.masks then mask ||| bit else mask &&& ~~~bit) call.dev p := by
    unfold MaskCall.run picMaskDev picUnmaskDev
    cases call.masks <;> rfl
  rw [run]
  unfold picChangeMask
  by_cases master : 0x20 ≤ call.dev.toNat ∧ call.dev.toNat ≤ 0x20 + 7
  · have apart : ¬ (0x28 ≤ call.dev.toNat ∧ call.dev.toNat ≤ 0x28 + 7) := by omega
    rw [if_pos (first.mpr master), MaskCall.change, if_pos master, MaskCall.change, if_neg apart]
    change Pics.mk (p.master.data _) p.slave = _
    rw [Pic.data_ready configured.ready.1]
    rfl
  · rw [if_neg fun inside => master (first.mp inside), MaskCall.change, if_neg master]
    by_cases slave : 0x28 ≤ call.dev.toNat ∧ call.dev.toNat ≤ 0x28 + 7
    · rw [if_pos (second.mpr slave), MaskCall.change, if_pos slave]
      change Pics.mk p.master (p.slave.data _) = _
      rw [Pic.data_ready configured.ready.2]
      rfl
    · rw [if_neg fun inside => slave (second.mp inside), MaskCall.change, if_neg slave]

/-- What the last of the calls on a line did, if there was one. -/
def lastCall (calls : List MaskCall) (base : Nat) (i : Fin 8) : Option Bool :=
  (calls.find? fun call => call.dev.toNat = base + i).map MaskCall.masks

theorem lastCall_cons {base : Nat} : lastCall (call :: calls) base i =
    if call.dev.toNat = base + i then some call.masks else lastCall calls base i := by
  unfold lastCall
  rw [List.find?_cons]
  by_cases here : call.dev.toNat = base + i <;> simp [here]

/-- A line is masked as the last call on it says, and as before where there was none. -/
structure MasksFollow (calls : List MaskCall) (before : Fin 8 → Bool × Bool) (p : Pics) : Prop where
  master : ∀ i, bitOf p.master.mask i = (lastCall calls 0x20 i).getD (before i).1
  slave : ∀ i, bitOf p.slave.mask i = (lastCall calls 0x28 i).getD (before i).2

variable {before : Fin 8 → Bool × Bool}

theorem MasksFollow.run (follow : MasksFollow calls before p) (configured : Configured p) (call : MaskCall) :
    MasksFollow (call :: calls) before (call.run p) := by
  rw [run_eq configured]
  constructor
  · intro i
    change bitOf (call.change 0x20 p.master.mask) i = _
    rw [change_bit, lastCall_cons, follow.master i]
    split <;> rfl
  · intro i
    change bitOf (call.change 0x28 p.slave.mask) i = _
    rw [change_bit, lastCall_cons, follow.slave i]
    split <;> rfl

theorem Configured.run (configured : Configured p) (call : MaskCall) : Configured (call.run p) := by
  rw [run_eq configured]
  exact ⟨configured.ready, configured.bases, configured.cascade, configured.mode⟩

/-- The calls of `pic_init`, the latest first. -/
def picInitCalls : List MaskCall := picInitDevs.reverse.map fun dev => ⟨dev, true⟩

theorem picInit_eq (p : Pics) : picInit p = picInitCalls.foldr MaskCall.run (picRemap p) := by
  unfold picInit picInitCalls
  rw [List.foldr_map, List.foldr_reverse]
  rfl

/-! ## What is in service -/

/-- Nothing between handlers; in a handler at most the line of its vector, and for the second controller line 2 of the
first one. -/
def InService : Option UInt8 → Pics → Prop
  | none, p => ∀ i, p.master.service i = false ∧ p.slave.service i = false
  | some v, p =>
    (∃ i ≠ cascadeLine, v = 0x20 ||| UInt8.ofNat i ∧ (∀ j ≠ i, p.master.service j = false) ∧
      ∀ j, p.slave.service j = false) ∨
    ∃ i : Fin 8, v = 0x28 ||| UInt8.ofNat i ∧ (∀ j ≠ cascadeLine, p.master.service j = false) ∧
      ∀ j ≠ i, p.slave.service j = false

theorem InService.congr {handling : Option UInt8} (service : InService handling p)
    (master : p'.master.service = p.master.service) (slave : p'.slave.service = p.slave.service) :
    InService handling p' := by
  cases handling with
  | none =>
    intro i
    rw [master, slave]
    exact service i
  | some v =>
    rcases service with ⟨i, other, named, first, second⟩ | ⟨i, named, first, second⟩
    · exact .inl ⟨i, other, named, master ▸ first, slave ▸ second⟩
    · exact .inr ⟨i, named, master ▸ first, slave ▸ second⟩

/-- An end of interrupt leaves nothing in service where there was one line at most. -/
theorem eoi_clears (only : ∀ j ≠ i, c.service j = false) : c.command picEoi = { c with service := fun _ => false } := by
  have single : c.command picEoi = match c.inService with
    | some i => { c with service := Function.update c.service i false }
    | none => c := rfl
  rw [single]
  cases found : c.inService with
  | none =>
    have nothing := List.find?_eq_none.mp found
    have service : c.service = fun _ => false :=
      funext fun j => Bool.eq_false_of_not_eq_true (nothing j (List.mem_finRange j))
    dsimp only
    rw [← service]
  | some k =>
    have held : c.service k = true := List.find?_some found
    have here : k = i := by
      by_contra other
      rw [only k other] at held
      cases held
    have service : Function.update c.service k false = fun _ => false := by
      funext j
      by_cases same : j = k
      · rw [same, Function.update_self]
      · rw [Function.update_of_ne same, only j (here ▸ same)]
    dsimp only
    rw [service]

theorem eoi_master (i : Fin 8) (p : Pics) :
    picSendEoi (0x20 ||| UInt8.ofNat i) p = { p with master := p.master.command picEoi } := by
  have within : ∀ i : Fin 8,
      picMasterBaseIrq ≤ 0x20 ||| UInt8.ofNat i ∧ 0x20 ||| UInt8.ofNat i ≤ picMasterBaseIrq + 7 := by
    decide
  unfold picSendEoi
  rw [if_pos (within i)]
  rfl

theorem eoi_slave (i : Fin 8) (p : Pics) :
    picSendEoi (0x28 ||| UInt8.ofNat i) p = ⟨p.master.command picEoi, p.slave.command picEoi⟩ := by
  have apart : ∀ i : Fin 8,
      ¬ (picMasterBaseIrq ≤ 0x28 ||| UInt8.ofNat i ∧ 0x28 ||| UInt8.ofNat i ≤ picMasterBaseIrq + 7) := by
    decide
  have within : ∀ i : Fin 8,
      picSlaveBaseIrq ≤ 0x28 ||| UInt8.ofNat i ∧ 0x28 ||| UInt8.ofNat i ≤ picSlaveBaseIrq + 7 := by
    decide
  unfold picSendEoi
  rw [if_neg (apart i), if_pos (within i)]
  rfl

/-! ## Runs -/

/-- Behind `pic_init` all lines are masked, but that of the second controller, which is as the BIOS left it. -/
def initiallyMasked (start : Pics) (i : Fin 8) : Bool × Bool :=
  (decide (i ≠ cascadeLine) || bitOf start.master.mask cascadeLine, true)

structure PicInv (start : Pics) (calls : List MaskCall) (s : PicState) : Prop where
  configured : Configured s.pics
  follow : MasksFollow calls (initiallyMasked start) s.pics
  service : InService s.handling s.pics

theorem run_service (configured : Configured p) (call : MaskCall) :
    (call.run p).master.service = p.master.service ∧ (call.run p).slave.service = p.slave.service := by
  rw [run_eq configured]
  exact ⟨rfl, rfl⟩

theorem calls_run (configured : Configured p) (calls : List MaskCall) : Configured (calls.foldr MaskCall.run p) ∧
    MasksFollow calls (fun i => (bitOf p.master.mask i, bitOf p.slave.mask i)) (calls.foldr MaskCall.run p) ∧
      (calls.foldr MaskCall.run p).master.service = p.master.service ∧
      (calls.foldr MaskCall.run p).slave.service = p.slave.service := by
  induction calls with
  | nil => exact ⟨configured, ⟨fun _ => rfl, fun _ => rfl⟩, rfl, rfl⟩
  | cons call calls ih =>
    obtain ⟨configured', follow, master, slave⟩ := ih
    obtain ⟨master', slave'⟩ := run_service configured' call
    exact ⟨configured'.run call, follow.run configured' call, master'.trans master, slave'.trans slave⟩

theorem picInit_inv (start : Pics) : PicInv start [] ⟨picInit start, none⟩ := by
  obtain ⟨configured, masterMask, slaveMask, service⟩ := picRemap_configures start
  obtain ⟨configured', follow, master, slave⟩ := calls_run configured picInitCalls
  rw [← picInit_eq] at configured' follow master slave
  have masterCalls : ∀ i : Fin 8,
      lastCall picInitCalls 0x20 i = if i = cascadeLine then none else some true := by decide
  have slaveCalls : ∀ i : Fin 8, lastCall picInitCalls 0x28 i = some true := by decide
  refine ⟨configured', ⟨fun i => ?_, fun i => ?_⟩, fun i => ?_⟩
  · rw [follow.master i, masterCalls i, masterMask]
    by_cases here : i = cascadeLine
    · rw [if_pos here, here]
      rfl
    · rw [if_neg here]
      exact (show (decide (i ≠ cascadeLine) || _) = true by rw [decide_eq_true here, Bool.true_or]).symm
  · rw [follow.slave i, slaveCalls i]
    rfl
  · rw [master, slave]
    exact service i

/-- An interrupt puts at most its own line in service, and what it comes through. -/
theorem acknowledges_service (configured : Configured p) (idle : InService none p)
    (given : Acknowledges p cause v p') : InService (some v) p' := by
  obtain ⟨base, base'⟩ := configured.bases
  cases given with
  | @master i other next =>
    refine .inl ⟨i, other, ?_, fun j differs => ?_, fun j => (idle j).2⟩
    · rw [Pic.vector, base]
    · exact (Function.update_of_ne differs _ _).trans (idle j).1
  | @slave i next next' =>
    refine .inr ⟨i, ?_, fun j differs => ?_, fun j differs => ?_⟩
    · rw [Pic.vector, base']
    · exact (Function.update_of_ne differs _ _).trans (idle j).1
    · exact (Function.update_of_ne differs _ _).trans (idle j).2
  | spuriousMaster =>
    refine .inl ⟨7, by decide, ?_, fun j _ => (idle j).1, fun j => (idle j).2⟩
    rw [Pic.vector, base]
  | spuriousSlave unmasked clear =>
    refine .inr ⟨7, ?_, fun j differs => ?_, fun j _ => (idle j).2⟩
    · rw [Pic.vector, base']
    · exact (Function.update_of_ne differs _ _).trans (idle j).1

theorem acknowledges_keeps (given : Acknowledges p cause v p') : (Configured p → Configured p') ∧
    p'.master.mask = p.master.mask ∧ p'.slave.mask = p.slave.mask := by
  cases given <;> exact ⟨fun ⟨ready, bases, cascade, mode⟩ => ⟨ready, bases, cascade, mode⟩, rfl, rfl⟩

/-- The end-of-interrupt commands of a handler. -/
theorem eoi_idle (configured : Configured p) (service : InService (some v) p) : Configured (picSendEoi v p) ∧
    (picSendEoi v p).master.mask = p.master.mask ∧ (picSendEoi v p).slave.mask = p.slave.mask ∧
      InService none (picSendEoi v p) := by
  obtain ⟨ready, bases, cascade, mode⟩ := configured
  rcases service with ⟨i, -, rfl, only, none_⟩ | ⟨i, rfl, only, only'⟩
  · rw [eoi_master, eoi_clears only]
    exact ⟨⟨ready, bases, cascade, mode⟩, rfl, rfl, fun j => ⟨rfl, none_ j⟩⟩
  · rw [eoi_slave, eoi_clears only, eoi_clears only']
    exact ⟨⟨ready, bases, cascade, mode⟩, rfl, rfl, fun j => ⟨rfl, rfl⟩⟩

theorem MasksFollow.congr (follow : MasksFollow calls before p) (master : p'.master.mask = p.master.mask)
    (slave : p'.slave.mask = p.slave.mask) : MasksFollow calls before p' :=
  ⟨fun i => by rw [master]; exact follow.master i, fun i => by rw [slave]; exact follow.slave i⟩

theorem step_inv {called : Option MaskCall} (inv : PicInv start calls s) (step : PicStep s called s') :
    PicInv start (called.toList ++ calls) s' := by
  obtain ⟨configured, follow, service⟩ := inv
  cases step with
  | masterLine requests =>
    exact ⟨⟨configured.ready, configured.bases, configured.cascade, configured.mode⟩, ⟨follow.master, follow.slave⟩,
      service.congr rfl rfl⟩
  | slaveLine requests =>
    exact ⟨⟨configured.ready, configured.bases, configured.cascade, configured.mode⟩, ⟨follow.master, follow.slave⟩,
      service.congr rfl rfl⟩
  | interrupt given =>
    obtain ⟨keeps, master, slave⟩ := acknowledges_keeps given
    exact ⟨keeps configured, follow.congr master slave, acknowledges_service configured service given⟩
  | eoi =>
    obtain ⟨configured', master, slave, idle⟩ := eoi_idle configured service
    exact ⟨configured', follow.congr master slave, idle⟩
  | mask call =>
    obtain ⟨master, slave⟩ := run_service configured call
    exact ⟨configured.run call, follow.run configured call, service.congr master slave⟩

theorem reachable_inv (reach : PicReachable start calls s) : PicInv start calls s := by
  induction reach with
  | start => exact picInit_inv start
  | step _ step ih => exact step_inv ih step

theorem unmasked_called {before : Bool} {base : Nat}
    (follow : bitOf mask i = (lastCall calls base i).getD before) (masked : before = true)
    (unmasked : bitOf mask i = false) : lastCall calls base i = some false := by
  rw [follow, masked] at unmasked
  cases called : lastCall calls base i with
  | none =>
    rw [called] at unmasked
    cases unmasked
  | some b =>
    rw [called] at unmasked
    exact congrArg some unmasked

/-- In every run behind `pic_init` a line is masked as the last call on it says, and masked where there was none; no
line interrupts the processor unless that call was `pic_unmask_dev`. A spurious interrupt is for no line: its vector is
that of line 7 of a controller, and no request is taken. -/
theorem masks_follow_calls (reach : PicReachable start calls s) :
    MasksFollow calls (initiallyMasked start) s.pics ∧
      (∀ i v p', Acknowledges s.pics (.master i) v p' → i ≠ cascadeLine ∧ v = 0x20 ||| UInt8.ofNat i ∧
        s.pics.master.requests i = true ∧ lastCall calls 0x20 i = some false) ∧
      (∀ i v p', Acknowledges s.pics (.slave i) v p' → v = 0x28 ||| UInt8.ofNat i ∧
        s.pics.slave.requests i = true ∧ lastCall calls 0x28 i = some false ∧
          bitOf s.pics.master.mask cascadeLine = false) ∧
      ∀ v p', Acknowledges s.pics .spurious v p' → (v = 0x27 ∨ v = 0x2f) ∧ p'.slave = s.pics.slave ∧
        ∀ i ≠ cascadeLine, p'.master.requests i = s.pics.master.requests i ∧
          p'.master.service i = s.pics.master.service i := by
  obtain ⟨configured, follow, -⟩ := reachable_inv reach
  obtain ⟨base, base'⟩ := configured.bases
  refine ⟨follow, fun i v p' given => ?_, fun i v p' given => ?_, fun v p' given => ?_⟩
  · cases given with
    | master other next =>
      obtain ⟨⟨unmasked, requested⟩, -⟩ := next
      rw [if_neg other] at requested
      have masked : (initiallyMasked start i).1 = true := by
        unfold initiallyMasked
        rw [decide_eq_true other, Bool.true_or]
      refine ⟨other, ?_, requested, unmasked_called (follow.master i) masked unmasked⟩
      rw [Pic.vector, base]
  · cases given with
    | slave next next' =>
      obtain ⟨⟨unmasked, requested⟩, -⟩ := next'
      refine ⟨?_, requested, unmasked_called (follow.slave i) rfl unmasked, next.1.1⟩
      rw [Pic.vector, base']
  · cases given with
    | spuriousMaster =>
      refine ⟨.inl ?_, rfl, fun _ _ => ⟨rfl, rfl⟩⟩
      rw [Pic.vector, base]
      decide
    | spuriousSlave unmasked clear =>
      refine ⟨.inr ?_, rfl, fun i other => ⟨Function.update_of_ne other _ _, Function.update_of_ne other _ _⟩⟩
      rw [Pic.vector, base']
      decide

/-- Controllers after power-on, with nothing masked. -/
def resetPics : Pics :=
  let c : Pic := ⟨.ready, false, false, 0, 0, 0, 0, fun _ => false, fun _ => false⟩
  ⟨c, c⟩

def unmaskKeyboard : MaskCall := ⟨0x21, false⟩

/-- The keyboard's line is the only one unmasked, and lines 1 and 7 of the first controller ask. -/
def keyboardAsks : PicState :=
  let p := unmaskKeyboard.run (picInit resetPics)
  ⟨{ p with master.requests := fun i => i = 1 ∨ i = 7 }, none⟩

theorem keyboardAsks_gives : ∃ p', Acknowledges keyboardAsks.pics (.master 1) 0x21 p' := by
  have asks : keyboardAsks.pics.Waits 1 := ⟨by decide, by rw [if_neg (by decide)]; decide⟩
  have masked : ∀ j < (1 : Fin 8), bitOf keyboardAsks.pics.master.mask j = true := by decide
  have ahead : ∀ j < (1 : Fin 8), ¬ keyboardAsks.pics.Waits j := by
    intro j low waits
    have unmasked := waits.1
    rw [masked j low] at unmasked
    cases unmasked
  have clear : keyboardAsks.pics.master.Clear 1 := fun _ _ => rfl
  exact ⟨_, .master (by decide) ⟨asks, clear, ahead⟩⟩

/-- Line 1 gets through, and line 7, which asks too, does not. -/
theorem masks_follow_calls_keyboard : ∃ s, PicReachable resetPics [unmaskKeyboard] s ∧
    s.pics.master.requests 7 = true ∧ bitOf s.pics.master.mask 1 = false ∧ bitOf s.pics.master.mask 7 = true ∧
      (∃ p', Acknowledges s.pics (.master 1) 0x21 p') ∧ ∀ v p', ¬ Acknowledges s.pics (.master 7) v p' := by
  have reach : PicReachable resetPics [unmaskKeyboard] keyboardAsks :=
    .step (.step .start (.mask unmaskKeyboard)) (.masterLine _)
  obtain ⟨follow, genuine, -⟩ := masks_follow_calls reach
  refine ⟨_, reach, rfl, (follow.master 1).trans (by decide), (follow.master 7).trans (by decide),
    keyboardAsks_gives, fun v p' given => ?_⟩
  obtain ⟨-, -, -, called⟩ := genuine 7 v p' given
  cases called

/-- The lowest of the lines that wait. -/
theorem lowest_waits {waits : Fin 8 → Prop} (some_ : waits i) : ∃ j ≤ i, waits j ∧ ∀ k < j, ¬ waits k := by
  obtain ⟨j, here, least⟩ := WellFounded.has_min wellFounded_lt {j | waits j} ⟨i, some_⟩
  exact ⟨j, not_lt.mp (least i some_), here, fun k lower inside => least k inside lower⟩

/-- In every run the vectors are those behind the exceptions, never that of the second controller's line, and between
handlers nothing is in service, so that whatever waits gets to the processor after the lines ahead of it. -/
theorem handlers_leave_lines_free (reach : PicReachable start calls s) :
    Configured s.pics ∧ InService s.handling s.pics ∧
      (∀ v, s.handling = some v → 0x20 ≤ v ∧ v ≤ 0x2f ∧ v ≠ 0x22) ∧
      (s.handling = none → (∀ i, s.pics.slave.Waits i → ∃ j ≤ i, s.pics.slave.Next j) ∧
        ∀ i, s.pics.Waits i → ∃ j ≤ i, s.pics.Next j) := by
  obtain ⟨configured, -, service⟩ := reachable_inv reach
  refine ⟨configured, service, fun v handling => ?_, fun handling => ?_⟩
  · have master : ∀ i : Fin 8, i ≠ cascadeLine →
        0x20 ≤ 0x20 ||| UInt8.ofNat i ∧ 0x20 ||| UInt8.ofNat i ≤ 0x2f ∧ 0x20 ||| UInt8.ofNat i ≠ 0x22 := by decide
    have slave : ∀ i : Fin 8,
        0x20 ≤ 0x28 ||| UInt8.ofNat i ∧ 0x28 ||| UInt8.ofNat i ≤ 0x2f ∧ 0x28 ||| UInt8.ofNat i ≠ 0x22 := by decide
    rw [handling] at service
    rcases service with ⟨i, other, rfl, -⟩ | ⟨i, rfl, -⟩
    · exact master i other
    · exact slave i
  · rw [handling] at service
    constructor
    · intro i waits
      obtain ⟨j, low, here, least⟩ := lowest_waits waits
      exact ⟨j, low, here, fun k _ => (service k).2, least⟩
    · intro i waits
      obtain ⟨j, low, here, least⟩ := lowest_waits waits
      exact ⟨j, low, here, fun k _ => (service k).1, least⟩

/-- In the handler of a spurious interrupt. -/
theorem handlers_leave_lines_free_spurious : ∃ s v, PicReachable resetPics [] s ∧ s.handling = some v ∧
    0x20 ≤ v ∧ v ≤ 0x2f ∧ v ≠ 0x22 := by
  have reach : PicReachable resetPics [] ⟨picInit resetPics, some _⟩ := .step .start (.interrupt .spuriousMaster)
  obtain ⟨-, -, vectors, -⟩ := handlers_leave_lines_free reach
  exact ⟨_, _, reach, rfl, vectors _ rfl⟩

end AtaKernel.Interrupts
