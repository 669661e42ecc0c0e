import AtaKernel.Ata.Polling

/-! What stands behind the ports: four channels of up to two drives that follow
the LBA28 PIO protocol. The drives of a channel share its task file; a command
asks for a number of sectors, each sector is one data phase of 256 words, and
between phases the drive takes its own time, which the host sees only as a row
of status values. How long a drive takes, what its status shows meanwhile and
whether it reports an error are left open: a channel is given them in advance,
one `Wait` for every pause it will make, and all statements hold whatever they
are. -/
namespace AtaKernel.Ata
open ByteMemory PortIo

/-- How one pause of a drive looks from outside. For up to 400 ns, which is four status reads,
the status means nothing; then it shows `BSY` for a while; it may go on to show that nothing
has happened yet; and then the drive asks for the sector, or reports a fault instead. The pause
behind the last sector of a command has only the `BSY` of this, and then its end. -/
structure Wait where
  settling : List UInt8
  busy : List UInt8
  pause : List UInt8
  /-- Shown during a data phase. -/
  ready : UInt8
  /-- Shown when a command is over. -/
  rest : UInt8
  /-- Shown instead when the drive gives up. -/
  fault : Option UInt8
  settling_short : settling.length ≤ 4
  busy_busy : ∀ s ∈ busy, Busy s
  pause_quiet : ∀ s ∈ pause, Quiet s
  ready_ready : Ready ready
  rest_quiet : Quiet rest
  fault_faulty : ∀ s ∈ fault, ¬ Busy s ∧ Faulty s

/-- All the statuses of a pause. -/
def Wait.shows (wait : Wait) : List UInt8 := wait.settling ++ wait.busy ++ wait.pause

/-- What a channel is doing. `shows` are the statuses still to come before the last one, which
is then shown for as long as nothing happens. -/
inductive Phase where
  | idle (shows : List UInt8) (last : UInt8)
  | sector (write drive : Bool) (lba left word : Nat) (shows : List UInt8) (last : UInt8)
  deriving DecidableEq

/-- The sectors of a channel by drive and number, as 256 words each. -/
abbrev Disk := Bool → Nat → Nat → UInt16

/-- One channel: the task file both drives listen to, their sectors, and the pauses to come.
`log` lists the sectors read from and written to, the latest first: a sector is read from with
the first word that is handed over, and written to when it is stored. `asked` counts the sectors
commanded so far. -/
structure Channel where
  seccount : UInt8
  lba0 : UInt8
  lba1 : UInt8
  lba2 : UInt8
  devsel : UInt8
  phase : Phase
  buffer : Nat → UInt16
  disk : Disk
  capacity : Bool → Nat
  waits : Nat → Wait
  clock : Nat
  log : List (Bool × Bool × Nat)
  asked : Nat

namespace Channel

/-- The drive that `DEVSEL` bit 4 selects. -/
def drive (c : Channel) : Bool := c.devsel &&& 0x10 ≠ 0

/-- The LBA28 address in the task file. -/
def address (c : Channel) : Nat :=
  c.lba0.toNat + 2 ^ 8 * c.lba1.toNat + 2 ^ 16 * c.lba2.toNat + 2 ^ 24 * (c.devsel &&& 0x0f).toNat

/-- The number of sectors in the task file, where zero stands for 256. -/
def sectors (c : Channel) : Nat := if c.seccount = 0 then 256 else c.seccount.toNat

/-- A sector number the drive does not have ends the command with `ERR`. -/
def faultAt (c : Channel) (drive : Bool) (lba : Nat) : Option UInt8 :=
  if lba < c.capacity drive then (c.waits c.clock).fault else some 0x51

/-- The pause before a sector's data phase. -/
def startSector (c : Channel) (write drive : Bool) (lba left : Nat) : Channel :=
  { c with
    clock := c.clock + 1
    phase := match c.faultAt drive lba with
      | none => .sector write drive lba left 0 (c.waits c.clock).shows (c.waits c.clock).ready
      | some s => .idle (c.waits c.clock).shows s }

/-- The pause after the last sector; for a write its fault is that of the last sector. It leaves the
settling reads out: from its first status on it shows `BSY`, or how the command ended. -/
def finish (c : Channel) (write : Bool) : Channel :=
  { c with
    clock := c.clock + 1
    phase := .idle (c.waits c.clock).busy
      (if write then (c.waits c.clock).fault.getD (c.waits c.clock).rest
        else (c.waits c.clock).rest) }

/-- The 256th word of a sector has passed. A written sector is stored, unless the drive is
about to report a fault. -/
def store (c : Channel) (write drive : Bool) (lba : Nat) : Channel :=
  if write = true ∧ (c.waits c.clock).fault = none then
    { c with
      disk := Function.update c.disk drive (Function.update (c.disk drive) lba c.buffer)
      log := (true, drive, lba) :: c.log }
  else c

def endSector (c : Channel) (write drive : Bool) (lba left : Nat) : Channel :=
  if left ≤ 1 then (c.store write drive lba).finish write
  else (c.store write drive lba).startSector write drive (lba + 1) (left - 1)

/-- One word of a sector has passed. -/
def nextWord (c : Channel) (write drive : Bool) (lba left word : Nat) (last : UInt8) : Channel :=
  if word + 1 < 256 then { c with phase := .sector write drive lba left (word + 1) [] last }
  else c.endSector write drive lba left

def readStatus (c : Channel) : UInt8 × Channel :=
  match c.phase with
  | .idle (s :: shows) last => (s, { c with phase := .idle shows last })
  | .idle [] last => (last, c)
  | .sector write drive lba left word (s :: shows) last =>
    (s, { c with phase := .sector write drive lba left word shows last })
  | .sector _ _ _ _ _ [] last => (last, c)

/-- A word is handed over only in the data phase of a read. -/
def dataIn (c : Channel) : UInt16 × Channel :=
  match c.phase with
  | .sector false drive lba left word [] last =>
    (c.disk drive lba word,
      { c with log := if word = 0 then (false, drive, lba) :: c.log else c.log }.nextWord
        false drive lba left word last)
  | _ => (0, c)

/-- A word is taken only in the data phase of a write; every sector starts an empty buffer. -/
def dataOut (c : Channel) (value : UInt16) : Channel :=
  match c.phase with
  | .sector true drive lba left word [] last =>
    { c with
      buffer := Function.update (if word = 0 then fun _ => 0 else c.buffer) word value }.nextWord
        true drive lba left word last
  | _ => c

/-- A command other than READ SECTORS and WRITE SECTORS, or one without the LBA bit, is
aborted. -/
def command (c : Channel) (value : UInt8) : Channel :=
  if (value = ataCmdReadPio ∨ value = ataCmdWritePio) ∧ c.devsel &&& 0x40 ≠ 0 then
    { c with asked := c.asked + c.sectors }.startSector (value == ataCmdWritePio) c.drive
      c.address c.sectors
  else { c with phase := .idle [] 0x51 }

/-- The task file can be written while no command is in progress. -/
def writeRegister (c : Channel) (offset : Nat) (value : UInt8) : Channel :=
  match c.phase with
  | .idle [] _ =>
    match offset with
    | 2 => { c with seccount := value }
    | 3 => { c with lba0 := value }
    | 4 => { c with lba1 := value }
    | 5 => { c with lba2 := value }
    | 6 => { c with devsel := value }
    | 7 => c.command value
    | _ => c
  | _ => c

end Channel

/-- The channel and the register offset that a port belongs to. -/
def locate (port : UInt16) : Option (UInt8 × Nat) :=
  [0, 1, 2, 3].findSome? fun channel =>
    if (port - ataBusPort channel).toNat < 8 then
      some (channel, (port - ataBusPort channel).toNat)
    else none

/-- The channels by the number in `dev->channel`. -/
abbrev Machine := UInt8 → Channel

/-- The ports in front of the channels. The transfers read no register but status and data. -/
def machineBus : Bus Machine where
  inb port m :=
    match locate port with
    | some (channel, 7) =>
      ((m channel).readStatus.1, Function.update m channel (m channel).readStatus.2)
    | _ => (0, m)
  inw port m :=
    match locate port with
    | some (channel, 0) => ((m channel).dataIn.1, Function.update m channel (m channel).dataIn.2)
    | _ => (0, m)
  outb port value m :=
    match locate port with
    | some (channel, offset) =>
      Function.update m channel ((m channel).writeRegister offset value)
    | none => m
  outw port value m :=
    match locate port with
    | some (channel, 0) => Function.update m channel ((m channel).dataOut value)
    | _ => m

/-- A pause that is over at once. -/
def Wait.prompt (fault : Option UInt8) (faulty : ∀ s ∈ fault, ¬ Busy s ∧ Faulty s) : Wait where
  settling := []
  busy := []
  pause := []
  ready := 0x58
  rest := 0x50
  fault
  settling_short := by simp
  busy_busy := by simp
  pause_quiet := by simp
  ready_ready := by decide
  rest_quiet := by decide
  fault_faulty := faulty

/-- A channel that was just switched on, with two empty drives of `capacity` sectors. -/
def Channel.fresh (capacity : Nat) (waits : Nat → Wait) : Channel where
  seccount := 0
  lba0 := 0
  lba1 := 0
  lba2 := 0
  devsel := 0
  phase := .idle [] 0x50
  buffer := fun _ => 0
  disk := fun _ _ _ => 0
  capacity := fun _ => capacity
  waits
  clock := 0
  log := []
  asked := 0

/-- A machine that was just switched on. -/
def freshMachine (capacity : Nat) (waits : Nat → Wait) : World Machine where
  device := fun _ => .fresh capacity waits
  trace := []
  memory := fun _ => 0

theorem no_fault : ∀ s ∈ (none : Option UInt8), ¬ Busy s ∧ Faulty s := by simp

/-- Drives that are never slow and never fail. -/
def promptMachine (capacity : Nat) : World Machine :=
  freshMachine capacity fun _ => .prompt none no_fault

/-! ## The ports of a channel -/

variable {channel : UInt8} {m : Machine}

theorem locate_register (within : channel < 4) {offset : UInt16} (low : offset < 8) :
    locate (ataBusPort channel + offset) = some (channel, offset.toNat) := by
  have channels : ∀ c < 4, ∀ r < 8,
      locate (ataBusPort (UInt8.ofNat c) + UInt16.ofNat r) = some (UInt8.ofNat c, r) := by
    decide
  have found := channels channel.toNat within offset.toNat low
  simpa using found

theorem machineBus_status (within : channel < 4) :
    machineBus.inb (ataRegStatus (ataBusPort channel)) m =
      ((m channel).readStatus.1, Function.update m channel (m channel).readStatus.2) := by
  simp [machineBus, ataRegStatus, locate_register within (show (7 : UInt16) < 8 by decide)]

theorem machineBus_dataIn (within : channel < 4) :
    machineBus.inw (ataRegData (ataBusPort channel)) m =
      ((m channel).dataIn.1, Function.update m channel (m channel).dataIn.2) := by
  have found := locate_register within (show (0 : UInt16) < 8 by decide)
  simp only [machineBus, ataRegData, found, UInt16.toNat_zero]

theorem machineBus_dataOut (within : channel < 4) (value : UInt16) :
    machineBus.outw (ataRegData (ataBusPort channel)) value m =
      Function.update m channel ((m channel).dataOut value) := by
  have found := locate_register within (show (0 : UInt16) < 8 by decide)
  simp only [machineBus, ataRegData, found, UInt16.toNat_zero]

theorem machineBus_register (within : channel < 4) {offset : UInt16} (low : offset < 8)
    (value : UInt8) : machineBus.outb (ataBusPort channel + offset) value m =
      Function.update m channel ((m channel).writeRegister offset.toNat value) := by
  simp [machineBus, locate_register within low]

end AtaKernel.Ata
