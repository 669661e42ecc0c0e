import AtaKernel.Library.PortIo

/-! The ATA driver, `drivers/ata.c`: port numbers, device records,
identification, and programmed transfers. Every routine is written over an
arbitrary bus. A polling loop runs for at most `fuel` rounds, so a routine
that is still polling is stuck. An `int` result is an integer, a `u8` result
a byte, and a buffer is an address in the flat memory. -/
namespace AtaKernel.Ata
open ByteMemory PortIo

/-! ## Registers -/

def ataSrBsy : UInt8 := 0x80
def ataSrDf : UInt8 := 0x20
def ataSrDrq : UInt8 := 0x08
def ataSrErr : UInt8 := 0x01

def ataCmdReadPio : UInt8 := 0x20
def ataCmdWritePio : UInt8 := 0x30
def ataCmdIdentifyPacket : UInt8 := 0xA1
def ataCmdIdentify : UInt8 := 0xEC

def ataIdentDevicetype : Nat := 0
def ataIdentModel : Nat := 54
def ataIdentCapabilities : Nat := 98
def ataIdentMaxLba : Nat := 120
def ataIdentCommandsets : Nat := 164
def ataIdentMaxLbaExt : Nat := 200

def ataIdentifyCmdMaster : UInt8 := 0xA0

def ataRegData (base : UInt16) : UInt16 := base + 0x00
/-- Read as the error register, written as the features register. -/
def ataRegError (base : UInt16) : UInt16 := base + 0x01
def ataRegSeccount0 (base : UInt16) : UInt16 := base + 0x02
def ataRegLba0 (base : UInt16) : UInt16 := base + 0x03
def ataRegLba1 (base : UInt16) : UInt16 := base + 0x04
def ataRegLba2 (base : UInt16) : UInt16 := base + 0x05
def ataRegDevsel (base : UInt16) : UInt16 := base + 0x06
/-- Written as the command register, read as the status register. -/
def ataRegCommand (base : UInt16) : UInt16 := base + 0x07
def ataRegStatus (base : UInt16) : UInt16 := base + 0x07

/-- `ata_bus_port[channel]`. The array has four elements; what lies past its end is not
modelled, and reads as zero. -/
def ataBusPort (channel : UInt8) : UInt16 :=
  [0x01f0, 0x0170, 0x01E8, 0x0168].getD channel.toNat 0

/-- `ata_bus_control[channel]`. -/
def ataBusControl (channel : UInt8) : UInt16 :=
  [0x03f6, 0x0376, 0x03E6, 0x0366].getD channel.toNat 0

/-! ## Device records -/

def ataDeviceEmpty : UInt8 := 0x00
def ataDevicePresent : UInt8 := 0x01
def ataTypeAta : UInt16 := 0x00
def ataTypeAtapi : UInt16 := 0x01

/-- `ata_dev_t`. -/
structure AtaDev where
  present : UInt8
  channel : UInt8
  drive : UInt8
  type : UInt16
  signature : UInt16
  capabilities : UInt16
  commandsets : UInt32
  /-- Size in sectors. -/
  size : UInt32
  model : Vector UInt8 41
  deriving DecidableEq

/-- The record of a drive, as far as transfers look at it. -/
def AtaDev.located (channel drive : UInt8) (size : UInt32) : AtaDev where
  present := ataDevicePresent
  channel
  drive
  type := ataTypeAta
  signature := 0
  capabilities := 0
  commandsets := 0
  size
  model := Vector.replicate 41 0

/-! ## Waiting -/

variable {σ : Type} (bus : Bus σ) (fuel : Nat)

/-- Reads the register at offset 7 once for every 100 ns; `dev` is whichever base the
caller passes. -/
def delay (dev : UInt16) (ns : Nat) : Io σ Unit :=
  times (ns / 100) fun _ => do
    let _ ← inb bus (ataRegStatus dev)

/-- `while (status & ATA_SR_BSY)`: the loop is left with a status that has the bit clear. -/
def busyTest (status : UInt8) : Option UInt8 :=
  if status &&& ataSrBsy ≠ 0 then none else some status

/-- The tests of the second loop of `poll`, which does not look at `ATA_SR_BSY` again. -/
def readyTest (status : UInt8) : Option Int :=
  if status &&& ataSrErr ≠ 0 ∨ status &&& ataSrDf ≠ 0 then some (-1)
  else if status &&& ataSrDrq ≠ 0 then some 0
  else none

def poll (channel : UInt16) : Io σ Int := do
  delay bus channel 400
  let status ← inb bus (ataRegStatus channel)
  let status ← loop fuel (testThenRead bus (ataRegStatus channel) busyTest) status
  loop fuel (testThenRead bus (ataRegStatus channel) readyTest) status

/-! ## Identification -/

/-- The selection, the zeroed registers and the command that start an identification, up to
the first status read. -/
def identifyStart (channel drive : UInt8) : Io σ UInt8 := do
  outb bus (ataRegDevsel (ataBusPort channel)) (ataIdentifyCmdMaster ||| (drive <<< 4))
  outb bus (ataRegSeccount0 (ataBusPort channel)) 0
  outb bus (ataRegLba0 (ataBusPort channel)) 0
  outb bus (ataRegLba1 (ataBusPort channel)) 0
  outb bus (ataRegLba2 (ataBusPort channel)) 0
  outb bus (ataRegCommand (ataBusPort channel)) ataCmdIdentify
  delay bus (ataBusControl channel) 400
  inb bus (ataRegStatus (ataBusPort channel))

/-- The tests of the polling loop of `identify_command`, which is left with the value of
`error`. That variable is assigned only when the drive reports an error. -/
def identifyTest (error status : UInt8) : Option UInt8 :=
  if status &&& ataSrErr ≠ 0 ∨ status &&& ataSrDf ≠ 0 then some 1
  else if ¬ status &&& ataSrBsy ≠ 0 ∧ status &&& ataSrDrq ≠ 0 then some error
  else none

/-- The signature an ATAPI drive leaves in its address registers. -/
def atapiSignature (lba1 lba2 : UInt8) : Bool :=
  (lba1 == 0x14 && lba2 == 0xeb) || (lba1 == 0x69 && lba2 == 0x96)

/-- The bytes of the model text, each word with its high byte first, closed by a NUL. -/
def identifyModel (memory : Memory) (buffer : Nat) (model : Vector UInt8 41) : Vector UInt8 41 :=
  let model := (List.range 20).foldl (fun model k =>
    let i := 2 * k
    (model.setIfInBounds i (load8 memory (buffer + (ataIdentModel + i + 1)))).setIfInBounds
      (i + 1) (load8 memory (buffer + (ataIdentModel + i)))) model
  model.setIfInBounds 40 0

/-- The fields taken from a filled buffer. -/
def identifyFields (memory : Memory) (buffer : Nat) (dev : AtaDev) (channel drive : UInt8) :
    AtaDev :=
  let commandsets := UInt32.ofNat (load memory (buffer + ataIdentCommandsets) 4)
  { dev with
    channel, drive, commandsets
    signature := UInt16.ofNat (load memory (buffer + ataIdentDevicetype) 2)
    capabilities := UInt16.ofNat (load memory (buffer + ataIdentCapabilities) 2)
    size :=
      if commandsets &&& ((1 : UInt32) <<< 26) ≠ 0 then
        UInt32.ofNat (load memory (buffer + ataIdentMaxLbaExt) 4)
      else UInt32.ofNat (load memory (buffer + ataIdentMaxLba) 4)
    model := identifyModel memory buffer dev.model }

/-- The end of `identify_command`: the 256 words of the data phase and what they say. -/
def identifyData (dev : AtaDev) (channel drive : UInt8) (buffer : Nat) : Io σ (UInt8 × AtaDev) := do
  times 256 fun i => do
    let word ← inw bus (ataRegData (ataBusPort channel))
    poke (buffer + i * 2) 2 word.toNat
  fun w => (some (0, identifyFields w.memory buffer dev channel drive), w)

/-- `error` is what the local variable of that name holds when the call starts: the source
declares it without a value. The result `-1` is a `u8`, so it reads as 255. -/
def identifyCommand (error : UInt8) (dev : AtaDev) (idx : UInt8) (buffer : Nat) :
    Io σ (UInt8 × AtaDev) := do
  let channel := idx / 2
  let drive := idx % 2
  let status ← identifyStart bus channel drive
  if status = 0 then pure (0, { dev with present := ataDeviceEmpty })
  else do
    let error ← loop fuel
      (readThenTest bus (ataRegStatus (ataBusPort channel)) (identifyTest error)) ()
    let dev := { dev with present := ataDevicePresent, type := ataTypeAta }
    if error ≠ 0 then do
      let lba1 ← inb bus (ataRegLba1 (ataBusPort channel))
      let lba2 ← inb bus (ataRegLba2 (ataBusPort channel))
      if atapiSignature lba1 lba2 then do
        let dev := { dev with type := ataTypeAtapi }
        outb bus (ataRegCommand (ataBusPort channel)) ataCmdIdentifyPacket
        delay bus (ataBusControl channel) 400
        identifyData bus dev channel drive buffer
      else pure (255, dev)
    else identifyData bus dev channel drive buffer

/-- One position of `ata_init`: the records and the `u8` accumulator `error`. `garbage i` is
what the uninitialised local of the `i`-th call holds. -/
def ataInitSlot (garbage : Nat → UInt8) (buffer i : Nat) (slots : (Nat → AtaDev) × UInt8) :
    Io σ ((Nat → AtaDev) × UInt8) := do
  let (devs, error) := slots
  let (result, dev) ← identifyCommand bus fuel (garbage i) (devs i) (UInt8.ofNat i) buffer
  pure (Function.update devs i dev, if result ≠ 0 then 255 else error)

/-- The records after the call and the result, the accumulator widened to an `int`. -/
def ataInit (garbage : Nat → UInt8) (buffer : Nat) (devs : Nat → AtaDev) :
    Io σ ((Nat → AtaDev) × Int) := do
  let (devs, error) ← timesCarry 4 (ataInitSlot bus fuel garbage buffer) (devs, 0)
  pure (devs, (error.toNat : Int))

/-! ## Transfers -/

/-- The task file and the command of a transfer; `start` and `count` are cut to bytes. -/
def issue (command : UInt8) (dev : AtaDev) (start count : Int32) (ch : UInt16) : Io σ Unit := do
  outb bus (ataRegDevsel ch) ((0xE0 : UInt8) ||| (dev.drive <<< 4))
  outb bus (ataRegError ch) 0
  outb bus (ataRegSeccount0 ch) count.toUInt32.toUInt8
  outb bus (ataRegLba0 ch) (start.toUInt32 &&& 0x000000FF).toUInt8
  outb bus (ataRegLba1 ch) ((start.toUInt32 &&& 0x0000FF00) >>> 8).toUInt8
  outb bus (ataRegLba2 ch) ((start.toUInt32 &&& 0x00FF0000) >>> 16).toUInt8
  outb bus (ataRegCommand ch) command

/-- One round of the loop over sectors; `word i j` moves word `j` of sector `i`. -/
def transferSector (word : Nat → Nat → Io σ Unit) (ch : UInt16) (i : Nat) :
    Io σ (Option Int) := do
  let failed ← poll bus fuel ch
  if failed ≠ 0 then pure (some (-1))
  else do
    times 256 (word i)
    pure none

/-- A transfer up to the end of its first `sectors` sectors. -/
def transferUpTo (command : UInt8) (word : UInt16 → Nat → Nat → Io σ Unit) (dev : AtaDev)
    (start count : Int32) (sectors : Nat) : Io σ (Option Int) := do
  let ch := ataBusPort dev.channel
  let _ ← loop fuel (readThenTest bus (ataRegStatus ch) busyTest) ()
  issue bus command dev start count ch
  timesReturn sectors (transferSector bus fuel (word ch) ch)

/-- What `ata_read` and `ata_write` share: they differ in the command and in how a word moves. -/
def transfer (command : UInt8) (word : UInt16 → Nat → Nat → Io σ Unit) (dev : AtaDev)
    (start count : Int32) : Io σ Int := do
  let result ← transferUpTo bus fuel command word dev start count count.toInt.toNat
  pure (result.getD 0)

/-- `ptr[i*256 + j] = inw(ATA_REG_DATA(ch))`, where `ptr` is `buf` seen as words. -/
def readWord (buf : Nat) (ch : UInt16) (i j : Nat) : Io σ Unit := do
  let value ← inw bus (ataRegData ch)
  poke (buf + 2 * (i * 256 + j)) 2 value.toNat

/-- `outw(ATA_REG_DATA(ch), ptr[i*256 + j])`. -/
def writeWord (buf : Nat) (ch : UInt16) (i j : Nat) : Io σ Unit := do
  let value ← peek (buf + 2 * (i * 256 + j)) 2
  outw bus (ataRegData ch) (UInt16.ofNat value)

def ataRead (dev : AtaDev) (start count : Int32) (buf : Nat) : Io σ Int :=
  transfer bus fuel ataCmdReadPio (readWord bus buf) dev start count

def ataWrite (dev : AtaDev) (start count : Int32) (buf : Nat) : Io σ Int :=
  transfer bus fuel ataCmdWritePio (writeWord bus buf) dev start count

/-- A call of `ata_read` or of `ata_write`. -/
structure Call where
  write : Bool
  dev : AtaDev
  start : Int32
  count : Int32
  buf : Nat

namespace Call

def run (call : Call) : Io σ Int :=
  if call.write then ataWrite bus fuel call.dev call.start call.count call.buf
  else ataRead bus fuel call.dev call.start call.count call.buf

def command (call : Call) : UInt8 := if call.write then ataCmdWritePio else ataCmdReadPio

def word (call : Call) : UInt16 → Nat → Nat → Io σ Unit :=
  if call.write then writeWord bus call.buf else readWord bus call.buf

/-- The call up to the end of its first `k` sectors. -/
def upTo (call : Call) (k : Nat) : Io σ (Option Int) :=
  transferUpTo bus fuel call.command (call.word bus) call.dev call.start call.count k

/-- The rounds of the loop over sectors. -/
def sectors (call : Call) : Nat := call.count.toInt.toNat

theorem run_eq (call : Call) : call.run bus fuel =
    call.upTo bus fuel call.sectors >>= fun result => pure (result.getD 0) := by
  cases write : call.write with
  | true => simp only [run, write, if_true, ataWrite, transfer, upTo, command, word, sectors]
  | false => simp [run, write, ataRead, transfer, upTo, command, word, sectors]

end Call

/-- The words of a buffer, sector by sector. -/
def bufferWords (m : Memory) (buf i j : Nat) : UInt16 :=
  UInt16.ofNat (load m (buf + 2 * (i * 256 + j)) 2)

end AtaKernel.Ata
