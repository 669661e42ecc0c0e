import AtaKernel.Ata.DeviceRuns

/-! Whole transfers against the drives. A transfer is a start, which leaves the
drive in the pause before the first sector, and a row of sectors; after each of
them the drive is in the pause before the next one, or at rest after the last.
Reads and writes differ only in how the words of one sector move, which is what
`Carries` states. -/
namespace AtaKernel.Ata
open ByteMemory PortIo

/-! ## Rows of sectors on the side of the drive -/

namespace Channel

/-- A channel that was in the pause before a sector, after that sector and before the next
pause. -/
def sectorDone (c : Channel) (write drive : Bool) (lba : Nat) (data : Nat → UInt16) : Channel :=
  ({ c with clock := c.clock + 1 }.entered write drive lba data 256).store write drive lba

/-- The same after `k` sectors from `lba` on. -/
def sectorsDone (c : Channel) (write drive : Bool) (lba : Nat) (data : Nat → Nat → UInt16) :
    Nat → Channel
  | 0 => c
  | k + 1 => (c.sectorsDone write drive lba data k).sectorDone write drive (lba + k) (data k)

/-- Where a command for `n` sectors stands after `k` of them. -/
def standing (c : Channel) (write drive : Bool) (lba n : Nat) (data : Nat → Nat → UInt16) (k : Nat) :
    Channel :=
  if k < n then (c.sectorsDone write drive lba data k).startSector write drive (lba + k) (n - k)
  else (c.sectorsDone write drive lba data k).finish write

variable {c : Channel} {write drive : Bool} {lba left n k : Nat}

theorem endSector_startSector (c : Channel) (p : Phase) (write drive : Bool) (lba left : Nat)
    (data : Nat → UInt16) :
    ({ c.startSector write drive lba left with phase := p }.entered write drive lba data
        256).endSector write drive lba left =
      if left ≤ 1 then (c.sectorDone write drive lba data).finish write
      else (c.sectorDone write drive lba data).startSector write drive (lba + 1) (left - 1) := by
  exact endSector_phase ({ c with clock := c.clock + 1 }.entered write drive lba data 256) p
    write drive lba left

theorem standing_succ (c : Channel) (p : Phase) (data : Nat → Nat → UInt16) (more : k < n) :
    ({ c.standing write drive lba n data k with phase := p }.entered write drive (lba + k) (data k)
        256).endSector write drive (lba + k) (n - k) =
      c.standing write drive lba n data (k + 1) := by
  rw [standing, if_pos more, endSector_startSector, standing]
  by_cases final : k + 1 < n
  · rw [if_neg (by omega), if_pos final, Nat.add_assoc, Nat.sub_sub]
    rfl
  · rw [if_pos (by omega), if_neg final]
    rfl

@[simp] theorem sectorsDone_waits (c : Channel) (write drive : Bool) (lba : Nat)
    (data : Nat → Nat → UInt16) (k : Nat) :
    (c.sectorsDone write drive lba data k).waits = c.waits := by
  induction k with
  | zero => rfl
  | succ k ih =>
    rw [sectorsDone, sectorDone, store]
    split <;> exact ih

@[simp] theorem sectorsDone_clock (c : Channel) (write drive : Bool) (lba : Nat)
    (data : Nat → Nat → UInt16) (k : Nat) :
    (c.sectorsDone write drive lba data k).clock = c.clock + k := by
  induction k with
  | zero => rfl
  | succ k ih =>
    rw [sectorsDone, sectorDone, store, ← Nat.add_assoc, ← ih]
    split <;> rfl

@[simp] theorem sectorsDone_capacity (c : Channel) (write drive : Bool) (lba : Nat)
    (data : Nat → Nat → UInt16) (k : Nat) :
    (c.sectorsDone write drive lba data k).capacity = c.capacity := by
  induction k with
  | zero => rfl
  | succ k ih =>
    rw [sectorsDone, sectorDone, store]
    split <;> exact ih

@[simp] theorem sectorsDone_asked (c : Channel) (write drive : Bool) (lba : Nat)
    (data : Nat → Nat → UInt16) (k : Nat) :
    (c.sectorsDone write drive lba data k).asked = c.asked := by
  induction k with
  | zero => rfl
  | succ k ih =>
    rw [sectorsDone, sectorDone, store]
    split <;> exact ih

/-- The `k`-th sector of a row is read, or is written and stored. -/
def lands (c : Channel) (write : Bool) (k : Nat) : Bool :=
  !write || (c.waits (c.clock + k + 1)).fault.isNone

theorem sectorDone_log (c : Channel) (write drive : Bool) (lba : Nat) (data : Nat → UInt16) :
    (c.sectorDone write drive lba data).log =
      if c.lands write 0 then (write, drive, lba) :: c.log else c.log := by
  cases write with
  | false => simp [sectorDone, store, entered, lands]
  | true =>
    simp only [sectorDone, store, entered, lands, true_and, Bool.not_true, Bool.false_or,
      Nat.add_zero, Option.isNone_iff_eq_none]
    split <;> rfl

theorem sectorDone_disk (c : Channel) (write drive : Bool) (lba : Nat) (data : Nat → UInt16) :
    (c.sectorDone write drive lba data).disk =
      if write && c.lands write 0 then Function.update c.disk drive
        (Function.update (c.disk drive) lba (firstWords data 256)) else c.disk := by
  cases write with
  | false => simp [sectorDone, store, entered]
  | true =>
    simp only [sectorDone, store, entered, lands, true_and, Bool.not_true, Bool.false_or,
      Nat.add_zero, Option.isNone_iff_eq_none, Bool.true_and, ↓reduceIte]
    split <;> rfl

theorem sectorsDone_lands (c : Channel) (write drive : Bool) (lba : Nat)
    (data : Nat → Nat → UInt16) (k : Nat) :
    (c.sectorsDone write drive lba data k).lands write 0 = c.lands write k := by
  rw [lands, lands, sectorsDone_waits, sectorsDone_clock, Nat.add_zero]

/-- The log grows by the sectors in order. -/
theorem sectorsDone_log (c : Channel) (write drive : Bool) (lba : Nat)
    (data : Nat → Nat → UInt16) (k : Nat) :
    (c.sectorsDone write drive lba data k).log =
      (((List.range k).filter (c.lands write)).map fun i => (write, drive, lba + i)).reverse ++
        c.log := by
  induction k with
  | zero => rfl
  | succ k ih =>
    rw [sectorsDone, sectorDone_log, sectorsDone_lands, ih, List.range_succ]
    cases lands : c.lands write k <;> simp [lands]

/-- A row of written sectors replaces those that were stored. -/
theorem sectorsDone_disk (c : Channel) (write drive : Bool) (lba : Nat)
    (data : Nat → Nat → UInt16) (k : Nat) (d : Bool) (l : Nat) :
    (c.sectorsDone write drive lba data k).disk d l =
      if write = true ∧ d = drive ∧ lba ≤ l ∧ l < lba + k ∧ c.lands write (l - lba) then
        firstWords (data (l - lba)) 256
      else c.disk d l := by
  induction k with
  | zero =>
    rw [if_neg (by omega)]
    rfl
  | succ k ih =>
    have passed (skipped : ¬ (write = true ∧ d = drive ∧ l = lba + k ∧ c.lands write k)) :
        (write = true ∧ d = drive ∧ lba ≤ l ∧ l < lba + k ∧ c.lands write (l - lba)) ↔
          (write = true ∧ d = drive ∧ lba ≤ l ∧ l < lba + (k + 1) ∧ c.lands write (l - lba)) := by
      constructor
      · rintro ⟨isWrite, same, low, high, lands⟩
        exact ⟨isWrite, same, low, by omega, lands⟩
      · rintro ⟨isWrite, same, low, high, lands⟩
        have other : l ≠ lba + k := by
          rintro rfl
          rw [Nat.add_sub_cancel_left] at lands
          exact skipped ⟨isWrite, same, rfl, lands⟩
        exact ⟨isWrite, same, low, by omega, lands⟩
    rw [sectorsDone, sectorDone_disk, sectorsDone_lands]
    by_cases stored : (write && c.lands write k) = true
    · rw [if_pos stored]
      by_cases here : d = drive ∧ l = lba + k
      · obtain ⟨rfl, rfl⟩ := here
        have inside : lba + k - lba = k := by omega
        have landed : write = true ∧ c.lands write k := by simpa using stored
        rw [if_pos ⟨landed.1, rfl, by omega, by omega, by rw [inside]; exact landed.2⟩, inside,
          Function.update_self, Function.update_self]
      · have elsewhere : Function.update (c.sectorsDone write drive lba data k).disk drive
            (Function.update ((c.sectorsDone write drive lba data k).disk drive) (lba + k)
              (firstWords (data k) 256)) d l = (c.sectorsDone write drive lba data k).disk d l := by
          by_cases same : d = drive
          · subst same
            rw [Function.update_self, Function.update_of_ne (fun eq => here ⟨rfl, eq⟩)]
          · rw [Function.update_of_ne same]
        rw [elsewhere, ih]
        exact if_congr (passed fun all => here ⟨all.2.1, all.2.2.1⟩) rfl rfl
    · rw [if_neg stored, ih]
      refine if_congr (passed fun all => stored ?_) rfl rfl
      rw [Bool.and_eq_true]
      exact ⟨all.1, all.2.2.2⟩

theorem sectorsDone_disk_read (c : Channel) (drive : Bool) (lba : Nat)
    (data : Nat → Nat → UInt16) (k : Nat) :
    (c.sectorsDone false drive lba data k).disk = c.disk := by
  funext d l
  rw [sectorsDone_disk, if_neg (by simp)]

/-- The status that refuses the `k`-th sector of a row from `lba` on, if any does. -/
def faultOf (c : Channel) (drive : Bool) (lba k : Nat) : Option UInt8 :=
  if lba + k < c.capacity drive then (c.waits (c.clock + k)).fault else some 0x51

theorem faultOf_faulty {s : UInt8} (fault : c.faultOf drive lba k = some s) :
    ¬ Busy s ∧ Faulty s := by
  unfold faultOf at fault
  split at fault
  · exact (c.waits (c.clock + k)).fault_faulty s fault
  · obtain rfl := Option.some.inj fault
    decide

theorem sectorsDone_faultAt (c : Channel) (write drive : Bool) (lba : Nat)
    (data : Nat → Nat → UInt16) (k : Nat) :
    (c.sectorsDone write drive lba data k).faultAt drive (lba + k) = c.faultOf drive lba k := by
  rw [faultAt, faultOf, sectorsDone_waits, sectorsDone_clock, sectorsDone_capacity]

end Channel

/-! ## Rows of sectors on the side of the host -/

/-- `word` moves the words `data i` of sector `lba + i` in that sector's data phase, and takes the
memory from `memory i` to `memory (i + 1)`. -/
def Carries (channel : UInt8) (word : Nat → Nat → Io Machine Unit) (write drive : Bool) (lba : Nat)
    (disk : Disk) (data : Nat → Nat → UInt16) (memory : Nat → Memory) : Prop :=
  ∀ i v left last, (v.device channel).phase = .sector write drive (lba + i) left 0 [] last →
    (write = false → (v.device channel).disk = disk) → v.memory = memory i →
    ∃ v', Returns (times 256 (word i)) v () v' ∧
      Moves channel v v' (((v.device channel).entered write drive (lba + i) (data i) 256).endSector
        write drive (lba + i) left) (memory (i + 1)) 256

/-- The sector `start + i` of a read fills the `i`-th 512 bytes of the buffer. -/
theorem carries_read {channel : UInt8} (within : channel < 4) (drive : Bool) (lba : Nat)
    (disk : Disk) (data : Nat → Nat → UInt16) (m : Memory) (buf : Nat) :
    Carries channel (readWord machineBus buf (ataBusPort channel)) false drive lba disk data
      fun i => storeWords m buf (fun t => disk drive (lba + t / 256) (t % 256)) (256 * i) := by
  intro i v left last phase same memory
  refine returns_readSector within phase memory (fun j low => ?_) (data i)
  rw [same rfl, show (256 * i + j) / 256 = i by omega, show (256 * i + j) % 256 = j by omega]

theorem carries_write {channel : UInt8} (within : channel < 4) (drive : Bool) (lba : Nat)
    (disk : Disk) (m : Memory) (buf : Nat) :
    Carries channel (writeWord machineBus buf (ataBusPort channel)) true drive lba disk
      (bufferWords m buf) fun _ => m := by
  rintro i v left last phase - rfl
  exact returns_writeSector within phase fun j _ => rfl

section Row
variable {channel : UInt8} {word : Nat → Nat → Io Machine Unit} {write drive : Bool}
  {lba n k : Nat} {disk : Disk} {data : Nat → Nat → UInt16} {memory : Nat → Memory}
  {c : Channel} {w : World Machine}

/-- A sector whose pause ends in a request moves, and leaves the drive where the next begins. -/
theorem finishes_sector (within : channel < 4)
    (carries : Carries channel word write drive lba disk data memory)
    (content : write = false → c.disk = disk) (more : k < n)
    (at_ : w.device channel = c.standing write drive lba n data k) (memory_ : w.memory = memory k)
    (fine : c.faultOf drive lba k = none) :
    ∃ w', Finishes (fun fuel => transferSector machineBus fuel word (ataBusPort channel) k) w
        none w' ∧
      Moves channel w w' (c.standing write drive lba n data (k + 1)) (memory (k + 1)) 256 := by
  have phase : (w.device channel).phase = .sector write drive (lba + k) (n - k) 0
      (c.waits (c.clock + k)).shows (c.waits (c.clock + k)).ready := by
    rw [at_, Channel.standing, if_pos more, Channel.startSector, Channel.sectorsDone_faultAt, fine]
    simp
  have ready := (c.waits (c.clock + k)).ready_ready
  obtain ⟨v, polled, moved⟩ := finishes_poll_row within
    (by rw [phase]; exact (c.waits (c.clock + k)).row)
    (by rw [phase]; exact ready.1) (by rw [phase]; exact .inr ready.2.1)
  have ok : pollResult (w.device channel).phase.last = 0 := by
    rw [phase]
    exact if_neg ready.2.2
  have settled : (v.device channel).phase =
      .sector write drive (lba + k) (n - k) 0 [] (c.waits (c.clock + k)).ready := by
    rw [moved.here]
    simp [phase, Phase.settled, Phase.drop, Phase.shows]
  have kept : write = false → (v.device channel).disk = disk := by
    rintro rfl
    rw [moved.here, at_, Channel.standing, if_pos more]
    exact (Channel.sectorsDone_disk_read ..).trans (content rfl)
  obtain ⟨w', words, moves⟩ := carries k v (n - k) _ settled kept (moved.memory.trans memory_)
  have onward : ((v.device channel).entered write drive (lba + k) (data k) 256).endSector
      write drive (lba + k) (n - k) = c.standing write drive lba n data (k + 1) := by
    rw [moved.here, at_]
    exact Channel.standing_succ c _ data more
  rw [onward] at moves
  refine ⟨w', polled.bind ?_, by simpa using moved.trans moves⟩
  simp only [ok, ne_eq, not_true_eq_false, ↓reduceIte]
  apply Returns.finishes
  apply words.bind
  exact returns_pure.mpr ⟨rfl, rfl⟩

/-- A sector whose pause ends in a fault ends the transfer. -/
theorem finishes_sector_fault (within : channel < 4) (more : k < n)
    (at_ : w.device channel = c.standing write drive lba n data k) {s : UInt8}
    (fault : c.faultOf drive lba k = some s) :
    ∃ w', Finishes (fun fuel => transferSector machineBus fuel word (ataBusPort channel) k) w
        (some (-1)) w' ∧
      Moves channel w w' { c.standing write drive lba n data k with phase := .idle [] s }
        w.memory 0 := by
  have phase : (w.device channel).phase = .idle (c.waits (c.clock + k)).shows s := by
    rw [at_, Channel.standing, if_pos more, Channel.startSector, Channel.sectorsDone_faultAt, fault]
    simp
  obtain ⟨clear, faulty⟩ := Channel.faultOf_faulty fault
  obtain ⟨w', polled, moves⟩ := finishes_poll_row within
    (by rw [phase]; exact (c.waits (c.clock + k)).row)
    (by rw [phase]; exact clear) (by rw [phase]; exact .inl faulty)
  have failed : pollResult (w.device channel).phase.last = -1 := by
    rw [phase]
    exact if_pos faulty
  have settled : (w.device channel).phase.settled = .idle [] s := by
    rw [phase]
    simp [Phase.settled, Phase.drop, Phase.shows]
  rw [settled, at_] at moves
  refine ⟨w', polled.bind ?_, moves⟩
  rw [failed]
  exact ⟨0, fun _ _ => returns_pure.mpr ⟨rfl, rfl⟩⟩

/-- As long as no fault is reported the sectors go through one after the other. -/
theorem finishes_sectors (within : channel < 4)
    (carries : Carries channel word write drive lba disk data memory)
    (content : write = false → c.disk = disk)
    (at_ : w.device channel = c.standing write drive lba n data 0) (memory_ : w.memory = memory 0)
    (few : k ≤ n)
    (fine : ∀ i < k, c.faultOf drive lba i = none) :
    ∃ w', Finishes (fun fuel =>
        timesReturn k (transferSector machineBus fuel word (ataBusPort channel))) w none w' ∧
      Moves channel w w' (c.standing write drive lba n data k) (memory k) (256 * k) := by
  induction k with
  | zero =>
    refine ⟨w, ⟨0, fun _ _ => returns_pure.mpr ⟨rfl, rfl⟩⟩, ?_, memory_, rfl⟩
    rw [← at_, Function.update_eq_self]
  | succ k ih =>
    obtain ⟨v, before, moved⟩ := ih (by omega) fun i low => fine i (by omega)
    obtain ⟨w', last, moves⟩ := finishes_sector within carries content (by omega) moved.here
      moved.memory (fine k (by omega))
    exact ⟨w', before.timesReturn_none last, moved.trans moves⟩

/-- The first fault is what the whole row of sectors returns. -/
theorem finishes_sectors_fault (within : channel < 4)
    (carries : Carries channel word write drive lba disk data memory)
    (content : write = false → c.disk = disk)
    (at_ : w.device channel = c.standing write drive lba n data 0) (memory_ : w.memory = memory 0)
    {rounds : Nat} (more : k < n) (rounds_ : k < rounds) {s : UInt8}
    (fine : ∀ i < k, c.faultOf drive lba i = none)
    (fault : c.faultOf drive lba k = some s) :
    ∃ w', Finishes (fun fuel =>
        timesReturn rounds (transferSector machineBus fuel word (ataBusPort channel))) w
          (some (-1)) w' ∧
      Moves channel w w' { c.standing write drive lba n data k with phase := .idle [] s }
        (memory k) (256 * k) := by
  obtain ⟨v, before, moved⟩ := finishes_sectors within carries content at_ memory_ more.le fine
  obtain ⟨w', last, moves⟩ := finishes_sector_fault within more moved.here fault
  rw [moved.memory] at moves
  exact ⟨w', before.timesReturn_some last rounds_, moved.trans moves⟩

end Row

/-! ## The start of a transfer -/

/-- A record as identification fills it in: it names one of the drives. -/
structure AtaDev.Placed (dev : AtaDev) : Prop where
  channel : dev.channel < 4
  drive : dev.drive < 2

/-- The drive that `dev->drive` names. -/
def AtaDev.unit (dev : AtaDev) : Bool := dev.drive == 1

/-- The sector number that the address registers spell for `start`. -/
def deviceLba (start : Int32) : Nat := start.toUInt32.toNat % 2 ^ 24

/-- The number of sectors that the count register asks for. -/
def commanded (count : Int32) : Nat :=
  if count.toUInt32.toUInt8 = 0 then 256 else count.toUInt32.toUInt8.toNat

theorem commanded_pos (count : Int32) : 0 < commanded count := by
  unfold commanded
  split
  · omega
  · rename_i nonzero
    exact Nat.pos_of_ne_zero fun zero => nonzero (UInt8.toNat_inj.mp zero)

/-- A non-negative `int` and its bit pattern are the same number. -/
theorem toNat_toUInt32 {x : Int32} (nonneg : 0 ≤ x.toInt) : x.toUInt32.toNat = x.toInt.toNat := by
  have cases : x.toInt = (x.toUInt32.toNat : Int) ∨
      x.toInt = (x.toUInt32.toNat : Int) - 4294967296 := by
    have := BitVec.toInt_eq_toNat_cond x.toBitVec
    split at this
    · exact .inl this
    · exact .inr this
  have bound := x.toUInt32.toNat_lt
  simp only [Nat.reducePow] at bound
  omega

theorem commanded_eq {count : Int32} (nonneg : 0 ≤ count.toInt) :
    commanded count = if count.toInt.toNat % 256 = 0 then 256 else count.toInt.toNat % 256 := by
  have cut : count.toUInt32.toUInt8.toNat = count.toInt.toNat % 256 := by
    rw [← toNat_toUInt32 nonneg]
    simp
  have zero : count.toUInt32.toUInt8 = 0 ↔ count.toInt.toNat % 256 = 0 := by
    rw [← cut, ← UInt8.toNat_inj]
    simp
  simp only [commanded, zero, cut]

/-- For one to 256 sectors the drive is asked for as many as the caller wants. -/
theorem commanded_of_le {count : Int32} (low : 1 ≤ count.toInt) (high : count.toInt ≤ 256) :
    commanded count = count.toInt.toNat := by
  rw [commanded_eq (by omega)]
  split <;> omega

private theorem byte_at (n k : Nat) : (n &&& (255 <<< k)) >>> k = n / 2 ^ k % 256 := by
  rw [Nat.shiftRight_and_distrib, Nat.shiftLeft_shiftRight, Nat.shiftRight_eq_div_pow]
  exact Nat.and_two_pow_sub_one_eq_mod _ 8

/-- The three address registers hold the low 24 bits of `start`; the select register holds none. -/
theorem task_address (c : Channel) (dev : AtaDev) (placed : dev.drive < 2) (start count : Int32) :
    (c.task dev start count).address = deviceLba start := by
  have low : (start.toUInt32 &&& 0x000000FF).toUInt8.toNat = start.toUInt32.toNat % 256 := by
    have := byte_at start.toUInt32.toNat 0
    simp only [UInt32.toNat_toUInt8, UInt32.toNat_and, UInt32.toNat_ofNat] at this ⊢
    simp only [Nat.shiftLeft_zero, Nat.shiftRight_zero, Nat.pow_zero, Nat.div_one] at this
    simp [this]
  have middle : ((start.toUInt32 &&& 0x0000FF00) >>> 8).toUInt8.toNat =
      start.toUInt32.toNat / 256 % 256 := by
    have := byte_at start.toUInt32.toNat 8
    simp at this ⊢
    omega
  have high : ((start.toUInt32 &&& 0x00FF0000) >>> 16).toUInt8.toNat =
      start.toUInt32.toNat / 65536 % 256 := by
    have := byte_at start.toUInt32.toNat 16
    simp at this ⊢
    omega
  have none : ((0xE0 : UInt8) ||| (dev.drive <<< 4)) &&& 0x0f = 0 := by
    have all : ∀ d < 2, ((0xE0 : UInt8) ||| (UInt8.ofNat d <<< 4)) &&& 0x0f = 0 := by decide
    simpa using all dev.drive.toNat placed
  simp only [Channel.address, Channel.task, low, middle, high, none, deviceLba]
  simp only [UInt8.toNat_zero]
  omega

theorem task_drive (c : Channel) (dev : AtaDev) (placed : dev.drive < 2) (start count : Int32) :
    (c.task dev start count).drive = dev.unit := by
  have all : ∀ d < 2, decide (((0xE0 : UInt8) ||| (UInt8.ofNat d <<< 4)) &&& 0x10 ≠ 0) =
      (UInt8.ofNat d == 1) := by decide
  simpa [Channel.drive, Channel.task, AtaDev.unit] using all dev.drive.toNat placed

/-- The channel as the command leaves it, but for the pause that follows. -/
def Channel.issued (c : Channel) (dev : AtaDev) (start count : Int32) : Channel :=
  { c.freed.task dev start count with asked := c.asked + commanded count }

theorem command_task (c : Channel) (dev : AtaDev) (placed : dev.drive < 2) (start count : Int32)
    {command : UInt8} (known : command = ataCmdReadPio ∨ command = ataCmdWritePio) :
    (c.freed.task dev start count).command command =
      (c.issued dev start count).startSector (command == ataCmdWritePio) dev.unit (deviceLba start)
        (commanded count) := by
  have lba : (c.freed.task dev start count).devsel &&& 0x40 ≠ 0 := by
    have all : ∀ d < 2, ((0xE0 : UInt8) ||| (UInt8.ofNat d <<< 4)) &&& 0x40 ≠ 0 := by decide
    simpa [Channel.task] using all dev.drive.toNat placed
  rw [Channel.command, if_pos ⟨known, lba⟩, task_address _ _ placed, task_drive _ _ placed]
  rfl

section Start
variable {dev : AtaDev} {w : World Machine} {command : UInt8}
  {word : UInt16 → Nat → Nat → Io Machine Unit}

/-- A transfer starts by waiting for the channel, writing the task file and the command; what is
left of it is the row of sectors. -/
theorem finishes_start (placed : dev.Placed) (idle : Idle (w.device dev.channel))
    (known : command = ataCmdReadPio ∨ command = ataCmdWritePio) (start count : Int32) :
    ∃ w₁, (∀ sectors r w₂, Finishes (fun fuel => timesReturn sectors
          (transferSector machineBus fuel (word (ataBusPort dev.channel))
            (ataBusPort dev.channel))) w₁ r w₂ →
        Finishes (fun fuel => transferUpTo machineBus fuel command word dev start count sectors)
          w r w₂) ∧
      (∀ fuel sectors r w₂,
        Returns (transferUpTo machineBus fuel command word dev start count sectors) w r w₂ →
        Returns (timesReturn sectors (transferSector machineBus fuel
          (word (ataBusPort dev.channel)) (ataBusPort dev.channel))) w₁ r w₂) ∧
      Moves dev.channel w w₁ (((w.device dev.channel).issued dev start count).startSector
        (command == ataCmdWritePio) dev.unit (deviceLba start) (commanded count)) w.memory 0 := by
  obtain ⟨s, v, waited, freed⟩ := finishes_waitIdle placed.channel idle
  have phase : (v.device dev.channel).phase = .idle [] (w.device dev.channel).phase.last := by
    rw [freed.here, Channel.freed]
    exact idle.settled
  obtain ⟨w₁, issued, moves⟩ := returns_issue placed.channel phase command dev start count
  refine ⟨w₁, fun sectors r w₂ row => waited.bind (issued.finishes.bind row), ?_, ?_⟩
  · intro fuel sectors r w₂ run
    obtain ⟨s', v', waited', rest⟩ := returns_bind.mp run
    obtain ⟨rfl, rfl⟩ := waited.agrees (fuelSteady_loop _ _) waited'
    exact issued.bind_iff.mp rest
  · have together := freed.trans moves
    rwa [freed.here, command_task _ _ placed.drive start count known, freed.memory] at together

end Start

/-! ## Whole calls -/

namespace Call

/-- The sector number that the call's command names. -/
def lba (call : Call) : Nat := deviceLba call.start

/-- The number of sectors that the call's command asks for. -/
def asks (call : Call) : Nat := commanded call.count

/-- Where the channel stands after `k` sectors of a call that found it as `c` and the memory as
`m`. -/
def standing (call : Call) (c : Channel) (m : Memory) (k : Nat) : Channel :=
  (c.issued call.dev call.start call.count).standing call.write call.dev.unit call.lba call.asks
    (bufferWords m call.buf) k

theorem standing_over (call : Call) (c : Channel) (m : Memory) :
    call.standing c m call.asks = ((c.issued call.dev call.start call.count).sectorsDone call.write
      call.dev.unit call.lba (bufferWords m call.buf) call.asks).finish call.write :=
  if_neg (lt_irrefl _)

/-- The memory at that point. -/
def filled (call : Call) (c : Channel) (m : Memory) (k : Nat) : Memory :=
  if call.write then m
  else storeWords m call.buf (fun t => c.disk call.dev.unit (call.lba + t / 256) (t % 256)) (256 * k)

/-- The status that refuses the `k`-th sector, if any does. -/
def refusal (call : Call) (c : Channel) (k : Nat) : Option UInt8 :=
  c.faultOf call.dev.unit call.lba k

theorem refusal_prompt (call : Call) {capacity k : Nat} (within : call.lba + k < capacity) :
    call.refusal ((promptMachine capacity).device call.dev.channel) k = none :=
  if_pos within

variable {call : Call} {w w' : World Machine} {k rounds : Nat}

theorem carries (call : Call) (within : call.dev.channel < 4) (c : Channel) (m : Memory) :
    Carries call.dev.channel (call.word machineBus (ataBusPort call.dev.channel)) call.write
      call.dev.unit call.lba c.disk (bufferWords m call.buf) (call.filled c m) := by
  cases write : call.write with
  | true =>
    have memory : call.filled c m = fun _ => m := by
      funext k
      simp [filled, write]
    rw [memory]
    simpa only [word, write, if_true] using
      carries_write within call.dev.unit call.lba c.disk m call.buf
  | false =>
    have memory : call.filled c m = fun k => storeWords m call.buf
        (fun t => c.disk call.dev.unit (call.lba + t / 256) (t % 256)) (256 * k) := by
      funext k
      simp [filled, write]
    rw [memory]
    simpa [word, write] using
      carries_read within call.dev.unit call.lba c.disk (bufferWords m call.buf) m call.buf

theorem command_known (call : Call) :
    call.command = ataCmdReadPio ∨ call.command = ataCmdWritePio := by
  unfold command
  split
  · exact .inr rfl
  · exact .inl rfl

theorem command_write (call : Call) : (call.command == ataCmdWritePio) = call.write := by
  cases write : call.write with
  | true => simp [command, write]
  | false =>
    simp only [command, write]
    decide

/-- A call brings the drive into the pause before its first sector, and the rest of it is the row
of sectors. -/
theorem begins (placed : call.dev.Placed) (idle : Idle (w.device call.dev.channel)) :
    ∃ w₁, (∀ sectors r w₂, Finishes (fun fuel => timesReturn sectors (transferSector machineBus fuel
          (call.word machineBus (ataBusPort call.dev.channel)) (ataBusPort call.dev.channel)))
            w₁ r w₂ →
        Finishes (fun fuel => call.upTo machineBus fuel sectors) w r w₂) ∧
      (∀ fuel sectors r w₂, Returns (call.upTo machineBus fuel sectors) w r w₂ →
        Returns (timesReturn sectors (transferSector machineBus fuel
          (call.word machineBus (ataBusPort call.dev.channel)) (ataBusPort call.dev.channel)))
            w₁ r w₂) ∧
      Moves call.dev.channel w w₁ (call.standing (w.device call.dev.channel) w.memory 0)
        (call.filled (w.device call.dev.channel) w.memory 0) 0 := by
  obtain ⟨w₁, complete, sound, moves⟩ := @finishes_start _ _ _ (call.word machineBus) placed idle
    call.command_known call.start call.count
  refine ⟨w₁, complete, sound, ?_⟩
  have first : call.filled (w.device call.dev.channel) w.memory 0 = w.memory := by
    simp [filled, storeWords]
  have asked : 0 < call.asks := commanded_pos call.count
  rw [standing, Channel.standing, if_pos asked, first, ← call.command_write]
  exact moves

private theorem issued_disk (call : Call) (c : Channel) :
    call.write = false → (c.issued call.dev call.start call.count).disk = c.disk :=
  fun _ => rfl

/-- As many sectors as were asked for go through, if none is refused. -/
theorem upTo_fine (placed : call.dev.Placed) (idle : Idle (w.device call.dev.channel))
    (few : k ≤ call.asks)
    (fine : ∀ i < k, call.refusal (w.device call.dev.channel) i = none) :
    ∃ w', Finishes (fun fuel => call.upTo machineBus fuel k) w none w' ∧
      Moves call.dev.channel w w' (call.standing (w.device call.dev.channel) w.memory k)
        (call.filled (w.device call.dev.channel) w.memory k) (256 * k) := by
  obtain ⟨w₁, complete, -, moves⟩ := begins placed idle
  obtain ⟨w', row, moved⟩ := finishes_sectors placed.channel
    (call.carries placed.channel (w.device call.dev.channel) w.memory)
    (issued_disk call _) moves.here moves.memory few fine
  have together := moves.trans moved
  rw [Nat.zero_add] at together
  exact ⟨w', complete _ _ _ row, together⟩

/-- The first sector to be refused ends the call. -/
theorem upTo_fault (placed : call.dev.Placed) (idle : Idle (w.device call.dev.channel))
    (more : k < call.asks) (rounds_ : k < rounds) {s : UInt8}
    (fine : ∀ i < k, call.refusal (w.device call.dev.channel) i = none)
    (fault : call.refusal (w.device call.dev.channel) k = some s) :
    ∃ w', Finishes (fun fuel => call.upTo machineBus fuel rounds) w (some (-1)) w' ∧
      Moves call.dev.channel w w'
        { call.standing (w.device call.dev.channel) w.memory k with phase := .idle [] s }
        (call.filled (w.device call.dev.channel) w.memory k) (256 * k) := by
  obtain ⟨w₁, complete, -, moves⟩ := begins placed idle
  obtain ⟨w', row, moved⟩ := finishes_sectors_fault placed.channel
    (call.carries placed.channel (w.device call.dev.channel) w.memory)
    (issued_disk call _) moves.here moves.memory more rounds_ fine fault
  have together := moves.trans moved
  rw [Nat.zero_add] at together
  exact ⟨w', complete _ _ _ row, together⟩

/-- Once the sectors asked for have passed and the drive is at rest, a call that wants more is
stuck. -/
theorem upTo_never (placed : call.dev.Placed) (idle : Idle (w.device call.dev.channel))
    (more : call.asks < rounds)
    (fine : ∀ i < call.asks, call.refusal (w.device call.dev.channel) i = none)
    (quiet : Quiet (call.standing (w.device call.dev.channel) w.memory call.asks).phase.last)
    (fuel : Nat) (r : Option Int) : ¬ Returns (call.upTo machineBus fuel rounds) w r w' := by
  obtain ⟨w₁, -, sound, moves⟩ := begins placed idle
  obtain ⟨v, row, moved⟩ := finishes_sectors placed.channel
    (call.carries placed.channel (w.device call.dev.channel) w.memory)
    (issued_disk call _) moves.here moves.memory le_rfl fine
  have here : v.device call.dev.channel =
      call.standing (w.device call.dev.channel) w.memory call.asks := moved.here
  have busy : ∀ s ∈ (v.device call.dev.channel).phase.shows, Busy s := by
    rw [here, standing_over]
    exact (Channel.waits _ _).busy_busy
  have never : ∀ m r v', ¬ Returns (transferSector machineBus m
      (call.word machineBus (ataBusPort call.dev.channel)) (ataBusPort call.dev.channel) call.asks)
        v r v' := by
    intro m r v' run
    obtain ⟨failed, u, polled, -⟩ := returns_bind.mp run
    exact poll_never_returns placed.channel busy (by rw [here]; exact quiet) m failed polled
  intro run
  exact row.timesReturn_never (fuelSteady_transferSector _ _ _) never more fuel r w'
    (sound _ _ _ _ run)

theorem first_refusal (call : Call) (c : Channel) (n : Nat) :
    (∀ i < n, call.refusal c i = none) ∨
      ∃ k < n, ∃ s, (∀ i < k, call.refusal c i = none) ∧ call.refusal c k = some s := by
  induction n with
  | zero => exact .inl fun i low => absurd low (Nat.not_lt_zero i)
  | succ n ih =>
    rcases ih with fine | ⟨k, low, s, before, fault⟩
    · cases last : call.refusal c n with
      | none =>
        left
        intro i low
        by_cases here : i = n
        · rw [here, last]
        · exact fine i (by omega)
      | some s => exact .inr ⟨n, by omega, s, fine, last⟩
    · exact .inr ⟨k, by omega, s, before, fault⟩

/-- A call that gets past its first `k` sectors has had none of those it asked for refused. -/
theorem upTo_reached (placed : call.dev.Placed) (idle : Idle (w.device call.dev.channel))
    {fuel : Nat} (run : Returns (call.upTo machineBus fuel k) w none w') :
    ∀ i < k, i < call.asks → call.refusal (w.device call.dev.channel) i = none := by
  intro i low asked
  rcases call.first_refusal (w.device call.dev.channel) (i + 1) with fine | ⟨j, le, s, before, fault⟩
  · exact fine i (by omega)
  · obtain ⟨v, failed, -⟩ := upTo_fault placed idle (by omega) (by omega : j < k) before fault
    have same := failed.agrees (fuelSteady_upTo _ _ _) run
    cases same.1

theorem upTo_standing (placed : call.dev.Placed) (idle : Idle (w.device call.dev.channel))
    (few : k ≤ call.asks) {fuel : Nat} (run : Returns (call.upTo machineBus fuel k) w none w') :
    Moves call.dev.channel w w' (call.standing (w.device call.dev.channel) w.memory k)
      (call.filled (w.device call.dev.channel) w.memory k) (256 * k) := by
  have reached := upTo_reached placed idle run
  obtain ⟨v, fine, moves⟩ := upTo_fine placed idle few fun i low => reached i low (by omega)
  obtain ⟨-, rfl⟩ := fine.agrees (fuelSteady_upTo _ _ _) run
  exact moves

@[simp] theorem standing_asked (call : Call) (c : Channel) (m : Memory) (k : Nat) :
    (call.standing c m k).asked = c.asked + call.asks := by
  have asked := Channel.sectorsDone_asked (c.issued call.dev call.start call.count) call.write
    call.dev.unit call.lba (bufferWords m call.buf) k
  rw [standing, Channel.standing]
  split <;> exact asked

theorem asks_eq (nonneg : 0 ≤ call.count.toInt) :
    call.asks = if call.sectors % 256 = 0 then 256 else call.sectors % 256 :=
  commanded_eq nonneg

theorem asks_le (nonneg : 0 ≤ call.count.toInt) : call.asks ≤ 256 := by
  rw [asks_eq nonneg]
  split <;> omega

/-- A call that is refused one of the sectors it asked for reports it. -/
theorem finishes_refused (placed : call.dev.Placed) (idle : Idle (w.device call.dev.channel))
    {k : Nat} (asked : k < call.asks) (low : k < call.sectors) {s : UInt8}
    (fine : ∀ i < k, call.refusal (w.device call.dev.channel) i = none)
    (fault : call.refusal (w.device call.dev.channel) k = some s) :
    ∃ w', Finishes (fun fuel => call.run machineBus fuel) w (-1) w' := by
  obtain ⟨w', failed, -⟩ := upTo_fault placed idle asked low fine fault
  refine ⟨w', ?_⟩
  simp only [run_eq]
  exact failed.bind ⟨0, fun _ _ => returns_pure.mpr ⟨rfl, rfl⟩⟩

/-- A call that is refused nothing, and asks for at least as many sectors as it moves, succeeds. -/
theorem finishes_moved (placed : call.dev.Placed) (idle : Idle (w.device call.dev.channel))
    (few : call.sectors ≤ call.asks)
    (fine : ∀ i < call.sectors, call.refusal (w.device call.dev.channel) i = none) :
    ∃ w', Finishes (fun fuel => call.run machineBus fuel) w 0 w' ∧
      Moves call.dev.channel w w'
        (call.standing (w.device call.dev.channel) w.memory call.sectors)
        (call.filled (w.device call.dev.channel) w.memory call.sectors) (256 * call.sectors) := by
  obtain ⟨w', done, moves⟩ := upTo_fine placed idle few fine
  refine ⟨w', ?_, moves⟩
  simp only [run_eq]
  exact done.bind ⟨0, fun _ _ => returns_pure.mpr ⟨rfl, rfl⟩⟩

/-- What a call that returns 0 went through. -/
theorem returned_zero (placed : call.dev.Placed) (idle : Idle (w.device call.dev.channel))
    (few : call.sectors ≤ call.asks) {fuel : Nat} (run : Returns (call.run machineBus fuel) w 0 w') :
    (∀ i < call.sectors, call.refusal (w.device call.dev.channel) i = none) ∧
      Moves call.dev.channel w w'
        (call.standing (w.device call.dev.channel) w.memory call.sectors)
        (call.filled (w.device call.dev.channel) w.memory call.sectors) (256 * call.sectors) := by
  rcases call.first_refusal (w.device call.dev.channel) call.sectors with
    fine | ⟨k, low, s, before, fault⟩
  · obtain ⟨v, done, moves⟩ := finishes_moved placed idle few fine
    obtain ⟨-, rfl⟩ := done.agrees (fuelSteady_run _ _) run
    exact ⟨fine, moves⟩
  · obtain ⟨v, failed⟩ := finishes_refused placed idle (by omega) low before fault
    have same := failed.agrees (fuelSteady_run _ _) run
    exact absurd same.1 (by decide)

end Call

end AtaKernel.Ata
