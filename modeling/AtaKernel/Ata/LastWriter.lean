import AtaKernel.Library.BlockStore
import AtaKernel.Ata.Addressing

/-! Sequences of transfers on drives that never fail. Seen from outside, the
drives are a store of 512-byte sectors: a write replaces the sectors it names, a
read hands them out, and every call succeeds. The drives of a channel share its
registers and take any time they like; between two calls the host may do to its
memory what it wants. -/
namespace AtaKernel.Ata
open ByteMemory PortIo BlockStore

/-- The sectors of all drives by channel and drive, each of 256 words. -/
abbrev Sectors := Store (UInt8 × Bool) (Fin 256 → UInt16)

/-- What the drives hold. -/
def contents (w : World Machine) : Sectors :=
  fun drive lba word => (w.device drive.1).disk drive.2 lba word

/-- One call of a sequence, with the memory it is made in. -/
structure Step where
  call : Call
  memory : Memory

namespace Step

/-- The drive that the record names. -/
def drive (step : Step) : UInt8 × Bool := (step.call.dev.channel, step.call.dev.unit)

def first (step : Step) : Nat := step.call.start.toInt.toNat

/-- What the call does to the store: nothing, for a read. -/
def writes (step : Step) : List (Write (UInt8 × Bool) (Fin 256 → UInt16)) :=
  if step.call.write then
    [⟨step.drive, step.first, step.call.sectors,
      fun i word => bufferWords step.memory step.call.buf i word⟩]
  else []

/-- A read leaves in its buffer, at `memory`, the sectors that `store` holds. -/
def Fills (step : Step) (store : Sectors) (memory : Memory) : Prop :=
  step.call.write = false → ∀ k < step.call.sectors, ∀ word : Fin 256,
    bufferWords memory step.call.buf k word = store step.drive (step.first + k) word

/-- The arguments are what the interface asks for, on drives of at least this capacity. -/
structure Fits (step : Step) (capacity : UInt8 × Bool → Nat) : Prop where
  placed : step.call.dev.Placed
  start : 0 ≤ step.call.start.toInt
  few : 1 ≤ step.call.count.toInt
  many : step.call.count.toInt ≤ 256
  low : step.call.start.toInt + step.call.count.toInt ≤ 2 ^ 24
  within : step.call.start.toInt + step.call.count.toInt ≤ capacity step.drive

end Step

/-- The calls of a sequence are made one after the other; each returns a result and leaves a
memory. -/
inductive Sequence : World Machine → List Step → List (Int × Memory) → World Machine → Prop where
  | nil (w) : Sequence w [] [] w
  | cons {w v w' step steps outcomes r} :
    Finishes (fun fuel => step.call.run machineBus fuel) { w with memory := step.memory } r v →
    Sequence v steps outcomes w' → Sequence w (step :: steps) ((r, v.memory) :: outcomes) w'

/-- The outcomes are those of the store: every call succeeds, and a read fills its buffer with
what the store holds at the moment of the call. -/
inductive Answered : Sectors → List Step → List (Int × Memory) → Prop where
  | nil (store) : Answered store [] []
  | cons {store : Sectors} {step : Step} {steps outcomes memory} : step.Fills store memory →
    Answered (store.after step.writes) steps outcomes →
    Answered store (step :: steps) ((0, memory) :: outcomes)

/-- A sequence has one course only. -/
theorem Sequence.deterministic {w v v' : World Machine} {steps : List Step}
    {outcomes outcomes' : List (Int × Memory)} (first : Sequence w steps outcomes v)
    (second : Sequence w steps outcomes' v') : outcomes = outcomes' ∧ v = v' := by
  induction first generalizing outcomes' with
  | nil =>
    cases second
    exact ⟨rfl, rfl⟩
  | cons run _ ih =>
    cases second with
    | cons run' rest =>
      obtain ⟨rfl, rfl⟩ := run.deterministic run'
      obtain ⟨rfl, rfl⟩ := ih rest
      exact ⟨rfl, rfl⟩

/-- Drives at rest that report no fault, of known capacity. -/
structure Healthy (w : World Machine) (capacity : UInt8 × Bool → Nat) : Prop where
  idle : ∀ channel, Idle (w.device channel)
  faultless : ∀ channel i, ((w.device channel).waits i).fault = none
  capacity : ∀ channel drive, (w.device channel).capacity drive = capacity (channel, drive)

variable {w : World Machine} {capacity : UInt8 × Bool → Nat} {step : Step}

/-- After its last sector a drive is at rest again. -/
theorem idle_finish (c : Channel) (write : Bool) : Idle (c.finish write) := by
  refine ⟨rfl, (c.waits c.clock).busy_busy, ?_⟩
  change ¬ Busy (if write then (c.waits c.clock).fault.getD _ else _)
  have rest := (c.waits c.clock).rest_quiet.1
  split
  · cases fault : (c.waits c.clock).fault with
    | none => exact rest
    | some s => exact ((c.waits c.clock).fault_faulty s fault).1
  · exact rest

theorem Healthy.fine (healthy : Healthy w capacity) (fits : step.Fits capacity) :
    ∀ i < step.call.sectors, step.call.refusal (w.device step.call.dev.channel) i = none := by
  intro i inside
  have lba : step.call.lba = step.call.start.toInt.toNat := by
    have few := fits.few
    have low := fits.low
    exact (lba_eq_iff fits.start).mpr (by omega)
  have below : step.call.lba + i <
      (w.device step.call.dev.channel).capacity step.call.dev.unit := by
    have start := fits.start
    have within := fits.within
    unfold Call.sectors at inside
    rw [healthy.capacity, lba]
    simp only [Step.drive] at within
    omega
  rw [Call.refusal, Channel.faultOf, if_pos below, healthy.faultless]

/-- A store that `Exact` describes is the store after the call's writes. -/
theorem contents_exact {w' : World Machine} (memory : w.memory = step.memory)
    (exact_ : Exact step.call w w') : contents w' = (contents w).after step.writes := by
  funext drive lba word
  by_cases here : drive.1 = step.call.dev.channel
  · have content := exact_.content drive.2 lba
    rw [contents, here, content, Step.writes]
    cases write : step.call.write with
    | false => simp [contents, here]
    | true =>
      have covers : (drive.2 = step.call.dev.unit ∧ step.call.start.toInt.toNat ≤ lba ∧
          lba < step.call.start.toInt.toNat + step.call.sectors) ↔
          (drive = step.drive ∧ step.first ≤ lba ∧ lba < step.first + step.call.sectors) := by
        simp [Step.drive, Step.first, Prod.ext_iff, here]
      simp only [true_and, if_true, after_cons, after_nil, Store.write, Write.Covers, covers,
        memory, Step.first]
      split
      · simp [firstWords]
      · simp [contents, here]
  · have other : drive ≠ step.drive := fun eq => here (congrArg Prod.fst eq)
    rw [contents, exact_.others _ here, Step.writes]
    split
    · rw [after_cons, after_nil, write_apart _ fun covers => other covers.1]
      rfl
    · rfl

/-- One call on healthy drives does what the store does, and leaves the drives healthy. -/
theorem healthy_step (healthy : Healthy w capacity) (fits : step.Fits capacity) :
    ∃ w', Finishes (fun fuel => step.call.run machineBus fuel)
        { w with memory := step.memory } 0 w' ∧
      step.Fills (contents w) w'.memory ∧ contents w' = (contents w).after step.writes ∧
      Healthy w' capacity := by
  have idle : Idle (w.device step.call.dev.channel) := healthy.idle _
  have same : step.call.sectors = step.call.asks := (commanded_of_le fits.few fits.many).symm
  have few : 1 ≤ step.call.sectors := by
    have := fits.few
    unfold Call.sectors
    omega
  have many : step.call.sectors ≤ 256 := by
    have := fits.many
    unfold Call.sectors
    omega
  have low : step.call.start.toInt < 2 ^ 24 := by
    have := fits.few
    have := fits.low
    omega
  obtain ⟨w', ⟨enough, done⟩, moves⟩ := @Call.finishes_moved step.call
    { w with memory := step.memory } fits.placed idle same.le (healthy.fine fits)
  have kept : (w.device step.call.dev.channel).lands step.call.write (step.call.sectors - 1) := by
    simp [Channel.lands, healthy.faultless]
  have exact_ : Exact step.call { w with memory := step.memory } w' :=
    exact_of fits.placed idle fits.start few many same (done enough le_rfl) low kept
  refine ⟨w', ⟨enough, done⟩, ?_, ?_, ?_⟩
  · intro read k inside word
    exact exact_.received read k inside word word.isLt
  · exact @contents_exact { w with memory := step.memory } step w' rfl exact_
  · have final := moves.here
    rw [same, Call.standing_over] at final
    constructor
    · intro channel
      by_cases here : channel = step.call.dev.channel
      · rw [here, final]
        exact idle_finish _ _
      · rw [exact_.others _ here]
        exact healthy.idle channel
    · intro channel i
      by_cases here : channel = step.call.dev.channel
      · rw [here, final]
        simp only [Channel.finish, Channel.sectorsDone_waits]
        exact healthy.faultless _ i
      · rw [exact_.others _ here]
        exact healthy.faultless channel i
    · intro channel drive
      by_cases here : channel = step.call.dev.channel
      · rw [here, final]
        simp only [Channel.finish, Channel.sectorsDone_capacity]
        exact healthy.capacity _ drive
      · rw [exact_.others _ here]
        exact healthy.capacity channel drive

/-- On drives that never fail, any sequence of transfers succeeds throughout; the drives end up
holding what the writes, in order, make of a store of sectors, and every read returns what that
store holds at the time. -/
theorem transfers_refine_store (w : World Machine) (capacity : UInt8 × Bool → Nat)
    (steps : List Step) (healthy : Healthy w capacity) (fits : ∀ step ∈ steps, step.Fits capacity) :
    ∃ outcomes w', Sequence w steps outcomes w' ∧ Answered (contents w) steps outcomes ∧
      contents w' = (contents w).after (steps.flatMap Step.writes) := by
  induction steps generalizing w with
  | nil => exact ⟨[], w, .nil w, .nil _, rfl⟩
  | cons step steps ih =>
    obtain ⟨v, run, fills, content, healthy'⟩ :=
      healthy_step healthy (fits step List.mem_cons_self)
    obtain ⟨outcomes, w', rest, answered, last⟩ :=
      ih v healthy' fun later inside => fits later (List.mem_cons_of_mem step inside)
    refine ⟨(0, v.memory) :: outcomes, w', .cons run rest, .cons fills ?_, ?_⟩
    · rw [← content]
      exact answered
    · rw [last, content, List.flatMap_cons, after_append]

theorem transfers_refine_store_write_read :
    let write : Step := ⟨⟨true, .located 0 1 1024, 3, 2, 0⟩, fun _ => 7⟩
    let read : Step := ⟨⟨false, .located 0 1 1024, 4, 1, 512⟩, fun _ => 0⟩
    ∃ outcomes w', Sequence (promptMachine 1024) [write, read] outcomes w' ∧
      Answered (contents (promptMachine 1024)) [write, read] outcomes ∧
      contents w' = (contents (promptMachine 1024)).after ([write, read].flatMap Step.writes) := by
  intro write read
  refine transfers_refine_store (promptMachine 1024) (fun _ => 1024) [write, read]
    ⟨fun _ => idle_fresh _ _, fun _ _ => rfl, fun _ _ => rfl⟩ ?_
  intro step inside
  have either : step = write ∨ step = read := by simpa using inside
  rcases either with rfl | rfl
  · exact ⟨⟨by decide, by decide⟩, by decide, by decide, by decide, by decide, by decide⟩
  · exact ⟨⟨by decide, by decide⟩, by decide, by decide, by decide, by decide, by decide⟩

/-- In the end a sector holds what the last write that covers it found in its buffer. -/
theorem sector_holds_last_write {before later : List Step} {write : Write (UInt8 × Bool) _}
    {drive : UInt8 × Bool} {lba : Nat} (isWrite : step.writes = [write])
    (covers : write.Covers drive lba)
    (last : ∀ other ∈ later, ∀ y ∈ other.writes, ¬ y.Covers drive lba) (store : Sectors) :
    store.after ((before ++ step :: later).flatMap Step.writes) drive lba =
      write.blocks (lba - write.first) := by
  rw [List.flatMap_append, List.flatMap_cons, isWrite]
  refine after_last_writer store _ covers fun y inside => ?_
  obtain ⟨other, among, made⟩ := List.mem_flatMap.mp inside
  exact last other among y made

end AtaKernel.Ata
