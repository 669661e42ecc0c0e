import AtaKernel.Ata.Addressing

/-! What a write that returns 0 says about the drive. A drive reports on a
sector in the status phase after its last word. The poll before the next
sector sees that report; nothing sees the one after the final sector. The
statements are over an arbitrary device, whose report is what its status would
show if it were read on. -/
namespace AtaKernel.Ata
open ByteMemory PortIo

/-- The drive at `ch` reports the end of a sector without a fault: past the delay, the first
status with `BSY` clear shows neither `ERR` nor `DF`. -/
def Completes {σ : Type} (bus : Bus σ) (ch : UInt16) (w : World σ) : Prop :=
  ∃ m, 4 ≤ m ∧ (∀ i, 4 ≤ i → i < m → Busy (statusOf bus ch w i)) ∧
    ¬ Busy (statusOf bus ch w m) ∧ ¬ Faulty (statusOf bus ch w m)

/-- If the call returns 0, the drive reported the end of each of its sectors without a fault. -/
def ZeroMeansDone {σ : Type} (bus : Bus σ) (call : Call) (w : World σ) : Prop :=
  ∀ fuel w', Returns (call.run bus fuel) w 0 w' →
    ∀ k, 1 ≤ k → k ≤ call.sectors → ∀ v,
      Finishes (fun fuel => call.upTo bus fuel k) w none v →
        Completes bus (ataBusPort call.dev.channel) v

section Phases
variable {σ : Type} {bus : Bus σ} {call : Call} {w w' v : World σ} {fuel k : Nat}

/-- The poll before a sector that goes through has seen the report on the one before. -/
theorem completes_of_sector {word : Nat → Nat → Io σ Unit} {ch : UInt16}
    (run : Returns (transferSector bus fuel word ch k) v none w') : Completes bus ch v := by
  obtain ⟨u, polled, -⟩ := returns_transferSector_none.mp run
  obtain ⟨m, n, ends, -, -, outcome, -⟩ := returns_poll.mp polled
  have clean : ¬ Faulty (statusOf bus ch v n) := by
    intro faulty
    rw [pollResult, if_pos faulty] at outcome
    exact absurd outcome (by decide)
  refine ⟨m, ends.delayed, ends.busy, ends.clear, ?_⟩
  by_cases last : m = n
  · exact last ▸ clean
  · have order := ends.order
    exact (ends.waiting m le_rfl (by omega)).1

theorem upTo_lower (run : Returns (call.upTo bus fuel k) w none w') {j : Nat} (le : j ≤ k) :
    ∃ v, Returns (call.upTo bus fuel j) w none v := by
  induction k generalizing w' with
  | zero =>
    obtain rfl : j = 0 := by omega
    exact ⟨w', run⟩
  | succ k ih =>
    by_cases here : j = k + 1
    · exact ⟨w', here ▸ run⟩
    · obtain ⟨v, before, -⟩ := returns_upTo_succ.mp run
      exact ih before (by omega)

/-- All sectors but the final one are reported on before the call goes on. -/
theorem completes_before (run : Returns (call.upTo bus fuel call.sectors) w none w')
    (low : k < call.sectors) (at_ : Finishes (fun fuel => call.upTo bus fuel k) w none v) :
    Completes bus (ataBusPort call.dev.channel) v := by
  obtain ⟨u, reached⟩ := upTo_lower run (show k + 1 ≤ call.sectors by omega)
  obtain ⟨v', before, sector⟩ := returns_upTo_succ.mp reached
  obtain ⟨-, rfl⟩ := at_.agrees (fuelSteady_upTo _ _ _) before
  exact completes_of_sector sector

end Phases

/-- A write that returns 0 has been told of the end of every sector exactly when the drive, given
the last word of the final one, goes on to report no fault. -/
theorem write_zeroMeansDone_iff {σ : Type} (bus : Bus σ) (dev : AtaDev) (start count : Int32)
    (buf : Nat) (w : World σ) (few : 1 ≤ count.toInt) (many : count.toInt ≤ 256) :
    ZeroMeansDone bus ⟨true, dev, start, count, buf⟩ w ↔
      ∀ v, Finishes (fun fuel => Call.upTo bus fuel ⟨true, dev, start, count, buf⟩
          count.toInt.toNat) w none v →
        Completes bus (ataBusPort dev.channel) v := by
  constructor
  · rintro done v ⟨enough, run⟩
    exact done enough v (returns_run_zero.mpr (run enough le_rfl)) count.toInt.toNat (by omega)
      le_rfl v ⟨enough, run⟩
  · intro last fuel w' run k one le v at_
    by_cases final : k = count.toInt.toNat
    · exact last v (final ▸ at_)
    · exact completes_before (returns_run_zero.mp run) (lt_of_le_of_ne le final) at_

/-- A drive that keeps what it was given after a command reports so exactly when it has no fault
to report. -/
theorem completes_finish {channel : UInt8} (within : channel < 4) {v : World Machine} {c : Channel}
    (here : v.device channel = c.finish true) :
    Completes machineBus (ataBusPort channel) v ↔ (c.waits c.clock).fault = none := by
  have shows : (v.device channel).phase.shows = (c.waits c.clock).busy := by
    rw [here]
    rfl
  have last : (v.device channel).phase.last =
      (c.waits c.clock).fault.getD (c.waits c.clock).rest := by
    rw [here]
    rfl
  have status : ∀ i, statusOf machineBus (ataBusPort channel) v i =
      (c.waits c.clock).busy.getD i ((c.waits c.clock).fault.getD (c.waits c.clock).rest) := by
    intro i
    rw [statusOf_device within, shows, last]
  have past : ∀ i, (c.waits c.clock).busy.length ≤ i →
      statusOf machineBus (ataBusPort channel) v i =
        (c.waits c.clock).fault.getD (c.waits c.clock).rest := by
    intro i le
    rw [status, List.getD_eq_getElem?_getD, List.getElem?_eq_none le, Option.getD_none]
  have before : ∀ i < (c.waits c.clock).busy.length,
      Busy (statusOf machineBus (ataBusPort channel) v i) := by
    intro i low
    rw [status, List.getD_eq_getElem?_getD, List.getElem?_eq_getElem low, Option.getD_some]
    exact (c.waits c.clock).busy_busy _ (List.getElem_mem low)
  constructor
  · rintro ⟨m, -, -, clear, clean⟩
    have le : (c.waits c.clock).busy.length ≤ m := by
      by_contra low
      exact clear (before m (by omega))
    rw [past m le] at clean
    cases fault : (c.waits c.clock).fault with
    | none => rfl
    | some s =>
      rw [fault, Option.getD_some] at clean
      exact absurd ((c.waits c.clock).fault_faulty s fault).2 clean
  · intro fault
    have rest := (c.waits c.clock).rest_quiet
    refine ⟨max 4 (c.waits c.clock).busy.length, by omega, fun i from_ below => ?_, ?_, ?_⟩
    · exact before i (by omega)
    · rw [past _ (by omega), fault]
      exact rest.1
    · rw [past _ (by omega), fault]
      exact rest.2.2

theorem write_zeroMeansDone_iff_one_sector :
    ZeroMeansDone machineBus ⟨true, .located 0 0 1024, 0, 1, 0⟩ (promptMachine 1024) ↔
      ∀ v, Finishes (fun fuel => Call.upTo machineBus fuel ⟨true, .located 0 0 1024, 0, 1, 0⟩
          (1 : Int32).toInt.toNat) (promptMachine 1024) none v →
        Completes machineBus (ataBusPort (AtaDev.located 0 0 1024).channel) v :=
  write_zeroMeansDone_iff machineBus (.located 0 0 1024) 0 1 0 (promptMachine 1024) (by decide)
    (by decide)

/-- Drives that report a fault after the last word of the first sector. -/
def lateFaultMachine : World Machine :=
  freshMachine 1024 fun i =>
    if i = 1 then .prompt (some 0x51) (by simp; decide) else .prompt none no_fault

/-- A write of one sector returns 0, though nothing was stored and the drive says so. -/
theorem late_fault_unnoticed :
    let call : Call := ⟨true, .located 0 0 1024, 0, 1, 0⟩
    ∃ w', Finishes (fun fuel => call.run machineBus fuel) lateFaultMachine 0 w' ∧
      (w'.device call.dev.channel).log = [] ∧ ¬ ZeroMeansDone machineBus call lateFaultMachine := by
  intro call
  have one : call.sectors = 1 := by decide
  have asks : call.asks = 1 := by decide
  have lba : call.lba = 0 := by decide
  have placed : call.dev.Placed := ⟨by decide, by decide⟩
  have fine : ∀ i < call.sectors,
      call.refusal (lateFaultMachine.device call.dev.channel) i = none := by
    intro i low
    obtain rfl : i = 0 := by omega
    rw [Call.refusal, Channel.faultOf, lba]
    rfl
  obtain ⟨w', done, moves⟩ := Call.upTo_fine placed (idle_fresh _ _) (by omega) fine
  have run : Finishes (fun fuel => call.run machineBus fuel) lateFaultMachine 0 w' := by
    obtain ⟨enough, through⟩ := done
    exact ⟨enough, fun fuel le => returns_run_zero.mpr (through fuel le)⟩
  have final := moves.here
  rw [one, ← asks, Call.standing_over] at final
  refine ⟨w', run, ?_, fun holds => ?_⟩
  · rw [moves.here, standing_log call _ _ (by omega), one]
    rfl
  · obtain ⟨enough, through⟩ := run
    have completes := holds enough w' (through enough le_rfl) call.sectors (by omega) le_rfl w' done
    rw [completes_finish placed.channel final, Channel.sectorsDone_waits,
      Channel.sectorsDone_clock, asks] at completes
    cases completes

end AtaKernel.Ata
