import AtaKernel.Ata.Transfers

/-! How many sectors a transfer asks for and how many it moves. The loop over
sectors runs `count` times, the drive is told the low eight bits of `count`,
and zero stands for 256 there. The two agree for one to 256 sectors. An empty
request leaves a data phase open, and a longer one goes on to wait for sectors
the drive was never asked for. -/
namespace AtaKernel.Ata
open ByteMemory PortIo

/-- The drive has a sector to hand over or to take. -/
def Phase.pending : Phase → Bool
  | .idle _ _ => false
  | .sector .. => true

/-- The call comes back, and reports success only after as many sectors as it was told were
commanded and moved; it never waits for a sector that was not commanded. -/
structure KeepsCount (call : Call) (w : World Machine) : Prop where
  outcome : ∃ r w', Finishes (fun fuel => call.run machineBus fuel) w r w' ∧
    (r = -1 ∨ r = 0 ∧
      (w'.device call.dev.channel).asked = (w.device call.dev.channel).asked + call.sectors ∧
      dataWords (ataBusPort call.dev.channel) w'.trace =
        dataWords (ataBusPort call.dev.channel) w.trace + 256 * call.sectors ∧
      (w'.device call.dev.channel).phase.pending = false)
  commanded : ∀ k < call.sectors, ∀ fuel v, Returns (call.upTo machineBus fuel k) w none v →
    (w.device call.dev.channel).asked + k < (v.device call.dev.channel).asked

variable {call : Call} {w : World Machine}

/-- Before a sector that was asked for, the drive has been asked for more than passed so far. -/
theorem asked_ahead (placed : call.dev.Placed) (idle : Idle (w.device call.dev.channel)) {k : Nat}
    (asked : k < call.asks) {fuel : Nat} {v : World Machine}
    (run : Returns (call.upTo machineBus fuel k) w none v) :
    (w.device call.dev.channel).asked + k < (v.device call.dev.channel).asked := by
  have moves := Call.upTo_standing placed idle asked.le run
  rw [moves.here, Call.standing_asked]
  omega

theorem keepsCount_of_asks (placed : call.dev.Placed) (idle : Idle (w.device call.dev.channel))
    (same : call.asks = call.sectors) : KeepsCount call w := by
  refine ⟨?_, fun k low fuel v run => asked_ahead placed idle (by omega) run⟩
  rcases call.first_refusal (w.device call.dev.channel) call.sectors with
    fine | ⟨k, low, s, before, fault⟩
  · obtain ⟨w', done, moves⟩ := Call.finishes_moved placed idle same.ge fine
    have asked : (w'.device call.dev.channel).asked =
        (w.device call.dev.channel).asked + call.sectors := by
      rw [moves.here, Call.standing_asked, same]
    have closed : (w'.device call.dev.channel).phase.pending = false := by
      rw [moves.here, ← same, Call.standing_over]
      rfl
    exact ⟨0, w', done, .inr ⟨rfl, asked, moves.words, closed⟩⟩
  · obtain ⟨w', failed⟩ := Call.finishes_refused placed idle (same ▸ low) low before fault
    exact ⟨-1, w', failed, .inl rfl⟩

theorem keepsCount_of_refusal (placed : call.dev.Placed)
    (idle : Idle (w.device call.dev.channel)) (nonneg : 0 ≤ call.count.toInt)
    (many : 256 < call.sectors) {k : Nat} (asked : k < call.asks)
    (refused : call.refusal (w.device call.dev.channel) k ≠ none) : KeepsCount call w := by
  have few := Call.asks_le nonneg
  constructor
  · rcases call.first_refusal (w.device call.dev.channel) (k + 1) with
      fine | ⟨j, low, s, before, fault⟩
    · exact absurd (fine k (Nat.lt_succ_self k)) refused
    · obtain ⟨w', failed⟩ := Call.finishes_refused placed idle (by omega) (by omega) before fault
      exact ⟨-1, w', failed, .inl rfl⟩
  · intro i low fuel v run
    have reached := Call.upTo_reached placed idle run
    by_cases past : k < i
    · exact absurd (reached k past asked) refused
    · exact asked_ahead placed idle (by omega) run

/-- An empty request is a command for 256 sectors. -/
theorem not_keepsCount_empty (placed : call.dev.Placed)
    (idle : Idle (w.device call.dev.channel)) (nonneg : 0 ≤ call.count.toInt)
    (empty : call.sectors = 0) : ¬ KeepsCount call w := by
  intro keeps
  have asks : call.asks = 256 := by rw [Call.asks_eq nonneg, if_pos (by omega)]
  obtain ⟨w', done, moves⟩ := Call.finishes_moved placed idle (by omega : call.sectors ≤ call.asks)
    (fun i low => absurd low (by omega))
  obtain ⟨r, w'', run, success⟩ := keeps.outcome
  obtain ⟨rfl, rfl⟩ := done.deterministic run
  rcases success with failed | ⟨-, asked, -⟩
  · omega
  · rw [moves.here, Call.standing_asked] at asked
    omega

/-- A longer request waits for a sector that was not asked for, unless it fails before. -/
theorem not_keepsCount_many (placed : call.dev.Placed)
    (idle : Idle (w.device call.dev.channel)) (nonneg : 0 ≤ call.count.toInt)
    (many : 256 < call.sectors)
    (fine : ∀ k < call.asks, call.refusal (w.device call.dev.channel) k = none) :
    ¬ KeepsCount call w := by
  intro keeps
  have few := Call.asks_le nonneg
  obtain ⟨w', ⟨enough, done⟩, moves⟩ := Call.upTo_fine placed idle le_rfl fine
  have ahead := keeps.commanded call.asks (by omega) enough w' (done enough le_rfl)
  rw [moves.here, Call.standing_asked] at ahead
  omega

/-- That wait has no end when the drive has nothing to report. -/
theorem run_never_returns (placed : call.dev.Placed) (idle : Idle (w.device call.dev.channel))
    (many : call.asks < call.sectors)
    (fine : ∀ k < call.asks, call.refusal (w.device call.dev.channel) k = none)
    (kept : (w.device call.dev.channel).lands call.write (call.asks - 1)) (fuel : Nat) (r : Int)
    (w' : World Machine) : ¬ Returns (call.run machineBus fuel) w r w' := by
  have asked : 0 < call.asks := commanded_pos call.count
  have last : (call.standing (w.device call.dev.channel) w.memory call.asks).phase.last =
      ((w.device call.dev.channel).waits
        ((w.device call.dev.channel).clock + call.asks)).rest := by
    rw [Call.standing_over, Channel.finish]
    simp only [Phase.last, Channel.sectorsDone_waits, Channel.sectorsDone_clock]
    change (if _ then ((w.device call.dev.channel).waits
      ((w.device call.dev.channel).clock + call.asks)).fault.getD _ else _) = _
    cases write : call.write with
    | false => rfl
    | true =>
      have next : (w.device call.dev.channel).clock + (call.asks - 1) + 1 =
          (w.device call.dev.channel).clock + call.asks := by omega
      simp only [Channel.lands, write, next, Bool.not_true, Bool.false_or,
        Option.isNone_iff_eq_none] at kept
      rw [if_pos rfl, kept]
      rfl
  rw [Call.run_eq]
  intro run
  obtain ⟨r', v, first, -⟩ := returns_bind.mp run
  refine Call.upTo_never placed idle many fine ?_ fuel r' first
  rw [last]
  exact Wait.rest_quiet _

/-- A call keeps to its count exactly when it is for one to 256 sectors, or the drive refuses
one of the sectors it was asked for. -/
theorem keepsCount_iff (call : Call) (w : World Machine) (placed : call.dev.Placed)
    (idle : Idle (w.device call.dev.channel)) (nonneg : 0 ≤ call.count.toInt) :
    KeepsCount call w ↔
      (1 ≤ call.sectors ∧ call.sectors ≤ 256) ∨
        (256 < call.sectors ∧
          ∃ k < call.asks, call.refusal (w.device call.dev.channel) k ≠ none) := by
  constructor
  · intro keeps
    by_cases empty : call.sectors = 0
    · exact absurd keeps (not_keepsCount_empty placed idle nonneg empty)
    · by_cases many : 256 < call.sectors
      · refine .inr ⟨many, ?_⟩
        by_contra fine
        push Not at fine
        exact not_keepsCount_many placed idle nonneg many fine keeps
      · exact .inl ⟨by omega, by omega⟩
  · rintro (⟨low, high⟩ | ⟨many, k, asked, refused⟩)
    · apply keepsCount_of_asks placed idle
      rw [Call.asks_eq nonneg]
      split <;> omega
    · exact keepsCount_of_refusal placed idle nonneg many asked refused

theorem keepsCount_iff_one_sector :
    let call : Call := ⟨false, .located 0 0 1024, 0, 1, 0⟩
    KeepsCount call (promptMachine 1024) ↔
      (1 ≤ call.sectors ∧ call.sectors ≤ 256) ∨
        (256 < call.sectors ∧ ∃ k < call.asks,
          call.refusal ((promptMachine 1024).device call.dev.channel) k ≠ none) :=
  keepsCount_iff ⟨false, .located 0 0 1024, 0, 1, 0⟩ (promptMachine 1024)
    ⟨by decide, by decide⟩ (idle_fresh _ _) (by decide)

/-- On such drives an empty read and a read of 257 sectors break the count; the second never
comes back. -/
theorem count_not_kept :
    let empty : Call := ⟨false, .located 0 0 1024, 0, 0, 0⟩
    let long : Call := ⟨false, .located 0 0 1024, 0, 257, 0⟩
    ¬ KeepsCount empty (promptMachine 1024) ∧ ¬ KeepsCount long (promptMachine 1024) ∧
      ∀ fuel r w', ¬ Returns (long.run machineBus fuel) (promptMachine 1024) r w' := by
  intro empty long
  have fine : ∀ k < long.asks,
      long.refusal ((promptMachine 1024).device long.dev.channel) k = none := by
    intro k low
    have one : long.asks = 1 := by decide
    have first : k = 0 := by omega
    rw [first]
    rfl
  refine ⟨?_, ?_, ?_⟩
  · exact not_keepsCount_empty ⟨by decide, by decide⟩ (idle_fresh _ _) (by decide)
      (by decide)
  · exact not_keepsCount_many ⟨by decide, by decide⟩ (idle_fresh _ _) (by decide)
      (by decide) fine
  · exact run_never_returns ⟨by decide, by decide⟩ (idle_fresh _ _) (by decide)
      fine rfl

end AtaKernel.Ata
