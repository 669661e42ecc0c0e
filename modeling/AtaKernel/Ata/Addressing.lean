import AtaKernel.Ata.Transfers

/-! Which sectors a transfer touches. The drive puts a sector number together
from three address registers and the low bits of the select register. The
driver fills the three registers and leaves those bits clear, so the drive is
always told `start` modulo `2 ^ 24`. -/
namespace AtaKernel.Ata
open ByteMemory PortIo

/-- The call reads from, or writes to, the sectors from `start` on, `count` of them, on the drive
that the record names, and no others. -/
structure Exact (call : Call) (w w' : World Machine) : Prop where
  touched : (w'.device call.dev.channel).log =
    ((List.range call.sectors).map fun k =>
      (call.write, call.dev.unit, call.start.toInt.toNat + k)).reverse ++
        (w.device call.dev.channel).log
  others : ∀ other ≠ call.dev.channel, w'.device other = w.device other
  content : ∀ drive lba, (w'.device call.dev.channel).disk drive lba =
    if call.write = true ∧ drive = call.dev.unit ∧ call.start.toInt.toNat ≤ lba ∧
        lba < call.start.toInt.toNat + call.sectors then
      firstWords (bufferWords w.memory call.buf (lba - call.start.toInt.toNat)) 256
    else (w.device call.dev.channel).disk drive lba
  received : call.write = false → ∀ k < call.sectors, ∀ j < 256,
    bufferWords w'.memory call.buf k j =
      (w.device call.dev.channel).disk call.dev.unit (call.start.toInt.toNat + k) j

variable {call : Call} {w w' : World Machine}

/-- The drive is told the sector number the caller means exactly when it fits in 24 bits. -/
theorem lba_eq_iff (nonneg : 0 ≤ call.start.toInt) :
    call.lba = call.start.toInt.toNat ↔ call.start.toInt < 2 ^ 24 := by
  rw [Call.lba, deviceLba, toNat_toUInt32 nonneg]
  omega

/-- A sector after which the next one is not refused was stored. -/
theorem lands_of_next (call : Call) (c : Channel) {k : Nat}
    (next : call.refusal c (k + 1) = none) : c.lands call.write k := by
  unfold Call.refusal Channel.faultOf at next
  split at next
  · simp [Channel.lands, Nat.add_assoc, next]
  · cases next

private theorem all_land {c : Channel} (few : 1 ≤ call.sectors)
    (fine : ∀ i < call.sectors, call.refusal c i = none)
    (last : c.lands call.write (call.sectors - 1)) {k : Nat} (low : k < call.sectors) :
    c.lands call.write k := by
  by_cases final : k + 1 = call.sectors
  · have here : k = call.sectors - 1 := by omega
    exact here ▸ last
  · exact lands_of_next call c (fine (k + 1) (by omega))

/-- The log of a call that moved all its sectors. -/
theorem standing_log (call : Call) (c : Channel) (m : Memory) (same : call.sectors = call.asks) :
    (call.standing c m call.sectors).log =
      (((List.range call.sectors).filter (c.lands call.write)).map fun k =>
        (call.write, call.dev.unit, call.lba + k)).reverse ++ c.log := by
  rw [same, Call.standing_over]
  exact Channel.sectorsDone_log (c.issued call.dev call.start call.count) call.write call.dev.unit
    call.lba (bufferWords m call.buf) call.asks

theorem standing_disk (call : Call) (c : Channel) (m : Memory) (same : call.sectors = call.asks)
    (drive : Bool) (lba : Nat) :
    (call.standing c m call.sectors).disk drive lba =
      if call.write = true ∧ drive = call.dev.unit ∧ call.lba ≤ lba ∧
          lba < call.lba + call.sectors ∧ c.lands call.write (lba - call.lba) then
        firstWords (bufferWords m call.buf (lba - call.lba)) 256
      else c.disk drive lba := by
  rw [same, Call.standing_over]
  exact Channel.sectorsDone_disk (c.issued call.dev call.start call.count) call.write call.dev.unit
    call.lba (bufferWords m call.buf) call.asks drive lba

/-- A filled buffer holds the sectors word by word. -/
theorem filled_words (call : Call) (c : Channel) (m : Memory) (read : call.write = false)
    (few : call.sectors ≤ 256) {k j : Nat} (low : k < call.sectors) (word : j < 256) :
    bufferWords (call.filled c m call.sectors) call.buf k j =
      c.disk call.dev.unit (call.lba + k) j := by
  have index : k * 256 + j < 256 * call.sectors := by omega
  rw [bufferWords, Call.filled, if_neg (by simp [read]),
    load_storeWords m call.buf _ index (by omega),
    show (k * 256 + j) / 256 = k by omega, show (k * 256 + j) % 256 = j by omega]
  simp

/-- Of the sectors a successful call moved, the log shows all of them under their own numbers only
when the drive was told the right number and stored the last one. -/
theorem exact_needs (placed : call.dev.Placed) (idle : Idle (w.device call.dev.channel))
    (start : 0 ≤ call.start.toInt) (few : 1 ≤ call.sectors) (same : call.sectors = call.asks)
    {fuel : Nat} (run : Returns (call.run machineBus fuel) w 0 w') (exact_ : Exact call w w') :
    call.start.toInt < 2 ^ 24 ∧
      (w.device call.dev.channel).lands call.write (call.sectors - 1) := by
  obtain ⟨fine, moves⟩ := Call.returned_zero placed idle same.le run
  have touched := exact_.touched
  rw [moves.here, standing_log call _ _ same, List.append_cancel_right_eq,
    List.reverse_inj] at touched
  have long : ((List.range call.sectors).filter
      ((w.device call.dev.channel).lands call.write)).length = (List.range call.sectors).length := by
    simpa using congrArg List.length touched
  have whole := List.filter_eq_self.mpr (List.length_filter_eq_length_iff.mp long)
  rw [whole] at touched
  have first := congrArg List.head? touched
  constructor
  · rw [← lba_eq_iff start]
    obtain ⟨n, next⟩ : ∃ n, call.sectors = n + 1 := ⟨call.sectors - 1, by omega⟩
    rw [next, List.range_succ_eq_map] at first
    simpa using first
  · exact List.length_filter_eq_length_iff.mp long _ (List.mem_range.mpr (by omega))

theorem exact_of (placed : call.dev.Placed) (idle : Idle (w.device call.dev.channel))
    (start : 0 ≤ call.start.toInt) (few : 1 ≤ call.sectors) (many : call.sectors ≤ 256)
    (same : call.sectors = call.asks) {fuel : Nat}
    (run : Returns (call.run machineBus fuel) w 0 w') (low : call.start.toInt < 2 ^ 24)
    (last : (w.device call.dev.channel).lands call.write (call.sectors - 1)) :
    Exact call w w' := by
  obtain ⟨fine, moves⟩ := Call.returned_zero placed idle same.le run
  have lba : call.lba = call.start.toInt.toNat := (lba_eq_iff start).mpr low
  have land : ∀ k < call.sectors, (w.device call.dev.channel).lands call.write k :=
    fun k inside => all_land few fine last inside
  constructor
  · have whole : (List.range call.sectors).filter ((w.device call.dev.channel).lands call.write) =
        List.range call.sectors :=
      List.filter_eq_self.mpr fun k inside => land k (List.mem_range.mp inside)
    rw [moves.here, standing_log call _ _ same, whole, lba]
  · intro other different
    rw [moves.device, Function.update_of_ne different]
  · intro drive sector
    rw [moves.here, standing_disk call _ _ same, lba]
    refine if_congr ?_ rfl rfl
    constructor
    · rintro ⟨write, drive_, from_, below, -⟩
      exact ⟨write, drive_, from_, below⟩
    · rintro ⟨write, drive_, from_, below⟩
      exact ⟨write, drive_, from_, below, land _ (by omega)⟩
  · intro read k inside j word
    rw [moves.memory, filled_words call _ _ read many inside word, lba]

/-- A call that returns 0 touched exactly the sectors it was asked to touch if and only if the
first of them is below `2 ^ 24` and, for a write, the drive stored the last of them. -/
theorem exact_iff (call : Call) (w w' : World Machine) (placed : call.dev.Placed)
    (idle : Idle (w.device call.dev.channel)) (start : 0 ≤ call.start.toInt)
    (few : 1 ≤ call.count.toInt) (many : call.count.toInt ≤ 256) (fuel : Nat)
    (run : Returns (call.run machineBus fuel) w 0 w') :
    Exact call w w' ↔ call.start.toInt < 2 ^ 24 ∧ (call.write = true →
      ((w.device call.dev.channel).waits
        ((w.device call.dev.channel).clock + call.sectors)).fault = none) := by
  have low : 1 ≤ call.sectors := by
    unfold Call.sectors
    omega
  have high : call.sectors ≤ 256 := by
    unfold Call.sectors
    omega
  have same : call.sectors = call.asks := (commanded_of_le few many).symm
  have final : (w.device call.dev.channel).lands call.write (call.sectors - 1) ↔
      (call.write = true → ((w.device call.dev.channel).waits
        ((w.device call.dev.channel).clock + call.sectors)).fault = none) := by
    have next : (w.device call.dev.channel).clock + (call.sectors - 1) + 1 =
        (w.device call.dev.channel).clock + call.sectors := by omega
    cases write : call.write <;> simp [Channel.lands, next]
  rw [← final]
  constructor
  · exact exact_needs placed idle start low same run
  · rintro ⟨below, last⟩
    exact exact_of placed idle start low high same run below last

theorem exact_iff_sector_seven :
    let call : Call := ⟨true, .located 1 1 1024, 7, 1, 0⟩
    ∃ w', Finishes (fun fuel => call.run machineBus fuel) (promptMachine 1024) 0 w' ∧
      (Exact call (promptMachine 1024) w' ↔ call.start.toInt < 2 ^ 24 ∧ (call.write = true →
        (((promptMachine 1024).device call.dev.channel).waits
          (((promptMachine 1024).device call.dev.channel).clock + call.sectors)).fault = none)) := by
  intro call
  have one : call.sectors = 1 := by decide
  have lba : call.lba = 7 := by decide
  have fine : ∀ i < call.sectors,
      call.refusal ((promptMachine 1024).device call.dev.channel) i = none := by
    intro i low
    exact call.refusal_prompt (by omega)
  have placed : call.dev.Placed := ⟨by decide, by decide⟩
  obtain ⟨w', ⟨enough, done⟩, -⟩ := Call.finishes_moved placed (idle_fresh _ _) (by decide) fine
  exact ⟨w', ⟨enough, done⟩, exact_iff call _ w' placed (idle_fresh _ _) (by decide) (by decide)
    (by decide) enough (done enough le_rfl)⟩

/-- A write of sector `2 ^ 24` on a drive of twice as many sectors succeeds, and overwrites
sector 0. -/
theorem high_write_not_exact :
    let call : Call := ⟨true, .located 0 0 (2 ^ 25), 2 ^ 24, 1, 0⟩
    call.start.toInt + call.count.toInt ≤ (call.dev.size.toNat : Int) ∧
      ∃ w', Finishes (fun fuel => call.run machineBus fuel) (promptMachine (2 ^ 25)) 0 w' ∧
        (w'.device call.dev.channel).log = [(true, false, 0)] ∧
        ¬ Exact call (promptMachine (2 ^ 25)) w' := by
  intro call
  have one : call.sectors = 1 := by decide
  have lba : call.lba = 0 := by decide
  have fine : ∀ i < call.sectors,
      call.refusal ((promptMachine (2 ^ 25)).device call.dev.channel) i = none := by
    intro i low
    exact call.refusal_prompt (by omega)
  have placed : call.dev.Placed := ⟨by decide, by decide⟩
  obtain ⟨w', ⟨enough, done⟩, moves⟩ :=
    Call.finishes_moved placed (idle_fresh _ _) (by decide) fine
  refine ⟨by decide, w', ⟨enough, done⟩, ?_, fun exact_ => ?_⟩
  · rw [moves.here, standing_log call _ _ (by decide), one, lba]
    rfl
  · have needs := exact_needs placed (idle_fresh _ _) (by decide) (by decide) (by decide)
      (done enough le_rfl) exact_
    exact absurd needs.1 (by decide)

end AtaKernel.Ata
