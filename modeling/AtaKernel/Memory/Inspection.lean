import AtaKernel.Memory.Frames
import AtaKernel.Library.MaximalRuns

/-! What `mem_inspect` prints. The loop runs along the frames and prints a line when
the status changes, for the frames up to there. The line of the last run would
have to come behind the loop, where there is nothing. -/
namespace AtaKernel.Memory
open ByteMemory MaximalRuns

/-- A call of `fb_printf("[%dd,%dd] = %bd\n", ...)`. -/
structure InspectLine where
  first : UInt32
  last : UInt32
  status : UInt8
  deriving DecidableEq

/-- The loop, with what is printed from here on. `mem_total_frames` has 64 bits, and `f` has 32. -/
def memInspectLoop (s : State) : Nat → UInt32 → UInt32 → UInt8 → Option (List InspectLine)
  | 0, _, _, _ => none
  | rounds + 1, f, rStart, w =>
    if f.toNat < s.totalFrames then
      let v := memBitmapGetEntry s.memory f.toNat
      if v ≠ w then do
        let lines ← memInspectLoop s rounds (f + 1) f v
        some (if w < 4 then ⟨rStart, f - 1, w⟩ :: lines else lines)
      else memInspectLoop s rounds (f + 1) rStart w
    else some []

/-- `mem_inspect`, behind the line `mem_inspect:`. The source does not initialise `r_start`. -/
def memInspect (s : State) (rStart : UInt32) (rounds : Nat) : Option (List InspectLine) :=
  memInspectLoop s rounds 0 rStart 4

def InspectLine.interval (l : InspectLine) : Stretch UInt8 := ⟨l.first.toNat, l.last.toNat, l.status⟩

def State.status (s : State) (f : Nat) : UInt8 := memBitmapGetEntry s.memory f

/-- The lines are the maximal runs of frames of one status, in order. -/
def ReportsMap (s : State) (rStart : UInt32) : Prop :=
  ∃ rounds lines, memInspect s rStart rounds = some lines ∧ Runs s.status s.totalFrames (lines.map InspectLine.interval)

variable {s : State} {f rStart start : UInt32} {w : UInt8} {rounds : Nat} {lines : List InspectLine}
  {rs : List (Stretch UInt8)}

theorem getEntry_lt {m : Memory} (frame : Nat) : memBitmapGetEntry m frame < 4 := by
  have low : (memBitmapGetEntry m frame).toNat ≤ 3 := by
    unfold memBitmapGetEntry
    rw [UInt8.toNat_and]
    exact Nat.and_le_right
  exact UInt8.lt_iff_toNat_lt.mpr (Nat.lt_succ_of_le low)

theorem frame_succ (more : f.toNat < s.totalFrames) (small : s.totalFrames < 2 ^ 32) : (f + 1).toNat = f.toNat + 1 := by
  rw [UInt32.toNat_add]
  exact Nat.mod_eq_of_lt (lt_of_le_of_lt (Nat.succ_le_of_lt more) small)

theorem frame_pred (some_ : 0 < f.toNat) : (f - 1).toNat = f.toNat - 1 :=
  UInt32.toNat_sub_of_le _ _ (UInt32.le_iff_toNat_le.mpr some_)

/-- From the middle of the map on, every run is printed but the one that the scan ends in. -/
theorem memInspectLoop_scanned (small : s.totalFrames < 2 ^ 32)
    (scanned : Scanned s.status s.totalFrames rs start.toNat f.toNat w)
    (ran : memInspectLoop s rounds f start w = some lines) :
    ∃ last v, Scanned s.status s.totalFrames (rs ++ lines.map InspectLine.interval) last s.totalFrames v := by
  induction rounds generalizing f start w rs lines with
  | zero => cases ran
  | succ rounds ih =>
    rw [memInspectLoop] at ran
    split at ran
    · next more =>
      have next := frame_succ more small
      dsimp only at ran
      split at ran
      · next other =>
        have some_ := scanned.some_
        have known : w < 4 := by
          rw [← scanned.inside (f.toNat - 1) (by omega) (by omega)]
          exact getEntry_lt _
        have line : InspectLine.interval ⟨start, f - 1, w⟩ = ⟨start.toNat, f.toNat - 1, w⟩ := by
          rw [InspectLine.interval, frame_pred (Nat.zero_lt_of_lt some_)]
        obtain ⟨lines', ran', same⟩ := Option.bind_eq_some_iff.mp ran
        rw [if_pos known] at same
        obtain rfl := Option.some_inj.mp same
        have scanned' := scanned.next more other
        rw [← next] at scanned'
        rw [List.map_cons, line, List.append_cons]
        exact ih scanned' ran'
      · next same =>
        have scanned' := scanned.same more (not_not.mp same)
        rw [← next] at scanned'
        exact ih scanned' ran
    · next past =>
      obtain rfl := Option.some_inj.mp ran
      rw [List.map_nil, List.append_nil]
      exact ⟨_, w, (le_antisymm scanned.within (not_lt.mp past)) ▸ scanned⟩

theorem memInspectLoop_returns (small : s.totalFrames < 2 ^ 32) (enough : s.totalFrames < f.toNat + rounds)
    (within : f.toNat ≤ s.totalFrames) : ∃ lines, memInspectLoop s rounds f start w = some lines := by
  induction rounds generalizing f start w with
  | zero => omega
  | succ rounds ih =>
    rw [memInspectLoop]
    split
    · next more =>
      have next := frame_succ more small
      dsimp only
      split
      · obtain ⟨lines, ran⟩ := @ih (f + 1) f (memBitmapGetEntry s.memory f.toNat) (by omega) (by omega)
        exact ⟨_, Option.bind_eq_some_iff.mpr ⟨lines, ran, rfl⟩⟩
      · exact ih (by omega) (by omega)
    · exact ⟨[], rfl⟩

/-- Where `f` cannot reach the number of frames, the loop has no end. -/
theorem memInspectLoop_endless (large : 2 ^ 32 ≤ s.totalFrames) : memInspectLoop s rounds f start w = none := by
  induction rounds generalizing f start w with
  | zero => rfl
  | succ rounds ih =>
    rw [memInspectLoop, if_pos (lt_of_lt_of_le f.toNat_lt large)]
    dsimp only
    rw [ih, ih]
    exact ite_self _

theorem memInspect_scanned (some_ : 1 ≤ s.totalFrames) (ran : memInspect s rStart rounds = some lines) :
    ∃ last v, Scanned s.status s.totalFrames (lines.map InspectLine.interval) last s.totalFrames v := by
  by_cases large : 2 ^ 32 ≤ s.totalFrames
  · rw [memInspect, memInspectLoop_endless large] at ran
    cases ran
  cases rounds with
  | zero => cases ran
  | succ rounds =>
    have first : ¬ memBitmapGetEntry s.memory 0 = 4 := UInt8.ne_of_lt (getEntry_lt 0)
    rw [memInspect, memInspectLoop, show (0 : UInt32).toNat = 0 from rfl, if_pos (Nat.pos_of_ne_zero (by omega))] at ran
    dsimp only at ran
    rw [if_pos first] at ran
    obtain ⟨lines', ran', same⟩ := Option.bind_eq_some_iff.mp ran
    rw [if_neg (by decide)] at same
    obtain rfl := Option.some_inj.mp same
    have scanned : Scanned s.status s.totalFrames [] (0 : UInt32).toNat (0 + 1 : UInt32).toNat (s.status 0) :=
      scanned_first some_
    exact memInspectLoop_scanned (not_le.mp large) scanned ran'

/-- No map is reported: the last of its runs is missing, and the lines are all the others. -/
theorem inspect_omits_last_run (s : State) (rStart : UInt32) (some_ : 1 ≤ s.totalFrames) :
    ¬ ReportsMap s rStart ∧
      (s.totalFrames < 2 ^ 32 → ∃ rounds lines last, memInspect s rStart rounds = some lines ∧
        Runs s.status s.totalFrames (lines.map InspectLine.interval ++ [last])) := by
  constructor
  · rintro ⟨rounds, lines, ran, runs⟩
    obtain ⟨last, v, scanned⟩ := memInspect_scanned some_ ran
    exact scanned.not_runs runs
  · intro small
    obtain ⟨lines, ran⟩ := @memInspectLoop_returns s 0 rStart 4 (s.totalFrames + 1) small (by omega) (Nat.zero_le _)
    obtain ⟨last, v, scanned⟩ := memInspect_scanned some_ ran
    exact ⟨_, lines, _, ran, scanned.runs⟩

theorem inspect_omits_last_run_five : ¬ ReportsMap ⟨fun _ => 0, 5⟩ 0 ∧
    ∃ rounds lines last, memInspect ⟨fun _ => 0, 5⟩ 0 rounds = some lines ∧
      Runs (State.status ⟨fun _ => 0, 5⟩) 5 (lines.map InspectLine.interval ++ [last]) := by
  have both := inspect_omits_last_run ⟨fun _ => 0, 5⟩ 0 (by decide)
  exact ⟨both.1, both.2 (by decide)⟩

/-- Of a map of one free frame, nothing is printed. -/
theorem one_frame_not_reported : memInspect ⟨fun _ => 0, 1⟩ 0 2 = some [] ∧ ¬ ReportsMap ⟨fun _ => 0, 1⟩ 0 := by
  refine ⟨by decide, ?_⟩
  rintro ⟨rounds, lines, ran, runs⟩
  obtain ⟨last, v, scanned⟩ := memInspect_scanned (s := ⟨fun _ => 0, 1⟩) le_rfl ran
  exact scanned.not_runs runs

end AtaKernel.Memory
