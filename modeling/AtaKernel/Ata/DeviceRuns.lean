import AtaKernel.Ata.Device

/-! Runs of the driver's parts against the drives: what a poll, the start of a
command and one sector do to a channel. A whole transfer is put together from
these in `Transfers`. -/
namespace AtaKernel.Ata
open ByteMemory PortIo

/-! ## Status reads -/

namespace Phase

def shows : Phase → List UInt8
  | .idle shows _ | .sector _ _ _ _ _ shows _ => shows

def last : Phase → UInt8
  | .idle _ last | .sector _ _ _ _ _ _ last => last

/-- The phase after `k` statuses were read. -/
def drop (p : Phase) (k : Nat) : Phase :=
  match p with
  | .idle shows last => .idle (shows.drop k) last
  | .sector write drive lba left word shows last =>
    .sector write drive lba left word (shows.drop k) last

/-- The phase once all statuses but the last were read. -/
def settled (p : Phase) : Phase := p.drop p.shows.length

theorem drop_zero (p : Phase) : p.drop 0 = p := by
  cases p <;> rfl

theorem drop_drop (p : Phase) (j k : Nat) : (p.drop j).drop k = p.drop (j + k) := by
  cases p <;> simp [drop, List.drop_drop]

theorem drop_of_le {p : Phase} {k : Nat} (enough : p.shows.length ≤ k) : p.drop k = p.settled := by
  cases p with
  | idle shows last =>
    simp only [Phase.shows] at enough
    simp [settled, drop, Phase.shows, List.drop_eq_nil_of_le enough]
  | sector write drive lba left word shows last =>
    simp only [Phase.shows] at enough
    simp [settled, drop, Phase.shows, List.drop_eq_nil_of_le enough]

@[simp] theorem shows_drop (p : Phase) (k : Nat) : (p.drop k).shows = p.shows.drop k := by
  cases p <;> rfl

@[simp] theorem last_drop (p : Phase) (k : Nat) : (p.drop k).last = p.last := by
  cases p <;> rfl

end Phase

theorem Channel.readStatus_eq (c : Channel) :
    c.readStatus = (c.phase.shows.getD 0 c.phase.last, { c with phase := c.phase.drop 1 }) := by
  obtain ⟨_, _, _, _, _, p, _⟩ := c
  cases p with
  | idle shows last => cases shows <;> rfl
  | sector write drive lba left word shows last => cases shows <;> rfl

variable {channel : UInt8} {w : World Machine} {n : Nat}

/-- Reading the status of a channel only lets time pass for that channel. -/
theorem afterStatus_device (within : channel < 4) (w : World Machine) (n : Nat) :
    (afterStatus machineBus (ataBusPort channel) n w).device =
      Function.update w.device channel
        { w.device channel with phase := (w.device channel).phase.drop n } := by
  induction n with
  | zero => simp [afterStatus, afterReads, Phase.drop_zero]
  | succ n ih =>
    rw [afterStatus, afterReads_succ, World.readOnce]
    simp only [machineBus_status within, Channel.readStatus_eq]
    rw [show (afterReads machineBus (ataRegStatus (ataBusPort channel)) n w).device = _ from ih]
    simp [Phase.drop_drop]

theorem statusOf_device (within : channel < 4) (w : World Machine) (n : Nat) :
    statusOf machineBus (ataBusPort channel) w n =
      (w.device channel).phase.shows.getD n (w.device channel).phase.last := by
  rw [statusOf, answer, machineBus_status within, afterStatus_device within, Channel.readStatus_eq]
  simp [List.getElem?_drop]

/-! ## Polls -/

/-- A row of statuses as a pause shows them: meaningless ones within the delay, then busy ones,
then quiet ones. -/
structure PauseRow (shows : List UInt8) (settling busy pause : List UInt8) : Prop where
  parts : shows = settling ++ busy ++ pause
  short : settling.length ≤ 4
  busy_busy : ∀ s ∈ busy, Busy s
  pause_quiet : ∀ s ∈ pause, Quiet s

namespace PauseRow

variable {shows settling busy pause : List UInt8} {i : Nat} {last : UInt8}

theorem getD_busy (row : PauseRow shows settling busy pause) (from_ : settling.length ≤ i)
    (below : i < settling.length + busy.length) : Busy (shows.getD i last) := by
  have inside : i - settling.length < busy.length := by omega
  have value : shows.getD i last = busy[i - settling.length] := by
    rw [row.parts, List.getD_eq_getElem?_getD, List.getElem?_append_left (by simp; omega),
      List.getElem?_append_right from_, List.getElem?_eq_getElem inside, Option.getD_some]
  rw [value]
  exact row.busy_busy _ (List.getElem_mem inside)

theorem getD_quiet (row : PauseRow shows settling busy pause)
    (from_ : settling.length + busy.length ≤ i) (below : i < shows.length) :
    Quiet (shows.getD i last) := by
  have length : shows.length = settling.length + busy.length + pause.length := by
    simp [row.parts, Nat.add_assoc]
  have inside : i - (settling.length + busy.length) < pause.length := by omega
  have value : shows.getD i last = pause[i - (settling.length + busy.length)] := by
    rw [row.parts, List.getD_eq_getElem?_getD, List.getElem?_append_right (by simpa using from_)]
    simp [List.getElem?_eq_getElem inside]
  rw [value]
  exact row.pause_quiet _ (List.getElem_mem inside)

end PauseRow

theorem Wait.row (wait : Wait) : PauseRow wait.shows wait.settling wait.busy wait.pause :=
  ⟨rfl, wait.settling_short, wait.busy_busy, wait.pause_quiet⟩

/-- A pause that leads up to a request or a fault ends the poll there. -/
theorem pollEnds_row (within : channel < 4) {settling busy pause : List UInt8}
    (row : PauseRow (w.device channel).phase.shows settling busy pause)
    (clear : ¬ Busy (w.device channel).phase.last)
    (ended : Faulty (w.device channel).phase.last ∨ Requesting (w.device channel).phase.last) :
    ∃ m n, PollEnds machineBus (ataBusPort channel) w m n ∧
      (w.device channel).phase.shows.length ≤ n := by
  generalize shown : (w.device channel).phase.shows = shows at row
  generalize final : (w.device channel).phase.last = last at clear ended
  have status : ∀ i, statusOf machineBus (ataBusPort channel) w i = shows.getD i last := by
    intro i
    rw [statusOf_device within, shown, final]
  have past : ∀ i, shows.length ≤ i → shows.getD i last = last :=
    fun i le => by simp [List.getD_eq_getElem?_getD, List.getElem?_eq_none le]
  have short := row.short
  have length : settling.length + busy.length ≤ shows.length := by
    rw [row.parts]
    simp
  -- the busy part ends before the delay does, or at its own end
  refine ⟨max 4 (settling.length + busy.length),
    max (max 4 (settling.length + busy.length)) shows.length,
    ⟨by omega, by omega, ?_, ?_, ?_, ?_⟩, by omega⟩
  · intro i from_ below
    rw [status]
    exact row.getD_busy (by omega) (by omega)
  · rw [status]
    by_cases inside : max 4 (settling.length + busy.length) < shows.length
    · exact (row.getD_quiet (by omega) inside).1
    · rw [past _ (by omega)]
      exact clear
  · intro i from_ below
    rw [status]
    have quiet : Quiet (shows.getD i last) := row.getD_quiet (by omega) (by omega)
    exact ⟨quiet.2.2, quiet.2.1⟩
  · rw [status, past _ (by omega)]
    exact ended

/-- From `w` to `w'` only one channel changed, which is now `c`; the memory is `memory`, and
`words` words went through the channel's data port. -/
structure Moves (channel : UInt8) (w w' : World Machine) (c : Channel) (memory : Memory)
    (words : Nat) : Prop where
  device : w'.device = Function.update w.device channel c
  memory : w'.memory = memory
  words : dataWords (ataBusPort channel) w'.trace = dataWords (ataBusPort channel) w.trace + words

variable {w' w'' : World Machine} {c c' : Channel} {memory memory' : Memory} {words words' : Nat}

theorem Moves.trans (first : Moves channel w w' c memory words)
    (second : Moves channel w' w'' c' memory' words') :
    Moves channel w w'' c' memory' (words + words') :=
  ⟨by rw [second.device, first.device, Function.update_idem], second.memory, by
    rw [second.words, first.words, Nat.add_assoc]⟩

theorem Moves.here (moves : Moves channel w w' c memory words) : w'.device channel = c := by
  rw [moves.device, Function.update_self]

theorem moves_afterStatus (within : channel < 4) (w : World Machine) (n : Nat) :
    Moves channel w (afterStatus machineBus (ataBusPort channel) n w)
      { w.device channel with phase := (w.device channel).phase.drop n } w.memory 0 :=
  ⟨afterStatus_device within w n, afterReads_memory .., dataWords_afterStatus ..⟩

/-- The poll of a pause waits for its end and says how it ended. -/
theorem finishes_poll_row (within : channel < 4) {settling busy pause : List UInt8}
    (row : PauseRow (w.device channel).phase.shows settling busy pause)
    (clear : ¬ Busy (w.device channel).phase.last)
    (ended : Faulty (w.device channel).phase.last ∨ Requesting (w.device channel).phase.last) :
    ∃ w', Finishes (fun fuel => poll machineBus fuel (ataBusPort channel)) w
        (pollResult (w.device channel).phase.last) w' ∧
      Moves channel w w' { w.device channel with phase := (w.device channel).phase.settled }
        w.memory 0 := by
  obtain ⟨m, n, ends, long⟩ := pollEnds_row within row clear ended
  have final : statusOf machineBus (ataBusPort channel) w n = (w.device channel).phase.last := by
    rw [statusOf_device within]
    simp [List.getD_eq_getElem?_getD, List.getElem?_eq_none long]
  refine ⟨_, final ▸ finishes_poll ends, ?_⟩
  have moves := moves_afterStatus within w (n + 1)
  rwa [Phase.drop_of_le (by omega)] at moves

/-- A drive that has nothing to report is polled for ever. -/
theorem poll_never_returns (within : channel < 4)
    (busy : ∀ s ∈ (w.device channel).phase.shows, Busy s)
    (quiet : Quiet (w.device channel).phase.last) (fuel : Nat) (r : Int) :
    ¬ Returns (poll machineBus fuel (ataBusPort channel)) w r w' := by
  intro run
  obtain ⟨m, n, ends, -⟩ := returns_poll.mp run
  have clear := ends.clear
  have ended := ends.ended
  have order := ends.order
  rw [statusOf_device within] at clear ended
  have past : (w.device channel).phase.shows.length ≤ m := by
    by_contra inside
    have inside : m < (w.device channel).phase.shows.length := by omega
    apply clear
    rw [List.getD_eq_getElem?_getD, List.getElem?_eq_getElem inside, Option.getD_some]
    exact busy _ (List.getElem_mem inside)
  rw [List.getD_eq_getElem?_getD, List.getElem?_eq_none (by omega), Option.getD_none] at ended
  tauto

/-! ## The start of a command -/

/-- No command is in progress; the status may still show `BSY` for a while. -/
structure Idle (c : Channel) : Prop where
  phase : c.phase = .idle c.phase.shows c.phase.last
  busy : ∀ s ∈ c.phase.shows, Busy s
  clear : ¬ Busy c.phase.last

theorem idle_fresh (capacity : Nat) (waits : Nat → Wait) : Idle (.fresh capacity waits) :=
  ⟨rfl, by simp [Channel.fresh, Phase.shows], show ¬ Busy 0x50 by decide⟩

theorem Idle.settled {c : Channel} (idle : Idle c) : c.phase.settled = .idle [] c.phase.last := by
  have same := idle.phase
  generalize c.phase = p at same ⊢
  rw [same]
  simp [Phase.settled, Phase.drop, Phase.shows, Phase.last]

/-- The drive will take the next command. -/
def Channel.freed (c : Channel) : Channel := { c with phase := c.phase.settled }

theorem finishes_waitIdle (within : channel < 4) (idle : Idle (w.device channel)) :
    ∃ s w', Finishes (fun fuel => loop fuel
        (readThenTest machineBus (ataRegStatus (ataBusPort channel)) busyTest) ()) w s w' ∧
      Moves channel w w' (w.device channel).freed w.memory 0 := by
  have status : ∀ i, answer machineBus (ataRegStatus (ataBusPort channel)) w i =
      (w.device channel).phase.shows.getD i (w.device channel).phase.last :=
    statusOf_device within w
  have moves := moves_afterStatus within w ((w.device channel).phase.shows.length + 1)
  rw [Phase.drop_of_le (Nat.le_succ _)] at moves
  refine ⟨(w.device channel).phase.last, _,
    ⟨(w.device channel).phase.shows.length + 1, fun fuel le => ?_⟩, moves⟩
  change Returns _ (afterReads machineBus (ataRegStatus (ataBusPort channel)) 0 w) _ _
  refine returns_readThenTest.mpr
    ⟨(w.device channel).phase.shows.length, Nat.zero_le _, by omega, ?_, ?_, rfl⟩
  · intro i _ below
    rw [busyTest_none, status, List.getD_eq_getElem?_getD, List.getElem?_eq_getElem below,
      Option.getD_some]
    exact idle.busy _ (List.getElem_mem below)
  · rw [busyTest_some, status]
    simp [idle.clear]

/-- The task file that `issue` leaves. -/
def Channel.task (c : Channel) (dev : AtaDev) (start count : Int32) : Channel :=
  { c with
    devsel := (0xE0 : UInt8) ||| (dev.drive <<< 4)
    seccount := count.toUInt32.toUInt8
    lba0 := (start.toUInt32 &&& 0x000000FF).toUInt8
    lba1 := ((start.toUInt32 &&& 0x0000FF00) >>> 8).toUInt8
    lba2 := ((start.toUInt32 &&& 0x00FF0000) >>> 16).toUInt8 }

theorem returns_issue (within : channel < 4) {last : UInt8}
    (phase : (w.device channel).phase = .idle [] last) (command : UInt8) (dev : AtaDev)
    (start count : Int32) :
    ∃ w', Returns (issue machineBus command dev start count (ataBusPort channel)) w () w' ∧
      Moves channel w w' (((w.device channel).task dev start count).command command)
        w.memory 0 := by
  refine ⟨_, (returns_outb.mpr rfl).bind ((returns_outb.mpr rfl).bind ((returns_outb.mpr rfl).bind
    ((returns_outb.mpr rfl).bind ((returns_outb.mpr rfl).bind ((returns_outb.mpr rfl).bind
      (returns_outb.mpr rfl)))))), ⟨?_, rfl, ?_⟩⟩
  · simp (disch := decide) only [ataRegDevsel, ataRegError, ataRegSeccount0, ataRegLba0, ataRegLba1,
      ataRegLba2, ataRegCommand, machineBus_register within, Function.update_idem,
      Function.update_self]
    simp [Channel.writeRegister, phase, Channel.task]
  · simp [dataWords, ataRegDevsel, ataRegError, ataRegSeccount0, ataRegLba0, ataRegLba1,
      ataRegLba2, ataRegCommand, ataRegData, Access.port]

/-! ## One sector -/

/-- The words of a sector that has taken the first `j` of `data`. -/
def firstWords (data : Nat → UInt16) (j : Nat) : Nat → UInt16 := fun t => if t < j then data t else 0

theorem firstWords_succ (data : Nat → UInt16) (j : Nat) :
    Function.update (firstWords data j) j (data j) = firstWords data (j + 1) := by
  funext t
  by_cases same : t = j
  · simp [same, firstWords]
  · have : t < j + 1 ↔ t < j := by omega
    simp [same, firstWords, this]

namespace Channel

/-- A channel in whose current sector `j` words of `data` have passed, and at least one has. -/
def entered (c : Channel) (write drive : Bool) (lba : Nat) (data : Nat → UInt16) (j : Nat) :
    Channel :=
  { c with
    log := if write then c.log else (false, drive, lba) :: c.log
    buffer := if write then firstWords data j else c.buffer }

/-- A channel at the start of a data phase, after `j` more words. -/
def progress (c : Channel) (write drive : Bool) (lba left : Nat) (last : UInt8)
    (data : Nat → UInt16) (j : Nat) : Channel :=
  if j = 0 then c
  else if j < 256 then
    { c.entered write drive lba data j with phase := .sector write drive lba left j [] last }
  else (c.entered write drive lba data 256).endSector write drive lba left

variable {c : Channel} {drive : Bool} {lba left j : Nat} {last : UInt8} {data : Nat → UInt16}

/-- What follows a sector does not depend on the phase it leaves. -/
theorem endSector_phase (c : Channel) (p : Phase) (write drive : Bool) (lba left : Nat) :
    { c with phase := p }.endSector write drive lba left = c.endSector write drive lba left := by
  by_cases stored : write = true ∧ (c.waits c.clock).fault = none
  · simp only [endSector, store, if_pos stored]
    rfl
  · simp only [endSector, store, if_neg stored]
    rfl

theorem dataIn_progress (phase : c.phase = .sector false drive lba left 0 [] last) (low : j < 256) :
    (c.progress false drive lba left last data j).dataIn =
      (c.disk drive lba j, c.progress false drive lba left last data (j + 1)) := by
  by_cases start : j = 0
  · subst start
    simp [progress, dataIn, phase, nextWord, entered]
  · by_cases more : j + 1 < 256
    · simp [progress, start, low, dataIn, nextWord, more, entered]
    · obtain rfl : j = 255 := by omega
      simp only [progress, dataIn, nextWord, entered]
      simp [← endSector_phase { c with log := (false, drive, lba) :: c.log }
        (.sector false drive lba left 255 [] last)]

theorem dataOut_progress (phase : c.phase = .sector true drive lba left 0 [] last) (low : j < 256) :
    (c.progress true drive lba left last data j).dataOut (data j) =
      c.progress true drive lba left last data (j + 1) := by
  by_cases start : j = 0
  · subst start
    have buffer : Function.update (fun _ => 0) 0 (data 0) = firstWords data 1 := firstWords_succ data 0
    simp [progress, dataOut, phase, nextWord, entered, buffer]
  · by_cases more : j + 1 < 256
    · simp [progress, start, low, dataOut, nextWord, more, entered, firstWords_succ]
    · obtain rfl : j = 255 := by omega
      simp only [progress, dataOut, nextWord, entered]
      simp [firstWords_succ, ← endSector_phase
        { c with buffer := firstWords data 256 }
        (.sector true drive lba left 255 [] last)]

end Channel

/-- In the data phase of a read, 256 words of the sector arrive in the buffer. -/
theorem returns_readSector (within : channel < 4) {drive : Bool} {lba left : Nat} {last : UInt8}
    (phase : (w.device channel).phase = .sector false drive lba left 0 [] last) {buf i : Nat}
    {m : Memory} {f : Nat → UInt16} (memory : w.memory = storeWords m buf f (256 * i))
    (content : ∀ j < 256, f (256 * i + j) = (w.device channel).disk drive lba j)
    (data : Nat → UInt16) :
    ∃ w', Returns (times 256 (readWord machineBus buf (ataBusPort channel) i)) w () w' ∧
      Moves channel w w' (((w.device channel).entered false drive lba data 256).endSector
        false drive lba left) (storeWords m buf f (256 * (i + 1))) 256 := by
  refine returns_times (fun j v => Moves channel w v
    ((w.device channel).progress false drive lba left last data j)
    (storeWords m buf f (256 * i + j)) j) ?_ ?_
  · exact ⟨by simp [Channel.progress], memory, rfl⟩
  · intro j low v moves
    have word : machineBus.inw (ataRegData (ataBusPort channel)) v.device =
        ((w.device channel).disk drive lba j, Function.update v.device channel
          ((w.device channel).progress false drive lba left last data (j + 1))) := by
      rw [machineBus_dataIn within, moves.here, Channel.dataIn_progress phase low]
    refine ⟨_, Returns.bind (returns_inw.mpr ⟨rfl, rfl⟩) (returns_poke.mpr rfl), ?_, ?_, ?_⟩
    · simp only [word]
      rw [moves.device, Function.update_idem]
    · simp only [word]
      rw [moves.memory, ← content j low, ← Nat.add_assoc, storeWords, Nat.mul_comm i 256]
    · exact (dataWords_data (.inw _ _) v.trace rfl).trans (by rw [moves.words, Nat.add_assoc])

/-- In the data phase of a write, 256 words of the buffer reach the drive. -/
theorem returns_writeSector (within : channel < 4) {drive : Bool} {lba left : Nat} {last : UInt8}
    (phase : (w.device channel).phase = .sector true drive lba left 0 [] last) {buf i : Nat}
    {data : Nat → UInt16}
    (content : ∀ j < 256, data j = UInt16.ofNat (load w.memory (buf + 2 * (i * 256 + j)) 2)) :
    ∃ w', Returns (times 256 (writeWord machineBus buf (ataBusPort channel) i)) w () w' ∧
      Moves channel w w' (((w.device channel).entered true drive lba data 256).endSector
        true drive lba left) w.memory 256 := by
  refine returns_times (fun j v => Moves channel w v
    ((w.device channel).progress true drive lba left last data j) w.memory j) ?_ ?_
  · exact ⟨by simp [Channel.progress], rfl, rfl⟩
  · intro j low v moves
    refine ⟨_, Returns.bind (returns_peek.mpr ⟨rfl, rfl⟩) (returns_outw.mpr rfl), ?_, ?_, ?_⟩
    · simp only [moves.memory, ← content j low]
      rw [machineBus_dataOut within, moves.here, Channel.dataOut_progress phase low, moves.device,
        Function.update_idem]
    · exact moves.memory
    · exact (dataWords_data (.outw _ _) v.trace rfl).trans (by rw [moves.words, Nat.add_assoc])

end AtaKernel.Ata
