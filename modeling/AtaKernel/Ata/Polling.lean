import AtaKernel.Ata.Driver

/-! What `poll` makes of a row of status values. The values are those the drive
shows when nothing but its status register is read; the first four pass during
the delay, and everything the routine does is decided by the rest. -/
namespace AtaKernel.Ata
open ByteMemory PortIo

/-! ## Status values -/

abbrev Busy (status : UInt8) : Prop := status &&& ataSrBsy ≠ 0
abbrev Requesting (status : UInt8) : Prop := status &&& ataSrDrq ≠ 0
abbrev Faulty (status : UInt8) : Prop := status &&& ataSrErr ≠ 0 ∨ status &&& ataSrDf ≠ 0

/-- A status that lets the host move a sector. -/
abbrev Ready (status : UInt8) : Prop := ¬ Busy status ∧ Requesting status ∧ ¬ Faulty status

/-- A status that asks for nothing and reports nothing. -/
abbrev Quiet (status : UInt8) : Prop := ¬ Busy status ∧ ¬ Requesting status ∧ ¬ Faulty status

variable {σ : Type} {bus : Bus σ} {ch : UInt16} {w w' : World σ} {fuel : Nat}

/-- The `i`-th status of the channel at `ch`, read from `w` on. -/
abbrev statusOf (bus : Bus σ) (ch : UInt16) (w : World σ) (i : Nat) : UInt8 :=
  answer bus (ataRegStatus ch) w i

/-- The world after `n` status reads. -/
abbrev afterStatus (bus : Bus σ) (ch : UInt16) (n : Nat) (w : World σ) : World σ :=
  afterReads bus (ataRegStatus ch) n w

theorem busyTest_none {s : UInt8} : busyTest s = none ↔ Busy s := by
  simp [busyTest]

theorem busyTest_some {s t : UInt8} : busyTest s = some t ↔ ¬ Busy s ∧ s = t := by
  simp [busyTest]

theorem readyTest_none {s : UInt8} : readyTest s = none ↔ ¬ Faulty s ∧ ¬ Requesting s := by
  unfold readyTest
  split
  · simp_all
  · split <;> simp_all

theorem readyTest_some {s : UInt8} {r : Int} : readyTest s = some r ↔
    (Faulty s ∨ Requesting s) ∧ r = if Faulty s then -1 else 0 := by
  unfold readyTest
  by_cases faulty : Faulty s
  · simp [faulty, eq_comm]
  · by_cases requesting : Requesting s <;> simp [faulty, requesting, eq_comm]

/-! ## The poll of one sector -/

/-- The statuses from `w` on end a poll: the first one past the delay with `BSY` clear is the
`m`-th, and the first from there on that shows `ERR`, `DF` or `DRQ` is the `n`-th. -/
structure PollEnds (bus : Bus σ) (ch : UInt16) (w : World σ) (m n : Nat) : Prop where
  delayed : 4 ≤ m
  order : m ≤ n
  busy : ∀ i, 4 ≤ i → i < m → Busy (statusOf bus ch w i)
  clear : ¬ Busy (statusOf bus ch w m)
  waiting : ∀ i, m ≤ i → i < n →
    ¬ Faulty (statusOf bus ch w i) ∧ ¬ Requesting (statusOf bus ch w i)
  ended : Faulty (statusOf bus ch w n) ∨ Requesting (statusOf bus ch w n)

/-- The outcome of a poll that ends on the status `s`. -/
def pollResult (s : UInt8) : Int := if Faulty s then -1 else 0

theorem returns_delay (bus : Bus σ) (ch : UInt16) (w : World σ) :
    Returns (delay bus ch 400) w () (afterStatus bus ch 4 w) :=
  returns_times_inb bus (ataRegStatus ch) 4 w

/-- A poll returns exactly when the statuses end it, with what the last of them says, and it
has done nothing but read the status register. -/
theorem returns_poll {r : Int} : Returns (poll bus fuel ch) w r w' ↔
    ∃ m n, PollEnds bus ch w m n ∧ m < 4 + fuel ∧ n < m + fuel ∧
      r = pollResult (statusOf bus ch w n) ∧ w' = afterStatus bus ch (n + 1) w := by
  have first : Returns (inb bus (ataRegStatus ch)) (afterStatus bus ch 4 w)
      (statusOf bus ch w 4) (afterStatus bus ch 5 w) := returns_inb_afterReads.mpr ⟨rfl, rfl⟩
  rw [poll, (returns_delay bus ch w).bind_iff, first.bind_iff, returns_bind]
  simp only [returns_testThenRead, busyTest_none, busyTest_some]
  constructor
  · rintro ⟨s, v, ⟨m, low, high, busy, ⟨clear, rfl⟩, rfl⟩, rest⟩
    obtain ⟨n, order, bound, waiting, found, rfl⟩ := returns_testThenRead.mp rest
    obtain ⟨ended, rfl⟩ := readyTest_some.mp found
    exact ⟨m, n, ⟨low, order, busy, clear, fun i from_ below =>
      readyTest_none.mp (waiting i from_ below), ended⟩, high, bound, rfl, rfl⟩
  · rintro ⟨m, n, ends, high, bound, rfl, rfl⟩
    refine ⟨_, _, ⟨m, ends.delayed, high, ends.busy, ⟨ends.clear, rfl⟩, rfl⟩, ?_⟩
    exact returns_testThenRead.mpr ⟨n, ends.order, bound, fun i from_ below =>
      readyTest_none.mpr (ends.waiting i from_ below), readyTest_some.mpr ⟨ends.ended, rfl⟩, rfl⟩

theorem finishes_poll {m n : Nat} (ends : PollEnds bus ch w m n) :
    Finishes (fun fuel => poll bus fuel ch) w (pollResult (statusOf bus ch w n))
      (afterStatus bus ch (n + 1) w) := by
  refine ⟨n + 1, fun fuel le => returns_poll.mpr ⟨m, n, ends, ?_, ?_, rfl, rfl⟩⟩
  · have := ends.order
    omega
  · omega

theorem fuelSteady_poll (bus : Bus σ) (ch : UInt16) :
    FuelSteady fun fuel => poll bus fuel ch := by
  intro fuel more w r w' le run
  obtain ⟨m, n, ends, high, bound, rest⟩ := returns_poll.mp run
  exact returns_poll.mpr ⟨m, n, ends, by omega, by omega, rest⟩

/-! ## Enough rounds -/

theorem fuelSteady_transferSector (bus : Bus σ) (word : Nat → Nat → Io σ Unit) (ch : UInt16)
    (i : Nat) : FuelSteady fun fuel => transferSector bus fuel word ch i := by
  refine (fuelSteady_poll bus ch).bind fun failed => ?_
  split <;> exact fuelSteady_const _

theorem fuelSteady_upTo (bus : Bus σ) (call : Call) (k : Nat) :
    FuelSteady fun fuel => call.upTo bus fuel k :=
  (fuelSteady_loop _ _).bind fun _ => (fuelSteady_const _).bind fun _ =>
    fuelSteady_timesReturn (fuelSteady_transferSector bus _ _) k

theorem fuelSteady_run (bus : Bus σ) (call : Call) : FuelSteady fun fuel => call.run bus fuel := by
  simp only [Call.run_eq]
  exact (fuelSteady_upTo bus call _).bind fun _ => fuelSteady_const _

/-! ## One sector after the other -/

/-- A sector goes through exactly when its poll ends well, and then its words move. -/
theorem returns_transferSector_none {word : Nat → Nat → Io σ Unit} {i : Nat} :
    Returns (transferSector bus fuel word ch i) w none w' ↔
      ∃ v, Returns (poll bus fuel ch) w 0 v ∧ Returns (times 256 (word i)) v () w' := by
  constructor
  · intro run
    obtain ⟨failed, v, polled, rest⟩ := returns_bind.mp run
    by_cases ok : failed = 0
    · subst ok
      simp only [ne_eq, not_true_eq_false, ↓reduceIte] at rest
      obtain ⟨u, v', words, last⟩ := returns_bind.mp rest
      obtain ⟨-, rfl⟩ := returns_pure.mp last
      exact ⟨v, polled, words⟩
    · simp [ok] at rest
  · rintro ⟨v, polled, words⟩
    apply polled.bind
    simp only [ne_eq, not_true_eq_false, ↓reduceIte]
    exact words.bind (returns_pure.mpr ⟨rfl, rfl⟩)

theorem returns_transferSector_some {word : Nat → Nat → Io σ Unit} {i : Nat} {r : Int}
    (run : Returns (transferSector bus fuel word ch i) w (some r) w') : r = -1 := by
  obtain ⟨failed, v, -, rest⟩ := returns_bind.mp run
  by_cases ok : failed = 0
  · simp only [ok, ne_eq, not_true_eq_false, ↓reduceIte] at rest
    obtain ⟨u, v', -, last⟩ := returns_bind.mp rest
    simp at last
  · simp only [ne_eq, ok, not_false_eq_true, ↓reduceIte, returns_pure, Option.some.injEq] at rest
    exact rest.1.symm

theorem returns_upTo_succ {call : Call} {k : Nat} :
    Returns (call.upTo bus fuel (k + 1)) w none w' ↔
      ∃ v, Returns (call.upTo bus fuel k) w none v ∧
        Returns (transferSector bus fuel (call.word bus (ataBusPort call.dev.channel))
          (ataBusPort call.dev.channel) k) v none w' := by
  constructor
  · intro run
    obtain ⟨s, v₁, waited, rest⟩ := returns_bind.mp run
    obtain ⟨u, v₂, issued, row⟩ := returns_bind.mp rest
    obtain ⟨v, before, last⟩ := returns_timesReturn_none.mp row
    exact ⟨v, waited.bind (issued.bind before), last⟩
  · rintro ⟨v, run, last⟩
    obtain ⟨s, v₁, waited, rest⟩ := returns_bind.mp run
    obtain ⟨u, v₂, issued, row⟩ := returns_bind.mp rest
    exact waited.bind (issued.bind (returns_timesReturn_none.mpr ⟨v, row, last⟩))

theorem returns_upTo_some {call : Call} {k : Nat} {r : Int}
    (run : Returns (call.upTo bus fuel k) w (some r) w') : r = -1 := by
  obtain ⟨s, v₁, -, rest⟩ := returns_bind.mp run
  obtain ⟨u, v₂, -, row⟩ := returns_bind.mp rest
  clear rest run
  induction k generalizing w' with
  | zero => simp [timesReturn] at row
  | succ k ih =>
    rcases returns_timesReturn_some.mp row with before | ⟨v, -, last⟩
    · exact ih before
    · exact returns_transferSector_some last

/-- A call returns 0 exactly when none of its sectors made it return. -/
theorem returns_run_zero {call : Call} : Returns (call.run bus fuel) w 0 w' ↔
    Returns (call.upTo bus fuel call.sectors) w none w' := by
  rw [Call.run_eq, returns_bind]
  constructor
  · rintro ⟨r, v, run, rest⟩
    obtain ⟨value, rfl⟩ := returns_pure.mp rest
    cases r with
    | none => exact run
    | some r =>
      obtain rfl := returns_upTo_some run
      simp at value
  · intro run
    exact ⟨none, w', run, returns_pure.mpr ⟨rfl, rfl⟩⟩

/-! ## Words through the data port -/

/-- How many accesses of the channel's data register a trace holds. -/
def dataWords (ch : UInt16) (trace : List Access) : Nat :=
  trace.countP (·.port == ataRegData ch)

theorem dataWords_other {ch : UInt16} (access : Access) (trace : List Access)
    (other : access.port ≠ ataRegData ch) : dataWords ch (access :: trace) = dataWords ch trace :=
  List.countP_cons_of_neg (by simpa using other)

theorem dataWords_data {ch : UInt16} (access : Access) (trace : List Access)
    (data : access.port = ataRegData ch) :
    dataWords ch (access :: trace) = dataWords ch trace + 1 :=
  List.countP_cons_of_pos (by simpa using data)

theorem status_ne_data (ch : UInt16) : ataRegStatus ch ≠ ataRegData ch := by
  simp [ataRegStatus, ataRegData]

@[simp] theorem dataWords_afterStatus (bus : Bus σ) (ch : UInt16) (n : Nat) (w : World σ) :
    dataWords ch (afterStatus bus ch n w).trace = dataWords ch w.trace := by
  induction n with
  | zero => rfl
  | succ n ih =>
    rw [afterStatus, afterReads_succ, World.readOnce]
    exact (dataWords_other (.inb _ _) _ (status_ne_data ch)).trans ih

end AtaKernel.Ata
