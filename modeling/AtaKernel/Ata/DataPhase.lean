import AtaKernel.Ata.Identify

/-! When the driver touches the data register. Words go through it 256 at a
time, and a sector may start only when the last status that was read has `BSY`
clear, `DRQ` set, and no fault. The rule is put on the record of accesses, and
the record of any run, returned or stuck, over any device, is checked against
it. -/
namespace AtaKernel.Ata
open ByteMemory PortIo

/-! ## The rule -/

/-- The last value read from the status register of the channel at `ch`. -/
def lastStatus (ch : UInt16) : List Access → Option UInt8
  | [] => none
  | .inb port value :: earlier => if port = ataRegStatus ch then some value else lastStatus ch earlier
  | _ :: earlier => lastStatus ch earlier

/-- The last status lets a sector start. -/
def Cleared (ch : UInt16) (trace : List Access) : Prop := ∃ s ∈ lastStatus ch trace, Ready s

/-- Every 256 words through the data register start after a status that lets them. -/
def DataSafe (ch : UInt16) : List Access → Prop
  | [] => True
  | access :: earlier => DataSafe ch earlier ∧
    (access.port = ataRegData ch → dataWords ch earlier % 256 = 0 → Cleared ch earlier)

variable {ch : UInt16} {t t' : List Access}

theorem dataSafe_other {access : Access} (other : access.port ≠ ataRegData ch)
    (safe : DataSafe ch t) : DataSafe ch (access :: t) :=
  ⟨safe, fun data => absurd data other⟩

theorem DataSafe.suffix (safe : DataSafe ch t) (le : t' <:+ t) : DataSafe ch t' := by
  induction t with
  | nil =>
    rw [List.suffix_nil.mp le]
    trivial
  | cons access t ih =>
    rcases List.suffix_cons_iff.mp le with rfl | le
    · exact safe
    · exact ih safe.1 le

/-- From `t` to `t'` came `n` words through the data register and nothing else. -/
def Words (ch : UInt16) (n : Nat) (t t' : List Access) : Prop :=
  ∃ words : List Access, words.length = n ∧ (∀ access ∈ words, access.port = ataRegData ch) ∧
    t' = words ++ t

namespace Words

variable {n : Nat}

theorem start : Words ch 0 t t := ⟨[], rfl, by simp, rfl⟩

theorem more (words : Words ch n t t') {access : Access} (data : access.port = ataRegData ch) :
    Words ch (n + 1) t (access :: t') := by
  obtain ⟨ws, length, all, rfl⟩ := words
  refine ⟨access :: ws, by simp [length], ?_, rfl⟩
  intro a inside
  rcases List.mem_cons.mp inside with rfl | earlier
  · exact data
  · exact all a earlier

theorem dataWords (words : Words ch n t t') : dataWords ch t' = dataWords ch t + n := by
  obtain ⟨ws, rfl, all, rfl⟩ := words
  have every : ws.countP (·.port == ataRegData ch) = ws.length :=
    List.countP_eq_length.mpr fun a inside => by simpa using all a inside
  rw [Ata.dataWords, Ata.dataWords, List.countP_append, every, Nat.add_comm]

/-- Up to 256 words may follow a status that lets a sector start. -/
theorem safe (words : Words ch n t t') (safe : DataSafe ch t) (boundary : Ata.dataWords ch t % 256 = 0)
    (cleared : Cleared ch t) (few : n ≤ 256) : DataSafe ch t' := by
  obtain ⟨ws, rfl, all, rfl⟩ := words
  induction ws with
  | nil => exact safe
  | cons access ws ih =>
    simp only [List.length_cons] at few
    have inner : ∀ a ∈ ws, a.port = ataRegData ch :=
      fun a inside => all a (List.mem_cons_of_mem access inside)
    refine ⟨ih (by omega) inner, fun _ whole => ?_⟩
    have whole : Ata.dataWords ch (ws ++ t) % 256 = 0 := whole
    have count := dataWords ⟨ws, rfl, inner, (rfl : ws ++ t = ws ++ t)⟩
    have none : ws = [] := by
      apply List.eq_nil_of_length_eq_zero
      omega
    rw [none]
    exact cleared

/-- And a whole sector needs one. -/
theorem cleared (words : Words ch (n + 1) t t') (safe : DataSafe ch t')
    (boundary : Ata.dataWords ch t % 256 = 0) : Cleared ch t := by
  obtain ⟨ws, length, all, rfl⟩ := words
  obtain ⟨later, first, rfl⟩ : ∃ later first, ws = later ++ [first] := by
    rcases List.eq_nil_or_concat ws with rfl | ⟨later, first, eq⟩
    · simp at length
    · exact ⟨later, first, by simpa using eq⟩
  have begins : DataSafe ch (first :: t) := safe.suffix ⟨later, by simp⟩
  exact begins.2 (all first (by simp)) boundary

end Words

/-! ## Parts that leave the data register alone -/

variable {σ : Type} {bus : Bus σ} {w w' v : World σ} {fuel k : Nat}

/-- The record is safe, and `n` words went through the data register. -/
def Calm (ch : UInt16) (n : Nat) (t : List Access) : Prop := DataSafe ch t ∧ dataWords ch t = n

theorem calm_other {n : Nat} {access : Access} (other : access.port ≠ ataRegData ch)
    (calm : Calm ch n t) : Calm ch n (access :: t) :=
  ⟨dataSafe_other other calm.1, (dataWords_other access t other).trans calm.2⟩

theorem calm_status {n : Nat} {v : UInt8} (calm : Calm ch n t) :
    Calm ch n (.inb (ataRegStatus ch) v :: t) :=
  calm_other (status_ne_data ch) calm

theorem keeps_calm_outb {port : UInt16} {n : Nat} (value : UInt8) (other : port ≠ ataRegData ch) :
    Keeps (Calm ch n) (outb bus port value) :=
  keeps_outb fun _ calm => calm_other other calm

/-- A poll does nothing but read the status. -/
theorem keeps_poll {T : List Access → Prop} (bus : Bus σ) (fuel : Nat)
    (status : ∀ v t, T t → T (.inb (ataRegStatus ch) v :: t)) : Keeps T (poll bus fuel ch) := by
  have delayed : Keeps T (delay bus ch 400) := by
    refine Keeps.times (fun _ => ?_) _
    exact (keeps_inb status).bind fun _ => keeps_pure ()
  refine delayed.bind fun _ => (keeps_inb status).bind fun s => ?_
  refine (Keeps.loop (keeps_testThenRead status) fuel s).bind fun s' => ?_
  exact Keeps.loop (keeps_testThenRead status) fuel s'

theorem keeps_calm_upTo_zero (bus : Bus σ) (fuel : Nat) (call : Call) (n : Nat) :
    Keeps (Calm (ataBusPort call.dev.channel) n) (call.upTo bus fuel 0) := by
  refine (Keeps.loop (fun _ => keeps_readThenTest fun _ _ => calm_status) fuel ()).bind fun _ => ?_
  refine Keeps.bind ?_ fun _ => keeps_pure none
  refine (keeps_calm_outb _ ?_).bind fun _ => (keeps_calm_outb _ ?_).bind fun _ =>
    (keeps_calm_outb _ ?_).bind fun _ => (keeps_calm_outb _ ?_).bind fun _ =>
      (keeps_calm_outb _ ?_).bind fun _ => (keeps_calm_outb _ ?_).bind fun _ => keeps_calm_outb _ ?_
  all_goals simp [ataRegDevsel, ataRegError, ataRegSeccount0, ataRegLba0, ataRegLba1, ataRegLba2,
    ataRegCommand, ataRegData]

theorem lastStatus_afterStatus (bus : Bus σ) (ch : UInt16) (n : Nat) (w : World σ) :
    lastStatus ch (afterStatus bus ch (n + 1) w).trace = some (statusOf bus ch w n) := by
  rw [afterStatus, afterReads_succ, World.readOnce, lastStatus, if_pos rfl]
  rfl

/-! ## Transfers -/

/-- The words of one sector pass, whatever the device does. -/
theorem returns_words (bus : Bus σ) (call : Call) (ch : UInt16) (i : Nat) (v : World σ) :
    ∃ v', Returns (times 256 (call.word bus ch i)) v () v' ∧ Words ch 256 v.trace v'.trace := by
  refine returns_times (fun j u => Words ch j v.trace u.trace) .start ?_
  intro j _ u words
  cases write : call.write with
  | true =>
    have moved : Returns (writeWord bus call.buf ch i j) u () _ :=
      Returns.bind (returns_peek.mpr ⟨rfl, rfl⟩) (returns_outw.mpr rfl)
    rw [← show call.word bus = writeWord bus call.buf by simp [Call.word, write]] at moved
    exact ⟨_, moved, words.more rfl⟩
  | false =>
    have moved : Returns (readWord bus call.buf ch i j) u () _ :=
      Returns.bind (returns_inw.mpr ⟨rfl, rfl⟩) (returns_poke.mpr rfl)
    rw [← show call.word bus = readWord bus call.buf by simp [Call.word, write]] at moved
    exact ⟨_, moved, words.more rfl⟩

/-- One round of the loop over sectors. -/
abbrev Call.sector (call : Call) (bus : Bus σ) (fuel i : Nat) : Io σ (Option Int) :=
  transferSector bus fuel (call.word bus (ataBusPort call.dev.channel))
    (ataBusPort call.dev.channel) i

theorem dataWords_upTo {call : Call} (run : Returns (call.upTo bus fuel k) w none w')
    (safe : DataSafe (ataBusPort call.dev.channel) w.trace) :
    dataWords (ataBusPort call.dev.channel) w'.trace =
      dataWords (ataBusPort call.dev.channel) w.trace + 256 * k := by
  induction k generalizing w' with
  | zero => exact ((keeps_calm_upTo_zero bus fuel call _).returns run ⟨safe, rfl⟩).2
  | succ k ih =>
    obtain ⟨v, before, sector⟩ := returns_upTo_succ.mp run
    obtain ⟨u, polled, moved⟩ := returns_transferSector_none.mp sector
    obtain ⟨m, n, -, -, -, -, rfl⟩ := returns_poll.mp polled
    obtain ⟨u', moved', words⟩ := returns_words bus call (ataBusPort call.dev.channel) k _
    obtain ⟨-, rfl⟩ := moved.deterministic moved'
    rw [words.dataWords, dataWords_afterStatus, ih before]
    omega

theorem world_upTo (bus : Bus σ) (fuel : Nat) (call : Call) (n : Nat) (w : World σ) :
    (call.upTo bus fuel (n + 1) w).2 = (call.upTo bus fuel n w).2 ∨
      ∃ v, Returns (call.upTo bus fuel n) w none v ∧
        (call.upTo bus fuel (n + 1) w).2 = (call.sector bus fuel n v).2 := by
  simp only [Call.upTo, transferUpTo, Bind.bind, Returns]
  rcases loop fuel (readThenTest bus (ataRegStatus (ataBusPort call.dev.channel)) busyTest) () w with
    ⟨_ | s, v₁⟩
  · exact .inl rfl
  · simp only
    rcases issue bus call.command call.dev call.start call.count
      (ataBusPort call.dev.channel) v₁ with ⟨_ | u, v₂⟩
    · exact .inl rfl
    · exact world_timesReturn n _ v₂

theorem world_run (bus : Bus σ) (fuel : Nat) (call : Call) (w : World σ) :
    (call.run bus fuel w).2 = (call.upTo bus fuel call.sectors w).2 := by
  rw [Call.run_eq]
  simp only [Bind.bind]
  rcases call.upTo bus fuel call.sectors w with ⟨_ | r, v⟩ <;> rfl

/-- A poll is never ended by a status that has `BSY` set again, unless it reports a fault. -/
def StaysClear (bus : Bus σ) (call : Call) (w : World σ) : Prop :=
  ∀ k < call.sectors, ∀ v, Finishes (fun fuel => call.upTo bus fuel k) w none v →
    ∀ m n, PollEnds bus (ataBusPort call.dev.channel) v m n →
      ¬ Faulty (statusOf bus (ataBusPort call.dev.channel) v n) →
        ¬ Busy (statusOf bus (ataBusPort call.dev.channel) v n)

/-- One sector keeps the rule when its poll does not end on a busy status. -/
theorem sector_safe {call : Call} (calm : Calm (ataBusPort call.dev.channel) (256 * k) v.trace)
    (clear : ∀ m n, PollEnds bus (ataBusPort call.dev.channel) v m n →
      ¬ Faulty (statusOf bus (ataBusPort call.dev.channel) v n) →
        ¬ Busy (statusOf bus (ataBusPort call.dev.channel) v n)) :
    DataSafe (ataBusPort call.dev.channel) (call.sector bus fuel k v).2.trace := by
  have polls := keeps_poll bus fuel (fun _ _ => calm_status) v calm
  simp only [Call.sector, transferSector, Bind.bind]
  cases polled : poll bus fuel (ataBusPort call.dev.channel) v with
  | mk result u =>
    rw [polled] at polls
    cases result with
    | none => exact polls.1
    | some failed =>
      by_cases ok : failed = 0
      · obtain ⟨m, n, ends, -, -, outcome, rfl⟩ := returns_poll.mp (show Returns _ v failed u from polled)
        have clean : ¬ Faulty (statusOf bus (ataBusPort call.dev.channel) v n) := by
          intro faulty
          rw [pollResult, if_pos faulty] at outcome
          omega
        have ready : Ready (statusOf bus (ataBusPort call.dev.channel) v n) :=
          ⟨clear m n ends clean, ends.ended.resolve_left clean, clean⟩
        obtain ⟨u', moved, words⟩ := returns_words bus call (ataBusPort call.dev.channel) k
          (afterStatus bus (ataBusPort call.dev.channel) (n + 1) v)
        have cleared : Cleared (ataBusPort call.dev.channel)
            (afterStatus bus (ataBusPort call.dev.channel) (n + 1) v).trace :=
          ⟨_, lastStatus_afterStatus .., ready⟩
        have boundary : dataWords (ataBusPort call.dev.channel)
            (afterStatus bus (ataBusPort call.dev.channel) (n + 1) v).trace % 256 = 0 := by
          rw [polls.2]
          omega
        simp only [ok, ne_eq, not_true_eq_false, ↓reduceIte]
        rw [show times 256 (call.word bus (ataBusPort call.dev.channel) k)
          (afterStatus bus (ataBusPort call.dev.channel) (n + 1) v) = (some (), u') from moved]
        exact words.safe polls.1 boundary cleared le_rfl
      · simp only [ne_eq, ok, not_false_eq_true, ↓reduceIte]
        exact polls.1

theorem upTo_safe {call : Call} (fresh : w.trace = []) (clear : StaysClear bus call w) (n : Nat)
    (le : n ≤ call.sectors) :
    DataSafe (ataBusPort call.dev.channel) (call.upTo bus fuel n w).2.trace := by
  have start : DataSafe (ataBusPort call.dev.channel) w.trace := by
    rw [fresh]
    trivial
  induction n with
  | zero => exact (keeps_calm_upTo_zero bus fuel call _ w ⟨start, rfl⟩).1
  | succ n ih =>
    rcases world_upTo bus fuel call n w with same | ⟨v, run, more⟩
    · rw [same]
      exact ih (by omega)
    · rw [more]
      have before := ih (by omega)
      rw [show call.upTo bus fuel n w = (some none, v) from run] at before
      have count := dataWords_upTo run start
      rw [fresh] at count
      refine sector_safe ⟨before, by simpa [dataWords] using count⟩ ?_
      exact clear n (by omega) v ((fuelSteady_upTo bus call n).finishes run)

theorem keeps_sector {T : List Access → Prop} (grow : ∀ access t, T t → T (access :: t))
    (bus : Bus σ) (fuel : Nat) (call : Call) (i : Nat) : Keeps T (call.sector bus fuel i) := by
  refine (keeps_poll bus fuel fun v t => grow _ t).bind fun failed => ?_
  split
  · exact keeps_pure _
  · refine (Keeps.times (fun j => ?_) _).bind fun _ => keeps_pure _
    unfold Call.word
    split
    · exact (keeps_peek _ _).bind fun _ => keeps_outw fun t => grow _ t
    · exact (keeps_inw fun v t => grow _ t).bind fun _ => keeps_poke _ _ _

theorem trace_upTo (bus : Bus σ) (fuel : Nat) (call : Call) (w : World σ) {j n : Nat} (le : j ≤ n) :
    (call.upTo bus fuel j w).2.trace <:+ (call.upTo bus fuel n w).2.trace := by
  induction n with
  | zero =>
    obtain rfl : j = 0 := by omega
    exact List.suffix_refl _
  | succ n ih =>
    by_cases here : j = n + 1
    · subst here
      exact List.suffix_refl _
    · refine (ih (by omega)).trans ?_
      rcases world_upTo bus fuel call n w with same | ⟨v, run, more⟩
      · rw [same]
      · rw [more, show call.upTo bus fuel n w = (some none, v) from run]
        exact keeps_sector (fun access t suffix => suffix.trans (List.suffix_cons access t))
          bus fuel call n v (List.suffix_refl _)

/-- A run that keeps the rule has polls that end on clear statuses only. -/
theorem staysClear_of_safe {call : Call} (fresh : w.trace = [])
    (safe : ∀ fuel, DataSafe (ataBusPort call.dev.channel) (call.run bus fuel w).2.trace) :
    StaysClear bus call w := by
  rintro k low v ⟨enough, reached⟩ m n ends clean
  obtain ⟨enough', polled⟩ := finishes_poll ends
  have reached := reached (max enough enough') (by omega)
  have polled := polled (max enough enough') (by omega)
  rw [pollResult, if_neg clean] at polled
  obtain ⟨u, moved, words⟩ := returns_words bus call (ataBusPort call.dev.channel) k
    (afterStatus bus (ataBusPort call.dev.channel) (n + 1) v)
  have next : Returns (call.upTo bus (max enough enough') (k + 1)) w none u :=
    returns_upTo_succ.mpr ⟨v, reached, returns_transferSector_none.mpr ⟨_, polled, moved⟩⟩
  have within := trace_upTo bus (max enough enough') call w (show k + 1 ≤ call.sectors by omega)
  rw [show call.upTo bus (max enough enough') (k + 1) w = (some none, u) from next,
    ← world_run] at within
  have start : DataSafe (ataBusPort call.dev.channel) w.trace := by
    rw [fresh]
    trivial
  have count := dataWords_upTo reached start
  have boundary : dataWords (ataBusPort call.dev.channel)
      (afterStatus bus (ataBusPort call.dev.channel) (n + 1) v).trace % 256 = 0 := by
    rw [dataWords_afterStatus, count, fresh]
    simp [dataWords]
  obtain ⟨s, last, ready⟩ := words.cleared ((safe _).suffix within) boundary
  rw [lastStatus_afterStatus] at last
  cases last
  exact ready.1

theorem transfer_safe_iff (bus : Bus σ) (call : Call) (fresh : w.trace = []) :
    (∀ fuel, DataSafe (ataBusPort call.dev.channel) (call.run bus fuel w).2.trace) ↔
      StaysClear bus call w := by
  constructor
  · exact staysClear_of_safe fresh
  · intro clear fuel
    rw [world_run]
    exact upTo_safe fresh clear call.sectors le_rfl

/-! ## Identification -/

/-- Reading the control block is not reading the status, and not touching the data register. -/
theorem control_apart {channel : UInt8} (within : channel < 4) :
    ataRegStatus (ataBusControl channel) ≠ ataRegData (ataBusPort channel) ∧
      ataRegStatus (ataBusControl channel) ≠ ataRegStatus (ataBusPort channel) := by
  have all : ∀ c < 4,
      ataRegStatus (ataBusControl (UInt8.ofNat c)) ≠ ataRegData (ataBusPort (UInt8.ofNat c)) ∧
      ataRegStatus (ataBusControl (UInt8.ofNat c)) ≠ ataRegStatus (ataBusPort (UInt8.ofNat c)) := by
    decide
  simpa using all channel.toNat within

theorem calm_afterReads {port : UInt16} (other : port ≠ ataRegData ch) {c : Nat} (n : Nat)
    (calm : Calm ch c w.trace) : Calm ch c (afterReads bus port n w).trace := by
  induction n with
  | zero => exact calm
  | succ n ih =>
    rw [afterReads_succ]
    exact calm_other other ih

theorem lastStatus_afterReads {port : UInt16} (other : port ≠ ataRegStatus ch) (n : Nat) :
    lastStatus ch (afterReads bus port n w).trace = lastStatus ch w.trace := by
  induction n with
  | zero => rfl
  | succ n ih =>
    rw [afterReads_succ, World.readOnce, lastStatus, if_neg other, ih]

theorem words_afterWords (bus : Bus σ) (ch : UInt16) (n : Nat) (w : World σ) :
    Words ch n w.trace (afterWords bus (ataRegData ch) n w).trace := by
  induction n with
  | zero => exact .start
  | succ n ih =>
    rw [afterWords_succ]
    exact ih.more rfl

section Steps
variable {channel drive : UInt8} {n : Nat}

theorem calm_asked (within : channel < 4) (fresh : w.trace = []) :
    Calm (ataBusPort channel) 0 (identifyAsked bus channel drive w).trace := by
  have start : Calm (ataBusPort channel) 0 w.trace := by
    rw [fresh]
    exact ⟨trivial, rfl⟩
  refine calm_afterReads (status_ne_data _) 1 (calm_afterReads (control_apart within).1 4 ?_)
  refine calm_other ?_ (calm_other ?_ (calm_other ?_ (calm_other ?_ (calm_other ?_
    (calm_other ?_ start)))))
  all_goals simp [Access.port, ataRegDevsel, ataRegSeccount0, ataRegLba0, ataRegLba1, ataRegLba2,
    ataRegCommand, ataRegData]

theorem calm_polled (within : channel < 4) (fresh : w.trace = []) (n : Nat) :
    Calm (ataBusPort channel) 0 (identifyPolled bus channel drive w n).trace :=
  calm_afterReads (status_ne_data _) (n + 1) (calm_asked within fresh)

theorem calm_signatureRead (within : channel < 4) (fresh : w.trace = []) (n : Nat) :
    Calm (ataBusPort channel) 0 (signatureRead bus channel drive w n).trace := by
  refine calm_other ?_ (calm_other ?_ (calm_polled within fresh n))
  all_goals simp [Access.port, ataRegLba1, ataRegLba2, ataRegData]

theorem calm_packetDelayed (within : channel < 4) (fresh : w.trace = []) (n : Nat) :
    Calm (ataBusPort channel) 0 (packetDelayed bus channel drive w n).trace := by
  refine calm_afterReads (control_apart within).1 4 (calm_other ?_ (calm_signatureRead within fresh n))
  simp [Access.port, ataRegCommand, ataRegData]

theorem lastStatus_polled (n : Nat) :
    lastStatus (ataBusPort channel) (identifyPolled bus channel drive w n).trace =
      some (endStatus bus channel drive w n) :=
  lastStatus_afterStatus ..

/-- Nothing looks at the status between the polling and the packet data. -/
theorem lastStatus_packetDelayed (within : channel < 4) (n : Nat) :
    lastStatus (ataBusPort channel) (packetDelayed bus channel drive w n).trace =
      some (endStatus bus channel drive w n) := by
  rw [packetDelayed, afterStatus, lastStatus_afterReads (control_apart within).2]
  simp only [World.put, signatureRead, World.readOnce, lastStatus]
  rw [if_neg (by simp [ataRegLba2, ataRegStatus]), if_neg (by simp [ataRegLba1, ataRegStatus])]
  exact lastStatus_polled n

/-- The data phase keeps the rule if and only if the last status let it start. -/
theorem taken_safe_iff {v : World σ} (calm : Calm (ataBusPort channel) 0 v.trace) (buffer : Nat) :
    DataSafe (ataBusPort channel) (identifyTaken bus channel v buffer).trace ↔
      Cleared (ataBusPort channel) v.trace := by
  have words := words_afterWords bus (ataBusPort channel) 256 v
  have boundary : dataWords (ataBusPort channel) v.trace % 256 = 0 := by rw [calm.2]
  rw [identifyTaken_trace]
  constructor
  · intro safe
    exact words.cleared safe boundary
  · intro cleared
    exact words.safe calm.1 boundary cleared le_rfl

theorem cleared_iff {v : World σ} {s : UInt8} (last : lastStatus ch v.trace = some s) :
    Cleared ch v.trace ↔ Ready s := by
  simp [Cleared, last]

/-- A polling that does not end on a fault ends on a status that lets a sector start. -/
theorem ready_of_ends (ends : IdentifyEnds bus channel drive w n)
    (clean : ¬ Faulty (endStatus bus channel drive w n)) :
    Ready (endStatus bus channel drive w n) := by
  obtain ⟨clear, requesting⟩ := ends.ended.resolve_left clean
  exact ⟨clear, requesting, clean⟩

end Steps

variable {error idx : UInt8} {dev : AtaDev} {buffer : Nat}

/-- No drive that ends the polling with a fault carries the signature of an ATAPI drive. -/
def NoFaultySignature (bus : Bus σ) (idx : UInt8) (w : World σ) : Prop :=
  ∀ n, IdentifyEnds bus (idx / 2) (idx % 2) w n → Faulty (endStatus bus (idx / 2) (idx % 2) w n) →
    signed bus (idx / 2) (idx % 2) w n = false

theorem half_lt {idx : UInt8} (within : idx < 8) : idx / 2 < 4 := by
  have all : ∀ i < 8, UInt8.ofNat i / 2 < 4 := by decide
  simpa using all idx.toNat within

theorem outcome_safe {r : UInt8 × AtaDev} (within : idx < 8) (fresh : w.trace = [])
    (unsigned_ : NoFaultySignature bus idx w)
    (outcome : Identified bus error dev (idx / 2) (idx % 2) buffer w r w') :
    DataSafe (ataBusPort (idx / 2)) w'.trace := by
  have channel := half_lt within
  cases outcome with
  | absent _ => exact (calm_asked channel fresh).1
  | refused _ _ _ => exact (calm_signatureRead channel fresh _).1
  | @packet n ends failed isSigned =>
    rw [taken_safe_iff (calm_packetDelayed channel fresh n),
      cleared_iff (lastStatus_packetDelayed channel n)]
    refine ready_of_ends ends fun faulty => ?_
    rw [unsigned_ n ends faulty] at isSigned
    cases isSigned
  | @plain n ends ok =>
    rw [taken_safe_iff (calm_polled channel fresh n), cleared_iff (lastStatus_polled n)]
    refine ready_of_ends ends fun faulty => ?_
    rw [polledError, if_pos faulty] at ok
    cases ok

/-- A run of `identify_command` that does not come back has only polled. -/
theorem stuck_safe {fuel : Nat} (within : idx < 8) (fresh : w.trace = [])
    (never : ∀ n < fuel, ¬ IdentifyEnds bus (idx / 2) (idx % 2) w n)
    (answers : firstStatus bus (idx / 2) (idx % 2) w ≠ 0) :
    DataSafe (ataBusPort (idx / 2)) (identifyCommand bus fuel error dev idx buffer w).2.trace := by
  have calm := @calm_asked _ bus w (idx / 2) (idx % 2) (half_lt within) fresh
  have keeps : Keeps (Calm (ataBusPort (idx / 2)) 0) (loop fuel
      (readThenTest bus (ataRegStatus (ataBusPort (idx / 2))) (identifyTest error)) ()) :=
    Keeps.loop (fun _ => keeps_readThenTest fun _ _ => calm_status) fuel ()
  have polled := keeps _ calm
  rw [identifyCommand, (returns_identifyStart bus (idx / 2) (idx % 2) w).bind_eq, if_neg answers]
  rcases scan : loop fuel
      (readThenTest bus (ataRegStatus (ataBusPort (idx / 2))) (identifyTest error)) ()
      (identifyAsked bus (idx / 2) (idx % 2) w) with ⟨_ | e, v⟩
  · rw [bind_stuck scan]
    rw [scan] at polled
    exact polled.1
  · obtain ⟨n, below, ends, -⟩ := (returns_identifyPoll answers).mp
      (show Returns _ _ e v from scan)
    exact absurd ends (never n below)

theorem identify_safe_iff (bus : Bus σ) (error : UInt8) (dev : AtaDev) (buffer : Nat)
    (within : idx < 8) (fresh : w.trace = []) :
    (∀ fuel, DataSafe (ataBusPort (idx / 2))
      (identifyCommand bus fuel error dev idx buffer w).2.trace) ↔
        NoFaultySignature bus idx w := by
  constructor
  · intro safe n ends faulty
    obtain ⟨r, w', run⟩ := halts_of_ends ends (Nat.lt_succ_self n) error dev buffer
    have kept := safe (n + 1)
    rw [show identifyCommand bus (n + 1) error dev idx buffer w = (some r, w') from run] at kept
    have failed : polledError error (endStatus bus (idx / 2) (idx % 2) w n) ≠ 0 := by
      rw [polledError, if_pos faulty]
      decide
    cases identified_of_returns run with
    | absent none => exact absurd none ends.answers
    | refused ends' _ unsigned_ =>
      obtain rfl := ends.unique ends'
      exact unsigned_
    | packet ends' _ _ =>
      obtain rfl := ends.unique ends'
      rw [taken_safe_iff (calm_packetDelayed (half_lt within) fresh n),
        cleared_iff (lastStatus_packetDelayed (half_lt within) n)] at kept
      exact absurd faulty kept.2.2
    | plain ends' ok =>
      obtain rfl := ends.unique ends'
      exact absurd ok failed
  · intro unsigned_ fuel
    rcases run : identifyCommand bus fuel error dev idx buffer w with ⟨_ | r, w'⟩
    · by_cases answers : firstStatus bus (idx / 2) (idx % 2) w = 0
      · exfalso
        rw [identifyCommand, (returns_identifyStart bus (idx / 2) (idx % 2) w).bind_eq,
          if_pos answers] at run
        cases run
      · have safe : DataSafe (ataBusPort (idx / 2))
            (identifyCommand bus fuel error dev idx buffer w).2.trace := by
          refine stuck_safe within fresh (fun n below ends => ?_) answers
          obtain ⟨r, v, back⟩ := halts_of_ends ends below error dev buffer
          rw [show identifyCommand bus fuel error dev idx buffer w = (some r, v) from back] at run
          cases run
        rwa [run] at safe
    · exact outcome_safe within fresh unsigned_ (identified_of_returns run)

/-- Over any device, the transfers keep the rule exactly when no poll ends on a status that has
`BSY` set again, and identification keeps it exactly when a fault at the end of the polling never
comes with the signature of an ATAPI drive. -/
theorem data_phases_safe_iff (bus : Bus σ) (w : World σ) (fresh : w.trace = []) :
    (∀ call : Call,
      (∀ fuel, DataSafe (ataBusPort call.dev.channel) (call.run bus fuel w).2.trace) ↔
        StaysClear bus call w) ∧
    (∀ error dev idx buffer, idx < 8 →
      ((∀ fuel, DataSafe (ataBusPort (idx / 2))
        (identifyCommand bus fuel error dev idx buffer w).2.trace) ↔
          NoFaultySignature bus idx w)) :=
  ⟨fun call => transfer_safe_iff bus call fresh,
    fun error dev _ buffer within => identify_safe_iff bus error dev buffer within fresh⟩

theorem data_phases_safe_iff_script :
    (∀ call : Call, (∀ fuel, DataSafe (ataBusPort call.dev.channel)
      (call.run scriptBus fuel (scripted [0x50])).2.trace) ↔
        StaysClear scriptBus call (scripted [0x50])) ∧
    (∀ error dev idx buffer, idx < 8 → ((∀ fuel, DataSafe (ataBusPort (idx / 2))
      (identifyCommand scriptBus fuel error dev idx buffer (scripted [0x50])).2.trace) ↔
        NoFaultySignature scriptBus idx (scripted [0x50]))) :=
  data_phases_safe_iff scriptBus (scripted [0x50]) rfl

/-- A transfer that finds the channel free starts with one status read. -/
theorem script_start (call : Call) {w : World (List UInt8)} {s : UInt8} {rest : List UInt8}
    (script : w.device = s :: rest) (clear : ¬ Busy s) :
    ∃ v, Finishes (fun fuel => call.upTo scriptBus fuel 0) w none v ∧ v.device = rest := by
  have status : answer scriptBus (ataRegStatus (ataBusPort call.dev.channel)) w 0 = s := by
    rw [answer_script, script]
    rfl
  have waited : ∀ fuel ≥ 1, Returns (loop fuel (readThenTest scriptBus
      (ataRegStatus (ataBusPort call.dev.channel)) busyTest) ()) w s
      (afterReads scriptBus (ataRegStatus (ataBusPort call.dev.channel)) 1 w) := by
    intro fuel le
    refine (@returns_readThenTest _ _ w _ s scriptBus _ fuel busyTest 0).mpr
      ⟨0, le_rfl, by omega, fun i _ low => absurd low (Nat.not_lt_zero i), ?_, rfl⟩
    rw [busyTest_some, status]
    exact ⟨clear, rfl⟩
  refine ⟨_, ⟨1, fun fuel le => (waited fuel le).bind (Returns.bind ((returns_put ..).bind
    ((returns_put ..).bind ((returns_put ..).bind ((returns_put ..).bind ((returns_put ..).bind
      ((returns_put ..).bind (returns_put ..))))))) (returns_pure.mpr ⟨rfl, rfl⟩))⟩, ?_⟩
  change (afterReads scriptBus (ataRegStatus (ataBusPort call.dev.channel)) 1 w).device = rest
  rw [device_script, script]
  rfl

/-- A read goes on when `BSY` comes back together with `DRQ`, and a drive that ends the polling
with `ERR` and has the signature of an ATAPI drive is read without a look at its status. -/
theorem data_phases_unsafe :
    (¬ ∀ fuel, DataSafe (ataBusPort 0) (Call.run scriptBus fuel ⟨false, .located 0 0 1024, 0, 1, 0⟩
        (scripted [0x50, 0x50, 0x50, 0x50, 0x50, 0x50, 0x88])).2.trace) ∧
    (¬ ∀ fuel, DataSafe (ataBusPort 0) (identifyCommand scriptBus fuel 0 (.located 0 0 0) 0 0
        (scripted [0, 0, 0, 0, 0x50, 0x01, 0x14, 0xeb])).2.trace) := by
  constructor
  · intro safe
    obtain ⟨v, start, device⟩ := @script_start ⟨false, .located 0 0 1024, 0, 1, 0⟩
      (scripted [0x50, 0x50, 0x50, 0x50, 0x50, 0x50, 0x88]) _ _ rfl (by decide)
    have status : ∀ i, statusOf scriptBus (ataBusPort 0) v i =
        [0x50, 0x50, 0x50, 0x50, 0x50, 0x88].getD i 0 := by
      intro i
      rw [statusOf, answer_script, device]
    have ends : PollEnds scriptBus (ataBusPort 0) v 4 5 := by
      refine ⟨le_rfl, by decide, fun i low high => absurd high (by omega), ?_, ?_, ?_⟩
      · rw [status]
        decide
      · intro i low high
        obtain rfl : i = 4 := by omega
        rw [status]
        decide
      · rw [status]
        decide
    have busy : statusOf scriptBus (ataBusPort 0) v 5 = 0x88 := status 5
    refine @staysClear_of_safe _ _ _ ⟨false, .located 0 0 1024, 0, 1, 0⟩ rfl safe 0
      (by decide) v start 4 5 ends ?_ ?_
    · exact busy ▸ (by decide)
    · exact busy ▸ (by decide)
  · intro safe
    have ends : IdentifyEnds scriptBus (0 / 2) (0 % 2)
        (scripted [0, 0, 0, 0, 0x50, 0x01, 0x14, 0xeb]) 0 :=
      ⟨by decide, fun i low => absurd low (Nat.not_lt_zero i), by decide⟩
    have unsigned_ := (identify_safe_iff scriptBus 0 (.located 0 0 0) 0 (by decide) rfl).mp safe 0
      ends (by decide)
    exact absurd unsigned_ (by decide)

end AtaKernel.Ata
