import AtaKernel.Ata.Identify

/-! What `ata_init` leaves in its four slots and what it returns. The slots are
examined one after the other, each in the world its predecessor left. A record
gets its place in the system only together with the data of a drive, and an
error passes through two bytes on its way to the `int` result. -/
namespace AtaKernel.Ata
open ByteMemory PortIo

variable {σ : Type}

/-! ## One slot -/

section Slot
variable (bus : Bus σ) (error : UInt8) (channel drive : UInt8) (v : World σ)

/-- The identification that starts in `v` gets as far as the data of a drive. -/
def ReadsData : Prop := ∃ n, IdentifyEnds bus channel drive v n ∧
  (polledError error (endStatus bus channel drive v n) = 0 ∨ signed bus channel drive v n = true)

/-- It is left with `-1`: `error` is not zero after the polling, and there is no signature. -/
def LeavesWithError : Prop := ∃ n, IdentifyEnds bus channel drive v n ∧
  polledError error (endStatus bus channel drive v n) ≠ 0 ∧ signed bus channel drive v n = false

/-- The drive reports a fault and is not an ATAPI drive. -/
def ReportsError : Prop := ∃ n, IdentifyEnds bus channel drive v n ∧
  Faulty (endStatus bus channel drive v n) ∧ signed bus channel drive v n = false

end Slot

variable {bus : Bus σ} {error channel drive : UInt8} {dev : AtaDev} {buffer : Nat}
  {v v' : World σ} {r : UInt8 × AtaDev}

theorem ReportsError.leaves (reports : ReportsError bus channel drive v) :
    LeavesWithError bus error channel drive v := by
  obtain ⟨n, ends, faulty, unsigned_⟩ := reports
  refine ⟨n, ends, ?_, unsigned_⟩
  rw [polledError, if_pos faulty]
  decide

/-- Where the data are read, the place is filled in. -/
theorem Identified.filled (outcome : Identified bus error dev channel drive buffer v r v')
    (reads : ReadsData bus error channel drive v) :
    r.2.channel = channel ∧ r.2.drive = drive := by
  obtain ⟨n, ends, taken⟩ := reads
  cases outcome with
  | absent none => exact absurd none ends.answers
  | refused ends' failed unsigned_ =>
    obtain rfl := ends.unique ends'
    rcases taken with ok | isSigned
    · exact absurd ok failed
    · rw [unsigned_] at isSigned
      cases isSigned
  | packet _ _ _ => exact ⟨rfl, rfl⟩
  | plain _ _ => exact ⟨rfl, rfl⟩

/-- Where they are not, it stays what it was. -/
theorem Identified.unfilled (outcome : Identified bus error dev channel drive buffer v r v')
    (silent : ¬ ReadsData bus error channel drive v) :
    r.2.channel = dev.channel ∧ r.2.drive = dev.drive := by
  cases outcome with
  | absent _ => exact ⟨rfl, rfl⟩
  | refused _ _ _ => exact ⟨rfl, rfl⟩
  | packet ends _ isSigned => exact absurd ⟨_, ends, .inr isSigned⟩ silent
  | plain ends ok => exact absurd ⟨_, ends, .inl ok⟩ silent

theorem Identified.empty (outcome : Identified bus error dev channel drive buffer v r v')
    (none : firstStatus bus channel drive v = 0) : r.2.present = ataDeviceEmpty := by
  cases outcome with
  | absent _ => rfl
  | refused ends _ _ => exact absurd none ends.answers
  | packet ends _ _ => exact absurd none ends.answers
  | plain ends _ => exact absurd none ends.answers

theorem Identified.failed_iff (outcome : Identified bus error dev channel drive buffer v r v') :
    r.1 ≠ 0 ↔ LeavesWithError bus error channel drive v := by
  constructor
  · intro failed
    cases outcome with
    | absent _ => exact absurd rfl failed
    | refused ends polled unsigned_ => exact ⟨_, ends, polled, unsigned_⟩
    | packet _ _ _ => exact absurd rfl failed
    | plain _ _ => exact absurd rfl failed
  · rintro ⟨n, ends, polled, unsigned_⟩
    cases outcome with
    | absent none => exact absurd none ends.answers
    | refused _ _ _ => exact show (255 : UInt8) ≠ 0 by decide
    | packet ends' _ isSigned =>
      obtain rfl := ends.unique ends'
      rw [unsigned_] at isSigned
      cases isSigned
    | plain ends' ok =>
      obtain rfl := ends.unique ends'
      exact absurd ok polled

/-! ## The four slots -/

variable {fuel : Nat} {garbage : Nat → UInt8} {devs devs' : Nat → AtaDev} {w w' : World σ}
  {n i : Nat} {e : UInt8}

/-- `v` is the world in which `ata_init` examines position `i`. -/
def ExaminedIn (bus : Bus σ) (fuel : Nat) (garbage : Nat → UInt8) (buffer : Nat)
    (devs : Nat → AtaDev) (w : World σ) (i : Nat) (v : World σ) : Prop :=
  ∃ slots, Returns (timesCarry i (ataInitSlot bus fuel garbage buffer) (devs, 0)) w slots v

theorem ExaminedIn.unique (first : ExaminedIn bus fuel garbage buffer devs w i v)
    (second : ExaminedIn bus fuel garbage buffer devs w i v') : v = v' := by
  obtain ⟨slots, run⟩ := first
  obtain ⟨slots', run'⟩ := second
  exact (run.deterministic run').2

/-- What the first `n` positions leave: the later records are untouched, each record so far is an
outcome of its identification, and the accumulator remembers whether one failed. -/
structure Examined (bus : Bus σ) (fuel : Nat) (garbage : Nat → UInt8) (buffer : Nat)
    (devs : Nat → AtaDev) (w : World σ) (n : Nat) (devs' : Nat → AtaDev) (e : UInt8) : Prop where
  later : ∀ i ≥ n, devs' i = devs i
  slots : ∀ i < n, ∃ v r v', ExaminedIn bus fuel garbage buffer devs w i v ∧
    Identified bus (garbage i) (devs i) (UInt8.ofNat i / 2) (UInt8.ofNat i % 2) buffer v r v' ∧
      devs' i = r.2
  passed : (∀ i < n, ∀ v, ExaminedIn bus fuel garbage buffer devs w i v →
    ¬ LeavesWithError bus (garbage i) (UInt8.ofNat i / 2) (UInt8.ofNat i % 2) v) → e = 0
  failed : (∃ i < n, ∃ v, ExaminedIn bus fuel garbage buffer devs w i v ∧
    LeavesWithError bus (garbage i) (UInt8.ofNat i / 2) (UInt8.ofNat i % 2) v) → e = 255

/-- Every position adds its own outcome. -/
theorem examined (run : Returns (timesCarry n (ataInitSlot bus fuel garbage buffer) (devs, 0)) w
    (devs', e) w') : Examined bus fuel garbage buffer devs w n devs' e := by
  induction n generalizing devs' e w' with
  | zero =>
    obtain ⟨same, rfl⟩ := returns_pure.mp run
    cases same
    exact ⟨fun _ _ => rfl, fun i low => absurd low (Nat.not_lt_zero i), fun _ => rfl,
      fun ⟨i, low, _⟩ => absurd low (Nat.not_lt_zero i)⟩
  | succ n ih =>
    obtain ⟨⟨before, e₀⟩, v, first, last⟩ := returns_bind.mp run
    obtain ⟨r, v', identify, result⟩ := returns_bind.mp last
    obtain ⟨same, rfl⟩ := returns_pure.mp result
    cases same
    have examined_ := ih first
    have at_ : ExaminedIn bus fuel garbage buffer devs w n v := ⟨_, first⟩
    have own := identified_of_returns identify
    rw [examined_.later n le_rfl] at own
    refine ⟨?_, ?_, ?_, ?_⟩
    · intro i le
      rw [Function.update_of_ne (by omega)]
      exact examined_.later i (by omega)
    · intro i low
      by_cases here : i = n
      · subst here
        exact ⟨v, r, _, at_, own, Function.update_self ..⟩
      · rw [Function.update_of_ne here]
        exact examined_.slots i (by omega)
    · intro fine
      have ok : ¬ r.1 ≠ 0 := fun failed =>
        fine n (Nat.lt_succ_self n) v at_ (own.failed_iff.mp failed)
      rw [if_neg ok]
      exact examined_.passed fun i low => fine i (by omega)
    · rintro ⟨i, low, u, there, leaves⟩
      by_cases here : i = n
      · subst here
        obtain rfl := at_.unique there
        exact if_pos (own.failed_iff.mpr leaves)
      · have failed := examined_.failed ⟨i, by omega, u, there, leaves⟩
        split
        · rfl
        · exact failed

theorem examined_init {result : Int}
    (run : Returns (ataInit bus fuel garbage buffer devs) w (devs', result) w') :
    ∃ e : UInt8, Examined bus fuel garbage buffer devs w 4 devs' e ∧ result = (e.toNat : Int) := by
  obtain ⟨⟨slots, e⟩, v, loops, last⟩ := returns_bind.mp run
  obtain ⟨same, rfl⟩ := returns_pure.mp last
  cases same
  exact ⟨e, examined loops, rfl⟩

theorem position {i : Nat} (low : i < 4) :
    UInt8.ofNat i / 2 = UInt8.ofNat (i / 2) ∧ UInt8.ofNat i % 2 = UInt8.ofNat (i % 2) := by
  have all : ∀ i < 4, UInt8.ofNat i / 2 = UInt8.ofNat (i / 2) ∧
      UInt8.ofNat i % 2 = UInt8.ofNat (i % 2) := by decide
  exact all i low

/-! ## The places -/

/-- The record names the drive at position `i`. -/
abbrev PlacedAt (dev : AtaDev) (i : Nat) : Prop :=
  dev.channel = UInt8.ofNat (i / 2) ∧ dev.drive = UInt8.ofNat (i % 2)

/-- Every slot has its place, and a slot where nothing answered is marked empty. -/
def SlotsFilled (bus : Bus σ) (fuel : Nat) (garbage : Nat → UInt8) (buffer : Nat)
    (devs : Nat → AtaDev) (w : World σ) (devs' : Nat → AtaDev) : Prop :=
  ∀ i < 4, PlacedAt (devs' i) i ∧ ∀ v, ExaminedIn bus fuel garbage buffer devs w i v →
    firstStatus bus (UInt8.ofNat (i / 2)) (UInt8.ofNat (i % 2)) v = 0 →
      (devs' i).present = ataDeviceEmpty

/-- When `ata_init` returns, all slots are filled in if and only if each had its place before, or
got it with the data of a drive. -/
theorem slotsFilled_iff {σ : Type} (bus : Bus σ) (fuel : Nat) (garbage : Nat → UInt8)
    (buffer : Nat) (devs devs' : Nat → AtaDev) (w w' : World σ) (result : Int)
    (run : Returns (ataInit bus fuel garbage buffer devs) w (devs', result) w') :
    SlotsFilled bus fuel garbage buffer devs w devs' ↔
      ∀ i < 4, PlacedAt (devs i) i ∨ ∀ v, ExaminedIn bus fuel garbage buffer devs w i v →
        ReadsData bus (garbage i) (UInt8.ofNat (i / 2)) (UInt8.ofNat (i % 2)) v := by
  obtain ⟨e, examined_, -⟩ := examined_init run
  constructor
  · intro filled i low
    obtain ⟨v, r, v', at_, outcome, same⟩ := examined_.slots i low
    rw [(position low).1, (position low).2] at outcome
    by_cases reads : ReadsData bus (garbage i) (UInt8.ofNat (i / 2)) (UInt8.ofNat (i % 2)) v
    · right
      intro u there
      exact at_.unique there ▸ reads
    · left
      have kept := outcome.unfilled reads
      have placed := (filled i low).1
      rw [same] at placed
      exact ⟨kept.1 ▸ placed.1, kept.2 ▸ placed.2⟩
  · intro condition i low
    obtain ⟨v, r, v', at_, outcome, same⟩ := examined_.slots i low
    rw [(position low).1, (position low).2] at outcome
    rw [same]
    constructor
    · by_cases reads : ReadsData bus (garbage i) (UInt8.ofNat (i / 2)) (UInt8.ofNat (i % 2)) v
      · exact outcome.filled reads
      · rcases condition i low with placed | always
        · have kept := outcome.unfilled reads
          exact ⟨kept.1.trans placed.1, kept.2.trans placed.2⟩
        · exact absurd (always v at_) reads
    · intro u there none
      obtain rfl := at_.unique there
      exact outcome.empty none

/-! ### A first drive at most -/

/-- Whatever becomes of the first position, it uses up the script. -/
def TakesAll (fuel : Nat) (error : UInt8) (w : World (List UInt8)) : Prop :=
  ∀ dev, ∃ r v, Returns (identifyCommand scriptBus fuel error dev 0 0) w r v ∧ v.device = []

theorem takesAll_nothing (fuel : Nat) (error : UInt8) : TakesAll fuel error (scripted []) := fun dev => by
  have silent : firstStatus scriptBus (0 / 2) (0 % 2) (scripted []) = 0 := firstStatus_script 0 0 (scripted [])
  refine ⟨_, _, returns_absent silent error dev 0, ?_⟩
  rw [device_asked]
  rfl

theorem takesAll_of_ends {w : World (List UInt8)} (ends : IdentifyEnds scriptBus 0 0 w 0)
    (short : w.device.length ≤ 6) (error : UInt8) : TakesAll 1 error w := fun dev => by
  obtain ⟨r, v, identify⟩ := @halts_of_ends _ scriptBus w 1 0 0 ends (Nat.lt_succ_self 0) error dev 0
  refine ⟨r, v, identify, ?_⟩
  cases identified_of_returns identify with
  | absent none => exact absurd none ends.answers
  | refused _ _ _ =>
    rw [device_signatureRead]
    exact List.drop_eq_nil_of_le (by omega)
  | packet _ _ _ =>
    rw [device_taken, device_packetDelayed]
    exact List.drop_eq_nil_of_le (by omega)
  | plain _ _ =>
    rw [device_taken, device_polled]
    exact List.drop_eq_nil_of_le (by omega)

/-- The positions behind the first one find nothing. -/
theorem slots_script {w : World (List UInt8)} (first : TakesAll fuel (garbage 0) w) (devs : Nat → AtaDev) (n : Nat) :
    ∃ slots v, Returns (timesCarry n (ataInitSlot scriptBus fuel garbage 0) (devs, 0)) w slots v ∧
      (v.device = [] ∨ n = 0 ∧ v = w) :=
  @returns_timesCarry _ _ w (devs, (0 : UInt8)) n (ataInitSlot scriptBus fuel garbage 0)
    (fun i _ v => v.device = [] ∨ (i = 0 ∧ v = w)) (.inr ⟨rfl, rfl⟩) fun i _ slots v state => by
      rcases state with none | ⟨rfl, rfl⟩
      · have silent : firstStatus scriptBus (UInt8.ofNat i / 2) (UInt8.ofNat i % 2) v = 0 := by
          rw [firstStatus_script, none]
          rfl
        refine ⟨_, _, (returns_absent silent _ _ _).bind (returns_pure.mpr ⟨rfl, rfl⟩), .inl ?_⟩
        rw [device_asked, none]
        rfl
      · obtain ⟨r, v', identify, spent⟩ := first (slots.1 0)
        exact ⟨_, v', identify.bind (returns_pure.mpr ⟨rfl, rfl⟩), .inl spent⟩

theorem init_script {w : World (List UInt8)} (first : TakesAll fuel (garbage 0) w) (devs : Nat → AtaDev) :
    ∃ devs' result w', Returns (ataInit scriptBus fuel garbage 0 devs) w (devs', result) w' := by
  obtain ⟨slots, v, loops, -⟩ := slots_script first devs 4
  exact ⟨_, _, v, loops.bind (returns_pure.mpr ⟨rfl, rfl⟩)⟩

theorem examinedIn_zero : ExaminedIn bus fuel garbage buffer devs w 0 w := ⟨_, returns_pure.mpr ⟨rfl, rfl⟩⟩

/-- A position that gets an answer is the first one. -/
theorem examinedIn_script {w v : World (List UInt8)} (at_ : ExaminedIn scriptBus fuel garbage 0 devs w i v)
    (first : TakesAll fuel (garbage 0) w) (answers : firstStatus scriptBus channel drive v ≠ 0) :
    i = 0 ∧ v = w := by
  obtain ⟨slots, u, run, state⟩ := slots_script first devs i
  obtain rfl := at_.unique ⟨slots, run⟩
  refine state.resolve_left fun none => answers ?_
  rw [firstStatus_script, none]
  rfl

/-- A first drive that answers, and no other drive. -/
def workingDrive : World (List UInt8) := scripted [0, 0, 0, 0, 0x50, 0x58]

theorem workingDrive_ends : IdentifyEnds scriptBus 0 0 workingDrive 0 :=
  ⟨by decide, fun i low => absurd low (Nat.not_lt_zero i), by decide⟩

theorem workingDrive_takesAll : TakesAll 1 0 workingDrive := takesAll_of_ends workingDrive_ends (by decide) 0

/-- Only the first record does not have its place. -/
def misplaced (i : Nat) : AtaDev :=
  if i = 0 then .located 9 9 0 else .located (UInt8.ofNat (i / 2)) (UInt8.ofNat (i % 2)) 0

/-- The drive puts the first record in its place. -/
theorem slotsFilled_iff_first_drive :
    ∃ devs' result w', Returns (ataInit scriptBus 1 (fun _ => 0) 0 misplaced) workingDrive (devs', result) w' ∧
      SlotsFilled scriptBus 1 (fun _ => 0) 0 misplaced workingDrive devs' ∧ PlacedAt (devs' 0) 0 := by
  obtain ⟨devs', result, w', run⟩ := @init_script 1 (fun _ => 0) _ workingDrive_takesAll misplaced
  have filled : SlotsFilled scriptBus 1 (fun _ => 0) 0 misplaced workingDrive devs' := by
    refine (slotsFilled_iff scriptBus 1 (fun _ => 0) 0 _ devs' workingDrive w' result run).mpr fun i low => ?_
    by_cases here : i = 0
    · subst here
      refine .inr fun v at_ => ?_
      obtain rfl := examinedIn_zero.unique at_
      exact ⟨0, workingDrive_ends, .inl (by decide)⟩
    · refine .inl ?_
      rw [misplaced, if_neg here]
      exact ⟨rfl, rfl⟩
  exact ⟨devs', result, w', run, filled, (filled 0 (by decide)).1⟩

/-- A first position without a drive keeps whatever place its record had, here one that does not
exist. -/
theorem absent_slot_unplaced :
    ∃ devs' result w', Returns (ataInit scriptBus 0 (fun _ => 0) 0 fun _ => .located 9 9 0)
        (scripted []) (devs', result) w' ∧ (devs' 0).channel = 9 ∧
      ¬ SlotsFilled scriptBus 0 (fun _ => 0) 0 (fun _ => .located 9 9 0) (scripted []) devs' := by
  obtain ⟨devs', result, w', run⟩ := @init_script 0 (fun _ => 0) _ (takesAll_nothing 0 0) fun _ => .located 9 9 0
  obtain ⟨e, examined_, -⟩ := examined_init run
  obtain ⟨v, r, v', at_, outcome, same⟩ := examined_.slots 0 (by decide)
  obtain rfl := examinedIn_zero.unique at_
  have silent : ¬ ReadsData scriptBus 0 (UInt8.ofNat 0 / 2) (UInt8.ofNat 0 % 2) (scripted []) :=
    fun ⟨n, ends, _⟩ => ends.answers (firstStatus_script _ _ (scripted []))
  have kept := outcome.unfilled silent
  rw [← same] at kept
  refine ⟨devs', result, w', run, kept.1, fun filled => ?_⟩
  have placed := (filled 0 (by decide)).1.1
  rw [kept.1] at placed
  exact absurd placed (by decide)

/-! ## The result -/

/-- The result is `-1` exactly when an answering drive reported an error, and no such slot is left
marked present. -/
def ReportsErrors (bus : Bus σ) (fuel : Nat) (garbage : Nat → UInt8) (buffer : Nat)
    (devs : Nat → AtaDev) (w : World σ) (devs' : Nat → AtaDev) (result : Int) : Prop :=
  ((∃ i < 4, ∃ v, ExaminedIn bus fuel garbage buffer devs w i v ∧
    ReportsError bus (UInt8.ofNat (i / 2)) (UInt8.ofNat (i % 2)) v) → result = -1) ∧
  ((¬ ∃ i < 4, ∃ v, ExaminedIn bus fuel garbage buffer devs w i v ∧
    ReportsError bus (UInt8.ofNat (i / 2)) (UInt8.ofNat (i % 2)) v) → result = 0) ∧
  ∀ i < 4, ∀ v, ExaminedIn bus fuel garbage buffer devs w i v →
    ReportsError bus (UInt8.ofNat (i / 2)) (UInt8.ofNat (i % 2)) v →
      (devs' i).present ≠ ataDevicePresent

/-- When `ata_init` returns, it reports errors as it should if and only if there is nothing to
report: no position is left through the error exit of `identify_command`. -/
theorem reportsErrors_iff {σ : Type} (bus : Bus σ) (fuel : Nat) (garbage : Nat → UInt8)
    (buffer : Nat) (devs devs' : Nat → AtaDev) (w w' : World σ) (result : Int)
    (run : Returns (ataInit bus fuel garbage buffer devs) w (devs', result) w') :
    ReportsErrors bus fuel garbage buffer devs w devs' result ↔
      ∀ i < 4, ∀ v, ExaminedIn bus fuel garbage buffer devs w i v →
        ¬ LeavesWithError bus (garbage i) (UInt8.ofNat (i / 2)) (UInt8.ofNat (i % 2)) v := by
  obtain ⟨e, examined_, rfl⟩ := examined_init run
  constructor
  · rintro ⟨minus, zero, -⟩ i low v at_ leaves
    rw [← (position low).1, ← (position low).2] at leaves
    have value : e = 255 := examined_.failed ⟨i, low, v, at_, leaves⟩
    subst value
    by_cases reports : ∃ i < 4, ∃ v, ExaminedIn bus fuel garbage buffer devs w i v ∧
        ReportsError bus (UInt8.ofNat (i / 2)) (UInt8.ofNat (i % 2)) v
    · exact absurd (minus reports) (by decide)
    · exact absurd (zero reports) (by decide)
  · intro fine
    have value : e = 0 := examined_.passed fun i low v at_ leaves => by
      rw [(position low).1, (position low).2] at leaves
      exact fine i low v at_ leaves
    subst value
    refine ⟨?_, fun _ => rfl, ?_⟩
    · rintro ⟨i, low, v, at_, reports⟩
      exact absurd reports.leaves (fine i low v at_)
    · intro i low v at_ reports
      exact absurd reports.leaves (fine i low v at_)

theorem reportsErrors_iff_first_drive :
    ∃ devs' w', Returns (ataInit scriptBus 1 (fun _ => 0) 0 misplaced) workingDrive (devs', 0) w' ∧
      ReportsErrors scriptBus 1 (fun _ => 0) 0 misplaced workingDrive devs' 0 := by
  obtain ⟨devs', result, w', run⟩ := @init_script 1 (fun _ => 0) _ workingDrive_takesAll misplaced
  have fine {i : Nat} {v : World (List UInt8)} {channel drive : UInt8}
      (at_ : ExaminedIn scriptBus 1 (fun _ => 0) 0 misplaced workingDrive i v) (low : channel = 0 ∧ drive = 0 ∨ i ≠ 0) :
      ¬ LeavesWithError scriptBus 0 channel drive v := by
    rintro ⟨n, ends, failed, -⟩
    obtain ⟨first, rfl⟩ := examinedIn_script at_ workingDrive_takesAll ends.answers
    obtain ⟨rfl, rfl⟩ := low.resolve_right (not_not.mpr first)
    obtain rfl := ends.unique workingDrive_ends
    exact absurd failed (by decide)
  have placed (i : Nat) : (UInt8.ofNat (i / 2) = 0 ∧ UInt8.ofNat (i % 2) = 0) ∨ i ≠ 0 := by
    by_cases here : i = 0
    · subst here
      exact .inl ⟨rfl, rfl⟩
    · exact .inr here
  have reports := (reportsErrors_iff scriptBus 1 (fun _ => 0) 0 _ devs' workingDrive w' result run).mpr
    fun i _ v at_ => fine at_ (placed i)
  obtain rfl : result = 0 := reports.2.1 fun ⟨i, _, v, at_, error⟩ => fine at_ (placed i) error.leaves
  exact ⟨devs', w', run, reports⟩

/-- A first drive that answers with `ERR` and has no signature, and no other drive. -/
def failingDrive : World (List UInt8) := scripted [0, 0, 0, 0, 0x50, 0x01]

theorem failingDrive_ends : IdentifyEnds scriptBus 0 0 failingDrive 0 :=
  ⟨by decide, fun i low => absurd low (Nat.not_lt_zero i), by decide⟩

theorem failingDrive_reports : ReportsError scriptBus 0 0 failingDrive :=
  ⟨0, failingDrive_ends, by decide, by decide⟩

/-- Such a drive makes `ata_init` return 255, and its slot is left marked present. -/
theorem error_not_reported :
    ∃ devs' w', Returns (ataInit scriptBus 1 (fun _ => 0) 0 fun _ => .located 0 0 0) failingDrive
        (devs', 255) w' ∧ (devs' 0).present = ataDevicePresent ∧
      ¬ ReportsErrors scriptBus 1 (fun _ => 0) 0 (fun _ => .located 0 0 0) failingDrive devs'
        255 := by
  obtain ⟨devs', result, w', run⟩ := @init_script 1 (fun _ => 0) _
    (takesAll_of_ends failingDrive_ends (by decide) 0) fun _ => .located 0 0 0
  obtain ⟨e, examined_, rfl⟩ := examined_init run
  have here : ExaminedIn scriptBus 1 (fun _ => 0) 0 (fun _ => .located 0 0 0) failingDrive 0
      failingDrive := examinedIn_zero
  obtain rfl : e = 255 :=
    examined_.failed ⟨0, by decide, failingDrive, here, failingDrive_reports.leaves⟩
  obtain ⟨v, r, v', at_, outcome, same⟩ := examined_.slots 0 (by decide)
  obtain rfl := here.unique at_
  refine ⟨devs', w', run, ?_, fun reports => ?_⟩
  · rw [same]
    cases outcome with
    | absent none => exact absurd none failingDrive_ends.answers
    | refused _ _ _ => rfl
    | packet _ _ _ => rfl
    | plain _ _ => rfl
  · exact absurd (reports.1 ⟨0, by decide, failingDrive, here, failingDrive_reports⟩) (by decide)

end AtaKernel.Ata
