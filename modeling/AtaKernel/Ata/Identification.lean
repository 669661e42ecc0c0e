import AtaKernel.Ata.Identify

/-! What `identify_command` makes of a drive that answers IDENTIFY as it
should: which record it fills in, from which words, and after which commands.
The local variable `error` is read although nothing has been stored in it, so
all of this depends on what it happened to hold. -/
namespace AtaKernel.Ata
open ByteMemory PortIo

variable {σ : Type}

/-- The drive answers with a status other than zero, never reports a fault, and asks for the data
in the end. -/
structure GoodDrive (bus : Bus σ) (idx : UInt8) (w : World σ) : Prop where
  answers : firstStatus bus (idx / 2) (idx % 2) w ≠ 0
  clean : ∀ i, ¬ Faulty (endStatus bus (idx / 2) (idx % 2) w i)
  ready : ∃ i, ¬ Busy (endStatus bus (idx / 2) (idx % 2) w i) ∧
    Requesting (endStatus bus (idx / 2) (idx % 2) w i)

/-- The commands written to the channel at `ch`, the latest first. -/
def commands (ch : UInt16) (trace : List Access) : List UInt8 :=
  trace.filterMap fun
    | .outb port value => if port = ataRegCommand ch then some value else none
    | _ => none

/-- Two words as one value, the first one low. -/
def wordPair (words : Nat → UInt16) (i : Nat) : UInt32 :=
  UInt32.ofNat ((words i).toNat + 65536 * (words (i + 1)).toNat)

/-- The record of an ATA drive at position `idx` that handed over `words`. -/
structure Describes (dev : AtaDev) (idx : UInt8) (words : Nat → UInt16) : Prop where
  type : dev.type = ataTypeAta
  channel : dev.channel = idx / 2
  drive : dev.drive = idx % 2
  signature : dev.signature = words 0
  capabilities : dev.capabilities = words 49
  commandsets : dev.commandsets = wordPair words 82
  size : dev.size =
    if dev.commandsets &&& ((1 : UInt32) <<< 26) ≠ 0 then wordPair words 100 else wordPair words 60
  text : ∀ k < 20, dev.model[2 * k]? = some (UInt8.ofNat ((words (27 + k)).toNat / 256)) ∧
    dev.model[2 * k + 1]? = some (UInt8.ofNat (words (27 + k)).toNat)
  closed : dev.model[40]? = some 0

/-- `identify_command` succeeds with IDENTIFY as its only command, and the record describes the
drive by the words it handed over. -/
def Recognises (bus : Bus σ) (error : UInt8) (dev : AtaDev) (idx : UInt8) (buffer : Nat)
    (w : World σ) : Prop :=
  ∃ n dev' w', IdentifyEnds bus (idx / 2) (idx % 2) w n ∧
    Finishes (fun fuel => identifyCommand bus fuel error dev idx buffer) w (0, dev') w' ∧
    commands (ataBusPort (idx / 2)) w'.trace =
      ataCmdIdentify :: commands (ataBusPort (idx / 2)) w.trace ∧
    Describes dev' idx (wordAt bus (ataRegData (ataBusPort (idx / 2)))
      (identifyPolled bus (idx / 2) (idx % 2) w n))

/-! ## The record -/

section Fields
variable (m : Memory) (words : Nat → UInt16) (buffer : Nat)

theorem buffer_word {i : Nat} (within : i < 256) :
    load (storeWords m buffer words 256) (buffer + 2 * i) 2 = (words i).toNat :=
  load_storeWords m buffer words within (by decide)

theorem buffer_pair {i : Nat} (within : i < 255) :
    UInt32.ofNat (load (storeWords m buffer words 256) (buffer + 2 * i) 4) = wordPair words i := by
  rw [load_four, buffer_word m words buffer (by omega),
    show buffer + 2 * i + 2 = buffer + 2 * (i + 1) by omega,
    buffer_word m words buffer (by omega), wordPair]

/-- After `k` words, the text holds them with their bytes swapped. -/
theorem text_upTo (model : Vector UInt8 41) (n : Nat) (le : n ≤ 20) :
    ∀ k < n,
      ((List.range n).foldl (fun (model : Vector UInt8 41) k =>
        (model.setIfInBounds (2 * k) (load8 m (buffer + (ataIdentModel + 2 * k + 1)))).setIfInBounds
          (2 * k + 1) (load8 m (buffer + (ataIdentModel + 2 * k)))) model)[2 * k]? =
        some (load8 m (buffer + (ataIdentModel + 2 * k + 1))) ∧
      ((List.range n).foldl (fun (model : Vector UInt8 41) k =>
        (model.setIfInBounds (2 * k) (load8 m (buffer + (ataIdentModel + 2 * k + 1)))).setIfInBounds
          (2 * k + 1) (load8 m (buffer + (ataIdentModel + 2 * k)))) model)[2 * k + 1]? =
        some (load8 m (buffer + (ataIdentModel + 2 * k))) := by
  induction n with
  | zero => exact fun k low => absurd low (Nat.not_lt_zero k)
  | succ n ih =>
    intro k low
    rw [List.range_succ, List.foldl_append]
    simp only [List.foldl_cons, List.foldl_nil, Vector.getElem?_setIfInBounds]
    by_cases here : k = n
    · subst here
      have first : 2 * k < 41 := by omega
      have second : 2 * k + 1 < 41 := by omega
      simp [first, second]
    · have before := ih (by omega) k (by omega)
      have apart : 2 * n ≠ 2 * k ∧ 2 * n + 1 ≠ 2 * k ∧ 2 * n ≠ 2 * k + 1 ∧
          2 * n + 1 ≠ 2 * k + 1 := by omega
      simpa only [if_neg apart.1, if_neg apart.2.1, if_neg apart.2.2.1, if_neg apart.2.2.2]
        using before

/-- The fields taken from a buffer are those of the words in it. -/
theorem describes_fields (dev : AtaDev) (idx : UInt8) (type : dev.type = ataTypeAta) :
    Describes (identifyFields (storeWords m buffer words 256) buffer dev (idx / 2) (idx % 2)) idx
      words := by
  have word : ∀ i < 256, load (storeWords m buffer words 256) (buffer + 2 * i) 2 =
      (words i).toNat := fun i within => buffer_word m words buffer within
  refine ⟨type, rfl, rfl, ?_, ?_, ?_, ?_, ?_, ?_⟩
  · have first := word 0 (by decide)
    rw [Nat.mul_zero, Nat.add_zero] at first
    simp [identifyFields, ataIdentDevicetype, first]
  · have found := word 49 (by decide)
    simp only [identifyFields]
    rw [show ataIdentCapabilities = 2 * 49 from rfl, found, UInt16.ofNat_toNat]
  · simp only [identifyFields]
    rw [show ataIdentCommandsets = 2 * 82 from rfl, buffer_pair m words buffer (by decide)]
  · simp only [identifyFields]
    rw [show ataIdentMaxLbaExt = 2 * 100 from rfl, show ataIdentMaxLba = 2 * 60 from rfl,
      buffer_pair m words buffer (by decide), buffer_pair m words buffer (by decide)]
    rfl
  · intro k low
    have text := text_upTo (storeWords m buffer words 256) buffer dev.model 20 le_rfl k low
    have high := high_byte (storeWords m buffer words 256) (buffer + 2 * (27 + k))
    have low_ := low_byte (storeWords m buffer words 256) (buffer + 2 * (27 + k))
    rw [word _ (by omega)] at high low_
    have apart : 40 ≠ 2 * k ∧ 40 ≠ 2 * k + 1 := by omega
    simp only [identifyFields, identifyModel, Vector.getElem?_setIfInBounds, if_neg apart.1,
      if_neg apart.2]
    rw [text.1, text.2, ← high, ← low_, ataIdentModel,
      show buffer + (54 + 2 * k + 1) = buffer + 2 * (27 + k) + 1 by omega,
      show buffer + (54 + 2 * k) = buffer + 2 * (27 + k) by omega]
    exact ⟨rfl, rfl⟩
  · simp [identifyFields, identifyModel]

end Fields

/-! ## The commands -/

variable {bus : Bus σ} {ch : UInt16} {w w' : World σ} {n : Nat}

@[simp] theorem commands_afterReads (port : UInt16) (n : Nat) (w : World σ) :
    commands ch (afterReads bus port n w).trace = commands ch w.trace := by
  induction n with
  | zero => rfl
  | succ n ih =>
    rw [afterReads_succ]
    exact ih

@[simp] theorem commands_afterWords (port : UInt16) (n : Nat) (w : World σ) :
    commands ch (afterWords bus port n w).trace = commands ch w.trace := by
  induction n with
  | zero => rfl
  | succ n ih =>
    rw [afterWords_succ]
    exact ih

theorem commands_polled (channel drive : UInt8) (w : World σ) (n : Nat) :
    commands (ataBusPort channel) (identifyPolled bus channel drive w n).trace =
      ataCmdIdentify :: commands (ataBusPort channel) w.trace := by
  simp only [identifyPolled, identifyAsked, identifyDelayed, afterStatus, commands_afterReads]
  simp [identifyIssued, World.put, commands, ataRegDevsel, ataRegSeccount0, ataRegLba0, ataRegLba1,
    ataRegLba2, ataRegCommand]

/-! ## Good drives -/

variable {error idx : UInt8} {dev : AtaDev} {buffer : Nat}

/-- The polling of a good drive ends. -/
theorem GoodDrive.ends (good : GoodDrive bus idx w) :
    ∃ n, IdentifyEnds bus (idx / 2) (idx % 2) w n := by
  classical
  have first := Nat.find_spec good.ready
  refine ⟨Nat.find good.ready, good.answers, fun i low => ⟨good.clean i, ?_⟩, .inr first⟩
  exact Nat.find_min good.ready low

/-- On a good drive the polling leaves `error` alone. -/
theorem GoodDrive.polledError (good : GoodDrive bus idx w) (n : Nat) :
    polledError error (endStatus bus (idx / 2) (idx % 2) w n) = error :=
  if_neg (good.clean n)

theorem fuelSteady_identifyCommand (bus : Bus σ) (error : UInt8) (dev : AtaDev) (idx : UInt8)
    (buffer : Nat) : FuelSteady fun fuel => identifyCommand bus fuel error dev idx buffer := by
  refine (fuelSteady_const _).bind fun status => ?_
  split
  · exact fuelSteady_const _
  · refine (fuelSteady_loop _ _).bind fun error => ?_
    exact fuelSteady_const _

/-- With `error` zero a good drive is taken through the plain data phase. -/
theorem GoodDrive.recognised (good : GoodDrive bus idx w) (dev : AtaDev) (buffer : Nat) :
    Recognises bus 0 dev idx buffer w := by
  obtain ⟨n, ends⟩ := good.ends
  obtain ⟨r, w', run⟩ := halts_of_ends ends (Nat.lt_succ_self n) 0 dev buffer
  have done := (fuelSteady_identifyCommand bus 0 dev idx buffer).finishes run
  cases identified_of_returns run with
  | absent none => exact absurd none ends.answers
  | refused ends' failed _ => exact absurd (good.polledError _) failed
  | packet ends' failed _ => exact absurd (good.polledError _) failed
  | plain ends' _ =>
    obtain rfl := ends.unique ends'
    refine ⟨n, _, _, ends, done, ?_, ?_⟩
    · rw [identifyTaken_trace, commands_afterWords, commands_polled]
    · exact describes_fields _ _ _ _ _ rfl

/-- Otherwise it is taken for a drive that failed: the call reports an error, or asks for packet
identification. -/
theorem GoodDrive.missed (good : GoodDrive bus idx w) (garbage : error ≠ 0) :
    ¬ Recognises bus error dev idx buffer w := by
  rintro ⟨n, dev', w', ends, ⟨enough, run⟩, -, describes⟩
  generalize result : ((0 : UInt8), dev') = r at run
  cases identified_of_returns (run enough le_rfl) with
  | absent none => exact ends.answers none
  | refused _ _ _ =>
    have zero : (0 : UInt8) = 255 := congrArg Prod.fst result
    exact absurd zero (by decide)
  | packet _ _ _ =>
    have same : dev' = _ := congrArg Prod.snd result
    have type := describes.type
    rw [same] at type
    exact absurd type (show ataTypeAtapi ≠ ataTypeAta by decide)
  | plain _ ok =>
    rw [good.polledError] at ok
    exact garbage ok

/-- A good drive is recognised if and only if the uninitialised `error` happens to be zero. -/
theorem recognises_iff {σ : Type} (bus : Bus σ) (error : UInt8) (dev : AtaDev) (idx : UInt8)
    (buffer : Nat) (w : World σ) (good : GoodDrive bus idx w) :
    Recognises bus error dev idx buffer w ↔ error = 0 := by
  constructor
  · intro recognised
    by_contra garbage
    exact good.missed garbage recognised
  · rintro rfl
    exact good.recognised dev buffer

/-- A drive that answers after two busy statuses. -/
theorem goodDrive_script :
    GoodDrive scriptBus 3 (scripted [0, 0, 0, 0, 0x50, 0x80, 0x80, 0x58]) := by
  have status : ∀ i, endStatus scriptBus (3 / 2) (3 % 2)
      (scripted [0, 0, 0, 0, 0x50, 0x80, 0x80, 0x58]) i = [0x80, 0x80, 0x58].getD i 0 := by
    intro i
    rw [endStatus, statusOf, answer_script]
    rfl
  refine ⟨by decide, fun i => ?_, 2, by rw [status]; decide⟩
  rw [status]
  rcases i with _ | _ | _ | i
  · decide
  · decide
  · decide
  · rw [List.getD_eq_getElem?_getD, List.getElem?_eq_none (by simp)]
    decide

theorem recognises_iff_script :
    Recognises scriptBus 0 (.located 0 0 0) 3 0 (scripted [0, 0, 0, 0, 0x50, 0x80, 0x80, 0x58]) ↔
      (0 : UInt8) = 0 :=
  recognises_iff scriptBus 0 (.located 0 0 0) 3 0 _ goodDrive_script

/-- The same drive is not recognised when `error` holds one. -/
theorem good_drive_missed :
    GoodDrive scriptBus 3 (scripted [0, 0, 0, 0, 0x50, 0x80, 0x80, 0x58]) ∧
      ¬ Recognises scriptBus 1 (.located 0 0 0) 3 0
        (scripted [0, 0, 0, 0, 0x50, 0x80, 0x80, 0x58]) :=
  ⟨goodDrive_script, goodDrive_script.missed (by decide)⟩

end AtaKernel.Ata
