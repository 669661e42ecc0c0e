import AtaKernel.Ata.Polling

/-! Every way `identify_command` can come back, over an arbitrary device. The
outcome depends on four things the device says: the status after the command,
the status that ends the polling, the signature in the address registers, and
256 words. One more thing decides: what the uninitialised `error` held. -/
namespace AtaKernel.Ata
open ByteMemory PortIo

variable {σ : Type}

section Answers
variable (bus : Bus σ) (channel drive : UInt8) (w : World σ)

/-- The IDENTIFY command is written. -/
def identifyIssued : World σ :=
  (((((w.put bus (ataRegDevsel (ataBusPort channel)) (ataIdentifyCmdMaster ||| (drive <<< 4))).put
    bus (ataRegSeccount0 (ataBusPort channel)) 0).put
    bus (ataRegLba0 (ataBusPort channel)) 0).put
    bus (ataRegLba1 (ataBusPort channel)) 0).put
    bus (ataRegLba2 (ataBusPort channel)) 0).put
    bus (ataRegCommand (ataBusPort channel)) ataCmdIdentify

/-- And 400 ns have passed. -/
def identifyDelayed : World σ :=
  afterStatus bus (ataBusControl channel) 4 (identifyIssued bus channel drive w)

/-- The first status the drive shows; zero means there is no drive. -/
def firstStatus : UInt8 := statusOf bus (ataBusPort channel) (identifyDelayed bus channel drive w) 0

/-- The first status was read. -/
def identifyAsked : World σ :=
  afterStatus bus (ataBusPort channel) 1 (identifyDelayed bus channel drive w)

/-- The polling is over with the `n`-th status. -/
def identifyPolled (n : Nat) : World σ :=
  afterStatus bus (ataBusPort channel) (n + 1) (identifyAsked bus channel drive w)

/-- The status that ended the polling. -/
def endStatus (n : Nat) : UInt8 :=
  statusOf bus (ataBusPort channel) (identifyAsked bus channel drive w) n

/-- The address registers hold the signature of an ATAPI drive after the polling. -/
def signed (n : Nat) : Bool :=
  atapiSignature (answer bus (ataRegLba1 (ataBusPort channel)) (identifyPolled bus channel drive w n) 0)
    (answer bus (ataRegLba2 (ataBusPort channel))
      ((identifyPolled bus channel drive w n).readOnce bus (ataRegLba1 (ataBusPort channel))) 0)

/-- Both address registers were read. -/
def signatureRead (n : Nat) : World σ :=
  ((identifyPolled bus channel drive w n).readOnce bus (ataRegLba1 (ataBusPort channel))).readOnce
    bus (ataRegLba2 (ataBusPort channel))

/-- The IDENTIFY PACKET command is written, and 400 ns have passed. -/
def packetDelayed (n : Nat) : World σ :=
  afterStatus bus (ataBusControl channel) 4
    ((signatureRead bus channel drive w n).put bus (ataRegCommand (ataBusPort channel))
      ataCmdIdentifyPacket)

/-- The first status after the start that ends the polling is the `n`-th. -/
structure IdentifyEnds (n : Nat) : Prop where
  answers : firstStatus bus channel drive w ≠ 0
  waiting : ∀ i < n, ¬ Faulty (endStatus bus channel drive w i) ∧
    ¬ (¬ Busy (endStatus bus channel drive w i) ∧ Requesting (endStatus bus channel drive w i))
  ended : Faulty (endStatus bus channel drive w n) ∨
    (¬ Busy (endStatus bus channel drive w n) ∧ Requesting (endStatus bus channel drive w n))

end Answers

variable {bus : Bus σ} {channel drive : UInt8} {w w' : World σ} {fuel : Nat}

theorem IdentifyEnds.unique {n n' : Nat} (first : IdentifyEnds bus channel drive w n)
    (second : IdentifyEnds bus channel drive w n') : n = n' := by
  rcases Nat.lt_trichotomy n n' with lt | eq | gt
  · have waiting := second.waiting n lt
    rcases first.ended with faulty | ready
    · exact absurd faulty waiting.1
    · exact absurd ready waiting.2
  · exact eq
  · have waiting := first.waiting n' gt
    rcases second.ended with faulty | ready
    · exact absurd faulty waiting.1
    · exact absurd ready waiting.2

/-- What `error` holds after the polling. -/
def polledError (error status : UInt8) : UInt8 := if Faulty status then 1 else error

theorem identifyTest_none {error s : UInt8} :
    identifyTest error s = none ↔ ¬ Faulty s ∧ ¬ (¬ Busy s ∧ Requesting s) := by
  unfold identifyTest
  split
  · simp_all
  · split <;> simp_all

theorem identifyTest_some {error s r : UInt8} : identifyTest error s = some r ↔
    (Faulty s ∨ (¬ Busy s ∧ Requesting s)) ∧ r = polledError error s := by
  unfold identifyTest polledError
  by_cases faulty : Faulty s
  · simp [faulty, eq_comm]
  · by_cases ready : ¬ Busy s ∧ Requesting s <;> simp [faulty, ready, eq_comm]

theorem returns_identifyStart (bus : Bus σ) (channel drive : UInt8) (w : World σ) :
    Returns (identifyStart bus channel drive) w (firstStatus bus channel drive w)
      (identifyAsked bus channel drive w) := by
  refine (returns_put ..).bind ((returns_put ..).bind ((returns_put ..).bind
    ((returns_put ..).bind ((returns_put ..).bind ((returns_put ..).bind ?_)))))
  apply (returns_delay ..).bind
  exact returns_inb.mpr ⟨rfl, rfl⟩

theorem returns_identifyPoll {error r : UInt8} (answers : firstStatus bus channel drive w ≠ 0) :
    Returns (loop fuel (readThenTest bus (ataRegStatus (ataBusPort channel)) (identifyTest error))
        ()) (identifyAsked bus channel drive w) r w' ↔
      ∃ n < fuel, IdentifyEnds bus channel drive w n ∧
        r = polledError error (endStatus bus channel drive w n) ∧
        w' = identifyPolled bus channel drive w n := by
  have scan := @returns_readThenTest _ _ (identifyAsked bus channel drive w) w' r bus
    (ataRegStatus (ataBusPort channel)) fuel (identifyTest error) 0
  refine scan.trans ⟨?_, ?_⟩
  · rintro ⟨n, -, below, silent, found, rfl⟩
    obtain ⟨ended, rfl⟩ := identifyTest_some.mp found
    exact ⟨n, by omega, ⟨answers, fun i low =>
      identifyTest_none.mp (silent i (Nat.zero_le i) low), ended⟩, rfl, rfl⟩
  · rintro ⟨n, below, ends, rfl, rfl⟩
    exact ⟨n, Nat.zero_le n, by omega, fun i _ low => identifyTest_none.mpr (ends.waiting i low),
      identifyTest_some.mpr ⟨ends.ended, rfl⟩, rfl⟩

/-- The buffer after the data phase that starts in `w`. -/
def identifyBuffer (bus : Bus σ) (channel : UInt8) (w : World σ) (buffer : Nat) : Memory :=
  storeWords w.memory buffer (wordAt bus (ataRegData (ataBusPort channel)) w) 256

/-- The world after it. -/
def identifyTaken (bus : Bus σ) (channel : UInt8) (w : World σ) (buffer : Nat) : World σ :=
  { afterWords bus (ataRegData (ataBusPort channel)) 256 w with
    memory := identifyBuffer bus channel w buffer }

@[simp] theorem identifyTaken_trace (bus : Bus σ) (channel : UInt8) (w : World σ) (buffer : Nat) :
    (identifyTaken bus channel w buffer).trace =
      (afterWords bus (ataRegData (ataBusPort channel)) 256 w).trace :=
  rfl

theorem returns_identifyData (bus : Bus σ) (dev : AtaDev) (channel drive : UInt8) (buffer : Nat)
    (w : World σ) :
    Returns (identifyData bus dev channel drive buffer) w
      (0, identifyFields (identifyBuffer bus channel w buffer) buffer dev channel drive)
      (identifyTaken bus channel w buffer) :=
  (returns_times_words bus _ buffer 256 w).bind rfl

/-- The outcomes of `identify_command`. -/
inductive Identified (bus : Bus σ) (error : UInt8) (dev : AtaDev) (channel drive : UInt8)
    (buffer : Nat) (w : World σ) : UInt8 × AtaDev → World σ → Prop where
  | absent : firstStatus bus channel drive w = 0 →
    Identified bus error dev channel drive buffer w (0, { dev with present := ataDeviceEmpty })
      (identifyAsked bus channel drive w)
  | refused {n} : IdentifyEnds bus channel drive w n →
    polledError error (endStatus bus channel drive w n) ≠ 0 →
    signed bus channel drive w n = false →
    Identified bus error dev channel drive buffer w
      (255, { dev with present := ataDevicePresent, type := ataTypeAta })
      (signatureRead bus channel drive w n)
  | packet {n} : IdentifyEnds bus channel drive w n →
    polledError error (endStatus bus channel drive w n) ≠ 0 →
    signed bus channel drive w n = true →
    Identified bus error dev channel drive buffer w
      (0, identifyFields (identifyBuffer bus channel (packetDelayed bus channel drive w n) buffer)
        buffer { dev with present := ataDevicePresent, type := ataTypeAtapi } channel drive)
      (identifyTaken bus channel (packetDelayed bus channel drive w n) buffer)
  | plain {n} : IdentifyEnds bus channel drive w n →
    polledError error (endStatus bus channel drive w n) = 0 →
    Identified bus error dev channel drive buffer w
      (0, identifyFields (identifyBuffer bus channel (identifyPolled bus channel drive w n) buffer)
        buffer { dev with present := ataDevicePresent, type := ataTypeAta } channel drive)
      (identifyTaken bus channel (identifyPolled bus channel drive w n) buffer)

variable {error idx : UInt8} {dev : AtaDev} {buffer : Nat} {r : UInt8 × AtaDev}

/-- Past the polling, what `error` holds and the signature decide. -/
private theorem returns_identifyRest {n : Nat}
    (run : Returns (do
      let dev := { dev with present := ataDevicePresent, type := ataTypeAta }
      if polledError error (endStatus bus channel drive w n) ≠ 0 then do
        let lba1 ← inb bus (ataRegLba1 (ataBusPort channel))
        let lba2 ← inb bus (ataRegLba2 (ataBusPort channel))
        if atapiSignature lba1 lba2 then do
          let dev := { dev with type := ataTypeAtapi }
          outb bus (ataRegCommand (ataBusPort channel)) ataCmdIdentifyPacket
          delay bus (ataBusControl channel) 400
          identifyData bus dev channel drive buffer
        else pure (255, dev)
      else identifyData bus dev channel drive buffer)
      (identifyPolled bus channel drive w n) r w')
    (ends : IdentifyEnds bus channel drive w n) :
    Identified bus error dev channel drive buffer w r w' := by
  by_cases failed : polledError error (endStatus bus channel drive w n) ≠ 0
  · rw [if_pos failed] at run
    have run := (returns_inb_now bus (ataRegLba1 (ataBusPort channel)) _).bind_iff.mp run
    have run := (returns_inb_now bus (ataRegLba2 (ataBusPort channel)) _).bind_iff.mp run
    cases signed_ : signed bus channel drive w n with
    | false =>
      rw [if_neg (by rw [← signed, signed_]; decide)] at run
      obtain ⟨rfl, rfl⟩ := returns_pure.mp run
      exact .refused ends failed signed_
    | true =>
      rw [if_pos (by rw [← signed, signed_])] at run
      have run := (returns_put ..).bind_iff.mp run
      have run := (returns_delay ..).bind_iff.mp run
      obtain ⟨rfl, rfl⟩ := (returns_identifyData ..).deterministic run
      exact .packet ends failed signed_
  · rw [if_neg failed] at run
    obtain ⟨rfl, rfl⟩ := (returns_identifyData ..).deterministic run
    exact .plain ends (not_not.mp failed)

/-- When `identify_command` returns it is with one of its outcomes. -/
theorem identified_of_returns
    (run : Returns (identifyCommand bus fuel error dev idx buffer) w r w') :
    Identified bus error dev (idx / 2) (idx % 2) buffer w r w' := by
  have run := (returns_identifyStart bus (idx / 2) (idx % 2) w).bind_iff.mp run
  by_cases absent : firstStatus bus (idx / 2) (idx % 2) w = 0
  · rw [if_pos absent] at run
    obtain ⟨rfl, rfl⟩ := returns_pure.mp run
    exact .absent absent
  · rw [if_neg absent] at run
    obtain ⟨polled, v, scan, rest⟩ := returns_bind.mp run
    obtain ⟨n, -, ends, rfl, rfl⟩ := (returns_identifyPoll absent).mp scan
    exact returns_identifyRest rest ends

/-- Once the polling ends, nothing keeps `identify_command` from coming back. -/
theorem halts_of_ends {n : Nat} (ends : IdentifyEnds bus (idx / 2) (idx % 2) w n)
    (enough : n < fuel) (error : UInt8) (dev : AtaDev) (buffer : Nat) :
    Halts (identifyCommand bus fuel error dev idx buffer) w := by
  apply (returns_identifyStart bus (idx / 2) (idx % 2) w).halts_bind
  rw [if_neg ends.answers]
  refine ((returns_identifyPoll ends.answers).mpr ⟨n, enough, ends, rfl, rfl⟩).halts_bind ?_
  by_cases failed : polledError error (endStatus bus (idx / 2) (idx % 2) w n) ≠ 0
  · rw [if_pos failed]
    refine (returns_inb_now ..).halts_bind ((returns_inb_now ..).halts_bind ?_)
    split
    · refine (returns_put ..).halts_bind ((returns_delay ..).halts_bind ?_)
      exact (returns_identifyData ..).halts
    · exact Returns.halts (returns_pure.mpr ⟨rfl, rfl⟩)
  · rw [if_neg failed]
    exact (returns_identifyData ..).halts

/-- Where nothing answers the record is marked empty. -/
theorem returns_absent (none : firstStatus bus (idx / 2) (idx % 2) w = 0) (error : UInt8)
    (dev : AtaDev) (buffer : Nat) :
    Returns (identifyCommand bus fuel error dev idx buffer) w
      (0, { dev with present := ataDeviceEmpty }) (identifyAsked bus (idx / 2) (idx % 2) w) := by
  apply (returns_identifyStart bus (idx / 2) (idx % 2) w).bind
  rw [if_pos none]
  exact returns_pure.mpr ⟨rfl, rfl⟩

/-! ## Scripted answers -/

section Script
variable (channel drive : UInt8) (w : World (List UInt8)) (n : Nat)

theorem device_asked : (identifyAsked scriptBus channel drive w).device = w.device.drop 5 := by
  rw [identifyAsked, afterStatus, device_script, identifyDelayed, afterStatus, device_script,
    List.drop_drop]
  rfl

theorem firstStatus_script : firstStatus scriptBus channel drive w = w.device.getD 4 0 := by
  rw [firstStatus, statusOf, answer_script, identifyDelayed, afterStatus, device_script]
  simp [identifyIssued, World.put, scriptBus]

theorem device_polled : (identifyPolled scriptBus channel drive w n).device = w.device.drop (6 + n) := by
  rw [identifyPolled, afterStatus, device_script, device_asked, List.drop_drop]
  congr 1
  omega

theorem device_signatureRead :
    (signatureRead scriptBus channel drive w n).device = w.device.drop (8 + n) := by
  have polled := device_polled channel drive w n
  simp only [signatureRead, World.readOnce, scriptBus] at polled ⊢
  rw [polled, List.tail_drop, List.tail_drop]
  congr 1
  omega

theorem device_packetDelayed :
    (packetDelayed scriptBus channel drive w n).device = w.device.drop (12 + n) := by
  have read := device_signatureRead channel drive w n
  rw [packetDelayed, afterStatus, device_script]
  simp only [World.put, scriptBus] at read ⊢
  rw [read, List.drop_drop]
  congr 1
  omega

/-- Words are no part of the script. -/
theorem device_words (port : UInt16) : (afterWords scriptBus port n w).device = w.device := by
  unfold afterWords
  induction n with
  | zero => rfl
  | succ n ih =>
    rw [Function.iterate_succ_apply']
    exact ih

theorem device_taken (buffer : Nat) : (identifyTaken scriptBus channel w buffer).device = w.device := by
  simp only [identifyTaken, device_words]

end Script

end AtaKernel.Ata
