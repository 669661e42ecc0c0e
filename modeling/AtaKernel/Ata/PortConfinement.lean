import AtaKernel.Ata.WordsMoved

/-! The ports that the driver touches. A transfer stays with the eight registers of the
command block of its channel. An identification does not: it waits by reading the status
register of a base, and the base that it hands over is that of the control block, so the
reads go seven ports further, on the primary channel to the line status of a serial
port. -/
namespace AtaKernel.Ata
open PortIo

/-- One of the eight registers of the channel's command block, or its control register. -/
def Own (channel : UInt8) (port : UInt16) : Prop :=
  (∃ r < 8, port = ataBusPort channel + UInt16.ofNat r) ∨ port = ataBusControl channel

/-- A register of a serial port. -/
def SerialRegister (port : UInt16) : Prop :=
  (0x3f8 ≤ port ∧ port ≤ 0x3ff) ∨ (0x2f8 ≤ port ∧ port ≤ 0x2ff)

instance (channel : UInt8) (port : UInt16) : Decidable (Own channel port) :=
  inferInstanceAs (Decidable (_ ∨ _))

instance (port : UInt16) : Decidable (SerialRegister port) := inferInstanceAs (Decidable (_ ∨ _))

/-- An access that is made for the channel. -/
def Allowed (channel : UInt8) (access : Access) : Prop :=
  Own channel access.port ∧ ¬ SerialRegister access.port

variable {σ α : Type} {bus : Bus σ} {fuel : Nat} {w w' v : World σ} {channel : UInt8} {call : Call}

/-- All accesses that the program makes from `w` on are made for the channel. -/
def Inside (channel : UInt8) (x : Io σ α) (w : World σ) : Prop :=
  ∃ made, (x w).2.trace = made ++ w.trace ∧ ∀ access ∈ made, Allowed channel access

/-! ## Sequences of calls -/

inductive DriverCall
  | init (garbage : Nat → UInt8) (buffer : Nat) (devs : Nat → AtaDev)
  | transfer (call : Call)

namespace DriverCall

def run (bus : Bus σ) (fuel : Nat) : DriverCall → Io σ Unit
  | init garbage buffer devs => do
    let _ ← ataInit bus fuel garbage buffer devs
  | transfer call => do
    let _ ← call.run bus fuel

/-- The device of a transfer is on one of the channels. -/
def Placed : DriverCall → Prop
  | init _ _ _ => True
  | transfer call => call.dev.channel < 4

/-- A transfer makes accesses for the channel of its device, and `ata_init` at each position for the
channel of the position. -/
def Confined (bus : Bus σ) (fuel : Nat) (w : World σ) : DriverCall → Prop
  | init garbage buffer devs => ∀ i < 4, ∀ slots v,
    Returns (timesCarry i (ataInitSlot bus fuel garbage buffer) (devs, 0)) w slots v →
      Inside (UInt8.ofNat i / 2) (ataInitSlot bus fuel garbage buffer i slots) v
  | transfer call => Inside call.dev.channel (call.run bus fuel) w

end DriverCall

/-- The calls are made one after the other, as long as they return, and every one is confined. -/
def AllConfined (bus : Bus σ) (fuel : Nat) : List DriverCall → World σ → Prop
  | [], _ => True
  | call :: calls, w => call.Confined bus fuel w ∧
    ∀ w', Returns (call.run bus fuel) w () w' → AllConfined bus fuel calls w'

/-! ## Transfers -/

/-- The registers of a command block are no registers of a serial port. -/
theorem allowed_register (within : channel < 4) {r : Nat} (low : r < 8) {access : Access}
    (port : access.port = ataBusPort channel + UInt16.ofNat r) : Allowed channel access := by
  refine ⟨.inl ⟨r, low, port⟩, ?_⟩
  have all : ∀ c < 4, ∀ r < 8,
      ¬ SerialRegister (ataBusPort (UInt8.ofNat c) + UInt16.ofNat r) := by decide
  have here := all channel.toNat within r low
  rwa [UInt8.ofNat_toNat, ← port] at here

/-- What a record holds beyond the one of `w` was allowed. -/
def OnlyAllowed (channel : UInt8) (w : World σ) (t : List Access) : Prop :=
  ∃ made, t = made ++ w.trace ∧ ∀ access ∈ made, Allowed channel access

theorem OnlyAllowed.more {t : List Access} (only : OnlyAllowed channel w t) {access : Access}
    (allowed : Allowed channel access) : OnlyAllowed channel w (access :: t) := by
  obtain ⟨made, rfl, all⟩ := only
  exact ⟨access :: made, rfl, List.forall_mem_cons.mpr ⟨allowed, all⟩⟩

theorem inside_of_keeps {x : Io σ α} (keeps : Keeps (OnlyAllowed channel w) x) : Inside channel x w :=
  keeps w ⟨[], rfl, fun _ none_ => (List.not_mem_nil none_).elim⟩

theorem keeps_issue (within : channel < 4) {command : UInt8} {dev : AtaDev} {start count : Int32} :
    Keeps (OnlyAllowed channel w) (issue bus command dev start count (ataBusPort channel)) := by
  have put : ∀ r < 8, ∀ value, Keeps (OnlyAllowed channel w)
      (outb bus (ataBusPort channel + UInt16.ofNat r) value) := fun r low value =>
    keeps_outb fun _ only => only.more (allowed_register within low rfl)
  exact (put 6 (by decide) _).bind fun _ => (put 1 (by decide) _).bind fun _ =>
    (put 2 (by decide) _).bind fun _ => (put 3 (by decide) _).bind fun _ =>
      (put 4 (by decide) _).bind fun _ => (put 5 (by decide) _).bind fun _ => put 7 (by decide) _

theorem keeps_word (within : call.dev.channel < 4) (i j : Nat) :
    Keeps (OnlyAllowed call.dev.channel w) (call.word bus (ataBusPort call.dev.channel) i j) := by
  unfold Call.word
  split
  · exact (keeps_peek _ _).bind fun _ => keeps_outw fun _ only =>
      only.more (allowed_register within (show 0 < 8 by decide) rfl)
  · exact (keeps_inw fun _ _ only =>
      only.more (allowed_register within (show 0 < 8 by decide) rfl)).bind fun _ => keeps_poke _ _ _

/-- A transfer makes accesses for the channel of its device only. -/
theorem transfer_confined (within : call.dev.channel < 4) : Inside call.dev.channel (call.run bus fuel) w := by
  have status : ∀ value t, OnlyAllowed call.dev.channel w t →
      OnlyAllowed call.dev.channel w (.inb (ataRegStatus (ataBusPort call.dev.channel)) value :: t) :=
    fun _ _ only => only.more (allowed_register within (show 7 < 8 by decide) rfl)
  refine inside_of_keeps ?_
  rw [Call.run_eq]
  refine Keeps.bind ?_ fun _ => keeps_pure _
  refine (Keeps.loop (fun _ => keeps_readThenTest status) fuel ()).bind fun _ => ?_
  refine (keeps_issue within).bind fun _ => Keeps.timesReturn (fun i => ?_) _
  refine (keeps_poll bus fuel status).bind fun failed => ?_
  split
  · exact keeps_pure _
  · refine (Keeps.times (fun j => ?_) _).bind fun _ => keeps_pure _
    exact keeps_word within i j

/-! ## Identification -/

/-- Whatever follows the start of an identification adds to the record. -/
theorem trace_identifyCommand (error : UInt8) (dev : AtaDev) (idx : UInt8) (buffer : Nat) :
    (identifyAsked bus (idx / 2) (idx % 2) w).trace <:+
      (identifyCommand bus fuel error dev idx buffer w).2.trace := by
  obtain ⟨v, v_eq⟩ : ∃ v, v = identifyAsked bus (idx / 2) (idx % 2) w := ⟨_, rfl⟩
  have grow : ∀ access t, v.trace <:+ t → v.trace <:+ access :: t := fun access t suffix =>
    suffix.trans (List.suffix_cons access t)
  have data : ∀ dev, Keeps (fun t => v.trace <:+ t)
      (identifyData bus dev (idx / 2) (idx % 2) buffer) := fun dev =>
    (Keeps.times (fun _ => (keeps_inw fun _ t => grow _ t).bind fun _ => keeps_poke _ _ _) 256).bind
      fun _ _ holds => holds
  rw [identifyCommand, (returns_identifyStart bus (idx / 2) (idx % 2) w).bind_eq, ← v_eq]
  suffices keeps : ∀ x : Io σ (UInt8 × AtaDev), Keeps (fun t => v.trace <:+ t) x →
      v.trace <:+ (x v).2.trace by
    split
    · exact keeps _ (keeps_pure _)
    · refine keeps _ ?_
      refine (Keeps.loop (fun _ => keeps_readThenTest fun _ t => grow _ t) fuel ()).bind fun error => ?_
      split
      · refine (keeps_inb fun _ t => grow _ t).bind fun lba1 => ?_
        refine (keeps_inb fun _ t => grow _ t).bind fun lba2 => ?_
        split
        · refine (keeps_outb fun t => grow _ t).bind fun _ => ?_
          refine Keeps.bind (Keeps.times (fun _ => ?_) _) fun _ => data _
          exact (keeps_inb fun _ t => grow _ t).bind fun _ => keeps_pure ()
        · exact keeps_pure _
      · exact data _
  exact fun x keeps => keeps v (List.suffix_refl _)

/-- The start of an identification reads the register seven ports behind the control block. -/
theorem identifyAsked_reads (channel drive : UInt8) (w : World σ) :
    ∃ made, (identifyAsked bus channel drive w).trace = made ++ w.trace ∧
      ∃ value, .inb (ataRegStatus (ataBusControl channel)) value ∈ made :=
  ⟨[_, _, _, _, _, _, _, _, _, _, _], rfl, _, List.mem_cons_of_mem _ List.mem_cons_self⟩

/-- That register belongs to no channel, and on the primary one it is a register of a serial port. -/
theorem status_of_control_not_own : ∀ i < 4,
    ¬ Own (UInt8.ofNat i / 2) (ataRegStatus (ataBusControl (UInt8.ofNat i / 2))) := by
  decide

/-- An identification is never confined. -/
theorem slot_not_inside {i : Nat} (low : i < 4) (garbage : Nat → UInt8) (buffer : Nat)
    (slots : (Nat → AtaDev) × UInt8) :
    ¬ Inside (UInt8.ofNat i / 2) (ataInitSlot bus fuel garbage buffer i slots) w := by
  rintro ⟨made, trace, all⟩
  obtain ⟨devs, error⟩ := slots
  have same : (ataInitSlot bus fuel garbage buffer i (devs, error) w).2.trace =
      (identifyCommand bus fuel (garbage i) (devs i) (UInt8.ofNat i) buffer w).2.trace := by
    simp only [ataInitSlot, Bind.bind]
    rcases identifyCommand bus fuel (garbage i) (devs i) (UInt8.ofNat i) buffer w with ⟨_ | _, _⟩ <;> rfl
  obtain ⟨early, asked, value, reads⟩ :=
    @identifyAsked_reads _ bus (UInt8.ofNat i / 2) (UInt8.ofNat i % 2) w
  obtain ⟨later, whole⟩ := @trace_identifyCommand _ bus fuel w (garbage i) (devs i) (UInt8.ofNat i) buffer
  rw [← same, trace, asked, ← List.append_assoc] at whole
  have made_eq := List.append_cancel_right whole
  have allowed := all _ (made_eq ▸ List.mem_append_right later reads)
  exact status_of_control_not_own i low allowed.1

/-! ## Sequences -/

/-- A device that reports an error whenever it is asked. -/
def errorBus : Bus Unit where
  inb _ _ := (ataSrErr, ())
  inw _ _ := (0, ())
  outb _ _ _ := ()
  outw _ _ _ := ()

theorem transfer_returns (call : Call) (w : World Unit) :
    ∃ w', Returns ((DriverCall.transfer call).run errorBus 1) w () w' := by
  have reads : ∀ (v : World Unit) (i : Nat),
      statusOf errorBus (ataBusPort call.dev.channel) v i = ataSrErr := fun _ _ => rfl
  have started : ∃ v, Returns (call.upTo errorBus 1 0) w none v := by
    have waited : Returns (loop 1 (readThenTest errorBus (ataRegStatus (ataBusPort call.dev.channel))
        busyTest) ()) w ataSrErr _ := rfl
    exact ⟨_, waited.bind (Returns.bind ((returns_put ..).bind ((returns_put ..).bind
      ((returns_put ..).bind ((returns_put ..).bind ((returns_put ..).bind ((returns_put ..).bind
        (returns_put ..))))))) (returns_pure.mpr ⟨rfl, rfl⟩))⟩
  obtain ⟨v, start⟩ := started
  have ends : PollEnds errorBus (ataBusPort call.dev.channel) v 4 4 := by
    refine ⟨le_rfl, le_rfl, fun i low high => absurd high (by omega), ?_,
      fun i low high => absurd high (by omega), .inl (.inl ?_)⟩
    · rw [reads]
      decide
    · rw [reads]
      decide
  have failed : (-1 : Int) = pollResult (statusOf errorBus (ataBusPort call.dev.channel) v 4) := by
    rw [reads]
    rfl
  have polled : Returns (poll errorBus 1 (ataBusPort call.dev.channel)) v (-1) _ :=
    returns_poll.mpr ⟨4, 4, ends, by decide, by decide, failed, rfl⟩
  have reached : ∃ r w', Returns (call.upTo errorBus 1 call.sectors) w r w' := by
    rcases Nat.eq_zero_or_pos call.sectors with none_ | some_
    · rw [none_]
      exact ⟨none, v, start⟩
    · have fails : FailsAt errorBus 1 call w 0 := ⟨v, _, start, polled⟩
      obtain ⟨w', run⟩ := fails.returns some_
      exact ⟨_, w', run⟩
  obtain ⟨r, w', run⟩ := reached
  have whole : Returns (call.run errorBus 1) w (r.getD 0) w' := by
    rw [Call.run_eq]
    exact run.bind (returns_pure.mpr ⟨rfl, rfl⟩)
  exact ⟨w', whole.bind (returns_pure.mpr ⟨rfl, rfl⟩)⟩

/-- Transfers are confined, one after the other. -/
theorem allConfined_transfers {calls : List DriverCall} (placed : ∀ call ∈ calls, call.Placed)
    (transfers : ∀ call ∈ calls, ∃ transfer, call = .transfer transfer) :
    AllConfined bus fuel calls w := by
  induction calls generalizing w with
  | nil => trivial
  | cons call calls ih =>
    obtain ⟨transfer, rfl⟩ := transfers _ List.mem_cons_self
    refine ⟨transfer_confined (placed _ List.mem_cons_self), fun w' _ => ih ?_ ?_⟩
    · exact fun call inside => placed call (List.mem_cons_of_mem _ inside)
    · exact fun call inside => transfers call (List.mem_cons_of_mem _ inside)

/-- A device that lets every transfer return shows what `ata_init` does. -/
theorem transfers_of_allConfined {calls : List DriverCall} {w : World Unit}
    (confined : AllConfined errorBus 1 calls w) : ∀ call ∈ calls, ∃ transfer, call = .transfer transfer := by
  induction calls generalizing w with
  | nil => exact fun _ none_ => (List.not_mem_nil none_).elim
  | cons call calls ih =>
    obtain ⟨here, rest⟩ := confined
    cases call with
    | init garbage buffer devs =>
      exact absurd (here 0 (by decide) _ w (returns_pure.mpr ⟨rfl, rfl⟩))
        (slot_not_inside (by decide) garbage buffer _)
    | transfer call =>
      obtain ⟨w', run⟩ := transfer_returns call w
      exact List.forall_mem_cons.mpr ⟨⟨call, rfl⟩, ih (rest w' run)⟩

/-- Whatever the ports answer, the calls are confined, if and only if none of them is `ata_init`. -/
theorem allConfined_iff {calls : List DriverCall} (placed : ∀ call ∈ calls, call.Placed) :
    (∀ (σ : Type) (bus : Bus σ) (fuel : Nat) (w : World σ), AllConfined bus fuel calls w) ↔
      ∀ call ∈ calls, ∃ transfer, call = .transfer transfer :=
  ⟨fun confined => transfers_of_allConfined (confined Unit errorBus 1 ⟨(), [], fun _ => 0⟩),
    fun transfers _ _ _ _ => allConfined_transfers placed transfers⟩

theorem allConfined_iff_one_read :
    AllConfined scriptBus 1 [.transfer ⟨false, .located 0 0 16, 0, 1, 0⟩] (scripted [0x50]) := by
  refine (allConfined_iff fun call inside => ?_).mpr (fun call inside => ?_) _ scriptBus 1 _
  · rw [List.mem_singleton.mp inside]
    exact (by decide : (0 : UInt8) < 4)
  · exact ⟨_, List.mem_singleton.mp inside⟩

/-- One call of `ata_init`, on a bus without devices: the first identification reads the line status
of a serial port. -/
theorem init_not_confined : ¬ AllConfined scriptBus 1
      [.init (fun _ => 0) 0 fun _ => .located 0 0 0] (scripted []) ∧
    SerialRegister (ataRegStatus (ataBusControl 0)) := by
  refine ⟨fun confined => ?_, by decide⟩
  have first := confined.1 0 (by decide) (fun _ => .located 0 0 0, 0) (scripted [])
    (returns_pure.mpr ⟨rfl, rfl⟩)
  exact slot_not_inside (by decide) _ _ _ first

end AtaKernel.Ata
