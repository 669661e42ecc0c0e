import AtaKernel.Drivers.Keyboard

/-! What the keyboard handler does to its buffer when nobody reads. The bytes that come
fall into groups, one for each time the handler does not wait for more, and a group goes
behind the unread bytes as a whole where it has room there. -/
namespace AtaKernel.Drivers
open ByteMemory Memory RingBuffer

/-- The bytes that were put into the buffer and not taken out yet, in order. -/
def Machine.kbUnread (m : Machine) : List UInt8 :=
  (List.range m.kb.count.toNat).map fun k : Nat => m.kbByte ((m.kb.head + k).tmod kbBufLen)

/-- The groups that the bytes behind `part` fall into, and what has come of the next one. -/
def kbGroups : List UInt8 → List UInt8 → List (List UInt8) × List UInt8
  | part, [] => ([], part)
  | part, v :: bytes =>
    if KbWaits (part ++ [v]) then kbGroups (part ++ [v]) bytes
    else ((part ++ [v]) :: (kbGroups [] bytes).1, (kbGroups [] bytes).2)

/-- Those of the groups that find room, where `count` bytes are in the buffer already. -/
def kbRoomFor (count : Int) : List (List UInt8) → List (List UInt8)
  | [] => []
  | group :: groups =>
    if count + group.length ≤ kbBufLen then group :: kbRoomFor (count + group.length) groups
    else kbRoomFor count groups

/-- An interrupt of the keyboard, with what `inb` gives. -/
abbrev KeyInterrupt := UInt8 × (UInt16 → UInt8)

def kbInterrupts (interrupts : List KeyInterrupt) (m : Machine) : Machine :=
  interrupts.foldl (fun m interrupt => kbInterruptHandler interrupt.1 interrupt.2 m) m

def keyBytes (interrupts : List KeyInterrupt) : List UInt8 := interrupts.map fun interrupt => interrupt.2 kbEncoderBuf

/-- The indices with which the buffer is used are in bounds. -/
structure KbBounds (m : Machine) : Prop where
  count : 0 ≤ m.kb.count ∧ m.kb.count ≤ kbBufLen
  head : 0 ≤ m.kb.head ∧ m.kb.head < kbBufLen

/-- Nothing but the cells of the buffer has changed in the memory, and the reader is where it was. -/
structure KbFrame (m m' : Machine) : Prop where
  buffer : m'.kb.buffer = m.kb.buffer
  head : m'.kb.head = m.kb.head
  outside : ∀ a, (∀ c : Nat, c < 32 → cell a ≠ m.kbAddr c) → m'.byte a = m.byte a

/-- The groups were put behind the unread bytes where they had room, and `part` has come of the next one. -/
structure KbProduces (m : Machine) (groups : List (List UInt8)) (part : List UInt8) (m' : Machine) : Prop where
  unread : m'.kbUnread = m.kbUnread ++ (kbRoomFor m.kb.count groups).flatten
  count : m'.kb.count = m.kb.count + (kbRoomFor m.kb.count groups).flatten.length
  part : m'.kb.part = part
  bounds : KbBounds m'
  frame : KbFrame m m'

variable {m m' m'' : Machine} {part part' bytes group : List UInt8} {v : UInt8} {irq : UInt8} {inb : UInt16 → UInt8}
  {k n : Nat} {groups groups' : List (List UInt8)} {count : Int} {interrupts : List KeyInterrupt}

theorem KbFrame.refl (m : Machine) : KbFrame m m := ⟨rfl, rfl, fun _ _ => rfl⟩

theorem KbFrame.trans (first : KbFrame m m') (second : KbFrame m' m'') : KbFrame m m'' := by
  refine ⟨second.buffer.trans first.buffer, second.head.trans first.head, fun a apart => ?_⟩
  refine (second.outside a fun c low => ?_).trans (first.outside a apart)
  unfold Machine.kbAddr
  rw [first.buffer]
  exact apart c low

/-! ## A byte that is put -/

/-- The cells of the buffer are apart, wherever it is. -/
theorem kbAddr_inj {c c' : Nat} (low : c < 32) (low' : c' < 32) : m.kbAddr c = m.kbAddr c' ↔ c = c' := by
  unfold Machine.kbAddr
  omega

theorem kbAddr_lt (i : Int) : m.kbAddr i < 2 ^ 32 := by
  unfold Machine.kbAddr
  omega

/-- The cell of the byte that is `k` behind the first one. -/
theorem kb_place (bounds : KbBounds m) (k : Nat) :
    (m.kb.head + k).tmod kbBufLen = ((m.kb.head.toNat + k) % 32 : Nat) := by
  have low := bounds.head.1
  rw [← tmod_place, Nat.cast_add, Int.toNat_of_nonneg low]

theorem kbPut_place (bounds : KbBounds m) :
    (m.kb.head + m.kb.count).tmod kbBufLen = ((m.kb.head.toNat + m.kb.count.toNat) % 32 : Nat) := by
  rw [← kb_place bounds, Int.toNat_of_nonneg bounds.count.1]

theorem kbPut_frame (bounds : KbBounds m) : KbFrame m (m.kbPut v) := by
  refine ⟨rfl, rfl, fun a apart => ?_⟩
  refine load8_store8_apart _ _ ?_
  have low : (m.kb.head.toNat + m.kb.count.toNat) % 32 < 32 := Nat.mod_lt _ (by decide)
  rw [kbPut_place bounds, cell, cell, Nat.mod_eq_of_lt (kbAddr_lt _)]
  exact apart _ low

/-- Where a byte goes. -/
theorem kbPut_byte (bounds : KbBounds m) {c : Nat} (low : c < 32) : (m.kbPut v).kbByte c =
    if c = (m.kb.head.toNat + m.kb.count.toNat) % 32 then v else m.kbByte c := by
  have low' : (m.kb.head.toNat + m.kb.count.toNat) % 32 < 32 := Nat.mod_lt _ (by decide)
  change (m.setByte (m.kbAddr ((m.kb.head + m.kb.count).tmod kbBufLen)) v).byte (m.kbAddr c) = _
  rw [byte_setByte (kbAddr_lt _) (kbAddr_lt _), kbPut_place bounds]
  exact if_congr (kbAddr_inj low low') rfl rfl

/-- A byte that is put comes behind those that are unread. -/
theorem kbPut_unread (bounds : KbBounds m) (room : m.kb.count < kbBufLen) :
    (m.kbPut v).kbUnread = m.kbUnread ++ [v] := by
  have low (i : Nat) : i % 32 < 32 := Nat.mod_lt _ (by decide)
  have few : m.kb.count.toNat < 32 := (Int.toNat_lt bounds.count.1).mpr room
  have length : (m.kbPut v).kb.count.toNat = m.kb.count.toNat + 1 := Int.toNat_add bounds.count.1 (by decide)
  have byte (k : Nat) : (m.kbPut v).kbByte (((m.kbPut v).kb.head + k).tmod kbBufLen) =
      if (m.kb.head.toNat + k) % 32 = (m.kb.head.toNat + m.kb.count.toNat) % 32 then v
      else m.kbByte ((m.kb.head + k).tmod kbBufLen) := by
    change (m.kbPut v).kbByte ((m.kb.head + k).tmod kbBufLen) = _
    rw [kb_place bounds, kbPut_byte bounds (low _)]
  unfold Machine.kbUnread
  rw [length, List.range_succ, List.map_append, List.map_singleton, byte, if_pos rfl]
  congr 1
  refine List.map_congr_left fun k inside => ?_
  rw [byte, if_neg]
  exact cell_ne (Nat.add_lt_add_left (List.mem_range.mp inside) _) (by omega)

/-! ## A group -/

theorem KbBounds.put (bounds : KbBounds m) (room : m.kb.count < kbBufLen) : KbBounds (m.kbPut v) := by
  obtain ⟨⟨low, -⟩, head⟩ := bounds
  refine ⟨⟨?_, ?_⟩, head⟩
  · change 0 ≤ m.kb.count + 1
    omega
  · exact room

/-- A group that has room is put as a whole. -/
theorem kbPuts_unread (bounds : KbBounds m) (room : m.kb.count + group.length ≤ kbBufLen) :
    (group.foldl Machine.kbPut m).kbUnread = m.kbUnread ++ group ∧
      (group.foldl Machine.kbPut m).kb.count = m.kb.count + group.length ∧
      KbBounds (group.foldl Machine.kbPut m) ∧ KbFrame m (group.foldl Machine.kbPut m) := by
  induction group generalizing m with
  | nil =>
    rw [List.append_nil]
    exact ⟨rfl, (Int.add_zero _).symm, bounds, .refl m⟩
  | cons v group ih =>
    have more : m.kb.count + 1 + group.length = m.kb.count + (v :: group).length := by
      rw [List.length_cons]
      omega
    have first : m.kb.count < kbBufLen := by omega
    obtain ⟨unread, count, bounds', frame⟩ := ih (bounds.put first) (more.trans_le room)
    rw [kbPut_unread bounds first, List.append_assoc] at unread
    exact ⟨unread, count.trans more, bounds', (kbPut_frame bounds).trans frame⟩

/-! ## An interrupt -/

/-- The handler waits only for codes of which it has four bytes at most. -/
theorem KbWaits.short (waits : KbWaits part) : part.length ≤ 4 := by
  unfold KbWaits at waits
  split at waits
  · omega
  split at waits
  · omega
  split at waits
  · omega
  · exact waits.elim

theorem KbProduces.eoi (produces : KbProduces m groups part m') : KbProduces m groups part (m'.picSendEoi irq) := by
  obtain ⟨unread, count, part_, bounds, frame⟩ := produces
  have kb : (m'.picSendEoi irq).kb = m'.kb := picSendEoi_kb
  have unread' : (m'.picSendEoi irq).kbUnread = m'.kbUnread := picSendEoi_keeps Machine.kbUnread fun _ _ => rfl
  have byte : (m'.picSendEoi irq).byte = m'.byte := picSendEoi_keeps Machine.byte fun _ _ => rfl
  refine ⟨unread'.trans unread, ?_, ?_, ⟨?_, ?_⟩, ⟨?_, ?_, ?_⟩⟩ <;> try rw [kb]
  · exact count
  · exact part_
  · exact bounds.count
  · exact bounds.head
  · exact frame.buffer
  · exact frame.head
  · rw [byte]
    exact frame.outside

/-- The handler waits, or it ends a group, which is put where it has room. -/
theorem kbInterruptHandler_produces (bounds : KbBounds m) :
    KbProduces m (kbGroups m.kb.part [inb kbEncoderBuf]).1 (kbGroups m.kb.part [inb kbEncoderBuf]).2
      (kbInterruptHandler irq inb m) := by
  unfold kbInterruptHandler kbGroups
  dsimp only
  refine KbProduces.eoi ?_
  by_cases waits : KbWaits (m.kb.part ++ [inb kbEncoderBuf])
  · rw [if_pos waits, if_pos waits]
    exact ⟨(List.append_nil _).symm, (Int.add_zero _).symm, rfl, ⟨bounds.count, bounds.head⟩,
      ⟨rfl, rfl, fun _ _ => rfl⟩⟩
  rw [if_neg waits, if_neg waits]
  dsimp only [kbGroups]
  by_cases room : m.kb.count + (m.kb.part ++ [inb kbEncoderBuf]).length ≤ kbBufLen
  · obtain ⟨unread, count, bounds', frame⟩ := kbPuts_unread bounds room
    have kept : kbRoomFor m.kb.count [m.kb.part ++ [inb kbEncoderBuf]] = [m.kb.part ++ [inb kbEncoderBuf]] :=
      if_pos room
    rw [if_pos room]
    refine ⟨?_, ?_, rfl, ⟨bounds'.count, bounds'.head⟩, ⟨frame.buffer, frame.head, frame.outside⟩⟩
    · rw [kept, List.flatten_singleton]
      exact unread
    · rw [kept, List.flatten_singleton]
      exact count
  · have dropped : kbRoomFor m.kb.count [m.kb.part ++ [inb kbEncoderBuf]] = [] := if_neg room
    rw [if_neg room]
    refine ⟨?_, ?_, rfl, ⟨bounds.count, bounds.head⟩, ⟨rfl, rfl, fun _ _ => rfl⟩⟩
    · rw [dropped]
      exact (List.append_nil _).symm
    · rw [dropped]
      exact (Int.add_zero _).symm

/-! ## All interrupts -/

theorem kbGroups_cons : kbGroups part (v :: bytes) =
    ((kbGroups part [v]).1 ++ (kbGroups (kbGroups part [v]).2 bytes).1, (kbGroups (kbGroups part [v]).2 bytes).2) := by
  by_cases waits : KbWaits (part ++ [v])
  · simp only [kbGroups, if_pos waits, List.nil_append]
  · simp only [kbGroups, if_neg waits, List.cons_append, List.nil_append]

theorem kbRoomFor_append : kbRoomFor count (groups ++ groups') =
    kbRoomFor count groups ++ kbRoomFor (count + (kbRoomFor count groups).flatten.length) groups' := by
  induction groups generalizing count with
  | nil => simp [kbRoomFor]
  | cons group groups ih =>
    rw [List.cons_append, kbRoomFor, kbRoomFor]
    split
    · rw [ih, List.cons_append, List.flatten_cons, List.length_append, Nat.cast_add, Int.add_assoc]
    · exact ih

theorem KbProduces.trans (first : KbProduces m groups part m') (second : KbProduces m' groups' part' m'') :
    KbProduces m (groups ++ groups') part' m'' := by
  have unread := second.unread
  have count := second.count
  rw [first.unread, first.count, List.append_assoc, ← List.flatten_append, ← kbRoomFor_append] at unread
  refine ⟨unread, ?_, second.part, second.bounds, first.frame.trans second.frame⟩
  rw [first.count, Int.add_assoc, ← Nat.cast_add, ← List.length_append, ← List.flatten_append,
    ← kbRoomFor_append] at count
  exact count

theorem kbInterrupts_produce (bounds : KbBounds m) :
    KbProduces m (kbGroups m.kb.part (keyBytes interrupts)).1 (kbGroups m.kb.part (keyBytes interrupts)).2
      (kbInterrupts interrupts m) := by
  induction interrupts generalizing m with
  | nil => exact ⟨(List.append_nil _).symm, (Int.add_zero _).symm, rfl, bounds, .refl m⟩
  | cons interrupt interrupts ih =>
    have first := @kbInterruptHandler_produces m interrupt.1 interrupt.2 bounds
    have rest := ih first.bounds
    rw [first.part] at rest
    have both := first.trans rest
    rw [show keyBytes (interrupt :: interrupts) = interrupt.2 kbEncoderBuf :: keyBytes interrupts from rfl,
      kbGroups_cons]
    exact both

/-- What is left of the bytes is the beginning of a code for which the handler waits. -/
theorem kbGroups_rest (start : part = [] ∨ KbWaits part) :
    (kbGroups part bytes).2 = [] ∨ KbWaits (kbGroups part bytes).2 := by
  induction bytes generalizing part with
  | nil => exact start
  | cons v bytes ih =>
    rw [kbGroups]
    split
    · next waits => exact ih (.inr waits)
    · exact ih (.inl rfl)

theorem kbGroups_rest_short (start : part = [] ∨ KbWaits part) : (kbGroups part bytes).2.length < 6 := by
  obtain none_ | waits := @kbGroups_rest part bytes start
  · rw [none_]
    decide
  · exact Nat.lt_of_le_of_lt waits.short (by decide)

/-- The groups are all the bytes, up to the last one that is not whole. -/
theorem kbGroups_bytes : (kbGroups part bytes).1.flatten ++ (kbGroups part bytes).2 = part ++ bytes := by
  induction bytes generalizing part with
  | nil => exact (List.append_nil part).symm
  | cons v bytes ih =>
    rw [kbGroups, List.append_cons part v bytes]
    split
    · exact ih
    · rw [List.flatten_cons, List.append_assoc, ih, List.nil_append]

/-- Whatever bytes come, the handler keeps within its arrays, leaves the unread bytes where they are, and puts the
groups that have room behind them, each as a whole. -/
theorem interrupts_keep_unread (count : 0 ≤ m.kb.count ∧ m.kb.count ≤ kbBufLen)
    (head : 0 ≤ m.kb.head ∧ m.kb.head < kbBufLen) (fresh : m.kb.part = []) (interrupts : List KeyInterrupt) :
    (kbInterrupts interrupts m).kb.part.length < 6 ∧
      KbProduces m (kbGroups [] (keyBytes interrupts)).1 (kbGroups [] (keyBytes interrupts)).2
        (kbInterrupts interrupts m) ∧
      (kbGroups [] (keyBytes interrupts)).1.flatten ++ (kbGroups [] (keyBytes interrupts)).2 = keyBytes interrupts := by
  have produces := @kbInterrupts_produce m interrupts ⟨count, head⟩
  rw [fresh] at produces
  refine ⟨?_, produces, kbGroups_bytes⟩
  rw [produces.part]
  exact kbGroups_rest_short (.inl rfl)

/-- A buffer with room for one byte. -/
def nearlyFull : Machine :=
  { Machine.started (.boot ⟨fun _ => 0x1e, 0⟩) with kb := ⟨0x10000, 30, 31, []⟩ }

/-- A key with a code of two bytes is dropped, and one with a code of one byte is kept. -/
theorem interrupts_keep_unread_nearlyFull :
    (kbInterrupts [(0x21, fun _ => 0xe0), (0x21, fun _ => 0x48), (0x21, fun _ => 0x1f)] nearlyFull).kb.part.length < 6 ∧
      KbProduces nearlyFull [[0xe0, 0x48], [0x1f]] []
        (kbInterrupts [(0x21, fun _ => 0xe0), (0x21, fun _ => 0x48), (0x21, fun _ => 0x1f)] nearlyFull) ∧
      [0xe0, 0x48, 0x1f] = keyBytes [(0x21, fun _ => 0xe0), (0x21, fun _ => 0x48), (0x21, fun _ => 0x1f)] :=
  interrupts_keep_unread (by decide) (by decide) rfl [(0x21, fun _ => 0xe0), (0x21, fun _ => 0x48),
    (0x21, fun _ => 0x1f)]

example : kbRoomFor 31 [[0xe0, 0x48], [0x1f]] = [[0x1f]] := by decide

end AtaKernel.Drivers
