import AtaKernel.Drivers.Machine
import AtaKernel.Library.RingBuffer

/-! The keyboard driver (`drivers/kb.c`). The interrupt handler collects the bytes of
a scan code and puts them into the buffer; `kb_scan_code` takes a code out. Each of
the two finds the end of a code by rules of its own. -/
namespace AtaKernel.Drivers
open ByteMemory Memory RingBuffer Relation

def kbBufLen : Nat := 32

def kbEncoderBuf : UInt16 := 0x60

/-- The address of `kb_buffer[i]`. -/
def Machine.kbAddr (m : Machine) (i : Int) : Nat := ((m.kb.buffer + i) % 2 ^ 32).toNat

def Machine.kbByte (m : Machine) (i : Int) : UInt8 := m.byte (m.kbAddr i)

/-- What comes out is -1, or nothing: the source has no `return` at the end. -/
def kbInit (memHead fuel : Nat) (m : Machine) : Option (Option Int × Machine) :=
  let m := { m with kb := { m.kb with head := 0, count := 0 } }
  (m.kalloc memHead fuel kbBufLen).map fun (p, m) =>
    let m := { m with kb := { m.kb with buffer := p } }
    if p = 0 then (some (-1), m)
    else (none, m.itrSetInterruptHandler picKeyboardIrq .kbInterruptHandler interruptGate)

/-! ## The interrupt handler -/

/-- The conditions of the `break`s, where `part` are the first `len` bytes of the code. -/
def KbWaits (part : List UInt8) : Prop :=
  if part.length = 1 then part.getD 0 0 = 0xe0 ∨ part.getD 0 0 = 0xe1
  else if part.length = 2 then part.getD 0 0 = 0xe1 ∨ part.getD 1 0 = 0x2a ∨ part.getD 1 0 = 0xb7
  else if part.length = 4 then part.getD 0 0 = 0xe1
  else False

instance (part : List UInt8) : Decidable (KbWaits part) := by
  unfold KbWaits
  infer_instance

/-- A round of the loop that fills the buffer. -/
def Machine.kbPut (m : Machine) (v : UInt8) : Machine :=
  let m := m.setByte (m.kbAddr ((m.kb.head + m.kb.count).tmod kbBufLen)) v
  { m with kb := { m.kb with count := m.kb.count + 1 } }

def kbInterruptHandler (irq : UInt8) (inb : UInt16 → UInt8) (m : Machine) : Machine :=
  let part := m.kb.part ++ [inb kbEncoderBuf]
  let m :=
    if KbWaits part then { m with kb := { m.kb with part := part } }
    else
      let m := if m.kb.count + part.length ≤ kbBufLen then part.foldl Machine.kbPut m else m
      { m with kb := { m.kb with part := [] } }
  m.picSendEoi irq

/-! ## The reader -/

/-- The branches of `kb_scan_code`. -/
def Machine.kbScanSize (m : Machine) : Nat :=
  if m.kb.count = 0 then 0
  else if m.kbByte m.kb.head = 0xe1 then 6
  else if m.kbByte m.kb.head = 0xe0 ∧ (m.kbByte ((m.kb.head + 1).tmod kbBufLen) = 0x2a ∨
    m.kbByte ((m.kb.head + 1).tmod kbBufLen) = 0xb7) then 4
  else if m.kbByte m.kb.head = 0xe0 then 2
  else 1

/-- The loops of `kb_scan_code`. -/
def Machine.kbTake : Nat → Machine → List UInt8 × Machine
  | 0, m => ([], m)
  | n + 1, m =>
    let v := m.kbByte m.kb.head
    let (vs, m) := Machine.kbTake n { m with kb := { m.kb with head := (m.kb.head + 1).tmod kbBufLen } }
    (v :: vs, m)

/-- The bytes that come to `buf`; what is returned is how many there are. -/
def kbScanCode (m : Machine) : List UInt8 × Machine :=
  let size := m.kbScanSize
  let (vs, m) := m.kbTake size
  (vs, { m with kb := { m.kb with count := m.kb.count - size } })

/-! ## Scan codes -/

/-- The size of the scan codes that start with these two bytes. -/
def codeSize (first second : UInt8) : Nat :=
  if first = 0xe1 then 6
  else if first = 0xe0 then if second = 0x2a ∨ second = 0xb7 then 4 else 2
  else 1

/-- A whole scan code. -/
def Complete (code : List UInt8) : Prop := code ≠ [] ∧ code.length = codeSize (code.getD 0 0) (code.getD 1 0)

instance (code : List UInt8) : Decidable (Complete code) := inferInstanceAs (Decidable (_ ∧ _))

/-- The keyboard, with what came in and what went out: the codes that came whole, those of them that
found room and those that did not (with how full the buffer was), and the code that is coming, with how full
the buffer was when a part of it found no room. -/
structure Keys where
  machine : Machine
  received : List (List UInt8)
  kept : List (List UInt8)
  refused : List (Int × List UInt8)
  pending : List UInt8
  lost : Option Int
  returned : List (List UInt8)

def Keys.start (m : Machine) : Keys := ⟨m, [], [], [], [], none, []⟩

/-- The handler finds no room for what it has collected. -/
def Machine.kbRefuses (m : Machine) (v : UInt8) : Prop :=
  ¬ KbWaits (m.kb.part ++ [v]) ∧ kbBufLen < m.kb.count + ((m.kb.part ++ [v]).length : Nat)

instance (m : Machine) (v : UInt8) : Decidable (m.kbRefuses v) := inferInstanceAs (Decidable (_ ∧ _))

/-- With this byte a code is whole, or goes on. -/
def Keys.push (k : Keys) (m : Machine) (v : UInt8) (lost : Option Int) : Keys :=
  let pending := k.pending ++ [v]
  if Complete pending then
    match lost with
    | none => ⟨m, k.received ++ [pending], k.kept ++ [pending], k.refused, [], none, k.returned⟩
    | some n => ⟨m, k.received ++ [pending], k.kept, k.refused ++ [(n, pending)], [], none, k.returned⟩
  else ⟨m, k.received, k.kept, k.refused, pending, lost, k.returned⟩

/-- A byte comes. -/
def Keys.byte (k : Keys) (irq : UInt8) (inb : UInt16 → UInt8) : Keys :=
  k.push (kbInterruptHandler irq inb k.machine) (inb kbEncoderBuf)
    (k.lost <|> if k.machine.kbRefuses (inb kbEncoderBuf) then some k.machine.kb.count else none)

/-- A call of `kb_scan_code`. -/
def Keys.scan (k : Keys) : Keys :=
  let (vs, m) := kbScanCode k.machine
  { k with machine := m, returned := if vs = [] then k.returned else k.returned ++ [vs] }

inductive KeyStep (takes : Keys → UInt8 → Prop) (scans : Keys → Prop) : Keys → Keys → Prop
  | byte {k : Keys} {irq : UInt8} {inb : UInt16 → UInt8} (may : takes k (inb kbEncoderBuf)) :
      KeyStep takes scans k (k.byte irq inb)
  | scan {k : Keys} (may : scans k) : KeyStep takes scans k k.scan

/-- The handler keeps or drops the code as a whole: a part of it is stored only if no part was dropped, and
dropped only if none was stored. -/
def Keys.TakesWhole (k : Keys) (v : UInt8) : Prop :=
  if KbWaits (k.machine.kb.part ++ [v]) then k.lost = none ∨ ¬ Complete (k.pending ++ [v])
  else if k.machine.kbRefuses v then k.lost ≠ none ∨ k.machine.kb.part = k.pending
  else k.lost = none

/-- What `kb_scan_code` goes for is in the buffer. -/
def Keys.ScansWhole (k : Keys) : Prop := k.machine.kbScanSize ≤ k.machine.kb.count

/-- Scan codes come out whole. -/
structure WholeCodes (k : Keys) : Prop where
  codes : ∀ c ∈ k.returned, Complete c
  order : k.returned <+: k.kept
  kept : k.kept.Sublist k.received
  split : k.received.Perm (k.kept ++ k.refused.map Prod.snd)
  noRoom : ∀ r ∈ k.refused, kbBufLen < r.1 + (r.2.length : Nat)
  count : 0 ≤ k.machine.kb.count ∧ k.machine.kb.count ≤ kbBufLen
  head : 0 ≤ k.machine.kb.head ∧ k.machine.kb.head < kbBufLen

variable {m m' : Machine} {k : Keys} {code code' part bytes stored : List UInt8} {base r n fuel : Nat} {v : UInt8}
  {irq : UInt8} {inb : UInt16 → UInt8} {head : MemHead} {blocks : List Block}

theorem codeSize_pos (first second : UInt8) : 0 < codeSize first second := by
  unfold codeSize
  split
  · decide
  split
  · split <;> decide
  · decide

/-- Only the size of the codes that start with 0xe0 depends on the second byte. -/
theorem codeSize_second {first second second' : UInt8} (one : codeSize first second = 1) :
    codeSize first second' = 1 := by
  unfold codeSize at one ⊢
  split at one
  · cases one
  split at one
  · split at one <;> cases one
  · next plain other => rw [if_neg plain, if_neg other]

theorem getD_of_start {i : Nat} (start : code <+: bytes) (low : i < code.length) :
    bytes.getD i 0 = code.getD i 0 := by
  obtain ⟨rest, rfl⟩ := start
  exact List.getD_append _ _ _ _ low

/-- The size of a code can be told from any bytes that it starts. -/
theorem Complete.size (complete : Complete code) (start : code <+: bytes) :
    code.length = codeSize (bytes.getD 0 0) (bytes.getD 1 0) := by
  obtain ⟨some_, size⟩ := complete
  have pos : 0 < code.length := List.length_pos_of_ne_nil some_
  rw [getD_of_start start pos]
  by_cases two : 1 < code.length
  · rw [getD_of_start start two]
    exact size
  · have one : code.length = 1 := by omega
    rw [one] at size ⊢
    exact (codeSize_second size.symm).symm

/-- No whole code starts another. -/
theorem Complete.unique (complete : Complete code) (complete' : Complete code') (start : code <+: bytes)
    (start' : code' <+: bytes) : code = code' := by
  have same : code.length = code'.length := (complete.size start).trans (complete'.size start').symm
  rw [List.prefix_iff_eq_take.mp start, List.prefix_iff_eq_take.mp start', same]

/-! ## The buffer -/

/-- The buffer is a ring into which `stored` was put, and from which `r` bytes were taken. -/
structure KbRing (base : Nat) (stored : List UInt8) (r : Nat) (m : Machine) : Prop where
  place : m.kb.buffer = base
  words : base + 32 ≤ 2 ^ 32
  cells : Holds 32 (fun c => m.byte (base + c)) stored
  head : m.kb.head = (r % 32 : Nat)
  count : m.kb.count = (stored.length : Int) - r
  ahead : r ≤ stored.length
  room : stored.length ≤ r + 32

theorem tmod_place (n : Nat) : ((n : Int)).tmod kbBufLen = (n % 32 : Nat) := by
  rw [Int.tmod_eq_emod_of_nonneg (Int.natCast_nonneg n)]
  rfl

theorem kbAddr_of {c : Nat} (place : m.kb.buffer = base) (words : base + 32 ≤ 2 ^ 32) (low : c < 32) :
    m.kbAddr (c : Int) = base + c := by
  unfold Machine.kbAddr
  rw [place]
  omega

theorem kbByte_of (place : m.kb.buffer = base) (words : base + 32 ≤ 2 ^ 32)
    (cells : Holds 32 (fun c => m.byte (base + c)) stored) (some_ : r < stored.length) (room : stored.length ≤ r + 32) :
    m.kbByte (r % 32 : Nat) = stored[r] := by
  rw [Machine.kbByte, kbAddr_of place words (Nat.mod_lt _ (by decide))]
  exact cells r some_ room

/-- A byte goes behind the others. -/
theorem KbRing.put (ring : KbRing base stored r m) (room : stored.length < r + 32) :
    KbRing base (stored ++ [v]) r (m.kbPut v) := by
  have words := ring.words
  have ahead := ring.ahead
  have length : (stored ++ [v]).length = stored.length + 1 := by rw [List.length_append, List.length_singleton]
  have low : stored.length % 32 < 32 := Nat.mod_lt _ (by decide)
  have cell : m.kbAddr ((m.kb.head + m.kb.count).tmod kbBufLen) = base + stored.length % 32 := by
    have sum : ((r % 32 : Nat) : Int) + ((stored.length : Int) - r) = ((r % 32 + (stored.length - r) : Nat) : Int) := by
      omega
    have same : (r % 32 + (stored.length - r)) % 32 = stored.length % 32 := by omega
    rw [ring.head, ring.count, sum, tmod_place, same]
    exact kbAddr_of ring.place words low
  refine ⟨ring.place, words, ?_, ring.head, ?_, by omega, by omega⟩
  · refine ring.cells.put (by decide) fun c inside => ?_
    change (m.setByte (m.kbAddr ((m.kb.head + m.kb.count).tmod kbBufLen)) v).byte (base + c) = _
    rw [cell, byte_setByte (by omega) (by omega)]
    exact if_congr Nat.add_left_cancel_iff rfl rfl
  · change m.kb.count + 1 = _
    rw [ring.count, length]
    omega

theorem KbRing.puts (ring : KbRing base stored r m) (room : stored.length + bytes.length ≤ r + 32) :
    KbRing base (stored ++ bytes) r (bytes.foldl Machine.kbPut m) := by
  induction bytes generalizing m stored with
  | nil =>
    rw [List.append_nil]
    exact ring
  | cons v bytes ih =>
    rw [List.length_cons] at room
    have rest := @ih (m.kbPut v) (stored ++ [v]) (ring.put (by omega)) (by
      rw [List.length_append, List.length_singleton]
      omega)
    rwa [List.append_assoc] at rest

theorem place_succ (r : Nat) : (((r % 32 : Nat) : Int) + 1).tmod kbBufLen = ((r + 1) % 32 : Nat) := by
  have sum : ((r % 32 : Nat) : Int) + 1 = ((r % 32 + 1 : Nat) : Int) := rfl
  rw [sum, tmod_place, Nat.mod_add_mod]

/-- Bytes are taken from the front. -/
theorem kbTake_eq (place : m.kb.buffer = base) (words : base + 32 ≤ 2 ^ 32)
    (cells : Holds 32 (fun c => m.byte (base + c)) stored) (front : m.kb.head = (r % 32 : Nat))
    (some_ : r + n ≤ stored.length) (room : stored.length ≤ r + 32) :
    m.kbTake n = ((stored.drop r).take n, { m with kb := { m.kb with head := ((r + n) % 32 : Nat) } }) := by
  induction n generalizing m r with
  | zero =>
    rw [List.take_zero, Nat.add_zero, ← front]
    rfl
  | succ n ih =>
    have first : r < stored.length := by omega
    have here : m.kbByte m.kb.head = stored[r] := by
      rw [front]
      exact kbByte_of place words cells first room
    have next : ((m.kb.head + 1).tmod kbBufLen) = ((r + 1) % 32 : Nat) := by
      rw [front, place_succ]
    have rest := @ih { m with kb := { m.kb with head := (m.kb.head + 1).tmod kbBufLen } } (r + 1) place cells next
      (by omega) (by omega)
    rw [Machine.kbTake, rest, here, List.drop_eq_getElem_cons first, List.take_succ_cons,
      show r + 1 + n = r + (n + 1) by omega]

/-- What is in the buffer, from the front on. -/
theorem KbRing.take (ring : KbRing base stored r m) (some_ : r + n ≤ stored.length) :
    m.kbTake n = ((stored.drop r).take n, { m with kb := { m.kb with head := ((r + n) % 32 : Nat) } }) :=
  kbTake_eq ring.place ring.words ring.cells ring.head some_ ring.room

/-- The size that the reader goes for is that of the code at the front. -/
theorem KbRing.scanSize (ring : KbRing base stored r m) (some_ : r < stored.length) :
    ∃ second, m.kbScanSize = codeSize (stored.getD r 0) second ∧
      (r + 1 < stored.length → second = stored.getD (r + 1) 0) := by
  have room := ring.room
  have count : m.kb.count ≠ 0 := by
    rw [ring.count]
    omega
  have first : m.kbByte m.kb.head = stored.getD r 0 := by
    rw [ring.head, List.getD_eq_getElem _ _ some_]
    exact kbByte_of ring.place ring.words ring.cells some_ room
  refine ⟨m.kbByte ((m.kb.head + 1).tmod kbBufLen), ?_, fun more => ?_⟩
  · unfold Machine.kbScanSize codeSize
    rw [if_neg count, first]
    by_cases pause : stored.getD r 0 = 0xe1
    · rw [if_pos pause, if_pos pause]
    rw [if_neg pause, if_neg pause]
    by_cases third : stored.getD r 0 = 0xe0
    · simp only [third, true_and, if_true]
    · simp only [third, false_and, if_false]
  · rw [ring.head, place_succ, List.getD_eq_getElem _ _ more]
    exact kbByte_of ring.place ring.words ring.cells more (by omega)

/-- A code that is in the buffer as a whole is what comes out. -/
theorem KbRing.scan (ring : KbRing base stored r m) (some_ : r < stored.length)
    (whole : m.kbScanSize ≤ m.kb.count) :
    ∃ code, Complete code ∧ code <+: stored.drop r ∧ (kbScanCode m).1 = code ∧
      KbRing base stored (r + code.length) (kbScanCode m).2 ∧ (kbScanCode m).2.kb.part = m.kb.part := by
  obtain ⟨second, size, behind⟩ := ring.scanSize some_
  have room := ring.room
  have fits : r + m.kbScanSize ≤ stored.length := by
    have count := ring.count
    omega
  have length : ((stored.drop r).take m.kbScanSize).length = m.kbScanSize := by
    rw [List.length_take, List.length_drop]
    omega
  have pos : 0 < m.kbScanSize := size ▸ codeSize_pos _ _
  have start : (stored.drop r).take m.kbScanSize <+: stored.drop r := List.take_prefix _ _
  have bytes {i : Nat} (low : i < m.kbScanSize) :
      ((stored.drop r).take m.kbScanSize).getD i 0 = stored.getD (r + i) 0 := by
    rw [← getD_of_start start (by omega)]
    simp [List.getD_eq_getElem?_getD]
  have complete : Complete ((stored.drop r).take m.kbScanSize) := by
    refine ⟨List.ne_nil_of_length_pos (by omega), ?_⟩
    rw [length, bytes pos]
    by_cases two : 1 < m.kbScanSize
    · rw [bytes two, ← behind (by omega)]
      exact size
    · have one : m.kbScanSize = 1 := by omega
      rw [one] at size ⊢
      exact (codeSize_second size.symm).symm
  have scanned : kbScanCode m = ((stored.drop r).take m.kbScanSize, { m with
      kb := { m.kb with head := ((r + m.kbScanSize) % 32 : Nat), count := m.kb.count - m.kbScanSize } }) := by
    unfold kbScanCode
    dsimp only
    rw [ring.take fits]
  refine ⟨_, complete, start, by rw [scanned], ?_, by rw [scanned]⟩
  rw [scanned, length]
  refine ⟨ring.place, ring.words, ring.cells, rfl, ?_, fits, by omega⟩
  have count := ring.count
  dsimp only
  omega

theorem KbRing.scan_empty (ring : KbRing base stored r m) (none_ : r = stored.length) :
    (kbScanCode m).1 = [] ∧ KbRing base stored r (kbScanCode m).2 ∧ (kbScanCode m).2.kb.part = m.kb.part := by
  have count : m.kb.count = 0 := by
    rw [ring.count]
    omega
  have same : kbScanCode m = ([], { m with kb := { m.kb with count := m.kb.count - 0 } }) := by
    unfold kbScanCode Machine.kbScanSize
    rw [if_pos count]
    rfl
  rw [same]
  refine ⟨rfl, ⟨ring.place, ring.words, ring.cells, ring.head, ?_, ring.ahead, ring.room⟩, rfl⟩
  exact (Int.sub_zero _).trans ring.count

theorem KbRing.congr (ring : KbRing base stored r m) (bytes : m'.byte = m.byte) (buffer : m'.kb.buffer = m.kb.buffer)
    (head : m'.kb.head = m.kb.head) (count : m'.kb.count = m.kb.count) : KbRing base stored r m' where
  place := buffer.trans ring.place
  words := ring.words
  cells := ring.cells.congr (by decide) fun c _ => congrFun bytes (base + c)
  head := head.trans ring.head
  count := count.trans ring.count
  ahead := ring.ahead
  room := ring.room

theorem picSendEoi_kb : (m.picSendEoi irq).kb = m.kb := picSendEoi_keeps Machine.kb fun _ _ => rfl

/-- What the handler does with a byte: it waits for more, stores what it has, or drops it. -/
theorem KbRing.handler (ring : KbRing base stored r m) (part : m.kb.part ++ [inb kbEncoderBuf] = bytes) :
    (KbWaits bytes ∧ KbRing base stored r (kbInterruptHandler irq inb m) ∧
        (kbInterruptHandler irq inb m).kb.part = bytes) ∨
      (¬ KbWaits bytes ∧ (kbInterruptHandler irq inb m).kb.part = [] ∧
        ((¬ m.kbRefuses (inb kbEncoderBuf) ∧ KbRing base (stored ++ bytes) r (kbInterruptHandler irq inb m)) ∨
          (m.kbRefuses (inb kbEncoderBuf) ∧ KbRing base stored r (kbInterruptHandler irq inb m)))) := by
  have same {m' : Machine} : ((m'.picSendEoi irq).byte = m'.byte) ∧ (m'.picSendEoi irq).kb = m'.kb :=
    ⟨picSendEoi_keeps Machine.byte fun _ _ => rfl, picSendEoi_kb⟩
  have past {m' : Machine} {stored : List UInt8} (ring : KbRing base stored r m') :
      KbRing base stored r (m'.picSendEoi irq) :=
    ring.congr same.1 (by rw [same.2]) (by rw [same.2]) (by rw [same.2])
  unfold kbInterruptHandler Machine.kbRefuses
  dsimp only
  rw [part]
  split
  · next waits =>
    refine .inl ⟨waits, past (ring.congr rfl rfl rfl rfl), ?_⟩
    rw [same.2]
  · next done =>
    refine .inr ⟨done, by rw [same.2], ?_⟩
    have count := ring.count
    have ahead := ring.ahead
    unfold kbBufLen
    split
    · next fits =>
      refine .inl ⟨fun refuses => ?_, past ?_⟩
      · have full := refuses.2
        omega
      · have room : stored.length + bytes.length ≤ r + 32 := by
          have fits' : m.kb.count + ((bytes.length : Nat) : Int) ≤ (32 : Nat) := fits
          omega
        exact (ring.puts room).congr rfl rfl rfl rfl
    · next full =>
      exact .inr ⟨⟨done, not_le.mp full⟩, past (ring.congr rfl rfl rfl rfl)⟩

/-! ## Runs -/

/-- Where a run stands: the codes that were kept, and what there is of the one that is coming, are what
was stored and what the handler has collected, unless a part of that code was dropped. -/
structure KeysInv (base : Nat) (stored : List UInt8) (k : Keys) : Prop where
  ring : KbRing base stored k.returned.flatten.length k.machine
  order : k.returned <+: k.kept
  whole : ∀ c ∈ k.kept, Complete c
  started : ∀ c, Complete c → ¬ c <+: k.pending
  bytes : (k.lost = none ∧ stored ++ k.machine.kb.part = k.kept.flatten ++ k.pending) ∨
    ∃ n, k.lost = some n ∧ stored = k.kept.flatten ∧ kbBufLen < n + (k.pending.length : Nat)
  kept : k.kept.Sublist k.received
  split : k.received.Perm (k.kept ++ k.refused.map Prod.snd)
  noRoom : ∀ r ∈ k.refused, kbBufLen < r.1 + (r.2.length : Nat)

theorem KeysInv.wholeCodes (inv : KeysInv base stored k) : WholeCodes k where
  codes c inside := inv.whole c (inv.order.subset inside)
  order := inv.order
  kept := inv.kept
  split := inv.split
  noRoom := inv.noRoom
  count := by
    have ring := inv.ring
    have count := ring.count
    have ahead := ring.ahead
    have room := ring.room
    unfold kbBufLen
    omega
  head := by
    rw [inv.ring.head]
    unfold kbBufLen
    omega

/-- A byte that makes no code whole leaves the code begun. -/
theorem started_snoc {pending : List UInt8} (started : ∀ c, Complete c → ¬ c <+: pending)
    (open_ : ¬ Complete (pending ++ [v])) : ∀ c, Complete c → ¬ c <+: pending ++ [v] := by
  intro c complete start
  obtain same | before := List.prefix_concat_iff.mp start
  · exact open_ (same ▸ complete)
  · exact started c complete before

theorem started_nil : ∀ c, Complete c → ¬ c <+: ([] : List UInt8) := by
  intro c complete start
  exact complete.1 (List.prefix_nil.mp start)

/-- The code at the front of the buffer is the next one that was kept. -/
theorem KeysInv.next (inv : KeysInv base stored k) (complete : Complete code)
    (start : code <+: stored.drop k.returned.flatten.length) : k.returned ++ [code] <+: k.kept := by
  obtain ⟨queue, kept⟩ := inv.order
  have ahead := inv.ring.ahead
  obtain ⟨rest, common, open_⟩ : ∃ rest, code <+: queue.flatten ++ rest ∧ ∀ c, Complete c → ¬ c <+: rest := by
    obtain ⟨-, bytes⟩ | ⟨n, -, bytes, -⟩ := inv.bytes
    · refine ⟨k.pending, ?_, inv.started⟩
      have tail : stored.drop k.returned.flatten.length ++ k.machine.kb.part = queue.flatten ++ k.pending := by
        rw [← List.drop_append_of_le_length ahead, bytes, ← kept, List.flatten_append, List.append_assoc,
          List.drop_left]
      exact tail ▸ start.trans (List.prefix_append _ _)
    · refine ⟨[], ?_, started_nil⟩
      rwa [bytes, ← kept, List.flatten_append, List.drop_left, ← List.append_nil queue.flatten] at start
  cases queue with
  | nil => exact absurd common (open_ code complete)
  | cons next queue =>
    have whole : Complete next := inv.whole next (kept ▸ List.mem_append_right _ List.mem_cons_self)
    have first : next <+: (next :: queue).flatten ++ rest := by
      rw [List.flatten_cons, List.append_assoc]
      exact List.prefix_append _ _
    obtain rfl := complete.unique whole common first
    exact ⟨queue, by rw [← kept, List.append_assoc]; rfl⟩

theorem KeysInv.scan (inv : KeysInv base stored k) (scans : k.ScansWhole) : KeysInv base stored k.scan := by
  have bytes := inv.bytes
  obtain none_ | some_ := Nat.eq_or_lt_of_le inv.ring.ahead
  · obtain ⟨empty, ring, part⟩ := inv.ring.scan_empty none_
    have same : k.scan = { k with machine := (kbScanCode k.machine).2 } := by
      unfold Keys.scan
      dsimp only
      rw [if_pos empty]
    rw [same]
    exact ⟨ring, inv.order, inv.whole, inv.started, by dsimp only; rwa [part], inv.kept, inv.split, inv.noRoom⟩
  · obtain ⟨code, complete, start, out, ring, part⟩ := inv.ring.scan some_ scans
    have same : k.scan = { k with machine := (kbScanCode k.machine).2, returned := k.returned ++ [code] } := by
      unfold Keys.scan
      dsimp only
      rw [out, if_neg complete.1]
    have taken : (k.returned ++ [code]).flatten.length = k.returned.flatten.length + code.length := by
      rw [List.flatten_append, List.length_append, List.flatten_singleton]
    rw [same]
    refine ⟨?_, inv.next complete start, inv.whole, inv.started, by dsimp only; rwa [part], inv.kept, inv.split,
      inv.noRoom⟩
    dsimp only
    rwa [taken]

/-- The code that a byte makes whole was kept or refused as a whole. -/
theorem KeysInv.push {lost : Option Int} (inv : KeysInv base stored k)
    (ring : KbRing base bytes k.returned.flatten.length m)
    (outcome : (lost = none ∧ bytes ++ m.kb.part = k.kept.flatten ++ (k.pending ++ [v])) ∨
      ∃ n, lost = some n ∧ bytes = k.kept.flatten ∧ kbBufLen < n + ((k.pending ++ [v]).length : Nat) ∧
        (Complete (k.pending ++ [v]) → m.kb.part = [])) : KeysInv base bytes (k.push m v lost) := by
  have started := @started_snoc v k.pending inv.started
  unfold Keys.push
  dsimp only
  generalize k.pending ++ [v] = pending at outcome started
  split
  · next complete =>
    obtain ⟨rfl, stream⟩ | ⟨n, rfl, all, full, done⟩ := outcome
    · refine ⟨ring, inv.order.trans (List.prefix_append _ _), ?_, started_nil, .inl ⟨rfl, ?_⟩,
        inv.kept.append (List.Sublist.refl _), ?_, inv.noRoom⟩
      · intro c inside
        obtain old | new := List.mem_append.mp inside
        · exact inv.whole c old
        · rwa [List.mem_singleton.mp new]
      · dsimp only
        rw [stream, List.flatten_append, List.flatten_singleton, List.append_nil]
      · refine (inv.split.append_right [pending]).trans ?_
        dsimp only
        rw [List.append_assoc, List.append_assoc]
        exact List.perm_append_comm.append_left _
    · refine ⟨ring, inv.order, inv.whole, started_nil, .inl ⟨rfl, ?_⟩, inv.kept.trans (List.sublist_append_left _ _),
        ?_, ?_⟩
      · dsimp only
        rw [all, done complete]
      · refine (inv.split.append_right [pending]).trans (List.Perm.of_eq ?_)
        dsimp only
        rw [List.map_append, List.append_assoc]
        rfl
      · intro r inside
        obtain old | new := List.mem_append.mp inside
        · exact inv.noRoom r old
        · rw [List.mem_singleton.mp new]
          exact full
  · next open_ =>
    refine ⟨ring, inv.order, inv.whole, started open_, ?_, inv.kept, inv.split, inv.noRoom⟩
    obtain ⟨none_, stream⟩ | ⟨n, some_, all, full, -⟩ := outcome
    · exact .inl ⟨none_, stream⟩
    · exact .inr ⟨n, some_, all, full⟩

theorem lost_stays (lost : Option Int) : (lost <|> none) = lost := by
  cases lost <;> rfl

theorem KeysInv.byte (inv : KeysInv base stored k) (takes : k.TakesWhole (inb kbEncoderBuf)) :
    ∃ stored', KeysInv base stored' (k.byte irq inb) := by
  have longer : ∀ n : Int, kbBufLen < n + (k.pending.length : Nat) →
      kbBufLen < n + ((k.pending ++ [inb kbEncoderBuf]).length : Nat) := by
    intro n full
    rw [List.length_append]
    omega
  unfold Keys.TakesWhole at takes
  unfold Keys.byte
  obtain ⟨waits, ring, part⟩ | ⟨done, part, ⟨stores, ring⟩ | ⟨refuses, ring⟩⟩ :=
    @KbRing.handler k.machine _ stored base _ irq inb inv.ring rfl
  · have none_ : ¬ k.machine.kbRefuses (inb kbEncoderBuf) := fun refuses => refuses.1 waits
    rw [if_pos waits] at takes
    rw [if_neg none_, lost_stays]
    refine ⟨stored, inv.push ring ?_⟩
    obtain ⟨sound, stream⟩ | ⟨n, lost, all, full⟩ := inv.bytes
    · exact .inl ⟨sound, by rw [part, ← List.append_assoc, stream, List.append_assoc]⟩
    · refine .inr ⟨n, lost, all, longer n full, fun complete => ?_⟩
      rw [lost] at takes
      exact absurd complete (takes.resolve_left nofun)
  · rw [if_neg done, if_neg stores] at takes
    rw [if_neg stores, lost_stays]
    refine ⟨_, inv.push ring (.inl ⟨takes, ?_⟩)⟩
    obtain ⟨-, stream⟩ | ⟨n, lost, -⟩ := inv.bytes
    · rw [part, List.append_nil, ← List.append_assoc, stream, List.append_assoc]
    · rw [takes] at lost
      cases lost
  · rw [if_neg done, if_pos refuses] at takes
    rw [if_pos refuses]
    refine ⟨stored, inv.push ring (.inr ?_)⟩
    obtain ⟨sound, stream⟩ | ⟨n, lost, all, full⟩ := inv.bytes
    · have first : k.machine.kb.part = k.pending := takes.resolve_left fun lost => lost sound
      refine ⟨k.machine.kb.count, by rw [sound]; rfl, ?_, ?_, fun _ => part⟩
      · rw [first] at stream
        exact List.append_cancel_right stream
      · have full := refuses.2
        rwa [first] at full
    · exact ⟨n, by rw [lost]; rfl, all, longer n full, fun _ => part⟩

/-! ## From the start -/

/-- A keyboard that is set up has an empty buffer. -/
theorem inv_of_init {m₀ : Machine} (sound : Sound head m₀.kernel blocks) (fresh : m₀.kb.part = [])
    (initialised : kbInit head.addr fuel m₀ = some (none, m)) : ∃ base, KeysInv base [] (.start m) := by
  obtain ⟨⟨p, mid⟩, returned, same⟩ := Option.map_eq_some_iff.mp initialised
  have sound' : Sound head ({ m₀ with kb := { m₀.kb with head := 0, count := 0 } }).kernel blocks := sound
  obtain ⟨kernel, rfl, ⟨blocks', sound''⟩, -, live⟩ := kalloc_ok sound' (by decide) returned
  dsimp only at same
  split at same
  · cases same
  next some_ =>
  obtain ⟨-, rfl⟩ := Prod.mk.inj same
  rw [if_neg some_] at live
  have handed : (p, kbBufLen) ∈ kernel.live := live ▸ List.mem_cons_self
  have top : p + kbBufLen < 2 ^ 32 := (sound''.live_bounds handed).2
  refine ⟨p, ?_⟩
  refine ⟨⟨rfl, top.le, holds_nil, rfl, rfl, le_rfl, Nat.zero_le _⟩, List.prefix_refl _,
    fun _ inside => (nomatch inside), started_nil, .inl ⟨rfl, ?_⟩, List.Sublist.refl _, List.Perm.refl _,
      fun _ inside => nomatch inside⟩
  exact (List.nil_append _).trans fresh

/-- What is left of the count is less by the size that the reader went for. -/
theorem kbScanCode_count : (kbScanCode m).2.kb.count = m.kb.count - m.kbScanSize := by
  have same {n : Nat} {m : Machine} : (m.kbTake n).2.kb.count = m.kb.count := by
    induction n generalizing m with
    | zero => rfl
    | succ n ih =>
      rw [Machine.kbTake]
      exact ih
  unfold kbScanCode
  dsimp only
  rw [same]

theorem kbScanCode_length : (kbScanCode m).1.length = m.kbScanSize := by
  have taken {n : Nat} {m : Machine} : (m.kbTake n).1.length = n := by
    induction n generalizing m with
    | zero => rfl
    | succ n ih =>
      rw [Machine.kbTake]
      exact congrArg Nat.succ ih
  exact taken

theorem scan_machine : k.scan.machine = (kbScanCode k.machine).2 := rfl

/-- A call that goes for more than there is makes the count negative. -/
theorem scan_breaks (more : ¬ k.ScansWhole) : k.scan.machine.kb.count < 0 := by
  rw [scan_machine, kbScanCode_count]
  exact sub_neg_of_lt (not_le.mp more)

/-- Scan codes come out whole in every run in which the handler keeps or drops each code as a whole, and
`kb_scan_code` is called only while the buffer is empty or has the whole code that is at its front. In no state
of such a run do they after a call with only a part of the code there. -/
theorem codes_come_out_whole {m₀ : Machine} (sound : Sound head m₀.kernel blocks) (fresh : m₀.kb.part = [])
    (initialised : kbInit head.addr fuel m₀ = some (none, m))
    (run : ReflTransGen (KeyStep Keys.TakesWhole Keys.ScansWhole) (.start m) k) :
    WholeCodes k ∧ (¬ k.ScansWhole → ¬ WholeCodes k.scan) := by
  obtain ⟨base, start⟩ := inv_of_init sound fresh initialised
  have inv : ∃ stored, KeysInv base stored k := by
    induction run with
    | refl => exact ⟨[], start⟩
    | tail _ step ih =>
      obtain ⟨stored, inv⟩ := ih
      cases step with
      | byte may => exact inv.byte may
      | scan may => exact ⟨stored, inv.scan may⟩
  obtain ⟨stored, inv⟩ := inv
  exact ⟨inv.wholeCodes, fun more whole => (scan_breaks more).not_ge whole.count.1⟩

theorem kbInit_returns {memHead p : Nat} {s' : State}
    (ran : Memory.kalloc memHead fuel m.kernel.state kbBufLen = some (p, s')) (some_ : p ≠ 0) :
    ∃ m', kbInit memHead fuel m = some (none, m') := by
  unfold kbInit Machine.kalloc
  dsimp only
  rw [ran, Option.map_some, Option.map_some]
  dsimp only
  rw [if_neg some_]
  exact ⟨_, rfl⟩

theorem kbInit_threeMegabytes : ∃ s fuel m, Sound lowHead (.boot s) [] ∧
    kbInit lowHead.addr fuel (.started (.boot s)) = some (none, m) := by
  obtain ⟨s, fuel, p, s', sound, ran, some_⟩ := @kalloc_threeMegabytes kbBufLen (by decide) (by decide)
  obtain ⟨m, initialised⟩ := @kbInit_returns (.started (.boot s)) fuel _ _ _ ran some_
  exact ⟨s, fuel, m, sound, initialised⟩

/-- A byte with which the handler waits. -/
theorem KbRing.waits (ring : KbRing base stored r m) (part : m.kb.part = bytes)
    (waits : KbWaits (bytes ++ [inb kbEncoderBuf])) : KbRing base stored r (kbInterruptHandler irq inb m) ∧
      (kbInterruptHandler irq inb m).kb.part = bytes ++ [inb kbEncoderBuf] := by
  obtain ⟨-, ring, part⟩ | ⟨done, -⟩ := @KbRing.handler m _ stored base r irq inb ring (by rw [part])
  · exact ⟨ring, part⟩
  · exact absurd waits done

/-! ### Two keys -/

/-- Nothing was dropped, and the handler has collected what there is of the code that is coming. -/
structure Keys.Comes (base : Nat) (stored : List UInt8) (r : Nat) (bytes : List UInt8) (k : Keys) : Prop where
  ring : KbRing base stored r k.machine
  part : k.machine.kb.part = bytes
  pending : k.pending = bytes
  lost : k.lost = none

theorem Keys.Comes.waits (comes : k.Comes base stored r bytes) (waits : KbWaits (bytes ++ [v]))
    (goesOn : ¬ Complete (bytes ++ [v])) : ∃ k', KeyStep Keys.TakesWhole Keys.ScansWhole k k' ∧
      k'.Comes base stored r (bytes ++ [v]) ∧ k'.returned = k.returned := by
  obtain ⟨ring, rfl, pending, lost⟩ := comes
  obtain ⟨ring', part'⟩ := @KbRing.waits k.machine _ stored base r picKeyboardIrq (fun _ => v) ring rfl waits
  have may : k.TakesWhole v := by
    unfold Keys.TakesWhole
    rw [if_pos waits]
    exact .inl lost
  have kept : ¬ k.machine.kbRefuses v := fun refuses => refuses.1 waits
  have next : k.byte picKeyboardIrq (fun _ => v) = ⟨kbInterruptHandler picKeyboardIrq (fun _ => v) k.machine,
      k.received, k.kept, k.refused, k.machine.kb.part ++ [v], none, k.returned⟩ := by
    unfold Keys.byte Keys.push
    dsimp only
    rw [pending, if_neg goesOn, if_neg kept, lost]
    rfl
  exact ⟨_, @KeyStep.byte _ _ k picKeyboardIrq (fun _ => v) may,
    by rw [next]; exact ⟨ring', part', rfl, rfl⟩, by rw [next]⟩

theorem Keys.Comes.ends (comes : k.Comes base stored r bytes) (done : ¬ KbWaits (bytes ++ [v]))
    (complete : Complete (bytes ++ [v])) (room : stored.length + bytes.length < r + 32) :
    ∃ k', KeyStep Keys.TakesWhole Keys.ScansWhole k k' ∧ k'.Comes base (stored ++ (bytes ++ [v])) r [] ∧
      k'.returned = k.returned := by
  obtain ⟨ring, rfl, pending, lost⟩ := comes
  have kept : ¬ k.machine.kbRefuses v := fun refuses => by
    have full := refuses.2
    rw [ring.count, List.length_append, List.length_singleton] at full
    unfold kbBufLen at full
    omega
  have may : k.TakesWhole v := by
    unfold Keys.TakesWhole
    rw [if_neg done, if_neg kept]
    exact lost
  obtain ⟨waits, -⟩ | ⟨-, part', ⟨-, ring'⟩ | ⟨refuses, -⟩⟩ :=
    @KbRing.handler k.machine _ stored base r picKeyboardIrq (fun _ => v) ring rfl
  · exact absurd waits done
  · have next : k.byte picKeyboardIrq (fun _ => v) = ⟨kbInterruptHandler picKeyboardIrq (fun _ => v) k.machine,
        k.received ++ [k.machine.kb.part ++ [v]], k.kept ++ [k.machine.kb.part ++ [v]], k.refused, [], none,
          k.returned⟩ := by
      unfold Keys.byte Keys.push
      dsimp only
      rw [pending, if_pos complete, if_neg kept, lost]
      rfl
    exact ⟨_, @KeyStep.byte _ _ k picKeyboardIrq (fun _ => v) may, by rw [next]; exact ⟨ring', part', rfl, rfl⟩,
      by rw [next]⟩
  · exact absurd refuses kept

theorem Keys.Comes.scan (comes : k.Comes base stored r bytes) (complete : Complete code)
    (start : code <+: stored.drop r)
    (two : r + 1 < stored.length ∨ code.length = 1) : ∃ k', KeyStep Keys.TakesWhole Keys.ScansWhole k k' ∧
      k'.Comes base stored (r + code.length) bytes ∧ k'.returned = k.returned ++ [code] := by
  obtain ⟨ring, part, pending, lost⟩ := comes
  have long := start.length_le
  rw [List.length_drop] at long
  have pos : 0 < code.length := List.length_pos_of_ne_nil complete.1
  obtain ⟨second, size, behind⟩ := ring.scanSize (by omega)
  have front (i : Nat) : (stored.drop r).getD i 0 = stored.getD (r + i) 0 := by simp [List.getD_eq_getElem?_getD]
  have length := complete.size start
  rw [front, front, Nat.add_zero] at length
  have whole : k.ScansWhole := by
    have count := ring.count
    have same : k.machine.kbScanSize = code.length := by
      rcases two with more | one
      · rw [size, behind more, ← length]
      · rw [one] at length ⊢
        rw [size, codeSize_second length.symm]
    unfold Keys.ScansWhole
    omega
  obtain ⟨code', complete', start', out, ring', part'⟩ := ring.scan (by omega) whole
  obtain rfl := complete'.unique complete start' start
  have next : k.scan = { k with machine := (kbScanCode k.machine).2, returned := k.returned ++ [code'] } := by
    unfold Keys.scan
    dsimp only
    rw [out, if_neg complete.1]
  exact ⟨_, .scan whole, by rw [next]; exact ⟨ring', part'.trans part, pending, lost⟩, by rw [next]⟩

/-- A code of two bytes and a code of one come, and `kb_scan_code` is called twice. -/
theorem codes_come_out_whole_two_keys : ∃ s fuel m k, Sound lowHead (.boot s) [] ∧
    kbInit lowHead.addr fuel (.started (.boot s)) = some (none, m) ∧
    ReflTransGen (KeyStep Keys.TakesWhole Keys.ScansWhole) (.start m) k ∧
      k.returned = [[0xe0, 0x48], [0x1e]] ∧ WholeCodes k := by
  obtain ⟨s, fuel, m, sound, initialised⟩ := kbInit_threeMegabytes
  obtain ⟨base, inv⟩ := inv_of_init sound rfl initialised
  have fresh : m.kb.part = [] := by
    obtain ⟨-, bytes⟩ | ⟨n, lost, -⟩ := inv.bytes
    · exact bytes
    · cases lost
  have comes₀ : (Keys.start m).Comes base [] 0 [] := ⟨inv.ring, fresh, rfl, rfl⟩
  obtain ⟨k₁, step₁, comes₁, returned₁⟩ := @Keys.Comes.waits _ _ _ base 0 0xe0 comes₀ (by decide) (by decide)
  obtain ⟨k₂, step₂, comes₂, returned₂⟩ := @Keys.Comes.ends _ _ _ base 0 0x48 comes₁ (by decide) (by decide) (by decide)
  obtain ⟨k₃, step₃, comes₃, returned₃⟩ := @Keys.Comes.ends _ _ _ base 0 0x1e comes₂ (by decide) (by decide) (by decide)
  obtain ⟨k₄, step₄, comes₄, returned₄⟩ :=
    comes₃.scan (show Complete [0xe0, 0x48] by decide) (by decide) (.inl (by decide))
  obtain ⟨k₅, step₅, -, returned₅⟩ := comes₄.scan (show Complete [0x1e] by decide) (by decide) (.inr rfl)
  have run := ((((ReflTransGen.single step₁).tail step₂).tail step₃).tail step₄).tail step₅
  refine ⟨s, fuel, m, k₅, sound, initialised, run, ?_, (codes_come_out_whole sound rfl initialised run).1⟩
  rw [returned₅, returned₄, returned₃, returned₂, returned₁]
  rfl

/-- A byte with which the code goes on, under no condition. -/
theorem byte_goesOn (k : Keys) (irq v : UInt8) (goesOn : ¬ Complete (k.pending ++ [v])) : ∃ k',
    KeyStep (fun _ _ => True) (fun _ => True) k k' ∧ k'.machine = kbInterruptHandler irq (fun _ => v) k.machine ∧
      k'.received = k.received ∧ k'.pending = k.pending ++ [v] ∧ k'.returned = k.returned := by
  refine ⟨k.byte irq fun _ => v, .byte trivial, ?_⟩
  unfold Keys.byte Keys.push
  dsimp only
  rw [if_neg goesOn]
  exact ⟨rfl, rfl, rfl, rfl⟩

/-- The first three bytes of a code of four are stored without the fourth. -/
theorem stored_in_parts (ring : KbRing base [] 0 m) (fresh : m.kb.part = []) : ∃ k,
    ReflTransGen (KeyStep (fun _ _ => True) fun _ => True) (.start m) k ∧
      k.received = [] ∧ k.pending = [0xe0, 0x2a, 0xe0] ∧ k.returned = [] ∧
      KbRing base [0xe0, 0x2a, 0xe0] 0 k.machine := by
  obtain ⟨ring₁, part₁⟩ := @KbRing.waits m [] [] base 0 picKeyboardIrq (fun _ => 0xe0) ring fresh (by decide)
  obtain ⟨ring₂, part₂⟩ := @KbRing.waits _ [0xe0] [] base 0 picKeyboardIrq (fun _ => 0x2a) ring₁ part₁ (by decide)
  obtain ⟨waits, -⟩ | ⟨-, -, ⟨-, ring₃⟩ | ⟨refuses, -⟩⟩ :=
    @KbRing.handler _ [0xe0, 0x2a, 0xe0] [] base 0 picKeyboardIrq (fun _ => 0xe0) ring₂ (by rw [part₂]; rfl)
  · exact absurd waits (by decide)
  · obtain ⟨k₁, step₁, machine₁, received₁, pending₁, returned₁⟩ :=
      byte_goesOn (.start m) picKeyboardIrq 0xe0 (show ¬ Complete [0xe0] by decide)
    change k₁.pending = [0xe0] at pending₁
    obtain ⟨k₂, step₂, machine₂, received₂, pending₂, returned₂⟩ :=
      byte_goesOn k₁ picKeyboardIrq 0x2a (by rw [pending₁]; decide)
    rw [pending₁] at pending₂
    obtain ⟨k₃, step₃, machine₃, received₃, pending₃, returned₃⟩ :=
      byte_goesOn k₂ picKeyboardIrq 0xe0 (by rw [pending₂]; decide)
    refine ⟨k₃, ((ReflTransGen.single step₁).tail step₂).tail step₃, ?_, ?_, ?_, ?_⟩
    · rw [received₃, received₂, received₁]
      rfl
    · rw [pending₃, pending₂]
      rfl
    · rw [returned₃, returned₂, returned₁]
      rfl
    · rw [machine₃, machine₂, machine₁]
      exact ring₃
  · have full := refuses.2
    rw [ring₂.count, part₂] at full
    exact absurd full (by decide)

/-- Three bytes of a code of four have come, and `kb_scan_code` returns four: no code was received, and the
count is -1. -/
theorem code_of_three_bytes : ∃ s fuel m k, Sound lowHead (.boot s) [] ∧
    kbInit lowHead.addr fuel (.started (.boot s)) = some (none, m) ∧
    ReflTransGen (KeyStep (fun _ _ => True) fun _ => True) (.start m) k ∧
      k.received = [] ∧ k.pending = [0xe0, 0x2a, 0xe0] ∧ (k.returned.map List.length) = [4] ∧
      k.machine.kb.count = -1 ∧ ¬ WholeCodes k := by
  obtain ⟨s, fuel, m, sound, initialised⟩ := kbInit_threeMegabytes
  obtain ⟨base, inv⟩ := inv_of_init sound rfl initialised
  have fresh : m.kb.part = [] := by
    obtain ⟨-, bytes⟩ | ⟨n, lost, -⟩ := inv.bytes
    · exact bytes
    · cases lost
  obtain ⟨k, run, received, pending, returned, ring⟩ := stored_in_parts inv.ring fresh
  have size : k.machine.kbScanSize = 4 := by
    obtain ⟨second, size, behind⟩ := ring.scanSize (by decide)
    rw [size, behind (by decide)]
    rfl
  have count : k.scan.machine.kb.count = -1 := by
    rw [scan_machine, kbScanCode_count, size, ring.count]
    rfl
  have out : (kbScanCode k.machine).1.length = 4 := kbScanCode_length.trans size
  refine ⟨s, fuel, m, k.scan, sound, initialised, run.tail (.scan trivial), received, pending, ?_, count,
    fun whole => ?_⟩
  · unfold Keys.scan
    dsimp only
    rw [if_neg fun empty => absurd (empty ▸ out) (by decide), returned, List.nil_append, List.map_singleton, out]
  · have low := whole.count.1
    rw [count] at low
    exact absurd low (by decide)

end AtaKernel.Drivers
