import AtaKernel.Boot.SameZone

/-! Step 7 of the boot loader: the blocks of the kernel go one behind the other
from `KERNEL_BASE` on. Each is loaded into the buffer and copied from there, to a
segment and an offset that are worked out from its linear address. -/
namespace AtaKernel.Boot
open ByteMemory StateProgram Minix

/-! ## The loop -/

def currentZoneIndex : UInt16 := 0x0550
def currentZoneBytes : UInt16 := 0x0552
def kernelBase : UInt16 := 0x1000

section Code

variable {σ : Type}

/-- `movsb`, with the direction flag clear, and the count of `rep`. -/
def movsb (m : Machine σ) : Machine σ :=
  let m := m.setByte m.es m.di (UInt8.ofNat (load m.memory (linear m.ds m.si) 1))
  { m with si := m.si + 1, di := m.di + 1, ecx := setLow m.ecx (m.ecx.toUInt16 - 1) }

def repeatMovsb : Nat → Machine σ → Machine σ
  | 0, m => m
  | n + 1, m => repeatMovsb n (movsb m)

/-- `rep movsb` -/
def repMovsb (m : Machine σ) : Machine σ := repeatMovsb m.ecx.toUInt16.toNat m

/-- The start of the zone in EAX and the size of the file in EBX. -/
def lkZone (m : Machine σ) : Machine σ :=
  let m := { m with eax := setLow m.eax (m.word m.ds currentZoneIndex) }
  let m := { m with eax := (m.eax &&& 0x0000ffff) <<< 10 }
  let m := m.setDword m.ds currentZoneBytes m.eax
  { m with ebx := m.dword m.ds inodeSize }

/-- Where the block goes, in ES:DI. -/
def lkTarget (m : Machine σ) : Machine σ :=
  let m := { m with eax := m.dword m.ds currentZoneBytes }
  let m := { m with ebx := setLow m.ebx kernelBase }
  let m := { m with ebx := m.ebx &&& 0x0000ffff }
  let m := { m with eax := m.eax + m.ebx }
  let m := { m with di := m.eax.toUInt16 }
  let m := { m with di := m.di &&& 0x000f }
  let m := { m with eax := m.eax &&& 0x000ffff0 }
  let m := { m with eax := m.eax >>> 4 }
  { m with es := m.eax.toUInt16 }

def lkCopy (m : Machine σ) : Machine σ :=
  repMovsb { m with si := bufferBase, ecx := setLow m.ecx 1024 }

/-- `current_zone_index ++` -/
def lkNext (m : Machine σ) : Machine σ :=
  let m := { m with eax := setLow m.eax (m.word m.ds currentZoneIndex) }
  let m := { m with eax := setLow m.eax (m.eax.toUInt16 + 1) }
  m.setWord m.ds currentZoneIndex m.eax.toUInt16

variable (int13 : Machine σ → Machine σ) (back : Nat → UInt16)

/-- A round of `_outer_loop_2`. -/
def outerLoop2 (_ : Unit) : Vbr σ (Unit ⊕ Unit) := do
  modify lkZone
  let m ← get
  if m.ebx.toInt32 ≤ m.eax.toInt32 then pure (.inr ())
  else do
    callLoadZone int13 back (m.word m.ds currentZoneIndex)
    modify lkTarget
    modify lkCopy
    modify lkNext
    pure (.inl ())

end Code

/-! ## Copying -/

variable {σ : Type} {int13 : Machine σ → Machine σ} {drive : UInt8} {disk : Nat → UInt8} {inode : Inode}
  {first : UInt32} {m m' : Machine σ} {b : Nat}

theorem linear_lt (segment offset : UInt16) : linear segment offset < 2 ^ 21 := by
  have high := segment.toNat_lt
  have low := offset.toNat_lt
  unfold linear
  omega

theorem linear_succ {segment offset : UInt16} (room : offset.toNat + 1 < 2 ^ 16) :
    linear segment (offset + 1) = linear segment offset + 1 := by
  have next : (offset + 1).toNat = offset.toNat + 1 := by
    rw [UInt16.toNat_add]
    exact Nat.mod_eq_of_lt room
  unfold linear
  omega

theorem movsb_memory (m : Machine σ) (x : Nat) : (movsb m).memory x =
    if x = linear m.es m.di then m.memory (linear m.ds m.si) else m.memory x := by
  have source := linear_lt m.ds m.si
  have target := linear_lt m.es m.di
  change store m.memory (linear m.es m.di) 1 _ x = _
  split
  · next here =>
    rw [here]
    change store8 m.memory (linear m.es m.di) _ _ = _
    rw [store8, cell_low (by omega), Function.update_self, UInt8.ofNat_toNat, load, load, load8_low (by omega)]
    apply UInt8.toNat_inj.mp
    rw [UInt8.toNat_ofNat']
    exact Nat.mod_eq_of_lt (m.memory (linear m.ds m.si)).toNat_lt
  · next other => exact store_away (by omega) (by omega)

/-- `rep movsb` between two places that do not overlap and do not wrap. -/
theorem repeatMovsb_copies {n : Nat} (source : m.si.toNat + n < 2 ^ 16) (target : m.di.toNat + n < 2 ^ 16)
    (apart : linear m.ds m.si + n ≤ linear m.es m.di ∨ linear m.es m.di + n ≤ linear m.ds m.si) (x : Nat) :
    (repeatMovsb n m).memory x =
      if linear m.es m.di ≤ x ∧ x < linear m.es m.di + n then m.memory (linear m.ds m.si + (x - linear m.es m.di))
      else m.memory x := by
  induction n generalizing m with
  | zero => rw [repeatMovsb, if_neg (by omega)]
  | succ n ih =>
    have left : m.si.toNat + 1 < 2 ^ 16 := by omega
    have right : m.di.toNat + 1 < 2 ^ 16 := by omega
    have from_ : linear (movsb m).ds (movsb m).si = linear m.ds m.si + 1 := linear_succ left
    have upto : linear (movsb m).es (movsb m).di = linear m.es m.di + 1 := linear_succ right
    have si : (movsb m).si.toNat = m.si.toNat + 1 := by
      change (m.si + 1).toNat = _
      rw [UInt16.toNat_add]
      exact Nat.mod_eq_of_lt left
    have di : (movsb m).di.toNat = m.di.toNat + 1 := by
      change (m.di + 1).toNat = _
      rw [UInt16.toNat_add]
      exact Nat.mod_eq_of_lt right
    rw [repeatMovsb, ih (by omega) (by omega) (by omega), from_, upto]
    by_cases first : x = linear m.es m.di
    · rw [if_neg (by omega), movsb_memory, if_pos first, if_pos (by omega), first, Nat.sub_self, Nat.add_zero]
    by_cases inside : linear m.es m.di ≤ x ∧ x < linear m.es m.di + (n + 1)
    · rw [if_pos (by omega), if_pos inside, movsb_memory, if_neg (by omega),
        show linear m.ds m.si + 1 + (x - (linear m.es m.di + 1)) = linear m.ds m.si + (x - linear m.es m.di) by omega]
    · rw [if_neg (by omega), if_neg inside, movsb_memory, if_neg first]

/-- What the copying leaves alone. -/
theorem repeatMovsb_keeps (n : Nat) (m : Machine σ) : (repeatMovsb n m).bp = m.bp ∧ (repeatMovsb n m).sp = m.sp ∧
    (repeatMovsb n m).ds = m.ds ∧ (repeatMovsb n m).es = m.es ∧ (repeatMovsb n m).ss = m.ss ∧
    (repeatMovsb n m).requests = m.requests := by
  induction n generalizing m with
  | zero => exact ⟨rfl, rfl, rfl, rfl, rfl, rfl⟩
  | succ n ih => exact ih (movsb m)

/-! ## A round -/

/-- A linear address below 1 MB by its segment and its offset. -/
theorem linear_split {a : UInt32} (small : a.toNat < 2 ^ 20) :
    linear ((a &&& 0x000ffff0) >>> 4).toUInt16 (a.toUInt16 &&& 0x000f) = a.toNat ∧
      (a.toUInt16 &&& 0x000f).toNat < 16 := by
  have offset : (a.toUInt16 &&& 0x000f).toNat = a.toNat % 16 := by
    rw [UInt16.toNat_and, UInt32.toNat_toUInt16, show (0x000f : UInt16).toNat = 2 ^ 4 - 1 from rfl,
      Nat.and_two_pow_sub_one_eq_mod]
    omega
  have segment : (((a &&& 0x000ffff0) >>> 4).toUInt16).toNat = a.toNat / 16 := by
    rw [UInt32.toNat_toUInt16, UInt32.toNat_shiftRight, UInt32.toNat_and, show (4 : UInt32).toNat % 32 = 4 from rfl,
      Nat.shiftRight_and_distrib, show (0x000ffff0 : UInt32).toNat >>> 4 = 2 ^ 16 - 1 from rfl,
      Nat.and_two_pow_sub_one_eq_mod, Nat.shiftRight_eq_div_pow]
    omega
  unfold linear
  omega

theorem lkZone_eq (ds : m.ds = 0) (index : m.word 0 currentZoneIndex = UInt16.ofNat b) (low : b < 2 ^ 16) :
    lkZone m = { m with
      eax := UInt32.ofNat (1024 * b)
      ebx := m.dword 0 inodeSize
      memory := store m.memory 0x552 4 (1024 * b) } := by
  have bytes : (setLow m.eax (UInt16.ofNat b) &&& 0x0000ffff) <<< 10 = UInt32.ofNat (1024 * b) := by
    apply UInt32.toNat_inj.mp
    rw [setLow_and, UInt32.toNat_shiftLeft, UInt16.toNat_toUInt32, UInt16.toNat_ofNat', UInt32.toNat_ofNat',
      show (10 : UInt32).toNat % 32 = 10 from rfl, Nat.shiftLeft_eq]
    omega
  have value : (UInt32.ofNat (1024 * b)).toNat = 1024 * b := by
    rw [UInt32.toNat_ofNat']
    exact Nat.mod_eq_of_lt (by omega)
  have size : ({ m with eax := UInt32.ofNat (1024 * b), memory := store m.memory 0x552 4 (1024 * b) } :
      Machine σ).dword 0 inodeSize = m.dword 0 inodeSize :=
    dword_congr fun i low => store_away (by decide) (by left; change 0x520 + i < 0x552; omega)
  rw [← size]
  obtain ⟨⟩ := m
  dsimp only at ds
  subst ds
  simp only [lkZone, index, bytes, Machine.setDword, value, linear_zero]
  rfl

/-- The block in the buffer goes to its place behind `KERNEL_BASE`. -/
theorem lkCopy_copies (ds : m.ds = 0) (bytes : m.dword 0 currentZoneBytes = UInt32.ofNat (1024 * b))
    (low : 0x1000 + 1024 * b < 2 ^ 20) :
    (lkCopy (lkTarget m)).ds = m.ds ∧ (lkCopy (lkTarget m)).ss = m.ss ∧ (lkCopy (lkTarget m)).sp = m.sp ∧
      ∀ x, (lkCopy (lkTarget m)).memory x =
        if 0x1000 + 1024 * b ≤ x ∧ x < 0x1000 + 1024 * b + 1024 then m.memory (0x600 + (x - (0x1000 + 1024 * b)))
        else m.memory x := by
  have base : kernelBase.toUInt32 = 0x1000 := rfl
  have place : (UInt32.ofNat (1024 * b) + 0x1000).toNat = 0x1000 + 1024 * b := by
    rw [UInt32.toNat_add, UInt32.toNat_ofNat', show (0x1000 : UInt32).toNat = 0x1000 from rfl]
    omega
  obtain ⟨target, offset⟩ := linear_split (show (UInt32.ofNat (1024 * b) + 0x1000).toNat < 2 ^ 20 by omega)
  rw [place] at target
  have aimed : (lkTarget m).ds = m.ds ∧ (lkTarget m).ss = m.ss ∧ (lkTarget m).sp = m.sp ∧
      (lkTarget m).memory = m.memory ∧
      (lkTarget m).es = ((UInt32.ofNat (1024 * b) + 0x1000 &&& 0x000ffff0) >>> 4).toUInt16 ∧
      (lkTarget m).di = (UInt32.ofNat (1024 * b) + 0x1000).toUInt16 &&& 0x000f := by
    rw [← bytes, ← ds, ← base, ← setLow_and m.ebx kernelBase]
    exact ⟨rfl, rfl, rfl, rfl, rfl, rfl⟩
  generalize lkTarget m = t at aimed ⊢
  obtain ⟨ds', ss, sp, memory, es, di⟩ := aimed
  rw [← es, ← di] at target
  rw [← di] at offset
  have count : (setLow t.ecx 1024).toUInt16.toNat = 1024 := by
    rw [setLow_toUInt16]
    rfl
  have copy : lkCopy t = repeatMovsb 1024 { t with si := bufferBase, ecx := setLow t.ecx 1024 } := by
    rw [← count]
    rfl
  have source : linear t.ds bufferBase = 0x600 := by
    rw [ds', ds]
    rfl
  obtain ⟨-, spKept, dsKept, -, ssKept, -⟩ :=
    repeatMovsb_keeps 1024 { t with si := bufferBase, ecx := setLow t.ecx 1024 }
  rw [copy]
  refine ⟨dsKept.trans ds', ssKept.trans ss, spKept.trans sp, fun x => ?_⟩
  have copied := @repeatMovsb_copies _ { t with si := bufferBase, ecx := setLow t.ecx 1024 } 1024
    (show bufferBase.toNat + 1024 < 2 ^ 16 by decide)
    (by change t.di.toNat + 1024 < 2 ^ 16; omega)
    (by change linear t.ds bufferBase + 1024 ≤ linear t.es t.di ∨ _; omega) x
  rw [copied]
  change (if linear t.es t.di ≤ x ∧ x < linear t.es t.di + 1024 then
    t.memory (linear t.ds bufferBase + (x - linear t.es t.di)) else t.memory x) = _
  rw [target, source, memory]

theorem lkNext_keeps (ds : m.ds = 0) (index : m.word 0 currentZoneIndex = UInt16.ofNat b) :
    (lkNext m).ds = m.ds ∧ (lkNext m).ss = m.ss ∧ (lkNext m).sp = m.sp ∧
      (lkNext m).memory = store m.memory 0x550 2 (UInt16.ofNat (b + 1)).toNat := by
  refine ⟨rfl, rfl, rfl, ?_⟩
  have next : UInt16.ofNat (b + 1) = UInt16.ofNat b + 1 := UInt16.ofNat_add b 1
  rw [next]
  obtain ⟨⟩ := m
  dsimp only at ds
  subst ds
  simp only [lkNext, index, setLow_toUInt16, Machine.setWord, linear_zero]
  rfl

/-! ## The file -/

/-- Byte `x` of the file: in the block that the slot of block `x / 1024` leads to. -/
def fileByte (disk : Nat → UInt8) (first : UInt32) (inode : Inode) (x : Nat) : UInt8 :=
  disk (512 * (zoneLba first (zoneOnDisk disk first inode (dataSlot (x / 1024)))).toNat + x % 1024)

/-- Neither in a variable of the loop, nor in the packet, the buffer or the part of the stack in use,
nor in the first `n` blocks from `KERNEL_BASE` on. -/
def OutsideLoad (n x : Nat) : Prop :=
  x < 0x500 ∨ (0x510 ≤ x ∧ x < 0x550) ∨ (0x556 ≤ x ∧ x < 0x600) ∨ (0xa00 ≤ x ∧ x < 0xfec) ∨ 0x1000 + 1024 * n ≤ x

/-- The first `n` blocks of the file are loaded. -/
structure BlocksLoaded {σ : Type} (drive : UInt8) (disk : Nat → UInt8) (first : UInt32) (inode : Inode)
    (start : Machine σ) (n : Nat) (m : Machine σ) : Prop extends Ready drive inode first m where
  sp : m.sp = stackTop
  index : m.word 0 currentZoneIndex = UInt16.ofNat n
  blocks : ∀ x < 1024 * n, m.memory (0x1000 + x) = fileByte disk first inode x
  away : ∀ x, OutsideLoad n x → m.memory x = start.memory x

/-- Whether a round is made: the compare is right for a file of this size. -/
theorem lkZone_compare {size : UInt32} (small : size.toNat < 2 ^ 31) (low : 1024 * b < 2 ^ 31) :
    size.toInt32 ≤ (UInt32.ofNat (1024 * b)).toInt32 ↔ size.toNat ≤ 1024 * b := by
  have value : (UInt32.ofNat (1024 * b)).toNat = 1024 * b := by
    rw [UInt32.toNat_ofNat']
    exact Nat.mod_eq_of_lt (by omega)
  rw [Int32.le_iff_toInt_le, toInt32_small small, toInt32_small (by omega), value]
  omega

theorem outerLoop2_round (bios : LoadsSectors int13 drive disk) (back : Nat → UInt16) {start : Machine σ}
    (loaded : BlocksLoaded drive disk first inode start b m) (size : inode.iSize.toNat ≤ 623104)
    (more : 1024 * b < inode.iSize.toNat) :
    ∃ m', outerLoop2 int13 back () m = .ok (.inl ()) m' ∧ BlocksLoaded drive disk first inode start (b + 1) m' := by
  have zone := lkZone_eq loaded.ds loaded.index (by omega)
  rw [loaded.size] at zone
  generalize enter : lkZone m = m₁ at zone
  have kept : m₁.ds = m.ds ∧ m₁.ss = m.ss ∧ m₁.sp = m.sp ∧ m₁.memory = store m.memory 0x552 4 (1024 * b) := by
    rw [zone]
    exact ⟨rfl, rfl, rfl, rfl⟩
  obtain ⟨ds₁, ss₁, sp₁, memory₁⟩ := kept
  have goes : ¬ m₁.ebx.toInt32 ≤ m₁.eax.toInt32 := by
    rw [zone]
    change ¬ inode.iSize.toInt32 ≤ (UInt32.ofNat (1024 * b)).toInt32
    rw [lkZone_compare (by omega) (by omega)]
    omega
  have outside₁ {x : Nat} (away : x < 0x552 ∨ 0x556 ≤ x) : m₁.memory x = m.memory x := by
    rw [memory₁, store_away (by decide) away]
  have ready₁ : Ready drive inode first m₁ := loaded.keep ds₁ ss₁ fun x here => outside₁ (by omega)
  have index₁ : m₁.word m₁.ds currentZoneIndex = UInt16.ofNat b := by
    rw [ready₁.ds, ← loaded.index]
    exact word_congr fun i low => outside₁ (by left; change 0x550 + i < 0x552; omega)
  obtain ⟨m₂, way, run, zoned⟩ := callLoadZone_loads bios back ready₁ (sp₁.trans loaded.sp)
    (show inode.iSize.toNat ≤ 2 ^ 25 by omega) (show b * 1024 < inode.iSize.toNat by omega)
  have top : m₁.sp.toNat = 0x1000 := congrArg UInt16.toNat (sp₁.trans loaded.sp)
  have outside₂ {x : Nat} (packet_ : x < 0x500 ∨ 0x510 ≤ x) (buffer_ : x < 0x600 ∨ 0xa00 ≤ x)
      (stack : x < 0xfec ∨ 0x1000 ≤ x) : m₂.memory x = m₁.memory x :=
    zoned.away x packet_ buffer_ (by omega)
  have bytes₂ : m₂.dword 0 currentZoneBytes = UInt32.ofNat (1024 * b) := by
    have same : m₂.dword 0 currentZoneBytes = m₁.dword 0 currentZoneBytes := dword_congr fun i low =>
      have place : currentZoneBytes.toNat = 0x552 := rfl
      outside₂ (by omega) (by omega) (by omega)
    rw [same, Machine.dword, memory₁]
    change UInt32.ofNat (load (store m.memory 0x552 4 (1024 * b)) 0x552 4) = _
    rw [load_store_same _ _ _ (by decide), Nat.mod_eq_of_lt (by omega)]
  obtain ⟨ds₃, ss₃, sp₃, memory₃⟩ := lkCopy_copies (zoned.ds.trans ready₁.ds) bytes₂
    (show 0x1000 + 1024 * b < 2 ^ 20 by omega)
  generalize copied : lkCopy (lkTarget m₂) = m₃ at ds₃ ss₃ sp₃ memory₃
  have outside₃ {x : Nat} (away : OutsideLoad (b + 1) x ∨ (0x550 ≤ x ∧ x < 0x552)) : m₃.memory x = m.memory x := by
    unfold OutsideLoad at away
    rw [memory₃, if_neg (by omega), outside₂ (by omega) (by omega) (by omega), outside₁ (by omega)]
  have ready₃ : Ready drive inode first m₃ := loaded.keep (ds₃.trans (zoned.ds.trans ds₁))
    (ss₃.trans (zoned.ss.trans ss₁)) fun x here => outside₃ (by unfold OutsideLoad; omega)
  have index₃ : m₃.word 0 currentZoneIndex = UInt16.ofNat b := by
    rw [← loaded.index]
    exact word_congr fun i low => outside₃ (.inr (by change 0x550 ≤ 0x550 + i ∧ 0x550 + i < 0x552; omega))
  obtain ⟨ds₄, ss₄, sp₄, memory₄⟩ := lkNext_keeps ready₃.ds index₃
  have outside₄ {x : Nat} (away : OutsideLoad (b + 1) x) : (lkNext m₃).memory x = m.memory x := by
    rw [memory₄, store_away (by decide) (by unfold OutsideLoad at away; omega), outside₃ (.inl away)]
  refine ⟨lkNext m₃, ?_, { ready₃.keep ds₄ ss₄ fun x here => ?_ with
    sp := ?_, index := ?_, blocks := fun x low => ?_, away := fun x away => ?_ }⟩
  · unfold outerLoop2
    rw [modify_bind, enter, get_bind, if_neg goes, index₁, bind_of_ok run, modify_bind, modify_bind, copied,
      modify_bind]
    rfl
  · rw [memory₄, store_away (by decide) (by omega)]
  · exact sp₄.trans (sp₃.trans (zoned.sp.trans (sp₁.trans loaded.sp)))
  · rw [Machine.word, memory₄]
    exact stored_word
  · rw [memory₄, store_away (by decide) (by omega), memory₃]
    by_cases new : 1024 * b ≤ x
    · rw [if_pos (by omega), Nat.add_sub_add_left, zoned.buffer _ (by omega), fileByte,
        show x / 1024 = b by omega, show x % 1024 = x - 1024 * b by omega]
    · rw [if_neg (by omega), outside₂ (by omega) (by omega) (by omega), outside₁ (by omega),
        loaded.blocks x (by omega)]
  · rw [outside₄ away, loaded.away x (by unfold OutsideLoad at away ⊢; omega)]

theorem outerLoop2_last (back : Nat → UInt16) {start : Machine σ}
    (loaded : BlocksLoaded drive disk first inode start b m) (past : inode.iSize.toNat ≤ 1024 * b) (low : b < 2 ^ 16) :
    ∃ m' : Machine σ, outerLoop2 int13 back () m = .ok (.inr ()) m' ∧
      ∀ x, x < 0x552 ∨ 0x556 ≤ x → m'.memory x = m.memory x := by
  have zone := lkZone_eq loaded.ds loaded.index low
  rw [loaded.size] at zone
  refine ⟨lkZone m, ?_, fun x away => ?_⟩
  · unfold outerLoop2
    rw [modify_bind, get_bind, if_pos]
    · rfl
    · rw [zone]
      exact (lkZone_compare (show inode.iSize.toNat < 2 ^ 31 by omega) (by omega)).mpr past
  · rw [zone]
    exact store_away (by decide) away

/-- Both loops start from block 0, which they write to their index and nowhere else. -/
theorem Ready.rewound (ready : Ready drive inode first m) :
    Ready drive inode first (m.setWord m.ds currentZoneIndex 0) ∧
      (m.setWord m.ds currentZoneIndex 0).word 0 currentZoneIndex = UInt16.ofNat 0 ∧
      ∀ x, x < 0x550 ∨ 0x552 ≤ x → (m.setWord m.ds currentZoneIndex 0).memory x = m.memory x := by
  have memory : (m.setWord m.ds currentZoneIndex 0).memory = store m.memory 0x550 2 (0 : UInt16).toNat := by
    rw [ready.ds]
    rfl
  have outside (x : Nat) (away : x < 0x550 ∨ 0x552 ≤ x) :
      (m.setWord m.ds currentZoneIndex 0).memory x = m.memory x := by
    rw [memory, store_away (by decide) away]
  refine ⟨ready.keep rfl rfl fun x here => outside x (by omega), ?_, outside⟩
  rw [Machine.word, memory]
  exact stored_word

/-- `_outer_loop_2` ends with the whole file behind `KERNEL_BASE`, and has changed nothing but its
variables, the packet, the buffer, the stack in use and the place of the file. -/
theorem kernel_loaded (bios : LoadsSectors int13 drive disk) (back : Nat → UInt16)
    (ready : Ready drive inode first m) (sp : m.sp = stackTop) (size : inode.iSize.toNat ≤ 623104) :
    ∃ m', Ends (outerLoop2 int13 back) () (m.setWord m.ds currentZoneIndex 0) (.ok () m') ∧
      (∀ b, b * 1024 < inode.iSize.toNat → ∀ i < 1024,
        m'.memory (kernelBase.toNat + 1024 * b + i) =
          disk (512 * (zoneLba first (zoneOnDisk disk first inode (dataSlot b))).toNat + i)) ∧
      (∀ x < inode.iSize.toNat, m'.memory (kernelBase.toNat + x) = fileByte disk first inode x) ∧
      ∀ x, OutsideLoad ((inode.iSize.toNat + 1023) / 1024) x → m'.memory x = m.memory x := by
  obtain ⟨n, blocks⟩ : ∃ n, (inode.iSize.toNat + 1023) / 1024 = n := ⟨_, rfl⟩
  obtain ⟨kept, index, outside⟩ := ready.rewound
  have none_ : BlocksLoaded drive disk first inode m 0 (m.setWord m.ds currentZoneIndex 0) :=
    { kept with
      sp := sp, index := index, blocks := fun x low => absurd low (by omega)
      away := fun x away => outside x (by unfold OutsideLoad at away; omega) }
  have steps : ∀ i < n, ∀ (u : Unit) (m₁ : Machine σ), BlocksLoaded drive disk first inode m i m₁ →
      ∃ u' m₂, outerLoop2 int13 back u m₁ = .ok (.inl u') m₂ ∧ BlocksLoaded drive disk first inode m (i + 1) m₂ := by
    intro i low u m₁ loaded
    obtain ⟨m₂, run, next⟩ := outerLoop2_round bios back loaded size (by omega)
    exact ⟨(), m₂, run, next⟩
  have last : ∀ (u : Unit) (m₁ : Machine σ), BlocksLoaded drive disk first inode m n m₁ →
      ∃ r, Ends (outerLoop2 int13 back) u m₁ r ∧ ∃ m', r = .ok () m' ∧
        (∀ x < 1024 * n, m'.memory (0x1000 + x) = fileByte disk first inode x) ∧
        ∀ x, OutsideLoad n x → m'.memory x = m.memory x := by
    intro u m₁ loaded
    obtain ⟨m₂, run, same⟩ := outerLoop2_last back loaded (by omega) (by omega)
    refine ⟨_, Ends.done run, m₂, rfl, fun x low => ?_, fun x away => ?_⟩
    · rw [same _ (by omega), loaded.blocks x low]
    · rw [same x (by unfold OutsideLoad at away; omega), loaded.away x away]
  obtain ⟨r, ends, m', rfl, there, away⟩ :=
    Ends.counted (fun i _ m₁ => BlocksLoaded drive disk first inode m i m₁) _ steps last none_
  refine ⟨m', ends, fun b within i low => ?_, fun x low => there x (by omega), fun x => blocks ▸ away x⟩
  change m'.memory (0x1000 + 1024 * b + i) = _
  rw [Nat.add_assoc, there (1024 * b + i) (by omega), fileByte, show (1024 * b + i) / 1024 = b by omega,
    show (1024 * b + i) % 1024 = i by omega]

theorem kernel_loaded_indirect :
    ∃ m', Ends (outerLoop2 (readSectors indirectDisk.img.bytes) fun _ => 0) ()
        (loadingMachine.setWord loadingMachine.ds currentZoneIndex 0) (.ok () m') ∧
      ∀ x < 8192, m'.memory (kernelBase.toNat + x) = fileByte indirectDisk.img.bytes 0 indirectFile x := by
  have ready : Ready 0x80 indirectFile 0 loadingMachine := ⟨rfl, rfl, rfl, by decide, by decide, by decide⟩
  obtain ⟨m', ends, -, file, -⟩ :=
    kernel_loaded (readSectors_loads indirectDisk.img.bytes 0x80) (fun _ => 0) ready rfl (by decide)
  exact ⟨m', ends, file⟩

end AtaKernel.Boot
