import AtaKernel.Memory.Init

/-! The memory map that `kernel_init.asm` asks the BIOS for. INT 0x15 with
EAX = 0xe820 writes one descriptor at ES:DI for each call; the loop keeps those
that pass a test of their length, one behind the other from 0x0600 on, and closes
the list with an entry of zeros. The BIOS is a parameter: a state and what a call
does to the registers and the memory. -/
namespace AtaKernel.Boot
open ByteMemory Memory

/-- The registers that the routine uses, the carry flag and the memory. -/
structure Cpu where
  eax : UInt32
  ebx : UInt32
  ecx : UInt32
  edx : UInt32
  edi : UInt32
  carry : Bool
  memory : Memory

def memMapOffset : UInt16 := 0x0600

/-- 'PAMS' in NASM's order of bytes. -/
def smap : UInt32 := 0x534D4150

def dword (m : Memory) (a : Nat) : UInt32 := UInt32.ofNat (load m a 4)

/-- `mov word di, v`: the upper half of EDI stays. -/
def movDi (edi : UInt32) (v : UInt16) : UInt32 := edi &&& 0xffff0000 ||| v.toUInt32

/-- `rep stosb` with AL = 0, `n` bytes from ES:DI on. -/
def repStosb (m : Memory) (di : UInt16) : Nat → Memory
  | 0 => m
  | n + 1 => repStosb (store8 m di.toNat 0) (di + 1) n

/-- The registers before `int 0x15`. -/
def Cpu.request (cpu : Cpu) : Cpu := { cpu with eax := 0xe820, edx := smap, ecx := 20 }

def mmapError (cpu : Cpu) : Memory := repStosb cpu.memory memMapOffset 20

def mmapDone (cpu : Cpu) : Memory := repStosb cpu.memory cpu.edi.toUInt16 20

def mmapGoodEntry (cpu : Cpu) : Cpu := { cpu with edi := cpu.edi + 20 }

/-- The test of an entry, up to `mmap_next_entry`. -/
def mmapTest (cpu : Cpu) : Cpu :=
  if cpu.ecx = 0 then cpu
  else
    let cpu := { cpu with ecx := dword cpu.memory (cpu.edi.toNat + 8) }
    if cpu.ecx ≠ 0 then mmapGoodEntry cpu
    else
      -- the high part, as the source has it: two bytes of it and two of the type
      let cpu := { cpu with ecx := dword cpu.memory (cpu.edi.toNat + 14) }
      if cpu.ecx ≠ 0 then mmapGoodEntry cpu else cpu

section Bios

variable {σ : Type} (int15 : σ → Cpu → σ × Cpu)

/-- The loop, from the test of an entry on. -/
def mmapTestEntry : Nat → σ → Cpu → Option Memory
  | 0, _, _ => none
  | fuel + 1, bios, cpu =>
    match int15 bios (mmapTest cpu).request with
    | (bios, cpu) =>
      if cpu.carry then some (mmapDone cpu)
      else if cpu.ebx = 0 then some (mmapDone cpu)
      else mmapTestEntry fuel bios cpu

/-- The memory at `mmap_end`; `none` means that the fuel ran out. -/
def mmapInit (fuel : Nat) (bios : σ) (cpu : Cpu) : Option Memory :=
  match int15 bios { cpu.request with ebx := 0, edi := movDi cpu.edi memMapOffset &&& 0x0000ffff } with
  | (bios, cpu) =>
    if cpu.carry then some (mmapError cpu)
    else if cpu.eax ≠ smap then some (mmapError cpu)
    else if cpu.ebx = 0 then some (mmapDone cpu)
    else mmapTestEntry int15 fuel bios cpu

end Bios

/-! ## Lists of descriptors -/

/-- The 20 bytes at `a`. -/
def descriptorAt (m : Memory) (a : Nat) : MemBiosMmapEntry :=
  ⟨UInt64.ofNat (load m a 8), UInt64.ofNat (load m (a + 8) 8), UInt32.ofNat (load m (a + 16) 4)⟩

/-- The descriptors lie one behind the other from `a` on. -/
def Listed (m : Memory) : Nat → List MemBiosMmapEntry → Prop
  | _, [] => True
  | a, d :: ds => descriptorAt m a = d ∧ Listed m (a + 20) ds

/-- The entry that closes a list. -/
def closing : MemBiosMmapEntry := ⟨0, 0, 0⟩

/-- What the test of the length lets pass: the low half, the highest quarter or the low half of the
type is not zero. -/
def Kept (d : MemBiosMmapEntry) : Prop :=
  d.size.toNat % 2 ^ 32 ≠ 0 ∨ d.size.toNat / 2 ^ 48 ≠ 0 ∨ d.type.toNat % 2 ^ 16 ≠ 0

instance (d : MemBiosMmapEntry) : Decidable (Kept d) := inferInstanceAs (Decidable (_ ∨ _ ∨ _))

variable {m m' : Memory} {a x : Nat} {ds es : List MemBiosMmapEntry} {d : MemBiosMmapEntry} {cpu : Cpu}

theorem descriptorAt_congr (same : ∀ i < 20, m' (cell (a + i)) = m (cell (a + i))) :
    descriptorAt m' a = descriptorAt m a := by
  have field : ∀ j n, j + n ≤ 20 → load m' (a + j) n = load m (a + j) n := by
    intro j n fits
    refine load_congr fun i low => ?_
    have here := same (j + i) (by omega)
    rwa [← Nat.add_assoc] at here
  unfold descriptorAt
  rw [field 8 8 (by omega), field 16 4 (by omega), ← Nat.add_zero a, field 0 8 (by omega)]

theorem listed_append : Listed m a (ds ++ es) ↔ Listed m a ds ∧ Listed m (a + 20 * ds.length) es := by
  induction ds generalizing a with
  | nil => simp [Listed]
  | cons d ds ih =>
    have place : a + 20 + 20 * ds.length = a + 20 * (ds.length + 1) := by ring
    simp only [List.cons_append, Listed, ih, List.length_cons, place, and_assoc]

theorem listed_congr (small : a + 20 * ds.length ≤ 2 ^ 32)
    (same : ∀ x, a ≤ x → x < a + 20 * ds.length → m' x = m x) (listed : Listed m a ds) :
    Listed m' a ds := by
  induction ds generalizing a with
  | nil => trivial
  | cons d ds ih =>
    rw [List.length_cons] at small same
    refine ⟨(descriptorAt_congr fun i low => ?_).trans listed.1, ih (by omega) (fun x above below => ?_) listed.2⟩
    · have here : cell (a + i) = a + i := cell_low (by omega)
      rw [here]
      exact same _ (Nat.le_add_right _ _) (by omega)
    · exact same x (by omega) (by omega)

/-- A list is over where the first entry of zeros is. -/
theorem listed_unique (left : Listed m a (ds ++ [closing])) (right : Listed m a (es ++ [closing]))
    (some_ : closing ∉ ds) (some' : closing ∉ es) : ds = es := by
  induction ds generalizing a es with
  | nil =>
    cases es with
    | nil => rfl
    | cons e es => exact absurd (left.1.symm.trans right.1 ▸ List.mem_cons_self) some'
  | cons d ds ih =>
    cases es with
    | nil => exact absurd (right.1.symm.trans left.1 ▸ List.mem_cons_self) some_
    | cons e es =>
      have rest := ih left.2 right.2 (fun inside => some_ (List.mem_cons_of_mem d inside))
        fun inside => some' (List.mem_cons_of_mem e inside)
      rw [rest, show d = e from left.1.symm.trans right.1]

/-! ## The instructions -/

theorem repStosb_apply {n : Nat} {di : UInt16} (fits : di.toNat + n ≤ 2 ^ 16) :
    repStosb m di n x = if di.toNat ≤ x ∧ x < di.toNat + n then 0 else m x := by
  induction n generalizing m di with
  | zero =>
    rw [if_neg (by omega)]
    rfl
  | succ n ih =>
    have here : cell di.toNat = di.toNat := cell_low (by omega)
    rcases Nat.eq_zero_or_pos n with rfl | more
    · rw [repStosb, repStosb, store8, here, Function.update_apply]
      exact if_congr (by omega) rfl rfl
    · have next : (di + 1).toNat = di.toNat + 1 := by
        rw [UInt16.toNat_add]
        exact Nat.mod_eq_of_lt (by change di.toNat + 1 < 2 ^ 16; omega)
      rw [repStosb, ih (by omega), next, store8, here, Function.update_apply]
      by_cases first : x = di.toNat
      · rw [if_neg (by omega), if_pos first, if_pos (by omega)]
      · rw [if_neg first]
        exact if_congr (by omega) rfl rfl

/-- The entry that is cleared is the closing one. -/
theorem descriptorAt_cleared {di : UInt16} (fits : di.toNat + 20 ≤ 2 ^ 16) :
    descriptorAt (repStosb m di 20) di.toNat = closing := by
  have zero_ : ∀ j n, j + n ≤ 20 → load (repStosb m di 20) (di.toNat + j) n = 0 := by
    intro j n within
    refine load_zero fun i low => ?_
    have here : cell (di.toNat + j + i) = di.toNat + j + i := cell_low (by omega)
    rw [here, repStosb_apply fits, if_pos (by omega)]
  unfold descriptorAt
  rw [zero_ 8 8 (by omega), zero_ 16 4 (by omega), show load _ di.toNat 8 = 0 from zero_ 0 8 (by omega)]
  rfl

theorem kept_descriptorAt : Kept (descriptorAt m a) ↔
    dword m (a + 8) ≠ 0 ∨ dword m (a + 14) ≠ 0 := by
  have low := load_lt m (a + 8) 4
  have mid := load_lt m (a + 12) 2
  have high := load_lt m (a + 14) 2
  have kind := load_lt m (a + 16) 2
  have rest := load_lt m (a + 18) 2
  have across := load_lt m (a + 14) 4
  have four : load m (a + 12) 4 = load m (a + 12) 2 + 65536 * load m (a + 14) 2 := load_four m (a + 12)
  have split : load m (a + 14) 4 = load m (a + 14) 2 + 65536 * load m (a + 16) 2 := load_four m (a + 14)
  have size : (UInt64.ofNat (load m (a + 8) 8)).toNat =
      load m (a + 8) 4 + 2 ^ 32 * (load m (a + 12) 2 + 65536 * load m (a + 14) 2) := by
    have eight : load m (a + 8) 8 = load m (a + 8) 4 + 2 ^ 32 * load m (a + 12) 4 := load_eight m (a + 8)
    rw [UInt64.toNat_ofNat', eight, four]
    exact Nat.mod_eq_of_lt (by omega)
  have type : (UInt32.ofNat (load m (a + 16) 4)).toNat =
      load m (a + 16) 2 + 65536 * load m (a + 18) 2 := by
    have whole : load m (a + 16) 4 = load m (a + 16) 2 + 65536 * load m (a + 18) 2 := load_four m (a + 16)
    rw [UInt32.toNat_ofNat', whole]
    exact Nat.mod_eq_of_lt (by omega)
  have word : ∀ n < 2 ^ 32, (UInt32.ofNat n ≠ 0 ↔ n ≠ 0) := by
    intro n small
    rw [not_iff_not, ← UInt32.toNat_inj, UInt32.toNat_ofNat', Nat.mod_eq_of_lt small]
    rfl
  unfold Kept descriptorAt dword
  dsimp only
  rw [size, type, word _ (by omega), word _ (by omega), split]
  omega

/-- The test moves the pointer behind an entry that is kept. -/
theorem mmapTest_eq (full : cpu.ecx ≠ 0) : ∃ ecx, mmapTest cpu = { cpu with
    ecx := ecx
    edi := if Kept (descriptorAt cpu.memory cpu.edi.toNat) then cpu.edi + 20 else cpu.edi } := by
  unfold mmapTest
  rw [if_neg full]
  dsimp only
  by_cases low : dword cpu.memory (cpu.edi.toNat + 8) ≠ 0
  · rw [if_pos low, if_pos (kept_descriptorAt.mpr (.inl low))]
    exact ⟨_, rfl⟩
  by_cases high : dword cpu.memory (cpu.edi.toNat + 14) ≠ 0
  · rw [if_neg low, if_pos high, if_pos (kept_descriptorAt.mpr (.inr high))]
    exact ⟨_, rfl⟩
  · rw [if_neg low, if_neg high, if_neg fun kept => (kept_descriptorAt.mp kept).elim low high]
    exact ⟨_, rfl⟩

theorem movDi_clean (edi : UInt32) (v : UInt16) : movDi edi v &&& 0x0000ffff = v.toUInt32 := by
  have apart : (edi &&& 0xffff0000 ||| v.toUInt32) &&& 0x0000ffff =
      (edi &&& 0xffff0000 &&& 0x0000ffff) ||| (v.toUInt32 &&& 0x0000ffff) :=
    UInt32.toBitVec_inj.mp BitVec.and_or_distrib_right
  have high : edi &&& 0xffff0000 &&& 0x0000ffff = 0 := by
    rw [UInt32.and_assoc]
    exact UInt32.and_zero
  rw [movDi, apart, high, UInt32.zero_or]
  apply UInt32.toNat_inj.mp
  rw [UInt32.toNat_and]
  exact Nat.and_two_pow_sub_one_of_lt_two_pow v.toNat_lt

end AtaKernel.Boot
