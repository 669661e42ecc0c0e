import AtaKernel.Boot.DirectorySearch
import AtaKernel.Minix.InodeStore

/-! The steps of the boot loader that load an inode. From the place where the BIOS
puts it, the loader moves out of the way, loads its second half together with the
superblock, and then the inode of the root directory; when the search has found
the kernel, the inode of the kernel takes its place. Both inodes are looked up in
the same table, but the two block numbers are not doubled in the same way. -/
namespace AtaKernel.Boot
open ByteMemory StateProgram Minix

/-! ## The steps -/

def inodesTableBlock : UInt16 := 0x0512
def sbBase : UInt16 := 0x053c
def sbSImapBlocks : UInt16 := sbBase + 4
def sbSZmapBlocks : UInt16 := sbBase + 6
def kernelInodeBlock : UInt16 := 0x055c
def kernelInodeOff : UInt16 := 0x055e
def bufferHalf : UInt16 := bufferBase + 512
def vbrHalf : UInt16 := vbrBase + 512

section Code

variable {σ : Type}

/-- The source in SI, the target in DI, the count in CX, and `rep movsb`. -/
def copyBytes (source target count : UInt16) (m : Machine σ) : Machine σ :=
  repMovsb { m with si := source, di := target, ecx := setLow m.ecx count }

/-- `_relocate`, up to the jump to `main`. -/
def relocate (main : UInt16) (m : Machine σ) : Machine σ :=
  let m := { m with eax := setLow m.eax 0 }
  let m := { m with ds := m.eax.toUInt16 }
  let m := { m with es := m.eax.toUInt16 }
  let m := copyBytes 0x7c00 vbrBase 512 m
  { m with eax := setLow m.eax main }

/-- Step 1 -/
def setRegisters (m : Machine σ) : Machine σ :=
  let m := { m with eax := setLow m.eax 0 }
  let m := { m with ds := m.eax.toUInt16 }
  let m := { m with es := m.eax.toUInt16 }
  let m := { m with ss := m.eax.toUInt16 }
  let m := { m with sp := stackTop }
  let m := { m with bp := m.sp }
  m.setWord m.ds device m.edx.toUInt16

/-- The sector behind the loader's own one in EAX. -/
def nextSector (m : Machine σ) : Machine σ :=
  let m := { m with eax := m.dword m.ds sector }
  { m with eax := m.eax + 1 }

/-- Step 3 -/
def computeTable (m : Machine σ) : Machine σ :=
  let m := { m with eax := setLow m.eax 2 }
  let m := { m with ebx := setLow m.ebx (m.word m.ds sbSImapBlocks) }
  let m := { m with eax := setLow m.eax (m.eax.toUInt16 + m.ebx.toUInt16) }
  let m := { m with ebx := setLow m.ebx (m.word m.ds sbSZmapBlocks) }
  let m := { m with eax := setLow m.eax (m.eax.toUInt16 + m.ebx.toUInt16) }
  m.setWord m.ds inodesTableBlock m.eax.toUInt16

/-- The sector of the table in EAX. The block number is doubled in 32 bits. -/
def tableSector (m : Machine σ) : Machine σ :=
  let m := { m with eax := setLow m.eax (m.word m.ds inodesTableBlock) }
  let m := { m with eax := m.eax &&& 0x0000ffff }
  let m := { m with eax := m.eax <<< 1 }
  let m := { m with ebx := m.dword m.ds sector }
  { m with eax := m.eax + m.ebx }

/-- The block and the slot of the kernel's inode. The division is one of DX:AX by BX. -/
def inodePlace (m : Machine σ) : Machine σ :=
  let m := { m with ebx := setLow m.ebx (m.word m.ds currentDirentryAddr) }
  let m := { m with eax := setLow m.eax (m.word m.ds m.ebx.toUInt16) }
  let m := { m with eax := setLow m.eax (m.eax.toUInt16 - 1) }
  let m := { m with edx := setLow m.edx 0 }
  let m := { m with ebx := setLow m.ebx 32 }
  let ax := m.eax.toUInt16
  let m := { m with eax := setLow m.eax (ax / 32), edx := setLow m.edx (ax % 32) }
  let m := m.setWord m.ds kernelInodeBlock m.eax.toUInt16
  m.setWord m.ds kernelInodeOff m.edx.toUInt16

/-- The sector of the block in EAX. Here it is doubled in 16 bits. -/
def inodeSector (m : Machine σ) : Machine σ :=
  let m := { m with ebx := setLow m.ebx (m.word m.ds inodesTableBlock) }
  let m := { m with eax := setLow m.eax (m.eax.toUInt16 + m.ebx.toUInt16) }
  let m := { m with eax := setLow m.eax (m.eax.toUInt16 <<< 1) }
  let m := { m with eax := m.eax &&& 0x0000ffff }
  let m := { m with ebx := m.dword m.ds sector }
  { m with eax := m.eax + m.ebx }

def copyInode (m : Machine σ) : Machine σ :=
  let m := { m with eax := setLow m.eax (m.word m.ds kernelInodeOff) }
  let m := { m with eax := setLow m.eax (m.eax.toUInt16 <<< 5) }
  let m := { m with ebx := setLow m.ebx bufferBase }
  let m := { m with eax := setLow m.eax (m.eax.toUInt16 + m.ebx.toUInt16) }
  copyBytes m.eax.toUInt16 inodeBase 32 m

variable (int13 : Machine σ → Machine σ) (back : Nat → UInt16)

/-- `push dword eax`, the call and `add sp, 4`. -/
def callLoadSectors (back : UInt16) : Vbr σ Unit := do
  modify fun m => m.pushDword m.eax
  call back (loadSectors int13)
  modify fun m => m.addSp 4

/-- Step 2 -/
def loadSecondHalf : Vbr σ Unit := do
  modify nextSector
  callLoadSectors int13 (back 6)
  modify (copyBytes bufferBase vbrHalf 512)
  modify (copyBytes bufferHalf sbBase 20)

/-- Steps 1 to 4 -/
def loadRootInode : Vbr σ Unit := do
  modify setRegisters
  loadSecondHalf int13 back
  modify computeTable
  modify tableSector
  callLoadSectors int13 (back 7)
  modify (copyBytes bufferBase inodeBase 32)

/-- `_step_6`, up to step 7. -/
def loadKernelInode : Vbr σ Unit := do
  modify inodePlace
  modify inodeSector
  callLoadSectors int13 (back 8)
  modify copyInode

/-- Step 8: the kernel is called. -/
def callKernel (m : Machine σ) : Machine σ :=
  { m with eax := setLow m.eax kernelBase }.push (back 9)

end Code

variable {σ : Type} {int13 : Machine σ → Machine σ} {drive : UInt8} {disk : Nat → UInt8} {inode : Inode}
  {first : UInt32} {m m' : Machine σ}

/-! ## Copies and loads -/

/-- `n` bytes have gone from one place to another, and nothing else has changed in memory. -/
structure Moved {σ : Type} (source target n : Nat) (m m' : Machine σ) : Prop where
  ds : m'.ds = m.ds
  es : m'.es = m.es
  ss : m'.ss = m.ss
  sp : m'.sp = m.sp
  edx : m'.edx = m.edx
  requests : m'.requests = m.requests
  there : ∀ i < n, m'.memory (target + i) = m.memory (source + i)
  away : ∀ x, x < target ∨ target + n ≤ x → m'.memory x = m.memory x

theorem repeatMovsb_edx (n : Nat) (m : Machine σ) : (repeatMovsb n m).edx = m.edx := by
  induction n generalizing m with
  | zero => rfl
  | succ n ih => exact ih (movsb m)

theorem copyBytes_moves (source target count : UInt16) (ds : m.ds = 0) (es : m.es = 0)
    (from_ : source.toNat + count.toNat < 2 ^ 16) (upto : target.toNat + count.toNat < 2 ^ 16)
    (apart : source.toNat + count.toNat ≤ target.toNat ∨ target.toNat + count.toNat ≤ source.toNat) :
    Moved source.toNat target.toNat count.toNat m (copyBytes source target count m) := by
  obtain ⟨c, set_⟩ : ∃ c, ({ m with si := source, di := target, ecx := setLow m.ecx count } : Machine σ) = c := ⟨_, rfl⟩
  have code : copyBytes source target count m = repeatMovsb count.toNat c := by
    rw [← set_]
    unfold copyBytes repMovsb
    rw [setLow_toUInt16]
  have source_ : linear c.ds c.si = source.toNat := by
    rw [← set_]
    exact ds ▸ linear_zero source
  have target_ : linear c.es c.di = target.toNat := by
    rw [← set_]
    exact es ▸ linear_zero target
  have copied :=
    repeatMovsb_copies (m := c) (n := count.toNat) (by rw [← set_]; exact from_) (by rw [← set_]; exact upto)
      (by rw [source_, target_]; exact apart)
  rw [source_, target_] at copied
  obtain ⟨-, sp, ds', es', ss, requests⟩ := repeatMovsb_keeps count.toNat c
  have memory : c.memory = m.memory := by rw [← set_]
  rw [code]
  refine ⟨ds'.trans ?_, es'.trans ?_, ss.trans ?_, sp.trans ?_, (repeatMovsb_edx _ c).trans ?_, requests.trans ?_,
    fun i low => ?_, fun x away => ?_⟩
  iterate 6 rw [← set_]
  · rw [copied, if_pos (by omega), memory, Nat.add_sub_cancel_left]
  · rw [copied, if_neg (by omega), memory]

/-- The block at the sector in EAX is loaded. -/
theorem callLoadSectors_loads (bios : LoadsSectors int13 drive disk) (ds : m.ds = 0) (ss : m.ss = 0)
    (above : 0xa08 ≤ m.sp.toNat) (dl : m.memory 0x510 = drive) (back : UInt16) :
    ∃ m', callLoadSectors int13 back m = .ok () m' ∧ Loaded disk 8 m.eax [] m m' := by
  have four := pushDword_pushed ss (show 4 ≤ m.sp.toNat by omega) m.eax
  have top := pushDword_top ss m.eax
  have down : (m.pushDword m.eax).sp = m.sp - 4 := rfl
  have bp : (m.pushDword m.eax).bp = m.bp := rfl
  generalize start : m.pushDword m.eax = m₁ at four top down bp
  have room := four.sp
  have wide := m.sp.toNat_lt
  have two := push_pushed (four.ss.trans ss) (by omega) back
  have down' : (m₁.push back).sp + 2 = m₁.sp := UInt16.sub_add_cancel _ 2
  have found : (m₁.push back).dword 0 ((m₁.push back).sp + 2) = m.eax := by
    rw [down', ← top]
    exact dword_congr fun i low => two.away _ (by omega)
  have both := four.trans two
  have room' := both.sp
  obtain ⟨m₂, run, loaded⟩ := loadSectors_loads (m := m₁.push back) bios (both.ds.trans ds) (both.ss.trans ss)
    (by omega) (by omega) ((both.away _ (by omega)).trans dl)
  rw [found] at loaded
  refine ⟨(m₂.addSp 2).addSp 4, ?_, loaded.popped both ?_ (loaded.bp.trans bp) rfl rfl rfl rfl rfl⟩
  · unfold callLoadSectors
    rw [modify_bind, start, bind_of_ok (call_of_ok run)]
    rfl
  · change m₂.sp + 2 + 4 = m.sp
    rw [loaded.sp, down', down, UInt16.sub_add_cancel]

/-! ## The loader at its new place -/

/-- The loader stands at `VBR_BASE` with the first `n` bytes of its code, and has the drive and the registers
of step 1. -/
structure Settled {σ : Type} (drive : UInt8) (disk : Nat → UInt8) (first : UInt32) (n : Nat) (m : Machine σ) :
    Prop where
  ds : m.ds = 0
  es : m.es = 0
  ss : m.ss = 0
  sp : m.sp = stackTop
  device : m.memory 0x510 = drive
  code : ∀ i < n, m.memory (0xa00 + i) = disk (512 * first.toNat + i)

/-- On the disk the loader starts at the partition's first sector. It has the number of that sector in its
code, and the name that it looks for at `kernelStr`, in its first half. -/
structure OnDisk (kernelStr : UInt16) (disk : Nat → UInt8) (first : UInt32) : Prop where
  field : ∀ i < 4, disk (512 * first.toNat + (2 + i)) = byteOf first.toNat i
  above : 0xa00 ≤ kernelStr.toNat
  below : kernelStr.toNat + 7 ≤ 0xc00
  text : ∀ k < 7, disk (512 * first.toNat + (kernelStr.toNat - 0xa00 + k)) = kernelText k

variable {t : Tool} {data : Block} {lba : UInt32} {way : List UInt32} {n k source target slot : Nat}
  {kernelStr : UInt16}

theorem Settled.keep (settled : Settled drive disk first n m) (ds : m'.ds = m.ds) (es : m'.es = m.es)
    (ss : m'.ss = m.ss) (sp : m'.sp = m.sp)
    (same : ∀ x, x = 0x510 ∨ (0xa00 ≤ x ∧ x < 0xa00 + n) → m'.memory x = m.memory x) :
    Settled drive disk first n m' where
  ds := ds.trans settled.ds
  es := es.trans settled.es
  ss := ss.trans settled.ss
  sp := sp.trans settled.sp
  device := (same _ (by omega)).trans settled.device
  code i low := (same _ (by omega)).trans (settled.code i low)

theorem Settled.loaded (settled : Settled drive disk first n m) (fits : n ≤ 1024)
    (loaded : Loaded disk 8 lba way m m') : Settled drive disk first n m' := by
  have sp : m.sp.toNat = 0x1000 := congrArg UInt16.toNat settled.sp
  exact settled.keep loaded.ds loaded.es loaded.ss loaded.sp fun x here =>
    loaded.away x (by omega) (by omega) (by omega)

theorem Settled.moved (settled : Settled drive disk first n m) (moved : Moved source target k m m')
    (beside : 0x510 < target) (code : target + k ≤ 0xa00 ∨ 0xa00 + n ≤ target) : Settled drive disk first n m' :=
  settled.keep moved.ds moved.es moved.ss moved.sp fun x here => moved.away x (by omega)

theorem dword_of_bytes {offset : UInt16} {v : UInt32}
    (bytes : ∀ i < 4, m.memory (offset.toNat + i) = byteOf v.toNat i) : m.dword 0 offset = v := by
  have fits := offset.toNat_lt
  have wide := v.toNat_lt
  have byte {i : Nat} (low : i < 4) : (load8 m.memory (offset.toNat + i)).toNat = v.toNat / 256 ^ i % 256 := by
    rw [load8_low (by omega), bytes i low, byteOf_toNat]
  have zero_ := byte (i := 0) (by decide)
  have one := byte (i := 1) (by decide)
  have two := byte (i := 2) (by decide)
  have three := byte (i := 3) (by decide)
  rw [Machine.dword, linear_zero, load_four, load_two, load_two, Nat.add_assoc offset.toNat 2 1, one, two, three]
  rw [Nat.add_zero] at zero_
  rw [zero_]
  apply UInt32.toNat_inj.mp
  rw [UInt32.toNat_ofNat']
  omega

/-- The field with the sector of the partition, once the code is there. -/
theorem Settled.sector (settled : Settled drive disk first n m) (onDisk : OnDisk kernelStr disk first)
    (enough : 6 ≤ n) : m.dword 0 sector = first := by
  refine dword_of_bytes fun i low => ?_
  change m.memory (0xa02 + i) = _
  rw [show 0xa02 + i = 0xa00 + (2 + i) by omega, settled.code _ (by omega), onDisk.field i low]

theorem Settled.text (settled : Settled drive disk first n m) (onDisk : OnDisk kernelStr disk first)
    (enough : 512 ≤ n) (low : k < 7) : m.memory (kernelStr.toNat + k) = kernelText k := by
  have above := onDisk.above
  have below := onDisk.below
  rw [show kernelStr.toNat + k = 0xa00 + (kernelStr.toNat - 0xa00 + k) by omega, settled.code _ (by omega),
    onDisk.text k low]

/-! ### Relocation -/

/-- The BIOS, or a loader in front of this one, has put the partition's first sector at 0x7c00 and jumps to it
with the drive in DL. -/
structure HandedOver {σ : Type} (drive : UInt8) (disk : Nat → UInt8) (first : UInt32) (m : Machine σ) : Prop where
  code : ∀ i < 512, m.memory (0x7c00 + i) = disk (512 * first.toNat + i)
  dl : m.edx.toUInt8 = drive

theorem device_stored (ds : m.ds = 0) : (m.setWord m.ds device m.edx.toUInt16).memory 0x510 = m.edx.toUInt8 ∧
    ∀ x, x < 0x510 ∨ 0x512 ≤ x → (m.setWord m.ds device m.edx.toUInt16).memory x = m.memory x := by
  have memory : (m.setWord m.ds device m.edx.toUInt16).memory = store m.memory 0x510 2 m.edx.toUInt16.toNat := by
    rw [ds]
    rfl
  rw [memory]
  refine ⟨?_, fun x away => store_away (by decide) away⟩
  change load8 (store m.memory 0x510 2 m.edx.toUInt16.toNat) 0x510 = _
  rw [low_byte, load_store_same _ _ _ (by decide)]
  apply UInt8.toNat_inj.mp
  rw [UInt8.toNat_ofNat', UInt32.toNat_toUInt16, UInt32.toNat_toUInt8]
  omega

theorem relocate_settles (handed : HandedOver drive disk first m) (main : UInt16) :
    Settled drive disk first 512 (setRegisters (relocate main m)) := by
  have moved := copyBytes_moves (m := { m with eax := setLow m.eax 0, ds := 0, es := 0 }) 0x7c00 vbrBase 512 rfl rfl
    (by decide) (by decide) (by decide)
  have code : relocate main m = { copyBytes 0x7c00 vbrBase 512 { m with eax := setLow m.eax 0, ds := 0, es := 0 } with
      eax := setLow (copyBytes 0x7c00 vbrBase 512 { m with eax := setLow m.eax 0, ds := 0, es := 0 }).eax main } := by
    simp only [relocate, setLow_toUInt16]
  rw [code]
  generalize copyBytes 0x7c00 vbrBase 512 { m with eax := setLow m.eax 0, ds := 0, es := 0 } = m₁ at moved
  have set_ : setRegisters { m₁ with eax := setLow m₁.eax main } =
      Machine.setWord { m₁ with
        eax := setLow (setLow m₁.eax main) 0, ds := 0, es := 0, ss := 0, sp := stackTop, bp := stackTop } 0 device
        m₁.edx.toUInt16 := by
    simp only [setRegisters, setLow_toUInt16]
  obtain ⟨stored, away⟩ := device_stored (m := { m₁ with
    eax := setLow (setLow m₁.eax main) 0, ds := 0, es := 0, ss := 0, sp := stackTop, bp := stackTop }) rfl
  rw [set_]
  refine ⟨rfl, rfl, rfl, rfl, stored.trans ?_, fun i low => ?_⟩
  · change m₁.edx.toUInt8 = drive
    rw [moved.edx]
    exact handed.dl
  · rw [away _ (by omega)]
    exact (moved.there i low).trans (handed.code i low)

/-! ## The inode of the root directory -/

/-- The inode that the loader works on, once the bytes of a slot of the table are in its place. -/
theorem inode_placed (data : Block) (slot : Nat) (bytes : ∀ i < 32, m.memory (0x51c + i) = data.bytes (32 * slot + i)) :
    m.dword 0 inodeSize = (data.inode slot).iSize ∧
      ∀ i < 9, m.word 0 (inodeZones + 2 * UInt16.ofNat i) = (data.inode slot).zone i := by
  have pair {c : Nat} (small : c < 16) : load m.memory (0x51c + 2 * c) 2 = (data.word (16 * slot + c)).toNat := by
    have left := (data.bytes (32 * slot + 2 * c)).toNat_lt
    have right := (data.bytes (32 * slot + (2 * c + 1))).toNat_lt
    rw [load_two, Nat.add_assoc, load8_low (by omega), load8_low (by omega), bytes _ (by omega), bytes _ (by omega),
      word_bytes, show 2 * (16 * slot + c) = 32 * slot + 2 * c by omega, UInt16.toNat_ofNat', Nat.add_assoc]
    omega
  constructor
  · have low_ := pair (c := 2) (by decide)
    have high := pair (c := 3) (by decide)
    rw [Machine.dword, linear_zero, load_four]
    change UInt32.ofNat (load m.memory (0x51c + 2 * 2) 2 + 65536 * load m.memory (0x51c + 2 * 3) 2) = _
    rw [low_, high]
    rfl
  · intro i small
    have here := pair (c := 7 + i) (by omega)
    have place : (Fin.ofNat 9 i).val = i := Nat.mod_eq_of_lt small
    rw [Machine.word, linear_zero, zone_place small, show 0x52a + 2 * i = 0x51c + 2 * (7 + i) by omega, here,
      UInt16.ofNat_toNat]
    change _ = data.word (16 * slot + 7 + (Fin.ofNat 9 i).val)
    rw [place, Nat.add_assoc]

/-- The loader is whole, and has an inode and the number of the block that the table of inodes starts with. -/
structure Stands {σ : Type} (drive : UInt8) (disk : Nat → UInt8) (first : UInt32) (table : UInt16) (inode : Inode)
    (m : Machine σ) : Prop extends Ready drive inode first m, Settled drive disk first 1024 m where
  table : m.word 0 inodesTableBlock = table

theorem computeTable_stores {a b : UInt16} (ds : m.ds = 0) (imap : m.word 0 sbSImapBlocks = a)
    (zmap : m.word 0 sbSZmapBlocks = b) : (computeTable m).es = m.es ∧ (computeTable m).ss = m.ss ∧
      (computeTable m).sp = m.sp ∧ (computeTable m).ds = 0 ∧
      (computeTable m).memory = store m.memory 0x512 2 (2 + a + b).toNat := by
  subst imap zmap
  obtain ⟨⟩ := m
  dsimp only at ds
  subst ds
  simp only [computeTable, setLow_toUInt16, Machine.setWord, linear_zero]
  exact ⟨trivial, trivial, trivial, trivial, rfl⟩

theorem tableSector_eq {table : UInt16} (ds : m.ds = 0) (there : m.word 0 inodesTableBlock = table)
    (sector_ : m.dword 0 sector = first) :
    tableSector m = { m with eax := zoneLba first table, ebx := first } := by
  subst there sector_
  obtain ⟨⟩ := m
  dsimp only at ds
  subst ds
  simp only [tableSector, setLow_and, zoneLba]
  rfl

/-- Step 2 leaves the whole loader at its new place, with the superblock. -/
theorem loadSecondHalf_loads (bios : LoadsSectors int13 drive disk) (back : Nat → UInt16)
    (settled : Settled drive disk first 512 m) (onDisk : OnDisk kernelStr disk first)
    (same : SamePartition t disk first)
    (super : t.blockAt 1 = some data) : ∃ m', loadSecondHalf int13 back m = .ok () m' ∧
      Settled drive disk first 1024 m' ∧ ∀ i < 20, m'.memory (0x53c + i) = data.bytes i := by
  have room := same.fits _ _ super
  rw [show (1 : UInt16).toNat = 1 from rfl] at room
  have behind : (first + 1).toNat = first.toNat + 1 := by
    rw [UInt32.toNat_add]
    exact Nat.mod_eq_of_lt (by change first.toNat + 1 < 2 ^ 32; omega)
  have next : nextSector m = { m with eax := first + 1 } := by
    rw [nextSector, settled.ds, settled.sector onDisk (by decide)]
  have settled₁ : Settled drive disk first 512 { m with eax := first + 1 } :=
    settled.keep rfl rfl rfl rfl fun _ _ => rfl
  obtain ⟨m₁, run, loaded⟩ := callLoadSectors_loads bios settled₁.ds settled₁.ss
    (by rw [settled₁.sp]; decide) settled₁.device (back 6)
  change Loaded disk 8 (first + 1) [] _ _ at loaded
  have settled₂ := settled₁.loaded (by decide) loaded
  have code := copyBytes_moves bufferBase vbrHalf 512 settled₂.ds settled₂.es
    (by decide) (by decide) (by decide)
  change Moved 0x600 0xc00 512 m₁ _ at code
  generalize half : copyBytes bufferBase vbrHalf 512 m₁ = m₂ at code
  have kept := settled₂.moved code (by decide) (.inr (by decide))
  have settled₃ : Settled drive disk first 1024 m₂ := { kept with
    code := fun i low => by
      by_cases left : i < 512
      · exact kept.code i left
      · rw [show 0xa00 + i = 0xc00 + (i - 512) by omega, code.there _ (by omega), loaded.buffer _ (by omega), behind,
          show 512 * (first.toNat + 1) + (i - 512) = 512 * first.toNat + i by omega] }
  have block := copyBytes_moves bufferHalf sbBase 20 settled₃.ds settled₃.es
    (by decide) (by decide) (by decide)
  change Moved 0x800 0x53c 20 m₂ _ at block
  refine ⟨_, ?_, settled₃.moved block (by decide) (.inl (by decide)), fun i low => ?_⟩
  · unfold loadSecondHalf
    rw [modify_bind, next, bind_of_ok run, modify_bind, half]
    rfl
  · have byte := same.bytes _ _ super (Fin.ofNat 1024 i)
    have place : (Fin.ofNat 1024 i).val = i := Nat.mod_eq_of_lt (by omega)
    rw [place, show (1 : UInt16).toNat = 1 from rfl] at byte
    rw [block.there i low, code.away _ (by omega), show 0x800 + i = 0x600 + (512 + i) by omega,
      loaded.buffer _ (by omega), behind,
      show 512 * (first.toNat + 1) + (512 + i) = 512 * (first.toNat + 2 * 1) + i by omega, byte]
    rfl

/-- A slot of the block that was loaded goes to the place of the inode. -/
theorem slot_copied {table blk : UInt16} (settled : Settled drive disk first 1024 m)
    (onDisk : OnDisk kernelStr disk first) (there : m.word 0 inodesTableBlock = table)
    (buffer : ∀ i < 1024, m.memory (0x600 + i) = disk (512 * (zoneLba first blk).toNat + i))
    (same : SamePartition t disk first) (block : t.blockAt blk = some data) (low : slot < 32)
    (moved : Moved (0x600 + 32 * slot) 0x51c 32 m m') : Stands drive disk first table (data.inode slot) m' := by
  have settled' := settled.moved moved (by decide) (.inl (by decide))
  have placed := inode_placed (m := m') data slot fun i small => by
    have byte := same.bytes _ _ block (Fin.ofNat 1024 (32 * slot + i))
    have place : (Fin.ofNat 1024 (32 * slot + i)).val = 32 * slot + i := Nat.mod_eq_of_lt (by omega)
    rw [place] at byte
    rw [moved.there i small, Nat.add_assoc, buffer _ (by omega), zoneLba_toNat (same.fits _ _ block), byte]
    rfl
  exact { settled' with
    size := placed.1
    zones := placed.2
    sector := settled'.sector onDisk (by decide)
    table := (word_congr fun i low => moved.away _ (by left; change 0x512 + i < 0x51c; omega)).trans there }

/-- Steps 1 to 4 leave the loader with the inode of the root directory that the install tool reads. -/
theorem loadRootInode_loads (bios : LoadsSectors int13 drive disk) (back : Nat → UInt16)
    (settled : Settled drive disk first 512 (setRegisters m)) (onDisk : OnDisk kernelStr disk first)
    (same : SamePartition t disk first) (super : t.blockAt 1 = some data) (sb : data.superblock = t.sb)
    (root : minixLoadInode 1 t = .ok inode t) :
    ∃ m', loadRootInode int13 back m = .ok () m' ∧
      Stands drive disk first (UInt16.ofNat t.sb.inodeTable) inode m' := by
  obtain ⟨m₁, run₁, settled₁, superblock⟩ := loadSecondHalf_loads bios back settled onDisk same super
  have field {offset : UInt16} {w : Nat} (place : offset.toNat = 0x53c + 2 * w) (low : w < 10) :
      m₁.word 0 offset = data.word w := by
    rw [Machine.word, linear_zero, place, load_two, load8_low (by omega), load8_low (by omega), Nat.add_assoc,
      superblock _ (by omega), superblock _ (by omega), word_bytes]
  have imap : m₁.word 0 sbSImapBlocks = t.sb.sImapBlocks := sb ▸ field (w := 2) rfl (by decide)
  have zmap : m₁.word 0 sbSZmapBlocks = t.sb.sZmapBlocks := sb ▸ field (w := 3) rfl (by decide)
  obtain ⟨es, ss, sp, ds, memory⟩ := computeTable_stores settled₁.ds imap zmap
  generalize third : computeTable m₁ = m₂ at es ss sp ds memory
  have settled₂ : Settled drive disk first 1024 m₂ :=
    settled₁.keep (ds.trans settled₁.ds.symm) es ss sp fun x here => by
      rw [memory, store_away (by decide) (by omega)]
  have blocks : 2 + t.sb.sImapBlocks + t.sb.sZmapBlocks = UInt16.ofNat t.sb.inodeTable := by
    apply UInt16.toNat_inj.mp
    rw [UInt16.toNat_add, UInt16.toNat_add, UInt16.toNat_ofNat', Superblock.inodeTable,
      show (2 : UInt16).toNat = 2 from rfl]
    omega
  have table : m₂.word 0 inodesTableBlock = UInt16.ofNat t.sb.inodeTable := by
    rw [Machine.word, memory, blocks]
    exact stored_word
  obtain ⟨-, block, there, rfl⟩ := minixLoadInode_ok_iff.mp root
  change t.blockAt (UInt16.ofNat t.sb.inodeTable) = some block at there
  generalize UInt16.ofNat t.sb.inodeTable = blk at table there
  have aimed := tableSector_eq settled₂.ds table (settled₂.sector onDisk (by decide))
  have settled₃ : Settled drive disk first 1024 { m₂ with eax := zoneLba first blk, ebx := first } :=
    settled₂.keep rfl rfl rfl rfl fun _ _ => rfl
  obtain ⟨m₃, run₃, loaded⟩ := callLoadSectors_loads bios settled₃.ds settled₃.ss
    (by rw [settled₃.sp]; decide) settled₃.device (back 7)
  have settled₄ := settled₃.loaded (by decide) loaded
  have sp₃ : ({ m₂ with eax := zoneLba first blk, ebx := first } : Machine σ).sp.toNat = 0x1000 :=
    congrArg UInt16.toNat settled₃.sp
  have kept : m₃.word 0 inodesTableBlock = blk := (word_congr fun i low => by
    change m₃.memory (0x512 + i) = m₂.memory (0x512 + i)
    exact loaded.away _ (by omega) (by omega) (by omega)).trans table
  have copied := copyBytes_moves bufferBase inodeBase 32 settled₄.ds settled₄.es
    (by decide) (by decide) (by decide)
  refine ⟨_, ?_, slot_copied settled₄ onDisk kept loaded.buffer same there (show 0 < 32 by decide) copied⟩
  unfold loadRootInode
  rw [modify_bind, bind_of_ok run₁, modify_bind, third, modify_bind, aimed, bind_of_ok run₃]
  rfl

/-! ## The inode of the kernel -/

/-- The block that step 6 gets to, for an inode number, and the slot in it. -/
def step6Block (table number : UInt16) : UInt16 := (number - 1) / 32 + table

def step6Slot (number : UInt16) : Nat := ((number - 1) % 32).toNat

/-- The entry that `CURRENT_DIRENTRY_ADDR` points to has the inode number, and is in the buffer. -/
structure Points {σ : Type} (number : UInt16) (m : Machine σ) : Prop where
  above : 0x600 ≤ (m.word 0 currentDirentryAddr).toNat
  below : (m.word 0 currentDirentryAddr).toNat + 2 ≤ 0xa00
  number : m.word 0 (m.word 0 currentDirentryAddr) = number

variable {table number : UInt16}

theorem inodePlace_stores (ds : m.ds = 0) (points : Points number m) :
    (inodePlace m).eax.toUInt16 = (number - 1) / 32 ∧ (inodePlace m).ds = m.ds ∧ (inodePlace m).es = m.es ∧
      (inodePlace m).ss = m.ss ∧ (inodePlace m).sp = m.sp ∧ (inodePlace m).requests = m.requests ∧
      (inodePlace m).word 0 kernelInodeOff = (number - 1) % 32 ∧
      ∀ x, x < 0x55c ∨ 0x560 ≤ x → (inodePlace m).memory x = m.memory x := by
  obtain ⟨-, -, here⟩ := points
  have memory : (inodePlace m).memory =
      store (store m.memory 0x55c 2 ((number - 1) / 32).toNat) 0x55e 2 ((number - 1) % 32).toNat := by
    subst here
    obtain ⟨⟩ := m
    dsimp only at ds
    subst ds
    simp only [inodePlace, setLow_toUInt16, Machine.setWord, linear_zero]
    rfl
  refine ⟨?_, rfl, rfl, rfl, rfl, rfl, ?_, fun x away => ?_⟩
  · subst here
    simp only [inodePlace, Machine.setWord, setLow_toUInt16, ds]
    rfl
  · rw [Machine.word, memory]
    exact stored_word
  · rw [memory, store_away (by decide) (by omega), store_away (by decide) (by omega)]

theorem inodeSector_eq {q : UInt16} (ds : m.ds = 0) (ax : m.eax.toUInt16 = q)
    (there : m.word 0 inodesTableBlock = table) (sector_ : m.dword 0 sector = first) :
    inodeSector m = { m with eax := ((q + table) <<< 1).toUInt32 + first, ebx := first } := by
  subst ax there sector_
  obtain ⟨⟩ := m
  dsimp only at ds
  subst ds
  simp only [inodeSector, setLow_and, setLow_toUInt16]
  rfl

/-- Doubling in 16 bits and in 32 bits. -/
theorem doubled_iff (blk : UInt16) : (blk <<< 1).toUInt32 = blk.toUInt32 <<< 1 ↔ blk.toNat < 2 ^ 15 := by
  have wide := blk.toNat_lt
  rw [← UInt32.toNat_inj, UInt16.toNat_toUInt32, UInt32.toNat_shiftLeft, UInt16.toNat_shiftLeft, UInt16.toNat_toUInt32,
    show (1 : UInt16).toNat % 16 = 1 from rfl, show (1 : UInt32).toNat % 32 = 1 from rfl, Nat.shiftLeft_eq]
  omega

theorem Stands.keep (stands : Stands drive disk first table inode m) (ds : m'.ds = m.ds) (es : m'.es = m.es)
    (ss : m'.ss = m.ss) (sp : m'.sp = m.sp)
    (same : ∀ x, (0x510 ≤ x ∧ x < 0x53c) ∨ (0xa00 ≤ x ∧ x < 0xe00) → m'.memory x = m.memory x) :
    Stands drive disk first table inode m' :=
  { stands.toReady.keep ds ss same, stands.toSettled.keep ds es ss sp fun x here => same x (by omega) with
    table := (word_congr fun i low => same _ (by left; change 0x510 ≤ 0x512 + i ∧ 0x512 + i < 0x53c; omega)).trans
      stands.table }

/-- The slot goes to the place of the inode. -/
theorem copyInode_moves {r : UInt16} (ds : m.ds = 0) (es : m.es = 0) (slot : m.word 0 kernelInodeOff = r)
    (low : r.toNat < 32) : Moved (0x600 + 32 * r.toNat) 0x51c 32 m (copyInode m) := by
  have source : (r <<< 5 + bufferBase).toNat = 0x600 + 32 * r.toNat := by
    rw [UInt16.toNat_add, UInt16.toNat_shiftLeft, show (5 : UInt16).toNat % 16 = 5 from rfl, Nat.shiftLeft_eq,
      show bufferBase.toNat = 0x600 from rfl]
    omega
  obtain ⟨c, registers, ds', es', ss, sp, edx, requests, memory⟩ : ∃ c : Machine σ,
      copyInode m = copyBytes (r <<< 5 + bufferBase) inodeBase 32 c ∧ c.ds = m.ds ∧ c.es = m.es ∧ c.ss = m.ss ∧
        c.sp = m.sp ∧ c.edx = m.edx ∧ c.requests = m.requests ∧ c.memory = m.memory := by
    refine ⟨{ m with
      eax := setLow (setLow (setLow m.eax r) (r <<< 5)) (r <<< 5 + bufferBase), ebx := setLow m.ebx bufferBase },
      ?_, rfl, rfl, rfl, rfl, rfl, rfl, rfl⟩
    simp only [copyInode, setLow_toUInt16, ds, slot]
  have moved := copyBytes_moves (r <<< 5 + bufferBase) inodeBase 32 (ds'.trans ds)
    (es'.trans es) (by rw [source]; change 0x600 + 32 * r.toNat + 32 < 2 ^ 16; omega) (by decide)
    (by rw [source]; right; change 0x51c + 32 ≤ 0x600 + 32 * r.toNat; omega)
  rw [source] at moved
  rw [registers]
  exact ⟨moved.ds.trans ds', moved.es.trans es', moved.ss.trans ss, moved.sp.trans sp, moved.edx.trans edx,
    moved.requests.trans requests, fun i small => (moved.there i small).trans (congrFun memory _),
    fun x away => (moved.away x away).trans (congrFun memory x)⟩

/-- Step 6 loads the block that it gets to, whatever that is, and copies a slot of it. -/
theorem loadKernelInode_runs (bios : LoadsSectors int13 drive disk) (back : Nat → UInt16)
    (stands : Stands drive disk first table inode m) (points : Points number m) :
    ∃ m₁ m', loadKernelInode int13 back m = .ok () m' ∧
      m'.requests = (((step6Block table number) <<< 1).toUInt32 + first) :: m.requests ∧
      Settled drive disk first 1024 m₁ ∧ m₁.word 0 inodesTableBlock = table ∧
      (∀ i < 1024, m₁.memory (0x600 + i) =
        disk (512 * (((step6Block table number) <<< 1).toUInt32 + first).toNat + i)) ∧
      Moved (0x600 + 32 * step6Slot number) 0x51c 32 m₁ m' := by
  obtain ⟨ax, ds, es, ss, sp, requests, slot, away⟩ := inodePlace_stores stands.ds points
  generalize start : inodePlace m = m₀ at ax ds es ss sp requests slot away
  have stands₀ : Stands drive disk first table inode m₀ := stands.keep ds es ss sp fun x here => away x (by omega)
  have aimed := inodeSector_eq stands₀.ds ax stands₀.table stands₀.toReady.sector
  change inodeSector m₀ = { m₀ with eax := ((step6Block table number) <<< 1).toUInt32 + first, ebx := first } at aimed
  generalize (step6Block table number <<< 1).toUInt32 + first = lba at aimed ⊢
  have stands₁ : Stands drive disk first table inode { m₀ with eax := lba, ebx := first } :=
    stands₀.keep rfl rfl rfl rfl fun _ _ => rfl
  obtain ⟨m₁, run, loaded⟩ := callLoadSectors_loads bios stands₁.ds stands₁.ss (by rw [stands₁.sp]; decide)
    stands₁.device (back 8)
  change Loaded disk 8 lba [] _ _ at loaded
  have sp₁ : ({ m₀ with eax := lba, ebx := first } : Machine σ).sp.toNat = 0x1000 := congrArg UInt16.toNat stands₁.sp
  have settled := stands₁.toSettled.loaded (by decide) loaded
  have kept {offset : UInt16} (from_ : 0x510 ≤ offset.toNat) (upto : offset.toNat + 2 ≤ 0x600) :
      m₁.word 0 offset = m₀.word 0 offset := word_congr fun i low => by
    change m₁.memory _ = ({ m₀ with eax := lba, ebx := first } : Machine σ).memory _
    exact loaded.away _ (by omega) (by omega) (by omega)
  have moved := copyInode_moves settled.ds settled.es ((kept (by decide) (by decide)).trans slot) (by
    rw [UInt16.toNat_mod]
    exact Nat.mod_lt _ (by decide))
  refine ⟨m₁, _, ?_, moved.requests.trans (loaded.requests.trans (congrArg _ requests)), settled,
    (kept (by decide) (by decide)).trans stands₀.table, loaded.buffer, moved⟩
  unfold loadKernelInode
  rw [modify_bind, start, modify_bind, aimed, bind_of_ok run]
  rfl

/-- The tool's block and slot of an inode number, in the loader's arithmetic. -/
theorem step6_place (some_ : number ≠ 0) (sb : Superblock) :
    step6Block (UInt16.ofNat sb.inodeTable) number = sb.inodeBlock number.toNat ∧
      step6Slot number = inodeSlot number.toNat := by
  have positive : 1 ≤ number.toNat := by
    by_contra none_
    exact some_ (UInt16.toNat_inj.mp (by rw [show (0 : UInt16).toNat = 0 from rfl]; omega))
  have wide := number.toNat_lt
  have here : (number - 1).toNat = number.toNat - 1 :=
    UInt16.toNat_sub_of_le _ _ (UInt16.le_iff_toNat_le.mpr positive)
  have there := index_toNat positive (show number.toNat < 2 ^ 64 by omega)
  constructor
  · apply UInt16.toNat_inj.mp
    rw [step6Block, Superblock.inodeBlock, UInt16.toNat_add, UInt16.toNat_div, UInt16.toNat_ofNat', UInt16.toNat_ofNat',
      here, there, show (32 : UInt16).toNat = 32 from rfl, show minixInodesPerBlock = 32 from rfl]
    omega
  · rw [step6Slot, inodeSlot, UInt16.toNat_mod, here, there]
    rfl

/-- Step 6 asks for the block that the install tool reads the inode from, for exactly the blocks whose number can
be doubled in 16 bits. -/
theorem kernel_inode_sector_iff (bios : LoadsSectors int13 drive disk) (back : Nat → UInt16)
    (stands : Stands drive disk first (UInt16.ofNat t.sb.inodeTable) inode m) (points : Points number m)
    (some_ : number ≠ 0) : ∃ lba m', loadKernelInode int13 back m = .ok () m' ∧ m'.requests = lba :: m.requests ∧
      (lba = zoneLba first (t.sb.inodeBlock number.toNat) ↔ (t.sb.inodeBlock number.toNat).toNat < 2 ^ 15) := by
  obtain ⟨-, m', run, requests, -⟩ := loadKernelInode_runs bios back stands points
  rw [(step6_place some_ t.sb).1] at requests
  exact ⟨_, m', run, requests, (UInt32.add_left_inj first).trans (doubled_iff _)⟩

/-- There, step 6 leaves the loader with the inode that the tool reads. -/
theorem loadKernelInode_loads {kernel : Inode} (bios : LoadsSectors int13 drive disk) (back : Nat → UInt16)
    (stands : Stands drive disk first (UInt16.ofNat t.sb.inodeTable) inode m) (onDisk : OnDisk kernelStr disk first)
    (points : Points number m) (some_ : number ≠ 0) (same : SamePartition t disk first)
    (low : (t.sb.inodeBlock number.toNat).toNat < 2 ^ 15) (loads : minixLoadInode number.toNat t = .ok kernel t) :
    ∃ m', loadKernelInode int13 back m = .ok () m' ∧
      Stands drive disk first (UInt16.ofNat t.sb.inodeTable) kernel m' := by
  obtain ⟨m₁, m', run, -, settled, there, buffer, moved⟩ := loadKernelInode_runs bios back stands points
  obtain ⟨block, slot⟩ := step6_place some_ t.sb
  obtain ⟨-, data, at_, rfl⟩ := minixLoadInode_ok_iff.mp loads
  change t.blockAt (t.sb.inodeBlock number.toNat) = some data at at_
  rw [block, (doubled_iff _).mpr low] at buffer
  rw [slot] at moved
  have small : inodeSlot number.toNat < 32 := Nat.mod_lt _ (by decide)
  exact ⟨m', run, slot_copied settled onDisk there buffer same at_ small moved⟩

end AtaKernel.Boot
