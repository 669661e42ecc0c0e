import AtaKernel.Boot.LoadZone
import AtaKernel.Minix.CopyLoop

/-! The block that `load_zone` of the boot loader leaves in the buffer is the one
that `minix_file_block_2_block` of the install tool names. Both go by the slot of
the block; the loader takes the numbers on the way from its one buffer, and goes
on whatever they are. -/
namespace AtaKernel.Boot
open ByteMemory StateProgram Minix

/-- The sector that zone `z` of the partition starts at. -/
def zoneLba (first : UInt32) (z : UInt16) : UInt32 := z.toUInt32 <<< 1 + first

/-- Word `i` of the block at sector `lba`. -/
def diskWord (disk : Nat → UInt8) (lba : UInt32) (i : Nat) : UInt16 :=
  UInt16.ofNat ((disk (512 * lba.toNat + 2 * i)).toNat + 256 * (disk (512 * lba.toNat + (2 * i + 1))).toNat)

/-- The zone in a slot, by the sectors of the disk. -/
def zoneOnDisk (disk : Nat → UInt8) (first : UInt32) (inode : Inode) : Slot → UInt16
  | .field i => inode.zone i
  | .entry s i => diskWord disk (zoneLba first (zoneOnDisk disk first inode s)) i

/-- What the loader has before it loads a zone: the drive, the inode and the partition's first sector. -/
structure Ready {σ : Type} (drive : UInt8) (inode : Inode) (first : UInt32) (m : Machine σ) : Prop where
  ds : m.ds = 0
  ss : m.ss = 0
  device : m.memory 0x510 = drive
  size : m.dword 0 inodeSize = inode.iSize
  zones : ∀ i < 9, m.word 0 (inodeZones + 2 * UInt16.ofNat i) = inode.zone i
  sector : m.dword 0 sector = first

/-- In `load_zone`, with the index at each level in its variable. -/
structure InFrame {σ : Type} (drive : UInt8) (inode : Inode) (first : UInt32) (l₀ l₁ l₂ : UInt16)
    (m : Machine σ) : Prop extends Ready drive inode first m where
  sp : m.sp = 0xff4
  bp : m.bp = 0xffa
  level₀ : m.word 0 0xff8 = l₀
  level₁ : m.word 0 0xff6 = l₁
  level₂ : m.word 0 0xff4 = l₂

variable {σ : Type} {int13 : Machine σ → Machine σ} {drive : UInt8} {disk : Nat → UInt8} {inode : Inode}
  {first : UInt32} {l₀ l₁ l₂ : UInt16} {m m' m₁ m₂ : Machine σ} {way way' : List UInt32} {lba lba' : UInt32}
  {room : Nat}

/-! ## What a load keeps -/

theorem zone_place {i : Nat} (low : i < 9) : (inodeZones + 2 * UInt16.ofNat i).toNat = 0x52a + 2 * i := by
  rw [UInt16.toNat_add, UInt16.toNat_mul, UInt16.toNat_ofNat', show inodeZones.toNat = 0x52a from rfl,
    show (2 : UInt16).toNat = 2 from rfl]
  omega

/-- The loader is ready as long as the drive, the inode and its code stay as they are. -/
theorem Ready.keep (ready : Ready drive inode first m) (ds : m'.ds = m.ds) (ss : m'.ss = m.ss)
    (same : ∀ x, (0x510 ≤ x ∧ x < 0x53c) ∨ (0xa00 ≤ x ∧ x < 0xe00) → m'.memory x = m.memory x) :
    Ready drive inode first m' where
  ds := ds.trans ready.ds
  ss := ss.trans ready.ss
  device := (same _ (by omega)).trans ready.device
  size := (dword_congr fun i low => same _ (by left; change 0x510 ≤ 0x520 + i ∧ 0x520 + i < 0x53c; omega)).trans
    ready.size
  zones i low := (word_congr fun j low' => same _ (by rw [zone_place low]; omega)).trans (ready.zones i low)
  sector := (dword_congr fun i low => same _ (by right; change 0xa00 ≤ 0xa02 + i ∧ 0xa02 + i < 0xe00; omega)).trans
    ready.sector

theorem Loaded.then (one : Loaded disk room lba way m m₁) (two : Loaded disk room lba' way' m₁ m₂) :
    Loaded disk room lba' (way' ++ lba :: way) m m₂ where
  sp := two.sp.trans one.sp
  bp := two.bp.trans one.bp
  ds := two.ds.trans one.ds
  es := two.es.trans one.es
  ss := two.ss.trans one.ss
  requests := by rw [two.requests, one.requests, List.append_assoc, List.cons_append]
  buffer := two.buffer
  away x packet_ buffer_ stack := by
    rw [two.away x packet_ buffer_ (by rw [one.sp]; exact stack), one.away x packet_ buffer_ stack]

theorem InFrame.keep (frame : InFrame drive inode first l₀ l₁ l₂ m) (loaded : Loaded disk 8 lba way m m') :
    InFrame drive inode first l₀ l₁ l₂ m' := by
  have sp : m.sp.toNat = 0xff4 := congrArg UInt16.toNat frame.sp
  have local_ {offset : UInt16} (from_ : 0xff4 ≤ offset.toNat) : m'.word 0 offset = m.word 0 offset :=
    word_congr fun i low => loaded.away _ (by omega) (by omega) (by omega)
  have ready : Ready drive inode first m' := frame.toReady.keep loaded.ds loaded.ss fun x here =>
    loaded.away x (by omega) (by omega) (by omega)
  exact { ready with
    sp := loaded.sp.trans frame.sp
    bp := loaded.bp.trans frame.bp
    level₀ := (local_ (by decide)).trans frame.level₀
    level₁ := (local_ (by decide)).trans frame.level₁
    level₂ := (local_ (by decide)).trans frame.level₂ }

/-! ## The levels -/

theorem shifted_index (i : Nat) (base : UInt16) :
    (UInt16.ofNat i <<< 1 + base).toNat = (base.toNat + 2 * i) % 2 ^ 16 := by
  rw [UInt16.toNat_add, UInt16.toNat_shiftLeft, UInt16.toNat_ofNat', show (1 : UInt16).toNat % 16 = 1 from rfl,
    Nat.shiftLeft_eq]
  omega

/-- The sector of a field of the inode. -/
theorem lbaOf_field (frame : InFrame drive inode first l₀ l₁ l₂ m) {i : Nat} (low : i < 9)
    (index : l₀ = UInt16.ofNat i) : m.lbaOf (m.bp - 2) inodeZones = zoneLba first (inode.zone i) := by
  have place : UInt16.ofNat i <<< 1 + inodeZones = inodeZones + 2 * UInt16.ofNat i := by
    apply UInt16.toNat_inj.mp
    rw [shifted_index, zone_place low, show inodeZones.toNat = 0x52a from rfl]
    omega
  rw [Machine.lbaOf, frame.bp, show (0xffa : UInt16) - 2 = 0xff8 from rfl, frame.level₀, index, place,
    frame.zones i low, frame.sector, zoneLba]

/-- The sector of a word of the block in the buffer. -/
theorem lbaOf_entry (loaded : Loaded disk 8 lba way m m') (ready : Ready drive inode first m')
    {level : UInt16} {i : Nat} (low : i < 512) (index : m'.word 0 level = UInt16.ofNat i) :
    m'.lbaOf level bufferBase = zoneLba first (diskWord disk lba i) := by
  have place : (UInt16.ofNat i <<< 1 + bufferBase).toNat = 0x600 + 2 * i := by
    rw [shifted_index, show bufferBase.toNat = 0x600 from rfl]
    omega
  have word : m'.word 0 (UInt16.ofNat i <<< 1 + bufferBase) = diskWord disk lba i := by
    rw [Machine.word, linear_zero, place, load_two, load8_low (by omega), load8_low (by omega), Nat.add_assoc,
      loaded.buffer _ (by omega), loaded.buffer _ (by omega), diskWord]
  rw [Machine.lbaOf, index, word, ready.sector, zoneLba]

/-- Level 0: a field of the inode. -/
theorem level_field (bios : LoadsSectors int13 drive disk) (frame : InFrame drive inode first l₀ l₁ l₂ m)
    {i : Nat} (low : i < 9) (index : l₀ = UInt16.ofNat i) (back : UInt16) :
    ∃ m', lzLoadLevel int13 back 2 inodeZones m = .ok () m' ∧
      Loaded disk 8 (zoneLba first (zoneOnDisk disk first inode (.field i))) [] m m' := by
  have sp : m.sp.toNat = 0xff4 := congrArg UInt16.toNat frame.sp
  obtain ⟨m', run, loaded⟩ := lzLoadLevel_loads bios frame.ds frame.ss (by omega) frame.device back 2 inodeZones
  rw [lbaOf_field frame low index] at loaded
  exact ⟨m', run, loaded⟩

/-- A further level: a word of the block that the level before it has loaded. -/
theorem level_entry (bios : LoadsSectors int13 drive disk) (frame : InFrame drive inode first l₀ l₁ l₂ m)
    {s : Slot} (loaded : Loaded disk 8 (zoneLba first (zoneOnDisk disk first inode s)) way m m₁)
    {i : Nat} (low : i < 512) {local_ : UInt16} (index : m₁.word 0 (m₁.bp - local_) = UInt16.ofNat i)
    (back : UInt16) (below : Vbr σ Unit) :
    ∃ m₂ way', lzDive int13 back local_ below m₁ = below m₂ ∧
      Loaded disk 8 (zoneLba first (zoneOnDisk disk first inode (.entry s i))) way' m m₂ := by
  have frame₁ := frame.keep loaded
  have sp : m₁.sp.toNat = 0xff4 := congrArg UInt16.toNat frame₁.sp
  have stays : Loaded disk 8 (zoneLba first (zoneOnDisk disk first inode s)) way m (lzNext local_ m₁) :=
    ⟨loaded.sp, loaded.bp, loaded.ds, loaded.es, loaded.ss, loaded.requests, loaded.buffer, loaded.away⟩
  obtain ⟨m₂, run, next⟩ := lzLoadLevel_loads bios (frame.keep stays).ds (frame.keep stays).ss
    (show 0xa08 ≤ m₁.sp.toNat by omega) (frame.keep stays).device back local_ bufferBase
  have entry : (lzNext local_ m₁).lbaOf ((lzNext local_ m₁).bp - local_) bufferBase = _ :=
    lbaOf_entry stays (frame.keep stays).toReady low index
  rw [entry] at next
  refine ⟨m₂, _, ?_, stays.then next⟩
  unfold lzDive
  rw [modify_bind, get_bind, if_neg, bind_of_ok run]
  change ¬ (setLow m₁.eax (m₁.word m₁.ss (m₁.bp - local_))).toUInt16 = -1
  rw [setLow_toUInt16, frame₁.ss, index]
  intro same
  have value := congrArg UInt16.toNat same
  rw [UInt16.toNat_ofNat', show (-1 : UInt16).toNat = 65535 from rfl] at value
  omega

/-- No further level. -/
theorem level_done (frame : InFrame drive inode first l₀ l₁ l₂ m) (loaded : Loaded disk 8 lba way m m₁)
    {local_ : UInt16} (index : m₁.word 0 (m₁.bp - local_) = -1) (back : UInt16) (below : Vbr σ Unit) :
    ∃ m₂, lzDive int13 back local_ below m₁ = .ok () m₂ ∧ Loaded disk 8 lba way m m₂ := by
  refine ⟨lzNext local_ m₁, ?_, loaded.sp, loaded.bp, loaded.ds, loaded.es, loaded.ss, loaded.requests,
    loaded.buffer, loaded.away⟩
  unfold lzDive
  rw [modify_bind, get_bind, if_pos]
  · rfl
  · change (setLow m₁.eax (m₁.word m₁.ss (m₁.bp - local_))).toUInt16 = -1
    rw [setLow_toUInt16, (frame.keep loaded).ss, index]

/-! ## The index at each level -/

def levelsOf (b : Nat) : UInt16 × UInt16 × UInt16 :=
  if b < 7 then (UInt16.ofNat b, -1, -1)
  else if b < 519 then (7, UInt16.ofNat (b - 7), -1)
  else (8, UInt16.ofNat ((b - 519) / 512), UInt16.ofNat ((b - 519) % 512))

/-- A signed compare is right below `2 ^ 15`. -/
theorem signed_compare {b n : Nat} (low : b < 2 ^ 15) (small : n < 2 ^ 15) :
    (UInt16.ofNat n).toInt16 ≤ (UInt16.ofNat b).toInt16 ↔ n ≤ b := by
  rw [UInt16.toInt16_ofNat', UInt16.toInt16_ofNat', Int16.le_iff_toInt_le, Int16.toInt_ofNat_of_lt low,
    Int16.toInt_ofNat_of_lt small]
  omega

theorem lzLevels_eq {b : Nat} (low : b < 2 ^ 15) (arg : m.word m.ss (m.bp + 4) = UInt16.ofNat b) :
    ∃ eax ebx edx, lzLevels m = ((({ m with eax := eax, ebx := ebx, edx := edx }.setWord m.ss (m.bp - 6)
      (levelsOf b).2.2).setWord m.ss (m.bp - 4) (levelsOf b).2.1).setWord m.ss (m.bp - 2) (levelsOf b).1) := by
  have double : 519 ≤ (UInt16.ofNat b).toInt16 ↔ 519 ≤ b := signed_compare low (n := 519) (by decide)
  have single : 7 ≤ (UInt16.ofNat b).toInt16 ↔ 7 ≤ b := signed_compare low (n := 7) (by decide)
  unfold lzLevels levelsOf
  simp only [setLow_toUInt16, arg, double, single]
  by_cases third : 519 ≤ b
  · have less : UInt16.ofNat b - 519 = UInt16.ofNat (b - 519) := (UInt16.ofNat_sub third).symm
    have quotient : UInt16.ofNat (b - 519) / 512 = UInt16.ofNat ((b - 519) / 512) :=
      (UInt16.ofNat_div (by omega) (by decide)).symm
    have remainder : UInt16.ofNat (b - 519) % 512 = UInt16.ofNat ((b - 519) % 512) :=
      (UInt16.ofNat_mod (by omega) (by decide)).symm
    rw [if_pos third, if_neg (by omega), if_neg (by omega), less, quotient, remainder]
    exact ⟨_, _, _, rfl⟩
  rw [if_neg third]
  by_cases second : 7 ≤ b
  · have less : UInt16.ofNat b - 7 = UInt16.ofNat (b - 7) := (UInt16.ofNat_sub second).symm
    rw [if_pos second, if_neg (by omega), if_pos (by omega), less]
    exact ⟨_, _, _, rfl⟩
  · rw [if_neg second, if_pos (by omega)]
    exact ⟨_, _, _, rfl⟩

theorem lzLevels_enters (ready : Ready drive inode first m) (sp : m.sp = 0xff4) (bp : m.bp = 0xffa) {b : Nat}
    (low : b < 2 ^ 15) (arg : m.word 0 0xffe = UInt16.ofNat b) :
    InFrame drive inode first (levelsOf b).1 (levelsOf b).2.1 (levelsOf b).2.2 (lzLevels m) ∧
      (lzLevels m).es = m.es ∧ (lzLevels m).requests = m.requests ∧
      ∀ x, x < 0xff4 ∨ 0xffa ≤ x → (lzLevels m).memory x = m.memory x := by
  obtain ⟨eax, ebx, edx, eq⟩ := lzLevels_eq low (by rw [ready.ss, bp]; exact arg)
  generalize lzLevels m = f at eq
  generalize levelsOf b = l at eq ⊢
  have fields : f.ds = m.ds ∧ f.es = m.es ∧ f.ss = m.ss ∧ f.requests = m.requests ∧ f.bp = m.bp ∧ f.sp = m.sp ∧
      f.memory = store (store (store m.memory (linear m.ss (m.bp - 6)) 2 l.2.2.toNat) (linear m.ss (m.bp - 4)) 2
        l.2.1.toNat) (linear m.ss (m.bp - 2)) 2 l.1.toNat := by
    rw [eq]
    exact ⟨rfl, rfl, rfl, rfl, rfl, rfl, rfl⟩
  obtain ⟨ds, es, ss, requests, bp', sp', memory⟩ := fields
  rw [ready.ss, bp, linear_zero, linear_zero, linear_zero, show ((0xffa : UInt16) - 6).toNat = 0xff4 from rfl,
    show ((0xffa : UInt16) - 4).toNat = 0xff6 from rfl, show ((0xffa : UInt16) - 2).toNat = 0xff8 from rfl] at memory
  have outside : ∀ x, x < 0xff4 ∨ 0xffa ≤ x → f.memory x = m.memory x := by
    intro x away
    rw [memory, store_away (by decide) (by omega), store_away (by decide) (by omega),
      store_away (by decide) (by omega)]
  refine ⟨{ ready.keep ds ss fun x here => outside x (by omega) with
    sp := sp'.trans sp, bp := bp'.trans bp, level₀ := ?_, level₁ := ?_, level₂ := ?_ }, es, requests, outside⟩
  all_goals
    rw [Machine.word, memory]
    simp (disch := decide) only [linear_zero, UInt16.reduceToNat, load_store_apart]
    exact stored_word

/-- The levels lead to the slot of the block. -/
theorem levels_load (bios : LoadsSectors int13 drive disk) {b : Nat} (low : b < 2 ^ 15)
    (frame : InFrame drive inode first (levelsOf b).1 (levelsOf b).2.1 (levelsOf b).2.2 m)
    (back₁ back₂ back₃ : UInt16) :
    ∃ m₁ m' way, lzLoadLevel int13 back₁ 2 inodeZones m = .ok () m₁ ∧
      lzDive int13 back₂ 4 (lzDive int13 back₃ 6 (pure ())) m₁ = .ok () m' ∧
      Loaded disk 8 (zoneLba first (zoneOnDisk disk first inode (dataSlot b))) way m m' := by
  have at₁ {m₁ : Machine σ} {lba : UInt32} {way : List UInt32} (loaded : Loaded disk 8 lba way m m₁) :
      m₁.word 0 (m₁.bp - 4) = (levelsOf b).2.1 := by
    rw [(frame.keep loaded).bp]
    exact (frame.keep loaded).level₁
  have at₂ {m₂ : Machine σ} {lba : UInt32} {way : List UInt32} (loaded : Loaded disk 8 lba way m m₂) :
      m₂.word 0 (m₂.bp - 6) = (levelsOf b).2.2 := by
    rw [(frame.keep loaded).bp]
    exact (frame.keep loaded).level₂
  unfold dataSlot
  unfold levelsOf at at₁ at₂
  by_cases direct : b < 7
  · simp only [if_pos direct] at at₁ at₂ ⊢
    obtain ⟨m₁, run, loaded⟩ := level_field bios frame (i := b) (by omega) (by simp only [levelsOf, if_pos direct])
      back₁
    obtain ⟨m', stop, loaded'⟩ := level_done frame loaded (at₁ loaded) back₂ (lzDive int13 back₃ 6 (pure ()))
    exact ⟨m₁, m', _, run, stop, loaded'⟩
  by_cases single : b < 519
  · simp only [if_neg direct, if_pos single] at at₁ at₂ ⊢
    obtain ⟨m₁, run, loaded⟩ := level_field bios frame (i := 7) (by omega)
      (by simp only [levelsOf, if_neg direct, if_pos single]; rfl) back₁
    obtain ⟨m₂, way, dive, loaded₂⟩ := level_entry bios frame loaded (by omega) (at₁ loaded) back₂
      (lzDive int13 back₃ 6 (pure ()))
    obtain ⟨m', stop, loaded'⟩ := level_done frame loaded₂ (at₂ loaded₂) back₃ (pure ())
    exact ⟨m₁, m', _, run, dive.trans stop, loaded'⟩
  · simp only [if_neg direct, if_neg single] at at₁ at₂ ⊢
    obtain ⟨m₁, run, loaded⟩ := level_field bios frame (i := 8) (by omega)
      (by simp only [levelsOf, if_neg direct, if_neg single]; rfl) back₁
    obtain ⟨m₂, way, dive, loaded₂⟩ := level_entry bios frame loaded (by omega) (at₁ loaded) back₂
      (lzDive int13 back₃ 6 (pure ()))
    obtain ⟨m', way', dive', loaded'⟩ := level_entry bios frame loaded₂ (Nat.mod_lt _ (by decide)) (at₂ loaded₂)
      back₃ (pure ())
    exact ⟨m₁, m', _, run, dive.trans dive', loaded'⟩

/-! ## The routine -/

theorem toInt32_small {x : UInt32} (small : x.toNat < 2 ^ 31) : x.toInt32.toInt = x.toNat := by
  have value : x.toInt32 = Int32.ofNat x.toNat := by rw [← UInt32.toInt32_ofNat', UInt32.ofNat_toNat]
  rw [value, Int32.toInt_ofNat_of_lt small]

/-- The size check. -/
theorem lzSize_compare {b : Nat} (size : (m.dword m.ds inodeSize).toNat ≤ 2 ^ 25) (low : b ≤ 2 ^ 15)
    (arg : m.word m.ss (m.bp + 4) = UInt16.ofNat b) :
    (lzSize m).eax.toInt32 ≤ (lzSize m).ebx.toInt32 ↔ (m.dword m.ds inodeSize).toNat ≤ b * 1024 := by
  change (m.dword m.ds inodeSize).toInt32 ≤ ((setLow m.ebx (m.word m.ss (m.bp + 4)) &&& 0x0000ffff) <<< 10).toInt32 ↔
    _
  have start : ((setLow m.ebx (m.word m.ss (m.bp + 4)) &&& 0x0000ffff) <<< 10).toNat = b * 1024 := by
    rw [setLow_and, arg, UInt32.toNat_shiftLeft, UInt16.toNat_toUInt32, UInt16.toNat_ofNat',
      show (10 : UInt32).toNat % 32 = 10 from rfl, Nat.shiftLeft_eq]
    omega
  rw [Int32.le_iff_toInt_le, toInt32_small (by omega), toInt32_small (by omega), start]
  omega

/-- In `load_zone`, behind the size check: nothing has been written but the saved BP. -/
structure SizeChecked {σ : Type} (drive : UInt8) (inode : Inode) (first : UInt32) (b : Nat) (m s : Machine σ) :
    Prop extends Ready drive inode first s where
  es : s.es = m.es
  requests : s.requests = m.requests
  sp : s.sp = 0xff4
  bp : s.bp = 0xffa
  arg : s.word 0 0xffe = UInt16.ofNat b
  saved : s.word 0 0xffa = m.bp
  outside : ∀ x, x < 0xffa ∨ 0xffc ≤ x → s.memory x = m.memory x

theorem loadZone_checks (int13 : Machine σ → Machine σ) (back : Nat → UInt16) (ready : Ready drive inode first m)
    (sp : m.sp = 0xffc) {b : Nat} (arg : m.word 0 0xffe = UInt16.ofNat b) (size : inode.iSize.toNat ≤ 2 ^ 25)
    (low : b ≤ 2 ^ 15) :
    ∃ s, SizeChecked drive inode first b m s ∧ loadZone int13 back m =
      if inode.iSize.toNat ≤ b * 1024 then .error .errZone s
      else (do
        modify lzLevels
        lzLoadLevel int13 (back 1) 2 inodeZones
        lzDive int13 (back 2) 4 (lzDive int13 (back 3) 6 (pure ()))
        modify fun m => m.addSp 6
        modify Machine.popBp : Vbr σ Unit) s := by
  have top : m.sp.toNat = 0xffc := congrArg UInt16.toNat sp
  have two := push_pushed ready.ss (by omega) m.bp
  have saved := push_top ready.ss m.bp
  have down : (m.push m.bp).sp = 0xffa := by
    change m.sp - 2 = 0xffa
    rw [sp]
    rfl
  generalize entry : m.push m.bp = p at two saved down
  have outside {x : Nat} (away : x < 0xffa ∨ 0xffc ≤ x) : p.memory x = m.memory x :=
    two.away x (by rw [down, top]; exact away)
  -- The three variables are below the saved BP; nothing has been written there.
  generalize enter : ({ p with bp := p.sp, sp := p.sp - 6 } : Machine σ) = q
  have fields : q.ds = m.ds ∧ q.es = m.es ∧ q.ss = m.ss ∧ q.requests = m.requests ∧ q.bp = 0xffa ∧ q.sp = 0xff4 ∧
      q.memory = p.memory := by
    rw [← enter]
    refine ⟨two.ds, two.es, two.ss, two.requests, down, ?_, rfl⟩
    change p.sp - 6 = 0xff4
    rw [down]
    rfl
  obtain ⟨ds, es, ss, requests, bp, sp', memory⟩ := fields
  have readyIn : Ready drive inode first q := ready.keep ds ss fun x here => by rw [memory, outside (by omega)]
  have argIn : q.word 0 0xffe = UInt16.ofNat b := by
    rw [← arg]
    exact word_congr fun i low => by rw [memory, outside (by right; change 0xffc ≤ 0xffe + i; omega)]
  have savedIn : q.word 0 0xffa = m.bp := by
    rw [← saved, down]
    exact word_congr fun i low => by rw [memory]
  have sizeIn : q.dword q.ds inodeSize = inode.iSize := by rw [readyIn.ds, readyIn.size]
  have compare := lzSize_compare (m := q) (by rw [sizeIn]; exact size) low (by rw [readyIn.ss, bp]; exact argIn)
  rw [sizeIn] at compare
  have sized : (lzSize q).ds = q.ds ∧ (lzSize q).es = q.es ∧ (lzSize q).ss = q.ss ∧
      (lzSize q).requests = q.requests ∧ (lzSize q).bp = q.bp ∧ (lzSize q).sp = q.sp ∧
      (lzSize q).memory = q.memory := ⟨rfl, rfl, rfl, rfl, rfl, rfl, rfl⟩
  generalize start : lzSize q = s at compare sized
  obtain ⟨ds₁, es₁, ss₁, requests₁, bp₁, sp₁, memory₁⟩ := sized
  refine ⟨s, { readyIn.keep ds₁ ss₁ fun x _ => by rw [memory₁] with
    es := es₁.trans es
    requests := requests₁.trans requests
    sp := sp₁.trans sp'
    bp := bp₁.trans bp
    arg := (word_congr fun i _ => by rw [memory₁]).trans argIn
    saved := (word_congr fun i _ => by rw [memory₁]).trans savedIn
    outside := fun x away => by rw [memory₁, memory, outside away] }, ?_⟩
  unfold loadZone
  rw [modify_bind, modify_bind, modify_bind, get_bind, entry, enter, start]
  by_cases past : inode.iSize.toNat ≤ b * 1024
  · rw [if_pos past, if_pos (compare.mpr past)]
    rfl
  · rw [if_neg past, if_neg (mt compare.mp past)]

theorem loadZone_loads (bios : LoadsSectors int13 drive disk) (back : Nat → UInt16)
    (ready : Ready drive inode first m) (sp : m.sp = 0xffc) {b : Nat} (arg : m.word 0 0xffe = UInt16.ofNat b)
    (size : inode.iSize.toNat ≤ 2 ^ 25) (within : b * 1024 < inode.iSize.toNat) :
    ∃ m' way, loadZone int13 back m = .ok () m' ∧
      Loaded disk 16 (zoneLba first (zoneOnDisk disk first inode (dataSlot b))) way m m' := by
  have top : m.sp.toNat = 0xffc := congrArg UInt16.toNat sp
  obtain ⟨s, checked, run⟩ := loadZone_checks int13 back ready sp arg size (by omega)
  rw [if_neg (by omega)] at run
  obtain ⟨frame, es, requests, kept⟩ := lzLevels_enters checked.toReady checked.sp checked.bp
    (show b < 2 ^ 15 by omega) checked.arg
  generalize levels : lzLevels s = f at frame es requests kept
  have low : f.sp.toNat = 0xff4 := congrArg UInt16.toNat frame.sp
  have pushed : Pushed 8 m f :=
    ⟨by omega, frame.ds.trans ready.ds.symm, es.trans checked.es, frame.ss.trans ready.ss.symm,
      requests.trans checked.requests, fun x away => by rw [kept x (by omega), checked.outside x (by omega)]⟩
  obtain ⟨m₁, m₂, way, load, dive, loaded⟩ := levels_load bios (by omega) frame (back 1) (back 2) (back 3)
  have frame' := frame.keep loaded
  have restored : m₂.word m₂.ss (m₂.sp + 6) = m.bp := by
    rw [frame'.ss, frame'.sp, ← checked.saved, show (0xff4 : UInt16) + 6 = 0xffa from rfl]
    refine word_congr fun i _ => ?_
    have place : (0xffa : UInt16).toNat = 0xffa := rfl
    rw [loaded.away _ (by omega) (by omega) (by omega), kept _ (by omega)]
  refine ⟨(m₂.addSp 6).popBp, way, ?_, loaded.popped pushed ?_ restored rfl rfl rfl rfl rfl⟩
  · rw [run, modify_bind, levels, bind_of_ok load, bind_of_ok dive, modify_bind]
    rfl
  · change m₂.sp + 6 + 2 = m.sp
    rw [frame'.sp, sp]
    rfl

/-- The argument and the return address of `load_zone`. -/
theorem zone_pushed (ready : Ready drive inode first m) (sp : m.sp = stackTop) (zone back₀ : UInt16) :
    Pushed 4 m ((m.push zone).push back₀) ∧ ((m.push zone).push back₀).sp = 0xffc ∧
      ((m.push zone).push back₀).bp = m.bp ∧ ((m.push zone).push back₀).word 0 0xffe = zone ∧
      Ready drive inode first ((m.push zone).push back₀) := by
  have high : m.sp.toNat = 0x1000 := congrArg UInt16.toNat sp
  have one := push_pushed ready.ss (by omega) zone
  have arg := push_top ready.ss zone
  have down : (m.push zone).sp = 0xffe := by
    change m.sp - 2 = 0xffe
    rw [sp]
    rfl
  have bp : (m.push zone).bp = m.bp := rfl
  generalize m.push zone = p at one arg down bp
  have place : p.sp.toNat = 0xffe := congrArg UInt16.toNat down
  have two := push_pushed (one.ss.trans ready.ss) (by omega) back₀
  have down' : (p.push back₀).sp = 0xffc := by
    change p.sp - 2 = 0xffc
    rw [down]
    rfl
  have bp' : (p.push back₀).bp = m.bp := bp
  have both := one.trans two
  generalize p.push back₀ = c at two down' bp' both
  have below := both.sp
  refine ⟨both, down', bp', ?_, ready.keep both.ds both.ss fun x here => both.away x (by omega)⟩
  rw [← arg, down]
  exact word_congr fun i _ => two.away _ (by rw [place]; right; exact Nat.le_add_right _ _)

/-- `load_zone` loads the block that the slot leads to, by whatever the disk holds on the way. -/
theorem callLoadZone_loads (bios : LoadsSectors int13 drive disk) (back : Nat → UInt16)
    (ready : Ready drive inode first m) (sp : m.sp = stackTop) {b : Nat}
    (size : inode.iSize.toNat ≤ 2 ^ 25) (within : b * 1024 < inode.iSize.toNat) :
    ∃ m' way, callLoadZone int13 back (UInt16.ofNat b) m = .ok () m' ∧
      Loaded disk 20 (zoneLba first (zoneOnDisk disk first inode (dataSlot b))) way m m' := by
  obtain ⟨both, down, bp, arg, ready'⟩ := zone_pushed ready sp (UInt16.ofNat b) (back 0)
  obtain ⟨m', way, run, loaded⟩ := loadZone_loads bios back ready' down arg size within
  refine ⟨(m'.addSp 2).addSp 2, way, ?_, loaded.popped both ?_ (loaded.bp.trans bp) rfl rfl rfl rfl rfl⟩
  · unfold callLoadZone
    rw [modify_bind, bind_of_ok (call_of_ok run)]
    rfl
  · change m'.sp + 2 + 2 = m.sp
    rw [loaded.sp, down, sp]
    rfl

/-- It halts on a zone behind the end. -/
theorem callLoadZone_halts (int13 : Machine σ → Machine σ) (back : Nat → UInt16)
    (ready : Ready drive inode first m) (sp : m.sp = stackTop) {b : Nat}
    (size : inode.iSize.toNat ≤ 2 ^ 25) (low : b ≤ 2 ^ 15) (past : inode.iSize.toNat ≤ b * 1024) :
    ∃ m', callLoadZone int13 back (UInt16.ofNat b) m = .error .errZone m' := by
  obtain ⟨-, down, -, arg, ready'⟩ := zone_pushed ready sp (UInt16.ofNat b) (back 0)
  obtain ⟨s, -, run⟩ := loadZone_checks int13 back ready' down arg size low
  rw [if_pos past] at run
  refine ⟨s, ?_⟩
  have called : call (back 0) (loadZone int13 back) (m.push (UInt16.ofNat b)) = .error .errZone s := by
    unfold call
    rw [modify_bind, bind_of_error run]
  unfold callLoadZone
  rw [modify_bind, bind_of_error called]

/-! ## The install tool's zone -/

/-- The disk has the blocks of the tool's partition at `first + 2 * z`, without a wrap. -/
structure SamePartition (t : Tool) (disk : Nat → UInt8) (first : UInt32) : Prop where
  fits : ∀ z data, t.blockAt z = some data → first.toNat + 2 * z.toNat < 2 ^ 32
  bytes : ∀ z data, t.blockAt z = some data → ∀ i : Fin 1024, disk (512 * (first.toNat + 2 * z.toNat) + i) = data i

variable {t t' : Tool} {z : UInt16} {s : Slot}

theorem zoneLba_toNat (fits : first.toNat + 2 * z.toNat < 2 ^ 32) :
    (zoneLba first z).toNat = first.toNat + 2 * z.toNat := by
  rw [zoneLba, UInt32.toNat_add, UInt32.toNat_shiftLeft, UInt16.toNat_toUInt32,
    show (1 : UInt32).toNat % 32 = 1 from rfl, Nat.shiftLeft_eq]
  omega

/-- One step on the way: the word of a block that the tool sees is the word on the disk. -/
theorem zoneOnDisk_entry (same : SamePartition t disk first) {i : Nat} (low : i < 512)
    (above : ∀ p, t.zoneIn inode s = some p → zoneOnDisk disk first inode s = p)
    (found : t.zoneIn inode (.entry s i) = some z) : zoneOnDisk disk first inode (.entry s i) = z := by
  obtain ⟨p, data, way, there, rfl⟩ := zoneIn_entry_iff.mp found
  have low' : 2 * i < 1024 := by omega
  have high : 2 * i + 1 < 1024 := by omega
  have place {x : Nat} (small : x < 1024) : Fin.ofNat 1024 x = ⟨x, small⟩ := Fin.ext (Nat.mod_eq_of_lt small)
  have left := same.bytes p data there ⟨2 * i, low'⟩
  have right := same.bytes p data there ⟨2 * i + 1, high⟩
  rw [zoneOnDisk, above p way, diskWord, zoneLba_toNat (same.fits p data there), left, right, Block.word,
    place low', place high]

/-- Where the tool finds a zone in the slot of a block, the loader finds the same one. -/
theorem zoneOnDisk_dataSlot (same : SamePartition t disk first) {b : Nat} (low : b < 519 + 512 * 512)
    (found : t.zoneIn inode (dataSlot b) = some z) : zoneOnDisk disk first inode (dataSlot b) = z := by
  have field {i : Nat} : ∀ p, t.zoneIn inode (.field i) = some p → zoneOnDisk disk first inode (.field i) = p :=
    fun p way => Option.some_inj.mp way
  revert found
  unfold dataSlot
  split
  · exact field z
  split
  · exact zoneOnDisk_entry same (by omega) field
  · exact zoneOnDisk_entry same (by omega) fun p => zoneOnDisk_entry same (by omega) field

/-- `load_zone` does not halt on a block of the file, and what it loads last is the zone that the
install tool names. -/
theorem loader_loads_same_zone (bios : LoadsSectors int13 drive disk) (back : Nat → UInt16)
    (ready : Ready drive inode first m) (sp : m.sp = stackTop) (same : SamePartition t disk first)
    {b : Nat} (size : inode.iSize.toNat ≤ 2 ^ 25) (within : b * 1024 < inode.iSize.toNat) :
    ∃ m', callLoadZone int13 back (UInt16.ofNat b) m = .ok () m' ∧
      ∀ z t', minixFileBlock2Block inode b t = .ok z t' → first.toNat + 2 * z.toNat < 2 ^ 32 →
        ∃ lba way, m'.requests = lba :: (way ++ m.requests) ∧ lba.toNat = first.toNat + 2 * z.toNat ∧
          ∀ i < 1024, m'.memory (bufferBase.toNat + i) = disk (512 * lba.toNat + i) := by
  obtain ⟨m', way, run, loaded⟩ := callLoadZone_loads bios back ready sp size within
  refine ⟨m', run, fun z t' returned fits => ?_⟩
  obtain ⟨-, -, -, low, found⟩ := minixFileBlock2Block_ok_iff.mp returned
  rw [zoneOnDisk_dataSlot same low found] at loaded
  exact ⟨_, way, loaded.requests, zoneLba_toNat fits, loaded.buffer⟩

/-- INT 0x13, AH = 0x42, on a drive that has no errors. -/
def readSectors (disk : Nat → UInt8) (m : Machine Unit) : Machine Unit :=
  let start := linear (m.word m.ds (m.si + 6)) (m.word m.ds (m.si + 4))
  let lba := (m.dword m.ds (m.si + 8)).toNat + 2 ^ 32 * (m.dword m.ds (m.si + 12)).toNat
  { m with
    eax := m.eax &&& 0xffff00ff
    carry := false
    memory := fun x =>
      if start ≤ x ∧ x < start + 512 * (m.word m.ds (m.si + 2)).toNat then disk (512 * lba + (x - start))
      else m.memory x }

theorem readSectors_loads (disk : Nat → UInt8) (drive : UInt8) : LoadsSectors (readSectors disk) drive disk where
  carry _ _ _ _ _ := rfl
  kept _ _ _ _ _ := ⟨rfl, rfl, rfl, rfl, rfl⟩
  memory m segment offset lba asks x := by
    simp only [readSectors, asks.segment, asks.offset, asks.low, asks.high, asks.count, UInt32.toNat_zero,
      Nat.mul_zero, Nat.add_zero, UInt16.reduceToNat, Nat.reduceMul]

/-- A partition that starts with the image. -/
theorem samePartition_whole (start : t.ps = 0) : SamePartition t t.img.bytes 0 where
  fits z _ _ := by
    have small := z.toNat_lt
    change 0 + 2 * z.toNat < 2 ^ 32
    omega
  bytes z data there i := by
    have off : (t.blockOff z).toNat = 1024 * z.toNat := by
      rw [Tool.blockOff, start]
      change ((0 : Int) + 1024 * z.toNat).toNat = _
      omega
    unfold Tool.blockAt at there
    split at there
    · unfold Image.read at there
      split at there
      · cases there
        rw [off]
        congr 1
        change 512 * (0 + 2 * z.toNat) + _ = _
        omega
      · cases there
    · cases there

/-- A disk whose block 5 leads to block 9, and a file of eight blocks that needs it. -/
def indirectDisk : Tool := { smallDisk with img := ⟨fun x => if x = 5 * 1024 then 9 else 0, 20 * 1024⟩ }

def indirectFile : Inode := ⟨0, 0, 8192, 0, 0, 0, fun i => if i = 7 then 5 else 0⟩

def loadingMachine : Machine Unit where
  eax := 0
  ebx := 0
  ecx := 0
  edx := 0x80
  si := 0
  di := 0
  bp := stackTop
  sp := stackTop
  ds := 0
  es := 0
  ss := 0
  carry := false
  memory x := if x = 0x510 then 0x80 else if x = 0x521 then 0x20 else if x = 0x538 then 5 else 0
  requests := []
  bios := ()

theorem loader_loads_same_zone_indirect :
    ∃ m', callLoadZone (readSectors indirectDisk.img.bytes) (fun _ => 0) 7 loadingMachine = .ok () m' ∧
      ∃ lba way, m'.requests = lba :: (way ++ []) ∧ lba.toNat = 18 ∧
        ∀ i < 1024, m'.memory (bufferBase.toNat + i) = indirectDisk.img.bytes (512 * lba.toNat + i) := by
  have ready : Ready 0x80 indirectFile 0 loadingMachine := by
    refine ⟨rfl, rfl, rfl, by decide, by decide, by decide⟩
  have same : SamePartition indirectDisk indirectDisk.img.bytes 0 := samePartition_whole rfl
  obtain ⟨m', run, agree⟩ := loader_loads_same_zone (b := 7) (readSectors_loads _ 0x80) (fun _ => 0) ready
    rfl same (by decide) (by decide)
  have returned : minixFileBlock2Block indirectFile 7 indirectDisk = .ok 9 indirectDisk :=
    minixFileBlock2Block_ok_iff.mpr ⟨rfl, by decide, by decide, by decide, by decide⟩
  exact ⟨m', run, agree 9 indirectDisk returned (by decide)⟩

end AtaKernel.Boot
