import AtaKernel.Minix.Image

/-! How the commands `boot` and `kernel` of the install tool come to a partition:
the entries of the master boot record, the one that is selected, and the offset
of its first sector in the image file. Each command selects by code of its own,
and each does its own arithmetic on the offset. -/
namespace AtaKernel.Minix
open StateProgram

/-! ## The master boot record -/

/-- `struct mbr_entry` -/
structure MbrEntry where
  status : UInt8
  type : UInt8
  lbaStart : UInt32
  sectorsCount : UInt32

/-- The entries of `struct mbr`. -/
abbrev Mbr := Fin 4 → MbrEntry

instance mbr_neZero : NeZero 4 := ⟨by decide⟩

/-- `status & 0x80` -/
def MbrEntry.Active (e : MbrEntry) : Prop := e.status &&& 0x80 ≠ 0

instance (e : MbrEntry) : Decidable e.Active := inferInstanceAs (Decidable (_ ≠ _))

def Image.dword (img : Image) (off : Nat) : UInt32 :=
  UInt32.ofNat ((img.bytes off).toNat + 256 * (img.bytes (off + 1)).toNat +
    65536 * (img.bytes (off + 2)).toNat + 16777216 * (img.bytes (off + 3)).toNat)

def Image.mbrEntry (img : Image) (i : Nat) : MbrEntry where
  status := img.bytes (446 + 16 * i)
  type := img.bytes (446 + 16 * i + 4)
  lbaStart := img.dword (446 + 16 * i + 8)
  sectorsCount := img.dword (446 + 16 * i + 12)

/-- `fread` of the first sector. -/
def Image.mbr (img : Image) : Option Mbr := if 512 ≤ img.size then some fun i => img.mbrEntry i else none

/-- The first entry that is marked active. -/
def FirstActive (mbr : Mbr) (i : Fin 4) : Prop := (mbr i).Active ∧ ∀ j < i, ¬ (mbr j).Active

/-! ## Arguments -/

/-- `isspace` -/
def isSpace (c : Char) : Bool := c = ' ' || (9 ≤ c.toNat && c.toNat ≤ 13)

/-- The number at the start of a text, 0 if there is none. -/
def digitsValue (s : List Char) : Nat :=
  (s.takeWhile Char.isDigit).foldl (fun v c => 10 * v + (c.toNat - '0'.toNat)) 0

def signedValue : List Char → Int
  | '-' :: s => -(digitsValue s : Int)
  | '+' :: s => digitsValue s
  | s => digitsValue s

/-- C does not say what comes out where an `int` cannot hold the number. -/
def atoi (s : List Char) : Option Int32 :=
  let n := signedValue (s.dropWhile isSpace)
  if -2 ^ 31 ≤ n ∧ n < 2 ^ 31 then some (Int32.ofInt n) else none

/-- A file that is only read: whether it opens, what is in it, and whether reading on at its end is an error. -/
structure InputFile where
  opens : Bool
  bytes : Array UInt8
  ferror : Bool

/-! ## Selection -/

/-- `for (; partno < 4; partno ++)`, with `left` entries to the end. -/
def bootloaderScan (mbr : Mbr) : Nat → Nat → Nat
  | 0, partno => partno
  | left + 1, partno =>
    if (mbr (Fin.ofNat 4 partno)).Active then partno else bootloaderScan mbr left (partno + 1)

/-- `for (; i < 4; i ++)`, which leaves `partno` as it is where no entry is active. -/
def minixScan (mbr : Mbr) (partno : Int) : Nat → Nat → Int
  | 0, _ => partno
  | left + 1, i => if (mbr (Fin.ofNat 4 i)).Active then i else minixScan mbr partno left (i + 1)

/-- The partition that `bootloader_write` selects. -/
def bootloaderPartno (mbr : Mbr) : Option (List Char) → Except Quit (Fin 4)
  | some s =>
    match atoi s with
    | none => .error .undefined
    | some n =>
      let partno := n.toUInt32
      -- `partno < 0` does not hold of an unsigned number.
      if low : 3 < partno.toNat then .error (.screamed "Partition number must be in [0,3].")
      else .ok ⟨partno.toNat, by omega⟩
  | none =>
    let partno := bootloaderScan mbr 4 0
    if partno = 4 then .error (.screamed "No bootbable partition found.")
    else .ok (Fin.ofNat 4 partno)

/-- The index that `minix_write` gets to. With no argument and no active entry the local is as it was,
which is `stale`. -/
def minixIndex (mbr : Mbr) (stale : Int32) : Option (List Char) → Except Quit Int
  | some s =>
    match atoi s with
    | none => .error .undefined
    | some n => if n.toInt = -2 ^ 31 then .error .undefined else .ok (n.toInt - 1)
  | none => .ok (minixScan mbr stale.toInt 4 0)

/-- The partition that `minix_write` selects. -/
def minixPartno (mbr : Mbr) (stale : Int32) (arg : Option (List Char)) : Except Quit (Fin 4) := do
  let partno ← minixIndex mbr stale arg
  if inside : 0 ≤ partno ∧ partno ≤ 3 then
    let i : Fin 4 := ⟨partno.toNat, by omega⟩
    if (mbr i).type = 0x81 then .ok i
    else .error (.screamed "Selected partition is not a valid MINIX FS partition.")
  else .error (.screamed "Partition number must be in range 1 - 4.")

/-! ## Offsets -/

/-- `LBA2OFF(n)` -/
def lba2Off (n : UInt32) : UInt32 := 512 * n

/-- `ps = LBA2OFF(lba_start)`, an `int`. -/
def partitionStart (lba : UInt32) : Int32 := (lba2Off lba).toInt32

/-- `fseek` and `fwrite` of some bytes. -/
def Image.writeBytes (img : Image) (off : Nat) (data : Array UInt8) : Image where
  bytes x :=
    if off ≤ x ∧ x < off + data.size then data.getD (x - off) 0
    else if x < img.size then img.bytes x else 0
  size := if data.size = 0 then img.size else max img.size (off + data.size)

/-! ## bootloader_write -/

/-- The bytes of `boot` that are written: what was read, with `vbr_offset` set. -/
def bootBytes (file : Array UInt8) (lba : UInt32) : Array UInt8 :=
  Array.ofFn fun j : Fin (min 1024 file.size) =>
    if 2 ≤ j.val ∧ j.val < 6 then UInt8.ofNat (lba.toNat / 256 ^ (j.val - 2)) else file.getD j.val 0

/-- Behind the selection. -/
def bootloaderStore (boot : InputFile) (entry : MbrEntry) : EStateM Quit Image Unit :=
  if entry.sectorsCount = 0 then throw (.screamed "Selected partition seems to be blank.")
  -- `fseek` takes the product as it is, an `unsigned int`.
  else if ¬ boot.opens then throw (.screamed "Could not open bootloader.")
  else if boot.bytes.size < 1024 ∧ boot.ferror then throw (.screamed "Could not read bootloader.")
  else modify fun img => img.writeBytes (lba2Off entry.lbaStart).toNat (bootBytes boot.bytes entry.lbaStart)

def bootloaderWrite (diskOpens : Bool) (boot : InputFile) (arg : Option (List Char)) : EStateM Quit Image Unit :=
  if ¬ diskOpens then throw (.screamed "Could not open disk image.")
  else do
    match (← get).mbr with
    | none => throw (.screamed "Could not read mbr.")
    | some mbr =>
      match bootloaderPartno mbr arg with
      | .error e => throw e
      | .ok i => bootloaderStore boot (mbr i)

/-! ## Exact offsets -/

variable {lba : UInt32} {blk : UInt16} {t : Tool} {data : Block} {img : Image}

/-- Byte `i` of block `blk` of a partition is at `exactOff lba blk + i`. -/
def exactOff (lba : UInt32) (blk : UInt16) : Nat := 512 * lba.toNat + 1024 * blk.toNat

/-- `minix_load_block` reads the block at its offset, or the tool stops with a message. -/
def LoadsExactly (lba : UInt32) (blk : UInt16) : Prop :=
  ∀ t : Tool, t.ps = partitionStart lba →
    (∃ data, t.img.read (exactOff lba blk) = some data ∧ minixLoadBlock blk t = .ok data t) ∨
      ∃ message, minixLoadBlock blk t = .error (.screamed message) t

/-- `minix_store_block` writes the block at its offset, or the tool stops with a message and has written
nothing. -/
def StoresExactly (lba : UInt32) (blk : UInt16) : Prop :=
  ∀ (t : Tool) (data : Block), t.ps = partitionStart lba →
    minixStoreBlock blk data t = .ok () { t with img := t.img.write (exactOff lba blk) data } ∨
      ∃ message, minixStoreBlock blk data t = .error (.screamed message) t

/-- `bootloader_write` writes at most a block at the start of the partition, or stops with a message and
has written nothing. -/
def BootsExactly (lba : UInt32) : Prop :=
  ∀ diskOpens boot arg (img : Image) mbr i, img.mbr = some mbr → bootloaderPartno mbr arg = .ok i →
    (mbr i).lbaStart = lba →
      (∃ bytes : Array UInt8, bytes.size ≤ 1024 ∧
        bootloaderWrite diskOpens boot arg img = .ok () (img.writeBytes (512 * lba.toNat) bytes)) ∨
      ∃ message, bootloaderWrite diskOpens boot arg img = .error (.screamed message) img

/-- The offset of the block does not wrap, or it wraps to a negative one, which `fseek` refuses. -/
def BlockFits (lba : UInt32) (blk : UInt16) : Prop :=
  (lba.toNat < 2 ^ 22 ∧ exactOff lba blk < 2 ^ 31) ∨
    (2 ^ 22 ≤ lba.toNat % 2 ^ 23 ∧ 512 * (lba.toNat % 2 ^ 23) + 1024 * blk.toNat < 2 ^ 32)

theorem lba2Off_toNat (lba : UInt32) : (lba2Off lba).toNat = 512 * (lba.toNat % 2 ^ 23) := by
  rw [lba2Off, UInt32.toNat_mul, show (512 : UInt32).toNat = 512 from rfl]
  omega

theorem partitionStart_toInt (lba : UInt32) : (partitionStart lba).toInt =
    if lba.toNat % 2 ^ 23 < 2 ^ 22 then 512 * ((lba.toNat % 2 ^ 23 : Nat) : Int)
    else 512 * ((lba.toNat % 2 ^ 23 : Nat) : Int) - 2 ^ 32 := by
  have off := lba2Off_toNat lba
  change (lba2Off lba).toBitVec.toInt = _
  rw [BitVec.toInt_eq_toNat_cond, show (lba2Off lba).toBitVec.toNat = (lba2Off lba).toNat from rfl, off]
  split <;> split <;> omega

/-- Where an access to a block goes, by the outcomes of `seekBlock`. -/
theorem seekBlock_cases (z : UInt16) (complaint : String) (t : Tool) :
    (2 ^ 31 ≤ t.blockOff z ∧ seekBlock z complaint t = .error .undefined t) ∨
      (t.blockOff z < 0 ∧ seekBlock z complaint t = .error (.screamed complaint) t) ∨
      (t.Reaches z ∧ seekBlock z complaint t = .ok (t.blockOff z).toNat t) := by
  unfold seekBlock Tool.Reaches
  rw [get_bind]
  split
  · next far => exact .inl ⟨far, rfl⟩
  split
  · next negative => exact .inr (.inl ⟨negative, rfl⟩)
  · next near_ positive => exact .inr (.inr ⟨⟨by omega, by omega⟩, rfl⟩)

theorem blockOff_cases (ps : t.ps = partitionStart lba) (blk : UInt16) :
    (lba.toNat % 2 ^ 23 < 2 ^ 22 ∧ t.blockOff blk = 512 * ((lba.toNat % 2 ^ 23 : Nat) : Int) + 1024 * blk.toNat) ∨
      (2 ^ 22 ≤ lba.toNat % 2 ^ 23 ∧
        t.blockOff blk = 512 * ((lba.toNat % 2 ^ 23 : Nat) : Int) - 2 ^ 32 + 1024 * blk.toNat) := by
  rw [Tool.blockOff, ps, partitionStart_toInt]
  unfold minixBlockSize
  split
  · next low => exact .inl ⟨low, rfl⟩
  · next high => exact .inr ⟨by omega, rfl⟩

/-- A block fits exactly where its offset is right or negative. -/
theorem blockFits_iff (ps : t.ps = partitionStart lba) : BlockFits lba blk ↔
    (t.Reaches blk ∧ (t.blockOff blk).toNat = exactOff lba blk) ∨ t.blockOff blk < 0 := by
  have wide := lba.toNat_lt
  have small := blk.toNat_lt
  unfold BlockFits Tool.Reaches exactOff
  obtain ⟨low, off⟩ | ⟨high, off⟩ := blockOff_cases ps blk <;> rw [off] <;> omega

theorem load_at (reaches : t.Reaches blk) : minixLoadBlock blk t =
    match t.img.read (t.blockOff blk).toNat with
    | some data => .ok data t
    | none => .error (.screamed "Could not read file block.") t := by
  unfold minixLoadBlock
  obtain ⟨far, -⟩ | ⟨negative, -⟩ | ⟨-, sought⟩ := seekBlock_cases blk "Could not seek to block." t
  · exact absurd reaches.2 (by omega)
  · exact absurd reaches.1 (by omega)
  · rw [bind_of_ok sought, get_bind]
    cases t.img.read (t.blockOff blk).toNat <;> rfl

theorem loadsExactly_iff : LoadsExactly lba blk ↔ BlockFits lba blk := by
  constructor
  · intro exactly
    by_contra wraps
    have tool (img : Image) : ∃ t : Tool, t.img = img ∧ t.ps = partitionStart lba :=
      ⟨⟨img, partitionStart lba, ⟨0, 0, 0, 0, 0, 0, 0, 0, 0⟩, #[], #[]⟩, rfl, rfl⟩
    -- An image that ends with the block that is read.
    obtain ⟨t₀, -, ps₀⟩ := tool ⟨fun _ => 0, 0⟩
    obtain ⟨t, image, ps⟩ := tool ⟨fun _ => 0, (t₀.blockOff blk).toNat + 1024⟩
    have same : t.blockOff blk = t₀.blockOff blk := by rw [Tool.blockOff, Tool.blockOff, ps, ps₀]
    rw [blockFits_iff ps] at wraps
    obtain ⟨far, sought⟩ | ⟨negative, -⟩ | ⟨reaches, -⟩ := seekBlock_cases blk "Could not seek to block." t
    · have run : minixLoadBlock blk t = .error .undefined t := bind_of_error sought
      obtain ⟨data, -, ok⟩ | ⟨message, stopped⟩ := exactly t ps
      · rw [run] at ok
        cases ok
      · rw [run] at stopped
        cases stopped
    · exact wraps (.inr negative)
    · have there : t.img.read (t.blockOff blk).toNat = some fun _ => 0 := by
        rw [image, same]
        exact if_pos (Nat.le_refl _)
      have run := load_at reaches
      rw [there] at run
      obtain ⟨data, read, -⟩ | ⟨message, stopped⟩ := exactly t ps
      · have within : exactOff lba blk + 1024 ≤ (t.blockOff blk).toNat + 1024 := by
          unfold Image.read at read
          split at read
          · next fits =>
            rw [image, ← same] at fits
            exact fits
          · cases read
        refine wraps (.inl ⟨reaches, ?_⟩)
        have wide := lba.toNat_lt
        have zero_ := reaches.1
        unfold exactOff at within ⊢
        obtain ⟨low, off⟩ | ⟨high, off⟩ := blockOff_cases ps blk <;> rw [off] at within zero_ ⊢ <;> omega
      · rw [run] at stopped
        cases stopped
  · intro fits t ps
    obtain ⟨reaches, exact_⟩ | negative := (blockFits_iff ps).mp fits
    · have run := load_at reaches
      rw [exact_] at run
      cases read : t.img.read (exactOff lba blk) with
      | some data =>
        rw [read] at run
        exact .inl ⟨data, rfl, run⟩
      | none =>
        rw [read] at run
        exact .inr ⟨_, run⟩
    · obtain ⟨far, -⟩ | ⟨-, sought⟩ | ⟨reaches, -⟩ := seekBlock_cases blk "Could not seek to block." t
      · omega
      · exact .inr ⟨_, bind_of_error sought⟩
      · exact absurd reaches.1 (by omega)

theorem store_at (reaches : t.Reaches blk) : minixStoreBlock blk data t =
    .ok () { t with img := t.img.write (t.blockOff blk).toNat data } :=
  minixStoreBlock_ok_iff.mpr ⟨reaches, rfl⟩

theorem storesExactly_iff : StoresExactly lba blk ↔ BlockFits lba blk := by
  constructor
  · intro exactly
    by_contra wraps
    -- The size of an empty image tells where the block went.
    obtain ⟨t, image, ps⟩ : ∃ t : Tool, t.img = ⟨fun _ => 0, 0⟩ ∧ t.ps = partitionStart lba :=
      ⟨⟨⟨fun _ => 0, 0⟩, partitionStart lba, ⟨0, 0, 0, 0, 0, 0, 0, 0, 0⟩, #[], #[]⟩, rfl, rfl⟩
    rw [blockFits_iff ps] at wraps
    obtain ⟨far, sought⟩ | ⟨negative, -⟩ | ⟨reaches, -⟩ := seekBlock_cases blk "Could not seek to flush block." t
    · have run : minixStoreBlock blk (fun _ => 0) t = .error .undefined t := bind_of_error sought
      obtain ok | ⟨message, stopped⟩ := exactly t (fun _ => 0) ps
      · rw [run] at ok
        cases ok
      · rw [run] at stopped
        cases stopped
    · exact wraps (.inr negative)
    · obtain ok | ⟨message, stopped⟩ := exactly t (fun _ => 0) ps
      · rw [store_at reaches] at ok
        have same := congrArg (fun r : EStateM.Result Quit Tool Unit => match r with
          | .ok _ t => t.img.size
          | .error _ t => t.img.size) ok
        change max t.img.size ((t.blockOff blk).toNat + 1024) = max t.img.size (exactOff lba blk + 1024) at same
        have empty : t.img.size = 0 := by rw [image]
        rw [empty] at same
        exact wraps (.inl ⟨reaches, by omega⟩)
      · rw [store_at reaches] at stopped
        cases stopped
  · intro fits t data ps
    obtain ⟨reaches, exact_⟩ | negative := (blockFits_iff ps).mp fits
    · have run := @store_at blk t data reaches
      rw [exact_] at run
      exact .inl run
    · obtain ⟨far, -⟩ | ⟨-, sought⟩ | ⟨reaches, -⟩ := seekBlock_cases blk "Could not seek to flush block." t
      · omega
      · exact .inr ⟨_, bind_of_error sought⟩
      · exact absurd reaches.1 (by omega)

theorem writeBytes_size (img : Image) (off : Nat) (bytes : Array UInt8) : (img.writeBytes off bytes).size =
    if bytes.size = 0 then img.size else max img.size (off + bytes.size) := rfl

theorem writeBytes_within {off x : Nat} {bytes : Array UInt8} (within : off ≤ x ∧ x < off + bytes.size) :
    (img.writeBytes off bytes).bytes x = bytes.getD (x - off) 0 := if_pos within

theorem writeBytes_outside {off x : Nat} {bytes : Array UInt8} (inside : x < img.size)
    (outside : ¬ (off ≤ x ∧ x < off + bytes.size)) : (img.writeBytes off bytes).bytes x = img.bytes x := by
  change (if _ then _ else if _ then _ else _) = _
  rw [if_neg outside, if_pos inside]

theorem bootBytes_size (file : Array UInt8) (lba : UInt32) : (bootBytes file lba).size = min 1024 file.size :=
  Array.size_ofFn

theorem bootloaderStore_cases (boot : InputFile) (entry : MbrEntry) (img : Image) :
    bootloaderStore boot entry img =
        .ok () (img.writeBytes (lba2Off entry.lbaStart).toNat (bootBytes boot.bytes entry.lbaStart)) ∨
      ∃ message, bootloaderStore boot entry img = .error (.screamed message) img := by
  unfold bootloaderStore
  split
  · exact .inr ⟨_, rfl⟩
  split
  · exact .inr ⟨_, rfl⟩
  split
  · exact .inr ⟨_, rfl⟩
  · exact .inl rfl

theorem bootloaderWrite_selected {boot : InputFile} {arg : Option (List Char)} {mbr : Mbr} {i : Fin 4}
    (read : img.mbr = some mbr) (selected : bootloaderPartno mbr arg = .ok i) :
    bootloaderWrite true boot arg img = bootloaderStore boot (mbr i) img := by
  unfold bootloaderWrite
  rw [if_neg (fun closed => closed rfl), get_bind, read]
  dsimp only
  rw [selected]

/-- A disk image that is only a boot record, with an active entry for a partition at `lba`. -/
def bootDisk (lba : UInt32) : Image where
  bytes x :=
    if x = 446 then 0x80
    else if 454 ≤ x ∧ x < 458 then UInt8.ofNat (lba.toNat / 256 ^ (x - 454))
    else if x = 458 then 1
    else 0
  size := 512

theorem bootDisk_selects (lba : UInt32) : ∃ mbr, (bootDisk lba).mbr = some mbr ∧ bootloaderPartno mbr none = .ok 0 ∧
    (mbr 0).lbaStart = lba ∧ (mbr 0).sectorsCount ≠ 0 := by
  have marked : ((bootDisk lba).mbrEntry (Fin.ofNat 4 0)).Active := by
    change (0x80 : UInt8) &&& 0x80 ≠ 0
    decide
  have found : bootloaderScan (fun i => (bootDisk lba).mbrEntry i) 4 0 = 0 := if_pos marked
  refine ⟨_, rfl, ?_, ?_, ?_⟩
  · simp only [bootloaderPartno, found]
    rfl
  rotate_left
  · change UInt32.ofNat ((1 : UInt8).toNat + 256 * (0 : UInt8).toNat + 65536 * (0 : UInt8).toNat +
      16777216 * (0 : UInt8).toNat) ≠ 0
    decide
  have wide := lba.toNat_lt
  change UInt32.ofNat ((UInt8.ofNat (lba.toNat / 1)).toNat + 256 * (UInt8.ofNat (lba.toNat / 256)).toNat +
    65536 * (UInt8.ofNat (lba.toNat / 65536)).toNat + 16777216 * (UInt8.ofNat (lba.toNat / 16777216)).toNat) = lba
  apply UInt32.toNat_inj.mp
  rw [UInt32.toNat_ofNat', UInt8.toNat_ofNat', UInt8.toNat_ofNat', UInt8.toNat_ofNat', UInt8.toNat_ofNat']
  omega

/-- A boot loader of `n` bytes. -/
def bootFile (n : Nat) : InputFile := ⟨true, Array.replicate n 0x55, false⟩

theorem bootDisk_written (lba : UInt32) (n : Nat) : bootloaderWrite true (bootFile n) none (bootDisk lba) =
    .ok () ((bootDisk lba).writeBytes (lba2Off lba).toNat (bootBytes (bootFile n).bytes lba)) := by
  obtain ⟨mbr, read, selected, start, some_⟩ := bootDisk_selects lba
  rw [bootloaderWrite_selected read selected]
  unfold bootloaderStore
  rw [if_neg some_, if_neg (fun closed => closed rfl), if_neg (fun broken => nomatch broken.2), start]
  rfl

theorem bootsExactly_iff : BootsExactly lba ↔ lba.toNat < 2 ^ 23 := by
  constructor
  · intro exactly
    by_contra wraps
    obtain ⟨mbr, read, selected, start, -⟩ := bootDisk_selects lba
    obtain ⟨bytes, -, run⟩ | ⟨message, stopped⟩ :=
      exactly true (bootFile 1) none (bootDisk lba) mbr 0 read selected start
    · rw [bootDisk_written lba 1] at run
      obtain ⟨-, same⟩ := EStateM.Result.ok.inj run
      have size := congrArg Image.size same
      have first := congrArg (fun img => img.bytes 0) same
      have one : (bootBytes (bootFile 1).bytes lba).size = 1 := bootBytes_size _ _
      rw [writeBytes_size, writeBytes_size, one, if_neg Nat.one_ne_zero, lba2Off_toNat,
        show (bootDisk lba).size = 512 from rfl] at size
      by_cases none_ : bytes.size = 0
      · rw [if_pos none_] at size
        have start : (lba2Off lba).toNat = 0 := by
          rw [lba2Off_toNat]
          omega
        have written : (bootBytes (bootFile 1).bytes lba).getD 0 0 = 0x55 := by simp [bootBytes, bootFile]
        rw [writeBytes_within (by omega), writeBytes_outside (show 0 < 512 by decide) (by omega), start,
          Nat.sub_zero, written] at first
        exact absurd first (by change ¬ ((0x55 : UInt8) = 0); decide)
      · rw [if_neg none_] at size
        omega
    · rw [bootDisk_written lba 1] at stopped
      cases stopped
  · rintro low diskOpens boot arg img mbr i read selected rfl
    have off : (lba2Off (mbr i).lbaStart).toNat = 512 * (mbr i).lbaStart.toNat := by
      rw [lba2Off_toNat, Nat.mod_eq_of_lt low]
    cases diskOpens with
    | false => exact .inr ⟨_, rfl⟩
    | true =>
      rw [bootloaderWrite_selected read selected]
      obtain written | stopped := bootloaderStore_cases boot (mbr i) img
      · rw [off] at written
        exact .inl ⟨_, by rw [bootBytes_size]; exact Nat.min_le_left _ _, written⟩
      · exact .inr stopped

/-- The accesses of the tools are exact for exactly the partitions whose offsets do not wrap. -/
theorem disk_offsets_exact_iff (lba : UInt32) (blk : UInt16) :
    (LoadsExactly lba blk ↔ BlockFits lba blk) ∧ (StoresExactly lba blk ↔ BlockFits lba blk) ∧
      (BootsExactly lba ↔ lba.toNat < 2 ^ 23) :=
  ⟨loadsExactly_iff, storesExactly_iff, bootsExactly_iff⟩

/-- A partition at 4 GB: its boot loader is written over the boot record, and its blocks are taken from
the start of the disk. -/
theorem boot_record_overwritten : (∃ img', bootloaderWrite true (bootFile 1024) none (bootDisk 8388608) = .ok () img' ∧
      img'.bytes 0 = 0x55 ∧ (bootDisk 8388608).bytes 0 = 0) ∧
    ¬ BootsExactly 8388608 ∧ ¬ LoadsExactly 8388608 1 ∧ ¬ StoresExactly 8388608 1 := by
  have wraps : ¬ BlockFits 8388608 1 := by
    unfold BlockFits exactOff
    decide
  refine ⟨⟨_, bootDisk_written 8388608 1024, ?_, by decide⟩, ?_, ?_, ?_⟩
  · have size : (bootBytes (bootFile 1024).bytes 8388608).size = 1024 := by
      rw [bootBytes_size, bootFile, Array.size_replicate, Nat.min_self]
    have start : (lba2Off 8388608).toNat = 0 := rfl
    rw [writeBytes_within (by omega), start]
    simp [bootBytes, bootFile]
  · rw [bootsExactly_iff]
    decide
  · rw [loadsExactly_iff]
    exact wraps
  · rw [storesExactly_iff]
    exact wraps

/-! ## Which partition -/

section Selection

variable {mbr : Mbr} {stale : Int32} {s : List Char} {i j : Fin 4} {n : Int32}

/-- Both loops stop at the first active entry from `i` on, if there is one. -/
theorem scans_stop (mbr : Mbr) (partno : Int) {left i : Nat} (sum : i + left = 4) :
    (∃ j : Fin 4, i ≤ j.val ∧ (mbr j).Active ∧ (∀ k < j, i ≤ k.val → ¬ (mbr k).Active) ∧
        bootloaderScan mbr left i = j.val ∧ minixScan mbr partno left i = j.val) ∨
      ((∀ k : Fin 4, i ≤ k.val → ¬ (mbr k).Active) ∧ bootloaderScan mbr left i = 4 ∧
        minixScan mbr partno left i = partno) := by
  induction left generalizing i with
  | zero => exact .inr ⟨fun k past => absurd k.isLt (by omega), sum, rfl⟩
  | succ left ih =>
    have here : (Fin.ofNat 4 i).val = i := Nat.mod_eq_of_lt (by omega)
    rw [bootloaderScan, minixScan]
    by_cases active : (mbr (Fin.ofNat 4 i)).Active
    · rw [if_pos active, if_pos active]
      refine .inl ⟨Fin.ofNat 4 i, here.ge, active, fun k before past => ?_, here.symm, by rw [here]⟩
      exact absurd (Fin.lt_def.mp before) (by omega)
    · rw [if_neg active, if_neg active]
      have other {k : Fin 4} (past : i ≤ k.val) (behind : i + 1 ≤ k.val → ¬ (mbr k).Active) : ¬ (mbr k).Active := by
        obtain same | later : k.val = i ∨ i + 1 ≤ k.val := by omega
        · rw [show k = Fin.ofNat 4 i from Fin.ext (same.trans here.symm)]
          exact active
        · exact behind later
      obtain ⟨j, past, found, before, boot, kernel⟩ | ⟨none_, boot, kernel⟩ := ih (i := i + 1) (by omega)
      · exact .inl ⟨j, by omega, found, fun k low above => other above (before k low), boot, kernel⟩
      · exact .inr ⟨fun k above => other above (none_ k), boot, kernel⟩

theorem firstActive_unique (one : FirstActive mbr i) (two : FirstActive mbr j) : i = j := by
  obtain before | same | after := lt_trichotomy i j
  · exact absurd one.1 (two.2 i before)
  · exact same
  · exact absurd two.1 (one.2 j after)

theorem scan_active (active : FirstActive mbr i) (partno : Int) :
    bootloaderScan mbr 4 0 = i.val ∧ minixScan mbr partno 4 0 = i.val := by
  obtain ⟨j, -, found, before, boot, kernel⟩ | ⟨none_, -⟩ := scans_stop mbr partno (show 0 + 4 = 4 from rfl)
  · rw [firstActive_unique active ⟨found, fun k low => before k low (Nat.zero_le _)⟩]
    exact ⟨boot, kernel⟩
  · exact absurd active.1 (none_ i (Nat.zero_le _))

theorem bootloaderPartno_active (active : FirstActive mbr i) : bootloaderPartno mbr none = .ok i := by
  have found := (scan_active active 0).1
  simp only [bootloaderPartno, found]
  rw [if_neg (by omega)]
  exact congrArg Except.ok (Fin.ext (Nat.mod_eq_of_lt i.isLt))

theorem bootloaderPartno_none (none_ : ∀ k, ¬ (mbr k).Active) :
    bootloaderPartno mbr none = .error (.screamed "No bootbable partition found.") := by
  obtain ⟨j, -, found, -⟩ | ⟨-, boot, -⟩ := scans_stop mbr 0 (show 0 + 4 = 4 from rfl)
  · exact absurd found (none_ j)
  · simp only [bootloaderPartno, boot]
    rfl

/-- `bootloader_write` counts from 0. -/
theorem bootloaderPartno_some_iff : bootloaderPartno mbr (some s) = .ok i ↔ ∃ n, atoi s = some n ∧ n.toInt = i.val := by
  have value (n : Int32) : n.toUInt32.toNat = (n.toInt % 2 ^ 32).toNat := by
    have signed : n.toInt = n.toBitVec.toInt := rfl
    have unsigned : n.toUInt32.toNat = n.toBitVec.toNat := rfl
    rw [signed, unsigned, BitVec.toInt_eq_toNat_cond]
    have wide := n.toBitVec.isLt
    split <;> omega
  rw [bootloaderPartno]
  cases parsed : atoi s with
  | none => exact ⟨fun stopped => (nomatch stopped), fun ⟨n, some_, _⟩ => nomatch some_⟩
  | some n =>
    have least := n.le_toInt
    have most := n.toInt_lt
    dsimp only
    split
    · next high =>
      refine ⟨fun stopped => (nomatch stopped), ?_⟩
      rintro ⟨_, ⟨⟩, same⟩
      rw [value, same] at high
      omega
    · next low =>
      rw [Except.ok.injEq, Fin.ext_iff]
      change n.toUInt32.toNat = i.val ↔ _
      rw [value] at low ⊢
      constructor
      · intro same
        exact ⟨n, rfl, by omega⟩
      · rintro ⟨_, ⟨⟩, same⟩
        omega

theorem minixPartno_ok_iff {arg : Option (List Char)} : minixPartno mbr stale arg = .ok i ↔
    minixIndex mbr stale arg = .ok (i.val : Int) ∧ (mbr i).type = 0x81 := by
  unfold minixPartno
  cases minixIndex mbr stale arg with
  | error e => exact ⟨fun stopped => (nomatch stopped), fun both => nomatch both.1⟩
  | ok n =>
    rw [Except.ok.injEq]
    change (if _ : _ then if _ then _ else _ else _) = _ ↔ _
    split
    · next inside =>
      split
      · next minix =>
        rw [Except.ok.injEq, Fin.ext_iff]
        constructor
        · intro same
          change n.toNat = i.val at same
          refine ⟨by omega, ?_⟩
          rwa [show (⟨n.toNat, by omega⟩ : Fin 4) = i from Fin.ext same] at minix
        · rintro ⟨same, -⟩
          change n.toNat = i.val
          omega
      · next other =>
        refine ⟨fun stopped => (nomatch stopped), ?_⟩
        rintro ⟨same, minix⟩
        rw [show (⟨n.toNat, by omega⟩ : Fin 4) = i from Fin.ext (by change n.toNat = i.val; omega)] at other
        exact absurd minix other
    · next outside =>
      refine ⟨fun stopped => (nomatch stopped), ?_⟩
      rintro ⟨same, -⟩
      have low := i.isLt
      omega

/-- `minix_write` counts from 1. -/
theorem minixPartno_some_iff : minixPartno mbr stale (some s) = .ok i ↔
    (∃ n, atoi s = some n ∧ n.toInt = i.val + 1) ∧ (mbr i).type = 0x81 := by
  rw [minixPartno_ok_iff]
  refine and_congr_left fun _ => ?_
  rw [minixIndex]
  cases atoi s with
  | none => exact ⟨fun stopped => (nomatch stopped), fun ⟨n, some_, _⟩ => nomatch some_⟩
  | some n =>
    dsimp only
    split
    · next least =>
      refine ⟨fun stopped => (nomatch stopped), ?_⟩
      rintro ⟨_, ⟨⟩, same⟩
      omega
    · rw [Except.ok.injEq]
      constructor
      · intro same
        exact ⟨n, rfl, by omega⟩
      · rintro ⟨_, ⟨⟩, same⟩
        omega

theorem minixPartno_active (active : FirstActive mbr i) :
    minixPartno mbr stale none = .ok j ↔ j = i ∧ (mbr i).type = 0x81 := by
  rw [minixPartno_ok_iff, minixIndex, (scan_active active stale.toInt).2, Except.ok.injEq]
  constructor
  · rintro ⟨same, minix⟩
    obtain rfl : i = j := Fin.ext (by omega)
    exact ⟨rfl, minix⟩
  · rintro ⟨rfl, minix⟩
    exact ⟨rfl, minix⟩

/-- What the two commands select: without an argument the first active entry, if there is one, and with one
the entry of that number, which `boot` counts from 0 and `kernel` from 1. -/
theorem selected_partitions (mbr : Mbr) (stale : Int32) :
    (∀ i, FirstActive mbr i → bootloaderPartno mbr none = .ok i ∧
        ∀ j, minixPartno mbr stale none = .ok j → j = i) ∧
      ((∀ i, ¬ (mbr i).Active) → bootloaderPartno mbr none = .error (.screamed "No bootbable partition found.")) ∧
      (∀ s i, bootloaderPartno mbr (some s) = .ok i ↔ ∃ n, atoi s = some n ∧ n.toInt = i.val) ∧
      (∀ s j, minixPartno mbr stale (some s) = .ok j ↔
        (∃ n, atoi s = some n ∧ n.toInt = j.val + 1) ∧ (mbr j).type = 0x81) ∧
      ∀ s s' n n', atoi s = some n → atoi s' = some n' → n'.toInt = n.toInt + 1 → ∀ i j,
        bootloaderPartno mbr (some s) = .ok i → minixPartno mbr stale (some s') = .ok j → j = i := by
  refine ⟨fun i active => ⟨bootloaderPartno_active active,
    fun j selected => ((minixPartno_active active).mp selected).1⟩,
    bootloaderPartno_none, fun s i => bootloaderPartno_some_iff, fun s j => minixPartno_some_iff, ?_⟩
  intro s s' n n' parsed parsed' next i j boot kernel
  obtain ⟨n₁, parsed₁, index⟩ := bootloaderPartno_some_iff.mp boot
  obtain ⟨⟨n₂, parsed₂, index'⟩, -⟩ := minixPartno_some_iff.mp kernel
  rw [parsed] at parsed₁
  rw [parsed'] at parsed₂
  cases parsed₁
  cases parsed₂
  exact Fin.ext (by omega)

/-- The commands select the same entry whenever both accept, and without an argument both stop when no
entry is active. -/
def InstallersAgree (mbr : Mbr) (stale : Int32) (arg : Option (List Char)) : Prop :=
  (∀ i j, bootloaderPartno mbr arg = .ok i → (mbr i).sectorsCount ≠ 0 → minixPartno mbr stale arg = .ok j → i = j) ∧
    (arg = none → (∀ i, ¬ (mbr i).Active) → (∃ message, bootloaderPartno mbr arg = .error (.screamed message)) ∧
      ∃ message, minixPartno mbr stale arg = .error (.screamed message))

/-- Four entries for MINIX, none of them active. -/
def inactiveMbr : Mbr := fun _ => ⟨0, 0x81, 2048, 2048⟩

/-- The argument 1 is the second entry for `boot` and the first one for `kernel`; and with no argument
`kernel` may go on with what its local holds. -/
theorem installers_disagree : ¬ InstallersAgree inactiveMbr 0 (some ['1']) ∧ ¬ InstallersAgree inactiveMbr 0 none := by
  constructor
  · rintro ⟨same, -⟩
    have boot : bootloaderPartno inactiveMbr (some ['1']) = .ok 1 :=
      bootloaderPartno_some_iff.mpr ⟨1, by decide, by decide⟩
    have kernel : minixPartno inactiveMbr 0 (some ['1']) = .ok 0 :=
      minixPartno_some_iff.mpr ⟨⟨1, by decide, by decide⟩, rfl⟩
    exact absurd (same 1 0 boot (by decide) kernel) (by decide)
  · rintro ⟨-, stop⟩
    obtain ⟨-, message, stopped⟩ := stop rfl (by decide)
    have kernel : minixPartno inactiveMbr 0 none = .ok 0 := minixPartno_ok_iff.mpr ⟨rfl, rfl⟩
    rw [kernel] at stopped
    cases stopped

end Selection

end AtaKernel.Minix
