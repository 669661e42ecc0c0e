import AtaKernel.Minix.CopyLoop
import AtaKernel.Minix.Directory
import AtaKernel.Minix.InodeTable
import AtaKernel.Minix.Partition
import AtaKernel.Minix.Truncation

/-! The command `kernel` of the install tool: `minix_write`, from the opening of
the image to the maps that are written back. It comes in four parts. The image is
opened and read; an old kernel is deleted; space is looked for; the new kernel is
written. Only the second and the fourth part write to the image. -/
namespace AtaKernel.Minix
open BitTable StateProgram

/-- The arguments, what the calls of the C library give, and what is in the locals that the source does
not initialise. -/
structure InstallInput where
  diskOpens : Bool
  partno : Option (List Char)
  stale : Int32
  statOk : Bool
  kernel : InputFile
  /-- Whether there is memory for the map of inodes and for the one of zones. -/
  mallocs : Bool × Bool
  trunc : TruncLocals
  time : UInt32

/-! ## Opening -/

/-- `ps + MINIX_BLK2OFF(n)`, for an `n` that need not be a block number. -/
def seekOff (n : Nat) (complaint : String) : ToolM Nat := do
  let off := (← get).ps.toInt + minixBlockSize * n
  if 2 ^ 31 ≤ off then throw .undefined
  else if off < 0 then screamAndQuit complaint
  else pure off.toNat

/-- `fseek` and `fread` of some bytes. -/
def Image.readBytes (img : Image) (off n : Nat) : Option (Array UInt8) :=
  if off + n ≤ img.size ∨ n = 0 then some (Array.ofFn fun i : Fin n => img.bytes (off + i)) else none

/-- The map of `blocks` blocks from block `n` on. -/
def readMap (name : String) (malloced : Bool) (n : Nat) (blocks : UInt16) : ToolM Table := do
  if ¬ malloced then screamAndQuit ("Could not allocate memory for " ++ name ++ " map.")
  else do
    let off ← seekOff n ("Could not seek to " ++ name ++ " map.")
    match (← get).img.readBytes off (blocks.toNat * minixBlockSize) with
    | some map => pure map
    | none => screamAndQuit ("Could not read " ++ name ++ " map.")

/-- The superblock, at the start of a block. -/
def Block.superblock (data : Block) : Superblock where
  sInodes := data.word 0
  sNzones := data.word 1
  sImapBlocks := data.word 2
  sZmapBlocks := data.word 3
  sFirstdatazone := data.word 4
  sLogZoneSize := data.word 5
  sMaxSize := UInt32.ofNat ((data.word 6).toNat + 65536 * (data.word 7).toNat)
  sMagic := data.word 8
  sState := data.word 9

/-- `MINIX_ZONE_MAP(sb)` -/
def Superblock.zoneMap (sb : Superblock) : Nat := 2 + sb.sImapBlocks.toNat

/-- The partition, the superblock, the maps and the root inode. -/
def minixOpen (input : InstallInput) : ToolM Inode := do
  if ¬ input.diskOpens then screamAndQuit "Could not open image file."
  else do
    match (← get).img.mbr with
    | none => screamAndQuit "Could not read mbr."
    | some mbr =>
      match minixPartno mbr input.stale input.partno with
      | .error e => throw e
      | .ok i => do
        modify fun t => { t with ps := partitionStart (mbr i).lbaStart }
        if ¬ input.statOk then screamAndQuit "Could not get kernel stats."
        else do
          let data ← minixLoadBlock 1
          modify fun t => { t with sb := data.superblock }
          let sb := data.superblock
          let inodesMap ← readMap "inodes" input.mallocs.1 2 sb.sImapBlocks
          modify fun t => { t with inodesMap := inodesMap }
          let zonesMap ← readMap "zones" input.mallocs.2 sb.zoneMap sb.sZmapBlocks
          modify fun t => { t with zonesMap := zonesMap }
          minixLoadInode 1

/-! ## Deleting the old kernel -/

/-- Byte `x` of a block. -/
def Block.bytes (data : Block) (x : Nat) : UInt8 := data (Fin.ofNat 1024 x)

/-- Byte `k` of a number, from the lowest one on. -/
def byteOf (v k : Nat) : UInt8 := UInt8.ofNat (v / 256 ^ k)

/-- The bytes of an inode, as they are in the table. -/
def Inode.byte (inode : Inode) (j : Nat) : UInt8 :=
  if j < 2 then byteOf inode.iMode.toNat j
  else if j < 4 then byteOf inode.iUid.toNat (j - 2)
  else if j < 8 then byteOf inode.iSize.toNat (j - 4)
  else if j < 12 then byteOf inode.iTime.toNat (j - 8)
  else if j = 12 then inode.iGid
  else if j = 13 then inode.iNlinks
  else byteOf (inode.zone ((j - 14) / 2)).toNat ((j - 14) % 2)

/-- `memcpy` of `n` bytes to offset `off` of a block. -/
def Block.overwrite (data : Block) (off n : Nat) (bytes : Nat → UInt8) : Block := fun x =>
  if off ≤ x.val ∧ x.val < off + n then bytes (x.val - off) else data x

def Block.setInode (data : Block) (slot : Nat) (inode : Inode) : Block := data.overwrite (32 * slot) 32 inode.byte

def minixSaveInode (i : Nat) (inode : Inode) : ToolM Unit := do
  let sb := (← get).sb
  let i := (UInt64.ofNat i - 1).toNat
  let blk := UInt16.ofNat (sb.inodeTable + i / minixInodesPerBlock)
  let data ← minixLoadBlock blk
  minixStoreBlock blk (data.setInode (i % minixInodesPerBlock) inode)

/-- `MAP_UNSET_BIT(inodes_map, n)` -/
def unsetInodeBit (n : Nat) : ToolM Unit := do
  let t ← get
  match bit t.inodesMap n with
  | some _ => set { t with inodesMap := unsetBit t.inodesMap n }
  | none => throw .undefined

/-- `dentries[k].inode = 0` and the `memset` of six characters of the name. -/
def Block.clearEntry (data : Block) (k : Nat) : Block := data.overwrite (32 * k) 8 fun _ => 0

/-- The entry of the old kernel is entry `k` of block `z`. -/
def deleteEntry (trunc : TruncLocals) (z : UInt16) (data : Block) (k : Nat) : ToolM Unit := do
  let number := (entryInode data.bytes k).toNat
  let inode ← minixLoadInode number
  minixTruncInode trunc inode
  minixSaveInode number emptyInode
  unsetInodeBit number
  minixStoreBlock z (data.clearEntry k)

/-- The first entry of a block that is the one of a kernel, from entry `k` on; the directory goes on for
`size` bytes from the start of the block. -/
def scanEntries (data : Block) (size : Nat) : Nat → Nat → Option Nat
  | 0, _ => none
  | left + 1, k =>
    if 32 * k < size then
      if Live data.bytes k then some k else scanEntries data size left (k + 1)
    else none

/-- `(i_size - 1) / MINIX_BLOCK_SIZE + 1` -/
def Inode.scanBlocks (inode : Inode) : Nat := ((inode.iSize - 1) / 1024).toNat + 1

/-- The blocks of the root directory, from block `i` on. An entry that is deleted ends the loop. -/
def scanRoot (trunc : TruncLocals) (root : Inode) : Nat → Nat → ToolM Unit
  | 0, _ => pure ()
  | left + 1, i => do
    let z ← minixFileBlock2Block root i
    let data ← minixLoadBlock z
    match scanEntries data (root.iSize.toNat - 1024 * i) 32 0 with
    | some k => deleteEntry trunc z data k
    | none => scanRoot trunc root left (i + 1)

def minixDelete (input : InstallInput) (root : Inode) : ToolM Unit := scanRoot input.trunc root root.scanBlocks 0

/-! ## Looking for space -/

/-- `(st_size - 1) / MINIX_BLOCK_SIZE + 1`; of an empty file, one block. -/
def fileRounds (size : Nat) : Nat := (size - 1) / 1024 + 1

/-- `kerb`: the blocks of the file, and the blocks of zones that it needs. -/
def kernelZones (size : Nat) : Int :=
  let kerb := (Int32.ofNat (fileRounds size)).toInt
  if 7 ≤ kerb ∧ kerb < 7 + 512 then kerb + 1
  else if 512 + 7 ≤ kerb then kerb + (2 + ((kerb - 7 - 512 - 1).tdiv 512 + 1))
  else kerb

/-- `for (; i < sb.s_nzones; i ++)`, until `kerb` zones are found to be free. -/
def countZones (kerb : Int) : Nat → Nat → Int → ToolM Int
  | 0, _, count => pure count
  | left + 1, i, count => do
    let used ← mapGetBit (← get).zonesMap i
    let count := if used then count else count + 1
    if count = kerb then pure count else countZones kerb left (i + 1) count

/-- `for (; i < sb.s_inodes && MAP_GET_BIT(inodes_map, i); i ++)` -/
def scanInodes : Nat → Nat → ToolM Nat
  | 0, i => pure i
  | left + 1, i => do
    if ← mapGetBit (← get).inodesMap i then scanInodes left (i + 1) else pure i

/-- The two checks. What comes out is the number of a free inode. -/
def minixCheck (input : InstallInput) : ToolM Nat := do
  let sb := (← get).sb
  let kerb := kernelZones input.kernel.bytes.size
  if 2 ^ 31 ≤ kerb then throw .undefined
  else do
    let count ← countZones kerb sb.sNzones.toNat 0 0
    if count < kerb then screamAndQuit "There's not free space for the kernel"
    else do
      let i ← scanInodes (sb.sInodes.toNat - 2) 2
      if i = sb.sInodes.toNat then screamAndQuit "Could not find a free spot in the inode table."
      else pure i

/-! ## Writing the new kernel -/

/-- `MAP_SET_BIT(inodes_map, i)` -/
def setInodeBit (i : Nat) : ToolM Unit := do
  let t ← get
  match bit t.inodesMap i with
  | some _ => set { t with inodesMap := setBit t.inodesMap i }
  | none => throw .undefined

/-- `S_IFREG | S_IRUSR | S_IWUSR`, and one link. -/
def newInode (time : UInt32) : Inode := ⟨0x8180, 0, 0, time, 0, 1, fun _ => 0⟩

/-- What `fread` leaves in a buffer of zeros. -/
def InputFile.block (file : InputFile) (k : Nat) : Block := fun x => file.bytes.getD (1024 * k + x) 0

/-- A round: block `k` of the kernel. -/
def copyRound (kernel : InputFile) (i k : Nat) (inode : Inode) : ToolM Inode := do
  let br := min 1024 (kernel.bytes.size - 1024 * k)
  if br ≠ 1024 ∧ kernel.ferror then screamAndQuit "Could not read data from kernel image."
  else do
    let (_, inode) ← copyBlock inode (kernel.block k) (UInt32.ofNat br)
    minixSaveInode i inode
    pure inode

/-- The entry of the kernel, in entry `k` of a block. -/
def Block.setEntry (data : Block) (k : Nat) (number : UInt16) : Block :=
  data.overwrite (32 * k) 32 fun j => if j < 2 then byteOf number.toNat j else kernelText (j - 2)

/-- The first hole of a block, from entry `k` on. -/
def scanHoles (data : Block) : Nat → Nat → Option Nat
  | 0, _ => none
  | left + 1, k => if entryInode data.bytes k = 0 then some k else scanHoles data left (k + 1)

/-- The blocks of the root directory, from block `i` on. What comes out is that a slot was found, or the
block that the buffer is left with. -/
def insertEntry (number : UInt16) (root : Inode) : Nat → Nat → Block → ToolM (Option Block)
  | 0, _, data => pure (some data)
  | left + 1, i, _ => do
    let z ← minixFileBlock2Block root i
    let data ← minixLoadBlock z
    match scanHoles data 32 0 with
    | none => insertEntry number root left (i + 1) data
    | some k => do
      minixStoreBlock z (data.setEntry k number)
      if root.iSize.toNat ≤ 1024 * i + 32 * k then minixSaveInode 1 { root with iSize := root.iSize + 32 }
      else pure ()
      pure none

/-- `if (!done)`: a new block, which is what the buffer was left with but for the first entry. -/
def appendEntry (number : UInt16) (root : Inode) (data : Block) : ToolM Unit := do
  let (z, root) ← minixAddFileBlock root
  minixStoreBlock z (data.setEntry 0 number)
  minixSaveInode 1 { root with iSize := root.iSize + 32 }

def linkKernel (number : UInt16) (data : Block) : ToolM Unit := do
  let root ← minixLoadInode 1
  match ← insertEntry number root root.scanBlocks 0 data with
  | none => pure ()
  | some data => appendEntry number root data

/-- `fseek` and `fwrite` of a map. -/
def writeMap (name : String) (n : Nat) (map : Table) : ToolM Unit := do
  let off ← seekOff n ("Could not seek to " ++ name ++ " map.")
  modify fun t => { t with img := t.img.writeBytes off map }

def saveMaps : ToolM Unit := do
  let t ← get
  writeMap "inodes" 2 t.inodesMap
  writeMap "zones" t.sb.zoneMap t.zonesMap

/-- The new kernel gets inode `i`. -/
def minixInstall (input : InstallInput) (i : Nat) : ToolM Unit := do
  setInodeBit i
  minixSaveInode i (newInode input.time)
  if ¬ input.kernel.opens then screamAndQuit "Could not open kernel image."
  else do
    let rounds := fileRounds input.kernel.bytes.size
    let _ ← upTo (copyRound input.kernel i) rounds (newInode input.time)
    linkKernel (UInt16.ofNat i) (input.kernel.block (rounds - 1))
    saveMaps

/-- Where the function returns 0, the number of the new inode comes out. -/
def minixWrite (input : InstallInput) : ToolM Nat := do
  let root ← minixOpen input
  minixDelete input root
  let i ← minixCheck input
  minixInstall input i
  pure i

/-! ## The root directory -/

/-- Byte `x` of a file. -/
def Tool.fileByte (t : Tool) (inode : Inode) (x : Nat) : UInt8 :=
  match t.zoneIn inode (dataSlot (x / 1024)) >>= t.blockAt with
  | some data => data.bytes (x % 1024)
  | none => 0

variable {t t' : Tool} {root inode : Inode} {z number : UInt16} {data : Block} {i k n left size : Nat}
  {trunc : TruncLocals} {input : InstallInput}

theorem fileByte_block (way : t.zoneIn root (dataSlot i) = some z) (there : t.blockAt z = some data) {x : Nat}
    (low : x < 1024) : t.fileByte root (1024 * i + x) = data.bytes x := by
  unfold Tool.fileByte
  rw [show (1024 * i + x) / 1024 = i by omega, show (1024 * i + x) % 1024 = x by omega, way]
  change (match t.blockAt z with | some data => data.bytes x | none => 0) = _
  rw [there]

/-- An entry of the directory is one of its blocks. -/
theorem live_block (way : t.zoneIn root (dataSlot i) = some z) (there : t.blockAt z = some data) (low : k < 32) :
    Live (t.fileByte root) (32 * i + k) ↔ Live data.bytes k :=
  live_congr fun j inside => by
    rw [show 32 * (32 * i + k) + j = 1024 * i + (32 * k + j) by omega]
    exact fileByte_block way there (by omega)

theorem scanEntries_some (found : scanEntries data size left i = some k) :
    i ≤ k ∧ k < i + left ∧ 32 * k < size ∧ Live data.bytes k ∧ ∀ j, i ≤ j → j < k → ¬ Live data.bytes j := by
  induction left generalizing i with
  | zero => cases found
  | succ left ih =>
    rw [scanEntries] at found
    split at found
    · next within =>
      split at found
      · next live =>
        cases found
        exact ⟨le_rfl, by omega, within, live, fun j from_ before => by omega⟩
      · next other =>
        obtain ⟨from_, upto, inside, live, before⟩ := ih found
        refine ⟨by omega, by omega, inside, live, fun j from' low => ?_⟩
        obtain rfl | later : j = i ∨ i + 1 ≤ j := by omega
        · exact other
        · exact before j later low
    · cases found

theorem scanEntries_none (none_ : scanEntries data size left i = none) {j : Nat} (from_ : i ≤ j)
    (upto : j < i + left) (within : 32 * j < size) : ¬ Live data.bytes j := by
  induction left generalizing i with
  | zero => omega
  | succ left ih =>
    rw [scanEntries, if_pos (by omega)] at none_
    split at none_
    · cases none_
    · next other =>
      obtain rfl | later : j = i ∨ i + 1 ≤ j := by omega
      · exact other
      · exact ih none_ later (by omega)

/-- The scan finds the first live entry, and deletes it; where there is none it changes nothing. -/
theorem scanRoot_ok {u : Unit} (ran : scanRoot trunc root left i t = .ok u t') :
    (t' = t ∧ ∀ e, 32 * i ≤ e → e < 32 * (i + left) → 32 * e < root.iSize.toNat → ¬ Live (t.fileByte root) e) ∨
      ∃ b z data k, i ≤ b ∧ t.zoneIn root (dataSlot b) = some z ∧ t.blockAt z = some data ∧ k < 32 ∧
        32 * (32 * b + k) < root.iSize.toNat ∧ Live data.bytes k ∧
        (∀ e, 32 * i ≤ e → e < 32 * b + k → ¬ Live (t.fileByte root) e) ∧
        deleteEntry trunc z data k t = .ok u t' := by
  induction left generalizing i with
  | zero =>
    obtain ⟨-, rfl⟩ := pure_ok_iff.mp ran
    exact .inl ⟨rfl, fun e from_ upto => by omega⟩
  | succ left ih =>
    obtain ⟨z, data, way, there, rest⟩ := block_loaded ran
    cases scan : scanEntries data (root.iSize.toNat - 1024 * i) 32 0 with
    | some k =>
      rw [scan] at rest
      obtain ⟨-, low, within, live, before⟩ := scanEntries_some scan
      refine .inr ⟨i, z, data, k, le_rfl, way, there, by omega, by omega, live, fun e from_ upto => ?_, rest⟩
      rw [show e = 32 * i + (e - 32 * i) by omega, live_block way there (by omega)]
      exact before _ (Nat.zero_le _) (by omega)
    | none =>
      rw [scan] at rest
      have here : ∀ e, 32 * i ≤ e → e < 32 * (i + 1) → 32 * e < root.iSize.toNat → ¬ Live (t.fileByte root) e := by
        intro e from_ upto within
        rw [show e = 32 * i + (e - 32 * i) by omega, live_block way there (by omega)]
        exact scanEntries_none scan (Nat.zero_le _) (by omega) (by omega)
      obtain ⟨same, none_⟩ | ⟨b, z', data', k, from', way', there', low, within, live, before, deleted⟩ := ih rest
      · refine .inl ⟨same, fun e from_ upto within => ?_⟩
        by_cases first : e < 32 * (i + 1)
        · exact here e from_ first within
        · exact none_ e (by omega) (by omega) within
      · refine .inr ⟨b, z', data', k, by omega, way', there', low, within, live, fun e from_ upto => ?_, deleted⟩
        by_cases first : e < 32 * (i + 1)
        · exact here e from_ first (by omega)
        · exact before e (by omega) upto

/-! ## Deletion -/

/-- The block of the table with inode `i`, and the place of the inode there. -/
def Superblock.inodeBlock (sb : Superblock) (i : Nat) : UInt16 :=
  UInt16.ofNat (sb.inodeTable + (UInt64.ofNat i - 1).toNat / minixInodesPerBlock)

def inodeSlot (i : Nat) : Nat := (UInt64.ofNat i - 1).toNat % minixInodesPerBlock

theorem minixSaveInode_ok_iff {u : Unit} : minixSaveInode i inode t = .ok u t' ↔ ∃ data,
    t.blockAt (t.sb.inodeBlock i) = some data ∧
      t' = t.putBlock (t.sb.inodeBlock i) (data.setInode (inodeSlot i) inode) := by
  unfold minixSaveInode
  rw [get_bind, bind_ok_iff]
  constructor
  · rintro ⟨data, mid, load, store⟩
    obtain ⟨rfl, there⟩ := minixLoadBlock_ok_iff.mp load
    obtain ⟨-, rfl⟩ := minixStoreBlock_ok_iff.mp store
    exact ⟨data, there, rfl⟩
  · rintro ⟨data, there, rfl⟩
    exact ⟨data, t, minixLoadBlock_ok_iff.mpr ⟨rfl, there⟩,
      minixStoreBlock_ok_iff.mpr ⟨reaches_of_blockAt there, rfl⟩⟩

theorem unsetInodeBit_ok_iff {u : Unit} : unsetInodeBit n t = .ok u t' ↔
    (bit t.inodesMap n).isSome ∧ t' = { t with inodesMap := unsetBit t.inodesMap n } := by
  unfold unsetInodeBit
  rw [get_bind]
  exact setInside_ok_iff

/-- What a deletion does, from the maps to the image. -/
theorem deleteEntry_ok_iff {u : Unit} : deleteEntry trunc z data k t = .ok u t' ↔
    ∃ inode ks table, minixLoadInode (entryInode data.bytes k).toNat t = .ok inode t ∧
      trunc.fb.toInt.toNat ≤ 519 + 512 * 512 ∧
      (slots trunc.fb.toInt.toNat).map (t.slotBit inode) = ks.map some ∧
      (bit t.inodesMap (entryInode data.bytes k).toNat).isSome ∧ t.Reaches z ∧
      t.blockAt (t.sb.inodeBlock (entryInode data.bytes k).toNat) = some table ∧
      t' = { (t.unmark ks).putBlock (t.sb.inodeBlock (entryInode data.bytes k).toNat)
          (table.setInode (inodeSlot (entryInode data.bytes k).toNat) emptyInode) with
        inodesMap := unsetBit t.inodesMap (entryInode data.bytes k).toNat }.putBlock z (data.clearEntry k) := by
  unfold deleteEntry
  constructor
  · intro ran
    obtain ⟨inode, mid, load, rest⟩ := bind_ok_iff.mp ran
    obtain ⟨rfl, -⟩ := minixLoadInode_ok_iff.mp load
    obtain ⟨u₁, t₁, truncated, rest₁⟩ := bind_ok_iff.mp rest
    obtain ⟨bound, ks, freed, rfl⟩ := minixTruncInode_ok_iff.mp truncated
    obtain ⟨u₂, t₂, saved, rest₂⟩ := bind_ok_iff.mp rest₁
    obtain ⟨table, there, rfl⟩ := minixSaveInode_ok_iff.mp saved
    obtain ⟨u₃, t₃, unset, stored⟩ := bind_ok_iff.mp rest₂
    obtain ⟨inside, rfl⟩ := unsetInodeBit_ok_iff.mp unset
    obtain ⟨reaches, rfl⟩ := minixStoreBlock_ok_iff.mp stored
    exact ⟨inode, ks, table, load, bound, freed, inside, reaches, there, rfl⟩
  · rintro ⟨inode, ks, table, load, bound, freed, inside, reaches, there, rfl⟩
    have truncated : minixTruncInode trunc inode t = .ok () (t.unmark ks) :=
      minixTruncInode_ok_iff.mpr ⟨bound, ks, freed, rfl⟩
    have saved : minixSaveInode (entryInode data.bytes k).toNat emptyInode (t.unmark ks) = .ok () _ :=
      minixSaveInode_ok_iff.mpr ⟨table, there, rfl⟩
    rw [bind_of_ok load, bind_of_ok truncated, bind_of_ok saved]
    refine bind_ok_iff.mpr ⟨(), _, unsetInodeBit_ok_iff.mpr ⟨inside, rfl⟩, ?_⟩
    exact minixStoreBlock_ok_iff.mpr ⟨reaches, rfl⟩

theorem overwrite_inside {off : Nat} {bytes : Nat → UInt8} {x : Nat} (low : x < 1024)
    (inside : off ≤ x ∧ x < off + n) : (data.overwrite off n bytes).bytes x = bytes (x - off) := by
  unfold Block.bytes Block.overwrite
  rw [show (Fin.ofNat 1024 x).val = x from Nat.mod_eq_of_lt low, if_pos inside]

theorem overwrite_outside {off : Nat} {bytes : Nat → UInt8} {x : Nat} (low : x < 1024)
    (outside : ¬ (off ≤ x ∧ x < off + n)) : (data.overwrite off n bytes).bytes x = data.bytes x := by
  unfold Block.bytes Block.overwrite
  rw [show (Fin.ofNat 1024 x).val = x from Nat.mod_eq_of_lt low, if_neg outside]

theorem clearEntry_hole (low : k < 32) : entryInode (data.clearEntry k).bytes k = 0 := by
  unfold entryInode Block.clearEntry
  rw [overwrite_inside (by omega) (by omega), overwrite_inside (by omega) (by omega)]
  rfl

theorem deleteEntry_returns {ks : List Nat} {table : Block}
    (load : minixLoadInode (entryInode data.bytes k).toNat t = .ok inode t)
    (bound : trunc.fb.toInt.toNat ≤ 519 + 512 * 512)
    (bits : (slots trunc.fb.toInt.toNat).map (t.slotBit inode) = ks.map some)
    (inside : (bit t.inodesMap (entryInode data.bytes k).toNat).isSome) (reaches : t.Reaches z)
    (there : t.blockAt (t.sb.inodeBlock (entryInode data.bytes k).toNat) = some table) :
    ∃ t', deleteEntry trunc z data k t = .ok () t' ∧ t'.sb = t.sb ∧ t'.zonesMap = (t.unmark ks).zonesMap :=
  ⟨_, deleteEntry_ok_iff.mpr ⟨inode, ks, table, load, bound, bits, inside, reaches, there, rfl⟩, rfl, rfl⟩

theorem unmark_one : (t.unmark [k]).zonesMap = unsetBit t.zonesMap k := rfl

/-- The image is not what it was once an entry is deleted. -/
theorem deleteEntry_image {u : Unit} (there : t.blockAt z = some data) (low : k < 32) (live : Live data.bytes k)
    (ran : deleteEntry trunc z data k t = .ok u t') : t'.img ≠ t.img := by
  obtain ⟨inode, ks, table, -, -, -, -, reaches, -, rfl⟩ := deleteEntry_ok_iff.mp ran
  intro same
  have after : t.img.read (t.blockOff z).toNat = some (data.clearEntry k) := by
    rw [← same]
    exact read_write_same
  have before : t.img.read (t.blockOff z).toNat = some data := by
    unfold Tool.blockAt at there
    rwa [if_pos reaches] at there
  have unchanged : data.clearEntry k = data := Option.some_inj.mp (after.symm.trans before)
  exact live.1 (unchanged ▸ clearEntry_hole low)

/-! ## A failed check -/

theorem seekBlock_keeps (z : UInt16) (complaint : String) {γ : Type} (view : Tool → γ) :
    Keeps view (seekBlock z complaint) := by
  refine keeps_get.bind fun t => ?_
  dsimp only
  split
  · exact keeps_throw _
  split
  · exact keeps_throw _
  · exact keeps_pure _

theorem minixLoadBlock_keeps (z : UInt16) {γ : Type} (view : Tool → γ) : Keeps view (minixLoadBlock z) := by
  refine (seekBlock_keeps z _ view).bind fun off => keeps_get.bind fun t => ?_
  split
  · exact keeps_pure _
  · exact keeps_throw _

theorem readMap_keeps (name : String) (malloced : Bool) (n : Nat) (blocks : UInt16) {γ : Type} (view : Tool → γ) :
    Keeps view (readMap name malloced n blocks) := by
  unfold readMap seekOff
  split
  · exact keeps_throw _
  refine (keeps_get.bind fun t => ?_).bind fun off => keeps_get.bind fun t => ?_
  · dsimp only
    split
    · exact keeps_throw _
    split
    · exact keeps_throw _
    · exact keeps_pure _
  · split
    · exact keeps_pure _
    · exact keeps_throw _

theorem readMap_ok {name : String} {blocks : UInt16} {off : Nat} (place : t.ps.toInt + minixBlockSize * n = off)
    (low : off < 2 ^ 31) (fits : off + blocks.toNat * minixBlockSize ≤ t.img.size) :
    readMap name true n blocks t =
      .ok (Array.ofFn fun x : Fin (blocks.toNat * minixBlockSize) => t.img.bytes (off + x)) t := by
  have sought : ∀ complaint, seekOff n complaint t = .ok off t := by
    intro complaint
    have near_ : ¬ (2 : Int) ^ 31 ≤ off := by omega
    have some_ : ¬ (off : Int) < 0 := by omega
    change (if 2 ^ 31 ≤ t.ps.toInt + minixBlockSize * n then throw Quit.undefined
      else if t.ps.toInt + minixBlockSize * n < 0 then screamAndQuit complaint
      else pure (t.ps.toInt + minixBlockSize * n).toNat : ToolM Nat) t = _
    rw [place, if_neg near_, if_neg some_, Int.toNat_natCast]
    rfl
  unfold readMap
  rw [if_neg (fun none_ => none_ rfl), bind_of_ok (sought _), get_bind, Image.readBytes, if_pos (.inl fits)]
  rfl

/-- What opening comes to: the partition, the superblock and the maps are as they are on the disk. -/
theorem minixOpen_ok_iff : minixOpen input t = .ok root t' ↔ input.diskOpens ∧ input.statOk ∧
    ∃ mbr sel data t₁ t₂ inodesMap zonesMap, t.img.mbr = some mbr ∧
      minixPartno mbr input.stale input.partno = .ok sel ∧
      t₁ = { t with ps := partitionStart (mbr sel).lbaStart } ∧ t₁.blockAt 1 = some data ∧
      t₂ = { t₁ with sb := data.superblock } ∧
      readMap "inodes" input.mallocs.1 2 data.superblock.sImapBlocks t₂ = .ok inodesMap t₂ ∧
      readMap "zones" input.mallocs.2 data.superblock.zoneMap data.superblock.sZmapBlocks
        { t₂ with inodesMap := inodesMap } = .ok zonesMap { t₂ with inodesMap := inodesMap } ∧
      t' = { t₂ with inodesMap := inodesMap, zonesMap := zonesMap } ∧ minixLoadInode 1 t' = .ok root t' := by
  unfold minixOpen
  by_cases closed : ¬ input.diskOpens
  · rw [if_pos closed]
    exact error_ok_iff fun all => closed all.1
  rw [if_neg closed, get_bind]
  rw [not_not] at closed
  cases read : t.img.mbr with
  | none => exact error_ok_iff fun ⟨_, _, _, _, _, _, _, _, _, there, _⟩ => nomatch there
  | some mbr =>
  dsimp only
  cases selected : minixPartno mbr input.stale input.partno with
  | error e =>
    refine error_ok_iff ?_
    rintro ⟨-, -, mbr', sel, -, -, -, -, -, there, here, -⟩
    obtain rfl := Option.some_inj.mp there
    rw [selected] at here
    cases here
  | ok sel =>
  dsimp only
  rw [modify_bind]
  by_cases absent : ¬ input.statOk
  · rw [if_pos absent]
    exact error_ok_iff fun all => absent all.2.1
  rw [if_neg absent]
  rw [not_not] at absent
  constructor
  · intro ran
    obtain ⟨data, mid, load, rest⟩ := bind_ok_iff.mp ran
    obtain ⟨rfl, there⟩ := minixLoadBlock_ok_iff.mp load
    rw [modify_bind] at rest
    obtain ⟨inodesMap, mid, inodes, rest⟩ := bind_ok_iff.mp rest
    have same := (readMap_keeps _ _ _ _ id).ok inodes
    dsimp only [id] at same
    subst same
    rw [modify_bind] at rest
    obtain ⟨zonesMap, mid, zones, rest⟩ := bind_ok_iff.mp rest
    have same := (readMap_keeps _ _ _ _ id).ok zones
    dsimp only [id] at same
    subst same
    rw [modify_bind] at rest
    obtain ⟨rfl, -⟩ := minixLoadInode_ok_iff.mp rest
    exact ⟨closed, absent, mbr, sel, data, _, _, inodesMap, zonesMap, rfl, selected, rfl, there, rfl, inodes, zones,
      rfl, rest⟩
  · rintro ⟨-, -, mbr', sel', data, t₁, t₂, inodesMap, zonesMap, there, here, rfl, first, rfl, inodes, zones, rfl, last⟩
    obtain rfl := Option.some_inj.mp there
    rw [selected] at here
    cases here
    rw [bind_of_ok (minixLoadBlock_ok_iff.mpr ⟨rfl, first⟩), modify_bind, bind_of_ok inodes, modify_bind,
      bind_of_ok zones, modify_bind]
    exact last

/-- Opening only reads the image. -/
theorem minixOpen_keeps (input : InstallInput) : Keeps Tool.img (minixOpen input) := by
  unfold minixOpen
  split
  · exact keeps_throw _
  refine keeps_get.bind fun t => ?_
  split
  · exact keeps_throw _
  split
  · exact keeps_throw _
  refine Keeps.bind ?_ fun _ => ?_
  · exact keeps_modify fun _ => rfl
  split
  · exact keeps_throw _
  refine (minixLoadBlock_keeps 1 _).bind fun data => Keeps.bind ?_ fun _ => ?_
  · exact keeps_modify fun _ => rfl
  refine (readMap_keeps _ _ _ _ _).bind fun inodes => Keeps.bind ?_ fun _ => ?_
  · exact keeps_modify fun _ => rfl
  refine (readMap_keeps _ _ _ _ _).bind fun zones => Keeps.bind ?_ fun _ => ?_
  · exact keeps_modify fun _ => rfl
  exact keeps_get.bind fun t => (minixLoadBlock_keeps _ _).bind fun data => keeps_pure _

theorem mapGetBit_keeps (map : Table) (n : Nat) {γ : Type} (view : Tool → γ) : Keeps view (mapGetBit map n) := by
  unfold mapGetBit
  split
  · exact keeps_pure _
  · exact keeps_throw _

theorem countZones_keeps {γ : Type} (view : Tool → γ) (kerb : Int) (left i : Nat) (count : Int) :
    Keeps view (countZones kerb left i count) := by
  induction left generalizing i count with
  | zero => exact keeps_pure _
  | succ left ih =>
    refine keeps_get.bind fun t => (mapGetBit_keeps _ _ _).bind fun used => ?_
    dsimp only
    generalize (if used = true then count else count + 1) = next
    split
    · exact keeps_pure _
    · exact ih _ _

theorem scanInodes_keeps {γ : Type} (view : Tool → γ) (left i : Nat) : Keeps view (scanInodes left i) := by
  induction left generalizing i with
  | zero => exact keeps_pure _
  | succ left ih =>
    refine keeps_get.bind fun t => (mapGetBit_keeps _ _ _).bind fun used => ?_
    split
    · exact ih _
    · exact keeps_pure _

/-- The checks change nothing. -/
theorem minixCheck_keeps {γ : Type} (view : Tool → γ) (input : InstallInput) : Keeps view (minixCheck input) := by
  refine keeps_get.bind fun t => ?_
  dsimp only
  split
  · exact keeps_throw _
  refine (countZones_keeps view _ _ _ _).bind fun count => ?_
  split
  · exact keeps_throw _
  refine (scanInodes_keeps view _ _).bind fun i => ?_
  split
  · exact keeps_throw _
  · exact keeps_pure _

theorem scanBlocks_eq (some_ : 0 < root.iSize.toNat) : root.scanBlocks = (root.iSize.toNat - 1) / 1024 + 1 := by
  have size : (root.iSize - 1).toNat = root.iSize.toNat - 1 :=
    UInt32.toNat_sub_of_le _ _ (UInt32.le_iff_toNat_le.mpr some_)
  rw [Inode.scanBlocks, UInt32.toNat_div, size]
  rfl

theorem scanBlocks_covers {e : Nat} (within : 32 * e < root.iSize.toNat) : e < 32 * root.scanBlocks := by
  rw [scanBlocks_eq (by omega)]
  omega

/-- Where the zones that are free do not come to `kerb`, they are counted. -/
theorem countZones_few {kerb count : Int} (bits : ∀ j < i + left, (bit t.zonesMap j).isSome)
    (few : count + ((List.range' i left).countP fun j => bit t.zonesMap j = some false : Nat) < kerb) :
    countZones kerb left i count t =
      .ok (count + ((List.range' i left).countP fun j => bit t.zonesMap j = some false : Nat)) t := by
  induction left generalizing i count with
  | zero =>
    rw [List.range'_zero, List.countP_nil, Nat.cast_zero, add_zero]
    rfl
  | succ left ih =>
    obtain ⟨used, here⟩ := Option.isSome_iff_exists.mp (bits i (by omega))
    have got : mapGetBit t.zonesMap i t = .ok used t := mapGetBit_ok_iff.mpr ⟨rfl, here⟩
    have bits' : ∀ j < i + 1 + left, (bit t.zonesMap j).isSome := fun j low => bits j (by omega)
    rw [List.range'_succ, List.countP_cons, here] at few ⊢
    rw [countZones, get_bind, bind_of_ok got]
    cases used with
    | true =>
      have few' : count + ((List.range' (i + 1) left).countP fun j => bit t.zonesMap j = some false : Nat) < kerb :=
        few
      rw [if_pos rfl, if_neg (by omega)]
      exact ih bits' few'
    | false =>
      have sum (c : Nat) : count + ((c + 1 : Nat) : Int) = count + 1 + c := by omega
      rw [decide_eq_true rfl, if_pos rfl, sum] at few ⊢
      rw [if_neg Bool.false_ne_true, if_neg (by omega)]
      exact ih bits' few

/-- Where the tool stops at one of its checks, it has left the image as it was if and only if there was no
kernel to be deleted. -/
theorem failed_install_keeps_image_iff {t₀ t₁ t₂ : Tool} {message : String}
    (opened : minixOpen input t₀ = .ok root t₁) (deleted : minixDelete input root t₁ = .ok () t₂)
    (failed : minixCheck input t₂ = .error (.screamed message) t') :
    minixWrite input t₀ = .error (.screamed message) t' ∧
      (t'.img = t₀.img ↔ ∀ e, 32 * e < root.iSize.toNat → ¬ Live (t₁.fileByte root) e) := by
  have image₁ : t₁.img = t₀.img := (minixOpen_keeps input).ok opened
  have image' : t'.img = t₂.img := (minixCheck_keeps Tool.img input).error failed
  constructor
  · unfold minixWrite
    rw [bind_of_ok opened, bind_of_ok deleted, bind_of_error failed]
  rw [image', ← image₁]
  obtain ⟨rfl, none_⟩ | ⟨b, z, data, k, -, way, there, low, within, live, -, ran⟩ := scanRoot_ok deleted
  · refine iff_of_true rfl fun e inside => none_ e (Nat.zero_le _) ?_ inside
    have covered := scanBlocks_covers inside
    omega
  · refine iff_of_false (deleteEntry_image there low live ran) fun none_ => ?_
    exact none_ _ within ((live_block way there low).mpr live)

/-! ## Small disks -/

/-- A block of an image. -/
theorem blockAt_image {img : Image} {off : Nat} (reaches : t.Reaches z) (image : t.img = img)
    (place : t.blockOff z = off) (fits : off + minixBlockSize ≤ img.size) :
    t.blockAt z = some (fun x : Fin 1024 => img.bytes (off + x)) := by
  rw [Tool.blockAt, if_pos reaches, image, place, Int.toNat_natCast, Image.read, if_pos fits]

/-- A bit of a map that was read from an image. -/
theorem bit_imageMap {img : Image} {off : Nat} (low : k < 8192) :
    bit (Array.ofFn fun x : Fin 1024 => img.bytes (off + x)) k =
      some (decide (img.bytes (off + k / 8) &&& mask k ≠ 0)) := by
  have low' : k / 8 < 1024 := by omega
  rw [bit_ofFn _ low']

/-- An image with an active partition from sector 2 on, the maps of which are one block each. -/
theorem minixOpen_small {img : Image} {sb : Superblock} {inodesMap zonesMap : Table} (size : 5120 ≤ img.size)
    (opens : input.diskOpens ∧ input.statOk) (mallocs : input.mallocs = (true, true))
    (active : minixPartno (fun i => img.mbrEntry i) input.stale input.partno = .ok 0)
    (lba : partitionStart (img.mbrEntry (0 : Fin 4)).lbaStart = 1024)
    (superblock : Block.superblock (fun x : Fin 1024 => img.bytes (2048 + x)) = sb)
    (maps : sb.sImapBlocks = 1 ∧ sb.sZmapBlocks = 1)
    (inodes : inodesMap = Array.ofFn fun x : Fin 1024 => img.bytes (3072 + x))
    (zones : zonesMap = Array.ofFn fun x : Fin 1024 => img.bytes (4096 + x))
    (loads : minixLoadInode 1 ⟨img, 1024, sb, inodesMap, zonesMap⟩ = .ok root ⟨img, 1024, sb, inodesMap, zonesMap⟩) :
    minixOpen input ⟨img, 0, ⟨0, 0, 0, 0, 0, 0, 0, 0, 0⟩, #[], #[]⟩ =
      .ok root ⟨img, 1024, sb, inodesMap, zonesMap⟩ := by
  have boot : img.mbr = some fun i : Fin 4 => img.mbrEntry i := if_pos (by omega)
  have second : (1024 : Int32).toInt + minixBlockSize * (2 : Nat) = (3072 : Nat) := by decide
  have third : (1024 : Int32).toInt + minixBlockSize * (3 : Nat) = (4096 : Nat) := by decide
  have reaches : (⟨img, 1024, ⟨0, 0, 0, 0, 0, 0, 0, 0, 0⟩, #[], #[]⟩ : Tool).Reaches 1 := by
    have inside : 0 ≤ (1024 : Int32).toInt + minixBlockSize * (1 : UInt16).toNat ∧
        (1024 : Int32).toInt + minixBlockSize * (1 : UInt16).toNat < 2 ^ 31 := by decide
    exact inside
  refine minixOpen_ok_iff.mpr ⟨opens.1, opens.2, _, 0, fun x : Fin 1024 => img.bytes (2048 + x),
    ⟨img, 1024, ⟨0, 0, 0, 0, 0, 0, 0, 0, 0⟩, #[], #[]⟩, ⟨img, 1024, sb, #[], #[]⟩, inodesMap, zonesMap, boot, active,
    ?_, ?_, ?_, ?_, ?_, rfl, loads⟩
  · rw [lba]
  · exact blockAt_image reaches rfl (by rfl) (le_trans (by decide) size)
  · rw [superblock]
  · rw [superblock, mallocs, maps.1, inodes]
    exact readMap_ok second (by decide) (le_trans (by decide) size)
  · rw [superblock, mallocs, maps.2, zones]
    have place : sb.zoneMap = 3 := by rw [Superblock.zoneMap, maps.1]; rfl
    rw [place]
    exact readMap_ok third (by decide) (le_trans (by decide) size)

/-! ## A full disk -/

/-- A boot record with an active partition of seven blocks, all of which are in use: block 5 is the
root directory, and block 6 is the old kernel. -/
def fullDisk : Image where
  bytes x :=
    if 446 ≤ x ∧ x < 462 then [0x80, 0, 0, 0, 0x81, 0, 0, 0, 2, 0, 0, 0, 14, 0, 0, 0].getD (x - 446) 0
    else if 2048 ≤ x ∧ x < 2068 then
      [32, 0, 7, 0, 1, 0, 1, 0, 5, 0, 0, 0, 0, 0x1c, 0x08, 0x10, 0x8f, 0x13, 1, 0].getD (x - 2048) 0
    else if 3072 ≤ x ∧ x < 5120 then [0x07, 0, 0, 0, 0xfe].getD (x - 3072) 0xff
    else if 5120 ≤ x ∧ x < 5184 then
      [0xed, 0x41, 0, 0, 96, 0, 0, 0, 0, 0, 0, 0, 0, 2, 5, 0, 0, 0, 0, 0, 0, 0, 0, 0, 0, 0, 0, 0, 0, 0, 0, 0,
        0xa4, 0x81, 0, 0, 0, 4, 0, 0, 0, 0, 0, 0, 0, 1, 6, 0].getD (x - 5120) 0
    else if x = 6144 ∨ x = 6176 then 1
    else if x = 6146 ∨ x = 6178 ∨ x = 6179 then 0x2e
    else if x = 6208 then 2
    else if 6210 ≤ x ∧ x < 6217 then kernelText (x - 6210)
    else 0
  size := 8192

/-- A kernel of two blocks; the number of rounds of the truncation is the right one. -/
def fullInput : InstallInput :=
  ⟨true, none, 0, true, ⟨true, Array.replicate 1025 0x7f, false⟩, (true, true), ⟨1, fun _ => 0, fun _ => 0⟩, 0⟩

namespace Full

def start : Tool := ⟨fullDisk, 0, ⟨0, 0, 0, 0, 0, 0, 0, 0, 0⟩, #[], #[]⟩

def block (off : Nat) : Block := fun x => fullDisk.bytes (off + x)

@[irreducible] def map (off : Nat) : Table := Array.ofFn fun x : Fin 1024 => fullDisk.bytes (off + x)

def opened : Tool := ⟨fullDisk, 1024, ⟨32, 7, 1, 1, 5, 0, 0x10081c00, 0x138f, 1⟩, map 3072, map 4096⟩

def tree : Inode := (block 5120).inode 0

theorem blockAt (reaches : t.Reaches z) (image : t.img = fullDisk) {off : Nat} (place : t.blockOff z = off)
    (fits : off + 1024 ≤ 8192) : t.blockAt z = some (block off) := blockAt_image reaches image place fits

theorem map_eq {off : Nat} : map off = Array.ofFn fun x : Fin 1024 => fullDisk.bytes (off + x) := by
  unfold map
  rfl

theorem opens : minixOpen fullInput start = .ok tree opened :=
  minixOpen_small (by decide) ⟨rfl, rfl⟩ rfl (by decide) (by decide) (by decide) (by decide) map_eq map_eq
    (minixLoadInode_ok_iff.mpr ⟨rfl, block 5120, blockAt (by decide) rfl (by decide) (by decide), rfl⟩)

theorem inodesMap_eq : opened.inodesMap = map 3072 := rfl

theorem zonesMap_eq : opened.zonesMap = map 4096 := rfl

theorem map_bit {off : Nat} (low : k < 8192) :
    bit (map off) k = some (decide (fullDisk.bytes (off + k / 8) &&& mask k ≠ 0)) := by
  rw [map_eq]
  exact bit_imageMap low

theorem zonesMap_bit (low : k < 8) : bit opened.zonesMap k = some true := by
  rw [zonesMap_eq, map_bit (by omega)]
  interval_cases k <;> decide

theorem entries : opened.blockAt 5 = some (block 6144) := blockAt (by decide) rfl (by decide) (by decide)

/-- The zone of the old kernel, which is inode 2, is the one of bit 1. -/
theorem slot : opened.slotBit ((block 5120).inode 1) (.field 0) = some 1 := by
  have way : opened.zoneIn ((block 5120).inode 1) (.field 0) = some 6 := by
    rw [zoneIn_field]
    decide
  have there : (bit opened.zonesMap 1).isSome := by
    rw [zonesMap_bit (by decide)]
    rfl
  have here : opened.bitOf 6 = some 1 := bitOf_iff.mpr ⟨by decide, there⟩
  rw [Tool.slotBit, way, Option.bind_eq_bind, Option.bind_some]
  exact here

/-- The old kernel is in inode 2, and entry 2 of block 5 is its entry. -/
theorem deletes : ∃ mid, deleteEntry fullInput.trunc 5 (block 6144) 2 opened = .ok () mid ∧
    minixDelete fullInput tree opened = .ok () mid ∧ mid.sb = opened.sb ∧
    mid.zonesMap = unsetBit opened.zonesMap 1 := by
  have root : minixFileBlock2Block tree 0 opened = .ok 5 opened :=
    minixFileBlock2Block_ok_iff.mpr ⟨rfl, by decide, by decide, by decide, by decide⟩
  have table : opened.blockAt 4 = some (block 5120) := blockAt (by decide) rfl (by decide) (by decide)
  have number : (entryInode (block 6144).bytes 2).toNat = 2 := by decide
  have inside : (bit opened.inodesMap 2).isSome := by
    rw [inodesMap_eq, map_bit (by decide)]
    rfl
  have rounds : slots fullInput.trunc.fb.toInt.toNat = [.field 0] := by decide
  have bits : (slots fullInput.trunc.fb.toInt.toNat).map (opened.slotBit ((block 5120).inode 1)) = [1].map some := by
    rw [rounds, List.map_cons, slot]
    rfl
  have old : minixLoadInode 2 opened = .ok ((block 5120).inode 1) opened :=
    minixLoadInode_ok_iff.mpr ⟨rfl, block 5120, table, rfl⟩
  rw [← number] at inside old
  have table' : opened.blockAt (opened.sb.inodeBlock (entryInode (block 6144).bytes 2).toNat) = some (block 5120) := by
    rw [number]
    exact table
  obtain ⟨mid, deleted, sb, map⟩ : ∃ mid, deleteEntry fullInput.trunc 5 (block 6144) 2 opened = .ok () mid ∧
      mid.sb = opened.sb ∧ mid.zonesMap = (opened.unmark [1]).zonesMap :=
    deleteEntry_returns old (by decide) bits inside (by decide) table'
  refine ⟨mid, deleted, ?_, sb, map.trans unmark_one⟩
  have blocks : tree.scanBlocks = 0 + 1 := by decide
  unfold minixDelete
  rw [blocks, scanRoot, bind_of_ok root, bind_of_ok (minixLoadBlock_ok_iff.mpr ⟨rfl, entries⟩),
    show scanEntries (block 6144) (tree.iSize.toNat - 1024 * 0) 32 0 = some 2 by decide]
  exact deleted

/-- One block is free then, and the new kernel needs two. -/
theorem fails {mid : Tool} (sb : mid.sb = opened.sb) (map : mid.zonesMap = unsetBit opened.zonesMap 1) :
    minixCheck fullInput mid = .error (.screamed "There's not free space for the kernel") mid := by
  have bits {k : Nat} (low : k < 8) : bit mid.zonesMap k = if k = 1 then some false else some true := by
    rw [map, bit_unsetBit (zonesMap_bit (k := 1) (by decide)), zonesMap_bit low]
  have rounds : kernelZones fullInput.kernel.bytes.size = 2 := by
    rw [show fullInput.kernel.bytes.size = 1025 from Array.size_replicate]
    decide
  have free : (List.range' 0 7).countP (fun j => bit mid.zonesMap j = some false) = 1 := by
    have same : (List.range' 0 7).countP (fun j => bit mid.zonesMap j = some false) =
        (List.range' 0 7).countP (fun j => decide (j = 1)) := by
      refine List.countP_congr fun j inside => ?_
      have low : j < 7 := by simpa using inside
      rw [bits (by omega)]
      split <;> simp_all
    rw [same]
    decide
  have there : ∀ j < 0 + 7, (bit mid.zonesMap j).isSome := by
    intro j low
    rw [bits (by omega)]
    split <;> rfl
  have counted : countZones 2 7 0 0 mid = .ok (0 + ((List.range' 0 7).countP
      fun j => bit mid.zonesMap j = some false : Nat)) mid :=
    countZones_few there (by rw [free]; decide)
  rw [free] at counted
  unfold minixCheck
  rw [get_bind, sb, rounds, if_neg (by decide)]
  rw [show opened.sb.sNzones.toNat = 7 by decide, bind_of_ok counted]
  rfl

end Full

theorem failed_install_keeps_image_iff_full : ∃ t₂,
    minixWrite fullInput Full.start = .error (.screamed "There's not free space for the kernel") t₂ ∧
      (t₂.img = Full.start.img ↔
        ∀ e, 32 * e < Full.tree.iSize.toNat → ¬ Live (Full.opened.fileByte Full.tree) e) := by
  obtain ⟨mid, -, deleted, sb, map⟩ := Full.deletes
  exact ⟨mid, failed_install_keeps_image_iff Full.opens deleted (Full.fails sb map)⟩

/-- The new kernel is refused for want of space, and the old one is gone all the same. -/
theorem old_kernel_lost : ∃ t', minixWrite fullInput Full.start =
    .error (.screamed "There's not free space for the kernel") t' ∧ t'.img ≠ Full.start.img := by
  obtain ⟨mid, ran, deleted, sb, map⟩ := Full.deletes
  have live : Live (Full.block 6144).bytes 2 := by decide
  have gone : mid.img ≠ Full.opened.img := deleteEntry_image Full.entries (by decide) live ran
  refine ⟨mid, ?_, gone⟩
  unfold minixWrite
  rw [bind_of_ok Full.opens, bind_of_ok deleted, bind_of_error (Full.fails sb map)]

end AtaKernel.Minix
