import AtaKernel.Minix.FileBlocks

/-! The table of inodes, 32 to a block, counted from 1. -/
namespace AtaKernel.Minix
open BitTable StateProgram

/-- `MINIX_INODE_TABLE(sb)` -/
def Superblock.inodeTable (sb : Superblock) : Nat := 2 + sb.sImapBlocks.toNat + sb.sZmapBlocks.toNat

def minixInodesPerBlock : Nat := minixBlockSize / 32

/-- Inode `slot` of a block of the table. -/
def Block.inode (data : Block) (slot : Nat) : Inode where
  iMode := data.word (16 * slot)
  iUid := data.word (16 * slot + 1)
  iSize := UInt32.ofNat ((data.word (16 * slot + 2)).toNat + 65536 * (data.word (16 * slot + 3)).toNat)
  iTime := UInt32.ofNat ((data.word (16 * slot + 4)).toNat + 65536 * (data.word (16 * slot + 5)).toNat)
  iGid := data (Fin.ofNat 1024 (32 * slot + 12))
  iNlinks := data (Fin.ofNat 1024 (32 * slot + 13))
  iZones j := data.word (16 * slot + 7 + j)

/-- The division is one of `size_t`, and its result is narrowed to a block number. -/
def minixLoadInode (i : Nat) : ToolM Inode := do
  let sb := (← get).sb
  let i := (UInt64.ofNat i - 1).toNat
  let data ← minixLoadBlock (UInt16.ofNat (sb.inodeTable + i / minixInodesPerBlock))
  pure (data.inode (i % minixInodesPerBlock))

variable {t t' : Tool} {inode : Inode} {i : Nat}

theorem minixLoadInode_ok_iff : minixLoadInode i t = .ok inode t' ↔ t' = t ∧ ∃ data,
    t.blockAt (UInt16.ofNat (t.sb.inodeTable + (UInt64.ofNat i - 1).toNat / minixInodesPerBlock)) = some data ∧
      data.inode ((UInt64.ofNat i - 1).toNat % minixInodesPerBlock) = inode := by
  unfold minixLoadInode
  rw [get_bind, bind_ok_iff]
  constructor
  · rintro ⟨data, mid, load, returned⟩
    obtain ⟨rfl, there⟩ := minixLoadBlock_ok_iff.mp load
    obtain ⟨same, rfl⟩ := pure_ok_iff.mp returned
    exact ⟨rfl, data, there, same⟩
  · rintro ⟨rfl, data, there, same⟩
    exact ⟨data, t', minixLoadBlock_ok_iff.mpr ⟨rfl, there⟩, pure_ok_iff.mpr ⟨same, rfl⟩⟩

/-! ## Zones in use -/

/-- An inode of a character or block device, whose first zone is the number of the device. -/
def Inode.IsDevice (inode : Inode) : Prop :=
  inode.iMode &&& 0xf000 = 0x2000 ∨ inode.iMode &&& 0xf000 = 0x6000

instance (inode : Inode) : Decidable inode.IsDevice := inferInstanceAs (Decidable (_ ∨ _))

/-- The slots of the block map of a file. -/
def Slot.InMap : Slot → Prop
  | .field i => i < 9
  | .entry (.field i) j => (i = 7 ∨ i = 8) ∧ j < 512
  | .entry (.entry (.field i) j) k => i = 8 ∧ j < 512 ∧ k < 512
  | _ => False

/-- The zone that a slot refers to. The number 0 stands for a hole, and nothing lies behind it. -/
def Tool.reference (t : Tool) (inode : Inode) : Slot → Option UInt16
  | .field i => if inode.zone i = 0 then none else some (inode.zone i)
  | .entry s j => do
    let z ← t.reference inode s
    let data ← t.blockAt z
    if data.word j = 0 then none else some (data.word j)

/-- Inode `i` is in use and refers to zone `z`. -/
def Uses (t : Tool) (i : Nat) (z : UInt16) : Prop :=
  1 ≤ i ∧ i ≤ t.sb.sInodes.toNat ∧ bit t.inodesMap i = some true ∧ ∃ inode,
    minixLoadInode i t = .ok inode t ∧ ¬ inode.IsDevice ∧ ∃ s : Slot, s.InMap ∧ t.reference inode s = some z

end AtaKernel.Minix
