import AtaKernel.Library.BitTable
import AtaKernel.Library.StateProgram

/-! The install tool's access to a disk image (`tools/src/minix.c`): blocks of
1024 bytes of one partition, read from the image file and written back to it.
The tool stops with a message where the source calls `scream_and_quit`; what C
leaves undefined is an error of its own. -/
namespace AtaKernel.Minix
open BitTable StateProgram

/-! ## Blocks -/

def minixBlockSize : Nat := 1024

abbrev Block := Fin 1024 → UInt8

instance block_neZero : NeZero 1024 := ⟨by decide⟩

/-- `((unsigned short *) data)[i]`, for an `i` below 512. -/
def Block.word (b : Block) (i : Nat) : UInt16 :=
  UInt16.ofNat ((b (Fin.ofNat 1024 (2 * i))).toNat + 256 * (b (Fin.ofNat 1024 (2 * i + 1))).toNat)

def Block.setWord (b : Block) (i : Nat) (v : UInt16) : Block :=
  Function.update (Function.update b (Fin.ofNat 1024 (2 * i)) (UInt8.ofNat v.toNat))
    (Fin.ofNat 1024 (2 * i + 1)) (UInt8.ofNat (v.toNat / 256))

theorem place_inj {x y : Nat} (left : x < 1024) (right : y < 1024) :
    Fin.ofNat 1024 x = Fin.ofNat 1024 y ↔ x = y := by
  rw [Fin.ext_iff]
  change x % 1024 = y % 1024 ↔ _
  rw [Nat.mod_eq_of_lt left, Nat.mod_eq_of_lt right]

/-- Writing a word changes that word and no other. -/
theorem word_setWord (b : Block) {i j : Nat} (v : UInt16) (here : i < 512) (there : j < 512) :
    (b.setWord i v).word j = if j = i then v else b.word j := by
  unfold Block.word Block.setWord
  simp only [Function.update_apply, place_inj (show 2 * j < 1024 by omega) (show 2 * i + 1 < 1024 by omega),
    place_inj (show 2 * j < 1024 by omega) (show 2 * i < 1024 by omega),
    place_inj (show 2 * j + 1 < 1024 by omega) (show 2 * i + 1 < 1024 by omega),
    place_inj (show 2 * j + 1 < 1024 by omega) (show 2 * i < 1024 by omega)]
  rw [if_neg (show 2 * j ≠ 2 * i + 1 by omega)]
  by_cases same : j = i
  · have small := v.toNat_lt
    rw [if_pos same, if_pos (by omega), if_pos (by omega), UInt8.toNat_ofNat', UInt8.toNat_ofNat']
    apply UInt16.toNat_inj.mp
    rw [UInt16.toNat_ofNat']
    omega
  · rw [if_neg same, if_neg (by omega), if_neg (by omega), if_neg (by omega)]

/-! ## The image file -/

structure Image where
  bytes : Nat → UInt8
  size : Nat

/-- `fseek` and `fread` of a block: nothing where the file ends before the block does. -/
def Image.read (img : Image) (off : Nat) : Option Block :=
  if off + minixBlockSize ≤ img.size then some fun i => img.bytes (off + i) else none

/-- `fseek` and `fwrite` of a block. A file that ends before it grows, with zeros in between. -/
def Image.write (img : Image) (off : Nat) (b : Block) : Image where
  bytes x :=
    if off ≤ x ∧ x < off + minixBlockSize then b (Fin.ofNat 1024 (x - off))
    else if x < img.size then img.bytes x else 0
  size := max img.size (off + minixBlockSize)

variable {img : Image} {off off' : Nat} {b b' : Block}

theorem read_write_same : (img.write off b).read off = some b := by
  have fits : off + minixBlockSize ≤ (img.write off b).size := Nat.le_max_right _ _
  rw [Image.read, if_pos fits, Option.some_inj]
  funext i
  have within : off ≤ off + i.val ∧ off + i.val < off + minixBlockSize :=
    ⟨Nat.le_add_right _ _, Nat.add_lt_add_left i.isLt off⟩
  simp only [Image.write]
  rw [if_pos within, Nat.add_sub_cancel_left, Fin.ofNat_val_eq_self]

theorem write_outside {x : Nat} (within : x < img.size) (outside : ¬ (off ≤ x ∧ x < off + minixBlockSize)) :
    (img.write off b).bytes x = img.bytes x := by
  simp only [Image.write]
  rw [if_neg outside, if_pos within]

/-- A block that is there and lies apart stays as it is. -/
theorem read_write_apart (there : img.read off' = some b')
    (apart : off + minixBlockSize ≤ off' ∨ off' + minixBlockSize ≤ off) :
    (img.write off b).read off' = some b' := by
  unfold Image.read at there ⊢
  split at there
  · next fits =>
    have fits' : off' + minixBlockSize ≤ (img.write off b).size := le_trans fits (Nat.le_max_left _ _)
    rw [if_pos fits', ← there, Option.some_inj]
    funext i
    have low : i.val < minixBlockSize := i.isLt
    exact write_outside (by omega) (by omega)
  · cases there

/-! ## The state of the tool -/

/-- `minix_sb_t` -/
structure Superblock where
  sInodes : UInt16
  sNzones : UInt16
  sImapBlocks : UInt16
  sZmapBlocks : UInt16
  sFirstdatazone : UInt16
  sLogZoneSize : UInt16
  sMaxSize : UInt32
  sMagic : UInt16
  sState : UInt16
  deriving DecidableEq

/-- `minix_inode_t` -/
structure Inode where
  iMode : UInt16
  iUid : UInt16
  iSize : UInt32
  iTime : UInt32
  iGid : UInt8
  iNlinks : UInt8
  iZones : Fin 9 → UInt16

instance zones_neZero : NeZero 9 := ⟨by decide⟩

/-- `i_zones[i]`, for an `i` below 9. -/
def Inode.zone (inode : Inode) (i : Nat) : UInt16 := inode.iZones (Fin.ofNat 9 i)

def Inode.setZone (inode : Inode) (i : Nat) (z : UInt16) : Inode :=
  { inode with iZones := Function.update inode.iZones (Fin.ofNat 9 i) z }

theorem zone_setZone {inode : Inode} {i j : Nat} {z : UInt16} (here : i < 9) (there : j < 9) :
    (inode.setZone i z).zone j = if j = i then z else inode.zone j := by
  have same : Fin.ofNat 9 j = Fin.ofNat 9 i ↔ j = i := by
    rw [Fin.ext_iff]
    change j % 9 = i % 9 ↔ _
    rw [Nat.mod_eq_of_lt here, Nat.mod_eq_of_lt there]
  simp only [Inode.zone, Inode.setZone, Function.update_apply, same]

@[simp] theorem setZone_iSize {inode : Inode} {i : Nat} {z : UInt16} :
    (inode.setZone i z).iSize = inode.iSize := rfl

/-- The globals of the tool. -/
structure Tool where
  img : Image
  ps : Int32
  sb : Superblock
  inodesMap : Table
  zonesMap : Table

/-- How the tool stops early: with a message, or where C does not say what happens. -/
inductive Quit
  | screamed (message : String)
  | undefined
  deriving DecidableEq

abbrev ToolM := EStateM Quit Tool

def screamAndQuit {α : Type} (message : String) : ToolM α := throw (.screamed message)

/-- `ps + MINIX_BLK2OFF(blk)` -/
def Tool.blockOff (t : Tool) (blk : UInt16) : Int := t.ps.toInt + minixBlockSize * blk.toNat

/-- The offset of a block, an `int`; `fseek` takes no negative one. -/
def seekBlock (blk : UInt16) (complaint : String) : ToolM Nat := do
  let off := (← get).blockOff blk
  if 2 ^ 31 ≤ off then throw .undefined
  else if off < 0 then screamAndQuit complaint
  else pure off.toNat

def minixLoadBlock (blk : UInt16) : ToolM Block := do
  let off ← seekBlock blk "Could not seek to block."
  match (← get).img.read off with
  | some data => pure data
  | none => screamAndQuit "Could not read file block."

def minixStoreBlock (blk : UInt16) (data : Block) : ToolM Unit := do
  let off ← seekBlock blk "Could not seek to flush block."
  modify fun t => { t with img := t.img.write off data }

/-! ## Blocks as the tool sees them -/

/-- The block has an offset that `fseek` takes. -/
def Tool.Reaches (t : Tool) (z : UInt16) : Prop := 0 ≤ t.blockOff z ∧ t.blockOff z < 2 ^ 31

instance (t : Tool) (z : UInt16) : Decidable (t.Reaches z) := inferInstanceAs (Decidable (_ ∧ _))

/-- What a block holds, if it is there. -/
def Tool.blockAt (t : Tool) (z : UInt16) : Option Block :=
  if t.Reaches z then t.img.read (t.blockOff z).toNat else none

def Tool.putBlock (t : Tool) (z : UInt16) (b : Block) : Tool :=
  { t with img := t.img.write (t.blockOff z).toNat b }

variable {t t' : Tool} {z z' : UInt16}

theorem seekBlock_ok_iff {complaint : String} :
    seekBlock z complaint t = .ok off t' ↔ t' = t ∧ t.Reaches z ∧ (t.blockOff z).toNat = off := by
  have seek : seekBlock z complaint t = if 2 ^ 31 ≤ t.blockOff z then .error .undefined t
      else if t.blockOff z < 0 then .error (.screamed complaint) t else .ok (t.blockOff z).toNat t := by
    unfold seekBlock
    rw [get_bind]
    split
    · rfl
    · split <;> rfl
  rw [seek, Tool.Reaches]
  split
  · next far => exact error_ok_iff fun all => by have near_ := all.2.1; omega
  · next near_ =>
    split
    · next negative => exact error_ok_iff fun all => by have near_ := all.2.1; omega
    · next positive =>
      rw [EStateM.Result.ok.injEq, @eq_comm _ t t']
      constructor
      · rintro ⟨place, same⟩
        exact ⟨same, ⟨by omega, by omega⟩, place⟩
      · rintro ⟨same, -, place⟩
        exact ⟨place, same⟩

theorem minixLoadBlock_ok_iff : minixLoadBlock z t = .ok b t' ↔ t' = t ∧ t.blockAt z = some b := by
  unfold minixLoadBlock
  rw [bind_ok_iff]
  constructor
  · rintro ⟨off, mid, sought, rest⟩
    obtain ⟨rfl, reaches, rfl⟩ := seekBlock_ok_iff.mp sought
    rw [get_bind] at rest
    cases read : mid.img.read (mid.blockOff z).toNat with
    | none =>
      rw [read] at rest
      cases rest
    | some data =>
      rw [read] at rest
      obtain ⟨rfl, rfl⟩ := pure_ok_iff.mp rest
      exact ⟨rfl, by rw [Tool.blockAt, if_pos reaches, read]⟩
  · rintro ⟨rfl, there⟩
    unfold Tool.blockAt at there
    split at there
    · next reaches =>
      refine ⟨_, t', seekBlock_ok_iff.mpr ⟨rfl, reaches, rfl⟩, ?_⟩
      rw [get_bind, there]
      rfl
    · cases there

theorem minixStoreBlock_ok_iff {u : Unit} :
    minixStoreBlock z b t = .ok u t' ↔ t.Reaches z ∧ t' = t.putBlock z b := by
  unfold minixStoreBlock
  rw [bind_ok_iff]
  constructor
  · rintro ⟨off, mid, sought, rest⟩
    obtain ⟨rfl, reaches, rfl⟩ := seekBlock_ok_iff.mp sought
    cases rest
    exact ⟨reaches, rfl⟩
  · rintro ⟨reaches, rfl⟩
    exact ⟨_, t, seekBlock_ok_iff.mpr ⟨rfl, reaches, rfl⟩, rfl⟩

theorem reaches_of_blockAt (there : t.blockAt z = some b) : t.Reaches z := by
  unfold Tool.blockAt at there
  split at there
  · assumption
  · cases there

theorem blockAt_putBlock_same (reaches : t.Reaches z) : (t.putBlock z b).blockAt z = some b := by
  have reaches' : (t.putBlock z b).Reaches z := reaches
  rw [Tool.blockAt, if_pos reaches']
  exact read_write_same

/-- Blocks of different numbers lie apart. -/
theorem blockAt_putBlock_apart (there : t.blockAt z' = some b') (reaches : t.Reaches z) (other : z' ≠ z) :
    (t.putBlock z b).blockAt z' = some b' := by
  have reaches' := reaches_of_blockAt there
  have numbers : z'.toNat ≠ z.toNat := fun same => other (UInt16.toNat_inj.mp same)
  unfold Tool.blockAt at there
  rw [if_pos reaches'] at there
  have after : (t.putBlock z b).Reaches z' := reaches'
  have apart : (t.blockOff z).toNat + minixBlockSize ≤ (t.blockOff z').toNat ∨
      (t.blockOff z').toNat + minixBlockSize ≤ (t.blockOff z).toNat := by
    unfold Tool.Reaches Tool.blockOff minixBlockSize at *
    omega
  rw [Tool.blockAt, if_pos after]
  exact read_write_apart there apart

end AtaKernel.Minix
