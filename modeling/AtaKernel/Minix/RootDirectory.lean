import AtaKernel.Minix.InodeStore

/-! The root directory on a disk: its inode, the zones in the slots of that
inode, and the blocks in those zones. What is read of it depends on these alone,
so a step that keeps them keeps the directory: a file that takes free zones,
another inode that is saved, the maps that are written back. -/
namespace AtaKernel.Minix
open BitTable StateProgram

/-- The tables come before the zones, and a bit that is clear stands for a block. -/
structure Geometry (t : Tool) : Prop where
  fits : t.sb.TableFits
  some_ : 2 ≤ t.sb.sInodes.toNat
  clear : ∀ k ∈ t.clearBits, t.sb.sFirstdatazone.toNat + k < 2 ^ 16

/-- The maps have the size that the superblock gives. -/
structure Laid (t : Tool) : Prop extends Geometry t where
  inodesMap : t.inodesMap.size = 1024 * t.sb.sImapBlocks.toNat
  zonesMap : t.zonesMap.size = 1024 * t.sb.sZmapBlocks.toNat

/-- The directory of an inode has the blocks `dir j`, for `j` below `n`. Its slots lead to the zones of the
bits `ks`, which are all different. -/
structure Lies (ks : List Nat) (n : Nat) (dir : Nat → Block) (root : Inode) (t : Tool) : Prop where
  ways : (slots n).map (t.zoneIn root) = ks.map fun k => some (t.sb.zone k)
  blocks : ∀ j < n, ∃ z, t.zoneIn root (dataSlot j) = some z ∧ t.blockAt z = some (dir j)
  within : ∀ k ∈ ks, k < t.sb.sNzones.toNat ∧ t.sb.sFirstdatazone.toNat + k < 2 ^ 16
  apart : ks.Nodup
  few : n ≤ 519 + 512 * 512

/-- The bits are set. -/
structure Spread (ks : List Nat) (n : Nat) (dir : Nat → Block) (root : Inode) (t : Tool) : Prop
    extends Lies ks n dir root t where
  taken : ∀ k ∈ ks, bit t.zonesMap k = some true

/-- The inode is the one of the root directory. -/
structure Holds (ks : List Nat) (n : Nat) (dir : Nat → Block) (root : Inode) (t : Tool) : Prop
    extends Spread ks n dir root t where
  loads : minixLoadInode 1 t = .ok root t

variable {before t t' : Tool} {owned : List (Slot × Nat)} {root inode x : Inode} {i j k n : Nat} {z : UInt16}
  {b data : Block} {s : Slot} {ks : List Nat} {dir : Nat → Block}

/-! ## What is read of a directory -/

theorem Spread.way (spread : Spread ks n dir root t) (inside : s ∈ slots n) :
    ∃ k ∈ ks, t.zoneIn root s = some (t.sb.zone k) := by
  have there : t.zoneIn root s ∈ ks.map fun k => some (t.sb.zone k) := by
    rw [← spread.ways]
    exact List.mem_map_of_mem inside
  obtain ⟨k, mine, same⟩ := List.mem_map.mp there
  exact ⟨k, mine, same.symm⟩

/-- The slots lead on where the blocks of the zones are kept. -/
theorem Spread.zoneIn_kept (spread : Spread ks n dir root t)
    (kept : ∀ k ∈ ks, ∀ b, t.blockAt (t.sb.zone k) = some b → t'.blockAt (t.sb.zone k) = some b)
    (inside : s ∈ slots n) : t'.zoneIn root s = t.zoneIn root s := by
  induction s with
  | field i => rfl
  | entry q i ih =>
    have above := (tree_slots spread.few).closed q i inside
    obtain ⟨k, -, way⟩ := spread.way inside
    obtain ⟨k', mine, way'⟩ := spread.way above
    obtain ⟨p, data, here, there, word⟩ := zoneIn_entry_iff.mp way
    obtain rfl : t.sb.zone k' = p := Option.some_inj.mp (way'.symm.trans here)
    rw [way]
    exact zoneIn_entry_iff.mpr ⟨_, data, (ih above).trans way', kept k' mine data there, word⟩

/-- The zones tell where the slots lead. -/
theorem Spread.same_way {dir' : Nat → Block} (spread : Spread ks n dir root t) (spread' : Spread ks n dir' root t')
    (sb : t'.sb = t.sb) (inside : s ∈ slots n) : t'.zoneIn root s = t.zoneIn root s := by
  have ways := spread'.ways
  rw [sb, ← spread.ways] at ways
  exact List.map_inj_left.mp ways s inside

/-- A step that keeps the zones and their bits keeps what is in them. -/
theorem Spread.frame (spread : Spread ks n dir root t) (sb : t'.sb = t.sb)
    (kept : ∀ k ∈ ks, ∀ b, t.blockAt (t.sb.zone k) = some b → t'.blockAt (t.sb.zone k) = some b)
    (taken : ∀ k ∈ ks, bit t'.zonesMap k = some true) : Spread ks n dir root t' where
  ways := by
    rw [sb, ← spread.ways]
    exact List.map_congr_left fun s inside => spread.zoneIn_kept kept inside
  blocks := by
    intro j low
    have inside : dataSlot j ∈ slots n := mem_slots.mpr ⟨j, low, dataSlot_mem j⟩
    obtain ⟨k, mine, way⟩ := spread.way inside
    obtain ⟨z, way', there⟩ := spread.blocks j low
    obtain rfl : t.sb.zone k = z := Option.some_inj.mp (way.symm.trans way')
    exact ⟨_, (spread.zoneIn_kept kept inside).trans way', kept k mine _ there⟩
  within := by
    rw [sb]
    exact spread.within
  apart := spread.apart
  taken := taken
  few := spread.few

theorem loads_kept (sb : t'.sb = t.sb)
    (kept : ∀ b, t.blockAt (t.sb.inodeBlock i) = some b → t'.blockAt (t.sb.inodeBlock i) = some b)
    (loads : minixLoadInode i t = .ok x t) : minixLoadInode i t' = .ok x t' := by
  obtain ⟨-, data, there, here⟩ := minixLoadInode_ok_iff.mp loads
  refine minixLoadInode_ok_iff.mpr ⟨rfl, data, ?_, here⟩
  rw [sb]
  exact kept data there

/-- Byte `x` of the blocks of a directory. -/
def dirBytes (dir : Nat → Block) (x : Nat) : UInt8 := (dir (x / 1024)).bytes (x % 1024)

theorem Spread.fileByte (spread : Spread ks n dir root t) {x : Nat} (low : x < 1024 * n) :
    t.fileByte root x = dirBytes dir x := by
  obtain ⟨z, way, there⟩ := spread.blocks (x / 1024) (by omega)
  have byte := fileByte_block way there (Nat.mod_lt x (by decide))
  rwa [Nat.div_add_mod] at byte

/-! ## Blocks that a file does not own -/

theorem Owns.place (owns : Owns before owned inode t) (z : UInt16) : t.blockOff z = before.blockOff z := by
  unfold Tool.blockOff
  rw [owns.ps]

/-- No byte is one of two blocks. -/
theorem within_unique {z' : UInt16} {x : Nat} (here : t.Within z x) (there : t.Within z' x) : z = z' := by
  apply UInt16.toNat_inj.mp
  unfold Tool.Within Tool.blockOff minixBlockSize at here there
  omega

theorem Owns.blockAt_outside (owns : Owns before owned inode t) (other : ∀ y ∈ owned, before.sb.zone y.2 ≠ z)
    (there : before.blockAt z = some b) : t.blockAt z = some b := by
  have reaches := reaches_of_blockAt there
  have more := owns.size
  have start : 0 ≤ before.blockOff z := reaches.1
  unfold Tool.blockAt at there ⊢
  rw [if_pos reaches] at there
  rw [if_pos (owns.reaches.mpr reaches), owns.place]
  unfold Image.read at there ⊢
  split at there
  · next fits =>
    rw [if_pos (by omega), ← there, Option.some_inj]
    funext i
    have low : i.val < minixBlockSize := i.isLt
    refine owns.outside _ (by omega) fun y mine inside => other y mine ?_
    exact within_unique inside ⟨by omega, by omega⟩
  · cases there

/-- A block that the file does not own is written in both states. -/
theorem Owns.beside (owns : Owns before owned inode t) (tree : Tree (owned.map Prod.fst))
    (other : ∀ y ∈ owned, before.sb.zone y.2 ≠ z) (there : (before.blockAt z).isSome) :
    Owns (before.putBlock z b) owned inode (t.putBlock z b) where
  ps := owns.ps
  sb := owns.sb
  zone := by
    obtain ⟨old, here⟩ := Option.isSome_iff_exists.mp (owns.blockAt_isSome there)
    rintro ⟨s, l⟩ inside
    induction s generalizing l with
    | field i => exact owns.zone _ inside
    | entry q j ih =>
      obtain ⟨⟨q', lq⟩, above, rfl⟩ := List.mem_map.mp
        (tree.closed q j (List.mem_map_of_mem (f := Prod.fst) inside))
      obtain ⟨p, data, way, there', word⟩ := zoneIn_entry_iff.mp (owns.zone _ inside)
      obtain rfl : before.sb.zone lq = p := Option.some_inj.mp ((owns.zone _ above).symm.trans way)
      exact zoneIn_entry_iff.mpr ⟨_, data, ih _ above,
        blockAt_putBlock_apart there' (reaches_of_blockAt here) (other _ above), word⟩
  small := owns.small
  free := owns.free
  apart := owns.apart
  map := owns.map
  mapSize := owns.mapSize
  size := max_le_max owns.size (by rw [owns.place])
  outside := by
    intro x inside outside
    obtain ⟨old, here⟩ := Option.isSome_iff_exists.mp there
    have more := owns.size
    have fits : (before.blockOff z).toNat + minixBlockSize ≤ before.img.size := by
      unfold Tool.blockAt Image.read at here
      split at here
      · split at here
        · assumption
        · cases here
      · cases here
    have inside' : x < before.img.size := by
      have grown : x < max before.img.size ((before.blockOff z).toNat + minixBlockSize) := inside
      omega
    unfold Tool.putBlock
    rw [owns.place]
    by_cases mine : (before.blockOff z).toNat ≤ x ∧ x < (before.blockOff z).toNat + minixBlockSize
    · simp only [Image.write]
      rw [if_pos mine, if_pos mine]
    · rw [write_outside (by omega) mine, write_outside inside' mine]
      exact owns.outside x inside' outside

/-! ## Steps that keep the directory -/

theorem zone_apart (fits : t.sb.TableFits) (numbers : t.sb.Numbers i) (low : t.sb.sFirstdatazone.toNat + k < 2 ^ 16) :
    t.sb.zone k ≠ t.sb.inodeBlock i := by
  have block := inodeBlock_toNat fits numbers
  have zone := toNat_zone low
  intro same
  rw [same] at zone
  omega

/-- The steps that write no block of the table. -/
theorem Holds.keep (holds : Holds ks n dir root t) (sb : t'.sb = t.sb)
    (kept : ∀ z, (z = t.sb.inodeBlock 1 ∨ ∃ k ∈ ks, z = t.sb.zone k) → ∀ b, t.blockAt z = some b →
      t'.blockAt z = some b)
    (taken : ∀ k ∈ ks, bit t'.zonesMap k = some true) : Holds ks n dir root t' where
  toSpread := holds.frame sb (fun k mine => kept _ (.inr ⟨k, mine, rfl⟩)) taken
  loads := loads_kept sb (kept _ (.inl rfl)) holds.loads

theorem Laid.save {u : Unit} (laid : Laid t) (saved : minixSaveInode i x t = .ok u t') : Laid t' := by
  obtain ⟨data, -, rfl⟩ := minixSaveInode_ok_iff.mp saved
  exact ⟨⟨laid.fits, laid.some_, laid.clear⟩, laid.inodesMap, laid.zonesMap⟩

theorem Spread.save {u : Unit} (spread : Spread ks n dir root t) (laid : Laid t) (numbers : t.sb.Numbers i)
    (saved : minixSaveInode i x t = .ok u t') : Spread ks n dir root t' := by
  obtain ⟨data, there, rfl⟩ := minixSaveInode_ok_iff.mp saved
  refine spread.frame rfl (fun k mine b here => ?_) spread.taken
  exact blockAt_putBlock_apart here (reaches_of_blockAt there) (zone_apart laid.fits numbers (spread.within k mine).2)

/-- Another inode is saved. -/
theorem Holds.save {u : Unit} (holds : Holds ks n dir root t) (laid : Laid t) (numbers : t.sb.Numbers i)
    (other : i ≠ 1) (saved : minixSaveInode i x t = .ok u t') : Holds ks n dir root t' where
  toSpread := holds.toSpread.save laid numbers saved
  loads := by
    have first : t.sb.Numbers 1 := ⟨le_rfl, le_trans (by decide) laid.some_⟩
    have loads := minixLoadInode_save laid.fits numbers first saved holds.loads
    rwa [if_neg other.symm] at loads

/-- The inode of the directory itself is saved. -/
theorem Spread.saved {u : Unit} (spread : Spread ks n dir root t) (laid : Laid t)
    (saved : minixSaveInode 1 root t = .ok u t') : Holds ks n dir root t' := by
  have first : t.sb.Numbers 1 := ⟨le_rfl, le_trans (by decide) laid.some_⟩
  obtain ⟨data, there, -⟩ := minixSaveInode_ok_iff.mp saved
  have loads : minixLoadInode 1 t = .ok (data.inode (inodeSlot 1)) t :=
    minixLoadInode_ok_iff.mpr ⟨rfl, data, there, rfl⟩
  exact ⟨spread.save laid first saved, minixLoadInode_save laid.fits first first saved loads⟩

/-- Zones of other bits are given back. -/
theorem Holds.unmark {given : List Nat} (holds : Holds ks n dir root t)
    (within : ∀ k ∈ given, (bit t.zonesMap k).isSome) (other : ∀ k ∈ ks, k ∉ given) :
    Holds ks n dir root (t.unmark given) := by
  refine holds.keep rfl (fun _ _ _ there => there) fun k mine => ?_
  rw [bit_unmark within, if_neg (other k mine)]
  exact holds.taken k mine

theorem Laid.unmark {given : List Nat} (laid : Laid t) (within : ∀ k ∈ given, (bit t.zonesMap k).isSome)
    (low : ∀ k ∈ given, t.sb.sFirstdatazone.toNat + k < 2 ^ 16) : Laid (t.unmark given) where
  fits := laid.fits
  some_ := laid.some_
  clear := by
    intro k clear
    obtain ⟨small, clear⟩ := mem_clearBits.mp clear
    rw [bit_unmark within] at clear
    by_cases mine : k ∈ given
    · exact low k mine
    · rw [if_neg mine] at clear
      exact laid.clear k (mem_clearBits.mpr ⟨small, clear⟩)
  inodesMap := laid.inodesMap
  zonesMap := unmark_size.trans laid.zonesMap

theorem Holds.setInodesMap (holds : Holds ks n dir root t) (map : Table) :
    Holds ks n dir root { t with inodesMap := map } :=
  holds.keep rfl (fun _ _ _ there => there) holds.taken

theorem Laid.setInodesMap {map : Table} (laid : Laid t) (size : map.size = t.inodesMap.size) :
    Laid { t with inodesMap := map } :=
  ⟨⟨laid.fits, laid.some_, laid.clear⟩, size.trans laid.inodesMap, laid.zonesMap⟩

/-- A file takes zones that were free. -/
theorem Holds.owns (holds : Holds ks n dir root before) (laid : Laid before) (owns : Owns before owned inode t) :
    Holds ks n dir root t := by
  have low {y : Slot × Nat} (mine : y ∈ owned) : before.sb.sFirstdatazone.toNat + y.2 < 2 ^ 16 :=
    laid.clear y.2 (mem_clearBits.mpr ⟨owns.small y mine, owns.free y mine⟩)
  refine holds.keep owns.sb (fun z part b there => owns.blockAt_outside (fun y mine same => ?_) there) fun k mine => ?_
  · subst same
    rcases part with table | ⟨k, root_, same⟩
    · exact zone_apart laid.fits ⟨le_rfl, le_trans (by decide) laid.some_⟩ (low mine) table
    · have small := low mine
      have small' := (holds.within k root_).2
      have free := owns.free y mine
      rw [zone_inj (by omega) (by omega) same, holds.taken k root_] at free
      cases free
  · rw [owns.map k, holds.taken k mine]
    split <;> rfl

theorem Laid.owns (laid : Laid before) (owns : Owns before owned inode t) (inodesMap : t.inodesMap = before.inodesMap) :
    Laid t where
  fits := by
    rw [owns.sb]
    exact laid.fits
  some_ := by
    rw [owns.sb]
    exact laid.some_
  clear := by
    intro k clear
    obtain ⟨small, clear⟩ := mem_clearBits.mp clear
    rw [owns.map k] at clear
    rw [owns.sb] at small ⊢
    split at clear
    · cases clear
    · exact laid.clear k (mem_clearBits.mpr ⟨small, clear⟩)
  inodesMap := by
    rw [owns.sb, inodesMap]
    exact laid.inodesMap
  zonesMap := by
    rw [owns.sb, owns.mapSize]
    exact laid.zonesMap

/-! ## Zones that are marked -/

/-- The bits `ks` are set. -/
def Tool.mark (t : Tool) (ks : List Nat) : Tool := { t with zonesMap := ks.foldl setBit t.zonesMap }

theorem bit_mark (there : ∀ k ∈ ks, (bit t.zonesMap k).isSome) :
    bit (t.mark ks).zonesMap k = if k ∈ ks then some true else bit t.zonesMap k := bit_setBits there

theorem mark_size : (t.mark ks).zonesMap.size = t.zonesMap.size := size_setBits ks

/-- What is set already stays as it is. -/
theorem mark_eq (taken : ∀ k ∈ ks, bit t.zonesMap k = some true) : t.mark ks = t := by
  have there : ∀ k ∈ ks, (bit t.zonesMap k).isSome := fun k mine => taken k mine ▸ rfl
  have map : ks.foldl setBit t.zonesMap = t.zonesMap := table_ext (size_setBits ks) fun k => by
    rw [bit_setBits there]
    split
    · next mine => exact (taken k mine).symm
    · rfl
  unfold Tool.mark
  rw [map]

@[simp] theorem mark_zoneIn : (t.mark ks).zoneIn inode s = t.zoneIn inode s := by
  induction s with
  | field i => rfl
  | entry s i ih => rw [Tool.zoneIn, Tool.zoneIn, ih]; rfl

theorem mark_loads : minixLoadInode i (t.mark ks) = .ok inode (t.mark ks) ↔ minixLoadInode i t = .ok inode t := by
  rw [minixLoadInode_ok_iff, minixLoadInode_ok_iff, and_iff_right rfl, and_iff_right rfl]
  rfl

theorem mark_fileByte (ks : List Nat) : (t.mark ks).fileByte root = t.fileByte root := by
  funext x
  unfold Tool.fileByte
  rw [mark_zoneIn]
  rfl

/-- A directory whose bits are set lies as one whose bits are not. -/
theorem Lies.spread_mark (lies : Lies ks n dir root t) (there : ∀ k ∈ ks, (bit t.zonesMap k).isSome) :
    Spread ks n dir root (t.mark ks) where
  ways := (List.map_congr_left fun s _ => mark_zoneIn).trans lies.ways
  blocks := fun j low => by
    obtain ⟨z, way, at_⟩ := lies.blocks j low
    exact ⟨z, mark_zoneIn.trans way, at_⟩
  within := lies.within
  apart := lies.apart
  few := lies.few
  taken := fun k mine => by rw [bit_mark there, if_pos mine]

theorem Laid.mark (laid : Laid t) (there : ∀ k ∈ ks, (bit t.zonesMap k).isSome) : Laid (t.mark ks) where
  fits := laid.fits
  some_ := laid.some_
  clear := by
    intro k clear
    obtain ⟨small, clear⟩ := mem_clearBits.mp clear
    rw [bit_mark there] at clear
    split at clear
    · cases clear
    · exact laid.clear k (mem_clearBits.mpr ⟨small, clear⟩)
  inodesMap := laid.inodesMap
  zonesMap := mark_size.trans laid.zonesMap

/-! ## The directory as a file that grows -/

theorem zip_maps {α β γ : Type} {f : α → γ} {g : β → γ} {as : List α} {bs : List β} (same : as.map f = bs.map g)
    {x : α × β} (inside : x ∈ as.zip bs) : f x.1 = g x.2 := by
  induction as generalizing bs with
  | nil => cases inside
  | cons a as ih =>
    cases bs with
    | nil => cases inside
    | cons b bs =>
      obtain ⟨first, rest⟩ := List.cons.inj same
      rcases List.mem_cons.mp inside with rfl | later
      · exact first
      · exact ih rest later

/-- Seen from a map without its zones, the directory is a file that has taken them. -/
theorem Spread.copied (spread : Spread ks n dir root t) :
    ∃ zones, Copied (t.unmark ks) dir n ((slots n).zip ks) zones root t := by
  have length : (slots n).length = ks.length := by
    rw [← List.length_map (t.zoneIn root), spread.ways, List.length_map]
  have names : ((slots n).zip ks).map Prod.fst = slots n := List.map_fst_zip length.le
  have bits : ((slots n).zip ks).map Prod.snd = ks := List.map_snd_zip length.ge
  have there : ∀ k ∈ ks, (bit t.zonesMap k).isSome := fun k mine => spread.taken k mine ▸ rfl
  have way {x : Slot × Nat} (inside : x ∈ (slots n).zip ks) : t.zoneIn root x.1 = some (t.sb.zone x.2) :=
    zip_maps spread.ways inside
  refine ⟨(List.range n).map fun j => (t.zoneIn root (dataSlot j)).getD 0, ⟨rfl, rfl, fun x => way, ?_, ?_, ?_, ?_,
    unmark_size.symm, le_rfl, fun _ _ _ => rfl⟩, names, by rw [List.length_map, List.length_range], ?_⟩
  · intro x inside
    exact (spread.within x.2 (List.of_mem_zip inside).2).1
  · intro x inside
    rw [bit_unmark there, if_pos (List.of_mem_zip inside).2]
  · rw [bits]
    exact spread.apart
  · intro k
    rw [bits, bit_unmark there]
    by_cases mine : k ∈ ks
    · rw [if_pos mine, spread.taken k mine]
    · rw [if_neg mine, if_neg mine]
  · intro j low
    have inside : dataSlot j ∈ ((slots n).zip ks).map Prod.fst := by
      rw [names]
      exact mem_slots.mpr ⟨j, low, dataSlot_mem j⟩
    obtain ⟨⟨s, k⟩, pair, rfl⟩ := List.mem_map.mp inside
    obtain ⟨z, way', block⟩ := spread.blocks j low
    obtain rfl : t.sb.zone k = z := Option.some_inj.mp ((way pair).symm.trans way')
    refine ⟨k, pair, ?_, block⟩
    rw [List.getElem?_map, List.getElem?_range low, Option.map_some, way', Option.getD_some]
    rfl

/-- A file that has taken its zones is spread over them. -/
theorem Copied.spread {zones : List UInt16} (copied : Copied before dir n owned zones root t)
    (low : ∀ x ∈ owned, before.sb.sFirstdatazone.toNat + x.2 < 2 ^ 16) (few : n ≤ 519 + 512 * 512) :
    Spread (owned.map Prod.snd) n dir root t where
  ways := by
    rw [← copied.names, List.map_map, List.map_map, copied.owns.sb]
    exact List.map_congr_left fun x inside => copied.owns.zone x inside
  blocks := by
    intro j inside
    obtain ⟨k, mine, -, there⟩ := copied.stored j inside
    exact ⟨_, copied.owns.zone _ mine, there⟩
  within := by
    intro k inside
    obtain ⟨x, mine, rfl⟩ := List.mem_map.mp inside
    rw [copied.owns.sb]
    exact ⟨copied.owns.small x mine, low x mine⟩
  apart := copied.owns.apart
  taken := fun k inside => by rw [copied.owns.map, if_pos inside]
  few := few

theorem Copied.congr {zones : List UInt16} {dir' : Nat → Block} (copied : Copied before dir n owned zones root t)
    (same : ∀ j < n, dir j = dir' j) : Copied before dir' n owned zones root t where
  owns := copied.owns
  names := copied.names
  length := copied.length
  stored := fun j low => by
    rw [← same j low]
    exact copied.stored j low

/-- One block of a file is written anew. -/
theorem Copied.rewrite {zones : List UInt16} (copied : Copied before dir n owned zones root t)
    (few : n ≤ 519 + 512 * 512) (low : j < n) (way : t.zoneIn root (dataSlot j) = some z) (reaches : t.Reaches z) :
    Copied before (Function.update dir j b) n owned zones root (t.putBlock z b) := by
  obtain ⟨k, mine, -, -⟩ := copied.stored j low
  obtain rfl : before.sb.zone k = z := Option.some_inj.mp ((copied.owns.zone _ mine).symm.trans way)
  have tree : Tree (owned.map Prod.fst) := copied.names ▸ tree_slots few
  have leaf : ∀ i, .entry (dataSlot j) i ∉ owned.map Prod.fst := by
    intro i inside
    obtain ⟨c, -, here⟩ := mem_slots.mp (copied.names ▸ inside)
    exact dataSlot_leaf here
  refine ⟨copied.owns.put tree mine reaches fun i data inside => absurd inside (leaf i), copied.names, copied.length,
    fun j' low' => ?_⟩
  obtain ⟨k', mine', here, there⟩ := copied.stored j' low'
  refine ⟨k', mine', here, ?_⟩
  by_cases same : j' = j
  · subst same
    rw [Option.some_inj.mp ((copied.owns.zone _ mine').symm.trans way), Function.update_self]
    exact blockAt_putBlock_same reaches
  · rw [Function.update_of_ne same]
    refine blockAt_putBlock_apart there reaches fun together => same ?_
    have slot := congrArg Prod.fst (copied.owns.zones_apart mine' mine together)
    have born := congrArg Slot.birth slot
    rwa [birth_dataSlot, birth_dataSlot] at born

theorem Spread.rewrite (spread : Spread ks n dir root t) (low : j < n)
    (way : t.zoneIn root (dataSlot j) = some z) (reaches : t.Reaches z) :
    Spread ks n (Function.update dir j b) root (t.putBlock z b) := by
  obtain ⟨zones, copied⟩ := spread.copied
  have length : (slots n).length = ks.length := by
    rw [← List.length_map (t.zoneIn root), spread.ways, List.length_map]
  have rewritten : Copied (t.unmark ks) (Function.update dir j b) n ((slots n).zip ks) zones root (t.putBlock z b) :=
    copied.rewrite spread.few low way reaches
  have spread' := rewritten.spread (fun x mine => (spread.within x.2 (List.of_mem_zip mine).2).2) spread.few
  rwa [List.map_snd_zip length.ge] at spread'

/-- A block of the root directory is written anew. -/
theorem Holds.rewrite (holds : Holds ks n dir root t) (laid : Laid t) (low : j < n)
    (way : t.zoneIn root (dataSlot j) = some z) (reaches : t.Reaches z) :
    Holds ks n (Function.update dir j b) root (t.putBlock z b) where
  toSpread := holds.toSpread.rewrite low way reaches
  loads := by
    have inside : dataSlot j ∈ slots n := mem_slots.mpr ⟨j, low, dataSlot_mem j⟩
    obtain ⟨k, mine, way'⟩ := holds.way inside
    obtain rfl : t.sb.zone k = z := Option.some_inj.mp (way'.symm.trans way)
    have apart := zone_apart (i := 1) laid.fits ⟨le_rfl, le_trans (by decide) laid.some_⟩ (holds.within k mine).2
    exact loads_kept (t := t) rfl (fun _ there => blockAt_putBlock_apart there reaches apart.symm) holds.loads

theorem Laid.putBlock (laid : Laid t) : Laid (t.putBlock z b) :=
  ⟨⟨laid.fits, laid.some_, laid.clear⟩, laid.inodesMap, laid.zonesMap⟩

/-- A block that the file does not own is written in both states. -/
theorem Copied.beside {zones : List UInt16} (copied : Copied before dir n owned zones inode t)
    (few : n ≤ 519 + 512 * 512) (other : ∀ y ∈ owned, before.sb.zone y.2 ≠ z) (there : (before.blockAt z).isSome) :
    Copied (before.putBlock z b) dir n owned zones inode (t.putBlock z b) where
  owns := copied.owns.beside (copied.names ▸ tree_slots few) other there
  names := copied.names
  length := copied.length
  stored := by
    intro j low
    obtain ⟨k, mine, here, block⟩ := copied.stored j low
    obtain ⟨old, at_⟩ := Option.isSome_iff_exists.mp (copied.owns.blockAt_isSome there)
    exact ⟨k, mine, here, blockAt_putBlock_apart block (reaches_of_blockAt at_) (other _ mine)⟩

/-! ## The maps are written back -/

theorem writeMap_ok {name : String} {map : Table} {u : Unit} (ran : writeMap name n map t = .ok u t') :
    ∃ off : Nat, (off : Int) = t.ps.toInt + minixBlockSize * n ∧ t' = { t with img := t.img.writeBytes off map } := by
  obtain ⟨off, mid, sought, rest⟩ := bind_ok_iff.mp ran
  have place : mid = t ∧ (off : Int) = t.ps.toInt + minixBlockSize * n := by
    unfold seekOff at sought
    rw [get_bind] at sought
    split at sought
    · cases sought
    split at sought
    · cases sought
    · obtain ⟨rfl, rfl⟩ := pure_ok_iff.mp sought
      exact ⟨rfl, by omega⟩
  obtain ⟨rfl, place⟩ := place
  cases rest
  exact ⟨off, place, rfl⟩

/-- The blocks behind a map are as before. -/
theorem blockAt_writeBytes {off : Nat} {map : Table} (place : (off : Int) = t.ps.toInt + minixBlockSize * n)
    (behind : 1024 * n + map.size ≤ 1024 * z.toNat) (there : t.blockAt z = some b) :
    Tool.blockAt { t with img := t.img.writeBytes off map } z = some b := by
  have reaches := reaches_of_blockAt there
  have start : t.blockOff z = t.ps.toInt + 1024 * z.toNat := rfl
  have place' : (off : Int) = t.ps.toInt + 1024 * n := place
  have reaches' : Tool.Reaches { t with img := t.img.writeBytes off map } z := reaches
  have start' : Tool.blockOff { t with img := t.img.writeBytes off map } z = t.blockOff z := rfl
  unfold Tool.blockAt Image.read at there ⊢
  rw [if_pos reaches] at there
  rw [if_pos reaches', start', writeBytes_size]
  split at there
  · next fits =>
    have fits' : (t.blockOff z).toNat + minixBlockSize ≤
        if map.size = 0 then t.img.size else max t.img.size (off + map.size) := by
      split
      · exact fits
      · exact le_trans fits (Nat.le_max_left _ _)
    rw [if_pos fits', ← there, Option.some_inj]
    funext i
    have low : i.val < minixBlockSize := i.isLt
    have inside : (t.blockOff z).toNat + i.val < t.img.size := by omega
    have apart : ¬ (off ≤ (t.blockOff z).toNat + i.val ∧ (t.blockOff z).toNat + i.val < off + map.size) := by omega
    exact writeBytes_outside inside apart
  · cases there

/-- A map ahead of the table is written. -/
theorem Holds.writeBytes {off : Nat} (holds : Holds ks n dir root t) (laid : Laid t) (map : Table)
    (before_ : 1024 * i + map.size ≤ 1024 * t.sb.inodeTable)
    (place : (off : Int) = t.ps.toInt + minixBlockSize * i) :
    Holds ks n dir root { t with img := t.img.writeBytes off map } := by
  refine holds.keep rfl (fun z part b there => blockAt_writeBytes place ?_ there) holds.taken
  have first : t.sb.Numbers 1 := ⟨le_rfl, le_trans (by decide) laid.some_⟩
  have block := inodeBlock_toNat laid.fits first
  rcases part with rfl | ⟨k, mine, rfl⟩
  · omega
  · rw [toNat_zone (holds.within k mine).2]
    omega

theorem Holds.writeMap {name : String} {map : Table} {u : Unit} (holds : Holds ks n dir root t) (laid : Laid t)
    (before_ : 1024 * i + map.size ≤ 1024 * t.sb.inodeTable) (ran : writeMap name i map t = .ok u t') :
    Holds ks n dir root t' ∧ t'.sb = t.sb ∧ t'.inodesMap = t.inodesMap ∧ t'.zonesMap = t.zonesMap := by
  obtain ⟨off, place, rfl⟩ := writeMap_ok ran
  exact ⟨holds.writeBytes laid _ before_ place, rfl, rfl, rfl⟩

theorem Holds.saveMaps {u : Unit} (holds : Holds ks n dir root t) (laid : Laid t) (ran : saveMaps t = .ok u t') :
    Holds ks n dir root t' := by
  unfold Minix.saveMaps at ran
  rw [get_bind] at ran
  have inodes := laid.inodesMap
  have zones := laid.zonesMap
  have table : t.sb.inodeTable = 2 + t.sb.sImapBlocks.toNat + t.sb.sZmapBlocks.toNat := rfl
  have zoneMap : t.sb.zoneMap = 2 + t.sb.sImapBlocks.toNat := rfl
  obtain ⟨u₁, mid, first, second⟩ := bind_ok_iff.mp ran
  obtain ⟨holds', sb, inodesMap, zonesMap⟩ := holds.writeMap laid (by omega) first
  have laid' : Laid mid := by
    refine ⟨⟨?_, ?_, ?_⟩, ?_, ?_⟩
    · rw [sb]
      exact laid.fits
    · rw [sb]
      exact laid.some_
    · unfold Tool.clearBits
      rw [sb, zonesMap]
      exact laid.clear
    · rw [sb, inodesMap]
      exact laid.inodesMap
    · rw [sb, zonesMap]
      exact laid.zonesMap
  exact (holds'.writeMap laid' (by rw [sb]; omega) second).1

end AtaKernel.Minix
