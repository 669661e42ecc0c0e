import AtaKernel.Minix.CopyLoop
import AtaKernel.Minix.InodeTable

/-! Which zones the tool takes on an image that follows the MINIX format. There
bit `k + 1` of the zone map stands for zone `s_firstdatazone + k`; the tool takes
that zone when bit `k` is clear. -/
namespace AtaKernel.Minix
open BitTable StateProgram

variable {img t t' : Tool} {inode inode' : Inode} {k n : Nat} {z : UInt16} {s : Slot} {ss : List Slot} {ks : List Nat}
  {x y : Inode × Tool}

/-! ## The zones that a call takes -/

theorem clearBits_first (first : FirstClear t k) : t.clearBits = k :: (t.markZone k).clearBits := by
  have small := first.small
  obtain ⟨rest, total⟩ : ∃ rest, t.sb.sNzones.toNat = k + (rest + 1) := ⟨t.sb.sNzones.toNat - k - 1, by omega⟩
  have same : (t.markZone k).sb.sNzones.toNat = k + (rest + 1) := total
  unfold Tool.clearBits
  rw [total, same, List.range_add, List.filter_append, List.filter_append]
  have early : (List.range k).filter (fun j => bit t.zonesMap j = some false) = [] := by
    refine List.filter_eq_nil_iff.mpr fun j low => ?_
    rw [first.below j (List.mem_range.mp low)]
    decide
  have early' : (List.range k).filter (fun j => bit (t.markZone k).zonesMap j = some false) = [] := by
    refine List.filter_eq_nil_iff.mpr fun j low => ?_
    have below := List.mem_range.mp low
    rw [markZone_bit first.clear, if_neg (by omega), first.below j below]
    decide
  rw [early, early', List.nil_append, List.nil_append, List.range_succ_eq_map, List.map_cons, Nat.add_zero,
    List.filter_cons_of_pos (by rw [first.clear]; rfl),
    List.filter_cons_of_neg (by rw [markZone_bit first.clear, if_pos rfl]; decide)]
  refine congrArg _ (List.filter_congr fun j inside => ?_)
  obtain ⟨i, later, rfl⟩ := List.mem_map.mp inside
  obtain ⟨l, -, rfl⟩ := List.mem_map.mp later
  rw [markZone_bit first.clear, if_neg (by omega)]

/-- One of the first seven blocks takes the first free zone. -/
theorem added_direct (first : FirstClear t k) (direct : inode.fileBlocks < 7) : minixAddFileBlock inode t =
    .ok (t.sb.zone k, inode.setZone inode.fileBlocks (t.sb.zone k)) (t.markZone k) := by
  apply minixAddFileBlock_ok_iff.mpr
  rw [newSlots_direct direct]
  exact ⟨by omega, [], k, growth_single.mpr ⟨k, rfl, grows_iff.mpr ⟨first, rfl⟩⟩, rfl⟩

/-! ## Zones that no other inode uses -/

/-- The root directory, with zone 5, and a file with zone 7. -/
def holedInodes : List UInt8 :=
  [0xed, 0x41, 0, 0, 64, 0, 0, 0, 0, 0, 0, 0, 0, 2, 5, 0, 0, 0, 0, 0, 0, 0, 0, 0, 0, 0, 0, 0, 0, 0, 0, 0,
    0xa4, 0x81, 0, 0, 0, 4, 0, 0, 0, 0, 0, 0, 0, 1, 7, 0, 0, 0, 0, 0, 0, 0, 0, 0, 0, 0, 0, 0, 0, 0, 0, 0]

/-- Ten blocks, five of them data zones. Zone 6 was left by a file that is gone; 8 and 9 were never
used. -/
def holed : Tool where
  img := ⟨fun x => if 4096 ≤ x then holedInodes.getD (x - 4096) 0 else 0, 10 * 1024⟩
  ps := 0
  sb := ⟨32, 10, 1, 1, 5, 0, 0x10081c00, 0x138f, 1⟩
  inodesMap := #[0x07, 0, 0, 0, 0xfe] ++ Array.replicate 1019 0xff
  zonesMap := #[0xcb] ++ Array.replicate 1023 0xff

namespace Holed

theorem inodesMap_bit {i : Nat} (low : i < 40) : bit holed.inodesMap i = bit #[0x07, 0, 0, 0, 0xfe] i := by
  unfold bit holed
  rw [Array.getElem?_append_left (by change i / 8 < 5; omega)]

theorem zonesMap_bit (low : k < 8) : bit holed.zonesMap k = bit #[0xcb] k := by
  unfold bit holed
  rw [Array.getElem?_append_left (by change k / 8 < 1; omega)]

/-- Without blocks of zones, a file refers to the zones in its inode alone. -/
theorem reference_direct (single : inode.zone 7 = 0) (double : inode.zone 8 = 0) (inMap : s.InMap)
    (found : t.reference inode s = some z) : z ≠ 0 ∧ ∃ j < 7, inode.zone j = z := by
  have none_ {j : Nat} (hole : inode.zone j = 0) : t.reference inode (.field j) = none := if_pos hole
  have field {j : Nat} (low : j < 9) (found : t.reference inode (.field j) = some z) :
      z ≠ 0 ∧ ∃ j < 7, inode.zone j = z := by
    rw [Tool.reference] at found
    split at found
    · cases found
    · next some_ =>
      obtain rfl := Option.some_inj.mp found
      have other : j ≠ 7 ∧ j ≠ 8 := ⟨fun same => some_ (same ▸ single), fun same => some_ (same ▸ double)⟩
      exact ⟨some_, j, by omega, rfl⟩
  match s, inMap with
  | .field j, low => exact field low found
  | .entry (.field i) j, ⟨place, _⟩ =>
    have hole : t.reference inode (.field i) = none := by
      rcases place with rfl | rfl
      · exact none_ single
      · exact none_ double
    rw [Tool.reference, hole] at found
    cases found
  | .entry (.entry (.field i) j) l, ⟨place, _⟩ =>
    rw [Tool.reference, Tool.reference, none_ (place ▸ double)] at found
    cases found

/-- The block of the table with both inodes. -/
def table : Block := fun j => holed.img.bytes (4096 + j)

theorem loads_iff {i : Nat} (first : i = 1 ∨ i = 2) :
    minixLoadInode i holed = .ok inode holed ↔ inode = table.inode (i - 1) := by
  have there : holed.blockAt 4 = some table := by
    have reaches : holed.Reaches 4 := by decide
    have fits : (holed.blockOff 4).toNat + minixBlockSize ≤ holed.img.size := by decide
    rw [Tool.blockAt, if_pos reaches, Image.read, if_pos fits]
    rfl
  have place : UInt16.ofNat (holed.sb.inodeTable + (UInt64.ofNat i - 1).toNat / minixInodesPerBlock) = 4 ∧
      (UInt64.ofNat i - 1).toNat % minixInodesPerBlock = i - 1 := by
    rcases first with rfl | rfl <;> decide
  rw [minixLoadInode_ok_iff, place.1, place.2, there]
  constructor
  · rintro ⟨-, data, same, rfl⟩
    rw [Option.some_inj.mp same]
  · rintro rfl
    exact ⟨rfl, table, rfl, rfl⟩

theorem table_zones : ∀ j < 9, (table.inode 0).zone j = (if j = 0 then 5 else 0) ∧
    (table.inode 1).zone j = if j = 0 then 7 else 0 := by
  decide

theorem uses_iff {i : Nat} : Uses holed i z ↔ i = 1 ∧ z = 5 ∨ i = 2 ∧ z = 7 := by
  have single := table_zones 7 (by decide)
  have double := table_zones 8 (by decide)
  constructor
  · rintro ⟨from_, upto, used, inode, loaded, -, s, inMap, found⟩
    have upto' : i ≤ 32 := upto
    rw [inodesMap_bit (by omega)] at used
    have two : i = 1 ∨ i = 2 := by
      interval_cases i <;> first | decide | exact absurd used (by decide)
    obtain rfl := (loads_iff two).mp loaded
    rcases two with rfl | rfl
    · obtain ⟨some_, j, low, here⟩ := reference_direct single.1 double.1 inMap found
      rw [(table_zones j (by omega)).1] at here
      split at here
      · exact .inl ⟨rfl, here.symm⟩
      · exact absurd here.symm some_
    · obtain ⟨some_, j, low, here⟩ := reference_direct single.2 double.2 inMap found
      rw [(table_zones j (by omega)).2] at here
      split at here
      · exact .inr ⟨rfl, here.symm⟩
      · exact absurd here.symm some_
  · have first := table_zones 0 (by decide)
    rintro (⟨rfl, rfl⟩ | ⟨rfl, rfl⟩)
    · refine ⟨le_rfl, by decide, (inodesMap_bit (by decide)).trans (by decide), _, (loads_iff (.inl rfl)).mpr rfl,
        by decide, .field 0, show 0 < 9 by decide, ?_⟩
      rw [Tool.reference, first.1]
      rfl
    · refine ⟨by decide, by decide, (inodesMap_bit (by decide)).trans (by decide), _, (loads_iff (.inr rfl)).mpr rfl,
        by decide, .field 0, show 0 < 9 by decide, ?_⟩
      rw [Tool.reference, first.2]
      rfl

theorem unused (first : z ≠ 5) (second : z ≠ 7) : ¬ ∃ i, Uses holed i z := by
  rintro ⟨i, uses⟩
  rcases uses_iff.mp uses with ⟨-, same⟩ | ⟨-, same⟩
  · exact first same
  · exact second same

theorem firstClear : FirstClear holed 2 where
  small := by decide
  clear := (zonesMap_bit (by decide)).trans (by decide)
  below := by
    intro j low
    rw [zonesMap_bit (by omega)]
    interval_cases j <;> decide

/-- An empty file that grows gets the zone of bit 2 as the tool counts, zone 7. -/
theorem added : minixAddFileBlock emptyInode holed = .ok (7, emptyInode.setZone 0 7) (holed.markZone 2) := by
  have number : holed.sb.zone 2 = 7 := by decide
  have first : emptyInode.fileBlocks = 0 := by decide
  rw [added_direct firstClear (by decide), first, number]

end Holed

end AtaKernel.Minix
