import AtaKernel.Minix.KernelFile

/-! The image between two runs of the tool. Each run reads the superblock and the
maps anew, and what the run before held in memory is gone. The maps that an
install writes back are those that the next run reads, where it reads them. -/
namespace AtaKernel.Minix
open BitTable StateProgram

variable {t t' t₀ t₁ : Tool} {root : Inode} {i n : Nat} {map : Table} {img : Image} {off : Nat} {name : String}
  {ks : List Nat} {dir : Nat → Block} {input input' : InstallInput}

/-! ## One map -/

/-- The bytes of the map are at that offset of the image. -/
def Image.Has (img : Image) (off : Nat) (map : Table) : Prop :=
  (map.size = 0 ∨ off + map.size ≤ img.size) ∧ ∀ x, ∀ low : x < map.size, img.bytes (off + x) = map[x]

theorem has_writeBytes : (img.writeBytes off map).Has off map := by
  constructor
  · rw [writeBytes_size]
    split
    · next empty => exact .inl empty
    · exact .inr (Nat.le_max_right _ _)
  · intro x low
    rw [writeBytes_within (by omega), Nat.add_sub_cancel_left, Array.getD_eq_getD_getElem?,
      Array.getElem?_eq_getElem low]
    rfl

theorem Image.Has.kept {off' : Nat} {map' : Table} (has : img.Has off map) (behind : off + map.size ≤ off') :
    (img.writeBytes off' map').Has off map := by
  obtain ⟨fits, bytes⟩ := has
  have more : img.size ≤ (img.writeBytes off' map').size := by
    rw [writeBytes_size]
    split
    · exact le_rfl
    · exact Nat.le_max_left _ _
  refine ⟨fits.imp_right fun fits => fits.trans more, fun x low => ?_⟩
  rw [writeBytes_outside (by omega) (by omega)]
  exact bytes x low

theorem readBytes_has (has : img.Has off map) : img.readBytes off map.size = some map := by
  unfold Image.readBytes
  rw [if_pos has.1.symm, Option.some_inj]
  refine Array.ext Array.size_ofFn fun x low _ => ?_
  rw [Array.getElem_ofFn]
  exact has.2 x _

theorem seekOff_ok {complaint : String} (place : (off : Int) = t.ps.toInt + minixBlockSize * n) (low : off < 2 ^ 31) :
    seekOff n complaint t = .ok off t := by
  unfold seekOff
  rw [get_bind, if_neg (by omega), if_neg (by omega), ← place]
  rfl

theorem readMap_has {blocks : UInt16} (place : (off : Int) = t.ps.toInt + minixBlockSize * n) (low : off < 2 ^ 31)
    (has : t.img.Has off map) (size : map.size = 1024 * blocks.toNat) : readMap name true n blocks t = .ok map t := by
  unfold readMap
  rw [if_neg fun none_ => none_ rfl, bind_of_ok (seekOff_ok place low), get_bind,
    show blocks.toNat * minixBlockSize = map.size from (Nat.mul_comm _ 1024).trans size.symm, readBytes_has has]
  rfl

theorem writeMap_low {u : Unit} (ran : writeMap name n map t = .ok u t') :
    ∃ off : Nat, (off : Int) = t.ps.toInt + minixBlockSize * n ∧ off < 2 ^ 31 ∧
      t' = { t with img := t.img.writeBytes off map } := by
  obtain ⟨off, mid, sought, rest⟩ := bind_ok_iff.mp ran
  unfold seekOff at sought
  rw [get_bind] at sought
  split at sought
  · cases sought
  split at sought
  · cases sought
  · obtain ⟨rfl, rfl⟩ := pure_ok_iff.mp sought
    cases rest
    exact ⟨_, by omega, by omega, rfl⟩

/-! ## Both maps -/

/-- A run that comes to the partition reads the maps that were in memory. -/
theorem saveMaps_read {u : Unit} {s : Tool} (laid : Laid t) (ran : saveMaps t = .ok u t') (ps : s.ps = t'.ps)
    (image : s.img = t'.img) : readMap "inodes" true 2 t'.sb.sImapBlocks s = .ok t'.inodesMap s ∧
      readMap "zones" true t'.sb.zoneMap t'.sb.sZmapBlocks s = .ok t'.zonesMap s := by
  unfold saveMaps at ran
  rw [get_bind] at ran
  obtain ⟨u₁, mid, first, second⟩ := bind_ok_iff.mp ran
  obtain ⟨off₁, place₁, low₁, rfl⟩ := writeMap_low first
  obtain ⟨off₂, place₂, low₂, rfl⟩ := writeMap_low second
  have size := laid.inodesMap
  have start₁ : (off₁ : Int) = t.ps.toInt + 1024 * 2 := place₁
  have start₂ : (off₂ : Int) = t.ps.toInt + 1024 * ((2 + t.sb.sImapBlocks.toNat : Nat) : Int) := place₂
  have at_ : s.ps = t.ps := ps
  exact ⟨readMap_has (at_ ▸ place₁) low₁ (image ▸ has_writeBytes.kept (by omega)) laid.inodesMap,
    readMap_has (at_ ▸ place₂) low₂ (image ▸ has_writeBytes) laid.zonesMap⟩

theorem mbr_kept {img' : Image} {mbr : Mbr} (more : img.size ≤ img'.size)
    (same : ∀ x < 512, x < img.size → img'.bytes x = img.bytes x) (read : img.mbr = some mbr) :
    img'.mbr = some mbr := by
  unfold Image.mbr at read ⊢
  split at read
  · next fits =>
    rw [if_pos (by omega), ← read, Option.some_inj]
    funext i
    have low := i.isLt
    have byte {x : Nat} (inside : x < 512) : img'.bytes x = img.bytes x := same x inside (by omega)
    unfold Image.mbrEntry Image.dword
    simp only [byte (show 446 + 16 * i.val < 512 by omega), byte (show 446 + 16 * i.val + 4 < 512 by omega),
      byte (show 446 + 16 * i.val + 8 < 512 by omega), byte (show 446 + 16 * i.val + 8 + 1 < 512 by omega),
      byte (show 446 + 16 * i.val + 8 + 2 < 512 by omega), byte (show 446 + 16 * i.val + 8 + 3 < 512 by omega),
      byte (show 446 + 16 * i.val + 12 < 512 by omega), byte (show 446 + 16 * i.val + 12 + 1 < 512 by omega),
      byte (show 446 + 16 * i.val + 12 + 2 < 512 by omega), byte (show 446 + 16 * i.val + 12 + 3 < 512 by omega)]
  · cases read

/-- A run on the image that an install has left, for the same partition, opens what the install had in memory when
it returned, and the root directory as the install has left it, whatever its own globals hold before. -/
theorem install_reopens {s : Tool} (opened : minixOpen input t₀ = .ok root t₁) (geometry : Geometry t₁)
    (spread : Spread ks root.scanBlocks dir root t₁) (some_ : 0 < root.iSize.toNat)
    (old : OldKernel input.trunc ks root t₁)
    (ran : minixWrite input t₀ = .ok i t') (image : s.img = t'.img) (opens : input'.diskOpens ∧ input'.statOk)
    (memory : input'.mallocs = (true, true)) (partition_ : input'.partno = input.partno ∧ input'.stale = input.stale) :
    ∃ root', minixLoadInode 1 t' = .ok root' t' ∧ minixOpen input' s = .ok root' t' := by
  obtain ⟨-, back, ks', t₂, -, keeps, -, laid, saved⟩ := minixWrite_keepsOthers opened geometry spread some_ old ran
  obtain ⟨t₃, dir', -, holds, laid₃, -, -, free, below, installed⟩ := minixWrite_stages opened geometry spread old ran
  have from_ := free.1
  obtain ⟨h, ks₁, n, dir₁, root', holds', -⟩ :=
    minixInstall_ok holds laid₃ rfl some_ ⟨by omega, by omega⟩ (by omega) installed
  obtain ⟨-, -, mbr, sel, data, t₄, t₅, inodesMap, zonesMap, read, selected, rfl, block, rfl, -, -, rfl, -⟩ :=
    minixOpen_ok_iff.mp opened
  have reaches := (reaches_of_blockAt block).1
  have start : Tool.blockOff { t₀ with ps := partitionStart (mbr sel).lbaStart } 1 =
      (partitionStart (mbr sel).lbaStart).toInt + 1024 := rfl
  have sb : t'.sb = data.superblock := keeps.sb
  have ps : t'.ps = partitionStart (mbr sel).lbaStart := keeps.ps
  have mbr_ : s.img.mbr = some mbr := by
    rw [image]
    exact mbr_kept keeps.size (fun x low inside => keeps.front x inside (by
      change (x : Int) < (partitionStart (mbr sel).lbaStart).toInt + 2048
      omega)) read
  have block' : t'.blockAt 1 = some data := keeps.blockAt_front (show (1 : UInt16).toNat < 2 by decide) block
  obtain ⟨maps₁, maps₂⟩ := saveMaps_read (s := { s with ps := t'.ps, sb := t'.sb }) laid saved rfl image
  have maps₃ :=
    (saveMaps_read (s := { s with ps := t'.ps, sb := t'.sb, inodesMap := t'.inodesMap }) laid saved rfl image).2
  have whole : t' = { s with ps := t'.ps, sb := t'.sb, inodesMap := t'.inodesMap, zonesMap := t'.zonesMap } := by
    rw [image]
  refine ⟨root', holds'.loads, minixOpen_ok_iff.mpr ⟨opens.1, opens.2, mbr, sel, data, { s with ps := t'.ps },
    { s with ps := t'.ps, sb := t'.sb }, t'.inodesMap, t'.zonesMap, mbr_, ?_, by rw [ps], ?_, by rw [sb], ?_, ?_, whole,
    holds'.loads⟩⟩
  · rw [partition_.1, partition_.2]
    exact selected
  · rw [whole] at block'
    exact block'
  · rw [memory, ← sb]
    exact maps₁
  · rw [memory, ← sb]
    exact maps₃

/-- A second run on the image of the first one. -/
theorem install_reopens_update : ∃ t' root', minixWrite updateInput Update.start = .ok 2 t' ∧
    minixLoadInode 1 t' = .ok root' t' ∧ minixOpen updateInput { Update.start with img := t'.img } = .ok root' t' := by
  obtain ⟨t', ran⟩ := Update.runs
  obtain ⟨root', loads, again⟩ := install_reopens (s := { Update.start with img := t'.img }) Update.opens
    Update.geometry Update.spread (by decide) Update.old ran rfl
    (show updateInput.diskOpens ∧ updateInput.statOk from ⟨rfl, rfl⟩) rfl ⟨rfl, rfl⟩
  exact ⟨t', root', ran, loads, again⟩

end AtaKernel.Minix
