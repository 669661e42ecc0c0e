import AtaKernel.Minix.KernelEntry

/-! What an install does not touch. No step of the command writes the boot block,
the superblock, a zone that another file has taken, or the inode of such a file;
and once its blocks are copied, the kernel is such a file itself. -/
namespace AtaKernel.Minix
open BitTable StateProgram

variable {before t t' t₁ t₂ : Tool} {root inode inode' x : Inode} {e h i j k n s number : Nat} {z z' : UInt16}
  {b data : Block} {ks ks' ks₁ ks₂ : List Nat} {dir dir' : Nat → Block} {kernel : InputFile} {owned : List (Slot × Nat)}
  {input : InstallInput} {gone gone' : Nat → Prop}

/-! ## What is not written -/

/-- A zone that is taken and is none of the directory's. -/
def Foreign (ks : List Nat) (t : Tool) (k : Nat) : Prop :=
  t.sb.sFirstdatazone.toNat + k < 2 ^ 16 ∧ bit t.zonesMap k = some true ∧ k ∉ ks

/-- The image is as it was in front of the maps. The zones that are foreign stay foreign and hold what they held,
while the directory goes from the zones `ks` to the zones `ks'`; and the inodes of the table are as they were, but
for those in `gone`. -/
structure KeepsOthers (gone : Nat → Prop) (ks ks' : List Nat) (t t' : Tool) : Prop where
  ps : t'.ps = t.ps
  sb : t'.sb = t.sb
  size : t.img.size ≤ t'.img.size
  front : ∀ x < t.img.size, (x : Int) < t.ps.toInt + 2048 → t'.img.bytes x = t.img.bytes x
  foreign : ∀ k, Foreign ks t k → Foreign ks' t' k
  zone : ∀ k b, Foreign ks t k → t.blockAt (t.sb.zone k) = some b → t'.blockAt (t.sb.zone k) = some b
  inodes : ∀ i x, t.sb.Numbers i → ¬ gone i → minixLoadInode i t = .ok x t → minixLoadInode i t' = .ok x t'

theorem KeepsOthers.refl : KeepsOthers gone ks ks t t where
  ps := rfl
  sb := rfl
  size := le_rfl
  front _ _ _ := rfl
  foreign _ there := there
  zone _ _ _ here := here
  inodes _ _ _ _ loads := loads

theorem KeepsOthers.trans (one : KeepsOthers gone ks ks₁ t t₁) (two : KeepsOthers gone ks₁ ks₂ t₁ t₂) :
    KeepsOthers gone ks ks₂ t t₂ where
  ps := two.ps.trans one.ps
  sb := two.sb.trans one.sb
  size := one.size.trans two.size
  front x inside low := (two.front x (inside.trans_le one.size) (one.ps ▸ low)).trans (one.front x inside low)
  foreign k there := two.foreign k (one.foreign k there)
  zone k b there here := one.sb ▸ two.zone k b (one.foreign k there) (one.sb.symm ▸ one.zone k b there here)
  inodes i x numbers here loads := two.inodes i x (one.sb ▸ numbers) here (one.inodes i x numbers here loads)

theorem KeepsOthers.mono (keeps : KeepsOthers gone ks ks' t t') (more : ∀ i, gone i → gone' i) :
    KeepsOthers gone' ks ks' t t' where
  __ := keeps
  inodes i x numbers here := keeps.inodes i x numbers fun out => here (more i out)

theorem KeepsOthers.setInodesMap {map : Table} (keeps : KeepsOthers gone ks ks' t t') :
    KeepsOthers gone ks ks' t { t' with inodesMap := map } where
  __ := keeps
  inodes i x numbers here loads := loads_kept (t := t') rfl (fun _ here => here) (keeps.inodes i x numbers here loads)

/-- The blocks in front of the maps. -/
theorem KeepsOthers.blockAt_front (keeps : KeepsOthers gone ks ks' t t') (low : z.toNat < 2)
    (there : t.blockAt z = some b) : t'.blockAt z = some b := by
  have size := keeps.size
  have start : t.blockOff z = t.ps.toInt + 1024 * z.toNat := rfl
  have start' : t'.blockOff z = t.blockOff z := by
    unfold Tool.blockOff
    rw [keeps.ps]
  have reaches := reaches_of_blockAt there
  have reaches' : t'.Reaches z := by
    unfold Tool.Reaches
    rw [start']
    exact reaches
  have positive := reaches.1
  unfold Tool.blockAt at there ⊢
  rw [if_pos reaches] at there
  rw [if_pos reaches', start']
  unfold Image.read at there ⊢
  split at there
  · next fits =>
    rw [if_pos (by omega), ← there, Option.some_inj]
    funext i
    have inside : i.val < minixBlockSize := i.isLt
    have wide : minixBlockSize = 1024 := rfl
    exact keeps.front _ (by omega) (by omega)
  · cases there

/-! ## The steps of the command -/

theorem putBlock_front {y : Nat} (above : 2 ≤ z.toNat) (inside : y < t.img.size) (low : (y : Int) < t.ps.toInt + 2048) :
    (t.putBlock z b).img.bytes y = t.img.bytes y := by
  have start : t.blockOff z = t.ps.toInt + 1024 * z.toNat := rfl
  exact write_outside inside (by omega)

theorem Laid.table_above (laid : Laid t) (numbers : t.sb.Numbers i) : 2 ≤ (t.sb.inodeBlock i).toNat := by
  rw [(inodeBlock_toNat laid.fits numbers).1]
  unfold Superblock.inodeTable
  omega

theorem Laid.zone_above (laid : Laid t) (low : t.sb.sFirstdatazone.toNat + k < 2 ^ 16) : 2 ≤ (t.sb.zone k).toNat := by
  have place := inodeBlock_toNat laid.fits (i := 1) ⟨le_rfl, le_trans (by decide) laid.some_⟩
  rw [toNat_zone low]
  unfold Superblock.inodeTable at place
  omega

/-- A block of the directory is written. -/
theorem KeepsOthers.putZone (laid : Laid t) (mine : k ∈ ks) (low : t.sb.sFirstdatazone.toNat + k < 2 ^ 16)
    (reaches : t.Reaches (t.sb.zone k)) : KeepsOthers gone ks ks t (t.putBlock (t.sb.zone k) b) where
  ps := rfl
  sb := rfl
  size := Nat.le_max_left _ _
  front _ := putBlock_front (laid.zone_above low)
  foreign _ there := there
  zone l _ there here := by
    obtain ⟨small, -, other⟩ := there
    refine blockAt_putBlock_apart here reaches fun same => other ?_
    rwa [zone_inj (by omega) (by omega) same]
  inodes _ _ numbers _ loads := loads_kept (t := t) rfl
    (fun _ here => blockAt_putBlock_apart here reaches (zone_apart laid.fits numbers low).symm) loads

theorem KeepsOthers.save {u : Unit} (laid : Laid t) (numbers : t.sb.Numbers i) (out : gone i)
    (saved : minixSaveInode i x t = .ok u t') : KeepsOthers gone ks ks t t' := by
  have whole := saved
  obtain ⟨data, there, rfl⟩ := minixSaveInode_ok_iff.mp saved
  refine ⟨rfl, rfl, Nat.le_max_left _ _, fun y => putBlock_front (laid.table_above numbers), fun k there => there,
    fun k b other here => ?_, fun l y numbers' here loads => ?_⟩
  · exact blockAt_putBlock_apart here (reaches_of_blockAt there) (zone_apart laid.fits numbers other.1)
  · have kept := minixLoadInode_save laid.fits numbers numbers' whole loads
    rwa [if_neg fun same : l = i => here (same ▸ out)] at kept

/-- A file takes zones that were free. The directory is that file where it grows itself. -/
theorem Owns.keepsOthers (owns : Owns before owned inode t) (laid : Laid before)
    (fresh : ∀ k ∈ ks', k ∈ ks ∨ k ∈ owned.map Prod.snd) : KeepsOthers gone ks ks' before t := by
  have low {y : Slot × Nat} (mine : y ∈ owned) : before.sb.sFirstdatazone.toNat + y.2 < 2 ^ 16 :=
    laid.clear y.2 (mem_clearBits.mpr ⟨owns.small y mine, owns.free y mine⟩)
  have untouched {k : Nat} (there : Foreign ks before k) : k ∉ owned.map Prod.snd := by
    intro mine
    obtain ⟨y, inside, rfl⟩ := List.mem_map.mp mine
    have taken := there.2.1
    rw [owns.free y inside] at taken
    cases taken
  refine ⟨owns.ps, owns.sb, owns.size, fun x inside below => ?_, fun k there => ⟨?_, ?_, ?_⟩, fun k b there here => ?_,
    fun i x numbers _ loads => loads_kept (t := before) owns.sb
      (fun _ here => owns.blockAt_outside (fun y mine => zone_apart laid.fits numbers (low mine)) here) loads⟩
  · refine owns.outside x inside fun y mine within => ?_
    have above := laid.zone_above (low mine)
    unfold Tool.Within Tool.blockOff minixBlockSize at within
    omega
  · rw [owns.sb]
    exact there.1
  · rw [owns.map, if_neg (untouched there)]
    exact there.2.1
  · exact fun mine => (fresh k mine).elim there.2.2 (untouched there)
  · refine owns.blockAt_outside (fun y mine same => untouched there ?_) here
    have small := low mine
    have small' := there.1
    rw [← zone_inj (by omega) (by omega) same]
    exact List.mem_map_of_mem mine

/-- Zones are given back. They are foreign no more. -/
theorem unmark_keepsOthers {given : List Nat} (within : ∀ k ∈ given, (bit t.zonesMap k).isSome) :
    KeepsOthers gone (ks ++ given) ks t (t.unmark given) where
  ps := rfl
  sb := rfl
  size := le_rfl
  front _ _ _ := rfl
  foreign := by
    rintro k ⟨small, taken, other⟩
    refine ⟨small, ?_, fun mine => other (List.mem_append_left _ mine)⟩
    rw [bit_unmark within, if_neg fun mine => other (List.mem_append_right _ mine)]
    exact taken
  zone _ _ _ here := here
  inodes _ _ _ _ loads := loads_kept (t := t) rfl (fun _ here => here) loads

theorem writeMap_keepsOthers {name : String} {map : Table} {u : Unit} (laid : Laid t) (from_ : 2 ≤ i)
    (before_ : 1024 * i + map.size ≤ 1024 * t.sb.inodeTable) (ran : writeMap name i map t = .ok u t') :
    KeepsOthers gone ks ks t t' := by
  obtain ⟨off, place, rfl⟩ := writeMap_ok ran
  refine ⟨rfl, rfl, ?_, fun x inside low => ?_, fun k there => there, fun k b there here => ?_,
    fun j x numbers _ loads => ?_⟩
  · rw [writeBytes_size]
    split
    · exact le_rfl
    · exact Nat.le_max_left _ _
  · have place' : (off : Int) = t.ps.toInt + 1024 * i := place
    exact writeBytes_outside inside (by omega)
  · have table := inodeBlock_toNat laid.fits (i := 1) ⟨le_rfl, le_trans (by decide) laid.some_⟩
    exact blockAt_writeBytes place (by rw [toNat_zone there.1]; omega) here
  · have block := inodeBlock_toNat laid.fits numbers
    exact loads_kept (t := t) rfl (fun _ there => blockAt_writeBytes place (by omega) there) loads

/-- The maps are written back. -/
theorem saveMaps_keepsOthers {u : Unit} (laid : Laid t) (ran : saveMaps t = .ok u t') :
    KeepsOthers gone ks ks t t' := by
  unfold saveMaps at ran
  rw [get_bind] at ran
  have inodes := laid.inodesMap
  have zones := laid.zonesMap
  have table : t.sb.inodeTable = 2 + t.sb.sImapBlocks.toNat + t.sb.sZmapBlocks.toNat := rfl
  have zoneMap : t.sb.zoneMap = 2 + t.sb.sImapBlocks.toNat := rfl
  obtain ⟨u₁, mid, first, second⟩ := bind_ok_iff.mp ran
  have one : KeepsOthers gone ks ks t mid := writeMap_keepsOthers laid le_rfl (by omega) first
  obtain ⟨off, -, rfl⟩ := writeMap_ok first
  exact one.trans (writeMap_keepsOthers ⟨⟨laid.fits, laid.some_, laid.clear⟩, laid.inodesMap, laid.zonesMap⟩ (by omega)
    (show 1024 * t.sb.zoneMap + t.zonesMap.size ≤ 1024 * t.sb.inodeTable by omega) second)

/-- A file whose zones are foreign keeps its blocks. -/
theorem KeepsOthers.spread {bits : List Nat} (keeps : KeepsOthers gone ks ks' t t') (spread : Spread bits n dir inode t)
    (other : ∀ k ∈ bits, k ∉ ks) : Spread bits n dir inode t' ∧ ∀ k ∈ bits, k ∉ ks' := by
  have there {k : Nat} (mine : k ∈ bits) : Foreign ks t k :=
    ⟨(spread.within k mine).2, spread.taken k mine, other k mine⟩
  exact ⟨spread.frame keeps.sb (fun k mine b => keeps.zone k b (there mine)) fun k mine =>
    (keeps.foreign k (there mine)).2.1, fun k mine => (keeps.foreign k (there mine)).2.2⟩

/-! ## The deletion -/

/-- A bit that the deletion of the old kernel gives back. -/
def GivenBack (trunc : TruncLocals) (root : Inode) (t : Tool) (k : Nat) : Prop :=
  ∃ e inode, 32 * e < root.iSize.toNat ∧ Live (t.fileByte root) e ∧
    minixLoadInode (entryInode (t.fileByte root) e).toNat t = .ok inode t ∧
      ∃ s ∈ slots trunc.fb.toInt.toNat, t.slotBit inode s = some k

/-- An inode of the old kernel. -/
def OldInode (root : Inode) (t : Tool) (i : Nat) : Prop :=
  ∃ e, 32 * e < root.iSize.toNat ∧ Live (t.fileByte root) e ∧ (entryInode (t.fileByte root) e).toNat = i

theorem minixDelete_keepsOthers (holds : Holds ks n dir root t) (laid : Laid t) (length : n = root.scanBlocks)
    (old : OldKernel input.trunc ks root t) (ran : minixDelete input root t = .ok () t') :
    (∃ back, (∀ k ∈ back, GivenBack input.trunc root t k) ∧ KeepsOthers (OldInode root t) (ks ++ back) ks t t') ∧
      ∀ l, ¬ OldInode root t l → bit t'.inodesMap l = bit t.inodesMap l := by
  obtain ⟨rfl, -⟩ | ⟨j, z, data, k, -, way, there, low, within, live, -, deleted⟩ := scanRoot_ok ran
  · refine ⟨⟨[], fun k mine => absurd mine List.not_mem_nil, ?_⟩, fun _ _ => rfl⟩
    rw [List.append_nil]
    exact .refl
  · have covered := scanBlocks_covers within
    have here : Live (t.fileByte root) (32 * j + k) := (live_block way there low).mpr live
    have inode_ : entryInode (t.fileByte root) (32 * j + k) = entryInode data.bytes k :=
      entryInode_congr fun l inside => by
        rw [show 32 * (32 * j + k) + l = 1024 * j + (32 * k + l) by omega]
        exact fileByte_block way there (by omega)
    obtain ⟨inode, back, table, load, -, bits, mapped, reaches, at_, rfl⟩ := deleteEntry_ok_iff.mp deleted
    have slot {l : Nat} (mine : l ∈ back) : ∃ s ∈ slots input.trunc.fb.toInt.toNat, t.slotBit inode s = some l := by
      have mapped : some l ∈ back.map some := List.mem_map_of_mem mine
      rw [← bits] at mapped
      exact List.mem_map.mp mapped
    have way_ {l : Nat} (mine : l ∈ back) : (bit t.zonesMap l).isSome ∧ t.sb.sFirstdatazone.toNat + l < 2 ^ 16 := by
      obtain ⟨s, -, has⟩ := slot mine
      obtain ⟨z, -, at_⟩ := slotBit_way has
      obtain ⟨sum, isSome⟩ := bitOf_iff.mp at_
      have wide := z.toNat_lt
      exact ⟨isSome, by omega⟩
    have out : OldInode root t (entryInode data.bytes k).toNat := ⟨_, within, here, congrArg _ inode_⟩
    refine ⟨⟨back, fun l mine => ⟨_, inode, within, here, inode_ ▸ load, slot mine⟩, ?_⟩, fun l other => ?_⟩
    case refine_2 =>
      obtain ⟨v, mapped⟩ := Option.isSome_iff_exists.mp mapped
      exact (bit_unsetBit mapped).trans (if_neg fun same : l = _ => other (same ▸ out))
    have numbers := (old.numbers _ within here).2
    rw [inode_] at numbers
    have laid₁ : Laid (t.unmark back) := laid.unmark (fun l mine => (way_ mine).1) fun l mine => (way_ mine).2
    have saved : minixSaveInode (entryInode data.bytes k).toNat emptyInode (t.unmark back) = .ok () _ :=
      minixSaveInode_ok_iff.mpr ⟨table, at_, rfl⟩
    have laid₂ := (laid₁.save saved).setInodesMap
      (size_unsetBit (t := t.inodesMap) (n := (entryInode data.bytes k).toNat))
    obtain ⟨l, mine, way'⟩ := holds.way (mem_slots.mpr ⟨j, show j < n by omega, dataSlot_mem j⟩)
    obtain rfl : t.sb.zone l = z := Option.some_inj.mp (way'.symm.trans way)
    have unmarked : KeepsOthers (OldInode root t) (ks ++ back) ks t (t.unmark back) :=
      unmark_keepsOthers fun l mine => (way_ mine).1
    exact (unmarked.trans (.save laid₁ numbers out saved)).setInodesMap.trans
      (KeepsOthers.putZone laid₂ mine (holds.within l mine).2 reaches)

/-! ## The copy of the kernel -/

/-- After `j` rounds the kernel has taken zones since a state in which its inode is saved as it is now; and but
for the inode, that state is the one that the rounds started in. -/
structure CopiesFrom (ks : List Nat) (start : Tool) (kernel : InputFile) (number j : Nat) (inode : Inode) (t : Tool) :
    Prop where
  file : ∃ base owned zones, Laid base ∧ (base.blockAt (base.sb.inodeBlock number)).isSome ∧
    KeepsOthers (· = number) ks ks start base ∧ base.zonesMap = start.zonesMap ∧
      Copied base kernel.block j owned zones inode t ∧ t.inodesMap = base.inodesMap
  size : inode.iSize.toNat = min (1024 * j) kernel.bytes.size
  saved : 0 < j → minixLoadInode number t = .ok inode t
  few : j ≤ 519 + 512 * 512

theorem CopiesFrom.step (copies : CopiesFrom ks before kernel number j inode t) (numbers : before.sb.Numbers number)
    (within : j < fileRounds kernel.bytes.size) (ran : copyRound kernel number j inode t = .ok inode' t') :
    CopiesFrom ks before kernel number (j + 1) inode' t' := by
  obtain ⟨base, owned, zones, laid, there, keeps, zonesMap, copied, map⟩ := copies.file
  obtain ⟨z, mid, round, saved⟩ := copyRound_ok ran
  have full : inode.iSize.toNat = 1024 * j := by
    have size := copies.size
    unfold fileRounds at within
    omega
  have place := fileBlocks_of_size full
  obtain ⟨map', low⟩ := copyBlock_inodesMap round
  rw [place] at low
  obtain ⟨⟨owned', copied'⟩, grown⟩ := copied.step low place round
  have numbers' : base.sb.Numbers number := keeps.sb ▸ numbers
  have apart : ∀ y ∈ owned', base.sb.zone y.2 ≠ base.sb.inodeBlock number := fun y mine =>
    zone_apart laid.fits numbers'
      (laid.clear y.2 (mem_clearBits.mpr ⟨copied'.owns.small y mine, copied'.owns.free y mine⟩))
  have laid_ := laid.owns copied'.owns (map'.trans map)
  obtain ⟨data, at_, same⟩ := minixSaveInode_ok_iff.mp saved
  have loads : minixLoadInode number t' = .ok inode' t' := by
    have sb : mid.sb.Numbers number := copied'.owns.sb.symm ▸ numbers'
    have kept := minixLoadInode_save laid_.fits sb sb saved (minixLoadInode_ok_iff.mpr ⟨rfl, data, at_, rfl⟩)
    rwa [if_pos rfl] at kept
  subst same
  rw [copied'.owns.sb] at at_ ⊢
  obtain ⟨old, here⟩ := Option.isSome_iff_exists.mp there
  obtain rfl : old = data := Option.some_inj.mp ((copied'.owns.blockAt_outside apart here).symm.trans at_)
  have savedBase : minixSaveInode number inode' base = .ok () _ := minixSaveInode_ok_iff.mpr ⟨old, here, rfl⟩
  have there' : ((base.putBlock (base.sb.inodeBlock number) (old.setInode (inodeSlot number) inode')).blockAt
      (base.sb.inodeBlock number)).isSome := by
    rw [blockAt_putBlock_same (reaches_of_blockAt here)]
    rfl
  refine ⟨⟨_, owned', _, laid.save savedBase, there', keeps.trans (.save laid numbers' rfl savedBase), zonesMap,
    copied'.beside (by omega) apart there, map'.trans map⟩, ?_, fun _ => ?_, low⟩
  · rw [grown, UInt32.toNat_add, full, UInt32.toNat_ofNat']
    unfold fileRounds at within
    omega
  · rw [copied'.owns.sb] at loads
    exact loads

theorem copiesFrom_start (laid : Laid t) (there : (t.blockAt (t.sb.inodeBlock number)).isSome)
    (empty : inode.iSize = 0) : CopiesFrom ks t kernel number 0 inode t where
  file := ⟨t, [], [], laid, there, .refl, rfl,
    ⟨owns_nothing, rfl, rfl, fun j within => absurd within j.not_lt_zero⟩, rfl⟩
  size := by
    rw [empty, Nat.mul_zero, Nat.zero_min]
    rfl
  saved none_ := absurd none_ (Nat.lt_irrefl 0)
  few := Nat.zero_le _

/-- The kernel is there afterwards, in zones that the root directory does not have. -/
theorem copyRounds_keepOthers (holds : Holds ks n dir root t) (laid : Laid t) (numbers : t.sb.Numbers number)
    (there : (t.blockAt (t.sb.inodeBlock number)).isSome) (empty : inode.iSize = 0)
    (ran : upTo (copyRound kernel number) (fileRounds kernel.bytes.size) inode t = .ok inode' t') :
    KeepsOthers (· = number) ks ks t t' ∧ minixLoadInode number t' = .ok inode' t' ∧
      inode'.iSize.toNat = kernel.bytes.size ∧
        ∃ bits, Spread bits (fileRounds kernel.bytes.size) kernel.block inode' t' ∧ ∀ k ∈ bits, k ∉ ks := by
  have copies := upTo_invariant (fun j => CopiesFrom ks t kernel number j) (copiesFrom_start laid there empty)
    (fun j within c mid c' mid' copies round => copies.step numbers within round) ran
  obtain ⟨base, owned, zones, laid', -, keeps, zonesMap, copied, -⟩ := copies.file
  refine ⟨keeps.trans (copied.owns.keepsOthers laid' fun k mine => .inl mine), copies.saved (Nat.succ_pos _), ?_,
    _, copied.spread (fun x mine => laid'.clear x.2 (mem_clearBits.mpr
      ⟨copied.owns.small x mine, copied.owns.free x mine⟩)) copies.few, fun k mine root_ => ?_⟩
  · rw [copies.size]
    unfold fileRounds
    omega
  · obtain ⟨y, mine', rfl⟩ := List.mem_map.mp mine
    have free := copied.owns.free y mine'
    rw [zonesMap, holds.taken y.2 root_] at free
    cases free

/-! ## The entry of the new kernel -/

theorem append_keepsOthers {number : UInt16} {buffer : Block} (holds : Holds ks n dir root t) (laid : Laid t)
    (length : root.fileBlocks = n) (ran : appendEntry number root buffer t = .ok () t') (out : gone 1) :
    ∃ ks', KeepsOthers gone ks ks' t t' := by
  obtain ⟨⟨z, root₁⟩, t₁, added, rest⟩ := bind_ok_iff.mp ran
  obtain ⟨u, t₂, stored, saved⟩ := bind_ok_iff.mp rest
  obtain ⟨reaches, rfl⟩ := minixStoreBlock_ok_iff.mp stored
  have round : copyBlock root (Function.update dir n (buffer.setEntry 0 number) n) 32 t =
      .ok (z, { root₁ with iSize := root₁.iSize + 32 }) (t₁.putBlock z (buffer.setEntry 0 number)) := by
    rw [Function.update_self]
    exact copyBlock_ok_iff.mpr ⟨root₁, t₁, added, reaches, rfl, rfl⟩
  obtain ⟨map, low⟩ := copyBlock_inodesMap round
  rw [length] at low
  obtain ⟨zones, copied⟩ := holds.toSpread.copied
  have there : ∀ k ∈ ks, (bit t.zonesMap k).isSome := fun k mine => holds.taken k mine ▸ rfl
  have before : Laid (t.unmark ks) := laid.unmark there fun k mine => (holds.within k mine).2
  have same : ∀ j < n, dir j = Function.update dir n (buffer.setEntry 0 number) j := fun j inside => by
    rw [Function.update_of_ne (by omega)]
  obtain ⟨⟨owned, copied'⟩, -⟩ := (copied.congr same).step low length round
  have laid' := before.owns copied'.owns map
  -- The directory is a file that gives its zones back and takes them, and one more.
  have back : KeepsOthers gone ([] ++ ks) [] t (t.unmark ks) := unmark_keepsOthers there
  have taken : KeepsOthers gone [] (owned.map Prod.snd) _ _ := copied'.owns.keepsOthers before fun k mine => .inr mine
  exact ⟨_, (back.trans taken).trans (.save laid' ⟨le_rfl, le_trans (by decide) laid'.some_⟩ out saved)⟩

theorem linkKernel_keepsOthers (gone : Nat → Prop) {number : UInt16} {buffer : Block} (holds : Holds ks n dir root t)
    (laid : Laid t) (length : n = root.scanBlocks) (some_ : 0 < root.iSize.toNat)
    (ran : linkKernel number buffer t = .ok () t') (out : gone 1) : ∃ ks', KeepsOthers gone ks ks' t t' := by
  unfold linkKernel at ran
  rw [bind_of_ok holds.loads] at ran
  obtain ⟨r, mid, inserted, rest⟩ := bind_ok_iff.mp ran
  rw [← length] at inserted
  obtain ⟨rfl, ⟨data, rfl⟩, -⟩ | ⟨rfl, j, z, k, low, -, -, -, way, reaches, stored⟩ :=
    insertEntry_ok holds.toSpread (Nat.zero_add n) inserted
  · exact append_keepsOthers holds laid ((fileBlocks_eq some_).trans length.symm) rest out
  · obtain ⟨-, rfl⟩ := pure_ok_iff.mp rest
    obtain ⟨l, mine, way'⟩ := holds.way (mem_slots.mpr ⟨j, low, dataSlot_mem j⟩)
    obtain rfl : t.sb.zone l = z := Option.some_inj.mp (way'.symm.trans way)
    have written : KeepsOthers gone ks ks t (t.putBlock (t.sb.zone l) ((dir j).setEntry k number)) :=
      .putZone laid mine (holds.within l mine).2 reaches
    have laid' : Laid (t.putBlock (t.sb.zone l) ((dir j).setEntry k number)) := laid.putBlock
    refine ⟨ks, ?_⟩
    split at stored
    · exact written.trans (.save laid' ⟨le_rfl, le_trans (by decide) laid'.some_⟩ out stored)
    · obtain ⟨-, rfl⟩ := pure_ok_iff.mp stored
      exact written

/-! ## The whole command -/

/-- The kernel is in inode `i`, in zones that are not the directory's. -/
def KernelStored (kernel : InputFile) (ks : List Nat) (i : Nat) (t : Tool) : Prop :=
  ∃ inode bits, minixLoadInode i t = .ok inode t ∧ inode.iSize.toNat = kernel.bytes.size ∧
    Spread bits (fileRounds kernel.bytes.size) kernel.block inode t ∧ ∀ k ∈ bits, k ∉ ks

theorem KeepsOthers.stored (keeps : KeepsOthers gone ks ks' t t') (numbers : t.sb.Numbers i) (here : ¬ gone i)
    (stored : KernelStored kernel ks i t) : KernelStored kernel ks' i t' := by
  obtain ⟨inode, bits, loads, size, spread, other⟩ := stored
  obtain ⟨spread', other'⟩ := keeps.spread spread other
  exact ⟨inode, bits, keeps.inodes i inode numbers here loads, size, spread', other'⟩

theorem minixInstall_keepsOthers (holds : Holds ks n dir root t) (laid : Laid t) (length : n = root.scanBlocks)
    (some_ : 0 < root.iSize.toNat) (numbers : t.sb.Numbers i) (other : i ≠ 1)
    (ran : minixInstall input i t = .ok () t') :
    ∃ ks' t₁, KeepsOthers (fun j => j = 1 ∨ j = i) ks ks' t t' ∧ KernelStored input.kernel ks' i t' ∧
      Laid t₁ ∧ saveMaps t₁ = .ok () t' := by
  unfold minixInstall at ran
  obtain ⟨u₁, t₁, marked, rest₁⟩ := bind_ok_iff.mp ran
  obtain rfl := setInodeBit_ok marked
  obtain ⟨u₂, t₂, saved, rest₂⟩ := bind_ok_iff.mp rest₁
  split at rest₂
  · cases rest₂
  obtain ⟨inode, t₃, copied, rest₃⟩ := bind_ok_iff.mp rest₂
  obtain ⟨u₄, t₄, linked, rest₄⟩ := bind_ok_iff.mp rest₃
  have holds₁ := holds.setInodesMap (setBit t.inodesMap i)
  have laid₁ := laid.setInodesMap (size_setBit (t := t.inodesMap) (n := i))
  have holds₂ := holds₁.save laid₁ numbers other saved
  have laid₂ := laid₁.save saved
  have new : KeepsOthers (· = i) ks ks t t₂ := KeepsOthers.refl.setInodesMap.trans (.save laid₁ numbers rfl saved)
  have numbers₂ : t₂.sb.Numbers i := new.sb.symm ▸ numbers
  have there₂ : (t₂.blockAt (t₂.sb.inodeBlock i)).isSome := by
    obtain ⟨data, there, same⟩ := minixSaveInode_ok_iff.mp saved
    rw [new.sb, same]
    exact blockAt_putBlock_same (reaches_of_blockAt there) ▸ rfl
  obtain ⟨holds₃, laid₃⟩ := copyRounds_hold holds₂ laid₂ numbers₂ other there₂ rfl copied
  obtain ⟨copies, loads, size, bits, spread, apart⟩ := copyRounds_keepOthers holds₂ laid₂ numbers₂ there₂ rfl copied
  have numbers₃ : t₃.sb.Numbers i := copies.sb.symm ▸ numbers₂
  obtain ⟨-, laid₄⟩ := linkKernel_ok holds₃ laid₃ length some_ linked
  obtain ⟨ks', links⟩ := linkKernel_keepsOthers (· = 1) holds₃ laid₃ length some_ linked rfl
  have maps : KeepsOthers (· = 1) ks' ks' t₄ t' := saveMaps_keepsOthers laid₄ rest₄
  exact ⟨ks', t₄,
    ((new.trans copies).mono fun _ same => .inr same).trans ((links.trans maps).mono fun _ same => .inl same),
    (links.trans maps).stored numbers₃ other ⟨inode, bits, loads, size, spread, apart⟩, laid₄, rest₄⟩

/-- The command between the deletion and the return. -/
theorem minixWrite_stages {t₀ t₁ : Tool} (opened : minixOpen input t₀ = .ok root t₁) (geometry : Geometry t₁)
    (spread : Spread ks root.scanBlocks dir root t₁) (old : OldKernel input.trunc ks root t₁)
    (ran : minixWrite input t₀ = .ok i t') :
    ∃ t₂ dir', minixDelete input root t₁ = .ok () t₂ ∧ Holds ks root.scanBlocks dir' root t₂ ∧ Laid t₂ ∧
      Deleted t₁ root root.scanBlocks dir' ∧
      ((∀ e, 32 * e < root.iSize.toNat → ¬ Live (t₁.fileByte root) e) → t₂ = t₁) ∧
      FirstFree t₂ i ∧ i < t₂.sb.sInodes.toNat ∧ minixInstall input i t₂ = .ok () t' := by
  obtain ⟨-, -, -, -, -, -, -, -, -, -, -, -, -, -, -, -, -, loads⟩ := minixOpen_ok_iff.mp opened
  have laid : Laid t₁ := ⟨geometry, (minixOpen_sizes opened).1, (minixOpen_sizes opened).2⟩
  unfold minixWrite at ran
  rw [bind_of_ok opened] at ran
  obtain ⟨u, t₂, deletion, rest⟩ := bind_ok_iff.mp ran
  obtain ⟨i', t₃, checked, rest'⟩ := bind_ok_iff.mp rest
  obtain ⟨u', t₄, installed, last⟩ := bind_ok_iff.mp rest'
  obtain ⟨rfl, rfl⟩ := pure_ok_iff.mp last
  obtain ⟨⟨dir', holds', laid', deleted⟩, same⟩ := minixDelete_holds ⟨spread, loads⟩ laid rfl old deletion
  obtain ⟨rfl, free, below⟩ := minixCheck_ok laid'.some_ checked
  exact ⟨t₃, dir', deletion, holds', laid', deleted, same, free, below, installed⟩

/-- What is left, after the command returned, of the image that it opened. -/
theorem minixWrite_keepsOthers {t₀ t₁ : Tool} (opened : minixOpen input t₀ = .ok root t₁) (geometry : Geometry t₁)
    (spread : Spread ks root.scanBlocks dir root t₁) (some_ : 0 < root.iSize.toNat)
    (old : OldKernel input.trunc ks root t₁) (ran : minixWrite input t₀ = .ok i t') :
    (∀ l, bit t₁.inodesMap l = some true → ¬ OldInode root t₁ l → l ≠ i) ∧
      ∃ back ks' t₂, (∀ k ∈ back, GivenBack input.trunc root t₁ k) ∧
        KeepsOthers (fun j => OldInode root t₁ j ∨ j = 1 ∨ j = i) (ks ++ back) ks' t₁ t' ∧
          KernelStored input.kernel ks' i t' ∧ Laid t₂ ∧ saveMaps t₂ = .ok () t' := by
  obtain ⟨-, -, -, -, -, -, -, -, -, -, -, -, -, -, -, -, -, loads⟩ := minixOpen_ok_iff.mp opened
  have laid : Laid t₁ := ⟨geometry, (minixOpen_sizes opened).1, (minixOpen_sizes opened).2⟩
  obtain ⟨t₂, dir', deletion, holds', laid', -, -, ⟨from_, free, -⟩, below, installed⟩ :=
    minixWrite_stages opened geometry spread old ran
  obtain ⟨⟨back, given, deletes⟩, used⟩ := minixDelete_keepsOthers ⟨spread, loads⟩ laid rfl old deletion
  obtain ⟨ks', t₃, installs, stored, laid₃, saved⟩ :=
    minixInstall_keepsOthers holds' laid' rfl some_ ⟨by omega, by omega⟩ (by omega) installed
  refine ⟨fun l taken other same => ?_, back, ks', t₃, given,
    (deletes.mono fun _ out => .inl out).trans (installs.mono fun _ out => .inr out), stored, laid₃, saved⟩
  subst same
  rw [used l other, taken] at free
  cases free

end AtaKernel.Minix
