import AtaKernel.Minix.OtherFiles
import AtaKernel.Minix.SpaceCheck

/-! Where an install that has passed its checks goes on to the end. The kernel is
then in its zones before anything can be wanting; what the checks leave out is a
zone for the root directory, where every slot of its blocks is in use. -/
namespace AtaKernel.Minix
open BitTable StateProgram

variable {before t t' t₀ t₁ t₂ : Tool} {root inode : Inode} {e i j k left n number : Nat} {z : UInt16} {b : Block}
  {ks : List Nat} {dir : Nat → Block} {kernel : InputFile} {input : InstallInput}

/-- The image holds all of the partition. -/
def Complete (t : Tool) : Prop := ∀ z : UInt16, z.toNat < t.sb.sFirstdatazone.toNat + t.sb.sNzones.toNat →
    (t.blockAt z).isSome

theorem blockAt_isSome_iff : (t.blockAt z).isSome ↔ t.Reaches z ∧ (t.blockOff z).toNat + 1024 ≤ t.img.size := by
  unfold Tool.blockAt Image.read
  split
  · next reaches =>
    split
    · next fits => exact iff_of_true rfl ⟨reaches, fits⟩
    · next short => exact iff_of_false Bool.false_ne_true fun both => short both.2
  · next far => exact iff_of_false Bool.false_ne_true fun both => far both.1

theorem blockAt_isSome_mono (ps : t'.ps = t.ps) (size : t.img.size ≤ t'.img.size) (there : (t.blockAt z).isSome) :
    (t'.blockAt z).isSome := by
  have off : t'.blockOff z = t.blockOff z := by
    unfold Tool.blockOff
    rw [ps]
  rw [blockAt_isSome_iff] at there ⊢
  unfold Tool.Reaches at there ⊢
  rw [off]
  exact ⟨there.1, there.2.trans size⟩

/-- The image holds what lies ahead of the zones. -/
def HasFront (t : Tool) : Prop := ∀ z : UInt16, z.toNat < t.sb.sFirstdatazone.toNat → (t.blockAt z).isSome

theorem Complete.mono (complete : Complete t) (ps : t'.ps = t.ps) (sb : t'.sb = t.sb)
    (size : t.img.size ≤ t'.img.size) : Complete t' :=
  fun z low => blockAt_isSome_mono ps size (complete z (sb ▸ low))

theorem HasFront.mono (front : HasFront t) (ps : t'.ps = t.ps) (sb : t'.sb = t.sb) (size : t.img.size ≤ t'.img.size) :
    HasFront t' := fun z low => blockAt_isSome_mono ps size (front z (sb ▸ low))

theorem Complete.front (complete : Complete t) : HasFront t := fun z low => complete z (by omega)

theorem Complete.zone (complete : Complete t) (laid : Laid t) (clear : k ∈ t.clearBits) :
    (t.blockAt (t.sb.zone k)).isSome := by
  have low := (mem_clearBits.mp clear).1
  have place := toNat_zone (laid.clear k clear)
  exact complete _ (by omega)

theorem HasFront.table (front : HasFront t) (laid : Laid t) (numbers : t.sb.Numbers i) :
    (t.blockAt (t.sb.inodeBlock i)).isSome := by
  have place := inodeBlock_toNat laid.fits numbers
  exact front _ (by omega)

theorem minixSaveInode_returns (inode : Inode) (there : (t.blockAt (t.sb.inodeBlock i)).isSome) :
    ∃ t', minixSaveInode i inode t = .ok () t' := by
  obtain ⟨data, here⟩ := Option.isSome_iff_exists.mp there
  exact ⟨_, minixSaveInode_ok_iff.mpr ⟨data, here, rfl⟩⟩

/-! ## The copy -/

theorem CopiesFrom.returns (copies : CopiesFrom ks before kernel number j inode t)
    (free : ∀ k ∈ before.clearBits, (before.blockAt (before.sb.zone k)).isSome)
    (within : j < fileRounds kernel.bytes.size) (reads : ¬ kernel.ferror)
    (few : fileRounds kernel.bytes.size ≤ 519 + 512 * 512)
    (room : zonesTaken (fileRounds kernel.bytes.size) ≤ before.clearBits.length) :
    ∃ inode' t', copyRound kernel number j inode t = .ok inode' t' := by
  obtain ⟨base, owned, zones, laid, there, keeps, zonesMap, copied, -⟩ := copies.file
  have full : inode.iSize.toNat = 1024 * j := by
    have size := copies.size
    unfold fileRounds at within
    omega
  have bits : base.clearBits = before.clearBits := by
    unfold Tool.clearBits
    rw [zonesMap, keeps.sb]
  have free' : ∀ k ∈ base.clearBits, (base.blockAt (base.sb.zone k)).isSome := by
    rw [bits, keeps.sb]
    exact fun k clear => blockAt_isSome_mono keeps.ps keeps.size (free k clear)
  obtain ⟨z, inode', mid, round⟩ : ∃ z inode' mid, copyBlock inode (kernel.block j)
      (UInt32.ofNat (min 1024 (kernel.bytes.size - 1024 * j))) t = .ok (z, inode') mid :=
    copied.returns (show j < 519 + 512 * 512 by omega) (fileBlocks_of_size full) free'
      (bits.symm ▸ (slots_length_mono within).trans room)
  obtain ⟨⟨owned', copied'⟩, -⟩ := copied.step (by omega) (fileBlocks_of_size full) round
  have table : (mid.blockAt (mid.sb.inodeBlock number)).isSome := by
    rw [copied'.owns.sb]
    exact copied'.owns.blockAt_isSome there
  obtain ⟨t', saved⟩ := minixSaveInode_returns inode' table
  refine ⟨inode', t', ?_⟩
  unfold copyRound
  dsimp only
  rw [if_neg fun both => reads both.2, bind_of_ok round]
  dsimp only
  rw [bind_of_ok saved]
  rfl

theorem copyRounds_return (inode : Inode) (laid : Laid t) (there : (t.blockAt (t.sb.inodeBlock number)).isSome)
    (free : ∀ k ∈ t.clearBits, (t.blockAt (t.sb.zone k)).isSome) (numbers : t.sb.Numbers number)
    (empty : inode.iSize = 0) (reads : ¬ kernel.ferror) (few : fileRounds kernel.bytes.size ≤ 519 + 512 * 512)
    (room : zonesTaken (fileRounds kernel.bytes.size) ≤ t.clearBits.length) :
    ∃ inode' t', upTo (copyRound kernel number) (fileRounds kernel.bytes.size) inode t = .ok inode' t' := by
  obtain ⟨inode', t', ran, -⟩ := upTo_returns (fun j => CopiesFrom [] t kernel number j)
    (copiesFrom_start laid there empty) fun j within c mid copies => by
      obtain ⟨c', mid', round⟩ := copies.returns free within reads few room
      exact ⟨c', mid', round, copies.step numbers within round⟩
  exact ⟨inode', t', ran⟩

/-! ## The root directory -/

theorem Holds.block_there (holds : Holds ks n dir root t) (length : n = root.scanBlocks) (some_ : 0 < root.iSize.toNat)
    (low : j < n) : ∃ z, minixFileBlock2Block root j t = .ok z t ∧ t.blockAt z = some (dir j) := by
  obtain ⟨z, way, there⟩ := holds.blocks j low
  have few := holds.few
  rw [scanBlocks_eq some_] at length
  exact ⟨z, minixFileBlock2Block_ok_iff.mpr ⟨rfl, by omega, by omega, by omega, way⟩, there⟩

/-- The search for a slot gets to the end of the directory, or to a hole that it fills. -/
theorem insertEntry_returns {number : UInt16} {buffer : Block} (holds : Holds ks n dir root t) (laid : Laid t)
    (length : n = root.scanBlocks) (some_ : 0 < root.iSize.toNat) (sum : i + left = n) :
    ∃ r t', insertEntry number root left i buffer t = .ok r t' := by
  induction left generalizing i buffer with
  | zero => exact ⟨_, _, rfl⟩
  | succ left ih =>
    obtain ⟨z, looked, there⟩ := holds.block_there length some_ (show i < n by omega)
    rw [insertEntry, bind_of_ok looked, bind_of_ok (minixLoadBlock_ok_iff.mpr ⟨rfl, there⟩)]
    cases scan : scanHoles (dir i) 32 0 with
    | none => exact ih (by omega)
    | some k =>
      dsimp only
      obtain ⟨-, -, -, -, way⟩ := minixFileBlock2Block_ok_iff.mp looked
      have reaches := reaches_of_blockAt there
      have stored :
          minixStoreBlock z ((dir i).setEntry k number) t = .ok () (t.putBlock z ((dir i).setEntry k number)) :=
        minixStoreBlock_ok_iff.mpr ⟨reaches, rfl⟩
      rw [bind_of_ok stored]
      have written : Holds ks n _ root (t.putBlock z ((dir i).setEntry k number)) :=
        holds.rewrite laid (show i < n by omega) way reaches
      obtain ⟨-, data, table, -⟩ := minixLoadInode_ok_iff.mp written.loads
      obtain ⟨t', saved⟩ := minixSaveInode_returns { root with iSize := root.iSize + 32 }
        (i := 1) (Option.isSome_iff_exists.mpr ⟨data, table⟩)
      split
      · exact ⟨none, t', by rw [bind_of_ok saved]; rfl⟩
      · exact ⟨none, _, rfl⟩

/-- With the zones of the directory, there are as many more. -/
theorem clearBits_unmark (holds : Holds ks n dir root t) :
    ks.length + t.clearBits.length ≤ (t.unmark ks).clearBits.length := by
  have there : ∀ k ∈ ks, (bit t.zonesMap k).isSome := fun k mine => holds.taken k mine ▸ rfl
  have apart : (ks ++ t.clearBits).Nodup := by
    refine List.Nodup.append holds.apart (List.nodup_range.filter _) fun k mine clear => ?_
    have free := (mem_clearBits.mp clear).2
    rw [holds.taken k mine] at free
    cases free
  have among : ks ++ t.clearBits ⊆ (t.unmark ks).clearBits := by
    intro k inside
    rw [mem_clearBits, bit_unmark there]
    rcases List.mem_append.mp inside with mine | clear
    · exact ⟨(holds.within k mine).1, if_pos mine⟩
    · obtain ⟨low, free⟩ := mem_clearBits.mp clear
      exact ⟨low, by rw [free, ite_self]⟩
  rw [← List.length_append]
  exact (apart.subperm among).length_le

theorem appendEntry_returns {number : UInt16} {buffer : Block} (holds : Holds ks n dir root t) (laid : Laid t)
    (complete : Complete t) (length : root.fileBlocks = n) (low : n < 519 + 512 * 512)
    (room : (newSlots n).length ≤ t.clearBits.length) : ∃ t', appendEntry number root buffer t = .ok () t' := by
  obtain ⟨zones, copied⟩ := holds.toSpread.copied
  have there : ∀ k ∈ ks, (bit t.zonesMap k).isSome := fun k mine => holds.taken k mine ▸ rfl
  have before : Laid (t.unmark ks) := laid.unmark there fun k mine => (holds.within k mine).2
  have whole : Complete (t.unmark ks) := complete
  have length_ : (slots n).length = ks.length := by
    rw [← List.length_map (t.zoneIn root), holds.ways, List.length_map]
  have enough : (slots (n + 1)).length ≤ (t.unmark ks).clearBits.length := by
    rw [slots_succ, List.length_append, length_]
    exact (Nat.add_le_add_left room _).trans (clearBits_unmark holds)
  have same : ∀ j < n, dir j = Function.update dir n (buffer.setEntry 0 number) j := fun j inside => by
    rw [Function.update_of_ne (by omega)]
  obtain ⟨z, root', t₁, round⟩ : ∃ z root' t₁, copyBlock root (Function.update dir n (buffer.setEntry 0 number) n) 32
      t = .ok (z, root') t₁ := copied.returns low length (fun k clear => whole.zone before clear) enough
  obtain ⟨⟨owned, copied'⟩, -⟩ := (copied.congr same).step low length round
  rw [Function.update_self] at round
  obtain ⟨root₁, t₂, added, reaches, rfl, rfl⟩ := copyBlock_ok_iff.mp round
  have table : ((t₂.putBlock z (buffer.setEntry 0 number)).blockAt
      ((t₂.putBlock z (buffer.setEntry 0 number)).sb.inodeBlock 1)).isSome := by
    rw [copied'.owns.sb]
    exact copied'.owns.blockAt_isSome (whole.front.table before ⟨le_rfl, le_trans (by decide) before.some_⟩)
  obtain ⟨t', saved⟩ := minixSaveInode_returns { root₁ with iSize := root₁.iSize + 32 } table
  have stored : minixStoreBlock z (buffer.setEntry 0 number) t₂ = .ok () (t₂.putBlock z (buffer.setEntry 0 number)) :=
    minixStoreBlock_ok_iff.mpr ⟨reaches, rfl⟩
  refine ⟨t', ?_⟩
  unfold appendEntry
  rw [bind_of_ok added]
  dsimp only
  rw [bind_of_ok stored]
  exact saved

/-- The directory has a slot for the entry, or it can get one beside what takes `taken` zones. -/
def HasSlot (taken n : Nat) (dir : Nat → Block) (t : Tool) : Prop :=
  (∃ e < 32 * n, entryInode (dirBytes dir) e = 0) ∨
    (n < 519 + 512 * 512 ∧ taken + (newSlots n).length ≤ t.clearBits.length)

/-- The entry goes into a hole, or behind the last block. -/
theorem linkKernel_goes_on (number : UInt16) (buffer : Block) (holds : Holds ks n dir root t) (laid : Laid t)
    (length : n = root.scanBlocks) (some_ : 0 < root.iSize.toNat)
    (append : (∀ e < 32 * n, entryInode (dirBytes dir) e ≠ 0) →
      ∀ data, ∃ t', appendEntry number root data t = .ok () t') :
    ∃ t', linkKernel number buffer t = .ok () t' := by
  obtain ⟨r, mid, inserted⟩ : ∃ r mid, insertEntry number root n 0 buffer t = .ok r mid :=
    insertEntry_returns holds laid length some_ (Nat.zero_add n)
  unfold linkKernel
  rw [bind_of_ok holds.loads, ← length, bind_of_ok inserted]
  obtain ⟨rfl, ⟨data, rfl⟩, full⟩ | ⟨rfl, -⟩ := insertEntry_ok holds.toSpread (Nat.zero_add n) inserted
  · exact append (fun e low => full e (Nat.zero_le _) low) data
  · exact ⟨mid, rfl⟩

theorem linkKernel_returns (number : UInt16) (buffer : Block) (holds : Holds ks n dir root t) (laid : Laid t)
    (complete : Complete t) (length : n = root.scanBlocks) (some_ : 0 < root.iSize.toNat) (slot : HasSlot 0 n dir t) :
    ∃ t', linkKernel number buffer t = .ok () t' := by
  refine linkKernel_goes_on number buffer holds laid length some_ fun full data => ?_
  rcases slot with ⟨e, low, hole⟩ | ⟨low, room⟩
  · exact absurd hole (full e low)
  · exact appendEntry_returns holds laid complete ((fileBlocks_eq some_).trans length.symm) low (by omega)

/-! ## The whole command -/

theorem seekOff_returns (complaint : String) (front : HasFront t) (low : n < t.sb.sFirstdatazone.toNat) :
    ∃ off, seekOff n complaint t = .ok off t := by
  have wide := t.sb.sFirstdatazone.toNat_lt
  have small : (UInt16.ofNat n).toNat = n := by
    rw [UInt16.toNat_ofNat']
    exact Nat.mod_eq_of_lt (by omega)
  obtain ⟨⟨above, below⟩, -⟩ := blockAt_isSome_iff.mp (front (UInt16.ofNat n) (by omega))
  unfold Tool.blockOff at above below
  rw [small] at above below
  unfold seekOff
  rw [get_bind, if_neg (by omega), if_neg (by omega)]
  exact ⟨_, rfl⟩

theorem saveMaps_returns (laid : Laid t) (front : HasFront t) : ∃ t', saveMaps t = .ok () t' := by
  have table := inodeBlock_toNat laid.fits (i := 1) ⟨le_rfl, le_trans (by decide) laid.some_⟩
  have after : t.sb.inodeTable = t.sb.zoneMap + t.sb.sZmapBlocks.toNat := rfl
  have from_ : t.sb.zoneMap = 2 + t.sb.sImapBlocks.toNat := rfl
  obtain ⟨off₁, sought₁⟩ := seekOff_returns (n := 2) ("Could not seek to " ++ "inodes" ++ " map.") front (by omega)
  obtain ⟨off₂, sought₂⟩ := seekOff_returns (n := t.sb.zoneMap) ("Could not seek to " ++ "zones" ++ " map.")
    (t := { t with img := t.img.writeBytes off₁ t.inodesMap })
    (front.mono rfl rfl (by rw [writeBytes_size]; split <;> omega))
    (show t.sb.zoneMap < t.sb.sFirstdatazone.toNat by omega)
  have first : writeMap "inodes" 2 t.inodesMap t = .ok () { t with img := t.img.writeBytes off₁ t.inodesMap } := by
    unfold writeMap
    rw [bind_of_ok sought₁]
    rfl
  refine ⟨{ t with img := (t.img.writeBytes off₁ t.inodesMap).writeBytes off₂ t.zonesMap }, ?_⟩
  unfold saveMaps
  rw [get_bind, bind_of_ok first]
  unfold writeMap
  rw [bind_of_ok sought₂]
  rfl

/-- Once the kernel has its zones, only the entry can be wanting. -/
theorem minixInstall_returns (holds : Holds ks n dir root t) (laid : Laid t) (front : HasFront t)
    (clear : ∀ k ∈ t.clearBits, (t.blockAt (t.sb.zone k)).isSome) (length : n = root.scanBlocks)
    (some_ : 0 < root.iSize.toNat) (numbers : t.sb.Numbers i) (other : i ≠ 1)
    (bit_ : (bit t.inodesMap i).isSome) (opens : input.kernel.opens) (reads : ¬ input.kernel.ferror)
    (few : fileRounds input.kernel.bytes.size ≤ 519 + 512 * 512)
    (room : zonesTaken (fileRounds input.kernel.bytes.size) ≤ t.clearBits.length)
    (links : ∀ mid, Holds ks n dir root mid → Laid mid → mid.ps = t.ps → mid.sb = t.sb → t.img.size ≤ mid.img.size →
      t.clearBits.length = mid.clearBits.length + zonesTaken (fileRounds input.kernel.bytes.size) →
        ∃ t', linkKernel (UInt16.ofNat i) (input.kernel.block (fileRounds input.kernel.bytes.size - 1)) mid =
          .ok () t') :
    ∃ t', minixInstall input i t = .ok () t' := by
  have marked : setInodeBit i t = .ok () { t with inodesMap := setBit t.inodesMap i } := by
    obtain ⟨v, here⟩ := Option.isSome_iff_exists.mp bit_
    unfold setInodeBit
    rw [get_bind, here]
    rfl
  have holds₁ := holds.setInodesMap (setBit t.inodesMap i)
  have laid₁ := laid.setInodesMap (size_setBit (t := t.inodesMap) (n := i))
  have front₁ : HasFront { t with inodesMap := setBit t.inodesMap i } := front
  obtain ⟨t₂, saved⟩ := minixSaveInode_returns (newInode input.time) (front₁.table laid₁ numbers)
  have new : KeepsOthers (· = i) ks ks _ t₂ := .save laid₁ numbers rfl saved
  have holds₂ := holds₁.save laid₁ numbers other saved
  have laid₂ := laid₁.save saved
  have front₂ := front₁.mono new.ps new.sb new.size
  have numbers₂ : t₂.sb.Numbers i := new.sb.symm ▸ numbers
  have there₂ := front₂.table laid₂ numbers₂
  have bits₂ : t₂.clearBits = t.clearBits := by
    obtain ⟨data, -, same⟩ := minixSaveInode_ok_iff.mp saved
    rw [same]
    rfl
  have clear₂ : ∀ k ∈ t₂.clearBits, (t₂.blockAt (t₂.sb.zone k)).isSome := by
    rw [bits₂, new.sb]
    exact fun k free => blockAt_isSome_mono new.ps new.size (clear k free)
  obtain ⟨inode, t₃, copied⟩ := copyRounds_return (newInode input.time) laid₂ there₂ clear₂ numbers₂
    rfl reads few (bits₂.symm ▸ room)
  obtain ⟨holds₃, laid₃⟩ := copyRounds_hold holds₂ laid₂ numbers₂ other there₂ rfl copied
  obtain ⟨copies, -⟩ := copyRounds_keepOthers holds₂ laid₂ numbers₂ there₂ rfl copied
  have front₃ := front₂.mono copies.ps copies.sb copies.size
  have taken := (copyRounds_allot input.time).ok inode t₃ copied
  rw [bits₂] at taken
  obtain ⟨t₄, linked⟩ := links t₃ holds₃ laid₃ (copies.ps.trans new.ps) (copies.sb.trans new.sb)
    (new.size.trans copies.size) taken
  obtain ⟨-, laid₄⟩ := linkKernel_ok holds₃ laid₃ length some_ linked
  obtain ⟨ks', keeps⟩ := linkKernel_keepsOthers (· = 1) holds₃ laid₃ length some_ linked rfl
  obtain ⟨t', maps⟩ := saveMaps_returns laid₄ (front₃.mono keeps.ps keeps.sb keeps.size)
  refine ⟨t', ?_⟩
  unfold minixInstall
  rw [bind_of_ok marked, bind_of_ok saved, if_neg fun closed => closed opens, bind_of_ok copied,
    bind_of_ok linked, maps]

theorem minixCheck_room {j : Nat} (checked : minixCheck input t = .ok j t')
    (few : fileRounds input.kernel.bytes.size < 2 ^ 31) :
    zonesTaken (fileRounds input.kernel.bytes.size) ≤ t.clearBits.length := by
  rw [minixCheck_eq] at checked
  obtain ⟨u, mid, passed, -⟩ := bind_ok_iff.mp checked
  have fits := minixSpaceCheck_passes_iff.mp ⟨mid, passed⟩
  have same : fileRounds input.kernel.bytes.size % 2 ^ 32 = fileRounds input.kernel.bytes.size :=
    Nat.mod_eq_of_lt (by omega)
  have some_ : 0 < fileRounds input.kernel.bytes.size := Nat.succ_pos _
  unfold WrapsToFit at fits
  rw [same, if_pos ⟨some_, few⟩] at fits
  exact fits.1

/-- The blocks of the directory have a hole, or the entry of an old kernel to make one; or there is a zone for one more
block beside those of the kernel. -/
def SlotLeft (kernel : InputFile) (root : Inode) (t t₂ : Tool) : Prop :=
  (∃ e < 32 * root.scanBlocks, entryInode (t.fileByte root) e = 0 ∨
    (32 * e < root.iSize.toNat ∧ Live (t.fileByte root) e)) ∨
    (root.scanBlocks < 519 + 512 * 512 ∧
      zonesTaken (fileRounds kernel.bytes.size) + (newSlots root.scanBlocks).length ≤ t₂.clearBits.length)

/-- An install that has deleted the old kernel and has passed its checks returns, on an image that holds the whole
partition, for a kernel that can be read and is not too long for an inode. -/
theorem install_returns (opened : minixOpen input t₀ = .ok root t₁) (geometry : Geometry t₁)
    (spread : Spread ks root.scanBlocks dir root t₁) (some_ : 0 < root.iSize.toNat)
    (old : OldKernel input.trunc ks root t₁) (complete : Complete t₁) (deleted : minixDelete input root t₁ = .ok () t₂)
    (checked : minixCheck input t₂ = .ok i t₂) (opens : input.kernel.opens) (reads : ¬ input.kernel.ferror)
    (few : fileRounds input.kernel.bytes.size ≤ 519 + 512 * 512)
    (slot : SlotLeft input.kernel root t₁ t₂) :
    ∃ t', minixWrite input t₀ = .ok i t' := by
  obtain ⟨-, -, -, -, -, -, -, -, -, -, -, -, -, -, -, -, -, loads⟩ := minixOpen_ok_iff.mp opened
  have laid : Laid t₁ := ⟨geometry, (minixOpen_sizes opened).1, (minixOpen_sizes opened).2⟩
  obtain ⟨⟨dir', holds', laid', gone⟩, -⟩ := minixDelete_holds ⟨spread, loads⟩ laid rfl old deleted
  obtain ⟨⟨back, -, deletes⟩, -⟩ := minixDelete_keepsOthers ⟨spread, loads⟩ laid rfl old deleted
  obtain ⟨-, ⟨from_, free, -⟩, below⟩ := minixCheck_ok laid'.some_ checked
  have hole {e : Nat} (low : e < 32 * root.scanBlocks)
      (here : entryInode (t₁.fileByte root) e = 0 ∨ (32 * e < root.iSize.toNat ∧ Live (t₁.fileByte root) e)) :
      entryInode (dirBytes dir') e = 0 := by
    by_cases live : 32 * e < root.iSize.toNat ∧ Live (t₁.fileByte root) e
    · exact gone.gone e live.1 live.2
    · rw [← entryInode_entryAt, gone.kept e low live, entryInode_entryAt]
      exact here.resolve_right live
  have whole := complete.mono deletes.ps deletes.sb deletes.size
  have left_ : HasSlot (zonesTaken (fileRounds input.kernel.bytes.size)) root.scanBlocks dir' t₂ :=
    slot.imp_left fun ⟨e, low, here⟩ => ⟨e, low, hole low here⟩
  obtain ⟨t', installed⟩ : ∃ t', minixInstall input i t₂ = .ok () t' := by
    refine minixInstall_returns holds' laid' whole.front (fun k clear => whole.zone laid' clear) rfl some_
      ⟨by omega, by omega⟩ (show i ≠ 1 by omega) (free ▸ rfl) opens reads few (minixCheck_room checked (by omega))
      fun mid holds laid ps sb size taken => ?_
    exact linkKernel_returns _ _ holds laid (whole.mono ps sb size) rfl some_
      (left_.imp_right fun ⟨low, enough⟩ => ⟨low, by omega⟩)
  refine ⟨t', ?_⟩
  unfold minixWrite
  rw [bind_of_ok opened, bind_of_ok deleted, bind_of_ok checked, bind_of_ok installed]
  rfl

/-! ### A kernel that is replaced -/

/-- A boot record with its packet and an active partition of eight blocks, and its boot block with the number of its
first sector and the name of the kernel. Block 5 is the root directory; the kernel of inode 2 is in block 6, and a note
in block 7. -/
def updateDisk : Image where
  bytes x :=
    if 32 ≤ x ∧ x < 48 then [16, 0, 1, 0, 0, 0x7c].getD (x - 32) 0
    else if 446 ≤ x ∧ x < 462 then [0x80, 0, 0, 0, 0x81, 0, 0, 0, 2, 0, 0, 0, 16, 0, 0, 0].getD (x - 446) 0
    else if x = 510 then 0x55
    else if x = 511 then 0xaa
    else if x = 1026 then 2
    else if 1520 ≤ x ∧ x < 1527 then kernelText (x - 1520)
    else if 2048 ≤ x ∧ x < 2068 then
      [32, 0, 3, 0, 1, 0, 1, 0, 5, 0, 0, 0, 0, 0x1c, 0x08, 0x10, 0x8f, 0x13, 1, 0].getD (x - 2048) 0
    else if 3072 ≤ x ∧ x < 4096 then [0x0f, 0, 0, 0, 0xfe].getD (x - 3072) 0xff
    else if 4096 ≤ x ∧ x < 5120 then 0xff
    else if 5120 ≤ x ∧ x < 5216 then
      [0xed, 0x41, 0, 0, 128, 0, 0, 0, 0, 0, 0, 0, 0, 2, 5, 0, 0, 0, 0, 0, 0, 0, 0, 0, 0, 0, 0, 0, 0, 0, 0, 0,
        0xa4, 0x81, 0, 0, 0, 4, 0, 0, 0, 0, 0, 0, 0, 1, 6, 0, 0, 0, 0, 0, 0, 0, 0, 0, 0, 0, 0, 0, 0, 0, 0, 0,
        0xa4, 0x81, 0, 0, 3, 0, 0, 0, 0, 0, 0, 0, 0, 1, 7, 0].getD (x - 5120) 0
    else if x = 6144 ∨ x = 6176 then 1
    else if x = 6146 ∨ x = 6178 ∨ x = 6179 then 0x2e
    else if x = 6208 then 2
    else if 6210 ≤ x ∧ x < 6217 then kernelText (x - 6210)
    else if x = 6240 then 3
    else if x = 6242 then 0x6e
    else if 8192 ≤ x ∧ x < 8195 then [0x68, 0x69, 0x0a].getD (x - 8192) 0
    else 0
  size := 9216

/-- A kernel of one byte. -/
def updateInput : InstallInput :=
  ⟨true, none, 0, true, ⟨true, #[0x7f], false⟩, (true, true), ⟨1, fun _ => 0, fun _ => 0⟩, 0⟩

namespace Update

def start : Tool := ⟨updateDisk, 0, ⟨0, 0, 0, 0, 0, 0, 0, 0, 0⟩, #[], #[]⟩

def block (off : Nat) : Block := fun x => updateDisk.bytes (off + x)

@[irreducible] def map (off : Nat) : Table := Array.ofFn fun x : Fin 1024 => updateDisk.bytes (off + x)

def opened : Tool := ⟨updateDisk, 1024, ⟨32, 3, 1, 1, 5, 0, 0x10081c00, 0x138f, 1⟩, map 3072, map 4096⟩

def tree : Inode := (block 5120).inode 0

def note : Inode := (block 5120).inode 2

theorem blockAt (reaches : t.Reaches z) (image : t.img = updateDisk) {off : Nat} (place : t.blockOff z = off)
    (fits : off + 1024 ≤ 9216) : t.blockAt z = some (block off) := blockAt_image reaches image place fits

theorem map_eq {off : Nat} : map off = Array.ofFn fun x : Fin 1024 => updateDisk.bytes (off + x) := by
  unfold map
  rfl

theorem table : opened.blockAt 4 = some (block 5120) := blockAt (by decide) rfl (by decide) (by decide)

theorem entries_at : opened.blockAt 5 = some (block 6144) := blockAt (by decide) rfl (by decide) (by decide)

theorem loads : minixLoadInode 1 opened = .ok tree opened := minixLoadInode_ok_iff.mpr ⟨rfl, block 5120, table, rfl⟩

theorem opens : minixOpen updateInput start = .ok tree opened :=
  minixOpen_small (by decide) ⟨rfl, rfl⟩ rfl (by decide) (by decide) (by decide) (by decide) map_eq map_eq loads

theorem map_bit {off : Nat} (low : k < 8192) :
    bit (map off) k = some (decide (updateDisk.bytes (off + k / 8) &&& mask k ≠ 0)) := by
  rw [map_eq]
  exact bit_imageMap low

theorem zonesMap_bit (low : k < 8) : bit opened.zonesMap k = some true := by
  rw [show opened.zonesMap = map 4096 from rfl, map_bit (by omega)]
  interval_cases k <;> decide

theorem inodesMap_bit (low : k < 4) : bit opened.inodesMap k = some true := by
  rw [show opened.inodesMap = map 3072 from rfl, map_bit (by omega)]
  interval_cases k <;> decide

theorem no_clear : opened.clearBits = [] := by
  refine List.eq_nil_iff_forall_not_mem.mpr fun k clear => ?_
  obtain ⟨small, free⟩ := mem_clearBits.mp clear
  have low : k < 3 := small
  rw [zonesMap_bit (by omega)] at free
  cases free

theorem geometry : Geometry opened where
  fits := show 4 + 1 ≤ 5 by decide
  some_ := by decide
  clear k clear := by
    rw [no_clear] at clear
    cases clear

theorem one_block : tree.scanBlocks = 1 := by decide

theorem spread : Spread [0] tree.scanBlocks (fun _ => block 6144) tree opened where
  ways := by decide
  blocks j low := by
    rw [one_block] at low
    obtain rfl : j = 0 := by omega
    exact ⟨5, by decide, entries_at⟩
  within k mine := by
    rw [List.mem_singleton.mp mine]
    decide
  apart := List.nodup_singleton 0
  taken k mine := by
    rw [List.mem_singleton.mp mine]
    exact zonesMap_bit (by decide)
  few := by decide

theorem live_iff {e : Nat} (low : 32 * e < tree.iSize.toNat) : Live (opened.fileByte tree) e ↔ e = 2 := by
  have size : tree.iSize.toNat = 128 := by decide
  have way : opened.zoneIn tree (dataSlot 0) = some 5 := by decide
  have few : e < 4 := by omega
  have same := live_block way entries_at (k := e) (by omega)
  rw [Nat.mul_zero, Nat.zero_add] at same
  rw [same]
  clear same low size
  interval_cases e <;> decide

theorem old_number : (entryInode (opened.fileByte tree) 2).toNat = 2 := by
  have way : opened.zoneIn tree (dataSlot 0) = some 5 := by decide
  have here : entryInode (opened.fileByte tree) 2 = entryInode (block 6144).bytes 2 :=
    entryInode_congr fun l inside => by
      have byte := fileByte_block way entries_at (show 32 * 2 + l < 1024 by omega)
      rwa [Nat.mul_zero, Nat.zero_add] at byte
  rw [here]
  decide

/-- The zone of the old kernel is the one of bit 1. -/
theorem slot : opened.slotBit ((block 5120).inode 1) (.field 0) = some 1 := by
  have way : opened.zoneIn ((block 5120).inode 1) (.field 0) = some 6 := by
    rw [zoneIn_field]
    decide
  have here : opened.bitOf 6 = some 1 := bitOf_iff.mpr ⟨by decide, zonesMap_bit (k := 1) (by decide) ▸ rfl⟩
  rw [Tool.slotBit, way, Option.bind_eq_bind, Option.bind_some]
  exact here

theorem rounds : slots updateInput.trunc.fb.toInt.toNat = [.field 0] := by decide

theorem oldInode_iff : OldInode tree opened i ↔ i = 2 := by
  constructor
  · rintro ⟨e, low, live, rfl⟩
    rw [(live_iff low).mp live]
    exact old_number
  · rintro rfl
    exact ⟨2, by decide, (live_iff (by decide)).mpr rfl, old_number⟩

theorem givenBack_iff : GivenBack updateInput.trunc tree opened k ↔ k = 1 := by
  have old : minixLoadInode 2 opened = .ok ((block 5120).inode 1) opened :=
    minixLoadInode_ok_iff.mpr ⟨rfl, block 5120, table, rfl⟩
  constructor
  · rintro ⟨e, inode, low, live, loads, s, among, here⟩
    obtain rfl := (live_iff low).mp live
    rw [old_number] at loads
    obtain ⟨rfl, -⟩ := EStateM.Result.ok.inj (old.symm.trans loads)
    rw [rounds] at among
    rw [List.mem_singleton.mp among, slot] at here
    exact (Option.some_inj.mp here).symm
  · rintro rfl
    exact ⟨2, _, by decide, (live_iff (by decide)).mpr rfl, old_number.symm ▸ old, _,
      rounds ▸ List.mem_singleton_self _, slot⟩

theorem old : OldKernel updateInput.trunc [0] tree opened where
  single e e' low low' live live' := ((live_iff low).mp live).trans ((live_iff low').mp live').symm
  numbers e low live := by
    rw [(live_iff low).mp live, old_number]
    exact ⟨by decide, by decide, by decide⟩
  given e inode low live loads s among k mine here := by
    have back := givenBack_iff.mp ⟨e, inode, low, live, loads, s, among, here⟩
    rw [back] at mine
    exact absurd mine (by decide)

theorem complete : Complete opened := by
  intro z low
  have few : z.toNat < 8 := low
  rw [blockAt_isSome_iff]
  have start : opened.blockOff z = 1024 + 1024 * (z.toNat : Int) := rfl
  unfold Tool.Reaches
  rw [start, show opened.img.size = 9216 from rfl]
  omega

theorem deletes : ∃ mid, minixDelete updateInput tree opened = .ok () mid ∧ mid.sb = opened.sb ∧
    mid.zonesMap = unsetBit opened.zonesMap 1 ∧ mid.inodesMap = unsetBit opened.inodesMap 2 := by
  have root : minixFileBlock2Block tree 0 opened = .ok 5 opened :=
    minixFileBlock2Block_ok_iff.mpr ⟨rfl, by decide, by decide, by decide, by decide⟩
  have number : (entryInode (block 6144).bytes 2).toNat = 2 := by decide
  have bits : (slots updateInput.trunc.fb.toInt.toNat).map (opened.slotBit ((block 5120).inode 1)) = [1].map some := by
    rw [rounds, List.map_cons, slot]
    rfl
  have load : minixLoadInode 2 opened = .ok ((block 5120).inode 1) opened :=
    minixLoadInode_ok_iff.mpr ⟨rfl, block 5120, table, rfl⟩
  have inside : (bit opened.inodesMap 2).isSome := by
    rw [inodesMap_bit (by decide)]
    rfl
  have there : opened.blockAt (opened.sb.inodeBlock 2) = some (block 5120) := table
  rw [← number] at load inside there
  obtain ⟨mid, deleted, sb, zones, inodes⟩ : ∃ mid, deleteEntry updateInput.trunc 5 (block 6144) 2 opened = .ok () mid ∧
      mid.sb = opened.sb ∧ mid.zonesMap = (opened.unmark [1]).zonesMap ∧
        mid.inodesMap = unsetBit opened.inodesMap (entryInode (block 6144).bytes 2).toNat :=
    ⟨_, deleteEntry_ok_iff.mpr ⟨_, [1], _, load, by decide, bits, inside, by decide, there, rfl⟩, rfl, rfl, rfl⟩
  refine ⟨mid, ?_, sb, zones.trans unmark_one, by rw [inodes, number]⟩
  unfold minixDelete
  rw [one_block, show (1 : Nat) = 0 + 1 from rfl, scanRoot, bind_of_ok root,
    bind_of_ok (minixLoadBlock_ok_iff.mpr ⟨rfl, entries_at⟩),
    show scanEntries (block 6144) (tree.iSize.toNat - 1024 * 0) 32 0 = some 2 by decide]
  exact deleted

theorem checks {mid : Tool} (sb : mid.sb = opened.sb) (zones : mid.zonesMap = unsetBit opened.zonesMap 1)
    (inodes : mid.inodesMap = unsetBit opened.inodesMap 2) : minixCheck updateInput mid = .ok 2 mid := by
  have zone {k : Nat} (low : k < 8) : bit mid.zonesMap k = if k = 1 then some false else some true := by
    rw [zones, bit_unsetBit (zonesMap_bit (k := 1) (by decide)), zonesMap_bit low]
  have first : mapGetBit mid.zonesMap 0 mid = .ok true mid := mapGetBit_ok_iff.mpr ⟨rfl, zone (by decide)⟩
  have second : mapGetBit mid.zonesMap 1 mid = .ok false mid := mapGetBit_ok_iff.mpr ⟨rfl, zone (by decide)⟩
  have inode : mapGetBit mid.inodesMap 2 mid = .ok false mid :=
    mapGetBit_ok_iff.mpr ⟨rfl, by rw [inodes, bit_unsetBit (inodesMap_bit (k := 2) (by decide)), if_pos rfl]⟩
  have scanned : scanInodes (29 + 1) 2 mid = .ok 2 mid := by
    rw [scanInodes, get_bind, bind_of_ok inode]
    rfl
  have counted : countZones 1 3 0 0 mid = .ok 1 mid := by
    have none_ : ¬ (if true = true then (0 : Int) else 0 + 1) = 1 := by decide
    rw [countZones, get_bind, bind_of_ok first, if_neg none_, countZones, get_bind, bind_of_ok second]
    rfl
  unfold minixCheck
  rw [get_bind, sb, show kernelZones updateInput.kernel.bytes.size = 1 by decide, if_neg (by decide),
    show opened.sb.sNzones.toNat = 3 by decide, bind_of_ok counted, if_neg (by decide),
    show opened.sb.sInodes.toNat - 2 = 29 + 1 by decide, bind_of_ok scanned]
  rfl

/-- The new kernel takes the place of the old one. -/
theorem runs : ∃ t', minixWrite updateInput start = .ok 2 t' := by
  obtain ⟨mid, deleted, sb, zones, inodes⟩ := deletes
  exact install_returns opens geometry spread (by decide) old complete deleted (checks sb zones inodes) rfl
    Bool.false_ne_true (by decide) (.inl ⟨2, by decide, .inr ⟨by decide, (live_iff (by decide)).mpr rfl⟩⟩)

end Update

end AtaKernel.Minix
