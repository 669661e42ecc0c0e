import AtaKernel.Minix.InstallReturns

/-! What the root directory lists after an install, also where the zone map shows
some of its zones as free. What counts is that the install takes none of them. Its
run is then one, too, from the state in which they are marked, and what is known of
the root directory there holds of the blocks and of the inode here. -/
namespace AtaKernel.Minix
open BitTable StateProgram

variable {t t' : Tool} {root inode inode' : Inode} {e i j k m n c left number : Nat} {z : UInt16} {b data : Block}
  {s : Slot} {ss : List Slot} {ks bits : List Nat} {dir : Nat → Block} {input : InstallInput} {kernel : InputFile}

/-! ## Zones that are not taken -/

/-- The bits are in the map, and none is that of one of the next `n` zones. -/
structure Spared (ks : List Nat) (n : Nat) (t : Tool) : Prop where
  there : ∀ k ∈ ks, (bit t.zonesMap k).isSome
  apart : ∀ k ∈ ks, k ∉ t.clearBits.take n

theorem Spared.congr (spared : Spared ks n t) (zonesMap : t'.zonesMap = t.zonesMap) (sb : t'.sb = t.sb) :
    Spared ks n t' where
  there := zonesMap ▸ spared.there
  apart := by
    unfold Tool.clearBits
    rw [zonesMap, sb]
    exact spared.apart

theorem Spared.fewer (spared : Spared ks n t) (le : m ≤ n) : Spared ks m t where
  there := spared.there
  apart := fun k mine taken => spared.apart k mine (List.take_subset_take_left _ le taken)

/-- The next zone is none of them, and is the next one also where they are marked. -/
theorem Spared.first (spared : Spared ks (n + 1) t) (first : FirstClear t k) :
    FirstClear (t.mark ks) k ∧ (t.mark ks).markZone k = (t.markZone k).mark ks ∧ Spared ks n (t.markZone k) := by
  have there := spared.there
  have other : k ∉ ks := by
    intro mine
    have next := spared.apart k mine
    rw [clearBits_first first, List.take_succ_cons] at next
    exact next List.mem_cons_self
  have there' : ∀ l ∈ ks, (bit (t.markZone k).zonesMap l).isSome := by
    intro l mine
    rw [bit_isSome]
    exact size_setBit.symm ▸ bit_isSome.mp (there l mine)
  have clear' : bit (t.mark ks).zonesMap k = some false := by rw [bit_mark there, if_neg other, first.clear]
  refine ⟨⟨first.small, clear', fun j below => ?_⟩, ?_, there', fun l mine taken => spared.apart l mine ?_⟩
  · rw [bit_mark there, first.below j below, ite_self]
  · have same : setBit (ks.foldl setBit t.zonesMap) k = ks.foldl setBit (setBit t.zonesMap k) := by
      refine table_ext (by rw [size_setBit, size_setBits, size_setBits, size_setBit]) fun l => ?_
      change bit (setBit (t.mark ks).zonesMap k) l = bit (ks.foldl setBit (t.markZone k).zonesMap) l
      rw [bit_setBit clear', bit_mark there, bit_setBits there', markZone_bit first.clear]
      split_ifs <;> rfl
    unfold Tool.markZone Tool.mark
    rw [same]
  · rw [clearBits_first first, List.take_succ_cons]
    exact List.mem_cons_of_mem k taken

/-! ## Runs that do not see the marks -/

theorem grows_mark (spared : Spared ks (n + 1) t) (grown : Grows s k (inode, t) (inode', t')) :
    Grows s k (inode, t.mark ks) (inode', t'.mark ks) ∧ Spared ks n t' := by
  obtain ⟨first, placed⟩ := grows_iff.mp grown
  obtain ⟨first', commutes, spared'⟩ := spared.first first
  cases s with
  | field i =>
    obtain ⟨rfl, rfl⟩ := Prod.mk.inj placed
    refine ⟨grows_iff.mpr ⟨first', ?_⟩, spared'⟩
    rw [← commutes]
    rfl
  | entry s i =>
    obtain ⟨p, data, way, there, same⟩ := placed
    obtain ⟨rfl, rfl⟩ := Prod.mk.inj same
    refine ⟨grows_iff.mpr ⟨first', p, data, mark_zoneIn.trans way, there, ?_⟩, spared'.congr rfl rfl⟩
    rw [commutes]
    rfl

theorem growth_mark (spared : Spared ks (n + ss.length) t) (grown : Growth ss bits (inode, t) (inode', t')) :
    Growth ss bits (inode, t.mark ks) (inode', t'.mark ks) ∧ Spared ks n t' := by
  -- by induction on the slots, each of which takes one zone
  induction ss generalizing bits inode t with
  | nil =>
    obtain ⟨rfl, same⟩ := growth_none.mp grown
    obtain ⟨rfl, rfl⟩ := Prod.mk.inj same
    exact ⟨.done, spared⟩
  | cons s ss ih =>
    cases grown with
    | @more _ k _ bits _ mid _ first rest =>
      obtain ⟨first', spared'⟩ := grows_mark (n := n + ss.length) spared first
      obtain ⟨rest', spared''⟩ := ih spared' rest
      exact ⟨.more first' rest', spared''⟩

/-- A program that takes `c` zones does not see which of the others are marked. -/
abbrev TakesUnseen (ks : List Nat) {α : Type} (c : Nat) (x : ToolM α) : Prop :=
  ∀ n, Carries (·.mark ks) (Spared ks (n + c)) (Spared ks n) x

theorem addFileBlock_unseen : TakesUnseen ks (newSlots inode.fileBlocks).length (minixAddFileBlock inode) := by
  rintro n t ⟨z, inode'⟩ t' spared added
  obtain ⟨low, bits, k, grown, rfl⟩ := minixAddFileBlock_ok_iff.mp added
  obtain ⟨grown', spared'⟩ := growth_mark spared grown
  exact ⟨minixAddFileBlock_ok_iff.mpr ⟨low, bits, k, grown', rfl⟩, spared'⟩

theorem loadBlock_unseen : TakesUnseen ks 0 (minixLoadBlock z) := by
  intro n t data t' spared ran
  obtain ⟨rfl, there⟩ := minixLoadBlock_ok_iff.mp ran
  exact ⟨minixLoadBlock_ok_iff.mpr ⟨rfl, there⟩, spared⟩

theorem storeBlock_unseen : TakesUnseen ks 0 (minixStoreBlock z b) := by
  intro n t u t' spared ran
  obtain ⟨reaches, rfl⟩ := minixStoreBlock_ok_iff.mp ran
  exact ⟨minixStoreBlock_ok_iff.mpr ⟨reaches, rfl⟩, spared.congr rfl rfl⟩

theorem fileBlock_unseen : TakesUnseen ks 0 (minixFileBlock2Block root i) := by
  intro n t z t' spared ran
  obtain ⟨rfl, wide, inside, low, way⟩ := minixFileBlock2Block_ok_iff.mp ran
  exact ⟨minixFileBlock2Block_ok_iff.mpr ⟨rfl, wide, inside, low, mark_zoneIn.trans way⟩, spared⟩

theorem saveInode_unseen : TakesUnseen ks 0 (minixSaveInode i inode) := by
  intro n t u t' spared ran
  obtain ⟨data, there, rfl⟩ := minixSaveInode_ok_iff.mp ran
  exact ⟨minixSaveInode_ok_iff.mpr ⟨data, there, rfl⟩, spared.congr rfl rfl⟩

theorem copyRound_unseen : TakesUnseen ks (newSlots inode.fileBlocks).length (copyRound kernel number j inode) := by
  intro n
  unfold copyRound copyBlock
  dsimp only
  split
  · exact carries_throw _
  · refine Carries.bind ((addFileBlock_unseen n).bind fun x => (storeBlock_unseen n).bind fun _ => carries_pure _)
      fun x => ?_
    exact (saveInode_unseen n).bind fun _ => carries_pure _

theorem insertEntry_unseen {number : UInt16} : TakesUnseen ks 0 (insertEntry number root left i b) := by
  intro n
  induction left generalizing i b with
  | zero => exact carries_pure _
  | succ left ih =>
    refine (fileBlock_unseen n).bind fun z => (loadBlock_unseen n).bind fun data => ?_
    split
    · exact ih
    · refine (storeBlock_unseen n).bind fun _ => ?_
      dsimp only
      split
      · exact (saveInode_unseen n).bind fun _ => carries_pure _
      · exact carries_pure _

theorem appendEntry_unseen {number : UInt16} :
    TakesUnseen ks (newSlots root.fileBlocks).length (appendEntry number root b) := by
  intro n
  unfold appendEntry
  exact (addFileBlock_unseen n).bind fun x => (storeBlock_unseen n).bind fun _ => saveInode_unseen n

/-! ## The install with the zones marked -/

/-- The copy of the kernel keeps the root directory, and its zones are not among those that come next. -/
theorem copyRounds_spare (holds : Holds ks n dir root (t.mark ks)) (laid : Laid t) (numbers : t.sb.Numbers number)
    (other : number ≠ 1) (there : (t.blockAt (t.sb.inodeBlock number)).isSome) (empty : inode.iSize = 0)
    (spared : Spared ks (c + zonesTaken (fileRounds kernel.bytes.size)) t)
    (ran : upTo (copyRound kernel number) (fileRounds kernel.bytes.size) inode t = .ok inode' t') :
    Holds ks n dir root (t'.mark ks) ∧ Laid (t'.mark ks) ∧ Spared ks c t' := by
  have start : Copying ks n dir root kernel number 0 inode (t.mark ks) :=
    copying_start holds (laid.mark spared.there) numbers there empty
  have round (j : Nat) (within : j < fileRounds kernel.bytes.size) (inode : Inode) (s : Tool) (inode' : Inode)
      (s' : Tool) (before : Copying ks n dir root kernel number j inode (s.mark ks) ∧
        ∃ left, left + zonesTaken j = zonesTaken (fileRounds kernel.bytes.size) ∧ Spared ks (c + left) s)
      (ran : copyRound kernel number j inode s = .ok inode' s') :
      Copying ks n dir root kernel number (j + 1) inode' (s'.mark ks) ∧
        ∃ left, left + zonesTaken (j + 1) = zonesTaken (fileRounds kernel.bytes.size) ∧ Spared ks (c + left) s' := by
    obtain ⟨copying, left, total, spared⟩ := before
    have place : inode.fileBlocks = j := fileBlocks_of_size (copying.size within)
    have step : zonesTaken (j + 1) = zonesTaken j + (newSlots j).length := by
      unfold zonesTaken
      rw [slots_succ, List.length_append]
    have most : zonesTaken (j + 1) ≤ zonesTaken (fileRounds kernel.bytes.size) := slots_length_mono within
    obtain ⟨left', rfl⟩ : ∃ left', left = left' + (newSlots j).length := ⟨left - (newSlots j).length, by omega⟩
    rw [← Nat.add_assoc, ← place] at spared
    obtain ⟨ran', spared'⟩ := copyRound_unseen (c + left') s inode' s' spared ran
    exact ⟨copying.step other within ran', left', by omega, spared'⟩
  obtain ⟨copying, left, total, spared'⟩ := upTo_invariant
    (fun j inode s => Copying ks n dir root kernel number j inode (s.mark ks) ∧
      ∃ left, left + zonesTaken j = zonesTaken (fileRounds kernel.bytes.size) ∧ Spared ks (c + left) s)
    ⟨start, _, Nat.add_zero _, spared⟩ round ran
  obtain rfl : left = 0 := by omega
  exact ⟨copying.holds.1, copying.holds.2, spared'⟩

/-- The entry goes in where the blocks have a hole, or there are zones enough for a further block. -/
theorem linkKernel_spares {number : UInt16} (holds : Holds ks n dir root (t.mark ks)) (laid : Laid (t.mark ks))
    (length : n = root.scanBlocks) (some_ : 0 < root.iSize.toNat) (spared : Spared ks c t)
    (room : (∃ e < 32 * n, entryInode (dirBytes dir) e = 0) ∨ (newSlots n).length ≤ c)
    (ran : linkKernel number b t = .ok () t') : Linked number n dir root (t'.mark ks) ∧ Laid (t'.mark ks) := by
  refine linkKernel_ok holds laid length some_ (?_ : linkKernel number b (t.mark ks) = .ok () (t'.mark ks))
  unfold linkKernel at ran ⊢
  rw [bind_of_ok (mark_loads.mp holds.loads)] at ran
  rw [bind_of_ok holds.loads]
  obtain ⟨r, mid, inserted, rest⟩ := bind_ok_iff.mp ran
  obtain ⟨inserted', spared'⟩ := insertEntry_unseen c t r mid spared inserted
  rw [bind_of_ok inserted']
  cases r with
  | none =>
    obtain ⟨-, rfl⟩ := pure_ok_iff.mp rest
    rfl
  | some data =>
    rw [← length] at inserted'
    obtain ⟨-, -, full⟩ | ⟨none_, -⟩ := insertEntry_ok holds.toSpread (Nat.zero_add n) inserted'
    · have more : (newSlots n).length ≤ c := by
        rcases room with ⟨e, low, hole⟩ | more
        · exact absurd hole (full e (Nat.zero_le _) low)
        · exact more
      rw [length, ← fileBlocks_eq some_] at more
      exact (appendEntry_unseen 0 mid () t' (spared'.fewer (by omega)) rest).1
    · cases none_

theorem saveMaps_mark {root' : Inode} {dir' : Nat → Block} {bits : List Nat}
    (holds : Holds bits n dir' root' (t.mark ks)) (laid : Laid (t.mark ks)) (ran : saveMaps t = .ok () t') :
    Holds bits n dir' root' (t'.mark ks) := by
  unfold saveMaps at ran
  rw [get_bind] at ran
  obtain ⟨u, mid, first, second⟩ := bind_ok_iff.mp ran
  obtain ⟨off, place, rfl⟩ := writeMap_ok first
  obtain ⟨off', place', rfl⟩ := writeMap_ok second
  have inodes : t.inodesMap.size = 1024 * t.sb.sImapBlocks.toNat := laid.inodesMap
  have zones : t.zonesMap.size = 1024 * t.sb.sZmapBlocks.toNat := mark_size.symm.trans laid.zonesMap
  have table : (t.mark ks).sb.inodeTable = 2 + t.sb.sImapBlocks.toNat + t.sb.sZmapBlocks.toNat := rfl
  have zoneMap : t.sb.zoneMap = 2 + t.sb.sImapBlocks.toNat := rfl
  have holds₁ := holds.writeBytes laid t.inodesMap (by omega) place
  have laid₁ : Laid { t.mark ks with img := t.img.writeBytes off t.inodesMap } :=
    ⟨⟨laid.fits, laid.some_, laid.clear⟩, laid.inodesMap, laid.zonesMap⟩
  exact holds₁.writeBytes laid₁ t.zonesMap (by change _ ≤ 1024 * (t.mark ks).sb.inodeTable; omega) place'

/-- What the last part of the command makes of the root directory. -/
theorem minixInstall_spares (holds : Holds ks n dir root (t.mark ks)) (laid : Laid t) (length : n = root.scanBlocks)
    (some_ : 0 < root.iSize.toNat) (numbers : t.sb.Numbers i) (other : i ≠ 1)
    (spared : Spared ks (c + zonesTaken (fileRounds input.kernel.bytes.size)) t)
    (room : (∃ e < 32 * n, entryInode (dirBytes dir) e = 0) ∨ (newSlots n).length ≤ c)
    (ran : minixInstall input i t = .ok () t') : Linked (UInt16.ofNat i) n dir root (t'.mark ks) := by
  unfold minixInstall at ran
  obtain ⟨u₁, t₁, marked, rest₁⟩ := bind_ok_iff.mp ran
  obtain rfl := setInodeBit_ok marked
  obtain ⟨u₂, t₂, saved, rest₂⟩ := bind_ok_iff.mp rest₁
  split at rest₂
  · cases rest₂
  obtain ⟨inode, t₃, copied, rest₃⟩ := bind_ok_iff.mp rest₂
  obtain ⟨u₄, t₄, linked, rest₄⟩ := bind_ok_iff.mp rest₃
  have holds₁ := holds.setInodesMap (setBit t.inodesMap i)
  have laid₁ := laid.setInodesMap (size_setBit (t := t.inodesMap) (n := i))
  have spared₁ : Spared ks _ { t with inodesMap := setBit t.inodesMap i } := spared.congr rfl rfl
  obtain ⟨saved', spared₂⟩ := saveInode_unseen _ _ _ t₂ spared₁ saved
  have holds₂ := holds₁.save (laid₁.mark spared₁.there) numbers other saved'
  have laid₂ := laid₁.save saved
  obtain ⟨data, there, same⟩ := minixSaveInode_ok_iff.mp saved
  have sb : t₂.sb = t.sb := by rw [same]; rfl
  have there₂ : (t₂.blockAt (t₂.sb.inodeBlock i)).isSome := by
    rw [sb, same]
    exact blockAt_putBlock_same (reaches_of_blockAt there) ▸ rfl
  obtain ⟨holds₃, laid₃, spared₃⟩ := copyRounds_spare holds₂ laid₂ (sb ▸ numbers) other there₂ rfl spared₂ copied
  obtain ⟨⟨h, ks', n', dir', root', holds₄, placed⟩, laid₄⟩ :=
    linkKernel_spares holds₃ laid₃ length some_ spared₃ room linked
  exact ⟨h, ks', n', dir', root', saveMaps_mark holds₄ laid₄ rest₄, placed⟩

/-! ## The directory before and after -/

/-- The bits of the zones that are free when the new kernel is written: those that are, and those that the old
kernel gives back. -/
def freeZones (trunc : TruncLocals) (root : Inode) (t : Tool) : List Nat :=
  (List.range t.sb.sNzones.toNat).filter fun k => bit t.zonesMap k = some false ∨ k ∈ freedBits trunc root t

/-- The zones that an install takes: those of the kernel, and those of a further block of the root directory where its
blocks have no hole when the old kernel is gone. -/
def installTakes (kernel : InputFile) (root : Inode) (t : Tool) : Nat :=
  zonesTaken (fileRounds kernel.bytes.size) +
    if ∃ e < 32 * root.scanBlocks, entryInode (t.fileByte root) e = 0 ∨
      32 * e < root.iSize.toNat ∧ Live (t.fileByte root) e then 0
    else (newSlots root.scanBlocks).length

/-- The zones of the root directory have bits in the map, and the install takes none of them. -/
structure RootSpared (input : InstallInput) (ks : List Nat) (root : Inode) (t : Tool) : Prop where
  there : ∀ k ∈ ks, (bit t.zonesMap k).isSome
  apart : ∀ k ∈ ks, k ∉ (freeZones input.trunc root t).take (installTakes input.kernel root t)

/-- What is free behind the deletion. -/
theorem RootSpared.deleted (spared : RootSpared input ks root t) (sb : t'.sb = t.sb)
    (bits : ∀ k, bit t'.zonesMap k = if k ∈ freedBits input.trunc root t then some false else bit t.zonesMap k) :
    Spared ks (installTakes input.kernel root t) t' where
  there := by
    intro k mine
    rw [bits]
    split
    · rfl
    · exact spared.there k mine
  apart := by
    have free : t'.clearBits = freeZones input.trunc root t := by
      unfold Tool.clearBits freeZones
      rw [sb]
      refine List.filter_congr fun k _ => decide_eq_decide.mpr ?_
      rw [bits]
      split
      · next freed => exact iff_of_true rfl (.inr freed)
      · next kept => exact (or_iff_left kept).symm
    rw [free]
    exact spared.apart

theorem mark_kernelListed {old : List Entry} : KernelListed old i (t.mark ks) ↔ KernelListed old i t := by
  unfold KernelListed
  simp only [mark_loads, mark_fileByte]

/-- Where the command returns and the zones of the root directory are spared, the directory has the entries that it
had, without the old kernel and with the new one, if and only if the slot behind its last entry is the one that the
new entry needs. -/
theorem kernel_listed_iff {t₀ t₁ : Tool} (opened : minixOpen input t₀ = .ok root t₁) (geometry : Geometry t₁)
    (lies : Lies ks root.scanBlocks dir root t₁) (some_ : 0 < root.iSize.toNat)
    (whole : root.iSize.toNat % 32 = 0) (old : OneKernel root t₁) (spared : RootSpared input ks root t₁)
    (ran : minixWrite input t₀ = .ok i t') :
    KernelListed (entries (t₁.fileByte root) root.iSize.toNat) i t' ↔
      SlotAtEnd t₁ (t₁.fileByte root) root.iSize.toNat := by
  obtain ⟨s, size⟩ : ∃ s, root.iSize.toNat = 32 * s := ⟨_, (Nat.mul_div_cancel' (Nat.dvd_of_mod_eq_zero whole)).symm⟩
  obtain ⟨-, -, -, -, -, -, -, -, -, -, -, -, -, -, -, -, -, loads⟩ := minixOpen_ok_iff.mp opened
  obtain ⟨inodesMap, zonesMap⟩ := minixOpen_sizes opened
  have holds : Holds ks root.scanBlocks dir root (t₁.mark ks) := ⟨lies.spread_mark spared.there, mark_loads.mpr loads⟩
  have laid : Laid t₁ := ⟨geometry, inodesMap, zonesMap⟩
  unfold minixWrite at ran
  rw [bind_of_ok opened] at ran
  obtain ⟨u, t₂, deletion, rest⟩ := bind_ok_iff.mp ran
  obtain ⟨i', t₃, checked, rest'⟩ := bind_ok_iff.mp rest
  obtain ⟨u', t₄, installed, last⟩ := bind_ok_iff.mp rest'
  obtain ⟨rfl, rfl⟩ := pure_ok_iff.mp last
  obtain ⟨⟨dir', holds', laid', deleted⟩, sb, bits, same⟩ := minixDelete_marks holds laid spared.there rfl old deletion
  obtain ⟨rfl, free, below⟩ := minixCheck_ok laid'.some_ checked
  have from_ : 2 ≤ i' := free.1
  have many := t₃.sb.sInodes.toNat_lt
  have spared' := spared.deleted sb bits
  unfold installTakes at spared'
  rw [Nat.add_comm] at spared'
  have room : (∃ e < 32 * root.scanBlocks, entryInode (dirBytes dir') e = 0) ∨ (newSlots root.scanBlocks).length ≤
      if ∃ e < 32 * root.scanBlocks, entryInode (t₁.fileByte root) e = 0 ∨
        32 * e < root.iSize.toNat ∧ Live (t₁.fileByte root) e then 0 else (newSlots root.scanBlocks).length := by
    split
    · next some_ =>
      obtain ⟨e, low, hole⟩ := some_
      exact .inl ⟨e, low, (deleted.hole_at low).mpr hole⟩
    · exact .inr le_rfl
  have linked := minixInstall_spares holds' laid' rfl some_ ⟨by omega, by omega⟩ (by omega) spared' room installed
  have blocks : root.scanBlocks = _ := scanBlocks_eq some_
  have fits : s ≤ 32 * root.scanBlocks := by omega
  have tight : 32 * root.scanBlocks < s + 32 := by omega
  have left_ : entries (dirBytes dir') (32 * s) =
      (entries (t₁.fileByte root) root.iSize.toNat).filter fun entry => ¬ entry.IsKernel := by
    rw [size]
    exact entries_deleted (fun e low live => deleted.gone e (by omega) live)
      fun e low other => deleted.kept e (by omega) fun both => other both.2
  rw [← mark_kernelListed, linked_listed_iff linked (by omega) (by omega) size fits lies.few left_]
  unfold SlotAtEnd
  rw [deleted.hole_iff size fits, show root.iSize.toNat / 32 = s by omega]
  refine or_congr_right' fun none_ => ?_
  have full_iff : s = 32 * root.scanBlocks ↔ root.iSize.toNat % 1024 = 0 := by omega
  rw [full_iff]
  refine or_congr_right' fun more => ?_
  have low : s < 32 * root.scanBlocks := by omega
  have kept := deleted.kept s low fun both => absurd both.1 (by omega)
  have number : entryInode (dirBytes dir') s = entryInode (t₁.fileByte root) s := congrArg Entry.number kept
  -- No entry is one of a kernel, so nothing was deleted.
  obtain rfl : t₃ = t₁ := same fun e low live => none_ ⟨e, low, .inr live⟩
  rw [number, ← isKernel_entryAt, kept, isKernel_entryAt]
  refine or_congr_right (and_congr_left fun _ => ?_)
  constructor
  · rintro rfl
    exact free
  · intro also
    exact firstFree_unique also free

/-! ## A stale entry -/

/-- A boot record with an active partition of seven blocks: block 5 is the root directory, and block 6 is
free. The directory has two entries; a third one, behind its end, is left from before. -/
def staleDisk : Image where
  bytes x :=
    if 446 ≤ x ∧ x < 462 then [0x80, 0, 0, 0, 0x81, 0, 0, 0, 2, 0, 0, 0, 14, 0, 0, 0].getD (x - 446) 0
    else if 2048 ≤ x ∧ x < 2068 then
      [32, 0, 7, 0, 1, 0, 1, 0, 5, 0, 0, 0, 0, 0x1c, 0x08, 0x10, 0x8f, 0x13, 1, 0].getD (x - 2048) 0
    else if 3072 ≤ x ∧ x < 4096 then [0x03, 0, 0, 0, 0xfe].getD (x - 3072) 0xff
    else if 4096 ≤ x ∧ x < 5120 then [0xfd].getD (x - 4096) 0xff
    else if 5120 ≤ x ∧ x < 5152 then [0xed, 0x41, 0, 0, 64, 0, 0, 0, 0, 0, 0, 0, 0, 2, 5].getD (x - 5120) 0
    else if x = 6144 ∨ x = 6176 then 1
    else if x = 6146 ∨ x = 6178 ∨ x = 6179 then 0x2e
    else if x = 6208 then 9
    else if x = 6210 then 0x78
    else 0
  size := 8192

/-- A kernel of one byte. -/
def staleInput : InstallInput :=
  ⟨true, none, 0, true, ⟨true, #[0x7f], false⟩, (true, true), ⟨1, fun _ => 0, fun _ => 0⟩, 0⟩

namespace Stale

def start : Tool := ⟨staleDisk, 0, ⟨0, 0, 0, 0, 0, 0, 0, 0, 0⟩, #[], #[]⟩

def block (off : Nat) : Block := fun x => staleDisk.bytes (off + x)

@[irreducible] def map (off : Nat) : Table := Array.ofFn fun x : Fin 1024 => staleDisk.bytes (off + x)

def opened : Tool := ⟨staleDisk, 1024, ⟨32, 7, 1, 1, 5, 0, 0x10081c00, 0x138f, 1⟩, map 3072, map 4096⟩

def tree : Inode := (block 5120).inode 0

theorem blockAt (reaches : t.Reaches z) (image : t.img = staleDisk) {off : Nat} (place : t.blockOff z = off)
    (fits : off + 1024 ≤ 8192) : t.blockAt z = some (block off) := blockAt_image reaches image place fits

theorem map_eq {off : Nat} : map off = Array.ofFn fun x : Fin 1024 => staleDisk.bytes (off + x) := by
  unfold map
  rfl

theorem table : opened.blockAt 4 = some (block 5120) := blockAt (by decide) rfl (by decide) (by decide)

theorem loads : minixLoadInode 1 opened = .ok tree opened := minixLoadInode_ok_iff.mpr ⟨rfl, block 5120, table, rfl⟩

theorem opens : minixOpen staleInput start = .ok tree opened :=
  minixOpen_small (by decide) ⟨rfl, rfl⟩ rfl (by decide) (by decide) (by decide) (by decide) map_eq map_eq loads

theorem map_bit {off : Nat} (low : k < 8192) :
    bit (map off) k = some (decide (staleDisk.bytes (off + k / 8) &&& mask k ≠ 0)) := by
  rw [map_eq]
  exact bit_imageMap low

theorem zonesMap_eq : opened.zonesMap = map 4096 := rfl

theorem zonesMap_bit (low : k < 8) : bit opened.zonesMap k = some (decide (k ≠ 1)) := by
  rw [zonesMap_eq, map_bit (by omega)]
  interval_cases k <;> decide

theorem inodesMap_eq : opened.inodesMap = map 3072 := rfl

theorem inodesMap_clear : bit opened.inodesMap 2 = some false := by
  rw [inodesMap_eq, map_bit (by decide)]
  decide

theorem entries_at : opened.blockAt 5 = some (block 6144) := blockAt (by decide) rfl (by decide) (by decide)

theorem clear_one (clear : k ∈ opened.clearBits) : k = 1 := by
  obtain ⟨small, clear⟩ := mem_clearBits.mp clear
  have low : k < 7 := small
  rw [zonesMap_bit (by omega), Option.some_inj, decide_eq_false_iff_not, not_not] at clear
  exact clear

theorem geometry : Geometry opened where
  fits := show 4 + 1 ≤ 5 by decide
  some_ := by decide
  clear := fun k clear => by
    rw [clear_one clear]
    decide

theorem spread : Spread [0] tree.scanBlocks (fun _ => block 6144) tree opened where
  ways := by decide
  blocks := by
    intro j low
    have one : tree.scanBlocks = 1 := by decide
    obtain rfl : j = 0 := by omega
    exact ⟨5, by decide, entries_at⟩
  within := by
    intro k mine
    rw [List.mem_singleton.mp mine]
    decide
  apart := List.nodup_singleton 0
  taken := by
    intro k mine
    rw [List.mem_singleton.mp mine, zonesMap_bit (by decide)]
    rfl
  few := by decide

theorem no_kernel {e : Nat} (low : 32 * e < tree.iSize.toNat) : ¬ Live (opened.fileByte tree) e := by
  have size : tree.iSize.toNat = 64 := by decide
  have way : opened.zoneIn tree (dataSlot 0) = some 5 := by decide
  have few : e < 2 := by omega
  have same := live_block way entries_at (k := e) (by omega)
  rw [Nat.mul_zero, Nat.zero_add] at same
  rw [same]
  clear same low size
  interval_cases e <;> decide

theorem old : OneKernel tree opened where
  single := fun _ _ low _ live => absurd live (no_kernel low)
  numbers := fun _ low live => absurd live (no_kernel low)

theorem spared : RootSpared staleInput [0] tree opened where
  there := fun k mine => spread.taken k mine ▸ rfl
  apart := by
    intro k mine taken
    obtain ⟨-, free⟩ := List.mem_filter.mp (List.mem_of_mem_take taken)
    rcases of_decide_eq_true free with clear | freed
    · rw [spread.taken k mine] at clear
      cases clear
    · obtain ⟨e, -, low, live, -⟩ := mem_freedBits freed
      exact no_kernel low live

/-- There is nothing to delete. -/
theorem deletes : minixDelete staleInput tree opened = .ok () opened := by
  have root : minixFileBlock2Block tree 0 opened = .ok 5 opened :=
    minixFileBlock2Block_ok_iff.mpr ⟨rfl, by decide, by decide, by decide, by decide⟩
  have blocks : tree.scanBlocks = 0 + 1 := by decide
  unfold minixDelete
  rw [blocks, scanRoot, bind_of_ok root, bind_of_ok (minixLoadBlock_ok_iff.mpr ⟨rfl, entries_at⟩),
    show scanEntries (block 6144) (tree.iSize.toNat - 1024 * 0) 32 0 = none by decide]
  rfl

theorem checks : minixCheck staleInput opened = .ok 2 opened := by
  have first : mapGetBit opened.zonesMap 0 opened = .ok true opened :=
    mapGetBit_ok_iff.mpr ⟨rfl, zonesMap_bit (by decide)⟩
  have second : mapGetBit opened.zonesMap 1 opened = .ok false opened :=
    mapGetBit_ok_iff.mpr ⟨rfl, zonesMap_bit (by decide)⟩
  have inode : mapGetBit opened.inodesMap 2 opened = .ok false opened :=
    mapGetBit_ok_iff.mpr ⟨rfl, inodesMap_clear⟩
  have scanned : scanInodes (29 + 1) 2 opened = .ok 2 opened := by
    rw [scanInodes, get_bind, bind_of_ok inode]
    rfl
  have counted : countZones 1 7 0 0 opened = .ok 1 opened := by
    have none_ : ¬ (if true = true then (0 : Int) else 0 + 1) = 1 := by decide
    rw [countZones, get_bind, bind_of_ok first, if_neg none_, countZones, get_bind, bind_of_ok second]
    rfl
  unfold minixCheck
  rw [get_bind, show kernelZones staleInput.kernel.bytes.size = 1 by decide, if_neg (by decide),
    show opened.sb.sNzones.toNat = 6 + 1 by decide, bind_of_ok counted, if_neg (by decide),
    show opened.sb.sInodes.toNat - 2 = 29 + 1 by decide, bind_of_ok scanned]
  rfl

theorem laid : Laid opened := ⟨geometry, (minixOpen_sizes opens).1, (minixOpen_sizes opens).2⟩

/-- The image holds the seven blocks. -/
theorem there (low : z.toNat < 7) : (opened.blockAt z).isSome := by
  have start : opened.blockOff z = 1024 + 1024 * (z.toNat : Int) := rfl
  rw [blockAt_isSome_iff]
  unfold Tool.Reaches
  rw [start, show opened.img.size = 8192 from rfl]
  omega

theorem installs : ∃ t', minixInstall staleInput 2 opened = .ok () t' := by
  have front : HasFront opened := fun z low => there (low.trans (by decide))
  have free : ∀ k ∈ opened.clearBits, (opened.blockAt (opened.sb.zone k)).isSome := fun k clear => by
    rw [clear_one clear]
    exact there (by decide)
  refine minixInstall_returns ⟨spread, loads⟩ laid front free rfl (by decide) ⟨by decide, by decide⟩ (by decide)
    (inodesMap_clear ▸ rfl) rfl (by decide) (by decide) (minixCheck_room checks (by decide))
    fun mid holds' laid' _ _ _ _ => ?_
  -- Slot 3 is a hole.
  exact linkKernel_goes_on _ _ holds' laid' rfl (by decide) fun full => absurd (by decide) (full 3 (by decide))

theorem runs : ∃ t', minixInstall staleInput 2 opened = .ok () t' ∧ minixWrite staleInput start = .ok 2 t' := by
  obtain ⟨t', installed⟩ := installs
  refine ⟨t', installed, ?_⟩
  unfold minixWrite
  rw [bind_of_ok opens, bind_of_ok deletes, bind_of_ok checks, bind_of_ok installed]
  rfl

end Stale

theorem kernel_listed_iff_stale : ∃ t', minixWrite staleInput Stale.start = .ok 2 t' ∧
    (KernelListed (entries (Stale.opened.fileByte Stale.tree) Stale.tree.iSize.toNat) 2 t' ↔
      SlotAtEnd Stale.opened (Stale.opened.fileByte Stale.tree) Stale.tree.iSize.toNat) := by
  obtain ⟨t', -, ran⟩ := Stale.runs
  exact ⟨t', ran, kernel_listed_iff Stale.opens Stale.geometry Stale.spread.toLies (by decide) (by decide) Stale.old
    Stale.spared ran⟩

/-- The new kernel goes into slot 3, and the size takes in slot 2, which holds what was left of a file. -/
theorem stale_entry_listed : ∃ t', minixOpen staleInput Stale.start = .ok Stale.tree Stale.opened ∧
    Stale.tree.iSize = 64 ∧ minixWrite staleInput Stale.start = .ok 2 t' ∧
    ¬ KernelListed (entries (Stale.opened.fileByte Stale.tree) Stale.tree.iSize.toNat) 2 t' := by
  obtain ⟨t', installed, ran⟩ := Stale.runs
  refine ⟨t', Stale.opens, by decide, ran, ?_⟩
  have holds : Holds [0] Stale.tree.scanBlocks (fun _ => Stale.block 6144) Stale.tree Stale.opened :=
    ⟨Stale.spread, Stale.loads⟩
  have size : Stale.tree.iSize.toNat = 32 * 2 := by decide
  have linked := minixInstall_ok holds Stale.laid rfl (by decide) ⟨by decide, by decide⟩ (by decide) installed
  have none_ (e : Nat) (low : e < 2) : ¬ Live (Stale.opened.fileByte Stale.tree) e :=
    Stale.no_kernel (by omega)
  have left_ := entries_deleted (fun e low live => absurd live (none_ e low)) fun e low _ =>
    (Stale.spread.entryAt (show e < 32 * 1 by omega)).symm
  rw [size, linked_listed_iff linked (by decide) (by decide) size (by decide) Stale.spread.few left_]
  decide

end AtaKernel.Minix
