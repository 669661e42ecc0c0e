import AtaKernel.Minix.RootDirectory
import AtaKernel.Minix.ZonesInUse

/-! The root directory after an install. The entry of the new kernel goes into
the first slot with the inode number 0 that the last block has room for, whether
or not the slot lies below the size; and the size grows by one entry where it
does not. Between the end of the directory and the slot there may be others. -/
namespace AtaKernel.Minix
open BitTable StateProgram

variable {t t' : Tool} {root inode inode' : Inode} {e h i j k m n left number : Nat} {z : UInt16} {b data : Block}
  {ks : List Nat} {dir dir' blocks : Nat → Block} {trunc : TruncLocals} {input : InstallInput} {kernel : InputFile}

/-! ## Entries of blocks -/

theorem dirBytes_block {x : Nat} (low : x < 1024) : dirBytes dir (1024 * j + x) = (dir j).bytes x := by
  unfold dirBytes
  rw [show (1024 * j + x) / 1024 = j by omega, show (1024 * j + x) % 1024 = x by omega]

theorem entryAt_block (low : k < 32) : entryAt (dirBytes dir) (32 * j + k) = entryAt (dir j).bytes k :=
  entryAt_congr fun l inside => by
    rw [show 32 * (32 * j + k) + l = 1024 * j + (32 * k + l) by omega, dirBytes_block (by omega)]

theorem entryAt_overwrite {bytes : Nat → UInt8} {k' : Nat} (low : k' < 32) (other : k' ≠ k) (short : m ≤ 32) :
    entryAt (data.overwrite (32 * k) m bytes).bytes k' = entryAt data.bytes k' :=
  entryAt_congr fun l inside => overwrite_outside (by omega) (by omega)

/-- A change to one entry of a block is one to that entry of the directory. -/
theorem entryAt_update {bytes : Nat → UInt8} (other : e ≠ 32 * j + k) (short : m ≤ 32) :
    entryAt (dirBytes (Function.update dir j ((dir j).overwrite (32 * k) m bytes))) e = entryAt (dirBytes dir) e := by
  rw [show e = 32 * (e / 32) + e % 32 by omega, entryAt_block (by omega), entryAt_block (by omega)]
  by_cases here : e / 32 = j
  · subst here
    rw [Function.update_self, entryAt_overwrite (by omega) (by omega) short]
  · rw [Function.update_of_ne here]

theorem entryAt_update_same (low : k < 32) :
    entryAt (dirBytes (Function.update dir j b)) (32 * j + k) = entryAt b.bytes k := by
  rw [entryAt_block low, Function.update_self]

theorem entryInode_entryAt {bytes : Nat → UInt8} : (entryAt bytes e).number = entryInode bytes e := rfl

/-- The entry that the tool writes. -/
def kernelEntry (number : UInt16) : Entry := ⟨number, fun j => kernelText j⟩

theorem kernelEntry_isKernel {number : UInt16} : (kernelEntry number).IsKernel := by
  intro k low
  have place : (Fin.ofNat 30 k).val = k := Nat.mod_eq_of_lt (by omega)
  change kernelText (Fin.ofNat 30 k).val = _
  rw [place]

theorem entryAt_setEntry {number : UInt16} (low : k < 32) :
    entryAt (data.setEntry k number).bytes k = kernelEntry number := by
  have byte {l : Nat} (inside : l < 32) : (data.setEntry k number).bytes (32 * k + l) =
      if l < 2 then byteOf number.toNat l else kernelText (l - 2) := by
    rw [Block.setEntry, overwrite_inside (by omega) (by omega), Nat.add_sub_cancel_left]
  have first := byte (l := 0) (by decide)
  rw [if_pos (by decide), Nat.add_zero] at first
  unfold entryAt kernelEntry entryInode
  rw [Entry.mk.injEq]
  constructor
  · rw [first, byte (by decide), if_pos (by decide), word_of_bytes, pow_zero, Nat.div_one, UInt16.ofNat_toNat]
  · funext l
    rw [Nat.add_assoc, byte (by omega), if_neg (by omega), Nat.add_sub_cancel_left]

/-! ## Deletion -/

/-- The old kernel has one entry at most, which refers to another inode of the table. -/
structure OneKernel (root : Inode) (t : Tool) : Prop where
  single : ∀ e e', 32 * e < root.iSize.toNat → 32 * e' < root.iSize.toNat → Live (t.fileByte root) e →
    Live (t.fileByte root) e' → e = e'
  numbers : ∀ e, 32 * e < root.iSize.toNat → Live (t.fileByte root) e →
    (entryInode (t.fileByte root) e).toNat ≠ 1 ∧ t.sb.Numbers (entryInode (t.fileByte root) e).toNat

/-- The deletion gives none of the zones of the root directory back. -/
structure OldKernel (trunc : TruncLocals) (ks : List Nat) (root : Inode) (t : Tool) : Prop
    extends OneKernel root t where
  given : ∀ e inode, 32 * e < root.iSize.toNat → Live (t.fileByte root) e →
    minixLoadInode (entryInode (t.fileByte root) e).toNat t = .ok inode t →
      ∀ s ∈ slots trunc.fb.toInt.toNat, ∀ k ∈ ks, t.slotBit inode s ≠ some k

/-- The place of the entry of the old kernel. -/
def oldEntry (root : Inode) (t : Tool) : Option Nat :=
  (List.range (32 * root.scanBlocks)).find? fun e => 32 * e < root.iSize.toNat ∧ Live (t.fileByte root) e

/-- The bits of the zones that the deletion gives back. -/
def freedBits (trunc : TruncLocals) (root : Inode) (t : Tool) : List Nat :=
  match oldEntry root t with
  | none => []
  | some e =>
    match minixLoadInode (entryInode (t.fileByte root) e).toNat t with
    | .ok inode _ => (slots trunc.fb.toInt.toNat).filterMap (t.slotBit inode)
    | .error _ _ => []

/-- The live entry is a hole then, and the others are as before. -/
structure Deleted (t : Tool) (root : Inode) (n : Nat) (dir' : Nat → Block) : Prop where
  gone : ∀ e, 32 * e < root.iSize.toNat → Live (t.fileByte root) e → entryInode (dirBytes dir') e = 0
  kept : ∀ e < 32 * n, ¬ (32 * e < root.iSize.toNat ∧ Live (t.fileByte root) e) →
    entryAt (dirBytes dir') e = entryAt (t.fileByte root) e

theorem Spread.entryAt (spread : Spread ks n dir root t) (low : e < 32 * n) :
    entryAt (t.fileByte root) e = entryAt (dirBytes dir) e :=
  entryAt_congr fun j inside => spread.fileByte (by omega)

theorem filterMap_of_map {α β : Type} {f : α → Option β} {as : List α} {bs : List β} (same : as.map f = bs.map some) :
    as.filterMap f = bs := by
  have mapped : (as.map f).filterMap id = (bs.map some).filterMap id := congrArg _ same
  rw [List.filterMap_map, List.filterMap_map] at mapped
  exact mapped.trans List.filterMap_some

/-- The deletion of an entry, seen with the zones of the root directory marked. -/
theorem deleteEntry_marks {u : Unit} (holds : Holds ks n dir root (t.mark ks)) (laid : Laid t)
    (there : ∀ k ∈ ks, (bit t.zonesMap k).isSome) (low : j < n) (way : t.zoneIn root (dataSlot j) = some z)
    (numbers : t.sb.Numbers (entryInode (dir j).bytes k).toNat) (other : (entryInode (dir j).bytes k).toNat ≠ 1)
    (ran : deleteEntry trunc z (dir j) k t = .ok u t') :
    Holds ks n (Function.update dir j ((dir j).clearEntry k)) root (t'.mark ks) ∧ Laid t' ∧ t'.sb = t.sb ∧
      ∃ inode, minixLoadInode (entryInode (dir j).bytes k).toNat t = .ok inode t ∧ ∀ l, bit t'.zonesMap l =
        if l ∈ (slots trunc.fb.toInt.toNat).filterMap (t.slotBit inode) then some false else bit t.zonesMap l := by
  obtain ⟨inode, back, table, load, -, bits, inside, reaches, there', rfl⟩ := deleteEntry_ok_iff.mp ran
  have slot {l : Nat} (mine : l ∈ back) : t.sb.sFirstdatazone.toNat + l < 2 ^ 16 ∧ (bit t.zonesMap l).isSome := by
    have mapped : some l ∈ back.map some := List.mem_map_of_mem mine
    rw [← bits] at mapped
    obtain ⟨s, -, here⟩ := List.mem_map.mp mapped
    obtain ⟨z, -, at_⟩ := slotBit_way here
    obtain ⟨sum, within⟩ := bitOf_iff.mp at_
    have wide := z.toNat_lt
    exact ⟨by omega, within⟩
  have within : ∀ l ∈ back, (bit t.zonesMap l).isSome := fun l mine => (slot mine).2
  have there₁ : ∀ l ∈ ks, (bit (t.unmark back).zonesMap l).isSome := by
    intro l mine
    rw [bit_isSome, unmark_size]
    exact bit_isSome.mp (there l mine)
  have unmarked : Holds ks n dir root ((t.unmark back).mark ks) :=
    holds.keep rfl (fun _ _ _ at_ => at_) fun l mine => by rw [bit_mark there₁, if_pos mine]
  have laid₁ : Laid (t.unmark back) := laid.unmark within fun l mine => (slot mine).1
  have laid' := laid₁.mark there₁
  have saved : minixSaveInode (entryInode (dir j).bytes k).toNat emptyInode (t.unmark back) = .ok () _ :=
    minixSaveInode_ok_iff.mpr ⟨table, there', rfl⟩
  have saved' : minixSaveInode (entryInode (dir j).bytes k).toNat emptyInode ((t.unmark back).mark ks) = .ok () _ :=
    minixSaveInode_ok_iff.mpr ⟨table, there', rfl⟩
  have holds₂ := unmarked.save laid' numbers other saved'
  have laid₂ := laid₁.save saved
  have holds₃ := holds₂.setInodesMap (unsetBit t.inodesMap (entryInode (dir j).bytes k).toNat)
  have laid₃ := laid₂.setInodesMap (size_unsetBit (t := t.inodesMap) (n := (entryInode (dir j).bytes k).toNat))
  have laid₃' := (laid'.save saved').setInodesMap
    (size_unsetBit (t := t.inodesMap) (n := (entryInode (dir j).bytes k).toNat))
  have inside' : dataSlot j ∈ slots n := mem_slots.mpr ⟨j, low, dataSlot_mem j⟩
  have way₃ := (holds.same_way holds₃.toSpread rfl inside').trans (mark_zoneIn.trans way)
  refine ⟨holds₃.rewrite laid₃' low way₃ reaches, laid₃.putBlock, rfl, inode, load, fun l => ?_⟩
  rw [filterMap_of_map bits]
  exact bit_unmark within

theorem oldEntry_some (found : oldEntry root t = some e) : 32 * e < root.iSize.toNat ∧ Live (t.fileByte root) e := by
  unfold oldEntry at found
  have here := List.find?_some found
  exact of_decide_eq_true here

theorem mem_freedBits (freed : k ∈ freedBits trunc root t) : ∃ e inode, 32 * e < root.iSize.toNat ∧
    Live (t.fileByte root) e ∧ minixLoadInode (entryInode (t.fileByte root) e).toNat t = .ok inode t ∧
      ∃ s ∈ slots trunc.fb.toInt.toNat, t.slotBit inode s = some k := by
  unfold freedBits at freed
  split at freed
  · cases freed
  next e found =>
  have here := oldEntry_some found
  split at freed
  · next inode t' load =>
    obtain ⟨rfl, -⟩ := minixLoadInode_ok_iff.mp load
    obtain ⟨s, among, same⟩ := List.mem_filterMap.mp freed
    exact ⟨e, inode, here.1, here.2, load, s, among, same⟩
  · cases freed

/-- The deletion, seen with the zones of the root directory marked. -/
theorem minixDelete_marks (holds : Holds ks n dir root (t.mark ks)) (laid : Laid t)
    (there : ∀ k ∈ ks, (bit t.zonesMap k).isSome) (length : n = root.scanBlocks) (old : OneKernel root t)
    (ran : minixDelete input root t = .ok () t') :
    (∃ dir', Holds ks n dir' root (t'.mark ks) ∧ Laid t' ∧ Deleted t root n dir') ∧ t'.sb = t.sb ∧
      (∀ k, bit t'.zonesMap k = if k ∈ freedBits input.trunc root t then some false else bit t.zonesMap k) ∧
      ((∀ e, 32 * e < root.iSize.toNat → ¬ Live (t.fileByte root) e) → t' = t) := by
  have read {e : Nat} (low : e < 32 * n) : entryAt (t.fileByte root) e = entryAt (dirBytes dir) e := by
    rw [← mark_fileByte ks]
    exact holds.entryAt low
  obtain ⟨rfl, none_⟩ | ⟨j, z, data, k, -, way, block, low, within, live, -, deleted⟩ := scanRoot_ok ran
  · have nowhere (e : Nat) (inside : 32 * e < root.iSize.toNat) : ¬ Live (t'.fileByte root) e := by
      refine none_ e (Nat.zero_le _) ?_ inside
      have covered := scanBlocks_covers inside
      omega
    refine ⟨⟨dir, holds, laid, fun e inside live => absurd live (nowhere e inside), fun e low _ => (read low).symm⟩,
      rfl, fun k => (if_neg fun freed => ?_).symm, fun _ => rfl⟩
    obtain ⟨e, -, inside, live, -⟩ := mem_freedBits freed
    exact nowhere e inside live
  · have covered := scanBlocks_covers within
    have low' : j < n := by omega
    obtain ⟨z', way', there'⟩ := holds.blocks j low'
    obtain rfl := Option.some_inj.mp (way.symm.trans (mark_zoneIn.symm.trans way'))
    obtain rfl := Option.some_inj.mp (block.symm.trans there')
    have here : Live (t.fileByte root) (32 * j + k) := (live_block way block low).mpr live
    have number : entryInode (t.fileByte root) (32 * j + k) = entryInode (dir j).bytes k := by
      rw [← entryInode_entryAt, read (by omega), entryAt_block low, entryInode_entryAt]
    have numbers := old.numbers _ within here
    rw [number] at numbers
    obtain ⟨holds', laid', sb, inode, load, bits⟩ :=
      deleteEntry_marks holds laid there low' way numbers.2 numbers.1 deleted
    have entry : oldEntry root t = some (32 * j + k) := by
      have some_ : (oldEntry root t).isSome := List.find?_isSome.mpr
        ⟨32 * j + k, List.mem_range.mpr (length ▸ by omega), decide_eq_true ⟨within, here⟩⟩
      obtain ⟨e, found⟩ := Option.isSome_iff_exists.mp some_
      have also := oldEntry_some found
      rw [found, old.single e _ also.1 within also.2 here]
    have freed : freedBits input.trunc root t = (slots input.trunc.fb.toInt.toNat).filterMap (t.slotBit inode) := by
      unfold freedBits
      rw [entry]
      dsimp only
      rw [number, load]
    rw [freed]
    refine ⟨⟨_, holds', laid', fun e inside also => ?_, fun e low₁ other => ?_⟩, sb, bits,
      fun none_ => absurd here (none_ _ within)⟩
    · obtain rfl := old.single e _ inside within also here
      rw [← entryInode_entryAt, entryAt_update_same low, entryInode_entryAt]
      exact clearEntry_hole low
    · have apart : e ≠ 32 * j + k := by
        rintro rfl
        exact other ⟨within, here⟩
      rw [Block.clearEntry, entryAt_update apart (by decide)]
      exact (read low₁).symm

/-- Where the bits of the root directory are set and none of its zones is given back, it has its zones still. -/
theorem minixDelete_holds (holds : Holds ks n dir root t) (laid : Laid t) (length : n = root.scanBlocks)
    (old : OldKernel input.trunc ks root t) (ran : minixDelete input root t = .ok () t') :
    (∃ dir', Holds ks n dir' root t' ∧ Laid t' ∧ Deleted t root n dir') ∧
      ((∀ e, 32 * e < root.iSize.toNat → ¬ Live (t.fileByte root) e) → t' = t) := by
  have marked : Holds ks n dir root (t.mark ks) := (mark_eq holds.taken).symm ▸ holds
  obtain ⟨⟨dir', holds', laid', deleted⟩, -, bits, same⟩ :=
    minixDelete_marks marked laid (fun k mine => holds.taken k mine ▸ rfl) length old.toOneKernel ran
  have taken : ∀ k ∈ ks, bit t'.zonesMap k = some true := by
    intro k mine
    rw [bits, if_neg, holds.taken k mine]
    intro freed
    obtain ⟨e, inode, inside, live, load, s, among, slot⟩ := mem_freedBits freed
    exact old.given e inode inside live load s among k mine slot
  rw [mark_eq taken] at holds'
  exact ⟨⟨dir', holds', laid', deleted⟩, same⟩

/-! ## The checks -/

/-- The first free inode from number 2 on. -/
def FirstFree (t : Tool) (i : Nat) : Prop :=
  2 ≤ i ∧ bit t.inodesMap i = some false ∧ ∀ j, 2 ≤ j → j < i → bit t.inodesMap j = some true

theorem firstFree_unique (here : FirstFree t i) (there : FirstFree t j) : i = j := by
  obtain ⟨from_, clear, below⟩ := here
  obtain ⟨from', clear', below'⟩ := there
  rcases Nat.lt_trichotomy i j with less | same | more
  · rw [below' i from_ less] at clear
    cases clear
  · exact same
  · rw [below j from' more] at clear'
    cases clear'

theorem scanInodes_ok (ran : scanInodes left i t = .ok j t') : t' = t ∧ i ≤ j ∧ j ≤ i + left ∧
    (∀ l, i ≤ l → l < j → bit t.inodesMap l = some true) ∧ (j < i + left → bit t.inodesMap j = some false) := by
  induction left generalizing i with
  | zero =>
    obtain ⟨rfl, rfl⟩ := pure_ok_iff.mp ran
    exact ⟨rfl, le_rfl, le_rfl, fun l from_ below => by omega, fun more => by omega⟩
  | succ left ih =>
    rw [scanInodes, get_bind] at ran
    obtain ⟨used, mid, got, rest⟩ := bind_ok_iff.mp ran
    obtain ⟨rfl, here⟩ := mapGetBit_ok_iff.mp got
    cases used with
    | false =>
      obtain ⟨rfl, rfl⟩ := pure_ok_iff.mp rest
      exact ⟨rfl, le_rfl, by omega, fun l from_ below => by omega, fun _ => here⟩
    | true =>
      obtain ⟨rfl, from_, upto, set_, clear⟩ := ih rest
      refine ⟨rfl, by omega, by omega, fun l from' below => ?_, fun more => clear (by omega)⟩
      rcases Nat.eq_or_lt_of_le from' with rfl | later
      · exact here
      · exact set_ l later below

theorem minixCheck_ok (some_ : 2 ≤ t.sb.sInodes.toNat) (ran : minixCheck input t = .ok i t') :
    t' = t ∧ FirstFree t i ∧ i < t.sb.sInodes.toNat := by
  have same : t' = t := (minixCheck_keeps id input).ok ran
  unfold minixCheck at ran
  rw [get_bind] at ran
  split at ran
  · cases ran
  obtain ⟨count, mid, counted, rest⟩ := bind_ok_iff.mp ran
  obtain rfl : mid = t := (countZones_keeps id _ _ _ _).ok counted
  split at rest
  · cases rest
  obtain ⟨i', mid', scanned, last⟩ := bind_ok_iff.mp rest
  obtain ⟨rfl, from_, upto, set_, clear⟩ := scanInodes_ok scanned
  split at last
  · cases last
  next other =>
  obtain ⟨rfl, -⟩ := pure_ok_iff.mp last
  exact ⟨same, ⟨from_, clear (by omega), set_⟩, by omega⟩

/-! ## The copy of the kernel -/

theorem growth_inodesMap {ss : List Slot} {given : List Nat} {x y : Inode × Tool} (grown : Growth ss given x y) :
    y.2.inodesMap = x.2.inodesMap := by
  induction grown with
  | done => rfl
  | @more s k ss ks x mid y first _ ih =>
    refine ih.trans ?_
    obtain ⟨-, placed⟩ := grows_iff.mp first
    cases s with
    | field i => rw [placed]; rfl
    | entry s i =>
      obtain ⟨p, data, -, -, rfl⟩ := placed
      rfl

theorem copyBlock_inodesMap {more : UInt32} (ran : copyBlock inode data more t = .ok (z, inode') t') :
    t'.inodesMap = t.inodesMap ∧ inode.fileBlocks < 519 + 512 * 512 := by
  obtain ⟨inode₁, t₁, added, -, rfl, -⟩ := copyBlock_ok_iff.mp ran
  obtain ⟨low, given, k, grown, -⟩ := minixAddFileBlock_ok_iff.mp added
  exact ⟨growth_inodesMap grown, low⟩

/-- After `j` of `rounds` rounds, the kernel has taken zones since a state in which its inode is saved as it
is now, and the root directory is as before. -/
structure Copying (ks : List Nat) (n : Nat) (dir : Nat → Block) (root : Inode) (kernel : InputFile)
    (number j : Nat) (inode : Inode) (t : Tool) : Prop where
  file : ∃ base owned zones, Holds ks n dir root base ∧ Laid base ∧ base.sb.Numbers number ∧
    (base.blockAt (base.sb.inodeBlock number)).isSome ∧ Copied base kernel.block j owned zones inode t ∧
    t.inodesMap = base.inodesMap
  size : j < fileRounds kernel.bytes.size → inode.iSize.toNat = 1024 * j

theorem copyRound_ok (ran : copyRound kernel number j inode t = .ok inode' t') : ∃ z mid,
    copyBlock inode (kernel.block j) (UInt32.ofNat (min 1024 (kernel.bytes.size - 1024 * j))) t =
      .ok (z, inode') mid ∧ minixSaveInode number inode' mid = .ok () t' := by
  unfold copyRound at ran
  dsimp only at ran
  split at ran
  · cases ran
  obtain ⟨⟨z, inode₁⟩, mid, copied, rest⟩ := bind_ok_iff.mp ran
  obtain ⟨u, mid', saved, last⟩ := bind_ok_iff.mp rest
  obtain ⟨rfl, rfl⟩ := pure_ok_iff.mp last
  exact ⟨z, mid, copied, saved⟩

theorem Copying.step (copying : Copying ks n dir root kernel number j inode t) (other : number ≠ 1)
    (within : j < fileRounds kernel.bytes.size) (ran : copyRound kernel number j inode t = .ok inode' t') :
    Copying ks n dir root kernel number (j + 1) inode' t' := by
  obtain ⟨base, owned, zones, holds, laid, numbers, there, copied, map⟩ := copying.file
  obtain ⟨z, mid, round, saved⟩ := copyRound_ok ran
  have size := copying.size within
  have place := fileBlocks_of_size size
  obtain ⟨map', low⟩ := copyBlock_inodesMap round
  rw [place] at low
  obtain ⟨⟨owned', copied'⟩, grown⟩ := copied.step low place round
  have apart : ∀ y ∈ owned', base.sb.zone y.2 ≠ base.sb.inodeBlock number := fun y mine =>
    zone_apart laid.fits numbers
      (laid.clear y.2 (mem_clearBits.mpr ⟨copied'.owns.small y mine, copied'.owns.free y mine⟩))
  obtain ⟨data, at_, rfl⟩ := minixSaveInode_ok_iff.mp saved
  obtain ⟨old, here⟩ := Option.isSome_iff_exists.mp there
  rw [copied'.owns.sb] at at_ ⊢
  -- The block of the table holds at the base what it holds now.
  obtain rfl : old = data := Option.some_inj.mp ((copied'.owns.blockAt_outside apart here).symm.trans at_)
  have savedBase : minixSaveInode number inode' base = .ok () _ := minixSaveInode_ok_iff.mpr ⟨old, here, rfl⟩
  have there' : ((base.putBlock (base.sb.inodeBlock number) (old.setInode (inodeSlot number) inode')).blockAt
      (base.sb.inodeBlock number)).isSome := by
    rw [blockAt_putBlock_same (reaches_of_blockAt here)]
    rfl
  refine ⟨⟨_, owned', _, holds.save laid numbers other savedBase, laid.save savedBase, numbers, there',
    copied'.beside (by omega) apart there, map'.trans map⟩, fun more => ?_⟩
  have full : min 1024 (kernel.bytes.size - 1024 * j) = 1024 := by
    unfold fileRounds at more
    omega
  rw [grown, full, UInt32.toNat_add, size]
  change (1024 * j + 1024) % 2 ^ 32 = _
  omega

theorem copying_start (holds : Holds ks n dir root t) (laid : Laid t) (numbers : t.sb.Numbers number)
    (there : (t.blockAt (t.sb.inodeBlock number)).isSome) (empty : inode.iSize = 0) :
    Copying ks n dir root kernel number 0 inode t :=
  ⟨⟨t, [], [], holds, laid, numbers, there, ⟨owns_nothing, rfl, rfl, fun j within => absurd within j.not_lt_zero⟩, rfl⟩,
    fun _ => by rw [empty]; rfl⟩

theorem Copying.holds (copying : Copying ks n dir root kernel number j inode t) : Holds ks n dir root t ∧ Laid t := by
  obtain ⟨base, owned, zones, holds, laid, -, -, copied, map⟩ := copying.file
  exact ⟨holds.owns laid copied.owns, laid.owns copied.owns map⟩

/-- The copy keeps the root directory. -/
theorem copyRounds_hold (holds : Holds ks n dir root t) (laid : Laid t) (numbers : t.sb.Numbers number)
    (other : number ≠ 1) (there : (t.blockAt (t.sb.inodeBlock number)).isSome) (empty : inode.iSize = 0)
    (ran : upTo (copyRound kernel number) (fileRounds kernel.bytes.size) inode t = .ok inode' t') :
    Holds ks n dir root t' ∧ Laid t' := by
  have copying := upTo_invariant (fun j => Copying ks n dir root kernel number j)
    (copying_start holds laid numbers there empty)
    (fun j within c mid c' mid' copying round => copying.step other within round) ran
  exact copying.holds

/-! ## The entry of the new kernel -/

/-- The entry is in slot `h`: the first hole of the blocks, or the first slot of a further block. -/
structure Placed (number : UInt16) (n : Nat) (dir dir' : Nat → Block) (h : Nat) : Prop where
  full : ∀ e < h, entryInode (dirBytes dir) e ≠ 0
  hole : h < 32 * n ∧ entryInode (dirBytes dir) h = 0 ∨ h = 32 * n
  new : entryAt (dirBytes dir') h = kernelEntry number
  kept : ∀ e < 32 * n, e ≠ h → entryAt (dirBytes dir') e = entryAt (dirBytes dir) e

theorem scanHoles_eq : scanHoles data left i = (List.range' i left).find? fun k => entryInode data.bytes k = 0 := by
  induction left generalizing i with
  | zero => rfl
  | succ left ih =>
    rw [scanHoles, List.range'_succ, List.find?_cons, ih]
    by_cases hole : entryInode data.bytes i = 0
    · rw [if_pos hole, decide_eq_true hole]
    · rw [if_neg hole, decide_eq_false hole]

theorem scanHoles_some (found : scanHoles data left i = some k) :
    i ≤ k ∧ k < i + left ∧ entryInode data.bytes k = 0 ∧ ∀ e, i ≤ e → e < k → entryInode data.bytes e ≠ 0 := by
  rw [scanHoles_eq, List.find?_range'_eq_some] at found
  obtain ⟨hole, inside, full⟩ := found
  obtain ⟨from_, upto⟩ := List.mem_range'_1.mp inside
  exact ⟨from_, upto, of_decide_eq_true hole, fun e from' below => by simpa using full e from' below⟩

theorem scanHoles_none (none_ : scanHoles data left i = none) (from_ : i ≤ e) (upto : e < i + left) :
    entryInode data.bytes e ≠ 0 := by
  rw [scanHoles_eq, List.find?_range'_eq_none] at none_
  simpa using none_ e from_ upto

/-- The scan fills the first hole that it finds; where there is none it changes nothing. -/
theorem insertEntry_ok {number : UInt16} {buffer : Block} {r : Option Block} (spread : Spread ks n dir root t)
    (length : i + left = n) (ran : insertEntry number root left i buffer t = .ok r t') :
    (t' = t ∧ (∃ data, r = some data) ∧ ∀ e, 32 * i ≤ e → e < 32 * n → entryInode (dirBytes dir) e ≠ 0) ∨
      r = none ∧ ∃ j z k, j < n ∧ k < 32 ∧ entryInode (dirBytes dir) (32 * j + k) = 0 ∧
        (∀ e, 32 * i ≤ e → e < 32 * j + k → entryInode (dirBytes dir) e ≠ 0) ∧
        t.zoneIn root (dataSlot j) = some z ∧ t.Reaches z ∧
        (if root.iSize.toNat ≤ 1024 * j + 32 * k then minixSaveInode 1 { root with iSize := root.iSize + 32 }
          else pure ()) (t.putBlock z ((dir j).setEntry k number)) = .ok () t' := by
  induction left generalizing i buffer with
  | zero =>
    obtain ⟨rfl, rfl⟩ := pure_ok_iff.mp ran
    exact .inl ⟨rfl, ⟨_, rfl⟩, fun e from_ upto => by omega⟩
  | succ left ih =>
    obtain ⟨z, data, way, there, rest⟩ := block_loaded ran
    obtain ⟨z', way', there'⟩ := spread.blocks i (by omega)
    obtain rfl := Option.some_inj.mp (way.symm.trans way')
    obtain rfl := Option.some_inj.mp (there.symm.trans there')
    have block {k : Nat} (low : k < 32) : entryInode (dirBytes dir) (32 * i + k) = entryInode (dir i).bytes k :=
      congrArg Entry.number (entryAt_block low)
    cases scan : scanHoles (dir i) 32 0 with
    | some k =>
      rw [scan] at rest
      obtain ⟨-, low, hole, full⟩ := scanHoles_some scan
      obtain ⟨u, mid₁, stored, saved⟩ := bind_ok_iff.mp rest
      obtain ⟨reaches, rfl⟩ := minixStoreBlock_ok_iff.mp stored
      have resized : r = none ∧ (if root.iSize.toNat ≤ 1024 * i + 32 * k then
          minixSaveInode 1 { root with iSize := root.iSize + 32 } else pure ())
            (t.putBlock z ((dir i).setEntry k number)) = .ok () t' := by
        split at saved
        · next past =>
          obtain ⟨u', mid₂, resized, last⟩ := bind_ok_iff.mp saved
          obtain ⟨rfl, rfl⟩ := pure_ok_iff.mp last
          rw [if_pos past]
          exact ⟨rfl, resized⟩
        · next inside =>
          obtain ⟨rfl, rfl⟩ := pure_ok_iff.mp saved
          rw [if_neg inside]
          exact ⟨rfl, rfl⟩
      refine .inr ⟨resized.1, i, z, k, by omega, by omega, (block (by omega)).trans hole, fun e from_ below => ?_, way,
        reaches, resized.2⟩
      rw [show e = 32 * i + (e - 32 * i) by omega, block (by omega)]
      exact full _ (Nat.zero_le _) (by omega)
    | none =>
      rw [scan] at rest
      have here (e : Nat) (from_ : 32 * i ≤ e) (upto : e < 32 * (i + 1)) : entryInode (dirBytes dir) e ≠ 0 := by
        rw [show e = 32 * i + (e - 32 * i) by omega, block (by omega)]
        exact scanHoles_none scan (Nat.zero_le _) (by omega)
      obtain ⟨same, some_, full⟩ | ⟨none_, j, z', k, low, small, hole, full, rest⟩ := ih (by omega) rest
      · refine .inl ⟨same, some_, fun e from_ upto => ?_⟩
        by_cases first : e < 32 * (i + 1)
        · exact here e from_ first
        · exact full e (by omega) upto
      · refine .inr ⟨none_, j, z', k, low, small, hole, fun e from_ upto => ?_, rest⟩
        by_cases first : e < 32 * (i + 1)
        · exact here e from_ first
        · exact full e (by omega) upto

/-- The inode of the root directory afterwards. -/
def Resized (root root' : Inode) (h : Nat) : Prop :=
  root'.iSize = if 32 * h < root.iSize.toNat then root.iSize else root.iSize + 32

theorem Spread.resize {size : UInt32} (spread : Spread ks n dir root t) :
    Spread ks n dir { root with iSize := size } t where
  ways := by
    rw [← spread.ways]
    exact List.map_congr_left fun s _ => zoneIn_resize
  blocks := fun j low => by
    obtain ⟨z, way, there⟩ := spread.blocks j low
    exact ⟨z, zoneIn_resize.trans way, there⟩
  within := spread.within
  apart := spread.apart
  taken := spread.taken
  few := spread.few

/-- The directory of `n` blocks has the entry of the new kernel, in a slot within its blocks. -/
def Linked (number : UInt16) (n : Nat) (dir : Nat → Block) (root : Inode) (t : Tool) : Prop :=
  ∃ h ks' n' dir' root', Holds ks' n' dir' root' t ∧ Placed number n dir dir' h ∧ Resized root root' h ∧
    n ≤ n' ∧ h < 32 * n'

/-- The entry goes into a hole. -/
theorem fill_ok {number : UInt16} (holds : Holds ks n dir root t) (laid : Laid t) (low : j < n) (small : k < 32)
    (hole : entryInode (dirBytes dir) (32 * j + k) = 0)
    (full : ∀ e < 32 * j + k, entryInode (dirBytes dir) e ≠ 0)
    (way : t.zoneIn root (dataSlot j) = some z) (reaches : t.Reaches z)
    (ran : (if root.iSize.toNat ≤ 1024 * j + 32 * k then minixSaveInode 1 { root with iSize := root.iSize + 32 }
      else pure ()) (t.putBlock z ((dir j).setEntry k number)) = .ok () t') :
    Linked number n dir root t' ∧ Laid t' := by
  have placed : Placed number n dir (Function.update dir j ((dir j).setEntry k number)) (32 * j + k) := by
    refine ⟨full, .inl ⟨by omega, hole⟩, ?_, fun e _ other => entryAt_update other le_rfl⟩
    rw [entryAt_update_same small, entryAt_setEntry small]
  have written : Holds ks n (Function.update dir j ((dir j).setEntry k number)) root
      (t.putBlock z ((dir j).setEntry k number)) := holds.rewrite laid low way reaches
  have laid' : Laid (t.putBlock z ((dir j).setEntry k number)) := laid.putBlock
  split at ran
  · next past =>
    have resized : Resized root { root with iSize := root.iSize + 32 } (32 * j + k) := (if_neg (by omega)).symm
    exact ⟨⟨_, ks, n, _, _, written.resize.saved laid' ran, placed, resized, le_rfl, by omega⟩, laid'.save ran⟩
  · next inside =>
    obtain ⟨-, rfl⟩ := pure_ok_iff.mp ran
    have resized : Resized root root (32 * j + k) := (if_pos (by omega)).symm
    exact ⟨⟨_, ks, n, _, root, written, placed, resized, le_rfl, by omega⟩, laid'⟩

theorem fileBlocks_eq (some_ : 0 < root.iSize.toNat) : root.fileBlocks = root.scanBlocks := by
  have size : (root.iSize - 1).toNat = root.iSize.toNat - 1 :=
    UInt32.toNat_sub_of_le _ _ (UInt32.le_iff_toNat_le.mpr some_)
  have whole : root.iSize % 1024 = 0 ↔ root.iSize.toNat % 1024 = 0 := by
    rw [← UInt32.toNat_inj, UInt32.toNat_mod]
    rfl
  unfold Inode.fileBlocks Inode.scanBlocks
  rw [UInt32.toNat_div, UInt32.toNat_div, size, show (1024 : UInt32).toNat = 1024 from rfl]
  by_cases rest : root.iSize.toNat % 1024 = 0
  · rw [if_neg (not_not.mpr (whole.mpr rest))]
    omega
  · rw [if_pos fun none_ => rest (whole.mp none_)]
    omega

/-- The entry goes into a further block. -/
theorem append_ok {number : UInt16} {buffer : Block} (holds : Holds ks n dir root t) (laid : Laid t)
    (length : root.fileBlocks = n) (size : root.iSize.toNat ≤ 1024 * n)
    (full : ∀ e < 32 * n, entryInode (dirBytes dir) e ≠ 0)
    (ran : appendEntry number root buffer t = .ok () t') :
    Linked number n dir root t' ∧ Laid t' := by
  obtain ⟨⟨z, root₁⟩, t₁, added, rest⟩ := bind_ok_iff.mp ran
  obtain ⟨u, t₂, stored, saved⟩ := bind_ok_iff.mp rest
  obtain ⟨reaches, rfl⟩ := minixStoreBlock_ok_iff.mp stored
  have round : copyBlock root (buffer.setEntry 0 number) 32 t =
      .ok (z, { root₁ with iSize := root₁.iSize + 32 }) (t₁.putBlock z (buffer.setEntry 0 number)) :=
    copyBlock_ok_iff.mpr ⟨root₁, t₁, added, reaches, rfl, rfl⟩
  obtain ⟨map, low⟩ := copyBlock_inodesMap round
  rw [length] at low
  obtain ⟨zones, copied⟩ := holds.toSpread.copied
  have there : ∀ k ∈ ks, (bit t.zonesMap k).isSome := fun k mine => holds.taken k mine ▸ rfl
  have before : Laid (t.unmark ks) := laid.unmark there fun k mine => (holds.within k mine).2
  have same : ∀ j < n, dir j = Function.update dir n (buffer.setEntry 0 number) j := fun j inside => by
    rw [Function.update_of_ne (by omega)]
  have block : Function.update dir n (buffer.setEntry 0 number) n = buffer.setEntry 0 number := Function.update_self ..
  rw [← block] at round
  obtain ⟨⟨owned, copied'⟩, grown⟩ := (copied.congr same).step low length round
  rw [block] at copied'
  have spread := copied'.spread (fun x mine => before.clear x.2 (mem_clearBits.mpr
    ⟨copied'.owns.small x mine, copied'.owns.free x mine⟩)) (by omega)
  have laid' := before.owns copied'.owns map
  refine ⟨⟨32 * n, _, n + 1, _, _, spread.saved laid' saved, ⟨full, .inr rfl, ?_, fun e below _ => ?_⟩, ?_,
    by omega, by omega⟩, laid'.save saved⟩
  · rw [← Nat.add_zero (32 * n), entryAt_update_same (by decide), entryAt_setEntry (by decide)]
  · rw [show e = 32 * (e / 32) + e % 32 by omega, entryAt_block (by omega), entryAt_block (by omega),
      Function.update_of_ne (by omega)]
  · exact grown.trans (if_neg (by omega)).symm

theorem linkKernel_ok {number : UInt16} {buffer : Block} (holds : Holds ks n dir root t) (laid : Laid t)
    (length : n = root.scanBlocks) (some_ : 0 < root.iSize.toNat) (ran : linkKernel number buffer t = .ok () t') :
    Linked number n dir root t' ∧ Laid t' := by
  unfold linkKernel at ran
  rw [bind_of_ok holds.loads] at ran
  obtain ⟨r, mid, inserted, rest⟩ := bind_ok_iff.mp ran
  rw [← length] at inserted
  obtain ⟨rfl, ⟨data, rfl⟩, full⟩ | ⟨rfl, j, z, k, low, small, hole, full, way, reaches, stored⟩ :=
    insertEntry_ok holds.toSpread (Nat.zero_add n) inserted
  · have size : root.iSize.toNat ≤ 1024 * n := by
      by_contra more
      have covered : 32 * n < 32 * root.scanBlocks := scanBlocks_covers (by omega)
      omega
    exact append_ok holds laid ((fileBlocks_eq some_).trans length.symm) size
      (fun e below => full e (Nat.zero_le _) below) rest
  · obtain ⟨-, rfl⟩ := pure_ok_iff.mp rest
    exact fill_ok holds laid low small hole (fun e below => full e (Nat.zero_le _) below) way reaches stored

theorem setInodeBit_ok {u : Unit} (ran : setInodeBit i t = .ok u t') :
    t' = { t with inodesMap := setBit t.inodesMap i } := by
  unfold setInodeBit at ran
  rw [get_bind] at ran
  cases here : bit t.inodesMap i with
  | none =>
    rw [here] at ran
    cases ran
  | some used =>
    rw [here] at ran
    cases ran
    rfl

/-- What the last part of the command makes of the root directory. -/
theorem minixInstall_ok (holds : Holds ks n dir root t) (laid : Laid t) (length : n = root.scanBlocks)
    (some_ : 0 < root.iSize.toNat) (numbers : t.sb.Numbers i) (other : i ≠ 1)
    (ran : minixInstall input i t = .ok () t') : Linked (UInt16.ofNat i) n dir root t' := by
  unfold minixInstall at ran
  obtain ⟨u₁, t₁, marked, rest₁⟩ := bind_ok_iff.mp ran
  obtain rfl := setInodeBit_ok marked
  obtain ⟨u₂, t₂, saved, rest₂⟩ := bind_ok_iff.mp rest₁
  split at rest₂
  · cases rest₂
  obtain ⟨inode, t₃, copied, rest₃⟩ := bind_ok_iff.mp rest₂
  obtain ⟨u₄, t₄, linked, rest₄⟩ := bind_ok_iff.mp rest₃
  have holds₁ := holds.setInodesMap (setBit t.inodesMap i)
  have laid₁ := laid.setInodesMap (size_setBit (t := t.inodesMap) (n := i))
  have holds₂ := holds₁.save laid₁ numbers other saved
  have laid₂ := laid₁.save saved
  obtain ⟨data, there, same⟩ := minixSaveInode_ok_iff.mp saved
  have sb : t₂.sb = t.sb := by rw [same]; rfl
  have there₂ : (t₂.blockAt (t₂.sb.inodeBlock i)).isSome := by
    rw [sb, same]
    exact blockAt_putBlock_same (reaches_of_blockAt there) ▸ rfl
  obtain ⟨holds₃, laid₃⟩ := copyRounds_hold holds₂ laid₂ (sb ▸ numbers) other there₂ rfl copied
  obtain ⟨⟨h, ks', n', dir', root', holds₄, placed⟩, laid₄⟩ := linkKernel_ok holds₃ laid₃ length some_ linked
  exact ⟨h, ks', n', dir', root', holds₄.saveMaps laid₄ rest₄, placed⟩

/-! ## The directory before and after -/

/-- The entries of the root directory are those in `old`, but for the one of the kernel, and one of a kernel
with inode `i`. -/
def KernelListed (old : List Entry) (i : Nat) (t : Tool) : Prop :=
  ∃ root, minixLoadInode 1 t = .ok root t ∧ ∃ entry : Entry, entry.number.toNat = i ∧ entry.IsKernel ∧
    (entries (t.fileByte root) root.iSize.toNat).Perm (entry :: old.filter fun entry => ¬ entry.IsKernel)

/-- There is a hole below the size, or an old kernel to make one; or the directory fills its last block; or the
slot behind its last entry is a hole, or holds the entry of a kernel with the number of the next free inode. -/
def SlotAtEnd (t : Tool) (dir : Nat → UInt8) (size : Nat) : Prop :=
  (∃ e, 32 * e < size ∧ (entryInode dir e = 0 ∨ Live dir e)) ∨ size % 1024 = 0 ∨ entryInode dir (size / 32) = 0 ∨
    (FirstFree t (entryInode dir (size / 32)).toNat ∧ Named dir (size / 32))

theorem Holds.kernelListed_iff {old : List Entry} (holds : Holds ks n dir root t) : KernelListed old i t ↔
    ∃ entry : Entry, entry.number.toNat = i ∧ entry.IsKernel ∧
      (entries (t.fileByte root) root.iSize.toNat).Perm (entry :: old.filter fun entry => ¬ entry.IsKernel) := by
  constructor
  · rintro ⟨root', loads, listed⟩
    obtain ⟨rfl, -⟩ := EStateM.Result.ok.inj (holds.loads.symm.trans loads)
    exact listed
  · exact fun listed => ⟨root, holds.loads, listed⟩

/-- The holes behind the deletion are those that were there and the entry of the old kernel. -/
theorem Deleted.hole_at (deleted : Deleted t root n dir) (low : e < 32 * n) : entryInode (dirBytes dir) e = 0 ↔
    entryInode (t.fileByte root) e = 0 ∨ 32 * e < root.iSize.toNat ∧ Live (t.fileByte root) e := by
  by_cases live : 32 * e < root.iSize.toNat ∧ Live (t.fileByte root) e
  · exact iff_of_true (deleted.gone e live.1 live.2) (.inr live)
  · have kept := congrArg Entry.number (deleted.kept e low live)
    rw [entryInode_entryAt, entryInode_entryAt] at kept
    rw [kept]
    exact (or_iff_left live).symm

theorem Deleted.hole_iff {s : Nat} (deleted : Deleted t root n dir) (size : root.iSize.toNat = 32 * s)
    (fits : s ≤ 32 * n) : (∃ e < s, entryInode (dirBytes dir) e = 0) ↔
      ∃ e, 32 * e < root.iSize.toNat ∧ (entryInode (t.fileByte root) e = 0 ∨ Live (t.fileByte root) e) := by
  constructor
  · rintro ⟨e, low, hole⟩
    exact ⟨e, by omega, ((deleted.hole_at (by omega)).mp hole).imp_right And.right⟩
  · rintro ⟨e, low, either⟩
    exact ⟨e, by omega, (deleted.hole_at (by omega)).mpr (either.imp_right fun live => ⟨low, live⟩)⟩

/-- Seen from the entries that are left when the old kernel is gone. -/
theorem linked_listed_iff {s : Nat} {old : List Entry} (linked : Linked (UInt16.ofNat i) n dir root t)
    (small : i < 2 ^ 16) (some_ : i ≠ 0) (size : root.iSize.toNat = 32 * s) (fits : s ≤ 32 * n)
    (bound : n ≤ 519 + 512 * 512)
    (left_ : entries (dirBytes dir) (32 * s) = old.filter fun entry => ¬ entry.IsKernel) :
    KernelListed old i t ↔ (∃ e < s, entryInode (dirBytes dir) e = 0) ∨ s = 32 * n ∨
      entryInode (dirBytes dir) s = 0 ∨ ((entryInode (dirBytes dir) s).toNat = i ∧ Named (dirBytes dir) s) := by
  obtain ⟨h, ks', n', dir', root', holds, placed, resized, more, within⟩ := linked
  have number : (UInt16.ofNat i).toNat = i := by
    rw [UInt16.toNat_ofNat']
    exact Nat.mod_eq_of_lt small
  have new : entryInode (dirBytes dir') h = UInt16.ofNat i := congrArg Entry.number placed.new
  have nonzero : UInt16.ofNat i ≠ 0 := by
    intro zero
    rw [zero] at number
    exact some_ number.symm
  have read {m : Nat} (low : m ≤ 32 * n') : entries (t.fileByte root') (32 * m) = entries (dirBytes dir') (32 * m) :=
    entries_congr fun e below => holds.entryAt (by omega)
  rw [holds.kernelListed_iff, ← left_]
  by_cases below : h < s
  · -- The slot is a hole below the size, and the size stays.
    have hole : entryInode (dirBytes dir) h = 0 := by
      rcases placed.hole with ⟨-, hole⟩ | last
      · exact hole
      · omega
    have same : root'.iSize = root.iSize := resized.trans (if_pos (by omega))
    rw [same, size, read (by omega)]
    refine iff_of_true ⟨kernelEntry (UInt16.ofNat i), number, kernelEntry_isKernel, ?_⟩ (.inl ⟨h, below, hole⟩)
    rw [← placed.new]
    exact entries_filled below hole (new ▸ nonzero) fun e low other => placed.kept e (by omega) other
  · have grown : root'.iSize.toNat = 32 * (s + 1) := by
      rw [resized, if_neg (by omega), UInt32.toNat_add, size]
      change (32 * s + 32) % 2 ^ 32 = _
      omega
    have before : entries (dirBytes dir') (32 * s) = entries (dirBytes dir) (32 * s) :=
      entries_congr fun e low => placed.kept e (by omega) (by omega)
    have last : entryInode (dirBytes dir') s ≠ 0 := by
      by_cases here : h = s
      · rw [← here, new]
        exact nonzero
      · have low : s < 32 * n := by
          rcases placed.hole with ⟨low, -⟩ | last <;> omega
        have same := congrArg Entry.number (placed.kept s low fun same => here same.symm)
        rw [entryInode_entryAt, entryInode_entryAt] at same
        rw [same]
        exact placed.full s (by omega)
    rw [grown, read (by omega), entries_succ, if_neg last, before]
    simp only [snoc_perm_cons]
    by_cases here : h = s
    · -- The slot is the one behind the last entry.
      subst here
      refine iff_of_true ⟨_, number, kernelEntry_isKernel, placed.new⟩ ?_
      rcases placed.hole with ⟨-, hole⟩ | full
      · exact .inr (.inr (.inl hole))
      · exact .inr (.inl full)
    · -- The slot lies further on, and the size takes in what is there already.
      have low : s < 32 * n := by
        rcases placed.hole with ⟨low, -⟩ | last <;> omega
      have full := placed.full
      rw [placed.kept s low fun same => here same.symm]
      constructor
      · rintro ⟨entry, same, kernel, rfl⟩
        exact .inr (.inr (.inr ⟨same, isKernel_entryAt.mp kernel⟩))
      · rintro (⟨e, less, hole⟩ | last | hole | ⟨same, named⟩)
        · exact absurd hole (full e (by omega))
        · omega
        · exact absurd hole (full s (by omega))
        · exact ⟨_, same, isKernel_entryAt.mpr named, rfl⟩

theorem readMap_size {name : String} {malloced : Bool} {blocks : UInt16} {map : Table}
    (ran : readMap name malloced m blocks t = .ok map t') : map.size = blocks.toNat * minixBlockSize := by
  unfold readMap at ran
  split at ran
  · cases ran
  obtain ⟨off, mid, -, rest⟩ := bind_ok_iff.mp ran
  rw [get_bind] at rest
  cases read : mid.img.readBytes off (blocks.toNat * minixBlockSize) with
  | none =>
    rw [read] at rest
    cases rest
  | some bytes =>
    rw [read] at rest
    obtain ⟨rfl, -⟩ := pure_ok_iff.mp rest
    unfold Image.readBytes at read
    split at read
    · cases read
      exact Array.size_ofFn
    · cases read

theorem minixOpen_sizes (opened : minixOpen input t = .ok root t') :
    t'.inodesMap.size = 1024 * t'.sb.sImapBlocks.toNat ∧ t'.zonesMap.size = 1024 * t'.sb.sZmapBlocks.toNat := by
  obtain ⟨-, -, mbr, sel, data, t₁, t₂, inodesMap, zonesMap, -, -, -, -, rfl, inodes, zones, rfl, -⟩ :=
    minixOpen_ok_iff.mp opened
  exact ⟨(readMap_size inodes).trans (Nat.mul_comm _ minixBlockSize),
    (readMap_size zones).trans (Nat.mul_comm _ minixBlockSize)⟩

end AtaKernel.Minix
