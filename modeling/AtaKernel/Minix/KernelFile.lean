import AtaKernel.Minix.InstallReturns

/-! The files after an install: the others are as they were, and the kernel is
there, byte by byte, under the inode number that the root directory gives. -/
namespace AtaKernel.Minix
open BitTable StateProgram

variable {t t' : Tool} {root inode : Inode} {e i n : Nat} {ks : List Nat} {dir : Nat → Block} {kernel : InputFile}
  {input : InstallInput}

/-- A file that is neither the root directory nor the old kernel. -/
structure OtherFile (trunc : TruncLocals) (root : Inode) (ks bits : List Nat) (n : Nat) (blocks : Nat → Block)
    (number : Nat) (inode : Inode) (t : Tool) : Prop extends Spread bits n blocks inode t where
  loads : minixLoadInode number t = .ok inode t
  numbers : t.sb.Numbers number
  used : bit t.inodesMap number = some true
  notRoot : number ≠ 1
  notOld : ¬ OldInode root t number
  apart_ : ∀ k ∈ bits, k ∉ ks ∧ ¬ GivenBack trunc root t k

/-- An install leaves the boot record, the boot block, the superblock and the other files as they were. -/
theorem other_files_kept {t₀ t₁ : Tool} (opened : minixOpen input t₀ = .ok root t₁) (geometry : Geometry t₁)
    (spread : Spread ks root.scanBlocks dir root t₁) (some_ : 0 < root.iSize.toNat)
    (old : OldKernel input.trunc ks root t₁) (ran : minixWrite input t₀ = .ok i t') :
    t'.sb = t₁.sb ∧ (∀ x < t₁.img.size, (x : Int) < t₁.ps.toInt + 2048 → t'.img.bytes x = t₁.img.bytes x) ∧
      ∀ bits m blocks l inode, OtherFile input.trunc root ks bits m blocks l inode t₁ →
        minixLoadInode l t' = .ok inode t' ∧ Spread bits m blocks inode t' := by
  obtain ⟨notNew, back, ks', -, given, keeps, -⟩ := minixWrite_keepsOthers opened geometry spread some_ old ran
  refine ⟨keeps.sb, keeps.front,
    fun bits m blocks l inode file => ⟨keeps.inodes l inode file.numbers ?_ file.loads, ?_⟩⟩
  · rintro (isOld | isRoot | isNew)
    · exact file.notOld isOld
    · exact file.notRoot isRoot
    · exact notNew l file.used file.notOld isNew
  · refine (keeps.spread file.toSpread fun k mine there => ?_).1
    rcases List.mem_append.mp there with mine' | theirs
    · exact (file.apart_ k mine).1 mine'
    · exact (file.apart_ k mine).2 (given k theirs)

/-- The note of the disk is such a file. -/
theorem note_other :
    OtherFile updateInput.trunc Update.tree [0] [2] 1 (fun _ => Update.block 8192) 3 Update.note Update.opened where
  ways := by decide
  blocks j low := by
    obtain rfl : j = 0 := by omega
    exact ⟨7, by decide, Update.blockAt (by decide) rfl (by decide) (by decide)⟩
  within k mine := by
    rw [List.mem_singleton.mp mine]
    decide
  apart := List.nodup_singleton 2
  taken k mine := by
    rw [List.mem_singleton.mp mine]
    exact Update.zonesMap_bit (by decide)
  few := by decide
  loads := minixLoadInode_ok_iff.mpr ⟨rfl, Update.block 5120, Update.table, rfl⟩
  numbers := ⟨by decide, by decide⟩
  used := Update.inodesMap_bit (by decide)
  notRoot := by decide
  notOld := fun old => absurd (Update.oldInode_iff.mp old) (by decide)
  apart_ k mine := by
    rw [List.mem_singleton.mp mine, Update.givenBack_iff]
    decide

theorem other_files_kept_note : ∃ t', minixWrite updateInput Update.start = .ok 2 t' ∧
    minixLoadInode 3 t' = .ok Update.note t' ∧ Spread [2] 1 (fun _ => Update.block 8192) Update.note t' := by
  obtain ⟨t', ran⟩ := Update.runs
  obtain ⟨-, -, files⟩ := other_files_kept Update.opens Update.geometry Update.spread (by decide) Update.old ran
  exact ⟨t', ran, files [2] 1 _ 3 Update.note note_other⟩

/-! ## The kernel as a file -/

/-- The tool finds every block of the file. -/
def Whole (t : Tool) (inode : Inode) : Prop :=
  ∀ b, 1024 * b < inode.iSize.toNat → ∃ z data, t.zoneIn inode (dataSlot b) = some z ∧ t.blockAt z = some data

/-- The first live entry of the root directory with the name, and the inode that it stands for. -/
structure KernelFile (t : Tool) (root : Inode) (e : Nat) (kernel : Inode) : Prop where
  directory : minixLoadInode 1 t = .ok root t
  whole : Whole t root
  entry : FirstLive (t.fileByte root) root.iSize.toNat e
  file : minixLoadInode (entryInode (t.fileByte root) e).toNat t = .ok kernel t
  fileWhole : Whole t kernel

theorem Spread.whole {blocks : Nat → Block} (spread : Spread ks n blocks inode t)
    (size : inode.iSize.toNat ≤ 1024 * n) : Whole t inode := fun b within => by
  obtain ⟨z, way, there⟩ := spread.blocks b (by omega)
  exact ⟨z, _, way, there⟩

theorem named_of_entryAt {dir₁ dir₂ : Nat → UInt8} (same : entryAt dir₁ e = entryAt dir₂ e) :
    Named dir₁ e ↔ Named dir₂ e := by
  rw [← isKernel_entryAt, same, isKernel_entryAt]

/-- The first entry with the name is the one with the inode number, if the name is on no entry below the size. -/
theorem linked_found {s : Nat} (linked : Linked (UInt16.ofNat i) n dir root t) (small : i < 2 ^ 16) (some_ : i ≠ 0)
    (size : root.iSize.toNat = 32 * s) (fits : s ≤ 32 * n) (bound : n ≤ 519 + 512 * 512)
    (unnamed : ∀ e < s, entryInode (dirBytes dir) e ≠ 0 → ¬ Named (dirBytes dir) e)
    (slot : (∃ e < s, entryInode (dirBytes dir) e = 0) ∨ s = 32 * n ∨ entryInode (dirBytes dir) s = 0 ∨
      ((entryInode (dirBytes dir) s).toNat = i ∧ Named (dirBytes dir) s)) :
    ∃ root' e, minixLoadInode 1 t = .ok root' t ∧ Whole t root' ∧ FirstLive (t.fileByte root') root'.iSize.toNat e ∧
      (entryInode (t.fileByte root') e).toNat = i ∧ (∀ e' < e, ¬ Named (t.fileByte root') e') ∧
        root'.iSize.toNat ≤ root.iSize.toNat + 32 := by
  obtain ⟨h, ks', n', dir', root', holds, placed, resized, more, within⟩ := linked
  have number : (UInt16.ofNat i).toNat = i := by
    rw [UInt16.toNat_ofNat']
    exact Nat.mod_eq_of_lt small
  have upto : h ≤ 32 * n := by
    rcases placed.hole with ⟨low, -⟩ | last <;> omega
  have size' : root'.iSize.toNat = if h < s then 32 * s else 32 * (s + 1) := by
    rw [resized]
    split
    · next inside => rw [if_pos (by omega), size]
    · next past =>
      rw [if_neg (by omega), UInt32.toNat_add, size]
      change (32 * s + 32) % 2 ^ 32 = _
      omega
  have read {e : Nat} (low : e < 32 * n') : entryAt (t.fileByte root') e = entryAt (dirBytes dir') e :=
    holds.entryAt low
  have whole : Whole t root' := holds.whole (by rw [size']; split <;> omega)
  have bare (e : Nat) (low : e < h) (below : e < s) : ¬ Named (t.fileByte root') e := by
    rw [named_of_entryAt (read (by omega)), named_of_entryAt (placed.kept e (by omega) (by omega))]
    exact unnamed e below (placed.full e low)
  suffices there : ∃ e < s + 1, e ≤ h ∧ 32 * e < root'.iSize.toNat ∧ (entryInode (t.fileByte root') e).toNat = i ∧
      Named (t.fileByte root') e by
    obtain ⟨e, below, upto', inside, here, named⟩ := there
    refine ⟨root', e, holds.loads, whole, ⟨inside, ⟨fun zero => some_ ?_, named⟩, fun e' less live => ?_⟩, here,
      fun e' less => bare e' (by omega) (by omega), ?_⟩
    · rw [← here, zero]
      rfl
    · exact bare e' (by omega) (by omega) live.2
    · rw [size']
      split <;> omega
  have new : entryAt (t.fileByte root') h = kernelEntry (UInt16.ofNat i) := (read (by omega)).trans placed.new
  have new_ : (entryInode (t.fileByte root') h).toNat = i ∧ Named (t.fileByte root') h :=
    ⟨(congrArg (fun entry : Entry => entry.number.toNat) new).trans number,
      isKernel_entryAt.mp (new ▸ kernelEntry_isKernel)⟩
  obtain below | past : h ≤ s ∨ s < h := by omega
  · exact ⟨h, by omega, le_rfl, by rw [size']; split <;> omega, new_⟩
  · -- The slot lies further on, so the entry behind the last one is that of a kernel already.
    have full := placed.full
    rcases slot with ⟨e, less, hole⟩ | last | hole | ⟨same, named⟩
    · exact absurd hole (full e (by omega))
    · omega
    · exact absurd hole (full s past)
    · have kept : entryAt (t.fileByte root') s = entryAt (dirBytes dir) s :=
        (read (by omega)).trans (placed.kept s (by omega) (by omega))
      refine ⟨s, by omega, past.le, by rw [size', if_neg (by omega)]; omega, ?_, (named_of_entryAt kept).mpr named⟩
      rw [← entryInode_entryAt, kept]
      exact same

theorem inputBlock_byte {x : Nat} (low : x < kernel.bytes.size) : dirBytes kernel.block x = kernel.bytes[x] := by
  have inside : x % 1024 < 1024 := Nat.mod_lt _ (by decide)
  unfold dirBytes Block.bytes InputFile.block
  rw [show (Fin.ofNat 1024 (x % 1024)).val = x % 1024 from Nat.mod_eq_of_lt inside, Nat.div_add_mod,
    Array.getD_eq_getD_getElem?, Array.getElem?_eq_getElem low]
  rfl

/-- Where the entry of the new kernel is listed, it is the first one with the name; and the file that it stands for
is the kernel, byte by byte. -/
theorem kernel_installed {t₀ t₁ : Tool} (opened : minixOpen input t₀ = .ok root t₁) (geometry : Geometry t₁)
    (spread : Spread ks root.scanBlocks dir root t₁) (some_ : 0 < root.iSize.toNat) (whole : root.iSize.toNat % 32 = 0)
    (old : OldKernel input.trunc ks root t₁) (slot : SlotAtEnd t₁ (t₁.fileByte root) root.iSize.toNat)
    (ran : minixWrite input t₀ = .ok i t') :
    ∃ root' e inode, KernelFile t' root' e inode ∧ (entryInode (t'.fileByte root') e).toNat = i ∧
      (∀ e' < e, ¬ Named (t'.fileByte root') e') ∧ root'.iSize.toNat ≤ root.iSize.toNat + 32 ∧
      inode.iSize.toNat = input.kernel.bytes.size ∧
        ∀ x, ∀ low : x < input.kernel.bytes.size, t'.fileByte inode x = input.kernel.bytes[x] := by
  obtain ⟨s, size⟩ : ∃ s, root.iSize.toNat = 32 * s := ⟨_, (Nat.mul_div_cancel' (Nat.dvd_of_mod_eq_zero whole)).symm⟩
  obtain ⟨-, back, ks', -, -, -, ⟨inode, bits, loads, length, stored, -⟩, -⟩ :=
    minixWrite_keepsOthers opened geometry spread some_ old ran
  obtain ⟨t₂, dir', -, holds, laid, deleted, same, free, below, installed⟩ :=
    minixWrite_stages opened geometry spread old ran
  have from_ : 2 ≤ i := free.1
  have many := t₂.sb.sInodes.toNat_lt
  have linked := minixInstall_ok holds laid rfl some_ ⟨by omega, by omega⟩ (by omega) installed
  have blocks : root.scanBlocks = _ := scanBlocks_eq some_
  have fits : s ≤ 32 * root.scanBlocks := by omega
  have unnamed (e : Nat) (low : e < s) (used : entryInode (dirBytes dir') e ≠ 0) : ¬ Named (dirBytes dir') e := by
    intro named
    by_cases live : Live (t₁.fileByte root) e
    · exact used (deleted.gone e (by omega) live)
    · have kept := deleted.kept e (by omega) fun both => live both.2
      refine live ⟨?_, (named_of_entryAt kept).mp named⟩
      rwa [← entryInode_entryAt, ← kept, entryInode_entryAt]
  obtain ⟨root', e, directory, whole', entry, number, first, near_⟩ :=
    linked_found linked (by omega) (by omega) size fits spread.few unnamed (by
      rw [deleted.hole_iff size fits]
      refine or_iff_not_imp_left.mpr fun none_ => ?_
      obtain hole | full | rest := slot
      · exact absurd hole none_
      · exact .inl (by omega)
      · refine or_iff_not_imp_left.mpr fun more => ?_
        -- No entry is one of a kernel, so nothing was deleted.
        obtain rfl : t₂ = t₁ := same fun e low live => none_ ⟨e, low, .inr live⟩
        have kept := deleted.kept s (by omega) fun both => absurd both.1 (by omega)
        rw [show root.iSize.toNat / 32 = s by omega] at rest
        rw [← entryInode_entryAt, kept, entryInode_entryAt, named_of_entryAt kept]
        exact rest.imp_right fun ⟨also, named⟩ => ⟨firstFree_unique also free, named⟩)
  have long : inode.iSize.toNat ≤ 1024 * fileRounds input.kernel.bytes.size := by
    unfold fileRounds
    omega
  refine ⟨root', e, inode, ⟨directory, whole', entry, number.symm ▸ loads, stored.whole long⟩, number, first,
    near_, length, fun x low => ?_⟩
  rw [stored.fileByte (by omega), inputBlock_byte low]

/-- An install that passes its checks ends with the new kernel in place: the first entry with the name stands for it,
byte by byte. -/
theorem install_succeeds {t₀ t₁ t₂ : Tool} (opened : minixOpen input t₀ = .ok root t₁) (geometry : Geometry t₁)
    (spread : Spread ks root.scanBlocks dir root t₁) (some_ : 0 < root.iSize.toNat) (whole : root.iSize.toNat % 32 = 0)
    (old : OldKernel input.trunc ks root t₁) (complete : Complete t₁)
    (deleted : minixDelete input root t₁ = .ok () t₂) (checked : minixCheck input t₂ = .ok i t₂)
    (opens : input.kernel.opens) (reads : ¬ input.kernel.ferror)
    (few : fileRounds input.kernel.bytes.size ≤ 519 + 512 * 512) (slot : SlotLeft input.kernel root t₁ t₂)
    (atEnd : SlotAtEnd t₁ (t₁.fileByte root) root.iSize.toNat) :
    ∃ t', minixWrite input t₀ = .ok i t' ∧ ∃ root' e inode, KernelFile t' root' e inode ∧
      (entryInode (t'.fileByte root') e).toNat = i ∧ inode.iSize.toNat = input.kernel.bytes.size ∧
        ∀ x, ∀ low : x < input.kernel.bytes.size, t'.fileByte inode x = input.kernel.bytes[x] := by
  obtain ⟨t', ran⟩ := install_returns opened geometry spread some_ old complete deleted checked opens reads few slot
  obtain ⟨root', e, inode, file, number, -, -, size, bytes⟩ :=
    kernel_installed opened geometry spread some_ whole old atEnd ran
  exact ⟨t', ran, root', e, inode, file, number, size, bytes⟩

theorem install_succeeds_update : ∃ t', minixWrite updateInput Update.start = .ok 2 t' ∧
    ∃ root' e inode, KernelFile t' root' e inode ∧ (entryInode (t'.fileByte root') e).toNat = 2 ∧
      inode.iSize.toNat = 1 ∧
      ∀ x, ∀ low : x < updateInput.kernel.bytes.size, t'.fileByte inode x = updateInput.kernel.bytes[x] := by
  obtain ⟨mid, deleted, sb, zones, inodes⟩ := Update.deletes
  have live : Live (Update.opened.fileByte Update.tree) 2 := (Update.live_iff (by decide)).mpr rfl
  exact install_succeeds Update.opens Update.geometry Update.spread (by decide) (by decide) Update.old
    Update.complete deleted
    (Update.checks sb zones inodes) rfl Bool.false_ne_true (by decide) (.inl ⟨2, by decide, .inr ⟨by decide, live⟩⟩)
    (.inl ⟨2, by decide, .inr live⟩)

end AtaKernel.Minix
