import AtaKernel.Boot.MasterBoot
import AtaKernel.Minix.MbrWrite

/-! A disk as it is built: `mbr` writes the table and the first boot program, a file system
is made in a partition, `boot` puts the second boot program in front of it, and `kernel`
the kernel into it. The three commands and the two boot programs know of each other
by what is on the disk alone. -/
namespace AtaKernel.Boot
open ByteMemory StateProgram Minix

variable {σ : Type} {int13 int10 : Machine σ → Machine σ} {layout : MbrLayout} {drive : UInt8}
  {readable : UInt32 → UInt16 → Prop} {m : Machine σ} {img img' img₀ img₁ img₂ : Image} {t' t₀ t₁ : Tool} {root : Inode}
  {kernelStr : UInt16} {i : Nat} {ks : List Nat} {dir : Nat → Block} {input : InstallInput} {base boot : InputFile}
  {args : List (List Char)} {diskOpens diskOpens' : Bool} {lba : UInt32} {u : Unit}

/-! ## The command `boot` -/

/-- Without an argument `boot` writes to the first active partition. -/
theorem bootloaderWrite_active (ran : bootloaderWrite diskOpens boot none img = .ok u img') :
    ∃ mbr sel, img.mbr = some mbr ∧ FirstActive mbr sel ∧
      img' = img.writeBytes (lba2Off (mbr sel).lbaStart).toNat (bootBytes boot.bytes (mbr sel).lbaStart) := by
  cases diskOpens with
  | false => cases ran
  | true =>
  cases read : img.mbr with
  | none =>
    unfold bootloaderWrite at ran
    rw [if_neg (fun closed => closed rfl), get_bind, read] at ran
    cases ran
  | some mbr =>
    obtain ⟨sel, -, active, before, -⟩ | ⟨none_, -⟩ := scans_stop mbr 0 (show 0 + 4 = 4 from rfl)
    · have first : FirstActive mbr sel := ⟨active, fun j low => before j low (Nat.zero_le _)⟩
      rw [bootloaderWrite_selected read (bootloaderPartno_active first)] at ran
      obtain written | ⟨message, stopped⟩ := bootloaderStore_cases boot (mbr sel) img
      · rw [written] at ran
        exact ⟨mbr, sel, rfl, first, (EStateM.Result.ok.inj ran).2.symm⟩
      · rw [stopped] at ran
        cases ran
    · unfold bootloaderWrite at ran
      rw [if_neg (fun closed => closed rfl), get_bind, read] at ran
      dsimp only at ran
      rw [bootloaderPartno_none fun k => none_ k (Nat.zero_le _)] at ran
      cases ran

/-- The file of the boot program has the name that it looks for behind its first field. -/
structure BootFile (kernelStr : UInt16) (boot : InputFile) : Prop where
  above : 0xa06 ≤ kernelStr.toNat
  below : kernelStr.toNat + 7 ≤ 0xc00
  size : kernelStr.toNat - 0xa00 + 7 ≤ boot.bytes.size
  text : ∀ k < 7, boot.bytes.getD (kernelStr.toNat - 0xa00 + k) 0 = kernelText k

theorem bootBytes_at {j : Nat} (low : j < 1024) (within : j < boot.bytes.size) : (bootBytes boot.bytes lba).getD j 0 =
    if 2 ≤ j ∧ j < 6 then byteOf lba.toNat (j - 2) else boot.bytes.getD j 0 := by
  simp [bootBytes, byteOf, low, within]

theorem BootFile.onDisk (file : BootFile kernelStr boot) (near_ : lba.toNat < 2 ^ 22) (img : Image) :
    OnDisk kernelStr (img.writeBytes (lba2Off lba).toNat (bootBytes boot.bytes lba)).bytes lba := by
  have above := file.above
  have below := file.below
  have size := file.size
  have start : (lba2Off lba).toNat = 512 * lba.toNat := by rw [lba2Off_toNat, Nat.mod_eq_of_lt (by omega)]
  have byte {j : Nat} (low : j < 1024) (within : j < boot.bytes.size) :
      (img.writeBytes (lba2Off lba).toNat (bootBytes boot.bytes lba)).bytes (512 * lba.toNat + j) =
        if 2 ≤ j ∧ j < 6 then byteOf lba.toNat (j - 2) else boot.bytes.getD j 0 := by
    rw [writeBytes_within (by rw [bootBytes_size, start]; omega), start, Nat.add_sub_cancel_left,
      bootBytes_at low within]
  refine ⟨fun k low => ?_, by omega, below, fun k low => ?_⟩
  · rw [byte (by omega) (by omega), if_pos (by omega), Nat.add_sub_cancel_left]
  · rw [byte (by omega) (by omega), if_neg (by omega)]
    exact file.text k low

/-! ## From the commands to the kernel -/

/-- A disk that the three commands have written, with a file system in the first active partition that is laid out as
the install needs it, brings a machine from power on to the kernel that was installed: the boot record starts that
partition, and what starts there loads the bytes of the file and calls them. -/
theorem built_disk_boots (partitioned : mbrWrite diskOpens base args img₀ = .ok u img₁)
    (formatted : ∀ x < 512, img₂.bytes x = img₁.bytes x)
    (booted : bootloaderWrite diskOpens' boot none img₂ = .ok u t₀.img) (has : HasPacket layout base.sector)
    (file : BootFile kernelStr boot)
    (places : ∀ j : Fin 4, (img₁.mbrEntry j).Active →
      0 < (img₁.mbrEntry j).lbaStart.toNat ∧ (img₁.mbrEntry j).lbaStart.toNat < 2 ^ 22)
    (opened : minixOpen input t₀ = .ok root t₁) (geometry : Geometry t₁)
    (spread : Spread ks root.scanBlocks dir root t₁) (some_ : 0 < root.iSize.toNat) (whole : root.iSize.toNat % 32 = 0)
    (old : OldKernel input.trunc ks root t₁) (atEnd : SlotAtEnd t₁ (t₁.fileByte root) root.iSize.toNat)
    (ran : minixWrite input t₀ = .ok i t') (none_ : input.partno = none)
    (rootSize : root.iSize.toNat + 32 ≤ 2 ^ 25) (low : (t₁.sb.inodeBlock i).toNat < 2 ^ 15)
    (size : input.kernel.bytes.size ≤ 623104)
    (bios : ReadsDisk int13 drive t'.img.bytes readable) (all : ∀ lba count, readable lba count)
    (video : PrintsOnly int10) (back back' : Nat → UInt16) (main main' : UInt16)
    (handed : HandedOver drive t'.img.bytes 0 m) :
    ∃ m₁ m', masterBoot int13 layout back main m = .error .chainLoads m₁ ∧
      Ends (loader int13 int10 back' kernelStr main') .relocate m₁ (.ok () m') ∧
      (∀ x, ∀ low : x < input.kernel.bytes.size, m'.memory (kernelBase.toNat + x) = input.kernel.bytes[x]) ∧
      m'.eax.toUInt16 = kernelBase ∧ m'.ds = 0 ∧ m'.ss = 0 := by
  obtain ⟨-, -, -, entries, -, rfl⟩ := mbrWrite_ok_iff.mp partitioned
  obtain ⟨mbr, sel, read, active, image⟩ := bootloaderWrite_active booted
  obtain ⟨wide, rfl⟩ := mbr_some read
  have formed (j : Fin 4) : img₂.mbrEntry j = (img₀.writeBytes 0 (mbrBytes base.bytes entries)).mbrEntry j :=
    mbrEntry_congr fun k inside => formatted _ (by omega)
  obtain ⟨above, near_⟩ := places sel (by rw [← formed sel]; exact active.1)
  rw [← formed sel] at above near_
  have start : (lba2Off (img₂.mbrEntry sel).lbaStart).toNat = 512 * (img₂.mbrEntry sel).lbaStart.toNat := by
    rw [lba2Off_toNat, Nat.mod_eq_of_lt (by omega)]
  have front {x : Nat} (inside : x < 512) : t₀.img.bytes x = img₂.bytes x := by
    rw [image]
    exact writeBytes_outside (by omega) (by change ¬ ((lba2Off (img₂.mbrEntry sel).lbaStart).toNat ≤ x ∧ _); omega)
  have entry (j : Fin 4) : t₀.img.mbrEntry j = img₂.mbrEntry j := mbrEntry_congr fun k inside => front (by omega)
  have has' : HasPacket layout t₀.img := fun k inside => by
    have third := layout.third
    have table := layout.table
    have second := layout.second
    rw [front (by omega), formatted _ (by omega), written_byte (by omega), mbrByte, if_neg (by omega),
      if_neg (by omega), if_neg (by omega)]
    exact has k inside
  have active' : FirstActive (fun j => t₀.img.mbrEntry j) sel := by
    simp only [entry]
    exact active
  refine power_on_reaches_kernel opened geometry spread some_ whole old atEnd ran none_ active' (by rwa [entry])
    rootSize low size has' ?_ bios all video back back' main main' handed
  rw [entry, image]
  exact file.onDisk near_ img₂

/-! ### The disk of the update -/

/-- The code in front of the table of `updateDisk`, as the file that `mbr` takes. -/
def updateMbr : InputFile := ⟨true, Array.ofFn fun j : Fin 446 => updateDisk.bytes j, false⟩

/-- The boot block of `updateDisk`, as the file that `boot` takes. -/
def updateBoot : InputFile := ⟨true, Array.ofFn fun j : Fin 1024 => updateDisk.bytes (1024 + j), false⟩

/-- The partition of `updateDisk`. -/
def updatePartition : PartitionDefinition := ⟨2, 16, 129, true, by decide, by decide, minixType_low⟩

theorem updateMbr_at (x : Nat) : updateMbr.bytes.getD x 0 = if x < 446 then updateDisk.bytes x else 0 := by
  by_cases low : x < 446 <;> simp [updateMbr, low]

theorem updateBoot_size : updateBoot.bytes.size = 1024 := by simp [updateBoot]

theorem updateBoot_at (x : Nat) : updateBoot.bytes.getD x 0 = if x < 1024 then updateDisk.bytes (1024 + x) else 0 := by
  by_cases low : x < 1024 <;> simp [updateBoot, low]

/-- What `mbr` leaves of an empty disk. -/
def updateParted : Image :=
  Image.writeBytes ⟨fun _ => 0, 9216⟩ 0 (mbrBytes updateMbr.bytes [updatePartition.entry])

theorem updateParted_written : mbrWrite true updateMbr [updatePartition.text] ⟨fun _ => 0, 9216⟩ =
    .ok () updateParted :=
  mbrWrite_ok_iff.mpr ⟨rfl, fun broken => (nomatch broken.2), rfl, _, .cons updatePartition.text_defines .nil, rfl⟩

theorem updateDisk_formatted {x : Nat} (low : x < 512) : updateDisk.bytes x = updateParted.bytes x := by
  unfold updateParted
  rw [written_byte low]
  by_cases code : x < 446
  · rw [mbrByte, if_neg (by omega), if_neg (by omega), if_neg (by omega), updateMbr_at, if_pos code]
  · have table : ∀ k < 66, updateDisk.bytes (446 + k) = mbrByte #[] [updatePartition.entry] (446 + k) := by decide
    have here := table (x - 446) (by omega)
    rw [Nat.add_sub_cancel' (by omega)] at here
    rw [here]
    unfold mbrByte
    rw [updateMbr_at, if_neg code]
    rfl

theorem updateParted_places (j : Fin 4) (active : (updateParted.mbrEntry j).Active) :
    0 < (updateParted.mbrEntry j).lbaStart.toNat ∧ (updateParted.mbrEntry j).lbaStart.toNat < 2 ^ 22 := by
  have same : updateParted.mbrEntry j = updateDisk.mbrEntry j :=
    mbrEntry_congr fun k low => (updateDisk_formatted (by omega)).symm
  rw [same] at active ⊢
  clear same
  revert j
  decide

theorem image_eq (bytes : img.bytes = img'.bytes) (size : img.size = img'.size) : img = img' := by
  cases img
  cases img'
  cases bytes
  cases size
  rfl

theorem writeBytes_behind {off x : Nat} {bytes : Array UInt8} (outside : ¬ (off ≤ x ∧ x < off + bytes.size))
    (behind : img.size ≤ x) : (img.writeBytes off bytes).bytes x = 0 := by
  change (if off ≤ x ∧ x < off + bytes.size then bytes.getD (x - off) 0
    else if x < img.size then img.bytes x else 0) = 0
  rw [if_neg outside, if_neg (by omega)]

theorem updateDisk_behind {x : Nat} (behind : 9216 ≤ x) : updateDisk.bytes x = 0 := by
  unfold updateDisk
  dsimp only
  repeat rw [if_neg (by omega)]

theorem updateDisk_booted : bootloaderWrite true updateBoot none updateDisk = .ok () updateDisk := by
  have active : FirstActive (fun j : Fin 4 => updateDisk.mbrEntry j) 0 :=
    ⟨by decide, fun j below => absurd below (Fin.not_lt_zero j)⟩
  have start : (updateDisk.mbrEntry 0).lbaStart = 2 := by decide
  have size : (bootBytes updateBoot.bytes 2).size = 1024 := by
    rw [bootBytes_size, updateBoot_size, Nat.min_self]
  have same : updateDisk.writeBytes (lba2Off 2).toNat (bootBytes updateBoot.bytes 2) = updateDisk := by
    have inside {x : Nat} (low : x < 1024) : (bootBytes updateBoot.bytes 2).getD x 0 = updateDisk.bytes (1024 + x) := by
      rw [bootBytes_at low (by rwa [updateBoot_size]), updateBoot_at, if_pos low]
      split
      · next field =>
        obtain ⟨k, few, rfl⟩ : ∃ k < 4, x = 2 + k := ⟨x - 2, by omega, by omega⟩
        clear low field
        interval_cases k <;> decide
      · rfl
    have bytes : (updateDisk.writeBytes (lba2Off 2).toNat (bootBytes updateBoot.bytes 2)).bytes = updateDisk.bytes := by
      have start_ : (lba2Off 2).toNat = 1024 := by decide
      funext x
      by_cases here : 1024 ≤ x ∧ x < 2048
      · rw [writeBytes_within (by rw [size, start_]; omega), start_, inside (by omega), Nat.add_sub_cancel' here.1]
      by_cases within : x < updateDisk.size
      · exact writeBytes_outside within (by rw [size, start_]; omega)
      · rw [writeBytes_behind (by rw [size, start_]; omega) (Nat.not_lt.mp within),
          updateDisk_behind (Nat.not_lt.mp within)]
    have size_ : (updateDisk.writeBytes (lba2Off 2).toNat (bootBytes updateBoot.bytes 2)).size = updateDisk.size := by
      rw [writeBytes_size, size]
      rfl
    exact image_eq bytes size_
  rw [bootloaderWrite_selected (mbr_of_size (by decide)) (bootloaderPartno_active active)]
  unfold bootloaderStore
  rw [if_neg (by decide), if_neg (fun closed => closed rfl), if_neg (fun broken => nomatch broken.2)]
  change EStateM.Result.ok () (updateDisk.writeBytes (lba2Off (updateDisk.mbrEntry 0).lbaStart).toNat
    (bootBytes updateBoot.bytes (updateDisk.mbrEntry 0).lbaStart)) = _
  rw [start, same]

theorem updateBoot_file : BootFile 0xbf0 updateBoot where
  above := by decide
  below := by decide
  size := by
    rw [updateBoot_size]
    decide
  text k low := by
    rw [updateBoot_at, if_pos (by change 0xbf0 - 0xa00 + k < 1024; omega)]
    revert k
    decide

theorem built_disk_boots_update : ∃ img₁ t' m₁ m',
    mbrWrite true updateMbr [updatePartition.text] ⟨fun _ => 0, 9216⟩ = .ok () img₁ ∧
    bootloaderWrite true updateBoot none updateDisk = .ok () Update.start.img ∧
    minixWrite updateInput Update.start = .ok 2 t' ∧
    masterBoot (readSectorsFrom 0 t'.img.bytes) mbrLayout (fun _ => 0) 0x56c (handedMachine t'.img.bytes 0) =
      .error .chainLoads m₁ ∧
    Ends (loader (readSectorsFrom 0 t'.img.bytes) (fun m => m) (fun _ => 0) 0xbf0 0xa20) .relocate m₁ (.ok () m') ∧
    m'.memory (kernelBase.toNat + 0) = 0x7f := by
  obtain ⟨t', ran⟩ := Update.runs
  have live : Live (Update.opened.fileByte Update.tree) 2 := (Update.live_iff (by decide)).mpr rfl
  have packet : HasPacket mbrLayout updateMbr.sector := fun k low => by
    unfold InputFile.sector
    dsimp only
    rw [updateMbr_at, if_pos (by change 0x520 - 0x500 + k < 446; omega)]
    revert k
    decide
  obtain ⟨m₁, m', run, ends, bytes, -⟩ := built_disk_boots updateParted_written (fun x low => updateDisk_formatted low)
    updateDisk_booted packet updateBoot_file updateParted_places Update.opens Update.geometry Update.spread
    (by decide) (by decide) Update.old (.inl ⟨2, by decide, .inr live⟩) ran rfl (by decide) (by decide) (by decide)
    (readSectorsFrom_reads 0 t'.img.bytes 0x80)
    (fun _ _ => Nat.zero_le _) prints_only_nothing (fun _ => 0) (fun _ => 0) 0x56c 0xa20
    (handedMachine_handed t'.img.bytes 0)
  exact ⟨_, t', m₁, m', updateParted_written, updateDisk_booted, ran, run, ends, bytes 0 (by decide)⟩

end AtaKernel.Boot
