import AtaKernel.Boot.Loader

/-! From the install tool to the first instruction of the kernel. The loader on a
partition that the tool has written finds the tool's entry, reads the tool's
blocks, and so has at `KERNEL_BASE` the bytes of the file that was installed. -/
namespace AtaKernel.Boot
open ByteMemory StateProgram Minix

variable {σ : Type} {int13 int10 : Machine σ → Machine σ} {drive : UInt8} {first : UInt32} {m : Machine σ}
  {t t' t₀ t₁ : Tool} {root : Inode} {kernelStr : UInt16} {i : Nat} {ks : List Nat} {dir : Nat → Block}
  {input : InstallInput}

/-- The tool and the loader mean the same sectors, if the offset of the partition is right. -/
theorem samePartition_image (start : t.ps.toInt = 512 * first.toNat) : SamePartition t t.img.bytes first := by
  have place (z : UInt16) : t.blockOff z = 512 * first.toNat + 1024 * z.toNat := by
    rw [Tool.blockOff, start]
    rfl
  refine ⟨fun z data there => ?_, fun z data there x => ?_⟩
  · have below := (reaches_of_blockAt there).2
    rw [place] at below
    omega
  · have reaches := reaches_of_blockAt there
    have off := place z
    unfold Tool.blockAt Image.read at there
    rw [if_pos reaches] at there
    split at there
    · obtain rfl := Option.some_inj.mp there
      rw [show 512 * (first.toNat + 2 * z.toNat) = (t.blockOff z).toNat by omega]
    · cases there

theorem OnDisk.kept {disk disk' : Nat → UInt8} (onDisk : OnDisk kernelStr disk first)
    (same : ∀ x < 1024, disk' (512 * first.toNat + x) = disk (512 * first.toNat + x)) :
    OnDisk kernelStr disk' first where
  field j low := (same _ (by omega)).trans (onDisk.field j low)
  above := onDisk.above
  below := onDisk.below
  text k low := (same _ (by have below := onDisk.below; omega)).trans (onDisk.text k low)

/-- After an install, the loader that was on the partition before loads and calls the kernel that was installed. -/
theorem installed_kernel_boots (opened : minixOpen input t₀ = .ok root t₁) (geometry : Geometry t₁)
    (spread : Spread ks root.scanBlocks dir root t₁) (some_ : 0 < root.iSize.toNat) (whole : root.iSize.toNat % 32 = 0)
    (old : OldKernel input.trunc ks root t₁) (atEnd : SlotAtEnd t₁ (t₁.fileByte root) root.iSize.toNat)
    (ran : minixWrite input t₀ = .ok i t') (start : t₁.ps.toInt = 512 * first.toNat)
    (rootSize : root.iSize.toNat + 32 ≤ 2 ^ 25) (low : (t₁.sb.inodeBlock i).toNat < 2 ^ 15)
    (size : input.kernel.bytes.size ≤ 623104) (onDisk : OnDisk kernelStr t₀.img.bytes first)
    (bios : LoadsSectors int13 drive t'.img.bytes) (video : PrintsOnly int10) (back : Nat → UInt16) (main : UInt16)
    (handed : HandedOver drive t'.img.bytes first m) :
    ∃ m', Ends (loader int13 int10 back kernelStr main) .relocate m (.ok () m') ∧
      (∀ x, ∀ low : x < input.kernel.bytes.size, m'.memory (kernelBase.toNat + x) = input.kernel.bytes[x]) ∧
      m'.eax.toUInt16 = kernelBase ∧ m'.ds = 0 ∧ m'.ss = 0 ∧ m'.sp = stackTop - 2 ∧ m'.word 0 m'.sp = back 9 := by
  obtain ⟨-, back', ks', t₂, -, keeps, -⟩ := minixWrite_keepsOthers opened geometry spread some_ old ran
  obtain ⟨root', e, inode, found, number, bare, near_, length, bytes⟩ :=
    kernel_installed opened geometry spread some_ whole old atEnd ran
  obtain ⟨-, -, mbr, sel, data, -, -, inodesMap, zonesMap, -, -, rfl, block, rfl, -, -, rfl, -⟩ :=
    minixOpen_ok_iff.mp opened
  have super : t'.blockAt 1 = some data := keeps.blockAt_front (show (1 : UInt16).toNat < 2 by decide) block
  have place : t'.ps.toInt = 512 * first.toNat := by
    rw [keeps.ps]
    exact start
  have onDisk' : OnDisk kernelStr t'.img.bytes first := onDisk.kept fun x inside => by
    have start' : (partitionStart (mbr sel).lbaStart).toInt = 512 * first.toNat := start
    have off : Tool.blockOff { t₀ with ps := partitionStart (mbr sel).lbaStart } 1 = 512 * first.toNat + 1024 := by
      rw [Tool.blockOff, start']
      rfl
    have fits := (blockAt_isSome_iff.mp (Option.isSome_iff_exists.mpr ⟨data, block⟩)).2
    rw [off] at fits
    have image : 512 * first.toNat + 1024 + 1024 ≤ t₀.img.size := by
      change (512 * (first.toNat : Int) + 1024).toNat + 1024 ≤ t₀.img.size at fits
      omega
    refine keeps.front _ (show 512 * first.toNat + x < t₀.img.size by omega) ?_
    change ((512 * first.toNat + x : Nat) : Int) < (partitionStart (mbr sel).lbaStart).toInt + 2048
    omega
  obtain ⟨m', ends, called⟩ := loader_hands_over bios video back main handed onDisk' (samePartition_image place) super
    keeps.sb.symm found (by omega) bare (by rw [number, keeps.sb]; exact low) (by omega)
  refine ⟨m', ends, fun x inside => ?_, called.ax, called.ds, called.ss, called.sp, called.top⟩
  rw [called.file x (by omega), bytes x inside]

/-- A machine at 0x7c00, with the first sector of a partition there and drive 0x80 in DL. -/
def handedMachine (disk : Nat → UInt8) (first : UInt32) : Machine Unit where
  eax := 0
  ebx := 0
  ecx := 0
  edx := 0x80
  si := 0
  di := 0
  bp := 0
  sp := 0
  ds := 0
  es := 0
  ss := 0
  carry := false
  memory x := if 0x7c00 ≤ x ∧ x < 0x7e00 then disk (512 * first.toNat + (x - 0x7c00)) else 0
  requests := []
  bios := ()

theorem handedMachine_handed (disk : Nat → UInt8) (first : UInt32) :
    HandedOver 0x80 disk first (handedMachine disk first) where
  code j low := by
    change (if _ then _ else _) = _
    rw [if_pos (by omega), Nat.add_sub_cancel_left]
  dl := rfl

theorem prints_only_nothing : PrintsOnly fun m : Machine Unit => m where
  toPrints := prints_nothing
  es _ _ := rfl

theorem updateDisk_onDisk : OnDisk 0xbf0 updateDisk.bytes 2 where
  field := by decide
  above := by decide
  below := by decide
  text := by decide

end AtaKernel.Boot
