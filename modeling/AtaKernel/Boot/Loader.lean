import AtaKernel.Boot.SearchFrame
import AtaKernel.Minix.KernelFile

/-! The boot loader of a partition as a whole, from its first byte to the call of
the kernel. On a partition that the install tool can read, what it leaves at
`KERNEL_BASE` is the file that the first entry of the name stands for, as the
tool reads it. -/
namespace AtaKernel.Boot
open ByteMemory StateProgram Minix

/-! ## The code -/

/-- The labels that jumps of the loader lead to. -/
inductive Label
  | relocate
  | main
  | search (place : Place)
  | step6
  | outerLoop2
  | step8

section Code

variable {σ : Type} (int13 int10 : Machine σ → Machine σ) (back : Nat → UInt16) (kernelStr main : UInt16)

/-- From one label to the next. What comes out is that the kernel is called. -/
def loader : Label → Vbr σ (Label ⊕ Unit)
  | .relocate => do
    modify (relocate main)
    pure (.inl .main)
  | .main => do
    loadRootInode int13 back
    modify fun m => m.setWord m.ds currentZoneIndex 0
    pure (.inl (.search .outerLoop))
  | .search place => do
    let next ← search int13 int10 back kernelStr place
    pure (.inl (next.elim .search fun _ => .step6))
  | .step6 => do
    loadKernelInode int13 back
    modify fun m => m.setWord m.ds currentZoneIndex 0
    pure (.inl .outerLoop2)
  | .outerLoop2 => do
    let next ← outerLoop2 int13 back ()
    pure (.inl (next.elim (fun _ => .outerLoop2) fun _ => .step8))
  | .step8 => do
    modify (callKernel back)
    pure (.inr ())

end Code

variable {σ : Type} {int13 int10 : Machine σ → Machine σ} {drive : UInt8} {disk : Nat → UInt8} {first : UInt32}
  {m m' : Machine σ} {t : Tool} {data : Block} {inode root kernel : Inode} {kernelStr table : UInt16} {e x : Nat}

theorem search_within (int13 int10 : Machine σ → Machine σ) (back : Nat → UInt16) (kernelStr main : UInt16) :
    Within (search int13 int10 back kernelStr) (loader int13 int10 back kernelStr main) .search fun _ => .step6 where
  next step := bind_of_ok step
  done step := bind_of_ok step
  stop step := bind_of_error step

theorem copying_within (int13 int10 : Machine σ → Machine σ) (back : Nat → UInt16) (kernelStr main : UInt16) :
    Within (outerLoop2 int13 back) (loader int13 int10 back kernelStr main) (fun _ => .outerLoop2) fun _ => .step8 where
  next step := bind_of_ok step
  done step := bind_of_ok step
  stop step := bind_of_error step

/-! ## The files of the partition -/

/-- The loader reads the bytes of a file that the tool reads. -/
theorem fileByte_same (same : SamePartition t disk first) (whole : Whole t inode) (size : inode.iSize.toNat ≤ 2 ^ 25)
    (within : 1024 * (x / 1024) < inode.iSize.toNat) : fileByte disk first inode x = t.fileByte inode x := by
  obtain ⟨z, data, way, there⟩ := whole (x / 1024) within
  have zone := zoneOnDisk_dataSlot same (by omega) way
  have low : x % 1024 < 1024 := Nat.mod_lt _ (by decide)
  have byte := same.bytes z data there ⟨x % 1024, low⟩
  have place : (⟨x % 1024, low⟩ : Fin 1024) = Fin.ofNat 1024 (x % 1024) := Fin.ext (Nat.mod_eq_of_lt low).symm
  have tool := fileByte_block way there low
  rw [Nat.div_add_mod] at tool
  rw [fileByte, zone, zoneLba_toNat (same.fits z data there), tool]
  exact byte.trans (congrArg data place)

/-! ## The stages -/

/-- The search ends at the first live entry with the name, if no hole in front of it has the name as well. -/
theorem search_finds (bios : LoadsSectors int13 drive disk) (video : PrintsOnly int10) (back : Nat → UInt16)
    (stands : Stands drive disk first table root m) (onDisk : OnDisk kernelStr disk first)
    (same : SamePartition t disk first) (whole : Whole t root) (size : root.iSize.toNat ≤ 2 ^ 25)
    (entry : FirstLive (t.fileByte root) root.iSize.toNat e) (holes : ∀ e' < e, ¬ Named (t.fileByte root) e') :
    ∃ m', Searches int13 int10 back kernelStr m (.ok () m') ∧ Stands drive disk first table root m' ∧
      Points (entryInode (t.fileByte root) e) m' := by
  have here {e' : Nat} (upto : e' ≤ e) {j : Nat} (inside : j < 32) :
      fileByte disk first root (32 * e' + j) = t.fileByte root (32 * e' + j) :=
    fileByte_same same whole size (by
      have within := entry.1
      omega)
  have above := onDisk.above
  have below := onDisk.below
  obtain ⟨r, ends, outcome⟩ := search_outcome bios video.toPrints back stands.toReady stands.sp
    (show InCode kernelStr from ⟨above, by omega⟩)
    (fun k low => stands.toSettled.text onDisk (by decide) low) size
  have named : Named (fileByte disk first root) e := (named_congr fun j inside => here le_rfl inside).mpr entry.2.1.2
  cases outcome with
  | @found e'' m' _ examined named' before at_ =>
    have at_e : e'' = e := by
      obtain early | same_ | late := Nat.lt_trichotomy e'' e
      · exact absurd ((named_congr fun j inside => here early.le inside).mp named') (holes e'' early)
      · exact same_
      · exact absurd named (before e (Nat.zero_le _) late)
    subst at_e
    obtain ⟨ds, ss, es, sp, away⟩ := search_returns bios video back stands.ds stands.ss stands.sp stands.device ends
    refine ⟨m', ends, stands.keep (ds.trans stands.ds.symm) es (ss.trans stands.ss.symm) (sp.trans stands.sp.symm)
      fun x own => away x own, ?_⟩
    have addr := at_.addr
    have low : entryAddr e'' < 0x600 + 1024 := by
      unfold entryAddr
      omega
    have place : (UInt16.ofNat (entryAddr e'')).toNat = entryAddr e'' := ofNat_toNat_low (by omega)
    refine ⟨?_, ?_, ?_⟩
    · rw [addr, place]
      unfold entryAddr
      omega
    · rw [addr, place]
      unfold entryAddr
      omega
    · have byte {j : Nat} (inside : j < 32) : m'.memory (entryAddr e'' + j) = t.fileByte root (32 * e'' + j) :=
        (at_.entry_byte inside).trans (here le_rfl inside)
      have zero_ := byte (j := 0) (by decide)
      rw [Nat.add_zero, Nat.add_zero] at zero_
      rw [addr, Machine.word, linear_zero, place, load_two, load8_low (by omega), load8_low (by omega), zero_,
        byte (by decide)]
      rfl
  | halted never =>
    have within := entry.1
    exact absurd named (never e (Nat.zero_le _) ⟨by omega, by omega⟩)

theorem outerLoop2_leaves {back : Nat → UInt16} {u v : Unit} (ran : outerLoop2 int13 back u m = .ok (.inr v) m') :
    m' = lkZone m := by
  unfold outerLoop2 at ran
  rw [modify_bind, get_bind] at ran
  split at ran
  · exact (pure_ok_iff.mp ran).2.symm
  · obtain ⟨w, mid, -, rest⟩ := bind_ok_iff.mp ran
    rw [modify_bind, modify_bind, modify_bind] at rest
    cases (pure_ok_iff.mp rest).1

/-- The copying leaves the segments and the stack as they were. -/
theorem kernel_copied (bios : LoadsSectors int13 drive disk) (back : Nat → UInt16)
    (ready : Ready drive inode first m) (sp : m.sp = stackTop) (size : inode.iSize.toNat ≤ 623104) :
    ∃ m', Ends (outerLoop2 int13 back) () (m.setWord m.ds currentZoneIndex 0) (.ok () m') ∧
      m'.ds = 0 ∧ m'.ss = 0 ∧ m'.sp = stackTop ∧
      ∀ x < inode.iSize.toNat, m'.memory (0x1000 + x) = fileByte disk first inode x := by
  obtain ⟨kept, index, outside⟩ := ready.rewound
  have none_ : BlocksLoaded drive disk first inode m 0 (m.setWord m.ds currentZoneIndex 0) :=
    { kept with
      sp := sp, index := index, blocks := fun x low => absurd low (by omega)
      away := fun x away => outside x (by unfold OutsideLoad at away; omega) }
  obtain ⟨r, ends, m', rfl, ds, ss, top, file⟩ :
      ∃ r, Ends (outerLoop2 int13 back) () (m.setWord m.ds currentZoneIndex 0) r ∧
      ∃ m', r = .ok () m' ∧ m'.ds = 0 ∧ m'.ss = 0 ∧ m'.sp = stackTop ∧
        ∀ x < inode.iSize.toNat, m'.memory (0x1000 + x) = fileByte disk first inode x := Ends.counted
    (n := (inode.iSize.toNat + 1023) / 1024) (fun i _ m₁ => BlocksLoaded drive disk first inode m i m₁)
    (fun r => ∃ m', r = .ok () m' ∧ m'.ds = 0 ∧ m'.ss = 0 ∧ m'.sp = stackTop ∧
      ∀ x < inode.iSize.toNat, m'.memory (0x1000 + x) = fileByte disk first inode x)
    (fun i low u m₁ loaded => by
      obtain ⟨m₂, run, next⟩ := outerLoop2_round bios back loaded size (by omega)
      exact ⟨(), m₂, run, next⟩)
    (fun u m₁ loaded => by
      obtain ⟨m₂, run, kept_⟩ := outerLoop2_last back loaded (by omega) (by omega)
      have same : m₂ = lkZone m₁ := outerLoop2_leaves run
      subst same
      refine ⟨_, Ends.done run, _, rfl, loaded.ds, loaded.ss, loaded.sp, fun x low => ?_⟩
      rw [kept_ (0x1000 + x) (Or.inr (Nat.le_trans (by decide) (Nat.le_add_right _ _)))]
      exact loaded.blocks x (by omega)) none_
  exact ⟨m', ends, ds, ss, top, file⟩

/-! ## The whole loader -/

/-- At the first instruction of the kernel: the file is at `KERNEL_BASE`, and the loader's return address is all
that is on the stack. -/
structure KernelCalled {σ : Type} (t : Tool) (kernel : Inode) (back : UInt16) (m : Machine σ) : Prop where
  file : ∀ x < kernel.iSize.toNat, m.memory (kernelBase.toNat + x) = t.fileByte kernel x
  ax : m.eax.toUInt16 = kernelBase
  ds : m.ds = 0
  ss : m.ss = 0
  sp : m.sp = stackTop - 2
  top : m.word 0 m.sp = back

theorem callKernel_calls {back : Nat → UInt16} (ds : m.ds = 0) (ss : m.ss = 0) (sp : m.sp = stackTop)
    (file : ∀ x < kernel.iSize.toNat, m.memory (0x1000 + x) = t.fileByte kernel x) :
    KernelCalled t kernel (back 9) (callKernel back m) := by
  obtain ⟨down, top, away⟩ := push_onto (m := { m with eax := setLow m.eax kernelBase }) (s := 0xffe) ss sp (by decide)
    (back 9)
  refine ⟨fun x low => ?_, setLow_toUInt16 _ _, ds, ss, down, ?_⟩
  · exact (away _ (by right; exact Nat.le_add_right 0x1000 x)).trans (file x low)
  · rw [show (callKernel back m).sp = _ from down]
    exact top

/-- From the first byte of the loader to the first one of the kernel. -/
theorem loader_hands_over (bios : LoadsSectors int13 drive disk) (video : PrintsOnly int10) (back : Nat → UInt16)
    (main : UInt16) (handed : HandedOver drive disk first m) (onDisk : OnDisk kernelStr disk first)
    (same : SamePartition t disk first) (super : t.blockAt 1 = some data) (sb : data.superblock = t.sb)
    (found : KernelFile t root e kernel) (rootSize : root.iSize.toNat ≤ 2 ^ 25)
    (holes : ∀ e' < e, ¬ Named (t.fileByte root) e')
    (low : (t.sb.inodeBlock (entryInode (t.fileByte root) e).toNat).toNat < 2 ^ 15)
    (size : kernel.iSize.toNat ≤ 623104) :
    ∃ m', Ends (loader int13 int10 back kernelStr main) .relocate m (.ok () m') ∧
      KernelCalled t kernel (back 9) m' := by
  have settled := relocate_settles handed main
  obtain ⟨m₁, rooted, stands₁⟩ := loadRootInode_loads bios back settled onDisk same super sb found.directory
  obtain ⟨m₂, searched, stands₂, points⟩ := search_finds bios video back stands₁ onDisk same found.whole rootSize
    found.entry holes
  obtain ⟨m₃, loaded, stands₃⟩ :=
    loadKernelInode_loads bios back stands₂ onDisk points found.entry.2.1.1 same low found.file
  obtain ⟨m₄, copied, ds, ss, sp, file⟩ := kernel_copied bios back stands₃.toReady stands₃.sp size
  have kernel_ (x : Nat) (within : x < kernel.iSize.toNat) : m₄.memory (0x1000 + x) = t.fileByte kernel x :=
    (file x within).trans (fileByte_same same found.fileWhole (by omega) (by omega))
  have start : loader int13 int10 back kernelStr main .relocate m = .ok (.inl .main) (relocate main m) := rfl
  have first_ : loader int13 int10 back kernelStr main .main (relocate main m) =
      .ok (.inl (.search .outerLoop)) (m₁.setWord m₁.ds currentZoneIndex 0) := by
    rw [loader, bind_of_ok rooted]
    rfl
  have found_ := (search_within int13 int10 back kernelStr main).leads searched
  have inode_ : loader int13 int10 back kernelStr main .step6 m₂ =
      .ok (.inl .outerLoop2) (m₃.setWord m₃.ds currentZoneIndex 0) := by
    rw [loader, bind_of_ok loaded]
    rfl
  have copied_ := (copying_within int13 int10 back kernelStr main).leads copied
  have last : loader int13 int10 back kernelStr main .step8 m₄ = .ok (.inr ()) (callKernel back m₄) := rfl
  have ends := ((((Ends.done last).after copied_).next inode_).after found_).next first_
  exact ⟨_, ends.next start, callKernel_calls ds ss sp kernel_⟩

end AtaKernel.Boot
