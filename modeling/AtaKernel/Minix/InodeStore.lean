import AtaKernel.Minix.Install

/-! Saving an inode and loading one. The table is packed, so a store rewrites a
whole block of it; the inode comes back as it was saved, and the inodes of the
other numbers stay what they were, as does the disk around. -/
namespace AtaKernel.Minix
open BitTable StateProgram

variable {t t' : Tool} {data : Block} {x y : Inode} {i j s s' c v : Nat} {z : UInt16}

/-! ## One block of the table -/

theorem byteOf_toNat (k : Nat) : (byteOf v k).toNat = v / 256 ^ k % 256 := UInt8.toNat_ofNat'

theorem word_bytes {w : Nat} : data.word w =
    UInt16.ofNat ((data.bytes (2 * w)).toNat + 256 * (data.bytes (2 * w + 1)).toNat) := rfl

/-- A word that begins at byte `k` of a number. -/
theorem word_of_bytes (k : Nat) :
    UInt16.ofNat ((byteOf v k).toNat + 256 * (byteOf v (k + 1)).toNat) = UInt16.ofNat (v / 256 ^ k) := by
  apply UInt16.toNat_inj.mp
  rw [UInt16.toNat_ofNat', UInt16.toNat_ofNat', byteOf_toNat, byteOf_toNat, pow_succ, ← Nat.div_div_eq_div_mul]
  omega

/-- Word `c` of the bytes of an inode. -/
def Inode.word (x : Inode) (c : Nat) : UInt16 :=
  UInt16.ofNat ((x.byte (2 * c)).toNat + 256 * (x.byte (2 * c + 1)).toNat)

theorem word_setInode (here : s < 32) (there : s' < 32) (low : c < 16) :
    (data.setInode s x).word (16 * s' + c) = if s' = s then x.word c else data.word (16 * s' + c) := by
  rw [word_bytes, word_bytes, Inode.word, Block.setInode]
  by_cases same : s' = s
  · subst same
    rw [if_pos rfl, overwrite_inside (by omega) (by omega), overwrite_inside (by omega) (by omega),
      show 2 * (16 * s' + c) - 32 * s' = 2 * c by omega, show 2 * (16 * s' + c) + 1 - 32 * s' = 2 * c + 1 by omega]
  · rw [if_neg same, overwrite_outside (by omega) (by omega), overwrite_outside (by omega) (by omega)]

theorem byte_setInode (here : s < 32) (there : s' < 32) (low : c < 32) :
    (data.setInode s x).bytes (32 * s' + c) = if s' = s then x.byte c else data.bytes (32 * s' + c) := by
  rw [Block.setInode]
  by_cases same : s' = s
  · subst same
    rw [if_pos rfl, overwrite_inside (by omega) (by omega), Nat.add_sub_cancel_left]
  · rw [if_neg same, overwrite_outside (by omega) (by omega)]

/-- The inode in 16 words, two bytes of which are fields of their own. -/
def inodeOf (word : Nat → UInt16) (byte : Nat → UInt8) : Inode where
  iMode := word 0
  iUid := word 1
  iSize := UInt32.ofNat ((word 2).toNat + 65536 * (word 3).toNat)
  iTime := UInt32.ofNat ((word 4).toNat + 65536 * (word 5).toNat)
  iGid := byte 12
  iNlinks := byte 13
  iZones j := word (7 + j)

theorem inode_eq : data.inode s = inodeOf (fun c => data.word (16 * s + c)) fun c => data.bytes (32 * s + c) := by
  unfold Block.inode inodeOf
  simp only [Nat.add_zero, Nat.add_assoc]
  rfl

theorem inodeOf_congr {word word' : Nat → UInt16} {byte byte' : Nat → UInt8} (words : ∀ c < 16, word c = word' c)
    (bytes : ∀ c < 32, byte c = byte' c) : inodeOf word byte = inodeOf word' byte' := by
  have zones : (fun j : Fin 9 => word (7 + j)) = fun j : Fin 9 => word' (7 + j) := by
    funext j
    exact words _ (by omega)
  unfold inodeOf
  rw [zones, words 0 (by decide), words 1 (by decide), words 2 (by decide), words 3 (by decide),
    words 4 (by decide), words 5 (by decide), bytes 12 (by decide), bytes 13 (by decide)]

/-- A number of four bytes comes back from its two words. -/
theorem long_words (w : UInt32) :
    UInt32.ofNat ((UInt16.ofNat (w.toNat / 256 ^ 0)).toNat + 65536 * (UInt16.ofNat (w.toNat / 256 ^ 2)).toNat) = w := by
  apply UInt32.toNat_inj.mp
  have small := w.toNat_lt
  rw [UInt32.toNat_ofNat', UInt16.toNat_ofNat', UInt16.toNat_ofNat']
  omega

theorem zone_word (low : j < 9) : x.word (7 + j) = x.zone j := by
  have byte {k : Nat} (low : k < 2) : x.byte (2 * (7 + j) + k) = byteOf (x.zone j).toNat k := by
    unfold Inode.byte
    rw [if_neg (by omega), if_neg (by omega), if_neg (by omega), if_neg (by omega), if_neg (by omega),
      if_neg (by omega), show (2 * (7 + j) + k - 14) / 2 = j by omega, show (2 * (7 + j) + k - 14) % 2 = k by omega]
  rw [Inode.word, ← Nat.add_zero (2 * (7 + j)), byte (by decide), Nat.add_zero, byte (by decide), word_of_bytes,
    pow_zero, Nat.div_one, UInt16.ofNat_toNat]

/-- An inode comes back from the bytes it has in the table. -/
theorem inodeOf_byte : inodeOf x.word x.byte = x := by
  have mode : x.word 0 = x.iMode := by
    change UInt16.ofNat ((byteOf _ 0).toNat + 256 * (byteOf _ 1).toNat) = _
    rw [word_of_bytes, pow_zero, Nat.div_one, UInt16.ofNat_toNat]
  have uid : x.word 1 = x.iUid := by
    change UInt16.ofNat ((byteOf _ 0).toNat + 256 * (byteOf _ 1).toNat) = _
    rw [word_of_bytes, pow_zero, Nat.div_one, UInt16.ofNat_toNat]
  have zones : (fun j : Fin 9 => x.word (7 + j)) = x.iZones := by
    funext j
    rw [zone_word j.isLt, Inode.zone, Fin.ofNat_val_eq_self]
  unfold inodeOf
  rw [mode, uid, zones, show x.word 2 = UInt16.ofNat (x.iSize.toNat / 256 ^ 0) from word_of_bytes 0,
    show x.word 3 = UInt16.ofNat (x.iSize.toNat / 256 ^ 2) from word_of_bytes 2,
    show x.word 4 = UInt16.ofNat (x.iTime.toNat / 256 ^ 0) from word_of_bytes 0,
    show x.word 5 = UInt16.ofNat (x.iTime.toNat / 256 ^ 2) from word_of_bytes 2, long_words, long_words]
  rfl

theorem inode_setInode (here : s < 32) (there : s' < 32) :
    (data.setInode s x).inode s' = if s' = s then x else data.inode s' := by
  by_cases same : s' = s
  · rw [if_pos same, inode_eq]
    refine (inodeOf_congr (fun c low => ?_) fun c low => ?_).trans inodeOf_byte
    · rw [word_setInode here there low, if_pos same]
    · rw [byte_setInode here there low, if_pos same]
  · rw [if_neg same, inode_eq, inode_eq]
    refine inodeOf_congr (fun c low => ?_) fun c low => ?_
    · rw [word_setInode here there low, if_neg same]
    · rw [byte_setInode here there low, if_neg same]

/-! ## The table -/

/-- The table ends before the first data zone. -/
def Superblock.TableFits (sb : Superblock) : Prop :=
  sb.inodeTable + (sb.sInodes.toNat + 31) / 32 ≤ sb.sFirstdatazone.toNat

theorem index_toNat (some_ : 1 ≤ i) (small : i < 2 ^ 64) : (UInt64.ofNat i - 1).toNat = i - 1 := by
  have number : (UInt64.ofNat i).toNat = i := UInt64.toNat_ofNat_of_lt' small
  rw [UInt64.toNat_sub_of_le _ _ (UInt64.le_iff_toNat_le.mpr (by rw [number]; exact some_)), number]
  rfl

/-- The number of an inode of the table. -/
def Superblock.Numbers (sb : Superblock) (i : Nat) : Prop := 1 ≤ i ∧ i ≤ sb.sInodes.toNat

theorem inodeBlock_toNat {sb : Superblock} (fits : sb.TableFits) (numbers : sb.Numbers i) :
    (sb.inodeBlock i).toNat = sb.inodeTable + (i - 1) / 32 ∧
      sb.inodeTable + (i - 1) / 32 < sb.sFirstdatazone.toNat := by
  obtain ⟨some_, upto⟩ := numbers
  have wide := sb.sFirstdatazone.toNat_lt
  have many := sb.sInodes.toNat_lt
  unfold Superblock.TableFits at fits
  unfold Superblock.inodeBlock
  rw [index_toNat some_ (by omega), UInt16.toNat_ofNat', show minixInodesPerBlock = 32 from rfl]
  constructor <;> omega

theorem inodeSlot_eq {sb : Superblock} (numbers : sb.Numbers i) : inodeSlot i = (i - 1) % 32 := by
  obtain ⟨some_, upto⟩ := numbers
  have many := sb.sInodes.toNat_lt
  rw [inodeSlot, index_toNat some_ (by omega)]
  rfl

/-- After an inode is saved it is loaded as it was saved, and the others as before. -/
theorem minixLoadInode_save {u : Unit} (fits : t.sb.TableFits) (here : t.sb.Numbers i) (there : t.sb.Numbers j)
    (saved : minixSaveInode i x t = .ok u t') (loads : minixLoadInode j t = .ok y t) :
    minixLoadInode j t' = .ok (if j = i then x else y) t' := by
  obtain ⟨data, at_, rfl⟩ := minixSaveInode_ok_iff.mp saved
  obtain ⟨-, data', at', rfl⟩ := minixLoadInode_ok_iff.mp loads
  have block := inodeBlock_toNat fits here
  have block' := inodeBlock_toNat fits there
  have slot := inodeSlot_eq here
  have slot' := inodeSlot_eq there
  change t.blockAt (t.sb.inodeBlock j) = some data' at at'
  change minixLoadInode j _ = .ok (if j = i then x else data'.inode (inodeSlot j)) _
  refine minixLoadInode_ok_iff.mpr ⟨rfl, ?_⟩
  change ∃ data'', (t.putBlock _ _).blockAt (t.sb.inodeBlock j) = some data'' ∧ data''.inode (inodeSlot j) = _
  by_cases together : t.sb.inodeBlock j = t.sb.inodeBlock i
  · rw [together] at at' ⊢
    obtain rfl := Option.some_inj.mp (at_.symm.trans at')
    refine ⟨_, blockAt_putBlock_same (reaches_of_blockAt at_), ?_⟩
    have blocks := congrArg UInt16.toNat together
    have same : inodeSlot j = inodeSlot i ↔ j = i := by
      obtain ⟨some_, -⟩ := here
      obtain ⟨some', -⟩ := there
      omega
    rw [inode_setInode (by omega) (by omega), if_congr same rfl rfl]
  · have other : j ≠ i := fun same => together (congrArg _ same)
    rw [if_neg other]
    exact ⟨data', blockAt_putBlock_apart at' (reaches_of_blockAt at_) together, rfl⟩

/-! ## The disk around it -/

/-- What a load gives: an inode, or how the tool stops. -/
def loaded (i : Nat) (t : Tool) : Except Quit Inode :=
  match minixLoadInode i t with
  | .ok y _ => .ok y
  | .error e _ => .error e

/-- Where the 32 bytes of an inode are on the disk. -/
def Tool.inodeOff (t : Tool) (i : Nat) : Int := t.ps.toInt + 1024 * t.sb.inodeTable + 32 * (i - 1)

theorem loaded_of_ok (load : minixLoadBlock (t.sb.inodeBlock i) t = .ok data t) :
    loaded i t = .ok (data.inode (inodeSlot i)) := by
  have ran : minixLoadInode i t = .ok (data.inode (inodeSlot i)) t := by
    unfold minixLoadInode
    rw [get_bind]
    exact bind_of_ok load
  rw [loaded, ran]

theorem loaded_of_error {e : Quit} (stops : minixLoadBlock (t.sb.inodeBlock i) t = .error e t) :
    loaded i t = .error e := by
  have ran : minixLoadInode i t = .error e t := by
    unfold minixLoadInode
    rw [get_bind]
    exact bind_of_error stops
  rw [loaded, ran]

/-- A load is a matter of where the block is and of what is there. -/
theorem loaded_eq : loaded i t =
    if 2 ^ 31 ≤ t.blockOff (t.sb.inodeBlock i) then .error .undefined
    else if t.blockOff (t.sb.inodeBlock i) < 0 then .error (.screamed "Could not seek to block.")
    else match t.img.read (t.blockOff (t.sb.inodeBlock i)).toNat with
      | some data => .ok (data.inode (inodeSlot i))
      | none => .error (.screamed "Could not read file block.") := by
  split
  · next far =>
    refine loaded_of_error (bind_of_error ?_)
    unfold seekBlock
    rw [get_bind, if_pos far]
    rfl
  next near_ =>
  split
  · next negative =>
    refine loaded_of_error (bind_of_error ?_)
    unfold seekBlock
    rw [get_bind, if_neg near_, if_pos negative]
    rfl
  next positive =>
  have reaches : t.Reaches (t.sb.inodeBlock i) := ⟨by omega, by omega⟩
  cases read : t.img.read (t.blockOff (t.sb.inodeBlock i)).toNat with
  | some data => exact loaded_of_ok (minixLoadBlock_ok_iff.mpr ⟨rfl, by rw [Tool.blockAt, if_pos reaches, read]⟩)
  | none =>
    refine loaded_of_error ((bind_of_ok (seekBlock_ok_iff.mpr ⟨rfl, reaches, rfl⟩)).trans ?_)
    rw [get_bind, read]
    rfl

/-- What a store to the table leaves as it was: all of the disk but the 32 bytes of the inode. -/
theorem inodeStore_outside {u : Unit} (fits : t.sb.TableFits) (here : t.sb.Numbers i)
    (saved : minixSaveInode i x t = .ok u t') : t'.img.size = t.img.size ∧
      ∀ y < t.img.size, ¬ (t.inodeOff i ≤ y ∧ y < t.inodeOff i + 32) → t'.img.bytes y = t.img.bytes y := by
  obtain ⟨data, at_, rfl⟩ := minixSaveInode_ok_iff.mp saved
  have reaches := reaches_of_blockAt at_
  have block := (inodeBlock_toNat fits here).1
  have slot := inodeSlot_eq here
  have some_ := here.1
  have read : t.img.read (t.blockOff (t.sb.inodeBlock i)).toNat = some data := by
    rwa [Tool.blockAt, if_pos reaches] at at_
  unfold Image.read at read
  split at read
  · next inside =>
    refine ⟨Nat.max_eq_left inside, fun y within away => ?_⟩
    change (t.img.write (t.blockOff (t.sb.inodeBlock i)).toNat _).bytes y = _
    by_cases outside : (t.blockOff (t.sb.inodeBlock i)).toNat ≤ y ∧
      y < (t.blockOff (t.sb.inodeBlock i)).toNat + minixBlockSize
    · obtain ⟨lower, upper⟩ := outside
      have low : y - (t.blockOff (t.sb.inodeBlock i)).toNat < 1024 := by
        unfold minixBlockSize at upper
        omega
      have same := congrFun (Option.some_inj.mp read) (Fin.ofNat 1024 (y - (t.blockOff (t.sb.inodeBlock i)).toNat))
      have place : (Fin.ofNat 1024 (y - (t.blockOff (t.sb.inodeBlock i)).toNat)).val =
        y - (t.blockOff (t.sb.inodeBlock i)).toNat := Nat.mod_eq_of_lt low
      have far : ¬ (32 * inodeSlot i ≤ y - (t.blockOff (t.sb.inodeBlock i)).toNat ∧
          y - (t.blockOff (t.sb.inodeBlock i)).toNat < 32 * inodeSlot i + 32) := by
        have positive := reaches.1
        unfold Tool.inodeOff at away
        unfold Tool.blockOff minixBlockSize at *
        omega
      rw [place, Nat.add_sub_cancel' lower] at same
      rw [same, Image.write]
      dsimp only
      rw [if_pos ⟨lower, upper⟩]
      exact overwrite_outside low far
    · exact write_outside within outside
  · cases read

theorem loaded_congr (ps : t'.ps = t.ps) (sb : t'.sb = t.sb) (read : t.Reaches (t.sb.inodeBlock i) →
      t'.img.read (t.blockOff (t.sb.inodeBlock i)).toNat = t.img.read (t.blockOff (t.sb.inodeBlock i)).toNat) :
    loaded i t' = loaded i t := by
  have place : t'.blockOff (t.sb.inodeBlock i) = t.blockOff (t.sb.inodeBlock i) := by
    rw [Tool.blockOff, Tool.blockOff, ps]
  rw [loaded_eq, loaded_eq, sb, place]
  split
  · rfl
  next near_ =>
  split
  · rfl
  next positive => rw [read ⟨by omega, by omega⟩]

/-- Loading gives what was saved in the same place and what was there in the others. -/
theorem loaded_save {u : Unit} (fits : t.sb.TableFits) (here : t.sb.Numbers i) (there : t.sb.Numbers j)
    (saved : minixSaveInode i x t = .ok u t') : loaded j t' = if j = i then .ok x else loaded j t := by
  obtain ⟨data, at_, same⟩ := minixSaveInode_ok_iff.mp saved
  by_cases together : t.sb.inodeBlock j = t.sb.inodeBlock i
  · have loads : minixLoadInode j t = .ok (data.inode (inodeSlot j)) t :=
      minixLoadInode_ok_iff.mpr ⟨rfl, data, by rwa [← together] at at_, rfl⟩
    have after := minixLoadInode_save fits here there saved loads
    rw [loaded, after, loaded, loads]
    exact apply_ite Except.ok _ _ _
  · have other : j ≠ i := fun same => together (congrArg _ same)
    have size := (inodeStore_outside fits here saved).1
    rw [if_neg other]
    refine loaded_congr (by rw [same]; rfl) (by rw [same]; rfl) fun reaches => ?_
    cases read : t.img.read (t.blockOff (t.sb.inodeBlock j)).toNat with
    | some old =>
      have kept := blockAt_putBlock_apart (b := data.setInode (inodeSlot i) x)
        (by rw [Tool.blockAt, if_pos reaches, read]) (reaches_of_blockAt at_) together
      have reaches' : (t.putBlock (t.sb.inodeBlock i) (data.setInode (inodeSlot i) x)).Reaches (t.sb.inodeBlock j) :=
        reaches
      rw [same]
      rwa [Tool.blockAt, if_pos reaches'] at kept
    | none =>
      unfold Image.read at read ⊢
      rw [size]
      split at read
      · cases read
      · next short => rw [if_neg short]

/-- The table of inodes is a store: an inode that was saved is loaded as it was saved, all the others give what
they gave before, and no byte of the disk has changed but the 32 bytes of the inode. -/
theorem inode_table_store_load {u : Unit} (fits : t.sb.TableFits) (here : t.sb.Numbers i) (there : t.sb.Numbers j)
    (saved : minixSaveInode i x t = .ok u t') :
    loaded j t' = (if j = i then .ok x else loaded j t) ∧ t'.img.size = t.img.size ∧
      ∀ y < t.img.size, ¬ (t.inodeOff i ≤ y ∧ y < t.inodeOff i + 32) → t'.img.bytes y = t.img.bytes y :=
  ⟨loaded_save fits here there saved, inodeStore_outside fits here saved⟩

theorem inode_table_store_load_second : ∃ t', minixSaveInode 2 emptyInode smallDisk = .ok () t' ∧
    loaded 3 t' = (if 3 = 2 then .ok emptyInode else loaded 3 smallDisk) ∧ t'.img.size = smallDisk.img.size ∧
      ∀ y < smallDisk.img.size, ¬ (smallDisk.inodeOff 2 ≤ y ∧ y < smallDisk.inodeOff 2 + 32) →
        t'.img.bytes y = smallDisk.img.bytes y := by
  have table : smallDisk.blockAt (smallDisk.sb.inodeBlock 2) = some fun _ => 0xff := by
    have inside :
        (smallDisk.blockOff (smallDisk.sb.inodeBlock 2)).toNat + minixBlockSize ≤ smallDisk.img.size := by decide
    rw [Tool.blockAt, if_pos (by decide), Image.read, if_pos inside]
    rfl
  have fits : smallDisk.sb.TableFits := by
    unfold Superblock.TableFits
    decide
  have saved : minixSaveInode 2 emptyInode smallDisk = .ok () _ := minixSaveInode_ok_iff.mpr ⟨_, table, rfl⟩
  exact ⟨_, saved, @inode_table_store_load smallDisk _ emptyInode 2 3 () fits ⟨by decide, by decide⟩
    ⟨by decide, by decide⟩ saved⟩

end AtaKernel.Minix
