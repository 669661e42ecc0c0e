import AtaKernel.Minix.Ownership

/-! The loop with which `minix_write` copies the kernel into the partition: a
block is added to the file, the data is stored there, and the size grows by what
was read. Whatever the disk and the zone map held before, the blocks read back
by way of the inode, each in a zone of its own that was free. -/
namespace AtaKernel.Minix
open BitTable StateProgram

/-- One round, with the data read from the kernel file and the number of bytes read. -/
def copyBlock (inode : Inode) (data : Block) (br : UInt32) : ToolM (UInt16 × Inode) := do
  let (z, inode) ← minixAddFileBlock inode
  minixStoreBlock z data
  pure (z, { inode with iSize := inode.iSize + br })

/-- `n` rounds from an inode on, with the zones that came back. -/
def copyBlocks (blocks : Nat → Block) (br : Nat → UInt32) :
    Nat → List UInt16 × Inode → ToolM (List UInt16 × Inode) :=
  upTo fun j x => do
    let (z, inode) ← copyBlock x.2 (blocks j) (br j)
    pure (x.1 ++ [z], inode)

variable {before t t' : Tool} {owned : List (Slot × Nat)} {inode inode' : Inode} {k n j : Nat} {z : UInt16}
  {s : Slot} {blocks : Nat → Block} {br : Nat → UInt32} {zones : List UInt16} {data : Block} {more : UInt32}

/-- The file of the first `n` blocks, with the zones of its slots and of its blocks. -/
structure Copied (before : Tool) (blocks : Nat → Block) (n : Nat) (owned : List (Slot × Nat))
    (zones : List UInt16) (inode : Inode) (t : Tool) : Prop where
  owns : Owns before owned inode t
  names : owned.map Prod.fst = slots n
  length : zones.length = n
  stored : ∀ j < n, ∃ k, (dataSlot j, k) ∈ owned ∧ zones[j]? = some (before.sb.zone k) ∧
    t.blockAt (before.sb.zone k) = some (blocks j)

/-! ## One round -/

theorem grows_iSize {x y : Inode × Tool} (grown : Grows s k x y) : y.1.iSize = x.1.iSize := by
  obtain ⟨-, placed⟩ := grows_iff.mp grown
  cases s with
  | field i => rw [placed, setZone_iSize]
  | entry s i =>
    obtain ⟨p, data, -, -, rfl⟩ := placed
    rfl

theorem growth_iSize {ss : List Slot} {ks : List Nat} {x y : Inode × Tool} (grown : Growth ss ks x y) :
    y.1.iSize = x.1.iSize := by
  induction grown with
  | done => rfl
  | more first _ ih => exact ih.trans (grows_iSize first)

theorem zoneIn_resize {size : UInt32} : t.zoneIn { inode with iSize := size } s = t.zoneIn inode s := by
  induction s with
  | field i => rfl
  | entry s i ih => rw [Tool.zoneIn, Tool.zoneIn, ih]

theorem Owns.resize {size : UInt32} (owns : Owns before owned inode t) :
    Owns before owned { inode with iSize := size } t where
  __ := owns
  zone x inside := zoneIn_resize.trans (owns.zone x inside)

theorem fileBlocks_of_size (size : inode.iSize.toNat = 1024 * n) : inode.fileBlocks = n := by
  have rest : inode.iSize % 1024 = 0 := by
    apply UInt32.toNat_inj.mp
    rw [UInt32.toNat_mod, size]
    exact Nat.mul_mod_right 1024 n
  have quotient : (inode.iSize / 1024).toNat = n := by
    rw [UInt32.toNat_div, size]
    exact Nat.mul_div_cancel_left n (by decide)
  unfold Inode.fileBlocks
  rw [if_neg (not_not.mpr rest), quotient]

theorem copyBlock_ok_iff : copyBlock inode data more t = .ok (z, inode') t' ↔ ∃ inode₁ t₁,
    minixAddFileBlock inode t = .ok (z, inode₁) t₁ ∧ t₁.Reaches z ∧ t' = t₁.putBlock z data ∧
      inode' = { inode₁ with iSize := inode₁.iSize + more } := by
  unfold copyBlock
  rw [bind_ok_iff]
  constructor
  · rintro ⟨⟨z₁, inode₁⟩, t₁, added, rest⟩
    obtain ⟨u, t₂, store, returned⟩ := bind_ok_iff.mp rest
    obtain ⟨reaches, rfl⟩ := minixStoreBlock_ok_iff.mp store
    obtain ⟨same, rfl⟩ := pure_ok_iff.mp returned
    obtain ⟨rfl, rfl⟩ := Prod.mk.inj same
    exact ⟨inode₁, t₁, added, reaches, rfl, rfl⟩
  · rintro ⟨inode₁, t₁, added, reaches, rfl, rfl⟩
    exact ⟨(z, inode₁), t₁, added, bind_ok_iff.mpr ⟨(), _, minixStoreBlock_ok_iff.mpr ⟨reaches, rfl⟩, rfl⟩⟩

theorem newSlots_zip {ks : List Nat} (length : (newSlots n).length = (ks ++ [k]).length) :
    (dataSlot n, k) ∈ (newSlots n).zip (ks ++ [k]) := by
  unfold newSlots at length ⊢
  rw [@List.length_append _ _ [dataSlot n], @List.length_append _ ks] at length
  rw [List.zip_append (Nat.add_right_cancel length)]
  exact List.mem_append_right _ List.mem_cons_self

/-- A round keeps the file. -/
theorem Copied.step (copied : Copied before blocks n owned zones inode t) (low : n < 519 + 512 * 512)
    (place : inode.fileBlocks = n) (ran : copyBlock inode (blocks n) more t = .ok (z, inode') t') :
    (∃ owned', Copied before blocks (n + 1) owned' (zones ++ [z]) inode' t') ∧
      inode'.iSize = inode.iSize + more := by
  obtain ⟨inode₁, t₁, added, reaches, rfl, rfl⟩ := copyBlock_ok_iff.mp ran
  obtain ⟨-, ks, k, grown, rfl⟩ := minixAddFileBlock_ok_iff.mp added
  rw [place] at grown
  have tree := tree_slots low.le
  have orderly := orderly_newSlots low
  rw [← copied.names] at tree orderly
  obtain ⟨owns, kept⟩ := copied.owns.growth tree orderly grown
  have names : (owned ++ (newSlots n).zip (ks ++ [k])).map Prod.fst = slots (n + 1) := by
    rw [List.map_append, copied.names, List.map_fst_zip (growth_length grown).le, slots_succ]
  have mine : (dataSlot n, k) ∈ owned ++ (newSlots n).zip (ks ++ [k]) :=
    List.mem_append_right _ (newSlots_zip (growth_length grown))
  have leaf : ∀ b i, .entry (dataSlot b) i ∉ slots (n + 1) := by
    intro b i inside
    obtain ⟨c, -, here⟩ := mem_slots.mp inside
    exact dataSlot_leaf here
  have tree' : Tree ((owned ++ (newSlots n).zip (ks ++ [k])).map Prod.fst) := names ▸ tree_slots low
  have zone : t.sb.zone k = before.sb.zone k := by rw [copied.owns.sb]
  rw [zone] at reaches ⊢
  refine ⟨⟨_, (owns.put tree' mine reaches fun j data inside => ?_).resize, names, ?_, ?_⟩, ?_⟩
  · exact absurd (names ▸ inside) (leaf n j)
  · rw [List.length_append, copied.length, List.length_singleton]
  · intro j within
    by_cases last : j = n
    · subst last
      refine ⟨k, mine, ?_, blockAt_putBlock_same reaches⟩
      rw [List.getElem?_append_right copied.length.le, copied.length, Nat.sub_self, List.getElem?_cons_zero]
    · obtain ⟨l, old, here, there⟩ := copied.stored j (by omega)
      have old' := List.mem_append_left ((newSlots n).zip (ks ++ [k])) old
      refine ⟨l, old', ?_, ?_⟩
      · rwa [List.getElem?_append_left (by rw [copied.length]; omega)]
      · refine blockAt_putBlock_apart (kept _ _ _ old (fun i => dataSlot_leaf) there) reaches fun same => last ?_
        have slot := congrArg Prod.fst (owns.zones_apart old' mine same)
        have born := congrArg Slot.birth slot
        rwa [birth_dataSlot, birth_dataSlot] at born
  · rw [growth_iSize grown]

/-- A round returns while enough zones are free, on a disk that has them. -/
theorem Copied.returns (copied : Copied before blocks n owned zones inode t) (low : n < 519 + 512 * 512)
    (place : inode.fileBlocks = n) (onDisk : ∀ k ∈ before.clearBits, (before.blockAt (before.sb.zone k)).isSome)
    (room : (slots (n + 1)).length ≤ before.clearBits.length) :
    ∃ z inode' t', copyBlock inode data more t = .ok (z, inode') t' := by
  have tree := tree_slots low.le
  have orderly := orderly_newSlots low
  have length : owned.length = (slots n).length := by rw [← copied.names, List.length_map]
  rw [← copied.names] at tree orderly
  rw [slots_succ, List.length_append, ← length] at room
  obtain ⟨ks, inode₁, t₁, grown⟩ := copied.owns.growth_exists tree orderly onDisk room
  obtain ⟨owns, -⟩ := copied.owns.growth tree orderly grown
  obtain ⟨ks, k, rfl⟩ : ∃ ks' k, ks = ks' ++ [k] := by
    rcases List.eq_nil_or_concat ks with rfl | ⟨ks', k, rfl⟩
    · have some_ := List.length_pos_of_mem (dataSlot_mem n)
      rw [growth_length grown] at some_
      cases some_
    · exact ⟨ks', k, List.concat_eq_append⟩
  have mine := List.mem_append_right owned (newSlots_zip (growth_length grown))
  have clear := mem_clearBits.mpr ⟨owns.small _ mine, owns.free _ mine⟩
  obtain ⟨data', there⟩ := Option.isSome_iff_exists.mp (onDisk k clear)
  have reaches : t₁.Reaches (t.sb.zone k) := by
    rw [copied.owns.sb]
    exact owns.reaches.mpr (reaches_of_blockAt there)
  exact ⟨_, _, _, copyBlock_ok_iff.mpr ⟨inode₁, t₁,
    minixAddFileBlock_ok_iff.mpr ⟨place ▸ low, ks, k, place ▸ grown, rfl⟩, reaches, rfl, rfl⟩⟩

/-! ## The loop -/

/-- The size after `i` of `n` rounds: whole blocks, but for the last round. -/
structure Sized (n i : Nat) (inode : Inode) : Prop where
  upper : inode.iSize.toNat ≤ 1024 * i
  lower : 1024 * i < inode.iSize.toNat + 1024
  whole : i < n → inode.iSize.toNat = 1024 * i

/-- What the rounds read: 1024 bytes each, but for the last, which may read fewer. -/
structure Reads (n : Nat) (br : Nat → UInt32) : Prop where
  whole : ∀ j, j + 1 < n → br j = 1024
  some_ : ∀ j < n, 0 < (br j).toNat ∧ (br j).toNat ≤ 1024

theorem Sized.step {i : Nat} (sized : Sized n i inode) (reads : Reads n br) (within : i < n)
    (low : i < 519 + 512 * 512) (size : inode'.iSize = inode.iSize + br i) : Sized n (i + 1) inode' := by
  have here := sized.whole within
  have some_ := reads.some_ i within
  have added : inode'.iSize.toNat = 1024 * i + (br i).toNat := by
    rw [size, UInt32.toNat_add, here]
    exact Nat.mod_eq_of_lt (by omega)
  refine ⟨by omega, by omega, fun more => ?_⟩
  have full : (br i).toNat = 1024 := by
    rw [reads.whole i more]
    rfl
  omega

/-- Where the loop stands after `i` of `n` rounds. -/
def Midway (before : Tool) (blocks : Nat → Block) (n i : Nat) (x : List UInt16 × Inode) (t : Tool) : Prop :=
  (∃ owned, Copied before blocks i owned x.1 x.2 t) ∧ Sized n i x.2

theorem midway_start (empty : inode.iSize = 0) : Midway t blocks n 0 ([], inode) t := by
  refine ⟨⟨[], owns_nothing, rfl, rfl, fun j within => absurd within j.not_lt_zero⟩, ?_, ?_, fun _ => ?_⟩ <;>
    rw [empty] <;> decide

theorem Midway.step {i : Nat} {x x' : List UInt16 × Inode} (midway : Midway before blocks n i x t)
    (reads : Reads n br) (within : i < n) (low : i < 519 + 512 * 512)
    (ran : (do let (z, inode) ← copyBlock x.2 (blocks i) (br i); pure (x.1 ++ [z], inode)) t = .ok x' t') :
    Midway before blocks n (i + 1) x' t' := by
  obtain ⟨⟨owned, copied⟩, sized⟩ := midway
  obtain ⟨⟨z, inode'⟩, t₁, round, returned⟩ := bind_ok_iff.mp ran
  obtain ⟨rfl, rfl⟩ := pure_ok_iff.mp returned
  obtain ⟨copied', size⟩ := copied.step low (fileBlocks_of_size (sized.whole within)) round
  exact ⟨copied', sized.step reads within low size⟩

theorem slots_length_mono {i : Nat} (le : i ≤ n) : (slots i).length ≤ (slots n).length := by
  induction le with
  | refl => exact le_rfl
  | @step m _ ih =>
    rw [slots_succ, List.length_append]
    exact le_trans ih (Nat.le_add_right _ _)

theorem copyBlocks_midway (reads : Reads n br) (bound : n ≤ 519 + 512 * 512) (empty : inode.iSize = 0)
    (ran : copyBlocks blocks br n ([], inode) t = .ok (zones, inode') t') :
    Midway t blocks n n (zones, inode') t' :=
  upTo_invariant (Midway t blocks n) (midway_start empty)
    (fun _ low _ _ _ _ midway => midway.step reads low (lt_of_lt_of_le low bound)) ran

theorem copyBlocks_returns (reads : Reads n br) (bound : n ≤ 519 + 512 * 512) (empty : inode.iSize = 0)
    (room : (slots n).length ≤ t.clearBits.length)
    (onDisk : ∀ k ∈ t.clearBits, (t.blockAt (t.sb.zone k)).isSome) :
    ∃ x t', copyBlocks blocks br n ([], inode) t = .ok x t' := by
  obtain ⟨x, t', ran, -⟩ := upTo_returns (Midway t blocks n) (midway_start empty)
    fun i low c mid midway => by
      obtain ⟨⟨owned, copied⟩, sized⟩ := midway
      obtain ⟨z, inode', t', round⟩ : ∃ z inode' t', copyBlock c.2 (blocks i) (br i) mid = .ok (z, inode') t' :=
        copied.returns (lt_of_lt_of_le low bound) (fileBlocks_of_size (sized.whole low)) onDisk
          (le_trans (slots_length_mono low) room)
      have whole := bind_of_ok (f := fun y : UInt16 × Inode => pure (c.1 ++ [y.1], y.2)) round
      exact ⟨_, t', whole, Midway.step ⟨⟨owned, copied⟩, sized⟩ reads low (lt_of_lt_of_le low bound) whole⟩
  exact ⟨x, t', ran⟩

/-! ## Reading back -/

/-- The file of `n` blocks in `inode`, written since `before`: its blocks are found by
`minix_file_block_2_block` and hold the data; the zones of its slots, those of the bits `ks`, were
free and are all different; and neither the zone map nor the image has changed elsewhere. -/
structure ReadsBack (before : Tool) (blocks : Nat → Block) (n : Nat) (ks : List Nat) (zones : List UInt16)
    (inode : Inode) (t : Tool) : Prop where
  length : zones.length = n
  found : ∀ j < n, ∃ z, zones[j]? = some z ∧ minixFileBlock2Block inode j t = .ok z t ∧
    minixLoadBlock z t = .ok (blocks j) t
  taken : (slots n).map (t.zoneIn inode) = ks.map fun k => some (before.sb.zone k)
  free : ∀ k ∈ ks, k ∈ before.clearBits
  apart : (ks.map before.sb.zone).Nodup
  map : ∀ k, bit t.zonesMap k = if k ∈ ks then some true else bit before.zonesMap k
  mapSize : t.zonesMap.size = before.zonesMap.size
  outside : ∀ x < before.img.size, (∀ k ∈ ks, ¬ before.Within (before.sb.zone k) x) →
    t.img.bytes x = before.img.bytes x

theorem Midway.readsBack (midway : Midway before blocks n n (zones, inode) t) (bound : n ≤ 519 + 512 * 512) :
    ∃ ks, ReadsBack before blocks n ks zones inode t := by
  obtain ⟨⟨owned, copied⟩, sized⟩ := midway
  have owns := copied.owns
  have lower : 1024 * n < inode.iSize.toNat + 1024 := sized.lower
  refine ⟨owned.map Prod.snd, copied.length, ?_, ?_, ?_, ?_, owns.map, owns.mapSize, ?_⟩
  · intro j within
    obtain ⟨k, mine, here, there⟩ := copied.stored j within
    refine ⟨_, here, minixFileBlock2Block_ok_iff.mpr ⟨rfl, by omega, by omega, by omega, owns.zone _ mine⟩, ?_⟩
    exact minixLoadBlock_ok_iff.mpr ⟨rfl, there⟩
  · rw [← copied.names, List.map_map, List.map_map]
    exact List.map_congr_left fun x inside => owns.zone x inside
  · intro k inside
    obtain ⟨x, mine, rfl⟩ := List.mem_map.mp inside
    exact mem_clearBits.mpr ⟨owns.small x mine, owns.free x mine⟩
  · rw [List.map_map]
    refine List.Nodup.map_on (fun x left y right same => owns.zones_apart left right same) ?_
    exact owns.apart.of_map
  · intro x within outside
    exact owns.outside x within fun y mine => outside y.2 (List.mem_map_of_mem mine)

/-- The file block map reads back. For every disk, zone map and contents, and every number of blocks
that the map of a file has room for: where the copy loop returns from an inode of size 0, the file is
as `ReadsBack` says; and it does return when enough zones are free and are on the disk. -/
theorem copied_file_reads_back (blocks : Nat → Block) (t : Tool) (bound : n ≤ 7 + 512 + 512 * 512)
    (reads : Reads n br) (empty : inode.iSize = 0) :
    (∀ zones inode' t', copyBlocks blocks br n ([], inode) t = .ok (zones, inode') t' →
      ∃ ks, ReadsBack t blocks n ks zones inode' t') ∧
    ((slots n).length ≤ t.clearBits.length → (∀ k ∈ t.clearBits, (t.blockAt (t.sb.zone k)).isSome) →
      ∃ zones inode' t', copyBlocks blocks br n ([], inode) t = .ok (zones, inode') t') := by
  constructor
  · intro zones inode' t' ran
    exact (copyBlocks_midway reads bound empty ran).readsBack bound
  · intro room onDisk
    obtain ⟨⟨zones, inode'⟩, t', ran⟩ := copyBlocks_returns reads bound empty room onDisk
    exact ⟨zones, inode', t', ran⟩

/-- A disk of 20 blocks, with 10 free zones from block 5 on. -/
def smallDisk : Tool where
  img := ⟨fun _ => 0xff, 20 * 1024⟩
  ps := 0
  sb := ⟨32, 10, 1, 1, 5, 0, 0x10081c00, 0x138f, 1⟩
  inodesMap := #[0xff]
  zonesMap := #[0, 0xfc]

def emptyInode : Inode := ⟨0, 0, 0, 0, 0, 0, fun _ => 0⟩

theorem copied_file_reads_back_eight_blocks : ∃ zones inode' t' ks,
    copyBlocks (fun j _ => UInt8.ofNat j) (fun _ => 1024) 8 ([], emptyInode) smallDisk = .ok (zones, inode') t' ∧
      ReadsBack smallDisk (fun j _ => UInt8.ofNat j) 8 ks zones inode' t' := by
  have whole : Reads 8 fun _ => 1024 := ⟨fun _ _ => rfl, fun _ _ => by decide⟩
  have both := @copied_file_reads_back emptyInode 8 _ (fun j _ => UInt8.ofNat j) smallDisk (by decide) whole rfl
  obtain ⟨zones, inode', t', ran⟩ := both.2 (by decide) (by decide)
  obtain ⟨ks, readsBack⟩ := both.1 zones inode' t' ran
  exact ⟨zones, inode', t', ks, ran, readsBack⟩

end AtaKernel.Minix
