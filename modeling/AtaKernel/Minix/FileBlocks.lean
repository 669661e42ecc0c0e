import AtaKernel.Minix.Image

/-! The block map of a file: seven zones in the inode, one block of further
zones, and one block of such blocks. `minix_add_file_block` gives a file its next
block, with the blocks of zones that it needs on the way, and
`minix_file_block_2_block` looks a block up. -/
namespace AtaKernel.Minix
open BitTable StateProgram

/-! ## The zone map -/

/-- `s_firstdatazone + k` -/
def Superblock.zone (sb : Superblock) (k : Nat) : UInt16 := sb.sFirstdatazone + UInt16.ofNat k

def mapGetBit (map : Table) (n : Nat) : ToolM Bool :=
  match bit map n with
  | some v => pure v
  | none => throw .undefined

/-- `MAP_SET_BIT(zones_map, k)` -/
def setZoneBit (k : Nat) : ToolM Unit := do
  let t ← get
  match bit t.zonesMap k with
  | some _ => set { t with zonesMap := setBit t.zonesMap k }
  | none => throw .undefined

/-- `for (; k < sb.s_nzones && MAP_GET_BIT(zones_map, k); k ++)`, with `left` zones to the end. -/
def scanZones : Nat → Nat → ToolM Nat
  | 0, k => pure k
  | left + 1, k => do
    if ← mapGetBit (← get).zonesMap k then scanZones left (k + 1) else pure k

/-- The search that stands before every allocation. -/
def findZone : ToolM Nat := do
  let sb := (← get).sb
  let k ← scanZones sb.sNzones.toNat 0
  if k = sb.sNzones.toNat then screamAndQuit "No space left on device."
  else pure k

/-! ## The functions -/

/-- `((unsigned short *) blk.data)[i]` -/
def wordAt (data : Block) (i : Nat) : ToolM UInt16 :=
  if i < 512 then pure (data.word i) else throw .undefined

def setWordAt (data : Block) (i : Nat) (v : UInt16) : ToolM Block :=
  if i < 512 then pure (data.setWord i v) else throw .undefined

def minixFileBlock2Block (inode : Inode) (b : Nat) : ToolM UInt16 :=
  if 2 ^ 31 ≤ b * minixBlockSize then throw .undefined
  else if inode.iSize.toNat < b * minixBlockSize then screamAndQuit "Requested block is beyond EOF."
  else if b < 7 then pure (inode.zone b)
  else if b < 7 + 512 then do
    let data ← minixLoadBlock (inode.zone 7)
    wordAt data (b - 7)
  else do
    let data ← minixLoadBlock (inode.zone 8)
    let second ← wordAt data ((b - 519) / 512)
    let data ← minixLoadBlock second
    wordAt data ((b - 519) % 512)

/-- An allocation whose zone goes into `i_zones[i]`. -/
def takeField (inode : Inode) (i : Nat) : ToolM (UInt16 × Inode) := do
  let sb := (← get).sb
  let k ← findZone
  let inode := inode.setZone i (sb.zone k)
  setZoneBit k
  pure (sb.zone k, inode)

/-- An allocation whose zone goes into word `i` of `data`, which is then stored as block `blk`. -/
def takeEntry (blk : UInt16) (data : Block) (i : Nat) : ToolM (UInt16 × Block) := do
  let sb := (← get).sb
  let k ← findZone
  let data ← setWordAt data i (sb.zone k)
  setZoneBit k
  minixStoreBlock blk data
  pure (sb.zone k, data)

/-- An allocation that is made at a boundary of the block map only; else `a` stays as it is. -/
def onlyIf {α : Type} (boundary : Prop) [Decidable boundary] (a : α) (take : ToolM (UInt16 × α)) : ToolM α :=
  if boundary then Prod.snd <$> take else pure a

/-- `fb`: `i_size` in blocks, rounded up. -/
def Inode.fileBlocks (inode : Inode) : Nat :=
  if inode.iSize % 1024 ≠ 0 then (inode.iSize / 1024).toNat + 1 else (inode.iSize / 1024).toNat

def minixAddFileBlock (inode : Inode) : ToolM (UInt16 × Inode) := do
  let fb := inode.fileBlocks
  if fb < 7 then takeField inode fb
  else if fb < 7 + 512 then
    let inode ← onlyIf (fb = 7) inode (takeField inode 7)
    let data ← minixLoadBlock (inode.zone 7)
    let taken ← takeEntry (inode.zone 7) data (fb - 7)
    pure (taken.1, inode)
  else
    let inode ← onlyIf (fb = 7 + 512) inode (takeField inode 8)
    let data ← minixLoadBlock (inode.zone 8)
    let data ← onlyIf ((fb - 7 + 512) % 512 = 0) data
      (takeEntry (inode.zone 8) data ((fb - 7 - 512) / 512))
    let second ← wordAt data ((fb - 7 - 512) / 512)
    let data ← minixLoadBlock second
    let taken ← takeEntry second data ((fb - 7 - 512) % 512)
    pure (taken.1, inode)

/-! ## Slots -/

/-- A place that holds the number of a zone: a field of the inode, or a word of the block that
another slot leads to. -/
inductive Slot
  | field (i : Nat)
  | entry (s : Slot) (i : Nat)
  deriving DecidableEq

/-- The slot for block `b` of a file. -/
def dataSlot (b : Nat) : Slot :=
  if b < 7 then .field b
  else if b < 519 then .entry (.field 7) (b - 7)
  else .entry (.entry (.field 8) ((b - 519) / 512)) ((b - 519) % 512)

/-- The slots that come into use with block `b`, in the order in which they are filled. -/
def newSlots (b : Nat) : List Slot :=
  (if b = 7 then [.field 7] else []) ++ (if b = 519 then [.field 8] else []) ++
    (if 519 ≤ b ∧ (b - 519) % 512 = 0 then [.entry (.field 8) ((b - 519) / 512)] else []) ++ [dataSlot b]

/-- The slots of a file of `n` blocks. -/
def slots (n : Nat) : List Slot := (List.range n).flatMap newSlots

/-- The zone in a slot, if the blocks on the way to it are there. -/
def Tool.zoneIn (t : Tool) (inode : Inode) : Slot → Option UInt16
  | .field i => some (inode.zone i)
  | .entry s i => do
    let z ← t.zoneIn inode s
    let data ← t.blockAt z
    some (data.word i)

/-- The first zone that is free. -/
structure FirstClear (t : Tool) (k : Nat) : Prop where
  small : k < t.sb.sNzones.toNat
  clear : bit t.zonesMap k = some false
  below : ∀ j < k, bit t.zonesMap j = some true

def Tool.markZone (t : Tool) (k : Nat) : Tool := { t with zonesMap := setBit t.zonesMap k }

/-- Writes a zone into a slot. -/
def attach (inode : Inode) (t : Tool) (z : UInt16) : Slot → Option (Inode × Tool)
  | .field i => some (inode.setZone i z, t)
  | .entry s i => do
    let p ← t.zoneIn inode s
    let data ← t.blockAt p
    some (inode, t.putBlock p (data.setWord i z))

/-- One slot gets the first free zone, the one of bit `k`. -/
def Grows (s : Slot) (k : Nat) (x y : Inode × Tool) : Prop :=
  FirstClear x.2 k ∧ attach x.1 (x.2.markZone k) (x.2.sb.zone k) s = some y

/-- A row of slots, one after the other, with the bits of their zones. -/
inductive Growth : List Slot → List Nat → Inode × Tool → Inode × Tool → Prop
  | done {x : Inode × Tool} : Growth [] [] x x
  | more {s : Slot} {k : Nat} {ss : List Slot} {ks : List Nat} {x mid y : Inode × Tool} :
    Grows s k x mid → Growth ss ks mid y → Growth (s :: ss) (k :: ks) x y

variable {t t' : Tool} {inode inode' : Inode} {k i : Nat} {z : UInt16} {data data' : Block} {s : Slot}

/-! ## One allocation -/

@[simp] theorem markZone_blockAt : (t.markZone k).blockAt z = t.blockAt z := rfl

theorem markZone_bit {j : Nat} (clear : bit t.zonesMap k = some false) :
    bit (t.markZone k).zonesMap j = if j = k then some true else bit t.zonesMap j :=
  bit_setBit clear

@[simp] theorem markZone_zoneIn : (t.markZone k).zoneIn inode s = t.zoneIn inode s := by
  induction s with
  | field i => rfl
  | entry s i ih => rw [Tool.zoneIn, Tool.zoneIn, ih]; rfl

theorem mapGetBit_ok_iff {map : Table} {v : Bool} :
    mapGetBit map k t = .ok v t' ↔ t' = t ∧ bit map k = some v := by
  unfold mapGetBit
  cases bit map k with
  | none => exact error_ok_iff fun all => nomatch all.2
  | some w =>
    rw [pure_ok_iff, Option.some_inj, @eq_comm _ t]
    exact and_comm

theorem wordAt_ok_iff : wordAt data i t = .ok z t' ↔ t' = t ∧ i < 512 ∧ data.word i = z :=
  guarded_ok_iff

theorem setWordAt_ok_iff : setWordAt data i z t = .ok data' t' ↔
    t' = t ∧ i < 512 ∧ data.setWord i z = data' :=
  guarded_ok_iff

/-- A bit that is in the map is written. -/
theorem setInside_ok_iff {old : Option Bool} {new : Tool} {u : Unit} :
    (match old with
      | some _ => set new
      | none => throw .undefined : ToolM Unit) t = .ok u t' ↔ old.isSome ∧ t' = new := by
  cases old with
  | none => exact error_ok_iff fun all => nomatch all.1
  | some v =>
    change EStateM.Result.ok _ _ = _ ↔ _
    rw [EStateM.Result.ok.injEq, @eq_comm _ _ t']
    exact ⟨fun same => ⟨rfl, same.2⟩, fun same => ⟨rfl, same.2⟩⟩

theorem setZoneBit_ok_iff {u : Unit} :
    setZoneBit k t = .ok u t' ↔ (bit t.zonesMap k).isSome ∧ t' = t.markZone k := by
  unfold setZoneBit
  rw [get_bind]
  exact setInside_ok_iff

theorem scanZones_ok_iff {left k' : Nat} : scanZones left k t = .ok k' t' ↔
    t' = t ∧ k ≤ k' ∧ k' ≤ k + left ∧ (∀ j, k ≤ j → j < k' → bit t.zonesMap j = some true) ∧
      (k' < k + left → bit t.zonesMap k' = some false) := by
  induction left generalizing k with
  | zero =>
    rw [scanZones, pure_ok_iff]
    constructor
    · rintro ⟨rfl, rfl⟩
      exact ⟨rfl, le_rfl, le_rfl, fun j from_ below => by omega, fun more => by omega⟩
    · rintro ⟨rfl, from_, upto, -⟩
      exact ⟨by omega, rfl⟩
  | succ left ih =>
    rw [scanZones, get_bind, bind_ok_iff]
    constructor
    · rintro ⟨v, mid, got, rest⟩
      obtain ⟨rfl, here⟩ := mapGetBit_ok_iff.mp got
      cases v with
      | false =>
        obtain ⟨rfl, rfl⟩ := pure_ok_iff.mp rest
        exact ⟨rfl, le_rfl, by omega, fun j from_ below => by omega, fun _ => here⟩
      | true =>
        obtain ⟨rfl, from_, upto, set_, clear⟩ := ih.mp rest
        refine ⟨rfl, by omega, by omega, fun j from' below => ?_, fun more => clear (by omega)⟩
        rcases Nat.eq_or_lt_of_le from' with rfl | later
        · exact here
        · exact set_ j later below
    · rintro ⟨rfl, from_, upto, set_, clear⟩
      by_cases here : k = k'
      · subst here
        exact ⟨false, t', mapGetBit_ok_iff.mpr ⟨rfl, clear (by omega)⟩, rfl⟩
      · refine ⟨true, t', mapGetBit_ok_iff.mpr ⟨rfl, set_ k le_rfl (by omega)⟩, ?_⟩
        exact ih.mpr ⟨rfl, by omega, by omega, fun j from' => set_ j (by omega), fun more => clear (by omega)⟩

theorem findZone_ok_iff : findZone t = .ok k t' ↔ t' = t ∧ FirstClear t k := by
  unfold findZone
  rw [get_bind, bind_ok_iff]
  constructor
  · rintro ⟨k', mid, scanned, rest⟩
    obtain ⟨rfl, -, upto, set_, clear⟩ := scanZones_ok_iff.mp scanned
    split at rest
    · cases rest
    · next more =>
      obtain ⟨rfl, rfl⟩ := pure_ok_iff.mp rest
      exact ⟨rfl, by omega, clear (by omega), fun j => set_ j (Nat.zero_le j)⟩
  · rintro ⟨rfl, first⟩
    have small := first.small
    refine ⟨k, t', scanZones_ok_iff.mpr ⟨rfl, Nat.zero_le k, by omega, fun j _ => first.below j,
      fun _ => first.clear⟩, ?_⟩
    rw [if_neg (by omega)]
    rfl

theorem takeField_ok_iff : takeField inode i t = .ok (z, inode') t' ↔
    ∃ k, Grows (.field i) k (inode, t) (inode', t') ∧ z = t.sb.zone k := by
  unfold takeField
  rw [get_bind, bind_ok_iff]
  constructor
  · rintro ⟨k, mid, found, rest⟩
    obtain ⟨rfl, first⟩ := findZone_ok_iff.mp found
    obtain ⟨u, marked, mark, returned⟩ := bind_ok_iff.mp rest
    obtain ⟨-, rfl⟩ := setZoneBit_ok_iff.mp mark
    obtain ⟨same, rfl⟩ := pure_ok_iff.mp returned
    cases same
    exact ⟨k, ⟨first, rfl⟩, rfl⟩
  · rintro ⟨k, ⟨first, placed⟩, rfl⟩
    cases placed
    refine ⟨k, t, findZone_ok_iff.mpr ⟨rfl, first⟩, ?_⟩
    have mark : setZoneBit k t = .ok () (t.markZone k) :=
      setZoneBit_ok_iff.mpr ⟨first.clear ▸ rfl, rfl⟩
    rw [bind_of_ok mark]
    rfl

theorem attach_entry {p : UInt16} (way : t.zoneIn inode s = some p) (there : t.blockAt p = some data) :
    attach inode (t.markZone k) z (.entry s i) =
      some (inode, (t.markZone k).putBlock p (data.setWord i z)) := by
  rw [attach, markZone_zoneIn, way]
  change (t.markZone k).blockAt p >>= _ = _
  rw [markZone_blockAt, there]
  rfl

theorem takeEntry_ok_iff {p : UInt16} (way : t.zoneIn inode s = some p) (there : t.blockAt p = some data)
    (low : i < 512) : takeEntry p data i t = .ok (z, data') t' ↔
      ∃ k, Grows (.entry s i) k (inode, t) (inode, t') ∧ z = t.sb.zone k ∧ data' = data.setWord i z := by
  unfold takeEntry
  rw [get_bind, bind_ok_iff]
  constructor
  · rintro ⟨k, mid, found, rest⟩
    obtain ⟨rfl, first⟩ := findZone_ok_iff.mp found
    obtain ⟨data'', mid, worded, rest⟩ := bind_ok_iff.mp rest
    obtain ⟨rfl, -, rfl⟩ := setWordAt_ok_iff.mp worded
    obtain ⟨u, marked, mark, rest⟩ := bind_ok_iff.mp rest
    obtain ⟨-, rfl⟩ := setZoneBit_ok_iff.mp mark
    obtain ⟨u, stored, store, returned⟩ := bind_ok_iff.mp rest
    obtain ⟨-, rfl⟩ := minixStoreBlock_ok_iff.mp store
    obtain ⟨same, rfl⟩ := pure_ok_iff.mp returned
    cases same
    exact ⟨k, ⟨first, attach_entry way there⟩, rfl, rfl⟩
  · rintro ⟨k, ⟨first, placed⟩, rfl, rfl⟩
    have placed' := (attach_entry way there).symm.trans placed
    simp only [Option.some_inj, Prod.mk.injEq, true_and] at placed'
    subst placed'
    refine ⟨k, t, findZone_ok_iff.mpr ⟨rfl, first⟩, ?_⟩
    have mark : setZoneBit k t = .ok () (t.markZone k) :=
      setZoneBit_ok_iff.mpr ⟨first.clear ▸ rfl, rfl⟩
    have store : minixStoreBlock p (data.setWord i (t.sb.zone k)) (t.markZone k) =
        .ok () ((t.markZone k).putBlock p (data.setWord i (t.sb.zone k))) :=
      minixStoreBlock_ok_iff.mpr ⟨reaches_of_blockAt there, rfl⟩
    rw [bind_of_ok (setWordAt_ok_iff.mpr ⟨rfl, low, rfl⟩), bind_of_ok mark, bind_of_ok store]
    rfl

/-! ## The functions by their slots -/

theorem growth_append {ss ss' : List Slot} {ks : List Nat} {x y : Inode × Tool} :
    Growth (ss ++ ss') ks x y ↔
      ∃ ks₁ ks₂ mid, ks = ks₁ ++ ks₂ ∧ Growth ss ks₁ x mid ∧ Growth ss' ks₂ mid y := by
  constructor
  · intro grown
    induction ss generalizing ks x with
    | nil => exact ⟨[], ks, x, rfl, .done, grown⟩
    | cons s ss ih =>
      cases grown with
      | more first rest =>
        obtain ⟨ks₁, ks₂, mid, rfl, before, after⟩ := ih rest
        exact ⟨_, ks₂, mid, rfl, .more first before, after⟩
  · rintro ⟨ks₁, ks₂, mid, rfl, before, after⟩
    induction before with
    | done => exact after
    | more first _ ih => exact .more first (ih after)

theorem growth_single {ks : List Nat} {x y : Inode × Tool} :
    Growth [s] ks x y ↔ ∃ k, ks = [k] ∧ Grows s k x y := by
  constructor
  · intro grown
    cases grown with
    | more first rest =>
      cases rest
      exact ⟨_, rfl, first⟩
  · rintro ⟨k, rfl, first⟩
    exact .more first .done

theorem growth_none {ks : List Nat} {x y : Inode × Tool} : Growth [] ks x y ↔ ks = [] ∧ y = x := by
  constructor
  · intro grown
    cases grown
    exact ⟨rfl, rfl⟩
  · rintro ⟨rfl, rfl⟩
    exact .done

/-- What filling a slot does to the inode and the state. -/
theorem grows_iff {x y : Inode × Tool} : Grows s k x y ↔ FirstClear x.2 k ∧
    match s with
    | .field i => y = (x.1.setZone i (x.2.sb.zone k), x.2.markZone k)
    | .entry s i => ∃ p data, x.2.zoneIn x.1 s = some p ∧ x.2.blockAt p = some data ∧
      y = (x.1, (x.2.markZone k).putBlock p (data.setWord i (x.2.sb.zone k))) := by
  unfold Grows
  refine and_congr_right fun _ => ?_
  cases s with
  | field i =>
    rw [attach, Option.some_inj]
    exact eq_comm
  | entry s i =>
    rw [attach, markZone_zoneIn]
    constructor
    · intro placed
      obtain ⟨p, way, placed⟩ := Option.bind_eq_some_iff.mp placed
      obtain ⟨data, there, placed⟩ := Option.bind_eq_some_iff.mp placed
      exact ⟨p, data, way, there, (Option.some_inj.mp placed).symm⟩
    · rintro ⟨p, data, way, there, rfl⟩
      rw [way]
      change (x.2.markZone k).blockAt p >>= _ = _
      rw [markZone_blockAt, there]
      rfl

theorem grows_sb {x y : Inode × Tool} (grown : Grows s k x y) : y.2.sb = x.2.sb := by
  obtain ⟨-, placed⟩ := grows_iff.mp grown
  cases s with
  | field i => rw [placed]; rfl
  | entry s i =>
    obtain ⟨p, data, -, -, rfl⟩ := placed
    rfl

theorem growth_sb {ss : List Slot} {ks : List Nat} {x y : Inode × Tool} (grown : Growth ss ks x y) :
    y.2.sb = x.2.sb := by
  induction grown with
  | done => rfl
  | more first _ ih => exact ih.trans (grows_sb first)

/-- A field of the inode that is filled when it is needed. -/
theorem field_stage {c : Prop} [Decidable c] :
    onlyIf c inode (takeField inode i) t = .ok inode' t' ↔
      ∃ ks, Growth (if c then [.field i] else []) ks (inode, t) (inode', t') := by
  unfold onlyIf
  split
  · rw [map_ok_iff]
    constructor
    · rintro ⟨taken, run, rfl⟩
      obtain ⟨k, grown, -⟩ := takeField_ok_iff.mp run
      exact ⟨[k], growth_single.mpr ⟨k, rfl, grown⟩⟩
    · rintro ⟨ks, grown⟩
      obtain ⟨k, -, grown⟩ := growth_single.mp grown
      exact ⟨_, takeField_ok_iff.mpr ⟨k, grown, rfl⟩, rfl⟩
  · rw [pure_ok_iff]
    constructor
    · rintro ⟨rfl, rfl⟩
      exact ⟨[], .done⟩
    · rintro ⟨ks, grown⟩
      obtain ⟨-, same⟩ := growth_none.mp grown
      cases same
      exact ⟨rfl, rfl⟩

theorem zoneIn_field : t.zoneIn inode (.field i) = some (inode.zone i) := rfl

theorem zoneIn_entry_iff : t.zoneIn inode (.entry s i) = some z ↔
    ∃ p data, t.zoneIn inode s = some p ∧ t.blockAt p = some data ∧ data.word i = z := by
  rw [Tool.zoneIn]
  constructor
  · intro found
    obtain ⟨p, way, found⟩ := Option.bind_eq_some_iff.mp found
    obtain ⟨data, there, found⟩ := Option.bind_eq_some_iff.mp found
    exact ⟨p, data, way, there, Option.some_inj.mp found⟩
  · rintro ⟨p, data, way, there, rfl⟩
    rw [way]
    change t.blockAt p >>= _ = _
    rw [there]
    rfl

/-- A block is looked up by way of its slot. -/
theorem minixFileBlock2Block_ok_iff {b : Nat} : minixFileBlock2Block inode b t = .ok z t' ↔
    t' = t ∧ b * 1024 < 2 ^ 31 ∧ b * 1024 ≤ inode.iSize.toNat ∧ b < 519 + 512 * 512 ∧
      t.zoneIn inode (dataSlot b) = some z := by
  unfold minixFileBlock2Block minixBlockSize
  split
  · next wide => exact error_ok_iff fun all => absurd all.2.1 (by omega)
  next narrow =>
  split
  · next beyond => exact error_ok_iff fun all => absurd all.2.2.1 (by omega)
  next within =>
  unfold dataSlot
  by_cases direct : b < 7
  · rw [if_pos direct, if_pos direct, pure_ok_iff, @eq_comm _ t]
    exact ⟨fun both => ⟨both.2, by omega, by omega, by omega, congrArg some both.1⟩,
      fun all => ⟨Option.some_inj.mp all.2.2.2.2, all.1⟩⟩
  rw [if_neg direct, if_neg direct]
  by_cases single : b < 519
  · rw [if_pos single, if_pos single, bind_ok_iff]
    constructor
    · rintro ⟨data, mid, load, word⟩
      obtain ⟨rfl, there⟩ := minixLoadBlock_ok_iff.mp load
      obtain ⟨rfl, -, here⟩ := wordAt_ok_iff.mp word
      exact ⟨rfl, by omega, by omega, by omega, zoneIn_entry_iff.mpr ⟨_, data, rfl, there, here⟩⟩
    · rintro ⟨rfl, -, -, -, found⟩
      obtain ⟨p, data, way, there, here⟩ := zoneIn_entry_iff.mp found
      cases way
      exact ⟨data, t', minixLoadBlock_ok_iff.mpr ⟨rfl, there⟩, wordAt_ok_iff.mpr ⟨rfl, by omega, here⟩⟩
  · rw [if_neg single, if_neg single, bind_ok_iff]
    constructor
    · rintro ⟨data, mid, load, rest⟩
      obtain ⟨rfl, there⟩ := minixLoadBlock_ok_iff.mp load
      obtain ⟨second, mid', word, last⟩ := bind_ok_iff.mp rest
      obtain ⟨rfl, low, middle⟩ := wordAt_ok_iff.mp word
      obtain ⟨data', mid, load', word'⟩ := bind_ok_iff.mp last
      obtain ⟨rfl, there'⟩ := minixLoadBlock_ok_iff.mp load'
      obtain ⟨rfl, -, here⟩ := wordAt_ok_iff.mp word'
      exact ⟨rfl, by omega, by omega, by omega, zoneIn_entry_iff.mpr
        ⟨second, data', zoneIn_entry_iff.mpr ⟨_, data, rfl, there, middle⟩, there', here⟩⟩
    · rintro ⟨rfl, -, -, high, found⟩
      obtain ⟨second, data', way, there', here⟩ := zoneIn_entry_iff.mp found
      obtain ⟨p, data, field, there, middle⟩ := zoneIn_entry_iff.mp way
      cases field
      refine ⟨data, t', minixLoadBlock_ok_iff.mpr ⟨rfl, there⟩, bind_ok_iff.mpr
        ⟨second, t', wordAt_ok_iff.mpr ⟨rfl, by omega, middle⟩, bind_ok_iff.mpr
          ⟨data', t', minixLoadBlock_ok_iff.mpr ⟨rfl, there'⟩, wordAt_ok_iff.mpr ⟨rfl, ?_, here⟩⟩⟩⟩
      exact Nat.mod_lt _ (by decide)

/-- The loops over a file load block after block. -/
theorem block_loaded {α : Type} {f : UInt16 → Block → ToolM α} {a : α} {b : Nat}
    (ran : (minixFileBlock2Block inode b >>= fun z => minixLoadBlock z >>= f z) t = .ok a t') :
    ∃ z data, t.zoneIn inode (dataSlot b) = some z ∧ t.blockAt z = some data ∧ f z data t = .ok a t' := by
  obtain ⟨z, mid, looked, rest⟩ := bind_ok_iff.mp ran
  obtain ⟨rfl, -, -, -, way⟩ := minixFileBlock2Block_ok_iff.mp looked
  obtain ⟨data, mid', load, rest'⟩ := bind_ok_iff.mp rest
  obtain ⟨rfl, there⟩ := minixLoadBlock_ok_iff.mp load
  exact ⟨z, data, way, there, rest'⟩

theorem grows_entry {p : UInt16} (way : t.zoneIn inode s = some p) (there : t.blockAt p = some data)
    (grown : Grows (.entry s i) k (inode, t) (inode', t')) :
    inode' = inode ∧ t' = (t.markZone k).putBlock p (data.setWord i (t.sb.zone k)) := by
  have placed := (attach_entry way there).symm.trans grown.2
  simp only [Option.some_inj, Prod.mk.injEq] at placed
  exact ⟨placed.1.symm, placed.2.symm⟩

/-- The middle stage of a file with blocks of blocks. -/
theorem entry_stage {c : Prop} [Decidable c] {p : UInt16} (way : t.zoneIn inode s = some p)
    (there : t.blockAt p = some data) (low : i < 512) :
    onlyIf c data (takeEntry p data i) t = .ok data' t' ↔ t'.blockAt p = some data' ∧
      ∃ ks, Growth (if c then [.entry s i] else []) ks (inode, t) (inode, t') := by
  unfold onlyIf
  split
  · rw [map_ok_iff]
    constructor
    · rintro ⟨taken, run, rfl⟩
      obtain ⟨k, grown, zone, stored⟩ := (takeEntry_ok_iff way there low).mp run
      refine ⟨?_, [k], growth_single.mpr ⟨k, rfl, grown⟩⟩
      rw [(grows_entry way there grown).2, stored, zone]
      exact blockAt_putBlock_same (reaches_of_blockAt there)
    · rintro ⟨there', ks, grown⟩
      obtain ⟨k, -, grown⟩ := growth_single.mp grown
      refine ⟨_, (takeEntry_ok_iff way there low).mpr ⟨k, grown, rfl, rfl⟩, ?_⟩
      rw [(grows_entry way there grown).2] at there'
      exact Option.some_inj.mp ((blockAt_putBlock_same (reaches_of_blockAt there)).symm.trans there')
  · rw [pure_ok_iff]
    constructor
    · rintro ⟨rfl, rfl⟩
      exact ⟨there, [], .done⟩
    · rintro ⟨there', ks, grown⟩
      obtain ⟨-, same⟩ := growth_none.mp grown
      cases same
      exact ⟨Option.some_inj.mp (there.symm.trans there'), rfl⟩

theorem stage_back {c : Prop} [Decidable c] {ks : List Nat} {x y : Inode × Tool}
    (grown : Growth (if c then [.entry s i] else []) ks x y)
    (there : ∃ p d, y.2.zoneIn y.1 s = some p ∧ y.2.blockAt p = some d) :
    y.1 = x.1 ∧ ∃ p d, x.2.zoneIn x.1 s = some p ∧ x.2.blockAt p = some d := by
  split at grown
  · obtain ⟨k, -, filled⟩ := growth_single.mp grown
    obtain ⟨-, p, d, way, here, rfl⟩ := grows_iff.mp filled
    exact ⟨rfl, p, d, way, here⟩
  · obtain ⟨-, rfl⟩ := growth_none.mp grown
    exact ⟨rfl, there⟩

theorem newSlots_direct {b : Nat} (direct : b < 7) : newSlots b = [.field b] := by
  unfold newSlots dataSlot
  rw [if_neg (by omega), if_neg (by omega), if_neg (by omega), if_pos direct]
  rfl

theorem newSlots_single {b : Nat} (from_ : 7 ≤ b) (below : b < 519) :
    newSlots b = (if b = 7 then [.field 7] else []) ++ [.entry (.field 7) (b - 7)] := by
  unfold newSlots dataSlot
  rw [if_neg (show b ≠ 519 by omega), if_neg (show ¬ (519 ≤ b ∧ (b - 519) % 512 = 0) by omega),
    if_neg (show ¬ b < 7 by omega), if_pos below, List.append_nil, List.append_nil]

theorem newSlots_double {b : Nat} (from_ : 519 ≤ b) : newSlots b =
    ((if b = 519 then [.field 8] else []) ++
      (if (b - 519) % 512 = 0 then [.entry (.field 8) ((b - 519) / 512)] else [])) ++
        [.entry (.entry (.field 8) ((b - 519) / 512)) ((b - 519) % 512)] := by
  unfold newSlots dataSlot
  rw [if_neg (show b ≠ 7 by omega), if_neg (show ¬ b < 7 by omega), if_neg (show ¬ b < 519 by omega),
    List.nil_append]
  simp only [from_, true_and]

theorem minixAddFileBlock_direct (direct : inode.fileBlocks < 7) :
    minixAddFileBlock inode t = .ok (z, inode') t' ↔
      ∃ ks k, Growth (newSlots inode.fileBlocks) (ks ++ [k]) (inode, t) (inode', t') ∧ z = t.sb.zone k := by
  unfold minixAddFileBlock
  generalize inode.fileBlocks = fb at direct ⊢
  rw [if_pos direct, takeField_ok_iff, newSlots_direct direct]
  constructor
  · rintro ⟨k, grown, zone⟩
    exact ⟨[], k, growth_single.mpr ⟨k, rfl, grown⟩, zone⟩
  · rintro ⟨ks, k, grown, zone⟩
    obtain ⟨k', same, grown⟩ := growth_single.mp grown
    obtain ⟨rfl, rfl⟩ := List.append_singleton_inj.mp (show ks ++ [k] = [] ++ [k'] from same)
    exact ⟨k, grown, zone⟩

theorem minixAddFileBlock_single (from_ : 7 ≤ inode.fileBlocks) (single : inode.fileBlocks < 519) :
    minixAddFileBlock inode t = .ok (z, inode') t' ↔
      ∃ ks k, Growth (newSlots inode.fileBlocks) (ks ++ [k]) (inode, t) (inode', t') ∧ z = t.sb.zone k := by
  unfold minixAddFileBlock
  generalize inode.fileBlocks = fb at from_ single ⊢
  rw [if_neg (show ¬ fb < 7 by omega), if_pos single, newSlots_single (by omega) single, bind_ok_iff]
  constructor
  · rintro ⟨inode₁, t₁, stage, rest⟩
    obtain ⟨ks, grown⟩ := field_stage.mp stage
    obtain ⟨data, mid, load, rest'⟩ := bind_ok_iff.mp rest
    obtain ⟨rfl, there⟩ := minixLoadBlock_ok_iff.mp load
    obtain ⟨taken, mid, take, returned⟩ := bind_ok_iff.mp rest'
    obtain ⟨same, rfl⟩ := pure_ok_iff.mp returned
    cases same
    obtain ⟨k, grown', zone, -⟩ := (takeEntry_ok_iff zoneIn_field there (by omega)).mp take
    rw [growth_sb grown] at zone
    exact ⟨ks, k, growth_append.mpr ⟨ks, [k], _, rfl, grown, growth_single.mpr ⟨k, rfl, grown'⟩⟩, zone⟩
  · rintro ⟨ks, k, grown, zone⟩
    obtain ⟨ks₁, ks₂, ⟨inode₁, t₁⟩, same, grown, last⟩ := growth_append.mp grown
    obtain ⟨k', rfl, filled⟩ := growth_single.mp last
    obtain ⟨rfl, rfl⟩ := List.append_singleton_inj.mp same
    obtain ⟨-, p, data, way, there, -⟩ := grows_iff.mp filled
    cases way
    obtain ⟨rfl, -⟩ := grows_entry rfl there filled
    refine ⟨inode', t₁, field_stage.mpr ⟨ks, grown⟩, ?_⟩
    rw [bind_of_ok (minixLoadBlock_ok_iff.mpr ⟨rfl, there⟩),
      bind_of_ok ((takeEntry_ok_iff zoneIn_field there (by omega)).mpr ⟨k, filled, rfl, rfl⟩)]
    exact pure_ok_iff.mpr ⟨by rw [zone, growth_sb grown], rfl⟩

/-- The first index into the blocks of blocks is checked where it is used, and nowhere else. -/
theorem minixAddFileBlock_double (from_ : 519 ≤ inode.fileBlocks) :
    minixAddFileBlock inode t = .ok (z, inode') t' ↔ inode.fileBlocks < 519 + 512 * 512 ∧
      ∃ ks k, Growth (newSlots inode.fileBlocks) (ks ++ [k]) (inode, t) (inode', t') ∧ z = t.sb.zone k := by
  unfold minixAddFileBlock
  generalize inode.fileBlocks = fb at from_ ⊢
  have boundary : (fb - 7 + 512) % 512 = 0 ↔ (fb - 519) % 512 = 0 := by omega
  have new := newSlots_double from_
  simp only [← boundary] at new
  have place : fb - 7 - 512 = fb - 519 := Nat.sub_sub fb 7 512
  rw [if_neg (show ¬ fb < 7 by omega), if_neg (show ¬ fb < 7 + 512 by omega), new, place, bind_ok_iff]
  constructor
  · rintro ⟨inode₁, t₁, stage, rest⟩
    obtain ⟨ks, grown⟩ := field_stage.mp stage
    obtain ⟨data, mid, load, rest₁⟩ := bind_ok_iff.mp rest
    obtain ⟨rfl, there⟩ := minixLoadBlock_ok_iff.mp load
    obtain ⟨data₁, t₂, stage', rest₂⟩ := bind_ok_iff.mp rest₁
    obtain ⟨second, mid', word, rest₃⟩ := bind_ok_iff.mp rest₂
    obtain ⟨rfl, low, rfl⟩ := wordAt_ok_iff.mp word
    obtain ⟨there₁, ks', grown'⟩ := (entry_stage zoneIn_field there low).mp stage'
    obtain ⟨data₂, mid'', load', rest₄⟩ := bind_ok_iff.mp rest₃
    obtain ⟨rfl, there₂⟩ := minixLoadBlock_ok_iff.mp load'
    obtain ⟨taken, mid, take, returned⟩ := bind_ok_iff.mp rest₄
    obtain ⟨same, rfl⟩ := pure_ok_iff.mp returned
    cases same
    have way := (@zoneIn_entry_iff _ _ ((fb - 519) / 512)).mpr ⟨_, data₁, zoneIn_field, there₁, rfl⟩
    obtain ⟨k, last, zone, -⟩ := (takeEntry_ok_iff way there₂ (Nat.mod_lt _ (by decide))).mp take
    have both := growth_append.mpr ⟨ks, ks', _, rfl, grown, grown'⟩
    rw [growth_sb both] at zone
    exact ⟨by omega, ks ++ ks', k, growth_append.mpr ⟨_, [k], _, rfl, both, growth_single.mpr ⟨k, rfl, last⟩⟩, zone⟩
  · rintro ⟨high, ks, k, grown, zone⟩
    obtain ⟨ks₁, ks₂, ⟨inode₂, t₂⟩, same, both, last⟩ := growth_append.mp grown
    obtain ⟨k', rfl, filled⟩ := growth_single.mp last
    obtain ⟨rfl, rfl⟩ := List.append_singleton_inj.mp same
    obtain ⟨ks', ks'', ⟨inode₁, t₁⟩, rfl, grown, grown'⟩ := growth_append.mp both
    obtain ⟨-, p₂, data₂, way, there₂, -⟩ := grows_iff.mp filled
    obtain ⟨p₁, data₁, field, there₁, word⟩ := zoneIn_entry_iff.mp way
    cases field
    obtain ⟨same, p, data, field, there⟩ := stage_back grown' ⟨_, data₁, zoneIn_field, there₁⟩
    cases field
    obtain rfl : inode₂ = inode₁ := same
    obtain ⟨rfl, -⟩ := grows_entry way there₂ filled
    have low : (fb - 519) / 512 < 512 := by omega
    have stage := (entry_stage zoneIn_field there low).mpr ⟨there₁, ks'', grown'⟩
    refine ⟨inode', t₁, field_stage.mpr ⟨ks', grown⟩, ?_⟩
    rw [bind_of_ok (minixLoadBlock_ok_iff.mpr ⟨rfl, there⟩), bind_of_ok stage,
      bind_of_ok (wordAt_ok_iff.mpr ⟨rfl, low, word⟩), bind_of_ok (minixLoadBlock_ok_iff.mpr ⟨rfl, there₂⟩),
      bind_of_ok ((takeEntry_ok_iff way there₂ (Nat.mod_lt _ (by decide))).mpr ⟨k, filled, rfl, rfl⟩)]
    exact pure_ok_iff.mpr ⟨by rw [zone, growth_sb both], rfl⟩

/-- A file gets its next block by filling the slots that come into use with it. -/
theorem minixAddFileBlock_ok_iff : minixAddFileBlock inode t = .ok (z, inode') t' ↔
    inode.fileBlocks < 519 + 512 * 512 ∧ ∃ ks k,
      Growth (newSlots inode.fileBlocks) (ks ++ [k]) (inode, t) (inode', t') ∧ z = t.sb.zone k := by
  by_cases direct : inode.fileBlocks < 7
  · rw [minixAddFileBlock_direct direct, and_iff_right (by omega)]
  by_cases single : inode.fileBlocks < 519
  · rw [minixAddFileBlock_single (by omega) single, and_iff_right (by omega)]
  · exact minixAddFileBlock_double (by omega)

end AtaKernel.Minix
