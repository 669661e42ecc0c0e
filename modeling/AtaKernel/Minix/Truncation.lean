import AtaKernel.Minix.CopyLoop

/-! `minix_trunc_inode` gives the zones of a file back. Its loop goes through the
slots of the file in the order in which they were filled and unsets the bit of
each zone; but the number of its rounds is a local that nothing sets. -/
namespace AtaKernel.Minix
open BitTable StateProgram

/-- The locals of `minix_trunc_inode`, which the source does not initialise. -/
structure TruncLocals where
  fb : Int32
  blk : Block
  blk2 : Block

/-- `MAP_UNSET_BIT(zones_map, z - sb.s_firstdatazone)`: a number below the first data zone has no
bit, and neither has one beyond the map. -/
def unsetZoneBit (z : UInt16) : ToolM Unit := do
  let t ← get
  let n := (z.toNat : Int) - t.sb.sFirstdatazone.toNat
  if n < 0 then throw .undefined
  else match bit t.zonesMap n.toNat with
    | some _ => set { t with zonesMap := unsetBit t.zonesMap n.toNat }
    | none => throw .undefined

/-- A block of zones that is loaded, and given back, at a boundary of the block map only. -/
def reloadAt (boundary : Prop) [Decidable boundary] (data : Block) (blk : ToolM UInt16) : ToolM Block :=
  if boundary then do
    let blk ← blk
    let data ← minixLoadBlock blk
    unsetZoneBit blk
    pure data
  else pure data

/-- A round, with the blocks of zones that the rounds before it loaded. -/
def truncRound (inode : Inode) (i : Nat) (x : Block × Block) : ToolM (Block × Block) :=
  if i < 7 then do
    unsetZoneBit (inode.zone i)
    pure x
  else if i < 7 + 512 then do
    let blk ← reloadAt (i = 7) x.1 (pure (inode.zone 7))
    let z ← wordAt blk (i - 7)
    unsetZoneBit z
    pure (blk, x.2)
  else do
    let blk ← reloadAt (i = 7 + 512) x.1 (pure (inode.zone 8))
    let blk2 ← reloadAt ((i - 7 - 512) % 512 = 0) x.2 (wordAt blk ((i - 7 - 512) / 512))
    let z ← wordAt blk2 ((i - 7 - 512) % 512)
    unsetZoneBit z
    pure (blk, blk2)

def minixTruncInode (locals : TruncLocals) (inode : Inode) : ToolM Unit := do
  let _ ← upTo (truncRound inode) locals.fb.toInt.toNat (locals.blk, locals.blk2)

/-! ## Giving slots back -/

/-- The bit of a zone. -/
def Tool.bitOf (t : Tool) (z : UInt16) : Option Nat :=
  if t.sb.sFirstdatazone.toNat ≤ z.toNat ∧ (bit t.zonesMap (z.toNat - t.sb.sFirstdatazone.toNat)).isSome then
    some (z.toNat - t.sb.sFirstdatazone.toNat)
  else none

/-- The bit of the zone in a slot. -/
def Tool.slotBit (t : Tool) (inode : Inode) (s : Slot) : Option Nat := t.zoneIn inode s >>= t.bitOf

def Tool.unmark (t : Tool) (ks : List Nat) : Tool := { t with zonesMap := ks.foldl unsetBit t.zonesMap }

/-- The zones in the slots `ss` have bits, and these are unset. -/
def Clears (inode : Inode) (ss : List Slot) (t t' : Tool) : Prop :=
  ∃ ks, ss.map (t.slotBit inode) = ks.map some ∧ t' = t.unmark ks

variable {before t t' mid : Tool} {inode inode' : Inode} {i k n : Nat} {z : UInt16} {s : Slot} {ss ss' : List Slot}
  {ks : List Nat} {x x' : Block × Block} {data data' : Block}

@[simp] theorem unmark_zoneIn : (t.unmark ks).zoneIn inode s = t.zoneIn inode s := by
  induction s with
  | field i => rfl
  | entry s i ih => rw [Tool.zoneIn, Tool.zoneIn, ih]; rfl

theorem unmark_size : (t.unmark ks).zonesMap.size = t.zonesMap.size := by
  change (ks.foldl unsetBit t.zonesMap).size = _
  generalize t.zonesMap = map
  induction ks generalizing map with
  | nil => rfl
  | cons k ks ih => rw [List.foldl_cons, ih, size_unsetBit]

@[simp] theorem unmark_slotBit : (t.unmark ks).slotBit inode = t.slotBit inode := by
  have bits : (t.unmark ks).bitOf = t.bitOf := by
    funext z
    unfold Tool.bitOf
    simp only [bit_isSome, unmark_size]
    rfl
  funext s
  rw [Tool.slotBit, Tool.slotBit, unmark_zoneIn, bits]

theorem bitOf_iff : t.bitOf z = some k ↔
    t.sb.sFirstdatazone.toNat + k = z.toNat ∧ (bit t.zonesMap k).isSome := by
  unfold Tool.bitOf
  split
  · next both =>
    rw [Option.some_inj]
    constructor
    · rintro rfl
      exact ⟨Nat.add_sub_cancel' both.1, both.2⟩
    · rintro ⟨sum, -⟩
      rw [← sum, Nat.add_sub_cancel_left]
  · next apart =>
    constructor
    · intro none_
      cases none_
    · rintro ⟨sum, within⟩
      refine absurd ⟨by omega, ?_⟩ apart
      rwa [← sum, Nat.add_sub_cancel_left]

theorem unsetZoneBit_ok_iff {u : Unit} :
    unsetZoneBit z t = .ok u t' ↔ ∃ k, t.bitOf z = some k ∧ t' = t.unmark [k] := by
  unfold unsetZoneBit
  rw [get_bind]
  split
  · next below =>
    refine error_ok_iff ?_
    rintro ⟨k, here, -⟩
    have sum := (bitOf_iff.mp here).1
    omega
  next above =>
  have place : ((z.toNat : Int) - t.sb.sFirstdatazone.toNat).toNat = z.toNat - t.sb.sFirstdatazone.toNat := by omega
  rw [place]
  cases found : bit t.zonesMap (z.toNat - t.sb.sFirstdatazone.toNat) with
  | none =>
    refine error_ok_iff ?_
    rintro ⟨k, here, -⟩
    obtain ⟨sum, within⟩ := bitOf_iff.mp here
    rw [← sum, Nat.add_sub_cancel_left] at found
    rw [found] at within
    cases within
  | some v =>
    change EStateM.Result.ok _ _ = _ ↔ _
    rw [EStateM.Result.ok.injEq, @eq_comm _ _ t']
    have here : t.bitOf z = some (z.toNat - t.sb.sFirstdatazone.toNat) :=
      bitOf_iff.mpr ⟨by omega, found ▸ rfl⟩
    constructor
    · rintro ⟨-, rfl⟩
      exact ⟨_, here, rfl⟩
    · rintro ⟨k, here', rfl⟩
      obtain rfl : _ = k := Option.some_inj.mp (here.symm.trans here')
      exact ⟨rfl, rfl⟩

theorem clears_nil : Clears inode [] t t' ↔ t' = t := by
  constructor
  · rintro ⟨ks, none_, rfl⟩
    obtain rfl : ks = [] := List.map_eq_nil_iff.mp none_.symm
    rfl
  · rintro rfl
    exact ⟨[], rfl, rfl⟩

theorem clears_one : Clears inode [s] t t' ↔ ∃ k, t.slotBit inode s = some k ∧ t' = t.unmark [k] := by
  constructor
  · rintro ⟨ks, one, rfl⟩
    cases ks with
    | nil => cases one
    | cons k ks =>
      obtain ⟨here, rest⟩ := List.cons.inj one
      obtain rfl : ks = [] := List.map_eq_nil_iff.mp rest.symm
      exact ⟨k, here, rfl⟩
  · rintro ⟨k, here, rfl⟩
    exact ⟨[k], congrArg (· :: []) here, rfl⟩

theorem clears_append : Clears inode (ss ++ ss') t t' ↔ ∃ mid, Clears inode ss t mid ∧ Clears inode ss' mid t' := by
  constructor
  · rintro ⟨ks, found, rfl⟩
    rw [List.map_append] at found
    obtain ⟨ks₁, ks₂, rfl, left, right⟩ := List.map_eq_append_iff.mp found.symm
    refine ⟨_, ⟨ks₁, left.symm, rfl⟩, ks₂, ?_, ?_⟩
    · rw [unmark_slotBit, right]
    · simp only [Tool.unmark, List.foldl_append]
  · rintro ⟨mid, ⟨ks₁, left, rfl⟩, ks₂, right, rfl⟩
    rw [unmark_slotBit] at right
    refine ⟨ks₁ ++ ks₂, ?_, ?_⟩
    · rw [List.map_append, List.map_append, left, right]
    · simp only [Tool.unmark, List.foldl_append]

/-- Giving slots back changes no block. -/
theorem Clears.blockAt (clears : Clears inode ss t t') : t'.blockAt z = t.blockAt z := by
  obtain ⟨ks, -, rfl⟩ := clears
  rfl

theorem Clears.zoneIn (clears : Clears inode ss t t') : t'.zoneIn inode s = t.zoneIn inode s := by
  obtain ⟨ks, -, rfl⟩ := clears
  exact unmark_zoneIn

theorem unset_ok_iff {u : Unit} (way : t.zoneIn inode s = some z) :
    unsetZoneBit z t = .ok u t' ↔ Clears inode [s] t t' := by
  have same : t.slotBit inode s = t.bitOf z := by
    rw [Tool.slotBit, way]
    rfl
  rw [unsetZoneBit_ok_iff, clears_one, same]

/-! ## A round -/

theorem slotBit_way (here : t.slotBit inode s = some k) : ∃ z, t.zoneIn inode s = some z ∧ t.bitOf z = some k :=
  Option.bind_eq_some_iff.mp here

theorem Clears.way (clears : Clears inode [s] t t') : ∃ z, t.zoneIn inode s = some z := by
  obtain ⟨k, here, -⟩ := clears_one.mp clears
  obtain ⟨z, way, -⟩ := slotBit_way here
  exact ⟨z, way⟩

/-- The caches before round `i`: the block of zones, or of blocks of zones, that round `i` needs and
does not load itself. -/
structure Cached (inode : Inode) (t : Tool) (i : Nat) (x : Block × Block) : Prop where
  low : i ≤ 519 + 512 * 512
  single : 7 < i → i < 519 → t.blockAt (inode.zone 7) = some x.1
  double : 519 < i → t.blockAt (inode.zone 8) = some x.1
  middle : 519 < i → (i - 519) % 512 ≠ 0 →
    ∃ z, t.zoneIn inode (.entry (.field 8) ((i - 519) / 512)) = some z ∧ t.blockAt z = some x.2

theorem cached_start : Cached inode t 0 x :=
  ⟨Nat.zero_le _, fun from_ => by omega, fun from_ => by omega, fun from_ => by omega⟩

/-- At a boundary the block comes from the disk, elsewhere from the cache. -/
theorem reloadAt_ok_iff {c : Prop} [Decidable c] {blk : ToolM UInt16} (way : t.zoneIn inode s = some z)
    (number : c → blk t = .ok z t) (cached : ¬ c → t.blockAt z = some data) :
    reloadAt c data blk t = .ok data' t' ↔
      t.blockAt z = some data' ∧ Clears inode (if c then [s] else []) t t' := by
  unfold reloadAt
  split
  · next boundary =>
    rw [bind_of_ok (number boundary), bind_ok_iff]
    constructor
    · rintro ⟨loaded, mid, load, rest⟩
      obtain ⟨rfl, there⟩ := minixLoadBlock_ok_iff.mp load
      obtain ⟨u, after, unset, returned⟩ := bind_ok_iff.mp rest
      obtain ⟨rfl, rfl⟩ := pure_ok_iff.mp returned
      exact ⟨there, (unset_ok_iff way).mp unset⟩
    · rintro ⟨there, clears⟩
      exact ⟨data', t, minixLoadBlock_ok_iff.mpr ⟨rfl, there⟩,
        bind_ok_iff.mpr ⟨(), t', (unset_ok_iff way).mpr clears, rfl⟩⟩
  · next inner =>
    rw [pure_ok_iff, clears_nil, cached inner, Option.some_inj, @eq_comm _ t]

theorem reloadAt_low {c : Prop} [Decidable c] {blk : Block}
    (ran : reloadAt c data (wordAt blk i) t = .ok data' t') (boundary : c) : i < 512 := by
  unfold reloadAt at ran
  rw [if_pos boundary] at ran
  obtain ⟨z, mid, word, -⟩ := bind_ok_iff.mp ran
  exact (wordAt_ok_iff.mp word).2.1

/-- A round that returns gives the slots of its block back, and hands the caches on. -/
theorem truncRound_clears (cached : Cached inode t i x) (ran : truncRound inode i x t = .ok x' t') :
    Clears inode (newSlots i) t t' ∧ Cached inode t' (i + 1) x' := by
  unfold truncRound at ran
  by_cases direct : i < 7
  · rw [if_pos direct] at ran
    obtain ⟨u, mid, unset, returned⟩ := bind_ok_iff.mp ran
    obtain ⟨-, rfl⟩ := pure_ok_iff.mp returned
    rw [newSlots_direct direct]
    exact ⟨(unset_ok_iff zoneIn_field).mp unset, by omega, fun from_ => by omega, fun from_ => by omega,
      fun from_ => by omega⟩
  rw [if_neg direct] at ran
  by_cases single : i < 519
  · rw [if_pos single] at ran
    obtain ⟨blk, mid, reload, rest⟩ := bind_ok_iff.mp ran
    obtain ⟨z, mid', word, rest'⟩ := bind_ok_iff.mp rest
    obtain ⟨rfl, -, rfl⟩ := wordAt_ok_iff.mp word
    obtain ⟨u, after, unset, returned⟩ := bind_ok_iff.mp rest'
    obtain ⟨rfl, rfl⟩ := pure_ok_iff.mp returned
    obtain ⟨there, first⟩ := (reloadAt_ok_iff zoneIn_field (fun _ => rfl)
      fun inner => cached.single (by omega) single).mp reload
    have there' := first.blockAt.trans there
    have last := (unset_ok_iff (zoneIn_entry_iff.mpr ⟨_, blk, zoneIn_field, there', rfl⟩)).mp unset
    rw [newSlots_single (by omega) single]
    exact ⟨clears_append.mpr ⟨_, first, last⟩, by omega, fun _ _ => last.blockAt.trans there',
      fun from_ => by omega, fun from_ => by omega⟩
  · have place : i - 7 - 512 = i - 519 := Nat.sub_sub i 7 512
    rw [if_neg single, place] at ran
    obtain ⟨blk, mid, reload, rest⟩ := bind_ok_iff.mp ran
    obtain ⟨there, first⟩ := (reloadAt_ok_iff zoneIn_field (fun _ => rfl)
      fun inner => cached.double (by omega)).mp reload
    obtain ⟨blk2, mid₂, reload₂, rest₂⟩ := bind_ok_iff.mp rest
    have bound := cached.low
    have low : i < 519 + 512 * 512 := by
      by_contra high
      have index := reloadAt_low reload₂ (by omega)
      omega
    obtain ⟨z, mid', word, rest₃⟩ := bind_ok_iff.mp rest₂
    obtain ⟨rfl, -, rfl⟩ := wordAt_ok_iff.mp word
    obtain ⟨u, after, unset, returned⟩ := bind_ok_iff.mp rest₃
    obtain ⟨rfl, rfl⟩ := pure_ok_iff.mp returned
    have there₁ := first.blockAt.trans there
    have way := (@zoneIn_entry_iff _ _ ((i - 519) / 512)).mpr ⟨_, blk, zoneIn_field, there₁, rfl⟩
    obtain ⟨there₂, second⟩ := (reloadAt_ok_iff way (fun _ => wordAt_ok_iff.mpr ⟨rfl, by omega, rfl⟩)
      (fun inner => by
        obtain ⟨z', way', here⟩ := cached.middle (by omega) inner
        rw [← first.zoneIn, way] at way'
        rw [Option.some_inj.mp way', first.blockAt]
        exact here)).mp reload₂
    have way' := second.zoneIn.trans way
    have there₂' := second.blockAt.trans there₂
    have last := (unset_ok_iff (zoneIn_entry_iff.mpr ⟨_, blk2, way', there₂', rfl⟩)).mp unset
    rw [newSlots_double (by omega)]
    refine ⟨clears_append.mpr ⟨_, clears_append.mpr ⟨_, first, second⟩, last⟩, by omega, fun _ below => by omega,
      fun _ => last.blockAt.trans (second.blockAt.trans there₁), fun _ inner => ?_⟩
    have same : (i + 1 - 519) / 512 = (i - 519) / 512 := by omega
    rw [same]
    exact ⟨_, last.zoneIn.trans way', last.blockAt.trans there₂'⟩

/-- A round returns when the zones in the slots of its block have bits. -/
theorem truncRound_returns (cached : Cached inode t i x) (low : i < 519 + 512 * 512)
    (clears : Clears inode (newSlots i) t t') : ∃ x', truncRound inode i x t = .ok x' t' := by
  unfold truncRound
  by_cases direct : i < 7
  · rw [newSlots_direct direct] at clears
    rw [if_pos direct, bind_of_ok ((unset_ok_iff zoneIn_field (u := ())).mpr clears)]
    exact ⟨x, rfl⟩
  rw [if_neg direct]
  by_cases single : i < 519
  · rw [newSlots_single (by omega) single] at clears
    obtain ⟨mid, first, last⟩ := clears_append.mp clears
    obtain ⟨z, way⟩ := last.way
    obtain ⟨p, data, field, there, word⟩ := zoneIn_entry_iff.mp way
    cases field
    have reload : reloadAt (i = 7) x.1 (pure (inode.zone 7)) t = .ok data mid :=
      (reloadAt_ok_iff zoneIn_field (fun _ => rfl) fun inner => cached.single (by omega) single).mpr
        ⟨first.blockAt.symm.trans there, first⟩
    rw [if_pos single, bind_of_ok reload, bind_of_ok (wordAt_ok_iff.mpr ⟨rfl, by omega, word⟩),
      bind_of_ok ((unset_ok_iff way (u := ())).mpr last)]
    exact ⟨_, rfl⟩
  · have place : i - 7 - 512 = i - 519 := Nat.sub_sub i 7 512
    rw [newSlots_double (by omega)] at clears
    obtain ⟨mid₂, both, last⟩ := clears_append.mp clears
    obtain ⟨mid, first, second⟩ := clears_append.mp both
    obtain ⟨z, way⟩ := last.way
    obtain ⟨p₂, data₂, way₂, there₂, word₂⟩ := zoneIn_entry_iff.mp way
    rw [second.zoneIn] at way₂
    rw [second.blockAt] at there₂
    obtain ⟨p, data, field, there, word⟩ := zoneIn_entry_iff.mp way₂
    cases field
    have reload : reloadAt (i = 519) x.1 (pure (inode.zone 8)) t = .ok data mid :=
      (reloadAt_ok_iff zoneIn_field (fun _ => rfl) fun inner => cached.double (by omega)).mpr
        ⟨first.blockAt.symm.trans there, first⟩
    have reload₂ : reloadAt ((i - 519) % 512 = 0) x.2 (wordAt data ((i - 519) / 512)) mid = .ok data₂ mid₂ :=
      (reloadAt_ok_iff way₂ (fun _ => wordAt_ok_iff.mpr ⟨rfl, by omega, word⟩) (fun inner => by
        obtain ⟨z', way', here⟩ := cached.middle (by omega) inner
        rw [← first.zoneIn, way₂] at way'
        rw [Option.some_inj.mp way', first.blockAt]
        exact here)).mpr ⟨there₂, second⟩
    rw [if_neg single, place, bind_of_ok reload, bind_of_ok reload₂,
      bind_of_ok (wordAt_ok_iff.mpr ⟨rfl, Nat.mod_lt _ (by decide), word₂⟩),
      bind_of_ok ((unset_ok_iff way (u := ())).mpr last)]
    exact ⟨_, rfl⟩

/-! ## The loop -/

theorem truncRounds_clear {m : Nat} (ran : upTo (truncRound inode) m x t = .ok x' t') :
    Clears inode (slots m) t t' ∧ Cached inode t' m x' := by
  refine upTo_invariant (fun i x mid => Clears inode (slots i) t mid ∧ Cached inode mid i x)
    ⟨clears_nil.mpr rfl, cached_start⟩ (fun i _ y mid y' mid' here round => ?_) ran
  obtain ⟨clears, cached⟩ := truncRound_clears here.2 round
  refine ⟨?_, cached⟩
  rw [slots_succ]
  exact clears_append.mpr ⟨mid, here.1, clears⟩

theorem truncRounds_return {m : Nat} (bound : m ≤ 519 + 512 * 512) (clears : Clears inode (slots m) t t') :
    ∃ x', upTo (truncRound inode) m x t = .ok x' t' := by
  induction m generalizing t' with
  | zero =>
    rw [clears_nil.mp clears]
    exact ⟨x, rfl⟩
  | succ m ih =>
    rw [slots_succ] at clears
    obtain ⟨mid, before_, last⟩ := clears_append.mp clears
    obtain ⟨y, rounds⟩ := ih (by omega) before_
    obtain ⟨x', round⟩ := truncRound_returns (truncRounds_clear rounds).2 (by omega) last
    exact ⟨x', upTo_succ_ok_iff.mpr ⟨y, mid, rounds, round⟩⟩

/-- Truncation goes through the slots of `fb` blocks. -/
theorem minixTruncInode_ok_iff {locals : TruncLocals} {u : Unit} : minixTruncInode locals inode t = .ok u t' ↔
    locals.fb.toInt.toNat ≤ 519 + 512 * 512 ∧ Clears inode (slots locals.fb.toInt.toNat) t t' := by
  unfold minixTruncInode
  rw [bind_ok_iff]
  constructor
  · rintro ⟨x, mid, rounds, returned⟩
    obtain ⟨-, rfl⟩ := pure_ok_iff.mp returned
    obtain ⟨clears, cached⟩ := truncRounds_clear rounds
    exact ⟨cached.low, clears⟩
  · rintro ⟨bound, clears⟩
    obtain ⟨x, rounds⟩ := truncRounds_return bound clears
    exact ⟨x, t', rounds, rfl⟩

/-! ## The zone map again -/

theorem bit_unmark (within : ∀ k ∈ ks, (bit t.zonesMap k).isSome) :
    bit (t.unmark ks).zonesMap k = if k ∈ ks then some false else bit t.zonesMap k := by
  change bit (ks.foldl unsetBit t.zonesMap) k = _
  revert within
  generalize t.zonesMap = map
  intro within
  induction ks generalizing map with
  | nil => rfl
  | cons l ks ih =>
    obtain ⟨v, here⟩ := Option.isSome_iff_exists.mp (within l List.mem_cons_self)
    have rest : ∀ k ∈ ks, (bit (unsetBit map l) k).isSome := by
      intro k inside
      rw [bit_isSome, size_unsetBit]
      exact bit_isSome.mp (within k (List.mem_cons_of_mem l inside))
    rw [List.foldl_cons, ih _ rest, bit_unsetBit here]
    by_cases later : k ∈ ks
    · rw [if_pos later, if_pos (List.mem_cons_of_mem l later)]
    · rw [if_neg later]
      by_cases first : k = l
      · rw [if_pos first, if_pos (first ▸ List.mem_cons_self)]
      · rw [if_neg first, if_neg fun inside => (List.mem_cons.mp inside).elim first later]

theorem slots_mono {m : Nat} (le : n ≤ m) (inside : s ∈ slots n) : s ∈ slots m := by
  obtain ⟨b, low, here⟩ := mem_slots.mp inside
  exact mem_slots.mpr ⟨b, lt_of_lt_of_le low le, here⟩

theorem zone_eq_of_sum {sb : Superblock} (sum : sb.sFirstdatazone.toNat + k = z.toNat) : sb.zone k = z := by
  have wide := z.toNat_lt
  apply UInt16.toNat_inj.mp
  rw [toNat_zone (by omega), sum]

/-- The slots of the first `m` blocks lead to zones that have bits, which were clear in `map`. -/
def LeadToClear (map : Table) (inode : Inode) (t : Tool) (m : Nat) : Prop :=
  ∀ s ∈ slots m, ∃ z k, t.zoneIn inode s = some z ∧ t.sb.sFirstdatazone.toNat + k = z.toNat ∧
    bit map k = some false

theorem leadToClear_clears {map : Table} {m : Nat} (leads : LeadToClear map inode t m)
    (size : map.size = t.zonesMap.size) : ∃ ks : List Nat, (slots m).map (t.slotBit inode) = ks.map some := by
  refine ⟨(slots m).filterMap (t.slotBit inode), ?_⟩
  unfold LeadToClear at leads
  generalize slots m = ss at leads
  induction ss with
  | nil => rfl
  | cons s ss ih =>
    obtain ⟨z, k, way, sum, clear⟩ := leads s List.mem_cons_self
    have here : t.slotBit inode s = some k := by
      rw [Tool.slotBit, way]
      refine bitOf_iff.mpr ⟨sum, bit_isSome.mpr ?_⟩
      rw [← size]
      exact bit_isSome.mp (clear ▸ rfl)
    rw [List.map_cons, List.filterMap_cons_some here, List.map_cons, here,
      ih fun s inside => leads s (List.mem_cons_of_mem _ inside)]

/-- The bits given back are those of the slots. -/
theorem given_iff (found : ss.map (t.slotBit inode) = ks.map some) :
    k ∈ ks ↔ ∃ s ∈ ss, ∃ z, t.zoneIn inode s = some z ∧ t.bitOf z = some k := by
  have mapped : k ∈ ks ↔ ∃ s ∈ ss, t.slotBit inode s = some k := by
    rw [← List.mem_map, found, List.mem_map]
    constructor
    · intro inside
      exact ⟨k, inside, rfl⟩
    · rintro ⟨l, inside, same⟩
      rwa [← Option.some_inj.mp same]
  rw [mapped]
  exact exists_congr fun s => and_congr_right fun _ => Option.bind_eq_some_iff

theorem given_within (found : ss.map (t.slotBit inode) = ks.map some) :
    ∀ k ∈ ks, (bit t.zonesMap k).isSome := by
  intro k inside
  obtain ⟨s, -, z, -, here⟩ := (given_iff found).mp inside
  exact (bitOf_iff.mp here).2

section Restored

variable {owned : List (Slot × Nat)} {m : Nat}

/-- Where the map is as it was, every slot led to a zone that was free before. -/
theorem leads_of_restored (found : (slots m).map (t.slotBit inode) = ks.map some)
    (restored : (t.unmark ks).zonesMap = before.zonesMap) : LeadToClear before.zonesMap inode t m := by
  intro s inside
  obtain ⟨k, mine, here⟩ := List.mem_map.mp (found ▸ List.mem_map_of_mem (f := t.slotBit inode) inside)
  obtain ⟨z, way, here'⟩ := slotBit_way here.symm
  refine ⟨z, k, way, (bitOf_iff.mp here').1, ?_⟩
  rw [← restored, bit_unmark (given_within found), if_pos mine]

/-- Fewer rounds than the file has blocks leave the bit of a zone set. -/
theorem Owns.restored_covers (owns : Owns before owned inode t) (names : owned.map Prod.fst = slots n)
    (found : (slots m).map (t.slotBit inode) = ks.map some)
    (restored : (t.unmark ks).zonesMap = before.zonesMap) : n ≤ m := by
  by_contra few
  have last : dataSlot m ∈ slots n := mem_slots.mpr ⟨m, by omega, dataSlot_mem m⟩
  obtain ⟨⟨s, k⟩, mine, same⟩ := List.mem_map.mp (names.symm ▸ last)
  have set_ := owns.map k
  rw [if_pos (List.mem_map_of_mem mine)] at set_
  have clear := owns.free _ mine
  have given : k ∈ ks := by
    by_contra kept
    have after := bit_unmark (k := k) (given_within found)
    rw [if_neg kept, restored, set_] at after
    rw [after] at clear
    cases clear
  obtain ⟨s', inside, z, way, here⟩ := (given_iff found).mp given
  obtain ⟨⟨s'', k'⟩, mine', rfl⟩ := List.mem_map.mp (names.symm ▸ slots_mono (by omega : m ≤ n) inside)
  have zone : before.sb.zone k' = before.sb.zone k := by
    rw [← Option.some_inj.mp ((owns.zone _ mine').symm.trans way).symm, ← owns.sb]
    exact (zone_eq_of_sum (bitOf_iff.mp here).1).symm
  obtain ⟨rfl, -⟩ := Prod.mk.inj (owns.zones_apart mine' mine zone)
  dsimp only at same inside
  rw [same] at inside
  exact not_mem_slots (birth_dataSlot m).ge inside

/-- A round for every block, and nothing but free zones behind them: the map is as it was. -/
theorem Owns.covers_restores (owns : Owns before owned inode t) (names : owned.map Prod.fst = slots n)
    (enough : n ≤ m) (leads : LeadToClear before.zonesMap inode t m)
    (found : (slots m).map (t.slotBit inode) = ks.map some) : (t.unmark ks).zonesMap = before.zonesMap := by
  refine table_ext (unmark_size.trans owns.mapSize) fun k => ?_
  rw [bit_unmark (given_within found)]
  by_cases inside : k ∈ ks
  · obtain ⟨s, mine, z, way, here⟩ := (given_iff found).mp inside
    obtain ⟨z', l, way', sum, clear⟩ := leads s mine
    obtain rfl : z = z' := Option.some_inj.mp (way.symm.trans way')
    have sum' := (bitOf_iff.mp here).1
    obtain rfl : k = l := by omega
    rw [if_pos inside, clear]
  · rw [if_neg inside, owns.map k]
    refine if_neg fun taken => inside ?_
    obtain ⟨⟨s, l⟩, mine, rfl⟩ := List.mem_map.mp taken
    have slot : s ∈ slots m := slots_mono enough (names ▸ List.mem_map_of_mem mine)
    obtain ⟨z, l', way, sum, clear⟩ := leads s slot
    have zone := zone_eq_of_sum sum
    rw [owns.sb, ← Option.some_inj.mp ((owns.zone _ mine).symm.trans way)] at zone
    have wide := before.sb.sNzones.toNat_lt
    have small := owns.small _ mine
    have bits : l' = l := zone_inj (by have := z.toNat_lt; omega) (by omega) zone
    subst bits
    have there : (bit t.zonesMap l').isSome := by
      rw [bit_isSome, owns.mapSize]
      exact bit_isSome.mp (clear ▸ rfl)
    exact (given_iff found).mpr ⟨s, slot, z, way, bitOf_iff.mpr ⟨sum, there⟩⟩

/-- Truncation gives back exactly what a file of `n` blocks took when it runs through all of them, and
what it finds behind them was free. -/
theorem Owns.truncation_restores_iff {locals : TruncLocals} (owns : Owns before owned inode t)
    (names : owned.map Prod.fst = slots n) :
    (∃ t', minixTruncInode locals inode t = .ok () t' ∧ t'.zonesMap = before.zonesMap) ↔
      n ≤ locals.fb.toInt.toNat ∧ locals.fb.toInt.toNat ≤ 519 + 512 * 512 ∧
        LeadToClear before.zonesMap inode t locals.fb.toInt.toNat := by
  constructor
  · rintro ⟨t', ran, restored⟩
    obtain ⟨bound, ks, found, rfl⟩ := minixTruncInode_ok_iff.mp ran
    exact ⟨owns.restored_covers names found restored, bound, leads_of_restored found restored⟩
  · rintro ⟨enough, bound, leads⟩
    obtain ⟨ks, found⟩ := leadToClear_clears leads owns.mapSize.symm
    exact ⟨t.unmark ks, minixTruncInode_ok_iff.mpr ⟨bound, ks, found, rfl⟩,
      owns.covers_restores names enough leads found⟩

end Restored

section File

variable {blocks : Nat → Block} {br : Nat → UInt32} {zones : List UInt16} {locals : TruncLocals}

/-- The slots of the copy lead to zones that were free before. -/
theorem copyBlocks_leads (bound : n ≤ 519 + 512 * 512) (reads : Reads n br) (empty : inode.iSize = 0)
    (ran : copyBlocks blocks br n ([], inode) t = .ok (zones, inode') t')
    (room : t.sb.sFirstdatazone.toNat + t.sb.sNzones.toNat ≤ 2 ^ 16) : LeadToClear t.zonesMap inode' t' n := by
  obtain ⟨⟨owned, copied⟩, -⟩ := copyBlocks_midway reads bound empty ran
  have owns : Owns t owned inode' t' := copied.owns
  intro s inside
  rw [← copied.names] at inside
  obtain ⟨x, mine, rfl⟩ := List.mem_map.mp inside
  have small := owns.small x mine
  refine ⟨_, x.2, owns.zone x mine, ?_, owns.free x mine⟩
  rw [owns.sb]
  exact (toNat_zone (by omega)).symm

/-- With as many rounds as the file has blocks, truncation undoes the copy loop. -/
theorem truncation_undoes_growth (bound : n ≤ 519 + 512 * 512) (reads : Reads n br) (empty : inode.iSize = 0)
    (ran : copyBlocks blocks br n ([], inode) t = .ok (zones, inode') t') (rounds : locals.fb.toInt = n)
    (room : t.sb.sFirstdatazone.toNat + t.sb.sNzones.toNat ≤ 2 ^ 16) :
    ∃ t'', minixTruncInode locals inode' t' = .ok () t'' ∧ t''.zonesMap = t.zonesMap := by
  obtain ⟨⟨owned, copied⟩, -⟩ := copyBlocks_midway reads bound empty ran
  have same : locals.fb.toInt.toNat = n := by rw [rounds, Int.toNat_natCast]
  apply (copied.owns.truncation_restores_iff copied.names).mpr
  rw [same]
  exact ⟨le_rfl, bound, copyBlocks_leads bound reads empty ran room⟩

/-- Nothing sets the number of rounds, and truncation undoes the copy loop exactly when that number
covers the file and the slots of the further blocks lead to zones that were free before. -/
theorem truncation_undoes_growth_iff (blocks : Nat → Block) (t : Tool) (locals : TruncLocals)
    (bound : n ≤ 7 + 512 + 512 * 512) (reads : Reads n br) (empty : inode.iSize = 0)
    (ran : copyBlocks blocks br n ([], inode) t = .ok (zones, inode') t') :
    (∃ t'', minixTruncInode locals inode' t' = .ok () t'' ∧ t''.zonesMap = t.zonesMap) ↔
      n ≤ locals.fb.toInt.toNat ∧ locals.fb.toInt.toNat ≤ 7 + 512 + 512 * 512 ∧
        LeadToClear t.zonesMap inode' t' locals.fb.toInt.toNat := by
  obtain ⟨⟨owned, copied⟩, -⟩ := copyBlocks_midway reads bound empty ran
  exact copied.owns.truncation_restores_iff copied.names

/-- Eight blocks and a map block, given back by eight rounds. -/
theorem truncation_undoes_growth_iff_eight_blocks : ∃ zones inode' t' t'',
    copyBlocks (fun j _ => UInt8.ofNat j) (fun _ => 1024) 8 ([], emptyInode) smallDisk = .ok (zones, inode') t' ∧
      minixTruncInode ⟨8, fun _ => 0, fun _ => 0⟩ inode' t' = .ok () t'' ∧ t''.zonesMap = smallDisk.zonesMap := by
  have whole : Reads 8 fun _ => 1024 := ⟨fun _ _ => rfl, fun _ _ => by decide⟩
  obtain ⟨⟨zones, inode'⟩, t', ran⟩ :=
    @copyBlocks_returns smallDisk emptyInode 8 (fun j _ => UInt8.ofNat j) _ whole (by decide) rfl (by decide)
      (by decide)
  have leads := copyBlocks_leads (by decide) whole rfl ran (by decide)
  obtain ⟨t'', truncated, restored⟩ :=
    (truncation_undoes_growth_iff _ smallDisk ⟨8, fun _ => 0, fun _ => 0⟩ (by decide) whole rfl ran).mpr
      ⟨by decide, by decide, leads⟩
  exact ⟨zones, inode', t', t'', ran, truncated, restored⟩

/-- Where `fb` happens to be 0, the zone of a file of one block stays taken. -/
theorem truncation_keeps_zone : ∃ zones inode' t',
    copyBlocks (fun _ _ => 1) (fun _ => 1024) 1 ([], emptyInode) smallDisk = .ok (zones, inode') t' ∧
      ¬ ∃ t'', minixTruncInode ⟨0, fun _ => 0, fun _ => 0⟩ inode' t' = .ok () t'' ∧
        t''.zonesMap = smallDisk.zonesMap := by
  have whole : Reads 1 fun _ => 1024 := ⟨fun _ _ => rfl, fun _ _ => by decide⟩
  obtain ⟨⟨zones, inode'⟩, t', ran⟩ :=
    @copyBlocks_returns smallDisk emptyInode 1 (fun _ _ => 1) _ whole (by decide) rfl (by decide) (by decide)
  obtain ⟨⟨owned, copied⟩, -⟩ := copyBlocks_midway whole (by decide) rfl ran
  refine ⟨zones, inode', t', ran, fun restored => ?_⟩
  have enough := ((copied.owns.truncation_restores_iff copied.names).mp restored).1
  exact absurd enough (by decide)

end File

end AtaKernel.Minix
