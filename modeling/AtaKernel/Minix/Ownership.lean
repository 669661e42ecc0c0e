import AtaKernel.Minix.FileBlocks

/-! The zones that a file has taken since some earlier state of the tool. Each
slot of the file leads to a zone of its own, which was free then; the zone map
has changed at their bits alone, and the image within them alone. Filling a
further slot and writing a block that the file owns keep all of it. -/
namespace AtaKernel.Minix
open BitTable StateProgram

/-- Byte `x` of the image is one of block `z`. -/
def Tool.Within (t : Tool) (z : UInt16) (x : Nat) : Prop :=
  t.blockOff z ≤ x ∧ x < t.blockOff z + minixBlockSize

/-- The slots in `owned` lead to the zones of the bits beside them, all taken since `before`. -/
structure Owns (before : Tool) (owned : List (Slot × Nat)) (inode : Inode) (t : Tool) : Prop where
  ps : t.ps = before.ps
  sb : t.sb = before.sb
  zone : ∀ x ∈ owned, t.zoneIn inode x.1 = some (before.sb.zone x.2)
  small : ∀ x ∈ owned, x.2 < before.sb.sNzones.toNat
  free : ∀ x ∈ owned, bit before.zonesMap x.2 = some false
  apart : (owned.map Prod.snd).Nodup
  map : ∀ k, bit t.zonesMap k = if k ∈ owned.map Prod.snd then some true else bit before.zonesMap k
  mapSize : t.zonesMap.size = before.zonesMap.size
  size : before.img.size ≤ t.img.size
  outside : ∀ x < before.img.size, (∀ y ∈ owned, ¬ before.Within (before.sb.zone y.2) x) →
    t.img.bytes x = before.img.bytes x

/-- The slots make a tree: whatever leads to one of them is among them. -/
structure Tree (ss : List Slot) : Prop where
  closed : ∀ s i, .entry s i ∈ ss → s ∈ ss
  field : ∀ i, .field i ∈ ss → i < 9
  entry : ∀ s i, .entry s i ∈ ss → i < 512

variable {before t t' : Tool} {owned : List (Slot × Nat)} {inode inode' : Inode} {k k' i : Nat} {z : UInt16}
  {b data : Block} {s d : Slot}

theorem toNat_zone {sb : Superblock} (fits : sb.sFirstdatazone.toNat + k < 2 ^ 16) :
    (sb.zone k).toNat = sb.sFirstdatazone.toNat + k := by
  have number : (UInt16.ofNat k).toNat = k := by
    rw [UInt16.toNat_ofNat']
    exact Nat.mod_eq_of_lt (by omega)
  rw [Superblock.zone, UInt16.toNat_add, number]
  exact Nat.mod_eq_of_lt fits

theorem zone_inj {sb : Superblock} (left : k < 2 ^ 16) (right : k' < 2 ^ 16) (same : sb.zone k = sb.zone k') :
    k = k' := by
  have numbers := congrArg UInt16.toNat ((UInt16.add_right_inj sb.sFirstdatazone).mp same)
  rwa [UInt16.toNat_ofNat', UInt16.toNat_ofNat', Nat.mod_eq_of_lt left, Nat.mod_eq_of_lt right] at numbers

theorem owns_nothing : Owns t [] inode t where
  ps := rfl
  sb := rfl
  zone := fun _ inside => absurd inside List.not_mem_nil
  small := fun _ inside => absurd inside List.not_mem_nil
  free := fun _ inside => absurd inside List.not_mem_nil
  apart := List.nodup_nil
  map := fun _ => (if_neg List.not_mem_nil).symm
  mapSize := rfl
  size := le_rfl
  outside := fun _ _ _ => rfl

/-- Different slots lead to different zones. -/
theorem Owns.zones_apart (owns : Owns before owned inode t) {x y : Slot × Nat} (left : x ∈ owned)
    (right : y ∈ owned) (same : before.sb.zone x.2 = before.sb.zone y.2) : x = y := by
  have bits : x.2 = y.2 := by
    have wide := before.sb.sNzones.toNat_lt
    have small := owns.small x left
    have small' := owns.small y right
    exact zone_inj (by omega) (by omega) same
  exact List.inj_on_of_nodup_map owns.apart left right bits

theorem Owns.reaches (owns : Owns before owned inode t) : t.Reaches z ↔ before.Reaches z := by
  unfold Tool.Reaches Tool.blockOff
  rw [owns.ps]

/-- A block that was there before is still there. -/
theorem Owns.blockAt_isSome (owns : Owns before owned inode t) (there : (before.blockAt z).isSome) :
    (t.blockAt z).isSome := by
  have place : t.blockOff z = before.blockOff z := by
    unfold Tool.blockOff
    rw [owns.ps]
  have more := owns.size
  unfold Tool.blockAt at there ⊢
  split at there
  · next reaches =>
    rw [if_pos (owns.reaches.mpr reaches), place]
    unfold Image.read at there ⊢
    split at there
    · next fits =>
      rw [if_pos (by omega)]
      rfl
    · cases there
  · cases there

/-! ## Steps -/

/-- A block of the file is written, and the words that lead on stay. -/
theorem Owns.put (owns : Owns before owned inode t) (tree : Tree (owned.map Prod.fst)) (mine : (d, k) ∈ owned)
    (reaches : t.Reaches (before.sb.zone k))
    (same : ∀ j data, .entry d j ∈ owned.map Prod.fst → t.blockAt (before.sb.zone k) = some data →
      b.word j = data.word j) : Owns before owned inode (t.putBlock (before.sb.zone k) b) where
  ps := owns.ps
  sb := owns.sb
  zone := by
    rintro ⟨s, l⟩ inside
    induction s generalizing l with
    | field i => exact owns.zone _ inside
    | entry q j ih =>
      have name := List.mem_map_of_mem (f := Prod.fst) inside
      obtain ⟨⟨q', lq⟩, above, rfl⟩ := List.mem_map.mp (tree.closed q j name)
      obtain ⟨p, data, way, there, word⟩ := zoneIn_entry_iff.mp (owns.zone _ inside)
      obtain rfl : before.sb.zone lq = p := Option.some_inj.mp ((owns.zone _ above).symm.trans way)
      by_cases here : before.sb.zone lq = before.sb.zone k
      · obtain ⟨rfl, rfl⟩ := Prod.mk.inj (owns.zones_apart above mine here)
        refine zoneIn_entry_iff.mpr ⟨_, b, ih _ above, blockAt_putBlock_same reaches, ?_⟩
        rw [same j data name there, word]
      · exact zoneIn_entry_iff.mpr ⟨_, data, ih _ above, blockAt_putBlock_apart there reaches here, word⟩
  small := owns.small
  free := owns.free
  apart := owns.apart
  map := owns.map
  mapSize := owns.mapSize
  size := le_trans owns.size (Nat.le_max_left _ _)
  outside := by
    intro x within outside
    have more := owns.size
    have apart : ¬ (_ ∧ _) := outside (d, k) mine
    have place : t.blockOff (before.sb.zone k) = before.blockOff (before.sb.zone k) := by
      unfold Tool.blockOff
      rw [owns.ps]
    have near_ : 0 ≤ t.blockOff (before.sb.zone k) := reaches.1
    rw [← place] at apart
    rw [← owns.outside x within outside]
    exact write_outside (by omega) (by omega)

/-- A field of the inode that leads nowhere yet is free to be set. -/
theorem Owns.setField (owns : Owns before owned inode t) (tree : Tree (owned.map Prod.fst)) (low : i < 9)
    (new : .field i ∉ owned.map Prod.fst) : Owns before owned (inode.setZone i z) t where
  __ := owns
  zone := by
    rintro ⟨s, l⟩ inside
    induction s generalizing l with
    | field j =>
      have name := List.mem_map_of_mem (f := Prod.fst) inside
      have other : j ≠ i := by
        rintro rfl
        exact new name
      rw [zoneIn_field, zone_setZone low (tree.field j name), if_neg other]
      exact owns.zone _ inside
    | entry q j ih =>
      obtain ⟨⟨q', lq⟩, above, rfl⟩ := List.mem_map.mp
        (tree.closed q j (List.mem_map_of_mem (f := Prod.fst) inside))
      obtain ⟨p, data, way, there, word⟩ := zoneIn_entry_iff.mp (owns.zone _ inside)
      obtain rfl : before.sb.zone lq = p := Option.some_inj.mp ((owns.zone _ above).symm.trans way)
      exact zoneIn_entry_iff.mpr ⟨_, data, ih _ above, there, word⟩

/-- The first free zone joins the file with the slot that leads to it. -/
theorem Owns.mark (owns : Owns before owned inode t) (first : FirstClear t k)
    (way : t.zoneIn inode s = some (before.sb.zone k)) :
    Owns before (owned ++ [(s, k)]) inode (t.markZone k) := by
  have fresh : k ∉ owned.map Prod.snd := by
    intro taken
    have set_ := owns.map k
    rw [if_pos taken, first.clear] at set_
    cases set_
  have clear : bit before.zonesMap k = some false := by
    have here := owns.map k
    rw [if_neg fresh, first.clear] at here
    exact here.symm
  refine ⟨owns.ps, owns.sb, ?_, ?_, ?_, ?_, ?_, size_setBit.trans owns.mapSize, owns.size, ?_⟩
  · intro x inside
    rw [markZone_zoneIn]
    rcases List.mem_append.mp inside with old | new
    · exact owns.zone x old
    · rw [List.mem_singleton.mp new]
      exact way
  · intro x inside
    rcases List.mem_append.mp inside with old | new
    · exact owns.small x old
    · rw [List.mem_singleton.mp new, ← owns.sb]
      exact first.small
  · intro x inside
    rcases List.mem_append.mp inside with old | new
    · exact owns.free x old
    · rw [List.mem_singleton.mp new]
      exact clear
  · rw [List.map_append]
    refine List.nodup_append.mpr ⟨owns.apart, List.nodup_singleton _, ?_⟩
    intro a old c new
    rw [List.mem_singleton.mp new]
    rintro rfl
    exact fresh old
  · intro l
    have joined : l ∈ (owned ++ [(s, k)]).map Prod.snd ↔ l ∈ owned.map Prod.snd ∨ l = k := by
      rw [List.map_append, List.mem_append]
      exact or_congr_right List.mem_singleton
    rw [markZone_bit first.clear, owns.map l, if_congr joined rfl rfl]
    by_cases here : l = k
    · rw [if_pos here, if_pos (.inr here)]
    · rw [if_neg here, if_congr (or_iff_left here) rfl rfl]
  · intro x within outside
    exact owns.outside x within fun y inside => outside y (List.mem_append_left _ inside)

/-- The slot is new, and what leads to it is there. -/
structure Joins (ss : List Slot) (s : Slot) : Prop where
  new : s ∉ ss
  field : ∀ i, s = .field i → i < 9
  entry : ∀ q i, s = .entry q i → i < 512 ∧ q ∈ ss

/-- A file fills a slot: it owns that slot too. -/
theorem Owns.grow (owns : Owns before owned inode t) (tree : Tree (owned.map Prod.fst))
    (joins : Joins (owned.map Prod.fst) s) (grown : Grows s k (inode, t) (inode', t')) :
    Owns before (owned ++ [(s, k)]) inode' t' := by
  obtain ⟨first, placed⟩ := grows_iff.mp grown
  cases s with
  | field i =>
    have low := joins.field i rfl
    obtain ⟨rfl, rfl⟩ := Prod.mk.inj placed
    refine (owns.setField tree low joins.new).mark first ?_
    rw [zoneIn_field, zone_setZone low low, if_pos rfl, ← owns.sb]
  | entry q i =>
    obtain ⟨low, above⟩ := joins.entry q i rfl
    obtain ⟨⟨q, l⟩, mine, rfl⟩ := List.mem_map.mp above
    obtain ⟨p, data, way, there, placed⟩ := placed
    obtain rfl : before.sb.zone l = p := Option.some_inj.mp ((owns.zone _ mine).symm.trans way)
    obtain ⟨rfl, rfl⟩ := Prod.mk.inj placed
    have reaches := reaches_of_blockAt there
    have written := @Owns.put _ _ _ _ _ (data.setWord i (t.sb.zone k)) _ owns tree mine reaches
        fun j data' inside there' => by
      obtain rfl : data = data' := Option.some_inj.mp (there.symm.trans there')
      have other : j ≠ i := by
        rintro rfl
        exact joins.new inside
      rw [word_setWord data _ low (tree.entry q j inside), if_neg other]
    have first' : FirstClear (t.putBlock (before.sb.zone l) (data.setWord i (t.sb.zone k))) k :=
      ⟨first.small, first.clear, first.below⟩
    refine written.mark first' (zoneIn_entry_iff.mpr
      ⟨_, _, written.zone _ mine, blockAt_putBlock_same reaches, ?_⟩)
    rw [word_setWord data _ low low, if_pos rfl, ← owns.sb]

/-- Filling a slot writes the block that leads to it, and no other block of the file. -/
theorem Owns.grow_blockAt (owns : Owns before owned inode t) (mine : (d, k') ∈ owned)
    (joins : Joins (owned.map Prod.fst) s) (leaf : ∀ i, s ≠ .entry d i)
    (grown : Grows s k (inode, t) (inode', t')) (there : t.blockAt (before.sb.zone k') = some b) :
    t'.blockAt (before.sb.zone k') = some b := by
  obtain ⟨-, placed⟩ := grows_iff.mp grown
  cases s with
  | field i =>
    obtain ⟨-, rfl⟩ := Prod.mk.inj placed
    exact there
  | entry q i =>
    obtain ⟨⟨q, l⟩, above, rfl⟩ := List.mem_map.mp (joins.entry q i rfl).2
    obtain ⟨p, data, way, there', placed⟩ := placed
    obtain rfl : before.sb.zone l = p := Option.some_inj.mp ((owns.zone _ above).symm.trans way)
    obtain ⟨-, rfl⟩ := Prod.mk.inj placed
    refine blockAt_putBlock_apart (t := t.markZone k) there (reaches_of_blockAt there') fun same => ?_
    obtain ⟨rfl, -⟩ := Prod.mk.inj (owns.zones_apart mine above same)
    exact leaf i rfl

/-- A slot can be filled when a zone is free and the block that leads to it is there. -/
theorem Owns.grows (owns : Owns before owned inode t) (first : FirstClear t k)
    (joins : Joins (owned.map Prod.fst) s)
    (there : ∀ x ∈ owned, (before.blockAt (before.sb.zone x.2)).isSome) :
    ∃ inode' t', Grows s k (inode, t) (inode', t') := by
  cases s with
  | field i => exact ⟨_, _, grows_iff.mpr ⟨first, rfl⟩⟩
  | entry q i =>
    obtain ⟨⟨q, l⟩, above, rfl⟩ := List.mem_map.mp (joins.entry q i rfl).2
    obtain ⟨data, here⟩ := Option.isSome_iff_exists.mp (owns.blockAt_isSome (there _ above))
    exact ⟨_, _, grows_iff.mpr ⟨first, _, data, owns.zone _ above, here, rfl⟩⟩

/-! ## Rows of slots -/

theorem Tree.snoc {ss : List Slot} (tree : Tree ss) (joins : Joins ss s) : Tree (ss ++ [s]) where
  closed := by
    intro q i inside
    apply List.mem_append_left
    rcases List.mem_append.mp inside with old | last
    · exact tree.closed q i old
    · exact (joins.entry q i (List.mem_singleton.mp last).symm).2
  field := by
    intro i inside
    rcases List.mem_append.mp inside with old | last
    · exact tree.field i old
    · exact joins.field i (List.mem_singleton.mp last).symm
  entry := by
    intro q i inside
    rcases List.mem_append.mp inside with old | last
    · exact tree.entry q i old
    · exact (joins.entry q i (List.mem_singleton.mp last).symm).1

/-- Each slot of a row joins those before it. -/
def Orderly : List Slot → List Slot → Prop
  | _, [] => True
  | ss, s :: rest => Joins ss s ∧ Orderly (ss ++ [s]) rest

variable {ss new : List Slot} {ks : List Nat}

theorem orderly_append {rest : List Slot} :
    Orderly ss (new ++ rest) ↔ Orderly ss new ∧ Orderly (ss ++ new) rest := by
  induction new generalizing ss with
  | nil => simp [Orderly]
  | cons s new ih =>
    simp only [List.cons_append, Orderly, ih, and_assoc, List.append_assoc, List.nil_append]

theorem Tree.extend (tree : Tree ss) (orderly : Orderly ss new) : Tree (ss ++ new) := by
  induction new generalizing ss with
  | nil => rwa [List.append_nil]
  | cons s new ih =>
    have rest := ih (tree.snoc orderly.1) orderly.2
    rwa [List.append_assoc] at rest

theorem growth_length {x y : Inode × Tool} (grown : Growth new ks x y) : new.length = ks.length := by
  induction grown with
  | done => rfl
  | more _ _ ih => rw [List.length_cons, List.length_cons, ih]

/-- What filling a row of slots comes to: the file owns them too, and the blocks of slots that lead
to none of them are as before. -/
theorem Owns.growth (owns : Owns before owned inode t) (tree : Tree (owned.map Prod.fst))
    (orderly : Orderly (owned.map Prod.fst) new) (grown : Growth new ks (inode, t) (inode', t')) :
    Owns before (owned ++ new.zip ks) inode' t' ∧
      ∀ d k b, (d, k) ∈ owned → (∀ i, .entry d i ∉ new) → t.blockAt (before.sb.zone k) = some b →
        t'.blockAt (before.sb.zone k) = some b := by
  induction new generalizing owned ks inode t with
  | nil =>
    obtain ⟨rfl, same⟩ := growth_none.mp grown
    cases same
    rw [List.zip_nil_left, List.append_nil]
    exact ⟨owns, fun _ _ _ _ _ there => there⟩
  | cons s new ih =>
    cases grown with
    | @more _ k _ ks _ mid _ first rest =>
      obtain ⟨inode₁, t₁⟩ := mid
      have owns₁ := owns.grow tree orderly.1 first
      have names : (owned ++ [(s, k)]).map Prod.fst = owned.map Prod.fst ++ [s] := List.map_append
      obtain ⟨owns', kept⟩ := ih owns₁ (names ▸ tree.snoc orderly.1) (names ▸ orderly.2) rest
      rw [List.append_assoc] at owns'
      refine ⟨owns', fun d l b mine leaf there => ?_⟩
      have leaf' := fun i inside => leaf i (List.mem_cons_of_mem s inside)
      refine kept d l b (List.mem_append_left _ mine) leaf' ?_
      refine owns.grow_blockAt mine orderly.1 (fun i same => ?_) first there
      exact leaf i (same ▸ List.mem_cons_self)

/-! ## Room -/

/-- The bits of the zones that are free. -/
def Tool.clearBits (t : Tool) : List Nat :=
  (List.range t.sb.sNzones.toNat).filter fun k => bit t.zonesMap k = some false

theorem mem_clearBits : k ∈ t.clearBits ↔ k < t.sb.sNzones.toNat ∧ bit t.zonesMap k = some false := by
  rw [Tool.clearBits, List.mem_filter, List.mem_range, decide_eq_true_eq]

theorem exists_firstClear (clear : k ∈ t.clearBits) : ∃ k, FirstClear t k := by
  have some_ : ∃ k, bit t.zonesMap k = some false := ⟨k, (mem_clearBits.mp clear).2⟩
  have least := Nat.find_min' some_ (mem_clearBits.mp clear).2
  refine ⟨Nat.find some_, lt_of_le_of_lt least (mem_clearBits.mp clear).1, Nat.find_spec some_, fun j below => ?_⟩
  have within : (bit t.zonesMap j).isSome := by
    have here : (bit t.zonesMap (Nat.find some_)).isSome := by
      rw [Nat.find_spec some_]
      rfl
    have last := bit_isSome.mp here
    exact bit_isSome.mpr (lt_of_le_of_lt (Nat.div_le_div_right below.le) last)
  obtain ⟨v, here⟩ := Option.isSome_iff_exists.mp within
  cases v with
  | true => exact here
  | false => exact absurd here (Nat.find_min some_ below)

/-- While a file owns fewer zones than were free, one more is free. -/
theorem Owns.exists_firstClear (owns : Owns before owned inode t)
    (room : owned.length < before.clearBits.length) : ∃ k, FirstClear t k := by
  by_contra full
  have taken : before.clearBits ⊆ owned.map Prod.snd := by
    intro k clear
    by_contra fresh
    refine full (AtaKernel.Minix.exists_firstClear (k := k) (mem_clearBits.mpr ⟨?_, ?_⟩))
    · rw [owns.sb]
      exact (mem_clearBits.mp clear).1
    · rw [owns.map k, if_neg fresh]
      exact (mem_clearBits.mp clear).2
  have few := ((List.nodup_range.filter _).subperm taken).length_le
  rw [List.length_map] at few
  exact absurd room (not_lt.mpr few)

/-- A row of slots can be filled when enough zones were free and they are on the disk. -/
theorem Owns.growth_exists (owns : Owns before owned inode t) (tree : Tree (owned.map Prod.fst))
    (orderly : Orderly (owned.map Prod.fst) new)
    (onDisk : ∀ k ∈ before.clearBits, (before.blockAt (before.sb.zone k)).isSome)
    (room : owned.length + new.length ≤ before.clearBits.length) :
    ∃ ks inode' t', Growth new ks (inode, t) (inode', t') := by
  induction new generalizing owned inode t with
  | nil => exact ⟨[], inode, t, .done⟩
  | cons s new ih =>
    rw [List.length_cons] at room
    obtain ⟨k, first⟩ := owns.exists_firstClear (by omega)
    have there : ∀ x ∈ owned, (before.blockAt (before.sb.zone x.2)).isSome := fun x inside =>
      onDisk x.2 (mem_clearBits.mpr ⟨owns.small x inside, owns.free x inside⟩)
    obtain ⟨inode₁, t₁, grown⟩ := owns.grows first orderly.1 there
    have names : (owned ++ [(s, k)]).map Prod.fst = owned.map Prod.fst ++ [s] := List.map_append
    have length : (owned ++ [(s, k)]).length = owned.length + 1 := List.length_append
    obtain ⟨ks, inode', t', rest⟩ := ih (owns.grow tree orderly.1 grown) (names ▸ tree.snoc orderly.1)
      (names ▸ orderly.2) (by omega)
    exact ⟨k :: ks, inode', t', .more grown rest⟩

/-! ## The slots of a file -/

theorem mem_slots {n : Nat} : s ∈ slots n ↔ ∃ b < n, s ∈ newSlots b := by
  simp only [slots, List.mem_flatMap, List.mem_range]

theorem slots_succ (n : Nat) : slots (n + 1) = slots n ++ newSlots n := by
  rw [slots, List.range_succ, List.flatMap_append, List.flatMap_singleton]
  rfl

/-- The block with which a slot comes into use. -/
def Slot.birth : Slot → Nat
  | .field i => if i < 7 then i else if i = 7 then 7 else 519
  | .entry (.field i) j => if i = 7 then 7 + j else 519 + 512 * j
  | .entry (.entry _ i) j => 519 + 512 * i + j

private theorem mem_if {c : Prop} [Decidable c] {a : Slot} : s ∈ (if c then [a] else []) ↔ c ∧ s = a := by
  split
  · next holds => rw [List.mem_singleton, and_iff_right holds]
  · next fails => exact iff_of_false List.not_mem_nil fun both => fails both.1

theorem mem_newSlots {n : Nat} : s ∈ newSlots n ↔ n = 7 ∧ s = .field 7 ∨ n = 519 ∧ s = .field 8 ∨
    (519 ≤ n ∧ (n - 519) % 512 = 0) ∧ s = .entry (.field 8) ((n - 519) / 512) ∨ s = dataSlot n := by
  rw [newSlots, List.mem_append, List.mem_append, List.mem_append, mem_if, mem_if, mem_if, List.mem_singleton,
    or_assoc, or_assoc]

theorem dataSlot_cases (n : Nat) : n < 7 ∧ dataSlot n = .field n ∨
    (7 ≤ n ∧ n < 519) ∧ dataSlot n = .entry (.field 7) (n - 7) ∨
    519 ≤ n ∧ dataSlot n = .entry (.entry (.field 8) ((n - 519) / 512)) ((n - 519) % 512) := by
  unfold dataSlot
  split
  · next direct => exact .inl ⟨direct, rfl⟩
  split
  · next single => exact .inr (.inl ⟨⟨by omega, single⟩, rfl⟩)
  · exact .inr (.inr ⟨by omega, rfl⟩)

theorem birth_dataSlot (n : Nat) : (dataSlot n).birth = n := by
  rcases dataSlot_cases n with ⟨direct, slot⟩ | ⟨single, slot⟩ | ⟨double, slot⟩ <;> rw [slot, Slot.birth]
  · exact if_pos direct
  · rw [if_pos rfl]
    omega
  · omega

theorem birth_of_mem {n : Nat} (inside : s ∈ newSlots n) : s.birth = n := by
  rcases mem_newSlots.mp inside with ⟨rfl, rfl⟩ | ⟨rfl, rfl⟩ | ⟨⟨far, edge⟩, rfl⟩ | rfl
  · rfl
  · rfl
  · simp only [Slot.birth]
    rw [if_neg (by decide)]
    omega
  · exact birth_dataSlot n

theorem dataSlot_mem (n : Nat) : dataSlot n ∈ newSlots n := mem_newSlots.mpr (.inr (.inr (.inr rfl)))

theorem not_mem_slots {n : Nat} (late : n ≤ s.birth) : s ∉ slots n := by
  intro inside
  obtain ⟨b, low, here⟩ := mem_slots.mp inside
  have early := birth_of_mem here
  omega

/-- Nothing is reached by way of a block of data. -/
theorem dataSlot_leaf {n b : Nat} : .entry (dataSlot b) i ∉ newSlots n := by
  intro inside
  have forms := mem_newSlots.mp inside
  rcases dataSlot_cases b with ⟨direct, slot⟩ | ⟨single, slot⟩ | ⟨double, slot⟩ <;>
    rcases dataSlot_cases n with ⟨-, slot'⟩ | ⟨-, slot'⟩ | ⟨-, slot'⟩ <;> rw [slot, slot'] at forms <;>
    simp only [reduceCtorEq, and_false, false_or, or_false, Slot.entry.injEq, Slot.field.injEq, false_and] at forms <;>
    omega

private theorem orderly_if {c : Prop} [Decidable c] :
    Orderly ss (if c then [s] else []) ↔ (c → Joins ss s) := by
  split
  · next holds => exact ⟨fun orderly _ => orderly.1, fun joins => ⟨joins holds, trivial⟩⟩
  · next fails => exact ⟨fun _ holds => absurd holds fails, fun _ => trivial⟩

/-- The slots that come into use with a block join those of the blocks before it. -/
theorem orderly_newSlots {n : Nat} (low : n < 519 + 512 * 512) : Orderly (slots n) (newSlots n) := by
  have single : n ≠ 7 → 7 ≤ n → .field 7 ∈ slots n := fun other from_ =>
    mem_slots.mpr ⟨7, by omega, mem_newSlots.mpr (.inl ⟨rfl, rfl⟩)⟩
  have double : n ≠ 519 → 519 ≤ n → .field 8 ∈ slots n := fun other from_ =>
    mem_slots.mpr ⟨519, by omega, mem_newSlots.mpr (.inr (.inl ⟨rfl, rfl⟩))⟩
  have middle : 519 ≤ n → (n - 519) % 512 ≠ 0 → .entry (.field 8) ((n - 519) / 512) ∈ slots n := by
    intro from_ inner
    refine mem_slots.mpr ⟨519 + 512 * ((n - 519) / 512), by omega, mem_newSlots.mpr (.inr (.inr (.inl ⟨by omega, ?_⟩)))⟩
    rw [Nat.add_sub_cancel_left, Nat.mul_div_cancel_left _ (by decide)]
  unfold newSlots
  rw [orderly_append, orderly_append, orderly_append, orderly_if, orderly_if, orderly_if]
  refine ⟨⟨⟨?_, ?_⟩, ?_⟩, ?_, trivial⟩
  · intro edge
    refine ⟨not_mem_slots edge.le, ?_, nofun⟩
    rintro i ⟨⟩
    decide
  · intro edge
    refine ⟨?_, ?_, nofun⟩
    · simp only [List.mem_append, mem_if, Slot.field.injEq, Nat.reduceEqDiff, and_false, or_false]
      exact not_mem_slots edge.le
    · rintro i ⟨⟩
      decide
  · rintro ⟨from_, edge⟩
    refine ⟨?_, nofun, ?_⟩
    · simp only [List.mem_append, mem_if, reduceCtorEq, and_false, or_false]
      refine not_mem_slots ?_
      simp only [Slot.birth]
      rw [if_neg (by decide)]
      omega
    · rintro q i ⟨⟩
      refine ⟨by omega, ?_⟩
      simp only [List.mem_append, mem_if, and_true]
      by_cases first : n = 519
      · exact .inr (.inr first)
      · exact .inl (double first from_)
  · have late : dataSlot n ∉ slots n := not_mem_slots (birth_dataSlot n).ge
    rcases dataSlot_cases n with ⟨direct, slot⟩ | ⟨⟨from_, below⟩, slot⟩ | ⟨from_, slot⟩ <;> rw [slot] at late ⊢
    · refine ⟨?_, ?_, nofun⟩
      · intro inside
        simp only [List.mem_append, mem_if, Slot.field.injEq, reduceCtorEq, and_false, or_false] at inside
        rcases inside with old | edge | edge
        · exact late old
        · omega
        · omega
      · rintro i ⟨⟩
        omega
    · refine ⟨?_, nofun, ?_⟩
      · simp only [List.mem_append, mem_if, reduceCtorEq, and_false, or_false, Slot.entry.injEq, Slot.field.injEq,
          Nat.reduceEqDiff, false_and]
        exact late
      · rintro q i ⟨⟩
        refine ⟨by omega, ?_⟩
        simp only [List.mem_append, mem_if, and_true]
        by_cases first : n = 7
        · exact .inr (.inl (.inl first))
        · exact .inl (single first from_)
    · refine ⟨?_, nofun, ?_⟩
      · simp only [List.mem_append, mem_if, reduceCtorEq, and_false, or_false, Slot.entry.injEq, false_and]
        exact late
      · rintro q i ⟨⟩
        refine ⟨Nat.mod_lt _ (by decide), ?_⟩
        simp only [List.mem_append, mem_if, and_true]
        by_cases first : (n - 519) % 512 = 0
        · exact .inr (.inr ⟨from_, first⟩)
        · exact .inl (middle from_ first)

theorem tree_slots {n : Nat} (low : n ≤ 519 + 512 * 512) : Tree (slots n) := by
  induction n with
  | zero => exact ⟨fun s i inside => absurd inside List.not_mem_nil,
      fun i inside => absurd inside List.not_mem_nil, fun s i inside => absurd inside List.not_mem_nil⟩
  | succ n ih =>
    rw [slots_succ]
    exact (ih (by omega)).extend (orderly_newSlots (by omega))

end AtaKernel.Minix
