import AtaKernel.Memory.Blocks

/-! A heap without gaps: its blocks tile a stretch of memory in the order of the
list, and no two free blocks follow each other. Then the neighbours in the list
are the neighbours in memory, so absorbing joins only blocks that meet. -/
namespace AtaKernel.Memory
open Block

/-- The blocks lie one behind the other from `a` to `z`. -/
def Tiles : Nat → List Block → Nat → Prop
  | a, [], z => a = z
  | a, b :: bs, z => b.addr = a ∧ Tiles b.stop bs z

/-- No two free blocks follow each other. -/
def Coalesced (bs : List Block) : Prop :=
  bs.IsChain fun b c => ¬ (b.status = .free ∧ c.status = .free)

variable {a z units : Nat} {b c e f : Block} {pre post bs cs xs ys : List Block}

/-! ## Tiles -/

theorem tiles_append : Tiles a (xs ++ ys) z ↔ ∃ mid, Tiles a xs mid ∧ Tiles mid ys z := by
  induction xs generalizing a with
  | nil => exact ⟨fun tiles => ⟨a, rfl, tiles⟩, fun ⟨_, same, tiles⟩ => same ▸ tiles⟩
  | cons x xs ih =>
    simp only [List.cons_append, Tiles, ih]
    exact ⟨fun ⟨place, mid, left, right⟩ => ⟨mid, ⟨place, left⟩, right⟩,
      fun ⟨mid, ⟨place, left⟩, right⟩ => ⟨place, mid, left, right⟩⟩

/-- The middle of a tiling can be laid anew. -/
theorem tiles_replace {mid mid' : List Block} (tiles : Tiles a (pre ++ (mid ++ post)) z)
    (same : ∀ x y, Tiles x mid y → Tiles x mid' y) : Tiles a (pre ++ (mid' ++ post)) z := by
  obtain ⟨x, before, rest⟩ := tiles_append.mp tiles
  obtain ⟨y, middle, after⟩ := tiles_append.mp rest
  exact tiles_append.mpr ⟨x, before, tiles_append.mpr ⟨y, same x y middle, after⟩⟩

theorem tiles_carved {x y : Nat} (fits : Fits units b) (tiles : Tiles x [b] y) :
    Tiles x (carve units b) y := by
  obtain ⟨place, stop_eq⟩ := tiles
  unfold carve
  split
  · exact ⟨place, stop_eq⟩
  · next hole =>
    refine ⟨place, rfl, Eq.trans ?_ stop_eq⟩
    have room := fits.2
    simp only [stop, entryBytes]
    omega

theorem tiles_carve (fits : Fits units b) (tiles : Tiles a (pre ++ b :: post) z) :
    Tiles a (pre ++ (carve units b ++ post)) z := by
  exact @tiles_replace a z pre post [b] (carve units b) tiles fun _ _ => tiles_carved fits

theorem tiles_join (tiles : Tiles a (b :: c :: cs) z) : Tiles a (b.join c :: cs) z := by
  obtain ⟨place, touch, rest⟩ := tiles
  have stops : (b.join c).stop = c.stop := by
    simp only [join, stop] at touch ⊢
    rw [touch]
    ring
  exact ⟨place, stops ▸ rest⟩

theorem tiles_absorb (tiles : Tiles a (b :: cs) z) : Tiles a (absorb b cs) z := by
  cases cs with
  | nil => exact tiles
  | cons c cs =>
    rw [absorb_cons]
    split
    · exact tiles_join tiles
    · exact tiles

theorem tiles_give_back (tiles : Tiles a (pre ++ e :: f :: post) z) :
    Tiles a (pre ++ absorb e (absorb f.freed post)) z := by
  obtain ⟨x, before, place, rest⟩ := tiles_append.mp tiles
  refine tiles_append.mpr ⟨x, before, tiles_absorb ⟨place, ?_⟩⟩
  exact tiles_absorb rest

/-- Neighbours in the list meet. -/
theorem tiles_meet (tiles : Tiles a (pre ++ e :: f :: post) z) : f.addr = e.stop := by
  obtain ⟨-, -, -, touch, -⟩ := tiles_append.mp tiles
  exact touch

/-! ## Free blocks apart -/

/-- A block stands in for another at the end of a list, if it is free only when that one is. -/
theorem coalesced_last (chain : Coalesced (pre ++ [b])) (weaker : c.status = .free → b.status = .free) :
    Coalesced (pre ++ [c]) := by
  unfold Coalesced at *
  rw [List.isChain_append] at chain ⊢
  refine ⟨chain.1, List.isChain_singleton _, fun x last y head both => ?_⟩
  obtain rfl := Option.some.inj head
  exact chain.2.2 x last b rfl ⟨both.1, weaker both.2⟩

theorem coalesced_first (chain : Coalesced (b :: post)) (weaker : c.status = .free → b.status = .free) :
    Coalesced (c :: post) := by
  cases post with
  | nil => exact List.isChain_singleton _
  | cons d ds =>
    obtain ⟨apart, rest⟩ := List.isChain_cons_cons.mp chain
    exact List.isChain_cons_cons.mpr ⟨fun both => apart ⟨weaker both.1, both.2⟩, rest⟩

theorem coalesced_carve (fits : Fits units b) (chain : Coalesced (pre ++ b :: post)) :
    Coalesced (pre ++ (carve units b ++ post)) := by
  obtain ⟨before, after⟩ := List.isChain_split.mp chain
  unfold carve
  split
  · refine List.isChain_split.mpr ⟨coalesced_last before fun _ => fits.1, ?_⟩
    exact coalesced_first after fun _ => fits.1
  · refine List.isChain_split.mpr ⟨coalesced_last before fun _ => fits.1, ?_⟩
    refine List.isChain_cons_cons.mpr ⟨fun both => ?_, coalesced_first after fun _ => fits.1⟩
    cases both.1

/-- New frames are carved at once, so the free block before them stays apart. -/
theorem coalesced_grown (chain : Coalesced bs) : Coalesced (bs ++ carve units b) := by
  refine List.isChain_append.mpr ⟨chain, ?_, fun x _ y head both => ?_⟩
  · unfold carve
    split
    · exact List.isChain_singleton _
    · exact List.isChain_cons_cons.mpr ⟨fun both => (by cases both.1), List.isChain_singleton _⟩
  · unfold carve at head
    split at head <;>
      · obtain rfl := Option.some.inj head
        cases both.2

theorem coalesced_absorb (chain : Coalesced cs) : Coalesced (absorb b cs) := by
  cases cs with
  | nil => exact List.isChain_singleton _
  | cons c cs =>
    rw [absorb_cons]
    split
    · next both => exact coalesced_first chain fun _ => both.2
    · next apart => exact List.isChain_cons_cons.mpr ⟨apart, chain⟩

theorem absorb_front (b : Block) (cs : List Block) :
    ∃ c rest, absorb b cs = c :: rest ∧ c.status = b.status := by
  cases cs with
  | nil => exact ⟨b, [], rfl, rfl⟩
  | cons c cs =>
    rw [absorb_cons]
    split
    · exact ⟨_, _, rfl, rfl⟩
    · exact ⟨_, _, rfl, rfl⟩

theorem coalesced_give_back (chain : Coalesced (pre ++ e :: f :: post)) :
    Coalesced (pre ++ absorb e (absorb f.freed post)) := by
  obtain ⟨before, after⟩ := List.isChain_split.mp chain
  have later : Coalesced post := after.tail.tail
  have joined : Coalesced (absorb e (absorb f.freed post)) :=
    coalesced_absorb (coalesced_absorb later)
  obtain ⟨c, rest, eq, status⟩ := absorb_front e (absorb f.freed post)
  rw [eq] at joined ⊢
  exact List.isChain_split.mpr ⟨coalesced_last before fun free => status ▸ free, joined⟩

/-! ## The used blocks determine the tiling -/

theorem tiles_le (tiles : Tiles a bs z) : a ≤ z := by
  induction bs generalizing a with
  | nil => exact tiles.le
  | cons b bs ih =>
    obtain ⟨rfl, rest⟩ := tiles
    exact b.addr_lt_stop.le.trans (ih rest)

/-- The blocks of a tiling lie behind its start. -/
theorem tiles_from (tiles : Tiles a bs z) (inside : b ∈ bs) : a ≤ b.addr := by
  induction bs generalizing a with
  | nil => cases inside
  | cons c bs ih =>
    obtain ⟨rfl, rest⟩ := tiles
    rcases List.mem_cons.mp inside with rfl | later
    · exact le_rfl
    · exact c.addr_lt_stop.le.trans (ih rest later)

/-- A block other than the first one lies behind it. -/
theorem tiles_behind (tiles : Tiles a (b :: bs) z) (inside : c ∈ b :: bs) (other : c ≠ b) :
    b.stop ≤ c.addr := by
  rcases List.mem_cons.mp inside with same | later
  · exact absurd same other
  · exact tiles_from tiles.2 later

/-- The first block of a tiling does not come again. -/
theorem tiles_notMem (tiles : Tiles a (b :: bs) z) : b ∉ bs := fun inside =>
  absurd (tiles_from tiles.2 inside) (Nat.not_le.mpr b.addr_lt_stop)

/-- A free block reaches as far as the used block behind it, so no free block of another tiling with
the same used blocks starts there and reaches further. -/
theorem stop_le_of_free (left : Tiles a (b :: bs) z) (apart : Coalesced (b :: bs))
    (free : b.status = .free) (plain : ∀ d ∈ bs, d.status ≠ .null) (right : Tiles a (c :: cs) z)
    (free' : c.status = .free) (shared : ∀ d ∈ b :: bs, d.status = .used → d ∈ c :: cs) :
    c.stop ≤ b.stop := by
  cases bs with
  | nil =>
    obtain ⟨-, ends⟩ := left
    rw [show b.stop = z from ends]
    exact tiles_le right.2
  | cons d bs =>
    have not_free : d.status ≠ .free := fun both => (List.isChain_cons_cons.mp apart).1 ⟨free, both⟩
    have used : d.status = .used := by
      cases status : d.status with
      | null => exact absurd status (plain d List.mem_cons_self)
      | free => exact absurd status not_free
      | used => rfl
    have there := shared d (by simp) used
    have other : d ≠ c := fun same => not_free (same ▸ free')
    obtain ⟨-, touch, -⟩ := left
    rw [← touch]
    exact tiles_behind right there other

theorem free_of_plain (plain : b.status ≠ .null) (idle : b.status ≠ .used) : b.status = .free := by
  cases status : b.status with
  | null => exact absurd status plain
  | free => rfl
  | used => exact absurd status idle

/-- Two rows of blocks with the same blocks in use begin with the same block. -/
theorem tiles_first_unique (left : Tiles a (b :: bs) z) (right : Tiles a (c :: cs) z)
    (apart : Coalesced (b :: bs)) (apart' : Coalesced (c :: cs)) (plain : ∀ d ∈ b :: bs, d.status ≠ .null)
    (plain' : ∀ d ∈ c :: cs, d.status ≠ .null)
    (shared : ∀ d : Block, d.status = .used → (d ∈ b :: bs ↔ d ∈ c :: cs)) : b = c := by
  have place : b.addr = c.addr := left.1.trans right.1.symm
  by_cases used : b.status = .used
  · by_contra other
    have behind := tiles_behind right ((shared b used).mp List.mem_cons_self) other
    exact absurd (place ▸ behind) (Nat.not_le.mpr c.addr_lt_stop)
  by_cases used' : c.status = .used
  · by_contra other
    have behind := tiles_behind left ((shared c used').mpr List.mem_cons_self) (Ne.symm other)
    exact absurd (place ▸ behind) (Nat.not_le.mpr b.addr_lt_stop)
  have free := free_of_plain (plain b List.mem_cons_self) used
  have free' := free_of_plain (plain' c List.mem_cons_self) used'
  have further := stop_le_of_free left apart free (fun d inside => plain d (List.mem_cons_of_mem b inside))
    right free' fun d inside used => (shared d used).mp inside
  have shorter := stop_le_of_free right apart' free' (fun d inside => plain' d (List.mem_cons_of_mem c inside))
    left free fun d inside used => (shared d used).mpr inside
  refine Block.ext place ?_ (free.trans free'.symm)
  unfold stop entryBytes at further shorter
  omega

/-- Two tilings of one stretch of memory, neither with two free blocks in a row, are the same when
their used blocks are. -/
theorem tiles_unique (left : Tiles a bs z) (right : Tiles a cs z) (apart : Coalesced bs)
    (apart' : Coalesced cs) (plain : ∀ b ∈ bs, b.status ≠ .null) (plain' : ∀ c ∈ cs, c.status ≠ .null)
    (shared : ∀ d : Block, d.status = .used → (d ∈ bs ↔ d ∈ cs)) : bs = cs := by
  induction bs generalizing a cs with
  | nil =>
    cases cs with
    | nil => rfl
    | cons c cs =>
      obtain rfl : a = z := left
      obtain ⟨rfl, rest⟩ := right
      exact absurd (tiles_le rest) (Nat.not_le.mpr c.addr_lt_stop)
  | cons b bs ih =>
    cases cs with
    | nil =>
      obtain rfl : a = z := right
      obtain ⟨rfl, rest⟩ := left
      exact absurd (tiles_le rest) (Nat.not_le.mpr b.addr_lt_stop)
    | cons c cs =>
      obtain rfl := tiles_first_unique left right apart apart' plain plain' shared
      have first := tiles_notMem left
      have first' := tiles_notMem right
      congr 1
      refine ih left.2 right.2 apart.tail apart'.tail (fun d inside => plain d (List.mem_cons_of_mem b inside))
        (fun d inside => plain' d (List.mem_cons_of_mem b inside)) fun d used => ?_
      have whole := shared d used
      simp only [List.mem_cons] at whole
      constructor
      · intro inside
        rcases whole.mp (.inr inside) with rfl | there
        · exact absurd inside first
        · exact there
      · intro inside
        rcases whole.mpr (.inr inside) with rfl | there
        · exact absurd inside first'
        · exact there

end AtaKernel.Memory
