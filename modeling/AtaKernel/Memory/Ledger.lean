import AtaKernel.Memory.Blocks

/-! The books of the heap: its blocks, the frames they lie in, and the pointers
that were handed out with the sizes asked for. Carving and absorbing keep the
books, provided that blocks are absorbed only where they meet. -/
namespace AtaKernel.Memory
open Block

/-- The used blocks and the live pointers are the same, and every block lies in the frames. -/
structure Ledger (head : Block) (frames : Set Nat) (blocks : List Block) (live : List (Nat × Nat)) :
    Prop where
  layout : Layout (head :: blocks)
  aligned : ∀ b ∈ blocks, b.addr % entryBytes = 0
  status : ∀ b ∈ blocks, b.status ≠ .null
  covered : ∀ b ∈ blocks, ∀ x ∈ b.bytes, x / memFrameSize ∈ frames
  served : ∀ r ∈ live, ∃ b ∈ blocks, b.status = .used ∧ b.pointer = r.1 ∧ r.2 ≤ b.size * entryBytes
  known : ∀ b ∈ blocks, b.status = .used → b.pointer ∈ live.map Prod.fst
  once : (live.map Prod.fst).Nodup

variable {head b c d e f : Block} {frames frames' : Set Nat} {blocks blocks' pre post cs : List Block}
  {live : List (Nat × Nat)} {units bytes : Nat}

theorem Ledger.empty (positive : 0 < head.addr) (top : head.stop < 2 ^ 32) (frames : Set Nat) :
    Ledger head frames [] [] where
  layout := ⟨List.pairwise_singleton _ _, fun b inside => by
    rw [List.mem_singleton.mp inside]
    exact ⟨positive, top⟩⟩
  aligned _ inside := (List.not_mem_nil inside).elim
  status _ inside := (List.not_mem_nil inside).elim
  covered _ inside := (List.not_mem_nil inside).elim
  served _ inside := (List.not_mem_nil inside).elim
  known _ inside := (List.not_mem_nil inside).elim
  once := List.nodup_nil

theorem Ledger.eq_of_pointer (ledger : Ledger head frames blocks live) (hb : b ∈ blocks)
    (hc : c ∈ blocks) (same : b.pointer = c.pointer) : b = c :=
  ledger.layout.eq_of_addr (List.mem_cons_of_mem head hb) (List.mem_cons_of_mem head hc)
    (Nat.add_right_cancel same)

/-! ## Asking for memory -/

/-- A free block in new frames. -/
theorem Ledger.grow (ledger : Ledger head frames blocks live)
    (layout : Layout (head :: (blocks ++ [b]))) (aligned : b.addr % entryBytes = 0)
    (free : b.status = .free) (covered : ∀ x ∈ b.bytes, x / memFrameSize ∈ frames') :
    Ledger head (frames ∪ frames') (blocks ++ [b]) live where
  layout := layout
  aligned c inside := by
    rcases List.mem_append.mp inside with old | new
    · exact ledger.aligned c old
    · rwa [List.mem_singleton.mp new]
  status c inside := by
    rcases List.mem_append.mp inside with old | new
    · exact ledger.status c old
    · rw [List.mem_singleton.mp new, free]
      decide
  covered c inside x here := by
    rcases List.mem_append.mp inside with old | new
    · exact .inl (ledger.covered c old x here)
    · rw [List.mem_singleton.mp new] at here
      exact .inr (covered x here)
  served r handed := by
    obtain ⟨c, inside, rest⟩ := ledger.served r handed
    exact ⟨c, List.mem_append_left _ inside, rest⟩
  known c inside used := by
    rcases List.mem_append.mp inside with old | new
    · exact ledger.known c old used
    · rw [List.mem_singleton.mp new, free] at used
      cases used
  once := ledger.once

/-- A block of the result of carving is the one that is handed out, or free. -/
theorem mem_carve (inside : c ∈ carve units b) :
    (c.addr = b.addr ∧ c.status = .used) ∨
      (c.addr = b.addr + (units + 1) * entryBytes ∧ c.status = .free) := by
  unfold carve at inside
  split at inside
  · rw [List.mem_singleton.mp inside]
    exact .inl ⟨rfl, rfl⟩
  · rcases List.mem_pair.mp inside with rfl | rfl
    · exact .inl ⟨rfl, rfl⟩
    · exact .inr ⟨rfl, rfl⟩

/-- The block that is handed out. -/
theorem carve_front (fits : Fits units b) :
    ∃ c ∈ carve units b, c.status = .used ∧ c.pointer = b.pointer ∧ units ≤ c.size := by
  unfold carve
  split
  · exact ⟨_, List.mem_singleton_self _, rfl, rfl, fits.2⟩
  · exact ⟨_, List.mem_cons_self, rfl, rfl, le_rfl⟩

theorem Ledger.carve (ledger : Ledger head frames (pre ++ b :: post) live) (fits : Fits units b)
    (room : bytes ≤ units * entryBytes) :
    Ledger head frames (pre ++ (carve units b ++ post)) ((b.pointer, bytes) :: live) := by
  have b_in : b ∈ pre ++ b :: post := by simp
  have split : ∀ c ∈ pre ++ (Block.carve units b ++ post),
      c ∈ pre ++ b :: post ∨ c ∈ Block.carve units b := by
    intro c inside
    simp only [List.mem_append, List.mem_cons] at inside ⊢
    rcases inside with before | here | after
    · exact .inl (.inl before)
    · exact .inr here
    · exact .inl (.inr (.inr after))
  refine ⟨?_, fun c inside => ?_, fun c inside => ?_, fun c inside x here => ?_, ?_,
    fun c inside used => ?_, ?_⟩
  · have layout : Layout ((head :: pre) ++ b :: post) := ledger.layout
    refine @Layout.replace (head :: pre) [b] (Block.carve units b) post layout ?_ within_carve
    exact layout_carve (layout.sublist (by simp))
  · rcases split c inside with old | new
    · exact ledger.aligned c old
    · have base := ledger.aligned b b_in
      rcases mem_carve new with ⟨place, -⟩ | ⟨place, -⟩
      · rw [place, base]
      · rw [place, Nat.add_mul_mod_self_right, base]
  · rcases split c inside with old | new
    · exact ledger.status c old
    · rcases mem_carve new with ⟨-, status⟩ | ⟨-, status⟩ <;>
        · rw [status]
          decide
  · rcases split c inside with old | new
    · exact ledger.covered c old x here
    · obtain ⟨d, same, x_in⟩ := within_carve c new x here
      rw [List.mem_singleton.mp same] at x_in
      exact ledger.covered b b_in x x_in
  · refine List.forall_mem_cons.mpr ⟨?_, fun r handed => ?_⟩
    · obtain ⟨c, inside, used, place, size⟩ := carve_front fits
      exact ⟨c, by simp [inside], used, place, room.trans (Nat.mul_le_mul_right _ size)⟩
    · obtain ⟨c, inside, used, rest⟩ := ledger.served r handed
      refine ⟨c, ?_, used, rest⟩
      simp only [List.mem_append, List.mem_cons] at inside ⊢
      rcases inside with before | rfl | after
      · exact .inl before
      · rw [fits.1] at used
        cases used
      · exact .inr (.inr after)
  · rw [List.map_cons]
    simp only [List.mem_append] at inside
    rcases inside with before | new | after
    · exact List.mem_cons_of_mem _ (ledger.known c (by simp [before]) used)
    · rcases mem_carve new with ⟨place, -⟩ | ⟨-, free⟩
      · have same : c.pointer = b.pointer := congrArg (· + entryBytes) place
        rw [same]
        exact List.mem_cons_self
      · rw [free] at used
        cases used
    · exact List.mem_cons_of_mem _ (ledger.known c (by simp [after]) used)
  · rw [List.map_cons, List.nodup_cons]
    refine ⟨fun again => ?_, ledger.once⟩
    obtain ⟨r, handed, same⟩ := List.mem_map.mp again
    obtain ⟨c, inside, used, place, -⟩ := ledger.served r handed
    have one := ledger.eq_of_pointer inside b_in (place.trans same)
    rw [one, fits.1] at used
    cases used

/-! ## Giving memory back -/

/-- Absorbing makes no used block, and takes none away. -/
theorem mem_absorb_used (used : c.status = .used) : c ∈ absorb b cs ↔ c ∈ b :: cs := by
  cases cs with
  | nil => exact Iff.rfl
  | cons d ds =>
    rw [absorb_cons]
    split
    · next both =>
      have b_ne : c ≠ b := fun same => by rw [same, both.1] at used; cases used
      have d_ne : c ≠ d := fun same => by rw [same, both.2] at used; cases used
      have join_ne : c ≠ b.join d := fun same => by
        rw [same] at used
        exact absurd (both.1.symm.trans used) (by decide)
      simp [b_ne, d_ne, join_ne]
    · exact Iff.rfl

theorem mem_absorb (inside : c ∈ absorb b cs) : c ∈ b :: cs ∨ c.status = .free := by
  cases cs with
  | nil => exact .inl inside
  | cons d ds =>
    rw [absorb_cons] at inside
    split at inside
    · next both =>
      rcases List.mem_cons.mp inside with rfl | later
      · exact .inr both.1
      · exact .inl (by simp [later])
    · exact .inl inside

/-- Blocks that lie where the old ones do, with one pointer less among the used ones. -/
theorem Ledger.give_back (ledger : Ledger head frames blocks live) (f_in : f ∈ blocks)
    (layout : Layout (head :: blocks')) (within : Within blocks' blocks)
    (places : ∀ c ∈ blocks', ∃ d ∈ blocks, d.addr = c.addr)
    (statuses : ∀ c ∈ blocks', c ∈ blocks ∨ c.status = .free)
    (used : ∀ c, c.status = .used → (c ∈ blocks' ↔ c ∈ blocks ∧ c ≠ f)) :
    Ledger head frames blocks' (live.filter fun r => r.1 ≠ f.pointer) where
  layout := layout
  aligned c inside := by
    obtain ⟨d, there, same⟩ := places c inside
    rw [← same]
    exact ledger.aligned d there
  status c inside := by
    rcases statuses c inside with old | free
    · exact ledger.status c old
    · rw [free]
      decide
  covered c inside x here := by
    obtain ⟨d, there, x_in⟩ := within c inside x here
    exact ledger.covered d there x x_in
  served r handed := by
    obtain ⟨handed, other⟩ := List.mem_filter.mp handed
    obtain ⟨c, inside, is_used, place, size⟩ := ledger.served r handed
    refine ⟨c, (used c is_used).mpr ⟨inside, ?_⟩, is_used, place, size⟩
    rintro rfl
    exact of_decide_eq_true other place.symm
  known c inside is_used := by
    obtain ⟨old, other⟩ := (used c is_used).mp inside
    obtain ⟨r, handed, place⟩ := List.mem_map.mp (ledger.known c old is_used)
    refine List.mem_map.mpr ⟨r, List.mem_filter.mpr ⟨handed, decide_eq_true ?_⟩, place⟩
    rw [place]
    exact fun same => other (ledger.eq_of_pointer old f_in same)
  once := ledger.once.sublist (List.filter_sublist.map _)

/-- The result of giving `f` back, seen as one list. -/
theorem mem_give_back (inside : c ∈ pre ++ absorb e (absorb f.freed post)) :
    (c ∈ pre ++ e :: f :: post ∨ c.status = .free) ∧ ∃ d ∈ pre ++ e :: f :: post, d.addr = c.addr := by
  rcases List.mem_append.mp inside with before | later
  · exact ⟨.inl (by simp [before]), c, by simp [before], rfl⟩
  constructor
  · rcases mem_absorb later with old | free
    · rcases List.mem_cons.mp old with rfl | later'
      · exact .inl (by simp)
      · rcases mem_absorb later' with old' | free
        · rcases List.mem_cons.mp old' with rfl | after
          · exact .inr rfl
          · exact .inl (by simp [after])
        · exact .inr free
    · exact .inr free
  · obtain ⟨d, there, same⟩ := absorb_places c later
    rcases List.mem_cons.mp there with rfl | there
    · exact ⟨d, by simp, same⟩
    · obtain ⟨d', there', same'⟩ := absorb_places d there
      rcases List.mem_cons.mp there' with rfl | after
      · exact ⟨f, by simp, same'.trans same⟩
      · exact ⟨d', by simp [after], same'.trans same⟩

theorem mem_give_back_used (layout : Layout (pre ++ e :: f :: post)) (taken : f.status = .used)
    (used : c.status = .used) :
    c ∈ pre ++ absorb e (absorb f.freed post) ↔ c ∈ pre ++ e :: f :: post ∧ c ≠ f := by
  have freed_ne : c ≠ f.freed := fun same => by
    rw [same] at used
    cases used
  have apart : f ∉ pre ∧ f ≠ e ∧ f ∉ post := by
    have left := (show Layout ((pre ++ [e]) ++ f :: post) by simpa using layout).addr_ne
    refine ⟨fun inside => left.1 f (by simp [inside]) rfl, fun same => ?_, fun inside =>
      left.2.1 f inside rfl⟩
    exact left.1 e (by simp) (congrArg addr same).symm
  rw [List.mem_append, mem_absorb_used used, List.mem_cons, mem_absorb_used used, List.mem_cons]
  constructor
  · rintro (before | rfl | same | after)
    · exact ⟨by simp [before], fun same => apart.1 (same ▸ before)⟩
    · exact ⟨by simp, apart.2.1.symm⟩
    · exact absurd same freed_ne
    · exact ⟨by simp [after], fun same => apart.2.2 (same ▸ after)⟩
  · rintro ⟨inside, other⟩
    simp only [List.mem_append, List.mem_cons] at inside
    rcases inside with before | rfl | rfl | after
    · exact .inl before
    · exact .inr (.inl rfl)
    · exact absurd rfl other
    · exact .inr (.inr (.inr after))

/-- The layout after both joins, when they meet. -/
theorem layout_give_back (layout : Layout (pre ++ e :: f :: post)) (next : Meets f.freed post)
    (prev : e.status = .free → f.addr = e.stop) :
    Layout (pre ++ e :: absorb f.freed post) ∧
      Layout (pre ++ absorb e (absorb f.freed post)) := by
  have freed : Layout ((pre ++ [e]) ++ (f.freed :: post ++ [])) := by
    simpa using layout_freed (show Layout ((pre ++ [e]) ++ f :: post) by simpa using layout)
  have first : Layout ((pre ++ [e]) ++ (absorb f.freed post ++ [])) := by
    refine freed.replace (layout_absorb (freed.sublist ?_) next) (within_absorb next)
    simp
  have first' : Layout (pre ++ (e :: absorb f.freed post ++ [])) := by simpa using first
  have meets : Meets e (absorb f.freed post) := fun c head free _ => by
    rw [← absorb_place c head]
    exact prev free
  refine ⟨by simpa using first', ?_⟩
  have second := first'.replace (layout_absorb (first'.sublist ?_) meets) (within_absorb meets)
  · simpa using second
  · simp

theorem within_give_back (next : Meets f.freed post) (prev : e.status = .free → f.addr = e.stop) :
    Within (pre ++ absorb e (absorb f.freed post)) (pre ++ e :: f :: post) := by
  have meets : Meets e (absorb f.freed post) := fun c head free _ => by
    rw [← absorb_place c head]
    exact prev free
  intro c inside x here
  rcases List.mem_append.mp inside with before | later
  · exact ⟨c, by simp [before], here⟩
  obtain ⟨d, there, x_d⟩ := within_absorb meets c later x here
  rcases List.mem_cons.mp there with rfl | there
  · exact ⟨d, by simp, x_d⟩
  obtain ⟨d', there', x_d'⟩ := within_absorb next d there x x_d
  rcases List.mem_cons.mp there' with rfl | after
  · exact ⟨f, by simp, x_d'⟩
  · exact ⟨d', by simp [after], x_d'⟩

theorem absorb_of_not_free (status : b.status ≠ .free) : absorb b cs = b :: cs := by
  cases cs with
  | nil => rfl
  | cons c cs => rw [absorb_cons, if_neg fun both => status both.1]

/-- The head of the list stays what it is. -/
theorem give_back_head (anchor : head.status ≠ .free) (whole : head :: blocks = pre ++ e :: f :: post) :
    ∃ blocks', pre ++ absorb e (absorb f.freed post) = head :: blocks' := by
  cases pre with
  | nil =>
    obtain ⟨rfl, -⟩ := List.cons.inj whole
    exact ⟨_, absorb_of_not_free anchor⟩
  | cons h pre =>
    obtain ⟨rfl, -⟩ := List.cons.inj whole
    exact ⟨_, rfl⟩

theorem Ledger.release (ledger : Ledger head frames blocks live)
    (whole : head :: blocks = pre ++ e :: f :: post)
    (result : pre ++ absorb e (absorb f.freed post) = head :: blocks') (taken : f.status = .used)
    (f_in : f ∈ blocks) (next : Meets f.freed post) (prev : e.status = .free → f.addr = e.stop) :
    Ledger head frames blocks' (live.filter fun r => r.1 ≠ f.pointer) := by
  have layout := ledger.layout
  rw [whole] at layout
  have layout' := (layout_give_back layout next prev).2
  have within := @within_give_back e f pre post next prev
  have used : ∀ c, c.status = .used → (c ∈ head :: blocks' ↔ c ∈ head :: blocks ∧ c ≠ f) := by
    intro c used
    rw [whole, ← result]
    exact mem_give_back_used layout taken used
  have members : ∀ c ∈ head :: blocks', (c ∈ head :: blocks ∨ c.status = .free) ∧
      ∃ d ∈ head :: blocks, d.addr = c.addr := by
    intro c inside
    rw [← result] at inside
    rw [whole]
    exact mem_give_back inside
  rw [result] at layout'
  rw [result, ← whole] at within
  have head_ne : ∀ c ∈ blocks', Disjoint head.bytes c.bytes := (List.pairwise_cons.mp layout'.apart).1
  have not_head : ∀ c ∈ blocks', c.addr ≠ head.addr := fun c inside same =>
    Set.disjoint_left.mp (head_ne c inside) head.addr_mem (same ▸ c.addr_mem)
  refine ledger.give_back f_in layout' (fun c inside x here => ?_) (fun c inside => ?_)
    (fun c inside => ?_) fun c is_used => ?_
  · obtain ⟨d, there, x_in⟩ := within c (List.mem_cons_of_mem head inside) x here
    rcases List.mem_cons.mp there with rfl | there
    · exact absurd here (Set.disjoint_left.mp (head_ne c inside) x_in)
    · exact ⟨d, there, x_in⟩
  · obtain ⟨d, there, same⟩ := (members c (List.mem_cons_of_mem head inside)).2
    rcases List.mem_cons.mp there with rfl | there
    · exact absurd same.symm (not_head c inside)
    · exact ⟨d, there, same⟩
  · rcases (members c (List.mem_cons_of_mem head inside)).1 with old | free
    · rcases List.mem_cons.mp old with rfl | old
      · exact absurd rfl (not_head c inside)
      · exact .inl old
    · exact .inr free
  · have all := used c is_used
    have away : c ∈ blocks → c ≠ head := fun inside same => by
      have apart := (List.pairwise_cons.mp ledger.layout.apart).1 c inside
      exact Set.disjoint_left.mp apart head.addr_mem (same ▸ c.addr_mem)
    simp only [List.mem_cons] at all
    constructor
    · intro inside
      obtain ⟨old, other⟩ := all.mp (.inr inside)
      rcases old with rfl | old
      · exact absurd rfl (not_head c inside)
      · exact ⟨old, other⟩
    · rintro ⟨inside, other⟩
      rcases all.mpr ⟨.inr inside, other⟩ with same | inside'
      · exact absurd same (away inside)
      · exact inside'

end AtaKernel.Memory
