import AtaKernel.Memory.HeapShape

/-! Giving back several blocks. Where the heap has its row of frames to itself,
its blocks tile these frames with no two free ones in a row, so the blocks in use
determine the whole list. A call of `kfree` takes one block out of use and leaves
the others: in which order the calls come does not matter. -/
namespace AtaKernel.Memory
open ByteMemory LinkedSegments Block

/-- One call of `kfree` after the other. -/
inductive Frees (memHead : Nat) : Kernel → List Nat → Kernel → Prop
  | nil {k : Kernel} : Frees memHead k [] k
  | cons {k k' k'' : Kernel} {ptr : Nat} {ptrs : List Nat} (step : Step memHead k (.kfree ptr) k')
      (rest : Frees memHead k' ptrs k'') : Frees memHead k (ptr :: ptrs) k''

/-- The blocks in use, without those at the pointers that were given back. -/
def InUse (blocks blocks' : List Block) (ptrs : List Nat) : Prop :=
  ∀ c : Block, c.status = .used → (c ∈ blocks' ↔ c ∈ blocks ∧ c.pointer ∉ ptrs)

variable {head : MemHead} {k k' : Kernel} {blocks blocks' bs' : List Block} {s : State} {m' : Memory}
  {lo hi count ptr : Nat} {ptrs ptrs' : List Nat}

/-- A call of `kfree` takes the block at its pointer out of use, and no other. -/
theorem inUse_of_kfree (sound : Sound head k blocks)
    (does : Kfree ptr k.state.memory (headBlock head.addr :: blocks) m'
      (headBlock head.addr :: blocks')) : InUse blocks blocks' [ptr] := by
  have not_head : ∀ c : Block, c.status = .used → c ≠ headBlock head.addr := by
    rintro c used rfl
    cases used
  intro c used
  rw [List.mem_singleton]
  generalize whole : headBlock head.addr :: blocks = bs at does
  generalize result : headBlock head.addr :: blocks' = bs' at does
  cases does with
  | @kept h bs dead =>
    obtain ⟨rfl, rfl⟩ := List.cons.inj whole
    obtain ⟨-, rfl⟩ := List.cons.inj result
    refine ⟨fun inside => ⟨inside, fun at_ptr => ?_⟩, fun both => both.1⟩
    rw [dead c inside at_ptr] at used
    cases used
  | @freed pre post e f m' here taken linked writes =>
    have f_in := mem_of_second whole
    have layout := sound.ledger.layout
    rw [whole] at layout
    have members := @mem_give_back_used c e f pre post layout (sound.used_of_not_free f_in taken) used
    have member : c ∈ blocks' ↔ c ∈ blocks ∧ c ≠ f := by
      rw [← result, ← whole, List.mem_cons, List.mem_cons, or_iff_right (not_head c used),
        or_iff_right (not_head c used)] at members
      exact members
    rw [member]
    refine and_congr_right fun inside => not_congr ⟨fun same => same ▸ here, fun at_ptr => ?_⟩
    exact sound.ledger.eq_of_pointer inside f_in (at_ptr.trans here.symm)

/-- A call of `kfree` on a heap that has its row to itself. -/
theorem packed_kfree (sound : Sound head k blocks) (packed : Packed head k blocks lo count hi)
    (step : Step head.addr k (.kfree ptr) k') :
    ∃ blocks', Sound head k' blocks' ∧ Packed head k' blocks' lo count hi ∧
      InUse blocks blocks' [ptr] := by
  cases step with
  | @kfree _ _ s' returned =>
    obtain ⟨m', bs', rfl, does⟩ := kfree_does sound.linked sound.ledger.layout
      (sound.freesWell (packed.joins sound)) returned
    obtain ⟨blocks', rfl, sound', writes⟩ := sound.kfree (packed.joins sound) does
    exact ⟨blocks', sound', packed.kfree sound writes does, inUse_of_kfree sound does⟩

/-- Giving back several blocks takes just these out of use. -/
theorem packed_frees (sound : Sound head k blocks) (packed : Packed head k blocks lo count hi)
    (frees : Frees head.addr k ptrs k') :
    ∃ blocks', Sound head k' blocks' ∧ Packed head k' blocks' lo count hi ∧
      InUse blocks blocks' ptrs := by
  induction frees generalizing blocks with
  | nil => exact ⟨blocks, sound, packed, fun c used => by simp⟩
  | cons step rest ih =>
    obtain ⟨blocks₁, sound₁, packed₁, one⟩ := packed_kfree sound packed step
    obtain ⟨blocks₂, sound₂, packed₂, others⟩ := ih sound₁ packed₁
    refine ⟨blocks₂, sound₂, packed₂, fun c used => ?_⟩
    rw [others c used, one c used, List.mem_singleton, List.mem_cons, not_or, and_assoc]

theorem frees_return (sound : Sound head k blocks) (packed : Packed head k blocks lo count hi)
    (ptrs : List Nat) : ∃ k', Frees head.addr k ptrs k' := by
  induction ptrs generalizing k blocks with
  | nil => exact ⟨k, .nil⟩
  | cons ptr ptrs ih =>
    obtain ⟨k₁, step⟩ := @Sound.kfree_step head k blocks ptr sound (packed.joins sound)
    obtain ⟨blocks₁, sound₁, packed₁, -⟩ := packed_kfree sound packed step
    obtain ⟨k', rest⟩ := ih sound₁ packed₁
    exact ⟨k', .cons step rest⟩

/-- The list of a heap that has its row to itself is determined by the blocks in use. -/
theorem Packed.unique {k₁ k₂ : Kernel} {blocks₁ blocks₂ : List Block} (sound₁ : Sound head k₁ blocks₁)
    (packed₁ : Packed head k₁ blocks₁ lo count hi) (sound₂ : Sound head k₂ blocks₂)
    (packed₂ : Packed head k₂ blocks₂ lo count hi) (used₁ : InUse blocks blocks₁ ptrs)
    (used₂ : InUse blocks blocks₂ ptrs') (order : ptrs.Perm ptrs') : blocks₁ = blocks₂ := by
  apply tiles_unique packed₁.tiles packed₂.tiles packed₁.apart.tail packed₂.apart.tail
    sound₁.ledger.status sound₂.ledger.status
  intro c used
  rw [used₁ c used, used₂ c used, order.mem_iff]

/-- With nothing in use there is at most one block, and it covers the frames of the heap. -/
theorem Packed.idle (sound : Sound head k blocks) (packed : Packed head k blocks lo count hi)
    (idle : ∀ c ∈ blocks, c.status ≠ .used) :
    blocks = [] ∧ k.heapFrames = ∅ ∨
      ∃ b, blocks = [b] ∧ b.status = .free ∧ ∀ x, x ∈ b.bytes ↔ x / memFrameSize ∈ k.heapFrames := by
  have free : ∀ c ∈ blocks, c.status = .free := fun c inside => by
    by_contra other
    exact idle c inside (sound.used_of_not_free inside other)
  have tiles := packed.tiles
  rw [packed.frames]
  match blocks, free, tiles, packed.apart with
  | [], _, tiles, _ =>
    refine .inl ⟨rfl, ?_⟩
    have none_ : count = 0 := by
      unfold Tiles memFrameSize at tiles
      omega
    rw [none_]
    exact row_empty.symm
  | [b], free, ⟨start, ends⟩, _ =>
    refine .inr ⟨b, rfl, free b List.mem_cons_self, fun x => ?_⟩
    have stop_eq : b.stop = (lo + count) * memFrameSize := ends
    rw [bytes, start, stop_eq, Set.mem_Ico, ← Nat.le_div_iff_mul_le (by decide),
      ← Nat.div_lt_iff_lt_mul (by decide)]
    rfl
  | b :: c :: cs, free, _, apart =>
    have chain := (List.isChain_cons_cons.mp apart).2
    exact absurd ⟨free b (by simp), free c (by simp)⟩ (List.isChain_cons_cons.mp chain).1

/-- Where the heap has its row of frames to itself, giving back blocks in two orders leaves the same
list of entries. When nothing stays in use, that is at most one free entry, which covers the frames
that the heap obtained. -/
theorem order_of_frees_irrelevant (started : Started head s) (row : OneRow s lo hi)
    (reach : Reachable head.addr HeapOnly (.boot s) k) (order : ptrs.Perm ptrs') :
    ∃ blocks, (∃ k₁, Frees head.addr k ptrs k₁) ∧ (∃ k₂, Frees head.addr k ptrs' k₂) ∧
      (∀ k₁, Frees head.addr k ptrs k₁ ∨ Frees head.addr k ptrs' k₁ →
        Linked k₁.state.memory (headBlock head.addr :: blocks)) ∧
      ((∀ p ∈ k.live.map Prod.fst, p ∈ ptrs) → blocks = [] ∧ k.heapFrames = ∅ ∨
        ∃ b, blocks = [b] ∧ b.status = .free ∧
          ∀ x, x ∈ b.bytes ↔ x / memFrameSize ∈ k.heapFrames) := by
  obtain ⟨blocks, count, sound, packed⟩ :=
    reachable_packed started (row.clipped) (le_max_right _ _) reach
  obtain ⟨k₁, frees₁⟩ := frees_return sound packed ptrs
  obtain ⟨blocks₁, sound₁, packed₁, used₁⟩ := packed_frees sound packed frees₁
  refine ⟨blocks₁, ⟨k₁, frees₁⟩, frees_return sound packed ptrs', fun k₂ frees => ?_, fun all => ?_⟩
  · have same : ∀ ptrs₂, ptrs.Perm ptrs₂ → Frees head.addr k ptrs₂ k₂ →
        Linked k₂.state.memory (headBlock head.addr :: blocks₁) := by
      intro ptrs₂ order₂ frees₂
      obtain ⟨blocks₂, sound₂, packed₂, used₂⟩ := packed_frees sound packed frees₂
      rw [Packed.unique sound₁ packed₁ sound₂ packed₂ used₁ used₂ order₂]
      exact sound₂.linked
    cases frees with
    | inl first => exact same ptrs (List.Perm.refl ptrs) first
    | inr second => exact same ptrs' order second
  · have frames : k₁.heapFrames = k.heapFrames := packed₁.frames.trans packed.frames.symm
    rw [← frames]
    refine packed₁.idle sound₁ fun c inside used => ?_
    obtain ⟨old, away⟩ := (used₁ c used).mp inside
    exact away (all _ (sound.ledger.known c old used))

/-- Two blocks of a machine of three megabytes, given back in both orders: one free block is left. -/
theorem order_of_frees_irrelevant_threeMegabytes : ∃ (s : State) (k₁ k₂ k₃ k₄ : Kernel) (b : Block),
    memInit lowHead.addr threeMegabytes ⟨fun _ => 0, 0⟩ = (0, s) ∧ Step lowHead.addr (.boot s) (.kalloc 100) k₁ ∧
      Step lowHead.addr k₁ (.kalloc 4080) k₂ ∧ k₂.live = [(0x102010, 4080), (0x101010, 100)] ∧
      Frees lowHead.addr k₂ [0x101010, 0x102010] k₃ ∧ Frees lowHead.addr k₂ [0x102010, 0x101010] k₄ ∧
      Linked k₃.state.memory [headBlock lowHead.addr, b] ∧ Linked k₄.state.memory [headBlock lowHead.addr, b] ∧
      b.status = .free ∧ ∀ x, x ∈ b.bytes ↔ x / memFrameSize ∈ k₂.heapFrames := by
  obtain ⟨s, k₁, k₂, lo, hi, returned, row, step₁, step₂, -, reach₂, -, -, stage₂, live₂⟩ := Two.both
  obtain ⟨blocks, ⟨k₃, frees₃⟩, ⟨k₄, frees₄⟩, same, idle⟩ := order_of_frees_irrelevant (started_of_memInit returned) row
    reach₂ (List.Perm.swap 0x102010 0x101010 [])
  have all : ∀ p ∈ k₂.live.map Prod.fst, p ∈ [0x101010, 0x102010] := by
    rw [live₂]
    decide
  obtain ⟨-, none_⟩ | ⟨b, rfl, free, covers⟩ := idle all
  · have inside : 0x101000 / memFrameSize ∈ k₂.heapFrames :=
      stage₂.sound.ledger.covered Two.front List.mem_cons_self 0x101000 ⟨le_rfl, by decide⟩
    rw [none_] at inside
    exact inside.elim
  · exact ⟨s, k₁, k₂, k₃, k₄, b, returned, step₁, step₂, live₂, frees₃, frees₄,
      same k₃ (.inl frees₃), same k₄ (.inr frees₄), free, covers⟩

end AtaKernel.Memory
