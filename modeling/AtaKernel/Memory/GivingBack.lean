import AtaKernel.Memory.FreeOrder

/-! Giving back what was just handed out, and giving back what was not. Where the heap
has its row of frames to itself, `kfree` undoes a call of `kalloc` that found its block
in the list: the remainder of the block is free again and is joined with it, and with
nothing else, because the list had no two free blocks in a row. A pointer that is not
live is the pointer of no used block, and `kfree` leaves everything as it was. -/
namespace AtaKernel.Memory
open ByteMemory LinkedSegments Block

variable {head : MemHead} {k k' : Kernel} {blocks pre post bs : List Block} {s s' : State} {m m' : Memory}
  {b c : Block} {lo hi count units bytes p ptr fuel : Nat}

/-! ## kfree after kalloc -/

/-- A list that is linked in two memories has the same headers in both. -/
theorem header_eq_of_linked (linked : Linked m bs) (linked' : Linked m' bs) (inside : b ∈ bs) :
    header m b.addr = header m' b.addr := by
  obtain ⟨pre, post, rfl⟩ := List.append_of_mem inside
  exact (segment_middle linked).trans (segment_middle linked').symm

/-- The call of `kalloc` carves a block of the list. -/
structure Carves (head : MemHead) (k : Kernel) (units : Nat) (pre post : List Block) (b : Block)
    (lo count hi : Nat) (k' : Kernel) : Prop where
  fits : Fits units b
  sound : Sound head k' (pre ++ (carve units b ++ post))
  packed : Packed head k' (pre ++ (carve units b ++ post)) lo count hi
  total : k'.state.totalFrames = k.state.totalFrames
  bitmap : ∀ g, Tracked k.state g →
    memBitmapGetEntry k'.state.memory g = memBitmapGetEntry k.state.memory g

theorem kalloc_carves (sound : Sound head k blocks) (packed : Packed head k blocks lo count hi)
    (limit : bytes ≤ 0xFFFFFFE0) (some_fits : ∃ b ∈ blocks, Fits (unitsOf bytes) b)
    (returned : kalloc head.addr fuel k.state bytes = some (p, s')) :
    ∃ pre b post, blocks = pre ++ b :: post ∧ p = b.pointer ∧
      Carves head k (unitsOf bytes) pre post b lo count hi (k.kalloced bytes p s') := by
  obtain ⟨d, d_in, d_fits⟩ := some_fits
  obtain ⟨bs', row, does⟩ :=
    kalloc_does sound.linked sound.ledger.layout sound.clears (unitsOf_small limit) returned
  generalize whole : headBlock head.addr :: blocks = bs at does
  have d_in' : d ∈ bs := whole ▸ List.mem_cons_of_mem _ d_in
  cases does with
  | grown unfit => exact absurd d_fits (unfit d d_in')
  | full unfit => exact absurd d_fits (unfit d d_in')
  | placed unfit fits linked writes =>
    obtain ⟨pre, rfl, rfl⟩ := fits_behind_head whole fits
    have serves := sound.placed fits (unitsOf_room bytes) linked writes
    exact ⟨pre, _, _, rfl, rfl, fits, serves.sound sound, packed.placed fits serves, serves.total,
      fun g tracked => (serves.marks g tracked).2 id⟩

/-- The block that was carved is the only one that is used now and was not before. -/
theorem mem_carved_used (sound : Sound head k (pre ++ b :: post)) (fits : Fits units b)
    (used : c.status = .used) :
    (c ∈ pre ++ (carve units b ++ post) ∧ c.pointer ∉ [b.pointer]) ↔ c ∈ pre ++ b :: post := by
  have b_in : b ∈ pre ++ b :: post := by simp
  have not_b : c ≠ b := by
    rintro rfl
    have free := fits.1
    rw [used] at free
    cases free
  rw [List.mem_singleton]
  constructor
  · rintro ⟨inside, other⟩
    simp only [List.mem_append, List.mem_cons] at inside ⊢
    rcases inside with before | new | after
    · exact .inl before
    · rcases mem_carve new with ⟨place, -⟩ | ⟨-, free⟩
      · exact absurd (congrArg (· + entryBytes) place) other
      · rw [used] at free
        cases free
    · exact .inr (.inr after)
  · intro inside
    refine ⟨?_, fun same => not_b (sound.ledger.eq_of_pointer inside b_in same)⟩
    simp only [List.mem_append, List.mem_cons] at inside ⊢
    rcases inside with before | here | after
    · exact .inl before
    · exact absurd here not_b
    · exact .inr (.inr after)

/-- Giving back the block that was carved restores the list. -/
theorem Carves.undone {k₁ k₂ : Kernel} (sound : Sound head k (pre ++ b :: post))
    (packed : Packed head k (pre ++ b :: post) lo count hi)
    (carves : Carves head k units pre post b lo count hi k₁)
    (step : Step head.addr k₁ (.kfree b.pointer) k₂) :
    Sound head k₂ (pre ++ b :: post) ∧ k₂.state.totalFrames = k.state.totalFrames ∧
      ∀ g, Tracked k.state g →
        memBitmapGetEntry k₂.state.memory g = memBitmapGetEntry k.state.memory g := by
  obtain ⟨blocks₂, sound₂, packed₂, used₂⟩ := packed_kfree carves.sound carves.packed step
  have same : blocks₂ = pre ++ b :: post := by
    refine tiles_unique packed₂.tiles packed.tiles packed₂.apart.tail packed.apart.tail
      sound₂.ledger.status sound.ledger.status fun c used => ?_
    rw [used₂ c used]
    exact mem_carved_used sound carves.fits used
  refine ⟨same ▸ sound₂, ?_, fun g tracked => ?_⟩
  · cases step with
    | kfree returned =>
      obtain ⟨m', -, rfl, -⟩ := kfree_does carves.sound.linked carves.sound.ledger.layout
        (carves.sound.freesWell (carves.packed.joins carves.sound)) returned
      exact carves.total
  · rw [← carves.bitmap g tracked]
    have tracked₁ : Tracked k₁.state g := ⟨tracked.1, carves.total ▸ tracked.2⟩
    cases step with
    | kfree returned =>
      obtain ⟨m', bs', rfl, does⟩ := kfree_does carves.sound.linked carves.sound.ledger.layout
        (carves.sound.freesWell (carves.packed.joins carves.sound)) returned
      obtain ⟨-, -, -, writes⟩ := carves.sound.kfree (carves.packed.joins carves.sound) does
      exact getEntry_of_headersOnly writes tracked₁.1 (carves.sound.clear tracked₁)

/-- Where the heap has its row of frames to itself and some free block fits, `kalloc` and `kfree` of
what it returned both return, and leave the list, its links and the bitmap as they were. -/
theorem kfree_undoes_kalloc (started : Started head s) (row : OneRow s lo hi)
    (reach : Reachable head.addr HeapOnly (.boot s) k) (limit : bytes ≤ 0xFFFFFFE0) :
    ∃ blocks, Linked k.state.memory (headBlock head.addr :: blocks) ∧ Layout (headBlock head.addr :: blocks) ∧
      ((∃ b ∈ blocks, Fits (unitsOf bytes) b) →
        (∃ fuel p s₁ fuel' s₂, kalloc head.addr fuel k.state bytes = some (p, s₁) ∧
          kfree head.addr fuel' s₁ p = some s₂) ∧
        ∀ fuel p s₁ fuel' s₂, kalloc head.addr fuel k.state bytes = some (p, s₁) →
          kfree head.addr fuel' s₁ p = some s₂ →
            Linked s₂.memory (headBlock head.addr :: blocks) ∧
            (∀ b ∈ headBlock head.addr :: blocks, header s₂.memory b.addr = header k.state.memory b.addr) ∧
            s₂.totalFrames = k.state.totalFrames ∧
            ∀ g < k.state.totalFrames, g < 2 ^ 32 →
              memBitmapGetEntry s₂.memory g = memBitmapGetEntry k.state.memory g) := by
  obtain ⟨blocks, count, sound, packed⟩ :=
    reachable_packed started row.clipped (le_max_right _ _) reach
  refine ⟨blocks, sound.linked, sound.ledger.layout, fun some_fits => ⟨?_, ?_⟩⟩
  · obtain ⟨fuel, p, s₁, -, -, returned, -⟩ :=
      kalloc_returns sound.linked sound.ledger.layout sound.clears (unitsOf_small limit)
    obtain ⟨pre, b, post, rfl, -, carves⟩ := kalloc_carves sound packed limit some_fits returned
    have well : FreesWell p (headBlock head.addr :: _) :=
      carves.sound.freesWell (carves.packed.joins carves.sound)
    obtain ⟨fuel', m', -, freed, -⟩ := kfree_returns carves.sound.linked carves.sound.ledger.layout well
    exact ⟨fuel, p, s₁, fuel', _, returned, freed⟩
  · intro fuel p s₁ fuel' s₂ returned freed
    obtain ⟨pre, b, post, rfl, rfl, carves⟩ := kalloc_carves sound packed limit some_fits returned
    obtain ⟨sound₂, total, bitmap⟩ := carves.undone sound packed (.kfree freed)
    exact ⟨sound₂.linked, fun c inside => header_eq_of_linked sound₂.linked sound.linked inside, total,
      fun g there small => bitmap g ⟨small, .inl there⟩⟩

/-- On a machine of three megabytes, 1000 bytes of what the first block left of its frame are handed out and given
back. -/
theorem kfree_undoes_kalloc_threeMegabytes :
    ∃ (s : State) (k : Kernel) (fuel p : Nat) (s₁ : State) (fuel' : Nat) (s₂ : State),
    memInit lowHead.addr threeMegabytes ⟨fun _ => 0, 0⟩ = (0, s) ∧ Step lowHead.addr (.boot s) (.kalloc 100) k ∧
      Linked k.state.memory [headBlock lowHead.addr, Two.front, Two.rest] ∧
      kalloc lowHead.addr fuel k.state 1000 = some (p, s₁) ∧ kfree lowHead.addr fuel' s₁ p = some s₂ ∧
      Linked s₂.memory [headBlock lowHead.addr, Two.front, Two.rest] ∧
      ∀ g < k.state.totalFrames, g < 2 ^ 32 → memBitmapGetEntry s₂.memory g = memBitmapGetEntry k.state.memory g := by
  obtain ⟨s, k, -, lo, hi, returned, row, step, -, reach, -, stage, -⟩ := Two.both
  obtain ⟨blocks, linked, layout, undoes⟩ :=
    kfree_undoes_kalloc (started_of_memInit returned) row reach (by decide : 1000 ≤ 0xFFFFFFE0)
  have same : headBlock lowHead.addr :: blocks = [headBlock lowHead.addr, Two.front, Two.rest] :=
    linked.unique layout stage.sound.linked stage.sound.ledger.layout rfl
  obtain rfl := (List.cons.inj same).2
  obtain ⟨⟨fuel, p, s₁, fuel', s₂, handed, freed⟩, all⟩ := undoes ⟨Two.rest, by simp, by decide⟩
  obtain ⟨linked₂, -, -, bitmap⟩ := all fuel p s₁ fuel' s₂ handed freed
  exact ⟨s, k, fuel, p, s₁, fuel', s₂, returned, step, linked, handed, freed, linked₂, bitmap⟩

/-! ## Pointers that are not live -/

/-- In the run to this state no call returned the pointer, or it was given back since. -/
inductive Idle (memHead : Nat) (start : Kernel) (ptr : Nat) : Kernel → Prop
  | start : Idle memHead start ptr start
  | kalloc {k : Kernel} {bytes fuel p : Nat} {s' : State} (before : Idle memHead start ptr k)
      (limit : bytes ≤ 0xFFFFFFE0) (returned : kalloc memHead fuel k.state bytes = some (p, s'))
      (other : p ≠ ptr) : Idle memHead start ptr (k.kalloced bytes p s')
  | kfree {k : Kernel} {p fuel : Nat} {s' : State} (before : Idle memHead start ptr k)
      (returned : kfree memHead fuel k.state p = some s') : Idle memHead start ptr (k.kfreed p s')
  | store {k : Kernel} {x : Nat} {value : UInt8} (before : Idle memHead start ptr k)
      (owned : k.Owned x) : Idle memHead start ptr (k.stored x value)
  | given {k : Kernel} {fuel : Nat} {s' : State} (reach : Reachable memHead HeapOnly start k)
      (returned : kfree memHead fuel k.state ptr = some s') : Idle memHead start ptr (k.kfreed ptr s')

/-- NULL, a pointer that no call returned or that was given back since, or one into a block. -/
inductive NotLive (memHead : Nat) (start k : Kernel) (blocks : List Block) (ptr : Nat) : Prop
  | null (zero : ptr = 0)
  | idle (idle : Idle memHead start ptr k)
  | inside {b : Block} (among : b ∈ blocks) (above : b.pointer < ptr) (below : ptr < b.stop)

/-- The books have no pointer that is idle. -/
theorem Idle.not_live {memHead : Nat} {start : Kernel} (idle : Idle memHead start ptr k)
    (none_ : start.live = []) : ptr ∉ k.live.map Prod.fst := by
  have filtered : ∀ (live : List (Nat × Nat)) (p : Nat), ptr ∉ live.map Prod.fst ∨ p = ptr →
      ptr ∉ (live.filter fun r => r.1 ≠ p).map Prod.fst := by
    intro live p either inside
    obtain ⟨r, r_in, same⟩ := List.mem_map.mp inside
    obtain ⟨r_in, other⟩ := List.mem_filter.mp r_in
    rcases either with dead | rfl
    · exact dead (List.mem_map.mpr ⟨r, r_in, same⟩)
    · exact of_decide_eq_true other same
  induction idle with
  | start =>
    rw [none_]
    exact List.not_mem_nil
  | @kalloc k bytes fuel p s' before limit returned other ih =>
    change ptr ∉ (if p = 0 then k.live else (p, bytes) :: k.live).map Prod.fst
    split
    · exact ih
    · exact fun inside => (List.mem_cons.mp inside).elim (fun same => other same.symm) ih
  | kfree before returned ih => exact filtered _ _ (.inl ih)
  | store before owned ih => exact ih
  | given reach returned => exact filtered _ _ (.inr rfl)

/-- Only a used block with that pointer makes `kfree` change anything. -/
theorem kfree_unchanged (sound : Sound head k blocks) (packed : Packed head k blocks lo count hi)
    (unused : ∀ f ∈ blocks, f.status = .used → f.pointer ≠ ptr) :
    (∃ fuel, kfree head.addr fuel k.state ptr = some k.state) ∧
      ∀ fuel s', kfree head.addr fuel k.state ptr = some s' → s' = k.state := by
  have well : FreesWell ptr (headBlock head.addr :: blocks) := sound.freesWell (packed.joins sound)
  have kept : ∀ {m' bs'}, Kfree ptr k.state.memory (headBlock head.addr :: blocks) m' bs' →
      m' = k.state.memory := by
    intro m' bs' does
    generalize whole : headBlock head.addr :: blocks = bs at does
    cases does with
    | kept dead => rfl
    | freed here taken linked writes =>
      have f_in := mem_of_second whole
      exact absurd here (unused _ f_in (sound.used_of_not_free f_in taken))
  constructor
  · obtain ⟨fuel, m', bs', returned, does⟩ := kfree_returns sound.linked sound.ledger.layout well
    rw [kept does] at returned
    exact ⟨fuel, returned⟩
  · intro fuel s' returned
    obtain ⟨m', bs', rfl, does⟩ := kfree_does sound.linked sound.ledger.layout well returned
    rw [kept does]

/-- Where the heap has its row of frames to itself, `kfree` of a pointer that is not live returns and
leaves the whole state as it was. -/
theorem kfree_not_live_harmless (started : Started head s) (row : OneRow s lo hi)
    (reach : Reachable head.addr HeapOnly (.boot s) k) :
    ∃ blocks, Linked k.state.memory (headBlock head.addr :: blocks) ∧ Layout (headBlock head.addr :: blocks) ∧
      ∀ ptr, NotLive head.addr (.boot s) k blocks ptr →
        (∃ fuel, kfree head.addr fuel k.state ptr = some k.state) ∧
          ∀ fuel s', kfree head.addr fuel k.state ptr = some s' → s' = k.state := by
  obtain ⟨blocks, count, sound, packed⟩ :=
    reachable_packed started row.clipped (le_max_right _ _) reach
  refine ⟨blocks, sound.linked, sound.ledger.layout, fun ptr not_live =>
    kfree_unchanged sound packed fun f inside used same => ?_⟩
  cases not_live with
  | null zero => exact pointer_pos.ne' (same.trans zero)
  | idle idle => exact idle.not_live rfl (same ▸ sound.ledger.known f inside used)
  | @inside b among above below =>
    have layout := sound.ledger.layout
    rw [← same] at above below
    have into : f.addr ∈ b.bytes := by
      unfold pointer at above below
      exact ⟨by omega, by omega⟩
    have one := layout.eq_of_mem (List.mem_cons_of_mem _ inside) (List.mem_cons_of_mem _ among)
      f.addr_mem into
    rw [one] at above
    exact lt_irrefl _ above

/-- On a machine of three megabytes the first of two blocks is given back. Neither NULL, its pointer once more nor a
pointer into the second block changes anything then. -/
theorem kfree_not_live_harmless_threeMegabytes : ∃ (s : State) (k₁ k₂ k₃ : Kernel),
    memInit lowHead.addr threeMegabytes ⟨fun _ => 0, 0⟩ = (0, s) ∧ Step lowHead.addr (.boot s) (.kalloc 100) k₁ ∧
      Step lowHead.addr k₁ (.kalloc 4080) k₂ ∧ Step lowHead.addr k₂ (.kfree 0x101010) k₃ ∧
      Linked k₃.state.memory [headBlock lowHead.addr, ⟨0x101000, 255, .free⟩, Two.behind] ∧
      ∀ ptr ∈ [0, 0x101010, 0x102020], (∃ fuel, kfree lowHead.addr fuel k₃.state ptr = some k₃.state) ∧
        ∀ fuel s', kfree lowHead.addr fuel k₃.state ptr = some s' → s' = k₃.state := by
  obtain ⟨s, k₁, k₂, lo, hi, returned, row, step₁, step₂, -, reach₂, -, -, stage₂, live₂⟩ := Two.both
  obtain ⟨k₃, step₃, stage₃, -⟩ := Two.kfree_front stage₂
  have started := started_of_memInit returned
  have gives : HeapOnly k₂ (.kfree Two.front.pointer) := trivial
  obtain ⟨blocks, linked, layout, harmless⟩ := kfree_not_live_harmless started row (.next reach₂ gives step₃)
  have same := linked.unique layout stage₃.sound.linked stage₃.sound.ledger.layout rfl
  refine ⟨s, k₁, k₂, k₃, returned, step₁, step₂, step₃, stage₃.sound.linked, fun ptr among => harmless ptr ?_⟩
  simp only [List.mem_cons, List.not_mem_nil, or_false] at among
  rcases among with rfl | rfl | rfl
  · exact .null rfl
  · cases step₃ with
    | kfree freed => exact .idle (.given reach₂ freed)
  · have second : Two.behind ∈ blocks := by
      rw [(List.cons.inj same).2]
      exact List.mem_cons_of_mem _ List.mem_cons_self
    exact .inside second (by decide) (by decide)

end AtaKernel.Memory
