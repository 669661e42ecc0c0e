import AtaKernel.Memory.Owners

/-! Runs of the kernel and of the other owners. No call changes what was handed
out, no owner writes outside what it holds, and so every step keeps the
invariant, if `kfree` joins only blocks that meet and frames have an address. -/
namespace AtaKernel.Memory
open ByteMemory RunSearch LinkedSegments Block

variable {head : MemHead} {k k' : Kernel} {blocks blocks' bs bs' pre post : List Block} {s s' : State}
  {m m' : Memory} {b e f : Block} {g units bytes p ptr fuel : Nat} {F : Set Nat}

/-! ## What was handed out stays as it is -/

/-- The bytes that were handed out are the same in both states. -/
def Untouched (k k' : Kernel) : Prop :=
  ∀ r ∈ k.live, ∀ x, r.1 ≤ x → x < r.1 + r.2 → k'.state.memory x = k.state.memory x

/-- The block behind a live pointer. -/
theorem Sound.behind {r : Nat × Nat} (sound : Sound head k blocks) (handed : r ∈ k.live) :
    ∃ b ∈ blocks, b.status = .used ∧ b.pointer = r.1 ∧ r.1 + r.2 ≤ b.stop := by
  obtain ⟨b, inside, used, place, size⟩ := sound.ledger.served r handed
  refine ⟨b, inside, used, place, ?_⟩
  rw [← place]
  unfold pointer stop
  unfold entryBytes at *
  omega

/-- Live blocks have no byte in common. -/
theorem Sound.disjoint {r r' : Nat × Nat} (sound : Sound head k blocks) (handed : r ∈ k.live)
    (handed' : r' ∈ k.live) (differ : r ≠ r') : Disjoint (Set.Ico r.1 (r.1 + r.2)) (Set.Ico r'.1 (r'.1 + r'.2)) := by
  obtain ⟨b, inside, -, place, ends⟩ := sound.behind handed
  obtain ⟨c, inside', -, place', ends'⟩ := sound.behind handed'
  rw [Set.disjoint_left]
  rintro x ⟨above, below⟩ ⟨above', below'⟩
  have same : b = c := by
    refine sound.ledger.layout.eq_of_mem (List.mem_cons_of_mem _ inside)
      (List.mem_cons_of_mem _ inside') ⟨?_, below.trans_le ends⟩ ⟨?_, below'.trans_le ends'⟩
    · exact (Nat.le_add_right _ _).trans (place.le.trans above)
    · exact (Nat.le_add_right _ _).trans (place'.le.trans above')
  refine differ (List.inj_on_of_nodup_map sound.ledger.once handed handed' ?_)
  rw [← place, ← place', same]

/-- A live block has an address, and ends where the addresses end or before. -/
theorem Sound.live_bounds {r : Nat × Nat} (sound : Sound head k blocks) (handed : r ∈ k.live) :
    0 < r.1 ∧ r.1 + r.2 < 2 ^ 32 := by
  obtain ⟨b, inside, -, place, ends⟩ := sound.behind handed
  obtain ⟨-, top⟩ := sound.ledger.layout.bounds b (List.mem_cons_of_mem _ inside)
  exact ⟨place ▸ pointer_pos, ends.trans_lt top⟩

/-- What a block hands out is no header. -/
theorem not_header {x : Nat} (layout : Layout bs) (inside : b ∈ bs) (above : b.pointer ≤ x)
    (below : x < b.stop) : x ∉ headers bs := by
  rintro ⟨c, there, low, high⟩
  have x_b : x ∈ b.bytes := ⟨(Nat.le_add_right _ _).trans above, below⟩
  have x_c : x ∈ c.bytes := by
    refine ⟨low, high.trans_le ?_⟩
    unfold stop entryBytes
    omega
  rw [← layout.eq_of_mem inside there x_b x_c] at high
  exact absurd high (Nat.not_lt.mpr above)

theorem Serves.untouched {row : Set Nat} (serves : Serves head k bytes p s' blocks blocks' row)
    (sound : Sound head k blocks) : Untouched k (k.kalloced bytes p s') := by
  intro r handed x above below
  obtain ⟨b, inside, used, place, ends⟩ := sound.behind handed
  have x_b : x ∈ b.bytes := ⟨(Nat.le_add_right _ _).trans (place.le.trans above), by omega⟩
  apply serves.outside x
  · exact not_header serves.ledger.layout (List.mem_cons_of_mem _ (serves.keeps b inside used))
      (place.le.trans above) (by omega)
  · rintro g tracked rfl
    exact sound.clear tracked b (List.mem_cons_of_mem _ inside) x_b

theorem Sound.untouched (sound : Sound head k blocks)
    (writes : HeadersOnly (headBlock head.addr :: blocks) k.state.memory m') :
    Untouched k (k.kfreed ptr { k.state with memory := m' }) := by
  intro r handed x above below
  obtain ⟨b, inside, -, place, ends⟩ := sound.behind handed
  exact writes x (not_header sound.ledger.layout (List.mem_cons_of_mem _ inside)
    (place.le.trans above) (by omega))

/-- A byte of the memory that is neither in a header nor an entry of the bitmap. -/
def Plain (head : MemHead) (k : Kernel) (blocks : List Block) (x : Nat) : Prop :=
  x ∉ headers (headBlock head.addr :: blocks) ∧ ∀ g, Tracked k.state g → x ≠ bitmapByte g

/-- What was handed out belongs to no header and to no entry of the bitmap. -/
theorem Sound.owned_plain (sound : Sound head k blocks) {x : Nat} (owned : k.Owned x) : Plain head k blocks x := by
  rcases owned with ⟨r, handed, above, below⟩ | inside
  · obtain ⟨b, inside, -, place, ends⟩ := sound.behind handed
    have b_in : b ∈ headBlock head.addr :: blocks := List.mem_cons_of_mem _ inside
    refine ⟨not_header sound.ledger.layout b_in (place.le.trans above) (below.trans_le ends), ?_⟩
    rintro g tracked rfl
    refine sound.clear tracked b b_in ⟨?_, below.trans_le ends⟩
    exact (Nat.le_add_right _ _).trans (place.le.trans above)
  · obtain ⟨there, small, apart, used⟩ := sound.others _ inside
    have not_kept : ¬ Kept k.state (x / memFrameSize) := fun kept =>
      used_ne_reserved (used.symm.trans (sound.reserved _ kept))
    constructor
    · rintro ⟨b, among, low, high⟩
      rcases List.mem_cons.mp among with rfl | among
      · have below := head.below
        refine not_kept (.inl ?_)
        change head.addr ≤ x at low
        change x < head.addr + entryBytes at high
        rw [memKernelFirstFrame_eq]
        unfold memBitmapAddr memFrameSize at *
        omega
      · refine apart (sound.ledger.covered b among x ⟨low, ?_⟩)
        unfold stop
        unfold entryBytes at *
        omega
    · rintro g ⟨word, known⟩ rfl
      rcases known with there' | early
      · exact not_kept (.inr ⟨g, there', word, rfl⟩)
      · refine not_kept (.inr ⟨0, Nat.zero_lt_of_lt there, by decide, ?_⟩)
        unfold bitmapByte memBitmapAddr memBitmapEntriesPerByte memFrameSize
        omega

/-- The blocks lie above the head of the list. -/
theorem Sound.block_high (sound : Sound head k blocks) {x : Nat} (among : b ∈ blocks) (inside : x ∈ b.bytes) :
    head.addr ≤ x := by
  have below := head.below
  have lower := (sound.heap _ (sound.ledger.covered b among x inside)).1
  rw [memKernelFirstFrame_eq] at lower
  unfold memBitmapAddr memFrameSize at *
  omega

theorem Sound.live_high {r : Nat × Nat} {x : Nat} (sound : Sound head k blocks) (handed : r ∈ k.live)
    (inside : x ∈ Set.Ico r.1 (r.1 + r.2)) : head.addr ≤ x := by
  obtain ⟨b, among, -, place, ends⟩ := sound.behind handed
  refine sound.block_high among ⟨?_, inside.2.trans_le ends⟩
  exact (Nat.le_add_right _ _).trans (place.le.trans inside.1)

/-- What lies below the head of the list is plain. -/
theorem Sound.low_plain (sound : Sound head k blocks) {x : Nat} (low : x < head.addr) : Plain head k blocks x := by
  constructor
  · rintro ⟨b, among, above, under⟩
    rcases List.mem_cons.mp among with rfl | among
    · exact absurd low (Nat.not_lt.mpr above)
    · have inside : x ∈ b.bytes := ⟨above, by unfold stop; unfold entryBytes at *; omega⟩
      exact absurd low (Nat.not_lt.mpr (sound.block_high among inside))
  · have below := head.below
    rintro g - rfl
    unfold bitmapByte memBitmapEntriesPerByte at low
    omega

theorem Plain.stored_getEntry {x : Nat} {value : UInt8} (plain : Plain head k blocks x) (words : x < 2 ^ 32)
    (tracked : Tracked k.state g) :
    memBitmapGetEntry (k.stored x value).state.memory g = memBitmapGetEntry k.state.memory g := by
  have at_x : cell x = x := cell_low words
  refine getEntry_congr tracked.1 (Function.update_of_ne ?_ _ _)
  rw [at_x]
  exact (plain.2 g tracked).symm

theorem Sound.stored_getEntry {x : Nat} {value : UInt8} (sound : Sound head k blocks)
    (words : x < 2 ^ 32) (owned : k.Owned x) (tracked : Tracked k.state g) :
    memBitmapGetEntry (k.stored x value).state.memory g = memBitmapGetEntry k.state.memory g :=
  (sound.owned_plain owned).stored_getEntry words tracked

/-- A store to a plain byte. -/
theorem Sound.stored_plain {x : Nat} {value : UInt8} (sound : Sound head k blocks) (words : x < 2 ^ 32)
    (plain : Plain head k blocks x) : Sound head (k.stored x value) blocks := by
  have at_x : cell x = x := cell_low words
  have same : ∀ g, Tracked k.state g → memBitmapGetEntry (k.stored x value).state.memory g =
      memBitmapGetEntry k.state.memory g :=
    fun g tracked => plain.stored_getEntry words tracked
  refine ⟨sound.ledger, ?_, fun g inside => ?_, fun g inside => ?_, fun g kept => ?_⟩
  · refine segment_congr (fun c among => header_congr fun i low => ?_) sound.linked
    have header : c.addr + i ∈ c.bytes := header_mem low
    have at_i : cell (c.addr + i) = c.addr + i :=
      Nat.mod_eq_of_lt (header.2.trans (sound.ledger.layout.bounds c among).2)
    rw [at_i]
    refine Function.update_of_ne ?_ _ _
    rw [at_x]
    rintro rfl
    exact plain.1 ⟨c, among, Nat.le_add_right _ _, Nat.add_lt_add_left low _⟩
  · obtain ⟨lower, upper, used⟩ := sound.heap g inside
    exact ⟨lower, upper, (same g (sound.tracked_heap inside)).trans used⟩
  · obtain ⟨there, small, apart, used⟩ := sound.others g inside
    exact ⟨there, small, apart, (same g ⟨small, .inl there⟩).trans used⟩
  · exact (same g kept.tracked).trans (sound.reserved g kept)

theorem Sound.stored {x : Nat} {value : UInt8} (sound : Sound head k blocks) (words : x < 2 ^ 32)
    (owned : k.Owned x) : Sound head (k.stored x value) blocks := sound.stored_plain words (sound.owned_plain owned)

/-! ## The steps of other owners -/

/-- Other owners leave the blocks alone when they change only entries of the bitmap. -/
theorem Sound.linked_of_outside (sound : Sound head k blocks)
    (outside : ∀ x, (∀ g < k.state.totalFrames, g < 2 ^ 32 → x ≠ bitmapByte g) →
      m x = k.state.memory x) : Linked m (headBlock head.addr :: blocks) := by
  refine sound.linked.congr sound.ledger.layout fun b inside x here => outside x ?_
  rintro g there small rfl
  exact sound.clear ⟨small, .inl there⟩ b inside here

theorem Sound.release {addr count : Nat} (sound : Sound head k blocks) (words : addr < 2 ^ 32)
    (own : framesAt addr count ⊆ k.otherFrames) :
    Sound head { k with
      state := memReleaseFrames k.state addr count
      otherFrames := k.otherFrames \ framesAt addr count } blocks := by
  have total := releaseFrames_total k.state addr count
  have same : ∀ g < 2 ^ 32, g ∉ framesAt addr count → memBitmapGetEntry
      (memReleaseFrames k.state addr count).memory g = memBitmapGetEntry k.state.memory g :=
    fun g small away => getEntry_releaseFrames words small away k.state
  refine ⟨sound.ledger, ?_, fun g inside => ?_, fun g inside => ?_, fun g kept => ?_⟩
  · exact sound.linked_of_outside fun x outside => releaseFrames_outside words outside
  · obtain ⟨above, below, used⟩ := sound.heap g inside
    have small : g < 2 ^ 32 := below.trans memUserFirstFrame_lt
    refine ⟨above, below, (same g small fun released => ?_).trans used⟩
    exact (sound.others g (own released)).2.2.1 inside
  · obtain ⟨there, small, apart, used⟩ := sound.others g inside.1
    exact ⟨total ▸ there, small, apart, (same g small inside.2).trans used⟩
  · have kept' : Kept k.state g := kept.congr total
    have reserved := sound.reserved g kept'
    refine (same g kept'.tracked.1 fun released => ?_).trans reserved
    exact used_ne_reserved ((sound.others g (own released)).2.2.2.symm.trans reserved)

theorem framesAt_row {low count : Nat} (named : low + count ≤ 2 ^ 20) (some_ : 0 < count) :
    framesAt (low * memFrameSize % 2 ^ 32) count = {f | low ≤ f ∧ f < low + count} := by
  have whole : low * memFrameSize % 2 ^ 32 / memFrameSize = low := by
    unfold memFrameSize
    omega
  unfold framesAt
  rw [whole]

theorem Sound.allocate {count first last addr : Nat} (sound : Sound head k blocks)
    (words : last < 2 ^ 32) (named : Nameable k.state count first last)
    (returned : memAllocateFrames k.state count first last = (addr, s')) :
    Sound head { k with
      state := s'
      otherFrames := if addr = 0 then k.otherFrames else k.otherFrames ∪ framesAt addr count }
      blocks := by
  rcases Nat.eq_zero_or_pos count with rfl | some_
  · have same : s' = k.state := by
      rw [← memAllocateFrames_zero k.state first last, returned]
    have none_ : framesAt addr 0 = ∅ := by
      refine Set.eq_empty_iff_forall_notMem.mpr fun f inside => ?_
      exact absurd inside.1 (by simpa using inside.2)
    rw [none_, Set.union_empty, ite_self, same]
    exact sound
  rcases @memAllocateFrames_spec count first last k.state some_ words with
    ⟨low, s1, first_, taken, eq⟩ | ⟨none_, eq⟩
  · obtain ⟨rfl, rfl⟩ := Prod.mk.inj (eq.symm.trans returned)
    have row := framesAt_row (named low first_) some_
    have ends := first_.within
    have total := searchEnd_le k.state.totalFrames last
    have within := searchEnd_lt words k.state.totalFrames
    have was_free : ∀ g, low ≤ g → g < low + count → memBitmapGetEntry k.state.memory g =
        memBitmapEntryFree := fun g lower upper => free_of_run first_.run lower upper
    have stays : ∀ g < 2 ^ 32, memBitmapGetEntry k.state.memory g ≠ memBitmapEntryFree →
        memBitmapGetEntry s1.memory g = memBitmapGetEntry k.state.memory g := by
      intro g small not_free
      rw [taken.status g small, if_neg fun inside => not_free (was_free g inside.1 inside.2)]
    refine ⟨sound.ledger, ?_, fun g inside => ?_, fun g inside => ?_, fun g kept => ?_⟩
    · exact sound.linked_of_outside fun x outside => allocateFrames_outside words returned outside
    · obtain ⟨above, below, used⟩ := sound.heap g inside
      have small : g < 2 ^ 32 := below.trans memUserFirstFrame_lt
      exact ⟨above, below, (stays g small (used.trans_ne used_ne_free)).trans used⟩
    · have cases_ : g ∈ k.otherFrames ∨ low ≤ g ∧ g < low + count := by
        dsimp only at inside
        split at inside
        · exact .inl inside
        · rw [row] at inside
          exact inside
      rcases cases_ with old | ⟨lower, upper⟩
      · obtain ⟨there, small, apart, used⟩ := sound.others g old
        have not_free := used.trans_ne used_ne_free
        exact ⟨taken.total.symm ▸ there, small, apart, (stays g small not_free).trans used⟩
      · refine ⟨taken.total.symm ▸ (by omega), by omega, fun inside' => ?_, ?_⟩
        · have used := (sound.heap g inside').2.2
          exact used_ne_free (used.symm.trans (was_free g lower upper))
        · rw [taken.status g (by omega), if_pos ⟨lower, upper⟩]
    · have kept' : Kept k.state g := kept.congr taken.total
      have reserved := sound.reserved g kept'
      have not_free := reserved.trans_ne free_ne_reserved.symm
      exact (stays g kept'.tracked.1 not_free).trans reserved
  · obtain ⟨rfl, rfl⟩ := Prod.mk.inj (eq.symm.trans returned)
    rw [if_pos rfl]
    exact sound

/-! ## Runs -/

/-- A step of a run goes well if `kfree` joins only neighbours and other owners get frames that have
an address. -/
def GoesWell (k : Kernel) : Call → Prop
  | .kalloc _ => True
  | .kfree ptr => ptr ∈ k.live.map Prod.fst → JoinsNeighbours k.state.memory ptr
  | .allocate count first last => Nameable k.state count first last
  | .release _ _ => True
  | .store _ _ => True

/-- The states that are reached by steps that are allowed. -/
inductive Reachable (memHead : Nat) (allowed : Kernel → Call → Prop) (start : Kernel) : Kernel → Prop
  | start : Reachable memHead allowed start start
  | next {k k' : Kernel} {call : Call} : Reachable memHead allowed start k → allowed k call →
      Step memHead k call k' → Reachable memHead allowed start k'

/-- Nothing is handed out yet. -/
def Kernel.boot (s : State) : Kernel := ⟨s, ∅, ∅, []⟩

theorem sound_of_started (started : Started head s) : Sound head (.boot s) [] where
  ledger := @Ledger.empty (headBlock head.addr) head.positive
    (show head.addr + (0 + 1) * entryBytes < 2 ^ 32 by
      have below := head.below
      unfold entryBytes memBitmapAddr at *
      omega) ∅
  linked := ⟨started.entry, trivial⟩
  heap _ inside := inside.elim
  others _ inside := inside.elim
  reserved := started.reserved

theorem unitsOf_room (bytes : Nat) : bytes ≤ unitsOf bytes * entryBytes := by
  unfold unitsOf entryBytes
  dsimp only
  split <;> omega

theorem unitsOf_small (limit : bytes ≤ 0xFFFFFFE0) : unitsOf bytes + 1 < 2 ^ 28 := by
  unfold unitsOf entryBytes
  dsimp only
  split <;> omega

theorem Sound.kalloc_serves (sound : Sound head k blocks) (limit : bytes ≤ 0xFFFFFFE0)
    (returned : kalloc head.addr fuel k.state bytes = some (p, s')) :
    ∃ blocks' row, Serves head k bytes p s' blocks blocks' row := by
  have small := unitsOf_small limit
  obtain ⟨bs', row, does⟩ := kalloc_does sound.linked sound.ledger.layout sound.clears small returned
  obtain ⟨blocks', -, serves⟩ := sound.serves small (unitsOf_room bytes) does
  exact ⟨blocks', row, serves⟩

theorem step_sound {call : Call} (sound : Sound head k blocks) (well : GoesWell k call)
    (step : Step head.addr k call k') : ∃ blocks', Sound head k' blocks' := by
  cases step with
  | kalloc limit returned =>
    obtain ⟨blocks', row, serves⟩ := sound.kalloc_serves limit returned
    exact ⟨blocks', serves.sound sound⟩
  | kfree returned =>
    obtain ⟨m', bs', rfl, does⟩ := kfree_does sound.linked sound.ledger.layout (sound.freesWell well)
      returned
    obtain ⟨blocks', -, sound', -⟩ := sound.kfree well does
    exact ⟨blocks', sound'⟩
  | allocate words returned => exact ⟨blocks, sound.allocate words well returned⟩
  | release words own => exact ⟨blocks, sound.release words own⟩
  | store words owned => exact ⟨blocks, sound.stored words owned⟩

/-- The calls leave what was handed out as it is. -/
theorem step_untouched {call : Call} (sound : Sound head k blocks) (well : GoesWell k call)
    (step : Step head.addr k call k') (no_store : ∀ x value, call ≠ .store x value) :
    Untouched k k' := by
  have clear : ∀ r ∈ k.live, ∀ x, r.1 ≤ x → x < r.1 + r.2 →
      ∀ g < k.state.totalFrames, g < 2 ^ 32 → x ≠ bitmapByte g :=
    fun r handed x above below g there small =>
      (sound.owned_plain (.inl ⟨r, handed, above, below⟩)).2 g ⟨small, .inl there⟩
  cases step with
  | kalloc limit returned =>
    obtain ⟨blocks', row, serves⟩ := sound.kalloc_serves limit returned
    exact serves.untouched sound
  | kfree returned =>
    obtain ⟨m', bs', rfl, does⟩ := kfree_does sound.linked sound.ledger.layout (sound.freesWell well)
      returned
    obtain ⟨-, -, -, writes⟩ := sound.kfree well does
    exact sound.untouched writes
  | allocate words returned =>
    exact fun r handed x above below =>
      allocateFrames_outside words returned (clear r handed x above below)
  | release words own =>
    exact fun r handed x above below => releaseFrames_outside words (clear r handed x above below)
  | store words owned => exact absurd rfl (no_store _ _)

/-- Every call of `kalloc` within the limit returns. -/
theorem Sound.kalloc_step (sound : Sound head k blocks) (limit : bytes ≤ 0xFFFFFFE0) :
    ∃ k', Step head.addr k (.kalloc bytes) k' := by
  obtain ⟨fuel, p, s', -, -, returned, -⟩ :=
    kalloc_returns sound.linked sound.ledger.layout sound.clears (unitsOf_small limit)
  exact ⟨_, .kalloc limit returned⟩

theorem Sound.kfree_step (sound : Sound head k blocks) (well : GoesWell k (.kfree ptr)) :
    ∃ k', Step head.addr k (.kfree ptr) k' := by
  obtain ⟨fuel, m', -, returned, -⟩ :=
    kfree_returns sound.linked sound.ledger.layout (sound.freesWell well)
  exact ⟨_, .kfree returned⟩

theorem reachable_sound {start : Kernel} (sound : Sound head start blocks)
    (reach : Reachable head.addr GoesWell start k) : ∃ blocks', Sound head k blocks' := by
  induction reach with
  | start => exact ⟨blocks, sound⟩
  | next _ well step ih =>
    obtain ⟨blocks', sound'⟩ := ih
    exact step_sound sound' well step

end AtaKernel.Memory
