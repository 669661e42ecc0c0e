import AtaKernel.Memory.Runs
import AtaKernel.Memory.Tiling

/-! The heap on its own: when the free frames of the kernel's space form one row
and nobody but `kalloc` takes frames from it, every growth of the heap is right
behind its last block. The blocks tile the frames, so `kfree` joins only blocks
that meet, and the list keeps its shape over every run. -/
namespace AtaKernel.Memory
open ByteMemory RunSearch LinkedSegments Block

/-- The free frames of the kernel's space are those from `lo` to `hi`. -/
def OneRow (s : State) (lo hi : Nat) : Prop :=
  ∀ f, memKernelFirstFrame ≤ f → f < memUserFirstFrame → f < s.totalFrames →
    (isFree s.memory f = true ↔ lo ≤ f ∧ f < hi)

/-- The heap fills the start of the row. -/
structure Packed (head : MemHead) (k : Kernel) (blocks : List Block) (lo count hi : Nat) : Prop where
  from_ : memKernelFirstFrame ≤ lo
  tiles : Tiles (lo * memFrameSize) blocks ((lo + count) * memFrameSize)
  frames : k.heapFrames = {f | lo ≤ f ∧ f < lo + count}
  row : OneRow k.state (lo + count) hi
  apart : Coalesced (headBlock head.addr :: blocks)

variable {head : MemHead} {k k' : Kernel} {blocks blocks' bs' pre post : List Block} {s s' : State}
  {m m' : Memory} {b e f : Block} {lo hi count n low units bytes p ptr : Nat} {row : Set Nat} {bs : List Block}

/-! ## The row of free frames -/

/-- The first row that a search finds starts where the free frames start. -/
theorem first_of_oneRow (one : OneRow s lo hi) (from_ : memKernelFirstFrame ≤ lo) (some_ : 0 < n)
    (first : FirstRun (isFree s.memory) n memKernelFirstFrame
      (searchEnd s.totalFrames memUserFirstFrame) low) : low = lo := by
  obtain ⟨from', within, total⟩ := kernel_row first
  have free : ∀ i < n, lo ≤ low + i ∧ low + i < hi := fun i small =>
    (one (low + i) (first.from_.trans (Nat.le_add_right _ _))
      (show low + i < 768 by omega) (by omega)).mp (first.run i small)
  have start := free 0 some_
  have last := free (n - 1) (by omega)
  rcases Nat.lt_or_ge lo low with later | early
  · refine absurd (fun i small => ?_) (first.least lo from_ later)
    refine (one (lo + i) (from_.trans (Nat.le_add_right _ _)) (show lo + i < 768 by omega)
      (by omega)).mpr ⟨by omega, by omega⟩
  · omega

/-- The row depends on the entries of the kernel's frames only. -/
theorem OneRow.congr (row : OneRow s lo hi) (total : s'.totalFrames = s.totalFrames)
    (same : ∀ f, Tracked s f → memBitmapGetEntry s'.memory f = memBitmapGetEntry s.memory f) :
    OneRow s' lo hi := by
  intro f from_ below there
  rw [isFree_iff, same f (tracked_of_below below), ← isFree_iff]
  exact row f from_ below (total ▸ there)

/-- Only the part of a row in the kernel's space counts. -/
theorem OneRow.clipped (row : OneRow s lo hi) : OneRow s (max lo memKernelFirstFrame) hi := by
  intro f from_ below there
  rw [row f from_ below there, max_le_iff]
  exact ⟨fun both => ⟨⟨both.1, from_⟩, both.2⟩, fun both => ⟨both.1.1, both.2⟩⟩

/-- Marking the first frames of the row shortens it. -/
theorem oneRow_of_marks (one : OneRow s lo hi) (marks : Marks s s' row) (total : s'.totalFrames = s.totalFrames)
    (taken : row = {f | lo ≤ f ∧ f < lo + n}) : OneRow s' (lo + n) hi := by
  intro f from_ below there
  have tracked : Tracked s f := tracked_of_below below
  have before := one f from_ below (total ▸ there)
  have inside : f ∈ row ↔ lo ≤ f ∧ f < lo + n := by rw [taken]; exact Iff.rfl
  rw [isFree_iff] at before ⊢
  by_cases now : f ∈ row
  · have used := (marks f tracked).1 now
    have row_f := inside.mp now
    exact ⟨fun free => absurd (used.symm.trans free) used_ne_free,
      fun both => absurd both.1 (Nat.not_le.mpr row_f.2)⟩
  · have outside : ¬ (lo ≤ f ∧ f < lo + n) := fun both => now (inside.mpr both)
    rw [(marks f tracked).2 now, before]
    omega

/-- Writing headers takes no frame from the row. -/
theorem OneRow.headersOnly (row : OneRow k.state lo hi) (sound : Sound head k blocks)
    (writes : HeadersOnly (headBlock head.addr :: blocks) k.state.memory m') :
    OneRow { k.state with memory := m' } lo hi :=
  row.congr rfl fun _ tracked => getEntry_of_headersOnly writes tracked.1 (sound.clear tracked)

/-! ## Steps -/

theorem row_empty : (∅ : Set Nat) = {f | lo ≤ f ∧ f < lo + 0} := by
  refine (Set.eq_empty_iff_forall_notMem.mpr fun f inside => ?_).symm
  exact absurd (inside.1.trans_lt inside.2) (lt_irrefl _)

theorem row_append : {f | lo ≤ f ∧ f < lo + count} ∪ {f | lo + count ≤ f ∧ f < lo + count + n} =
    {f | lo ≤ f ∧ f < lo + (count + n)} := by
  ext f
  constructor
  · rintro (⟨lower, upper⟩ | ⟨lower, upper⟩)
    · exact ⟨lower, by omega⟩
    · exact ⟨by omega, by omega⟩
  · rintro ⟨lower, upper⟩
    by_cases old : f < lo + count
    · exact .inl ⟨lower, old⟩
    · exact .inr ⟨by omega, by omega⟩

/-- The frames of the heap after a call of `kalloc` that takes the next `n` frames of the row. -/
theorem Packed.taken (packed : Packed head k blocks lo count hi)
    (serves : Serves head k bytes p s' blocks blocks' row)
    (next : row = {f | lo + count ≤ f ∧ f < lo + count + n})
    (tiles : Tiles (lo * memFrameSize) blocks' ((lo + (count + n)) * memFrameSize))
    (apart : Coalesced (headBlock head.addr :: blocks')) :
    Packed head (k.kalloced bytes p s') blocks' lo (count + n) hi where
  from_ := packed.from_
  tiles := tiles
  frames := by
    rw [Kernel.kalloced, serves.obtained, packed.frames, next, row_append]
  row := by
    have after := oneRow_of_marks packed.row serves.marks serves.total next
    rwa [Nat.add_assoc] at after
  apart := apart

theorem stop_frameBlock (some_ : 0 < n) (few : n ≤ 512) :
    (frameBlock low n).stop = (low + n) * memFrameSize := by
  have units := frameUnits_eq some_ few
  simp only [stop, frameBlock, units, entryBytes, memFrameSize]
  ring

theorem tiles_frameBlock (low : Nat) (some_ : 0 < n) (few : n ≤ 512) :
    Tiles (low * memFrameSize) [frameBlock low n] ((low + n) * memFrameSize) :=
  ⟨rfl, stop_frameBlock some_ few⟩

theorem tiles_grown (small : units + 1 < 2 ^ 28) (few : framesOf units ≤ 512) :
    Tiles (low * memFrameSize) (carve units (frameBlock low (framesOf units)))
      ((low + framesOf units) * memFrameSize) := by
  have fits := @fits_frameBlock units low small few
  have tiles := tiles_frameBlock low (framesOf_room small).1 few
  generalize frameBlock low (framesOf units) = b at fits tiles ⊢
  exact tiles_carved fits tiles

/-- A block of the list is carved, and no frame is taken. -/
theorem Packed.placed (packed : Packed head k (pre ++ b :: post) lo count hi) (fits : Fits units b)
    (serves : Serves head k bytes p s' (pre ++ b :: post) (pre ++ (carve units b ++ post)) ∅) :
    Packed head (k.kalloced bytes p s') (pre ++ (carve units b ++ post)) lo count hi := by
  have chain : Coalesced ((headBlock head.addr :: pre) ++ b :: post) := packed.apart
  have apart : Coalesced ((headBlock head.addr :: pre) ++ (carve units b ++ post)) := coalesced_carve fits chain
  exact packed.taken serves row_empty (tiles_carve fits packed.tiles) apart

theorem Packed.kalloc (packed : Packed head k blocks lo count hi) (small : units + 1 < 2 ^ 28)
    (serves : Serves head k bytes p s' blocks blocks' row)
    (does : Kalloc units k.state (headBlock head.addr :: blocks) p s' (headBlock head.addr :: blocks')
      row) : ∃ count', Packed head (k.kalloced bytes p s') blocks' lo count' hi := by
  generalize whole : headBlock head.addr :: blocks = bs at does
  generalize result : headBlock head.addr :: blocks' = bs' at does
  cases does with
  | placed unfit fits linked writes =>
    obtain ⟨pre, rfl, rfl⟩ := fits_behind_head whole fits
    obtain ⟨-, rfl⟩ := List.cons.inj result
    exact ⟨count, packed.placed fits serves⟩
  | @grown _ low s1 m' unfit first taken linked writes =>
    subst whole
    obtain ⟨-, rfl⟩ := List.cons.inj result
    obtain ⟨from_, within, -⟩ := kernel_row first
    have some_ := (framesOf_room small).1
    have few : framesOf units ≤ 512 := by omega
    obtain rfl := first_of_oneRow packed.row (packed.from_.trans (Nat.le_add_right _ _)) some_ first
    refine ⟨count + framesOf units, packed.taken serves rfl ?_ ?_⟩
    · refine tiles_append.mpr ⟨_, packed.tiles, ?_⟩
      rw [← Nat.add_assoc]
      exact tiles_grown small few
    · exact @coalesced_grown units (frameBlock (lo + count) (framesOf units)) _ packed.apart
  | full unfit none_ =>
    obtain rfl : blocks' = blocks := (List.cons.inj (result.trans whole.symm)).2
    exact ⟨count + 0, packed.taken serves row_empty packed.tiles packed.apart⟩

/-- `kfree` joins only neighbours, since all neighbours in the list meet. -/
theorem Packed.joins (packed : Packed head k blocks lo count hi) (sound : Sound head k blocks)
    (handed : ptr ∈ k.live.map Prod.fst) : JoinsNeighbours k.state.memory ptr := by
  obtain ⟨r, inside, rfl⟩ := List.mem_map.mp handed
  obtain ⟨f, f_in, -, place, -⟩ := sound.ledger.served r inside
  obtain ⟨pre, post, rfl⟩ := List.append_of_mem f_in
  rw [← place]
  have linked := sound.linked
  have tiles := packed.tiles
  have next : Meets f.freed post := fun c first _ _ => by
    cases post with
    | nil => cases first
    | cons d ds =>
      obtain rfl := Option.some.inj first
      have touch : d.addr = f.stop := tiles_meet tiles
      exact touch
  rcases List.eq_nil_or_concat pre with rfl | ⟨pre', e, rfl⟩
  · have whole : Linked k.state.memory ([] ++ headBlock head.addr :: f :: post) := linked
    exact joins_of_meets whole next fun free => absurd free headBlock_not_free
  · rw [List.concat_eq_append, List.append_assoc] at linked tiles
    have whole : Linked k.state.memory ((headBlock head.addr :: pre') ++ e :: f :: post) := linked
    exact joins_of_meets whole next fun _ => tiles_meet tiles

theorem Packed.kfree (packed : Packed head k blocks lo count hi) (sound : Sound head k blocks)
    (writes : HeadersOnly (headBlock head.addr :: blocks) k.state.memory m')
    (does : Kfree ptr k.state.memory (headBlock head.addr :: blocks) m'
      (headBlock head.addr :: blocks')) :
    Packed head (k.kfreed ptr { k.state with memory := m' }) blocks' lo count hi := by
  have row := packed.row.headersOnly sound writes
  generalize whole : headBlock head.addr :: blocks = bs at does
  generalize result : headBlock head.addr :: blocks' = bs' at does
  cases does with
  | @kept h bs dead =>
    obtain ⟨rfl, rfl⟩ := List.cons.inj whole
    obtain ⟨-, rfl⟩ := List.cons.inj result
    exact ⟨packed.from_, packed.tiles, packed.frames, row, packed.apart⟩
  | @freed pre post e f m' here taken linked _ =>
    have chain := packed.apart
    rw [whole] at chain
    have apart := coalesced_give_back chain
    rw [← result] at apart
    refine ⟨packed.from_, ?_, packed.frames, row, apart⟩
    have tiles := packed.tiles
    cases pre with
    | nil =>
      obtain ⟨rfl, rfl⟩ := List.cons.inj whole
      rw [List.nil_append, absorb_of_not_free headBlock_not_free] at result
      obtain ⟨-, rfl⟩ := List.cons.inj result
      exact tiles_absorb tiles
    | cons h pre =>
      obtain ⟨rfl, rfl⟩ := List.cons.inj whole
      obtain ⟨-, rfl⟩ := List.cons.inj result
      exact tiles_give_back tiles

theorem Packed.stored {x : Nat} {value : UInt8} (packed : Packed head k blocks lo count hi)
    (sound : Sound head k blocks) (words : x < 2 ^ 32) (owned : k.Owned x) :
    Packed head (k.stored x value) blocks lo count hi where
  from_ := packed.from_
  tiles := packed.tiles
  frames := packed.frames
  row := @OneRow.congr k.state (k.stored x value).state _ _ packed.row rfl fun _ tracked =>
    sound.stored_getEntry words owned tracked
  apart := packed.apart

/-! ## A machine whose frames end with the kernel's space -/

/-- `mem_init` leaves one row, behind the bitmap, when all regions are available. -/
theorem oneRow_of_memInit {map : List MemBiosMmapEntry} (returned : memInit head.addr map s = (0, s'))
    (available : ∀ e ∈ mapEntries map, e.type = memBiosMemMapRegionAvailable)
    (small : s'.totalFrames < 2 ^ 30) : OneRow s' (bitmapLast s' + 1) s'.totalFrames := by
  intro f from_ below there
  by_cases behind : bitmapLast s' < f
  · have free := free_of_memInit returned available small there behind
    exact ⟨fun _ => ⟨behind, there⟩, fun _ => free⟩
  · have reserved := reserved_of_memInit returned (there.trans (small.trans (by norm_num)))
      (not_lt.mp behind)
    rw [isFree_iff, reserved]
    exact ⟨fun free => absurd free.symm free_ne_reserved, fun both => absurd both.1 behind⟩

/-- The heap on a machine whose frames end with the kernel's space, and whose free frames are those
from `lo` on. -/
structure Stage (head : MemHead) (k : Kernel) (blocks : List Block) (lo : Nat) : Prop where
  sound : Sound head k blocks
  row : OneRow k.state lo memUserFirstFrame
  total : k.state.totalFrames = memUserFirstFrame
  from_ : memKernelFirstFrame ≤ lo

theorem stage_of_memInit (returned : memInit head.addr threeMegabytes s = (0, s'))
    (total : s'.totalFrames = memUserFirstFrame) : Stage head (.boot s') [] 257 where
  sound := sound_of_started (started_of_memInit returned)
  row := by
    have small : s'.totalFrames < 2 ^ 30 := total.trans_lt (by decide)
    have row := oneRow_of_memInit returned available_threeMegabytes small
    unfold bitmapLast at row
    rw [total] at row
    exact row
  total := total
  from_ := by decide

theorem Stage.searchEnd (stage : Stage head k blocks lo) :
    searchEnd k.state.totalFrames memUserFirstFrame = memUserFirstFrame := by
  rw [stage.total]
  decide

theorem Stage.run (stage : Stage head k blocks lo) (room : lo + n ≤ memUserFirstFrame) :
    Run (isFree k.state.memory) lo n := by
  have from_ := stage.from_
  intro i small
  have below : lo + i < memUserFirstFrame := by omega
  refine (stage.row (lo + i) (by omega) below ?_).mpr ⟨by omega, below⟩
  rwa [stage.total]

/-- A request that no block fits gets the start of the row. -/
theorem Stage.kalloc_grows (stage : Stage head k blocks lo) (limit : bytes ≤ 0xFFFFFFE0)
    (room : lo + framesOf (unitsOf bytes) ≤ memUserFirstFrame)
    (unfit : ∀ c ∈ blocks, ¬ Fits (unitsOf bytes) c) :
    ∃ k', Step head.addr k (.kalloc bytes) k' ∧
      Stage head k'
        (blocks ++ carve (unitsOf bytes) (frameBlock lo (framesOf (unitsOf bytes))))
        (lo + framesOf (unitsOf bytes)) ∧
      k'.live = (lo * memFrameSize + entryBytes, bytes) :: k.live ∧
      k'.otherFrames = k.otherFrames := by
  have sound := stage.sound
  have small := unitsOf_small limit
  have some_ := (framesOf_room small).1
  obtain ⟨fuel, p, s', bs', row, returned, does⟩ :=
    kalloc_returns sound.linked sound.ledger.layout sound.clears small
  obtain ⟨blocks', same, serves⟩ := sound.serves small (unitsOf_room bytes) does
  have unfit' : ∀ c ∈ headBlock head.addr :: blocks, ¬ Fits (unitsOf bytes) c :=
    List.forall_mem_cons.mpr ⟨fun fits => fits_ne_head fits rfl, unfit⟩
  generalize whole : headBlock head.addr :: blocks = bs at does unfit'
  cases does with
  | @placed pre post b m' _ fits _ _ => exact absurd fits (unfit' b (by simp))
  | @full bs _ none_ =>
    refine absurd (stage.run room) (none_ lo stage.from_ ?_)
    rwa [stage.searchEnd]
  | @grown _ low s1 m' _ first _ _ _ =>
    subst whole
    obtain ⟨-, rfl⟩ := List.cons.inj same
    obtain rfl := first_of_oneRow stage.row stage.from_ some_ first
    refine ⟨_, .kalloc limit returned, ⟨serves.sound sound, ?_, serves.total.trans stage.total, ?_⟩,
      ?_, rfl⟩
    · exact oneRow_of_marks stage.row serves.marks serves.total rfl
    · exact stage.from_.trans (Nat.le_add_right _ _)
    · have nonzero : low * memFrameSize + entryBytes ≠ 0 := Nat.succ_ne_zero _
      simp only [Kernel.kalloced, if_neg nonzero]

/-- Another owner gets the start of the row. -/
theorem Stage.allocate (stage : Stage head k blocks lo) (some_ : 0 < n)
    (room : lo + n ≤ memUserFirstFrame) :
    ∃ k', Step head.addr k (.allocate n memKernelFirstFrame memUserFirstFrame) k' ∧
      Stage head k' blocks (lo + n) ∧ k'.live = k.live ∧
      k'.otherFrames = k.otherFrames ∪ {f | lo ≤ f ∧ f < lo + n} ∧
      GoesWell k (.allocate n memKernelFirstFrame memUserFirstFrame) := by
  have words : memUserFirstFrame < 2 ^ 32 := by decide
  rcases @memAllocateFrames_spec n memKernelFirstFrame memUserFirstFrame k.state some_ words with
    ⟨low, s1, first, taken, eq⟩ | ⟨none_, -⟩
  · obtain rfl := first_of_oneRow stage.row stage.from_ some_ first
    have from_ := stage.from_
    rw [memKernelFirstFrame_eq] at from_
    rw [memUserFirstFrame_eq] at room
    have named : Nameable k.state n memKernelFirstFrame memUserFirstFrame := by
      intro low' first'
      have := (kernel_row first').2.1
      omega
    have nonzero : low * memFrameSize % 2 ^ 32 ≠ 0 := by
      unfold memFrameSize
      omega
    refine ⟨_, .allocate words eq, ⟨stage.sound.allocate words named eq, ?_,
      taken.total.trans stage.total, stage.from_.trans (Nat.le_add_right _ _)⟩, rfl, ?_, named⟩
    · refine oneRow_of_marks stage.row (fun g tracked => ⟨fun inside => ?_, fun outside => ?_⟩)
        taken.total rfl
      · exact (taken.status g tracked.1).trans (if_pos inside)
      · exact (taken.status g tracked.1).trans (if_neg outside)
    · rw [← framesAt_row (by omega) some_]
      exact if_neg nonzero
  · refine absurd (stage.run room) (none_ lo stage.from_ ?_)
    rwa [stage.searchEnd]

/-- Only one place of a list has the block with that pointer. -/
theorem kfree_at (layout : Layout (pre ++ e :: f :: post)) (taken : f.status ≠ .free)
    (does : Kfree f.pointer m (pre ++ e :: f :: post) m' bs') :
    bs' = pre ++ absorb e (absorb f.freed post) ∧ Linked m' bs' ∧ HeadersOnly (pre ++ e :: f :: post) m m' := by
  generalize whole : pre ++ e :: f :: post = bs at does
  cases does with
  | @kept h cs dead =>
    exact absurd (dead f (mem_of_second whole.symm) rfl) taken
  | @freed pre' post' e' f' m' here taken' linked writes =>
    have f_in : f' ∈ pre ++ e :: f :: post := by simp [whole]
    obtain rfl : f' = f := layout.eq_of_addr f_in (by simp) (Nat.add_right_cancel here)
    have both : (pre ++ [e]) ++ f' :: post = (pre' ++ [e']) ++ f' :: post' := by simpa using whole
    have apart : Layout ((pre ++ [e]) ++ f' :: post) := by simpa using layout
    obtain ⟨front, -, rfl⟩ := (List.append_cons_inj_of_notMem (fun inside => apart.addr_ne.1 f' inside rfl)
      fun inside => apart.addr_ne.2.1 f' inside rfl).mp both
    obtain ⟨rfl, same⟩ := List.append_inj' front rfl
    obtain rfl := (List.cons.inj same).1
    exact ⟨rfl, linked, writes⟩

/-- A block that meets the free blocks around it is given back. -/
theorem Stage.kfree (stage : Stage head k blocks lo) (whole : headBlock head.addr :: blocks = pre ++ e :: f :: post)
    (used : f.status = .used) (next : Meets f.freed post) (prev : e.status = .free → f.addr = e.stop) :
    ∃ k' blocks', Step head.addr k (.kfree f.pointer) k' ∧ Stage head k' blocks' lo ∧
      headBlock head.addr :: blocks' = pre ++ absorb e (absorb f.freed post) ∧
      k'.live = k.live.filter (fun r => r.1 ≠ f.pointer) ∧ k'.otherFrames = k.otherFrames ∧
      GoesWell k (.kfree f.pointer) := by
  have sound := stage.sound
  have layout := sound.ledger.layout
  have linked := sound.linked
  rw [whole] at layout linked
  have joins : GoesWell k (.kfree f.pointer) := fun _ => joins_of_meets linked next prev
  obtain ⟨fuel, m', bs', returned, does⟩ :=
    kfree_returns sound.linked sound.ledger.layout (sound.freesWell joins)
  obtain ⟨blocks', rfl, sound', writes⟩ := sound.kfree joins does
  rw [whole] at does
  have taken : f.status ≠ .free := fun free => by
    rw [used] at free
    cases free
  obtain ⟨result, -, -⟩ := kfree_at layout taken does
  exact ⟨_, blocks', .kfree returned, ⟨sound', stage.row.headersOnly sound writes, stage.total, stage.from_⟩, result,
    rfl, rfl, joins⟩

/-! ## Runs of the heap alone -/

/-- The calls of the heap itself. -/
def HeapOnly (_ : Kernel) : Call → Prop
  | .kalloc _ => True
  | .kfree _ => True
  | .store _ _ => True
  | .allocate _ _ _ => False
  | .release _ _ => False

theorem Packed.goesWell {call : Call} (packed : Packed head k blocks lo count hi)
    (sound : Sound head k blocks) (only : HeapOnly k call) : GoesWell k call := by
  cases call with
  | kfree ptr => exact packed.joins sound
  | kalloc bytes => trivial
  | store x value => trivial
  | allocate count first last => exact only.elim
  | release addr count => trivial

theorem packed_step {call : Call} (sound : Sound head k blocks) (packed : Packed head k blocks lo count hi)
    (only : HeapOnly k call) (step : Step head.addr k call k') :
    ∃ blocks' count', Sound head k' blocks' ∧ Packed head k' blocks' lo count' hi := by
  cases step with
  | kalloc limit returned =>
    have small := unitsOf_small limit
    obtain ⟨bs', row, does⟩ := kalloc_does sound.linked sound.ledger.layout sound.clears small returned
    obtain ⟨blocks', rfl, serves⟩ := sound.serves small (unitsOf_room _) does
    obtain ⟨count', packed'⟩ := packed.kalloc small serves does
    exact ⟨blocks', count', serves.sound sound, packed'⟩
  | @kfree ptr _ s' returned =>
    have joins : GoesWell k (.kfree ptr) := packed.goesWell sound only
    obtain ⟨m', bs', rfl, does⟩ := kfree_does sound.linked sound.ledger.layout (sound.freesWell joins)
      returned
    obtain ⟨blocks', rfl, sound', writes⟩ := sound.kfree joins does
    exact ⟨blocks', count, sound', packed.kfree sound writes does⟩
  | store words owned =>
    exact ⟨blocks, count, sound.stored words owned, packed.stored sound words owned⟩
  | allocate words returned => exact only.elim
  | release words own => exact only.elim

theorem packed_start (row : OneRow s lo hi) (from_ : memKernelFirstFrame ≤ lo) :
    Packed head (.boot s) [] lo 0 hi :=
  ⟨from_, rfl, row_empty, row, List.isChain_singleton _⟩

theorem reachable_packed (started : Started head s) (row : OneRow s lo hi)
    (from_ : memKernelFirstFrame ≤ lo) (reach : Reachable head.addr HeapOnly (.boot s) k) :
    ∃ blocks count, Sound head k blocks ∧ Packed head k blocks lo count hi := by
  induction reach with
  | start => exact ⟨[], 0, sound_of_started started, packed_start row from_⟩
  | next _ only step ih =>
    obtain ⟨blocks, count, sound, packed⟩ := ih
    exact packed_step sound packed only step

namespace Two

/-! Two blocks, one behind the other: the first leaves the rest of its frame free. -/

def front : Block := ⟨0x101000, 7, .used⟩

def rest : Block := ⟨0x101080, 247, .free⟩

def behind : Block := ⟨0x102000, 255, .used⟩

theorem frameBlock_one (low : Nat) : frameBlock low 1 = ⟨low * memFrameSize, 255, .free⟩ := by
  have units : frameUnits 1 + 1 = 1 * 256 := frameUnits_eq (by decide) (by decide)
  have size : frameUnits 1 = 255 := by omega
  rw [frameBlock, size]

theorem carve_front_rest : carve (unitsOf 100) (frameBlock 257 (framesOf (unitsOf 100))) = [front, rest] := by
  rw [show unitsOf 100 = 7 from rfl, show framesOf 7 = 1 from rfl, frameBlock_one]
  rfl

/-- A block of 4080 bytes takes a frame of its own. -/
theorem carve_frame (low : Nat) :
    carve (unitsOf 4080) (frameBlock low (framesOf (unitsOf 4080))) = [⟨low * memFrameSize, 255, .used⟩] := by
  rw [show unitsOf 4080 = 255 from rfl, show framesOf 255 = 1 from rfl, frameBlock_one]
  rfl

/-- The first block is joined with what was left of its frame. -/
theorem kfree_front (stage : Stage lowHead k (front :: rest :: bs) lo) :
    ∃ k', Step lowHead.addr k (.kfree front.pointer) k' ∧ Stage lowHead k' (⟨0x101000, 255, .free⟩ :: bs) lo ∧
      k'.live = k.live.filter (fun r => r.1 ≠ front.pointer) ∧ k'.otherFrames = k.otherFrames ∧
      GoesWell k (.kfree front.pointer) := by
  have next : Meets front.freed (rest :: bs) := fun c first _ _ => by
    cases first
    rfl
  have whole : headBlock lowHead.addr :: front :: rest :: bs =
      [] ++ headBlock lowHead.addr :: front :: rest :: bs := rfl
  obtain ⟨k', blocks, step, stage', result, live, others, joins⟩ :=
    stage.kfree whole rfl next fun free => absurd free headBlock_not_free
  obtain rfl : blocks = ⟨0x101000, 255, .free⟩ :: bs := (List.cons.inj result).2
  exact ⟨k', step, stage', live, others, joins⟩

/-- A machine of three megabytes hands out both. -/
theorem both : ∃ (s : State) (k₁ k₂ : Kernel) (lo hi : Nat),
    memInit lowHead.addr threeMegabytes ⟨fun _ => 0, 0⟩ = (0, s) ∧ OneRow s lo hi ∧
    Step lowHead.addr (.boot s) (.kalloc 100) k₁ ∧ Step lowHead.addr k₁ (.kalloc 4080) k₂ ∧
    Reachable lowHead.addr HeapOnly (.boot s) k₁ ∧ Reachable lowHead.addr HeapOnly (.boot s) k₂ ∧
    Stage lowHead k₁ [front, rest] 258 ∧ k₁.live = [(0x101010, 100)] ∧
    Stage lowHead k₂ [front, rest, behind] 259 ∧ k₂.live = [(0x102010, 4080), (0x101010, 100)] := by
  obtain ⟨m, returned⟩ := memInit_threeMegabytes lowHead.addr ⟨fun _ => 0, 0⟩
  have row := oneRow_of_memInit returned available_threeMegabytes (by norm_num)
  obtain ⟨k₁, step₁, stage₁, live₁, -⟩ :=
    (stage_of_memInit returned rfl).kalloc_grows (by decide) (by decide)
      (fun c inside => (List.not_mem_nil inside).elim : ∀ c ∈ [], ¬ Fits (unitsOf 100) c)
  rw [carve_front_rest, List.nil_append] at stage₁
  obtain ⟨k₂, step₂, stage₂, live₂, -⟩ :=
    stage₁.kalloc_grows (by decide) (by decide) (by decide : ∀ c ∈ [front, rest], ¬ Fits (unitsOf 4080) c)
  rw [carve_frame] at stage₂
  rw [live₁] at live₂
  have only : ∀ k bytes, HeapOnly k (.kalloc bytes) := fun _ _ => trivial
  have reach₁ : Reachable lowHead.addr HeapOnly (.boot ⟨m, 768⟩) k₁ := .next .start (only _ 100) step₁
  exact ⟨_, k₁, k₂, _, _, returned, row, step₁, step₂, reach₁, .next reach₁ (only _ 4080) step₂, stage₁, live₁, stage₂,
    live₂⟩

end Two

/-- The shape of the heap: what the list, the bitmap and the live pointers have to do with each
other. -/
structure HeapShape (head : MemHead) (k : Kernel) (blocks : List Block) : Prop where
  /-- `next` leads from `mem_head` through the blocks to NULL, and `prev` leads back. -/
  linked : Segment addr extent (header k.state.memory) 0 (headBlock head.addr :: blocks) 0
  /-- The blocks tile the frames that `kalloc` obtained. -/
  tiles : ∃ lo count, Tiles (lo * memFrameSize) blocks ((lo + count) * memFrameSize) ∧
    k.heapFrames = {f | lo ≤ f ∧ f < lo + count}
  used : ∀ f ∈ k.heapFrames, memBitmapGetEntry k.state.memory f = memBitmapEntryUsed
  status : ∀ b ∈ blocks, b.status = .free ∨ b.status = .used
  apart : Coalesced blocks
  /-- The used blocks are in bijection with the live pointers. -/
  handed : ((blocks.filter fun b => b.status = .used).map pointer).Perm (k.live.map Prod.fst)
  once : (k.live.map Prod.fst).Nodup
  served : ∀ r ∈ k.live, r.1 % 16 = 0 ∧
    ∃ b ∈ blocks, b.status = .used ∧ b.pointer = r.1 ∧ r.2 ≤ 16 * b.size
  disjoint : ∀ r ∈ k.live, ∀ r' ∈ k.live, r ≠ r' →
    Disjoint (Set.Ico r.1 (r.1 + r.2)) (Set.Ico r'.1 (r'.1 + r'.2))

theorem heapShape_of_packed (sound : Sound head k blocks) (packed : Packed head k blocks lo count hi) :
    HeapShape head k blocks where
  linked := sound.linked
  tiles := ⟨lo, count, packed.tiles, packed.frames⟩
  used f inside := (sound.heap f inside).2.2
  status b inside := by
    by_cases free : b.status = .free
    · exact .inl free
    · exact .inr (sound.used_of_not_free inside free)
  apart := packed.apart.tail
  handed := by
    refine (List.perm_ext_iff_of_nodup ?_ sound.ledger.once).mpr fun p => ⟨fun inside => ?_, fun inside => ?_⟩
    · have distinct : (blocks.map addr).Nodup := (List.nodup_cons.mp sound.ledger.layout.nodup).2
      refine List.Nodup.map_on (fun b b_in c c_in same => ?_) (distinct.of_map.filter _)
      exact sound.ledger.eq_of_pointer (List.mem_of_mem_filter b_in) (List.mem_of_mem_filter c_in) same
    · obtain ⟨b, there, rfl⟩ := List.mem_map.mp inside
      obtain ⟨there, used⟩ := List.mem_filter.mp there
      exact sound.ledger.known b there (of_decide_eq_true used)
    · obtain ⟨r, there, rfl⟩ := List.mem_map.mp inside
      obtain ⟨b, among, used, place, -⟩ := sound.ledger.served r there
      exact List.mem_map.mpr ⟨b, List.mem_filter.mpr ⟨among, decide_eq_true used⟩, place⟩
  once := sound.ledger.once
  served r handed := by
    obtain ⟨b, inside, used, place, size⟩ := sound.ledger.served r handed
    have aligned := sound.ledger.aligned b inside
    refine ⟨?_, b, inside, used, place, size.trans (Nat.mul_comm _ _).le⟩
    rw [← place]
    unfold pointer
    unfold entryBytes at *
    omega
  disjoint _ handed _ handed' := sound.disjoint handed handed'

/-- When the free frames of the kernel's space form one row and only the heap takes from it, the
heap keeps its shape over every run. Every call returns, and changes nothing that was handed out. -/
theorem heap_keeps_shape (started : Started head s) (row : OneRow s lo hi)
    (reach : Reachable head.addr HeapOnly (.boot s) k) :
    (∃ blocks, HeapShape head k blocks) ∧
      (∀ bytes ≤ 0xFFFFFFE0, ∃ k', Step head.addr k (.kalloc bytes) k') ∧
      (∀ ptr, ∃ k', Step head.addr k (.kfree ptr) k') ∧
      ∀ call k', HeapOnly k call → Step head.addr k call k' →
        (∀ x value, call ≠ .store x value) → Untouched k k' := by
  obtain ⟨blocks, count, sound, packed⟩ :=
    reachable_packed started row.clipped (le_max_right _ _) reach
  refine ⟨⟨blocks, heapShape_of_packed sound packed⟩, fun bytes limit => ?_, fun ptr => ?_,
    fun call k' only step no_store => ?_⟩
  · exact sound.kalloc_step limit
  · exact sound.kfree_step (packed.joins sound)
  · exact step_untouched sound (packed.goesWell sound only) step no_store

/-- The first of two blocks is given back, and joined with what was left of its frame. -/
theorem heap_keeps_shape_threeMegabytes : ∃ (s : State) (k₁ k₂ k₃ : Kernel),
    memInit lowHead.addr threeMegabytes ⟨fun _ => 0, 0⟩ = (0, s) ∧ Step lowHead.addr (.boot s) (.kalloc 100) k₁ ∧
      Step lowHead.addr k₁ (.kalloc 4080) k₂ ∧ Step lowHead.addr k₂ (.kfree Two.front.pointer) k₃ ∧
      k₃.live = [(0x102010, 4080)] ∧
      Linked k₃.state.memory [headBlock lowHead.addr, ⟨0x101000, 255, .free⟩, Two.behind] ∧
      ∃ blocks, HeapShape lowHead k₃ blocks := by
  obtain ⟨s, k₁, k₂, lo, hi, returned, row, step₁, step₂, -, reach₂, -, -, stage₂, live₂⟩ := Two.both
  obtain ⟨k₃, step₃, stage₃, live₃, -⟩ := Two.kfree_front stage₂
  rw [live₂] at live₃
  have gives : HeapOnly k₂ (.kfree Two.front.pointer) := trivial
  have shape := (heap_keeps_shape (started_of_memInit returned) row (.next reach₂ gives step₃)).1
  exact ⟨s, k₁, k₂, k₃, returned, step₁, step₂, step₃, live₃, stage₃.sound.linked, shape⟩

end AtaKernel.Memory
