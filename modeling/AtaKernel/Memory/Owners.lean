import AtaKernel.Memory.HeapCalls
import AtaKernel.Memory.Init
import AtaKernel.Memory.Ledger

/-! The heap beside other owners of frames. A state of the kernel is its memory
with what the calls so far have handed out: the frames `kalloc` took, the frames
other owners hold, and the live pointers. A step is one call. The invariant holds
of every run in which `kfree` joins only blocks that meet in memory. -/
namespace AtaKernel.Memory
open ByteMemory RunSearch LinkedSegments Block

/-- The memory, and what has been handed out. -/
structure Kernel where
  state : State
  heapFrames : Set Nat
  otherFrames : Set Nat
  live : List (Nat × Nat)

/-- The calls, and the stores of those who hold memory. -/
inductive Call
  | kalloc (bytes : Nat)
  | kfree (ptr : Nat)
  | allocate (count first last : Nat)
  | release (addr count : Nat)
  | store (x : Nat) (value : UInt8)

/-- The frames that the address of `count` frames stands for. -/
def framesAt (addr count : Nat) : Set Nat :=
  {f | addr / memFrameSize ≤ f ∧ f < addr / memFrameSize + count}

/-- The frames that were free before a call and are used after it. -/
def obtained (s s' : State) : Set Nat :=
  {f | f < s.totalFrames ∧ f < 2 ^ 32 ∧ isFree s.memory f = true ∧
    memBitmapGetEntry s'.memory f = memBitmapEntryUsed}

/-- What is handed out after a call of `kalloc`. -/
def Kernel.kalloced (k : Kernel) (bytes p : Nat) (s' : State) : Kernel :=
  { k with
    state := s'
    heapFrames := k.heapFrames ∪ obtained k.state s'
    live := if p = 0 then k.live else (p, bytes) :: k.live }

def Kernel.kfreed (k : Kernel) (ptr : Nat) (s' : State) : Kernel :=
  { k with state := s', live := k.live.filter fun r => r.1 ≠ ptr }

def Kernel.stored (k : Kernel) (x : Nat) (value : UInt8) : Kernel :=
  { k with state := { k.state with memory := store8 k.state.memory x value } }

/-- The byte `x` was handed out, in a block or in a frame. -/
def Kernel.Owned (k : Kernel) (x : Nat) : Prop :=
  (∃ r ∈ k.live, r.1 ≤ x ∧ x < r.1 + r.2) ∨ x / memFrameSize ∈ k.otherFrames

/-- One call, by the kernel itself or by another owner of frames, or one use of what a call handed
out. Other owners release only what they hold. -/
inductive Step (memHead : Nat) : Kernel → Call → Kernel → Prop
  | kalloc {k : Kernel} {bytes fuel p : Nat} {s' : State} (limit : bytes ≤ 0xFFFFFFE0)
      (returned : kalloc memHead fuel k.state bytes = some (p, s')) :
      Step memHead k (.kalloc bytes) (k.kalloced bytes p s')
  | kfree {k : Kernel} {ptr fuel : Nat} {s' : State}
      (returned : kfree memHead fuel k.state ptr = some s') :
      Step memHead k (.kfree ptr) (k.kfreed ptr s')
  | allocate {k : Kernel} {count first last addr : Nat} {s' : State} (words : last < 2 ^ 32)
      (returned : memAllocateFrames k.state count first last = (addr, s')) :
      Step memHead k (.allocate count first last)
        { k with
          state := s'
          otherFrames := if addr = 0 then k.otherFrames else k.otherFrames ∪ framesAt addr count }
  | release {k : Kernel} {addr count : Nat} (words : addr < 2 ^ 32)
      (own : framesAt addr count ⊆ k.otherFrames) :
      Step memHead k (.release addr count)
        { k with
          state := memReleaseFrames k.state addr count
          otherFrames := k.otherFrames \ framesAt addr count }
  | store {k : Kernel} {x : Nat} {value : UInt8} (words : x < 2 ^ 32) (owned : k.Owned x) :
      Step memHead k (.store x value) (k.stored x value)

/-- The blocks of a list are neighbours in memory where `kfree` would join them. -/
def JoinsNeighbours (m : Memory) (ptr : Nat) : Prop :=
  let f := ptr - entryBytes
  (entryNext m f ≠ 0 → entryFlags m (entryNext m f) = memAllocEntryFree →
    entryNext m f = f + (entrySize m f + 1) * entryBytes) ∧
  (entryFlags m (entryPrev m f) = memAllocEntryFree →
    f = entryPrev m f + (entrySize m (entryPrev m f) + 1) * entryBytes)

/-- The frames that a search finds have addresses of 32 bits. -/
def Nameable (s : State) (count first last : Nat) : Prop :=
  ∀ low, FirstRun (isFree s.memory) count first (searchEnd s.totalFrames last) low →
    low + count ≤ 2 ^ 20

/-- The invariant: the list in memory is the one in the books, and the bitmap tells the frames of
the heap, of the other owners and of the bitmap itself apart. -/
structure Sound (head : MemHead) (k : Kernel) (blocks : List Block) : Prop where
  ledger : Ledger (headBlock head.addr) k.heapFrames blocks k.live
  linked : Linked k.state.memory (headBlock head.addr :: blocks)
  heap : ∀ f ∈ k.heapFrames, memKernelFirstFrame < f ∧ f < memUserFirstFrame ∧
    memBitmapGetEntry k.state.memory f = memBitmapEntryUsed
  others : ∀ f ∈ k.otherFrames, f < k.state.totalFrames ∧ f < 2 ^ 32 ∧ f ∉ k.heapFrames ∧
    memBitmapGetEntry k.state.memory f = memBitmapEntryUsed
  reserved : ∀ f, Kept k.state f → memBitmapGetEntry k.state.memory f = memBitmapEntryReserved

variable {head : MemHead} {k k' : Kernel} {blocks blocks' bs bs' pre post : List Block} {s s' : State}
  {m m' : Memory} {b e f : Block} {g units bytes p ptr fuel : Nat} {F : Set Nat}

/-! ## The bitmap and the blocks -/

/-- The frames whose entries are known to lie in reserved frames: all there are, and those whose
entries lie in the first frame of the bitmap. -/
def Tracked (s : State) (g : Nat) : Prop := g < 2 ^ 32 ∧ (g < s.totalFrames ∨ g < 16384)

/-- The entry of a tracked frame lies in no block. -/
theorem tracked_clear (tracked : Tracked s g)
    (reserved : ∀ f, Kept s f → memBitmapGetEntry s.memory f = memBitmapEntryReserved)
    (frames : ∀ f ∈ F, memKernelFirstFrame < f ∧ f < memUserFirstFrame ∧
      memBitmapGetEntry s.memory f ≠ memBitmapEntryReserved)
    (covered : ∀ b ∈ blocks, ∀ x ∈ b.bytes, x / memFrameSize ∈ F) :
    ∀ b ∈ headBlock head.addr :: blocks, bitmapByte g ∉ b.bytes := by
  intro b inside here
  rcases List.mem_cons.mp inside with rfl | inside
  · have below := head.below
    have stop_le : bitmapByte g < head.addr + (0 + 1) * entryBytes := here.2
    rw [Nat.zero_add, Nat.one_mul] at stop_le
    exact absurd (stop_le.trans_le below) (Nat.not_lt.mpr (Nat.le_add_right _ _))
  · obtain ⟨above, -, not_reserved⟩ := frames _ (covered b inside _ here)
    obtain ⟨small, there | early⟩ := tracked
    · exact not_reserved (reserved _ (.inr ⟨g, there, small, rfl⟩))
    · rw [memKernelFirstFrame_eq] at above
      unfold bitmapByte memBitmapAddr memBitmapEntriesPerByte memFrameSize at above
      omega

theorem getEntry_of_headersOnly (writes : HeadersOnly bs m m') (small : g < 2 ^ 32)
    (clear : ∀ b ∈ bs, bitmapByte g ∉ b.bytes) :
    memBitmapGetEntry m' g = memBitmapGetEntry m g := by
  refine getEntry_congr small (writes _ fun ⟨b, inside, low, high⟩ => clear b inside ⟨low, ?_⟩)
  unfold stop
  unfold entryBytes at *
  omega

theorem Sound.frames (sound : Sound head k blocks) : ∀ f ∈ k.heapFrames,
    memKernelFirstFrame < f ∧ f < memUserFirstFrame ∧
      memBitmapGetEntry k.state.memory f ≠ memBitmapEntryReserved := by
  intro f inside
  obtain ⟨above, below, used⟩ := sound.heap f inside
  exact ⟨above, below, used.trans_ne used_ne_reserved⟩

theorem Sound.clear (sound : Sound head k blocks) (tracked : Tracked k.state g) :
    ∀ b ∈ headBlock head.addr :: blocks, bitmapByte g ∉ b.bytes :=
  tracked_clear tracked sound.reserved sound.frames sound.ledger.covered

/-- The frames of the kernel's space are tracked, also where the memory ends before. -/
theorem tracked_of_below (below : g < memUserFirstFrame) : Tracked s g := by
  rw [memUserFirstFrame_eq] at below
  exact ⟨by omega, .inr (by omega)⟩

theorem Kept.tracked (kept : Kept s g) : Tracked s g := by
  rcases kept with below | ⟨f, there, small, rfl⟩
  · exact tracked_of_below (below.trans (by decide))
  · unfold Tracked bitmapByte memBitmapAddr memBitmapEntriesPerByte memFrameSize
    omega

/-! ## The steps of the kernel -/

/-- A head is no block that fits. -/
theorem fits_ne_head {memHead : Nat} (fits : Fits units b) : b ≠ headBlock memHead := by
  rintro rfl
  cases fits.1

/-- A block that fits is behind the head of the list. -/
theorem fits_behind_head {memHead : Nat} {pre post : List Block}
    (whole : headBlock memHead :: blocks = pre ++ b :: post)
    (fits : Fits units b) : ∃ pre', pre = headBlock memHead :: pre' ∧ blocks = pre' ++ b :: post := by
  cases pre with
  | nil => exact absurd (List.cons.inj whole).1.symm (fits_ne_head fits)
  | cons h pre =>
    obtain ⟨rfl, rest⟩ := List.cons.inj whole
    exact ⟨pre, rfl, rest⟩

theorem headBlock_not_free {memHead : Nat} : (headBlock memHead).status ≠ .free :=
  fun same => by cases same

theorem pointer_pos : 0 < b.pointer := by
  unfold pointer entryBytes
  omega

theorem Sound.clears (sound : Sound head k blocks) :
    Clear k.state (headBlock head.addr :: blocks) where
  bitmap f low := sound.clear (tracked_of_below low)
  frames f from_ _ free b inside x here same := by
    rcases List.mem_cons.mp inside with rfl | inside
    · have below := head.below
      have high : x < head.addr + (0 + 1) * entryBytes := here.2
      rw [Nat.zero_add, Nat.one_mul] at high
      rw [memKernelFirstFrame_eq, ← same] at from_
      unfold memBitmapAddr memFrameSize at *
      omega
    · have used := (sound.heap _ (sound.ledger.covered b inside x here)).2.2
      rw [same] at used
      exact used_ne_free (used.symm.trans (isFree_iff.mp free))

/-- Frames of the kernel that are free. -/
def FreeRow (s : State) (row : Set Nat) : Prop :=
  ∀ f ∈ row, memKernelFirstFrame < f ∧ f < memUserFirstFrame ∧ f < s.totalFrames ∧
    memBitmapGetEntry s.memory f = memBitmapEntryFree

/-- The frames of the row became used, and no other entry changed. -/
def Marks (s s' : State) (row : Set Nat) : Prop :=
  ∀ f, Tracked s f → (f ∈ row → memBitmapGetEntry s'.memory f = memBitmapEntryUsed) ∧
    (f ∉ row → memBitmapGetEntry s'.memory f = memBitmapGetEntry s.memory f)

/-- What holds after a call of `kalloc`. -/
structure Serves (head : MemHead) (k : Kernel) (bytes p : Nat) (s' : State) (blocks blocks' : List Block)
    (row : Set Nat) : Prop where
  ledger : Ledger (headBlock head.addr) (k.heapFrames ∪ row) blocks'
    (if p = 0 then k.live else (p, bytes) :: k.live)
  linked : Linked s'.memory (headBlock head.addr :: blocks')
  free : FreeRow k.state row
  marks : Marks k.state s' row
  total : s'.totalFrames = k.state.totalFrames
  keeps : ∀ b ∈ blocks, b.status = .used → b ∈ blocks'
  outside : ∀ x ∉ headers (headBlock head.addr :: blocks'),
    (∀ g, Tracked k.state g → x ≠ bitmapByte g) → s'.memory x = k.state.memory x

theorem Sound.tracked_heap (sound : Sound head k blocks) (inside : g ∈ k.heapFrames) :
    Tracked k.state g :=
  tracked_of_below (sound.heap g inside).2.1

/-- The row that was found is free. -/
theorem freeRow_of_first {low count : Nat} (sound : Sound head k blocks)
    (first : FirstRun (isFree k.state.memory) count memKernelFirstFrame
      (searchEnd k.state.totalFrames memUserFirstFrame) low) :
    FreeRow k.state {f | low ≤ f ∧ f < low + count} := by
  obtain ⟨-, within, total⟩ := kernel_row first
  rintro f ⟨lower, upper⟩
  have is_free := free_of_run first.run lower upper
  refine ⟨lt_of_le_of_ne (first.from_.trans lower) ?_, upper.trans_le within, by omega, is_free⟩
  rintro rfl
  have reserved := sound.reserved memKernelFirstFrame (.inr ⟨0, by omega, by decide, rfl⟩)
  exact free_ne_reserved (is_free.symm.trans reserved)

theorem Sound.frames_row {row : Set Nat} (sound : Sound head k blocks) (free : FreeRow k.state row) :
    ∀ f ∈ k.heapFrames ∪ row, memKernelFirstFrame < f ∧ f < memUserFirstFrame ∧
      memBitmapGetEntry k.state.memory f ≠ memBitmapEntryReserved := by
  rintro f (old | new)
  · exact sound.frames f old
  · obtain ⟨above, below, -, is_free⟩ := free f new
    exact ⟨above, below, is_free.trans_ne free_ne_reserved⟩

/-- A block that fits is carved. -/
theorem Sound.placed (sound : Sound head k (pre ++ b :: post)) (fits : Fits units b)
    (room : bytes ≤ units * entryBytes)
    (linked : Linked m (headBlock head.addr :: (pre ++ (carve units b ++ post))))
    (writes : HeadersOnly (headBlock head.addr :: (pre ++ (carve units b ++ post))) k.state.memory m) :
    Serves head k bytes b.pointer { k.state with memory := m } (pre ++ b :: post)
      (pre ++ (carve units b ++ post)) ∅ := by
  have ledger := sound.ledger.carve fits room
  refine ⟨?_, linked, fun f none_ => none_.elim, fun f tracked => ⟨fun none_ => none_.elim, fun _ => ?_⟩,
    rfl, fun c inside used => ?_, fun x away _ => writes x away⟩
  · rw [Set.union_empty, if_neg pointer_pos.ne']
    exact ledger
  · exact getEntry_of_headersOnly writes tracked.1
      (tracked_clear tracked sound.reserved sound.frames ledger.covered)
  · simp only [List.mem_append, List.mem_cons] at inside ⊢
    rcases inside with before | rfl | after
    · exact .inl before
    · rw [fits.1] at used
      cases used
    · exact .inr (.inr after)

/-- New frames are carved. -/
theorem Sound.grown {low : Nat} {s1 : State} (sound : Sound head k blocks)
    (small : units + 1 < 2 ^ 28) (room : bytes ≤ units * entryBytes)
    (first : FirstRun (isFree k.state.memory) (framesOf units) memKernelFirstFrame
      (searchEnd k.state.totalFrames memUserFirstFrame) low)
    (taken : Taken k.state s1 low (framesOf units))
    (linked : Linked m (headBlock head.addr ::
      (blocks ++ carve units (frameBlock low (framesOf units)))))
    (writes : HeadersOnly (headBlock head.addr ::
      (blocks ++ carve units (frameBlock low (framesOf units)))) s1.memory m) :
    Serves head k bytes (frameBlock low (framesOf units)).pointer { s1 with memory := m } blocks
      (blocks ++ carve units (frameBlock low (framesOf units)))
      {f | low ≤ f ∧ f < low + framesOf units} := by
  obtain ⟨from_, within, total⟩ := kernel_row first
  have some_ := (framesOf_room small).1
  have few : framesOf units ≤ 512 := by omega
  have free := freeRow_of_first sound first
  have aligned : (frameBlock low (framesOf units)).addr % entryBytes = 0 := by
    change low * 4096 % 16 = 0
    omega
  have grown := @Ledger.grow _ _ _ {f | low ≤ f ∧ f < low + framesOf units} _ _ sound.ledger
    (sound.clears.layout sound.ledger.layout some_ few first.from_ first.within first.run) aligned rfl
    fun x here => (mem_frameBlock some_ few).mp here
  have ledger := grown.carve (fits_frameBlock small few) room
  rw [List.append_nil] at ledger
  refine ⟨?_, linked, free, fun f tracked => ?_, taken.total, fun c inside _ => ?_,
    fun x away clear => ?_⟩
  · rw [if_neg pointer_pos.ne']
    exact ledger
  · have kept := getEntry_of_headersOnly writes tracked.1
      (tracked_clear tracked sound.reserved (sound.frames_row free) ledger.covered)
    have status := taken.status f tracked.1
    exact ⟨fun inside => kept.trans (status.trans (if_pos inside)),
      fun outside => kept.trans (status.trans (if_neg outside))⟩
  · exact List.mem_append_left _ inside
  · refine (writes x away).trans (taken.outside x fun g lower upper => clear g ?_)
    exact ⟨by omega, .inl (by omega)⟩

theorem Sound.serves {row : Set Nat} (sound : Sound head k blocks) (small : units + 1 < 2 ^ 28)
    (room : bytes ≤ units * entryBytes)
    (does : Kalloc units k.state (headBlock head.addr :: blocks) p s' bs' row) :
    ∃ blocks', bs' = headBlock head.addr :: blocks' ∧
      Serves head k bytes p s' blocks blocks' row := by
  generalize whole : headBlock head.addr :: blocks = bs at does
  cases does with
  | placed unfit fits linked writes =>
    obtain ⟨pre, rfl, rfl⟩ := fits_behind_head whole fits
    exact ⟨_, rfl, sound.placed fits room linked writes⟩
  | grown unfit first taken linked writes =>
    subst whole
    exact ⟨_, rfl, sound.grown small room first taken linked writes⟩
  | full unfit none_ =>
    refine ⟨blocks, whole.symm, ?_, sound.linked, fun f none_ => none_.elim,
      fun f tracked => ⟨fun none_ => none_.elim, fun _ => rfl⟩, rfl, fun c inside _ => inside,
      fun x _ _ => rfl⟩
    rw [Set.union_empty, if_pos rfl]
    exact sound.ledger

section Serves

variable {row : Set Nat}

theorem not_mem_row (free : FreeRow s row) (status : memBitmapGetEntry s.memory g ≠ memBitmapEntryFree) :
    g ∉ row :=
  fun inside => status (free g inside).2.2.2

/-- The frames that a call of `kalloc` obtained are those of its row. -/
theorem Serves.obtained (serves : Serves head k bytes p s' blocks blocks' row) :
    obtained k.state s' = row := by
  ext f
  constructor
  · rintro ⟨there, small, free, used⟩
    by_contra outside
    rw [(serves.marks f ⟨small, .inl there⟩).2 outside] at used
    exact used_ne_free (used.symm.trans (isFree_iff.mp free))
  · intro inside
    obtain ⟨-, below, there, is_free⟩ := serves.free f inside
    have small : f < 2 ^ 32 := below.trans memUserFirstFrame_lt
    exact ⟨there, small, isFree_iff.mpr is_free, (serves.marks f ⟨small, .inl there⟩).1 inside⟩

/-- A call of `kalloc` keeps the invariant. -/
theorem Serves.sound (serves : Serves head k bytes p s' blocks blocks' row)
    (sound : Sound head k blocks) : Sound head (k.kalloced bytes p s') blocks' := by
  have obtained := serves.obtained
  have stays : ∀ g, Tracked k.state g → memBitmapGetEntry k.state.memory g ≠ memBitmapEntryFree →
      memBitmapGetEntry s'.memory g = memBitmapGetEntry k.state.memory g := fun g tracked status =>
    (serves.marks g tracked).2 (not_mem_row serves.free status)
  refine ⟨?_, serves.linked, fun f inside => ?_, fun f inside => ?_, fun f kept => ?_⟩
  · rw [Kernel.kalloced, obtained]
    exact serves.ledger
  · rw [Kernel.kalloced, obtained] at inside
    rcases inside with old | new
    · obtain ⟨above, below, used⟩ := sound.heap f old
      have not_free := used.trans_ne used_ne_free
      exact ⟨above, below, (stays f (sound.tracked_heap old) not_free).trans used⟩
    · obtain ⟨above, below, there, -⟩ := serves.free f new
      exact ⟨above, below, (serves.marks f ⟨below.trans memUserFirstFrame_lt, .inl there⟩).1 new⟩
  · obtain ⟨there, small, apart, used⟩ := sound.others f inside
    have not_free := used.trans_ne used_ne_free
    refine ⟨serves.total.symm ▸ there, small, ?_, (stays f ⟨small, .inl there⟩ not_free).trans used⟩
    rw [Kernel.kalloced, obtained]
    exact fun inside' => inside'.elim apart (not_mem_row serves.free not_free)
  · have kept' : Kept k.state f := kept.congr serves.total
    have reserved := sound.reserved f kept'
    exact (stays f kept'.tracked (reserved.trans_ne free_ne_reserved.symm)).trans reserved

end Serves

/-- The neighbours of the block at `ptr`, as the list has them. -/
theorem meets_of_joins (layout : Layout (pre ++ e :: f :: post)) (linked : Linked m (pre ++ e :: f :: post))
    (joins : JoinsNeighbours m f.pointer) :
    Meets f.freed post ∧ (e.status = .free → f.addr = e.stop) := by
  have place : f.pointer - entryBytes = f.addr := Nat.add_sub_cancel _ _
  unfold JoinsNeighbours at joins
  rw [place] at joins
  dsimp only at joins
  have linked' : Linked m ((pre ++ [e]) ++ f :: post) := by simpa using linked
  have prev : entryPrev m f.addr = e.addr := by
    have := congrArg Node.prev (segment_middle linked')
    rw [lastOf_append] at this
    exact this
  rw [prev, linked.flags_eq, linked.size_eq, linked'.size_eq, flags_eq_free, linked'.next_eq] at joins
  refine ⟨fun c first _ free => ?_, joins.2⟩
  cases post with
  | nil => cases first
  | cons d ds =>
    obtain rfl := Option.some.inj first
    have linked'' : Linked m ((pre ++ [e, f]) ++ d :: ds) := by simpa using linked
    have nonzero := (layout.bounds d (by simp)).1.ne'
    exact joins.1 nonzero (linked''.flags_eq.trans (flags_eq_free.mpr free))

theorem joins_of_meets (linked : Linked m (pre ++ e :: f :: post)) (next : Meets f.freed post)
    (prev : e.status = .free → f.addr = e.stop) : JoinsNeighbours m f.pointer := by
  have place : f.pointer - entryBytes = f.addr := Nat.add_sub_cancel _ _
  have linked' : Linked m ((pre ++ [e]) ++ f :: post) := by simpa using linked
  have before : entryPrev m f.addr = e.addr := by
    have := congrArg Node.prev (segment_middle linked')
    rw [lastOf_append] at this
    exact this
  unfold JoinsNeighbours
  rw [place]
  dsimp only
  rw [before, linked.flags_eq, linked.size_eq, linked'.size_eq, flags_eq_free, linked'.next_eq]
  refine ⟨fun nonzero free => ?_, prev⟩
  cases post with
  | nil => exact absurd rfl nonzero
  | cons d ds =>
    have linked'' : Linked m ((pre ++ [e, f]) ++ d :: ds) := by simpa using linked
    exact next d rfl rfl (flags_eq_free.mp (linked''.flags_eq.symm.trans free))

theorem mem_of_second {h : Block} (whole : h :: blocks = pre ++ e :: f :: post) : f ∈ blocks := by
  cases pre with
  | nil =>
    obtain ⟨-, rfl⟩ := List.cons.inj whole
    exact List.mem_cons_self
  | cons c cs =>
    obtain ⟨-, rfl⟩ := List.cons.inj whole
    simp

theorem Sound.used_of_not_free (sound : Sound head k blocks) (inside : f ∈ blocks)
    (taken : f.status ≠ .free) : f.status = .used := by
  have some_ := sound.ledger.status f inside
  cases status : f.status with
  | null => exact absurd status some_
  | free => exact absurd status taken
  | used => rfl

/-- The block that `kfree` gives back joins only neighbours. -/
theorem Sound.meets (sound : Sound head k blocks)
    (joins : ptr ∈ k.live.map Prod.fst → JoinsNeighbours k.state.memory ptr)
    (whole : headBlock head.addr :: blocks = pre ++ e :: f :: post) (here : f.pointer = ptr)
    (taken : f.status ≠ .free) : Meets f.freed post ∧ (e.status = .free → f.addr = e.stop) := by
  have f_in := mem_of_second whole
  have handed := sound.ledger.known f f_in (sound.used_of_not_free f_in taken)
  rw [here] at handed
  have layout := sound.ledger.layout
  have linked := sound.linked
  rw [whole] at layout linked
  exact meets_of_joins layout linked (here.symm ▸ joins handed)

theorem Sound.freesWell (sound : Sound head k blocks)
    (joins : ptr ∈ k.live.map Prod.fst → JoinsNeighbours k.state.memory ptr) :
    FreesWell ptr (headBlock head.addr :: blocks) := by
  intro pre e f post whole here taken
  obtain ⟨next, prev⟩ := sound.meets joins whole here taken
  have layout := sound.ledger.layout
  rw [whole] at layout
  exact (layout_give_back layout next prev).1

/-- A call of `kfree` keeps the invariant, if the blocks it joins meet. -/
theorem Sound.kfree (sound : Sound head k blocks)
    (joins : ptr ∈ k.live.map Prod.fst → JoinsNeighbours k.state.memory ptr)
    (does : Kfree ptr k.state.memory (headBlock head.addr :: blocks) m' bs') :
    ∃ blocks', bs' = headBlock head.addr :: blocks' ∧
      Sound head (k.kfreed ptr { k.state with memory := m' }) blocks' ∧
      HeadersOnly (headBlock head.addr :: blocks) k.state.memory m' := by
  generalize whole : headBlock head.addr :: blocks = bs at does
  cases does with
  | @kept h bs dead =>
    obtain ⟨rfl, rfl⟩ := List.cons.inj whole
    have unchanged : k.live.filter (fun r => r.1 ≠ ptr) = k.live := by
      refine List.filter_eq_self.mpr fun r handed => decide_eq_true fun same => ?_
      obtain ⟨b, inside, used, place, -⟩ := sound.ledger.served r handed
      rw [dead b inside (place.trans same)] at used
      cases used
    refine ⟨blocks, rfl, ?_, fun _ _ => rfl⟩
    simp only [Kernel.kfreed, unchanged]
    exact sound
  | @freed pre post e f m' here taken linked writes =>
    obtain ⟨next, prev⟩ := sound.meets joins whole here taken
    have f_in := mem_of_second whole
    obtain ⟨blocks', result⟩ := @give_back_head (headBlock head.addr) e f blocks pre post
      headBlock_not_free whole
    have ledger := sound.ledger.release whole result (sound.used_of_not_free f_in taken) f_in next prev
    rw [← whole] at writes
    have same := fun g (tracked : Tracked k.state g) =>
      getEntry_of_headersOnly writes tracked.1 (sound.clear tracked)
    rw [result] at linked ⊢
    refine ⟨blocks', rfl, ⟨here ▸ ledger, linked, fun g inside => ?_, fun g inside => ?_,
      fun g kept => ?_⟩, whole ▸ writes⟩
    · obtain ⟨above, below, used⟩ := sound.heap g inside
      exact ⟨above, below, (same g (sound.tracked_heap inside)).trans used⟩
    · obtain ⟨there, small, apart, used⟩ := sound.others g inside
      exact ⟨there, small, apart, (same g ⟨small, .inl there⟩).trans used⟩
    · exact (same g kept.tracked).trans (sound.reserved g kept)

end AtaKernel.Memory
