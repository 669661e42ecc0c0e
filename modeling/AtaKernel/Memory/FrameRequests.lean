import AtaKernel.Memory.FrameOwnership

/-! One call of `mem_allocate_frames` or `mem_release_frames`, over any bitmap. The
search is first fit within the range that it is given, and it marks what it found
and nothing else. A release frees the frames in use of its range; the end of the range
is a sum of 32 bits that is clamped after it has wrapped, so that a large count frees
nothing. -/
namespace AtaKernel.Memory
open RunSearch

variable {s : State} {addr count first last f g low : Nat}

/-! ## mem_allocate_frames -/

/-- `last`, or the number of frames where that is given as 0 or is less. -/
def rangeEnd (s : State) (last : Nat) : Nat :=
  if last = 0 ∨ last > s.totalFrames then s.totalFrames else last

/-- Frames `low` to `low + count` are free and lie within the range. -/
structure FreeWithin (s : State) (first last count low : Nat) : Prop where
  lower : first ≤ low
  upper : low + count ≤ rangeEnd s last
  free : ∀ f, low ≤ f → f < low + count → memBitmapGetEntry s.memory f = memBitmapEntryFree

theorem searchEnd_eq (few : s.totalFrames ≤ 2 ^ 20) : searchEnd s.totalFrames last = rangeEnd s last := by
  unfold searchEnd rangeEnd
  rw [Nat.mod_eq_of_lt (by omega)]

theorem run_iff : Run (isFree s.memory) low count ↔
    ∀ f, low ≤ f → f < low + count → memBitmapGetEntry s.memory f = memBitmapEntryFree := by
  refine ⟨fun run f lower upper => free_of_run run lower upper, fun free i few => ?_⟩
  exact isFree_iff.mpr (free (low + i) (by omega) (by omega))

/-- The search finds the lowest of the free ranges. -/
theorem least_of_firstRun (few : s.totalFrames ≤ 2 ^ 20)
    (found : FirstRun (isFree s.memory) count first (searchEnd s.totalFrames last) low) :
    IsLeast {low | FreeWithin s first last count low} low := by
  rw [searchEnd_eq few] at found
  refine ⟨⟨found.from_, found.within, run_iff.mp found.run⟩, fun other inside => ?_⟩
  obtain ⟨lower, -, free⟩ := inside
  by_contra below
  exact found.least other lower (not_le.mp below) (run_iff.mpr free)

/-- A range with frames has an address, unless it starts at frame 0. -/
theorem address_ne_zero (few : s.totalFrames ≤ 2 ^ 20) (some_ : 1 ≤ count)
    (zero_ : memBitmapGetEntry s.memory 0 ≠ memBitmapEntryFree)
    (inside : FreeWithin s first last count low) :
    low * memFrameSize % 2 ^ 32 = memFrameSize * low ∧ memFrameSize * low ≠ 0 := by
  have positive : low ≠ 0 := by
    rintro rfl
    exact zero_ (inside.free 0 le_rfl (by omega))
  have upper := inside.upper
  have ends : rangeEnd s last ≤ s.totalFrames := by
    unfold rangeEnd
    split <;> omega
  unfold memFrameSize
  omega

/-- The call succeeds if there is a free range, and takes the lowest one. -/
theorem allocates_first_fit (few : s.totalFrames ≤ 2 ^ 20)
    (zero_ : memBitmapGetEntry s.memory 0 ≠ memBitmapEntryFree) (some_ : 1 ≤ count)
    (words : count < 2 ^ 32 ∧ first < 2 ^ 32 ∧ last < 2 ^ 32) :
    ((memAllocateFrames s count first last).1 ≠ 0 ↔ ∃ low, FreeWithin s first last count low) ∧
      ((memAllocateFrames s count first last).1 ≠ 0 →
        ∃ low, IsLeast {low | FreeWithin s first last count low} low ∧
          (memAllocateFrames s count first last).1 = memFrameSize * low ∧
          ∀ g < 2 ^ 32, memBitmapGetEntry (memAllocateFrames s count first last).2.memory g =
            if low ≤ g ∧ g < low + count then memBitmapEntryUsed else memBitmapGetEntry s.memory g) ∧
      ((memAllocateFrames s count first last).1 = 0 → (memAllocateFrames s count first last).2 = s) := by
  rcases @memAllocateFrames_spec count first last s some_ words.2.2 with
    ⟨low, s', found, taken, eq⟩ | ⟨none_, eq⟩
  · have least := least_of_firstRun few found
    obtain ⟨whole, nonzero⟩ := address_ne_zero few some_ zero_ least.1
    rw [eq]
    dsimp only
    rw [whole]
    exact ⟨iff_of_true nonzero ⟨low, least.1⟩, fun _ => ⟨low, least, rfl, taken.status⟩,
      fun zero => absurd zero nonzero⟩
  · rw [eq]
    refine ⟨iff_of_false (fun nonzero => nonzero rfl) ?_, fun nonzero => absurd rfl nonzero, fun _ => rfl⟩
    rintro ⟨low, inside⟩
    refine none_ low inside.lower ?_ (run_iff.mpr inside.free)
    rw [searchEnd_eq few]
    exact inside.upper

/-- Sixteen frames, of which the first is reserved and the third in use. -/
def sixteenFrames : State :=
  ⟨memBitmapSetEntry (memBitmapSetEntry (fun _ => 0) 0 memBitmapEntryReserved) 2 memBitmapEntryUsed, 16⟩

theorem sixteenFrames_entry (there : f < 2 ^ 32) : memBitmapGetEntry sixteenFrames.memory f =
    if f = 2 then memBitmapEntryUsed else if f = 0 then memBitmapEntryReserved else memBitmapEntryFree := by
  have empty : memBitmapGetEntry (fun _ => 0) f = memBitmapEntryFree := by
    rw [memBitmapGetEntry_eq]
    exact PackedTable.entry_of_zero rfl
  unfold sixteenFrames
  rw [getEntry_setEntry _ (by decide) there, getEntry_setEntry _ (by decide) there, empty]
  rfl

/-- The first three in a row that are free are 3, 4 and 5. -/
theorem allocates_first_fit_sixteen : (memAllocateFrames sixteenFrames 3 0 0).1 = 0x3000 ∧
    ∀ g < 2 ^ 32, memBitmapGetEntry (memAllocateFrames sixteenFrames 3 0 0).2.memory g =
      if 3 ≤ g ∧ g < 6 then memBitmapEntryUsed else memBitmapGetEntry sixteenFrames.memory g := by
  have zero_ : memBitmapGetEntry sixteenFrames.memory 0 ≠ memBitmapEntryFree := by
    rw [sixteenFrames_entry (by decide)]
    decide
  have few : sixteenFrames.totalFrames ≤ 2 ^ 20 := show 16 ≤ 2 ^ 20 by decide
  obtain ⟨succeeds, takes, -⟩ := allocates_first_fit few zero_ (show 1 ≤ 3 by decide)
    (show 3 < 2 ^ 32 ∧ 0 < 2 ^ 32 ∧ 0 < 2 ^ 32 by decide)
  have fits : FreeWithin sixteenFrames 0 0 3 3 := by
    refine ⟨by decide, by decide, fun f lower upper => ?_⟩
    rw [sixteenFrames_entry (by omega), if_neg (by omega), if_neg (by omega)]
  obtain ⟨low, least, address, marks⟩ := takes (succeeds.mpr ⟨3, fits⟩)
  have upto : low ≤ 3 := least.2 fits
  have behind : 2 < low := by
    by_contra before
    have free := least.1.free 2 (by omega) (by omega)
    rw [sixteenFrames_entry (by decide)] at free
    exact absurd free (by decide)
  obtain rfl : low = 3 := by omega
  exact ⟨address, marks⟩

/-! ## mem_release_frames -/

/-- The frames in use of the range are free afterwards, and nothing else has changed. -/
def ReleasesExactly (s : State) (addr count : Nat) : Prop :=
  ∀ g < s.totalFrames, memBitmapGetEntry (memReleaseFrames s addr count).memory g =
    if addr / memFrameSize ≤ g ∧ g < min (addr / memFrameSize + count) s.totalFrames ∧
        memBitmapGetEntry s.memory g = memBitmapEntryUsed then
      memBitmapEntryFree
    else memBitmapGetEntry s.memory g

/-- A sum that does not wrap is clamped as it should be. -/
theorem release_exact (few : s.totalFrames < 2 ^ 32) (fits : addr / memFrameSize + count < 2 ^ 32) :
    ReleasesExactly s addr count := by
  intro g there
  unfold memReleaseFrames
  dsimp only
  rw [Nat.mod_eq_of_lt fits]
  split
  · rw [if_neg]
    omega
  · have clamped : (if addr / memFrameSize + count > s.totalFrames then s.totalFrames % 2 ^ 32
        else addr / memFrameSize + count) = min (addr / memFrameSize + count) s.totalFrames := by
      rw [Nat.mod_eq_of_lt (by omega)]
      split <;> omega
    rw [clamped]
    dsimp only
    rw [getEntry_releaseFrom (by omega) (by omega)]
    refine if_congr ⟨?_, ?_⟩ rfl rfl
    · rintro ⟨⟨lower, upper⟩, used⟩
      exact ⟨lower, by omega, used⟩
    · rintro ⟨lower, upper, used⟩
      exact ⟨⟨lower, by omega⟩, used⟩

/-- A sum that wraps ends before the first frame. -/
theorem release_wrapped (words : count < 2 ^ 32) (start : addr / memFrameSize < 2 ^ 32)
    (wraps : 2 ^ 32 ≤ addr / memFrameSize + count) :
    (memReleaseFrames s addr count).memory = s.memory := by
  have last : (addr / memFrameSize + count) % 2 ^ 32 = addr / memFrameSize + count - 2 ^ 32 := by
    rw [Nat.mod_eq_sub_mod wraps, Nat.mod_eq_of_lt (by omega)]
  unfold memReleaseFrames
  dsimp only
  rw [last]
  split
  · rfl
  · rw [if_neg (by omega), show addr / memFrameSize + count - 2 ^ 32 - addr / memFrameSize = 0 by omega]
    rfl

/-- The release is exact if its sum does not wrap, and otherwise only if there is nothing to free. -/
theorem releases_exactly_iff (few : s.totalFrames ≤ 2 ^ 20)
    (words : addr < 2 ^ 32 ∧ count < 2 ^ 32) :
    ReleasesExactly s addr count ↔ addr / memFrameSize + count < 2 ^ 32 ∨
      ∀ g, addr / memFrameSize ≤ g → g < s.totalFrames →
        memBitmapGetEntry s.memory g ≠ memBitmapEntryUsed := by
  have start : addr / memFrameSize < 2 ^ 32 := (Nat.div_le_self _ _).trans_lt words.1
  by_cases fits : addr / memFrameSize + count < 2 ^ 32
  · exact iff_of_true (release_exact (few.trans_lt (by decide)) fits) (.inl fits)
  · have kept := @release_wrapped s addr count words.2 start (not_lt.mp fits)
    constructor
    · intro exact_
      refine .inr fun g lower there used => ?_
      have freed := exact_ g there
      rw [kept, if_pos ⟨lower, by omega, used⟩, used] at freed
      exact used_ne_free freed
    · rintro (fits' | idle)
      · exact absurd fits' fits
      · intro g there
        rw [kept, if_neg]
        rintro ⟨lower, -, used⟩
        exact idle g lower there used

/-- Of the three frames behind the first one only the third frame is in use, and is free afterwards. -/
theorem releases_exactly_iff_sixteen : ReleasesExactly sixteenFrames 0x1000 3 ∧
    memBitmapGetEntry (memReleaseFrames sixteenFrames 0x1000 3).memory 2 = memBitmapEntryFree := by
  have exact_ : ReleasesExactly sixteenFrames 0x1000 3 :=
    (releases_exactly_iff (show 16 ≤ 2 ^ 20 by decide) (by decide)).mpr (.inl (by decide))
  have used : memBitmapGetEntry sixteenFrames.memory 2 = memBitmapEntryUsed := by
    rw [sixteenFrames_entry (by decide), if_pos rfl]
  refine ⟨exact_, ?_⟩
  rw [exact_ 2 (show 2 < 16 by decide), if_pos ⟨by decide, by decide, used⟩]

/-- Frame 1 is in use, and releasing all frames from it on leaves it so. -/
theorem wrapped_release_frees_nothing :
    ¬ ∀ (s : State) (addr count : Nat), s.totalFrames ≤ 2 ^ 20 → addr < 2 ^ 32 → count < 2 ^ 32 →
      ReleasesExactly s addr count := by
  intro all
  have exact_ := all ⟨memBitmapSetEntry (fun _ => 0) 1 memBitmapEntryUsed, 16⟩ 0x1000 0xffffffff
    (by decide) (by decide) (by decide)
  have used : memBitmapGetEntry (memBitmapSetEntry (fun _ => 0) 1 memBitmapEntryUsed) 1 =
      memBitmapEntryUsed := by
    rw [getEntry_setEntry _ (by decide) (by decide)]
    rfl
  have freed := exact_ 1 (by decide)
  rw [release_wrapped (by decide) (by decide) (by decide), if_pos ⟨by decide, by decide, used⟩] at freed
  exact used_ne_free (used.symm.trans freed)

end AtaKernel.Memory
