import AtaKernel.Memory.Runs

/-! The physical allocator on its own. Owners ask for frames and give back what
they got; the bitmap alone has to tell one owner's frames from another's. As long
as every frame has an address and frame 0 stays reserved, so that no range starts
at the address that means failure, the frames in use are those of the live ranges. -/
namespace AtaKernel.Memory
open RunSearch

/-- The memory, and the ranges that were handed out and not given back, by address and length. -/
structure Frames where
  state : State
  live : List (Nat × Nat)

/-- One call of an owner. Only live ranges are given back. -/
inductive FrameStep : Frames → Frames → Prop
  | allocate {o : Frames} {count first last addr : Nat} {s' : State} (some_ : 1 ≤ count)
      (words : count < 2 ^ 32 ∧ first < 2 ^ 32 ∧ last < 2 ^ 32)
      (returned : memAllocateFrames o.state count first last = (addr, s')) :
      FrameStep o ⟨s', if addr = 0 then o.live else (addr, count) :: o.live⟩
  | release {o : Frames} {addr count : Nat} (own : (addr, count) ∈ o.live) :
      FrameStep o ⟨memReleaseFrames o.state addr count, o.live.erase (addr, count)⟩

inductive FramesReachable (start : Frames) : Frames → Prop
  | start : FramesReachable start start
  | next {o o' : Frames} : FramesReachable start o → FrameStep o o' → FramesReachable start o'

/-- The frames of the machine with this status. -/
def withStatus (s : State) (status : UInt8) : Set Nat :=
  {f | f < s.totalFrames ∧ memBitmapGetEntry s.memory f = status}

def frameRange (r : Nat × Nat) : Set Nat := framesAt r.1 r.2

instance (r : Nat × Nat) (f : Nat) : Decidable (f ∈ frameRange r) := inferInstanceAs (Decidable (_ ∧ _))

/-- The invariant: the live ranges are apart and are the frames in use; what was reserved stays so. -/
structure Tallied (start : State) (o : Frames) : Prop where
  total : o.state.totalFrames = start.totalFrames
  few : o.state.totalFrames ≤ 2 ^ 20
  zero_ : memBitmapGetEntry o.state.memory 0 = memBitmapEntryReserved
  named : ∀ r ∈ o.live, 0 < r.2 ∧ r.1 / memFrameSize + r.2 ≤ o.state.totalFrames
  apart : o.live.Pairwise fun r r' => Disjoint (frameRange r) (frameRange r')
  used : ∀ f < o.state.totalFrames, memBitmapGetEntry o.state.memory f = memBitmapEntryUsed ↔
    ∃ r ∈ o.live, f ∈ frameRange r
  reserved : ∀ f < o.state.totalFrames, memBitmapGetEntry o.state.memory f = memBitmapEntryReserved ↔
    memBitmapGetEntry start.memory f = memBitmapEntryReserved

variable {o o' : Frames} {s s' start : State} {addr count first last f g low : Nat} {live : List (Nat × Nat)}

theorem tallied_start (few : s.totalFrames ≤ 2 ^ 20)
    (zero_ : memBitmapGetEntry s.memory 0 = memBitmapEntryReserved)
    (fresh : ∀ f < s.totalFrames, memBitmapGetEntry s.memory f ≠ memBitmapEntryUsed) :
    Tallied s ⟨s, []⟩ where
  total := rfl
  few := few
  zero_ := zero_
  named _ inside := (List.not_mem_nil inside).elim
  apart := List.Pairwise.nil
  used f there := iff_of_false (fresh f there) fun ⟨_, inside, _⟩ => List.not_mem_nil inside
  reserved _ _ := Iff.rfl

/-! ## Allocation -/

/-- The range that was found becomes live; none of its frames was in use. -/
theorem Tallied.taken (tallied : Tallied start o) (some_ : 1 ≤ count)
    (ends : low + count ≤ o.state.totalFrames) (run : Run (isFree o.state.memory) low count)
    (taken : Taken o.state s' low count) :
    low * memFrameSize % 2 ^ 32 ≠ 0 ∧
      Tallied start ⟨s', (low * memFrameSize % 2 ^ 32, count) :: o.live⟩ := by
  have few := tallied.few
  have free : ∀ f, low ≤ f → f < low + count → memBitmapGetEntry o.state.memory f = memBitmapEntryFree :=
    fun f lower upper => free_of_run run lower upper
  have positive : low ≠ 0 := by
    rintro rfl
    have reserved := tallied.zero_
    rw [free 0 le_rfl (by omega)] at reserved
    exact free_ne_reserved reserved
  have whole : low * memFrameSize % 2 ^ 32 = low * memFrameSize := by
    refine Nat.mod_eq_of_lt ?_
    unfold memFrameSize
    omega
  have place : low * memFrameSize / memFrameSize = low := Nat.mul_div_cancel _ (by decide)
  have range : frameRange (low * memFrameSize, count) = {f | low ≤ f ∧ f < low + count} := by
    unfold frameRange framesAt
    rw [place]
  have status := fun f (there : f < o.state.totalFrames) => taken.status f (show f < 2 ^ 32 by omega)
  rw [whole]
  refine ⟨Nat.mul_ne_zero positive (by decide), ⟨?_, ?_, ?_, ?_, ?_, ?_, ?_⟩⟩
  · exact taken.total.trans tallied.total
  · exact taken.total.trans_le few
  · have zero_ := taken.status 0 (by decide)
    rw [if_neg fun both => positive (Nat.le_zero.mp both.1)] at zero_
    exact zero_.trans tallied.zero_
  · intro r inside
    rcases List.mem_cons.mp inside with rfl | old
    · exact ⟨some_, by rw [place, taken.total]; exact ends⟩
    · exact taken.total.symm ▸ tallied.named r old
  · refine List.pairwise_cons.mpr ⟨fun r old => ?_, tallied.apart⟩
    rw [range, Set.disjoint_left]
    rintro f ⟨lower, upper⟩ inside
    have used := (tallied.used f (by omega)).mpr ⟨r, old, inside⟩
    exact used_ne_free (used.symm.trans (free f lower upper))
  · intro f there
    rw [taken.total] at there
    rw [status f there]
    split
    · next inside => exact iff_of_true rfl ⟨_, List.mem_cons_self, range.superset inside⟩
    · next outside =>
      rw [tallied.used f there]
      constructor
      · rintro ⟨r, old, inside⟩
        exact ⟨r, List.mem_cons_of_mem _ old, inside⟩
      · rintro ⟨r, among, inside⟩
        rcases List.mem_cons.mp among with rfl | old
        · exact absurd (range.subset inside) outside
        · exact ⟨r, old, inside⟩
  · intro f there
    rw [taken.total] at there
    rw [status f there, ← tallied.reserved f there]
    split
    · next inside =>
      rw [free f inside.1 inside.2]
      exact iff_of_false used_ne_reserved free_ne_reserved
    · exact Iff.rfl

/-! ## Release -/

/-- A range that ends within the machine is released whole. -/
theorem memReleaseFrames_whole (some_ : 0 < count) (ends : addr / memFrameSize + count ≤ s.totalFrames)
    (few : s.totalFrames ≤ 2 ^ 20) : memReleaseFrames s addr count =
      { s with memory := memReleaseFrom s.memory (addr / memFrameSize) count } := by
  unfold memReleaseFrames
  dsimp only
  rw [if_neg (by omega), Nat.mod_eq_of_lt (by omega), if_neg (by omega), Nat.add_sub_cancel_left]

/-- A range given back leaves the books. -/
theorem Tallied.released (tallied : Tallied start o) (own : (addr, count) ∈ o.live) :
    Tallied start ⟨memReleaseFrames o.state addr count, o.live.erase (addr, count)⟩ := by
  have few := tallied.few
  obtain ⟨some_, ends⟩ := tallied.named _ own
  dsimp only at some_ ends
  have order := List.perm_cons_erase own
  have apart := List.pairwise_cons.mp ((order.pairwise_iff fun apart => apart.symm).mp tallied.apart)
  have status : ∀ f < o.state.totalFrames,
      memBitmapGetEntry (memReleaseFrom o.state.memory (addr / memFrameSize) count) f =
        if f ∈ frameRange (addr, count) ∧ memBitmapGetEntry o.state.memory f = memBitmapEntryUsed then
          memBitmapEntryFree
        else memBitmapGetEntry o.state.memory f := by
    intro f there
    rw [getEntry_releaseFrom (by omega) (by omega)]
    rfl
  rw [memReleaseFrames_whole some_ ends few]
  refine ⟨tallied.total, few, ?_, fun r inside => ?_, apart.2, fun f there => ?_, fun f there => ?_⟩
  · rw [getEntry_releaseFrom (by omega) (by decide), if_neg, tallied.zero_]
    rw [tallied.zero_]
    exact fun both => used_ne_reserved both.2.symm
  · exact tallied.named r (List.mem_of_mem_erase inside)
  · rw [status f there]
    by_cases inside : f ∈ frameRange (addr, count)
    · rw [if_pos ⟨inside, (tallied.used f there).mpr ⟨_, own, inside⟩⟩]
      refine iff_of_false used_ne_free.symm ?_
      rintro ⟨r, other, inside'⟩
      exact Set.disjoint_left.mp (apart.1 r other) inside inside'
    · rw [if_neg fun both => inside both.1, tallied.used f there]
      constructor
      · rintro ⟨r, among, inside'⟩
        rcases List.mem_cons.mp (order.subset among) with rfl | other
        · exact absurd inside' inside
        · exact ⟨r, other, inside'⟩
      · rintro ⟨r, other, inside'⟩
        exact ⟨r, List.mem_of_mem_erase other, inside'⟩
  · rw [status f there, ← tallied.reserved f there]
    split
    · next both =>
      rw [both.2]
      exact iff_of_false free_ne_reserved used_ne_reserved
    · exact Iff.rfl

/-! ## Runs -/

theorem Tallied.step (tallied : Tallied start o) (step : FrameStep o o') : Tallied start o' := by
  cases step with
  | release own => exact tallied.released own
  | @allocate count first last addr s' some_ words returned =>
    rcases @memAllocateFrames_spec count first last o.state some_ words.2.2 with
      ⟨low, s'', found, taken, eq⟩ | ⟨-, eq⟩
    · obtain ⟨rfl, rfl⟩ := Prod.mk.inj (eq.symm.trans returned)
      have ends := found.within.trans (searchEnd_le o.state.totalFrames last)
      obtain ⟨nonzero, tallied'⟩ := tallied.taken some_ ends found.run taken
      rw [if_neg nonzero]
      exact tallied'
    · obtain ⟨rfl, rfl⟩ := Prod.mk.inj (eq.symm.trans returned)
      rw [if_pos rfl]
      exact tallied

/-- Over every run, the live ranges are apart, the frames in use are theirs, and the reserved frames
are those of the start. -/
theorem frames_owned (few : s.totalFrames ≤ 2 ^ 20)
    (zero_ : memBitmapGetEntry s.memory 0 = memBitmapEntryReserved)
    (fresh : ∀ f < s.totalFrames, memBitmapGetEntry s.memory f ≠ memBitmapEntryUsed)
    (reach : FramesReachable ⟨s, []⟩ o) :
    (o.live.Pairwise fun r r' => Disjoint (frameRange r) (frameRange r')) ∧
      withStatus o.state memBitmapEntryUsed = {f | ∃ r ∈ o.live, f ∈ frameRange r} ∧
      withStatus o.state memBitmapEntryReserved = withStatus s memBitmapEntryReserved := by
  have tallied : Tallied s o := by
    induction reach with
    | start => exact tallied_start few zero_ fresh
    | next _ step ih => exact ih.step step
  refine ⟨tallied.apart, Set.ext fun f => ⟨fun both => ?_, fun owned => ?_⟩, Set.ext fun f => ?_⟩
  · exact (tallied.used f both.1).mp both.2
  · obtain ⟨r, inside, here⟩ := owned
    have there : f < o.state.totalFrames := here.2.trans_le (tallied.named r inside).2
    exact ⟨there, (tallied.used f there).mpr ⟨r, inside, here⟩⟩
  · change f < o.state.totalFrames ∧ _ ↔ f < s.totalFrames ∧ _
    rw [← tallied.total]
    exact and_congr_right fun there => tallied.reserved f there

/-- Sixteen frames of which the first is reserved, and one call. -/
theorem frames_owned_sixteen : ∃ (s : State) (o : Frames), s.totalFrames = 16 ∧ FrameStep ⟨s, []⟩ o ∧
    withStatus o.state memBitmapEntryUsed = {f | ∃ r ∈ o.live, f ∈ frameRange r} := by
  obtain ⟨m, zero_, fresh⟩ : ∃ m, memBitmapGetEntry m 0 = memBitmapEntryReserved ∧
      ∀ f < 16, memBitmapGetEntry m f ≠ memBitmapEntryUsed := by
    refine ⟨memBitmapSetEntry (fun _ => 0) 0 memBitmapEntryReserved, ?_, fun f there => ?_⟩
    · rw [getEntry_setEntry _ (by decide) (by decide)]
      rfl
    · rw [getEntry_setEntry _ (by decide) (by omega)]
      split
      · decide
      · rw [memBitmapGetEntry_eq, PackedTable.entry_of_zero rfl]
        decide
  cases returned : memAllocateFrames ⟨m, 16⟩ 3 0 0 with
  | mk addr s' =>
  have step := @FrameStep.allocate ⟨⟨m, 16⟩, []⟩ 3 0 0 addr s' (by decide) (by decide) returned
  have few : (16 : Nat) ≤ 2 ^ 20 := by decide
  exact ⟨⟨m, 16⟩, _, rfl, step, (frames_owned few zero_ fresh (.next .start step)).2.1⟩

end AtaKernel.Memory
