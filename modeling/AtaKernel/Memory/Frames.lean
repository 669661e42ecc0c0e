import AtaKernel.Library.PackedTable
import AtaKernel.Library.RunSearch

/-! The physical allocator of `drivers/mem.c`: a bitmap of two-bit entries, one
for each page frame, that starts at 1M, and the search for free frames. Frame
numbers, counts and addresses are `u32` in the source and natural numbers below
`2 ^ 32` here; where the source lets one wrap, the remainder is written out. -/
namespace AtaKernel.Memory
open ByteMemory RunSearch

def memFrameSize : Nat := 4096
def memKernelHeapAddr : Nat := 0x00100000
def memKernelHeapSize : Nat := 0x00200000
def memKernelFirstFrame : Nat := memKernelHeapAddr / memFrameSize
def memUserSpaceAddr : Nat := memKernelHeapAddr + memKernelHeapSize
def memUserFirstFrame : Nat := memUserSpaceAddr / memFrameSize

def memBitmapAddr : Nat := 0x00100000
def memBitmapBitsPerEntry : UInt64 := 2
def memBitmapEntriesPerByte : Nat := 4

def memBitmapEntryFree : UInt8 := 0x00
def memBitmapEntryUsed : UInt8 := 0x01
def memBitmapEntryReserved : UInt8 := 0x02

theorem used_ne_free : memBitmapEntryUsed ≠ memBitmapEntryFree := by decide

theorem used_ne_reserved : memBitmapEntryUsed ≠ memBitmapEntryReserved := by decide

theorem free_ne_reserved : memBitmapEntryFree ≠ memBitmapEntryReserved := by decide

theorem memKernelFirstFrame_eq : memKernelFirstFrame = 256 := rfl

theorem memUserFirstFrame_eq : memUserFirstFrame = 768 := rfl

theorem memUserFirstFrame_lt : memUserFirstFrame < 2 ^ 32 := by decide

/-- The memory and the static variable `mem_total_frames`, a `u64`. -/
structure State where
  memory : Memory
  totalFrames : Nat

/-! ## The bitmap -/

def memBitmapSetEntry (m : Memory) (frame : Nat) (status : UInt8) : Memory :=
  let status := status &&& 0x03
  let shift := UInt8.ofNat (frame % memBitmapEntriesPerByte * 2)
  let pack := load8 m (memBitmapAddr + frame / memBitmapEntriesPerByte)
  let pack := pack &&& ~~~((0x03 : UInt8) <<< shift)
  let pack := pack ||| (status <<< shift)
  store8 m (memBitmapAddr + frame / memBitmapEntriesPerByte) pack

def memBitmapGetEntry (m : Memory) (frame : Nat) : UInt8 :=
  let pack := load8 m (memBitmapAddr + frame / memBitmapEntriesPerByte)
  pack >>> UInt8.ofNat (frame % memBitmapEntriesPerByte * 2) &&& 0x03

/-- The bitmap is a packed table. -/
theorem memBitmapSetEntry_eq (m : Memory) (frame : Nat) (status : UInt8) :
    memBitmapSetEntry m frame status = PackedTable.setEntry m memBitmapAddr frame status :=
  rfl

theorem memBitmapGetEntry_eq (m : Memory) (frame : Nat) :
    memBitmapGetEntry m frame = PackedTable.entry m memBitmapAddr frame :=
  rfl

def isFree (m : Memory) (frame : Nat) : Bool := memBitmapGetEntry m frame == memBitmapEntryFree

variable {m : Memory} {f g n count first last : Nat} {status : UInt8}

theorem isFree_iff : isFree m f = true ↔ memBitmapGetEntry m f = memBitmapEntryFree := beq_iff_eq

theorem free_of_run {low : Nat} (run : Run (isFree m) low count) (lower : low ≤ f)
    (upper : f < low + count) : memBitmapGetEntry m f = memBitmapEntryFree := by
  have free := run (f - low) (by omega)
  rw [Nat.add_sub_cancel' lower] at free
  exact isFree_iff.mp free

theorem getEntry_setEntry (status : UInt8) (here : f < 2 ^ 32) (there : g < 2 ^ 32) :
    memBitmapGetEntry (memBitmapSetEntry m f status) g =
      if g = f then status &&& 0x03 else memBitmapGetEntry m g := by
  rw [memBitmapSetEntry_eq, memBitmapGetEntry_eq, memBitmapGetEntry_eq,
    PackedTable.entry_setEntry status here there]

/-- The byte of the bitmap that holds the entry of `frame`. -/
def bitmapByte (frame : Nat) : Nat := memBitmapAddr + frame / memBitmapEntriesPerByte

theorem cell_bitmapByte (here : f < 2 ^ 32) : cell (bitmapByte f) = bitmapByte f := by
  unfold cell bitmapByte memBitmapAddr memBitmapEntriesPerByte
  omega

theorem setEntry_outside (status : UInt8) (here : f < 2 ^ 32) {x : Nat}
    (outside : x ≠ bitmapByte f) : memBitmapSetEntry m f status x = m x := by
  rw [memBitmapSetEntry_eq]
  exact PackedTable.setEntry_outside status (fun eq => outside (eq.trans (cell_bitmapByte here)))

/-- An entry stays what it was when its byte does. -/
theorem getEntry_congr {m' : Memory} (here : f < 2 ^ 32) (same : m' (bitmapByte f) = m (bitmapByte f)) :
    memBitmapGetEntry m' f = memBitmapGetEntry m f := by
  apply PackedTable.entry_congr
  change m' (cell (bitmapByte f)) = m (cell (bitmapByte f))
  rw [cell_bitmapByte here, same]

/-! ## Allocation -/

/-- `while (free_f > 0) { mem_bitmap_set_entry(f - free_f + 1, USED); free_f--; }`. -/
def memMarkUsed (m : Memory) (f : Nat) : Nat → Memory
  | 0 => m
  | free + 1 =>
    memMarkUsed (memBitmapSetEntry m (f + 1 - (free + 1)) memBitmapEntryUsed) f free

/-- The end of the range that is searched. -/
def searchEnd (total last : Nat) : Nat :=
  if last = 0 ∨ last > total then total % 2 ^ 32 else last

/-- The address, or 0, and the state after the call. -/
def memAllocateFrames (s : State) (count first last : Nat) : Nat × State :=
  let last := searchEnd s.totalFrames last
  match find (isFree s.memory) count (last - first) first 0 with
  | some f =>
    ((f + 1 - count) * memFrameSize % 2 ^ 32,
      { s with memory := memMarkUsed s.memory f count })
  | none => (0, s)

/-- Marking reaches back `n` frames from `f` on. -/
theorem getEntry_markUsed (within : n ≤ f + 1) (here : f < 2 ^ 32) (there : g < 2 ^ 32) :
    memBitmapGetEntry (memMarkUsed m f n) g =
      if f + 1 - n ≤ g ∧ g ≤ f then memBitmapEntryUsed else memBitmapGetEntry m g := by
  induction n generalizing m with
  | zero =>
    rw [if_neg (by omega)]
    rfl
  | succ n ih =>
    rw [memMarkUsed, ih (by omega), getEntry_setEntry _ (by omega) there]
    by_cases first : g = f + 1 - (n + 1)
    · rw [if_pos first, if_pos (show f + 1 - (n + 1) ≤ g ∧ g ≤ f by omega)]
      split <;> rfl
    · rw [if_neg first]
      refine if_congr ?_ rfl rfl
      omega

theorem markUsed_outside (within : n ≤ f + 1) (here : f < 2 ^ 32) {x : Nat}
    (outside : ∀ g, f + 1 - n ≤ g → g ≤ f → x ≠ bitmapByte g) : memMarkUsed m f n x = m x := by
  induction n generalizing m with
  | zero => rfl
  | succ n ih =>
    rw [memMarkUsed, ih (by omega) fun g low high => outside g (by omega) high,
      setEntry_outside _ (by omega) (outside (f + 1 - (n + 1)) le_rfl (by omega))]

theorem searchEnd_le (total last : Nat) : searchEnd total last ≤ total := by
  unfold searchEnd
  split
  · exact Nat.mod_le _ _
  · omega

theorem searchEnd_le_last (total : Nat) (some_ : 0 < last) : searchEnd total last ≤ last := by
  unfold searchEnd
  split
  · exact (Nat.mod_le _ _).trans (by omega)
  · exact le_rfl

theorem searchEnd_lt (bound : last < 2 ^ 32) (total : Nat) : searchEnd total last < 2 ^ 32 := by
  unfold searchEnd
  split
  · exact Nat.mod_lt _ (by decide)
  · exact bound

/-- What marking the frames of a run does to the state. -/
structure Taken (s s' : State) (low count : Nat) : Prop where
  total : s'.totalFrames = s.totalFrames
  status : ∀ g < 2 ^ 32, memBitmapGetEntry s'.memory g =
    if low ≤ g ∧ g < low + count then memBitmapEntryUsed else memBitmapGetEntry s.memory g
  outside : ∀ x, (∀ g, low ≤ g → g < low + count → x ≠ bitmapByte g) →
    s'.memory x = s.memory x

/-- The call takes the first run of free frames in its range, and fails when there is none. -/
theorem memAllocateFrames_spec (s : State) (some_ : 0 < count) (bound : last < 2 ^ 32) :
    (∃ low s', FirstRun (isFree s.memory) count first (searchEnd s.totalFrames last) low ∧
      Taken s s' low count ∧
      memAllocateFrames s count first last = (low * memFrameSize % 2 ^ 32, s')) ∨
    ((∀ low, first ≤ low → low + count ≤ searchEnd s.totalFrames last →
        ¬ Run (isFree s.memory) low count) ∧
      memAllocateFrames s count first last = (0, s)) := by
  have ends := searchEnd_lt bound s.totalFrames
  cases found : find (isFree s.memory) count (searchEnd s.totalFrames last - first) first 0 with
  | some f =>
    obtain ⟨low, here, eq⟩ := find_some some_ found
    have within := here.within
    have from_ := here.from_
    rw [Nat.add_sub_cancel' (by omega)] at here
    have start : f + 1 - count = low := by omega
    refine .inl ⟨low, { s with memory := memMarkUsed s.memory f count }, here, ⟨rfl, ?_, ?_⟩, ?_⟩
    · intro g there
      rw [getEntry_markUsed (by omega) (by omega) there, start]
      refine if_congr ?_ rfl rfl
      omega
    · intro x outside
      refine markUsed_outside (by omega) (by omega) fun g low high => outside g ?_ ?_ <;> omega
    · simp only [memAllocateFrames, found, start]
  | none =>
    refine .inr ⟨fun low from_ within => ?_, by simp only [memAllocateFrames, found]⟩
    exact find_none some_ found low from_ (by omega)

/-- No frames: nothing is marked. -/
theorem memAllocateFrames_zero (s : State) (first last : Nat) :
    (memAllocateFrames s 0 first last).2 = s := by
  unfold memAllocateFrames
  dsimp only
  split <;> rfl

/-- Only entries of frames that exist change. -/
theorem allocateFrames_outside {s s' : State} {addr x : Nat} (bound : last < 2 ^ 32)
    (returned : memAllocateFrames s count first last = (addr, s'))
    (outside : ∀ g < s.totalFrames, g < 2 ^ 32 → x ≠ bitmapByte g) : s'.memory x = s.memory x := by
  rcases Nat.eq_zero_or_pos count with rfl | some_
  · have same : s' = s := by rw [← memAllocateFrames_zero s first last, returned]
    rw [same]
  · have total := searchEnd_le s.totalFrames last
    have ends := searchEnd_lt bound s.totalFrames
    rcases @memAllocateFrames_spec count first last s some_ bound with
      ⟨low, s1, here, taken, eq⟩ | ⟨-, eq⟩
    · obtain ⟨rfl, rfl⟩ := Prod.mk.inj (eq.symm.trans returned)
      have within := here.within
      exact taken.outside x fun g lower upper => outside g (by omega) (by omega)
    · obtain ⟨rfl, rfl⟩ := Prod.mk.inj (eq.symm.trans returned)
      rfl

/-! ## Release -/

/-- `for (; f < last; f++)`, over the `n` frames from `f` on. -/
def memReleaseFrom (m : Memory) (f : Nat) : Nat → Memory
  | 0 => m
  | n + 1 =>
    memReleaseFrom (if memBitmapGetEntry m f = memBitmapEntryUsed then
      memBitmapSetEntry m f memBitmapEntryFree else m) (f + 1) n

def memReleaseFrames (s : State) (addr count : Nat) : State :=
  let f := addr / memFrameSize
  if f ≥ s.totalFrames then s
  else
    let last := (f + count) % 2 ^ 32
    let last := if last > s.totalFrames then s.totalFrames % 2 ^ 32 else last
    { s with memory := memReleaseFrom s.memory f (last - f) }

theorem getEntry_releaseFrom (here : f + n ≤ 2 ^ 32) (there : g < 2 ^ 32) :
    memBitmapGetEntry (memReleaseFrom m f n) g =
      if (f ≤ g ∧ g < f + n) ∧ memBitmapGetEntry m g = memBitmapEntryUsed then memBitmapEntryFree
      else memBitmapGetEntry m g := by
  induction n generalizing m f with
  | zero =>
    rw [if_neg (by omega)]
    rfl
  | succ n ih =>
    rw [memReleaseFrom, ih (by omega)]
    have first : memBitmapGetEntry (if memBitmapGetEntry m f = memBitmapEntryUsed then
        memBitmapSetEntry m f memBitmapEntryFree else m) g =
        if g = f ∧ memBitmapGetEntry m g = memBitmapEntryUsed then memBitmapEntryFree
        else memBitmapGetEntry m g := by
      by_cases used : memBitmapGetEntry m f = memBitmapEntryUsed
      · rw [if_pos used, getEntry_setEntry _ (by omega) there]
        by_cases same : g = f
        · subst same
          rw [if_pos rfl, if_pos ⟨rfl, used⟩]
          rfl
        · rw [if_neg same, if_neg fun both => same both.1]
      · rw [if_neg used, if_neg]
        rintro ⟨rfl, used'⟩
        exact used used'
    rw [first]
    by_cases same : g = f
    · have past : ¬ (f + 1 ≤ g ∧ g < f + 1 + n) := by omega
      rw [if_neg fun both => past both.1]
      refine if_congr ⟨fun both => ⟨by omega, both.2⟩, fun both => ⟨same, both.2⟩⟩ rfl rfl
    · have kept : (if g = f ∧ memBitmapGetEntry m g = memBitmapEntryUsed then memBitmapEntryFree
          else memBitmapGetEntry m g) = memBitmapGetEntry m g := if_neg fun both => same both.1
      rw [kept]
      refine if_congr ⟨fun both => ⟨by omega, both.2⟩, fun both => ⟨by omega, both.2⟩⟩ rfl rfl

theorem releaseFrom_outside (here : f + n ≤ 2 ^ 32) {x : Nat}
    (outside : ∀ g, f ≤ g → g < f + n → x ≠ bitmapByte g) : memReleaseFrom m f n x = m x := by
  induction n generalizing m f with
  | zero => rfl
  | succ n ih =>
    rw [memReleaseFrom, ih (by omega) fun g low high => outside g (by omega) (by omega)]
    split
    · exact setEntry_outside _ (by omega) (outside f le_rfl (by omega))
    · rfl

/-- The end of the range that `memReleaseFrames` walks. -/
theorem memReleaseFrames_eq (s : State) (addr count : Nat) :
    ∃ n, addr / memFrameSize + n ≤ addr / memFrameSize + count ∧
      (n = 0 ∨ addr / memFrameSize + n ≤ s.totalFrames ∧ addr / memFrameSize + n < 2 ^ 32) ∧
      memReleaseFrames s addr count =
        { s with memory := memReleaseFrom s.memory (addr / memFrameSize) n } := by
  obtain ⟨f, f_eq⟩ : ∃ f, f = addr / memFrameSize := ⟨_, rfl⟩
  unfold memReleaseFrames
  rw [← f_eq]
  dsimp only
  split
  · exact ⟨0, by omega, .inl rfl, rfl⟩
  · obtain ⟨last, last_eq⟩ : ∃ last, last = (f + count) % 2 ^ 32 := ⟨_, rfl⟩
    have wrapped : last ≤ f + count := last_eq ▸ Nat.mod_le _ _
    have small : last < 2 ^ 32 := last_eq ▸ Nat.mod_lt _ (by decide)
    have reduced := Nat.mod_le s.totalFrames (2 ^ 32)
    rw [← last_eq]
    split
    · exact ⟨s.totalFrames % 2 ^ 32 - f, by omega, by omega, rfl⟩
    · exact ⟨last - f, by omega, by omega, rfl⟩

theorem getEntry_releaseFrames {addr : Nat} (words : addr < 2 ^ 32) (there : g < 2 ^ 32)
    (away : ¬ (addr / memFrameSize ≤ g ∧ g < addr / memFrameSize + count)) (s : State) :
    memBitmapGetEntry (memReleaseFrames s addr count).memory g = memBitmapGetEntry s.memory g := by
  obtain ⟨n, few, ends, eq⟩ := memReleaseFrames_eq s addr count
  have start : addr / memFrameSize < 2 ^ 32 := (Nat.div_le_self _ _).trans_lt words
  rw [eq]
  dsimp only
  rw [getEntry_releaseFrom (by omega) there, if_neg fun both => away ⟨both.1.1, by omega⟩]

theorem releaseFrames_outside {s : State} {addr x : Nat} (words : addr < 2 ^ 32)
    (outside : ∀ g < s.totalFrames, g < 2 ^ 32 → x ≠ bitmapByte g) :
    (memReleaseFrames s addr count).memory x = s.memory x := by
  obtain ⟨n, few, ends, eq⟩ := memReleaseFrames_eq s addr count
  have start : addr / memFrameSize < 2 ^ 32 := (Nat.div_le_self _ _).trans_lt words
  rw [eq]
  exact releaseFrom_outside (by omega) fun g low high => outside g (by omega) (by omega)

theorem releaseFrames_total (s : State) (addr count : Nat) :
    (memReleaseFrames s addr count).totalFrames = s.totalFrames := by
  obtain ⟨n, -, -, eq⟩ := memReleaseFrames_eq s addr count
  rw [eq]

end AtaKernel.Memory
