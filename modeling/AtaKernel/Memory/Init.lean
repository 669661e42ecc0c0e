import AtaKernel.Memory.Heap
import AtaKernel.Memory.Blocks

/-! `mem_init` of `drivers/mem.c`: the memory map of the BIOS gives the number of
frames, the bitmap is cleared and what is not available is reserved in it, with
the frames up to the end of the bitmap itself. Then the heap starts out empty. -/
namespace AtaKernel.Memory
open ByteMemory LinkedSegments

def memBiosMemMapRegionAvailable : UInt32 := 0x00000001

structure MemBiosMmapEntry where
  base : UInt64
  size : UInt64
  type : UInt32

/-- The entries before the one that closes the map. -/
def mapEntries (map : List MemBiosMmapEntry) : List MemBiosMmapEntry :=
  map.takeWhile fun e => e.size != 0 || e.base != 0 || e.type != 0

def maxAddr (entries : List MemBiosMmapEntry) : UInt64 :=
  entries.foldl (fun max_addr e => if e.base + e.size > max_addr then e.base + e.size else max_addr) 0

def holdsBitmap (total : UInt64) (e : MemBiosMmapEntry) : Bool :=
  e.type == memBiosMemMapRegionAvailable && e.base ≤ 0x00100000 &&
    e.base + e.size ≥ 0x00100000 + total * memBitmapBitsPerEntry

/-- `memset` of `string.c`. -/
def memset (m : Memory) (mem : Nat) (value : UInt8) : Nat → Memory
  | 0 => m
  | count + 1 => store8 (memset m mem value count) (mem + count) value

/-- `for (; first_frame <= last_frame; first_frame++)`, `n` frames from `f` on. The result tells
whether the entries could be read back. -/
def memReserveFrom (m : Memory) (f : Nat) : Nat → Bool × Memory
  | 0 => (true, m)
  | n + 1 =>
    let m := memBitmapSetEntry m (f % 2 ^ 32) memBitmapEntryReserved
    if memBitmapGetEntry m (f % 2 ^ 32) ≠ memBitmapEntryReserved then (false, m)
    else memReserveFrom m (f + 1) n

def memReserveRegions : List MemBiosMmapEntry → Memory → Bool × Memory
  | [], m => (true, m)
  | e :: es, m =>
    if e.type = memBiosMemMapRegionAvailable then memReserveRegions es m
    else
      let first := e.base.toNat / memFrameSize
      let last := (e.base + e.size).toNat / memFrameSize
      match memReserveFrom m first (last + 1 - first) with
      | (false, m) => (false, m)
      | (true, m) => memReserveRegions es m

def memInit (memHead : Nat) (map : List MemBiosMmapEntry) (s : State) : Int × State :=
  let entries := mapEntries map
  let total := maxAddr entries / 4096
  if !entries.any (holdsBitmap total) then (-1, { s with totalFrames := total.toNat })
  else
    let m := memset s.memory memBitmapAddr 0 ((total * memBitmapBitsPerEntry).toNat % 2 ^ 32)
    match memReserveRegions entries m with
    | (false, m) => (-1, ⟨m, total.toNat⟩)
    | (true, m) =>
      let last := (memBitmapAddr + total.toNat / memBitmapEntriesPerByte) / memFrameSize
      match memReserveFrom m 0 (last + 1) with
      | (false, m) => (-1, ⟨m, total.toNat⟩)
      | (true, m) => (0, ⟨kallocInit memHead m, total.toNat⟩)

/-- Where the linker put the static `mem_head`: with the kernel, below the bitmap. -/
structure MemHead where
  addr : Nat
  positive : 0 < addr
  below : addr + entryBytes ≤ memBitmapAddr

variable {m : Memory} {s s' : State} {f g n : Nat} {map : List MemBiosMmapEntry} {head : MemHead}

/-! ## The loops -/

theorem memset_inside (value : UInt8) {mem count x : Nat} (fits : mem + count ≤ 2 ^ 32) (low : mem ≤ x)
    (high : x < mem + count) : memset m mem value count x = value := by
  induction count with
  | zero => omega
  | succ count ih =>
    have here : cell (mem + count) = mem + count := cell_low (by omega)
    rw [memset, store8, here]
    by_cases last : x = mem + count
    · rw [last, Function.update_self]
    · rw [Function.update_of_ne last, ih (by omega) (by omega)]

/-- An entry reads back as it was set, and the loop goes on. -/
theorem memReserveFrom_succ (m : Memory) (f n : Nat) : memReserveFrom m f (n + 1) =
    memReserveFrom (memBitmapSetEntry m (f % 2 ^ 32) memBitmapEntryReserved) (f + 1) n := by
  have index : f % 2 ^ 32 < 2 ^ 32 := Nat.mod_lt _ (by decide)
  have back := @getEntry_setEntry m _ _ memBitmapEntryReserved index index
  rw [if_pos rfl] at back
  rw [memReserveFrom]
  exact if_neg (not_not.mpr back)

theorem memReserveFrom_ok (m : Memory) (f n : Nat) : (memReserveFrom m f n).1 = true := by
  induction n generalizing m f with
  | zero => rfl
  | succ n ih =>
    rw [memReserveFrom_succ]
    exact ih _ _

theorem getEntry_reserveFrom (there : g < 2 ^ 32) :
    memBitmapGetEntry (memReserveFrom m f n).2 g =
      if ∃ i < n, g = (f + i) % 2 ^ 32 then memBitmapEntryReserved else memBitmapGetEntry m g := by
  induction n generalizing m f with
  | zero =>
    rw [if_neg fun ⟨i, low, _⟩ => absurd low (Nat.not_lt_zero i)]
    rfl
  | succ n ih =>
    have index : f % 2 ^ 32 < 2 ^ 32 := Nat.mod_lt _ (by decide)
    rw [memReserveFrom_succ, ih, getEntry_setEntry _ index there]
    by_cases later : ∃ i < n, g = (f + 1 + i) % 2 ^ 32
    · obtain ⟨i, low, eq⟩ := later
      rw [if_pos ⟨i, low, eq⟩, if_pos ⟨i + 1, by omega, by rw [eq, Nat.add_right_comm, Nat.add_assoc]⟩]
    · rw [if_neg later]
      by_cases here : g = f % 2 ^ 32
      · rw [if_pos here, if_pos ⟨0, by omega, here⟩]
        rfl
      · rw [if_neg here, if_neg]
        rintro ⟨i, low, eq⟩
        cases i with
        | zero => exact here eq
        | succ i => exact later ⟨i, by omega, by rw [eq, Nat.add_right_comm, Nat.add_assoc]⟩

theorem memReserveRegions_ok (es : List MemBiosMmapEntry) (m : Memory) :
    (memReserveRegions es m).1 = true := by
  induction es generalizing m with
  | nil => rfl
  | cons e es ih =>
    rw [memReserveRegions]
    split
    · exact ih m
    · have ok := memReserveFrom_ok m (e.base.toNat / memFrameSize)
        ((e.base + e.size).toNat / memFrameSize + 1 - e.base.toNat / memFrameSize)
      dsimp only
      split
      · next failed => rw [failed] at ok; cases ok
      · exact ih _

theorem memReserveRegions_available {es : List MemBiosMmapEntry}
    (available : ∀ e ∈ es, e.type = memBiosMemMapRegionAvailable) :
    memReserveRegions es m = (true, m) := by
  induction es with
  | nil => rfl
  | cons e es ih =>
    rw [memReserveRegions, if_pos (available e List.mem_cons_self)]
    exact ih fun d inside => available d (List.mem_cons_of_mem e inside)

/-! ## The state after `mem_init` -/

/-- Only the header of `mem_head` is written. -/
theorem kallocInit_edits (head : MemHead) (m : Memory) :
    ∃ view, Edits {head.addr} m (kallocInit head.addr m) view ∧ view head.addr = ⟨0, 0, 0, 0⟩ := by
  have separated : Separated {head.addr} := Set.pairwise_singleton _ _
  have inside : head.addr ∈ ({head.addr} : Set Nat) := rfl
  have one := (Edits.refl {head.addr} m).setNext separated inside (show 0 < 2 ^ 32 by decide)
  have two := one.setPrev separated inside (show 0 < 2 ^ 32 by decide)
  have three := two.setSize separated inside (show 0 < 2 ^ 32 by decide)
  have four := three.setFlags separated inside (flags_lt .null)
  refine ⟨_, four, ?_⟩
  simp only [setData_self, setPrev_self, setNext_self]
  rfl

theorem kallocInit_outside {x : Nat} (above : memBitmapAddr ≤ x) : kallocInit head.addr m x = m x := by
  obtain ⟨view, edits, -⟩ := kallocInit_edits head m
  apply edits.outside x
  rintro _ rfl i low rfl
  have below := head.below
  unfold cell entryBytes memBitmapAddr at *
  omega

theorem kallocInit_getEntry (there : f < 2 ^ 32) :
    memBitmapGetEntry (kallocInit head.addr m) f = memBitmapGetEntry m f :=
  getEntry_congr there (kallocInit_outside (Nat.le_add_right _ _))

/-- The frames below the bitmap, and its own. -/
def Kept (s : State) (f : Nat) : Prop :=
  f < memKernelFirstFrame ∨ ∃ g < s.totalFrames, g < 2 ^ 32 ∧ bitmapByte g / memFrameSize = f

/-- The heap is as `kalloc_init` leaves it, and nobody gets the frames below the end of the bitmap. -/
structure Started (head : MemHead) (s : State) : Prop where
  entry : header s.memory head.addr = ⟨0, 0, 0, 0⟩
  reserved : ∀ f, Kept s f → memBitmapGetEntry s.memory f = memBitmapEntryReserved

/-- The reserved bitmap that `mem_init` builds. -/
def initialBitmap (map : List MemBiosMmapEntry) (m : Memory) : Memory :=
  let total := maxAddr (mapEntries map) / 4096
  (memReserveFrom (memReserveRegions (mapEntries map)
    (memset m memBitmapAddr 0 ((total * memBitmapBitsPerEntry).toNat % 2 ^ 32))).2 0
    ((memBitmapAddr + total.toNat / memBitmapEntriesPerByte) / memFrameSize + 1)).2

/-- `mem_init` succeeds if the bitmap fits into a region; the other checks cannot fail. -/
theorem memInit_eq (memHead : Nat) (map : List MemBiosMmapEntry) (s : State) :
    memInit memHead map s =
      if (mapEntries map).any (holdsBitmap (maxAddr (mapEntries map) / 4096)) then
        (0, ⟨kallocInit memHead (initialBitmap map s.memory),
          (maxAddr (mapEntries map) / 4096).toNat⟩)
      else (-1, { s with totalFrames := (maxAddr (mapEntries map) / 4096).toNat }) := by
  unfold memInit
  dsimp only
  cases holds : (mapEntries map).any (holdsBitmap (maxAddr (mapEntries map) / 4096)) with
  | false => rfl
  | true =>
    rw [if_neg (by decide), if_pos rfl]
    obtain ⟨m, m_eq⟩ : ∃ m, m = memset s.memory memBitmapAddr 0
      ((maxAddr (mapEntries map) / 4096 * memBitmapBitsPerEntry).toNat % 2 ^ 32) := ⟨_, rfl⟩
    have regions : memReserveRegions (mapEntries map) m =
        (true, (memReserveRegions (mapEntries map) m).2) :=
      Prod.ext (memReserveRegions_ok _ m) rfl
    have last : memReserveFrom (memReserveRegions (mapEntries map) m).2 0 ((memBitmapAddr +
        (maxAddr (mapEntries map) / 4096).toNat / memBitmapEntriesPerByte) / memFrameSize + 1) =
        (true, _) :=
      Prod.ext (memReserveFrom_ok _ _ _) rfl
    rw [← m_eq, regions]
    dsimp only
    rw [last, m_eq]
    rfl

theorem Kept.congr (kept : Kept s' f) (total : s'.totalFrames = s.totalFrames) : Kept s f := by
  unfold Kept at kept ⊢
  rwa [← total]

/-- The last frame of the bitmap. -/
def bitmapLast (s : State) : Nat :=
  (memBitmapAddr + s.totalFrames / memBitmapEntriesPerByte) / memFrameSize

theorem Kept.le_bitmapLast (kept : Kept s f) : f ≤ bitmapLast s := by
  rcases kept with below | ⟨g, there, -, rfl⟩
  · refine below.le.trans (Nat.div_le_div_right (Nat.le_add_right _ _))
  · exact Nat.div_le_div_right (Nat.add_le_add_left (Nat.div_le_div_right there.le) _)

theorem reserved_of_memInit (returned : memInit head.addr map s = (0, s')) (small : f < 2 ^ 32)
    (low : f ≤ bitmapLast s') : memBitmapGetEntry s'.memory f = memBitmapEntryReserved := by
  rw [memInit_eq] at returned
  split at returned
  · cases returned
    rw [kallocInit_getEntry small]
    unfold initialBitmap
    dsimp only
    rw [getEntry_reserveFrom small, if_pos]
    exact ⟨f, Nat.lt_succ_of_le low, by rw [Nat.zero_add, Nat.mod_eq_of_lt small]⟩
  · have := congrArg Prod.fst returned
    cases this

theorem started_of_memInit (returned : memInit head.addr map s = (0, s')) : Started head s' where
  entry := by
    rw [memInit_eq] at returned
    split at returned
    · cases returned
      obtain ⟨view, edits, clear⟩ := kallocInit_edits head (initialBitmap map s.memory)
      exact (edits.agree head.addr rfl).trans clear
    · have := congrArg Prod.fst returned
      cases this
  reserved f kept := by
    refine reserved_of_memInit returned ?_ kept.le_bitmapLast
    rcases kept with below | ⟨g, -, small, rfl⟩
    · exact below.trans (by decide)
    · unfold bitmapByte memBitmapAddr memBitmapEntriesPerByte memFrameSize
      omega

/-- Where all regions are available, the frames behind the bitmap are free. -/
theorem free_of_memInit (returned : memInit head.addr map s = (0, s'))
    (available : ∀ e ∈ mapEntries map, e.type = memBiosMemMapRegionAvailable)
    (small : s'.totalFrames < 2 ^ 30) (there : f < s'.totalFrames)
    (behind : bitmapLast s' < f) :
    isFree s'.memory f = true := by
  rw [memInit_eq] at returned
  split at returned
  · cases returned
    obtain ⟨total, total_eq⟩ : ∃ total, total = maxAddr (mapEntries map) / 4096 := ⟨_, rfl⟩
    unfold isFree
    rw [kallocInit_getEntry (by omega)]
    unfold initialBitmap
    unfold bitmapLast at behind
    dsimp only at small there behind ⊢
    rw [← total_eq] at small there behind ⊢
    rw [getEntry_reserveFrom (by omega), if_neg, memReserveRegions_available available]
    · refine beq_of_eq (PackedTable.entry_of_zero ?_)
      have doubled : (total * memBitmapBitsPerEntry).toNat % 2 ^ 32 = total.toNat * 2 := by
        rw [UInt64.toNat_mul]
        change total.toNat * 2 % 2 ^ 64 % 2 ^ 32 = total.toNat * 2
        omega
      have address : cell (memBitmapAddr + f / 4) = memBitmapAddr + f / 4 :=
        cell_bitmapByte (show f < 2 ^ 32 by omega)
      rw [doubled, load8, address]
      unfold memBitmapAddr
      exact memset_inside 0 (by omega) (by omega) (by omega)
    · rintro ⟨i, low, eq⟩
      rw [Nat.zero_add] at eq
      have := Nat.mod_le i (2 ^ 32)
      omega
  · have := congrArg Prod.fst returned
    cases this

/-! ## A machine of three megabytes -/

/-- A place in the kernel's image, which starts at 0x1400. -/
def lowHead : MemHead := ⟨0x2000, by decide, by decide⟩

def threeMegabytes : List MemBiosMmapEntry := [⟨0, 0x300000, memBiosMemMapRegionAvailable⟩]

/-- The 768 frames that there are end where the kernel's space does. -/
theorem memInit_threeMegabytes (memHead : Nat) (s : State) :
    ∃ m, memInit memHead threeMegabytes s = (0, ⟨m, 768⟩) := by
  refine ⟨kallocInit memHead (initialBitmap threeMegabytes s.memory), ?_⟩
  rw [memInit_eq, if_pos (by decide)]
  rfl

theorem available_threeMegabytes :
    ∀ e ∈ mapEntries threeMegabytes, e.type = memBiosMemMapRegionAvailable := by
  decide

end AtaKernel.Memory
