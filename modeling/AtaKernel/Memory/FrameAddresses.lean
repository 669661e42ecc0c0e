import AtaKernel.Memory.FrameRequests
import AtaKernel.Memory.MemoryMap

/-! Frames and the addresses that stand for them. `mem_init` counts frames in 64
bits, and the search goes through all of them, but what it returns is a product of 32
bits: from 4G on the address is that of another frame. The owner of such a range then
gives back frames that were never his. -/
namespace AtaKernel.Memory
open ByteMemory RunSearch

/-- If the call marks frames, its result is the address of the first of them, and releasing that
address gives the bitmap back. -/
def NamesFrames (s : State) (count first last : Nat) : Prop :=
  ∀ addr s', memAllocateFrames s count first last = (addr, s') → (obtained s s').Nonempty →
    addr ≠ 0 ∧ IsLeast (obtained s s') (addr / memFrameSize) ∧
      ∀ g < s.totalFrames,
        memBitmapGetEntry (memReleaseFrames s' addr count).memory g = memBitmapGetEntry s.memory g

/-- A call of the allocator, by the heap or by another owner, or anything else that the machine does,
short of storing into the bitmap. -/
inductive MachineStep : Frames → Frames → Prop
  | call {o o' : Frames} : FrameStep o o' → MachineStep o o'
  | other {o : Frames} {m : Memory}
      (apart : ∀ f < o.state.totalFrames, m (bitmapByte f) = o.state.memory (bitmapByte f)) :
      MachineStep o { o with state := { o.state with memory := m } }

inductive MachineReachable (start : Frames) : Frames → Prop
  | start : MachineReachable start start
  | next {o o' : Frames} : MachineReachable start o → MachineStep o o' → MachineReachable start o'

variable {o o' : Frames} {s s' : State} {map : List MemBiosMmapEntry} {head : MemHead}
  {addr count first last f g low total : Nat}

/-! ## One call -/

theorem obtained_eq (small : s.totalFrames < 2 ^ 30)
    (found : FirstRun (isFree s.memory) count first (searchEnd s.totalFrames last) low)
    (taken : Taken s s' low count) : obtained s s' = {f | low ≤ f ∧ f < low + count} := by
  have ends := found.within.trans (searchEnd_le s.totalFrames last)
  refine Set.ext fun f => ⟨?_, ?_⟩
  · rintro ⟨-, word, free, used⟩
    by_contra outside
    have kept := (taken.status f word).trans (if_neg outside)
    exact used_ne_free (used.symm.trans (kept.trans (isFree_iff.mp free)))
  · rintro ⟨lower, upper⟩
    refine ⟨by omega, by omega, isFree_iff.mpr (free_of_run found.run lower upper), ?_⟩
    rw [taken.status f (by omega), if_pos ⟨lower, upper⟩]

/-- A range that starts below 4G is named by its address. -/
theorem namesFrames_of_low (small : s.totalFrames < 2 ^ 30) (some_ : 1 ≤ count) (words : last < 2 ^ 32)
    (reach : ∀ f < s.totalFrames, memBitmapGetEntry s.memory f = memBitmapEntryFree → 0 < f ∧ f < 2 ^ 20) :
    NamesFrames s count first last := by
  rintro addr s' returned ⟨g, marked⟩
  rcases @memAllocateFrames_spec count first last s some_ words with ⟨low, s'', found, taken, eq⟩ | ⟨-, eq⟩
  · obtain ⟨rfl, rfl⟩ := Prod.mk.inj (eq.symm.trans returned)
    have ends := found.within.trans (searchEnd_le s.totalFrames last)
    obtain ⟨positive, below⟩ := reach low (by omega) (free_of_run found.run le_rfl (by omega))
    have whole : low * memFrameSize % 2 ^ 32 = low * memFrameSize := by
      unfold memFrameSize
      omega
    have place : low * memFrameSize / memFrameSize = low := Nat.mul_div_cancel _ (by decide)
    rw [whole, place, obtained_eq small found taken]
    refine ⟨Nat.mul_ne_zero positive.ne' (by decide), ⟨⟨le_rfl, by omega⟩, fun f inside => inside.1⟩,
      fun g there => ?_⟩
    have total := taken.total
    have released := @release_exact s'' (low * memFrameSize) count (by omega) (by omega) g (by omega)
    rw [released, place, taken.status g (by omega)]
    by_cases inside : low ≤ g ∧ g < low + count
    · rw [if_pos inside, if_pos ⟨inside.1, by omega, rfl⟩, free_of_run found.run inside.1 inside.2]
    · rw [if_neg inside, if_neg]
      omega
  · obtain ⟨-, rfl⟩ := Prod.mk.inj (eq.symm.trans returned)
    obtain ⟨-, -, free, used⟩ := marked
    exact absurd (used.symm.trans (isFree_iff.mp free)) used_ne_free

/-- A free frame from 4G on can be asked for, and no address stands for it. -/
theorem not_namesFrames_of_high (small : s.totalFrames < 2 ^ 30) (high : 2 ^ 20 ≤ f)
    (there : f < s.totalFrames) (free : memBitmapGetEntry s.memory f = memBitmapEntryFree) :
    ¬ NamesFrames s 1 f 0 := by
  intro names
  have ends : searchEnd s.totalFrames 0 = s.totalFrames := by
    unfold searchEnd
    rw [if_pos (.inl rfl), Nat.mod_eq_of_lt (by omega)]
  have run : Run (isFree s.memory) f 1 := by
    intro i few
    rw [Nat.lt_one_iff.mp few]
    exact isFree_iff.mpr free
  rcases @memAllocateFrames_spec 1 f 0 s one_pos (by decide) with ⟨low, s', found, taken, eq⟩ | ⟨none_, -⟩
  · have from_ := found.from_
    have marked := obtained_eq small found taken
    have least := (names _ s' eq ⟨low, marked.superset ⟨le_rfl, by omega⟩⟩).2.1.1
    rw [marked] at least
    have lower := least.1
    unfold memFrameSize at lower
    omega
  · exact none_ f le_rfl (by omega) run

/-! ## Runs -/

/-- The invariant where no frame from 4G on is ever free: what is live is in use, apart, and below 4G. -/
structure Addressed (total : Nat) (o : Frames) : Prop where
  count : o.state.totalFrames = total
  zero_ : memBitmapGetEntry o.state.memory 0 = memBitmapEntryReserved
  high : ∀ f, 2 ^ 20 ≤ f → f < total → memBitmapGetEntry o.state.memory f = memBitmapEntryReserved
  held : ∀ r ∈ o.live, 0 < r.2 ∧ ∀ f ∈ frameRange r,
    f < total ∧ memBitmapGetEntry o.state.memory f = memBitmapEntryUsed
  apart : o.live.Pairwise fun r r' => Disjoint (frameRange r) (frameRange r')

theorem Addressed.reach (addressed : Addressed total o) (there : f < total)
    (free : memBitmapGetEntry o.state.memory f = memBitmapEntryFree) : 0 < f ∧ f < 2 ^ 20 := by
  constructor
  · refine Nat.pos_of_ne_zero ?_
    rintro rfl
    exact free_ne_reserved (free.symm.trans addressed.zero_)
  · by_contra above
    exact free_ne_reserved (free.symm.trans (addressed.high f (not_lt.mp above) there))

/-- Ranges that are apart have different addresses. -/
theorem Addressed.distinct (addressed : Addressed total o) : (o.live.map Prod.fst).Nodup := by
  refine List.pairwise_map.mpr (addressed.apart.imp_of_mem ?_)
  intro r r' inside inside' disjoint same
  have first : ∀ r ∈ o.live, r.1 / memFrameSize ∈ frameRange r := fun r inside =>
    ⟨le_rfl, Nat.lt_add_of_pos_right (addressed.held r inside).1⟩
  refine Set.disjoint_left.mp disjoint (first r inside) ?_
  rw [same]
  exact first r' inside'

/-- What changes no frame that is reserved, and takes none that is in use, keeps the invariant. -/
theorem Addressed.keep {live : List (Nat × Nat)} {t : State} (addressed : Addressed total o)
    (positive : 0 < total) (same : t.totalFrames = total)
    (reserved : ∀ f < total, memBitmapGetEntry o.state.memory f = memBitmapEntryReserved →
      memBitmapGetEntry t.memory f = memBitmapEntryReserved)
    (held : ∀ r ∈ live, 0 < r.2 ∧ ∀ f ∈ frameRange r,
      f < total ∧ memBitmapGetEntry t.memory f = memBitmapEntryUsed)
    (apart : live.Pairwise fun r r' => Disjoint (frameRange r) (frameRange r')) :
    Addressed total ⟨t, live⟩ :=
  ⟨same, reserved 0 positive addressed.zero_,
    fun f above there => reserved f there (addressed.high f above there), held, apart⟩

theorem Addressed.allocated (addressed : Addressed total o) (small : total < 2 ^ 30) (some_ : 1 ≤ count)
    (found : FirstRun (isFree o.state.memory) count first (searchEnd o.state.totalFrames last) low)
    (taken : Taken o.state s' low count) :
    low * memFrameSize % 2 ^ 32 ≠ 0 ∧
      Addressed total ⟨s', (low * memFrameSize % 2 ^ 32, count) :: o.live⟩ := by
  have ends := found.within.trans (searchEnd_le o.state.totalFrames last)
  rw [addressed.count] at ends
  have free := fun (f : Nat) lower upper => @free_of_run o.state.memory f count low found.run lower upper
  obtain ⟨positive, below⟩ := addressed.reach (show low < total by omega) (free low le_rfl (by omega))
  have whole : low * memFrameSize % 2 ^ 32 = low * memFrameSize := by
    unfold memFrameSize
    omega
  have range : frameRange (low * memFrameSize, count) = {f | low ≤ f ∧ f < low + count} := by
    unfold frameRange framesAt
    rw [Nat.mul_div_cancel _ (by decide : 0 < memFrameSize)]
  have kept : ∀ f < total, memBitmapGetEntry o.state.memory f ≠ memBitmapEntryFree →
      memBitmapGetEntry s'.memory f = memBitmapGetEntry o.state.memory f := by
    intro f there busy
    rw [taken.status f (by omega), if_neg]
    exact fun inside => busy (free f inside.1 inside.2)
  rw [whole]
  refine ⟨Nat.mul_ne_zero positive.ne' (by decide), addressed.keep (by omega)
    (taken.total.trans addressed.count) (fun f there reserved => ?_) (fun r inside => ?_) ?_⟩
  · rw [kept f there (reserved.symm ▸ free_ne_reserved.symm), reserved]
  · rcases List.mem_cons.mp inside with rfl | old
    · refine ⟨some_, fun f inside => ?_⟩
      obtain ⟨lower, upper⟩ := range.subset inside
      exact ⟨by omega, by rw [taken.status f (by omega), if_pos ⟨lower, upper⟩]⟩
    · refine ⟨(addressed.held r old).1, fun f inside => ?_⟩
      obtain ⟨there, used⟩ := (addressed.held r old).2 f inside
      exact ⟨there, by rw [kept f there (used.symm ▸ used_ne_free), used]⟩
  · refine List.pairwise_cons.mpr ⟨fun r old => ?_, addressed.apart⟩
    rw [range, Set.disjoint_left]
    rintro f ⟨lower, upper⟩ inside
    have used := ((addressed.held r old).2 f inside).2
    exact used_ne_free (used.symm.trans (free f lower upper))

theorem Addressed.released (addressed : Addressed total o) (small : total < 2 ^ 30)
    (own : (addr, count) ∈ o.live) :
    Addressed total ⟨memReleaseFrames o.state addr count, o.live.erase (addr, count)⟩ := by
  obtain ⟨some_, range⟩ := addressed.held _ own
  dsimp only at some_
  have last_in : addr / memFrameSize + (count - 1) ∈ frameRange (addr, count) :=
    ⟨Nat.le_add_right _ _, Nat.add_lt_add_left (Nat.sub_one_lt some_.ne') _⟩
  have ends := (range _ last_in).1
  have same := addressed.count
  have status : ∀ f < total, f ∉ frameRange (addr, count) ∨
      memBitmapGetEntry o.state.memory f ≠ memBitmapEntryUsed →
        memBitmapGetEntry (memReleaseFrames o.state addr count).memory f =
          memBitmapGetEntry o.state.memory f := by
    intro f there either
    rw [@release_exact o.state addr count (by omega) (by omega) f (by omega), if_neg]
    rintro ⟨lower, upper, used⟩
    exact either.elim (fun outside => outside ⟨lower, by dsimp only; omega⟩) fun busy => busy used
  have order := List.perm_cons_erase own
  have apart := List.pairwise_cons.mp ((order.pairwise_iff fun apart => apart.symm).mp addressed.apart)
  refine addressed.keep ((Nat.zero_le _).trans_lt ends) ((releaseFrames_total _ _ _).trans same)
    (fun f there reserved => ?_) (fun r inside => ?_) apart.2
  · rw [status f there (.inr (reserved.symm ▸ used_ne_reserved.symm)), reserved]
  · obtain ⟨some_, held⟩ := addressed.held r (List.mem_of_mem_erase inside)
    refine ⟨some_, fun f here => ?_⟩
    obtain ⟨there, used⟩ := held f here
    exact ⟨there, by rw [status f there (.inl (Set.disjoint_right.mp (apart.1 r inside) here)), used]⟩

theorem Addressed.step (addressed : Addressed total o) (small : total < 2 ^ 30) (positive : 0 < total)
    (step : MachineStep o o') : Addressed total o' := by
  cases step with
  | other apart =>
    have same : ∀ f < total, memBitmapGetEntry _ f = memBitmapGetEntry o.state.memory f := fun f there =>
      getEntry_congr (by omega) (apart f (addressed.count.symm ▸ there))
    refine addressed.keep positive addressed.count (fun f there reserved => (same f there).trans reserved)
      (fun r inside => ?_) addressed.apart
    obtain ⟨some_, held⟩ := addressed.held r inside
    exact ⟨some_, fun f here => ⟨(held f here).1, (same f (held f here).1).trans (held f here).2⟩⟩
  | call step =>
    cases step with
    | release own => exact addressed.released small own
    | @allocate count first last addr s' some_ words returned =>
      rcases @memAllocateFrames_spec count first last o.state some_ words.2.2 with
        ⟨low, s'', found, taken, eq⟩ | ⟨-, eq⟩
      · obtain ⟨rfl, rfl⟩ := Prod.mk.inj (eq.symm.trans returned)
        obtain ⟨nonzero, addressed'⟩ := addressed.allocated small some_ found taken
        rw [if_neg nonzero]
        exact addressed'
      · obtain ⟨rfl, rfl⟩ := Prod.mk.inj (eq.symm.trans returned)
        rw [if_pos rfl]
        exact addressed

theorem addressed_reachable (small : total < 2 ^ 30) (positive : 0 < total) (start : Addressed total o)
    (reach : MachineReachable o o') : Addressed total o' := by
  induction reach with
  | start => exact start
  | next _ step ih => exact ih.step small positive step

/-! ## The memory map -/

/-- The bitmap ends far below 4G. -/
theorem mapBitmapLast_lt {es : List MemBiosMmapEntry} (below : Below42 es) : mapBitmapLast es < 2 ^ 20 := by
  have few := mapFrames_lt below
  unfold mapBitmapLast memBitmapAddr memBitmapEntriesPerByte memFrameSize
  omega

/-- From 4G on a frame is free after `mem_init` unless the map reserves it. -/
theorem high_of_memInit (below : Below42 (mapEntries map)) (returned : memInit head.addr map s = (0, s'))
    (high : 2 ^ 20 ≤ f) (there : f < mapFrames (mapEntries map)) :
    memBitmapGetEntry s'.memory f =
      if ∃ e ∈ mapEntries map, e.Reserves f then memBitmapEntryReserved else memBitmapEntryFree := by
  have early := mapBitmapLast_lt below
  rw [getEntry_memInit below returned there.le]
  exact if_congr (or_iff_right (by omega)) rfl rfl

/-- After `mem_init`, whatever is called, marked ranges have addresses of their own, if and only if the
map reserves every frame from 4G on. -/
theorem addresses_name_frames_iff (below : Below42 (mapEntries map))
    (returned : memInit head.addr map s = (0, s')) :
    (∀ o, MachineReachable ⟨s', []⟩ o → (o.live.map Prod.fst).Nodup ∧
      ∀ count first last, 1 ≤ count → count < 2 ^ 32 → first < 2 ^ 32 → last < 2 ^ 32 →
        NamesFrames o.state count first last) ↔
    ∀ f, 2 ^ 20 ≤ f → f < mapFrames (mapEntries map) → ∃ e ∈ mapEntries map, e.Reserves f := by
  have small := mapFrames_lt below
  obtain ⟨⟨d, inside, holds⟩, state⟩ := memInit_success below returned
  have count : s'.totalFrames = mapFrames (mapEntries map) := congrArg State.totalFrames state
  have positive : 0 < mapFrames (mapEntries map) :=
    Nat.lt_of_lt_of_le (by decide) (mapFrames_ge inside holds)
  constructor
  · intro all f high there
    by_contra reserves
    have free := high_of_memInit below returned high there
    rw [if_neg reserves] at free
    exact not_namesFrames_of_high (count.symm ▸ small) high (count.symm ▸ there) free
      ((all _ .start).2 1 f 0 le_rfl (by decide) (by omega) (by decide))
  · intro reserves o reach
    have start : Addressed (mapFrames (mapEntries map)) ⟨s', []⟩ := by
      refine ⟨count, ?_, fun f high there => ?_, fun _ none_ => (List.not_mem_nil none_).elim, .nil⟩
      · rw [getEntry_memInit below returned (Nat.zero_le _), if_pos (.inl (Nat.zero_le _))]
      · rw [high_of_memInit below returned high there, if_pos (reserves f high there)]
    have addressed := addressed_reachable small positive start reach
    refine ⟨addressed.distinct, fun count first last some_ _ _ word => ?_⟩
    refine namesFrames_of_low (addressed.count.symm ▸ small) some_ word fun f there free => ?_
    exact addressed.reach (addressed.count ▸ there) free

theorem addresses_name_frames_iff_threeMegabytes : ∃ s' : State,
    memInit lowHead.addr threeMegabytes ⟨fun _ => 0, 0⟩ = (0, s') ∧ NamesFrames s' 1 256 0 := by
  obtain ⟨m, returned⟩ := memInit_threeMegabytes lowHead.addr ⟨fun _ => 0, 0⟩
  have below : Below42 (mapEntries threeMegabytes) := by
    unfold Below42
    decide
  have frames : mapFrames (mapEntries threeMegabytes) = 768 := by decide
  have low : ∀ f, 2 ^ 20 ≤ f → f < mapFrames (mapEntries threeMegabytes) →
      ∃ e ∈ mapEntries threeMegabytes, e.Reserves f := by
    rw [frames]
    omega
  have names := ((addresses_name_frames_iff below returned).mpr low ⟨⟨m, 768⟩, []⟩ .start).2
  exact ⟨_, returned, names 1 256 0 le_rfl (by decide) (by decide) (by decide)⟩

/-- Five gigabytes of available memory. -/
def fiveGigabytes : List MemBiosMmapEntry :=
  [⟨0, 0x140000000, memBiosMemMapRegionAvailable⟩, ⟨0, 0, 0⟩]

/-- The first frame at 4G is marked, and the result says that nothing was found. -/
theorem frame_at_4G_unnamed : ∃ s' : State, Below42 (mapEntries fiveGigabytes) ∧
    memInit lowHead.addr fiveGigabytes ⟨fun _ => 0, 0⟩ = (0, s') ∧
      ¬ NamesFrames s' 1 (2 ^ 20) 0 := by
  have below : Below42 (mapEntries fiveGigabytes) := by
    unfold Below42
    decide
  obtain ⟨s', returned⟩ : ∃ s', memInit lowHead.addr fiveGigabytes ⟨fun _ => 0, 0⟩ = (0, s') := by
    rw [memInit_eq, if_pos (by decide)]
    exact ⟨_, rfl⟩
  have frames : mapFrames (mapEntries fiveGigabytes) = 0x140000 := by decide
  have count : s'.totalFrames = 0x140000 :=
    (congrArg State.totalFrames (memInit_success below returned).2).trans frames
  have there : (2 ^ 20 : Nat) < mapFrames (mapEntries fiveGigabytes) := frames.symm ▸ by decide
  have free := high_of_memInit below returned le_rfl there
  rw [if_neg (by decide)] at free
  refine ⟨s', below, returned, not_namesFrames_of_high ?_ le_rfl ?_ free⟩
  · exact count.symm ▸ by decide
  · exact count.symm ▸ by decide

end AtaKernel.Memory
