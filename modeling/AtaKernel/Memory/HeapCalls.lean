import AtaKernel.Memory.ListEdits

/-! What one call of `kalloc` or `kfree` does to the blocks. The list is walked
from its first entry; the call takes the first block that fits, or adds one at
the end, or leaves everything as it was. -/
namespace AtaKernel.Memory
open ByteMemory LinkedSegments RunSearch Block

variable {s s' : State} {m : Memory} {b c e f : Block} {units ptr fuel : Nat}
  {pre post done bs : List Block}

/-! ## Walking -/

theorem Linked.size_eq (linked : Linked m (pre ++ b :: post)) : entrySize m b.addr = b.size :=
  congrArg Extent.size linked.extent_eq

theorem Linked.flags_eq (linked : Linked m (pre ++ b :: post)) :
    entryFlags m b.addr = b.status.flags :=
  congrArg Extent.flags linked.extent_eq

/-- A block that does not fit is passed over. -/
theorem kallocFrom_unfit (linked : Linked s.memory (pre ++ b :: c :: post))
    (layout : Layout (pre ++ b :: c :: post)) (unfit : ¬ Fits units b) :
    kallocFrom units (fuel + 1) s b.addr = kallocFrom units fuel s c.addr := by
  have nonzero := (layout.bounds c (by simp)).1.ne'
  have small : b.status = .free → b.size < units := fun free => by
    by_contra large
    exact unfit ⟨free, not_lt.mp large⟩
  rw [kallocFrom]
  simp only [linked.size_eq, linked.flags_eq, flags_eq_free, linked.next_eq, firstOf_cons]
  rw [if_neg, if_neg, if_pos nonzero]
  · exact fun both => absurd (small both.1) (by omega)
  · exact fun both => absurd (small both.1) (by omega)

theorem kallocFrom_walk (linked : Linked s.memory (done ++ (pre ++ b :: post)))
    (layout : Layout (done ++ (pre ++ b :: post))) (unfit : ∀ c ∈ pre, ¬ Fits units c) :
    kallocFrom units (fuel + pre.length) s (firstOf addr (pre ++ b :: post) 0) =
      kallocFrom units fuel s b.addr := by
  induction pre generalizing done with
  | nil => rfl
  | cons c cs ih =>
    have rest := @ih (done ++ [c]) (by simpa using linked) (by simpa using layout)
      fun d inside => unfit d (List.mem_cons_of_mem c inside)
    have pass := unfit c List.mem_cons_self
    rw [List.length_cons, ← Nat.add_assoc]
    cases cs with
    | nil =>
      rw [← rest]
      exact kallocFrom_unfit linked layout pass
    | cons d ds =>
      rw [← rest]
      exact kallocFrom_unfit linked layout pass

/-! ## kalloc -/

theorem layout_carved (layout : Layout (pre ++ b :: post)) :
    Layout (pre ++ (carve units b ++ post)) := by
  refine @Layout.replace pre [b] (carve units b) post layout ?_ within_carve
  exact layout_carve (layout.sublist (by simp))

/-- A block that fits is taken. -/
theorem kallocFrom_fits (linked : Linked s.memory (pre ++ b :: post))
    (layout : Layout (pre ++ b :: post)) (fits : Fits units b) :
    ∃ m', kallocFrom units (fuel + 1) s b.addr = some (b.pointer, { s with memory := m' }) ∧
      Linked m' (pre ++ (carve units b ++ post)) ∧
      HeadersOnly (pre ++ (carve units b ++ post)) s.memory m' := by
  have top : (b.addr + entryBytes) % 2 ^ 32 = b.pointer := by
    have bound := (layout.bounds b (by simp)).2
    apply Nat.mod_eq_of_lt
    unfold stop at bound
    unfold entryBytes at *
    omega
  have flags : b.status = .free := fits.1
  have room : units ≤ b.size := fits.2
  rw [kallocFrom]
  simp only [linked.size_eq, linked.flags_eq, flags_eq_free, flags, true_and, top]
  by_cases whole : b.size = units ∨ b.size = units + 1
  · rw [if_pos whole]
    have carved : carve units b = [{ b with status := .used }] := if_pos (by omega)
    have taken := @setFlags_linked _ _ _ _ .used linked layout
    rw [carved]
    exact ⟨_, rfl, taken.1, taken.2.mono (carved ▸ carve_places)⟩
  · rw [if_neg whole, if_pos (by omega)]
    exact ⟨_, rfl, splitEntry_linked linked (by omega) (layout_carved layout)⟩

/-- What a call of `kalloc` does: the pointer it returns, the state it leaves, the blocks, and the
frames it takes. -/
inductive Kalloc (units : Nat) (s : State) : List Block → Nat → State → List Block → Set Nat → Prop
  | placed {pre post : List Block} {b : Block} {m' : Memory} (unfit : ∀ c ∈ pre, ¬ Fits units c) (fits : Fits units b)
      (linked : Linked m' (pre ++ (carve units b ++ post)))
      (writes : HeadersOnly (pre ++ (carve units b ++ post)) s.memory m') :
      Kalloc units s (pre ++ b :: post) b.pointer { s with memory := m' }
        (pre ++ (carve units b ++ post)) ∅
  | grown {blocks : List Block} {low : Nat} {s' : State} {m' : Memory} (unfit : ∀ c ∈ blocks, ¬ Fits units c)
      (first : FirstRun (isFree s.memory) (framesOf units) memKernelFirstFrame
        (searchEnd s.totalFrames memUserFirstFrame) low)
      (taken : Taken s s' low (framesOf units))
      (linked : Linked m'
        (blocks ++ carve units ⟨low * memFrameSize, frameUnits (framesOf units), .free⟩))
      (writes : HeadersOnly
        (blocks ++ carve units ⟨low * memFrameSize, frameUnits (framesOf units), .free⟩) s'.memory m') :
      Kalloc units s blocks (low * memFrameSize + entryBytes) { s' with memory := m' }
        (blocks ++ carve units ⟨low * memFrameSize, frameUnits (framesOf units), .free⟩)
        {f | low ≤ f ∧ f < low + framesOf units}
  | full {blocks : List Block} (unfit : ∀ c ∈ blocks, ¬ Fits units c)
      (none_ : ∀ low, memKernelFirstFrame ≤ low →
        low + framesOf units ≤ searchEnd s.totalFrames memUserFirstFrame →
        ¬ Run (isFree s.memory) low (framesOf units)) :
      Kalloc units s blocks 0 s blocks ∅

/-- The search for frames, and what it hands out, stay clear of the blocks and of the bitmap. -/
structure Clear (s : State) (bs : List Block) : Prop where
  bitmap : ∀ f < memUserFirstFrame, ∀ b ∈ bs, bitmapByte f ∉ b.bytes
  frames : ∀ f, memKernelFirstFrame ≤ f → f < searchEnd s.totalFrames memUserFirstFrame →
    isFree s.memory f = true → ∀ b ∈ bs, ∀ x ∈ b.bytes, x / memFrameSize ≠ f

/-- A list stays linked when the bytes of its blocks do not change. -/
theorem Linked.congr {m' : Memory} (linked : Linked m bs) (layout : Layout bs)
    (same : ∀ b ∈ bs, ∀ x ∈ b.bytes, m' x = m x) : Linked m' bs := by
  refine segment_congr (fun b inside => header_congr fun i low => ?_) linked
  have here : b.addr + i ∈ b.bytes := header_mem low
  have eq : cell (b.addr + i) = b.addr + i :=
    Nat.mod_eq_of_lt (here.2.trans (layout.bounds b inside).2)
  rw [eq]
  exact same b inside _ here

/-- The request and its header fit into the frames that are asked for. -/
theorem framesOf_room (small : units + 1 < 2 ^ 28) :
    0 < framesOf units ∧ (units + 1) * entryBytes ≤ framesOf units * memFrameSize := by
  unfold framesOf entryBytes memFrameSize
  dsimp only
  rw [Nat.mod_eq_of_lt (show (units + 1) * 16 < 2 ^ 32 by omega)]
  split <;> omega

theorem frameUnits_eq {frames : Nat} (some_ : 0 < frames) (few : frames ≤ 512) :
    frameUnits frames + 1 = frames * 256 := by
  unfold frameUnits entryBytes memFrameSize
  omega

/-- The block that fills `count` frames from `low` on. -/
def frameBlock (low count : Nat) : Block := ⟨low * memFrameSize, frameUnits count, .free⟩

theorem mem_frameBlock {low count x : Nat} (some_ : 0 < count) (few : count ≤ 512) :
    x ∈ (frameBlock low count).bytes ↔ low ≤ x / memFrameSize ∧ x / memFrameSize < low + count := by
  have units := frameUnits_eq some_ few
  have stop_eq : (frameBlock low count).stop = (low + count) * memFrameSize := by
    simp only [stop, frameBlock, units, entryBytes, memFrameSize]
    ring
  unfold bytes
  rw [stop_eq, Set.mem_Ico, Nat.le_div_iff_mul_le (by decide), Nat.div_lt_iff_lt_mul (by decide)]
  rfl

theorem Clear.layout {low count : Nat} (clear : Clear s bs) (layout : Layout bs) (some_ : 0 < count)
    (few : count ≤ 512) (from_ : memKernelFirstFrame ≤ low)
    (within : low + count ≤ searchEnd s.totalFrames memUserFirstFrame)
    (run : Run (isFree s.memory) low count) : Layout (bs ++ [frameBlock low count]) := by
  have free : ∀ x ∈ (frameBlock low count).bytes, memKernelFirstFrame ≤ x / memFrameSize ∧
      x / memFrameSize < searchEnd s.totalFrames memUserFirstFrame ∧ isFree s.memory (x / memFrameSize) = true := by
    intro x inside
    obtain ⟨lower, upper⟩ := (mem_frameBlock some_ few).mp inside
    have here := run (x / memFrameSize - low) (by omega)
    rw [Nat.add_sub_cancel' lower] at here
    exact ⟨by omega, by omega, here⟩
  refine ⟨List.pairwise_append.mpr ⟨layout.apart, List.pairwise_singleton _ _, ?_⟩, ?_⟩
  · intro b inside n here
    rw [List.mem_singleton.mp here, Set.disjoint_left]
    intro x x_b x_n
    obtain ⟨lower, upper, is_free⟩ := free x x_n
    exact clear.frames _ lower upper is_free b inside x x_b rfl
  · intro b inside
    rcases List.mem_append.mp inside with inside | inside
    · exact layout.bounds b inside
    · rw [List.mem_singleton.mp inside]
      have units := frameUnits_eq some_ few
      unfold memKernelFirstFrame memKernelHeapAddr at from_
      have ends := searchEnd_le_last s.totalFrames (show 0 < memUserFirstFrame by decide)
      rw [memUserFirstFrame_eq] at ends within
      simp only [frameBlock, stop, units, entryBytes, memFrameSize] at *
      omega

/-- A row of kernel frames is no longer than the kernel's space. -/
theorem kernel_row {free : Nat → Bool} {total count low : Nat}
    (first : FirstRun free count memKernelFirstFrame (searchEnd total memUserFirstFrame) low) :
    256 ≤ low ∧ low + count ≤ 768 ∧ low + count ≤ total := by
  refine ⟨first.from_, first.within.trans ?_, first.within.trans (searchEnd_le _ _)⟩
  exact searchEnd_le_last _ (by decide)

theorem fits_frameBlock {low : Nat} (small : units + 1 < 2 ^ 28) (few : framesOf units ≤ 512) :
    Fits units (frameBlock low (framesOf units)) := by
  refine ⟨rfl, ?_⟩
  obtain ⟨some_, room⟩ := framesOf_room small
  have sizes := frameUnits_eq some_ few
  unfold entryBytes memFrameSize at room
  simp only [frameBlock]
  omega

/-- The first block that fits. -/
theorem exists_first (some_fits : ¬ ∀ c ∈ bs, ¬ Fits units c) :
    ∃ pre b post, bs = pre ++ b :: post ∧ (∀ c ∈ pre, ¬ Fits units c) ∧ Fits units b := by
  induction bs with
  | nil => exact absurd (fun c inside => by cases inside) some_fits
  | cons c cs ih =>
    by_cases here : Fits units c
    · exact ⟨[], c, cs, rfl, fun d inside => (List.not_mem_nil inside).elim, here⟩
    · have later : ¬ ∀ d ∈ cs, ¬ Fits units d := fun none_ =>
        some_fits (List.forall_mem_cons.mpr ⟨here, none_⟩)
      obtain ⟨pre, b, post, rfl, pass, fits⟩ := ih later
      exact ⟨c :: pre, b, post, rfl, List.forall_mem_cons.mpr ⟨here, pass⟩, fits⟩

/-- At the end of the list, nothing having fitted: frames for another block, or NULL. -/
theorem kallocFrom_last (linked : Linked s.memory (pre ++ [b])) (layout : Layout (pre ++ [b]))
    (clear : Clear s (pre ++ [b])) (small : units + 1 < 2 ^ 28)
    (unfit : ∀ c ∈ pre ++ [b], ¬ Fits units c) :
    ∃ p s' bs' row, kallocFrom units (fuel + 2) s b.addr = some (p, s') ∧
      Kalloc units s (pre ++ [b]) p s' bs' row := by
  have none_fits := unfit b (by simp)
  have few : b.status = .free → b.size < units := fun free => by
    by_contra large
    exact none_fits ⟨free, not_lt.mp large⟩
  rw [kallocFrom]
  simp only [linked.size_eq, linked.flags_eq, flags_eq_free, linked.next_eq, firstOf_nil]
  rw [if_neg, if_neg, if_neg (by simp)]
  · have some_ := (framesOf_room small).1
    rcases @memAllocateFrames_spec (framesOf units) memKernelFirstFrame memUserFirstFrame s some_
        (by decide) with
      ⟨low, s', first, taken, eq⟩ | ⟨none_, eq⟩
    · obtain ⟨from_, within, -⟩ := kernel_row first
      have count : framesOf units ≤ 512 := by omega
      have kept : Linked s'.memory (pre ++ [b]) := by
        refine linked.congr layout fun c inside x here => taken.outside x fun g lower upper at_g => ?_
        exact clear.bitmap g (upper.trans_le within) c inside (at_g ▸ here)
      have grown := clear.layout layout some_ count first.from_ first.within first.run
      obtain ⟨n, n_eq⟩ : ∃ n, n = frameBlock low (framesOf units) := ⟨_, rfl⟩
      rw [← n_eq] at grown
      have n_in : n ∈ (pre ++ [b]) ++ [n] := by simp
      have address : low * memFrameSize % 2 ^ 32 = n.addr := by
        have bound := grown.addr_lt n_in
        rw [n_eq] at bound ⊢
        exact Nat.mod_eq_of_lt bound
      have nonzero := (grown.bounds _ n_in).1.ne'
      rw [eq, address]
      simp only [if_neg nonzero]
      obtain ⟨m2, m2_eq⟩ : ∃ m2, m2 = appendEntry s'.memory b.addr n.addr (framesOf units) :=
        ⟨_, rfl⟩
      have appended : Linked m2 (pre ++ b :: [n]) ∧ HeadersOnly (pre ++ b :: [n]) s'.memory m2 := by
        rw [m2_eq, n_eq]
        apply appendEntry_linked kept
        have := grown
        rw [List.append_assoc, n_eq] at this
        exact this
      have next : entryNext m2 b.addr = n.addr := appended.1.next_eq
      have fits : Fits units n := by
        rw [n_eq]
        exact fits_frameBlock small count
      have whole : Linked m2 ((pre ++ [b]) ++ [n]) := by simpa using appended.1
      obtain ⟨m', returned, linked', writes⟩ := @kallocFrom_fits { s' with memory := m2 } n units fuel
        _ _ whole grown fits
      rw [← m2_eq, next, returned]
      rw [List.append_nil] at linked' writes
      have writes' : HeadersOnly ((pre ++ [b]) ++ carve units n) s'.memory m' := by
        refine .trans (appended.2.mono fun c inside => ?_) writes
        have places := @carve_places units n (pre ++ [b]) []
        rw [List.append_nil] at places
        exact places c (by simpa using inside)
      subst n_eq
      exact ⟨_, _, _, _, rfl, @Kalloc.grown units s _ low s' m' unfit first taken linked' writes'⟩
    · rw [eq]
      exact ⟨0, s, _, _, if_pos rfl, .full unfit none_⟩
  · exact fun both => absurd (few both.1) (by omega)
  · exact fun both => absurd (few both.1) (by omega)

/-- The entry that `mem_head` is. -/
def headBlock (memHead : Nat) : Block := ⟨memHead, 0, .null⟩

/-- Every call of `kalloc` within the limit returns, and does one of three things. -/
theorem kalloc_returns {memHead bytes : Nat} (linked : Linked s.memory (headBlock memHead :: bs))
    (layout : Layout (headBlock memHead :: bs)) (clear : Clear s (headBlock memHead :: bs))
    (small : unitsOf bytes + 1 < 2 ^ 28) :
    ∃ fuel p s' bs' row, kalloc memHead fuel s bytes = some (p, s') ∧
      Kalloc (unitsOf bytes) s (headBlock memHead :: bs) p s' bs' row := by
  obtain ⟨units, units_eq⟩ : ∃ units, units = unitsOf bytes := ⟨_, rfl⟩
  unfold kalloc
  rw [← units_eq] at small ⊢
  obtain ⟨all, all_eq⟩ : ∃ all, all = headBlock memHead :: bs := ⟨_, rfl⟩
  have start : memHead = firstOf addr all 0 := by rw [all_eq]; rfl
  have some_ : all ≠ [] := by simp [all_eq]
  rw [← all_eq] at linked layout clear ⊢
  by_cases unfit : ∀ c ∈ all, ¬ Fits units c
  · obtain ⟨pre, b, rfl⟩ : ∃ pre b, all = pre ++ [b] :=
      ⟨all.dropLast, all.getLast some_, (List.dropLast_append_getLast some_).symm⟩
    obtain ⟨p, s', bs', row, returned, does⟩ := @kallocFrom_last s b units 0 pre linked layout clear small
      unfit
    refine ⟨2 + pre.length, p, s', bs', row, ?_, does⟩
    rw [start, @kallocFrom_walk s b units 2 pre [] [] linked layout fun c inside =>
      unfit c (List.mem_append_left _ inside)]
    exact returned
  · obtain ⟨pre, b, post, rfl, pass, fits⟩ := exists_first unfit
    obtain ⟨m', returned, linked', writes⟩ := @kallocFrom_fits s b units 0 pre post linked layout fits
    refine ⟨1 + pre.length, _, _, _, _, ?_, .placed pass fits linked' writes⟩
    rw [start, @kallocFrom_walk s b units 1 pre post [] linked layout pass]
    exact returned

theorem kalloc_does {memHead bytes p : Nat} (linked : Linked s.memory (headBlock memHead :: bs))
    (layout : Layout (headBlock memHead :: bs)) (clear : Clear s (headBlock memHead :: bs))
    (small : unitsOf bytes + 1 < 2 ^ 28) (returned : kalloc memHead fuel s bytes = some (p, s')) :
    ∃ bs' row, Kalloc (unitsOf bytes) s (headBlock memHead :: bs) p s' bs' row := by
  obtain ⟨fuel', p', s'', bs', row, returned', does⟩ := kalloc_returns linked layout clear small
  obtain ⟨rfl, rfl⟩ := kalloc_unique returned returned'
  exact ⟨bs', row, does⟩

/-! ## kfree -/

/-- What a call of `kfree` does to the memory and the blocks, the first of which is `mem_head`. -/
inductive Kfree (ptr : Nat) (m : Memory) : List Block → Memory → List Block → Prop
  | kept {head : Block} {blocks : List Block}
      (dead : ∀ c ∈ blocks, c.pointer = ptr → c.status = .free) :
      Kfree ptr m (head :: blocks) m (head :: blocks)
  | freed {pre post : List Block} {e f : Block} {m' : Memory} (here : f.pointer = ptr)
      (taken : f.status ≠ .free) (linked : Linked m' (pre ++ absorb e (absorb f.freed post)))
      (writes : HeadersOnly (pre ++ e :: f :: post) m m') :
      Kfree ptr m (pre ++ e :: f :: post) m' (pre ++ absorb e (absorb f.freed post))

/-- The joins that freeing the block at `ptr` makes leave a layout. -/
def FreesWell (ptr : Nat) (bs : List Block) : Prop :=
  ∀ pre e f post, bs = pre ++ e :: f :: post → f.pointer = ptr → f.status ≠ .free →
    Layout (pre ++ e :: absorb f.freed post)

theorem Layout.pointer_eq (layout : Layout bs) (inside : b ∈ bs) :
    (b.addr + entryBytes) % 2 ^ 32 = b.pointer := by
  have bound := (layout.bounds b inside).2
  unfold stop at bound
  apply Nat.mod_eq_of_lt
  unfold entryBytes at *
  omega

/-- The walk of `kfree` from the entry `e` on. -/
theorem kfreeFrom_walk (linked : Linked m (pre ++ e :: post)) (layout : Layout (pre ++ e :: post))
    (well : FreesWell ptr (pre ++ e :: post)) :
    ∃ fuel m', kfreeFrom ptr fuel m e.addr = some m' ∧
      ((m' = m ∧ ∀ c ∈ post, c.pointer = ptr → c.status = .free) ∨
        ∃ bs', Kfree ptr m (pre ++ e :: post) m' bs') := by
  induction post generalizing pre e with
  | nil =>
    have next : entryNext m e.addr = 0 := linked.next_eq
    refine ⟨1, m, ?_, .inl ⟨rfl, fun c inside => (List.not_mem_nil inside).elim⟩⟩
    rw [kfreeFrom, if_pos next]
  | cons f post ih =>
    have next : entryNext m e.addr = f.addr := linked.next_eq
    have linked' : Linked m ((pre ++ [e]) ++ f :: post) := by simpa using linked
    have layout' : Layout ((pre ++ [e]) ++ f :: post) := by simpa using layout
    have f_in : f ∈ pre ++ e :: f :: post := by simp
    have nonzero := (layout.bounds f f_in).1.ne'
    by_cases here : f.pointer = ptr
    · by_cases free : f.status = .free
      · refine ⟨1, m, ?_, .inl ⟨rfl, fun c inside same => ?_⟩⟩
        · rw [kfreeFrom, next, if_neg nonzero, layout.pointer_eq f_in, if_pos here, linked'.flags_eq,
            if_pos (flags_eq_free.mpr free)]
        · have one : c = f := by
            refine layout.eq_of_addr ?_ f_in (Nat.add_right_cancel (same.trans here.symm))
            exact List.mem_append_right pre (List.mem_cons_of_mem e inside)
          rwa [one]
      · obtain ⟨linked'', writes⟩ := freeEntry_linked linked layout (well pre e f post rfl here free)
        refine ⟨1, freeEntry m e.addr f.addr, ?_, .inr ⟨_, .freed here free linked'' writes⟩⟩
        rw [kfreeFrom, next, if_neg nonzero, layout.pointer_eq f_in, if_pos here, linked'.flags_eq,
          if_neg fun flags => free (flags_eq_free.mp flags)]
    · obtain ⟨fuel, m', returned, does⟩ := ih linked' layout' (by simpa using well)
      refine ⟨fuel + 1, m', ?_, ?_⟩
      · rw [kfreeFrom, next, if_neg nonzero, layout.pointer_eq f_in, if_neg here]
        exact returned
      · rcases does with ⟨same, dead⟩ | ⟨bs', does⟩
        · refine .inl ⟨same, fun c inside at_ptr => ?_⟩
          rcases List.mem_cons.mp inside with rfl | later
          · exact absurd at_ptr here
          · exact dead c later at_ptr
        · refine .inr ⟨bs', ?_⟩
          rwa [List.append_assoc, List.singleton_append] at does

/-- Every call of `kfree` returns, and does one of two things. -/
theorem kfree_returns {memHead : Nat} (linked : Linked s.memory (headBlock memHead :: bs))
    (layout : Layout (headBlock memHead :: bs)) (well : FreesWell ptr (headBlock memHead :: bs)) :
    ∃ fuel m' bs', kfree memHead fuel s ptr = some { s with memory := m' } ∧
      Kfree ptr s.memory (headBlock memHead :: bs) m' bs' := by
  unfold kfree
  by_cases null : ptr = 0
  · refine ⟨0, s.memory, _, if_pos null, .kept fun c inside at_ptr => ?_⟩
    unfold pointer entryBytes at at_ptr
    omega
  · obtain ⟨fuel, m', returned, does⟩ := @kfreeFrom_walk s.memory (headBlock memHead) ptr [] bs linked
      layout well
    have eq : (kfreeFrom ptr fuel s.memory memHead).map (fun m => { s with memory := m }) =
        some { s with memory := m' } := congrArg _ returned
    rcases does with ⟨same, dead⟩ | ⟨bs', does⟩
    · subst same
      exact ⟨fuel, _, _, (if_neg null).trans eq, .kept dead⟩
    · exact ⟨fuel, m', bs', (if_neg null).trans eq, does⟩

theorem kfree_does {memHead : Nat} (linked : Linked s.memory (headBlock memHead :: bs))
    (layout : Layout (headBlock memHead :: bs)) (well : FreesWell ptr (headBlock memHead :: bs))
    (returned : kfree memHead fuel s ptr = some s') :
    ∃ m' bs', s' = { s with memory := m' } ∧
      Kfree ptr s.memory (headBlock memHead :: bs) m' bs' := by
  obtain ⟨fuel', m', bs', returned', does⟩ := kfree_returns linked layout well
  refine ⟨m', bs', ?_, does⟩
  by_cases null : ptr = 0
  · rw [kfree, if_pos null] at returned returned'
    exact (Option.some.inj returned).symm.trans (Option.some.inj returned')
  · rw [kfree, if_neg null] at returned returned'
    obtain ⟨m1, one, eq⟩ := Option.map_eq_some_iff.mp returned
    obtain ⟨m2, other, eq'⟩ := Option.map_eq_some_iff.mp returned'
    have left := kfreeFrom_mono one (le_max_left fuel fuel')
    rw [kfreeFrom_mono other (le_max_right fuel fuel')] at left
    cases left
    exact eq.symm.trans eq'

end AtaKernel.Memory
