import AtaKernel.Memory.HeapShape

/-! Two allocators on one bitmap. As long as `kfree` joins only blocks that meet,
every block that is handed out lies in frames of the heap. The comment in `kfree`
("If the entry after the one being freed is also free, join them") speaks of
neighbours in the list; when another owner took the frames between them, the
joined block covers these frames, and `kalloc` hands them out. -/
namespace AtaKernel.Memory
open ByteMemory RunSearch LinkedSegments Block

/-- The entry behind every live pointer has room for the request and lies, with its header, in
frames of the heap, which are not reserved and which nobody else holds. -/
def Coexist (k : Kernel) : Prop :=
  ∀ r ∈ k.live,
    r.2 ≤ entrySize k.state.memory (r.1 - entryBytes) * entryBytes ∧
    ∀ x, r.1 - entryBytes ≤ x →
      x < r.1 + entrySize k.state.memory (r.1 - entryBytes) * entryBytes →
      x / memFrameSize ∈ k.heapFrames ∧ x / memFrameSize ∉ k.otherFrames ∧
        memBitmapGetEntry k.state.memory (x / memFrameSize) ≠ memBitmapEntryReserved

/-- Only live pointers are given back. -/
def FreesLive (k : Kernel) : Call → Prop
  | .kfree ptr => ptr ∈ k.live.map Prod.fst
  | _ => True

variable {head : MemHead} {k k' : Kernel} {blocks bs pre post : List Block} {s s' : State}
  {map : List MemBiosMmapEntry} {b c e f : Block} {lo hi n units bytes : Nat}

theorem coexist_of_sound (sound : Sound head k blocks) : Coexist k := by
  intro r handed
  obtain ⟨b, inside, -, place, room⟩ := sound.ledger.served r handed
  have address : r.1 - entryBytes = b.addr := by
    rw [← place]
    exact Nat.add_sub_cancel _ _
  obtain ⟨pre, post, split⟩ := List.append_of_mem inside
  have linked : Linked k.state.memory ((headBlock head.addr :: pre) ++ b :: post) := by
    rw [List.cons_append, ← split]
    exact sound.linked
  rw [address, linked.size_eq]
  refine ⟨room, fun x above below => ?_⟩
  have here : x ∈ b.bytes := by
    refine ⟨above, ?_⟩
    rw [← place] at below
    unfold pointer at below
    unfold stop
    unfold entryBytes at *
    omega
  have in_heap := sound.ledger.covered b inside x here
  refine ⟨in_heap, fun other => ?_, (sound.frames _ in_heap).2.2⟩
  exact (sound.others _ other).2.2.1 in_heap

/-- From `mem_init` on, while every call of `kfree` joins only neighbours in memory and other owners
get frames that have an address, the heap and the other owners keep apart. -/
theorem heap_and_owners_coexist (returned : memInit head.addr map s = (0, s'))
    (reach : Reachable head.addr GoesWell (.boot s') k) : Coexist k := by
  obtain ⟨blocks, sound⟩ := reachable_sound (sound_of_started (started_of_memInit returned)) reach
  exact coexist_of_sound sound

/-- Another owner holds the frame between two blocks, and the first of these is given back and joined with what
was left of its frame. -/
theorem heap_and_owners_coexist_threeMegabytes : ∃ (s : State) (k₁ k₂ k₃ k₄ : Kernel),
    memInit lowHead.addr threeMegabytes ⟨fun _ => 0, 0⟩ = (0, s) ∧ Step lowHead.addr (.boot s) (.kalloc 100) k₁ ∧
      Step lowHead.addr k₁ (.allocate 1 memKernelFirstFrame memUserFirstFrame) k₂ ∧
      Step lowHead.addr k₂ (.kalloc 4080) k₃ ∧ Step lowHead.addr k₃ (.kfree Two.front.pointer) k₄ ∧
      k₄.live = [(0x103010, 4080)] ∧ 258 ∈ k₄.otherFrames ∧ Coexist k₄ := by
  obtain ⟨s, k₁, -, lo, hi, returned, -, step₁, -, -, -, stage₁, live₁, -⟩ := Two.both
  obtain ⟨k₂, step₂, stage₂, live₂, others₂, named⟩ := stage₁.allocate one_pos (by decide)
  obtain ⟨k₃, step₃, stage₃, live₃, others₃⟩ :=
    stage₂.kalloc_grows (by decide) (by decide) (by decide : ∀ c ∈ [Two.front, Two.rest], ¬ Fits (unitsOf 4080) c)
  rw [Two.carve_frame] at stage₃
  obtain ⟨k₄, step₄, -, live₄, others₄, joins⟩ := Two.kfree_front stage₃
  have asks : ∀ k bytes, GoesWell k (.kalloc bytes) := fun _ _ => trivial
  have reach : Reachable lowHead.addr GoesWell (.boot s) k₄ :=
    .next (.next (.next (.next .start (asks _ 100) step₁) named step₂) (asks _ 4080) step₃) joins step₄
  rw [live₃, live₂, live₁] at live₄
  have held : 258 ∈ k₄.otherFrames := by
    rw [others₄, others₃, others₂]
    exact .inr (by decide)
  exact ⟨s, k₁, k₂, k₃, k₄, returned, step₁, step₂, step₃, step₄, live₄, held, heap_and_owners_coexist returned reach⟩

/-! ## Neighbours in the list that are not neighbours in memory -/

/-- Giving back the last block of the list joins it with the one before, wherever that is. -/
theorem Stage.kfree_last (stage : Stage head k (pre ++ [e, f]) lo) (used : f.status = .used) :
    ∃ k', Step head.addr k (.kfree f.pointer) k' ∧
      Linked k'.state.memory (headBlock head.addr :: (pre ++ absorb e [f.freed])) ∧
      OneRow k'.state lo memUserFirstFrame ∧ k'.state.totalFrames = memUserFirstFrame ∧
      k'.otherFrames = k.otherFrames := by
  have linked := stage.sound.linked
  have layout : Layout ((headBlock head.addr :: pre) ++ e :: f :: []) := stage.sound.ledger.layout
  have taken : f.status ≠ .free := fun free => by
    rw [used] at free
    cases free
  have well : FreesWell f.pointer (headBlock head.addr :: (pre ++ [e, f])) := by
    intro pre' e' f' post' split here _
    have f'_in : f' ∈ headBlock head.addr :: (pre ++ [e, f]) := by simp [split]
    have f_in : f ∈ headBlock head.addr :: (pre ++ [e, f]) := by simp
    obtain rfl : f' = f := stage.sound.ledger.layout.eq_of_addr f'_in f_in (Nat.add_right_cancel here)
    have both : (headBlock head.addr :: pre ++ [e]) ++ f' :: [] = (pre' ++ [e']) ++ f' :: post' := by
      simpa using split
    have placed : Layout ((headBlock head.addr :: pre ++ [e]) ++ f' :: []) := by simpa using layout
    obtain ⟨front, -, rfl⟩ := (List.append_cons_inj_of_notMem
      (fun inside => placed.addr_ne.1 f' inside rfl) List.not_mem_nil).mp both
    obtain ⟨rfl, same⟩ := List.append_inj' front rfl
    obtain rfl := (List.cons.inj same).1
    simpa [absorb] using layout_freed placed
  obtain ⟨fuel, m', bs', returned, does⟩ := kfree_returns linked stage.sound.ledger.layout well
  obtain ⟨rfl, linked', writes⟩ := kfree_at layout taken does
  exact ⟨_, .kfree returned, linked', stage.row.headersOnly stage.sound writes, stage.total, rfl⟩

/-- Blocks below the row are clear of the frames in it. -/
theorem clear_of_oneRow (row : OneRow s lo memUserFirstFrame)
    (total : s.totalFrames = memUserFirstFrame)
    (away : ∀ b ∈ bs, b.stop ≤ memBitmapAddr ∨
      memBitmapAddr + memFrameSize ≤ b.addr ∧ b.stop ≤ lo * memFrameSize) : Clear s bs where
  bitmap f below b inside := by
    rintro ⟨low, high⟩
    have place := away b inside
    rw [memUserFirstFrame_eq] at below
    unfold bitmapByte memBitmapAddr memBitmapEntriesPerByte memFrameSize at *
    omega
  frames f from_ below free b inside x here same := by
    have under : f < memUserFirstFrame := below.trans_le (searchEnd_le_last _ (by decide))
    have behind := ((row f from_ under (total ▸ under)).mp free).1
    have high := here.2
    have place := away b inside
    rw [memKernelFirstFrame_eq, ← same] at from_
    rw [← same] at behind
    unfold memBitmapAddr memFrameSize at *
    omega

namespace Apart
open Two

/-! One block in the frame 257 and one in the frame 259, with the frame 258 held by another owner.
The free end of the first is joined with the second. -/

def far : Block := ⟨0x103000, 255, .used⟩

def joined : Block := ⟨0x101080, 503, .free⟩

theorem layout_joined (head : MemHead) : Layout [headBlock head.addr, front, joined] := by
  have below := head.below
  have positive := head.positive
  have first : Disjoint (headBlock head.addr).bytes front.bytes := by
    refine Set.disjoint_left.mpr fun x here there => ?_
    have high : x < head.addr + (0 + 1) * entryBytes := here.2
    have low : 0x101000 ≤ x := there.1
    unfold memBitmapAddr entryBytes at *
    omega
  have second : Disjoint (headBlock head.addr).bytes joined.bytes := by
    refine Set.disjoint_left.mpr fun x here there => ?_
    have high : x < head.addr + (0 + 1) * entryBytes := here.2
    have low : 0x101080 ≤ x := there.1
    unfold memBitmapAddr entryBytes at *
    omega
  have third : Disjoint front.bytes joined.bytes := by
    refine Set.disjoint_left.mpr fun x here there => ?_
    have high : x < 0x101000 + (7 + 1) * 16 := here.2
    have low : 0x101080 ≤ x := there.1
    omega
  refine ⟨?_, ?_⟩
  · simp only [List.pairwise_cons, List.mem_cons, List.not_mem_nil, or_false, forall_eq_or_imp,
      forall_eq]
    exact ⟨⟨first, second⟩, third, fun _ inside => inside.elim, List.Pairwise.nil⟩
  · simp only [List.forall_mem_cons]
    refine ⟨⟨positive, ?_⟩, ⟨by decide, by decide⟩, ⟨by decide, by decide⟩, fun _ inside => ?_⟩
    · change head.addr + (0 + 1) * entryBytes < 2 ^ 32
      unfold memBitmapAddr entryBytes at *
      omega
    · cases inside

theorem clear_joined (row : OneRow s 260 memUserFirstFrame)
    (total : s.totalFrames = memUserFirstFrame) :
    Clear s [headBlock head.addr, front, joined] := by
  apply clear_of_oneRow row total
  simp only [List.forall_mem_cons]
  refine ⟨.inl ?_, .inr (by decide), .inr (by decide), fun _ inside => ?_⟩
  · have below := head.below
    change head.addr + (0 + 1) * entryBytes ≤ memBitmapAddr
    omega
  · cases inside

/-- The joined block is the one that fits. -/
theorem kalloc_joined (linked : Linked k.state.memory [headBlock head.addr, front, joined])
    (clear : Clear k.state [headBlock head.addr, front, joined]) :
    ∃ k', Step head.addr k (.kalloc 8000) k' ∧ (joined.pointer, 8000) ∈ k'.live ∧
      k'.otherFrames = k.otherFrames := by
  have fits : Fits (unitsOf 8000) joined := by decide
  obtain ⟨fuel, p, s', bs', row, returned, does⟩ :=
    kalloc_returns linked (layout_joined head) clear (@unitsOf_small 8000 (by decide))
  have place : p = joined.pointer := by
    generalize whole : [headBlock head.addr, front, joined] = bs at does
    cases does with
    | @placed pre post b m' _ fits' _ _ =>
      have inside : b ∈ [headBlock head.addr, front, joined] := by simp [whole]
      simp only [List.mem_cons, List.not_mem_nil, or_false] at inside
      rcases inside with rfl | rfl | rfl
      · exact absurd rfl (fits_ne_head fits')
      · cases fits'.1
      · rfl
    | grown unfit => exact absurd fits (unfit joined (by simp [← whole]))
    | full unfit => exact absurd fits (unfit joined (by simp [← whole]))
  subst place
  refine ⟨_, .kalloc (by decide) returned, ?_, rfl⟩
  simp [Kernel.kalloced, pointer_pos.ne']

/-- The block of 8000 bytes covers the frame 258. -/
theorem heap_and_owners_overlap : ∃ (s : State) (k₁ k₂ k₃ k₄ k₅ : Kernel),
    memInit lowHead.addr threeMegabytes ⟨fun _ => 0, 0⟩ = (0, s) ∧
      Step lowHead.addr (.boot s) (.kalloc 100) k₁ ∧
      Step lowHead.addr k₁ (.allocate 1 memKernelFirstFrame memUserFirstFrame) k₂ ∧
      Step lowHead.addr k₂ (.kalloc 4080) k₃ ∧
      Step lowHead.addr k₃ (.kfree far.pointer) k₄ ∧ Step lowHead.addr k₄ (.kalloc 8000) k₅ ∧
      Reachable lowHead.addr FreesLive (.boot s) k₅ ∧
      (joined.pointer, 8000) ∈ k₅.live ∧ 258 ∈ k₅.otherFrames ∧ ¬ Coexist k₅ := by
  obtain ⟨m, returned⟩ := memInit_threeMegabytes lowHead.addr ⟨fun _ => 0, 0⟩
  obtain ⟨k₁, step₁, stage₁, -, -⟩ :=
    (stage_of_memInit returned rfl).kalloc_grows (by decide) (by decide)
      (fun c inside => (List.not_mem_nil inside).elim : ∀ c ∈ [], ¬ Fits (unitsOf 100) c)
  rw [carve_front_rest, List.nil_append] at stage₁
  obtain ⟨k₂, step₂, stage₂, -, others₂, -⟩ := stage₁.allocate one_pos (by decide)
  obtain ⟨k₃, step₃, stage₃, live₃, others₃⟩ :=
    stage₂.kalloc_grows (by decide) (by decide)
      (by decide : ∀ c ∈ [front, rest], ¬ Fits (unitsOf 4080) c)
  have blocks₃ : Stage lowHead k₃ ([front] ++ [rest, far]) 260 := by
    have stage := stage₃
    rwa [carve_frame] at stage
  obtain ⟨k₄, step₄, linked₄, row₄, total₄, others₄⟩ := blocks₃.kfree_last rfl
  obtain ⟨k₅, step₅, live₅, others₅⟩ := kalloc_joined linked₄ (clear_joined row₄ total₄)
  have held : 258 ∈ k₅.otherFrames := by
    rw [others₅, others₄, others₃, others₂]
    exact .inr (by decide)
  have asks : ∀ k bytes, FreesLive k (.kalloc bytes) := fun _ _ => trivial
  have takes : FreesLive k₁ (.allocate 1 memKernelFirstFrame memUserFirstFrame) := trivial
  have reach₃ : Reachable lowHead.addr FreesLive (.boot ⟨m, 768⟩) k₃ :=
    .next (.next (.next .start (asks _ 100) step₁) takes step₂) (asks k₂ 4080) step₃
  have handed : FreesLive k₃ (.kfree far.pointer) := by
    unfold FreesLive
    rw [live₃]
    exact List.mem_cons_self
  refine ⟨_, k₁, k₂, k₃, k₄, k₅, returned, step₁, step₂, step₃, step₄, step₅,
    .next (.next reach₃ handed step₄) (asks k₄ 8000) step₅, live₅, held, fun coexist => ?_⟩
  obtain ⟨room, apart⟩ := coexist _ live₅
  refine (apart 0x102000 (by decide) ?_).2.1 held
  have here : joined.pointer + 8000 > 0x102000 := by decide
  dsimp only at room ⊢
  omega

end Apart

end AtaKernel.Memory
