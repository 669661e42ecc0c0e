import AtaKernel.Memory.Runs

/-! Requests of every size. The size of a request is rounded up to units, and
the header is added, in 32 bits: from 0xFFFFFFE1 bytes on, the sum wraps and
`kalloc` asks for no frame, or for one that is too small. A run whose requests
stay below that, or find nothing to take, is a run as before. -/
namespace AtaKernel.Memory
open ByteMemory RunSearch LinkedSegments Block

/-- A call of `kalloc` returns; it hands out a block in frames of the heap and apart from the live
blocks, or it returns NULL and changes nothing. -/
def Granted (head : MemHead) (k : Kernel) (bytes : Nat) : Prop :=
  ∃ fuel p s', kalloc head.addr fuel k.state bytes = some (p, s') ∧
    (p ≠ 0 → (∀ x, p ≤ x → x < p + bytes → x / memFrameSize ∈ (k.kalloced bytes p s').heapFrames) ∧
      ∀ r ∈ k.live, Disjoint (Set.Ico p (p + bytes)) (Set.Ico r.1 (r.1 + r.2))) ∧
    (p = 0 → s' = k.state)

/-- The sum of the units and the header does not wrap, or there is nothing that the search for
frames could find. -/
def SizeFits (s : State) (bytes : Nat) : Prop :=
  bytes ≤ 0xFFFFFFE0 ∨
  bytes ≤ 0xFFFFFFF0 ∧ s.totalFrames ≤ memKernelFirstFrame ∨
  0xFFFFFFF0 < bytes ∧ ∀ f, memKernelFirstFrame ≤ f →
    f < searchEnd s.totalFrames memUserFirstFrame → isFree s.memory f = false

def RequestFits (k : Kernel) : Call → Prop
  | .kalloc bytes => SizeFits k.state bytes
  | _ => True

/-- A step as before, or a request of any size. -/
inductive RequestStep (memHead : Nat) : Kernel → Call → Kernel → Prop
  | kalloc {k : Kernel} {bytes fuel p : Nat} {s' : State} (words : bytes < 2 ^ 32)
      (returned : kalloc memHead fuel k.state bytes = some (p, s')) :
      RequestStep memHead k (.kalloc bytes) (k.kalloced bytes p s')
  | other {k k' : Kernel} {call : Call} (step : Step memHead k call k') : RequestStep memHead k call k'

inductive RequestReachable (memHead : Nat) (allowed : Kernel → Call → Prop) (start : Kernel) :
    Kernel → Prop
  | start : RequestReachable memHead allowed start start
  | next {k k' : Kernel} {call : Call} : RequestReachable memHead allowed start k → allowed k call →
      RequestStep memHead k call k' → RequestReachable memHead allowed start k'

variable {head : MemHead} {k k' : Kernel} {blocks pre : List Block} {s s' : State} {b : Block}
  {map : List MemBiosMmapEntry} {units bytes fuel p : Nat}

/-! ## Requests within the limit -/

theorem Sound.granted (sound : Sound head k blocks) (limit : bytes ≤ 0xFFFFFFE0) :
    Granted head k bytes := by
  have small := unitsOf_small limit
  obtain ⟨fuel, p, s', bs', row, returned, does⟩ :=
    kalloc_returns sound.linked sound.ledger.layout sound.clears small
  obtain ⟨blocks', -, serves⟩ := sound.serves small (unitsOf_room _) does
  have sound' := serves.sound sound
  refine ⟨fuel, p, s', returned, fun some_ => ?_, fun null => ?_⟩
  · have live : (k.kalloced bytes p s').live = (p, bytes) :: k.live := if_neg some_
    have handed : (p, bytes) ∈ (k.kalloced bytes p s').live := live ▸ List.mem_cons_self
    obtain ⟨b, inside, -, place, ends⟩ := sound'.behind handed
    have here : ∀ x, p ≤ x → x < p + bytes → x ∈ b.bytes := fun x above below =>
      ⟨(Nat.le_add_right _ _).trans (place.le.trans above), below.trans_le ends⟩
    refine ⟨fun x above below => sound'.ledger.covered b inside x (here x above below), fun r old => ?_⟩
    have handed' : r ∈ (k.kalloced bytes p s').live := live ▸ List.mem_cons_of_mem _ old
    obtain ⟨c, inside', -, place', ends'⟩ := sound'.behind handed'
    rw [Set.disjoint_left]
    rintro x ⟨above, below⟩ ⟨above', below'⟩
    have same : b = c := by
      apply sound'.ledger.layout.eq_of_mem (List.mem_cons_of_mem _ inside)
        (List.mem_cons_of_mem _ inside') (here x above below)
      exact ⟨(Nat.le_add_right _ _).trans (place'.le.trans above'), below'.trans_le ends'⟩
    have once := sound'.ledger.once
    rw [live, List.map_cons, List.nodup_cons] at once
    refine once.1 (List.mem_map.mpr ⟨r, old, ?_⟩)
    rw [← place', ← same, place]
  · generalize headBlock head.addr :: blocks = bs at does
    cases does with
    | placed unfit fits linked writes => exact absurd null pointer_pos.ne'
    | grown unfit first taken linked writes =>
      exact absurd null (Nat.succ_ne_zero _)
    | full unfit none_ => rfl

/-! ## Requests beyond it -/

theorem unitsOf_large (large : 0xFFFFFFE0 < bytes) (words : bytes < 2 ^ 32) :
    unitsOf bytes = 2 ^ 28 - 1 ∧ bytes ≤ 0xFFFFFFF0 ∨ unitsOf bytes = 2 ^ 28 ∧ 0xFFFFFFF0 < bytes := by
  unfold unitsOf entryBytes
  dsimp only
  split <;> omega

/-- The search for the frames of such a request finds none. -/
theorem allocate_none (fits : SizeFits s bytes) (large : 0xFFFFFFE0 < bytes) (words : bytes < 2 ^ 32) :
    memAllocateFrames s (framesOf (unitsOf bytes)) memKernelFirstFrame memUserFirstFrame = (0, s) := by
  rcases unitsOf_large large words with ⟨units, low⟩ | ⟨units, high⟩
  · have few : s.totalFrames ≤ memKernelFirstFrame := by
      rcases fits with small | ⟨-, few⟩ | ⟨high, -⟩
      · omega
      · exact few
      · omega
    have ends : searchEnd s.totalFrames memUserFirstFrame - memKernelFirstFrame = 0 :=
      Nat.sub_eq_zero_of_le ((searchEnd_le _ _).trans few)
    unfold memAllocateFrames
    dsimp only
    rw [ends]
    rfl
  · have none_ : ∀ f, memKernelFirstFrame ≤ f → f < searchEnd s.totalFrames memUserFirstFrame →
        isFree s.memory f = false := by
      rcases fits with small | ⟨small, -⟩ | ⟨-, none_⟩
      · omega
      · omega
      · exact none_
    have one : framesOf (unitsOf bytes) = 1 := by
      rw [units]
      rfl
    rw [one]
    rcases @memAllocateFrames_spec 1 memKernelFirstFrame memUserFirstFrame s Nat.one_pos
        memUserFirstFrame_lt with ⟨low, s', first, -, -⟩ | ⟨-, eq⟩
    · have free := first.run 0 Nat.one_pos
      rw [none_ _ (first.from_.trans (Nat.le_add_right _ _)) first.within] at free
      cases free
    · exact eq

/-- No block of the heap is that large. -/
theorem Sound.unfit (sound : Sound head k blocks) (large : 0xFFFFFFE0 < bytes) (words : bytes < 2 ^ 32) :
    ∀ c ∈ headBlock head.addr :: blocks, ¬ Fits (unitsOf bytes) c := by
  intro c inside fits
  have bound := (sound.ledger.layout.bounds c inside).2
  have room := fits.2
  unfold stop entryBytes at bound
  rcases unitsOf_large large words with ⟨units, -⟩ | ⟨units, -⟩ <;> omega

/-- At the end of the list, when there are no frames either. -/
theorem kallocFrom_none (linked : Linked s.memory (pre ++ [b])) (unfit : ¬ Fits units b)
    (none_ : memAllocateFrames s (framesOf units) memKernelFirstFrame memUserFirstFrame = (0, s)) :
    kallocFrom units (fuel + 1) s b.addr = some (0, s) := by
  have few : b.status = .free → b.size < units := fun free => by
    by_contra large
    exact unfit ⟨free, not_lt.mp large⟩
  rw [kallocFrom]
  simp only [linked.size_eq, linked.flags_eq, flags_eq_free, linked.next_eq, firstOf_nil]
  rw [if_neg, if_neg, if_neg (by simp), none_]
  · exact if_pos rfl
  · exact fun both => absurd (few both.1) (by omega)
  · exact fun both => absurd (few both.1) (by omega)

theorem Sound.refused (sound : Sound head k blocks) (fits : SizeFits k.state bytes)
    (large : 0xFFFFFFE0 < bytes) (words : bytes < 2 ^ 32) :
    ∃ fuel, kalloc head.addr fuel k.state bytes = some (0, k.state) := by
  have unfit := sound.unfit large words
  have linked := sound.linked
  have layout := sound.ledger.layout
  have start : head.addr = firstOf addr (headBlock head.addr :: blocks) 0 := rfl
  have some_ : headBlock head.addr :: blocks ≠ [] := List.cons_ne_nil _ _
  generalize headBlock head.addr :: blocks = all at unfit linked layout start some_
  obtain ⟨pre, b, rfl⟩ : ∃ pre b, all = pre ++ [b] :=
    ⟨all.dropLast, all.getLast some_, (List.dropLast_append_getLast some_).symm⟩
  refine ⟨1 + pre.length, ?_⟩
  unfold kalloc
  rw [start, @kallocFrom_walk k.state b _ 1 pre [] [] linked layout fun c inside =>
    unfit c (List.mem_append_left _ inside)]
  exact kallocFrom_none linked (unfit b (by simp)) (allocate_none fits large words)

theorem kalloced_refused : k.kalloced bytes 0 k.state = k := by
  have none_ : obtained k.state k.state = ∅ := by
    refine Set.eq_empty_iff_forall_notMem.mpr fun f ⟨_, _, free, used⟩ => ?_
    exact used_ne_free (used.symm.trans (isFree_iff.mp free))
  rw [Kernel.kalloced, none_, Set.union_empty, if_pos rfl]

/-! ## Runs -/

/-- A request that does not fit leaves the kernel as it is, so the run is one of requests within
the limit. -/
theorem reachable_of_requests {start : Kernel} (sound : Sound head start blocks)
    (reach : RequestReachable head.addr (fun k call => GoesWell k call ∧ RequestFits k call) start k) :
    Reachable head.addr GoesWell start k := by
  induction reach with
  | start => exact .start
  | @next k k' call _ allowed step ih =>
    cases step with
    | other step => exact .next ih allowed.1 step
    | @kalloc bytes fuel p s' words returned =>
      by_cases limit : bytes ≤ 0xFFFFFFE0
      · exact .next ih allowed.1 (.kalloc limit returned)
      · obtain ⟨blocks', sound'⟩ := reachable_sound sound ih
        obtain ⟨fuel', refused⟩ := sound'.refused allowed.2 (not_le.mp limit) words
        obtain ⟨rfl, rfl⟩ := kalloc_unique returned refused
        rw [kalloced_refused]
        exact ih

/-- From `mem_init` on, while requests fit and calls of `kfree` join only neighbours in memory, every
request that fits is granted or refused as a whole. -/
theorem requests_granted (returned : memInit head.addr map s = (0, s'))
    (reach : RequestReachable head.addr (fun k call => GoesWell k call ∧ RequestFits k call) (.boot s') k)
    (words : bytes < 2 ^ 32) (fits : SizeFits k.state bytes) : Granted head k bytes := by
  have start := sound_of_started (started_of_memInit returned)
  obtain ⟨blocks, sound⟩ := reachable_sound start (reachable_of_requests start reach)
  by_cases limit : bytes ≤ 0xFFFFFFE0
  · exact sound.granted limit
  · obtain ⟨fuel, refused⟩ := sound.refused fits (not_le.mp limit) words
    exact ⟨fuel, 0, k.state, refused, fun some_ => absurd rfl some_, fun _ => rfl⟩

/-- A second request on a machine of three megabytes. -/
theorem requests_granted_threeMegabytes : ∃ (s : State) (k : Kernel),
    memInit lowHead.addr threeMegabytes ⟨fun _ => 0, 0⟩ = (0, s) ∧
      RequestStep lowHead.addr (.boot s) (.kalloc 100) k ∧ Granted lowHead k 0xFFFFFFE0 := by
  obtain ⟨m, returned⟩ := memInit_threeMegabytes lowHead.addr ⟨fun _ => 0, 0⟩
  obtain ⟨k, step⟩ := @Sound.kalloc_step lowHead _ [] 100
    (sound_of_started (started_of_memInit returned)) (by decide)
  have allowed : GoesWell (.boot ⟨m, 768⟩) (.kalloc 100) ∧ RequestFits (.boot ⟨m, 768⟩) (.kalloc 100) :=
    ⟨trivial, .inl (by decide)⟩
  exact ⟨_, k, returned, .other step,
    requests_granted returned (.next .start allowed (.other step)) (by decide) (.inl le_rfl)⟩

/-! ## A request that wraps -/

/-- A search for no frames ends at the first one that is taken. -/
theorem allocate_zero (there : memKernelFirstFrame < searchEnd s.totalFrames memUserFirstFrame)
    (taken : isFree s.memory memKernelFirstFrame = false) :
    memAllocateFrames s 0 memKernelFirstFrame memUserFirstFrame = (0x101000, s) := by
  obtain ⟨n, more⟩ : ∃ n, searchEnd s.totalFrames memUserFirstFrame - memKernelFirstFrame = n + 1 :=
    Nat.exists_eq_succ_of_ne_zero (Nat.sub_ne_zero_of_lt there)
  unfold memAllocateFrames
  dsimp only
  rw [more, find, taken]
  rfl

/-- The frame behind it becomes an entry of almost 2^32 units, which holds every request. -/
theorem kalloc_wraps (linked : Linked s.memory [headBlock head.addr]) (units : unitsOf bytes = 2 ^ 28 - 1)
    (there : memKernelFirstFrame < searchEnd s.totalFrames memUserFirstFrame)
    (taken : isFree s.memory memKernelFirstFrame = false) :
    ∃ s', kalloc head.addr 2 s bytes = some (0x101010, s') := by
  have below := head.below
  unfold entryBytes memBitmapAddr at below
  have next : entryNext s.memory head.addr = 0 := congrArg Node.next linked.1
  have flags : entryFlags s.memory head.addr ≠ memAllocEntryFree := by
    have null : entryFlags s.memory head.addr = memAllocEntryNull :=
      congrArg (fun node : Node Nat Extent => node.data.flags) linked.1
    rw [null]
    decide
  have separated : Separated {head.addr, 0x101000} := by
    refine Set.pairwise_pair.mpr fun _ => ⟨fun i low j low' => ?_, fun i low j low' => ?_⟩ <;>
      · unfold cell entryBytes at *
        omega
  have inserted := @appendEntry_inserts s.memory _ head.addr 0x101000 0 separated (.inl rfl) (.inr rfl) next
    (show head.addr < 2 ^ 32 by omega) (by decide) (by omega)
  have front : entryNext (appendEntry s.memory head.addr 0x101000 0) head.addr = 0x101000 :=
    congrArg Node.next inserted.front
  have size : entrySize (appendEntry s.memory head.addr 0x101000 0) 0x101000 = 0xFFFFFFFF := by
    refine (congrArg (fun node : Node Nat Extent => node.data.size) inserted.back).trans ?_
    unfold frameUnits
    rfl
  have free : entryFlags (appendEntry s.memory head.addr 0x101000 0) 0x101000 = memAllocEntryFree :=
    congrArg (fun node : Node Nat Extent => node.data.flags) inserted.back
  have zero_ : framesOf (2 ^ 28 - 1) = 0 := rfl
  unfold kalloc
  rw [units, kallocFrom]
  dsimp only
  rw [if_neg fun both => flags both.1, if_neg fun both => flags both.1, if_neg (by simp [next]), zero_,
    allocate_zero there taken]
  dsimp only
  rw [if_neg (by decide), front, kallocFrom]
  dsimp only
  rw [free, size, if_neg (by decide), if_pos (by decide)]
  exact ⟨_, rfl⟩

/-- A request of 0xFFFFFFE1 bytes gets a block that no memory stands behind. -/
theorem wrapped_request_not_granted : ∃ s : State,
    memInit lowHead.addr threeMegabytes ⟨fun _ => 0, 0⟩ = (0, s) ∧ ¬ Granted lowHead (.boot s) 0xFFFFFFE1 := by
  obtain ⟨m, returned⟩ := memInit_threeMegabytes lowHead.addr ⟨fun _ => 0, 0⟩
  refine ⟨_, returned, ?_⟩
  rintro ⟨fuel, p, s', served, in_heap, -⟩
  have sound := sound_of_started (started_of_memInit returned)
  have taken : isFree m memKernelFirstFrame = false := by
    have reserved := sound.reserved memKernelFirstFrame
      (.inr ⟨0, show 0 < 768 by decide, by decide, rfl⟩)
    refine Bool.eq_false_iff.mpr fun free => ?_
    exact free_ne_reserved ((isFree_iff.mp free).symm.trans reserved)
  have there : memKernelFirstFrame < searchEnd 768 memUserFirstFrame := by decide
  obtain ⟨s'', wraps⟩ := @kalloc_wraps lowHead ⟨m, 768⟩ 0xFFFFFFE1 sound.linked (by decide) there taken
  obtain ⟨rfl, rfl⟩ := kalloc_unique served wraps
  rcases (in_heap (by decide)).1 0xFFFFFFFF (by decide) (by decide) with old | ⟨exists_, -⟩
  · exact old
  · exact absurd (show 0xFFFFFFFF / memFrameSize < 768 from exists_) (by decide)

end AtaKernel.Memory
