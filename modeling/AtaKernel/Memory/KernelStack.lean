import AtaKernel.Memory.MemoryMap
import AtaKernel.Memory.Runs

/-! The frame of the kernel's stack, the last one of the kernel's space. A frame that
was given out stays as it is until its owner stores to it or gives it back: no call
writes to it, the heap does not grow into it, and no search finds it. -/
namespace AtaKernel.Memory
open ByteMemory RunSearch LinkedSegments Block

def memKernelStackTop : Nat := memKernelHeapAddr + memKernelHeapSize
def memKernelStackFrame : Nat := memKernelStackTop / memFrameSize - 1

theorem memKernelStackFrame_eq : memKernelStackFrame = 767 := rfl

variable {head : MemHead} {start k k' : Kernel} {blocks : List Block} {s s₁ : State} {call : Call} {f p : Nat}

/-! ## A frame that was given out -/

/-- The call is no release of the frame. -/
def Spares (f : Nat) : Call → Prop
  | .release addr count => f ∉ framesAt addr count
  | _ => True

/-- The other owner keeps the frame. -/
theorem step_keeps_frame (step : Step head.addr k call k') (spares : Spares f call) (inside : f ∈ k.otherFrames) :
    f ∈ k'.otherFrames := by
  cases step with
  | kalloc => exact inside
  | kfree => exact inside
  | allocate =>
    dsimp only
    split
    · exact inside
    · exact .inl inside
  | release => exact ⟨inside, spares⟩
  | store => exact inside

theorem reachable_keeps_frame (reach : Reachable head.addr (fun k call => GoesWell k call ∧ Spares f call) start k)
    (inside : f ∈ start.otherFrames) : f ∈ k.otherFrames := by
  induction reach with
  | start => exact inside
  | next _ allowed step ih => exact step_keeps_frame step allowed.2 ih

theorem reachable_well (reach : Reachable head.addr (fun k call => GoesWell k call ∧ Spares f call) start k) :
    Reachable head.addr GoesWell start k := by
  induction reach with
  | start => exact .start
  | next _ allowed step ih => exact .next ih allowed.1 step

/-- No call changes a byte that another owner holds, apart from a store to it. -/
theorem step_leaves_frame {x : Nat} (sound : Sound head k blocks) (well : GoesWell k call)
    (step : Step head.addr k call k') (inside : x / memFrameSize ∈ k.otherFrames)
    (no_store : ∀ value, call ≠ .store x value) : k'.state.memory x = k.state.memory x := by
  obtain ⟨no_header, no_entry⟩ := sound.owned_plain (.inr inside)
  have clear : ∀ g < k.state.totalFrames, g < 2 ^ 32 → x ≠ bitmapByte g :=
    fun g there small => no_entry g ⟨small, .inl there⟩
  cases step with
  | kalloc limit returned =>
    obtain ⟨blocks', row, serves⟩ := sound.kalloc_serves limit returned
    exact serves.outside x ((serves.sound sound).owned_plain (.inr inside)).1 no_entry
  | kfree returned =>
    obtain ⟨m', bs', rfl, does⟩ := kfree_does sound.linked sound.ledger.layout (sound.freesWell well) returned
    obtain ⟨-, -, -, writes⟩ := sound.kfree well does
    exact writes x no_header
  | allocate words returned => exact allocateFrames_outside words returned clear
  | release words own => exact releaseFrames_outside words clear
  | @store y value words owned =>
    have other : x ≠ cell y := fun same => no_store value (by rw [same, cell_low words])
    exact Function.update_of_ne other _ _

/-- No search finds a frame that is in use. -/
theorem search_spares_used {count first last addr : Nat} (words : last < 2 ^ 32)
    (named : Nameable s count first last)
    (used : memBitmapGetEntry s.memory f = memBitmapEntryUsed)
    (returned : memAllocateFrames s count first last = (addr, s₁)) (some_ : addr ≠ 0) : f ∉ framesAt addr count := by
  intro inside
  rcases Nat.eq_zero_or_pos count with rfl | positive
  · exact absurd inside.1 (Nat.not_le.mpr inside.2)
  rcases @memAllocateFrames_spec count first last s positive words with ⟨low, s', found, -, eq⟩ | ⟨-, eq⟩
  · obtain ⟨rfl, rfl⟩ := Prod.mk.inj (eq.symm.trans returned)
    rw [framesAt_row (named low found) positive] at inside
    exact used_ne_free (used.symm.trans (free_of_run found.run inside.1 inside.2))
  · exact some_ (congrArg Prod.fst (returned.symm.trans eq))

/-! ## The stack -/

/-- `mem_allocate_frames(1, MEM_KERNEL_STACK_FRAME, MEM_USER_FIRST_FRAME)` -/
theorem allocates_stack (s : State) :
    (memKernelStackFrame < s.totalFrames ∧ memBitmapGetEntry s.memory memKernelStackFrame = memBitmapEntryFree →
      ∃ s', Taken s s' memKernelStackFrame 1 ∧ memAllocateFrames s 1 memKernelStackFrame memUserFirstFrame =
        (memKernelStackFrame * memFrameSize, s')) ∧
    (¬ (memKernelStackFrame < s.totalFrames ∧ memBitmapGetEntry s.memory memKernelStackFrame = memBitmapEntryFree) →
      memAllocateFrames s 1 memKernelStackFrame memUserFirstFrame = (0, s)) := by
  have last_le : searchEnd s.totalFrames memUserFirstFrame ≤ 768 := searchEnd_le_last _ (by decide)
  have total_le := searchEnd_le s.totalFrames memUserFirstFrame
  rcases @memAllocateFrames_spec 1 memKernelStackFrame memUserFirstFrame s (by decide) memUserFirstFrame_lt with
    ⟨low, s', found, taken, eq⟩ | ⟨none_, eq⟩
  · have within := found.within
    have from_ := found.from_
    rw [memKernelStackFrame_eq] at from_
    obtain rfl : low = 767 := by omega
    have free := free_of_run found.run (le_refl 767) (by omega)
    refine ⟨fun _ => ⟨s', taken, eq⟩, fun fails => absurd ⟨?_, free⟩ fails⟩
    rw [memKernelStackFrame_eq]
    omega
  · refine ⟨fun ⟨there, free⟩ => ?_, fun _ => eq⟩
    have ends : searchEnd s.totalFrames memUserFirstFrame = 768 := by
      unfold searchEnd
      rw [memUserFirstFrame_eq, if_neg]
      rw [memKernelStackFrame_eq] at there
      omega
    refine absurd (fun i low => ?_) (none_ memKernelStackFrame le_rfl (by rw [ends]; decide))
    obtain rfl : i = 0 := by omega
    exact isFree_iff.mpr free

/-- Behind the allocation of the stack. -/
def Kernel.withStack (s : State) (p : Nat) : Kernel := ⟨s, ∅, framesAt p 1, []⟩

theorem framesAt_stack : framesAt (memKernelStackFrame * memFrameSize) 1 = {memKernelStackFrame} := by
  ext f
  change 767 ≤ f ∧ f < 767 + 1 ↔ f = 767
  omega

theorem sound_of_stack (started : Started head s)
    (returned : memAllocateFrames s 1 memKernelStackFrame memUserFirstFrame = (p, s₁)) (some_ : p ≠ 0) :
    p = memKernelStackFrame * memFrameSize ∧ Sound head (.withStack s₁ p) [] := by
  have named : Nameable s 1 memKernelStackFrame memUserFirstFrame := fun low found => by
    have within := found.within
    have last_le : searchEnd s.totalFrames memUserFirstFrame ≤ 768 := searchEnd_le_last _ (by decide)
    omega
  have sound := (sound_of_started started).allocate memUserFirstFrame_lt named returned
  rw [if_neg some_] at sound
  refine ⟨?_, by simpa [Kernel.withStack, Kernel.boot] using sound⟩
  obtain ⟨given, refused⟩ := allocates_stack s
  by_cases free : memKernelStackFrame < s.totalFrames ∧
      memBitmapGetEntry s.memory memKernelStackFrame = memBitmapEntryFree
  · obtain ⟨s', -, eq⟩ := given free
    exact (congrArg Prod.fst (eq.symm.trans returned)).symm
  · exact absurd (congrArg Prod.fst (returned.symm.trans (refused free))) some_

/-- In every run in which nobody gives the stack's frame back, the heap stays below the stack, only stores to the stack
change it, and no search finds its frame. -/
theorem kernel_stack_kept (started : Started head s)
    (returned : memAllocateFrames s 1 memKernelStackFrame memUserFirstFrame = (p, s₁)) (some_ : p ≠ 0)
    (reach : Reachable head.addr (fun k call => GoesWell k call ∧ Spares memKernelStackFrame call)
      (.withStack s₁ p) k) :
    p + memFrameSize = memKernelStackTop ∧
      (∀ r ∈ k.live, r.1 + r.2 ≤ p) ∧
      (∀ call k' x, GoesWell k call → Step head.addr k call k' → p ≤ x → x < memKernelStackTop →
        (∀ value, call ≠ .store x value) → k'.state.memory x = k.state.memory x) ∧
      ∀ count first last addr s', last < 2 ^ 32 → Nameable k.state count first last →
        memAllocateFrames k.state count first last = (addr, s') → addr ≠ 0 →
          memKernelStackFrame ∉ framesAt addr count := by
  obtain ⟨rfl, sound₁⟩ := sound_of_stack started returned some_
  obtain ⟨blocks, sound⟩ := reachable_sound sound₁ (reachable_well reach)
  have inside : memKernelStackFrame ∈ k.otherFrames :=
    reachable_keeps_frame reach (Set.ext_iff.mp framesAt_stack _ |>.mpr rfl)
  obtain ⟨-, -, apart, used⟩ := sound.others _ inside
  refine ⟨rfl, fun r handed => ?_, fun call k' x well step above under no_store => ?_,
    fun count first last addr s' words named given nonzero => search_spares_used words named used given nonzero⟩
  · obtain ⟨b, among, -, place, ends⟩ := sound.behind handed
    have last : b.stop - 1 ∈ b.bytes := by
      constructor
      all_goals
        unfold stop entryBytes
        omega
    have held := sound.ledger.covered b among _ last
    obtain ⟨-, below, -⟩ := sound.heap _ held
    have other : (b.stop - 1) / memFrameSize ≠ memKernelStackFrame := fun same => apart (same ▸ held)
    rw [memUserFirstFrame_eq] at below
    rw [memKernelStackFrame_eq] at other ⊢
    unfold memFrameSize at *
    omega
  · refine step_leaves_frame sound well step ?_ no_store
    have here : x / memFrameSize = memKernelStackFrame := by
      change 767 * 4096 ≤ x at above
      change x < 768 * 4096 at under
      change x / 4096 = 767
      omega
    exact here ▸ inside

/-- On a machine of three megabytes, with a block of 100 bytes. -/
theorem kernel_stack_kept_threeMegabytes : ∃ (s s₁ : State) (k : Kernel),
    memInit lowHead.addr threeMegabytes ⟨fun _ => 0, 0⟩ = (0, s) ∧
      memAllocateFrames s 1 memKernelStackFrame memUserFirstFrame = (0x2ff000, s₁) ∧
      Step lowHead.addr (.withStack s₁ 0x2ff000) (.kalloc 100) k ∧ ∀ r ∈ k.live, r.1 + r.2 ≤ 0x2ff000 := by
  obtain ⟨m, returned⟩ := memInit_threeMegabytes lowHead.addr ⟨fun _ => 0, 0⟩
  have started := started_of_memInit returned
  have there : memKernelStackFrame < 768 := by decide
  have behind : bitmapLast ⟨m, 768⟩ < memKernelStackFrame := by
    change (0x100000 + 768 / 4) / 4096 < 767
    decide
  have free := free_of_memInit returned available_threeMegabytes (by norm_num) there behind
  obtain ⟨s₁, -, given⟩ := (allocates_stack ⟨m, 768⟩).1 ⟨there, isFree_iff.mp free⟩
  obtain ⟨-, sound⟩ := sound_of_stack started given (by decide)
  obtain ⟨k, step⟩ := sound.kalloc_step (by decide : 100 ≤ 0xFFFFFFE0)
  have allowed : GoesWell (.withStack s₁ 0x2ff000) (.kalloc 100) ∧ Spares memKernelStackFrame (.kalloc 100) :=
    ⟨trivial, trivial⟩
  have reach : Reachable lowHead.addr (fun k call => GoesWell k call ∧ Spares memKernelStackFrame call)
      (.withStack s₁ 0x2ff000) k := .next .start allowed step
  exact ⟨_, s₁, k, returned, given, step, (kernel_stack_kept started given (by decide) reach).2.1⟩

end AtaKernel.Memory
