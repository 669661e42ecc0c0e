import AtaKernel.Memory.Entries

/-! The logical allocator of `drivers/mem.c`: `kalloc` walks the list of entries
from the static `mem_head` on, takes the first free one that is large enough and
asks the physical allocator for frames at the end of the list; `kfree` walks to
the entry before the one that is freed and joins it with its neighbours in the
list. Both loops run on fuel, and `none` means that it ran out. -/
namespace AtaKernel.Memory
open ByteMemory

def kallocInit (memHead : Nat) (m : Memory) : Memory :=
  let m := setEntryNext m memHead 0
  let m := setEntryPrev m memHead 0
  let m := setEntrySize m memHead 0
  setEntryFlags m memHead memAllocEntryNull

/-- `if (x != NULL) x->prev = e;`. -/
def linkBack (m : Memory) (x e : Nat) : Memory := if x ≠ 0 then setEntryPrev m x e else m

/-! ## kalloc -/

/-- The size of a request in entries. -/
def unitsOf (bytes : Nat) : Nat :=
  let units := bytes / entryBytes
  if bytes % entryBytes > 0 then units + 1 else units

def framesOf (units : Nat) : Nat :=
  let bytes := (units + 1) * entryBytes % 2 ^ 32
  let frames := bytes / memFrameSize
  if bytes % memFrameSize > 0 then frames + 1 else frames

/-- `(frames * MEM_FRAME_SIZE) / sizeof(struct mem_entry) - 1`. -/
@[irreducible] def frameUnits (frames : Nat) : Nat :=
  (frames * memFrameSize % 2 ^ 32 / entryBytes + (2 ^ 32 - 1)) % 2 ^ 32

/-- We found a hole, so we can make it fit here. -/
def splitEntry (m : Memory) (e units : Nat) : Memory :=
  let n := (e + (units + 1) * entryBytes) % 2 ^ 32
  let m := setEntryFlags m n memAllocEntryFree
  let m := setEntrySize m n (entrySize m e - units - 1)
  let m := setEntryNext m n (entryNext m e)
  let m := linkBack m (entryNext m n) n
  let m := setEntryPrev m n e
  let m := setEntryNext m e n
  let m := setEntrySize m e units
  setEntryFlags m e memAllocEntryUsed

/-- The frames at `n` become an entry behind `e`, the last one. -/
def appendEntry (m : Memory) (e n frames : Nat) : Memory :=
  let m := setEntryNext m e n
  let m := setEntryPrev m n e
  let m := setEntryNext m n 0
  let m := setEntryFlags m n memAllocEntryFree
  setEntrySize m n (frameUnits frames)

/-- The loop of `kalloc` from the entry `e` on. -/
def kallocFrom (units : Nat) : Nat → State → Nat → Option (Nat × State)
  | 0, _, _ => none
  | fuel + 1, s, e =>
    let m := s.memory
    if entryFlags m e = memAllocEntryFree ∧ (entrySize m e = units ∨ entrySize m e = units + 1) then
      some ((e + entryBytes) % 2 ^ 32, { s with memory := setEntryFlags m e memAllocEntryUsed })
    else if entryFlags m e = memAllocEntryFree ∧ entrySize m e > units + 1 then
      some ((e + entryBytes) % 2 ^ 32, { s with memory := splitEntry m e units })
    else if entryNext m e ≠ 0 then kallocFrom units fuel s (entryNext m e)
    else
      -- only if we reached the end of the list
      let frames := framesOf units
      match memAllocateFrames s frames memKernelFirstFrame memUserFirstFrame with
      | (n, s) =>
        if n = 0 then some (0, s)
        else
          let m := appendEntry s.memory e n frames
          kallocFrom units fuel { s with memory := m } (entryNext m e)

/-- The pointer, or 0, and the state after the call. -/
def kalloc (memHead fuel : Nat) (s : State) (bytes : Nat) : Option (Nat × State) :=
  kallocFrom (unitsOf bytes) fuel s memHead

/-! ## kfree -/

/-- `e->size += f->size + 1; e->next = f->next; if (e->next != NULL) e->next->prev = e;`. -/
def joinEntry (m : Memory) (e f : Nat) : Memory :=
  let m := setEntrySize m e (entrySize m e + (entrySize m f + 1))
  let m := setEntryNext m e (entryNext m f)
  linkBack m (entryNext m e) e

/-- The entry `f` behind `e` becomes free, and is joined with free neighbours. -/
def freeEntry (m : Memory) (e f : Nat) : Memory :=
  let m := setEntryFlags m f memAllocEntryFree
  let m :=
    if entryNext m f ≠ 0 ∧ entryFlags m (entryNext m f) = memAllocEntryFree then
      joinEntry m f (entryNext m f)
    else m
  if entryFlags m e = memAllocEntryFree then joinEntry m e f else m

/-- The loop of `kfree` from the entry `e` on. -/
def kfreeFrom (ptr : Nat) : Nat → Memory → Nat → Option Memory
  | 0, _, _ => none
  | fuel + 1, m, e =>
    if entryNext m e = 0 then some m
    else if (entryNext m e + entryBytes) % 2 ^ 32 = ptr then
      if entryFlags m (entryNext m e) = memAllocEntryFree then some m
      else some (freeEntry m e (entryNext m e))
    else kfreeFrom ptr fuel m (entryNext m e)

def kfree (memHead fuel : Nat) (s : State) (ptr : Nat) : Option State :=
  if ptr = 0 then some s
  else (kfreeFrom ptr fuel s.memory memHead).map fun m => { s with memory := m }

/-! ## Fuel -/

variable {units ptr e fuel fuel' : Nat} {s : State} {m : Memory}

/-- More fuel does not change a call that returned. -/
theorem kallocFrom_mono {r : Nat × State} (returned : kallocFrom units fuel s e = some r)
    (more : fuel ≤ fuel') : kallocFrom units fuel' s e = some r := by
  induction fuel generalizing s e fuel' with
  | zero => cases returned
  | succ fuel ih =>
    obtain ⟨fuel', rfl⟩ : ∃ k, fuel' = k + 1 := ⟨fuel' - 1, by omega⟩
    unfold kallocFrom at returned ⊢
    by_cases whole : entryFlags s.memory e = memAllocEntryFree ∧
        (entrySize s.memory e = units ∨ entrySize s.memory e = units + 1)
    · rwa [if_pos whole] at returned ⊢
    rw [if_neg whole] at returned ⊢
    by_cases hole : entryFlags s.memory e = memAllocEntryFree ∧ entrySize s.memory e > units + 1
    · rwa [if_pos hole] at returned ⊢
    rw [if_neg hole] at returned ⊢
    by_cases another : entryNext s.memory e ≠ 0
    · rw [if_pos another] at returned ⊢
      exact ih returned (Nat.le_of_succ_le_succ more)
    rw [if_neg another] at returned ⊢
    revert returned
    dsimp only
    split
    · exact id
    · exact fun returned => ih returned (Nat.le_of_succ_le_succ more)

/-- Fuel decides whether a call returns, not what it returns. -/
theorem kalloc_unique {memHead bytes p p' : Nat} {s₁ s₂ : State}
    (one : kalloc memHead fuel s bytes = some (p, s₁))
    (other : kalloc memHead fuel' s bytes = some (p', s₂)) : p = p' ∧ s₁ = s₂ := by
  have left := kallocFrom_mono one (le_max_left fuel fuel')
  have right := kallocFrom_mono other (le_max_right fuel fuel')
  exact Prod.mk.inj (Option.some.inj (left.symm.trans right))

theorem kfreeFrom_mono {r : Memory} (returned : kfreeFrom ptr fuel m e = some r)
    (more : fuel ≤ fuel') : kfreeFrom ptr fuel' m e = some r := by
  induction fuel generalizing e fuel' with
  | zero => cases returned
  | succ fuel ih =>
    obtain ⟨fuel', rfl⟩ : ∃ k, fuel' = k + 1 := ⟨fuel' - 1, by omega⟩
    unfold kfreeFrom at returned ⊢
    by_cases last : entryNext m e = 0
    · rwa [if_pos last] at returned ⊢
    rw [if_neg last] at returned ⊢
    by_cases found : (entryNext m e + entryBytes) % 2 ^ 32 = ptr
    · rwa [if_pos found] at returned ⊢
    rw [if_neg found] at returned ⊢
    exact ih returned (Nat.le_of_succ_le_succ more)

end AtaKernel.Memory
