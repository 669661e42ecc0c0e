import AtaKernel.Library.LinkedSegments
import AtaKernel.Memory.Frames

/-! The entries of the logical allocator of `drivers/mem.c`. A `struct
mem_entry` is a header of four words that sits in the memory it describes; a
pointer to it is its address. Headers that do not share a cell can be edited one
after the other as if they were nodes of a store. -/
namespace AtaKernel.Memory
open ByteMemory LinkedSegments

def memAllocEntryNull : Nat := 0x00000000
def memAllocEntryFree : Nat := 0x00000001
def memAllocEntryUsed : Nat := 0x00000002

/-- `sizeof(struct mem_entry)`. -/
def entryBytes : Nat := 16

def entryNext (m : Memory) (e : Nat) : Nat := load m (e + 0) 4
def entryPrev (m : Memory) (e : Nat) : Nat := load m (e + 4) 4
def entrySize (m : Memory) (e : Nat) : Nat := load m (e + 8) 4
def entryFlags (m : Memory) (e : Nat) : Nat := load m (e + 12) 4

def setEntryNext (m : Memory) (e next : Nat) : Memory := store m (e + 0) 4 next
def setEntryPrev (m : Memory) (e prev : Nat) : Memory := store m (e + 4) 4 prev
def setEntrySize (m : Memory) (e size : Nat) : Memory := store m (e + 8) 4 size
def setEntryFlags (m : Memory) (e flags : Nat) : Memory := store m (e + 12) 4 flags

/-- The size and the flags of an entry. -/
structure Extent where
  size : Nat
  flags : Nat

/-- The entry at `e` as a node of the list. -/
def header (m : Memory) (e : Nat) : Node Nat Extent :=
  ⟨entryNext m e, entryPrev m e, entrySize m e, entryFlags m e⟩

variable {m m' : Memory} {view : Nat → Node Nat Extent} {D : Set Nat} {a e i j v : Nat}

/-! ## One field -/

private theorem fields_apart (order : i + 4 ≤ j ∨ j + 4 ≤ i) (left : i ≤ 12) (right : j ≤ 12) :
    Apart (e + i) 4 (e + j) 4 := by
  intro s hs t ht
  unfold cell
  omega

private theorem field_same (small : v < 2 ^ 32) : load (store m (e + i) 4 v) (e + i) 4 = v := by
  rw [load_store_same _ _ _ (by decide)]
  exact Nat.mod_eq_of_lt small

private theorem field_other (order : i + 4 ≤ j ∨ j + 4 ≤ i) (left : i ≤ 12) (right : j ≤ 12) :
    load (store m (e + j) 4 v) (e + i) 4 = load m (e + i) 4 :=
  load_store_apart _ _ (fields_apart order left right)

theorem header_setEntryNext (small : v < 2 ^ 32) :
    header (setEntryNext m e v) e = { header m e with next := v } := by
  simp only [header, entryNext, entryPrev, entrySize, entryFlags, setEntryNext]
  rw [field_same small, field_other (by omega) (by omega) (by omega),
    field_other (by omega) (by omega) (by omega), field_other (by omega) (by omega) (by omega)]

theorem header_setEntryPrev (small : v < 2 ^ 32) :
    header (setEntryPrev m e v) e = { header m e with prev := v } := by
  simp only [header, entryNext, entryPrev, entrySize, entryFlags, setEntryPrev]
  rw [field_same small, field_other (by omega) (by omega) (by omega),
    field_other (by omega) (by omega) (by omega), field_other (by omega) (by omega) (by omega)]

theorem header_setEntrySize (small : v < 2 ^ 32) :
    header (setEntrySize m e v) e =
      { header m e with data := ⟨v, (header m e).data.flags⟩ } := by
  simp only [header, entryNext, entryPrev, entrySize, entryFlags, setEntrySize]
  rw [field_same small, field_other (by omega) (by omega) (by omega),
    field_other (by omega) (by omega) (by omega), field_other (by omega) (by omega) (by omega)]

theorem header_setEntryFlags (small : v < 2 ^ 32) :
    header (setEntryFlags m e v) e =
      { header m e with data := ⟨(header m e).data.size, v⟩ } := by
  simp only [header, entryNext, entryPrev, entrySize, entryFlags, setEntryFlags]
  rw [field_same small, field_other (by omega) (by omega) (by omega),
    field_other (by omega) (by omega) (by omega), field_other (by omega) (by omega) (by omega)]

/-- A header is a matter of its own sixteen cells. -/
theorem header_congr (same : ∀ i < entryBytes, m' (cell (a + i)) = m (cell (a + i))) :
    header m' a = header m a := by
  have field : ∀ i ≤ 12, load m' (a + i) 4 = load m (a + i) 4 := by
    intro i low
    refine load_congr fun j inside => ?_
    have := same (i + j) (by unfold entryBytes; omega)
    rwa [← Nat.add_assoc] at this
  simp only [header, entryNext, entryPrev, entrySize, entryFlags]
  rw [field 0 (by omega), field 4 (by omega), field 8 (by omega), field 12 (by omega)]

/-! ## Edits of a set of entries -/

/-- No two of the entries share a cell. -/
def Separated (D : Set Nat) : Prop := D.Pairwise fun a e => Apart a entryBytes e entryBytes

/-- Only cells of the entries in `D` have changed, and the headers are now as in `view`. -/
structure Edits (D : Set Nat) (m m' : Memory) (view : Nat → Node Nat Extent) : Prop where
  agree : ∀ a ∈ D, header m' a = view a
  outside : ∀ x, (∀ e ∈ D, ∀ i < entryBytes, x ≠ cell (e + i)) → m' x = m x

theorem Edits.refl (D : Set Nat) (m : Memory) : Edits D m m (header m) :=
  ⟨fun _ _ => rfl, fun _ _ => rfl⟩

/-- Storing one word of the header of `e`. -/
private theorem Edits.store {view' : Nat → Node Nat Extent} (edits : Edits D m m' view)
    (separated : Separated D) (inside : e ∈ D) (low : i ≤ 12)
    (here : header (store m' (e + i) 4 v) e = view' e) (others : ∀ a, a ≠ e → view' a = view a) :
    Edits D m (store m' (e + i) 4 v) view' := by
  refine ⟨fun a within => ?_, fun x away => ?_⟩
  · by_cases same : a = e
    · rw [same, here]
    · rw [others a same, ← edits.agree a within]
      refine header_congr fun k small => store_outside _ (fun j few => ?_) _
      have apart := separated within inside same k small (i + j) (by unfold entryBytes; omega)
      rwa [← Nat.add_assoc] at apart
  · rw [store_outside _ (fun j few => ?_), edits.outside x away]
    have apart := away e inside (i + j) (by unfold entryBytes; omega)
    rwa [← Nat.add_assoc] at apart

theorem Edits.setNext (edits : Edits D m m' view) (separated : Separated D) (inside : e ∈ D)
    (small : v < 2 ^ 32) : Edits D m (setEntryNext m' e v) (setNext view e v) := by
  refine edits.store separated inside (by omega) ?_ fun a other => setNext_of_ne other
  rw [setNext_self, ← edits.agree e inside]
  exact header_setEntryNext small

theorem Edits.setPrev (edits : Edits D m m' view) (separated : Separated D) (inside : e ∈ D)
    (small : v < 2 ^ 32) : Edits D m (setEntryPrev m' e v) (setPrev view e v) := by
  refine edits.store separated inside (by omega) ?_ fun a other => setPrev_of_ne other
  rw [setPrev_self, ← edits.agree e inside]
  exact header_setEntryPrev small

theorem Edits.setSize (edits : Edits D m m' view) (separated : Separated D) (inside : e ∈ D)
    (small : v < 2 ^ 32) :
    Edits D m (setEntrySize m' e v) (setData view e ⟨v, (view e).data.flags⟩) := by
  refine edits.store separated inside (by omega) ?_ fun a other => setData_of_ne other
  rw [setData_self, ← edits.agree e inside]
  exact header_setEntrySize small

theorem Edits.setFlags (edits : Edits D m m' view) (separated : Separated D) (inside : e ∈ D)
    (small : v < 2 ^ 32) :
    Edits D m (setEntryFlags m' e v) (setData view e ⟨(view e).data.size, v⟩) := by
  refine edits.store separated inside (by omega) ?_ fun a other => setData_of_ne other
  rw [setData_self, ← edits.agree e inside]
  exact header_setEntryFlags small

theorem Edits.next_eq (edits : Edits D m m' view) (inside : e ∈ D) :
    entryNext m' e = (view e).next :=
  congrArg Node.next (edits.agree e inside)

theorem Edits.size_eq (edits : Edits D m m' view) (inside : e ∈ D) :
    entrySize m' e = (view e).data.size :=
  congrArg (fun node : Node Nat Extent => node.data.size) (edits.agree e inside)

end AtaKernel.Memory
