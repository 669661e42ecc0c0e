import AtaKernel.Memory.Entries

/-! What the logical allocator is for, without its list: blocks of memory in a
row, each with a header, that are carved when memory is asked for and absorb each
other when it is given back. Carving stays inside the block; absorbing stays
inside the two blocks only if they meet. -/
namespace AtaKernel.Memory

inductive Status
  | null
  | free
  | used
  deriving DecidableEq

def Status.flags : Status → Nat
  | .null => memAllocEntryNull
  | .free => memAllocEntryFree
  | .used => memAllocEntryUsed

/-- A header at `addr` and `size` units behind it. -/
@[ext] structure Block where
  addr : Nat
  size : Nat
  status : Status

namespace Block

def stop (b : Block) : Nat := b.addr + (b.size + 1) * entryBytes

/-- The address that is handed out. -/
def pointer (b : Block) : Nat := b.addr + entryBytes

def extent (b : Block) : Extent := ⟨b.size, b.status.flags⟩

/-- What the block occupies, its header included. -/
def bytes (b : Block) : Set Nat := Set.Ico b.addr b.stop

def freed (b : Block) : Block := { b with status := .free }

/-- Large enough and free. -/
def Fits (units : Nat) (b : Block) : Prop := b.status = .free ∧ units ≤ b.size

/-- The block with `f` added to it. -/
def join (b f : Block) : Block := { b with size := b.size + (f.size + 1) }

/-- A unit more than was asked for stays with the block, since it would be an empty entry. -/
def carve (units : Nat) (b : Block) : List Block :=
  if b.size ≤ units + 1 then [{ b with status := .used }]
  else [{ b with size := units, status := .used },
    ⟨b.addr + (units + 1) * entryBytes, b.size - units - 1, .free⟩]

/-- A free block takes in the first one of the list, if that is free as well. -/
def absorb (b : Block) : List Block → List Block
  | [] => [b]
  | c :: cs => if b.status = .free ∧ c.status = .free then b.join c :: cs else b :: c :: cs

end Block

open Block

instance (units : Nat) (b : Block) : Decidable (Fits units b) := inferInstanceAs (Decidable (_ ∧ _))

variable {a z units : Nat} {b c d e f : Block} {pre mid mid' post bs cs xs ys : List Block}

theorem absorb_cons : absorb b (c :: cs) =
    if b.status = .free ∧ c.status = .free then b.join c :: cs else b :: c :: cs := rfl

@[simp] theorem flags_free : Status.flags .free = memAllocEntryFree := rfl

theorem flags_eq_free {status : Status} : status.flags = memAllocEntryFree ↔ status = .free := by
  cases status <;> decide

theorem flags_inj {status status' : Status} (same : status.flags = status'.flags) : status = status' := by
  cases status <;> cases status' <;> first | rfl | exact absurd same (by decide)

theorem flags_lt (status : Status) : status.flags < 2 ^ 32 := by
  cases status <;> decide

theorem Block.addr_lt_stop (b : Block) : b.addr < b.stop := by
  unfold stop entryBytes
  omega

theorem Block.addr_mem (b : Block) : b.addr ∈ b.bytes := ⟨le_rfl, b.addr_lt_stop⟩

theorem Block.header_mem {i : Nat} (low : i < entryBytes) : b.addr + i ∈ b.bytes := by
  refine ⟨Nat.le_add_right _ _, ?_⟩
  unfold stop
  unfold entryBytes at *
  omega

/-- A joined block is the two blocks, if they meet. -/
theorem Block.bytes_join (meets : f.addr = b.stop) : (b.join f).bytes = b.bytes ∪ f.bytes := by
  have stops : (b.join f).stop = f.stop := by
    simp only [join, stop] at meets ⊢
    rw [meets]
    ring
  have left := b.addr_lt_stop
  have right := f.addr_lt_stop
  rw [bytes, bytes, bytes, stops, meets, Set.Ico_union_Ico_eq_Ico left.le (by omega)]
  rfl

/-! ## Where blocks may lie -/

/-- The blocks have no byte in common and lie within the address space, away from NULL. -/
structure Layout (bs : List Block) : Prop where
  apart : bs.Pairwise fun b c => Disjoint b.bytes c.bytes
  bounds : ∀ b ∈ bs, 0 < b.addr ∧ b.stop < 2 ^ 32

/-- The new blocks lie where the old ones do. -/
def Within (new old : List Block) : Prop := ∀ c ∈ new, ∀ x ∈ c.bytes, ∃ b ∈ old, x ∈ b.bytes

theorem Layout.replace (layout : Layout (pre ++ (mid ++ post))) (inner : Layout mid')
    (within : Within mid' mid) : Layout (pre ++ (mid' ++ post)) := by
  have away : ∀ d : Block, (∀ b ∈ mid, Disjoint d.bytes b.bytes) → ∀ c ∈ mid', Disjoint d.bytes c.bytes := by
    intro d apart c inside
    rw [Set.disjoint_left]
    intro x here there
    obtain ⟨b, among, x_in⟩ := within c inside x there
    exact Set.disjoint_left.mp (apart b among) here x_in
  refine ⟨?_, fun b inside => ?_⟩
  · have all := layout.apart
    simp only [List.pairwise_append, List.mem_append] at all ⊢
    obtain ⟨before, ⟨-, after, mid_post⟩, pre_rest⟩ := all
    refine ⟨before, ⟨inner.apart, after, fun c inside d there => ?_⟩, fun d there c inside => ?_⟩
    · exact (away d (fun b among => (mid_post b among d there).symm) c inside).symm
    · rcases inside with inside | inside
      · exact away d (fun b among => pre_rest d there b (.inl among)) c inside
      · exact pre_rest d there c (.inr inside)
  · simp only [List.mem_append] at inside
    rcases inside with inside | inside | inside
    · exact layout.bounds b (by simp [inside])
    · exact inner.bounds b inside
    · exact layout.bounds b (by simp [inside])

theorem Layout.sublist (layout : Layout bs) (part : cs.Sublist bs) : Layout cs :=
  ⟨layout.apart.sublist part, fun b inside => layout.bounds b (part.subset inside)⟩

/-- Two blocks of a layout are the same block or have no byte in common. -/
theorem Layout.eq_or_disjoint (layout : Layout bs) (hb : b ∈ bs) (hc : c ∈ bs) :
    b = c ∨ Disjoint b.bytes c.bytes := by
  by_cases same : b = c
  · exact .inl same
  · have symmetric : Std.Symm fun b c : Block => Disjoint b.bytes c.bytes :=
      ⟨fun _ _ apart => apart.symm⟩
    exact .inr (layout.apart.forall hb hc same)

theorem Layout.eq_of_mem {x : Nat} (layout : Layout bs) (hb : b ∈ bs) (hc : c ∈ bs)
    (one : x ∈ b.bytes) (other : x ∈ c.bytes) : b = c := by
  rcases layout.eq_or_disjoint hb hc with same | apart
  · exact same
  · exact absurd other (Set.disjoint_left.mp apart one)

theorem Layout.eq_of_addr (layout : Layout bs) (hb : b ∈ bs) (hc : c ∈ bs)
    (same : b.addr = c.addr) : b = c :=
  layout.eq_of_mem hb hc b.addr_mem (same ▸ c.addr_mem)

/-- Headers in a layout share no cell. -/
theorem Layout.separated (layout : Layout bs) : Separated {x | ∃ b ∈ bs, b.addr = x} := by
  rintro _ ⟨b, hb, rfl⟩ _ ⟨c, hc, rfl⟩ different i hi j hj same
  have left := (layout.bounds b hb).2
  have right := (layout.bounds c hc).2
  have here : b.addr + i ∈ b.bytes := header_mem hi
  have there : c.addr + j ∈ c.bytes := header_mem hj
  have eq : b.addr + i = c.addr + j := by
    have := here.2
    have := there.2
    unfold ByteMemory.cell at same
    omega
  exact different (congrArg addr (layout.eq_of_mem hb hc here (eq ▸ there)))

theorem Layout.nodup (layout : Layout bs) : (bs.map addr).Nodup := by
  rw [List.nodup_map_iff_inj_on]
  · exact fun b hb c hc same => layout.eq_of_addr hb hc same
  · refine layout.apart.imp fun {b c} apart same => ?_
    subst same
    exact Set.disjoint_left.mp apart b.addr_mem b.addr_mem

theorem Layout.addr_lt (layout : Layout bs) (inside : b ∈ bs) : b.addr < 2 ^ 32 :=
  b.addr_lt_stop.trans (layout.bounds b inside).2

theorem Layout.size_lt (layout : Layout bs) (inside : b ∈ bs) : b.size < 2 ^ 32 := by
  have bound := (layout.bounds b inside).2
  unfold stop entryBytes at bound
  omega

theorem Layout.size_le (layout : Layout bs) (inside : b ∈ bs) : b.size < 2 ^ 28 := by
  have bound := (layout.bounds b inside).2
  unfold stop entryBytes at bound
  omega

/-- The addresses of a list of blocks that lie apart, seen from one of them. -/
theorem Layout.addr_ne (layout : Layout (pre ++ b :: post)) :
    (∀ c ∈ pre, c.addr ≠ b.addr) ∧ (∀ c ∈ post, c.addr ≠ b.addr) ∧
      ∀ c ∈ pre, ∀ d ∈ post, c.addr ≠ d.addr := by
  have distinct := layout.nodup
  simp only [List.map_append, List.map_cons, List.nodup_append, List.nodup_cons, List.mem_map,
    List.mem_cons, not_exists, not_and] at distinct
  obtain ⟨-, ⟨here, -⟩, before⟩ := distinct
  exact ⟨fun c inside => before _ ⟨c, inside, rfl⟩ _ (.inl rfl), here,
    fun c inside d there => before _ ⟨c, inside, rfl⟩ _ (.inr ⟨d, there, rfl⟩)⟩

/-! ## Carving -/

theorem layout_carve (layout : Layout [b]) : Layout (carve units b) := by
  obtain ⟨positive, top⟩ := layout.bounds b List.mem_cons_self
  unfold carve
  split
  · exact ⟨List.pairwise_singleton _ _, by simpa [stop] using ⟨positive, top⟩⟩
  · refine ⟨List.pairwise_pair.mpr ?_, ?_⟩
    · exact Set.Ico_disjoint_Ico.mpr ((min_le_left _ _).trans (le_max_right _ _))
    · unfold stop entryBytes at top
      simp only [List.mem_cons, List.not_mem_nil, or_false, forall_eq_or_imp, forall_eq, stop,
        entryBytes]
      omega

theorem within_carve : Within (carve units b) [b] := by
  intro c inside x here
  refine ⟨b, List.mem_cons_self, ?_⟩
  unfold carve at inside
  split at inside
  · rw [List.mem_singleton] at inside
    subst inside
    exact here
  · simp only [List.mem_cons, List.not_mem_nil, or_false] at inside
    simp only [bytes, stop, entryBytes, Set.mem_Ico] at here ⊢
    rcases inside with rfl | rfl <;>
      · simp only [entryBytes] at here
        omega

theorem carve_places : ∀ d ∈ pre ++ b :: post, ∃ c ∈ pre ++ (carve units b ++ post),
    c.addr = d.addr := by
  intro d inside
  rcases List.mem_append.mp inside with before | here
  · exact ⟨d, by simp [before], rfl⟩
  rcases List.mem_cons.mp here with rfl | after
  · unfold carve
    split
    · exact ⟨{ d with status := .used }, by simp, rfl⟩
    · exact ⟨{ d with size := units, status := .used }, by simp, rfl⟩
  · exact ⟨d, by simp [after], rfl⟩

/-! ## Absorbing -/

/-- The blocks that `absorb` joins meet. -/
def Meets (b : Block) (cs : List Block) : Prop :=
  ∀ c ∈ cs.head?, b.status = .free → c.status = .free → c.addr = b.stop

theorem layout_absorb (layout : Layout (b :: cs)) (meets : Meets b cs) : Layout (absorb b cs) := by
  cases cs with
  | nil => exact layout
  | cons c cs =>
    rw [absorb_cons]
    split
    · next both =>
      have touch := meets c rfl both.1 both.2
      have joined := bytes_join touch
      refine @Layout.replace [] [b, c] [b.join c] cs layout
        ⟨List.pairwise_singleton _ _, fun d inside => ?_⟩ fun d inside x here => ?_
      · rw [List.mem_singleton] at inside
        subst inside
        refine ⟨(layout.bounds b (by simp)).1, ?_⟩
        have top := (layout.bounds c (by simp)).2
        simp only [join, stop] at touch top ⊢
        unfold entryBytes at *
        omega
      · rw [List.mem_singleton] at inside
        subst inside
        rw [joined] at here
        rcases here with here | here
        · exact ⟨b, by simp, here⟩
        · exact ⟨c, by simp, here⟩
    · exact layout

theorem within_absorb (meets : Meets b cs) : Within (absorb b cs) (b :: cs) := by
  intro d inside x here
  cases cs with
  | nil => exact ⟨d, inside, here⟩
  | cons c cs =>
    rw [absorb_cons] at inside
    split at inside
    · next both =>
      rcases List.mem_cons.mp inside with rfl | later
      · rw [bytes_join (meets c rfl both.1 both.2)] at here
        rcases here with here | here
        · exact ⟨b, by simp, here⟩
        · exact ⟨c, by simp, here⟩
      · exact ⟨d, by simp [later], here⟩
    · exact ⟨d, inside, here⟩

theorem layout_freed (layout : Layout (pre ++ f :: post)) : Layout (pre ++ f.freed :: post) := by
  refine @Layout.replace pre [f] [f.freed] post layout
    ⟨List.pairwise_singleton _ _, fun b inside => ?_⟩ fun b inside x here => ⟨f, by simp, ?_⟩
  · rw [List.mem_singleton.mp inside]
    exact layout.bounds f (by simp)
  · rwa [List.mem_singleton.mp inside] at here

@[simp] theorem freed_addr : f.freed.addr = f.addr := rfl

theorem absorb_head : ∃ c ∈ (absorb f.freed post).head?, c.status = .free := by
  cases post with
  | nil => exact ⟨f.freed, rfl, rfl⟩
  | cons c cs =>
    rw [absorb_cons]
    split
    · exact ⟨f.freed.join c, rfl, rfl⟩
    · exact ⟨f.freed, rfl, rfl⟩

theorem absorb_place : ∀ c ∈ (absorb f.freed post).head?, f.addr = c.addr := by
  cases post with
  | nil => simp [absorb]
  | cons c cs =>
    rw [absorb_cons]
    split <;> simp [join]

theorem absorb_places : ∀ c ∈ absorb b post, ∃ d ∈ b :: post, d.addr = c.addr := by
  intro c inside
  cases post with
  | nil => exact ⟨c, inside, rfl⟩
  | cons d ds =>
    rw [absorb_cons] at inside
    split at inside
    · rcases List.mem_cons.mp inside with rfl | later
      · exact ⟨b, by simp, rfl⟩
      · exact ⟨c, by simp [later], rfl⟩
    · exact ⟨c, inside, rfl⟩

end AtaKernel.Memory
