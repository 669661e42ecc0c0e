import AtaKernel.Memory.Heap
import AtaKernel.Memory.Blocks

/-! The edits that `kalloc` and `kfree` make to the list, as operations on
blocks. Each one writes only to headers, and each one needs no more than that the
headers it starts from lie apart. -/
namespace AtaKernel.Memory
open ByteMemory LinkedSegments Block

/-- The blocks are stored and linked in this order, from the first one to NULL. -/
def Linked (m : Memory) (bs : List Block) : Prop := Segment addr extent (header m) 0 bs 0

def heads (bs : List Block) : Set Nat := {x | ∃ b ∈ bs, b.addr = x}

/-- The bytes of the headers. -/
def headers (bs : List Block) : Set Nat := {x | ∃ b ∈ bs, b.addr ≤ x ∧ x < b.addr + entryBytes}

variable {m m' : Memory} {view : Nat → Node Nat Extent} {b c e f : Block} {units x : Nat}
  {pre post bs cs : List Block}

/-- Two lists that start at the same entry of one memory are the same. -/
theorem Linked.unique (linked : Linked m bs) (layout : Layout bs) (linked' : Linked m cs) (layout' : Layout cs)
    (first : firstOf addr bs 0 = firstOf addr cs 0) : bs = cs := by
  refine segment_unique (fun b c place same => ?_) (fun b inside => (layout.bounds b inside).1.ne')
    (fun b inside => (layout'.bounds b inside).1.ne') first linked linked'
  have flags : b.status.flags = c.status.flags := congrArg Extent.flags same
  exact Block.ext place (congrArg Extent.size same) (flags_inj flags)

theorem mem_heads (inside : b ∈ bs) : b.addr ∈ heads bs := ⟨b, inside, rfl⟩

/-- Edits of headers change no byte outside them. -/
theorem Edits.untouched (edits : Edits (heads bs) m m' view) (layout : Layout bs)
    (away : x ∉ headers bs) : m' x = m x := by
  apply edits.outside x
  rintro _ ⟨b, inside, rfl⟩ i low rfl
  have bound := (layout.bounds b inside).2
  have here : b.addr + i ∈ b.bytes := header_mem low
  have same : cell (b.addr + i) = b.addr + i := Nat.mod_eq_of_lt (here.2.trans bound)
  exact away ⟨b, inside, by omega, by omega⟩

theorem entryNext_lt (m : Memory) (e : Nat) : entryNext m e < 2 ^ 32 := load_lt _ _ _

theorem entrySize_lt (m : Memory) (e : Nat) : entrySize m e < 2 ^ 32 := load_lt _ _ _

theorem shrunk_lt (m : Memory) (e units : Nat) : entrySize m e - units - 1 < 2 ^ 32 := by
  have small := entrySize_lt m e
  omega

section Entries

variable {D : Set Nat} {e f n : Nat} {here new : Extent}

/-- `linkBack` as an edit. -/
def linkedBack (view : Nat → Node Nat Extent) (x e : Nat) : Nat → Node Nat Extent :=
  if x ≠ 0 then setPrev view x e else view

theorem Edits.linkBack (edits : Edits D m m' view) (separated : Separated D) (inside : e ∈ D)
    (next : (view e).next = n) (behind : n ≠ 0 → n ∈ D) (small : e < 2 ^ 32) :
    Edits D m (linkBack m' (entryNext m' e) e) (linkedBack view n e) := by
  unfold Memory.linkBack linkedBack
  rw [edits.next_eq inside, next]
  split
  · next there => exact edits.setPrev separated (behind there) small
  · exact edits

theorem Edits.copyNext (edits : Edits D m m' view) (separated : Separated D) (inside : e ∈ D)
    (from_ : f ∈ D) (next : (view f).next = n) :
    Edits D m (setEntryNext m' e (entryNext m' f)) (LinkedSegments.setNext view e n) := by
  rw [← next, ← edits.next_eq from_]
  exact edits.setNext separated inside (entryNext_lt m' f)

theorem linkedBack_next (there : n ≠ 0) : linkedBack view n e n = { view n with prev := e } := by
  rw [linkedBack, if_pos there, setPrev_self]

theorem linkedBack_of_ne {a : Nat} (other : a ≠ n) : linkedBack view n e a = view a := by
  unfold linkedBack
  split
  · exact setPrev_of_ne other
  · rfl

/-- The entry `n` now stands behind `e`, and only headers of entries in `D` have changed. -/
structure InsertedBehind (D : Set Nat) (m m' : Memory) (e n : Nat) (here new : Extent) : Prop where
  front : header m' e = { header m e with next := n, data := here }
  back : header m' n = ⟨entryNext m e, e, new⟩
  behind : entryNext m e ≠ 0 →
    header m' (entryNext m e) = { header m (entryNext m e) with prev := n }
  others : ∀ a ∈ D, a ≠ e → a ≠ n → a ≠ entryNext m e → header m' a = header m a
  outside : ∀ x, (∀ a ∈ D, ∀ i < entryBytes, x ≠ cell (a + i)) → m' x = m x

theorem splitEntry_inserts (separated : Separated D) (e_in : e ∈ D)
    (n_eq : (e + (units + 1) * entryBytes) % 2 ^ 32 = n) (n_in : n ∈ D)
    (next_in : entryNext m e ≠ 0 → entryNext m e ∈ D) (e_small : e < 2 ^ 32) (n_small : n < 2 ^ 32)
    (units_small : units < 2 ^ 32) (e_n : e ≠ n) (next_e : entryNext m e ≠ e)
    (next_n : entryNext m e ≠ n) :
    InsertedBehind D m (splitEntry m e units) e n ⟨units, memAllocEntryUsed⟩
      ⟨entrySize m e - units - 1, memAllocEntryFree⟩ := by
  subst n_eq
  have one := (Edits.refl D m).setFlags separated n_in (flags_lt .free)
  have size : entrySize (setEntryFlags m _ memAllocEntryFree) e = entrySize m e :=
    (one.size_eq e_in).trans (by rw [setData_of_ne e_n]; rfl)
  have two := one.setSize separated n_in
    (shrunk_lt (setEntryFlags m ((e + (units + 1) * entryBytes) % 2 ^ 32) memAllocEntryFree) e units)
  have three := two.copyNext separated n_in e_in
    (show _ = entryNext m e by rw [setData_of_ne e_n, setData_of_ne e_n]; rfl)
  have four := three.linkBack separated n_in (congrArg Node.next setNext_self) next_in n_small
  have five := four.setPrev separated n_in e_small
  have six := five.setNext separated e_in n_small
  have seven := six.setSize separated e_in units_small
  have eight := seven.setFlags separated e_in (flags_lt .used)
  refine ⟨(eight.agree e e_in).trans ?_, (eight.agree _ n_in).trans ?_,
    fun nonzero => (eight.agree _ (next_in nonzero)).trans ?_, fun a inside a_e a_n a_q =>
    (eight.agree a inside).trans ?_, fun x => eight.outside x⟩
  · simp only [setData_self, setNext_self]
    rw [setPrev_of_ne e_n, linkedBack_of_ne next_e.symm, setNext_of_ne e_n, setData_of_ne e_n,
      setData_of_ne e_n]
    rfl
  · rw [setData_of_ne e_n.symm, setData_of_ne e_n.symm, setNext_of_ne e_n.symm, setPrev_self,
      linkedBack_of_ne next_n.symm, setNext_self, setData_self, setData_self]
    simp only [size]
    rfl
  · rw [setData_of_ne next_e, setData_of_ne next_e, setNext_of_ne next_e, setPrev_of_ne next_n,
      linkedBack_next nonzero, setNext_of_ne next_n, setData_of_ne next_n, setData_of_ne next_n]
  · rw [setData_of_ne a_e, setData_of_ne a_e, setNext_of_ne a_e, setPrev_of_ne a_n,
      linkedBack_of_ne a_q, setNext_of_ne a_n, setData_of_ne a_n, setData_of_ne a_n]

theorem appendEntry_inserts {frames : Nat} (separated : Separated D) (e_in : e ∈ D) (n_in : n ∈ D)
    (last : entryNext m e = 0) (e_small : e < 2 ^ 32) (n_small : n < 2 ^ 32) (e_n : e ≠ n) :
    InsertedBehind D m (appendEntry m e n frames) e n (header m e).data
      ⟨frameUnits frames, memAllocEntryFree⟩ := by
  have one := (Edits.refl D m).setNext separated e_in n_small
  have two := one.setPrev separated n_in e_small
  have three := two.setNext separated n_in (show 0 < 2 ^ 32 by decide)
  have four := three.setFlags separated n_in (flags_lt .free)
  have five := four.setSize separated n_in (show frameUnits frames < 2 ^ 32 by
    unfold frameUnits
    exact Nat.mod_lt _ (by decide))
  refine ⟨(five.agree e e_in).trans ?_, (five.agree n n_in).trans ?_,
    fun nonzero => absurd last nonzero, fun a inside a_e a_n a_q => (five.agree a inside).trans ?_,
    fun x => five.outside x⟩
  · rw [setData_of_ne e_n, setData_of_ne e_n, setNext_of_ne e_n, setPrev_of_ne e_n, setNext_self]
  · simp only [setData_self, setNext_self, setPrev_self, last]
    rfl
  · rw [setData_of_ne a_n, setData_of_ne a_n, setNext_of_ne a_n, setPrev_of_ne a_n,
      setNext_of_ne a_e]

/-- The entry `f` behind `e` has dropped out of the list, and only headers of entries in `D` have
changed. -/
structure RemovedBehind (D : Set Nat) (m m' : Memory) (e f : Nat) (here : Extent) : Prop where
  front : header m' e = { header m e with next := entryNext m f, data := here }
  behind : entryNext m f ≠ 0 →
    header m' (entryNext m f) = { header m (entryNext m f) with prev := e }
  others : ∀ a ∈ D, a ≠ e → a ≠ entryNext m f → header m' a = header m a
  outside : ∀ x, (∀ a ∈ D, ∀ i < entryBytes, x ≠ cell (a + i)) → m' x = m x

theorem joinEntry_removes (separated : Separated D) (e_in : e ∈ D) (f_in : f ∈ D)
    (next_in : entryNext m f ≠ 0 → entryNext m f ∈ D) (e_small : e < 2 ^ 32)
    (sizes : entrySize m e + (entrySize m f + 1) < 2 ^ 32) (e_f : e ≠ f)
    (next_e : entryNext m f ≠ e) :
    RemovedBehind D m (joinEntry m e f) e f
      ⟨entrySize m e + (entrySize m f + 1), entryFlags m e⟩ := by
  have one := (Edits.refl D m).setSize separated e_in sizes
  have two := one.copyNext separated e_in f_in
    (show _ = entryNext m f by rw [setData_of_ne e_f.symm]; rfl)
  have three := two.linkBack separated e_in (congrArg Node.next setNext_self) next_in e_small
  refine ⟨(three.agree e e_in).trans ?_, fun nonzero => (three.agree _ (next_in nonzero)).trans ?_,
    fun a inside a_e a_q => (three.agree a inside).trans ?_, fun x => three.outside x⟩
  · rw [linkedBack_of_ne next_e.symm, setNext_self, setData_self]
    rfl
  · rw [linkedBack_next nonzero, setNext_of_ne next_e, setData_of_ne next_e]
  · rw [linkedBack_of_ne a_q, setNext_of_ne a_e, setData_of_ne a_e]

end Entries

theorem Linked.next_eq (linked : Linked m (pre ++ b :: post)) :
    entryNext m b.addr = firstOf addr post 0 :=
  congrArg Node.next (segment_middle linked)

theorem Linked.extent_eq (linked : Linked m (pre ++ b :: post)) : (header m b.addr).data = b.extent :=
  congrArg Node.data (segment_middle linked)

theorem Layout.addr_ne_firstOf (layout : Layout bs) (inside : c ∈ bs)
    (apart : ∀ d ∈ post, c.addr ≠ d.addr) : c.addr ≠ firstOf addr post 0 := by
  cases post with
  | nil => exact (layout.bounds c inside).1.ne'
  | cons d ds => exact apart d List.mem_cons_self

theorem InsertedBehind.linked {front n : Block} (linked : Linked m (pre ++ b :: post))
    (layout : Layout (pre ++ front :: n :: post)) (place : front.addr = b.addr)
    (inserted : InsertedBehind (heads (pre ++ front :: n :: post)) m m' b.addr n.addr front.extent
      n.extent) : Linked m' (pre ++ front :: n :: post) := by
  have next := linked.next_eq
  obtain ⟨pre_b, rest_b, pre_rest⟩ := layout.addr_ne
  rw [place] at pre_b rest_b
  have layout' : Layout ((pre ++ [front]) ++ n :: post) := by simpa using layout
  obtain ⟨pre_n, post_n, -⟩ := layout'.addr_ne
  refine segment_insert linked place inserted.front ?_ (fun c inside => ?_) ?_
  · rw [inserted.back, next]
  · refine inserted.others _ (mem_heads (by simp [inside])) (pre_b c inside)
      (pre_n c (by simp [inside])) ?_
    rw [next]
    exact layout.addr_ne_firstOf (by simp [inside])
      fun d there => pre_rest c inside d (List.mem_cons_of_mem n there)
  · rintro c cs rfl
    have nonzero : c.addr ≠ 0 := (layout.bounds c (by simp)).1.ne'
    have second := inserted.behind (by rw [next]; exact nonzero)
    rw [next] at second
    refine ⟨second, fun d inside => ?_⟩
    have layout'' : Layout ((pre ++ [front, n]) ++ c :: cs) := by simpa using layout
    refine inserted.others _ (mem_heads (by simp [inside])) (rest_b d (by simp [inside]))
      (post_n d (by simp [inside])) ?_
    rw [next]
    exact layout''.addr_ne.2.1 d inside

theorem RemovedBehind.linked {front : Block} (linked : Linked m (pre ++ b :: f :: post))
    (layout : Layout (pre ++ b :: f :: post)) (place : front.addr = b.addr)
    (removed : RemovedBehind (heads (pre ++ b :: f :: post)) m m' b.addr f.addr front.extent) :
    Linked m' (pre ++ front :: post) := by
  have layout' : Layout ((pre ++ [b]) ++ f :: post) := by simpa using layout
  have linked' : Linked m ((pre ++ [b]) ++ f :: post) := by simpa using linked
  have next := linked'.next_eq
  obtain ⟨pre_b, rest_b, pre_rest⟩ := layout.addr_ne
  refine segment_remove linked place removed.front (fun c inside => ?_) ?_
  · apply removed.others _ (mem_heads (by simp [inside])) (pre_b c inside)
    rw [next]
    exact layout.addr_ne_firstOf (by simp [inside])
      fun d there => pre_rest c inside d (List.mem_cons_of_mem f there)
  · rintro c cs rfl
    have nonzero : c.addr ≠ 0 := (layout.bounds c (by simp)).1.ne'
    have second := removed.behind (by rw [next]; exact nonzero)
    rw [next] at second
    refine ⟨second, fun d inside => ?_⟩
    have layout'' : Layout ((pre ++ [b, f]) ++ c :: cs) := by simpa using layout
    apply removed.others _ (mem_heads (by simp [inside])) (rest_b d (by simp [inside]))
    rw [next]
    exact layout''.addr_ne.2.1 d inside

/-! ## Blocks -/

/-- Nothing but headers of the blocks has changed. -/
def HeadersOnly (bs : List Block) (m m' : Memory) : Prop := ∀ x ∉ headers bs, m' x = m x

theorem HeadersOnly.of_outside (layout : Layout bs)
    (outside : ∀ x, (∀ a ∈ heads bs, ∀ i < entryBytes, x ≠ cell (a + i)) → m' x = m x) :
    HeadersOnly bs m m' :=
  fun x away => @Edits.untouched m m' (header m') x bs ⟨fun _ _ => rfl, outside⟩ layout away

theorem HeadersOnly.trans {m'' : Memory} (first : HeadersOnly bs m m')
    (second : HeadersOnly bs m' m'') : HeadersOnly bs m m'' :=
  fun x away => (second x away).trans (first x away)

theorem HeadersOnly.mono (writes : HeadersOnly bs m m')
    (places : ∀ b ∈ bs, ∃ c ∈ cs, c.addr = b.addr) : HeadersOnly cs m m' := by
  refine fun x away => writes x fun ⟨b, inside, low, high⟩ => away ?_
  obtain ⟨c, there, same⟩ := places b inside
  exact ⟨c, there, by omega, by omega⟩

theorem setFlags_linked {status : Status} (linked : Linked m (pre ++ b :: post))
    (layout : Layout (pre ++ b :: post)) :
    Linked (setEntryFlags m b.addr status.flags) (pre ++ { b with status := status } :: post) ∧
      HeadersOnly (pre ++ b :: post) m (setEntryFlags m b.addr status.flags) := by
  have edits : Edits (heads (pre ++ b :: post)) m (setEntryFlags m b.addr status.flags) _ :=
    (Edits.refl _ m).setFlags layout.separated (mem_heads (by simp)) (flags_lt status)
  obtain ⟨before, after, -⟩ := layout.addr_ne
  refine ⟨segment_update linked rfl ?_ (fun c inside => ?_) (fun c inside => ?_),
    .of_outside layout edits.outside⟩
  · rw [edits.agree _ (mem_heads (by simp)), setData_self, linked.extent_eq]
    rfl
  · rw [edits.agree _ (mem_heads (by simp [inside])), setData_of_ne (before c inside)]
  · rw [edits.agree _ (mem_heads (by simp [inside])), setData_of_ne (after c inside)]

theorem firstOf_mem (sub : post ⊆ bs) (nonzero : firstOf addr post 0 ≠ 0) :
    firstOf addr post 0 ∈ heads bs := by
  cases post with
  | nil => exact absurd rfl nonzero
  | cons c cs => exact mem_heads (sub List.mem_cons_self)

theorem splitEntry_linked (linked : Linked m (pre ++ b :: post)) (hole : units + 1 < b.size)
    (layout : Layout (pre ++ (carve units b ++ post))) :
    Linked (splitEntry m b.addr units) (pre ++ (carve units b ++ post)) ∧
      HeadersOnly (pre ++ (carve units b ++ post)) m (splitEntry m b.addr units) := by
  have carved : carve units b = [{ b with size := units, status := .used },
      ⟨b.addr + (units + 1) * entryBytes, b.size - units - 1, .free⟩] := if_neg (by omega)
  rw [carved] at layout ⊢
  simp only [List.cons_append, List.nil_append] at layout ⊢
  obtain ⟨front, front_eq⟩ : ∃ front, front = { b with size := units, status := Status.used } :=
    ⟨_, rfl⟩
  obtain ⟨n, n_eq⟩ : ∃ n, n = Block.mk (b.addr + (units + 1) * entryBytes) (b.size - units - 1)
    .free := ⟨_, rfl⟩
  rw [← front_eq, ← n_eq] at layout ⊢
  have place : front.addr = b.addr := by rw [front_eq]
  have n_in : n ∈ pre ++ front :: n :: post := by simp
  have front_in : front ∈ pre ++ front :: n :: post := by simp
  obtain ⟨pre_b, rest_b, -⟩ := layout.addr_ne
  have layout' : Layout ((pre ++ [front]) ++ n :: post) := by simpa using layout
  obtain ⟨pre_n, post_n, -⟩ := layout'.addr_ne
  rw [place] at pre_b rest_b
  have e_in : b.addr ∈ heads (pre ++ front :: n :: post) := place ▸ mem_heads front_in
  have size : entrySize m b.addr = b.size := congrArg Extent.size linked.extent_eq
  have n_addr : (b.addr + (units + 1) * entryBytes) % 2 ^ 32 = n.addr := by
    have small := layout.addr_lt n_in
    rw [n_eq] at small ⊢
    exact Nat.mod_eq_of_lt small
  have next_e : entryNext m b.addr ≠ b.addr := by
    rw [linked.next_eq, ← place]
    refine (layout.addr_ne_firstOf front_in fun d inside => ?_).symm
    rw [place]
    exact (rest_b d (List.mem_cons_of_mem n inside)).symm
  have next_n : entryNext m b.addr ≠ n.addr := by
    rw [linked.next_eq]
    exact (layout.addr_ne_firstOf n_in fun d inside => (post_n d inside).symm).symm
  have inserted := splitEntry_inserts layout.separated e_in n_addr (mem_heads n_in)
    (linked.next_eq ▸ firstOf_mem fun d inside => by simp [inside]) (place ▸ layout.addr_lt front_in)
    (layout.addr_lt n_in) (by have := layout.size_lt front_in; rwa [front_eq] at this)
    (rest_b n List.mem_cons_self).symm next_e next_n
  rw [size] at inserted
  have extents : front.extent = ⟨units, memAllocEntryUsed⟩ ∧
      n.extent = ⟨b.size - units - 1, memAllocEntryFree⟩ := by
    rw [front_eq, n_eq]
    exact ⟨rfl, rfl⟩
  rw [← extents.1, ← extents.2] at inserted
  exact ⟨inserted.linked linked layout place, .of_outside layout inserted.outside⟩

theorem appendEntry_linked {frames : Nat} (linked : Linked m (pre ++ [b]))
    (layout : Layout (pre ++ b :: [⟨x, frameUnits frames, .free⟩])) :
    Linked (appendEntry m b.addr x frames) (pre ++ b :: [⟨x, frameUnits frames, .free⟩]) ∧
      HeadersOnly (pre ++ b :: [⟨x, frameUnits frames, .free⟩]) m (appendEntry m b.addr x frames) := by
  obtain ⟨n, n_eq⟩ : ∃ n, n = Block.mk x (frameUnits frames) .free := ⟨_, rfl⟩
  have addr_eq : n.addr = x := by rw [n_eq]
  rw [← n_eq] at layout ⊢
  rw [← addr_eq]
  have n_in : n ∈ pre ++ b :: [n] := by simp
  have inserted : InsertedBehind _ m (appendEntry m b.addr n.addr frames) b.addr n.addr _ _ :=
    appendEntry_inserts layout.separated (mem_heads (by simp)) (mem_heads n_in)
      linked.next_eq (layout.addr_lt (by simp)) (layout.addr_lt n_in)
      (layout.addr_ne.2.1 n List.mem_cons_self).symm
  have extent : n.extent = ⟨frameUnits frames, memAllocEntryFree⟩ := by
    rw [n_eq]
    rfl
  rw [linked.extent_eq, ← extent] at inserted
  exact ⟨inserted.linked linked layout rfl, .of_outside layout inserted.outside⟩

theorem joinEntry_linked (linked : Linked m (pre ++ b :: f :: post))
    (layout : Layout (pre ++ b :: f :: post)) (sizes : b.size + (f.size + 1) < 2 ^ 32) :
    Linked (joinEntry m b.addr f.addr) (pre ++ b.join f :: post) ∧
      HeadersOnly (pre ++ b :: f :: post) m (joinEntry m b.addr f.addr) := by
  have linked' : Linked m ((pre ++ [b]) ++ f :: post) := by simpa using linked
  have b_in : b ∈ pre ++ b :: f :: post := by simp
  obtain ⟨-, rest_b, -⟩ := layout.addr_ne
  have size : entrySize m b.addr = b.size := congrArg Extent.size linked.extent_eq
  have flags : entryFlags m b.addr = b.status.flags := congrArg Extent.flags linked.extent_eq
  have size' : entrySize m f.addr = f.size := congrArg Extent.size linked'.extent_eq
  have removed := joinEntry_removes layout.separated (mem_heads b_in) (mem_heads (by simp))
    (linked'.next_eq ▸ firstOf_mem fun d inside => by simp [inside]) (layout.addr_lt b_in)
    (by rwa [size, size']) (rest_b f List.mem_cons_self).symm
    (linked'.next_eq ▸ (layout.addr_ne_firstOf b_in fun d inside =>
      (rest_b d (List.mem_cons_of_mem f inside)).symm).symm)
  rw [size, size', flags] at removed
  have removed' : RemovedBehind _ m _ b.addr f.addr (b.join f).extent := removed
  exact ⟨removed'.linked linked layout rfl, .of_outside layout removed'.outside⟩

/-- Joining `b` with the block behind it exactly if both are free. -/
theorem absorb_linked {joins : Prop} [Decidable joins] {behind : Nat}
    (linked : Linked m (pre ++ b :: post)) (layout : Layout (pre ++ b :: post))
    (if_free : joins ↔ b.status = .free ∧ ∃ c ∈ post.head?, c.status = .free)
    (place : ∀ c ∈ post.head?, behind = c.addr) :
    Linked (if joins then joinEntry m b.addr behind else m) (pre ++ absorb b post) ∧
      HeadersOnly (pre ++ b :: post) m (if joins then joinEntry m b.addr behind else m) := by
  cases post with
  | nil =>
    rw [if_neg (by simp [if_free])]
    exact ⟨linked, fun _ _ => rfl⟩
  | cons c cs =>
    obtain rfl := place c rfl
    have same : joins ↔ b.status = .free ∧ c.status = .free := by simp [if_free]
    rw [absorb_cons]
    by_cases both : b.status = .free ∧ c.status = .free
    · rw [if_pos (same.mpr both), if_pos both]
      have left := layout.size_le (show b ∈ _ by simp)
      have right := layout.size_le (show c ∈ _ by simp)
      exact joinEntry_linked linked layout (by omega)
    · rw [if_neg fun all => both (same.mp all), if_neg both]
      exact ⟨linked, fun _ _ => rfl⟩

theorem next_place (linked : Linked m (pre ++ b :: post)) :
    ∀ c ∈ post.head?, entryNext m b.addr = c.addr := by
  rw [linked.next_eq]
  cases post with
  | nil => simp
  | cons c cs => simp

theorem next_free_iff (linked : Linked m (pre ++ b :: post)) (layout : Layout (pre ++ b :: post)) :
    (entryNext m b.addr ≠ 0 ∧ entryFlags m (entryNext m b.addr) = memAllocEntryFree) ↔
      ∃ c ∈ post.head?, c.status = .free := by
  rw [linked.next_eq]
  cases post with
  | nil => simp
  | cons c cs =>
    have linked' : Linked m ((pre ++ [b]) ++ c :: cs) := by simpa using linked
    have flags : entryFlags m c.addr = c.status.flags := congrArg Extent.flags linked'.extent_eq
    have nonzero := (layout.bounds c (by simp)).1.ne'
    simp [flags, flags_eq_free, nonzero]

/-- `kfree` at the entry `f` behind `e`. The layout between the two joins is a condition of its own:
it does not follow when the first join does not meet. -/
theorem freeEntry_linked (linked : Linked m (pre ++ e :: f :: post))
    (layout : Layout (pre ++ e :: f :: post))
    (between : Layout (pre ++ e :: absorb f.freed post)) :
    Linked (freeEntry m e.addr f.addr) (pre ++ absorb e (absorb f.freed post)) ∧
      HeadersOnly (pre ++ e :: f :: post) m (freeEntry m e.addr f.addr) := by
  have linked' : Linked m ((pre ++ [e]) ++ f :: post) := by simpa using linked
  have layout' : Layout ((pre ++ [e]) ++ f :: post) := by simpa using layout
  have places : ∀ c ∈ absorb f.freed post, ∃ d ∈ f :: post, d.addr = c.addr := by
    intro c inside
    obtain ⟨d, there, same⟩ := absorb_places c inside
    rcases List.mem_cons.mp there with rfl | later
    · exact ⟨f, by simp, same⟩
    · exact ⟨d, by simp [later], same⟩
  obtain ⟨m1, m1_eq⟩ : ∃ m1, m1 = setEntryFlags m f.addr memAllocEntryFree := ⟨_, rfl⟩
  have one := @setFlags_linked m f (pre ++ [e]) post .free linked' layout'
  rw [flags_free, ← m1_eq] at one
  have freed_layout := layout_freed layout'
  have next_free : (entryNext m1 f.addr ≠ 0 ∧ entryFlags m1 (entryNext m1 f.addr) =
      memAllocEntryFree) ↔ ∃ c ∈ post.head?, c.status = .free :=
    @next_free_iff m1 f.freed _ _ one.1 freed_layout
  obtain ⟨m2, m2_eq⟩ : ∃ m2, m2 = if entryNext m1 f.addr ≠ 0 ∧
      entryFlags m1 (entryNext m1 f.addr) = memAllocEntryFree then
    joinEntry m1 f.addr (entryNext m1 f.addr) else m1 := ⟨_, rfl⟩
  have two : Linked m2 ((pre ++ [e]) ++ absorb f.freed post) ∧
      HeadersOnly ((pre ++ [e]) ++ f.freed :: post) m1 m2 := by
    rw [m2_eq]
    exact absorb_linked one.1 freed_layout
      (next_free.trans ⟨fun there => ⟨rfl, there⟩, fun both => both.2⟩)
      (@next_place m1 f.freed _ _ one.1)
  rw [List.append_assoc, List.singleton_append] at two
  have flags : entryFlags m2 e.addr = e.status.flags := congrArg Extent.flags two.1.extent_eq
  have three := @absorb_linked m2 e pre (absorb f.freed post) (entryFlags m2 e.addr =
    memAllocEntryFree) _ f.addr two.1 between ?_ ?_
  · have eq : freeEntry m e.addr f.addr = if entryFlags m2 e.addr = memAllocEntryFree then
        joinEntry m2 e.addr f.addr else m2 := by
      rw [m2_eq, m1_eq]
      rfl
    rw [eq]
    refine ⟨three.1, .trans (one.2.mono ?_) (.trans (two.2.mono ?_) (three.2.mono ?_))⟩
    · intro c inside
      exact ⟨c, by simpa using inside, rfl⟩
    · intro c inside
      simp only [List.append_assoc, List.singleton_append, List.mem_append, List.mem_cons] at inside
      rcases inside with before | rfl | rfl | after
      · exact ⟨c, by simp [before], rfl⟩
      · exact ⟨c, by simp, rfl⟩
      · exact ⟨f, by simp, rfl⟩
      · exact ⟨c, by simp [after], rfl⟩
    · intro c inside
      simp only [List.mem_append, List.mem_cons] at inside
      rcases inside with before | rfl | later
      · exact ⟨c, by simp [before], rfl⟩
      · exact ⟨c, by simp, rfl⟩
      · obtain ⟨d, there, same⟩ := places c later
        exact ⟨d, List.mem_append_right pre (List.mem_cons_of_mem e there), same⟩
  · rw [flags, flags_eq_free]
    obtain ⟨c, head, status⟩ := @absorb_head f post
    exact ⟨fun free => ⟨free, c, head, status⟩, fun both => both.1⟩
  · exact absorb_place

end AtaKernel.Memory
