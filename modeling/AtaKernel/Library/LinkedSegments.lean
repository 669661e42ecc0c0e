import Mathlib

/-! Doubly linked lists in a store of nodes. A segment is a stretch of such a
list between a node before it and a node after it; every node carries some data
besides its links. A list is edited in the middle, and what lies before and
after the edit stays linked if its nodes were left alone. -/
namespace LinkedSegments

/-- What is stored at one address. -/
@[ext] structure Node (α δ : Type) where
  next : α
  prev : α
  data : δ

variable {α δ β : Type} (addr : β → α) (data : β → δ)

/-- The address of the first element, or what follows an empty list. -/
def firstOf : List β → α → α
  | [], q => q
  | b :: _, _ => addr b

/-- The address of the last element, or what comes before an empty list. -/
def lastOf : α → List β → α
  | p, [] => p
  | _, b :: bs => lastOf (addr b) bs

/-- The elements are stored and linked in this order, after `p` and before `q`. -/
def Segment (view : α → Node α δ) : α → List β → α → Prop
  | _, [], _ => True
  | p, b :: bs, q =>
    view (addr b) = ⟨firstOf addr bs q, p, data b⟩ ∧ Segment view (addr b) bs q

variable {addr data} {view view' : α → Node α δ} {p p' q : α} {pre mid mid' post xs ys bs : List β}

@[simp] theorem firstOf_nil : firstOf addr ([] : List β) q = q := rfl

@[simp] theorem firstOf_cons {b : β} : firstOf addr (b :: bs) q = addr b := rfl

@[simp] theorem lastOf_nil : lastOf addr p ([] : List β) = p := rfl

@[simp] theorem lastOf_cons {b : β} : lastOf addr p (b :: bs) = lastOf addr (addr b) bs := rfl

theorem firstOf_append : firstOf addr (xs ++ ys) q = firstOf addr xs (firstOf addr ys q) := by
  cases xs <;> rfl

theorem lastOf_append : lastOf addr p (xs ++ ys) = lastOf addr (lastOf addr p xs) ys := by
  induction xs generalizing p with
  | nil => rfl
  | cons x xs ih => exact ih

/-- Two segments that meet are one. -/
theorem segment_append : Segment addr data view p (xs ++ ys) q ↔
    Segment addr data view p xs (firstOf addr ys q) ∧
      Segment addr data view (lastOf addr p xs) ys q := by
  induction xs generalizing p with
  | nil => simp [Segment]
  | cons x xs ih =>
    simp only [List.cons_append, Segment, firstOf_append, lastOf_cons, ih, and_assoc]

/-- A segment is a matter of its own nodes. -/
theorem segment_congr (same : ∀ b ∈ bs, view' (addr b) = view (addr b))
    (segment : Segment addr data view p bs q) : Segment addr data view' p bs q := by
  induction bs generalizing p with
  | nil => trivial
  | cons b bs ih =>
    refine ⟨(same b List.mem_cons_self).trans segment.1, ih ?_ segment.2⟩
    exact fun c inside => same c (List.mem_cons_of_mem b inside)

/-- A segment comes to stand after another node when the back link of its first node says so. -/
theorem segment_after {b : β} (first : view' (addr b) = { view (addr b) with prev := p' })
    (same : ∀ c ∈ bs, view' (addr c) = view (addr c))
    (segment : Segment addr data view p (b :: bs) q) :
    Segment addr data view' p' (b :: bs) q := by
  refine ⟨?_, segment_congr same segment.2⟩
  rw [first, segment.1]

/-- Replacing the middle of a list keeps it linked if the nodes before are left alone, the new
middle is linked and starts at the same address, and the nodes after follow it. -/
theorem segment_replace (mid mid' : List β)
    (whole : Segment addr data view p (pre ++ (mid ++ post)) q)
    (start : firstOf addr (mid' ++ post) q = firstOf addr (mid ++ post) q)
    (before : ∀ b ∈ pre, view' (addr b) = view (addr b))
    (middle : Segment addr data view' (lastOf addr p pre) mid' (firstOf addr post q))
    (after : Segment addr data view' (lastOf addr (lastOf addr p pre) mid') post q) :
    Segment addr data view' p (pre ++ (mid' ++ post)) q := by
  rw [segment_append] at whole ⊢
  rw [start]
  refine ⟨segment_congr before whole.1, ?_⟩
  rw [segment_append]
  exact ⟨middle, after⟩

/-- What is stored in the middle of a list. -/
theorem segment_middle {b : β} (whole : Segment addr data view p (pre ++ b :: post) q) :
    view (addr b) = ⟨firstOf addr post q, lastOf addr p pre, data b⟩ :=
  (segment_append.mp whole).2.1

theorem segment_suffix (whole : Segment addr data view p (pre ++ post) q) :
    Segment addr data view (lastOf addr p pre) post q :=
  (segment_append.mp whole).2

/-- What is stored tells the elements, if none of them is stored where the list ends. -/
theorem segment_unique (faithful : ∀ b c : β, addr b = addr c → data b = data c → b = c)
    (inside : ∀ b ∈ xs, addr b ≠ q) (inside' : ∀ b ∈ ys, addr b ≠ q)
    (first : firstOf addr xs q = firstOf addr ys q) (segment : Segment addr data view p xs q)
    (segment' : Segment addr data view p ys q) : xs = ys := by
  induction xs generalizing ys p with
  | nil =>
    cases ys with
    | nil => rfl
    | cons c ys => exact absurd first.symm (inside' c List.mem_cons_self)
  | cons b xs ih =>
    cases ys with
    | nil => exact absurd first (inside b List.mem_cons_self)
    | cons c ys =>
      have place : addr b = addr c := first
      have here := segment.1.symm.trans ((congrArg view place).trans segment'.1)
      obtain rfl := faithful b c place (congrArg Node.data here)
      have rest := ih (fun d later => inside d (List.mem_cons_of_mem b later))
        (fun d later => inside' d (List.mem_cons_of_mem b later)) (congrArg Node.next here) segment.2 segment'.2
      rw [rest]

/-! ### One node -/

section Nodes

variable [DecidableEq α] {a e v : α} {d : δ}

def setNext (view : α → Node α δ) (e v : α) : α → Node α δ :=
  Function.update view e { view e with next := v }

def setPrev (view : α → Node α δ) (e v : α) : α → Node α δ :=
  Function.update view e { view e with prev := v }

def setData (view : α → Node α δ) (e : α) (d : δ) : α → Node α δ :=
  Function.update view e { view e with data := d }

@[simp] theorem setNext_self : setNext view e v e = { view e with next := v } :=
  Function.update_self _ _ _

@[simp] theorem setPrev_self : setPrev view e v e = { view e with prev := v } :=
  Function.update_self _ _ _

@[simp] theorem setData_self : setData view e d e = { view e with data := d } :=
  Function.update_self _ _ _

theorem setNext_of_ne (other : a ≠ e) : setNext view e v a = view a :=
  Function.update_of_ne other _ _

theorem setPrev_of_ne (other : a ≠ e) : setPrev view e v a = view a :=
  Function.update_of_ne other _ _

theorem setData_of_ne (other : a ≠ e) : setData view e d a = view a :=
  Function.update_of_ne other _ _

end Nodes

/-! ### Edits -/

/-- The nodes of `post` follow the node at `a` now: the first one points back to it. -/
def Behind (addr : β → α) (view view' : α → Node α δ) (a : α) (post : List β) : Prop :=
  ∀ c cs, post = c :: cs → view' (addr c) = { view (addr c) with prev := a } ∧
    ∀ d ∈ cs, view' (addr d) = view (addr d)

private theorem segment_behind {a : α} (behind : Behind addr view view' a post)
    (segment : Segment addr data view p post q) : Segment addr data view' a post q := by
  cases post with
  | nil => trivial
  | cons c cs => exact segment_after (behind c cs rfl).1 (behind c cs rfl).2 segment

/-- Other data in one node. -/
theorem segment_update {e e' : β} (whole : Segment addr data view p (pre ++ e :: post) q)
    (place : addr e' = addr e) (here : view' (addr e) = { view (addr e) with data := data e' })
    (before : ∀ b ∈ pre, view' (addr b) = view (addr b))
    (after : ∀ b ∈ post, view' (addr b) = view (addr b)) :
    Segment addr data view' p (pre ++ e' :: post) q := by
  refine segment_replace [e] [e'] whole place before ⟨?_, trivial⟩ ?_
  · rw [place, here, segment_middle whole]
    rfl
  · apply segment_congr after
    rw [lastOf_cons, place]
    exact (segment_suffix whole).2

/-- A new node behind `e`. -/
theorem segment_insert {e e' n : β} (whole : Segment addr data view p (pre ++ e :: post) q)
    (place : addr e' = addr e)
    (here : view' (addr e) = { view (addr e) with next := addr n, data := data e' })
    (new : view' (addr n) = ⟨firstOf addr post q, addr e, data n⟩)
    (before : ∀ b ∈ pre, view' (addr b) = view (addr b))
    (behind : Behind addr view view' (addr n) post) :
    Segment addr data view' p (pre ++ e' :: n :: post) q := by
  refine segment_replace [e] [e', n] whole place before ⟨?_, ?_, trivial⟩ ?_
  · rw [place, here, segment_middle whole]
    rfl
  · rw [new, place]
    rfl
  · exact segment_behind behind (segment_suffix whole).2

/-- The node behind `e` drops out. -/
theorem segment_remove {e e' f : β} (whole : Segment addr data view p (pre ++ e :: f :: post) q)
    (place : addr e' = addr e)
    (here : view' (addr e) = { view (addr e) with next := (view (addr f)).next, data := data e' })
    (before : ∀ b ∈ pre, view' (addr b) = view (addr b))
    (behind : Behind addr view view' (addr e) post) :
    Segment addr data view' p (pre ++ e' :: post) q := by
  have second := (segment_suffix whole).2
  refine segment_replace [e, f] [e'] whole place before ⟨?_, trivial⟩ ?_
  · rw [place, here, segment_middle whole, second.1]
    rfl
  · rw [lastOf_cons, place]
    exact segment_behind behind second.2

end LinkedSegments
