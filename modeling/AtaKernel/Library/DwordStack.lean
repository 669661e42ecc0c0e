import AtaKernel.Library.ByteMemory

/-! A stack of double words that grows downward in a byte memory, under a pointer
that wraps at `2 ^ 32`. What lies on the stack is a list, the last word pushed first. -/
namespace DwordStack
open ByteMemory

def dwordAt (m : Memory) (a : UInt32) : UInt32 := UInt32.ofNat (load m a.toNat 4)

def wordAt (m : Memory) (a : UInt32) : UInt16 := UInt16.ofNat (load m a.toNat 2)

/-- The memory behind a push that leaves the stack pointer at `a`. -/
def put (m : Memory) (a v : UInt32) : Memory := store m a.toNat 4 v.toNat

/-- The words that lie from `sp` on. -/
def Row (m : Memory) (sp : UInt32) : List UInt32 → Prop
  | [] => True
  | w :: ws => dwordAt m sp = w ∧ Row m (sp + 4) ws

variable {m m' : Memory} {sp v w : UInt32} {ws : List UInt32} {i : Nat}

theorem cell_add (n : Nat) : cell ((sp + 4).toNat + n) = cell (sp.toNat + (4 + n)) := by
  unfold cell
  rw [UInt32.toNat_add, show (4 : UInt32).toNat = 4 from rfl]
  omega

/-- A row depends on nothing but its bytes. -/
theorem Row.congr (row : Row m sp ws)
    (same : ∀ i < 4 * ws.length, m' (cell (sp.toNat + i)) = m (cell (sp.toNat + i))) : Row m' sp ws := by
  induction ws generalizing sp with
  | nil => trivial
  | cons w ws ih =>
    rw [List.length_cons] at same
    refine ⟨?_, ih row.2 fun i low => ?_⟩
    · rw [← row.1]
      exact congrArg UInt32.ofNat (load_congr fun i low => same i (by omega))
    · rw [cell_add]
      exact same (4 + i) (by omega)

theorem Row.push (row : Row m sp ws) (room : 4 * ws.length + 4 ≤ 2 ^ 32) :
    Row (put m (sp - 4) v) (sp - 4) (v :: ws) := by
  have back : sp - 4 + 4 = sp := UInt32.sub_add_cancel sp 4
  refine ⟨stored_dword, ?_⟩
  rw [back]
  refine row.congr fun i low => store_outside m (fun j small => ?_) _
  unfold cell
  rw [UInt32.toNat_sub, show (4 : UInt32).toNat = 4 from rfl]
  omega

/-- The word at an offset. -/
theorem Row.at {offset : UInt32} (row : Row m sp ws) (here : ws[i]? = some w) (place : offset.toNat = 4 * i) :
    dwordAt m (sp + offset) = w := by
  induction ws generalizing sp i offset with
  | nil => cases here
  | cons first ws ih =>
    cases i with
    | zero =>
      obtain rfl := Option.some_inj.mp here
      obtain rfl : offset = 0 := UInt32.toNat_inj.mp place
      rw [UInt32.add_zero]
      exact row.1
    | succ i =>
      have less : (offset - 4).toNat = 4 * i := by
        rw [UInt32.toNat_sub, place, show (4 : UInt32).toNat = 4 from rfl]
        have top := offset.toNat_lt
        omega
      have next := ih row.2 here less
      rwa [UInt32.add_assoc, UInt32.add_comm 4, UInt32.sub_add_cancel] at next

/-- A store of a word of the row. -/
theorem Row.set {a : UInt32} (row : Row m sp ws) (inside : i < ws.length) (room : 4 * ws.length ≤ 2 ^ 32)
    (place : sp + UInt32.ofNat (4 * i) = a) : Row (put m a v) sp (ws.set i v) := by
  induction ws generalizing sp i with
  | nil => exact absurd inside (Nat.not_lt_zero i)
  | cons w ws ih =>
    rw [List.length_cons] at inside room
    cases i with
    | zero =>
      rw [Nat.mul_zero, show UInt32.ofNat 0 = 0 from rfl, UInt32.add_zero] at place
      subst place
      refine ⟨stored_dword, row.2.congr fun k low => store_outside m (fun j small => ?_) _⟩
      unfold cell
      rw [UInt32.toNat_add, show (4 : UInt32).toNat = 4 from rfl]
      omega
    | succ i =>
      have behind : sp + UInt32.ofNat (4 * (i + 1)) = sp + 4 + UInt32.ofNat (4 * i) := by
        rw [UInt32.add_assoc, Nat.mul_add, Nat.add_comm, UInt32.ofNat_add]
        rfl
      refine ⟨?_, ih row.2 (by omega) (by omega) (behind.symm.trans place)⟩
      subst place
      rw [← row.1]
      refine congrArg UInt32.ofNat (load_congr fun k low => store_outside m (fun j small => ?_) _)
      unfold cell
      rw [UInt32.toNat_add, UInt32.toNat_ofNat']
      omega

theorem wordAt_eq (m : Memory) (a : UInt32) : wordAt m a = (dwordAt m a).toUInt16 := by
  have low := load_lt m a.toNat 2
  have high := load_lt m (a.toNat + 2) 2
  apply UInt16.toNat_inj.mp
  unfold wordAt dwordAt
  rw [UInt32.toNat_toUInt16, UInt32.toNat_ofNat', UInt16.toNat_ofNat', load_four]
  omega

end DwordStack
