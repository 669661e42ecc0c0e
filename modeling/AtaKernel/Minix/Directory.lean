import Mathlib

/-! The entries of a directory, over the bytes of its file: an inode number and a
name of up to 30 bytes, with a zero behind it where there is room. An entry with
the number 0 is a hole, whatever its name is. -/
namespace AtaKernel.Minix

/-- `"kernel"`, with its zero. -/
def kernelText (k : Nat) : UInt8 :=
  (['k', 'e', 'r', 'n', 'e', 'l'].map fun c => UInt8.ofNat c.toNat).getD k 0

/-- The inode number of entry `e`. -/
def entryInode (dir : Nat → UInt8) (e : Nat) : UInt16 :=
  UInt16.ofNat ((dir (32 * e)).toNat + 256 * (dir (32 * e + 1)).toNat)

/-- The name of entry `e` is `kernel`. -/
def Named (dir : Nat → UInt8) (e : Nat) : Prop := ∀ k < 7, dir (32 * e + 2 + k) = kernelText k

def Live (dir : Nat → UInt8) (e : Nat) : Prop := entryInode dir e ≠ 0 ∧ Named dir e

/-- The first entry of the directory that is live. -/
def FirstLive (dir : Nat → UInt8) (size e : Nat) : Prop := 32 * e < size ∧ Live dir e ∧ ∀ e' < e, ¬ Live dir e'

variable {dir : Nat → UInt8} {size e : Nat}

instance : Decidable (Named dir e) := inferInstanceAs (Decidable (∀ k < 7, dir (32 * e + 2 + k) = kernelText k))

instance : Decidable (Live dir e) := inferInstanceAs (Decidable (_ ∧ _))

/-! An entry is its 32 bytes. -/

theorem entryInode_congr {dir' : Nat → UInt8} {e' : Nat} (same : ∀ j < 32, dir (32 * e + j) = dir' (32 * e' + j)) :
    entryInode dir e = entryInode dir' e' := by
  have first := same 0 (by decide)
  rw [Nat.add_zero, Nat.add_zero] at first
  rw [entryInode, first, same 1 (by decide), entryInode]

theorem named_congr {dir' : Nat → UInt8} {e' : Nat} (same : ∀ j < 32, dir (32 * e + j) = dir' (32 * e' + j)) :
    Named dir e ↔ Named dir' e' :=
  forall₂_congr fun k low => by rw [Nat.add_assoc, same (2 + k) (by omega), Nat.add_assoc]

theorem live_congr {dir' : Nat → UInt8} {e' : Nat} (same : ∀ j < 32, dir (32 * e + j) = dir' (32 * e' + j)) :
    Live dir e ↔ Live dir' e' := by
  rw [Live, entryInode_congr same, named_congr same, Live]

theorem kernelText_zero_iff {k : Nat} (low : k < 7) : kernelText k = 0 ↔ k = 6 := by
  interval_cases k <;> decide

/-! ## All entries -/

/-- `minix_direntry_t` -/
structure Entry where
  number : UInt16
  name : Fin 30 → UInt8

def Entry.IsKernel (entry : Entry) : Prop := ∀ k < 7, entry.name (Fin.ofNat 30 k) = kernelText k

instance (entry : Entry) : Decidable entry.IsKernel :=
  inferInstanceAs (Decidable (∀ k < 7, entry.name (Fin.ofNat 30 k) = kernelText k))

def entryAt (dir : Nat → UInt8) (e : Nat) : Entry := ⟨entryInode dir e, fun j => dir (32 * e + 2 + j)⟩

/-- The entries of a directory of `size` bytes, without the holes. -/
def entries (dir : Nat → UInt8) (size : Nat) : List Entry :=
  ((List.range ((size + 31) / 32)).map (entryAt dir)).filter fun entry => entry.number ≠ 0

variable {dir' : Nat → UInt8} {e' n : Nat}

theorem isKernel_entryAt : (entryAt dir e).IsKernel ↔ Named dir e := by
  refine forall₂_congr fun k low => ?_
  have place : (Fin.ofNat 30 k).val = k := Nat.mod_eq_of_lt (by omega)
  change dir (32 * e + 2 + (Fin.ofNat 30 k).val) = _ ↔ _
  rw [place]

theorem entryAt_congr (same : ∀ j < 32, dir (32 * e + j) = dir' (32 * e' + j)) : entryAt dir e = entryAt dir' e' := by
  unfold entryAt
  rw [entryInode_congr same, Entry.mk.injEq, and_iff_right rfl]
  funext j
  rw [Nat.add_assoc, same (2 + j) (by omega), Nat.add_assoc]

theorem entries_succ : entries dir (32 * (n + 1)) =
    entries dir (32 * n) ++ if entryInode dir n = 0 then [] else [entryAt dir n] := by
  unfold entries
  rw [show (32 * (n + 1) + 31) / 32 = n + 1 by omega, show (32 * n + 31) / 32 = n by omega, List.range_succ,
    List.map_append, List.filter_append, List.map_singleton]
  refine congrArg _ ?_
  by_cases hole : entryInode dir n = 0
  · rw [if_pos hole, List.filter_cons_of_neg, List.filter_nil]
    exact fun some_ => of_decide_eq_true some_ hole
  · rw [if_neg hole, List.filter_cons_of_pos, List.filter_nil]
    exact decide_eq_true hole

theorem entries_congr (same : ∀ e < n, entryAt dir e = entryAt dir' e) :
    entries dir (32 * n) = entries dir' (32 * n) := by
  unfold entries
  rw [show (32 * n + 31) / 32 = n by omega,
    List.map_congr_left fun e inside => same e (List.mem_range.mp inside)]

/-- Where the live entries become holes, those of other names are left. -/
theorem entries_deleted (gone : ∀ e < n, Live dir e → entryInode dir' e = 0)
    (kept : ∀ e < n, ¬ Live dir e → entryAt dir' e = entryAt dir e) :
    entries dir' (32 * n) = (entries dir (32 * n)).filter fun entry => ¬ entry.IsKernel := by
  induction n with
  | zero => rfl
  | succ n ih =>
    have before := ih (fun e low => gone e (Nat.lt_succ_of_lt low)) fun e low => kept e (Nat.lt_succ_of_lt low)
    rw [entries_succ, entries_succ, List.filter_append, before]
    refine congrArg _ ?_
    by_cases live : Live dir n
    · rw [if_pos (gone n n.lt_succ_self live), if_neg live.1, List.filter_cons_of_neg, List.filter_nil]
      exact fun other => of_decide_eq_true other (isKernel_entryAt.mpr live.2)
    · have same := kept n n.lt_succ_self live
      have number : entryInode dir' n = entryInode dir n := congrArg Entry.number same
      rw [same, number]
      by_cases hole : entryInode dir n = 0
      · rw [if_pos hole, List.filter_nil]
      · rw [if_neg hole, List.filter_cons_of_pos, List.filter_nil]
        exact decide_eq_true fun kernel => live ⟨hole, isKernel_entryAt.mp kernel⟩

/-- Where a hole becomes an entry, that entry joins the others. -/
theorem entries_filled (within : e < n) (hole : entryInode dir e = 0) (filled : entryInode dir' e ≠ 0)
    (others : ∀ e' < n, e' ≠ e → entryAt dir' e' = entryAt dir e') :
    (entries dir' (32 * n)).Perm (entryAt dir' e :: entries dir (32 * n)) := by
  induction n with
  | zero => cases within
  | succ n ih =>
    rw [entries_succ, entries_succ]
    by_cases last : e = n
    · subst last
      rw [if_neg filled, if_pos hole, List.append_nil, entries_congr fun e' low => others e' (by omega) (by omega)]
      exact List.perm_append_singleton _ _
    · have same := others n n.lt_succ_self fun here => last here.symm
      have number : entryInode dir' n = entryInode dir n := congrArg Entry.number same
      rw [same, number]
      exact (ih (by omega) fun e' low => others e' (by omega)).append_right _

/-- Two lists of one entry more have the same entries where these are the same. -/
theorem snoc_perm_cons {xs : List Entry} {x y : Entry} : (xs ++ [x]).Perm (y :: xs) ↔ x = y := by
  have moved : (xs ++ [y]).Perm (y :: xs) := List.perm_append_singleton y xs
  rw [← moved.congr_right, List.perm_append_left_iff]
  exact List.singleton_perm_singleton

end AtaKernel.Minix
