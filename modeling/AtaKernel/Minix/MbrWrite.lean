import AtaKernel.Library.Fields
import AtaKernel.Minix.Install

/-! The command `mbr` of the install tool, which writes the boot record: the code of a base
image, the entries of the partition table that the arguments define, and the signature.
An argument is a text of fields, and what it defines is what `boot`, `kernel` and the
code of the boot record read back. -/
namespace AtaKernel.Minix
open StateProgram Fields

/-- `strtok(.., ",")` of the C library, on what is left of an argument; `none` is NULL. -/
def strtok (s : List Char) : Option (List Char × List Char) := next (· == ',') s

/-- `strtok`, the test of the token, and `atoi`. -/
def mbrField (complaint : String) (s : List Char) : Except Quit (Int32 × List Char) :=
  match strtok s with
  | none => .error (.screamed complaint)
  | some taken =>
    match atoi taken.1 with
    | none => .error .undefined
    | some n => .ok (n, taken.2)

/-- The entry that an argument defines. -/
def mbrDefinition (arg : List Char) : Except Quit MbrEntry := do
  let start ← mbrField "Invalid format: no START." arg
  let size ← mbrField "Invalid format: no SIZE." start.2
  let type ← mbrField "Invalid format: no TYPE." size.2
  let status ← mbrField "Invalid format: no STATUS." type.2
  pure ⟨if status.1 = 0 then 0x00 else 0x80, type.1.toUInt32.toUInt8, start.1.toUInt32, size.1.toUInt32⟩

def mbrDefinitions : List (List Char) → Except Quit (List MbrEntry)
  | [] => .ok []
  | arg :: args => do
    let entry ← mbrDefinition arg
    let entries ← mbrDefinitions args
    pure (entry :: entries)

/-- Byte `k` of an entry; the addresses by cylinder, head and sector are left as they were. -/
def MbrEntry.byte (e : MbrEntry) (old : UInt8) (k : Nat) : UInt8 :=
  if k = 0 then e.status
  else if k = 4 then e.type
  else if 8 ≤ k ∧ k < 12 then byteOf e.lbaStart.toNat (k - 8)
  else if 12 ≤ k then byteOf e.sectorsCount.toNat (k - 12)
  else old

/-- `struct mbr`: what was read of the base image, over zeros, with the entries and the signature set. -/
def mbrByte (base : Array UInt8) (entries : List MbrEntry) (j : Nat) : UInt8 :=
  if j = 510 then 0x55
  else if j = 511 then 0xaa
  else if 446 ≤ j then
    match entries[(j - 446) / 16]? with
    | some e => e.byte (base.getD j 0) ((j - 446) % 16)
    | none => base.getD j 0
  else base.getD j 0

def mbrBytes (base : Array UInt8) (entries : List MbrEntry) : Array UInt8 :=
  Array.ofFn fun j : Fin 512 => mbrByte base entries j.val

/-- `mbr_write`, which looks at four arguments at most. -/
def mbrWrite (diskOpens : Bool) (base : InputFile) (args : List (List Char)) : EStateM Quit Image Unit :=
  if ¬ base.opens then throw (.screamed "Could not open mbr image file.")
  else if base.bytes.size < 512 ∧ base.ferror then throw (.screamed "Could not read mbr image file.")
  else
    match mbrDefinitions (args.take 4) with
    | .error e => throw e
    | .ok entries =>
      if ¬ diskOpens then throw (.screamed "Could not open disk image file.")
      else modify fun img => img.writeBytes 0 (mbrBytes base.bytes entries)

variable {diskOpens : Bool} {base : InputFile} {args : List (List Char)} {arg s rest : List Char} {img img' : Image}
  {entries : List MbrEntry} {e : MbrEntry} {complaint : String} {n : Int32} {i j k : Nat}
  {fs : List (List Char)}

/-! ## What an argument defines -/

/-- `atoi` has a value for each of the first four fields, and these values make the entry. A field that is no number
counts as zero; none is defined beyond an `int`. -/
def Defines (arg : List Char) (e : MbrEntry) : Prop :=
  ∃ a b c d rest start size type status, fields (· == ',') arg = a :: b :: c :: d :: rest ∧
    atoi a = some start ∧ atoi b = some size ∧ atoi c = some type ∧ atoi d = some status ∧
    e = ⟨if status = 0 then 0x00 else 0x80, type.toUInt32.toUInt8, start.toUInt32, size.toUInt32⟩

theorem mbrField_ok_iff : mbrField complaint s = .ok (n, rest) ↔
    ∃ token, strtok s = some (token, rest) ∧ atoi token = some n := by
  unfold mbrField
  cases taken : strtok s with
  | none => simp
  | some first =>
    obtain ⟨token, behind⟩ := first
    dsimp only
    cases value : atoi token with
    | none =>
      simp only [reduceCtorEq, Option.some.injEq, Prod.mk.injEq, false_iff]
      rintro ⟨_, ⟨rfl, -⟩, read⟩
      rw [value] at read
      cases read
    | some m =>
      simp only [Except.ok.injEq, Prod.mk.injEq, Option.some.injEq]
      constructor
      · rintro ⟨rfl, rfl⟩
        exact ⟨token, ⟨rfl, rfl⟩, value⟩
      · rintro ⟨_, ⟨rfl, rfl⟩, read⟩
        rw [value] at read
        exact ⟨Option.some_inj.mp read, rfl⟩

/-- One more field of an argument. -/
theorem mbrField_fields : (∃ rest, mbrField complaint s = .ok (n, rest) ∧ fields (· == ',') rest = fs) ↔
    ∃ f, fields (· == ',') s = f :: fs ∧ atoi f = some n := by
  simp only [mbrField_ok_iff]
  constructor
  · rintro ⟨rest, ⟨token, taken, value⟩, behind⟩
    exact ⟨token, by rw [next_some taken, behind], value⟩
  · rintro ⟨f, split, value⟩
    cases taken : strtok s with
    | none =>
      rw [next_none_iff.mp taken] at split
      cases split
    | some first =>
      obtain ⟨token, rest⟩ := first
      rw [next_some taken, List.cons.injEq] at split
      obtain ⟨rfl, behind⟩ := split
      exact ⟨rest, ⟨token, rfl, value⟩, behind⟩

theorem except_bind_ok_iff {ε α β : Type} {x : Except ε α} {f : α → Except ε β} {b : β} :
    (x >>= f) = .ok b ↔ ∃ a, x = .ok a ∧ f a = .ok b := by
  cases x with
  | error e => exact ⟨fun stopped => (nomatch stopped), fun ⟨a, none_, _⟩ => nomatch none_⟩
  | ok a => exact ⟨fun ran => ⟨a, rfl, ran⟩, fun ⟨_, same, ran⟩ => Except.ok.inj same ▸ ran⟩

theorem mbrDefinition_ok_iff : mbrDefinition arg = .ok e ↔ Defines arg e := by
  unfold mbrDefinition Defines
  simp only [except_bind_ok_iff]
  constructor
  · rintro ⟨start, ran₁, size, ran₂, type, ran₃, status, ran₄, last⟩
    obtain ⟨d, split₄, value₄⟩ := mbrField_fields.mp ⟨_, ran₄, rfl⟩
    obtain ⟨c, split₃, value₃⟩ := mbrField_fields.mp ⟨_, ran₃, split₄⟩
    obtain ⟨b, split₂, value₂⟩ := mbrField_fields.mp ⟨_, ran₂, split₃⟩
    obtain ⟨a, split₁, value₁⟩ := mbrField_fields.mp ⟨_, ran₁, split₂⟩
    exact ⟨a, b, c, d, _, _, _, _, _, split₁, value₁, value₂, value₃, value₄, (Except.ok.inj last).symm⟩
  · rintro ⟨a, b, c, d, rest, start, size, type, status, split, value₁, value₂, value₃, value₄, rfl⟩
    obtain ⟨s₁, ran₁, split⟩ := mbrField_fields.mpr ⟨a, split, value₁⟩
    obtain ⟨s₂, ran₂, split⟩ := mbrField_fields.mpr ⟨b, split, value₂⟩
    obtain ⟨s₃, ran₃, split⟩ := mbrField_fields.mpr ⟨c, split, value₃⟩
    obtain ⟨s₄, ran₄, -⟩ := mbrField_fields.mpr ⟨d, split, value₄⟩
    exact ⟨_, ran₁, _, ran₂, _, ran₃, _, ran₄, rfl⟩

/-- Each of the arguments defines its entry. -/
theorem mbrDefinitions_ok_iff : mbrDefinitions args = .ok entries ↔ List.Forall₂ Defines args entries := by
  induction args generalizing entries with
  | nil =>
    rw [mbrDefinitions, List.forall₂_nil_left_iff]
    exact ⟨fun same => (Except.ok.inj same).symm, fun same => congrArg _ same.symm⟩
  | cons arg args ih =>
    simp only [mbrDefinitions, except_bind_ok_iff, mbrDefinition_ok_iff, ih, List.forall₂_cons_left_iff]
    constructor
    · rintro ⟨entry, first, others, behind, same⟩
      exact ⟨entry, others, first, behind, (Except.ok.inj same).symm⟩
    · rintro ⟨entry, others, first, behind, rfl⟩
      exact ⟨entry, first, others, behind, rfl⟩

/-! ### Decimal numerals -/

/-- A definition of a partition by numbers that an `int` holds. -/
structure PartitionDefinition where
  start : Nat
  size : Nat
  type : Nat
  boot : Bool
  start_low : start < 2 ^ 31
  size_low : size < 2 ^ 31
  type_low : type < 2 ^ 31

namespace PartitionDefinition

/-- The argument, in decimal numerals. -/
def text (d : PartitionDefinition) : List Char :=
  Nat.toDigits 10 d.start ++ ',' :: (Nat.toDigits 10 d.size ++ ',' :: (Nat.toDigits 10 d.type ++ ',' ::
    [if d.boot then '1' else '0']))

/-- The entry that it stands for, with the low byte of the type. -/
def entry (d : PartitionDefinition) : MbrEntry :=
  ⟨if d.boot then 0x80 else 0x00, UInt8.ofNat d.type, UInt32.ofNat d.start, UInt32.ofNat d.size⟩

end PartitionDefinition

theorem numeral_free (n : Nat) : Free (· == ',') (Nat.toDigits 10 n) := fun c inside => by
  have digit := Nat.isDigit_of_mem_toDigits (by decide) le_rfl inside
  rw [beq_eq_false_iff_ne]
  rintro rfl
  exact absurd digit (by decide)

theorem atoi_numeral {n : Nat} (low : n < 2 ^ 31) : atoi (Nat.toDigits 10 n) = some (Int32.ofInt n) := by
  have digits {c : Char} (inside : c ∈ Nat.toDigits 10 n) := Nat.isDigit_of_mem_toDigits (by decide) le_rfl inside
  obtain ⟨c, cs, split⟩ := List.exists_cons_of_ne_nil (Nat.toDigits_ne_nil (n := n) (b := 10))
  have first : c.isDigit := digits (split ▸ List.mem_cons_self)
  have bounds : 48 ≤ c.toNat ∧ c.toNat ≤ 57 := by simpa [Char.isDigit, UInt32.le_iff_toNat_le] using first
  have spaces : (Nat.toDigits 10 n).dropWhile isSpace = Nat.toDigits 10 n := by
    rw [split, List.dropWhile_cons_of_neg]
    simp only [isSpace, Bool.or_eq_true, decide_eq_true_eq, Bool.and_eq_true, not_or, not_and]
    exact ⟨fun space => by simp [space] at bounds, fun _ => by omega⟩
  have value : signedValue (Nat.toDigits 10 n) = n := by
    have all : (Nat.toDigits 10 n).takeWhile Char.isDigit = Nat.toDigits 10 n :=
      List.takeWhile_eq_self_iff.mpr fun c inside => digits inside
    have number : digitsValue (Nat.toDigits 10 n) = n := by
      rw [digitsValue, all]
      exact Nat.ofDigitChars_ten_toDigits
    rw [← Int.natCast_inj] at number
    rw [← number, split]
    unfold signedValue
    split
    · next same => simp [(List.cons.inj same).1] at bounds
    · next same => simp [(List.cons.inj same).1] at bounds
    · rfl
  unfold atoi
  simp only [spaces, value]
  rw [if_pos (by omega)]

theorem toUInt32_ofInt (n : Nat) : (Int32.ofInt n).toUInt32 = UInt32.ofNat n := by
  apply UInt32.toNat_inj.mp
  change (BitVec.ofInt 32 n).toNat = _
  rw [BitVec.toNat_ofInt, UInt32.toNat_ofNat']
  omega

theorem PartitionDefinition.text_defines (d : PartitionDefinition) : Defines d.text d.entry := by
  have last : atoi [if d.boot then '1' else '0'] = some (if d.boot then 1 else 0) := by cases d.boot <;> decide
  refine ⟨_, _, _, _, [], _, _, _, _, ?_, atoi_numeral d.start_low, atoi_numeral d.size_low, atoi_numeral d.type_low,
    last, ?_⟩
  · unfold PartitionDefinition.text
    rw [fields_field Nat.toDigits_ne_nil (numeral_free _) rfl, fields_field Nat.toDigits_ne_nil (numeral_free _) rfl,
      fields_field Nat.toDigits_ne_nil (numeral_free _) rfl, fields_last (List.cons_ne_nil _ _)]
    intro c inside
    cases boot : d.boot <;> simp_all
  · rw [toUInt32_ofInt, toUInt32_ofInt, toUInt32_ofInt]
    cases boot : d.boot <;> simp [PartitionDefinition.entry, boot]

/-! ## The table -/

theorem dword_of_bytes {off : Nat} {v : UInt32} (bytes : ∀ k < 4, img.bytes (off + k) = byteOf v.toNat k) :
    img.dword off = v := by
  have wide := v.toNat_lt
  have first := bytes 0 (by decide)
  rw [Nat.add_zero] at first
  apply UInt32.toNat_inj.mp
  rw [Image.dword, first, bytes 1 (by decide), bytes 2 (by decide), bytes 3 (by decide)]
  simp only [byteOf, UInt32.toNat_ofNat', UInt8.toNat_ofNat']
  omega

theorem mbrBytes_at (low : j < 512) (base : Array UInt8) (entries : List MbrEntry) :
    (mbrBytes base entries).getD j 0 = mbrByte base entries j := by
  simp [mbrBytes, low]

/-- The byte of the image behind the command. -/
theorem written_byte (low : j < 512) : (img.writeBytes 0 (mbrBytes base.bytes entries)).bytes j =
    mbrByte base.bytes entries j := by
  have size : (mbrBytes base.bytes entries).size = 512 := Array.size_ofFn
  rw [writeBytes_within (by omega), Nat.sub_zero, mbrBytes_at low]

/-- Byte `k` of entry `i`. -/
theorem mbrByte_entry (defined : entries[i]? = some e) (inside : i < 4) (low : k < 16) :
    mbrByte base.bytes entries (446 + 16 * i + k) = e.byte (base.bytes.getD (446 + 16 * i + k) 0) k := by
  have place : (446 + 16 * i + k - 446) / 16 = i := by omega
  have offset : (446 + 16 * i + k - 446) % 16 = k := by omega
  rw [mbrByte, if_neg (by omega), if_neg (by omega), if_pos (by omega), place, defined, offset]

theorem mbrByte_undefined (none_ : entries[i]? = none) (inside : i < 4) (low : k < 16) :
    mbrByte base.bytes entries (446 + 16 * i + k) = base.bytes.getD (446 + 16 * i + k) 0 := by
  have place : (446 + 16 * i + k - 446) / 16 = i := by omega
  rw [mbrByte, if_neg (by omega), if_neg (by omega), if_pos (by omega), place, none_]

/-- The first sector of the base image. -/
def InputFile.sector (file : InputFile) : Image where
  bytes x := file.bytes.getD x 0
  size := 512

theorem mbrEntry_of_bytes {old : Nat → UInt8} (bytes : ∀ k < 16, img.bytes (446 + 16 * i + k) = e.byte (old k) k) :
    img.mbrEntry i = e := by
  have status := bytes 0 (by decide)
  have type := bytes 4 (by decide)
  have start : img.dword (446 + 16 * i + 8) = e.lbaStart := dword_of_bytes fun k low => by
    rw [Nat.add_assoc, bytes _ (by omega), MbrEntry.byte, if_neg (by omega), if_neg (by omega), if_pos (by omega),
      Nat.add_sub_cancel_left]
  have size : img.dword (446 + 16 * i + 12) = e.sectorsCount := dword_of_bytes fun k low => by
    rw [Nat.add_assoc, bytes _ (by omega), MbrEntry.byte, if_neg (by omega), if_neg (by omega), if_neg (by omega),
      if_pos (by omega), Nat.add_sub_cancel_left]
  rw [Nat.add_zero] at status
  rw [Image.mbrEntry, status, type, start, size]
  rfl

theorem mbrEntry_congr (bytes : ∀ k < 16, img'.bytes (446 + 16 * i + k) = img.bytes (446 + 16 * i + k)) :
    img'.mbrEntry i = img.mbrEntry i := by
  have first := bytes 0 (by decide)
  rw [Nat.add_zero] at first
  unfold Image.mbrEntry Image.dword
  simp only [Nat.add_assoc] at first bytes ⊢
  simp only [first, bytes 4 (by decide), bytes _ (show 8 < 16 by decide), bytes _ (show 8 + 1 < 16 by decide),
    bytes _ (show 8 + 2 < 16 by decide), bytes _ (show 8 + 3 < 16 by decide), bytes _ (show 12 < 16 by decide),
    bytes _ (show 12 + 1 < 16 by decide), bytes _ (show 12 + 2 < 16 by decide), bytes _ (show 12 + 3 < 16 by decide)]

/-- Entry `i` is the one that was defined, or that of the base image. -/
theorem written_entry (inside : i < 4) : (img.writeBytes 0 (mbrBytes base.bytes entries)).mbrEntry i =
    (entries[i]?).getD (base.sector.mbrEntry i) := by
  cases defined : entries[i]? with
  | some e =>
    have bytes : ∀ k < 16, (img.writeBytes 0 (mbrBytes base.bytes entries)).bytes (446 + 16 * i + k) =
        e.byte (base.bytes.getD (446 + 16 * i + k) 0) k := fun k low => by
      rw [written_byte (by omega), mbrByte_entry defined inside low]
    exact mbrEntry_of_bytes bytes
  | none =>
    refine mbrEntry_congr fun k low => ?_
    rw [written_byte (by omega), mbrByte_undefined defined inside low]
    rfl

theorem mbr_of_size (wide : 512 ≤ img.size) : img.mbr = some fun i : Fin 4 => img.mbrEntry i := if_pos wide

theorem written_size : 512 ≤ (img.writeBytes 0 (mbrBytes base.bytes entries)).size := by
  have size : (mbrBytes base.bytes entries).size = 512 := Array.size_ofFn
  rw [writeBytes_size, size, if_neg (by decide)]
  omega

theorem mbrWrite_ok_iff {u : Unit} : mbrWrite diskOpens base args img = .ok u img' ↔
    base.opens ∧ ¬ (base.bytes.size < 512 ∧ base.ferror) ∧ diskOpens ∧
      ∃ entries, List.Forall₂ Defines (args.take 4) entries ∧
        img' = img.writeBytes 0 (mbrBytes base.bytes entries) := by
  simp only [← mbrDefinitions_ok_iff]
  unfold mbrWrite
  split
  · next closed => exact ⟨fun stopped => (nomatch stopped), fun all => absurd all.1 closed⟩
  split
  · next broken => exact ⟨fun stopped => (nomatch stopped), fun all => absurd broken all.2.1⟩
  next opens whole =>
  cases defined : mbrDefinitions (args.take 4) with
  | error e => exact ⟨fun stopped => (nomatch stopped), fun ⟨_, _, _, entries, none_, _⟩ => nomatch none_⟩
  | ok entries =>
    dsimp only
    split
    · next closed => exact ⟨fun stopped => (nomatch stopped), fun all => absurd all.2.2.1 closed⟩
    next disk =>
    constructor
    · intro ran
      obtain ⟨-, same⟩ := EStateM.Result.ok.inj ran
      exact ⟨not_not.mp opens, whole, not_not.mp disk, entries, rfl, same.symm⟩
    · rintro ⟨-, -, -, others, same, rfl⟩
      obtain rfl := Except.ok.inj same
      rfl

/-- `mbr_write` accepts exactly the arguments of which the first four, where there are as many, have four fields with a
value each. What it leaves has the entries that they define, and for the rest of the first sector the base image and
the signature; behind that sector nothing changes. Where it stops, the image is as it was. -/
theorem mbrWrite_exact (diskOpens : Bool) (base : InputFile) (args : List (List Char)) (img : Image) :
    ((∃ img', mbrWrite diskOpens base args img = .ok () img') ↔
      base.opens ∧ ¬ (base.bytes.size < 512 ∧ base.ferror) ∧ diskOpens ∧ ∀ arg ∈ args.take 4, ∃ e, Defines arg e) ∧
    (∀ img', mbrWrite diskOpens base args img = .ok () img' →
      (∃ mbr, img'.mbr = some mbr ∧ ∀ i : Fin 4, (∀ arg, args[i.val]? = some arg → Defines arg (mbr i)) ∧
        (args[i.val]? = none → mbr i = base.sector.mbrEntry i)) ∧
      (∀ x < 446, img'.bytes x = base.sector.bytes x) ∧ img'.bytes 510 = 0x55 ∧ img'.bytes 511 = 0xaa ∧
      ∀ x, 512 ≤ x → x < img.size → img'.bytes x = img.bytes x) ∧
    ∀ e img', mbrWrite diskOpens base args img = .error e img' → img' = img := by
  refine ⟨?_, fun img' ran => ?_, fun e img' stopped => ?_⟩
  · simp only [mbrWrite_ok_iff]
    constructor
    · rintro ⟨_, opens, whole, disk, entries, defined, -⟩
      refine ⟨opens, whole, disk, fun arg inside => ?_⟩
      obtain ⟨k, low, rfl⟩ := List.getElem_of_mem inside
      exact ⟨_, defined.get low (defined.length_eq ▸ low)⟩
    · rintro ⟨opens, whole, disk, all⟩
      obtain ⟨entries, defined⟩ : ∃ entries, List.Forall₂ Defines (args.take 4) entries := by
        generalize args.take 4 = shown at all
        induction shown with
        | nil => exact ⟨[], .nil⟩
        | cons arg rest ih =>
          obtain ⟨e, first⟩ := all arg List.mem_cons_self
          obtain ⟨es, behind⟩ := ih fun arg inside => all arg (List.mem_cons_of_mem _ inside)
          exact ⟨e :: es, .cons first behind⟩
      exact ⟨_, opens, whole, disk, entries, defined, rfl⟩
  · obtain ⟨-, -, -, entries, defined, rfl⟩ := mbrWrite_ok_iff.mp ran
    have size : (mbrBytes base.bytes entries).size = 512 := Array.size_ofFn
    have entry {i : Nat} (inside : i < 4) : (img.writeBytes 0 (mbrBytes base.bytes entries)).mbrEntry i =
        (entries[i]?).getD (base.sector.mbrEntry i) := written_entry inside
    have length : entries.length = min 4 args.length := by rw [← defined.length_eq, List.length_take]
    refine ⟨⟨_, mbr_of_size written_size, fun i => ⟨fun arg here => ?_, fun none_ => ?_⟩⟩,
      fun x low => ?_, ?_, ?_, fun x behind inside => ?_⟩
    · obtain ⟨within, rfl⟩ := List.getElem?_eq_some_iff.mp here
      have both := defined.get (i := i.val) (by rw [List.length_take]; omega) (by omega)
      rw [List.get_eq_getElem, List.getElem_take] at both
      change Defines _ ((img.writeBytes 0 (mbrBytes base.bytes entries)).mbrEntry i)
      rw [entry i.isLt, List.getElem?_eq_getElem (by omega), Option.getD_some]
      exact both
    · have past := List.getElem?_eq_none_iff.mp none_
      change (img.writeBytes 0 (mbrBytes base.bytes entries)).mbrEntry i = _
      rw [entry i.isLt, List.getElem?_eq_none (by omega), Option.getD_none]
    · rw [written_byte (by omega), mbrByte, if_neg (by omega), if_neg (by omega), if_neg (by omega)]
      rfl
    · rw [written_byte (by decide)]
      rfl
    · rw [written_byte (by decide)]
      rfl
    · exact writeBytes_outside inside (by omega)
  · unfold mbrWrite at stopped
    split at stopped
    · exact (EStateM.Result.error.inj stopped).2.symm
    split at stopped
    · exact (EStateM.Result.error.inj stopped).2.symm
    cases defined : mbrDefinitions (args.take 4) with
    | error e =>
      rw [defined] at stopped
      exact (EStateM.Result.error.inj stopped).2.symm
    | ok entries =>
      rw [defined] at stopped
      dsimp only at stopped
      split at stopped
      · exact (EStateM.Result.error.inj stopped).2.symm
      · cases stopped

/-- A table that is given by numbers is read back as these numbers, the type as its low byte, and the partition that
`boot` and `kernel` select without an argument is the first one that is defined as bootable, if `kernel` selects one at
all. -/
theorem printed_table_read_back (defs : List PartitionDefinition) (few : defs.length ≤ 4) (opens : base.opens)
    (whole : ¬ (base.bytes.size < 512 ∧ base.ferror)) (img : Image) :
    ∃ img' mbr, mbrWrite true base (defs.map (·.text)) img = .ok () img' ∧ img'.mbr = some mbr ∧
      ∀ i : Fin 4, ∀ low : i.val < defs.length, mbr i = defs[i.val].entry ∧
        (defs[i.val].boot → (∀ j, ∀ before : j < i.val, ¬ defs[j].boot) → bootloaderPartno mbr none = .ok i ∧
          ∀ stale j, minixPartno mbr stale none = .ok j ↔ j = i ∧ UInt8.ofNat defs[i.val].type = 0x81) := by
  have defined : List.Forall₂ Defines ((defs.map (·.text)).take 4) (defs.map (·.entry)) := by
    rw [List.take_of_length_le (by rwa [List.length_map]), List.forall₂_map_left_iff, List.forall₂_map_right_iff]
    exact List.forall₂_same.mpr fun d _ => d.text_defines
  have entry {i : Nat} (inside : i < 4) (low : i < defs.length) :
      (img.writeBytes 0 (mbrBytes base.bytes (defs.map (·.entry)))).mbrEntry i = defs[i].entry := by
    rw [written_entry inside, List.getElem?_map, List.getElem?_eq_getElem low]
    rfl
  refine ⟨_, _, mbrWrite_ok_iff.mpr ⟨opens, whole, rfl, _, defined, rfl⟩, mbr_of_size written_size,
    fun i low => ⟨entry i.isLt low, fun boot before => ?_⟩⟩
  have active : FirstActive (fun i => (img.writeBytes 0 (mbrBytes base.bytes (defs.map (·.entry)))).mbrEntry i) i := by
    constructor
    · change MbrEntry.Active (Image.mbrEntry _ i)
      rw [entry i.isLt low]
      simp [MbrEntry.Active, PartitionDefinition.entry, boot]
    · intro j below
      change ¬ MbrEntry.Active (Image.mbrEntry _ j)
      rw [entry j.isLt (lt_trans below low)]
      simp [MbrEntry.Active, PartitionDefinition.entry, before j below]
  refine ⟨bootloaderPartno_active active, fun stale j => ?_⟩
  rw [minixPartno_active active, entry i.isLt low]
  rfl

theorem minixType_low : 129 < 2 ^ 31 := by decide

/-- The table of `disk.img`, with the third partition for MINIX. -/
def diskTable : List PartitionDefinition :=
  [⟨2048, 40960, 131, false, by decide, by decide, by decide⟩,
    ⟨43008, 61440, 131, false, by decide, by decide, by decide⟩,
    ⟨104448, 81920, 129, true, by decide, by decide, minixType_low⟩,
    ⟨186368, 18432, 131, false, by decide, by decide, by decide⟩]

example : diskTable.map (·.text) =
    ["2048,40960,131,0".toList, "43008,61440,131,0".toList, "104448,81920,129,1".toList,
      "186368,18432,131,0".toList] := by
  decide

theorem printed_table_read_back_disk : ∃ img' mbr,
    mbrWrite true ⟨true, #[], false⟩ (diskTable.map (·.text)) ⟨fun _ => 0, 0⟩ = .ok () img' ∧ img'.mbr = some mbr ∧
      bootloaderPartno mbr none = .ok 2 ∧ (mbr 2).lbaStart = 104448 := by
  obtain ⟨img', mbr, ran, read, all⟩ := printed_table_read_back diskTable (by decide)
    (show InputFile.opens ⟨true, #[], false⟩ from rfl) (fun broken => nomatch broken.2) ⟨fun _ => 0, 0⟩
  obtain ⟨entry, selected⟩ := all 2 (by decide)
  refine ⟨img', mbr, ran, read, (selected rfl fun j before => ?_).1, ?_⟩
  · change j < 2 at before
    interval_cases j <;> exact Bool.false_ne_true
  · rw [entry]
    rfl

end AtaKernel.Minix
