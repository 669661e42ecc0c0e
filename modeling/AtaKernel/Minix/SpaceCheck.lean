import AtaKernel.Minix.KernelEntry

/-! Whether `minix_write` asks for as many free zones as the copy of the kernel then takes.
It asks for too many at two sizes, where a file has just filled the zones of its inode
and where it has just filled its first block of zones: the block of zones for which there is
no need yet is counted as well. -/
namespace AtaKernel.Minix
open BitTable StateProgram

/-- The search for space in `minix_write`. -/
def minixSpaceCheck (size : Nat) : ToolM Unit := do
  let sb := (← get).sb
  let kerb := kernelZones size
  if 2 ^ 31 ≤ kerb then throw .undefined
  else do
    let count ← countZones kerb sb.sNzones.toNat 0 0
    if count < kerb then screamAndQuit "There's not free space for the kernel" else pure ()

/-- The zones that a file of `n` blocks takes. -/
def zonesTaken (n : Nat) : Nat := (slots n).length

def noSpaceLeft : Quit := .screamed "No space left on device."

/-- The check passes if and only if there are as many zones as the copy takes, and the copy of a kernel that has
passed never stops for want of zones. -/
structure SpaceCheckExact (kernel : InputFile) (t : Tool) : Prop where
  passes : (∃ t', minixSpaceCheck kernel.bytes.size t = .ok () t') ↔
    zonesTaken (fileRounds kernel.bytes.size) ≤ t.clearBits.length
  enough : (∃ t', minixSpaceCheck kernel.bytes.size t = .ok () t') → ∀ i time t₁ t₂, t₁.zonesMap = t.zonesMap →
    t₁.sb = t.sb → upTo (copyRound kernel i) (fileRounds kernel.bytes.size) (newInode time) t₁ ≠ .error noSpaceLeft t₂

/-- The check asks for more zones than a file of `n` blocks takes, and `free` are enough. -/
def OverAsked (n free : Nat) : Prop := (n = 7 ∧ free = 7) ∨ (n = 519 ∧ 520 ≤ free ∧ free < 522)

/-- A number of blocks for which an `int` is too small comes out as one for which there are zones. -/
def WrapsToFit (n : Nat) (t : Tool) : Prop :=
  if 0 < n % 2 ^ 32 ∧ n % 2 ^ 32 < 2 ^ 31 then
    zonesTaken (n % 2 ^ 32) ≤ t.clearBits.length ∧ ¬ OverAsked (n % 2 ^ 32) t.clearBits.length
  else (∀ k < t.sb.sNzones.toNat, (bit t.zonesMap k).isSome) ∨ (n % 2 ^ 32 = 0 ∧ bit t.zonesMap 0 = some true)

variable {t t' : Tool} {inode inode' : Inode} {i k n left size : Nat} {z : UInt16} {data : Block} {kerb count : Int}
  {kernel : InputFile} {input : InstallInput}

/-! ## What a file takes -/

theorem newSlots_length (b : Nat) : (newSlots b).length =
    (if b = 7 then 1 else 0) + (if b = 519 then 1 else 0) + (if 519 ≤ b ∧ (b - 519) % 512 = 0 then 1 else 0) + 1 := by
  unfold newSlots
  simp only [List.length_append, List.length_singleton]
  congr 2
  · congr 1 <;> split <;> rfl
  · split <;> rfl

/-- The blocks, the block of zones, and the block of such blocks with what it leads to. -/
theorem zonesTaken_eq (n : Nat) : zonesTaken n =
    if n ≤ 7 then n else if n ≤ 519 then n + 1 else n + 3 + (n - 520) / 512 := by
  induction n with
  | zero => rfl
  | succ n ih =>
    have step : zonesTaken (n + 1) = zonesTaken n + (newSlots n).length := by
      unfold zonesTaken
      rw [slots_succ, List.length_append]
    rw [step, ih, newSlots_length]
    split_ifs <;> omega

/-! ## What the check finds -/

/-- Behind a bit that is not in the map, there are no more. -/
theorem bit_none_later {map : Table} (none_ : bit map i = none) (later : i ≤ k) : bit map k = none := by
  by_contra some_
  have inside := bit_isSome.mp (Option.isSome_iff_ne_none.mpr some_)
  have outside : ¬ (bit map i).isSome := by simp [none_]
  exact outside (bit_isSome.mpr (lt_of_le_of_lt (Nat.div_le_div_right later) inside))

theorem mapGetBit_none {map : Table} (none_ : bit map k = none) : mapGetBit map k t = .error .undefined t := by
  unfold mapGetBit
  rw [none_]
  rfl

theorem mapGetBit_some {map : Table} {v : Bool} (here : bit map k = some v) : mapGetBit map k t = .ok v t :=
  mapGetBit_ok_iff.mpr ⟨rfl, here⟩

/-- The clear bits from bit `i` on. -/
abbrev clearFrom (t : Tool) (i left : Nat) : Nat := (List.range' i left).countP fun j => bit t.zonesMap j = some false

theorem clearFrom_zero : clearFrom t 0 t.sb.sNzones.toNat = t.clearBits.length := by
  unfold clearFrom Tool.clearBits
  rw [List.countP_eq_length_filter, List.range_eq_range']

/-- While the count is below `kerb`, the loop gets there if enough bits are clear. -/
theorem countZones_reaches (below : count < kerb) :
    (∃ c t', countZones kerb left i count t = .ok c t' ∧ kerb ≤ c) ↔ kerb ≤ count + clearFrom t i left := by
  induction left generalizing i count with
  | zero =>
    unfold clearFrom
    rw [List.range'_zero, List.countP_nil, Nat.cast_zero, add_zero]
    refine iff_of_false ?_ (not_le.mpr below)
    rintro ⟨c, t', ran, enough⟩
    obtain ⟨rfl, -⟩ := pure_ok_iff.mp ran
    omega
  | succ left ih =>
    unfold clearFrom
    rw [countZones, get_bind, List.range'_succ, List.countP_cons]
    cases here : bit t.zonesMap i with
    | none =>
      have none_ : (List.range' (i + 1) left).countP (fun j => bit t.zonesMap j = some false) = 0 := by
        refine List.countP_eq_zero.mpr fun j inside => ?_
        have later := (List.mem_range'_1.mp inside).1
        rw [bit_none_later here (by omega)]
        decide
      rw [bind_of_error (mapGetBit_none here), none_]
      refine iff_of_false ?_ ?_
      · rintro ⟨_, _, ran, -⟩
        cases ran
      · simpa using below
    | some used =>
      rw [bind_of_ok (mapGetBit_some here)]
      cases used with
      | true =>
        rw [if_pos rfl, if_neg below.ne]
        simpa using ih below
      | false =>
        rw [if_neg Bool.false_ne_true, decide_eq_true rfl, if_pos rfl]
        split
        · next reached =>
          refine iff_of_true ⟨_, t, rfl, reached.ge⟩ ?_
          omega
        · next more =>
          have sum (c : Nat) : count + ((c + 1 : Nat) : Int) = count + 1 + c := by omega
          rw [sum]
          exact ih (by omega)

/-- Once the count is above `kerb`, the loop goes to the end of the map. -/
theorem countZones_past (above : kerb < count) :
    (∃ c t', countZones kerb left i count t = .ok c t' ∧ kerb ≤ c) ↔
      ∀ j, i ≤ j → j < i + left → (bit t.zonesMap j).isSome := by
  induction left generalizing i count with
  | zero => exact iff_of_true ⟨_, t, rfl, above.le⟩ fun j from_ upto => by omega
  | succ left ih =>
    rw [countZones, get_bind]
    cases here : bit t.zonesMap i with
    | none =>
      rw [bind_of_error (mapGetBit_none here)]
      refine iff_of_false ?_ fun all => ?_
      · rintro ⟨_, _, ran, -⟩
        cases ran
      · have some_ := all i le_rfl (by omega)
        rw [here] at some_
        cases some_
    | some used =>
      rw [bind_of_ok (mapGetBit_some here)]
      have next : kerb < if used = true then count else count + 1 := by
        split <;> omega
      rw [if_neg next.ne', ih next]
      constructor
      · intro all j from_ upto
        obtain rfl | later : j = i ∨ i + 1 ≤ j := by omega
        · rw [here]
          rfl
        · exact all j later (by omega)
      · exact fun all j from_ upto => all j (by omega) (by omega)

/-- Where no zones are asked for, a first bit that is set ends the loop. -/
theorem countZones_zero (n : Nat) : (∃ c t', countZones 0 n 0 0 t = .ok c t' ∧ 0 ≤ c) ↔
    (∀ k < n, (bit t.zonesMap k).isSome) ∨ bit t.zonesMap 0 = some true := by
  cases n with
  | zero => exact iff_of_true ⟨0, t, rfl, le_rfl⟩ (.inl fun k low => absurd low k.not_lt_zero)
  | succ n =>
    rw [countZones, get_bind]
    cases here : bit t.zonesMap 0 with
    | none =>
      rw [bind_of_error (mapGetBit_none here)]
      refine iff_of_false ?_ ?_
      · rintro ⟨_, _, ran, -⟩
        cases ran
      · rintro (all | set_)
        · have some_ := all 0 n.succ_pos
          rw [here] at some_
          cases some_
        · cases set_
    | some used =>
      rw [bind_of_ok (mapGetBit_some here)]
      cases used with
      | true => exact iff_of_true ⟨0, t, rfl, le_rfl⟩ (.inr rfl)
      | false =>
        have past := @countZones_past t (0 + 1) n 0 (0 + 1) (by decide)
        rw [if_neg Bool.false_ne_true, if_neg (by decide), past, or_iff_left (by simp)]
        constructor
        · intro all k low
          obtain rfl | later := Nat.eq_zero_or_pos k
          · rw [here]
            rfl
          · exact all k later (by omega)
        · exact fun all j _ upto => all j (by omega)

theorem minixSpaceCheck_ok_iff : (∃ t', minixSpaceCheck size t = .ok () t') ↔ kernelZones size < 2 ^ 31 ∧
    ∃ c t', countZones (kernelZones size) t.sb.sNzones.toNat 0 0 t = .ok c t' ∧ kernelZones size ≤ c := by
  unfold minixSpaceCheck
  simp only [get_bind]
  by_cases wide : 2 ^ 31 ≤ kernelZones size
  · rw [if_pos wide]
    exact iff_of_false (fun ⟨t', ran⟩ => nomatch ran) fun both => absurd wide (not_le.mpr both.1)
  rw [if_neg wide, and_iff_right (not_le.mp wide)]
  constructor
  · rintro ⟨t', ran⟩
    obtain ⟨c, mid, counted, rest⟩ := bind_ok_iff.mp ran
    split at rest
    · cases rest
    · next enough => exact ⟨c, mid, counted, not_lt.mp enough⟩
  · rintro ⟨c, t', counted, enough⟩
    refine ⟨t', ?_⟩
    rw [bind_of_ok counted, if_neg (not_lt.mpr enough)]
    rfl

/-! ## What is asked for -/

/-- A block of zones that is not needed yet, and what it would lead to. -/
def askedExtra (n : Nat) : Nat := if n = 7 then 1 else if n = 519 then 2 else 0

theorem fileRounds_int : (Int32.ofNat n).toInt = if n % 2 ^ 32 < 2 ^ 31 then ((n % 2 ^ 32 : Nat) : Int)
    else ((n % 2 ^ 32 : Nat) : Int) - 2 ^ 32 := by
  rw [Int32.toInt_ofNat', Int.bmod_def, show ((Int32.size : Nat) : Int) = 2 ^ 32 from rfl]
  split <;> split <;> omega

/-- The formula, for a number of blocks that an `int` holds. -/
theorem formula_eq (n : Nat) : (if 7 ≤ (n : Int) ∧ (n : Int) < 7 + 512 then (n : Int) + 1
    else if 512 + 7 ≤ (n : Int) then (n : Int) + (2 + (((n : Int) - 7 - 512 - 1).tdiv 512 + 1)) else n) =
      (zonesTaken n + askedExtra n : Nat) := by
  rw [zonesTaken_eq, askedExtra]
  by_cases direct : n < 7
  · rw [if_neg (by omega), if_neg (by omega), if_pos (by omega), if_neg (by omega), if_neg (by omega), Nat.add_zero]
  by_cases single : n < 519
  · rw [if_pos (by omega)]
    split_ifs <;> omega
  rw [if_neg (by omega), if_pos (by omega), if_neg (by omega), if_neg (show n ≠ 7 by omega)]
  obtain rfl | more : n = 519 ∨ 520 ≤ n := by omega
  · decide
  · have quotient : ((n : Int) - 7 - 512 - 1).tdiv 512 = (n - 520) / 512 := by
      rw [Int.tdiv_eq_ediv_of_nonneg (by omega)]
      omega
    rw [quotient, if_neg (by omega), if_neg (by omega)]
    omega

theorem kernelZones_low (low : fileRounds size % 2 ^ 32 < 2 ^ 31) : kernelZones size =
    (zonesTaken (fileRounds size % 2 ^ 32) + askedExtra (fileRounds size % 2 ^ 32) : Nat) := by
  unfold kernelZones
  rw [fileRounds_int, if_pos low]
  exact formula_eq _

theorem kernelZones_negative (high : 2 ^ 31 ≤ fileRounds size % 2 ^ 32) : kernelZones size < 0 := by
  have below : fileRounds size % 2 ^ 32 < 2 ^ 32 := Nat.mod_lt _ (by decide)
  unfold kernelZones
  rw [fileRounds_int, if_neg (not_lt.mpr high)]
  dsimp only
  rw [if_neg (by omega), if_neg (by omega)]
  omega

/-! ## When the check passes -/

theorem clearBits_length_lt : t.clearBits.length < 2 ^ 16 := by
  have most := List.length_filter_le (fun k => decide (bit t.zonesMap k = some false)) (List.range t.sb.sNzones.toNat)
  rw [List.length_range] at most
  exact lt_of_le_of_lt most t.sb.sNzones.toNat_lt

theorem asked_le_iff {free : Nat} : zonesTaken n + askedExtra n ≤ free ↔ zonesTaken n ≤ free ∧ ¬ OverAsked n free := by
  unfold askedExtra OverAsked
  by_cases seven : n = 7
  · rw [if_pos seven, seven, show zonesTaken 7 = 7 from zonesTaken_eq 7]
    omega
  by_cases full : n = 519
  · rw [if_neg seven, if_pos full, full, show zonesTaken 519 = 520 from zonesTaken_eq 519]
    omega
  · rw [if_neg seven, if_neg full]
    omega

/-- The check passes where the number of blocks, as an `int`, is one for which there are zones. -/
theorem minixSpaceCheck_passes_iff :
    (∃ t', minixSpaceCheck size t = .ok () t') ↔ WrapsToFit (fileRounds size) t := by
  have few := @clearBits_length_lt t
  rw [minixSpaceCheck_ok_iff]
  unfold WrapsToFit
  by_cases low : fileRounds size % 2 ^ 32 < 2 ^ 31
  · have asks := kernelZones_low low
    by_cases some_ : 0 < fileRounds size % 2 ^ 32
    · have all : fileRounds size % 2 ^ 32 ≤ zonesTaken (fileRounds size % 2 ^ 32) := by
        rw [zonesTaken_eq]
        split_ifs <;> omega
      rw [if_pos ⟨some_, low⟩, ← asked_le_iff, countZones_reaches (by omega), clearFrom_zero, asks]
      omega
    · have none_ : fileRounds size % 2 ^ 32 = 0 := Nat.eq_zero_of_not_pos some_
      rw [none_] at asks
      have zero_ : kernelZones size = 0 := asks.trans (congrArg _ (zonesTaken_eq 0))
      rw [if_neg fun both => some_ both.1, none_, zero_, countZones_zero, and_iff_right (by decide)]
      simp only [true_and]
  · have asks := kernelZones_negative (not_lt.mp low)
    rw [if_neg fun both => low both.2, countZones_past asks, and_iff_right (by omega), or_iff_left fun both => by omega]
    exact ⟨fun all k below => all k (Nat.zero_le k) (by omega), fun all j _ upto => all j (by omega)⟩

/-- The check that stands ahead of the search for an inode. -/
theorem minixCheck_eq (input : InstallInput) : minixCheck input = (do
    minixSpaceCheck input.kernel.bytes.size
    let sb := (← get).sb
    let i ← scanInodes (sb.sInodes.toNat - 2) 2
    if i = sb.sInodes.toNat then screamAndQuit "Could not find a free spot in the inode table."
    else pure i) := by
  funext t
  unfold minixCheck minixSpaceCheck
  rw [bind_assoc, get_bind, get_bind]
  by_cases wide : 2 ^ 31 ≤ kernelZones input.kernel.bytes.size
  · rw [if_pos wide, if_pos wide]
    rfl
  rw [if_neg wide, if_neg wide]
  cases counted : countZones (kernelZones input.kernel.bytes.size) t.sb.sNzones.toNat 0 0 t with
  | error e mid => rw [bind_of_error counted, bind_of_error (bind_of_error counted)]
  | ok count mid =>
    obtain rfl : mid = t := (countZones_keeps id _ _ _ _).ok counted
    rw [bind_of_ok counted, bind_assoc, bind_of_ok counted]
    by_cases few : count < kernelZones input.kernel.bytes.size
    · rw [if_pos few, if_pos few]
      rfl
    · rw [if_neg few, if_neg few]
      rfl

/-! ## What the copy takes -/

/-- The program takes `n` zones, and stops for want of zones only where there are fewer. -/
abbrev Allots {α : Type} (n : Nat) (x : ToolM α) (t : Tool) : Prop :=
  Spends (fun t : Tool => t.clearBits.length) noSpaceLeft n x t

theorem allots_scream {α : Type} {complaint : String} (other : complaint ≠ "No space left on device.") :
    Allots n (screamAndQuit complaint : ToolM α) t :=
  spends_throw fun same => other (Quit.screamed.inj same)

theorem allots_undefined {α : Type} : Allots n (throw .undefined : ToolM α) t := spends_throw (by decide)

theorem seekBlock_allots {complaint : String} (other : complaint ≠ "No space left on device.") :
    Allots 0 (seekBlock z complaint) t := by
  refine spends_get ?_
  dsimp only
  split
  · exact allots_undefined
  split
  · exact allots_scream other
  · exact spends_pure _

theorem minixLoadBlock_allots : Allots 0 (minixLoadBlock z) t := by
  refine (seekBlock_allots (by decide)).bind (fun off mid _ => spends_get ?_) (Nat.zero_add _)
  split
  · exact spends_pure _
  · exact allots_scream (by decide)

theorem minixStoreBlock_allots : Allots 0 (minixStoreBlock z data) t := by
  exact (seekBlock_allots (by decide)).bind (fun off mid _ => spends_modify rfl) (Nat.zero_add _)

theorem wordAt_allots : Allots 0 (wordAt data i) t := by
  unfold wordAt
  split
  · exact spends_pure _
  · exact allots_undefined

theorem setWordAt_allots : Allots 0 (setWordAt data i z) t := by
  unfold setWordAt
  split
  · exact spends_pure _
  · exact allots_undefined

theorem setZoneBit_allots (first : FirstClear t k) : Allots 1 (setZoneBit k) t := by
  have marks : setZoneBit k t = .ok () (t.markZone k) := setZoneBit_ok_iff.mpr ⟨first.clear ▸ rfl, rfl⟩
  constructor
  · intro _ t' ran
    obtain ⟨-, rfl⟩ := setZoneBit_ok_iff.mp ran
    rw [clearBits_first first, List.length_cons]
  · intro t' stopped
    rw [marks] at stopped
    cases stopped

/-- The search for a zone fails only where none is clear. -/
theorem found_allots {α : Type} {f : Nat → ToolM α} (some_ : 0 < n) (rest : ∀ k, FirstClear t k → Allots n (f k) t) :
    Allots n (findZone >>= f) t := by
  constructor
  · intro a t' ran
    obtain ⟨k, mid, found, ran'⟩ := bind_ok_iff.mp ran
    obtain ⟨rfl, first⟩ := findZone_ok_iff.mp found
    exact (rest k first).ok a t' ran'
  · intro t' stopped
    by_cases full : t.clearBits = []
    · rw [full]
      exact some_
    · obtain ⟨j, clear⟩ := List.exists_mem_of_ne_nil _ full
      obtain ⟨k, first⟩ := exists_firstClear clear
      rw [bind_of_ok (findZone_ok_iff.mpr ⟨rfl, first⟩)] at stopped
      exact (rest k first).short t' stopped

theorem takeField_allots : Allots 1 (takeField inode i) t := by
  refine spends_get (found_allots Nat.one_pos fun k first => ?_)
  exact (setZoneBit_allots first).bind (fun _ _ _ => spends_pure _) (Nat.add_zero _)

theorem takeEntry_allots : Allots 1 (takeEntry z data i) t := by
  refine spends_get (found_allots Nat.one_pos fun k first => ?_)
  refine setWordAt_allots.bind (fun data' mid ran => ?_) (Nat.zero_add _)
  obtain ⟨rfl, -, -⟩ := setWordAt_ok_iff.mp ran
  refine (setZoneBit_allots first).bind (fun _ _ _ => ?_) (Nat.add_zero _)
  exact minixStoreBlock_allots.bind (fun _ _ _ => spends_pure _) (Nat.add_zero _)

theorem onlyIf_allots {α : Type} {boundary : Prop} [Decidable boundary] {a : α} {take : ToolM (UInt16 × α)}
    (takes : Allots 1 take t) : Allots (if boundary then 1 else 0) (onlyIf boundary a take) t := by
  unfold onlyIf
  split
  · exact takes.map
  · exact spends_pure _

/-- A file gets its next block with as many zones as slots come into use. -/
theorem minixAddFileBlock_allots : Allots (newSlots inode.fileBlocks).length (minixAddFileBlock inode) t := by
  unfold minixAddFileBlock
  rw [newSlots_length]
  generalize inode.fileBlocks = fb
  by_cases direct : fb < 7
  · rw [if_pos direct, if_neg (by omega), if_neg (by omega), if_neg (by omega)]
    exact takeField_allots
  rw [if_neg direct]
  by_cases single : fb < 7 + 512
  · rw [if_pos single, if_neg (show fb ≠ 519 by omega), if_neg (show ¬ (519 ≤ fb ∧ (fb - 519) % 512 = 0) by omega)]
    refine (onlyIf_allots takeField_allots).bind (fun inode' mid _ => ?_) rfl
    refine minixLoadBlock_allots.bind (fun data mid _ => ?_) (Nat.zero_add 1)
    exact takeEntry_allots.bind (fun _ _ _ => spends_pure _) (Nat.add_zero _)
  · have boundary : (519 ≤ fb ∧ (fb - 519) % 512 = 0) = ((fb - 7 + 512) % 512 = 0) := propext (by omega)
    rw [if_neg single, if_neg (show fb ≠ 7 by omega), Nat.zero_add]
    simp only [boundary]
    refine (onlyIf_allots takeField_allots).bind (fun inode' mid _ => ?_) (Nat.add_assoc _ _ _).symm
    refine minixLoadBlock_allots.bind (fun data mid _ => ?_) (Nat.zero_add _)
    refine (onlyIf_allots takeEntry_allots).bind (fun data mid _ => ?_) rfl
    refine wordAt_allots.bind (fun second mid _ => ?_) (Nat.zero_add 1)
    refine minixLoadBlock_allots.bind (fun data mid _ => ?_) (Nat.zero_add 1)
    exact takeEntry_allots.bind (fun _ _ _ => spends_pure _) (Nat.add_zero _)

theorem minixSaveInode_allots : Allots 0 (minixSaveInode i inode) t := by
  refine spends_get ?_
  exact minixLoadBlock_allots.bind (fun data mid _ => minixStoreBlock_allots) (Nat.zero_add _)

theorem copyRound_allots {j : Nat} : Allots (newSlots inode.fileBlocks).length (copyRound kernel i j inode) t := by
  unfold copyRound copyBlock
  dsimp only
  split
  · exact allots_scream (by decide)
  refine Spends.bind (minixAddFileBlock_allots.bind (fun taken mid _ => ?_) (Nat.add_zero _)) (fun _ mid _ => ?_)
    (Nat.add_zero _)
  · exact minixStoreBlock_allots.bind (fun _ _ _ => spends_pure _) (Nat.add_zero _)
  · exact minixSaveInode_allots.bind (fun _ _ _ => spends_pure _) (Nat.add_zero _)

/-- Ahead of round `j`, the file has `j` whole blocks. -/
theorem copyRound_size {j : Nat} (here : j < fileRounds kernel.bytes.size → inode.iSize.toNat = 1024 * j)
    (within : j < fileRounds kernel.bytes.size) (ran : copyRound kernel i j inode t = .ok inode' t') :
    j + 1 < fileRounds kernel.bytes.size → inode'.iSize.toNat = 1024 * (j + 1) := by
  intro more
  have size := here within
  obtain ⟨z, mid, round, -⟩ := copyRound_ok ran
  obtain ⟨inode₁, t₁, added, -, -, rfl⟩ := copyBlock_ok_iff.mp round
  obtain ⟨low, ks, k, grown, -⟩ := minixAddFileBlock_ok_iff.mp added
  have same : inode₁.iSize = inode.iSize := growth_iSize grown
  have full : min 1024 (kernel.bytes.size - 1024 * j) = 1024 := by
    unfold fileRounds at more
    omega
  rw [fileBlocks_of_size size] at low
  dsimp only
  rw [same, full, UInt32.toNat_add, size]
  change (1024 * j + 1024) % 2 ^ 32 = _
  omega

/-- The copy takes what the file of so many blocks takes. -/
theorem copyRounds_allot (time : UInt32) : Allots (zonesTaken (fileRounds kernel.bytes.size))
    (upTo (copyRound kernel i) (fileRounds kernel.bytes.size) (newInode time)) t := by
  have total : zonesTaken (fileRounds kernel.bytes.size) =
      ((List.range (fileRounds kernel.bytes.size)).map fun j => (newSlots j).length).sum := by
    rw [zonesTaken, slots, List.length_flatMap]
  rw [total]
  refine upTo_spends (fun j inode _ => j < fileRounds kernel.bytes.size → inode.iSize.toNat = 1024 * j) (fun _ => rfl)
    (fun j low inode mid inode' mid' here ran => copyRound_size here low ran) fun j low inode mid here => ?_
  have place := fileBlocks_of_size (here low)
  rw [← place]
  exact copyRound_allots

/-! ## Exactness -/

/-- The check asks for exactly what the copy takes unless the blocks just fill the inode or the first block of
zones, and exactly as many zones are free as are needed, or one or two more in the second case; or an `int` is too small
for their number. A copy that returns has taken exactly so many zones. -/
theorem spaceCheckExact_iff (kernel : InputFile) (t : Tool) :
    (SpaceCheckExact kernel t ↔ ¬ OverAsked (fileRounds kernel.bytes.size) t.clearBits.length ∧
      (2 ^ 31 ≤ fileRounds kernel.bytes.size → ¬ WrapsToFit (fileRounds kernel.bytes.size) t)) ∧
    ∀ i time inode t', upTo (copyRound kernel i) (fileRounds kernel.bytes.size) (newInode time) t = .ok inode t' →
      t.clearBits.length = t'.clearBits.length + zonesTaken (fileRounds kernel.bytes.size) := by
  refine ⟨?_, fun i time inode t' ran => (copyRounds_allot time).ok inode t' ran⟩
  have few := @clearBits_length_lt t
  have exact_ : SpaceCheckExact kernel t ↔ (WrapsToFit (fileRounds kernel.bytes.size) t ↔
      zonesTaken (fileRounds kernel.bytes.size) ≤ t.clearBits.length) := by
    constructor
    · rintro ⟨passes, -⟩
      rwa [minixSpaceCheck_passes_iff] at passes
    · intro passes
      have passes' := minixSpaceCheck_passes_iff.trans passes
      refine ⟨passes', fun passed i time t₁ t₂ map sb stopped => ?_⟩
      have bits : t₁.clearBits = t.clearBits := by
        unfold Tool.clearBits
        rw [map, sb]
      have short := (copyRounds_allot time).short t₂ stopped
      rw [bits] at short
      exact absurd (passes'.mp passed) (not_le.mpr short)
  have all : fileRounds kernel.bytes.size ≤ zonesTaken (fileRounds kernel.bytes.size) := by
    rw [zonesTaken_eq]
    split_ifs <;> omega
  rw [exact_]
  by_cases low : fileRounds kernel.bytes.size < 2 ^ 31
  · have mod : fileRounds kernel.bytes.size % 2 ^ 32 = fileRounds kernel.bytes.size := Nat.mod_eq_of_lt (by omega)
    have some_ : 0 < fileRounds kernel.bytes.size := Nat.succ_pos _
    have fits : OverAsked (fileRounds kernel.bytes.size) t.clearBits.length →
        zonesTaken (fileRounds kernel.bytes.size) ≤ t.clearBits.length := by
      rintro (⟨seven, free⟩ | ⟨full, free, -⟩)
      · rw [seven, free]
        exact (zonesTaken_eq 7).le
      · rw [full]
        exact (zonesTaken_eq 519).le.trans free
    unfold WrapsToFit
    rw [mod, if_pos ⟨some_, low⟩, and_iff_left fun high => absurd low (not_lt.mpr high)]
    exact ⟨fun same asked => (same.mpr (fits asked)).2 asked, fun exact_ => and_iff_left exact_⟩
  · have exactly : ¬ OverAsked (fileRounds kernel.bytes.size) t.clearBits.length := by
      rintro (⟨seven, -⟩ | ⟨full, -⟩) <;> omega
    have full : ¬ zonesTaken (fileRounds kernel.bytes.size) ≤ t.clearBits.length := by omega
    rw [iff_false_right full, and_iff_right exactly]
    exact ⟨fun none_ _ => none_, fun none_ => none_ (not_lt.mp low)⟩

/-- A disk of seven zones from block 5 on, all of which are free. -/
def sevenFree : Tool where
  img := ⟨fun _ => 0, 12 * 1024⟩
  ps := 0
  sb := ⟨32, 7, 1, 1, 5, 0, 0x10081c00, 0x138f, 1⟩
  inodesMap := #[0xff]
  zonesMap := #[0x80]

/-- A kernel of seven blocks. -/
def sevenBlocks : InputFile := ⟨true, Array.replicate 7168 0x7f, false⟩

/-- A kernel that needs seven zones is refused where seven are free. -/
theorem seven_blocks_refused : minixSpaceCheck sevenBlocks.bytes.size sevenFree =
      .error (.screamed "There's not free space for the kernel") sevenFree ∧
    zonesTaken (fileRounds sevenBlocks.bytes.size) = 7 ∧ sevenFree.clearBits.length = 7 ∧
    ¬ SpaceCheckExact sevenBlocks sevenFree := by
  have size : sevenBlocks.bytes.size = 7168 := Array.size_replicate
  have refused : minixSpaceCheck 7168 sevenFree =
      .error (.screamed "There's not free space for the kernel") sevenFree := rfl
  have needs : zonesTaken (fileRounds 7168) = 7 := by decide
  have free : sevenFree.clearBits.length = 7 := by decide
  rw [size]
  refine ⟨refused, needs, free, fun exact_ => ?_⟩
  have passes := exact_.passes
  rw [size, needs, free] at passes
  obtain ⟨t', passed⟩ := passes.mpr le_rfl
  rw [refused] at passed
  cases passed

end AtaKernel.Minix
