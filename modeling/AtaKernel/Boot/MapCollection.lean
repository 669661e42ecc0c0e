import AtaKernel.Boot.MmapInit

/-! The list that `mmap_init` leaves for the kernel, for every BIOS that serves a
list of descriptors and marks its end in one of two ways. The routine looks for
the end before it looks at the entry, and so loses the last descriptor of a BIOS
that returns EBX = 0 with it. The test that is to skip entries without a length
reads the high half of the length at offset 14, where it is at offset 12. -/
namespace AtaKernel.Boot
open ByteMemory Memory

variable {m m' : Memory} {a x : Nat} {ds es : List MemBiosMmapEntry} {d : MemBiosMmapEntry} {cpu : Cpu}

/-! ## The BIOS -/

/-- How a BIOS marks the end: with the last descriptor, or on the call after it. -/
inductive Ending
  | ebxZero
  | carrySet
  deriving DecidableEq

/-- A call as the routine makes it, with the buffer in the space for the list. -/
structure Asks (cpu : Cpu) (next : UInt32) : Prop where
  eax : cpu.eax = 0xe820
  edx : cpu.edx = smap
  ecx : cpu.ecx = 20
  ebx : cpu.ebx = next
  buffer : 0x0600 ≤ cpu.edi.toNat ∧ cpu.edi.toNat + 20 ≤ 0x1000

/-- What every call leaves alone: the pointer, and the list outside of the buffer. -/
structure Keeps (cpu cpu' : Cpu) : Prop where
  edi : cpu'.edi = cpu.edi
  outside : ∀ x, 0x0600 ≤ x → x < 0x1000 → ¬ (cpu.edi.toNat ≤ x ∧ x < cpu.edi.toNat + 20) →
    cpu'.memory x = cpu.memory x

/-- A call that returns the descriptor `d`. -/
structure Answers (cpu cpu' : Cpu) (d : MemBiosMmapEntry) : Prop extends Keeps cpu cpu' where
  carry : cpu'.carry = false
  eax : cpu'.eax = smap
  ecx : cpu'.ecx = 20
  here : descriptorAt cpu'.memory cpu.edi.toNat = d

/-- The BIOS in state `bios`, asked with EBX = `next`, has the descriptors `ds` left. -/
def Serves {σ : Type} (int15 : σ → Cpu → σ × Cpu) (ending : Ending) : σ → UInt32 → List MemBiosMmapEntry → Prop
  | bios, next, [] => ending = .carrySet ∧ ∀ cpu, Asks cpu next →
    (int15 bios cpu).2.carry = true ∧ Keeps cpu (int15 bios cpu).2
  | bios, next, d :: ds => ∀ cpu, Asks cpu next → Answers cpu (int15 bios cpu).2 d ∧
    if ds = [] ∧ ending = .ebxZero then (int15 bios cpu).2.ebx = 0
    else (int15 bios cpu).2.ebx ≠ 0 ∧ Serves int15 ending (int15 bios cpu).1 (int15 bios cpu).2.ebx ds

/-- The descriptors that the routine tests and keeps: with EBX = 0 it is done before it tests the
last one. -/
def collected (ds : List MemBiosMmapEntry) : Ending → List MemBiosMmapEntry
  | .ebxZero => ds.dropLast.filter (Kept ·)
  | .carrySet => ds.filter (Kept ·)

section Loop

variable {σ : Type} {int15 : σ → Cpu → σ × Cpu} {ending : Ending} {bios : σ} {fuel fuel' : Nat}
  {done : List MemBiosMmapEntry}

/-- More fuel does not change a loop that ended. -/
theorem mmapTestEntry_mono (ended : mmapTestEntry int15 fuel bios cpu = some m) (more : fuel ≤ fuel') :
    mmapTestEntry int15 fuel' bios cpu = some m := by
  induction fuel generalizing bios cpu fuel' with
  | zero => cases ended
  | succ fuel ih =>
    obtain ⟨fuel', rfl⟩ : ∃ k, fuel' = k + 1 := ⟨fuel' - 1, by omega⟩
    unfold mmapTestEntry at ended ⊢
    dsimp only at ended ⊢
    split
    · next last => rwa [if_pos last] at ended
    · next going =>
      rw [if_neg going] at ended
      split
      · next last => rwa [if_pos last] at ended
      · next further =>
        rw [if_neg further] at ended
        exact ih ended (Nat.le_of_succ_le_succ more)

/-- The list so far, and the pointer behind it. -/
structure Filled (cpu : Cpu) (done : List MemBiosMmapEntry) : Prop where
  listed : Listed cpu.memory 0x0600 done
  place : cpu.edi.toNat = 0x0600 + 20 * done.length

/-- Clearing the entry at the pointer closes the list. -/
theorem Filled.closed (filled : Filled cpu done) (room : done.length < 128) :
    Listed (mmapDone cpu) 0x0600 (done ++ [closing]) := by
  have place := filled.place
  have di : cpu.edi.toUInt16.toNat = 0x0600 + 20 * done.length := by
    rw [UInt32.toNat_toUInt16, place]
    exact Nat.mod_eq_of_lt (by omega)
  have fits : cpu.edi.toUInt16.toNat + 20 ≤ 2 ^ 16 := by omega
  refine listed_append.mpr ⟨listed_congr (by omega) (fun x above below => ?_) filled.listed, ?_, trivial⟩
  · rw [mmapDone, repStosb_apply fits, if_neg (by omega)]
  · rw [← di]
    exact descriptorAt_cleared fits

/-- A call leaves the list as it is. -/
theorem Filled.keeps {cpu' : Cpu} (filled : Filled cpu done) (room : done.length < 128)
    (call : Keeps cpu cpu') : Filled cpu' done := by
  have place := filled.place
  refine ⟨listed_congr (by omega) (fun x above below => ?_) filled.listed, call.edi ▸ place⟩
  exact call.outside x above (by omega) (by omega)

/-- The test of an entry adds it to the list, or leaves its place to the next one. -/
theorem Filled.test {d : MemBiosMmapEntry} (filled : Filled cpu done) (room : done.length < 127)
    (full : cpu.ecx = 20) (here : descriptorAt cpu.memory cpu.edi.toNat = d) :
    Filled (mmapTest cpu).request (done ++ [d].filter (Kept ·)) ∧ (mmapTest cpu).request.ebx = cpu.ebx := by
  have place := filled.place
  obtain ⟨ecx, tested⟩ := mmapTest_eq (show cpu.ecx ≠ 0 from full ▸ by decide)
  rw [tested, here]
  by_cases passes : Kept d
  · have pass : [d].filter (Kept ·) = [d] := List.filter_cons_of_pos (decide_eq_true passes)
    rw [if_pos passes, pass]
    refine ⟨⟨listed_append.mpr ⟨filled.listed, ?_, trivial⟩, ?_⟩, rfl⟩
    · rw [← place]
      exact here
    · change (cpu.edi + 20).toNat = _
      rw [UInt32.toNat_add, List.length_append]
      change (cpu.edi.toNat + 20) % 2 ^ 32 = 0x0600 + 20 * (done.length + 1)
      rw [Nat.mod_eq_of_lt (by omega)]
      omega
  · have fail : [d].filter (Kept ·) = [] := List.filter_cons_of_neg (by simpa using passes)
    rw [if_neg passes, fail, List.append_nil]
    exact ⟨⟨filled.listed, filled.place⟩, rfl⟩

theorem asks_request (filled : Filled cpu.request done) (room : done.length < 128) :
    Asks cpu.request cpu.ebx := by
  have place := filled.place
  exact ⟨rfl, rfl, rfl, rfl, by omega, by omega⟩

theorem collected_cons {d e : MemBiosMmapEntry} :
    collected (d :: e :: ds) ending = [d].filter (Kept ·) ++ collected (e :: ds) ending := by
  cases ending with
  | ebxZero => exact @List.filter_append _ (fun d => decide (Kept d)) [d] (e :: ds).dropLast
  | carrySet => exact @List.filter_append _ (fun d => decide (Kept d)) [d] (e :: ds)

/-- The loop, with one descriptor in the buffer and `ds` to come. -/
theorem mmapTestEntry_collects {d : MemBiosMmapEntry} (serves : Serves int15 ending bios cpu.ebx ds)
    (filled : Filled cpu done) (room : done.length + 1 + ds.length ≤ 127) (full : cpu.ecx = 20)
    (here : descriptorAt cpu.memory cpu.edi.toNat = d) :
    ∃ m, mmapTestEntry int15 (ds.length + 1) bios cpu = some m ∧
      Listed m 0x0600 (done ++ collected (d :: ds) ending ++ [closing]) := by
  induction ds generalizing bios cpu done d with
  | nil =>
    obtain ⟨tested, ebx⟩ := filled.test (by omega) full here
    have few : (done ++ [d].filter (Kept ·)).length < 128 := by
      have := List.length_filter_le (fun d => decide (Kept d)) [d]
      simp only [List.length_append, List.length_singleton, List.length_nil] at *
      omega
    obtain ⟨rfl, ends⟩ := serves
    obtain ⟨carry, keeps⟩ := ends (mmapTest cpu).request (ebx ▸ asks_request tested few)
    refine ⟨_, ?_, (tested.keeps few keeps).closed few⟩
    rw [mmapTestEntry]
    exact if_pos carry
  | cons e es ih =>
    obtain ⟨tested, ebx⟩ := filled.test (by omega) full here
    have few : (done ++ [d].filter (Kept ·)).length ≤ done.length + 1 := by
      have := List.length_filter_le (fun d => decide (Kept d)) [d]
      simp only [List.length_append, List.length_singleton] at *
      omega
    rw [List.length_cons] at room
    obtain ⟨answers, further⟩ := serves (mmapTest cpu).request (ebx ▸ asks_request tested (by omega))
    have filled' := tested.keeps (by omega) answers.toKeeps
    have going : ¬ (int15 bios (mmapTest cpu).request).2.carry = true := by
      rw [answers.carry]
      exact Bool.false_ne_true
    have step : mmapTestEntry int15 ((e :: es).length + 1) bios cpu =
        if (int15 bios (mmapTest cpu).request).2.ebx = 0 then
          some (mmapDone (int15 bios (mmapTest cpu).request).2)
        else mmapTestEntry int15 (es.length + 1) (int15 bios (mmapTest cpu).request).1
          (int15 bios (mmapTest cpu).request).2 := by
      rw [mmapTestEntry]
      exact if_neg going
    rw [step]
    by_cases last : es = [] ∧ ending = .ebxZero
    · obtain ⟨rfl, rfl⟩ := last
      rw [if_pos ⟨rfl, rfl⟩] at further
      rw [if_pos further]
      exact ⟨_, rfl, filled'.closed (by omega)⟩
    · rw [if_neg last] at further
      obtain ⟨m, ended, listed⟩ := @ih _ _ _ e further.2 filled' (by omega) answers.ecx
        (answers.edi.symm ▸ answers.here)
      rw [if_neg further.1]
      refine ⟨m, ended, ?_⟩
      rw [collected_cons, ← List.append_assoc done]
      exact listed

/-- What the routine leaves behind. -/
theorem mmapInit_collects (serves : Serves int15 ending bios 0 ds) (some_ : ds ≠ []) (few : ds.length ≤ 127)
    (cpu : Cpu) : ∃ fuel m, mmapInit int15 fuel bios cpu = some m ∧
      Listed m 0x0600 (collected ds ending ++ [closing]) := by
  obtain ⟨first, first_eq⟩ : ∃ first, first = { cpu.request with
    ebx := 0, edi := movDi cpu.edi memMapOffset &&& 0x0000ffff } := ⟨_, rfl⟩
  have place : first.edi.toNat = 0x0600 := by
    rw [first_eq]
    change (movDi cpu.edi memMapOffset &&& 0x0000ffff).toNat = 0x0600
    rw [movDi_clean]
    rfl
  have asks : Asks first 0 := by
    rw [first_eq] at place ⊢
    exact ⟨rfl, rfl, rfl, rfl, place.ge, by omega⟩
  cases ds with
  | nil => exact absurd rfl some_
  | cons d ds =>
    obtain ⟨answers, further⟩ := serves first asks
    have filled : Filled (int15 bios first).2 [] :=
      ⟨trivial, (congrArg UInt32.toNat answers.edi).trans place⟩
    have start : ∀ fuel, mmapInit int15 fuel bios cpu =
        if (int15 bios first).2.ebx = 0 then some (mmapDone (int15 bios first).2)
        else mmapTestEntry int15 fuel (int15 bios first).1 (int15 bios first).2 := by
      intro fuel
      rw [mmapInit, ← first_eq]
      dsimp only
      rw [if_neg (by rw [answers.carry]; exact Bool.false_ne_true), if_neg (not_not.mpr answers.eax)]
    by_cases last : ds = [] ∧ ending = .ebxZero
    · obtain ⟨rfl, rfl⟩ := last
      rw [if_pos ⟨rfl, rfl⟩] at further
      refine ⟨0, _, (start 0).trans (if_pos further), filled.closed (by decide)⟩
    · rw [if_neg last] at further
      rw [List.length_cons] at few
      obtain ⟨m, ended, listed⟩ := @mmapTestEntry_collects _ _ _ _ _ _ _ d further.2 filled
        (show 0 + 1 + ds.length ≤ 127 by omega) answers.ecx (answers.edi.symm ▸ answers.here)
      exact ⟨ds.length + 1, m, (start _).trans ((if_neg further.1).trans ended), listed⟩

theorem mmapInit_unique {m₁ m₂ : Memory} (one : mmapInit int15 fuel bios cpu = some m₁)
    (other : mmapInit int15 fuel' bios cpu = some m₂) : m₁ = m₂ := by
  have more : ∀ {f f' m}, mmapInit int15 f bios cpu = some m → f ≤ f' →
      mmapInit int15 f' bios cpu = some m := by
    intro f f' m ended le
    unfold mmapInit at ended ⊢
    dsimp only at ended ⊢
    split
    · next h => rwa [if_pos h] at ended
    · next h =>
      rw [if_neg h] at ended
      split
      · next h => rwa [if_pos h] at ended
      · next h =>
        rw [if_neg h] at ended
        split
        · next h => rwa [if_pos h] at ended
        · next h =>
          rw [if_neg h] at ended
          exact mmapTestEntry_mono ended le
  have left := more one (le_max_left fuel fuel')
  have right := more other (le_max_right fuel fuel')
  exact Option.some.inj (left.symm.trans right)

end Loop

/-! ## The list the kernel reads -/

def HasLength (d : MemBiosMmapEntry) : Prop := d.size ≠ 0

instance (d : MemBiosMmapEntry) : Decidable (HasLength d) := inferInstanceAs (Decidable (_ ≠ _))

/-- The descriptors that have a length, in order, and an entry of zeros after them. -/
def Collects {σ : Type} (int15 : σ → Cpu → σ × Cpu) (bios : σ) (cpu : Cpu) (ds : List MemBiosMmapEntry) :
    Prop :=
  ∃ fuel m, mmapInit int15 fuel bios cpu = some m ∧ Listed m 0x0600 (ds.filter (HasLength ·) ++ [closing])

/-- The test agrees with the length on every descriptor that is tested, and what is lost had no
length. -/
def TestsWell (ds : List MemBiosMmapEntry) : Ending → Prop
  | .ebxZero => (∀ d ∈ ds.dropLast, Kept d ↔ HasLength d) ∧ ∀ d ∈ ds.getLast?, ¬ HasLength d
  | .carrySet => ∀ d ∈ ds, Kept d ↔ HasLength d

theorem filter_eq_filter_iff {p q : MemBiosMmapEntry → Prop} [DecidablePred p] [DecidablePred q] :
    ds.filter (p ·) = ds.filter (q ·) ↔ ∀ d ∈ ds, p d ↔ q d := by
  constructor
  · intro same d inside
    have left := @List.mem_filter _ (fun d => decide (p d)) ds d
    have right := @List.mem_filter _ (fun d => decide (q d)) ds d
    rw [same, right, decide_eq_true_iff, decide_eq_true_iff] at left
    exact ⟨fun both => (left.mpr ⟨inside, both⟩).2, fun both => (left.mp ⟨inside, both⟩).2⟩
  · intro agree
    exact List.filter_congr fun d inside => decide_eq_decide.mpr (agree d inside)

theorem collected_iff {ending : Ending} (some_ : ds ≠ []) :
    collected ds ending = ds.filter (HasLength ·) ↔ TestsWell ds ending := by
  cases ending with
  | carrySet => exact filter_eq_filter_iff
  | ebxZero =>
    obtain ⟨front, d, rfl⟩ : ∃ front d, ds = front ++ [d] :=
      ⟨ds.dropLast, ds.getLast some_, (List.dropLast_append_getLast some_).symm⟩
    rw [collected, TestsWell, List.dropLast_concat, List.filter_append, List.getLast?_concat]
    by_cases long : HasLength d
    · have last : [d].filter (HasLength ·) = [d] := List.filter_cons_of_pos (decide_eq_true long)
      rw [last]
      refine iff_of_false (fun same => ?_) fun well => well.2 d rfl long
      have agree : ∀ e ∈ front, Kept e ↔ HasLength e := by
        intro e inside
        have members : e ∈ front.filter (Kept ·) ↔ e ∈ front.filter (HasLength ·) ++ [d] := by rw [same]
        simp only [List.mem_append, List.mem_filter, decide_eq_true_iff, List.mem_singleton] at members
        constructor
        · intro kept
          rcases members.mp ⟨inside, kept⟩ with both | rfl
          · exact both.2
          · exact long
        · exact fun has => (members.mpr (.inl ⟨inside, has⟩)).2
      have lengths := congrArg List.length same
      rw [filter_eq_filter_iff.mpr agree, List.length_append] at lengths
      exact absurd lengths (by simp)
    · have none_ : [d].filter (HasLength ·) = [] := List.filter_cons_of_neg (by simpa using long)
      rw [none_, List.append_nil, filter_eq_filter_iff]
      exact (and_iff_left fun e last => (Option.some.inj last) ▸ long).symm

section Collection

variable {σ : Type} {int15 : σ → Cpu → σ × Cpu} {bios : σ} {ending : Ending}

/-- What the routine leaves is the list of those that have a length exactly if it collects these. -/
theorem collects_of_serves (serves : Serves int15 ending bios 0 ds) (some_ : ds ≠ []) (few : ds.length ≤ 127)
    (cpu : Cpu) : Collects int15 bios cpu ds ↔ collected ds ending = ds.filter (HasLength ·) := by
  obtain ⟨fuel, m, ended, listed⟩ := mmapInit_collects serves some_ few cpu
  have closing_kept : ¬ Kept closing := by decide
  have closing_length : ¬ HasLength closing := by decide
  have apart : closing ∉ collected ds ending := by
    intro inside
    cases ending with
    | ebxZero => exact closing_kept (of_decide_eq_true (List.mem_filter.mp inside).2)
    | carrySet => exact closing_kept (of_decide_eq_true (List.mem_filter.mp inside).2)
  constructor
  · rintro ⟨fuel', m', ended', listed'⟩
    rw [mmapInit_unique ended' ended] at listed'
    refine listed_unique listed listed' apart fun inside => ?_
    exact closing_length (of_decide_eq_true (List.mem_filter.mp inside).2)
  · intro same
    exact ⟨fuel, m, ended, same ▸ listed⟩

/-- The routine collects what the kernel needs exactly if the test agrees with the length and nothing
is lost at the end. -/
theorem collects_iff (serves : Serves int15 ending bios 0 ds) (some_ : 1 ≤ ds.length)
    (few : ds.length ≤ 127) (cpu : Cpu) : Collects int15 bios cpu ds ↔ TestsWell ds ending := by
  have nonempty : ds ≠ [] := List.ne_nil_of_length_pos some_
  rw [collects_of_serves serves nonempty few cpu]
  exact collected_iff nonempty

end Collection

/-! ## A BIOS with a table -/

def storeDescriptor (m : Memory) (a : Nat) (d : MemBiosMmapEntry) : Memory :=
  store (store (store m a 8 d.base.toNat) (a + 8) 8 d.size.toNat) (a + 16) 4 d.type.toNat

theorem descriptorAt_store (d : MemBiosMmapEntry) : descriptorAt (storeDescriptor m a d) a = d := by
  have apart : ∀ i n j k, i + n ≤ j ∨ j + k ≤ i → i + n ≤ 20 → j + k ≤ 20 → Apart (a + i) n (a + j) k := by
    intro i n j k order left right s hs t ht
    unfold cell
    omega
  have base : load (storeDescriptor m a d) a 8 = d.base.toNat := by
    unfold storeDescriptor
    have behind : Apart a 8 (a + 16) 4 := apart 0 8 16 4 (by omega) (by omega) (by omega)
    have next : Apart a 8 (a + 8) 8 := apart 0 8 8 8 (by omega) (by omega) (by omega)
    rw [load_store_apart _ _ behind, load_store_apart _ _ next, load_store_same _ _ _ (by omega)]
    exact Nat.mod_eq_of_lt d.base.toNat_lt
  have size : load (storeDescriptor m a d) (a + 8) 8 = d.size.toNat := by
    unfold storeDescriptor
    rw [load_store_apart _ _ (apart 8 8 16 4 (by omega) (by omega) (by omega)), load_store_same _ _ _ (by omega)]
    exact Nat.mod_eq_of_lt d.size.toNat_lt
  have type : load (storeDescriptor m a d) (a + 16) 4 = d.type.toNat := by
    unfold storeDescriptor
    rw [load_store_same _ _ _ (by omega)]
    exact Nat.mod_eq_of_lt d.type.toNat_lt
  unfold descriptorAt
  rw [base, size, type, UInt64.ofNat_toNat, UInt64.ofNat_toNat, UInt32.ofNat_toNat]

theorem storeDescriptor_outside {d : MemBiosMmapEntry} (small : a + 20 ≤ 2 ^ 32)
    (away : ¬ (a ≤ x ∧ x < a + 20)) : storeDescriptor m a d x = m x := by
  unfold storeDescriptor
  rw [store_away (by omega) (by omega), store_away (by omega) (by omega), store_away (by omega) (by omega)]

/-- The descriptors that are left are the state of the BIOS. -/
def tableBios (ending : Ending) : List MemBiosMmapEntry → Cpu → List MemBiosMmapEntry × Cpu
  | [], cpu => ([], { cpu with carry := true })
  | d :: ds, cpu => (ds, { cpu with
      eax := smap
      ebx := if ds = [] ∧ ending = .ebxZero then 0 else 1
      ecx := 20
      carry := false
      memory := storeDescriptor cpu.memory cpu.edi.toNat d })

theorem tableBios_serves (ending : Ending) (ds : List MemBiosMmapEntry) (some_ : ds ≠ [] ∨ ending = .carrySet)
    (next : UInt32) : Serves (tableBios ending) ending ds next ds := by
  induction ds generalizing next with
  | nil =>
    refine ⟨some_.resolve_left (not_not.mpr rfl), fun cpu asks => ⟨rfl, rfl, fun x _ _ _ => rfl⟩⟩
  | cons d ds ih =>
    intro cpu asks
    obtain ⟨-, -, -, -, low, high⟩ := asks
    refine ⟨⟨⟨rfl, fun x _ _ away => storeDescriptor_outside (by omega) away⟩, rfl, rfl, rfl,
      descriptorAt_store d⟩, ?_⟩
    by_cases last : ds = [] ∧ ending = .ebxZero
    · rw [if_pos last]
      exact if_pos last
    · rw [if_neg last]
      have ebx : (tableBios ending (d :: ds) cpu).2.ebx = 1 := if_neg last
      refine ⟨ebx ▸ by decide, ih ?_ _⟩
      by_cases more : ds = []
      · refine .inr ?_
        cases ending with
        | ebxZero => exact absurd ⟨more, rfl⟩ last
        | carrySet => rfl
      · exact .inl more

def coldCpu : Cpu := ⟨0, 0, 0, 0, 0, false, fun _ => 0⟩

/-- Two regions, and an entry without length behind them. -/
def twoRegions : List MemBiosMmapEntry := [⟨0, 0x9fc00, 1⟩, ⟨0x100000, 0x300000, 1⟩, ⟨0x400000, 0, 0x10000⟩]

theorem collects_iff_two_regions : Collects (tableBios .carrySet) twoRegions coldCpu twoRegions ∧
    Collects (tableBios .ebxZero) twoRegions coldCpu twoRegions := by
  constructor
  · refine (collects_iff (tableBios_serves .carrySet _ (.inr rfl) 0) (by decide) (by decide) coldCpu).mpr ?_
    change ∀ d ∈ twoRegions, _
    decide
  · refine (collects_iff (tableBios_serves .ebxZero _ (.inl (List.cons_ne_nil _ _)) 0) (by decide) (by decide)
      coldCpu).mpr ?_
    constructor
    · change ∀ d ∈ twoRegions.dropLast, _
      decide
    · decide

/-- With EBX = 0 the second region is lost; with the carry flag an entry without length is kept. -/
theorem regions_miscollected :
    ¬ Collects (tableBios .ebxZero) [⟨0, 0x9fc00, 1⟩, ⟨0x100000, 0x300000, 1⟩] coldCpu
        [⟨0, 0x9fc00, 1⟩, ⟨0x100000, 0x300000, 1⟩] ∧
      ¬ Collects (tableBios .carrySet) [⟨0, 0x400000, 1⟩, ⟨0x400000, 0, 2⟩] coldCpu
        [⟨0, 0x400000, 1⟩, ⟨0x400000, 0, 2⟩] := by
  constructor
  · rw [collects_of_serves (tableBios_serves .ebxZero _ (.inl (List.cons_ne_nil _ _)) 0)
      (List.cons_ne_nil _ _) (by decide) coldCpu]
    exact fun same => absurd (congrArg List.length same) (by decide)
  · rw [collects_of_serves (tableBios_serves .carrySet _ (.inr rfl) 0) (List.cons_ne_nil _ _) (by decide) coldCpu]
    exact fun same => absurd (congrArg List.length same) (by decide)

end AtaKernel.Boot
