import AtaKernel.Memory.Init

/-! What `mem_init` makes of the memory map. Its frames are those below the
highest end of an entry; the bitmap is written inside the region that was found to
hold it. What is not available is reserved, and so is everything up to the end of
the bitmap. Frames that no entry mentions stay free, although the comment has it
that `mem_total_frames` counts pages of main memory. -/
namespace AtaKernel.Memory
open ByteMemory

namespace MemBiosMmapEntry

/-- The end of the region. -/
def stop (e : MemBiosMmapEntry) : Nat := e.base.toNat + e.size.toNat

def Available (e : MemBiosMmapEntry) : Prop := e.type = memBiosMemMapRegionAvailable

/-- The region has a byte in the frame. -/
def Overlaps (e : MemBiosMmapEntry) (f : Nat) : Prop :=
  ∃ x, x / memFrameSize = f ∧ e.base.toNat ≤ x ∧ x < e.stop

/-- The frame is one of those that are reserved for the entry, from that of its base to that of its
end. -/
def Reserves (e : MemBiosMmapEntry) (f : Nat) : Prop :=
  ¬ e.Available ∧ e.base.toNat / memFrameSize ≤ f ∧ f ≤ e.stop / memFrameSize

instance (e : MemBiosMmapEntry) : Decidable e.Available := inferInstanceAs (Decidable (_ = _))

instance (e : MemBiosMmapEntry) (f : Nat) : Decidable (e.Reserves f) := inferInstanceAs (Decidable (_ ∧ _))

end MemBiosMmapEntry

/-- All entries end below 2^42. -/
def Below42 (es : List MemBiosMmapEntry) : Prop := ∀ e ∈ es, e.stop < 2 ^ 42

/-- The highest end of an entry. -/
def highestStop (es : List MemBiosMmapEntry) : Nat := (es.map MemBiosMmapEntry.stop).foldr max 0

/-- The frames of the map. -/
def mapFrames (es : List MemBiosMmapEntry) : Nat := highestStop es / memFrameSize

/-- The last frame that holds a byte of the bitmap. -/
def mapBitmapLast (es : List MemBiosMmapEntry) : Nat :=
  (memBitmapAddr + mapFrames es / memBitmapEntriesPerByte) / memFrameSize

/-- The frame lies entirely in available regions. -/
def InAvailable (es : List MemBiosMmapEntry) (f : Nat) : Prop :=
  ∀ x, x / memFrameSize = f → ∃ e ∈ es, e.Available ∧ e.base.toNat ≤ x ∧ x < e.stop

variable {e : MemBiosMmapEntry} {es map : List MemBiosMmapEntry} {m : Memory} {s s' : State}
  {head : MemHead} {f g n x : Nat}

/-! ## Ends of entries -/

theorem stop_eq (below : e.stop < 2 ^ 42) : (e.base + e.size).toNat = e.stop := by
  rw [UInt64.toNat_add]
  exact Nat.mod_eq_of_lt (below.trans (by norm_num))

/-- The loop over the entries keeps the highest end so far. -/
theorem maxAddr_scan (below : Below42 es) (a : UInt64) :
    (es.foldl (fun max_addr e => if e.base + e.size > max_addr then e.base + e.size else max_addr)
      a).toNat = max a.toNat (highestStop es) := by
  induction es generalizing a with
  | nil => exact (max_eq_left (Nat.zero_le _)).symm
  | cons e es ih =>
    have here := stop_eq (below e List.mem_cons_self)
    have first : (if e.base + e.size > a then e.base + e.size else a).toNat = max a.toNat e.stop := by
      rw [← here]
      split
      · next higher => exact (max_eq_right (UInt64.lt_iff_toNat_lt.mp higher).le).symm
      · next lower => exact (max_eq_left (UInt64.le_iff_toNat_le.mp (UInt64.not_lt.mp lower))).symm
    rw [List.foldl_cons, ih fun d inside => below d (List.mem_cons_of_mem e inside), first, max_assoc]
    rfl

theorem maxAddr_eq (below : Below42 es) : (maxAddr es).toNat = highestStop es :=
  (maxAddr_scan below 0).trans (max_eq_right (Nat.zero_le _))

theorem stop_le_highest (inside : e ∈ es) : e.stop ≤ highestStop es :=
  List.le_max_of_le (List.mem_map_of_mem inside) le_rfl

theorem highestStop_lt (below : Below42 es) : highestStop es < 2 ^ 42 := by
  induction es with
  | nil => exact Nat.two_pow_pos 42
  | cons e es ih =>
    exact max_lt (below e List.mem_cons_self) (ih fun d inside => below d (List.mem_cons_of_mem e inside))

theorem mapFrames_lt (below : Below42 es) : mapFrames es < 2 ^ 30 := by
  have bound := highestStop_lt below
  unfold mapFrames memFrameSize
  omega

/-- The value of `mem_total_frames`. -/
theorem totalFrames_eq (below : Below42 es) : (maxAddr es / 4096).toNat = mapFrames es := by
  rw [UInt64.toNat_div, maxAddr_eq below]
  rfl

/-! ## The check for the bitmap -/

/-- The region has room for the bitmap. -/
def HoldsBitmap (es : List MemBiosMmapEntry) (e : MemBiosMmapEntry) : Prop :=
  e.Available ∧ e.base.toNat ≤ memBitmapAddr ∧ memBitmapAddr + 2 * mapFrames es ≤ e.stop

theorem holdsBitmap_iff (below : Below42 es) (inside : e ∈ es) :
    holdsBitmap (maxAddr es / 4096) e = true ↔ HoldsBitmap es e := by
  have few := mapFrames_lt below
  have size : (0x00100000 + maxAddr es / 4096 * memBitmapBitsPerEntry).toNat =
      memBitmapAddr + 2 * mapFrames es := by
    rw [UInt64.toNat_add, UInt64.toNat_mul, totalFrames_eq below]
    change (1048576 + mapFrames es * 2 % 2 ^ 64) % 2 ^ 64 = 1048576 + 2 * mapFrames es
    omega
  unfold holdsBitmap HoldsBitmap MemBiosMmapEntry.Available
  rw [Bool.and_eq_true, Bool.and_eq_true, beq_iff_eq, decide_eq_true_iff, decide_eq_true_iff, and_assoc,
    UInt64.le_iff_toNat_le, ge_iff_le, UInt64.le_iff_toNat_le, size, stop_eq (below e inside)]
  rfl

/-- There are at least the 256 frames below the bitmap. -/
theorem mapFrames_ge (inside : e ∈ es) (holds : HoldsBitmap es e) : 256 ≤ mapFrames es := by
  have top := stop_le_highest inside
  have room := holds.2.2
  unfold mapFrames memFrameSize memBitmapAddr at *
  omega

/-! ## The bitmap -/

theorem memset_outside (value : UInt8) {mem count : Nat} (fits : mem + count ≤ 2 ^ 32)
    (away : ¬ (mem ≤ x ∧ x < mem + count)) : memset m mem value count x = m x := by
  induction count with
  | zero => rfl
  | succ count ih =>
    have here : cell (mem + count) = mem + count := cell_low (by omega)
    rw [memset, store8, here, Function.update_of_ne (by omega), ih (by omega) (by omega)]

theorem reserveFrom_outside (away : ∀ i < n, x ≠ bitmapByte ((f + i) % 2 ^ 32)) :
    (memReserveFrom m f n).2 x = m x := by
  induction n generalizing m f with
  | zero => rfl
  | succ n ih =>
    have index : f % 2 ^ 32 < 2 ^ 32 := Nat.mod_lt _ (by decide)
    rw [memReserveFrom_succ, ih fun i low => ?_, setEntry_outside _ index (away 0 n.succ_pos)]
    rw [Nat.add_right_comm, Nat.add_assoc]
    exact away (i + 1) (Nat.succ_lt_succ low)

/-- The frames from `first` to `last`, as the loop counts them. -/
theorem counted {first last : Nat} (small : last < 2 ^ 32) :
    (∃ i < last + 1 - first, g = (first + i) % 2 ^ 32) ↔ first ≤ g ∧ g ≤ last := by
  constructor
  · rintro ⟨i, low, rfl⟩
    rw [Nat.mod_eq_of_lt (by omega)]
    omega
  · rintro ⟨lower, upper⟩
    refine ⟨g - first, by omega, ?_⟩
    rw [Nat.add_sub_cancel' lower, Nat.mod_eq_of_lt (by omega)]

/-- One entry of the map. -/
theorem memReserveRegions_cons (below : e.stop < 2 ^ 42) :
    (memReserveRegions (e :: es) m).2 = (memReserveRegions es
      (if e.type = memBiosMemMapRegionAvailable then m
      else (memReserveFrom m (e.base.toNat / memFrameSize)
        (e.stop / memFrameSize + 1 - e.base.toNat / memFrameSize)).2)).2 := by
  rw [memReserveRegions]
  split
  · rfl
  · rw [stop_eq below]
    obtain ⟨n, n_eq⟩ : ∃ n, n = e.stop / memFrameSize + 1 - e.base.toNat / memFrameSize := ⟨_, rfl⟩
    have result : memReserveFrom m (e.base.toNat / memFrameSize) n =
        (true, (memReserveFrom m (e.base.toNat / memFrameSize) n).2) :=
      Prod.ext (memReserveFrom_ok _ _ _) rfl
    dsimp only
    rw [← n_eq, result]

theorem getEntry_reserveRegions (below : Below42 es) (there : g < 2 ^ 32) :
    memBitmapGetEntry (memReserveRegions es m).2 g =
      if ∃ e ∈ es, e.Reserves g then memBitmapEntryReserved else memBitmapGetEntry m g := by
  induction es generalizing m with
  | nil =>
    rw [if_neg fun ⟨_, inside, _⟩ => List.not_mem_nil inside]
    rfl
  | cons e es ih =>
    have here := below e List.mem_cons_self
    have small : e.stop / memFrameSize < 2 ^ 32 := by
      unfold memFrameSize
      omega
    rw [memReserveRegions_cons here, ih fun d inside => below d (List.mem_cons_of_mem e inside)]
    by_cases later : ∃ d ∈ es, d.Reserves g
    · obtain ⟨d, inside, reserves⟩ := later
      rw [if_pos ⟨d, inside, reserves⟩, if_pos ⟨d, List.mem_cons_of_mem e inside, reserves⟩]
    rw [if_neg later]
    by_cases available : e.type = memBiosMemMapRegionAvailable
    · rw [if_pos available, if_neg]
      rintro ⟨d, inside, reserves⟩
      rcases List.mem_cons.mp inside with rfl | inside
      · exact reserves.1 available
      · exact later ⟨d, inside, reserves⟩
    · rw [if_neg available, getEntry_reserveFrom there]
      refine if_congr ?_ rfl rfl
      rw [counted small]
      constructor
      · exact fun both => ⟨e, List.mem_cons_self, available, both⟩
      · rintro ⟨d, inside, reserves⟩
        rcases List.mem_cons.mp inside with rfl | inside
        · exact reserves.2
        · exact absurd ⟨d, inside, reserves⟩ later

theorem reserveRegions_outside (below : Below42 es) {total : Nat} (top : highestStop es / memFrameSize ≤ total)
    (away : ∀ g ≤ total, x ≠ bitmapByte g) : (memReserveRegions es m).2 x = m x := by
  induction es generalizing m with
  | nil => rfl
  | cons e es ih =>
    have here := below e List.mem_cons_self
    have ends : e.stop / memFrameSize ≤ total :=
      (Nat.div_le_div_right (stop_le_highest List.mem_cons_self)).trans top
    have rest : highestStop es / memFrameSize ≤ total :=
      (Nat.div_le_div_right (le_max_right _ _)).trans top
    rw [memReserveRegions_cons here, ih (fun d inside => below d (List.mem_cons_of_mem e inside)) rest]
    split
    · rfl
    · refine reserveFrom_outside fun i low => ?_
      have small : e.stop / memFrameSize < 2 ^ 32 := by
        unfold memFrameSize
        omega
      exact away _ (((counted small).mp ⟨i, low, rfl⟩).2.trans ends)

/-- The bitmap without the arithmetic of the source. -/
theorem initialBitmap_eq (below : Below42 (mapEntries map)) (m : Memory) :
    initialBitmap map m = (memReserveFrom (memReserveRegions (mapEntries map)
      (memset m memBitmapAddr 0 (2 * mapFrames (mapEntries map)))).2 0
      (mapBitmapLast (mapEntries map) + 1)).2 := by
  have few := mapFrames_lt below
  have total := totalFrames_eq below
  have doubled : (maxAddr (mapEntries map) / 4096 * memBitmapBitsPerEntry).toNat % 2 ^ 32 =
      2 * mapFrames (mapEntries map) := by
    rw [UInt64.toNat_mul, total]
    change mapFrames (mapEntries map) * 2 % 2 ^ 64 % 2 ^ 32 = 2 * mapFrames (mapEntries map)
    omega
  rw [initialBitmap, doubled, total]
  rfl

/-- What the bitmap says after `mem_init`. -/
theorem getEntry_initialBitmap (below : Below42 (mapEntries map)) (there : f ≤ mapFrames (mapEntries map))
    (some_ : 0 < mapFrames (mapEntries map)) :
    memBitmapGetEntry (initialBitmap map m) f =
      if f ≤ mapBitmapLast (mapEntries map) ∨ ∃ e ∈ mapEntries map, e.Reserves f then
        memBitmapEntryReserved
      else memBitmapEntryFree := by
  have few := mapFrames_lt below
  have last_small : mapBitmapLast (mapEntries map) < 2 ^ 32 := by
    unfold mapBitmapLast memBitmapAddr memBitmapEntriesPerByte memFrameSize
    omega
  have row : (∃ i < mapBitmapLast (mapEntries map) + 1, f = (0 + i) % 2 ^ 32) ↔
      f ≤ mapBitmapLast (mapEntries map) :=
    (counted last_small).trans (and_iff_right (Nat.zero_le f))
  have clear : memBitmapGetEntry (memset m memBitmapAddr 0 (2 * mapFrames (mapEntries map))) f =
      memBitmapEntryFree := by
    refine PackedTable.entry_of_zero ?_
    have address : cell (memBitmapAddr + f / 4) = memBitmapAddr + f / 4 :=
      cell_bitmapByte (show f < 2 ^ 32 by omega)
    rw [load8, address]
    unfold memBitmapAddr
    exact memset_inside 0 (by omega) (by omega) (by omega)
  rw [initialBitmap_eq below, getEntry_reserveFrom (by omega), getEntry_reserveRegions below (by omega), clear]
  by_cases early : f ≤ mapBitmapLast (mapEntries map)
  · rw [if_pos (row.mpr early), if_pos (.inl early)]
  · rw [if_neg fun inside => early (row.mp inside)]
    exact if_congr (or_iff_right early).symm rfl rfl

/-- The bitmap is all that is written for it. -/
theorem initialBitmap_outside (below : Below42 (mapEntries map)) (many : 256 ≤ mapFrames (mapEntries map))
    (away : ¬ (memBitmapAddr ≤ x ∧ x < memBitmapAddr + 2 * mapFrames (mapEntries map))) :
    initialBitmap map m x = m x := by
  have few := mapFrames_lt below
  have entries : ∀ g ≤ mapFrames (mapEntries map), x ≠ bitmapByte g := by
    rintro g low rfl
    refine away ⟨Nat.le_add_right _ _, ?_⟩
    unfold bitmapByte memBitmapEntriesPerByte
    omega
  rw [initialBitmap_eq below, reserveFrom_outside fun i low => ?_, reserveRegions_outside below le_rfl entries,
    memset_outside 0 _ away]
  · unfold memBitmapAddr
    omega
  · refine entries _ ((Nat.mod_le _ _).trans ?_)
    unfold mapBitmapLast memBitmapAddr memBitmapEntriesPerByte memFrameSize at low
    omega

/-! ## mem_init -/

theorem mapBitmapLast_le (many : 256 ≤ mapFrames es) : mapBitmapLast es ≤ mapFrames es := by
  unfold mapBitmapLast memBitmapAddr memBitmapEntriesPerByte memFrameSize
  omega

theorem holds_iff (below : Below42 es) :
    es.any (holdsBitmap (maxAddr es / 4096)) = true ↔ ∃ e ∈ es, HoldsBitmap es e := by
  rw [List.any_eq_true]
  exact exists_congr fun e => and_congr_right fun inside => holdsBitmap_iff below inside

/-- The state in which `mem_init` succeeds. -/
theorem memInit_success (below : Below42 (mapEntries map)) (returned : memInit head.addr map s = (0, s')) :
    (∃ e ∈ mapEntries map, HoldsBitmap (mapEntries map) e) ∧
      s' = ⟨kallocInit head.addr (initialBitmap map s.memory), mapFrames (mapEntries map)⟩ := by
  rw [memInit_eq] at returned
  split at returned
  · next holds =>
    obtain ⟨-, rfl⟩ := Prod.mk.inj returned
    exact ⟨(holds_iff below).mp holds, by rw [totalFrames_eq below]⟩
  · have failed := congrArg Prod.fst returned
    cases failed

theorem getEntry_memInit (below : Below42 (mapEntries map)) (returned : memInit head.addr map s = (0, s'))
    (there : f ≤ mapFrames (mapEntries map)) :
    memBitmapGetEntry s'.memory f =
      if f ≤ mapBitmapLast (mapEntries map) ∨ ∃ e ∈ mapEntries map, e.Reserves f then
        memBitmapEntryReserved
      else memBitmapEntryFree := by
  obtain ⟨⟨e, inside, holds⟩, rfl⟩ := memInit_success below returned
  have few := mapFrames_lt below
  rw [kallocInit_getEntry (by omega)]
  exact getEntry_initialBitmap below there (Nat.lt_of_lt_of_le (by decide) (mapFrames_ge inside holds))

theorem kallocInit_own (away : ¬ (head.addr ≤ x ∧ x < head.addr + entryBytes)) :
    kallocInit head.addr m x = m x := by
  obtain ⟨view, edits, -⟩ := kallocInit_edits head m
  apply edits.outside x
  rintro _ rfl i low rfl
  have below := head.below
  have here : cell (head.addr + i) = head.addr + i := cell_low (by
    unfold entryBytes memBitmapAddr at *
    omega)
  rw [here] at away
  exact away ⟨Nat.le_add_right _ _, Nat.add_lt_add_left low _⟩

/-- A region that is not available reserves every frame it has a byte in. -/
theorem reserves_of_overlaps (other : ¬ e.Available) (overlaps : e.Overlaps f) : e.Reserves f := by
  obtain ⟨x, rfl, above, under⟩ := overlaps
  exact ⟨other, Nat.div_le_div_right above, Nat.div_le_div_right under.le⟩

/-- `mem_init` succeeds if some available region has room for the bitmap. It then writes the
bitmap, in that region, and `mem_head`; the frames up to the end of the bitmap are reserved, and the
frames of every region that is not available. -/
theorem memInit_postcondition (below : Below42 (mapEntries map)) :
    ((memInit head.addr map s).1 = 0 ↔ ∃ e ∈ mapEntries map, HoldsBitmap (mapEntries map) e) ∧
    ∀ s', memInit head.addr map s = (0, s') →
      s'.totalFrames = mapFrames (mapEntries map) ∧
      (∀ x, ¬ (head.addr ≤ x ∧ x < head.addr + entryBytes) → s'.memory x ≠ s.memory x →
        (memBitmapAddr ≤ x ∧ x < memBitmapAddr + 2 * mapFrames (mapEntries map)) ∧
          ∃ e ∈ mapEntries map, HoldsBitmap (mapEntries map) e ∧ e.base.toNat ≤ x ∧ x < e.stop) ∧
      (∀ e ∈ mapEntries map, ¬ e.Available → ∀ f, e.Overlaps f →
        memBitmapGetEntry s'.memory f = memBitmapEntryReserved) ∧
      (∀ g ≤ mapFrames (mapEntries map), ∀ f ≤ bitmapByte g / memFrameSize,
        memBitmapGetEntry s'.memory f = memBitmapEntryReserved) := by
  refine ⟨?_, fun s' returned => ?_⟩
  · rw [memInit_eq, ← holds_iff below]
    split
    · next holds => exact iff_of_true rfl holds
    · next fails => exact iff_of_false (show ¬ (-1 : Int) = 0 by decide) fails
  · obtain ⟨⟨e, inside, holds⟩, result⟩ := memInit_success below returned
    have many := mapFrames_ge inside holds
    refine ⟨congrArg State.totalFrames result, fun x away differs => ?_, fun d among other f overlaps => ?_,
      fun g there f low => ?_⟩
    · have within : memBitmapAddr ≤ x ∧ x < memBitmapAddr + 2 * mapFrames (mapEntries map) := by
        by_contra outside
        refine differs ?_
        rw [result]
        exact (kallocInit_own away).trans (initialBitmap_outside below many outside)
      exact ⟨within, e, inside, holds, holds.2.1.trans within.1, within.2.trans_le holds.2.2⟩
    · have reserves := reserves_of_overlaps other overlaps
      have there : f ≤ mapFrames (mapEntries map) :=
        reserves.2.2.trans (Nat.div_le_div_right (stop_le_highest among))
      rw [getEntry_memInit below returned there, if_pos (.inr ⟨d, among, reserves⟩)]
    · have last : f ≤ mapBitmapLast (mapEntries map) := by
        refine low.trans (Nat.div_le_div_right (Nat.add_le_add_left ?_ _))
        exact Nat.div_le_div_right there
      rw [getEntry_memInit below returned (last.trans (mapBitmapLast_le many)), if_pos (.inl last)]

/-- Three available megabytes, and a reserved one after them. -/
def fourMegabytes : List MemBiosMmapEntry :=
  [⟨0, 0x300000, memBiosMemMapRegionAvailable⟩, ⟨0x300000, 0x100000, 2⟩, ⟨0, 0, 0⟩]

theorem memInit_postcondition_fourMegabytes : ∃ s' : State,
    memInit lowHead.addr fourMegabytes ⟨fun _ => 0, 0⟩ = (0, s') ∧ s'.totalFrames = 1024 ∧
      memBitmapGetEntry s'.memory 800 = memBitmapEntryReserved := by
  have below : Below42 (mapEntries fourMegabytes) := by
    unfold Below42
    decide
  obtain ⟨success, all⟩ := @memInit_postcondition fourMegabytes ⟨fun _ => 0, 0⟩ lowHead below
  have holds : ∃ e ∈ mapEntries fourMegabytes, HoldsBitmap (mapEntries fourMegabytes) e :=
    ⟨_, List.mem_cons_self, rfl, by decide, by decide⟩
  have zero_ := success.mpr holds
  cases returned : memInit lowHead.addr fourMegabytes ⟨fun _ => 0, 0⟩ with
  | mk r s' =>
  rw [returned] at zero_
  obtain rfl : r = 0 := zero_
  obtain ⟨total, -, others, -⟩ := all s' returned
  refine ⟨s', rfl, total, others ⟨0x300000, 0x100000, 2⟩ ?_ (by decide) 800 ?_⟩
  · exact List.mem_cons_of_mem _ List.mem_cons_self
  · exact ⟨0x320000, by decide, by decide, by decide⟩

/-! ## Gaps in the map -/

/-- What is left free is available memory exactly if, behind the bitmap, every frame that is not
lies in the frames of a region that is not available. -/
theorem free_frames_available_iff (below : Below42 (mapEntries map))
    (returned : memInit head.addr map s = (0, s')) :
    (∀ f < s'.totalFrames, memBitmapGetEntry s'.memory f = memBitmapEntryFree →
      InAvailable (mapEntries map) f) ↔
    ∀ f, mapBitmapLast (mapEntries map) < f → f < mapFrames (mapEntries map) →
      InAvailable (mapEntries map) f ∨ ∃ e ∈ mapEntries map, e.Reserves f := by
  have total : s'.totalFrames = mapFrames (mapEntries map) := by rw [(memInit_success below returned).2]
  rw [total]
  constructor
  · intro real f behind there
    by_cases reserves : ∃ e ∈ mapEntries map, e.Reserves f
    · exact .inr reserves
    · refine .inl (real f there ?_)
      rw [getEntry_memInit below returned there.le, if_neg]
      exact fun either => either.elim (Nat.not_le.mpr behind) reserves
  · intro filled f there free
    rw [getEntry_memInit below returned there.le] at free
    split at free
    · exact absurd free.symm free_ne_reserved
    · next neither =>
      obtain ⟨behind, none_⟩ := not_or.mp neither
      rcases filled f (not_le.mp behind) there with available | reserves
      · exact available
      · exact absurd reserves none_

theorem free_frames_available_iff_threeMegabytes : ∃ s' : State,
    memInit lowHead.addr threeMegabytes ⟨fun _ => 0, 0⟩ = (0, s') ∧
      ∀ f < s'.totalFrames, memBitmapGetEntry s'.memory f = memBitmapEntryFree →
        InAvailable (mapEntries threeMegabytes) f := by
  obtain ⟨m, returned⟩ := memInit_threeMegabytes lowHead.addr ⟨fun _ => 0, 0⟩
  have below : Below42 (mapEntries threeMegabytes) := by
    unfold Below42
    decide
  refine ⟨_, returned, (free_frames_available_iff below returned).mpr fun f _ there => .inl ?_⟩
  rintro x rfl
  refine ⟨⟨0, 0x300000, memBiosMemMapRegionAvailable⟩, List.mem_cons_self, rfl, Nat.zero_le x, ?_⟩
  have frames : mapFrames (mapEntries threeMegabytes) = 768 := by decide
  rw [frames] at there
  change x < 0 + 0x300000
  unfold memFrameSize at there
  omega

/-- Two available regions with a megabyte between them. -/
def gapMap : List MemBiosMmapEntry :=
  [⟨0, 0x300000, memBiosMemMapRegionAvailable⟩, ⟨0x400000, 0x100000, memBiosMemMapRegionAvailable⟩,
    ⟨0, 0, 0⟩]

/-- A frame in the gap is free. -/
theorem gap_frame_free : ∃ s' : State, Below42 (mapEntries gapMap) ∧
    memInit lowHead.addr gapMap ⟨fun _ => 0, 0⟩ = (0, s') ∧ 800 < s'.totalFrames ∧
      memBitmapGetEntry s'.memory 800 = memBitmapEntryFree ∧ ¬ InAvailable (mapEntries gapMap) 800 := by
  have below : Below42 (mapEntries gapMap) := by
    unfold Below42
    decide
  have returned : ∃ s', memInit lowHead.addr gapMap ⟨fun _ => 0, 0⟩ = (0, s') := by
    rw [memInit_eq, if_pos (by decide)]
    exact ⟨_, rfl⟩
  obtain ⟨s', returned⟩ := returned
  refine ⟨s', below, returned, ?_, ?_, fun inside => ?_⟩
  · rw [(memInit_success below returned).2]
    decide
  · rw [getEntry_memInit below returned (by decide), if_neg (by decide)]
  · obtain ⟨e, among, -, above, under⟩ := inside (0x320000) (by decide)
    have neither : ∀ e ∈ mapEntries gapMap, ¬ (e.base.toNat ≤ 0x320000 ∧ 0x320000 < e.stop) := by decide
    exact neither e among ⟨above, under⟩

end AtaKernel.Memory
