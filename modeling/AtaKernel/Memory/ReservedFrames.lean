import AtaKernel.Memory.MemoryMap

/-! The ends of what `mem_init` reserves. Its loops run up to and including the frame
in which a region ends, which is one frame more than the region has where it ends at the
border of a frame; the same goes for the bitmap. The frame can be memory that is free
to use, or lie behind the last frame that is counted. -/
namespace AtaKernel.Memory
open ByteMemory

/-- The frame lies in available regions, in no other one, and above the last byte of the bitmap. -/
structure Spare (es : List MemBiosMmapEntry) (f : Nat) : Prop where
  there : f < mapFrames es
  available : InAvailable es f
  clear : ∀ e ∈ es, ¬ e.Available → ¬ e.Overlaps f
  above : bitmapByte (mapFrames es - 1) < f * memFrameSize

/-- Of the frames that are not counted none loses its status to `mem_init`, unless it becomes free, and
the spare ones are free. -/
structure ReservesNoMore (es : List MemBiosMmapEntry) (s s' : State) : Prop where
  beyond : ∀ g < 2 ^ 32, s'.totalFrames ≤ g →
    memBitmapGetEntry s'.memory g ≠ memBitmapGetEntry s.memory g →
      memBitmapGetEntry s'.memory g = memBitmapEntryFree
  spare : ∀ f, Spare es f → memBitmapGetEntry s'.memory f = memBitmapEntryFree

/-- The region ends where the frame starts, or is empty and lies in it. -/
def EndsAt (e : MemBiosMmapEntry) (f : Nat) : Prop :=
  e.stop = f * memFrameSize ∨ (e.size = 0 ∧ e.stop / memFrameSize = f)

instance (e : MemBiosMmapEntry) (f : Nat) : Decidable (EndsAt e f) := inferInstanceAs (Decidable (_ ∨ _))

/-- No spare frame starts where something that is reserved ends, and the first frame that is not counted
was reserved before if something ends in it. -/
structure EndsApart (es : List MemBiosMmapEntry) (s : State) : Prop where
  last : (mapFrames es = 256 ∨ ∃ e ∈ es, ¬ e.Available ∧ e.stop / memFrameSize = mapFrames es) →
    memBitmapGetEntry s.memory (mapFrames es) = memBitmapEntryReserved
  regions : ∀ f, Spare es f → ∀ e ∈ es, ¬ e.Available → ¬ EndsAt e f
  bitmap : mapFrames es % 16384 = 0 → ¬ Spare es (256 + mapFrames es / 16384)

variable {e : MemBiosMmapEntry} {es map : List MemBiosMmapEntry} {m : Memory} {s s' : State}
  {head : MemHead} {f g : Nat}

/-! ## Frames that are counted -/

/-- A frame without a byte of the region is reserved for it only at its end. -/
theorem reserves_iff_endsAt (other : ¬ e.Available) (clear : ¬ e.Overlaps f) :
    e.Reserves f ↔ EndsAt e f := by
  have outside : ∀ x, x / memFrameSize = f → e.base.toNat ≤ x → e.stop ≤ x := fun x here above =>
    not_lt.mp fun under => clear ⟨x, here, above, under⟩
  have base_le : e.base.toNat ≤ e.stop := Nat.le_add_right _ _
  have empty : e.size = 0 ↔ e.stop = e.base.toNat := by
    unfold MemBiosMmapEntry.stop
    rw [← UInt64.toNat_inj]
    change e.size.toNat = 0 ↔ _
    omega
  unfold MemBiosMmapEntry.Reserves EndsAt
  rw [empty]
  unfold memFrameSize at *
  constructor
  · rintro ⟨-, lower, upper⟩
    by_cases inside : e.base.toNat / 4096 = f
    · have ends := outside e.base.toNat inside le_rfl
      exact .inr ⟨le_antisymm ends base_le, by omega⟩
    · have ends := outside (f * 4096) (by omega) (by omega)
      exact .inl (by omega)
  · rintro (ends | ⟨ends, here⟩)
    · exact ⟨other, by omega, by omega⟩
    · exact ⟨other, by omega, here.ge⟩

/-- The bitmap reserves a frame above its last byte if it fills its frames. -/
theorem le_mapBitmapLast_iff (above : bitmapByte (mapFrames es - 1) < f * memFrameSize) :
    f ≤ mapBitmapLast es ↔ mapFrames es % 16384 = 0 ∧ f = 256 + mapFrames es / 16384 := by
  unfold mapBitmapLast bitmapByte memBitmapAddr memBitmapEntriesPerByte memFrameSize at *
  omega

/-- What `mem_init` makes of a spare frame. -/
theorem spare_reserved_iff (spare : Spare es f) :
    (f ≤ mapBitmapLast es ∨ ∃ e ∈ es, e.Reserves f) ↔
      (mapFrames es % 16384 = 0 ∧ f = 256 + mapFrames es / 16384) ∨
        ∃ e ∈ es, ¬ e.Available ∧ EndsAt e f := by
  rw [le_mapBitmapLast_iff spare.above]
  refine or_congr_right (exists_congr fun e => and_congr_right fun inside => ?_)
  constructor
  · intro reserves
    exact ⟨reserves.1, (reserves_iff_endsAt reserves.1 (spare.clear e inside reserves.1)).mp reserves⟩
  · rintro ⟨other, ends⟩
    exact (reserves_iff_endsAt other (spare.clear e inside other)).mpr ends

/-! ## Frames that are not -/

theorem mapFrames_reserved_iff (many : 256 ≤ mapFrames es) :
    (mapFrames es ≤ mapBitmapLast es ∨ ∃ e ∈ es, e.Reserves (mapFrames es)) ↔
      mapFrames es = 256 ∨ ∃ e ∈ es, ¬ e.Available ∧ e.stop / memFrameSize = mapFrames es := by
  refine or_congr ?_ (exists_congr fun e => and_congr_right fun inside => and_congr_right fun _ => ?_)
  · unfold mapBitmapLast memBitmapAddr memBitmapEntriesPerByte memFrameSize
    omega
  · have top : e.stop / memFrameSize ≤ mapFrames es := Nat.div_le_div_right (stop_le_highest inside)
    have base_le : e.base.toNat / memFrameSize ≤ e.stop / memFrameSize :=
      Nat.div_le_div_right (Nat.le_add_right _ _)
    constructor
    · exact fun both => le_antisymm top both.2
    · exact fun same => ⟨same ▸ base_le, same.ge⟩

/-- Behind the first frame that is not counted nothing is reserved. -/
theorem getEntry_beyond (below : Below42 (mapEntries map)) (many : 256 ≤ mapFrames (mapEntries map))
    (small : g < 2 ^ 32) (beyond : mapFrames (mapEntries map) < g) :
    memBitmapGetEntry (initialBitmap map m) g = memBitmapEntryFree ∨
      memBitmapGetEntry (initialBitmap map m) g = memBitmapGetEntry m g := by
  have few := mapFrames_lt below
  have early := mapBitmapLast_le many
  have bitmap : ¬ ∃ i < mapBitmapLast (mapEntries map) + 1, g = (0 + i) % 2 ^ 32 := by
    rintro ⟨i, low, rfl⟩
    have := Nat.mod_le (0 + i) (2 ^ 32)
    omega
  have regions : ¬ ∃ e ∈ mapEntries map, e.Reserves g := by
    rintro ⟨e, inside, -, -, upper⟩
    have top : e.stop / memFrameSize ≤ mapFrames (mapEntries map) :=
      Nat.div_le_div_right (stop_le_highest inside)
    omega
  rw [initialBitmap_eq below, getEntry_reserveFrom small, if_neg bitmap,
    getEntry_reserveRegions below small, if_neg regions]
  have fits : memBitmapAddr + 2 * mapFrames (mapEntries map) ≤ 2 ^ 32 := by
    unfold memBitmapAddr
    omega
  by_cases cleared : bitmapByte g < memBitmapAddr + 2 * mapFrames (mapEntries map)
  · refine .inl (PackedTable.entry_of_zero ?_)
    have address : cell (memBitmapAddr + g / 4) = memBitmapAddr + g / 4 := cell_bitmapByte small
    rw [load8, address]
    exact memset_inside 0 fits (Nat.le_add_right _ _) cleared
  · exact .inr (getEntry_congr small (memset_outside 0 fits fun both => cleared both.2))

/-! ## mem_init -/

/-- `mem_init` reserves what it should and nothing else if and only if the ends lie apart. -/
theorem reserves_no_more_iff (below : Below42 (mapEntries map))
    (returned : memInit head.addr map s = (0, s')) :
    ReservesNoMore (mapEntries map) s s' ↔ EndsApart (mapEntries map) s := by
  have few := mapFrames_lt below
  obtain ⟨⟨d, inside, holds⟩, state⟩ := memInit_success below returned
  have many := mapFrames_ge inside holds
  have total : s'.totalFrames = mapFrames (mapEntries map) := congrArg State.totalFrames state
  have last := getEntry_memInit below returned le_rfl
  rw [if_congr (mapFrames_reserved_iff many) rfl rfl] at last
  have counted := fun f (spare : Spare (mapEntries map) f) =>
    (getEntry_memInit below returned spare.there.le).trans (if_congr (spare_reserved_iff spare) rfl rfl)
  constructor
  · intro no_more
    have apart : ∀ f, Spare (mapEntries map) f →
        ¬ ((mapFrames (mapEntries map) % 16384 = 0 ∧ f = 256 + mapFrames (mapEntries map) / 16384) ∨
          ∃ e ∈ mapEntries map, ¬ e.Available ∧ EndsAt e f) := by
      intro f spare reserved
      have free := no_more.spare f spare
      rw [counted f spare, if_pos reserved] at free
      exact free_ne_reserved free.symm
    refine ⟨fun ends => ?_, fun f spare e among other ends => ?_, fun full spare => ?_⟩
    · rw [if_pos ends] at last
      by_contra changed
      have free := no_more.beyond _ (by omega) total.le (last.symm ▸ Ne.symm changed)
      exact free_ne_reserved (free.symm.trans last)
    · exact apart f spare (.inr ⟨e, among, other, ends⟩)
    · exact apart _ spare (.inl ⟨full, rfl⟩)
  · intro apart
    refine ⟨fun g small beyond changed => ?_, fun f spare => ?_⟩
    · rcases (total ▸ beyond).eq_or_lt with rfl | beyond
      · by_cases ends : mapFrames (mapEntries map) = 256 ∨
            ∃ e ∈ mapEntries map, ¬ e.Available ∧ e.stop / memFrameSize = mapFrames (mapEntries map)
        · rw [if_pos ends] at last
          exact absurd (last.trans (apart.last ends).symm) changed
        · rw [last, if_neg ends]
      · rw [state] at changed ⊢
        rw [kallocInit_getEntry small] at changed ⊢
        exact (getEntry_beyond below many small beyond).resolve_right changed
    · rw [counted f spare, if_neg]
      rintro (⟨full, rfl⟩ | ⟨e, among, other, ends⟩)
      · exact apart.bitmap full spare
      · exact apart.regions f spare e among other ends

theorem reserves_no_more_iff_threeMegabytes : ∃ s' : State,
    memInit lowHead.addr threeMegabytes ⟨fun _ => 0, 0⟩ = (0, s') ∧
      ReservesNoMore (mapEntries threeMegabytes) ⟨fun _ => 0, 0⟩ s' := by
  obtain ⟨m, returned⟩ := memInit_threeMegabytes lowHead.addr ⟨fun _ => 0, 0⟩
  have below : Below42 (mapEntries threeMegabytes) := by
    unfold Below42
    decide
  have frames : mapFrames (mapEntries threeMegabytes) = 768 := by decide
  refine ⟨_, returned, (reserves_no_more_iff below returned).mpr ⟨?_, ?_, ?_⟩⟩
  · rw [frames]
    rintro (short | ⟨e, inside, other, -⟩)
    · cases short
    · exact absurd (available_threeMegabytes e inside) other
  · exact fun _ _ e inside other => absurd (available_threeMegabytes e inside) other
  · rw [frames]
    exact fun full => absurd full (by decide)

/-- A reserved megabyte between available ones. -/
def reservedMegabyte : List MemBiosMmapEntry :=
  [⟨0, 0x300000, memBiosMemMapRegionAvailable⟩, ⟨0x300000, 0x100000, 2⟩,
    ⟨0x400000, 0x100000, memBiosMemMapRegionAvailable⟩, ⟨0, 0, 0⟩]

/-- The first frame behind the reserved megabyte is available, and is reserved with it. -/
theorem frame_behind_region_reserved : ∃ s' : State, Below42 (mapEntries reservedMegabyte) ∧
    memInit lowHead.addr reservedMegabyte ⟨fun _ => 0, 0⟩ = (0, s') ∧
      Spare (mapEntries reservedMegabyte) 1024 ∧
      memBitmapGetEntry s'.memory 1024 = memBitmapEntryReserved ∧
      ¬ ReservesNoMore (mapEntries reservedMegabyte) ⟨fun _ => 0, 0⟩ s' := by
  have below : Below42 (mapEntries reservedMegabyte) := by
    unfold Below42
    decide
  obtain ⟨s', returned⟩ : ∃ s', memInit lowHead.addr reservedMegabyte ⟨fun _ => 0, 0⟩ = (0, s') := by
    rw [memInit_eq, if_pos (by decide)]
    exact ⟨_, rfl⟩
  have frames : mapFrames (mapEntries reservedMegabyte) = 1280 := by decide
  have reserved := @getEntry_memInit _ _ _ lowHead 1024 below returned (by decide)
  rw [if_pos (by decide)] at reserved
  have spare : Spare (mapEntries reservedMegabyte) 1024 := by
    refine ⟨by decide, fun x here => ?_, fun e inside other overlaps => ?_, by decide⟩
    · refine ⟨⟨0x400000, 0x100000, memBiosMemMapRegionAvailable⟩, ?_, rfl, ?_, ?_⟩
      · exact List.mem_of_getElem? (show (mapEntries reservedMegabyte)[2]? = _ from rfl)
      · change 0x400000 ≤ x
        unfold memFrameSize at here
        omega
      · change x < 0x400000 + 0x100000
        unfold memFrameSize at here
        omega
    · obtain ⟨x, here, -, under⟩ := overlaps
      have ends : ∀ e ∈ mapEntries reservedMegabyte, ¬ e.Available → e.stop ≤ 0x400000 := by decide
      have stop := ends e inside other
      unfold memFrameSize at here
      omega
  refine ⟨s', below, returned, spare, reserved, fun no_more => ?_⟩
  exact free_ne_reserved ((no_more.spare 1024 spare).symm.trans reserved)

end AtaKernel.Memory
