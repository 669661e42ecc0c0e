import AtaKernel.Library.RingBuffer
import AtaKernel.Text.Framebuffer

/-! The framebuffer over any row of calls. The position and the cursor are cells of
the screen between calls, the stores stay within the screen, a write goes to the
cells behind the position, around the end of the screen, and behind `fb_printf` the
cursor of the adapter is at the position. -/
namespace AtaKernel.Text
open CString Framebuffer

inductive Call
  | fbReset
  | fbSetFgColor (fg : UInt8)
  | fbSetBgColor (bg : UInt8)
  | fbSetPos (r c : UInt8)
  | fbSetCur (r c : UInt8)
  | fbSyncCur
  | fbWrite (str : List UInt8) (len : UInt32)
  | fbClear
  | fbPrintf (fmt : List UInt8) (v : VaList) (buf : List UInt8)

def Framebuffer.call (fb : Framebuffer) : Call → Option Framebuffer
  | .fbReset => some fb.fbReset
  | .fbSetFgColor fg => some (fb.fbSetFgColor fg)
  | .fbSetBgColor bg => some (fb.fbSetBgColor bg)
  | .fbSetPos r c => some (fb.fbSetPos r c)
  | .fbSetCur r c => some (fb.fbSetCur r c)
  | .fbSyncCur => some fb.fbSyncCur
  | .fbWrite str len => fb.fbWrite str len
  | .fbClear => some fb.fbClear
  | .fbPrintf fmt v buf => (fb.fbPrintf fmt v buf).map Prod.snd

def Framebuffer.calls (fb : Framebuffer) : List Call → Option Framebuffer
  | [] => some fb
  | c :: cs => do
    let fb ← fb.call c
    fb.calls cs

/-! ## What is to hold -/

/-- Nothing but the cells of the screen has been stored to; above them is what was there before. -/
structure OnScreen (video : Nat → UInt8) (fb : Framebuffer) : Prop where
  stores : ∀ offset value, .store offset value ∈ fb.trace → offset < 4000
  above : ∀ k, 4000 ≤ k → fb.video k = video k

structure Within (video : Nat → UInt8) (fb : Framebuffer) : Prop extends OnScreen video fb where
  pos : fb.pos.toNat < 2000
  cur : fb.cur.toNat < 2000

/-- A character with its color. -/
def Framebuffer.cell (fb : Framebuffer) (k : Nat) : UInt8 × UInt8 := (fb.video (k * 2), fb.video (k * 2 + 1))

/-- The stores that put characters with the color `col` to the cells from `pos` on. -/
def cellStores (pos : Nat) (col : UInt8) (cs : List UInt8) : List Access :=
  cs.zipIdx.flatMap fun (c, i) =>
    [.store ((pos + i) % 2000 * 2) c, .store ((pos + i) % 2000 * 2 + 1) col]

/-- What it is to write the characters `cs`. -/
structure Wrote (cs : List UInt8) (fb fb' : Framebuffer) : Prop where
  pos : fb'.pos.toNat = (fb.pos.toNat + cs.length) % 2000
  trace : fb'.trace = (cellStores fb.pos.toNat fb.col cs).reverse ++ fb.trace
  cells : ∀ i (inside : i < cs.length), cs.length ≤ i + 2000 → fb'.cell ((fb.pos.toNat + i) % 2000) = (cs[i], fb.col)
  others : ∀ k < 2000, (∀ i < cs.length, k ≠ (fb.pos.toNat + i) % 2000) → fb'.cell k = fb.cell k

/-- The register that the last write to the address port selects. -/
def selected : List Access → Option UInt8
  | [] => none
  | .outb port value :: older => if port = vgaCrtAddrPort then some value else selected older
  | .store _ _ :: older => selected older

/-- What a register of the adapter was last programmed with. -/
def crtRegister (index : UInt8) : List Access → Option UInt8
  | [] => none
  | .outb port value :: older =>
    if port = vgaCrtDataPort ∧ selected older = some index then some value else crtRegister index older
  | .store _ _ :: older => crtRegister index older

/-- The cursor registers spell `cur`. -/
def Spells (fb : Framebuffer) : Prop :=
  ∃ high low, crtRegister vgaCrtCursorLocationHighRegister fb.trace = some high ∧
    crtRegister vgaCrtCursorLocationLowRegister fb.trace = some low ∧
    fb.cur.toNat = high.toNat * 256 + low.toNat

/-! ## Coordinates -/

variable {video : Nat → UInt8} {fb fb' : Framebuffer} {r c : UInt8} {cs str : List UInt8} {k : Nat}

theorem fbCoords_toNat (row : r.toNat < fbRows) (col : c.toNat < fbCols) :
    (fbCoords r c).toNat = r.toNat * 80 + c.toNat ∧ (fbCoords r c).toNat < 2000 := by
  unfold fbRows at row
  unfold fbCols at col
  have low : r.toNat * 80 + c.toNat < 2000 := by omega
  have same : (fbCoords r c).toNat = r.toNat * 80 + c.toNat := UInt16.toNat_ofNat_of_lt' (low.trans (by decide))
  exact ⟨same, same ▸ low⟩

/-- The row and the column of a cell give the cell again. -/
theorem fbCoords_of_pos {pos : UInt16} (low : pos.toNat < 2000) : (fbRowOf pos).toNat < fbRows ∧
    (fbColOf pos).toNat < fbCols ∧ fbCoords (fbRowOf pos) (fbColOf pos) = pos := by
  have row : (fbRowOf pos).toNat = pos.toNat / 80 :=
    UInt8.toNat_ofNat_of_lt' ((Nat.div_lt_of_lt_mul low : pos.toNat / 80 < 25).trans (by decide))
  have col : (fbColOf pos).toNat = pos.toNat % 80 :=
    UInt8.toNat_ofNat_of_lt' ((Nat.mod_lt _ (by decide) : pos.toNat % 80 < 80).trans (by decide))
  have rows : (fbRowOf pos).toNat < fbRows := by
    unfold fbRows
    omega
  have cols : (fbColOf pos).toNat < fbCols := by
    unfold fbCols
    omega
  refine ⟨rows, cols, UInt16.toNat_inj.mp ?_⟩
  rw [(fbCoords_toNat rows cols).1]
  omega

/-! ## The operations -/

theorem OnScreen.put (on : OnScreen video fb) (low : fb.pos.toNat < 2000) : OnScreen video (fb.put c) := by
  constructor
  · intro offset value inside
    obtain same | same | old : Access.store offset value = .store (fb.pos.toNat * 2 + 1) fb.col ∨
        Access.store offset value = .store (fb.pos.toNat * 2) c ∨ .store offset value ∈ fb.trace := by
      simpa [Framebuffer.put, store] using inside
    · cases same
      omega
    · cases same
      omega
    · exact on.stores offset value old
  · intro k high
    have color : k ≠ fb.pos.toNat * 2 + 1 := by omega
    have char : k ≠ fb.pos.toNat * 2 := by omega
    exact (Function.update_of_ne color _ _).trans ((Function.update_of_ne char _ _).trans (on.above k high))

theorem OnScreen.congr (on : OnScreen video fb) (video_ : fb'.video = fb.video)
    (stores : ∀ offset value, .store offset value ∈ fb'.trace → .store offset value ∈ fb.trace) : OnScreen video fb' :=
  ⟨fun offset value inside => on.stores offset value (stores offset value inside),
    fun k high => (congrFun video_ k).trans (on.above k high)⟩

theorem Within.setPos (within : Within video fb) : Within video (fb.fbSetPos r c) := by
  unfold fbSetPos
  split
  · next inside => exact ⟨within.toOnScreen.congr rfl fun _ _ => id, (fbCoords_toNat inside.1 inside.2).2, within.cur⟩
  · exact within

theorem OnScreen.setCur (on : OnScreen video fb) : OnScreen video (fb.fbSetCur r c) := by
  unfold fbSetCur
  split
  · exact on.congr rfl fun offset value inside => by simpa [programCursor, Framebuffer.outb] using inside
  · exact on

theorem Within.setCur (within : Within video fb) : Within video (fb.fbSetCur r c) := by
  refine ⟨within.toOnScreen.setCur, ?_, ?_⟩
  · unfold fbSetCur
    split <;> exact within.pos
  · unfold fbSetCur
    split
    · next inside => exact (fbCoords_toNat inside.1 inside.2).2
    · exact within.cur

/-- With the position on the screen, the cursor gets to it. -/
theorem syncCur_there (low : fb.pos.toNat < 2000) : fb.fbSyncCur = { fb with cur := fb.pos }.programCursor := by
  obtain ⟨row, col, same⟩ := fbCoords_of_pos low
  rw [fbSyncCur, fbSetCur, fbRow, fbCol, if_pos ⟨row, col⟩, same]

theorem programCursor_spells : Spells fb.programCursor := by
  refine ⟨(fb.cur >>> 8).toUInt8, fb.cur.toUInt8, ?_, ?_, ?_⟩
  · rfl
  · rfl
  · have low := fb.cur.toNat_lt
    change fb.cur.toNat = _
    simp [Nat.shiftRight_eq_div_pow]
    omega

/-! ## Writing -/

theorem advance_pos : (fb.advance c).pos.toNat = (fb.pos.toNat + 1) % 2000 := by
  have low : (fb.pos.toNat + 1) % 2000 < 2000 := Nat.mod_lt _ (by decide)
  exact UInt16.toNat_ofNat_of_lt' (low.trans (by decide))

theorem Within.advance (within : Within video fb) : Within video (fb.advance c) := by
  refine ⟨(within.toOnScreen.put within.pos).congr rfl fun _ _ => id, ?_, within.cur⟩
  rw [advance_pos]
  exact Nat.mod_lt _ (by decide)

theorem Within.writeLoop {rounds : Nat} (within : Within video fb) (ran : fbWriteLoop rounds str fb = some fb') :
    Within video fb' := by
  induction rounds generalizing str fb with
  | zero =>
    cases ran
    exact within
  | succ rounds ih =>
    cases str with
    | nil => cases ran
    | cons c str =>
      rw [fbWriteLoop] at ran
      split at ran
      · cases ran
        exact within
      · exact ih within.advance ran

theorem cellStores_cons {pos : Nat} {col : UInt8} : cellStores pos col (c :: cs) =
    [.store (pos % 2000 * 2) c, .store (pos % 2000 * 2 + 1) col] ++ cellStores (pos + 1) col cs := by
  unfold cellStores
  rw [List.zipIdx_cons, List.flatMap_cons, List.zipIdx_succ, List.flatMap_map]
  simp only [Nat.add_zero, Nat.add_assoc, Nat.add_comm 1]

theorem cellStores_round {pos : Nat} {col : UInt8} : cellStores (pos % 2000) col cs = cellStores pos col cs := by
  simp only [cellStores, Nat.mod_add_mod]

theorem wrote_nil (low : fb.pos.toNat < 2000) : Wrote [] fb fb :=
  ⟨(Nat.mod_eq_of_lt low).symm, rfl, fun _ inside => absurd inside (Nat.not_lt_zero _), fun _ _ _ => rfl⟩

theorem advance_cell : (fb.advance c).cell k = if k = fb.pos.toNat then (c, fb.col) else fb.cell k := by
  change (Function.update (Function.update fb.video (fb.pos.toNat * 2) c) (fb.pos.toNat * 2 + 1) fb.col (k * 2),
    Function.update (Function.update fb.video (fb.pos.toNat * 2) c) (fb.pos.toNat * 2 + 1) fb.col (k * 2 + 1)) = _
  have even : k * 2 ≠ fb.pos.toNat * 2 + 1 := by omega
  have odd : k * 2 + 1 ≠ fb.pos.toNat * 2 := by omega
  rw [Function.update_of_ne even]
  split
  · next here => rw [here, Function.update_self, Function.update_self]
  · next other =>
    have color : k * 2 + 1 ≠ fb.pos.toNat * 2 + 1 := by omega
    have char : k * 2 ≠ fb.pos.toNat * 2 := by omega
    rw [Function.update_of_ne char, Function.update_of_ne color, Function.update_of_ne odd, Framebuffer.cell]

/-- One character, and then the others. -/
theorem Wrote.cons (low : fb.pos.toNat < 2000) (wrote : Wrote cs (fb.advance c) fb') : Wrote (c :: cs) fb fb' := by
  have next := @advance_pos fb c
  have here : fb.pos.toNat % 2000 = fb.pos.toNat := Nat.mod_eq_of_lt low
  have behind : ∀ i, ((fb.advance c).pos.toNat + i) % 2000 = (fb.pos.toNat + (i + 1)) % 2000 := by
    intro i
    rw [next, Nat.mod_add_mod, Nat.add_assoc, Nat.add_comm 1]
  constructor
  · rw [wrote.pos, behind]
    rfl
  · rw [wrote.trace, next, cellStores_round, cellStores_cons, List.reverse_append, List.append_assoc, here]
    rfl
  · intro i inside last
    obtain _ | i := i
    · have untouched : ∀ i < cs.length, fb.pos.toNat ≠ ((fb.advance c).pos.toNat + i) % 2000 := by
        intro i inside' same
        rw [List.length_cons] at last
        rw [behind] at same
        exact RingBuffer.cell_ne (by omega : fb.pos.toNat < fb.pos.toNat + (i + 1)) (by omega) (here.trans same)
      rw [Nat.add_zero, here, wrote.others _ low untouched, advance_cell, if_pos rfl]
      rfl
    · rw [← behind]
      exact wrote.cells i (Nat.lt_of_succ_lt_succ inside) (by simp at last; omega)
  · intro k screen away
    have away' : ∀ i < cs.length, k ≠ ((fb.advance c).pos.toNat + i) % 2000 := by
      intro i inside
      rw [behind]
      exact away (i + 1) (Nat.succ_lt_succ inside)
    have other : k ≠ fb.pos.toNat := here ▸ away 0 (Nat.succ_pos _)
    rw [wrote.others k screen away', advance_cell, if_neg other]

/-- The characters ahead of the terminator and of the limit, where the array has one of them. -/
theorem fbWriteLoop_wrote {rounds : Nat} (readable : 0 ∈ str ∨ rounds ≤ str.length) (low : fb.pos.toNat < 2000) :
    ∃ fb', fbWriteLoop rounds str fb = some fb' ∧ Wrote ((str.takeWhile (· ≠ 0)).take rounds) fb fb' := by
  induction rounds generalizing str fb with
  | zero => exact ⟨fb, by cases str <;> rfl, wrote_nil low⟩
  | succ rounds ih =>
    cases str with
    | nil => simp at readable
    | cons c str =>
      rw [fbWriteLoop]
      by_cases zero_ : c = 0
      · rw [if_pos zero_, List.takeWhile_cons_of_neg (by simpa using zero_)]
        exact ⟨fb, rfl, wrote_nil low⟩
      · have readable' : 0 ∈ str ∨ rounds ≤ str.length :=
          readable.imp (fun inside => (List.mem_cons.mp inside).resolve_left (Ne.symm zero_)) Nat.le_of_succ_le_succ
        have low' : (fb.advance c).pos.toNat < 2000 := by
          rw [advance_pos]
          exact Nat.mod_lt _ (by decide)
        obtain ⟨fb', ran, wrote⟩ := ih readable' low'
        rw [if_neg zero_, List.takeWhile_cons_of_pos (by simpa using zero_), List.take_succ_cons]
        exact ⟨fb', ran, wrote.cons low⟩

/-! ## Clearing -/

theorem OnScreen.clearLoop {rounds : Nat} (on : OnScreen video fb) : OnScreen video (fbClearLoop rounds fb) := by
  induction rounds generalizing fb with
  | zero => exact on
  | succ rounds ih =>
    rw [fbClearLoop]
    split
    · next low => exact ih ((on.put low).congr rfl fun _ _ => id)
    · exact on

/-- The loop may leave the position behind the last cell; it is set behind it. -/
theorem Within.clear (within : Within video fb) : Within video fb.fbClear := by
  have on : OnScreen video (fbClearLoop (fbCols * fbRows) { fb with pos := 0 }) :=
    OnScreen.clearLoop (within.toOnScreen.congr rfl fun _ _ => id)
  have corner : (0 : UInt8).toNat < fbRows ∧ (0 : UInt8).toNat < fbCols := by decide
  unfold fbClear
  generalize fbClearLoop (fbCols * fbRows) { fb with pos := 0 } = cleared at on
  have on' : OnScreen video (cleared.fbSetPos 0 0) := by
    rw [fbSetPos, if_pos corner]
    exact on.congr rfl fun _ _ => id
  refine ⟨on'.setCur, ?_, ?_⟩
  · rw [fbSetPos, if_pos corner, fbSetCur, if_pos corner]
    exact (fbCoords_toNat corner.1 corner.2).2
  · rw [fbSetCur, if_pos corner]
    exact (fbCoords_toNat corner.1 corner.2).2

/-! ## fb_printf -/

theorem printfRound_leaves {rest : List UInt8} {p : Printing Framebuffer} {r : Int32 × Framebuffer}
    (left : fbPrintfRound c rest p = some (.leave r)) : r.2 = p.out.fbSyncCur := by
  unfold fbPrintfRound at left
  split at left
  · split at left
    · cases left
    split at left
    · cases left
    split at left
    · cases left
    · obtain ⟨out, -, same⟩ := Option.bind_eq_some_iff.mp left
      cases same
  · obtain ⟨shown, -, rest_⟩ := Option.bind_eq_some_iff.mp left
    cases shown with
    | badFormat =>
      cases rest_
      rfl
    | text s buf fmt v =>
      obtain ⟨len, -, rest_⟩ := Option.bind_eq_some_iff.mp rest_
      obtain ⟨out, -, same⟩ := Option.bind_eq_some_iff.mp rest_
      cases same

theorem printfRound_within {rest rest' : List UInt8} {p t : Printing Framebuffer} (within : Within video p.out)
    (went : fbPrintfRound c rest p = some (.go rest' t)) : Within video t.out := by
  unfold fbPrintfRound at went
  split at went
  · split at went
    · cases went
      exact within
    split at went
    · cases went
      exact within.setPos
    split at went
    · cases went
      exact within.setPos
    · obtain ⟨out, wrote, same⟩ := Option.bind_eq_some_iff.mp went
      cases same
      exact within.writeLoop wrote
  · obtain ⟨shown, -, rest_⟩ := Option.bind_eq_some_iff.mp went
    cases shown with
    | badFormat => cases rest_
    | text s buf fmt v =>
      obtain ⟨len, -, rest_⟩ := Option.bind_eq_some_iff.mp rest_
      obtain ⟨out, wrote, same⟩ := Option.bind_eq_some_iff.mp rest_
      cases same
      exact within.writeLoop wrote

/-- Every way out goes through `fb_sync_cur`. -/
theorem printf_syncs {fmt buf : List UInt8} {v : VaList} {n : Int32} (within : Within video fb)
    (ran : fb.fbPrintf fmt v buf = some (n, fb')) : ∃ last, Within video last ∧ fb' = last.fbSyncCur := by
  refine readText_invariant (fun _ p => Within video p.out)
    (fun r => ∃ last, Within video last ∧ r.2 = last.fbSyncCur) ?_ ?_ ?_ within ran
  · exact fun _ p there => ⟨p.out, there, rfl⟩
  · exact fun _ _ p _ _ there left => ⟨p.out, there, printfRound_leaves left⟩
  · exact fun _ _ _ _ _ _ there went => printfRound_within there went

/-- What lies ahead of a loop that comes to an end: a text with a terminator, and a zero byte somewhere
above the local buffer, for a string in it that has none. -/
structure Readable (video : Nat → UInt8) (text : List UInt8) (p : Printing Framebuffer) : Prop where
  within : Within video p.out
  room : numBufLen ≤ p.buf.length
  above : 0 ∈ p.buf.drop numBufLen
  chars : ∃ chars after, text = chars ++ 0 :: after

/-- The round goes on, to a rest of the text that can be read. -/
def Goes (video : Nat → UInt8) (c : UInt8) (rest : List UInt8) (p : Printing Framebuffer) : Prop :=
  ∃ rest' t, fbPrintfRound c rest p = some (.go rest' t) ∧ rest'.length ≤ rest.length ∧ Readable video rest' t

theorem strlen_returns (zero_ : 0 ∈ str) : ∃ n, strlen str = some n := by
  obtain ⟨a, b, rfl⟩ := List.append_of_mem zero_
  obtain ⟨nonzero, rest, same⟩ := @holds_takeWhile a b
  rw [same]
  exact ⟨_, strlen_string nonzero⟩

theorem fbWrite_returns {len : UInt32} (within : Within video fb) (readable : 0 ∈ str ∨ len.toNat ≤ str.length) :
    ∃ fb', fb.fbWrite str len = some fb' := by
  obtain ⟨fb', ran, -⟩ := fbWriteLoop_wrote readable within.pos
  exact ⟨fb', ran⟩

theorem printfRound_returns {rest : List UInt8} {p : Printing Framebuffer} (more : c ≠ 0)
    (readable : Readable video (c :: rest) p) :
    (∃ r, fbPrintfRound c rest p = some (.leave r)) ∨ Goes video c rest p := by
  obtain ⟨inPlaceholder, v, buf, count, fb⟩ := p
  obtain ⟨within, room, above, chars, after, split⟩ := readable
  obtain ⟨chars, rfl, rfl⟩ := chars_cons more split
  cases inPlaceholder with
  | false =>
    have goes : ∀ t, fbPrintfRound c (chars ++ 0 :: after) ⟨false, v, buf, count, fb⟩ =
        some (.go (chars ++ 0 :: after) t) → t.buf = buf → Goes video c _ _ := fun t went same =>
      ⟨_, t, went, le_rfl, printfRound_within within went, same ▸ room, same ▸ above, chars, after, rfl⟩
    by_cases percent : c = '%'.toUInt8
    · exact .inr (goes _ (if_pos percent) rfl)
    by_cases newline : c = '\n'.toUInt8
    · exact .inr (goes _ ((if_neg percent).trans (if_pos newline)) rfl)
    by_cases return_ : c = '\r'.toUInt8
    · exact .inr (goes _ ((if_neg percent).trans ((if_neg newline).trans (if_pos return_))) rfl)
    · obtain ⟨fb', wrote⟩ := @fbWrite_returns video fb (c :: (chars ++ 0 :: after)) 1 within (.inr (by simp))
      exact .inr (goes _ (fbPrintfRound_literal percent newline return_ wrote) rfl)
  | true =>
    have behind : chars ++ 0 :: after ≠ [] := by simp
    have means_ := @placeholder_means buf (chars ++ 0 :: after) c v behind room
    -- Whatever string is in the buffer, it is written.
    have goes : ∀ s own chars' v', placeholder c (chars ++ 0 :: after) v buf =
        some (.text s own (chars' ++ 0 :: after) v') → chars'.length ≤ chars.length → 0 ∈ own →
        numBufLen ≤ own.length → 0 ∈ own.drop numBufLen →
        Goes video c (chars ++ 0 :: after) ⟨true, v, buf, count, fb⟩ := by
      intro s own chars' v' ran shorter string room' above'
      obtain ⟨len, count_⟩ := strlen_returns string
      obtain ⟨fb', wrote⟩ := @fbWrite_returns video fb own len within (.inl string)
      have went : fbPrintfRound c _ ⟨true, v, buf, count, fb⟩ = _ := fbPrintfRound_text ran count_ wrote
      exact ⟨_, _, went, by simpa using shorter, printfRound_within within went, room', above', chars', after, rfl⟩
    obtain ⟨-, means⟩ | ⟨t, chars', v', means, ⟨taken, rfl⟩, -⟩ | ⟨means, -⟩ := meaning_cases c chars after v
    · rw [means] at means_
      exact .inr (goes _ _ _ _ means_ le_rfl (List.mem_of_mem_drop above) room above)
    · rw [means] at means_
      obtain ⟨own, ran, filled⟩ := means_
      obtain ⟨-, rest', holds⟩ := filled.holds
      refine .inr (goes _ _ _ _ ran (by simp) ?_ ?_ ?_)
      · rw [holds]
        exact List.mem_append_right _ List.mem_cons_self
      · rw [filled.length]
        exact room
      · rw [filled.above]
        exact above
    · rw [means] at means_
      exact .inl ⟨_, fbPrintfRound_bad means_⟩

/-- `fb_printf` returns for every format and all arguments. -/
theorem fbPrintf_returns {fmt buf : List UInt8} {v : VaList} (within : Within video fb) (ends : 0 ∈ fmt)
    (room : numBufLen ≤ buf.length) (above : 0 ∈ buf.drop numBufLen) :
    ∃ n fb', fb.fbPrintf fmt v buf = some (n, fb') := by
  obtain ⟨chars, after, rfl⟩ := List.append_of_mem ends
  have start : Readable video (chars ++ 0 :: after) ⟨false, v, buf, 0, fb⟩ := ⟨within, room, above, chars, after, rfl⟩
  have inside : ∀ p, ¬ Readable video [] p := by
    rintro p ⟨-, -, -, chars, after, split⟩
    simp at split
  obtain ⟨⟨n, fb'⟩, ran⟩ := readText_returns (Readable video) inside
    (fun _ _ _ more readable => printfRound_returns more readable) start le_rfl
  exact ⟨n, fb', ran⟩

/-! ## All calls -/

theorem Within.call {c : Call} (within : Within video fb) (ran : fb.call c = some fb') : Within video fb' := by
  cases c with
  | fbReset =>
    cases ran
    have low : (fbCoords 0 0).toNat < 2000 := by decide
    exact ⟨within.toOnScreen.congr rfl fun _ _ => id, low, low⟩
  | fbSetFgColor fg =>
    cases ran
    unfold fbSetFgColor
    split
    · exact within
    · exact ⟨within.toOnScreen.congr rfl fun _ _ => id, within.pos, within.cur⟩
  | fbSetBgColor bg =>
    cases ran
    unfold fbSetBgColor
    split
    · exact within
    · exact ⟨within.toOnScreen.congr rfl fun _ _ => id, within.pos, within.cur⟩
  | fbSetPos r c =>
    cases ran
    exact within.setPos
  | fbSetCur r c =>
    cases ran
    exact within.setCur
  | fbSyncCur =>
    cases ran
    exact within.setCur
  | fbWrite str len => exact within.writeLoop ran
  | fbClear =>
    cases ran
    exact within.clear
  | fbPrintf fmt v buf =>
    obtain ⟨⟨n, last⟩, printed, rfl⟩ := Option.map_eq_some_iff.mp ran
    obtain ⟨last', within', same⟩ := printf_syncs within printed
    rw [same]
    exact within'.setCur

theorem Within.calls {cs : List Call} (within : Within video fb) (ran : fb.calls cs = some fb') : Within video fb' := by
  induction cs generalizing fb with
  | nil =>
    cases ran
    exact within
  | cons c cs ih =>
    obtain ⟨mid, first, rest⟩ := Option.bind_eq_some_iff.mp ran
    exact ih (within.call first) rest

theorem within_started : Within video (.started video) := by
  have low : (0 : UInt16).toNat < 2000 := by decide
  exact ⟨⟨fun _ _ inside => absurd inside List.not_mem_nil, fun _ _ => rfl⟩, low, low⟩

/-- After any calls, the position and the cursor are cells, and nothing but cells has been stored to;
what `fb_write` writes is behind the position, and when `fb_printf` is back, the cursor of the adapter
is at the position. -/
theorem calls_keep_screen {calls : List Call} (ran : (Framebuffer.started video).calls calls = some fb) :
    Within video fb ∧
    (∀ str len, 0 ∈ str ∨ len.toNat ≤ str.length → ∃ fb', fb.fbWrite str len = some fb' ∧
      Wrote ((str.takeWhile (· ≠ 0)).take len.toNat) fb fb') ∧
    (∀ fmt v buf n fb', fb.fbPrintf fmt v buf = some (n, fb') → fb'.cur = fb'.pos ∧ Spells fb') ∧
    ∀ fmt v buf, 0 ∈ fmt → numBufLen ≤ buf.length → 0 ∈ buf.drop numBufLen →
      ∃ n fb', fb.fbPrintf fmt v buf = some (n, fb') := by
  have within := within_started.calls ran
  refine ⟨within, fun str len readable => fbWriteLoop_wrote readable within.pos, ?_, ?_⟩
  · intro fmt v buf n fb' printed
    obtain ⟨last, within', rfl⟩ := printf_syncs within printed
    rw [syncCur_there within'.pos]
    exact ⟨rfl, programCursor_spells⟩
  · intro fmt v buf ends room above
    exact fbPrintf_returns within ends room above

/-- Two characters from the last cell on. -/
def aroundTheEnd : List Call := [.fbReset, .fbSetPos 24 79, .fbWrite ['o'.toUInt8, 'k'.toUInt8, 0] 2, .fbSyncCur]

theorem calls_keep_screen_around : ∃ fb, (Framebuffer.started fun _ => 0).calls aroundTheEnd = some fb ∧
    fb.pos = 1 ∧ fb.cell 1999 = ('o'.toUInt8, 15) ∧ fb.cell 0 = ('k'.toUInt8, 15) ∧ Within (fun _ => 0) fb := by
  obtain ⟨fb, ran⟩ : ∃ fb, (Framebuffer.started fun _ => 0).calls aroundTheEnd = some fb := ⟨_, rfl⟩
  have within := (calls_keep_screen ran).1
  cases ran
  exact ⟨_, rfl, by decide, by decide, by decide, within⟩

end AtaKernel.Text
