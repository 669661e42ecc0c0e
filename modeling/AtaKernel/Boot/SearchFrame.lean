import AtaKernel.Boot.LoadInodes

/-! What the search for the kernel leaves as it was: the drive, the place of the
table, the inode of the directory and the loader's own code, the segments, and in
the end the stack. It holds at every label, whatever the directory has in it. -/
namespace AtaKernel.Boot
open ByteMemory StateProgram Minix

variable {σ : Type} {int13 int10 : Machine σ → Machine σ} {drive : UInt8} {disk : Nat → UInt8} {first : UInt32}
  {start m m' m₁ m₂ : Machine σ} {place : Place} {kernelStr zone v offset : UInt16} {u : Unit}

/-! ## load_zone -/

/-- Nothing has changed in memory but the packet, the buffer and the part of the stack in use. -/
structure Spared {σ : Type} (m m' : Machine σ) : Prop where
  ds : m'.ds = m.ds
  es : m'.es = m.es
  ss : m'.ss = m.ss
  away : ∀ x, (x < 0x500 ∨ 0x510 ≤ x) → (x < 0x600 ∨ 0xa00 ≤ x) → (x < 0xfe0 ∨ 0x1000 ≤ x) → m'.memory x = m.memory x

theorem Spared.trans (one : Spared m m₁) (two : Spared m₁ m₂) : Spared m m₂ where
  ds := two.ds.trans one.ds
  es := two.es.trans one.es
  ss := two.ss.trans one.ss
  away x packet_ buffer_ stack := (two.away x packet_ buffer_ stack).trans (one.away x packet_ buffer_ stack)

theorem Spared.of_eq (ds : m'.ds = m.ds) (es : m'.es = m.es) (ss : m'.ss = m.ss) (memory : m'.memory = m.memory) :
    Spared m m' :=
  ⟨ds, es, ss, fun x _ _ _ => congrFun memory x⟩

/-- A word of the stack is written. -/
theorem setWord_spares (offset : UInt16) (ss : m.ss = 0) (above : 0xfe0 ≤ offset.toNat)
    (below : offset.toNat + 2 ≤ 0x1000) (v : UInt16) : Spared m (m.setWord m.ss offset v) := by
  refine ⟨rfl, rfl, rfl, fun x _ _ stack => ?_⟩
  change store m.memory (linear m.ss offset) 2 v.toNat x = _
  rw [ss, linear_zero, store_away (by omega) (by omega)]

theorem push_spares (ss : m.ss = 0) (above : 0xfe2 ≤ m.sp.toNat) (below : m.sp.toNat ≤ 0x1000) (v : UInt16) :
    Spared m (m.push v) ∧ (m.push v).sp = m.sp - 2 ∧ (m.push v).bp = m.bp := by
  have down : (m.sp - 2).toNat + 2 = m.sp.toNat := toNat_sub_add (n := 2) (by change 2 ≤ _; omega)
  have spared := setWord_spares (m := { m with sp := m.sp - 2 }) (m.sp - 2) ss (by omega) (by omega) v
  exact ⟨⟨spared.ds, spared.es, spared.ss, spared.away⟩, rfl, rfl⟩

theorem loaded_spares {lba : UInt32} {way : List UInt32} (loaded : Loaded disk 8 lba way m m')
    (above : 0xfe8 ≤ m.sp.toNat) (below : m.sp.toNat ≤ 0x1000) : Spared m m' :=
  ⟨loaded.ds, loaded.es, loaded.ss, fun x packet_ buffer_ stack => loaded.away x packet_ buffer_ (by omega)⟩

/-- The indices go to the locals of `load_zone`. -/
theorem lzLevels_spares (ss : m.ss = 0) (bp : m.bp = 0xffa) :
    Spared m (lzLevels m) ∧ (lzLevels m).sp = m.sp ∧ (lzLevels m).bp = m.bp := by
  have places : linear m.ss (m.bp - 6) = 0xff4 ∧ linear m.ss (m.bp - 4) = 0xff6 ∧ linear m.ss (m.bp - 2) = 0xff8 := by
    rw [ss, bp]
    decide
  obtain ⟨three, two, one⟩ := places
  have stored (c b a x : Nat) (stack : x < 0xfe0 ∨ 0x1000 ≤ x) :
      store (store (store m.memory (linear m.ss (m.bp - 6)) 2 c) (linear m.ss (m.bp - 4)) 2 b)
        (linear m.ss (m.bp - 2)) 2 a x = m.memory x := by
    rw [three, two, one, store_away (by decide) (by omega), store_away (by decide) (by omega),
      store_away (by decide) (by omega)]
  unfold lzLevels
  dsimp only
  split
  · exact ⟨⟨rfl, rfl, rfl, fun x _ _ stack => stored _ _ _ x stack⟩, rfl, rfl⟩
  split
  · exact ⟨⟨rfl, rfl, rfl, fun x _ _ stack => stored _ _ _ x stack⟩, rfl, rfl⟩
  · exact ⟨⟨rfl, rfl, rfl, fun x _ _ stack => stored _ _ _ x stack⟩, rfl, rfl⟩

/-- In `load_zone`, at its locals. -/
structure AtLocals {σ : Type} (drive : UInt8) (m : Machine σ) : Prop where
  ds : m.ds = 0
  ss : m.ss = 0
  sp : m.sp = 0xff4
  bp : m.bp = 0xffa
  device : m.memory 0x510 = drive

theorem AtLocals.keep (there : AtLocals drive m) (spared : Spared m m') (sp : m'.sp = m.sp) (bp : m'.bp = m.bp) :
    AtLocals drive m' :=
  ⟨spared.ds.trans there.ds, spared.ss.trans there.ss, sp.trans there.sp, bp.trans there.bp,
    (spared.away _ (by decide) (by decide) (by decide)).trans there.device⟩

theorem lzLoadLevel_spares (bios : LoadsSectors int13 drive disk) (there : AtLocals drive m) {back local_ base : UInt16}
    (ran : lzLoadLevel int13 back local_ base m = .ok u m') : Spared m m' ∧ AtLocals drive m' := by
  have sp : m.sp.toNat = 0xff4 := congrArg UInt16.toNat there.sp
  obtain ⟨m₁, run, loaded⟩ := lzLoadLevel_loads bios there.ds there.ss (by omega) there.device back local_ base
  obtain ⟨-, rfl⟩ := EStateM.Result.ok.inj (run.symm.trans ran)
  have spared := loaded_spares loaded (by omega) (by omega)
  exact ⟨spared, there.keep spared loaded.sp loaded.bp⟩

theorem lzDive_spares (bios : LoadsSectors int13 drive disk) {below : Vbr σ Unit}
    (rest : ∀ m u m', AtLocals drive m → below m = .ok u m' → Spared m m' ∧ AtLocals drive m')
    (there : AtLocals drive m)
    {back local_ : UInt16} (ran : lzDive int13 back local_ below m = .ok u m') : Spared m m' ∧ AtLocals drive m' := by
  have next : Spared m (lzNext local_ m) := .of_eq rfl rfl rfl rfl
  have there' := there.keep next rfl rfl
  unfold lzDive at ran
  rw [modify_bind, get_bind] at ran
  split at ran
  · obtain ⟨-, rfl⟩ := pure_ok_iff.mp ran
    exact ⟨next, there'⟩
  · obtain ⟨u₁, mid, load, dive⟩ := bind_ok_iff.mp ran
    obtain ⟨spared, there₁⟩ := lzLoadLevel_spares bios there' load
    obtain ⟨spared', there₂⟩ := rest mid u m' there₁ dive
    exact ⟨next.trans (spared.trans spared'), there₂⟩

/-- Whatever the zone is, `load_zone` comes back to where it was called. -/
theorem callLoadZone_spares (bios : LoadsSectors int13 drive disk) (ds : m.ds = 0) (ss : m.ss = 0)
    (sp : m.sp = stackTop)
    (device_ : m.memory 0x510 = drive) {back : Nat → UInt16} (ran : callLoadZone int13 back zone m = .ok u m') :
    Spared m m' ∧ m'.sp = stackTop := by
  obtain ⟨pushed, sp₁, -⟩ := push_spares ss (by rw [sp]; decide) (by rw [sp]; decide) zone
  rw [sp] at sp₁
  unfold callLoadZone at ran
  rw [modify_bind] at ran
  obtain ⟨u₁, mid, called, rest⟩ := bind_ok_iff.mp ran
  unfold call at called
  rw [modify_bind] at called
  have ss₁ : (m.push zone).ss = 0 := ss
  generalize m.push zone = m₁ at pushed sp₁ called ss₁
  obtain ⟨pushed', sp₂, -⟩ := push_spares ss₁ (by rw [sp₁]; decide) (by rw [sp₁]; decide) (back 0)
  rw [sp₁] at sp₂
  obtain ⟨u₂, mid', zoned, last⟩ := bind_ok_iff.mp called
  have ss₂ : (m₁.push (back 0)).ss = 0 := ss₁
  generalize m₁.push (back 0) = m₂ at pushed' sp₂ zoned ss₂
  have pushes := pushed.trans pushed'
  unfold loadZone at zoned
  rw [modify_bind, modify_bind, modify_bind, get_bind] at zoned
  obtain ⟨pushed₃, sp₃, -⟩ := push_spares ss₂ (by rw [sp₂]; decide) (by rw [sp₂]; decide) m₂.bp
  rw [sp₂] at sp₃
  generalize m₂.push m₂.bp = m₃ at pushed₃ sp₃ zoned
  have entered : Spared m₃ (lzSize { m₃ with bp := m₃.sp, sp := m₃.sp - 6 }) := .of_eq rfl rfl rfl rfl
  have sized := pushes.trans (pushed₃.trans entered)
  have there : AtLocals drive (lzSize { m₃ with bp := m₃.sp, sp := m₃.sp - 6 }) := by
    refine ⟨sized.ds.trans ds, sized.ss.trans ss, ?_, ?_,
      (sized.away _ (by decide) (by decide) (by decide)).trans device_⟩
    · change m₃.sp - 6 = 0xff4
      rw [sp₃]
      rfl
    · exact sp₃
  generalize lzSize { m₃ with bp := m₃.sp, sp := m₃.sp - 6 } = m₄ at zoned there sized
  split at zoned
  · cases zoned
  rw [modify_bind] at zoned
  obtain ⟨leveled, sp₅, bp₅⟩ := lzLevels_spares there.ss there.bp
  have there₅ := there.keep leveled sp₅ bp₅
  obtain ⟨u₃, m₆, first_, dives⟩ := bind_ok_iff.mp zoned
  obtain ⟨spared₆, there₆⟩ := lzLoadLevel_spares bios there₅ first_
  obtain ⟨u₄, m₇, dive, leave⟩ := bind_ok_iff.mp dives
  obtain ⟨spared₇, there₇⟩ := lzDive_spares bios (fun n v n' inside run =>
    lzDive_spares bios (fun n v n' inside run => by
      obtain ⟨-, rfl⟩ := pure_ok_iff.mp run
      exact ⟨.of_eq rfl rfl rfl rfl, inside⟩) inside run) there₆ dive
  cases leave
  cases last
  cases rest
  have whole := sized.trans (leveled.trans (spared₆.trans spared₇))
  refine ⟨whole.trans (.of_eq rfl rfl rfl rfl), ?_⟩
  change m₇.sp + 6 + 2 + 2 + 2 = stackTop
  rw [there₇.sp]
  rfl

/-! ## The search -/

/-- Where the stack pointer is at a label. -/
def Place.stack : Place → UInt16
  | .strcmpLoop => 0xff8
  | .printStrLoop => 0xff8
  | _ => stackTop

/-- What is the loader's own, and not the search's. -/
def Own (x : Nat) : Prop := (0x510 ≤ x ∧ x < 0x53c) ∨ (0xa00 ≤ x ∧ x < 0xe00)

/-- At a label of the search, which began in `start`. -/
structure Left {σ : Type} (start : Machine σ) (place : Place) (m : Machine σ) : Prop where
  ds : m.ds = 0
  ss : m.ss = 0
  es : m.es = start.es
  sp : m.sp = place.stack
  bp : place = .printStrLoop → m.bp = 0xffa
  away : ∀ x, Own x → m.memory x = start.memory x

/-- INT 0x10 prints a character and keeps ES as well. -/
structure PrintsOnly {σ : Type} (int10 : Machine σ → Machine σ) : Prop extends Prints int10 where
  es : ∀ m : Machine σ, (m.eax >>> 8).toUInt8 = 0x0e → (int10 m).es = m.es

theorem Left.keep (left : Left start place m) (spared : Spared m m') {place' : Place} (sp : m'.sp = place'.stack)
    (bp : place' = .printStrLoop → m'.bp = 0xffa) : Left start place' m' where
  ds := spared.ds.trans left.ds
  ss := spared.ss.trans left.ss
  es := spared.es.trans left.es
  sp := sp
  bp := bp
  away x own := (spared.away x (by unfold Own at own; omega) (by unfold Own at own; omega)
    (by unfold Own at own; omega)).trans (left.away x own)

/-- A variable of the search is written; the registers for numbers are not looked at. -/
theorem Left.stored {n w : Nat} (left : Left start place m) (ds : m'.ds = m.ds) (es : m'.es = m.es) (ss : m'.ss = m.ss)
    (sp : m'.sp = m.sp) (bp : m'.bp = m.bp) (memory : m'.memory = store m.memory (linear m.ds offset) n w)
    (low : 0x550 ≤ offset.toNat) (high : offset.toNat + n ≤ 0x600) : Left start place m' where
  ds := ds.trans left.ds
  ss := ss.trans left.ss
  es := es.trans left.es
  sp := sp.trans left.sp
  bp in_ := bp.trans (left.bp in_)
  away x own := by
    rw [memory, left.ds, linear_zero, store_away (by omega) (by unfold Own at own; omega)]
    exact left.away x own

theorem Left.registers (left : Left start place m) (ds : m'.ds = m.ds) (es : m'.es = m.es) (ss : m'.ss = m.ss)
    (sp : m'.sp = m.sp) (bp : m'.bp = m.bp) (memory : m'.memory = m.memory) : Left start place m' :=
  have nothing : m'.memory = store m.memory (linear m.ds 0x550) 0 0 := memory
  left.stored ds es ss sp bp nothing (by decide) (by decide)

theorem lkZone_leaves (left : Left start place m) : Left start place (lkZone m) := by
  have memory : (lkZone m).memory = store m.memory (linear m.ds currentZoneBytes) 4
      ((setLow m.eax (m.word m.ds currentZoneIndex) &&& 0x0000ffff) <<< 10).toNat := by
    simp only [lkZone, Machine.setDword]
  exact left.stored rfl rfl rfl rfl rfl memory (by decide) (by decide)

theorem lkNext_leaves (left : Left start place m) : Left start place (lkNext m) := by
  have memory : (lkNext m).memory = store m.memory (linear m.ds currentZoneIndex) 2
      (m.word m.ds currentZoneIndex + 1).toNat := by
    simp only [lkNext, Machine.setWord, setLow_toUInt16]
  exact left.stored rfl rfl rfl rfl rfl memory (by decide) (by decide)

theorem deNext_leaves (left : Left start place m) : Left start place (deNext m) := by
  have memory : (deNext m).memory = store m.memory (linear m.ds currentDirentryIndex) 2
      (m.word m.ds currentDirentryIndex + 1).toNat := by
    simp only [deNext, Machine.setWord, setLow_toUInt16]
  exact left.stored rfl rfl rfl rfl rfl memory (by decide) (by decide)

theorem deAddress_leaves (left : Left start place m) : Left start place (deAddress m) := by
  obtain ⟨v, w, memory⟩ : ∃ v w, (deAddress m).memory =
      store (store m.memory (linear m.ds currentDirentryOffset) 2 v) (linear m.ds currentDirentryAddr) 2 w := by
    simp only [deAddress, Machine.setWord]
    exact ⟨_, _, rfl⟩
  have offset_ : Left start place { m with memory := store m.memory (linear m.ds currentDirentryOffset) 2 v } :=
    left.stored rfl rfl rfl rfl rfl rfl (by decide) (by decide)
  exact offset_.stored rfl rfl rfl rfl rfl memory (by decide) (by decide)

/-! ### The labels -/

variable {r : Place ⊕ Unit}

/-- The place that a jump leads to; behind the last one, `_step_6` has the stack of `_outer_loop`. -/
def reached (r : Place ⊕ Unit) : Place := r.elim id fun _ => .outerLoop

theorem outerLoop_leaves (bios : LoadsSectors int13 drive disk) (back : Nat → UInt16)
    (device_ : start.memory 0x510 = drive)
    (left : Left start .outerLoop m) (ran : search int13 int10 back kernelStr .outerLoop m = .ok r m') :
    Left start (reached r) m' := by
  have zoned := lkZone_leaves left
  rw [search, modify_bind, get_bind] at ran
  generalize lkZone m = m₁ at ran zoned
  split at ran
  · cases ran
  obtain ⟨u, mid, called, rest⟩ := bind_ok_iff.mp ran
  obtain ⟨spared, sp⟩ := callLoadZone_spares bios zoned.ds zoned.ss zoned.sp
    ((zoned.away _ (.inl (by decide))).trans device_) called
  have here : Left start .innerLoop mid := zoned.keep spared sp fun other => by cases other
  rw [modify_bind] at rest
  obtain ⟨rfl, rfl⟩ := pure_ok_iff.mp rest
  exact here.stored rfl rfl rfl rfl rfl rfl (by decide) (by decide)

theorem pushes_spare (ss : m.ss = 0) (sp : m.sp = stackTop) (a b c : UInt16) :
    Spared m (((m.push a).push b).push c) ∧ (((m.push a).push b).push c).sp = 0xffa := by
  obtain ⟨down, -, -, away⟩ := frame_pushed ss sp a b c
  exact ⟨⟨rfl, rfl, rfl, fun x _ _ stack => away x (by omega)⟩, down⟩

theorem innerLoop_leaves (int13 int10 : Machine σ → Machine σ) (back : Nat → UInt16) (left : Left start .innerLoop m)
    (ran : search int13 int10 back kernelStr .innerLoop m = .ok r m') : Left start (reached r) m' := by
  have addressed := deAddress_leaves left
  rw [search, modify_bind, modify_bind, get_bind] at ran
  have offset_ : Left start .innerLoop (deOffset (deAddress m)) := addressed.registers rfl rfl rfl rfl rfl rfl
  generalize deOffset (deAddress m) = m₁ at ran offset_
  split at ran
  · cases ran
  rw [modify_bind, get_bind] at ran
  have loaded : Left start .innerLoop (deLoad m₁) := offset_.registers rfl rfl rfl rfl rfl rfl
  generalize deLoad m₁ = m₂ at ran loaded
  split at ran
  · obtain ⟨rfl, rfl⟩ := pure_ok_iff.mp ran
    exact { loaded with bp := fun other => by cases other }
  · rw [modify_bind, modify_bind, modify_bind] at ran
    obtain ⟨rfl, rfl⟩ := pure_ok_iff.mp ran
    have three := pushes_spare (m := { m₂ with eax := setLow m₂.eax (m₂.eax.toUInt16 + 2) }) loaded.ss loaded.sp
      (setLow m₂.eax (m₂.eax.toUInt16 + 2)).toUInt16 kernelStr (back 4)
    change Spared _ (((dePushName m₂).push kernelStr).push (back 4)) ∧
      (((dePushName m₂).push kernelStr).push (back 4)).sp = _ at three
    obtain ⟨spared, sp⟩ := three
    have ss : (((dePushName m₂).push kernelStr).push (back 4)).ss = 0 := spared.ss.trans loaded.ss
    generalize ((dePushName m₂).push kernelStr).push (back 4) = m₃ at spared sp ss ⊢
    obtain ⟨pushed, down, -⟩ := push_spares ss (by rw [sp]; decide) (by rw [sp]; decide) m₃.bp
    have entered : Spared (m₃.push m₃.bp) (stEnter m₃) := .of_eq rfl rfl rfl rfl
    have named : Spared m₂ { m₂ with eax := setLow m₂.eax (m₂.eax.toUInt16 + 2) } := .of_eq rfl rfl rfl rfl
    refine loaded.keep (named.trans (spared.trans (pushed.trans entered))) ?_ fun other => by cases other
    change (m₃.push m₃.bp).sp = 0xff8
    rw [down, sp]
    rfl

theorem compared_leaves {ax : UInt16} (left : Left start .strcmpLoop m) (ran : compared ax m = .ok r m') :
    Left start (reached r) m' := by
  have sp : (stDone ax m).sp = stackTop := by
    change m.sp + 2 + 2 + 4 = stackTop
    rw [left.sp]
    rfl
  have done : Spared m (stDone ax m) := .of_eq rfl rfl rfl rfl
  unfold compared at ran
  rw [modify_bind, get_bind] at ran
  split at ran
  all_goals
    obtain ⟨rfl, rfl⟩ := pure_ok_iff.mp ran
    exact left.keep done sp fun other => by cases other

theorem strcmpLoop_leaves (int13 int10 : Machine σ → Machine σ) (back : Nat → UInt16) (left : Left start .strcmpLoop m)
    (ran : search int13 int10 back kernelStr .strcmpLoop m = .ok r m') : Left start (reached r) m' := by
  have loaded : Left start .strcmpLoop (stLoad m) := left.registers rfl rfl rfl rfl rfl rfl
  rw [search, modify_bind, get_bind] at ran
  generalize stLoad m = m₁ at ran loaded
  split at ran
  · exact compared_leaves loaded ran
  split at ran
  · exact compared_leaves loaded ran
  split at ran
  · exact compared_leaves loaded ran
  · rw [modify_bind] at ran
    obtain ⟨rfl, rfl⟩ := pure_ok_iff.mp ran
    exact loaded.registers rfl rfl rfl rfl rfl rfl

theorem psEnter_spares (ss : (m.push m.bp).ss = 0) (sp : (m.push m.bp).sp = 0xffa) :
    Spared (m.push m.bp) (psEnter m) ∧ (psEnter m).sp = 0xff8 ∧ (psEnter m).bp = 0xffa := by
  have entered : ∃ v a, psEnter m = Machine.setWord
      { m.push m.bp with bp := (m.push m.bp).sp, sp := (m.push m.bp).sp - 2, eax := a }
      (m.push m.bp).ss ((m.push m.bp).sp - 2) v := ⟨_, _, rfl⟩
  obtain ⟨v, a, code⟩ := entered
  rw [code]
  generalize m.push m.bp = m₁ at ss sp
  have stored := setWord_spares (m := { m₁ with bp := m₁.sp, sp := m₁.sp - 2, eax := a }) (m₁.sp - 2) ss
    (by rw [sp]; decide) (by rw [sp]; decide) v
  refine ⟨⟨stored.ds, stored.es, stored.ss, stored.away⟩, ?_, sp⟩
  change m₁.sp - 2 = 0xff8
  rw [sp]
  rfl

theorem innerLoopContinue_leaves (int13 int10 : Machine σ → Machine σ) (back : Nat → UInt16)
    (left : Left start .innerLoopContinue m)
    (ran : search int13 int10 back kernelStr .innerLoopContinue m = .ok r m') : Left start (reached r) m' := by
  have loaded : Left start .innerLoopContinue (deLoad m) := left.registers rfl rfl rfl rfl rfl rfl
  rw [search, modify_bind, modify_bind, modify_bind] at ran
  generalize deLoad m = m₁ at ran loaded
  obtain ⟨rfl, rfl⟩ := pure_ok_iff.mp ran
  have named : Spared m₁ { m₁ with eax := setLow m₁.eax (m₁.eax.toUInt16 + 2) } := .of_eq rfl rfl rfl rfl
  have three := pushes_spare (m := { m₁ with eax := setLow m₁.eax (m₁.eax.toUInt16 + 2) }) loaded.ss loaded.sp
    (setLow m₁.eax (m₁.eax.toUInt16 + 2)).toUInt16 (back 5) m₁.bp
  change Spared _ (((dePushName m₁).push (back 5)).push ((dePushName m₁).push (back 5)).bp) ∧
    (((dePushName m₁).push (back 5)).push ((dePushName m₁).push (back 5)).bp).sp = _ at three
  obtain ⟨spared, sp⟩ := three
  obtain ⟨entered, sp', bp'⟩ := psEnter_spares (spared.ss.trans loaded.ss) sp
  exact loaded.keep (named.trans (spared.trans entered)) sp' fun _ => bp'

/-- `print_str` goes on to the next character. -/
theorem psNext_spares (ss : m.ss = 0) (bp : m.bp = 0xffa) :
    Spared m (psNext m) ∧ (psNext m).sp = m.sp ∧ (psNext m).bp = m.bp := by
  have stored := setWord_spares (m := { m with
    eax := setLow (setLow m.eax (m.word m.ss (m.bp - 2))) ((setLow m.eax (m.word m.ss (m.bp - 2))).toUInt16 + 1) })
    (m.bp - 2) ss (by rw [bp]; decide) (by rw [bp]; decide)
    (setLow (setLow m.eax (m.word m.ss (m.bp - 2))) ((setLow m.eax (m.word m.ss (m.bp - 2))).toUInt16 + 1)).toUInt16
  exact ⟨⟨stored.ds, stored.es, stored.ss, stored.away⟩, rfl, rfl⟩

theorem printed_leaves (left : Left start .printStrLoop m) (ran : printed m = .ok r m') :
    Left start (reached r) m' := by
  have sp : ((psDone m).addSp 2).sp = stackTop := by
    change m.sp + 2 + 2 + 2 + 2 = stackTop
    rw [left.sp]
    rfl
  have done : Spared m ((psDone m).addSp 2) := .of_eq rfl rfl rfl rfl
  have next : Left start .innerLoop (deNext ((psDone m).addSp 2)) :=
    deNext_leaves (left.keep done sp fun other => by cases other)
  unfold printed at ran
  rw [modify_bind, modify_bind, get_bind] at ran
  generalize deNext ((psDone m).addSp 2) = m₁ at ran next
  split at ran
  · rw [modify_bind] at ran
    obtain ⟨rfl, rfl⟩ := pure_ok_iff.mp ran
    exact { lkNext_leaves next with bp := fun other => by cases other }
  · obtain ⟨rfl, rfl⟩ := pure_ok_iff.mp ran
    exact next

theorem printStrLoop_leaves (video : PrintsOnly int10) (int13 : Machine σ → Machine σ) (back : Nat → UInt16)
    (left : Left start .printStrLoop m)
    (ran : search int13 int10 back kernelStr .printStrLoop m = .ok r m') : Left start (reached r) m' := by
  have char : Left start .printStrLoop (psChar m) := left.registers rfl rfl rfl rfl rfl rfl
  rw [search, modify_bind, get_bind] at ran
  generalize psChar m = m₁ at ran char
  split at ran
  · exact printed_leaves char ran
  rw [modify_bind, modify_bind, modify_bind] at ran
  obtain ⟨rfl, rfl⟩ := pure_ok_iff.mp ran
  have ah := psTeletype_ah m₁
  have asked : Left start .printStrLoop (psTeletype m₁) := char.registers rfl rfl rfl rfl rfl rfl
  generalize psTeletype m₁ = m₂ at ah asked ⊢
  obtain ⟨bp, sp, ds, ss⟩ := video.kept m₂ ah
  have printed_ : Left start .printStrLoop (int10 m₂) :=
    ⟨ds.trans asked.ds, ss.trans asked.ss, (video.es m₂ ah).trans asked.es, sp.trans asked.sp,
      fun in_ => bp.trans (asked.bp in_), fun x own => (video.memory m₂ ah x (by
        left
        unfold Own at own
        omega)).trans (asked.away x own)⟩
  obtain ⟨spared, sp', bp'⟩ := psNext_spares printed_.ss (printed_.bp rfl)
  exact printed_.keep spared (sp'.trans printed_.sp) fun in_ => bp'.trans (printed_.bp in_)

/-- Every jump of the search. -/
theorem search_leaves (bios : LoadsSectors int13 drive disk) (video : PrintsOnly int10) (back : Nat → UInt16)
    (device_ : start.memory 0x510 = drive) (left : Left start place m)
    (ran : search int13 int10 back kernelStr place m = .ok r m') : Left start (reached r) m' := by
  cases place with
  | outerLoop => exact outerLoop_leaves bios back device_ left ran
  | innerLoop => exact innerLoop_leaves int13 int10 back left ran
  | strcmpLoop => exact strcmpLoop_leaves int13 int10 back left ran
  | innerLoopContinue => exact innerLoopContinue_leaves int13 int10 back left ran
  | printStrLoop => exact printStrLoop_leaves video int13 back left ran

/-- A search that gets to `_step_6` leaves the loader's own memory, the segments and the stack as they were. -/
theorem search_returns (bios : LoadsSectors int13 drive disk) (video : PrintsOnly int10) (back : Nat → UInt16)
    (ds : m.ds = 0) (ss : m.ss = 0) (sp : m.sp = stackTop) (device_ : m.memory 0x510 = drive)
    (found : Searches int13 int10 back kernelStr m (.ok () m')) :
    m'.ds = 0 ∧ m'.ss = 0 ∧ m'.es = m.es ∧ m'.sp = stackTop ∧ ∀ x, Own x → m'.memory x = m.memory x := by
  have here : Left m .outerLoop m := ⟨ds, ss, rfl, sp, (fun other => by cases other), fun _ _ => rfl⟩
  have begun : Left m .outerLoop (m.setWord m.ds currentZoneIndex 0) :=
    here.stored rfl rfl rfl rfl rfl rfl (by decide) (by decide)
  have last := Ends.invariant (fun place n => Left m place n) (fun _ n => Left m .outerLoop n)
    (fun place n place' n' left step => search_leaves bios video back device_ left step)
    (fun place n _ n' left step => search_leaves bios video back device_ left step) begun found
  exact ⟨last.ds, last.ss, last.es, last.sp, last.away⟩

end AtaKernel.Boot
