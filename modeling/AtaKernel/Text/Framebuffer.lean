import AtaKernel.Text.Formats

/-! The driver of the framebuffer, fb.c. The video memory is a row of bytes from
`fb_base_addr` on, a cell with its character at an even offset and its color behind
it; stores to it and writes to ports are also kept in a trace. -/
namespace AtaKernel.Text
open CString

inductive Access
  /-- `fb_base_addr[offset] = value` -/
  | store (offset : Nat) (value : UInt8)
  | outb (port : UInt16) (value : UInt8)
  deriving DecidableEq

structure Framebuffer where
  pos : UInt16
  cur : UInt16
  col : UInt8
  video : Nat → UInt8
  /-- The latest first. -/
  trace : List Access

/-- The variables are zeros ahead of the first call. -/
def Framebuffer.started (video : Nat → UInt8) : Framebuffer := ⟨0, 0, 0, video, []⟩

def fbCols : Nat := 80
def fbRows : Nat := 25

def vgaCrtAddrPort : UInt16 := 0x03d4
def vgaCrtDataPort : UInt16 := 0x03d5
def vgaCrtCursorLocationHighRegister : UInt8 := 0x0e
def vgaCrtCursorLocationLowRegister : UInt8 := 0x0f

def fbColorBlack : UInt8 := 0
def fbColorWhite : UInt8 := 15

def fbPackColors (fg bg : UInt8) : UInt8 := (fg &&& (0x0f : UInt8)) ||| (bg <<< (4 : UInt8))
def fbBgColor (pc : UInt8) : UInt8 := pc >>> 4
def fbFgColor (pc : UInt8) : UInt8 := pc &&& 0x0f

/-- `FB_COORDS` -/
def fbCoords (r c : UInt8) : UInt16 := UInt16.ofNat (r.toNat * fbCols + c.toNat)
/-- `FB_ROW` -/
def fbRowOf (coord : UInt16) : UInt8 := UInt8.ofNat (coord.toNat / fbCols)
/-- `FB_COL` -/
def fbColOf (coord : UInt16) : UInt8 := UInt8.ofNat (coord.toNat % fbCols)

namespace Framebuffer

def store (fb : Framebuffer) (offset : Nat) (value : UInt8) : Framebuffer :=
  { fb with video := Function.update fb.video offset value, trace := .store offset value :: fb.trace }

def outb (fb : Framebuffer) (port : UInt16) (value : UInt8) : Framebuffer :=
  { fb with trace := .outb port value :: fb.trace }

def fbReset (fb : Framebuffer) : Framebuffer :=
  { fb with pos := fbCoords 0 0, cur := fbCoords 0 0, col := fbPackColors fbColorWhite fbColorBlack }

def fbSetFgColor (fb : Framebuffer) (fg : UInt8) : Framebuffer :=
  if fg > fbColorWhite then fb else { fb with col := fbPackColors fg (fbBgColor fb.col) }

def fbSetBgColor (fb : Framebuffer) (bg : UInt8) : Framebuffer :=
  if bg > fbColorWhite then fb else { fb with col := fbPackColors (fbFgColor fb.col) bg }

def fbRow (fb : Framebuffer) : UInt8 := fbRowOf fb.pos
def fbCol (fb : Framebuffer) : UInt8 := fbColOf fb.pos

def fbSetPos (fb : Framebuffer) (r c : UInt8) : Framebuffer :=
  if r.toNat < fbRows ∧ c.toNat < fbCols then { fb with pos := fbCoords r c } else fb

/-- The four writes of `fb_set_cur`. -/
def programCursor (fb : Framebuffer) : Framebuffer :=
  (((fb.outb vgaCrtAddrPort vgaCrtCursorLocationHighRegister).outb vgaCrtDataPort (fb.cur >>> 8).toUInt8).outb
    vgaCrtAddrPort vgaCrtCursorLocationLowRegister).outb vgaCrtDataPort fb.cur.toUInt8

def fbSetCur (fb : Framebuffer) (r c : UInt8) : Framebuffer :=
  if r.toNat < fbRows ∧ c.toNat < fbCols then { fb with cur := fbCoords r c }.programCursor else fb

def fbSyncCur (fb : Framebuffer) : Framebuffer := fb.fbSetCur fb.fbRow fb.fbCol

/-- The two stores of a cell. -/
def put (fb : Framebuffer) (c : UInt8) : Framebuffer :=
  (fb.store (fb.pos.toNat * 2) c).store (fb.pos.toNat * 2 + 1) fb.col

/-- A round of `fb_write`. -/
def advance (fb : Framebuffer) (c : UInt8) : Framebuffer :=
  let fb := fb.put c
  { fb with pos := UInt16.ofNat ((fb.pos.toNat + 1) % (fbCols * fbRows)) }

/-- The rest of the loop of `fb_write`, with what lies at `str + i` and the rounds up to `len`. -/
def fbWriteLoop : Nat → List UInt8 → Framebuffer → Option Framebuffer
  | 0, _, fb => some fb
  | _ + 1, [], _ => none
  | rounds + 1, c :: str, fb => if c = 0 then some fb else fbWriteLoop rounds str (fb.advance c)

def fbWrite (fb : Framebuffer) (str : List UInt8) (len : UInt32) : Option Framebuffer :=
  fbWriteLoop len.toNat str fb

/-- `for (; pos < FB_COLS * FB_ROWS; pos ++)`, in at most `rounds` rounds. -/
def fbClearLoop : Nat → Framebuffer → Framebuffer
  | 0, fb => fb
  | rounds + 1, fb =>
    if fb.pos.toNat < fbCols * fbRows then
      let fb := fb.put ' '.toUInt8
      fbClearLoop rounds { fb with pos := fb.pos + 1 }
    else fb

def fbClear (fb : Framebuffer) : Framebuffer :=
  ((fbClearLoop (fbCols * fbRows) { fb with pos := 0 }).fbSetPos 0 0).fbSetCur 0 0

/-! ## fb_printf -/

/-- A round of `fb_printf`. What `s` points to is not looked at: `buf` is written. -/
def fbPrintfRound (c : UInt8) (fmt : List UInt8) (p : Printing Framebuffer) :
    Option (Turn (Int32 × Framebuffer) (Printing Framebuffer)) :=
  if p.inPlaceholder = false then
    if c = '%'.toUInt8 then some (.go fmt { p with inPlaceholder := true })
    else if c = '\n'.toUInt8 then
      let r := UInt8.ofNat ((p.out.fbRow.toNat + 1) % fbRows)
      some (.go fmt { p with out := p.out.fbSetPos r 0, count := p.count + 1 })
    else if c = '\r'.toUInt8 then
      some (.go fmt { p with out := p.out.fbSetPos p.out.fbRow 0, count := p.count + 1 })
    else do
      let out ← p.out.fbWrite (c :: fmt) 1
      some (.go fmt { p with out, count := p.count + 1 })
  else do
    match ← placeholder c fmt p.v p.buf with
    | .badFormat => some (.leave (-1, p.out.fbSyncCur))
    | .text _ buf fmt v =>
      let len ← strlen buf
      let out ← p.out.fbWrite buf len
      some (.go fmt ⟨false, v, buf, p.count + len, out⟩)

/-- `fb_printf`, with what lies in the local buffer and above it on the stack. -/
def fbPrintf (fb : Framebuffer) (fmt : List UInt8) (v : VaList) (buf : List UInt8) : Option (Int32 × Framebuffer) :=
  readText fbPrintfRound (fun p => (p.count.toInt32, p.out.fbSyncCur)) fmt.length fmt ⟨false, v, buf, 0, fb⟩

/-! ## Rounds of fb_printf -/

variable {c : UInt8} {fmt fmt' buf own : List UInt8} {v v' : VaList} {count len : UInt32} {fb fb' : Framebuffer}

theorem fbPrintfRound_bad (bad : placeholder c fmt v buf = some .badFormat) :
    fbPrintfRound c fmt ⟨true, v, buf, count, fb⟩ = some (.leave (-1, fb.fbSyncCur)) := by
  rw [fbPrintfRound, if_neg (by simp), bad]
  rfl

theorem fbPrintfRound_text {s : Pointed} (ran : placeholder c fmt v buf = some (.text s own fmt' v'))
    (long : strlen own = some len) (wrote : fb.fbWrite own len = some fb') :
    fbPrintfRound c fmt ⟨true, v, buf, count, fb⟩ = some (.go fmt' ⟨false, v', own, count + len, fb'⟩) := by
  rw [fbPrintfRound, if_neg (by simp), ran]
  simp only [Option.bind_eq_bind, Option.bind_some, long, wrote]

theorem fbPrintfRound_literal (percent : c ≠ '%'.toUInt8) (newline : c ≠ '\n'.toUInt8) (return_ : c ≠ '\r'.toUInt8)
    (wrote : fb.fbWrite (c :: fmt) 1 = some fb') :
    fbPrintfRound c fmt ⟨false, v, buf, count, fb⟩ = some (.go fmt ⟨false, v, buf, count + 1, fb'⟩) := by
  rw [fbPrintfRound, if_pos rfl, if_neg percent, if_neg newline, if_neg return_]
  simp only [wrote, Option.bind_eq_bind, Option.bind_some]

end Framebuffer

end AtaKernel.Text
