import AtaKernel.Text.FramebufferCalls

/-! What the screen shows behind a clear and a write, and how `kernel_panic` of
kernel.c leaves it: the message in white on red, and nothing else. -/
namespace AtaKernel.Text
open CString Framebuffer

def fbColorRed : UInt8 := 4

/-- What `kernel_panic` leaves on the screen before it halts. -/
def kernelPanic (msg : List UInt8) (fb : Framebuffer) : Option Framebuffer := do
  let fb := ((fb.fbSetFgColor fbColorWhite).fbSetBgColor fbColorRed).fbClear
  let len ← strlen msg
  fb.fbWrite msg len

/-- The screen shows the text and then blanks, all in one color. -/
def Shows (text : List UInt8) (col : UInt8) (fb : Framebuffer) : Prop :=
  ∀ k < 2000, fb.cell k = (text.getD k ' '.toUInt8, col)

variable {fb fb' : Framebuffer} {k n : Nat} {text : List UInt8}

/-! ## Clearing -/

end AtaKernel.Text
