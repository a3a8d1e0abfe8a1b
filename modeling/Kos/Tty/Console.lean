import Kos.Tty.Screen

/-!
# The terminals and the video card

The other half of the output in `kernel/tty.c`: the current terminal is also written to video memory, and the video card gets the row at which
the screen starts. The cursor is left out.
-/

namespace Kos

/-- The video card: `vmem`, and the address in its registers at which the screen starts. -/
structure Video where
  vmem : Nat → UInt16
  start : Nat

/-- A terminal with the video card, and whether the terminal is `cur_tty`. -/
structure View where
  screen : Screen
  video : Video
  shown : Bool

namespace View

/-- `if (tty == cur_tty) set_start_line(tty->outstart);`. -/
def setStartLine (v : View) : View := if v.shown then { v with video := { v.video with start := v.screen.outstart * ttyScreenX } } else v

def write (v : View) (c : UInt8) : View where
  screen := v.screen.write c
  video := if v.shown then { v.video with vmem := Function.update v.video.vmem v.screen.cpos (v.screen.cell c) } else v.video
  shown := v.shown

/-- What `scroll` does to video memory: its rows go up by one. -/
def shiftVmem (v : View) : View :=
  if (v.screen.outstart + 1) % 256 > conMaxStartLine ∧ v.shown = true then
    { v with video := { v.video with vmem := { v.screen with outbuf := v.video.vmem }.shiftUp } }
  else v

def scroll (v : View) : View := { v.shiftVmem with screen := v.screen.scroll }.setStartLine

def scrollWhile : Nat → View → View
  | 0, v => v
  | n + 1, v => if v.screen.screenY ≥ ttyScreenY then scrollWhile n v.scroll else v

def finish (v : View) : View :=
  let v := if v.screen.x ≥ ttyScreenX then { v with screen := { v.screen with y := (v.screen.y + 1) % 256, x := 0 } } else v
  scrollWhile v.screen.screenY v

def putChar (v : View) (c : UInt8) : View :=
  let v' := v.write c
  finish { v' with screen := { v'.screen with x := (v.screen.x + 1) % 256 } }

def putTab : Nat → View → View
  | 0, v => v
  | n + 1, v =>
    let v := v.putChar 32
    if v.screen.x % 7 ≠ 0 then putTab n v else v

def putc (v : View) (c : UInt8) : View :=
  if c = 10 then finish { v with screen := { v.screen with x := 0, y := (v.screen.y + 1) % 256, screenY := (v.screen.screenY + 1) % 256 } }
  else if c = 13 then finish { v with screen := { v.screen with x := 0 } }
  else if c = 8 then finish (if v.screen.x ≥ 1 then write { v with screen := { v.screen with x := v.screen.x - 1 } } 32 else v)
  else if c = 9 then finish (putTab 7 v)
  else v.putChar c

/-- `flush`. -/
def flush (v : View) : View :=
  if v.shown then
    { v with video := { v.video with vmem := fun i => if i < conMemChars then v.screen.outbuf i else v.video.vmem i } }.setStartLine
  else v

end View

/-- `putc`, and the functions for the keys that scroll. -/
def View.exec (v : View) : ScreenCall → View
  | .putc c => v.putc c
  | .lineUp => if v.screen.outstart ≠ 0 then { v with screen := v.screen.scrollLineUp }.setStartLine else v
  | .lineDown => if v.screen.outstart < conMaxStartLine then { v with screen := v.screen.scrollLineDown }.setStartLine else v
  | .toTop => { v with screen := v.screen.scrollToTop }.setStartLine
  | .toBottom => { v with screen := v.screen.scrollToBottom }.setStartLine

/-- `ttys`, with that of `kout` behind them, `cur_tty`, and the video card. -/
structure Console where
  ttys : Nat → Screen
  cur : Nat
  video : Video

/-- A call for a terminal (that of a key is for the current one), or the user changes to another one. -/
inductive ConsoleCall where
  | tty (n : Nat) (call : ScreenCall)
  | select (n : Nat)

/-- `select_tty`. -/
def Console.select (c : Console) (n : Nat) : Console := { c with cur := n, video := (View.mk (c.ttys n) c.video true).flush.video }

def ConsoleCall.exec (c : Console) : ConsoleCall → Console
  | tty n call =>
    let v := View.exec ⟨c.ttys n, c.video, decide (n = c.cur)⟩ call
    { c with ttys := Function.update c.ttys n v.screen, video := v.video }
  | select n => c.select n

/-- The terminals without a video card. -/
structure Terminals where
  ttys : Nat → Screen
  cur : Nat

def Terminals.step (s : Terminals) : ConsoleCall → Terminals
  | .tty n call => { s with ttys := Function.update s.ttys n (call.exec (s.ttys n)) }
  | .select n => { s with cur := n }

end Kos
