import Mathlib.Logic.Function.Basic

/-!
# The screen of a terminal

The output half of `kernel/tty.c`. `outbuf` has 204 rows and a bit, of which the screen shows 25 from the row `outstart` on; the
cursor is at the column `x` of the row `y`, and `screenY` is the row of the screen that it is counted to be on. These are 8-bit
counters. The copy of `outbuf` in video memory and the registers of the video card are left out.

Every write of a character is recorded with its index in `writes`, the last one first; a write behind the end of `outbuf` has no other
effect here.
-/

namespace Kos

/-- `CON_MEM_CHARS`. -/
abbrev conMemChars : Nat := 16384

/-- `CON_MAX_START_LINE`. -/
abbrev conMaxStartLine : Nat := 175

/-- `TTY_SCREEN_X`. -/
abbrev ttyScreenX : Nat := 80

/-- `TTY_SCREEN_Y`. -/
abbrev ttyScreenY : Nat := 25

/-- What `struct tty` has of output. -/
structure Screen where
  outbuf : Nat → UInt16
  outstart : Nat
  x : Nat
  y : Nat
  screenY : Nat
  status : UInt8
  writes : List Nat

namespace Screen

/-- `CPOS`. -/
def cpos (s : Screen) : Nat := s.x + s.y * ttyScreenX

/-- What is written for a character: a `char` is signed. -/
def cell (s : Screen) (c : UInt8) : UInt16 := UInt16.ofBitVec (c.toBitVec.signExtend 16) ||| s.status.toUInt16 <<< 8

/-- A character is written at the cursor. -/
def write (s : Screen) (c : UInt8) : Screen :=
  { s with outbuf := Function.update s.outbuf s.cpos (s.cell c), writes := s.cpos :: s.writes }

/-- All rows go up by one, and the last one becomes empty. -/
def shiftUp (s : Screen) : Nat → UInt16 := fun i =>
  if i < conMemChars - ttyScreenX then s.outbuf (i + ttyScreenX)
  else if i < conMemChars then s.cell 32
  else s.outbuf i

def scroll (s : Screen) : Screen :=
  let outstart := (s.outstart + 1) % 256
  let screenY := (s.screenY + 255) % 256
  if outstart > conMaxStartLine then
    { s with outbuf := s.shiftUp, outstart := (outstart + 255) % 256, y := (s.y + 255) % 256, screenY := screenY }
  else { s with outstart := outstart, screenY := screenY }

/-- `while (tty->screenY >= TTY_SCREEN_Y) scroll(tty);`. -/
def scrollWhile : Nat → Screen → Screen
  | 0, s => s
  | n + 1, s => if s.screenY ≥ ttyScreenY then scrollWhile n s.scroll else s

/-- The end of `putc`: a full row is left, and the screen scrolls; each scroll takes one from `screenY`. -/
def finish (s : Screen) : Screen :=
  let s := if s.x ≥ ttyScreenX then { s with y := (s.y + 1) % 256, x := 0 } else s
  scrollWhile s.screenY s

/-- The default case of `putc`. -/
def putChar (s : Screen) (c : UInt8) : Screen := finish { s.write c with x := (s.x + 1) % 256 }

/-- `do putc(tty, ' '); while (tty->x % 7);`. -/
def putTab : Nat → Screen → Screen
  | 0, s => s
  | n + 1, s =>
    let s := s.putChar 32
    if s.x % 7 ≠ 0 then putTab n s else s

/-- `putc`; a tab takes at most seven blanks. -/
def putc (s : Screen) (c : UInt8) : Screen :=
  if c = 10 then finish { s with x := 0, y := (s.y + 1) % 256, screenY := (s.screenY + 1) % 256 }
  else if c = 13 then finish { s with x := 0 }
  else if c = 8 then finish (if s.x ≥ 1 then write { s with x := s.x - 1 } 32 else s)
  else if c = 9 then finish (putTab 7 s)
  else s.putChar c

def scrollLineUp (s : Screen) : Screen := if s.outstart ≠ 0 then { s with outstart := s.outstart - 1 } else s

def scrollLineDown (s : Screen) : Screen := if s.outstart < conMaxStartLine then { s with outstart := s.outstart + 1 } else s

def scrollToTop (s : Screen) : Screen := { s with outstart := 0 }

def scrollToBottom (s : Screen) : Screen := { s with outstart := if s.y > 24 then s.y - 24 else 0 }

end Screen

/-- The screen of a new terminal: the memory of the counters is all zero, and `clear` fills `outbuf`. -/
def newScreen (status : UInt8) : Screen where
  outbuf i := if i < conMemChars then (32 : UInt16) ||| status.toUInt16 <<< 8 else 0
  outstart := 0
  x := 0
  y := 0
  screenY := 0
  status := status
  writes := []

/-- What is done to a screen: a character is written to it, or the user scrolls it. -/
inductive ScreenCall where
  | putc (c : UInt8)
  | lineUp
  | lineDown
  | toTop
  | toBottom
  deriving DecidableEq

def ScreenCall.exec (s : Screen) : ScreenCall → Screen
  | putc c => s.putc c
  | lineUp => s.scrollLineUp
  | lineDown => s.scrollLineDown
  | toTop => s.scrollToTop
  | toBottom => s.scrollToBottom

end Kos
