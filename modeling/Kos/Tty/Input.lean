import Kos.Lib.Word
import Kos.Tty.Screen

/-!
# The input of a terminal

The input half of `kernel/tty.c`. Keys are collected in `inbuf`; in the normal mode a line ends with a NUL, and `eotcount` counts the
lines. Reads that cannot be answered wait in `requests`, a list that is only used as a queue. The terminal is the current one, and the
character of a key is already looked up in the keymap. What becomes of the process that reads is left out: an answer is the number
returned and the bytes put into its buffer.

An access outside `inbuf` is a `TtyFault`.
-/

namespace Kos

/-- `TTY_INBUF_SIZE`. -/
abbrev ttyInbufSize : Nat := 256

def ttyEcho : UInt8 := 1

def ttyRaw : UInt8 := 2

/-- `EOT`. -/
abbrev eot : UInt8 := 0xFF

/-- A store or a load outside `inbuf`, at an index. -/
inductive TtyFault where
  | store (i : Nat)
  | load (i : Nat)
  deriving DecidableEq, Repr

/-- What `struct request` has of a read. -/
structure Request where
  buffer : Nat
  buflen : Nat
  deriving DecidableEq, Repr

/-- What a read gets: the number that it returns, and the bytes put into its buffer. -/
structure Answer where
  request : Request
  result : Nat
  data : List UInt8
  deriving DecidableEq, Repr

/-- `struct tty`. -/
structure Tty where
  screen : Screen
  inbuf : Nat → UInt8
  incount : Nat
  eotcount : Nat
  flags : UInt8
  requests : List Request

namespace Tty

def isRaw (tty : Tty) : Bool := tty.flags &&& ttyRaw ≠ 0

def putc (tty : Tty) (c : UInt8) : Tty := { tty with screen := tty.screen.putc c }

/-- `inbuf[incount++] = c`. -/
def store (tty : Tty) (c : UInt8) : Except TtyFault Tty :=
  if tty.incount < ttyInbufSize then
    .ok { tty with inbuf := Function.update tty.inbuf tty.incount c, incount := w32 (tty.incount + 1) }
  else .error (.store tty.incount)

/-- The first `n` bytes of `inbuf`. -/
def bytes (tty : Tty) (n : Nat) : List UInt8 := (List.range n).map tty.inbuf

/-- `strlen(tty->inbuf)`. -/
def strlen (tty : Tty) : Except TtyFault Nat :=
  match (List.range ttyInbufSize).find? (fun i => tty.inbuf i == 0) with
  | some n => .ok n
  | none => .error (.load ttyInbufSize)

end Tty

def enoughData (tty : Tty) (wanted : Nat) : Bool := if tty.isRaw then tty.incount ≥ wanted else tty.eotcount > 0

/-- `copy_data`: the number of bytes, and what is put into the buffer. -/
def copyData (tty : Tty) (size : Nat) : Except TtyFault (Nat × List UInt8) :=
  if tty.isRaw then
    if size ≤ ttyInbufSize then .ok (size, tty.bytes size) else .error (.load ttyInbufSize)
  else do
    let n ← tty.strlen
    .ok (n, tty.bytes n ++ [0])

def removeData (tty : Tty) (count : Nat) : Except TtyFault Tty :=
  let count := if tty.isRaw then count else count + 1
  if count ≤ ttyInbufSize then
    .ok { tty with
      inbuf := fun i => if i < ttyInbufSize - count then tty.inbuf (i + count) else tty.inbuf i
      incount := sub32 tty.incount count
      eotcount := if tty.isRaw then tty.eotcount else sub32 tty.eotcount 1 }
  else .error (.load count)

/-- A read is answered: `copy_data` and `remove_data`. -/
def answer (tty : Tty) (rq : Request) : Except TtyFault (Answer × Tty) := do
  let (count, data) ← copyData tty rq.buflen
  let tty ← removeData tty count
  .ok (⟨rq, count, data⟩, tty)

/-- `while (can_answer_rq(cur_tty)) answer_rq(cur_tty);`, for the requests that are waiting. -/
def answerRequests (tty : Tty) : List Request → Except TtyFault (List Answer × Tty)
  | [] => .ok ([], { tty with requests := [] })
  | rq :: rqs =>
    if enoughData tty rq.buflen then do
      let (a, tty) ← answer tty rq
      let (as, tty) ← answerRequests tty rqs
      .ok (a :: as, tty)
    else .ok ([], { tty with requests := rq :: rqs })

/-- `tty_read`: the answer, if there is one at once. -/
def ttyRead (tty : Tty) (rq : Request) : Except TtyFault (Option Answer × Tty) :=
  if enoughData tty rq.buflen then do
    let (a, tty) ← answer tty rq
    .ok (some a, tty)
  else .ok (none, { tty with requests := tty.requests ++ [rq] })

/-- The end of a line. -/
def endLine (tty : Tty) : Except TtyFault Tty := { tty with eotcount := w32 (tty.eotcount + 1) }.store 0

/-- `handle_cbreak_input`: `none` if the character is an ordinary one. -/
def handleCbreakInput (tty : Tty) (c : UInt8) : Except TtyFault (Option Tty) :=
  if c = 10 then do
    let tty ← (tty.putc 10).store 10
    let tty ← endLine tty
    .ok (some tty)
  else if c = eot then do
    let tty ← endLine tty
    .ok (some tty)
  else if c = 8 then
    if tty.incount > 0 then
      if tty.incount - 1 < ttyInbufSize then
        let tty := tty.putc 8
        .ok (some { tty with
          eotcount := if tty.inbuf (tty.incount - 1) = 0 then sub32 tty.eotcount 1 else tty.eotcount
          incount := tty.incount - 1 })
      else .error (.load (tty.incount - 1))
    else .ok (some tty)
  else .ok none

/-- An ordinary character. -/
def addInput (tty : Tty) (c : UInt8) : Except TtyFault Tty :=
  let tty := if tty.flags &&& ttyEcho ≠ 0 ∧ c ≠ eot then
    { tty with screen := (tty.screen.putc c).scrollToBottom } else tty
  tty.store c

/-- What a key does to `inbuf`. -/
def editInput (tty : Tty) (c : UInt8) : Except TtyFault Tty :=
  if tty.isRaw then addInput tty c
  else (handleCbreakInput tty c).bind fun done =>
    match done with
    | some tty => .ok tty
    | none => addInput tty c

/-- `handle_input`, for the character of the key: the reads that it answers. -/
def handleInput (tty : Tty) (c : UInt8) : Except TtyFault (List Answer × Tty) :=
  if c = 0 then .ok ([], tty)
  else if tty.incount = ttyInbufSize then .ok ([], tty)
  else if tty.isRaw ∧ c = eot then .ok ([], tty)
  else (editInput tty c).bind fun tty => answerRequests tty tty.requests

/-- A new terminal: `incount` and `eotcount` are 0, and nobody reads. -/
def newTty (screen : Screen) (inbuf : Nat → UInt8) (flags : UInt8) : Tty := ⟨screen, inbuf, 0, 0, flags, []⟩

end Kos
