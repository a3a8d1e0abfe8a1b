import Kos.Errno
import Kos.Lib.CString

/-!
# Parameters of the kernel

`kernel/params.c`: the command line of the kernel is cut into parameters in place, and the handler of each is called from a table. The
buffer with the command line is the list of its bytes, a pointer into it an index, and `none` stands for a read outside. What the
handlers change, which is not the command line, is a state of any type.
-/

namespace Kos

/-- The string at the beginning of some bytes. -/
def stringOf : List UInt8 → Option CString
  | [] => none
  | c :: bytes => if h : c = 0 then some [] else (stringOf bytes).map (⟨c, h⟩ :: ·)

/-- `struct parameter`: a handler gets its value, if there is one, and returns an error. -/
structure Parameter (σ : Type) where
  name : CString
  func : Option CString → σ → Int × σ

variable {σ : Type}

/-- `exec`. -/
def execParam (cmd : CString) (val : Option CString) : List (Parameter σ) → σ → Int × σ
  | [], s => (-enoent, s)
  | p :: params, s => if cmd = p.name then p.func val s else execParam cmd val params s

/-- The first loop of `next`, over the bytes from `cmdline[i]` on: `i` and `val_delim` at its end. -/
def scanParam : List UInt8 → Nat → Nat → Option (Nat × Nat)
  | [], _, _ => none
  | c :: bytes, i, valDelim =>
    if c = 0 then some (i, valDelim)
    else if c = 32 then some (i, valDelim)
    else scanParam bytes (i + 1) (if valDelim = 0 ∧ c = 61 then i else valDelim)

/-- `while (*next == ' ') next++;`, over the bytes from `next` on. -/
def skipBlanks : List UInt8 → Nat → Option Nat
  | [], _ => none
  | c :: bytes, next => if c = 32 then skipBlanks bytes (next + 1) else some next

/-- What `next` returns: `cmd` and `val`, the pointer to the next parameter, and the buffer afterwards. -/
structure NextParam where
  cmd : Nat
  val : Option Nat
  next : Nat
  buf : List UInt8
  deriving DecidableEq, Repr

/-- `next`. -/
def nextParam (buf : List UInt8) (cmdline : Nat) : Option NextParam := do
  let (i, valDelim) ← scanParam (buf.drop cmdline) 0 0
  let (buf, val) := if valDelim = 0 then (buf, none) else (buf.set (cmdline + valDelim) 0, some (cmdline + valDelim + 1))
  let c ← buf[cmdline + i]?
  let (buf, next) := if c ≠ 0 then (buf.set (cmdline + i) 0, cmdline + i + 1) else (buf, cmdline + i)
  let next ← skipBlanks (buf.drop next) next
  some ⟨cmdline, val, next, buf⟩

/-- What a handler finds at a pointer to a value, which can be the null pointer. -/
def valueAt (buf : List UInt8) : Option Nat → Option (Option CString)
  | none => some none
  | some val => (stringOf (buf.drop val)).map some

/-- The loop of `parse_params`, for this number of rounds: the error, the state that the handlers leave, and the buffer. It is `none`
also when the loop is not over by then. -/
def parseFrom (params : List (Parameter σ)) (noerror : Bool) : Nat → List UInt8 → Nat → σ → Option (Int × σ × List UInt8)
  | 0, _, _, _ => none
  | rounds + 1, buf, cmdline, s => do
    let c ← buf[cmdline]?
    if c = 0 then some (0, s, buf)
    else
      let r ← nextParam buf cmdline
      let cmd ← stringOf (r.buf.drop r.cmd)
      let val ← valueAt r.buf r.val
      let (err, s) := execParam cmd val params s
      if err ≠ 0 ∧ noerror then some (err, s, r.buf) else parseFrom params noerror rounds r.buf r.next s

def parseParams (buf : List UInt8) (params : List (Parameter σ)) (noerror : Bool) (s : σ) (rounds : Nat) :
    Option (Int × σ × List UInt8) := do
  let cmdline ← skipBlanks buf 0
  parseFrom params noerror rounds buf cmdline s

end Kos
