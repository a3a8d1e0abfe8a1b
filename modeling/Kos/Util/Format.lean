import Kos.Lib.CString

/-!
# Formatting text

`lib/libutil/src/format.c`. What is written into the buffer is the list of its characters without the NUL at the end. The arguments are
the 32-bit words on the stack from the first one on (0 stands for what lies behind them), and `str` gives the string at an address. An
`int` is an integer between `-2 ^ 31` and `2 ^ 31 - 1`; operations on it wrap.
-/

namespace Kos

/-- The value an `int` holds after an operation whose exact result is `x`. -/
def int32 (x : Int) : Int := x.bmod 4294967296

/-- The table of digits as it is, with the NUL behind it. -/
def digits : List UInt8 :=
  ['0', '1', '2', '3', '4', '5', '6', '7', '8', '9', 'A', 'B', 'C', 'D', 'E', 'F', 'G', 'H', 'I', 'J', 'K', 'L', 'M', 'O', 'P', 'Q',
    'R', 'S', 'T', 'U', 'V', 'W', 'X', 'Y', 'Z'].map Char.toUInt8 ++ [0]

/-- `bufs`. -/
def bufs (str : CString) : List UInt8 := str.map (·.1)

/-- `bufsp`. -/
def bufsp (str : CString) (pad : Int) (padc : UInt8) : List UInt8 :=
  List.replicate (pad - int32 str.length).toNat padc ++ bufs str

/-- The first loop of `numfmt`, when there are `places` left in `tmp` before the digits that it has written: `none` if it needs more, or
reads behind the table. -/
def digitLoop (base : Nat) : Nat → Nat → List UInt8 → Option (List UInt8)
  | 0, _, _ => none
  | places + 1, num, tmp =>
    digits[num % base]?.bind fun digit =>
      if num / base > 0 then digitLoop base places (num / base) (digit :: tmp) else some (digit :: tmp)

/-- `numfmt` of a number that is not negative. -/
def numfmt (num base : Nat) (pad : Int) (pc : UInt8) : Option (List UInt8) :=
  if base < 2 ∨ base > 36 then some []
  else
    (digitLoop base 64 num []).map fun tmp =>
      List.replicate (int32 (pad - tmp.length)).toNat pc ++ tmp.takeWhile (· ≠ 0)

/-- A call of `numfmt`: what is written into the buffer, with the NUL, and what is returned. -/
def numfmtCall (num base : Nat) (pad : Int) (pc : UInt8) : Option (List UInt8 × Int) :=
  if base < 2 ∨ base > 36 then some ([], 0)
  else (numfmt num base pad pc).map fun text => (text ++ [0], int32 text.length)

/-- The argument of a number: the sign that is written first, what is left of `pad`, the value and the arguments behind. -/
def fetch (conv : UInt8) (pad : Int) (args : List (BitVec 32)) : List UInt8 × Int × Nat × List (BitVec 32) :=
  let arg := args.headD 0
  if conv = 'd'.toUInt8 ∨ conv = 'u'.toUInt8 then
    if arg.toInt < 0 then (['-'.toUInt8], int32 (pad - 1), (-arg.toInt).toNat, args.tail) else ([], pad, arg.toInt.toNat, args.tail)
  else if conv = 'i'.toUInt8 ∨ conv = 'o'.toUInt8 ∨ conv = 'p'.toUInt8 ∨ conv = 'x'.toUInt8 ∨ conv = 'b'.toUInt8 then
    ([], pad, arg.toNat, args.tail)
  else ([], pad, 0, args)

/-- What a conversion writes, and the arguments behind. -/
def convert (str : BitVec 32 → CString) (conv : UInt8) (pad : Int) (padc : UInt8) (args : List (BitVec 32)) :
    Option (List UInt8 × List (BitVec 32)) :=
  let (sign, pad, val, rest) := fetch conv pad args
  let number (base : Nat) (pad : Int) (padc : UInt8) := (numfmt val base pad padc).map fun text => (sign ++ text, rest)
  if conv = 'c'.toUInt8 then some ([UInt8.ofNat (args.headD 0).toNat], args.tail)
  else if conv = 'b'.toUInt8 then number 2 pad padc
  else if conv = 'd'.toUInt8 ∨ conv = 'i'.toUInt8 ∨ conv = 'u'.toUInt8 then number 10 pad padc
  else if conv = 'o'.toUInt8 then number 8 pad padc
  else if conv = 'p'.toUInt8 then
    (number 16 8 '0'.toUInt8).map fun (text, rest) => ('0'.toUInt8 :: 'x'.toUInt8 :: text, rest)
  else if conv = 'x'.toUInt8 then number 16 pad padc
  else if conv = 's'.toUInt8 then some (bufsp (str (args.headD 0)) pad padc, args.tail)
  else if conv = '%'.toUInt8 then some (['%'.toUInt8], rest)
  else some (['%'.toUInt8, conv], rest)

/-- Where `strafmt` is in the format. -/
inductive FmtPlace where
  | text
  /-- Behind a `%`; `first` if right behind it, where a `0` is a flag. -/
  | conv (first : Bool) (pad : Int) (padc : UInt8)
  deriving DecidableEq, Repr

/-- The loops of `strafmt`, for the rest of the format. `none` if it goes on behind the NUL: it takes the NUL for a conversion. -/
def strafmtFrom (str : BitVec 32 → CString) : FmtPlace → CString → List (BitVec 32) → Option (List UInt8)
  | .text, [], _ => some []
  | .text, c :: fmt, args =>
    if c.1 = '%'.toUInt8 then strafmtFrom str (.conv true 0 ' '.toUInt8) fmt args
    else (strafmtFrom str .text fmt args).map (c.1 :: ·)
  | .conv _ _ _, [], _ => none
  | .conv first pad padc, c :: fmt, args =>
    if first ∧ c.1 = '0'.toUInt8 then strafmtFrom str (.conv false pad '0'.toUInt8) fmt args
    else if '0'.toUInt8 ≤ c.1 ∧ c.1 ≤ '9'.toUInt8 then
      strafmtFrom str (.conv false (int32 (pad * 10 + c.1.toNat - 48)) padc) fmt args
    else
      (convert str c.1 pad padc args).bind fun (text, rest) => (strafmtFrom str .text fmt rest).map (text ++ ·)

/-- `strafmt`: the text and what is returned. -/
def strafmt (str : BitVec 32 → CString) (fmt : CString) (args : List (BitVec 32)) : Option (List UInt8 × Int) :=
  (strafmtFrom str .text fmt args).map fun text => (text, int32 text.length)

end Kos
