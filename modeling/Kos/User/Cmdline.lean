import Kos.Lib.CString

/-!
# The command line of a program

The shell joins the arguments of a command to one line (`build_cmd` in `programs/sh/util.c`), and the runtime of the program that it
starts cuts the line into arguments again (`__split` in `lib/libkos/init.c`, called by `__init`). `malloc` and `realloc` succeed, and
lengths do not overflow an `int`.
-/

namespace Kos

open CChar

/-- `ESC`: stands for a character of the line that `__extract` leaves out. -/
def CChar.esc : CChar := ⟨27, by decide⟩

/-- `build_cmd`: a blank follows every argument but the last. -/
def buildCmd : List CString → CString
  | [] => []
  | arg :: args => arg ++ (if args ≠ [] then [space] else []) ++ buildCmd args

/-- `__esccpy`: copies until the end of the string or `len` characters. A negative `len` never reaches 0. -/
def esccpy : CString → Int → CString
  | [], _ => []
  | c :: source, len =>
    if len = 0 then []
    else if c ≠ esc then c :: esccpy source (len - 1)
    else esccpy source (len - 1)

/-- `__extract` of `len` characters from `input[start]` on. -/
def extract (input : CString) (start : Nat) (len : Int) : CString := esccpy (input.drop start) len

/-- The variables of `__split`; `c` is the length of `argv`, which has room for `max` pointers. -/
structure Split where
  input : CString
  start : Nat
  inquot : Bool
  indquot : Bool
  escaped : Bool
  omitq : Nat
  argv : List CString
  max : Nat
  deriving DecidableEq, Repr

/-- The variables before the loop. -/
def Split.new (input : CString) : Split := ⟨input, 0, false, false, false, 0, [], 8⟩

/-- `argv[c++] = arg`, `none` if the array has no room for it. -/
def Split.store (s : Split) (arg : CString) : Option Split :=
  if s.argv.length < s.max then some { s with argv := s.argv ++ [arg] } else none

/-- The room for pointers before an argument of the loop is stored. -/
def Split.grow (s : Split) : Nat :=
  if s.argv.length ≥ s.max then (if s.max * 2 > s.argv.length then s.max * 2 else s.argv.length) else s.max

/-- White space outside quotes, at `i`, ends an argument. -/
def Split.space (s : Split) (i : Nat) : Option Split :=
  let stop : Int := if s.omitq ≠ 0 then i - 1 else i
  let start := if s.omitq ≠ 0 then s.start + 1 else s.start
  ({ s with start := i + 1, omitq := 0, max := s.grow } : Split).store (extract s.input start (stop - start))

/-- The body of the loop. -/
def Split.char (s : Split) (i : Nat) : Option Split :=
  s.input[i]?.bind fun cur =>
    if isspace cur ∧ ¬ (s.inquot ∨ s.indquot) then s.space i
    else if cur = dquot ∧ ¬ s.escaped then some { s with indquot := !s.indquot, omitq := s.omitq + 1 }
    else if cur = quot ∧ ¬ s.escaped then some { s with inquot := !s.inquot, omitq := s.omitq + 1 }
    else if cur = backslash then
      some { s with input := if ¬ s.escaped then s.input.set i esc else s.input, escaped := !s.escaped }
    else some { s with escaped := false }

/-- What follows the loop: the rest of the line is the last argument. The array grows to the `c` pointers that it holds already. -/
def Split.finish (s : Split) (len : Int) : Option Split :=
  let stop := if s.omitq > 1 then len - 1 else len
  let start := if s.omitq ≠ 0 then s.start + 1 else s.start
  ({ s with max := if s.argv.length ≥ s.max then s.argv.length else s.max } : Split).store (extract s.input start (stop - start))

/-- `__split`: the arguments, or `none` if it writes behind the end of its array. -/
def split (input : CString) : Option (List CString) :=
  (((List.range input.length).foldlM Split.char (.new input)).bind (·.finish input.length)).map (·.argv)

end Kos
