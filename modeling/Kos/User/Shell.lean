import Kos.User.Cmdline

/-!
# The lines of the shell

`programs/sh/util.c`: a line that was typed is trimmed (`prepare`), and cut into the arguments of a command (`split_cmd`). `esccpy` and
`extract` are those of `__split`, and so are the variables of the loop; the arguments go into an array of 256 pointers that does not
grow. Lengths do not overflow an `int`, and `malloc` succeeds.
-/

namespace Kos

open CChar

/-- `trim_left`. -/
def trimLeft : CString → CString
  | [] => []
  | c :: str => if isspace c then trimLeft str else c :: str

/-- The loop of `trim_right` when the first `n` characters are left. -/
def trimRightFrom (str : CString) : Nat → CString
  | 0 => []
  | n + 1 =>
    match str[n]? with
    | some c => if isspace c then trimRightFrom str n else str.take (n + 1)
    | none => str

/-- `trim_right`. -/
def trimRight (str : CString) : CString := trimRightFrom str str.length

/-- `prepare`: `none` for a line of white space. -/
def prepare (input : CString) : Option CString :=
  let input := trimRight (trimLeft input)
  if input ≠ [] then some input else none

namespace Shell

/-- The variables of `split_cmd` before the loop; `argc` is the length of `argv`, the part of `args` that is filled. -/
def new (input : CString) : Split := { Split.new input with max := 256 }

/-- White space outside quotes, at `i`, ends an argument. -/
def space (s : Split) (i : Nat) : Option Split :=
  let stop : Int := if s.omitq ≠ 0 then i - 1 else i
  let start := if s.omitq ≠ 0 then s.start + 1 else s.start
  ({ s with start := i + 1, omitq := 0 } : Split).store (extract s.input start (stop - start))

/-- The body of the loop. -/
def char (s : Split) (i : Nat) : Option Split :=
  s.input[i]?.bind fun cur =>
    if isspace cur ∧ ¬ (s.inquot ∨ s.indquot) then space s i
    else if cur = dquot ∧ ¬ s.escaped then some { s with indquot := !s.indquot, omitq := 1 }
    else if cur = quot ∧ ¬ s.escaped then some { s with inquot := !s.inquot, omitq := 1 }
    else if cur = backslash then
      some { s with input := if ¬ s.escaped then s.input.set i esc else s.input, escaped := !s.escaped }
    else some { s with escaped := false }

/-- What follows the loop: the rest of the line is the last argument. -/
def finish (s : Split) (n : Int) : Option Split :=
  let stop := if s.omitq ≠ 0 then n - 1 else n
  let start := if s.omitq ≠ 0 then s.start + 1 else s.start
  s.store (extract s.input start (stop - start))

end Shell

/-- `split_cmd`: the arguments, or `none` if it writes behind the end of its array. -/
def splitCmd (input : CString) : Option (List CString) :=
  (((List.range input.length).foldlM Shell.char (Shell.new input)).bind (Shell.finish · input.length)).map (·.argv)

end Kos
