import Mathlib.Tactic.Common

/-!
# Strings of C

A string is the list of its characters without the NUL at its end, so a character is any other byte.
-/

namespace Kos

/-- A character of a string: any byte but NUL. -/
def CChar : Type := { c : UInt8 // c ≠ 0 }
  deriving DecidableEq, Repr

abbrev CString : Type := List CChar

namespace CChar

def space : CChar := ⟨32, by decide⟩
def dquot : CChar := ⟨34, by decide⟩
def quot : CChar := ⟨39, by decide⟩
def slash : CChar := ⟨47, by decide⟩
def backslash : CChar := ⟨92, by decide⟩
def a : CChar := ⟨97, by decide⟩
def b : CChar := ⟨98, by decide⟩

/-- `isspace` of the C library: blank, `\t`, `\n`, `\v`, `\f`, `\r`. -/
def isspace (c : CChar) : Bool := c.1 = 32 || (9 ≤ c.1 && c.1 ≤ 13)

end CChar

end Kos
