import Mathlib.Logic.Function.Basic
import Mathlib.Tactic.Common

/-!
# Stacks of double words

A stack that grows down in a memory of double words, as `push` and `pop` of a processor work on it. What was pushed is read back from the
top of the stack on, in the opposite order, and the rest of the memory stays as it is.
-/

namespace Kos

/-- A memory of double words, by their addresses. -/
abbrev Dwords := Nat → Nat

/-- The memory and the stack pointer after a `push`. -/
def push (st : Dwords × Nat) (v : Nat) : Dwords × Nat := (Function.update st.1 (st.2 - 4) v, st.2 - 4)

def pushes (st : Dwords × Nat) (vs : List Nat) : Dwords × Nat := vs.foldl push st

/-- The double words from an address on. -/
def Dwords.read (mem : Dwords) (p n : Nat) : List Nat := (List.range n).map fun j => mem (p + 4 * j)

variable {mem : Dwords} {esp : Nat}

theorem pushes_append (st : Dwords × Nat) (vs ws : List Nat) : pushes st (vs ++ ws) = pushes (pushes st vs) ws := List.foldl_append

@[simp] theorem pushes_esp (vs : List Nat) : (pushes (mem, esp) vs).2 = esp - 4 * vs.length := by
  induction vs generalizing mem esp with
  | nil => rfl
  | cons v vs ih =>
    rw [List.length_cons]
    exact ih.trans (by omega)

/-- The memory that is not on the stack. -/
theorem pushes_other {vs : List Nat} (hroom : 4 * vs.length ≤ esp) {a : Nat} (ha : a < esp - 4 * vs.length ∨ esp ≤ a) :
    (pushes (mem, esp) vs).1 a = mem a := by
  induction vs generalizing mem esp with
  | nil => rfl
  | cons v vs ih =>
    rw [List.length_cons] at hroom ha
    have hrest : (pushes (Function.update mem (esp - 4) v, esp - 4) vs).1 a = Function.update mem (esp - 4) v a := ih (by omega) (by omega)
    exact hrest.trans (Function.update_of_ne (by omega) ..)

/-- What was pushed is on the stack. -/
theorem pushes_read {vs : List Nat} (hroom : 4 * vs.length ≤ esp) :
    (pushes (mem, esp) vs).1.read (esp - 4 * vs.length) vs.length = vs.reverse := by
  induction vs generalizing mem esp with
  | nil => rfl
  | cons v vs ih =>
    rw [List.length_cons] at hroom
    have htop : (pushes (Function.update mem (esp - 4) v, esp - 4) vs).1 (esp - 4) = v := by
      rw [pushes_other (by omega) (by omega), Function.update_self]
    have hrest : (pushes (Function.update mem (esp - 4) v, esp - 4) vs).1.read (esp - 4 - 4 * vs.length) vs.length = vs.reverse :=
      ih (by omega)
    rw [List.length_cons, List.reverse_cons, ← hrest, Dwords.read, List.range_succ, List.map_append,
      show esp - 4 * (vs.length + 1) = esp - 4 - 4 * vs.length by omega]
    refine congrArg₂ _ rfl ?_
    rw [List.map_singleton, show esp - 4 - 4 * vs.length + 4 * vs.length = esp - 4 by omega]
    exact congrArg (fun x => [x]) htop

end Kos
