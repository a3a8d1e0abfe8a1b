import Mathlib.Tactic.Common

/-!
# Machine words as natural numbers

The kernel runs on a 32-bit machine: `size_t`, `dword`, `paddr_t` and `vaddr_t` are 32 bits wide. A value of such a type is a
natural number below `2 ^ 32` here, and `w32` cuts the result of an operation that can leave that range; `w64` does the same for the few
values of 64 bits.
-/

namespace Kos

/-- The value a 32-bit word holds after an operation whose exact result is `n`. -/
def w32 (n : Nat) : Nat := n % 4294967296

/-- The value a 64-bit word holds after an operation whose exact result is `n`. -/
def w64 (n : Nat) : Nat := n % 18446744073709551616

/-- The difference of two 32-bit words. -/
def sub32 (a b : Nat) : Nat := w32 (a + (4294967296 - b))

theorem w32_lt (n : Nat) : w32 n < 4294967296 := Nat.mod_lt _ (by decide)

theorem w32_of_lt {n : Nat} (h : n < 4294967296) : w32 n = n := Nat.mod_eq_of_lt h

/-- A value that wraps once. -/
theorem w32_of_ge {n : Nat} (h : 4294967296 ≤ n) (h' : n < 2 * 4294967296) : w32 n = n - 4294967296 := by
  rw [w32, Nat.mod_eq_sub_mod h]
  exact Nat.mod_eq_of_lt (by omega)

@[simp] theorem w32_w32 (n : Nat) : w32 (w32 n) = w32 n := Nat.mod_mod _ _

@[simp] theorem w32_add_left (m n : Nat) : w32 (w32 m + n) = w32 (m + n) := Nat.mod_add_mod _ _ _

@[simp] theorem w32_add_right (m n : Nat) : w32 (m + w32 n) = w32 (m + n) := Nat.add_mod_mod _ _ _

theorem sub32_of_le {a b : Nat} (h : b ≤ a) (ha : a < 4294967296) : sub32 a b = a - b := by
  simp only [sub32, w32]
  omega

end Kos
