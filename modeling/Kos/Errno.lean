import Mathlib.Init

/-!
# Error numbers

The values of `sys/errno.h` that the kernel returns.
-/

namespace Kos

def enoent : Nat := 2

def eagain : Nat := 11

def einval : Nat := 22

def enosys : Nat := 88

def eloop : Nat := 92

end Kos
