import Kos.Mm.Virt

/-!
# Memory of another address space

`kernel/mm/util.c`.
-/

namespace Kos

def vmUserToKernel (s : Vm) (pdir vaddr size : Nat) : Option (Nat × Vm) :=
  let paddr := vmResolveVirt s pdir vaddr
  vmAllocAddr s s.kernelPdir paddr vmCommonFlags size

end Kos
