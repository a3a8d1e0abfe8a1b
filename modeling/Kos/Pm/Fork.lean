import Kos.Fs.Table
import Kos.Pm.Clone
import Kos.Pm.Table

/-!
# Forking a process

`pm_fork` of `kernel/pm.c` with all that the child gets: the slot of the process table, the copies of the address space and of the file
table, and the kernel stack. What `kmalloc` does to the page map is part of the kernel's own work, as are the mappings of the kernel
stacks, so a kernel stack is named by its frame.
-/

namespace Kos

/-- What `pm_fork` works on. -/
structure Forker where
  table : ProcTable
  space : Copier
  vfs : Vfs
  fsData : ProcRef → FdTable
  kstackAddr : ProcRef → Nat

/-- The memory of the child, which has a copy of its parent's. -/
def Machine.setChild (m : Machine) (child parent : ProcRef) (pdir : Nat) : Machine :=
  m.setProc child fun _ =>
    { live := true, pdir := pdir, ustackAddr := vmResolveVirt m.vm pdir userStackPage, memBrk := (m.procs parent).memBrk,
      brkPage := (m.procs parent).brkPage, cleanup := false, ldata := none }

/-- `pm_fork`: the child, or `none` if there is no free slot. The result of `vm_clone_addrspace` is used without a check. -/
def Forker.pmFork (s : Forker) (parent : ProcRef) (mem : Nat → UInt8) (answer : Nat → DupAnswer × Nat) : Option (Option ProcRef × Forker) :=
  match s.table.pmFork parent mem with
  | (none, _) => some (none, s)
  | (some child, table) =>
    s.space.m.kernelWork.bind fun m =>
      (Copier.cloneAddrspace ⟨m, s.space.memory⟩ (m.procs parent).brkPage (m.procs parent).pdir).bind fun (pdir, _, c) =>
        (vfsCloneProcdata s.vfs (s.fsData parent) answer).bind fun (data, vfs) =>
          (kmAllocPage (c.m.setChild child parent pdir)).map fun (kstack, m) =>
            (some child,
              { table := table
                space := ⟨m, c.memory.copy kstack (s.kstackAddr parent) pageSize⟩
                vfs := vfs
                fsData := Function.update s.fsData child data
                kstackAddr := Function.update s.kstackAddr child kstack })

end Kos
