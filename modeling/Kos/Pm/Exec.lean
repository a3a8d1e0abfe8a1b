import Kos.Pm.Space
import Kos.Pm.Table

/-!
# Starting a program

`elf32_exec` of `kernel/loader.c` on the process table, the ready queue and the memory of the processes, with `pm_create` and `pm_destroy`
of `kernel/pm.c`. The bytes of the segments and the files of the process are left out.
-/

namespace Kos

/-- What `elf32_exec` works on. A kernel stack is named by its frame. -/
structure ExecState where
  table : ProcTable
  m : Machine
  kstackAddr : ProcRef → Nat

namespace ExecState

/-- `pm_create`. -/
def pmCreate (s : ExecState) (status : ProcStatus) (mem : Nat → UInt8) : Option (ProcRef × ExecState) :=
  s.table.pm.getEmptyProc.bind fun p =>
    (initProc s.m p).bind fun m =>
      (kmAllocPage m).map fun (kstack, m) =>
        (p, { table := s.table.initProc p status mem, m := m, kstackAddr := Function.update s.kstackAddr p kstack })

/-- `pm_destroy`. The kernel stack is not freed. -/
def pmDestroy (s : ExecState) (p : ProcRef) : Option ExecState :=
  (Kos.pmDestroy s.table.pm p).bind fun pm =>
    (s.m.pmDestroy p).map fun m => { s with table := { s.table with pm := pm }, m := m }

/-- `elf32_exec`, with its result: the number of the process, or 0. -/
def elf32Exec (s : ExecState) (phdrs : List Phdr) (mem : Nat → UInt8) : Option (Nat × ExecState) :=
  (s.pmCreate .blocked mem).bind fun (p, s) =>
    ((s.m.setProc p ({ · with cleanup := true, ldata := some [] })).kernelWork).bind fun m =>
      (loadSegments p phdrs m).bind fun (ok, m) =>
        if ok then some ((s.table.pm.procs p).pid, { s with table := { s.table with pm := pmUnblock s.table.pm p }, m := m })
        else ({ s with m := m }.pmDestroy p).map (0, ·)

end ExecState

end Kos
