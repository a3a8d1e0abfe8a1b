import Kos.Lib.Bytes
import Kos.Lib.CString
import Kos.Pm.Space

/-!
# The command line of a process

`sys_getcmdline` of `kernel/pm.c`, with what `init_proc` and `pm_fork` do to the fields that it reads. It shows a process its command
line on a page at `INFO_SPACE_START`. `vm_cpy_pv` of `kernel/mm/util.c` writes to a physical address through a window that the kernel
maps for itself, so all it does besides is part of the kernel's own work.
-/

namespace Kos

/-- `INFO_SPACE_START`. -/
abbrev infoSpaceStart : Nat := 0x30000000

/-- The fields of `struct proc` for the command line; `cmdline` is `none` for a null pointer. -/
structure ProcCmdline where
  cmdline : Option CString
  cmdlineMapped : Bool
  deriving DecidableEq, Repr

/-- The processes with their command lines, the physical memory, and for each write of the last call the physical address and the
number of bytes. -/
structure InfoSpace where
  m : Machine
  lines : Nat → ProcCmdline
  memory : Memory
  written : List (Nat × Nat)

namespace InfoSpace

/-- `vm_cpy_pv`. -/
def cpyPv (s : InfoSpace) (dst : Nat) (src : List UInt8) : Option InfoSpace :=
  s.m.kernelWork.map fun m =>
    { s with m := m, memory := s.memory.put dst src.length (src.getD · 0), written := (dst, src.length) :: s.written }

/-- The bytes of a string with its NUL. -/
def withNul (line : CString) : List UInt8 := line.map (fun c => c.1) ++ [0]

/-- The first part of `sys_getcmdline`: the page, `none` if there is none left. If the page was mapped before, this is `NULL`. -/
def cmdlinePage (s : InfoSpace) (p : Nat) : Option (Option Nat × InfoSpace) :=
  if (s.lines p).cmdlineMapped then some (some 0, s)
  else
    (newPage s.m (s.m.procs p).pdir infoSpaceStart vmUserFlags false).map fun (page, m) =>
      match page with
      | none => (none, { s with m := m })
      | some page => (some page, { s with m := m, lines := Function.update s.lines p { s.lines p with cmdlineMapped := true } })

/-- `sys_getcmdline` of the process `p`, with its result. -/
def sysGetcmdline (s : InfoSpace) (p : Nat) : Option (Nat × InfoSpace) :=
  match (s.lines p).cmdline with
  | none => some (0, s)
  | some line =>
    (s.cmdlinePage p).bind fun (page, s) =>
      match page with
      | none => some (0, s)
      | some page => (s.cpyPv page (withNul line)).map (infoSpaceStart, ·)

/-- The state when a call begins, with what the kernel will do for itself meanwhile. -/
def enter (s : InfoSpace) (work : List (List KernelAction)) : InfoSpace := { s with m := { s.m with work := work }, written := [] }

/-- The fields after a call that may create a process: `init_proc` copies the command line, and `pm_fork` that of the parent. -/
def newLines (s : InfoSpace) (call : SpaceCall) (cmdline : CString) : Nat → ProcCmdline :=
  match getEmptyProc s.m, call with
  | some p, .create => Function.update s.lines p ⟨some cmdline, false⟩
  | some p, .exec _ => Function.update s.lines p ⟨some cmdline, false⟩
  | some p, .fork parent => Function.update s.lines p ⟨(s.lines parent).cmdline, true⟩
  | _, _ => s.lines

end InfoSpace

/-- What happens to the processes: a call that changes their memory, with the command line of a process that it creates;
`sys_getcmdline` of a process that lives; or programs and devices write to the memory. -/
inductive InfoCall where
  | space (call : SpaceCall) (cmdline : CString)
  | getcmdline (p : Nat)
  | store (memory : Memory)

/-- A call, with what the kernel does for itself meanwhile. -/
def InfoCall.perform (s : InfoSpace) (call : InfoCall × List (List KernelAction)) : Option InfoSpace :=
  let s := s.enter call.2
  match call.1 with
  | .space c cmdline => (SpaceCall.perform s.m (c, call.2)).map fun m => { s with m := m, lines := s.newLines c cmdline }
  | .getcmdline p => if (s.m.procs p).live then (s.sysGetcmdline p).map (·.2) else none
  | .store memory => some { s with memory := memory }

end Kos
