import Kos.Ipc

/-!
# Creating, waiting for and ending processes

The part of `kernel/pm.c` that takes and gives back slots of the process table, with the syscalls that wait for a process and end one.
What is done to memory and files is left out. A panic, and a null pointer that is followed, are `none`.

A syscall is made by the current process, and `kernel/syscall.c` stores its result in the register that `sc_late_result` also writes.
-/

namespace Kos

/-- The 32-bit value of -1. -/
abbrev minusOne : Nat := 0xFFFFFFFF

/-- The variables of `pm.c`, with the counter of `newpid`. -/
structure ProcTable where
  pm : Pm
  cur : Nat

def Pm.getEmptyProc (s : Pm) : Option ProcRef :=
  (List.finRange (maxProcs + 1)).find? (fun i => decide (i.val < maxProcs ∧ (s.procs i).status = .slotFree))

/-- What `init_proc` and `pm_fork` set in a slot; `mem` is what the memory for the message buffer holds. -/
def Proc.init (pid : Nat) (status : ProcStatus) (mem : Nat → UInt8) (proc : Proc) : Proc :=
  { proc with
    pid := pid
    status := status
    block := if status = .blocked then .init else .notBlocked
    waitProc := 0
    waitFor := 0
    exitStatus := minusOne
    ticksLeft := procStartTicks
    msgWaitbuf := none
    msgbuffer := rbufCreate mem msgSize procMsgBufferSize false }

namespace ProcTable

def newpid (t : ProcTable) : Nat × ProcTable := (t.cur, { t with cur := w32 (t.cur + 1) })

def initProc (t : ProcTable) (proc : ProcRef) (status : ProcStatus) (mem : Nat → UInt8) : ProcTable :=
  let (pid, t) := t.newpid
  let pm := t.pm.setProc proc (Proc.init pid status mem)
  { t with pm := if status = .ready then pmActivate pm proc else pm }

/-- `pm_create`. -/
def pmCreate (t : ProcTable) (status : ProcStatus) (mem : Nat → UInt8) : Option (ProcRef × ProcTable) :=
  t.pm.getEmptyProc.map fun proc => (proc, t.initProc proc status mem)

/-- `pm_fork`: the child has a copy of the parent's kernel stack, with its registers. -/
def pmFork (t : ProcTable) (parent : ProcRef) (mem : Nat → UInt8) : Option ProcRef × ProcTable :=
  match t.pm.getEmptyProc with
  | none => (none, t)
  | some child =>
    let (pid, t) := t.newpid
    (some child, { t with
      pm := t.pm.setProc child fun proc => { proc.init pid .ready mem with scResult := (t.pm.procs parent).scResult } })

/-- What a process creation of the loader comes down to: `elf32_exec` creates the process blocked, and unblocks it when it is
loaded. -/
def load (t : ProcTable) (mem : Nat → UInt8) : Option ProcTable :=
  (t.pmCreate .blocked mem).map fun (proc, t) => { t with pm := pmUnblock t.pm proc }

end ProcTable

/-- Memory that is all zero. -/
def zeroMem (_ : Nat) : UInt8 := 0

/-- A process in such memory. -/
def zeroProc (pid : Nat) : Proc where
  pid := pid
  status := .slotFree
  block := .notBlocked
  waitProc := 0
  waitFor := 0
  exitStatus := 0
  ticksLeft := 0
  scResult := 0
  msgWaitbuf := none
  msgbuffer := rbufCreate zeroMem 0 0 false
  next := none

/-- The table that `init_pm` fills in; the last process is the static `_idle_proc`. -/
def emptyTable : Pm where
  procs p := zeroProc (if p.val < maxProcs then p.val else 0)
  plistHead := none
  plistTail := none
  curProc := idleProc

/-- `init_pm`: the first process is the one that idles. -/
def initPm (mem : Nat → UInt8) : Option ProcTable :=
  (ProcTable.pmCreate ⟨emptyTable, 0⟩ .blocked mem).map fun (proc, t) =>
    { t with pm := { pmActivate t.pm proc with curProc := proc } }

/-! ## Syscalls -/

/-- `syscall_execute`: the result of the syscall is stored in the registers of the process that made it. -/
def Pm.storeResult (s : Pm) (proc : ProcRef) (result : Nat) : Pm := s.setProc proc fun p => { p with scResult := result }

def sysExit (s : Pm) (proc : ProcRef) (status : Nat) : Option (Nat × Pm) := do
  let s ← pmDestroy (s.setProc s.curProc fun p => { p with exitStatus := status }) proc
  let s ← pmSchedule s
  some (0, s)

def sysWaitpid (s : Pm) (proc : ProcRef) (pid : Nat) : Option (Nat × Pm) := do
  let other ← pmGetProc s pid
  if (s.procs other).status = .slotFree ∨ (s.procs other).waitProc ≠ 0 then some (minusOne, s)
  else do
    let s := s.setProc other fun p => { p with waitProc := (s.procs proc).pid }
    let s := s.setProc proc fun p => { p with waitFor := pid }
    let (_, s) ← pmBlock s proc .waitProc
    some (0, s)

def sysFork (t : ProcTable) (proc : ProcRef) (mem : Nat → UInt8) : Nat × ProcTable :=
  match t.pmFork proc mem with
  | (none, t) => (minusOne, t)
  | (some child, t) =>
    ((t.pm.procs child).pid, { t with pm := pmActivate (t.pm.setProc child fun p => { p with scResult := 0 }) child })

/-! ## Runs -/

/-- What happens to the processes: one is created by the kernel or by the loader; the current one forks, waits for a process, exits or
is killed for an exception or an invalid syscall; or the processor goes to the next one. -/
inductive PmCall where
  | create (status : ProcStatus) (mem : Nat → UInt8)
  | load (mem : Nat → UInt8)
  | fork (mem : Nat → UInt8)
  | waitpid (pid : Nat)
  | exit (status : Nat)
  | kill
  | schedule

/-- The process that makes a syscall or raises an exception: an idle process only halts. -/
def Pm.caller (s : Pm) : Option ProcRef := if s.curProc = 0 ∨ s.curProc = idleProc then none else some s.curProc

def PmCall.exec (t : ProcTable) : PmCall → Option ProcTable
  | create status mem => (t.pmCreate status mem).map Prod.snd
  | load mem => t.load mem
  | fork mem =>
    t.pm.caller.map fun proc =>
      let (result, t) := sysFork t proc mem
      { t with pm := t.pm.storeResult proc result }
  | waitpid pid =>
    t.pm.caller.bind fun proc => (sysWaitpid t.pm proc pid).map fun (result, s) => { t with pm := s.storeResult proc result }
  | exit status =>
    t.pm.caller.bind fun proc => (sysExit t.pm proc status).map fun (result, s) => { t with pm := s.storeResult proc result }
  | kill => t.pm.caller.bind fun proc => (pmDestroy t.pm proc).map fun s => { t with pm := s }
  | schedule => (pmSchedule t.pm).map fun s => { t with pm := s }

/-- The pages of the address space. -/
abbrev addressPages : Nat := 1048576

/-- The process table, and the number of pages that are the kernel stack of a process. "We cannot free the kstack": `pm_destroy` gives
none of them back. -/
structure PmRun where
  table : ProcTable
  kstacks : Nat

/-- A call, which panics when it creates a process and there is no page for its kernel stack. -/
def PmCall.step (r : PmRun) (c : PmCall) : Option PmRun :=
  (c.exec r.table).bind fun t =>
    if t.cur = r.table.cur then some { r with table := t }
    else if r.kstacks < addressPages then some ⟨t, r.kstacks + 1⟩
    else none

/-- After `init_pm` there is the kernel stack of the process that idles. -/
def initRun (mem : Nat → UInt8) : Option PmRun := (initPm mem).map fun t => ⟨t, 1⟩

end Kos
