import Mathlib.Algebra.GroupWithZero.Nat
import Mathlib.Data.List.FinRange
import Kos.Lib.Links
import Kos.Util.Ringbuffer

/-!
# Processes and the ready queue

`kernel/pm.c`. A pointer to a `struct proc` is a slot of the table `procs`, or the static `_idle_proc` behind them. The ready
queue is threaded through the processes by `next`, between `plist_head` and `plist_tail`. Following a null pointer is `none`.
What a process has of memory and of files is left to other modules.
-/

namespace Kos

/-- `enum proc_status`. -/
inductive ProcStatus where
  | slotFree | ready | running | blocked
  deriving DecidableEq, Repr

/-- `enum block_reason`. -/
inductive BlockReason where
  | notBlocked | receiving | sleeping | waitFs | init | waitProc
  deriving DecidableEq, Repr

/-- `MAX_PROCS`. -/
abbrev maxProcs : Nat := 256

def procStartTicks : Nat := 50

def procMaxTicks : Nat := 100

/-- A pointer to a `struct proc`. -/
abbrev ProcRef := Fin (maxProcs + 1)

instance (priority := 2000) : NeZero (maxProcs + 1) := ⟨Nat.succ_ne_zero maxProcs⟩

/-- The static `_idle_proc`. -/
def idleProc : ProcRef := Fin.last maxProcs

/-- What scheduling, waiting and messages use of `struct proc`; `scResult` is `sc_regs->eax`, and `msgWaitbuf` is the address of
the buffer a blocked receiver waits with. -/
structure Proc where
  pid : Nat
  status : ProcStatus
  block : BlockReason
  waitProc : Nat
  waitFor : Nat
  exitStatus : Nat
  ticksLeft : Nat
  scResult : Nat
  msgWaitbuf : Option Nat
  msgbuffer : Ringbuffer
  next : Option ProcRef

/-- The variables of `pm.c`. -/
structure Pm where
  procs : ProcRef → Proc
  plistHead : Option ProcRef
  plistTail : Option ProcRef
  curProc : ProcRef

def Pm.setProc (s : Pm) (p : ProcRef) (f : Proc → Proc) : Pm :=
  { s with procs := Function.update s.procs p (f (s.procs p)) }

/-- The pointers of the queue. -/
def Pm.next (s : Pm) (p : ProcRef) : Option ProcRef := (s.procs p).next

def Pm.setNext (s : Pm) (p : ProcRef) (q : Option ProcRef) : Pm := s.setProc p (fun proc => { proc with next := q })

/-! ## The ready queue -/

def pmActivate (s : Pm) (proc : ProcRef) : Pm :=
  let head := if s.plistHead.isNone then some proc else s.plistHead
  let s :=
    match s.plistTail with
    | none => s
    | some tail => s.setNext tail (some proc)
  { s.setNext proc none with plistHead := head, plistTail := some proc }

/-- The time that `pm_schedule` gives to the process that it takes the processor from. -/
def moreTicks (ticksLeft : Nat) : Nat :=
  let ticksLeft := w32 (ticksLeft + procStartTicks)
  if ticksLeft > procMaxTicks then procMaxTicks else ticksLeft

/-- The first part of `pm_schedule`: the current process gets new time, and is no longer running. -/
def Pm.retire (s : Pm) : Pm :=
  s.setProc s.curProc fun proc =>
    { proc with
      ticksLeft := moreTicks proc.ticksLeft
      status := if proc.status = .running then .ready else proc.status }

/-- "Very simple round robin": the head goes behind the tail. -/
def Pm.rotateQueue (s : Pm) (tail head : ProcRef) : Pm :=
  let s := s.setNext tail (some head)
  { s.setNext head none with plistTail := some head, plistHead := s.next head }

/-- The last part of `pm_schedule`: the head of the queue runs, or idle does. -/
def Pm.runHead (s : Pm) : Pm :=
  match s.plistHead with
  | some cur => { s.setProc cur (fun proc => { proc with status := .running }) with curProc := cur }
  | none => { s with curProc := idleProc }

def pmSchedule (s : Pm) : Option Pm :=
  let s := s.retire
  match s.plistTail, s.plistHead with
  | some tail, some head => some (s.rotateQueue tail head).runHead
  | _, _ => none

/-- `pm_update`, with the variable `koop_mode`. -/
def pmUpdate (s : Pm) (koop : Bool) : Option Pm :=
  if (s.procs s.curProc).status ≠ .ready then pmSchedule s
  else if koop then some s
  else
    let s := s.setProc s.curProc fun proc => { proc with ticksLeft := sub32 proc.ticksLeft 1 }
    if (s.procs s.curProc).ticksLeft = 0 then pmSchedule s else some s

def pmDeactivate (s : Pm) (proc : ProcRef) : Option Pm :=
  match walkTo s.next (· == proc) (maxProcs + 1) none s.plistHead with
  | some (prev, some cur) =>
    let s :=
      match prev with
      | some prev => s.setNext prev (s.next cur)
      | none => { s with plistHead := s.next cur }
    if proc = s.curProc then pmSchedule s else some s
  | _ => none

/-- `pm_block`: whether the process was blocked by this call. -/
def pmBlock (s : Pm) (proc : ProcRef) (reason : BlockReason) : Option (Bool × Pm) :=
  if (s.procs proc).status = .blocked then some (false, s)
  else do
    let s ← pmDeactivate (s.setProc proc fun p => { p with status := .blocked, block := reason }) proc
    some (true, s)

def pmUnblock (s : Pm) (proc : ProcRef) : Pm :=
  pmActivate (s.setProc proc fun p => { p with status := .ready, block := .notBlocked }) proc

/-! ## Processes -/

def pmGetProc (s : Pm) (pid : Nat) : Option ProcRef :=
  (List.finRange (maxProcs + 1)).find? (fun i => decide (i.val < maxProcs ∧ (s.procs i).pid = pid))

/-- What `pm_destroy` does to the process that waits for the one destroyed. -/
def wakeWaiter (s : Pm) (proc : ProcRef) : Option Pm :=
  if (s.procs proc).waitProc ≠ 0 then do
    let other ← pmGetProc s (s.procs proc).waitProc
    some (pmUnblock (s.setProc other fun p => { p with scResult := (s.procs proc).exitStatus }) other)
  else some s

/-- What `pm_destroy` does to the process that the one destroyed waits for. -/
def forgetWaiter (s : Pm) (proc : ProcRef) : Option Pm :=
  if (s.procs proc).waitFor ≠ 0 then do
    let other ← pmGetProc s (s.procs proc).waitFor
    if (s.procs other).waitProc = (s.procs proc).pid then some (s.setProc other fun p => { p with waitProc := 0 }) else some s
  else some s

/-- `pm_destroy`, up to the release of memory. -/
def pmDestroy (s : Pm) (proc : ProcRef) : Option Pm := do
  let s ← pmDeactivate s proc
  let s ← wakeWaiter (s.setProc proc fun p => { p with status := .slotFree }) proc
  forgetWaiter s proc

end Kos
