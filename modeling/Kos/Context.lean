import Kos.Lib.Interleave
import Kos.Pm.Proc

/-!
# Contexts and critical sections

`kernel/context.c`, `enable_intr` and `disable_intr` of `idt.h`, and what `idt_handle_int` does to the context and to the interrupt flag. The
flag can only be changed in some contexts, so that the code of IRQ handlers, which run with interrupts disabled, is never interrupted, and
that of system calls is once it has enabled them.
-/

namespace Kos

/-- `enum context` -/
inductive Context where
  | initEarly | init | initDone | irq | syscall | proc | panic
  deriving DecidableEq, Repr

/-- `enum action` -/
inductive Action where
  | changeIf | delayExec | dynMem
  deriving DecidableEq, Repr

/-- The table `allowed`, with a line for each context. -/
def allowed : Context → Bool × Bool × Bool
  | .initEarly => (false, false, false)
  | .init => (false, false, true)
  | .initDone => (true, false, true)
  | .irq => (false, false, true)
  | .syscall => (true, true, true)
  | .proc => (false, true, true)
  | .panic => (false, false, false)

def cxAllowed (context : Context) : Action → Bool
  | .changeIf => (allowed context).1
  | .delayExec => (allowed context).2.1
  | .dynMem => (allowed context).2.2

/-- Kernel code runs: the variables that it works on, `cur_context`, and the interrupt flag of the processor. -/
structure CodeState (σ : Type*) where
  st : σ
  context : Context
  intr : Bool

namespace CodeState

variable {σ : Type*}

def enableIntr (s : CodeState σ) : CodeState σ := if cxAllowed s.context .changeIf then { s with intr := true } else s

def disableIntr (s : CodeState σ) : CodeState σ := if cxAllowed s.context .changeIf then { s with intr := false } else s

/-- A statement of the code. -/
def act (f : σ → σ) (s : CodeState σ) : CodeState σ := { s with st := f s.st }

/-- Statements between `disable_intr` and `enable_intr`. -/
def critical (fs : List (σ → σ)) : List (CodeState σ → CodeState σ) := disableIntr :: fs.map act ++ [enableIntr]

/-- `idt_handle_int` for an IRQ with this handler. The processor clears the flag, and the handler, with the context `CX_IRQ`, does not set
it. At the end the context is `CX_PROC`, whatever was interrupted, and `iret` sets the flag again. -/
def handleIrq (s : CodeState σ) (handler : List (CodeState σ → CodeState σ)) : CodeState σ :=
  let s := runCode { s with context := .irq, intr := false } handler
  { s with context := .proc, intr := true }

end CodeState

open CodeState

/-! ## The ready queue, statement by statement -/

/-- `if (!plist_head) plist_head = proc;` -/
def Pm.firstHead (proc : ProcRef) (s : Pm) : Pm := if s.plistHead.isNone then { s with plistHead := some proc } else s

/-- `if (!plist_tail) plist_tail = proc; else plist_tail->next = proc;` -/
def Pm.linkTail (proc : ProcRef) (s : Pm) : Pm :=
  match s.plistTail with
  | none => { s with plistTail := some proc }
  | some tail => s.setNext tail (some proc)

/-- `pm_activate` -/
def pmActivateCode (proc : ProcRef) : List (CodeState Pm → CodeState Pm) :=
  critical [Pm.firstHead proc, Pm.linkTail proc, fun s => { s with plistTail := some proc }, fun s => s.setNext proc none]

/-- The end of `sys_fork`, with the new process: `enable_intr` and `pm_activate`. -/
def sysForkEnd (child : ProcRef) : List (CodeState Pm → CodeState Pm) := enableIntr :: pmActivateCode child

def pmUnblockCode (proc : ProcRef) : List (CodeState Pm → CodeState Pm) :=
  act (fun s => s.setProc proc fun p => { p with status := .ready, block := .notBlocked }) :: pmActivateCode proc

/-- What the handler of an IRQ can do to the ready queue: nothing, or wake a blocked process, which is not in it, or give the processor to the
next one. -/
inductive IrqHandler (s : Pm) : List (CodeState Pm → CodeState Pm) → Prop where
  | other : IrqHandler s []
  | wake (p : ProcRef) (hblocked : (s.procs p).status = .blocked) (hp : ∀ l, IsQueue s.next s.plistHead s.plistTail l → p ∉ l) :
    IrqHandler s (pmUnblockCode p)
  | schedule {s' : Pm} (hs : pmSchedule s = some s') : IrqHandler s [act fun s => (pmSchedule s).getD s]

/-- An interrupt. -/
def PmIrq (s s' : CodeState Pm) : Prop := ∃ handler, IrqHandler s.st handler ∧ s' = s.handleIrq handler

/-- Kernel code that works on the ready queue, with interrupts when the flag is set. -/
abbrev PmRuns : CodeState Pm → List (CodeState Pm → CodeState Pm) → CodeState Pm → Prop := Interleaved (fun s => s.intr = true) PmIrq

end Kos
