import Kos.Lib.Stack
import Kos.Pm.Proc

/-!
# Interrupts and the switch between processes

`isr_common` of `kernel/int.s`, `idt_handle_int` of `kernel/idt.c` with `pm_restore` and `pm_pick`, and what `kernel/pm.c` and
`kernel/syscall.c` do to the stacks of the processes: `prepare_stack`, `pm_fork`, the results of system calls. An interrupt saves the
registers of the code that it stops on the kernel stack of the process, and leaves with the frame of the process that is the current one
then. The stacks are aligned, so their double words do not overlap.

Which process the scheduler picks, which pages the stacks get and what the handlers do with their own variables is given: a handler is a list
of what it does. While a system call runs, the kernel allows interrupts, so that one more interrupt can come within a handler.
-/

namespace Kos

/-- The registers of the code that an interrupt stops. -/
structure Regs where
  edi : Nat
  esi : Nat
  ebp : Nat
  ebx : Nat
  edx : Nat
  ecx : Nat
  eax : Nat
  ds : Nat
  es : Nat
  fs : Nat
  gs : Nat
  eip : Nat
  cs : Nat
  eflags : Nat
  esp : Nat
  ss : Nat
  deriving DecidableEq, Repr

def gdtSelCode : Nat := 0x08
def gdtSelData : Nat := 0x10
def gdtSelUcode : Nat := 0x18
def gdtSelUdata : Nat := 0x20

/-- `USER_STACK_ADDR` -/
def userStackTop : Nat := 0xFFFF0000

/-- `IS_USER` -/
def isUser (sel : Nat) : Bool := sel &&& 3 = 3

/-! ## Entering and leaving the kernel -/

/-- What the processor, the stub of an interrupt and `isr_common` push. If a process in user mode is stopped, the processor takes the stack
from the TSS first. For an exception without an error code the stub pushes a zero. -/
def enter (r : Regs) (esp0 intr errc : Nat) (mem : Dwords) : Dwords × Nat :=
  let st := if isUser r.cs then pushes (mem, esp0) [r.ss, r.esp] else (mem, r.esp)
  let st := pushes st [r.eflags, r.cs, r.eip]
  let st := pushes st [errc, intr]
  let st := pushes st [r.gs, r.fs, r.es, r.ds]
  -- `pusha` pushes the stack pointer as it was before
  pushes st [r.eax, r.ecx, r.edx, r.ebx, st.2, r.ebp, r.esi, r.edi]

/-- `popa`, which skips the stack pointer, the segment registers, `add esp, 8` and `iret`: it takes the stack from the frame if the process
is in user mode. -/
def leave (mem : Dwords) (esp : Nat) : Regs where
  edi := mem esp
  esi := mem (esp + 4)
  ebp := mem (esp + 8)
  ebx := mem (esp + 16)
  edx := mem (esp + 20)
  ecx := mem (esp + 24)
  eax := mem (esp + 28)
  ds := mem (esp + 32)
  es := mem (esp + 36)
  fs := mem (esp + 40)
  gs := mem (esp + 44)
  eip := mem (esp + 56)
  cs := mem (esp + 60)
  eflags := mem (esp + 64)
  esp := if isUser (mem (esp + 60)) then mem (esp + 68) else esp + 68
  ss := if isUser (mem (esp + 60)) then mem (esp + 72) else gdtSelData

/-- `&regs->eax` -/
def eaxOf (frame : Nat) : Nat := frame + 28

/-! ## The processes -/

/-- `enum proc_mode` -/
inductive ProcMode where
  | kernel | user
  deriving DecidableEq, Repr

/-- `prepare_stack` -/
def prepareStack (mem : Dwords) (kstack entry : Nat) (mode : ProcMode) : Dwords × Nat :=
  let codeSeg := if mode = .user then gdtSelUcode + 0x03 else gdtSelCode
  let dataSeg := if mode = .user then gdtSelUdata + 0x03 else gdtSelData
  let st := if mode = .user then pushes (mem, kstack) [dataSeg, userStackTop] else (mem, kstack)
  pushes st [0x0202, codeSeg, entry, 0, 0, dataSeg, dataSeg, dataSeg, dataSeg, 0, 0, 0, 0, 0, 0, 0, 0]

/-- What `struct proc` has for the switch; `live` is that the slot is not free. -/
structure ProcStack where
  live : Bool
  kstackAddr : Nat
  kstack : Nat
  esp : Nat
  scRegs : Nat
  as : Nat

/-- The machine: the memory, the registers of the code that runs, `tss.esp0`, the address space, and the variables of `pm.c`. -/
structure Switch where
  mem : Dwords
  regs : Regs
  esp0 : Nat
  space : Nat
  procs : ProcRef → ProcStack
  cur : ProcRef
  last : Option ProcRef

namespace Switch

def setProc (s : Switch) (p : ProcRef) (f : ProcStack → ProcStack) : Switch :=
  { s with procs := Function.update s.procs p (f (s.procs p)) }

/-- `pm_restore`, where 0 is the address space of the kernel. -/
def pmRestore (s : Switch) (esp : Nat) : Switch := { s.setProc s.cur fun p => { p with esp := esp } with space := 0 }

/-- `pm_pick`, with the stack pointer. -/
def pmPick (s : Switch) (esp : Nat) : Nat × Switch :=
  let s := { s with space := (s.procs s.cur).as }
  if some s.cur ≠ s.last then ((s.procs s.cur).esp, { s with esp0 := (s.procs s.cur).kstack, last := some s.cur }) else (esp, s)

/-- A page is copied. -/
def copyPage (mem : Dwords) (dst src : Nat) : Dwords := fun a => if dst ≤ a ∧ a < dst + 4096 then mem (src + (a - dst)) else mem a

/-- `init_proc`: the stack in a new page. The member `sc_regs` is not set. -/
def create (s : Switch) (p : ProcRef) (page as entry : Nat) (mode : ProcMode) : Switch :=
  let (mem, kstack) := prepareStack s.mem (page + 4096) entry mode
  { s with mem := mem }.setProc p fun old => ⟨true, page, kstack, kstack, old.scRegs, as⟩

/-- `pm_fork(syscall_proc, syscall_proc->esp)`. -/
def fork (s : Switch) (parent child : ProcRef) (page as : Nat) : Switch :=
  let esp := page + ((s.procs parent).esp - (s.procs parent).kstackAddr)
  { s with mem := copyPage s.mem page (s.procs parent).kstackAddr }.setProc child fun _ => ⟨true, page, esp, esp, esp, as⟩

end Switch

/-! ## Handlers -/

/-- What a handler does. -/
inductive KernelOp where
  /-- A variable of the handler is set. -/
  | store (a v : Nat)
  /-- `pm_schedule` has made the process the current one. -/
  | schedule (p : ProcRef)
  /-- `syscall_proc->sc_regs = info->regs` -/
  | scRegs
  /-- `info->regs->eax = result` -/
  | result (v : Nat)
  /-- `sc_late_result` -/
  | lateResult (p : ProcRef) (v : Nat)
  | create (p : ProcRef) (page as entry : Nat) (mode : ProcMode)
  | fork (child : ProcRef) (page as : Nat)
  /-- `proc->status = PS_SLOT_FREE` -/
  | destroy (p : ProcRef)

/-- An operation of a handler that has stopped the process `me`, with its frame at `frame`. -/
def KernelOp.run (me : ProcRef) (frame : Nat) (s : Switch) : KernelOp → Switch
  | store a v => { s with mem := Function.update s.mem a v }
  | schedule p => { s with cur := p }
  | scRegs => s.setProc me fun p => { p with scRegs := frame }
  | result v => { s with mem := Function.update s.mem (eaxOf frame) v }
  | lateResult p v => { s with mem := Function.update s.mem (eaxOf (s.procs p).scRegs) v }
  | create p page as entry mode => s.create p page as entry mode
  | fork child page as => s.fork me child page as
  | destroy p => s.setProc p fun proc => { proc with live := false }

/-- A step of a handler: an operation, or an interrupt that stops the handler at some of its registers. -/
inductive KernelStep where
  | op (o : KernelOp)
  | irq (k : Regs) (intr errc : Nat) (ops : List KernelOp)

/-- An interrupt within a handler has to give it back its registers, otherwise it does not go on. -/
def KernelStep.run (me : ProcRef) (frame : Nat) (s : Switch) : KernelStep → Option Switch
  | op o => some (o.run me frame s)
  | irq k intr errc ops =>
    let (mem, esp) := enter k s.esp0 intr errc s.mem
    let s := { s with mem := mem }.pmRestore esp
    let s := ops.foldl (KernelOp.run s.cur esp) s
    let (esp, s) := s.pmPick esp
    if leave s.mem esp = k then some s else none

def runSteps (me : ProcRef) (frame : Nat) : Switch → List KernelStep → Option Switch
  | s, [] => some s
  | s, st :: sts => (st.run me frame s).bind fun s => runSteps me frame s sts

/-! ## The machine -/

/-- The process that runs changes its registers, or is stopped by an interrupt. -/
inductive SwitchStep where
  | run (r : Regs)
  | interrupt (intr errc : Nat) (steps : List KernelStep)

/-- `isr_common` with `idt_handle_int`. A process does not change its mode by itself. -/
def switchStep (s : Switch) : SwitchStep → Option Switch
  | .run r => if isUser r.cs = isUser s.regs.cs then some { s with regs := r } else none
  | .interrupt intr errc steps =>
    let (mem, esp) := enter s.regs s.esp0 intr errc s.mem
    let s := { s with mem := mem }.pmRestore esp
    (runSteps s.cur esp s steps).map fun s =>
      let (esp, s) := s.pmPick esp
      { s with regs := leave s.mem esp }

def runSwitch : Switch → List SwitchStep → Option Switch
  | s, [] => some s
  | s, a :: as => (switchStep s a).bind fun s => runSwitch s as

/-! ## A processor for each process -/

/-- The processor of a process: its registers, and how many forks are between the process and the one of its ancestors that was created. -/
structure Cpu where
  regs : Regs
  forks : Nat

/-- What the switch is for: each process has a processor of its own, and one of the processes runs. -/
structure Cpus where
  cpus : ProcRef → Cpu
  cur : ProcRef

namespace Cpus

def set (v : Cpus) (p : ProcRef) (c : Cpu) : Cpus := { v with cpus := Function.update v.cpus p c }

def setEax (v : Cpus) (p : ProcRef) (x : Nat) : Cpus := v.set p { v.cpus p with regs := { (v.cpus p).regs with eax := x } }

/-- The registers of a new process. -/
def newRegs (page entry : Nat) : ProcMode → Regs
  | .kernel =>
    ⟨0, 0, 0, 0, 0, 0, 0, gdtSelData, gdtSelData, gdtSelData, gdtSelData, entry, gdtSelCode, 0x0202, page + 4096, gdtSelData⟩
  | .user =>
    ⟨0, 0, 0, 0, 0, 0, 0, gdtSelUdata + 3, gdtSelUdata + 3, gdtSelUdata + 3, gdtSelUdata + 3, entry, gdtSelUcode + 3, 0x0202, userStackTop,
      gdtSelUdata + 3⟩

/-- What an operation of a handler means for the processes. -/
def op (me : ProcRef) (v : Cpus) : KernelOp → Cpus
  | .store _ _ => v
  | .schedule p => { v with cur := p }
  | .scRegs => v
  | .result x => v.setEax me x
  | .lateResult p x => v.setEax p x
  | .create p page _ entry mode => v.set p ⟨newRegs page entry mode, 0⟩
  | .fork child _ _ => v.set child ⟨(v.cpus me).regs, (v.cpus me).forks + 1⟩
  | .destroy _ => v

def kernelStep (me : ProcRef) (v : Cpus) : KernelStep → Cpus
  | .op o => v.op me o
  | .irq _ _ _ ops => ops.foldl (op v.cur) v

def step (v : Cpus) : SwitchStep → Cpus
  | .run r => v.set v.cur { v.cpus v.cur with regs := r }
  | .interrupt _ _ steps => steps.foldl (kernelStep v.cur) v

end Cpus

end Kos
