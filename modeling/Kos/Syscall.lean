import Kos.Fs.File
import Kos.Fs.Table
import Kos.Ipc
import Kos.Mm.Util
import Kos.Tty.Input

/-!
# System calls with a buffer

How `sys_readwrite` of `kernel/fs/fs.c`, `sys_send` and `sys_receive` of `kernel/ipc.c`, `tty_read` and `answer_rq` of `kernel/tty.c`
and `rq_finish` of `kernel/fs/request.c` map a buffer of the calling process into the kernel and release it. The caller is the current
process. What is in the buffers is left out, except what a terminal writes to its screen. The drivers other than that of the terminals
answer a read or a write at once, with a number that is given.

In between, the kernel maps and unmaps pages for other purposes, such as its heap. A panic, and a null pointer that is followed, are
`none`.
-/

namespace Kos

/-- `NUM_TTYS`. -/
abbrev numTtys : Nat := 8

/-- The state. `pdirs` and `fsData` are the page directories and the descriptors of the processes, `ttyOf` says which open files are
terminals, and `readers` are the processes of the requests of a terminal, in their order. Two members are only for the record: `others`
are the pages that are mapped for something else than a buffer, and `balance` is, for each process and for each address and size, how
often a buffer was mapped for its calls minus how often it was released. -/
structure Sys where
  vm : Vm
  pm : Pm
  pdirs : ProcRef → Nat
  fsData : ProcRef → FdTable
  ttyOf : Nat → Option (Fin numTtys)
  ttys : Fin numTtys → Tty
  readers : Fin numTtys → List ProcRef
  curTty : Fin numTtys
  others : Nat → Bool
  balance : ProcRef → Nat × Nat → Int

/-- What the read or write of a driver other than that of the terminals returns, and what is in the buffer of a write. -/
inductive SysRw where
  | read (answer : Nat)
  | write (content : Nat → UInt8) (answer : Nat)

/-- The calls of the current process, what comes from the keyboard, and what else happens in the kernel. -/
inductive SysCall where
  | readwrite (call : SysRw) (fd : Int) (buffer count : UInt32)
  | send (target : Nat) (msgptr : UInt32) (msg : Msg)
  | receive (msgptr block : UInt32)
  | key (c : UInt8)
  | selectTty (i : Fin numTtys)
  | schedule
  | kernelMap (paddr vaddr : UInt32)
  | kernelUnmap (vaddr : UInt32)

namespace Sys

/-! ## Mappings -/

/-- Adds to the balance of a buffer. -/
def record (s : Sys) (p : ProcRef) (b : Nat × Nat) (n : Int) : Sys :=
  { s with balance := Function.update s.balance p (Function.update (s.balance p) b (s.balance p b + n)) }

/-- `vm_user_to_kernel` for the process `p`. -/
def userToKernel (s : Sys) (p : ProcRef) (vaddr size : Nat) : Option (Nat × Sys) :=
  (vmUserToKernel s.vm (s.pdirs p) vaddr size).map fun (kaddr, vm) => (kaddr, { s with vm := vm }.record p (kaddr, size) 1)

/-- `km_free_addr` of a buffer of the process `p`. -/
def kmFreeAddr (s : Sys) (p : ProcRef) (vaddr size : Nat) : Option Sys :=
  (vmFreeAddr s.vm s.vm.kernelPdir vaddr size).map fun vm => { s with vm := vm }.record p (vaddr, size) (-1)

/-! ## Requests -/

/-- `rq_finish` for the request of a process that was blocked. -/
def rqFinish (pm : Pm) (p : ProcRef) (result : Nat) : Pm :=
  (pmUnblock pm p).setProc p fun proc => { proc with scResult := result }

/-- The current process reads from a terminal: `tty_read`, with `rq_create` and `rq_block`. -/
def ttyRead (s : Sys) (i : Fin numTtys) (kbuf count : Nat) : Option (Nat × Sys) :=
  match Kos.ttyRead (s.ttys i) ⟨kbuf, count⟩ with
  | .error _ => none
  | .ok (some a, tty) => some (a.result, { s with ttys := Function.update s.ttys i tty })
  | .ok (none, tty) =>
    (pmBlock s.pm s.pm.curProc .waitFs).map fun (_, pm) =>
      (negInt eagain, { s with
        pm := pm
        ttys := Function.update s.ttys i tty
        readers := Function.update s.readers i (s.readers i ++ [s.pm.curProc]) })

def ttyWrite (s : Sys) (i : Fin numTtys) (data : List UInt8) : Sys :=
  { s with ttys := Function.update s.ttys i (data.foldl Tty.putc (s.ttys i)) }

/-- `handle_input` for the current terminal, with the requests that it answers. -/
def handleInput (s : Sys) (c : UInt8) : Option Sys :=
  match Kos.handleInput (s.ttys s.curTty) c with
  | .error _ => none
  | .ok (answers, tty) =>
    let readers := s.readers s.curTty
    some { s with
      pm := (readers.zip answers).foldl (fun pm (p, a) => rqFinish pm p a.result) s.pm
      ttys := Function.update s.ttys s.curTty tty
      readers := Function.update s.readers s.curTty (readers.drop answers.length) }

/-! ## The calls -/

/-- `vfs_read` and `vfs_write`. -/
def vfsReadwrite (s : Sys) (file : Nat) (kbuf count : Nat) : SysRw → Option (Nat × Sys)
  | .read answer =>
    match s.ttyOf file with
    | none => some (answer, s)
    | some i => s.ttyRead i kbuf count
  | .write content answer =>
    match s.ttyOf file with
    | none => some (answer, s)
    | some i => some (count, s.ttyWrite i ((List.range count).map content))

/-- The part of `sys_readwrite` between the mapping of the buffer and its release. -/
def doReadwrite (s : Sys) (call : SysRw) (fd : Int) (kbuf count : Nat) : Option (Nat × Sys) :=
  match (s.fsData s.pm.curProc).fd2file fd with
  | none => some (negInt enoent, s)
  | some file => s.vfsReadwrite file kbuf count call

def sysReadwrite (s : Sys) (call : SysRw) (fd : Int) (buffer count : Nat) : Option (Nat × Sys) :=
  let p := s.pm.curProc
  (s.userToKernel p buffer count).bind fun (kbuf, s) =>
    (s.doReadwrite call fd kbuf count).bind fun (result, s) =>
      if result ≠ negInt eagain then (s.kmFreeAddr p kbuf count).map (result, ·) else some (result, s)

/-- `ipc_send`; a target that waits for a message gets it, and its buffer is released. -/
def ipcSend (s : Sys) (sender target : ProcRef) (msg : Msg) : Option (Nat × Sys) :=
  let proc := s.pm.procs target
  let (err, _, pm) := Kos.ipcSend s.pm sender target msg
  if pmIsBlockedFor proc .receiving then
    ({ s with pm := pm }.kmFreeAddr target (proc.msgWaitbuf.getD 0) msgSize).map (err, ·)
  else some (err, { s with pm := pm })

def sysSend (s : Sys) (target : Nat) (msgptr : Nat) (msg : Msg) : Option (Nat × Sys) :=
  let p := s.pm.curProc
  (pmGetProc s.pm target).bind fun proc =>
    (s.userToKernel p msgptr msgSize).bind fun (kmsg, s) =>
      (s.ipcSend p proc msg).bind fun (result, s) =>
        (s.kmFreeAddr p kmsg msgSize).map (result, ·)

/-- `ipc_receive`; the buffer is released if there was a message. -/
def ipcReceive (s : Sys) (p : ProcRef) (msg : Nat) (block : Bool) : Option (Nat × Sys) :=
  let ptr := if msg = 0 then none else some msg
  (Kos.ipcReceive s.pm p ptr block).bind fun (result, _, pm) =>
    if (receive s.pm p ptr).1 = 0 then ({ s with pm := pm }.kmFreeAddr p msg msgSize).map (result, ·)
    else some (result, { s with pm := pm })

/-- `sys_receive`; `block` is passed on as a byte. -/
def sysReceive (s : Sys) (msgptr block : Nat) : Option (Nat × Sys) :=
  let p := s.pm.curProc
  (s.userToKernel p msgptr msgSize).bind fun (kmsg, s) => s.ipcReceive p kmsg (block % 256 ≠ 0)

/-! ## The kernel's other mappings -/

/-- The kernel maps a page that is free for something else. -/
def kernelMap (s : Sys) (paddr vaddr : Nat) : Option Sys :=
  if bnotset (getPtabEntry s.vm s.vm.kernelPdir vaddr) pePresent then
    (vmMapPage s.vm s.vm.kernelPdir paddr vaddr vmCommonFlags).map fun vm =>
      { s with vm := vm, others := Function.update s.others (vaddr / pageSize) true }
  else none

/-- The kernel unmaps such a page. -/
def kernelUnmap (s : Sys) (vaddr : Nat) : Option Sys :=
  if s.others (vaddr / pageSize) then
    (vmUnmapPage s.vm s.vm.kernelPdir vaddr).map fun vm =>
      { s with vm := vm, others := Function.update s.others (vaddr / pageSize) false }
  else none

end Sys

def sysStep (s : Sys) : SysCall → Option Sys
  | .readwrite call fd buffer count => (s.sysReadwrite call fd buffer.toNat count.toNat).map (·.2)
  | .send target msgptr msg => (s.sysSend target msgptr.toNat msg).map (·.2)
  | .receive msgptr block => (s.sysReceive msgptr.toNat block.toNat).map (·.2)
  | .key c => s.handleInput c
  | .selectTty i => some { s with curTty := i }
  | .schedule => (pmSchedule s.pm).map ({ s with pm := · })
  | .kernelMap paddr vaddr => s.kernelMap paddr.toNat vaddr.toNat
  | .kernelUnmap vaddr => s.kernelUnmap vaddr.toNat

end Kos
