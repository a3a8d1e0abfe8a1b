import Kos.Errno
import Kos.Pm.Proc

/-!
# Messages between processes

`kernel/ipc.c`. Each process has a ring buffer for 24 messages. A receiver that finds it empty may wait, blocked, with the address of
its message in `msg_waitbuf`; the next message sent to it is copied there. What is copied to a receiver's message is returned as its
bytes; how these messages are mapped into the kernel is left out.
-/

namespace Kos

/-- `struct msg`. -/
structure Msg where
  sender : UInt32
  cmd : UInt32
  subcmd : UInt32
  param1 : UInt32
  param2 : UInt32
  deriving DecidableEq, Repr

/-- The bytes of a message in memory. -/
def Msg.encode (m : Msg) : List UInt8 :=
  le32 m.sender.toNat ++ (le32 m.cmd.toNat ++ (le32 m.subcmd.toNat ++ (le32 m.param1.toNat ++ le32 m.param2.toNat)))

/-- The message in memory. -/
def Msg.decode (bs : List UInt8) : Msg where
  sender := UInt32.ofNat (ofLe32 bs)
  cmd := UInt32.ofNat (ofLe32 (bs.drop 4))
  subcmd := UInt32.ofNat (ofLe32 (bs.drop 8))
  param1 := UInt32.ofNat (ofLe32 (bs.drop 12))
  param2 := UInt32.ofNat (ofLe32 (bs.drop 16))

/-- `sizeof(msg_t)`. -/
abbrev msgSize : Nat := 20

/-- `PROC_MSG_BUFFER_SIZE`. -/
abbrev procMsgBufferSize : Nat := 24

def pmIsBlockedFor (proc : Proc) (reason : BlockReason) : Bool := proc.status = .blocked ∧ proc.block = reason

/-- `send`: the result, and the processes. -/
def send (s : Pm) (proc : ProcRef) (msg : Msg) : Nat × Pm :=
  if (s.procs proc).status = .slotFree then (einval, s)
  else if rbufFreesize (s.procs proc).msgbuffer = 0 then (eagain, s)
  else (0, s.setProc proc fun p => { p with msgbuffer := (rbufWrite p.msgbuffer [msg.encode]).2 })

/-- `receive` with the address of a message, which may be null: the result, the bytes put into the message, and the processes. -/
def receive (s : Pm) (proc : ProcRef) (msg : Option Nat) : Nat × Option (List UInt8) × Pm :=
  if (s.procs proc).status = .slotFree then (einval, none, s)
  else if msg.isNone then (einval, none, s)
  else if rbufEmpty (s.procs proc).msgbuffer then (eagain, none, s)
  else
    (0, some (rbufRead (s.procs proc).msgbuffer 1).1.flatten,
      s.setProc proc fun p => { p with msgbuffer := (rbufRead p.msgbuffer 1).2 })

/-- `ipc_send`: the result, the bytes put into the message that the target waits with, and the processes. -/
def ipcSend (s : Pm) (sender target : ProcRef) (msg : Msg) : Nat × Option (List UInt8) × Pm :=
  let msg := { msg with sender := UInt32.ofNat (s.procs sender).pid }
  let (err, s) := send s target msg
  if pmIsBlockedFor (s.procs target) .receiving then
    let (_, data, s) := receive s target (s.procs target).msgWaitbuf
    (err, data, pmUnblock (s.setProc target fun p => { p with msgWaitbuf := none }) target)
  else (err, none, s)

/-- `ipc_receive`: the result, the bytes put into the caller's message, and the processes. -/
def ipcReceive (s : Pm) (proc : ProcRef) (msg : Option Nat) (block : Bool) : Option (Nat × Option (List UInt8) × Pm) :=
  let (err, data, s) := receive s proc msg
  if err = eagain ∧ block = true then do
    let (_, s) ← pmBlock (s.setProc proc fun p => { p with msgWaitbuf := msg }) proc .receiving
    some (0, none, s)
  else some (err, data, s)

end Kos
