import Mathlib.Logic.Function.Basic

/-!
# Interrupt requests

`idt_handle_int` and `idt_handle_irq` of `kernel/idt.c` with the two interrupt controllers that they talk to, and the waiting for an interrupt
request. The controllers have what the kernel uses of them: requests that stay until they are acknowledged, fixed priorities, and the end of an
interrupt on command. The second one is connected to the input 2 of the first. A device may withdraw its request before it is acknowledged;
then the answer is the lowest input, without anything in service.
-/

namespace Kos

/-- `IRQ_BASE`. -/
abbrev irqBase : Nat := 0x20

/-- `SYSCALL`. -/
abbrev syscallIntr : Nat := 0x30

/-- `PIC1`, which is also `PIC1_CMD`. -/
abbrev pic1Cmd : Nat := 0x20

abbrev pic1Data : Nat := 0x21

/-- `PIC2`, which is also `PIC2_CMD`. -/
abbrev pic2Cmd : Nat := 0xA0

abbrev pic2Data : Nat := 0xA1

/-! ## The controllers -/

/-- A controller: the inputs with a request, those in service, those that are masked, which of the first two is read, the initialisation word
that comes next (0 for none), the vector of the input 0 and the inputs with another controller. -/
structure Pic where
  irr : Nat → Bool
  isr : Nat → Bool
  imr : BitVec 8
  readIsr : Bool
  icw : Nat
  base : Nat
  slaves : BitVec 8

namespace Pic

/-- The input that interrupts: a request that is not masked, with nothing of the same or a higher priority in service. -/
def next (p : Pic) : Option Nat :=
  (List.range 8).find? fun i => p.irr i && !p.imr.getLsbD i && (List.range (i + 1)).all fun j => !p.isr j

/-- The request of an input is acknowledged. -/
def serve (p : Pic) (i : Nat) : Pic := { p with irr := Function.update p.irr i false, isr := Function.update p.isr i true }

/-- The end of the interrupt of the highest priority. -/
def eoi (p : Pic) : Pic :=
  match (List.range 8).find? p.isr with
  | some i => { p with isr := Function.update p.isr i false }
  | none => p

def outCmd (p : Pic) (value : BitVec 8) : Pic :=
  if value.getLsbD 4 then { p with irr := fun _ => false, isr := fun _ => false, imr := 0, readIsr := false, icw := 2 }
  else if value.getLsbD 3 then if value.getLsbD 1 then { p with readIsr := value.getLsbD 0 } else p
  else if value >>> 5 = 1 then p.eoi
  else p

def outData (p : Pic) (value : BitVec 8) : Pic :=
  match p.icw with
  | 2 => { p with base := (value &&& 0xf8).toNat, icw := 3 }
  | 3 => { p with slaves := value, icw := 4 }
  | 4 => { p with icw := 0 }
  | _ => { p with imr := value }

/-- A byte with the bits that are given. -/
def byteOf (f : Nat → Bool) : BitVec 8 := (List.range 8).foldl (fun v i => if f i then v ||| 1#8 <<< i else v) 0

def inCmd (p : Pic) : BitVec 8 := byteOf (if p.readIsr then p.isr else p.irr)

end Pic

structure Pics where
  pic1 : Pic
  pic2 : Pic

namespace Pics

/-- The first controller with the request of the second one. -/
def first (p : Pics) : Pic := { p.pic1 with irr := fun i => if p.pic1.slaves.getLsbD i then p.pic2.next.isSome else p.pic1.irr i }

/-- A device requests an interrupt, or withdraws the request. There is none at the input 2 of the first controller. -/
def line (request : Bool) (p : Pics) (n : Nat) : Pics :=
  if n = 2 then p
  else if n < 8 then { p with pic1 := { p.pic1 with irr := Function.update p.pic1.irr n request } }
  else { p with pic2 := { p.pic2 with irr := Function.update p.pic2.irr (n - 8) request } }

/-- The processor acknowledges an interrupt and gets a vector. The second controller is asked after the first one, and requests may be withdrawn
in between. -/
def ack (withdrawn : List Nat) (p : Pics) : Nat × Pics :=
  match p.first.next with
  | none => (p.pic1.base + 7, p)
  | some i =>
    let p := { p with pic1 := p.pic1.serve i }
    if p.pic1.slaves.getLsbD i then
      let p := withdrawn.foldl (line false) p
      match p.pic2.next with
      | none => (p.pic2.base + 7, p)
      | some j => (p.pic2.base + j, { p with pic2 := p.pic2.serve j })
    else (p.pic1.base + i, p)

def outb (port : Nat) (value : BitVec 8) (p : Pics) : Pics :=
  if port = pic1Cmd then { p with pic1 := p.pic1.outCmd value }
  else if port = pic1Data then { p with pic1 := p.pic1.outData value }
  else if port = pic2Cmd then { p with pic2 := p.pic2.outCmd value }
  else if port = pic2Data then { p with pic2 := p.pic2.outData value }
  else p

def inb (port : Nat) (p : Pics) : BitVec 8 :=
  if port = pic1Cmd then p.first.inCmd
  else if port = pic1Data then p.pic1.imr
  else if port = pic2Cmd then p.pic2.inCmd
  else if port = pic2Data then p.pic2.imr
  else 0xff

end Pics

/-! ## The kernel -/

open Pics

/-- What `init_idt` sends to the controllers. -/
def initPic (p : Pics) : Pics :=
  [(pic1Cmd, 0x11), (pic2Cmd, 0x11), (pic1Data, 0x20), (pic2Data, 0x28), (pic1Data, 4), (pic2Data, 2), (pic1Data, 1), (pic2Data, 1),
    (pic1Data, 0), (pic2Data, 0)].foldl (fun p w => p.outb w.1 w.2) p

/-- `1 << n` in a byte: the processor takes the count modulo 32. -/
def bit8 (n : Nat) : BitVec 8 := ((1 : BitVec 32) <<< (n % 32)).setWidth 8

/-- `mask_irq`; `idt_handle_int` calls it with the vector. -/
def maskIrq (irq : Nat) (disable : Bool) (p : Pics) : Pics :=
  let port := if irq < 8 then pic1Data else pic2Data
  let offs := if irq < 8 then 0 else 8
  let val := p.inb port
  p.outb port (if disable then val ||| bit8 (irq - offs) else val &&& ~~~bit8 (irq - offs))

/-- The variables of `idt.c`, with the controllers: `irq_counter`, and which of the `irq_handlers` are set. Two members are only for the record:
the requests that have interrupted, and the calls of the handlers, the last one first. -/
structure Irqs (γ : Type) where
  ctl : γ
  counter : Nat → UInt32
  handlers : Nat → Bool
  served : List Nat
  calls : List Nat

namespace Irqs

variable {γ δ : Type}

/-- `timer_ticks`: the handler of the request 0 is `timer_irq`. -/
def ticks (s : Irqs γ) : Nat := s.calls.count 0

/-- An interrupt is counted. -/
def count (irq : Nat) (s : Irqs γ) : Irqs γ :=
  { s with counter := Function.update s.counter irq (s.counter irq + 1), served := irq :: s.served }

/-- `if (irq_handlers[irq]) irq_handlers[irq](irq, esp);` -/
def call (irq : Nat) (s : Irqs γ) : Irqs γ := if s.handlers irq then { s with calls := irq :: s.calls } else s

def withCtl (s : Irqs γ) (ctl : δ) : Irqs δ := { s with ctl := ctl }

end Irqs

open Irqs

/-- `idt_handle_irq`; meanwhile there are further requests. -/
def idtHandleIrq (irq : Nat) (requests : List Nat) (s : Irqs Pics) : Irqs Pics :=
  let s := s.count irq
  let s := s.withCtl (requests.foldl (line true) s.ctl)
  let pic := if irq < 8 then pic1Cmd else pic2Cmd
  let s := if irq = 7 ∨ irq = 15 then s.withCtl (s.ctl.outb (pic + 3) 0x03) else s
  let s := if (irq = 7 ∨ irq = 15) ∧ s.ctl.inb pic &&& 0x80 ≠ 0 then s else s.call irq
  let s := if irq ≥ 8 then s.withCtl (s.ctl.outb pic2Cmd 0x20) else s
  s.withCtl (s.ctl.outb pic1Cmd 0x20)

/-- `idt_handle_int` for a vector below `SYSCALL`. The handlers of exceptions do not use the controllers. -/
def idtHandleInt (intr : Nat) (requests : List Nat) (s : Irqs Pics) : Irqs Pics :=
  let s := s.withCtl (maskIrq intr true s.ctl)
  let s := if intr < irqBase then s.withCtl (requests.foldl (line true) s.ctl) else idtHandleIrq (intr - irqBase) requests s
  s.withCtl (maskIrq intr false s.ctl)

/-- What happens: a device requests an interrupt or withdraws the request, the processor takes an interrupt or an exception, a system call
begins or ends, and a handler is set or cleared. Within system calls there are interrupts. -/
inductive IrqEvent where
  | request (n : Nat)
  | withdraw (n : Nat)
  | interrupt (withdrawn requests : List Nat)
  | exception (intr : Fin irqBase) (requests : List Nat)
  | syscall
  | syscallEnd
  | setHandler (n : Nat)
  | clrHandler (n : Nat)

def IrqEvent.exec (s : Irqs Pics) : IrqEvent → Irqs Pics
  | request n => s.withCtl (line true s.ctl n)
  | withdraw n => s.withCtl (line false s.ctl n)
  | interrupt withdrawn requests =>
    let answer := s.ctl.ack withdrawn
    idtHandleInt answer.1 requests (s.withCtl answer.2)
  | exception intr requests => idtHandleInt intr requests s
  | syscall => s.withCtl (maskIrq syscallIntr true s.ctl)
  | syscallEnd => s.withCtl (maskIrq syscallIntr false s.ctl)
  | setHandler n => { s with handlers := Function.update s.handlers n true }
  | clrHandler n => { s with handlers := Function.update s.handlers n false }

def idtResetIrqCounter (irq : Nat) (s : Irqs Pics) : Irqs Pics := { s with counter := Function.update s.counter irq 0 }

/-- `return irq_counter[irq] >= should;`, after the events that are first in the list. -/
def waitResult (irq : Nat) (should : UInt32) (s : Irqs Pics) : List (List IrqEvent) → Option (Bool × Irqs Pics)
  | [] => none
  | events :: _ =>
    let s := events.foldl IrqEvent.exec s
    some (decide (s.counter irq ≥ should), s)

/-- The loop of `idt_wait_irq`. Before each of the variables is read, there are the next events of the list; if there are no more, the loop has
not returned yet. -/
def waitLoop (irq : Nat) (should : UInt32) (ticks : Option Nat) (s : Irqs Pics) : List (List IrqEvent) → Option (Bool × Irqs Pics)
  | [] => none
  | events :: rest =>
    let s := events.foldl IrqEvent.exec s
    if s.counter irq < should then
      match rest with
      | [] => none
      | events :: rest =>
        let s := events.foldl IrqEvent.exec s
        if ∀ t ∈ ticks, s.ticks < t then waitLoop irq should ticks s rest else waitResult irq should s rest
    else waitResult irq should s rest

/-- `idt_wait_irq`; without a timeout the ticks are not limited. -/
def idtWaitIrq (irq : Nat) (sinceReset : Bool) (timeout : Nat) (s : Irqs Pics) : List (List IrqEvent) → Option (Bool × Irqs Pics) :=
  waitLoop irq (if sinceReset then 1 else s.counter irq + 1) (if timeout ≠ 0 then some (s.ticks + timeout) else none) s

/-! ## One controller -/

namespace Lines

/-- The lines in the order of their priorities. -/
def priorities : List Nat := [0, 1] ++ List.range' 8 8 ++ [3, 4, 5, 6, 7]

def set (request : Bool) (pending : Nat → Bool) (n : Nat) : Nat → Bool := Function.update pending n request

/-- The line that interrupts, and what is pending then. If all requests have been withdrawn, it is the last one. -/
def ack (withdrawn : List Nat) (pending : Nat → Bool) : Nat × (Nat → Bool) :=
  match priorities.find? pending with
  | none => (7, pending)
  | some n =>
    if n < 8 then (n, set false pending n)
    else
      let pending := withdrawn.foldl (set false) pending
      match (List.range' 8 8).find? pending with
      | none => (15, pending)
      | some n => (n, set false pending n)

/-- An interrupt is counted, and its handler is called, unless it is one of 7 and 15 and has been requested again. -/
def interrupt (withdrawn requests : List Nat) (s : Irqs (Nat → Bool)) : Irqs (Nat → Bool) :=
  let n := (ack withdrawn s.ctl).1
  let s := (s.count n).withCtl (requests.foldl (set true) (ack withdrawn s.ctl).2)
  if (n = 7 ∨ n = 15) ∧ s.ctl n then s else s.call n

def step (s : Irqs (Nat → Bool)) : IrqEvent → Irqs (Nat → Bool)
  | .request n => s.withCtl (set true s.ctl n)
  | .withdraw n => s.withCtl (set false s.ctl n)
  | .interrupt withdrawn requests => interrupt withdrawn requests s
  | .exception _ requests => s.withCtl (requests.foldl (set true) s.ctl)
  | .syscall => s
  | .syscallEnd => s
  | .setHandler n => { s with handlers := Function.update s.handlers n true }
  | .clrHandler n => { s with handlers := Function.update s.handlers n false }

end Lines

end Kos
