import Kos.Pm.Proc

/-!
# The timer

`kernel/timer.c`. `timer_ticks` and `next_wakeup` are 64 bits wide, and the `wakeup` of a process 32 bits. The timer keeps, besides its
variables, a record of the processes that `timer_irq` has unblocked and of the ticks at which it did so.
-/

namespace Kos

def ullongMax : Nat := 18446744073709551615

def timerHz : Nat := 100

/-- The variables of `timer.c` with the processes; `unblocked` is a record of the wake-ups, each with its tick. -/
structure Timer where
  pm : Pm
  wakeup : ProcRef → Nat
  timerTicks : Nat
  nextWakeup : Nat
  unblocked : List (Nat × ProcRef)

/-- `init_timer`; `procs` is static, so that no process has a `wakeup` yet. -/
def initTimer (pm : Pm) : Timer where
  pm := pm
  wakeup _ := 0
  timerTicks := 0
  nextWakeup := ullongMax
  unblocked := []

/-- The body of the loop of `timer_irq`. -/
def wakeProc (t : Timer) (p : ProcRef) : Timer :=
  if t.wakeup p ≠ 0 then
    if t.wakeup p ≤ t.timerTicks then
      { t with
        wakeup := Function.update t.wakeup p 0
        pm := pmUnblock t.pm p
        unblocked := t.unblocked ++ [(t.timerTicks, p)] }
    else if t.wakeup p < t.nextWakeup then { t with nextWakeup := t.wakeup p }
    else t
  else t

/-- The processes of the table `procs`. -/
def tableProcs : List ProcRef := (List.finRange maxProcs).map Fin.castSucc

/-- The loop of `timer_irq` over the process table. -/
def Timer.scan (t : Timer) : Timer := tableProcs.foldl wakeProc { t with nextWakeup := ullongMax }

def Timer.tick (t : Timer) : Timer := { t with timerTicks := w64 (t.timerTicks + 1) }

/-- The first part of `timer_irq`. -/
def Timer.wakeSleepers (t : Timer) : Timer :=
  let t := t.tick
  if t.timerTicks ≥ t.nextWakeup then t.scan else t

def timerIrq (koop : Bool) (t : Timer) : Option Timer :=
  let t := t.wakeSleepers
  (pmUpdate t.pm koop).map fun pm => { t with pm := pm }

def timerSleep (t : Timer) (proc : ProcRef) (msec : Nat) : Option Timer :=
  (pmBlock t.pm proc .sleeping).map fun (ok, pm) =>
    let t := { t with pm := pm }
    if ok then
      let wakeup := w32 (t.timerTicks + w32 (msec * timerHz) / 1000)
      { t with
        wakeup := Function.update t.wakeup proc wakeup
        nextWakeup := if t.nextWakeup > wakeup then wakeup else t.nextWakeup }
    else t

end Kos
