import Kos.Lemmas.Switch

/-!
# Each process runs as if it had a processor of its own

Over all runs from the start on, with interrupts in the handlers too, the process that runs has the registers that it would have on its own
processor, and those of each other process are in its frame. An interrupt that comes in a handler after the handler has chosen another
process breaks that.

`pm_fork` sets `kstack` of the child to the frame of its parent's system call, in the copy of the stack. So the interrupts of the child start
76 bytes below those of the parent, and the stack of a process gets smaller with each fork between its ancestors.
-/

namespace Kos

open SwitchAux

/-- `kmain` on the boot stack. -/
def bootState : Switch where
  mem _ := 0
  regs := ⟨0, 0, 0, 0, 0, 0, 0, gdtSelData, gdtSelData, gdtSelData, gdtSelData, 0x100000, gdtSelCode, 0x202, 0x9000, gdtSelData⟩
  esp0 := 0
  space := 0
  procs p := ⟨p = bootProc, 0, 0, 0, 0, 0⟩
  cur := bootProc
  last := none

/-- A process is created and gets the processor, and gives it back with a system call. -/
def bootSteps : List SwitchStep :=
  [.interrupt 0x20 0 [.op (.create 1 0x300000 0x400000 0x40000000 .user), .op (.schedule 1)],
    .interrupt 0x30 0 [.op .scRegs, .op (.result 9), .op (.schedule 0)]]

theorem bootState_booted : bootState.Booted (0x8000, 0x9000) where
  cur := rfl
  only p := decide_eq_true_iff
  last := rfl
  kernel := by decide
  ss := rfl
  low := by decide
  high := by decide

theorem bootSteps_ok : SwitchRunOk (0x8000, 0x9000) bootState bootSteps := by
  refine ⟨⟨⟨by decide, by decide, ?_⟩, ?_⟩, ?_⟩
  · intro q hq
    have hboot : q = bootProc := by
      obtain hq | hq := hq
      · by_cases h : q = bootProc
        · exact h
        · exact absurd hq (by simp [procs_pmRestore, bootState, h])
      · exact hq
    subst hboot
    exact .inr (by decide)
  · rintro _ ⟨⟩
    exact ⟨⟨rfl, by decide +kernel⟩, fun _ _ => trivial⟩
  · intro s' hs'
    obtain rfl := Option.some.inj hs'
    refine ⟨⟨trivial, ?_⟩, fun _ _ => trivial⟩
    rintro _ ⟨⟩
    refine ⟨trivial, ?_⟩
    rintro _ ⟨⟩
    exact ⟨⟨by decide +kernel, by decide +kernel⟩, fun _ _ => trivial⟩

namespace SwitchAux

/-- `pm_restore` and `pm_pick` in an interrupt within a handler, when the current process is not the one that was stopped. -/
theorem run_irq_other (s : Switch) (me : ProcRef) (frame intr errc : Nat) {k : Regs} (hlast : s.last ≠ some s.cur) (hmode : isUser k.cs = false)
    (hss : k.ss = gdtSelData) (hroom : 68 ≤ k.esp) :
    ∃ s', (KernelStep.irq k intr errc []).run me frame s = some s' ∧ s'.cur = s.cur ∧ s'.last = some s.cur ∧
      s'.mem = (nestedStart s k intr errc).mem ∧ s'.procs s.cur = { s.procs s.cur with esp := k.esp - 68 } := by
  have hproc : (nestedStart s k intr errc).procs s.cur = { s.procs s.cur with esp := k.esp - 68 } := by
    rw [nestedStart, procs_pmRestore, if_pos rfl]
  have hrun : (KernelStep.irq k intr errc []).run s.cur frame s = _ := run_irq rfl hmode
  have hpick := pmPick_other (s := nestedStart s k intr errc) hlast (k.esp - 68)
  rw [show (nestedStart s k intr errc).cur = s.cur from rfl, hproc] at hpick
  simp only [List.foldl_nil, hpick] at hrun
  exact ⟨_, hrun.trans (if_pos (framed_nestedStart _ _ _ hmode hss hroom).1), rfl, rfl, rfl, hproc⟩

end SwitchAux

/-- The registers of a handler on the boot stack. -/
def handlerRegs : Regs := { bootState.regs with esp := 0x8f00 }

end Kos
