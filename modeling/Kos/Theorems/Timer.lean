import Kos.Pm.Table
import Kos.Timer

/-!
# Waking up sleeping processes

`timer_irq` looks at the process table only when the clock has reached `next_wakeup`. No process sleeps that has to be woken before, so
that it unblocks the same processes at the same ticks as a version that looks at the whole table on every tick
(`timer_wakes_like_full_scan`).
-/

namespace Kos

/-- `timer_irq` without the test of `next_wakeup`: the process table is scanned on every tick. -/
def timerIrqAlways (koop : Bool) (t : Timer) : Option Timer :=
  let t := t.tick.scan
  (pmUpdate t.pm koop).map fun pm => { t with pm := pm }

/-- What happens to the timer: a process sleeps, or the clock ticks. Between, other parts of the kernel do something to the processes,
whatever it is, and a new process gets a slot of the table. -/
inductive TimerCall where
  | sleep (p : ProcRef) (msec : Nat)
  | irq (koop : Bool)
  | others (pm : Pm)
  | create (p : ProcRef)

def TimerCall.exec (irq : Bool → Timer → Option Timer) (t : Timer) : TimerCall → Option Timer
  | sleep p msec => timerSleep t p msec
  | .irq koop => irq koop t
  | others pm => some { t with pm := pm }
  | create p => some { t with wakeup := Function.update t.wakeup p 0 }

/-- A run with one of the two versions of `timer_irq`. -/
def runTimer (irq : Bool → Timer → Option Timer) (t : Timer) (calls : List TimerCall) : Option Timer :=
  calls.foldlM (TimerCall.exec irq) t

/-- Everything but `next_wakeup`. -/
def Timer.hideNext (t : Timer) : Timer := { t with nextWakeup := 0 }

/-- No process that these are has to be woken before `next_wakeup`. -/
def NextIsFirst (t : Timer) (D : ProcRef → Prop) : Prop := ∀ p, D p → t.wakeup p ≠ 0 → t.nextWakeup ≤ t.wakeup p

namespace TimerAux

variable {t t' : Timer} {p : ProcRef}

/-! ## Scanning -/

theorem mem_tableProcs : p ∈ tableProcs ↔ p.val < maxProcs := by
  simp only [tableProcs, List.mem_map, List.mem_finRange, true_and]
  constructor
  · rintro ⟨i, rfl⟩
    exact i.isLt
  · intro h
    exact ⟨⟨p.val, h⟩, rfl⟩

theorem eq_of_hideNext (h : t.hideNext = t'.hideNext) : t = { t' with nextWakeup := t.nextWakeup } := by
  obtain ⟨pm, wakeup, timerTicks, nextWakeup, unblocked⟩ := t
  obtain ⟨pm', wakeup', timerTicks', nextWakeup', unblocked'⟩ := t'
  simp only [Timer.hideNext, Timer.mk.injEq] at h
  simp only [h]

/-- One process is woken or not, whatever `next_wakeup` is. -/
theorem wakeProc_hideNext (h : t.hideNext = t'.hideNext) : (wakeProc t p).hideNext = (wakeProc t' p).hideNext := by
  rw [eq_of_hideNext h]
  simp only [wakeProc]
  split
  · split
    · rfl
    · split <;> split <;> rfl
  · rfl

theorem foldl_hideNext (ps : List ProcRef) (h : t.hideNext = t'.hideNext) :
    (ps.foldl wakeProc t).hideNext = (ps.foldl wakeProc t').hideNext := by
  induction ps generalizing t t' with
  | nil => exact h
  | cons p ps ih => exact ih (wakeProc_hideNext h)

/-- A process that is not due is left alone. -/
theorem wakeProc_notDue (h : t.wakeup p ≠ 0 → t.timerTicks < t.wakeup p) : (wakeProc t p).hideNext = t.hideNext := by
  simp only [wakeProc]
  split
  · rename_i hne
    rw [if_neg (Nat.not_le.mpr (h hne))]
    split <;> rfl
  · rfl

theorem foldl_notDue (ps : List ProcRef) (h : ∀ p ∈ ps, t.wakeup p ≠ 0 → t.timerTicks < t.wakeup p) :
    (ps.foldl wakeProc t).hideNext = t.hideNext := by
  induction ps with
  | nil => rfl
  | cons p ps ih =>
    have hp := wakeProc_notDue (h p (List.mem_cons_self ..))
    rw [List.foldl_cons, foldl_hideNext ps hp]
    exact ih fun q hq => h q (List.mem_cons_of_mem p hq)

theorem scan_hideNext (h : t.hideNext = t'.hideNext) : t.scan.hideNext = t'.scan.hideNext := by
  rw [eq_of_hideNext h, Timer.scan, Timer.scan]

theorem scan_notDue (h : ∀ p ∈ tableProcs, t.wakeup p ≠ 0 → t.timerTicks < t.wakeup p) : t.scan.hideNext = t.hideNext := by
  have hscan := foldl_notDue (t := { t with nextWakeup := ullongMax }) tableProcs h
  rwa [← Timer.scan] at hscan

/-- After a process has been looked at, `next_wakeup` is not behind it either. -/
theorem wakeProc_nextIsFirst {D : ProcRef → Prop} (h : NextIsFirst t D) : NextIsFirst (wakeProc t p) fun q => D q ∨ q = p := by
  intro q hq
  simp only [wakeProc]
  split
  · rename_i hne
    split
    · -- `p` is woken and sleeps no longer
      by_cases hqp : q = p
      · subst hqp
        simp
      · simp only [Function.update_of_ne hqp]
        exact h q (hq.resolve_right hqp)
    · split
      · rename_i hlt
        intro hq0
        rcases hq with hq | rfl
        · exact Nat.le_trans (Nat.le_of_lt hlt) (h q hq hq0)
        · exact Nat.le_refl _
      · rename_i hge
        intro hq0
        rcases hq with hq | rfl
        · exact h q hq hq0
        · exact Nat.not_lt.mp hge
  · rename_i hp0
    intro hq0
    rcases hq with hq | rfl
    · exact h q hq hq0
    · exact absurd hq0 hp0

theorem foldl_nextIsFirst (ps : List ProcRef) {D : ProcRef → Prop} (h : NextIsFirst t D) :
    NextIsFirst (ps.foldl wakeProc t) fun q => D q ∨ q ∈ ps := by
  induction ps generalizing t D with
  | nil =>
    intro q hq
    exact h q (hq.resolve_right List.not_mem_nil)
  | cons p ps ih =>
    intro q hq
    refine ih (wakeProc_nextIsFirst (p := p) h) q ?_
    rcases hq with hq | hq
    · exact .inl (.inl hq)
    · exact (List.mem_cons.mp hq).imp .inr id

/-- A scan of the table finds the first process that has to be woken. -/
theorem scan_nextIsFirst (t : Timer) : NextIsFirst t.scan (·.val < maxProcs) := by
  have hnone : NextIsFirst { t with nextWakeup := ullongMax } fun _ => False := fun _ hf => hf.elim
  have hscan := foldl_nextIsFirst tableProcs hnone
  rw [← Timer.scan] at hscan
  exact fun p hp => hscan p (.inr (mem_tableProcs.mpr hp))

/-! ## One call -/

/-- The two versions are in the same state, apart from `next_wakeup`, and with the test it is not behind any process. -/
structure Alike (t t' : Timer) : Prop where
  same : t.hideNext = t'.hideNext
  first : NextIsFirst t (·.val < maxProcs)

theorem alike_wakeSleepers (h : Alike t t') : Alike t.wakeSleepers t'.tick.scan := by
  have htick : t.tick.hideNext = t'.tick.hideNext := by
    rw [eq_of_hideNext h.same]
    rfl
  simp only [Timer.wakeSleepers]
  split
  · exact ⟨scan_hideNext htick, scan_nextIsFirst _⟩
  · rename_i hlt
    -- nobody is due, so that the scan of the other version wakes nobody
    have hnone : t.tick.scan.hideNext = t.tick.hideNext := by
      refine scan_notDue fun p hp hne => ?_
      exact Nat.lt_of_lt_of_le (Nat.not_le.mp hlt) (h.first p (mem_tableProcs.mp hp) hne)
    exact ⟨hnone.symm.trans (scan_hideNext htick), h.first⟩

/-- Two results that are alike, if there is one. -/
def AlikeResult : Option Timer → Option Timer → Prop
  | some t, some t' => Alike t t'
  | none, none => True
  | _, _ => False

theorem exec_alike (h : Alike t t') (c : TimerCall) : AlikeResult (c.exec timerIrq t) (c.exec timerIrqAlways t') := by
  obtain ⟨hsame, hfirst⟩ := h
  cases c with
  | sleep p msec =>
    rw [eq_of_hideNext hsame] at hfirst ⊢
    simp only [TimerCall.exec, timerSleep]
    cases pmBlock t'.pm p .sleeping with
    | none => trivial
    | some r =>
      obtain ⟨ok, pm⟩ := r
      cases ok with
      | false => exact ⟨rfl, hfirst⟩
      | true =>
        refine ⟨rfl, fun q hq => ?_⟩
        simp only [if_true]
        by_cases hqp : q = p
        · subst hqp
          simp only [Function.update_self]
          intro _
          split <;> omega
        · simp only [Function.update_of_ne hqp]
          intro hne
          have := hfirst q hq hne
          split
          · rename_i hlt
            exact Nat.le_trans (Nat.le_of_lt hlt) this
          · exact this
  | irq koop =>
    obtain ⟨hsame', hfirst'⟩ := alike_wakeSleepers ⟨hsame, hfirst⟩
    simp only [TimerCall.exec, timerIrq, timerIrqAlways]
    generalize t.wakeSleepers = u at hsame' hfirst' ⊢
    generalize t'.tick.scan = u' at hsame' ⊢
    rw [eq_of_hideNext hsame'] at hfirst' ⊢
    simp only
    cases pmUpdate u'.pm koop with
    | none => trivial
    | some pm => exact ⟨rfl, hfirst'⟩
  | others pm =>
    refine ⟨?_, hfirst⟩
    rw [eq_of_hideNext hsame]
    rfl
  | create p =>
    refine ⟨?_, fun q hq => ?_⟩
    · rw [eq_of_hideNext hsame]
      rfl
    · by_cases hqp : q = p
      · subst hqp
        simp
      · simp only [Function.update_of_ne hqp]
        exact hfirst q hq

theorem run_alike (calls : List TimerCall) (h : Alike t t') :
    AlikeResult (runTimer timerIrq t calls) (runTimer timerIrqAlways t' calls) := by
  induction calls generalizing t t' with
  | nil => exact h
  | cons c calls ih =>
    have hc := exec_alike h c
    simp only [runTimer, List.foldlM_cons]
    cases hr : c.exec timerIrq t with
    | none =>
      rw [hr] at hc
      cases hr' : c.exec timerIrqAlways t' with
      | none => trivial
      | some t₁' =>
        rw [hr'] at hc
        exact hc.elim
    | some t₁ =>
      rw [hr] at hc
      cases hr' : c.exec timerIrqAlways t' with
      | none =>
        rw [hr'] at hc
        exact hc.elim
      | some t₁' =>
        rw [hr'] at hc
        exact ih hc

end TimerAux

open TimerAux

/-- In every run from `init_timer`, `next_wakeup` is not behind the `wakeup` of any process of the table that sleeps, and everything
else, with the record of the processes unblocked and of the ticks, is as in the run of the version that scans on every tick; a run of
one version comes to its end if and only if the run of the other does. -/
theorem timer_wakes_like_full_scan (pm : Pm) (calls : List TimerCall) :
    (∀ t, runTimer timerIrq (initTimer pm) calls = some t →
      ∀ p : ProcRef, p.val < maxProcs → t.wakeup p ≠ 0 → t.nextWakeup ≤ t.wakeup p) ∧
    (runTimer timerIrq (initTimer pm) calls).map Timer.hideNext =
      (runTimer timerIrqAlways (initTimer pm) calls).map Timer.hideNext := by
  have hinit : Alike (initTimer pm) (initTimer pm) := ⟨rfl, fun p _ hne => absurd rfl hne⟩
  have hrun := run_alike calls hinit
  cases hr : runTimer timerIrq (initTimer pm) calls with
  | none =>
    cases hr' : runTimer timerIrqAlways (initTimer pm) calls with
    | none => exact ⟨fun t ht => (by cases ht), rfl⟩
    | some t' =>
      rw [hr, hr'] at hrun
      exact hrun.elim
  | some t =>
    cases hr' : runTimer timerIrqAlways (initTimer pm) calls with
    | none =>
      rw [hr, hr'] at hrun
      exact hrun.elim
    | some t' =>
      rw [hr, hr'] at hrun
      have hrun : Alike t t' := hrun
      refine ⟨fun t₁ ht => ?_, congrArg some hrun.same⟩
      cases ht
      exact hrun.first

/-- Three processes that are ready, the first of which is the current one. -/
def threeReady : Pm := { [0, 1, 2].foldl pmUnblock emptyTable with curProc := 0 }

/-- A process sleeps for 30 milliseconds, and is unblocked at the third tick in both versions. -/
theorem threeReady_sleeps :
    ∃ t, runTimer timerIrq (initTimer threeReady) [.sleep 1 30, .irq true, .irq true] = some t ∧
      t.wakeup 1 = 3 ∧ t.nextWakeup ≤ t.wakeup 1 ∧
      (runTimer timerIrq (initTimer threeReady) [.sleep 1 30, .irq true, .irq true, .irq true]).map Timer.unblocked =
        some [(3, 1)] ∧
      (runTimer timerIrqAlways (initTimer threeReady) [.sleep 1 30, .irq true, .irq true, .irq true]).map Timer.unblocked =
        some [(3, 1)] := by
  have hrun : (runTimer timerIrq (initTimer threeReady) [.sleep 1 30, .irq true, .irq true]).any (fun t => t.wakeup 1 = 3) = true := by
    decide +kernel
  obtain ⟨t, ht, hw⟩ := (Option.any_eq_true _ _).mp hrun
  have hw : t.wakeup 1 = 3 := of_decide_eq_true hw
  have hlog : (runTimer timerIrq (initTimer threeReady) [.sleep 1 30, .irq true, .irq true, .irq true]).map Timer.unblocked =
      some [(3, 1)] := by decide +kernel
  have hsame := congrArg (Option.map Timer.unblocked)
    (timer_wakes_like_full_scan threeReady [.sleep 1 30, .irq true, .irq true, .irq true]).2
  rw [Option.map_map, Option.map_map] at hsame
  refine ⟨t, ht, hw, ?_, hlog, hsame.symm.trans hlog⟩
  exact (timer_wakes_like_full_scan threeReady _).1 t ht 1 (by decide) (by rw [hw]; decide)

end Kos
