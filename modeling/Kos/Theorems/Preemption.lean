import Kos.Lib.Run
import Kos.Pm.Table
import Kos.Timer

/-!
# When a tick takes the processor away

`pm_update` schedules another process unless the status of the current one is `PS_READY`; but `pm_schedule` sets the status of the
process that it chooses to `PS_RUNNING`. So every tick goes on to the next ready process, however much time is left, and in the
cooperative mode, too. The processor stays with a process only when its status is `PS_READY` or when the scheduler has no other process
to choose (`keeps_cpu_of_undisturbed`).
-/

namespace Kos

/-- The process that `pm_schedule` gives the processor to. -/
def Pm.nextProc (s : Pm) : ProcRef :=
  match s.plistTail, s.plistHead with
  | some tail, some head => (if tail = head then some head else s.next head).getD idleProc
  | _, _ => idleProc

/-- The next tick does not count the time of the current process down to 0, or time does not matter. -/
def HasTime (koop : Bool) (t : Timer) : Prop := koop = true ∨ sub32 (t.pm.procs t.pm.curProc).ticksLeft 1 ≠ 0

/-- From one state to the other the current process keeps the processor, unless its time is over. -/
def KeepsCpu (koop : Bool) (t t' : Timer) : Prop := HasTime koop t → t'.pm.curProc = t.pm.curProc

/-- When the sleeping processes that are due have been woken, the current process has the status that `pm_update` tests, or it is the
one that the scheduler chooses next. -/
def Undisturbed (t : Timer) : Prop :=
  (t.wakeSleepers.pm.procs t.pm.curProc).status = .ready ∨ t.wakeSleepers.pm.nextProc = t.pm.curProc

instance (koop : Bool) (t : Timer) : Decidable (HasTime koop t) := inferInstanceAs (Decidable (_ ∨ _))

instance (t : Timer) : Decidable (Undisturbed t) := inferInstanceAs (Decidable (_ ∨ _))

namespace PreemptionAux

variable {s s' : Pm}

theorem retire_next (s : Pm) (p : ProcRef) : s.retire.next p = s.next p := by
  unfold Pm.next Pm.retire Pm.setProc
  by_cases hp : p = s.curProc
  · subst hp
    simp
  · simp [hp]

theorem pmSchedule_curProc (h : pmSchedule s = some s') : s'.curProc = s.nextProc := by
  have htail : s.retire.plistTail = s.plistTail := rfl
  have hhead : s.retire.plistHead = s.plistHead := rfl
  simp only [pmSchedule, htail, hhead] at h
  cases ht : s.plistTail with
  | none =>
    rw [ht] at h
    cases h
  | some tail =>
    cases hh : s.plistHead with
    | none =>
      rw [ht, hh] at h
      cases h
    | some head =>
      rw [ht, hh] at h
      have hnew : (s.retire.rotateQueue tail head).plistHead = if tail = head then some head else s.next head := by
        rw [← retire_next]
        simp only [Pm.rotateQueue, Pm.next, Pm.setNext, Pm.setProc]
        by_cases he : tail = head
        · subst he
          simp
        · simp [he, Ne.symm he]
      simp only [Option.some.injEq] at h
      subst h
      simp only [Pm.nextProc, ht, hh, ← hnew, Pm.runHead]
      cases (s.retire.rotateQueue tail head).plistHead <;> rfl

/-- `pm_update` leaves the current process alone when it has time and the status tested, and calls `pm_schedule` otherwise. -/
theorem pmUpdate_curProc {koop : Bool} (h : pmUpdate s koop = some s')
    (htime : koop = true ∨ sub32 (s.procs s.curProc).ticksLeft 1 ≠ 0) :
    s'.curProc = if (s.procs s.curProc).status = .ready then s.curProc else s.nextProc := by
  simp only [pmUpdate] at h
  split at h
  · rename_i hne
    rw [if_neg hne]
    exact pmSchedule_curProc h
  · rename_i heq
    rw [if_pos (not_not.mp heq)]
    split at h
    · cases h
      rfl
    · rename_i hk
      have hleft : sub32 (s.procs s.curProc).ticksLeft 1 ≠ 0 := htime.resolve_left hk
      have hfield : ((s.setProc s.curProc fun proc => { proc with ticksLeft := sub32 proc.ticksLeft 1 }).procs s.curProc).ticksLeft =
          sub32 (s.procs s.curProc).ticksLeft 1 := by
        simp [Pm.setProc]
      have hcur : (s.setProc s.curProc fun proc => { proc with ticksLeft := sub32 proc.ticksLeft 1 }).curProc = s.curProc := rfl
      rw [hcur, hfield, if_neg hleft] at h
      cases h
      rfl

/-! ## Waking up -/

/-- Waking a process changes neither who runs nor how much time any process has. -/
structure SameRunning (s s' : Pm) : Prop where
  curProc : s'.curProc = s.curProc
  ticksLeft : ∀ p, (s'.procs p).ticksLeft = (s.procs p).ticksLeft

theorem sameRunning_setProc (s : Pm) (p : ProcRef) {f : Proc → Proc} (hf : ∀ proc, (f proc).ticksLeft = proc.ticksLeft) :
    SameRunning s (s.setProc p f) := by
  refine ⟨rfl, fun q => ?_⟩
  by_cases hq : q = p
  · subst hq
    simp [Pm.setProc, hf]
  · simp [Pm.setProc, hq]

theorem SameRunning.trans {s'' : Pm} (h : SameRunning s s') (h' : SameRunning s' s'') : SameRunning s s'' :=
  ⟨h'.curProc.trans h.curProc, fun p => (h'.ticksLeft p).trans (h.ticksLeft p)⟩

theorem sameRunning_pmActivate (s : Pm) (p : ProcRef) : SameRunning s (pmActivate s p) := by
  have hlast : ∀ s₁ : Pm, SameRunning s₁ (s₁.setNext p none) := fun s₁ => sameRunning_setProc s₁ p fun _ => rfl
  unfold pmActivate
  cases s.plistTail with
  | none => exact ⟨rfl, (hlast s).ticksLeft⟩
  | some tail =>
    have htail : SameRunning s (s.setNext tail (some p)) := sameRunning_setProc s tail fun _ => rfl
    exact ⟨rfl, (htail.trans (hlast _)).ticksLeft⟩

theorem sameRunning_pmUnblock (s : Pm) (p : ProcRef) : SameRunning s (pmUnblock s p) :=
  (sameRunning_setProc s p (f := fun proc => { proc with status := .ready, block := .notBlocked }) fun _ => rfl).trans
    (sameRunning_pmActivate _ p)

theorem sameRunning_foldl (ps : List ProcRef) (t : Timer) : SameRunning t.pm (ps.foldl wakeProc t).pm := by
  induction ps generalizing t with
  | nil => exact ⟨rfl, fun _ => rfl⟩
  | cons p ps ih =>
    refine SameRunning.trans ?_ (ih (wakeProc t p))
    simp only [wakeProc]
    split
    · split
      · exact sameRunning_pmUnblock t.pm p
      · split <;> exact ⟨rfl, fun _ => rfl⟩
    · exact ⟨rfl, fun _ => rfl⟩

theorem sameRunning_wakeSleepers (t : Timer) : SameRunning t.pm t.wakeSleepers.pm := by
  simp only [Timer.wakeSleepers]
  split
  · exact sameRunning_foldl tableProcs { t.tick with nextWakeup := ullongMax }
  · exact ⟨rfl, fun _ => rfl⟩

/-- Who runs after a tick that does not count the time of the current process down to 0. -/
theorem timerIrq_curProc {koop : Bool} {t t' : Timer} (h : timerIrq koop t = some t') (htime : HasTime koop t) :
    t'.pm.curProc = if (t.wakeSleepers.pm.procs t.pm.curProc).status = .ready then t.pm.curProc else t.wakeSleepers.pm.nextProc := by
  obtain ⟨hcur, hleft⟩ := sameRunning_wakeSleepers t
  obtain ⟨pm, hpm, rfl⟩ := Option.map_eq_some_iff.mp h
  rw [HasTime, ← hleft, ← hcur] at htime
  rw [← hcur]
  exact pmUpdate_curProc hpm htime

theorem keepsCpu_iff {koop : Bool} {t t' : Timer} (h : timerIrq koop t = some t') :
    KeepsCpu koop t t' ↔ (HasTime koop t → Undisturbed t) := by
  refine imp_congr_right fun htime => ?_
  rw [timerIrq_curProc h htime, Undisturbed]
  split
  · rename_i hready
    simp [hready]
  · rename_i hready
    simp [hready]

end PreemptionAux

open PreemptionAux

/-- In every state of the timer and the scheduler: the next tick leaves the processor to the current process until its time is over, or
in the cooperative mode always, if and only if it finds the process undisturbed; and a process that is undisturbed at every tick of a
run, and whose time no tick counts down to 0, keeps the processor over the whole run. -/
theorem keeps_cpu_of_undisturbed (koop : Bool) (t : Timer) :
    (∀ t', timerIrq koop t = some t' → (KeepsCpu koop t t' ↔ (HasTime koop t → Undisturbed t))) ∧
    ∀ t', Reach (fun t (_ : Unit) => timerIrq koop t) (fun t _ => HasTime koop t ∧ Undisturbed t) t t' →
      t'.pm.curProc = t.pm.curProc := by
  refine ⟨fun t' h => keepsCpu_iff h, fun t' h => ?_⟩
  refine h.inv (fun t' => t'.pm.curProc = t.pm.curProc) rfl ?_
  intro t₁ _ t₂ hcur hp hstep
  exact ((keepsCpu_iff hstep).mpr (fun _ => hp.2) hp.1).trans hcur

/-- The timer after the system has started, with these calls of the scheduler. -/
def started (calls : List PmCall) : Option Timer :=
  (initPm zeroMem).bind fun t => (calls.foldlM PmCall.exec t).map fun t => initTimer t.pm

/-- With no other process ready, the one that runs keeps the processor over two ticks. -/
theorem alone_keeps_cpu : ∃ t t', started [.schedule] = some t ∧
    (timerIrq false t).bind (timerIrq false) = some t' ∧ t'.pm.curProc = t.pm.curProc := by
  have hrun : (started [.schedule]).any (fun t => HasTime false t ∧ Undisturbed t ∧
      ((timerIrq false t).any fun t₁ => HasTime false t₁ ∧ Undisturbed t₁ ∧ (timerIrq false t₁).isSome)) = true := by
    decide +kernel
  obtain ⟨t, ht, h⟩ := (Option.any_eq_true _ _).mp hrun
  obtain ⟨htime, hund, h⟩ := of_decide_eq_true h
  obtain ⟨t₁, ht₁, h⟩ := (Option.any_eq_true _ _).mp h
  obtain ⟨htime₁, hund₁, h⟩ := of_decide_eq_true h
  obtain ⟨t', ht'⟩ := Option.isSome_iff_exists.mp h
  refine ⟨t, t', ht, by rw [ht₁]; exact ht', ?_⟩
  exact (keeps_cpu_of_undisturbed false t).2 t' (.step () (.step () .init ⟨htime, hund⟩ ht₁) ⟨htime₁, hund₁⟩ ht')

/-- Two processes are ready, and one of them runs with all its 50 ticks left: the first tick gives the processor to the other one, in
both modes. -/
theorem running_preempted : ∃ t, started [.create .ready zeroMem, .create .ready zeroMem, .schedule] = some t ∧
    (t.pm.procs t.pm.curProc).status = .running ∧ (t.pm.procs t.pm.curProc).ticksLeft = 50 ∧ t.pm.curProc = 1 ∧
    ∀ koop, (timerIrq koop t).map (·.pm.curProc) = some 2 := by
  have hrun : (started [.create .ready zeroMem, .create .ready zeroMem, .schedule]).any (fun t =>
      (t.pm.procs t.pm.curProc).status = .running ∧ (t.pm.procs t.pm.curProc).ticksLeft = 50 ∧ t.pm.curProc = 1 ∧
        ∀ koop, (timerIrq koop t).map (·.pm.curProc) = some 2) = true := by
    decide +kernel
  obtain ⟨t, ht, h⟩ := (Option.any_eq_true _ _).mp hrun
  exact ⟨t, ht, of_decide_eq_true h⟩

end Kos
