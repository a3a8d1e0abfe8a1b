import Kos.Lemmas.ReadyQueue
import Kos.Theorems.Timer

/-!
# How long a process sleeps

A process that sleeps for `msec` milliseconds is due at the first tick of the clock that is later than now and not before the end of
that time. `timer_sleep` computes the end in 32 bits, the product with `TIMER_HZ` first, and stores it where 0 means that the process
does not sleep. So the process is woken when it is due if and only if neither of the two overflows and the end is not 0; for a time of
less than two ticks, the next tick is right as long as the end is not 0 (`timerSleep_onTime_iff`).
-/

namespace Kos

/-- The tick at which a process is due that begins to sleep at `ticks`. -/
def dueTick (ticks msec : Nat) : Nat := max (ticks + 1) (ticks + msec * timerHz / 1000)

/-- The call does not concern the process: it does not sleep again, its slot is not given to another one, and nobody wakes it. -/
def TimerCall.Spares (p : ProcRef) : TimerCall → Prop
  | sleep q _ => q ≠ p
  | irq _ => True
  | others pm => (pm.procs p).status = .blocked
  | create q => q ≠ p

instance (p : ProcRef) : DecidablePred (TimerCall.Spares p)
  | .sleep q _ | .create q => inferInstanceAs (Decidable (q ≠ p))
  | .irq _ => inferInstanceAs (Decidable True)
  | .others pm => inferInstanceAs (Decidable ((pm.procs p).status = .blocked))

def TimerCall.isIrq : TimerCall → Bool
  | irq _ => true
  | _ => false

/-- Since `t`, the clock has ticked `n` times, and the process was unblocked by the tick `due` and no other one, if this has come. -/
def WokenAt (t u : Timer) (p : ProcRef) (due n : Nat) : Prop :=
  ∃ woken, u.unblocked = t.unblocked ++ woken ∧
    woken.filter (·.2 = p) = if due ≤ t.timerTicks + n then [(due, p)] else []

/-- The clock comes to the tick `due`, and whatever other processes do from `t` on, it is the one that unblocks the process. -/
def OnTime (t : Timer) (p : ProcRef) (due : Nat) : Prop :=
  due ≤ ullongMax ∧ ∀ calls u, (∀ c ∈ calls, c.Spares p) → runTimer timerIrq t calls = some u →
    WokenAt t u p due (calls.countP TimerCall.isIrq)

/-- The end of the time fits 32 bits, as does the product that it is computed with, or the next tick is right anyway; and what is stored
is not 0. The clock itself does not overflow. -/
def SleepOk (ticks msec : Nat) : Prop :=
  dueTick ticks msec ≤ ullongMax ∧
    (msec < 20 ∧ (ticks + msec / 10) % 4294967296 ≠ 0 ∨
      msec * timerHz < 4294967296 ∧ ticks + msec / 10 < 4294967296 ∧ ticks + msec / 10 ≠ 0)

instance (ticks msec : Nat) : Decidable (SleepOk ticks msec) := inferInstanceAs (Decidable (_ ∧ _))

namespace SleepAux

open TimerAux

variable {t t' u : Timer} {p : ProcRef}

/-! ## One scan -/

/-- The process has to be woken. -/
def Due (t : Timer) (p : ProcRef) : Prop := t.wakeup p ≠ 0 ∧ t.wakeup p ≤ t.timerTicks

instance (t : Timer) : DecidablePred (Due t) := fun p => inferInstanceAs (Decidable (t.wakeup p ≠ 0 ∧ t.wakeup p ≤ t.timerTicks))

/-- What waking some processes does to the clock, to the other processes and to the record. -/
structure Woke (t u : Timer) (ps : List ProcRef) : Prop where
  ticks : u.timerTicks = t.timerTicks
  wakeup : ∀ q, u.wakeup q = if q ∈ ps ∧ Due t q then 0 else t.wakeup q
  unblocked : u.unblocked = t.unblocked ++ (ps.filter fun q => decide (Due t q)).map fun q => (t.timerTicks, q)

theorem wakeProc_woke (t : Timer) (p : ProcRef) : Woke t (wakeProc t p) [p] := by
  unfold wakeProc
  by_cases hdue : Due t p
  · rw [if_pos hdue.1, if_pos hdue.2]
    refine ⟨rfl, fun q => ?_, by simp [hdue]⟩
    rcases eq_or_ne q p with rfl | hne
    · simp [hdue]
    · simp [hne]
  · have hsame : ∀ q, t.wakeup q = if q ∈ [p] ∧ Due t q then 0 else t.wakeup q := by
      intro q
      rw [if_neg]
      rintro ⟨hq, hd⟩
      exact hdue (List.mem_singleton.mp hq ▸ hd)
    have hlog : t.unblocked = t.unblocked ++ ([p].filter fun q => decide (Due t q)).map fun q => (t.timerTicks, q) := by simp [hdue]
    split
    · rename_i hne
      rw [if_neg fun hle => hdue ⟨hne, hle⟩]
      split
      · exact ⟨rfl, hsame, hlog⟩
      · exact ⟨rfl, hsame, hlog⟩
    · exact ⟨rfl, hsame, hlog⟩

theorem foldl_woke (t : Timer) (ps : List ProcRef) (hnodup : ps.Nodup) : Woke t (ps.foldl wakeProc t) ps := by
  induction ps generalizing t with
  | nil => exact ⟨rfl, fun q => by simp, by simp⟩
  | cons p ps ih =>
    obtain ⟨hp, hnodup⟩ := List.nodup_cons.mp hnodup
    have hone := wakeProc_woke t p
    have hrest := ih (wakeProc t p) hnodup
    -- the processes behind `p` are as due as they were
    have hdue : ∀ q ∈ ps, (Due (wakeProc t p) q ↔ Due t q) := by
      intro q hq
      have hne : q ≠ p := fun he => hp (he ▸ hq)
      rw [Due, Due, hone.ticks, hone.wakeup q, if_neg fun h => hne (List.mem_singleton.mp h.1)]
    refine ⟨hrest.ticks.trans hone.ticks, fun q => ?_, ?_⟩
    · rw [List.foldl_cons, hrest.wakeup q, hone.wakeup q]
      by_cases hq : q ∈ ps
      · have hne : q ≠ p := fun he => hp (he ▸ hq)
        simp [hq, hdue q hq, hne]
      · simp [hq]
    · have hfilter : ps.filter (fun q => decide (Due (wakeProc t p) q)) = ps.filter fun q => decide (Due t q) :=
        List.filter_congr fun q hq => decide_eq_decide.mpr (hdue q hq)
      rw [List.foldl_cons, hrest.unblocked, hone.unblocked, hone.ticks, hfilter, List.append_assoc, ← List.map_append,
        ← List.filter_append, List.singleton_append]

theorem nodup_tableProcs : tableProcs.Nodup := (List.nodup_finRange maxProcs).map (Fin.castSucc_injective maxProcs)

/-- What a scan records of one process. -/
theorem filter_woken (t : Timer) (hp : p.val < maxProcs) :
    ((tableProcs.filter fun q => decide (Due t q)).map fun q => (t.timerTicks, q)).filter (·.2 = p) =
      if Due t p then [(t.timerTicks, p)] else [] := by
  have hself : tableProcs.filter (fun q => q == p) = [p] := by
    rw [List.filter_beq, List.count_eq_one_of_mem nodup_tableProcs (mem_tableProcs.mpr hp)]
    rfl
  rw [List.filter_map, List.filter_filter]
  simp only [Function.comp_def]
  by_cases hdue : Due t p
  · have hfilter : ∀ q ∈ tableProcs, (decide (q = p) && decide (Due t q)) = (q == p) := by
      intro q _
      rcases eq_or_ne q p with rfl | hne
      · simp [hdue]
      · simp [hne]
    rw [List.filter_congr hfilter, hself, if_pos hdue]
    rfl
  · have hfilter : ∀ q ∈ tableProcs, ¬(decide (q = p) && decide (Due t q)) = true := by
      intro q _
      rcases eq_or_ne q p with rfl | hne
      · simp [hdue]
      · simp [hne]
    rw [List.filter_eq_nil_iff.mpr hfilter, if_neg hdue]
    rfl

/-! ## One call -/

/-- What one call does to the process and to the record of it. -/
structure Stepped (t u : Timer) (p : ProcRef) (n : Nat) : Prop where
  first : NextIsFirst u (·.val < maxProcs)
  ticks : u.timerTicks = if n = 0 then t.timerTicks else t.tick.timerTicks
  wakeup : u.wakeup p = if n ≠ 0 ∧ Due t.tick p then 0 else t.wakeup p
  unblocked : ∃ woken, u.unblocked = t.unblocked ++ woken ∧
    woken.filter (·.2 = p) = if n ≠ 0 ∧ Due t.tick p then [(t.tick.timerTicks, p)] else []

theorem exec_nextIsFirst (h : NextIsFirst t (·.val < maxProcs)) {c : TimerCall} (hc : c.exec timerIrq t = some u) :
    NextIsFirst u (·.val < maxProcs) := by
  have halike := exec_alike ⟨rfl, h⟩ c
  rw [hc] at halike
  cases hr : c.exec timerIrqAlways t with
  | none =>
    rw [hr] at halike
    exact halike.elim
  | some u' =>
    rw [hr] at halike
    exact halike.first

theorem fields_of_hideNext (h : t.hideNext = t'.hideNext) :
    t.timerTicks = t'.timerTicks ∧ t.wakeup = t'.wakeup ∧ t.unblocked = t'.unblocked := by
  rw [eq_of_hideNext h]
  exact ⟨rfl, rfl, rfl⟩

theorem irq_stepped (h : NextIsFirst t (·.val < maxProcs)) (hp : p.val < maxProcs) {koop : Bool} (hirq : timerIrq koop t = some u) :
    Stepped t u p 1 := by
  have hfirst := exec_nextIsFirst (c := .irq koop) h hirq
  obtain ⟨pm, -, rfl⟩ := Option.map_eq_some_iff.mp hirq
  -- the process table is scanned, or a scan would wake nobody
  obtain ⟨hticks, hwakeup, hlog⟩ := fields_of_hideNext (alike_wakeSleepers ⟨rfl, h⟩).same
  have hwoke : Woke { t.tick with nextWakeup := ullongMax } t.tick.scan tableProcs := foldl_woke _ tableProcs nodup_tableProcs
  have hself := hwoke.wakeup p
  simp only [mem_tableProcs.mpr hp, true_and] at hself
  have hdue : Due { t.tick with nextWakeup := ullongMax } p ↔ 1 ≠ 0 ∧ Due t.tick p := ⟨fun hd => ⟨Nat.one_ne_zero, hd⟩, fun hd => hd.2⟩
  refine ⟨hfirst, hticks.trans hwoke.ticks, ?_, _, hlog.trans hwoke.unblocked, ?_⟩
  · exact (congrFun hwakeup p).trans (hself.trans (if_congr hdue rfl rfl))
  · rw [filter_woken _ hp]
    exact if_congr hdue rfl rfl

theorem call_stepped (h : NextIsFirst t (·.val < maxProcs)) (hp : p.val < maxProcs) {c : TimerCall} (hs : c.Spares p)
    (hc : c.exec timerIrq t = some u) : Stepped t u p (if c.isIrq then 1 else 0) := by
  have hfirst := exec_nextIsFirst h hc
  have hnone : ∀ {u : Timer}, NextIsFirst u (·.val < maxProcs) → u.timerTicks = t.timerTicks → u.wakeup p = t.wakeup p →
      u.unblocked = t.unblocked → Stepped t u p 0 := by
    intro u hfirst hticks hwakeup hlog
    exact ⟨hfirst, by rw [if_pos rfl, hticks], by rw [hwakeup]; simp, [], by rw [hlog, List.append_nil], by simp⟩
  cases c with
  | irq koop => exact irq_stepped h hp hc
  | sleep q msec =>
    have hne : p ≠ q := fun he => hs he.symm
    obtain ⟨⟨ok, pm⟩, -, rfl⟩ := Option.map_eq_some_iff.mp hc
    cases ok with
    | false => exact hnone hfirst rfl rfl rfl
    | true => exact hnone hfirst rfl (Function.update_of_ne hne ..) rfl
  | others pm =>
    cases hc
    exact hnone hfirst rfl rfl rfl
  | create q =>
    have hne : p ≠ q := fun he => hs he.symm
    cases hc
    exact hnone hfirst rfl (Function.update_of_ne hne ..) rfl

/-! ## Sleeping -/

/-- The process sleeps since `t` with the end `w`, and the clock has ticked `n` times. -/
structure Sleeps (t u : Timer) (p : ProcRef) (w n : Nat) : Prop where
  first : NextIsFirst u (·.val < maxProcs)
  ticks : u.timerTicks = w64 (t.timerTicks + n)
  wakeup : u.wakeup p = if w ≠ 0 ∧ max (t.timerTicks + 1) w ≤ t.timerTicks + n then 0 else w
  unblocked : ∃ woken, u.unblocked = t.unblocked ++ woken ∧
    woken.filter (·.2 = p) = if w ≠ 0 ∧ max (t.timerTicks + 1) w ≤ t.timerTicks + n then [(max (t.timerTicks + 1) w, p)] else []

/-- The tick at which the process is woken is the first one that its end is not behind. -/
theorem due_iff {T w n : Nat} (hT : T < ullongMax) (hw : w < 4294967296)
    (hnot : ¬(w ≠ 0 ∧ max (T + 1) w ≤ T + n)) :
    (w ≠ 0 ∧ w ≤ w64 (T + n + 1)) ↔ (w ≠ 0 ∧ max (T + 1) w ≤ T + (n + 1)) := by
  simp only [ullongMax, w64] at *
  constructor
  · rintro ⟨h0, hle⟩
    refine ⟨h0, ?_⟩
    have hlt : T + n + 1 < 18446744073709551616 := by
      by_contra hge
      omega
    rw [Nat.mod_eq_of_lt hlt] at hle
    omega
  · rintro ⟨h0, hle⟩
    refine ⟨h0, ?_⟩
    have hlt : T + n + 1 < 18446744073709551616 := by omega
    rw [Nat.mod_eq_of_lt hlt]
    omega

/-- Once the process is woken it stays awake, and until then the next tick wakes it if it is the first one that its end is not behind. -/
theorem call_sleeps {w n : Nat} (hT : t.timerTicks < ullongMax) (hw : w < 4294967296) (hp : p.val < maxProcs) (h : Sleeps t u p w n)
    {c : TimerCall} (hs : c.Spares p) {u' : Timer} (hc : c.exec timerIrq u = some u') :
    Sleeps t u' p w (n + if c.isIrq then 1 else 0) := by
  obtain ⟨hfirst, hticks, hwakeup, woken, hlog, hwoken⟩ := call_stepped h.first hp hs hc
  obtain ⟨before, hbefore, hfilter⟩ := h.unblocked
  have hlog' : u'.unblocked = t.unblocked ++ (before ++ woken) := by rw [hlog, hbefore, List.append_assoc]
  cases hirq : c.isIrq with
  | false =>
    simp only [hirq, Bool.false_eq_true, if_false, ne_eq, not_true_eq_false, false_and, if_true] at hticks hwakeup hwoken
    refine ⟨hfirst, by rw [hticks, h.ticks]; rfl, by rw [hwakeup, h.wakeup]; rfl, _, hlog', ?_⟩
    rw [List.filter_append, hfilter, hwoken, List.append_nil]
    rfl
  | true =>
    simp only [hirq, if_true, Nat.one_ne_zero, if_false, ne_eq, not_false_eq_true, true_and] at hticks hwakeup hwoken ⊢
    have htick : u.tick.timerTicks = w64 (t.timerTicks + n + 1) := by
      rw [Timer.tick, h.ticks]
      simp only [w64]
      omega
    have htick' : u.tick.wakeup p = u.wakeup p := rfl
    by_cases hdone : w ≠ 0 ∧ max (t.timerTicks + 1) w ≤ t.timerTicks + n
    · have hzero : u.wakeup p = 0 := by rw [h.wakeup, if_pos hdone]
      have hnot : ¬Due u.tick p := fun hdue => hdue.1 hzero
      have hlater : w ≠ 0 ∧ max (t.timerTicks + 1) w ≤ t.timerTicks + (n + 1) := ⟨hdone.1, by omega⟩
      refine ⟨hfirst, by rw [hticks, htick]; rfl, by rw [hwakeup, if_neg hnot, hzero, if_pos hlater], _, hlog', ?_⟩
      rw [List.filter_append, hfilter, hwoken, if_neg hnot, if_pos hdone, if_pos hlater, List.append_nil]
    · have hself : u.wakeup p = w := by rw [h.wakeup, if_neg hdone]
      have hdue : Due u.tick p ↔ w ≠ 0 ∧ max (t.timerTicks + 1) w ≤ t.timerTicks + (n + 1) := by
        rw [Due, htick', hself, htick]
        exact due_iff hT hw hdone
      refine ⟨hfirst, by rw [hticks, htick]; rfl, ?_, _, hlog', ?_⟩
      · rw [hwakeup, hself]
        exact if_congr hdue rfl rfl
      · rw [List.filter_append, hfilter, hwoken, if_neg hdone, List.nil_append]
        by_cases hnow : w ≠ 0 ∧ max (t.timerTicks + 1) w ≤ t.timerTicks + (n + 1)
        · have heq : w64 (t.timerTicks + n + 1) = max (t.timerTicks + 1) w := by
            simp only [ullongMax, w64] at *
            omega
          rw [if_pos (hdue.mpr hnow), if_pos hnow, htick, heq]
        · rw [if_neg fun hd => hnow (hdue.mp hd), if_neg hnow]

theorem run_sleeps {w n : Nat} (hT : t.timerTicks < ullongMax) (hw : w < 4294967296) (hp : p.val < maxProcs) (h : Sleeps t u p w n)
    {calls : List TimerCall} (hs : ∀ c ∈ calls, c.Spares p) {u' : Timer} (hrun : runTimer timerIrq u calls = some u') :
    Sleeps t u' p w (n + calls.countP TimerCall.isIrq) := by
  induction calls generalizing u n with
  | nil =>
    cases hrun
    exact h
  | cons c calls ih =>
    obtain ⟨u₁, hc, hrun⟩ := Option.bind_eq_some_iff.mp hrun
    have hstep := call_sleeps hT hw hp h (hs c List.mem_cons_self) hc
    have hrest := ih hstep (fun c' hc' => hs c' (List.mem_cons_of_mem c hc')) hrun
    rwa [Nat.add_assoc, Nat.add_comm (ite _ _ _), ← List.countP_cons] at hrest

/-! ## The clock goes on -/

/-- Every process is blocked, and the idle process runs. -/
def idling : Pm := { emptyTable with procs := fun q => { zeroProc 0 with status := if q = idleProc then .ready else .blocked } }

/-- Some ticks, at each of which the idle process runs. -/
def idleTicks : Nat → List TimerCall
  | 0 => []
  | n + 1 => .others idling :: .irq true :: idleTicks n

/-- The idle process runs, and is not taken the processor from in the cooperative mode. -/
def Idles (pm : Pm) : Prop := pm.curProc = idleProc ∧ (pm.procs idleProc).status = .ready

theorem Idles.pmUnblock {pm : Pm} (h : Idles pm) (q : ProcRef) : Idles (pmUnblock pm q) := by
  refine ⟨(pmUnblock_curProc pm q).trans h.1, ?_⟩
  rw [Kos.pmUnblock, pmActivate_status, ReadyQueueAux.status_setProc]
  split
  · rfl
  · exact h.2

theorem Idles.foldl {t : Timer} (h : Idles t.pm) (ps : List ProcRef) : Idles (ps.foldl wakeProc t).pm := by
  induction ps generalizing t with
  | nil => exact h
  | cons q ps ih =>
    refine ih ?_
    unfold wakeProc
    split
    · split
      · exact h.pmUnblock q
      · split
        · exact h
        · exact h
    · exact h

theorem Idles.timerIrq (h : Idles t.pm) : ∃ u, timerIrq true t = some u := by
  have hwake : Idles t.wakeSleepers.pm := by
    unfold Timer.wakeSleepers
    simp only
    split
    · exact Idles.foldl (t := { t.tick with nextWakeup := ullongMax }) h tableProcs
    · exact h
  refine ⟨{ t.wakeSleepers with pm := t.wakeSleepers.pm }, ?_⟩
  simp only [Kos.timerIrq, pmUpdate, hwake.1, hwake.2]
  rfl

theorem idleTicks_run (t : Timer) (hp : p.val < maxProcs) (n : Nat) :
    (∀ c ∈ idleTicks n, c.Spares p) ∧ (idleTicks n).countP TimerCall.isIrq = n ∧ ∃ u, runTimer timerIrq t (idleTicks n) = some u := by
  induction n generalizing t with
  | zero => exact ⟨fun c hc => (by cases hc), rfl, t, rfl⟩
  | succ n ih =>
    have hidle : Idles { t with pm := idling }.pm := ⟨rfl, rfl⟩
    obtain ⟨u, hu⟩ := hidle.timerIrq
    obtain ⟨hs, hcount, u', hu'⟩ := ih u
    have hne : p ≠ idleProc := fun he => by
      rw [he] at hp
      exact Nat.lt_irrefl _ hp
    refine ⟨?_, by rw [idleTicks, List.countP_cons, List.countP_cons, hcount]; rfl, u', ?_⟩
    · intro c hc
      rcases List.mem_cons.mp hc with rfl | hc
      · exact if_neg hne
      · rcases List.mem_cons.mp hc with rfl | hc
        · trivial
        · exact hs c hc
    · change (Kos.timerIrq true { t with pm := idling }).bind (fun u => runTimer Kos.timerIrq u (idleTicks n)) = some u'
      rw [hu]
      exact hu'

/-- The end that is stored makes the process due at the right tick. -/
theorem sleepOk_iff {T msec : Nat} (hdue : dueTick T msec ≤ ullongMax) :
    (w32 (T + w32 (msec * timerHz) / 1000) ≠ 0 ∧ max (T + 1) (w32 (T + w32 (msec * timerHz) / 1000)) = dueTick T msec) ↔
      SleepOk T msec := by
  rw [SleepOk, and_iff_right hdue]
  simp only [dueTick, timerHz, w32]
  have hten : msec * 100 / 1000 = msec / 10 := by omega
  rw [hten]
  by_cases hfits : msec * 100 < 4294967296
  · rw [Nat.mod_eq_of_lt hfits, hten]
    omega
  · -- the product is too small, and so is the end
    have hsmall : msec * 100 % 4294967296 / 1000 < msec / 10 := by omega
    have hle : (T + msec * 100 % 4294967296 / 1000) % 4294967296 ≤ T + msec * 100 % 4294967296 / 1000 := Nat.mod_le _ _
    omega

theorem run_nextIsFirst (h : NextIsFirst t (·.val < maxProcs)) {calls : List TimerCall} (hrun : runTimer timerIrq t calls = some u) :
    NextIsFirst u (·.val < maxProcs) := by
  induction calls generalizing t with
  | nil =>
    cases hrun
    exact h
  | cons c calls ih =>
    obtain ⟨t₁, hc, hrun⟩ := Option.bind_eq_some_iff.mp hrun
    exact ih (exec_nextIsFirst h hc) hrun

/-- A process that is not blocked begins to sleep. -/
theorem timerSleep_sleeps {msec : Nat} (h : NextIsFirst t (·.val < maxProcs)) (hT : t.timerTicks < ullongMax)
    (hawake : (t.pm.procs p).status ≠ .blocked) (hsleep : timerSleep t p msec = some t') :
    t'.timerTicks = t.timerTicks ∧ Sleeps t' t' p (w32 (t.timerTicks + w32 (msec * timerHz) / 1000)) 0 := by
  have hfirst := exec_nextIsFirst (c := .sleep p msec) h hsleep
  obtain ⟨⟨ok, pm⟩, hblock, rfl⟩ := Option.map_eq_some_iff.mp hsleep
  have hok : ok = true := by
    rw [pmBlock, if_neg hawake] at hblock
    obtain ⟨s, -, heq⟩ := Option.bind_eq_some_iff.mp hblock
    cases heq
    rfl
  subst hok
  have hnot : ∀ T w : Nat, ¬(w ≠ 0 ∧ max (T + 1) w ≤ T + 0) := by
    intro T w hle
    omega
  refine ⟨rfl, hfirst, ?_, ?_, [], (List.append_nil _).symm, ?_⟩
  · exact (Nat.mod_eq_of_lt (Nat.lt_succ_of_lt hT)).symm
  · rw [if_neg (hnot _ _)]
    exact Function.update_self ..
  · rw [if_neg (hnot _ _)]
    rfl

end SleepAux

open SleepAux

/-- In every state that a run from `init_timer` reaches, a process that is put to sleep is unblocked at the tick when it is due, and at no
earlier one, whatever happens in between, exactly if the end of its time is computed without an overflow and is not 0. -/
theorem timerSleep_onTime_iff {pm : Pm} {before : List TimerCall} {t t' : Timer} {p : ProcRef} {msec : Nat}
    (hrun : runTimer timerIrq (initTimer pm) before = some t) (hp : p.val < maxProcs) (hawake : (t.pm.procs p).status ≠ .blocked)
    (hsleep : timerSleep t p msec = some t') :
    OnTime t' p (dueTick t.timerTicks msec) ↔ SleepOk t.timerTicks msec := by
  by_cases hdue : dueTick t.timerTicks msec ≤ ullongMax
  · have hT : t.timerTicks < ullongMax := Nat.lt_of_lt_of_le (Nat.lt_succ_self _) (Nat.le_trans (Nat.le_max_left _ _) hdue)
    have hfirst : NextIsFirst t (·.val < maxProcs) := run_nextIsFirst (fun q _ hne => absurd rfl hne) hrun
    obtain ⟨hticks, hstart⟩ := timerSleep_sleeps hfirst hT hawake hsleep
    rw [← hticks] at hT hdue hstart ⊢
    rw [← sleepOk_iff hdue]
    generalize hw : w32 (t'.timerTicks + w32 (msec * timerHz) / 1000) = w at hstart ⊢
    have hlt : w < 4294967296 := hw ▸ w32_lt _
    constructor
    · rintro ⟨-, hall⟩
      -- the clock ticks until the process is due
      generalize hn : dueTick t'.timerTicks msec - t'.timerTicks = n
      obtain ⟨hspares, hcount, u, hu⟩ := idleTicks_run t' hp n
      obtain ⟨woken, hlog, hwoken⟩ := hall _ u hspares hu
      obtain ⟨woken', hlog', hwoken'⟩ := (run_sleeps hT hlt hp hstart hspares hu).unblocked
      have hsame : woken' = woken := List.append_cancel_left (hlog'.symm.trans hlog)
      have hcome : dueTick t'.timerTicks msec ≤ t'.timerTicks + n := by omega
      rw [hcount, if_pos hcome] at hwoken
      rw [hsame, hwoken] at hwoken'
      split at hwoken'
      · rename_i hpassed
        simp only [List.cons.injEq, Prod.mk.injEq, and_true] at hwoken'
        exact ⟨hpassed.1, hwoken'.symm⟩
      · cases hwoken'
    · rintro ⟨hne, hmax⟩
      refine ⟨hdue, fun calls u hspares hu => ?_⟩
      obtain ⟨woken, hlog, hwoken⟩ := (run_sleeps hT hlt hp hstart hspares hu).unblocked
      refine ⟨woken, hlog, ?_⟩
      rw [hwoken, hmax, Nat.zero_add]
      exact if_congr (and_iff_right hne) rfl rfl
  · exact iff_of_false (fun h => hdue h.1) fun h => hdue h.1

/-- A process sleeps for 30 milliseconds. -/
theorem threeReady_onTime : ∃ t', timerSleep (initTimer threeReady) 1 30 = some t' ∧ OnTime t' 1 3 := by
  have hrun : (timerSleep (initTimer threeReady) 1 30).isSome = true := by decide +kernel
  obtain ⟨t', ht'⟩ := Option.isSome_iff_exists.mp hrun
  have hok : SleepOk (initTimer threeReady).timerTicks 30 := by decide
  have hstart : runTimer timerIrq (initTimer threeReady) [] = some (initTimer threeReady) := rfl
  exact ⟨t', ht', (timerSleep_onTime_iff hstart (by decide) (by decide +kernel) ht').mpr hok⟩

/-- A process that is to sleep for about twelve hours is unblocked at the next tick: the product overflows to 4. -/
theorem sleep_ends_early : ∃ t t' u, runTimer timerIrq (initTimer threeReady) [.irq true] = some t ∧
    timerSleep t 1 42949673 = some t' ∧ dueTick t.timerTicks 42949673 = 4294968 ∧
    runTimer timerIrq t' [.irq true] = some u ∧ u.unblocked = [(2, 1)] ∧ ¬OnTime t' 1 4294968 := by
  have hrun : (runTimer timerIrq (initTimer threeReady) [.irq true]).any (fun t => decide (t.timerTicks = 1) &&
      (timerSleep t 1 42949673).any fun t' => decide (t'.timerTicks = 1 ∧ t'.unblocked = []) &&
        (runTimer timerIrq t' [.irq true]).any fun u => decide (u.unblocked = [(2, 1)])) = true := by decide +kernel
  obtain ⟨t, ht, hrest⟩ := (Option.any_eq_true _ _).mp hrun
  obtain ⟨hticks, hrest⟩ := Bool.and_eq_true_iff.mp hrest
  obtain ⟨t', ht', hrest⟩ := (Option.any_eq_true _ _).mp hrest
  obtain ⟨hstart, hrest⟩ := Bool.and_eq_true_iff.mp hrest
  obtain ⟨u, hu, hlog⟩ := (Option.any_eq_true _ _).mp hrest
  obtain ⟨hticks', hnone⟩ := of_decide_eq_true hstart
  have hlog : u.unblocked = [(2, 1)] := of_decide_eq_true hlog
  refine ⟨t, t', u, ht, ht', by rw [of_decide_eq_true hticks]; rfl, hu, hlog, fun hon => ?_⟩
  obtain ⟨woken, hwoken, hfilter⟩ := hon.2 [.irq true] u (by decide) hu
  rw [hnone, List.nil_append, hlog] at hwoken
  rw [← hwoken, hticks'] at hfilter
  exact absurd hfilter (by decide)

end Kos
