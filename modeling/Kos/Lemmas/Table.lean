import Mathlib.Data.Fin.Tuple.Basic
import Kos.Pm.Table
import Kos.Lemmas.ReadyQueue

/-!
# The numbers of the processes

`pm_get_proc` finds the first slot with a number, whatever its status is. It finds the live process with that number because no slot
before a live one has the same number (`Pm.Ordered`). A creation keeps that so: the slot it takes is the first free one, so that the
slots before it are live, and their numbers are not the new one.
-/

namespace Kos

/-- A slot of the table that is not free. -/
def Pm.Live (s : Pm) (p : ProcRef) : Prop := p.val < maxProcs ∧ (s.procs p).status ≠ .slotFree

/-- No slot before a live one has its number. -/
def Pm.Ordered (s : Pm) : Prop := ∀ p, s.Live p → ∀ i < p, (s.procs i).pid ≠ (s.procs p).pid

theorem pmGetProc_eq_some {s : Pm} {pid : Nat} {p : ProcRef} :
    pmGetProc s pid = some p ↔ (p.val < maxProcs ∧ (s.procs p).pid = pid) ∧ ∀ i < p, (s.procs i).pid ≠ pid := by
  rw [pmGetProc, ← Fin.find?_eq_find?_finRange, Fin.find?_eq_some_iff]
  simp only [decide_eq_true_eq, decide_eq_false_iff_not, not_and]
  constructor
  · rintro ⟨⟨hp, hpid⟩, hfirst⟩
    exact ⟨⟨hp, hpid⟩, fun i hi => hfirst i hi (Nat.lt_trans hi hp)⟩
  · rintro ⟨⟨hp, hpid⟩, hfirst⟩
    exact ⟨⟨hp, hpid⟩, fun i hi _ => hfirst i hi⟩

theorem isSome_pmGetProc {s : Pm} {pid : Nat} :
    (pmGetProc s pid).isSome ↔ ∃ p : ProcRef, p.val < maxProcs ∧ (s.procs p).pid = pid := by
  rw [pmGetProc, ← Fin.find?_eq_find?_finRange, Fin.isSome_find?_iff]
  simp only [decide_eq_true_eq]

theorem getEmptyProc_eq_some {s : Pm} {p : ProcRef} :
    s.getEmptyProc = some p ↔ (p.val < maxProcs ∧ (s.procs p).status = .slotFree) ∧ ∀ i < p, s.Live i := by
  rw [Pm.getEmptyProc, ← Fin.find?_eq_find?_finRange, Fin.find?_eq_some_iff]
  simp only [decide_eq_true_eq, decide_eq_false_iff_not, not_and]
  constructor
  · rintro ⟨⟨hp, hfree⟩, hfirst⟩
    exact ⟨⟨hp, hfree⟩, fun i hi => ⟨Nat.lt_trans hi hp, hfirst i hi (Nat.lt_trans hi hp)⟩⟩
  · rintro ⟨⟨hp, hfree⟩, hfirst⟩
    exact ⟨⟨hp, hfree⟩, fun i hi _ => (hfirst i hi).2⟩

theorem getEmptyProc_eq_none {s : Pm} : s.getEmptyProc = none ↔ ∀ p : ProcRef, p.val < maxProcs → s.Live p := by
  simp only [Pm.getEmptyProc, List.find?_eq_none, List.mem_finRange, forall_const, decide_eq_true_eq, not_and, Pm.Live]
  exact ⟨fun h p hp => ⟨hp, h p hp⟩, fun h p hp => (h p hp).2⟩

namespace Pm.Ordered

variable {s s' : Pm} {p q : ProcRef}

/-- A live process is found by its number. -/
theorem getProc (h : s.Ordered) (hp : s.Live p) : pmGetProc s (s.procs p).pid = some p :=
  pmGetProc_eq_some.mpr ⟨⟨hp.1, rfl⟩, h p hp⟩

/-- Two live processes have different numbers. -/
theorem inj (h : s.Ordered) (hp : s.Live p) (hq : s.Live q) (he : (s.procs p).pid = (s.procs q).pid) : p = q := by
  rcases lt_trichotomy p q with hlt | heq | hgt
  · exact absurd he (h q hq p hlt)
  · exact heq
  · exact absurd he.symm (h p hp q hgt)

/-- Nothing but a process that becomes live or gets another number matters. -/
theorem congr (h : s.Ordered) (hpid : ∀ q, (s'.procs q).pid = (s.procs q).pid) (hlive : ∀ q, s'.Live q → s.Live q) :
    s'.Ordered := by
  intro q hq i hi
  rw [hpid, hpid]
  exact h q (hlive q hq) i hi

/-- The first free slot gets a number that no live process has. -/
theorem create {pid : Nat} (h : s.Ordered) (hempty : s.getEmptyProc = some p) (hfresh : ∀ q, s.Live q → (s.procs q).pid ≠ pid)
    (hp : (s'.procs p).pid = pid) (hother : ∀ q ≠ p, (s'.procs q).pid = (s.procs q).pid)
    (hlive : ∀ q ≠ p, s'.Live q → s.Live q) : s'.Ordered := by
  obtain ⟨-, hfirst⟩ := getEmptyProc_eq_some.mp hempty
  intro q hq i hi
  by_cases hqp : q = p
  · subst hqp
    rw [hp, hother i (Fin.ne_of_lt hi)]
    exact hfresh i (hfirst i hi)
  · rw [hother q hqp]
    by_cases hip : i = p
    · subst hip
      rw [hp]
      exact (hfresh q (hlive q hqp hq)).symm
    · rw [hother i hip]
      exact h q (hlive q hqp hq) i hi

end Pm.Ordered

/-! ## What a creation does -/

/-- A process is put into a slot, and into the ready queue when it can run at once. -/
def Pm.place (s : Pm) (p : ProcRef) (f : Proc → Proc) (active : Bool) : Pm :=
  if active then pmActivate (s.setProc p f) p else s.setProc p f

/-- What every creation sets. -/
structure NewProc (f : Proc → Proc) (pid : Nat) (active : Bool) : Prop where
  pid : ∀ proc, (f proc).pid = pid
  waitProc : ∀ proc, (f proc).waitProc = 0
  waitFor : ∀ proc, (f proc).waitFor = 0
  exitStatus : ∀ proc, (f proc).exitStatus = minusOne
  block : ∀ proc, (f proc).block ≠ .waitProc
  next : ∀ proc, (f proc).next = proc.next
  status : active = true → ∀ proc, (f proc).status = .ready

theorem newProc_init (pid : Nat) (status : ProcStatus) (mem : Nat → UInt8) :
    NewProc (Proc.init pid status mem) pid (status = .ready) := by
  refine ⟨fun _ => rfl, fun _ => rfl, fun _ => rfl, fun _ => rfl, ?_, fun _ => rfl, ?_⟩
  · intro proc
    simp only [Proc.init]
    split <;> nofun
  · intro hready proc
    exact of_decide_eq_true hready

section place

variable (s : Pm) (p : ProcRef) (f : Proc → Proc) (active : Bool)

theorem rest_place_self : ((s.place p f active).procs p).rest = (f (s.procs p)).rest := by
  unfold Pm.place
  cases active with
  | true =>
    refine (pmActivate_sameRest _ p p).trans ?_
    simp [Pm.setProc]
  | false => simp [Pm.setProc]

theorem rest_place_ne {q : ProcRef} (hq : q ≠ p) : ((s.place p f active).procs q).rest = (s.procs q).rest := by
  unfold Pm.place
  cases active with
  | true =>
    refine (pmActivate_sameRest _ p q).trans ?_
    simp [Pm.setProc, hq]
  | false => simp [Pm.setProc, hq]

theorem status_place (q : ProcRef) :
    ((s.place p f active).procs q).status = if q = p then (f (s.procs q)).status else (s.procs q).status := by
  unfold Pm.place
  cases active with
  | true => exact (pmActivate_status _ p q).trans (ReadyQueueAux.status_setProc s p f q)
  | false => exact ReadyQueueAux.status_setProc s p f q

theorem curProc_place : (s.place p f active).curProc = s.curProc := by
  unfold Pm.place
  cases active with
  | true => exact pmActivate_curProc _ p
  | false => rfl

variable {s p f} in
/-- A process outside the queue is put at its end, if it is put into it. -/
theorem curIsHead_place {l : List ProcRef} (h : CurIsHead s l) (hp : p ∉ l) (hf : ∀ proc, (f proc).next = proc.next) :
    CurIsHead (s.place p f active) (if active then l ++ [p] else l) := by
  have hqueue : (s.setProc p f).Queue l := ReadyQueueAux.queue_setProc p hf h.1
  unfold CurIsHead
  rw [curProc_place]
  cases active with
  | true =>
    refine ⟨pmActivate_queue hqueue hp, ?_⟩
    rw [if_pos rfl, List.head?_append, h.2]
    rfl
  | false => exact ⟨hqueue, h.2⟩

end place

namespace Pm.Live

variable {s : Pm} {p q : ProcRef} {f : Proc → Proc} {active : Bool}

/-- The other processes are as live as before. -/
theorem place_iff (hq : q ≠ p) : (s.place p f active).Live q ↔ s.Live q := by
  unfold Pm.Live
  rw [status_place, if_neg hq]

end Pm.Live

/-- A creation keeps the numbers in order if the new number is not that of a live process. -/
theorem Pm.Ordered.place {s : Pm} {p : ProcRef} {f : Proc → Proc} {active : Bool} {pid : Nat} (h : s.Ordered)
    (hempty : s.getEmptyProc = some p) (hfresh : ∀ q, s.Live q → (s.procs q).pid ≠ pid) (hf : NewProc f pid active) :
    (s.place p f active).Ordered := by
  refine h.create hempty hfresh ?_ ?_ ?_
  · exact (congrArg Proc.pid (rest_place_self s p f active) :).trans (hf.pid _)
  · intro q hq
    exact (congrArg Proc.pid (rest_place_ne s p f active hq) :)
  · intro q hq
    exact (Pm.Live.place_iff hq).mp

/-! ## The first process -/

/-- What `init_pm` leaves: only the process that idles is live, and it is alone in the ready queue. -/
structure Started (mem : Nat → UInt8) (t : ProcTable) : Prop where
  cur : t.cur = 1
  curProc : t.pm.curProc = 0
  queue : t.pm.Queue [0]
  status : ∀ q, (t.pm.procs q).status = if q = 0 then .blocked else .slotFree
  rest : ∀ q, (t.pm.procs q).rest =
    if q = 0 then (Proc.init 0 .blocked mem (zeroProc 0)).rest else (emptyTable.procs q).rest

/-- Nobody waits yet. -/
theorem Started.waitProc {mem : Nat → UInt8} {t : ProcTable} {q : ProcRef} (h : Started mem t) : (t.pm.procs q).waitProc = 0 := by
  have hrest := h.rest q
  split at hrest <;> exact (congrArg Proc.waitProc hrest :)

theorem Started.waitFor {mem : Nat → UInt8} {t : ProcTable} {q : ProcRef} (h : Started mem t) : (t.pm.procs q).waitFor = 0 := by
  have hrest := h.rest q
  split at hrest <;> exact (congrArg Proc.waitFor hrest :)

theorem started_of_initPm {mem : Nat → UInt8} {t : ProcTable} (h : initPm mem = some t) : Started mem t := by
  have hempty : emptyTable.getEmptyProc = some 0 := getEmptyProc_eq_some.mpr ⟨by decide, fun i hi => absurd hi (Fin.not_lt_zero i)⟩
  simp only [initPm, ProcTable.pmCreate, hempty, Option.map_some, Option.some.injEq] at h
  subst h
  have hqueue : (emptyTable.setProc 0 (Proc.init 0 .blocked mem)).Queue [] := ⟨rfl, rfl, List.nodup_nil⟩
  refine ⟨rfl, rfl, pmActivate_queue hqueue (List.not_mem_nil), ?_, ?_⟩
  · intro q
    refine (pmActivate_status _ 0 q).trans ((ReadyQueueAux.status_setProc emptyTable 0 _ q).trans ?_)
    split <;> rfl
  · intro q
    show ((pmActivate (emptyTable.setProc 0 (Proc.init 0 .blocked mem)) 0).procs q).rest = _
    rw [pmActivate_sameRest]
    by_cases hq : q = 0
    · subst hq
      rfl
    · simp [Pm.setProc, hq]

end Kos
