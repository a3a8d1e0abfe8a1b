import Kos.Context
import Kos.Lemmas.ReadyQueue
import Kos.Pm.Table

/-!
# Critical sections

The ready queue is changed with interrupts disabled. That works up to the first IRQ within a system call: `idt_handle_int` leaves the context
`CX_PROC` behind, where `disable_intr` has no effect. Then a process that an IRQ wakes while another one is appended takes its place in the
queue, and what is left of the queue is lost one process after the other.
-/

namespace Kos

open CodeState ReadyQueueAux

namespace CriticalAux

section Code

variable {σ : Type*} {s : CodeState σ} {fs : List (σ → σ)}

theorem runCode_act : runCode s (fs.map act) = { s with st := runCode s.st fs } := by
  induction fs generalizing s with
  | nil => rfl
  | cons f fs ih => exact ih

/-- With interrupts disabled, `disable_intr` changes nothing. -/
theorem disableIntr_of_disabled (h : s.intr = false) : s.disableIntr = s := by
  unfold disableIntr
  split
  · rw [← h]
  · rfl

theorem runCode_critical (h : s.intr = false) : runCode s (critical fs) = enableIntr { s with st := runCode s.st fs } := by
  have hrun : runCode s (critical fs) = enableIntr (runCode s.disableIntr (fs.map act)) := by simp [critical, runCode]
  rw [hrun, disableIntr_of_disabled h, runCode_act]

/-- Statements with interrupts disabled are run as a whole. -/
theorem acts_closed {irq : CodeState σ → CodeState σ → Prop} {gs : List (CodeState σ → CodeState σ)} {c : CodeState σ} (hs : s.intr = false)
    (h : Interleaved (fun s => s.intr = true) irq s (fs.map act ++ gs) c) :
    Interleaved (fun s => s.intr = true) irq { s with st := runCode s.st fs } gs c := by
  induction fs generalizing s with
  | nil => exact h
  | cons f fs ih => exact ih (s := s.act f) hs (h.of_closed (by simp [hs]))

/-- A critical section that starts with interrupts disabled is run as a whole. -/
theorem critical_closed {irq : CodeState σ → CodeState σ → Prop} {c : CodeState σ} (hs : s.intr = false)
    (h : Interleaved (fun s => s.intr = true) irq s (critical fs) c) :
    Relation.ReflTransGen irq (enableIntr { s with st := runCode s.st fs }) c := by
  have hacts := h.of_closed (by simp [hs])
  rw [disableIntr_of_disabled hs] at hacts
  exact ((acts_closed hs hacts).of_closed (by simp [hs])).rest

end Code

variable {s : Pm} {p : ProcRef} {l : List ProcRef}

/-- The statements of `pm_activate`, without interrupts. -/
theorem runCode_pmActivate {c : CodeState Pm} (h : c.intr = false) :
    runCode c (pmActivateCode p) = enableIntr { c with st := pmActivate c.st p } := by
  rw [pmActivateCode, runCode_critical h]
  congr 2
  cases htail : c.st.plistTail <;> cases hhead : c.st.plistHead <;> simp [runCode, pmActivate, Pm.firstHead, Pm.linkTail, htail, hhead, Pm.setNext, Pm.setProc]

/-- An IRQ that wakes a process. -/
theorem handleIrq_wake (c : CodeState Pm) : c.handleIrq (pmUnblockCode p) = ⟨pmUnblock c.st p, .proc, true⟩ := by
  have hrun : runCode { c with context := .irq, intr := false } (pmUnblockCode p) = ⟨pmUnblock c.st p, .irq, false⟩ :=
    runCode_pmActivate rfl
  rw [handleIrq, hrun]

/-- Interrupts between other code keep the queue, and who is in it. -/
theorem queue_of_irq {c c' : CodeState Pm} (hirq : PmIrq c c') (hq : c.st.Queue l) (hl : l ≠ []) :
    ∃ l', c'.st.Queue l' ∧ l ⊆ l' := by
  obtain ⟨handler, hhandler, rfl⟩ := hirq
  cases hhandler with
  | other => exact ⟨l, hq, List.Subset.refl l⟩
  | wake p _ hp =>
    rw [handleIrq_wake]
    exact ⟨l ++ [p], pmActivate_queue (queue_setProc p (fun _ => rfl) hq) (hp l hq), List.subset_append_left l [p]⟩
  | schedule hs =>
    obtain ⟨a, l, rfl⟩ := List.exists_cons_of_ne_nil hl
    obtain ⟨s', hs', hq', -⟩ := pmSchedule_queue hq
    refine ⟨l ++ [a], ?_, by simp⟩
    change ((pmSchedule c.st).getD c.st).Queue (l ++ [a])
    rwa [hs', Option.getD_some]

/-! ### A queue whose tail is not in it -/

/-- The tail is a process that is not in the queue. -/
structure Torn (s : Pm) (t : ProcRef) (l : List ProcRef) : Prop where
  links : Links s.next s.plistHead l
  tail : s.plistTail = some t
  lost : t ∉ l
  nodup : l.Nodup

/-- `pm_schedule` puts the head behind the tail, where it is lost. -/
theorem Torn.schedule {t a : ProcRef} (h : Torn s t (a :: l)) : ∃ s', pmSchedule s = some s' ∧ Torn s' a l ∧ s'.curProc = l.head?.getD idleProc := by
  obtain ⟨hta, htl⟩ := not_or.mp (mt List.mem_cons.mpr h.lost)
  obtain ⟨hal, hnd⟩ := List.nodup_cons.mp h.nodup
  obtain ⟨s', hs', hnext, hhead, htail, hcur⟩ := pmSchedule_pointers h.tail h.links.1
  rw [Function.update_of_ne (Ne.symm hta)] at hhead hcur
  refine ⟨s', hs', ⟨?_, htail, hal, hnd⟩, ?_⟩
  · rw [hhead]
    refine h.links.2.congr fun b hb => ?_
    have hba : b ≠ a := fun heq => hal (heq ▸ hb)
    have hbt : b ≠ t := fun heq => htl (heq ▸ hb)
    rw [hnext, Function.update_of_ne hba, Function.update_of_ne hbt]
  · rw [hcur, h.links.2.head_eq]

end CriticalAux

open CriticalAux

/-- `pm_schedule`, one time slice after the other. -/
def pmSchedules : Nat → Pm → Option Pm
  | 0, s => some s
  | n + 1, s => (pmSchedule s).bind (pmSchedules n)

namespace CriticalAux

/-- The queue is empty in the end. -/
theorem Torn.schedules {s : Pm} {t : ProcRef} {l : List ProcRef} (h : Torn s t l) (hl : l ≠ []) :
    ∃ s', pmSchedules l.length s = some s' ∧ s'.plistHead = none ∧ s'.curProc = idleProc := by
  induction l generalizing s t with
  | nil => exact absurd rfl hl
  | cons a l ih =>
    obtain ⟨s₁, hs₁, h₁, hcur⟩ := h.schedule
    by_cases hnil : l = []
    · subst hnil
      exact ⟨s₁, by rw [List.length_singleton, pmSchedules, hs₁, Option.bind_some, pmSchedules], h₁.links, hcur⟩
    · obtain ⟨s', hs', h'⟩ := ih h₁ hnil
      exact ⟨s', by rw [List.length_cons, pmSchedules, hs₁, Option.bind_some, hs'], h'⟩

/-- What `pm_activate` does to the pointers of a queue that is not empty. -/
theorem pmActivate_pointers {s : Pm} {t p : ProcRef} (ht : s.plistTail = some t) (hhead : s.plistHead ≠ none) :
    (pmActivate s p).next = Function.update (Function.update s.next t (some p)) p none ∧ (pmActivate s p).plistHead = s.plistHead := by
  have hact : pmActivate s p = { (s.setNext t (some p)).setNext p none with plistHead := s.plistHead, plistTail := some p } := by
    simp [pmActivate, ht, hhead]
  rw [hact]
  exact ⟨by rw [← next_setNext, ← next_setNext]; rfl, rfl⟩

/-- Of the two writes to the pointer of the tail the second one wins. -/
theorem torn_of_wake {s : Pm} {t child p : ProcRef} {l : List ProcRef} (hq : s.Queue l) (ht : s.plistTail = some t) (hchild : child ∉ l)
    (hp : p ∉ l) (hne : child ≠ p) :
    Torn (Pm.setNext { pmUnblock (s.setNext t (some child)) p with plistTail := some child } child none) child (l ++ [p]) := by
  have hhead : s.plistHead ≠ none := by
    intro hnone
    have hl : l = [] := hq.links.unique hnone
    rw [hq.tail_eq, hl] at ht
    cases ht
  have hready := next_setProc (s.setNext t (some child)) p (f := fun proc => { proc with status := .ready, block := .notBlocked }) fun _ => rfl
  obtain ⟨hnext, hhead'⟩ := pmActivate_pointers (p := p)
    (s := (s.setNext t (some child)).setProc p fun proc => { proc with status := .ready, block := .notBlocked }) ht hhead
  rw [hready, next_setNext, Function.update_idem] at hnext
  have hlost : child ∉ l ++ [p] := by simp [hchild, hne]
  have hwoken := IsQueue.enqueue (ht ▸ hq : IsQueue s.next s.plistHead (some t) l) hp
  refine ⟨?_, rfl, hlost, hwoken.nodup⟩
  have hlinks : Links (pmUnblock (s.setNext t (some child)) p).next (pmUnblock (s.setNext t (some child)) p).plistHead (l ++ [p]) := by
    rw [pmUnblock, hnext, hhead']
    exact hwoken.links
  refine hlinks.congr fun b hb => ?_
  have hne' : b ≠ child := fun heq => hlost (heq ▸ hb)
  rw [next_setNext, Function.update_of_ne hne']
  rfl

end CriticalAux

/-- One process is ready, and another one sleeps. -/
def oneReady : Pm := (pmActivate emptyTable 1).setProc 3 fun proc => { proc with status := .blocked }

theorem oneReady_queue : oneReady.Queue [1] :=
  queue_setProc 3 (fun _ => rfl) (pmActivate_queue (l := []) ⟨rfl, rfl, List.nodup_nil⟩ List.not_mem_nil)

/-- The end of `sys_fork` can be interrupted, between `enable_intr` and `pm_activate`, and then `pm_activate` can be, too. If that interrupt
wakes a process, the new process is not in the ready queue, and each process of the queue runs once and is lost then: in the end the queue is
empty, and the next `pm_schedule` follows a null pointer. -/
theorem sysForkEnd_tears_queue {s : Pm} {l : List ProcRef} {child p : ProcRef} (hq : s.Queue l) (hl : l ≠ []) (hchild : child ∉ l) (hp : p ∉ l)
    (hne : child ≠ p) (hblocked : (s.procs p).status = .blocked) :
    ∃ c, PmRuns ⟨s, .syscall, false⟩ (sysForkEnd child) c ∧ (∀ l', Links c.st.next c.st.plistHead l' → child ∉ l') ∧
      ∃ s', pmSchedules (l.length + 1) c.st = some s' ∧ s'.curProc = idleProc ∧ pmSchedule s' = none := by
  obtain ⟨t, ht⟩ : ∃ t, s.plistTail = some t := ⟨_, hq.tail_eq.trans (List.getLast?_eq_some_getLast hl)⟩
  have hhead : s.plistHead.isNone = false := by
    rw [hq.links.head_eq]
    simpa using hl
  have htorn := torn_of_wake hq ht hchild hp hne
  obtain ⟨s', hs', hnone, hcur⟩ := htorn.schedules (by simp)
  rw [List.length_append, List.length_singleton] at hs'
  refine ⟨⟨_, .proc, true⟩, ?_, fun l' hl' => hl'.unique htorn.links ▸ htorn.lost, s', hs', hcur, ?_⟩
  · have hwake : PmIrq ⟨s.setNext t (some child), .proc, true⟩ ⟨pmUnblock (s.setNext t (some child)) p, .proc, true⟩ := by
      refine ⟨_, .wake p ?_ fun l' hl' => ?_, (handleIrq_wake (p := p) ⟨s.setNext t (some child), .proc, true⟩).symm⟩
      · rw [status_setNext]
        exact hblocked
      · -- the tail is no longer the last one
        obtain ⟨l₀, rfl⟩ := List.getLast?_eq_some_iff.mp (hl'.tail_eq.symm.trans ht)
        have hend := hl'.links.drop
        rw [next_setNext, Function.update_self] at hend
        cases hend
    have hfirst : act (Pm.firstHead child) ⟨s, .proc, true⟩ = ⟨s, .proc, true⟩ := by simp [act, Pm.firstHead, hhead]
    have hlink : act (Pm.linkTail child) ⟨s, .proc, true⟩ = ⟨s.setNext t (some child), .proc, true⟩ := by simp [act, Pm.linkTail, ht]
    refine .step (.irq rfl ⟨[], .other, rfl⟩ (.step (.step (.step ?_))))
    rw [show ((⟨s, .syscall, false⟩ : CodeState Pm).enableIntr.handleIrq []).disableIntr = ⟨s, .proc, true⟩ from rfl, hfirst, hlink]
    exact .irq rfl hwake (.step (.step (.step (.done _))))
  · obtain ⟨-, hnull⟩ | ⟨_, _, -, hsome, -⟩ := pmSchedule_cases s'
    · exact hnull
    · rw [hnone] at hsome
      cases hsome

theorem sysForkEnd_tears_queue_one : oneReady.Queue [1] ∧
    ∃ c, PmRuns ⟨oneReady, .syscall, false⟩ (sysForkEnd 2) c ∧ ∃ s', pmSchedules 2 c.st = some s' ∧ pmSchedule s' = none := by
  obtain ⟨c, hrun, -, s', hs', -, hnull⟩ := sysForkEnd_tears_queue oneReady_queue (List.cons_ne_nil _ _)
    (by decide : (2 : ProcRef) ∉ [1]) (by decide : (3 : ProcRef) ∉ [1]) (by decide) rfl
  exact ⟨oneReady_queue, c, hrun, s', hs', hnull⟩

end Kos
