import Mathlib.Data.Fintype.Card
import Kos.Pm.Proc

/-!
# The functions of the ready queue

Each function of the queue, on pointers, does to the list of processes what a queue should do: `pm_activate` appends, `pm_schedule`
moves the head to the end, `pm_deactivate` removes, provided the process removed is not the last one.
-/

namespace Kos

/-- The ready queue of a state, as a list. -/
def Pm.Queue (s : Pm) (l : List ProcRef) : Prop := IsQueue s.next s.plistHead s.plistTail l

namespace ReadyQueueAux

@[simp] theorem next_setNext (s : Pm) (p : ProcRef) (q : Option ProcRef) : (s.setNext p q).next = Function.update s.next p q := by
  funext r
  by_cases hr : r = p
  · subst hr
    simp [Pm.next, Pm.setNext, Pm.setProc]
  · simp [Pm.next, Pm.setNext, Pm.setProc, hr]

theorem setProc_setProc (s : Pm) (p : ProcRef) (f g : Proc → Proc) :
    (s.setProc p f).setProc p g = s.setProc p fun proc => g (f proc) := by
  simp [Pm.setProc]

theorem procs_setProc (s : Pm) (p : ProcRef) (f : Proc → Proc) (q : ProcRef) :
    (s.setProc p f).procs q = if q = p then f (s.procs q) else s.procs q := by
  by_cases hq : q = p
  · subst hq
    simp [Pm.setProc]
  · simp [Pm.setProc, hq]

@[simp] theorem procs_setProc_self (s : Pm) (p : ProcRef) (f : Proc → Proc) : (s.setProc p f).procs p = f (s.procs p) := by
  simp [Pm.setProc]

/-- A change that changes nothing. -/
theorem setProc_eq_self {s : Pm} {p : ProcRef} {f : Proc → Proc} (hf : f (s.procs p) = s.procs p) : s.setProc p f = s := by
  unfold Pm.setProc
  rw [hf, Function.update_eq_self]

/-- A change of a process that leaves `next` alone leaves the queue alone. -/
theorem next_setProc (s : Pm) (p : ProcRef) {f : Proc → Proc} (hf : ∀ proc, (f proc).next = proc.next) :
    (s.setProc p f).next = s.next := by
  funext r
  by_cases hr : r = p
  · subst hr
    simp [Pm.next, Pm.setProc, hf]
  · simp [Pm.next, Pm.setProc, hr]

theorem queue_setProc {s : Pm} {l : List ProcRef} (p : ProcRef) {f : Proc → Proc} (hf : ∀ proc, (f proc).next = proc.next)
    (h : s.Queue l) : (s.setProc p f).Queue l := by
  unfold Pm.Queue
  rw [next_setProc s p hf]
  exact h

theorem status_setProc (s : Pm) (p : ProcRef) (f : Proc → Proc) (q : ProcRef) :
    ((s.setProc p f).procs q).status = if q = p then (f (s.procs q)).status else (s.procs q).status := by
  by_cases hq : q = p
  · subst hq
    simp [Pm.setProc]
  · simp [Pm.setProc, hq]

theorem status_setNext (s : Pm) (p : ProcRef) (r : Option ProcRef) (q : ProcRef) :
    ((s.setNext p r).procs q).status = (s.procs q).status := by
  rw [Pm.setNext, status_setProc, ite_self]

/-- The queue of a state is in its pointers only. -/
theorem queue_of {s : Pm} {head tail : Option ProcRef} {cur : ProcRef} {l : List ProcRef} (h : IsQueue s.next head tail l) :
    Pm.Queue { s with plistHead := head, plistTail := tail, curProc := cur } l := h

end ReadyQueueAux

open ReadyQueueAux

/-- `pm_activate` appends. -/
theorem pmActivate_queue {s : Pm} {l : List ProcRef} {p : ProcRef} (h : s.Queue l) (hp : p ∉ l) :
    (pmActivate s p).Queue (l ++ [p]) := by
  cases htail : s.plistTail with
  | none =>
    have hl : l = [] := List.getLast?_eq_none_iff.mp (h.tail_eq.symm.trans htail)
    subst hl
    have hhead : s.plistHead = none := h.links
    simp only [pmActivate, htail, hhead, Option.isNone_none, if_true]
    refine queue_of ?_
    rw [next_setNext]
    exact IsQueue.enqueue_nil s.next p
  | some t =>
    have hne : s.plistHead ≠ none := by
      intro hnone
      have hl : l = [] := h.links.unique hnone
      have := h.tail_eq
      rw [htail, hl] at this
      cases this
    have hq : IsQueue s.next s.plistHead (some t) l := htail ▸ h
    simp only [pmActivate, htail, Option.isNone_iff_eq_none, hne, if_false]
    refine queue_of ?_
    rw [next_setNext, next_setNext]
    exact hq.enqueue hp

@[simp] theorem pmActivate_curProc (s : Pm) (p : ProcRef) : (pmActivate s p).curProc = s.curProc := by
  unfold pmActivate
  cases s.plistTail <;> rfl

@[simp] theorem pmUnblock_curProc (s : Pm) (p : ProcRef) : (pmUnblock s p).curProc = s.curProc := pmActivate_curProc _ p

/-- `pm_schedule` needs a head and a tail. -/
theorem pmSchedule_cases (s : Pm) :
    (s.plistTail = none ∨ s.plistHead = none) ∧ pmSchedule s = none ∨
      ∃ t h, s.plistTail = some t ∧ s.plistHead = some h ∧ pmSchedule s = some (s.retire.rotateQueue t h).runHead := by
  have htail : s.retire.plistTail = s.plistTail := rfl
  have hhead : s.retire.plistHead = s.plistHead := rfl
  simp only [pmSchedule, htail, hhead]
  cases s.plistTail with
  | none => exact .inl ⟨.inl rfl, rfl⟩
  | some t =>
    cases s.plistHead with
    | none => exact .inl ⟨.inr rfl, rfl⟩
    | some h => exact .inr ⟨t, h, rfl, rfl, rfl⟩

@[simp] theorem next_retire (s : Pm) : s.retire.next = s.next := next_setProc s s.curProc fun _ => rfl

@[simp] theorem next_rotateQueue (s : Pm) (t h : ProcRef) :
    (s.rotateQueue t h).next = Function.update (Function.update s.next t (some h)) h none :=
  (next_setNext _ h none).trans (by rw [next_setNext])

@[simp] theorem plistHead_rotateQueue (s : Pm) (t h : ProcRef) :
    (s.rotateQueue t h).plistHead = Function.update s.next t (some h) h := by
  simp only [Pm.rotateQueue, next_setNext]

@[simp] theorem next_runHead (s : Pm) : s.runHead.next = s.next := by
  unfold Pm.runHead
  cases s.plistHead with
  | none => rfl
  | some c => exact next_setProc s c (f := fun proc => { proc with status := .running }) fun _ => rfl

@[simp] theorem plistHead_runHead (s : Pm) : s.runHead.plistHead = s.plistHead := by
  unfold Pm.runHead
  split <;> rfl

@[simp] theorem plistTail_runHead (s : Pm) : s.runHead.plistTail = s.plistTail := by
  unfold Pm.runHead
  cases s.plistHead <;> rfl

@[simp] theorem curProc_runHead (s : Pm) : s.runHead.curProc = s.plistHead.getD idleProc := by
  unfold Pm.runHead
  cases s.plistHead <;> rfl

/-- What `pm_schedule` does to the pointers. -/
theorem pmSchedule_pointers {s : Pm} {t h : ProcRef} (htail : s.plistTail = some t) (hhead : s.plistHead = some h) :
    ∃ s', pmSchedule s = some s' ∧ s'.next = Function.update (Function.update s.next t (some h)) h none ∧
      s'.plistHead = Function.update s.next t (some h) h ∧ s'.plistTail = some h ∧
      s'.curProc = (Function.update s.next t (some h) h).getD idleProc := by
  rcases pmSchedule_cases s with ⟨hnone, -⟩ | ⟨t', h', ht', hh', hs⟩
  · simp [htail, hhead] at hnone
  · obtain rfl := Option.some.inj (htail.symm.trans ht')
    obtain rfl := Option.some.inj (hhead.symm.trans hh')
    exact ⟨_, hs, by simp, by simp, by simp [Pm.rotateQueue], by simp⟩

/-- `pm_schedule` moves the head to the end and lets the new head run. -/
theorem pmSchedule_queue {s : Pm} {l : List ProcRef} {a : ProcRef} (h : s.Queue (a :: l)) :
    ∃ s', pmSchedule s = some s' ∧ s'.Queue (l ++ [a]) ∧ some s'.curProc = (l ++ [a]).head? := by
  obtain ⟨t, htail⟩ : ∃ t, s.plistTail = some t := by
    rw [h.tail_eq]
    exact ⟨_, List.getLast?_eq_some_getLast (List.cons_ne_nil a l)⟩
  have hhead : s.plistHead = some a := h.links.1
  obtain ⟨s', hs', hnext, hhead', htail', hcur⟩ := pmSchedule_pointers htail hhead
  have hq : s'.Queue (l ++ [a]) := by
    unfold Pm.Queue
    rw [hnext, hhead', htail']
    refine IsQueue.rotate ?_
    rw [← hhead, ← htail]
    exact h
  refine ⟨s', hs', hq, ?_⟩
  obtain ⟨c, hc⟩ := List.exists_mem_of_ne_nil _ (List.append_ne_nil_of_right_ne_nil l (List.cons_ne_nil a []))
  have hfirst := hq.links.head_eq
  cases hl : l ++ [a] with
  | nil => simp [hl] at hc
  | cons d l' =>
    rw [hl, List.head?_cons] at hfirst
    rw [hcur, ← hhead', hfirst]
    rfl

/-- What `pm_deactivate` does to the pointers, before the processor may be given to another process. -/
theorem pmDeactivate_links {s : Pm} {l₁ l₂ : List ProcRef} {a : ProcRef} (h : Links s.next s.plistHead (l₁ ++ a :: l₂))
    (hnodup : (l₁ ++ a :: l₂).Nodup) :
    ∃ s₁, Links s₁.next s₁.plistHead (l₁ ++ l₂) ∧ s₁.plistTail = s.plistTail ∧ s₁.curProc = s.curProc ∧
      (∀ q, (s₁.procs q).status = (s.procs q).status) ∧ (∀ q, s.next q = none → s₁.next q = none) ∧
      pmDeactivate s a = if a = s.curProc then pmSchedule s₁ else some s₁ := by
  have ha : a ∉ l₁ := fun hm => (List.nodup_append.mp hnodup).2.2 a hm a (List.mem_cons_self ..) rfl
  have hnd : (l₁ ++ l₂).Nodup := hnodup.sublist (List.Sublist.append (List.Sublist.refl l₁) (List.sublist_cons_self a l₂))
  have hlen : l₁.length ≤ maxProcs + 1 := by
    have := List.Nodup.length_le_card hnodup
    rw [Fintype.card_fin, List.length_append] at this
    omega
  have hwalk := walkTo_of_links (· == a) h (fun b hb => beq_false_of_ne fun he => ha (he ▸ hb))
    (fun b hb => by cases hb; exact beq_self_eq_true a) none hlen
  unfold pmDeactivate
  rw [hwalk]
  cases hprev : l₁.getLast? with
  | none =>
    obtain rfl := List.getLast?_eq_none_iff.mp hprev
    exact ⟨{ s with plistHead := s.next a }, h.2, rfl, rfl, fun _ => rfl, fun _ hq => hq, rfl⟩
  | some b =>
    refine ⟨s.setNext b (s.next a), ?_, rfl, rfl, status_setNext s b _, ?_, rfl⟩
    · rw [next_setNext]
      exact h.unlink hnd hprev
    · intro q hq
      -- the pointer that is changed was not null
      have hb : s.next b = some a := by
        obtain ⟨l₀, rfl⟩ := List.getLast?_eq_some_iff.mp hprev
        rw [List.append_assoc] at h
        exact h.drop.head_eq
      have hne : q ≠ b := by
        rintro rfl
        cases hb.symm.trans hq
      rw [next_setNext, Function.update_of_ne hne]
      exact hq

/-- `pm_deactivate` removes a process that is not the last one; when it is the current one, the rest is scheduled. -/
theorem pmDeactivate_queue {s : Pm} {l₁ l₂ : List ProcRef} {a : ProcRef} (h : s.Queue (l₁ ++ a :: l₂)) (hl : l₂ ≠ []) :
    ∃ s₁, s₁.Queue (l₁ ++ l₂) ∧ s₁.curProc = s.curProc ∧ (∀ q, (s₁.procs q).status = (s.procs q).status) ∧
      pmDeactivate s a = if a = s.curProc then pmSchedule s₁ else some s₁ := by
  obtain ⟨s₁, hlinks, htail, hcur, hstatus, -, heq⟩ := pmDeactivate_links h.links h.nodup
  refine ⟨s₁, ⟨hlinks, ?_, ?_⟩, hcur, hstatus, heq⟩
  · obtain ⟨c, l₂, rfl⟩ := List.exists_cons_of_ne_nil hl
    rw [htail, h.tail_eq]
    simp [List.getLast?_append, List.getLast?_cons]
  · exact h.nodup.sublist (List.Sublist.append (List.Sublist.refl l₁) (List.sublist_cons_self a l₂))

/-- A process that is not the last one can be removed; the processor goes to another one if it was the current one. -/
theorem pmDeactivate_removes {s : Pm} {l : List ProcRef} {p : ProcRef} (h : s.Queue l) (hp : p ∈ l)
    (htail : s.plistTail ≠ some p) :
    ∃ s' l', pmDeactivate s p = some s' ∧ s'.Queue l' ∧ ∀ q, q ∈ l' ↔ q ∈ l ∧ q ≠ p := by
  obtain ⟨l₁, l₂, rfl⟩ := List.append_of_mem hp
  have hl : l₂ ≠ [] := by
    rintro rfl
    rw [h.tail_eq] at htail
    simp at htail
  have hmem : ∀ q, q ∈ l₁ ++ l₂ ↔ q ∈ l₁ ++ p :: l₂ ∧ q ≠ p := by
    obtain ⟨hp₁, hp₂⟩ : p ∉ l₁ ∧ p ∉ l₂ := by
      have hnd := List.nodup_middle.mp h.nodup
      simpa [not_or] using (List.nodup_cons.mp hnd).1
    intro q
    by_cases hq : q = p
    · subst hq
      simp [hp₁, hp₂]
    · simp [hq]
  obtain ⟨s₁, hq₁, -, -, heq⟩ := pmDeactivate_queue h hl
  by_cases hcur : p = s.curProc
  · obtain ⟨c, l', hl'⟩ := List.exists_cons_of_ne_nil (List.append_ne_nil_of_right_ne_nil l₁ hl)
    rw [hl'] at hq₁
    obtain ⟨s', hs', hq', -⟩ := pmSchedule_queue hq₁
    refine ⟨s', l' ++ [c], by rw [heq, if_pos hcur, hs'], hq', fun q => ?_⟩
    rw [← hmem, hl']
    simp [or_comm]
  · exact ⟨s₁, l₁ ++ l₂, by rw [heq, if_neg hcur], hq₁, hmem⟩

/-! ## What the queue leaves alone -/

/-- A process without what the queue changes. -/
def Proc.rest (proc : Proc) : Proc := { proc with next := none, ticksLeft := 0, status := .ready }

/-- The two states differ in the queue and in what it changes. -/
def Pm.SameRest (s s' : Pm) : Prop := ∀ p, (s'.procs p).rest = (s.procs p).rest

theorem Pm.SameRest.trans {s s' s'' : Pm} (h : s.SameRest s') (h' : s'.SameRest s'') : s.SameRest s'' :=
  fun p => (h' p).trans (h p)

theorem Pm.SameRest.pid {s s' : Pm} (h : s.SameRest s') (p : ProcRef) : (s'.procs p).pid = (s.procs p).pid :=
  (congrArg Proc.pid (h p) :)

theorem Pm.SameRest.waitProc {s s' : Pm} (h : s.SameRest s') (p : ProcRef) : (s'.procs p).waitProc = (s.procs p).waitProc :=
  (congrArg Proc.waitProc (h p) :)

theorem Pm.SameRest.waitFor {s s' : Pm} (h : s.SameRest s') (p : ProcRef) : (s'.procs p).waitFor = (s.procs p).waitFor :=
  (congrArg Proc.waitFor (h p) :)

theorem Pm.SameRest.block {s s' : Pm} (h : s.SameRest s') (p : ProcRef) : (s'.procs p).block = (s.procs p).block :=
  (congrArg Proc.block (h p) :)

theorem Pm.SameRest.exitStatus {s s' : Pm} (h : s.SameRest s') (p : ProcRef) :
    (s'.procs p).exitStatus = (s.procs p).exitStatus :=
  (congrArg Proc.exitStatus (h p) :)

theorem Pm.SameRest.scResult {s s' : Pm} (h : s.SameRest s') (p : ProcRef) : (s'.procs p).scResult = (s.procs p).scResult :=
  (congrArg Proc.scResult (h p) :)

theorem sameRest_setProc (s : Pm) (p : ProcRef) {f : Proc → Proc} (hf : ∀ proc, (f proc).rest = proc.rest) :
    s.SameRest (s.setProc p f) := by
  intro q
  by_cases hq : q = p
  · subst hq
    simp [Pm.setProc, hf]
  · simp [Pm.setProc, hq]

theorem sameRest_setNext (s : Pm) (p : ProcRef) (q : Option ProcRef) : s.SameRest (s.setNext p q) :=
  sameRest_setProc s p fun _ => rfl

theorem pmActivate_sameRest (s : Pm) (p : ProcRef) : s.SameRest (pmActivate s p) := by
  unfold pmActivate
  cases s.plistTail with
  | none => exact sameRest_setNext s p none
  | some t => exact (sameRest_setNext s t (some p)).trans (sameRest_setNext (s.setNext t (some p)) p none)

theorem runHead_sameRest (s : Pm) : s.SameRest s.runHead := by
  unfold Pm.runHead
  cases s.plistHead with
  | none => exact fun _ => rfl
  | some c => exact sameRest_setProc s c (f := fun proc => { proc with status := .running }) fun _ => rfl

theorem pmSchedule_sameRest {s s' : Pm} (h : pmSchedule s = some s') : s.SameRest s' := by
  rcases pmSchedule_cases s with ⟨-, hnone⟩ | ⟨t, c, -, -, hs⟩
  · rw [hnone] at h
    cases h
  · rw [hs] at h
    cases h
    have hretire : s.SameRest s.retire := sameRest_setProc s s.curProc fun _ => rfl
    have hrotate : s.retire.SameRest (s.retire.rotateQueue t c) :=
      (sameRest_setNext s.retire t (some c)).trans (sameRest_setNext _ c none)
    exact (hretire.trans hrotate).trans (runHead_sameRest _)

theorem pmDeactivate_sameRest {s s' : Pm} {p : ProcRef} (h : pmDeactivate s p = some s') : s.SameRest s' := by
  unfold pmDeactivate at h
  split at h
  · rename_i prev cur _
    cases prev with
    | none =>
      simp only at h
      split at h
      · exact pmSchedule_sameRest (s := { s with plistHead := s.next cur }) h
      · cases h
        exact fun _ => rfl
    | some b =>
      simp only at h
      split at h
      · exact (sameRest_setNext s b _).trans (pmSchedule_sameRest h)
      · cases h
        exact sameRest_setNext s b _
  · cases h

/-- A process is found by its number, whatever the queue is. -/
theorem pmGetProc_congr {s s' : Pm} (h : ∀ p, (s'.procs p).pid = (s.procs p).pid) (pid : Nat) :
    pmGetProc s' pid = pmGetProc s pid := by
  simp only [pmGetProc, h]

/-! ## What the queue does to the status of a process -/

theorem pmActivate_status (s : Pm) (p q : ProcRef) : ((pmActivate s p).procs q).status = (s.procs q).status := by
  unfold pmActivate
  cases s.plistTail with
  | none => exact status_setNext s p none q
  | some t => exact (status_setNext (s.setNext t (some p)) p none q).trans (status_setNext s t (some p) q)

theorem status_retire (s : Pm) (q : ProcRef) :
    (s.retire.procs q).status = if q = s.curProc ∧ (s.procs q).status = .running then .ready else (s.procs q).status := by
  rw [Pm.retire, status_setProc]
  by_cases hq : q = s.curProc <;> simp [hq]

theorem status_runHead (s : Pm) (q : ProcRef) :
    (s.runHead.procs q).status = if s.plistHead = some q then .running else (s.procs q).status := by
  unfold Pm.runHead
  cases s.plistHead with
  | none => rfl
  | some c =>
    simp only [status_setProc, Option.some.injEq, @eq_comm _ c q]

/-- `pm_schedule`: the new head runs, and the process that ran before is ready. -/
theorem pmSchedule_status {s s' : Pm} (hs : pmSchedule s = some s') (q : ProcRef) :
    (s'.procs q).status =
      if s'.plistHead = some q then .running
      else if q = s.curProc ∧ (s.procs q).status = .running then .ready else (s.procs q).status := by
  rcases pmSchedule_cases s with ⟨-, hnone⟩ | ⟨t, c, -, -, hs'⟩
  · rw [hnone] at hs
    cases hs
  · rw [hs'] at hs
    cases hs
    have hrotate : ((s.retire.rotateQueue t c).procs q).status = (s.retire.procs q).status :=
      (status_setNext _ c none q).trans (status_setNext s.retire t (some c) q)
    rw [status_runHead, plistHead_runHead, hrotate, status_retire]

/-- The scheduler's state: the current process is the head of the ready queue. -/
def CurIsHead (s : Pm) (l : List ProcRef) : Prop := s.Queue l ∧ l.head? = some s.curProc

/-- What deactivating the current process does: the rest of the queue is rotated and its new head runs. With nothing else ready a null
pointer is followed. -/
theorem pmDeactivate_cur {s : Pm} {l : List ProcRef} (h : s.Queue (s.curProc :: l)) :
    match l with
    | [] => pmDeactivate s s.curProc = none
    | b :: l => ∃ s', pmDeactivate s s.curProc = some s' ∧ CurIsHead s' (l ++ [b]) ∧ s.SameRest s' ∧
        ∀ q, (s'.procs q).status =
          if q = s'.curProc then .running
          else if q = s.curProc ∧ (s.procs q).status = .running then .ready else (s.procs q).status := by
  have hq : s.Queue ([] ++ s.curProc :: l) := h
  cases l with
  | nil =>
    obtain ⟨s₂, hlinks, -, -, -, -, heq⟩ := pmDeactivate_links hq.links hq.nodup
    have hnone : pmSchedule s₂ = none := by
      rcases pmSchedule_cases s₂ with ⟨-, hnone⟩ | ⟨t, c, -, hhead, -⟩
      · exact hnone
      · cases hhead.symm.trans hlinks
    simp only [heq, if_true, hnone]
  | cons b l =>
    obtain ⟨s₂, hq₂, hcur₂, hstatus₂, heq⟩ := pmDeactivate_queue hq (List.cons_ne_nil b l)
    obtain ⟨s', hs', hq', hcur'⟩ := pmSchedule_queue hq₂
    have hdeact : pmDeactivate s s.curProc = some s' := by rw [heq, if_pos rfl, hs']
    refine ⟨s', hdeact, ⟨hq', hcur'.symm⟩, pmDeactivate_sameRest hdeact, ?_⟩
    intro q
    have hhead' : s'.plistHead = some s'.curProc := hq'.links.head_eq.trans hcur'.symm
    rw [pmSchedule_status hs', hhead', hstatus₂, hcur₂]
    simp only [Option.some.injEq, eq_comm]

/-- What blocking the current process does. -/
theorem pmBlock_cur {s : Pm} {l : List ProcRef} (reason : BlockReason) (h : s.Queue (s.curProc :: l))
    (hb : (s.procs s.curProc).status ≠ .blocked) :
    match l with
    | [] => pmBlock s s.curProc reason = none
    | b :: l => ∃ s', pmBlock s s.curProc reason = some (true, s') ∧ CurIsHead s' (l ++ [b]) ∧
        (s.setProc s.curProc fun proc => { proc with block := reason }).SameRest s' ∧
        ∀ q, (s'.procs q).status = if q = s'.curProc then .running else if q = s.curProc then .blocked else (s.procs q).status := by
  generalize hs₁ : s.setProc s.curProc (fun p => { p with status := .blocked, block := reason }) = s₁
  have hq₁ : s₁.Queue (s.curProc :: l) := by
    rw [← hs₁]
    exact queue_setProc s.curProc (fun _ => rfl) h
  have hcur₁ : s₁.curProc = s.curProc := by rw [← hs₁]; rfl
  have hblock : pmBlock s s.curProc reason = (pmDeactivate s₁ s.curProc).map (true, ·) := by
    simp only [pmBlock, hb, if_false, hs₁]
    cases pmDeactivate s₁ s.curProc <;> rfl
  rw [← hcur₁] at hq₁
  cases l with
  | nil =>
    have hnone : pmDeactivate s₁ s₁.curProc = none := pmDeactivate_cur hq₁
    rw [hcur₁] at hnone
    simp only [hblock, hnone, Option.map_none]
  | cons b l =>
    obtain ⟨s', hs', hcur', hrest, hstatus⟩ := pmDeactivate_cur hq₁
    rw [hcur₁] at hs' hstatus
    refine ⟨s', by rw [hblock, hs']; rfl, hcur', ?_, ?_⟩
    · refine Pm.SameRest.trans ?_ hrest
      rw [← hs₁]
      intro q
      by_cases hq : q = s.curProc
      · subst hq
        simp [Pm.setProc, Proc.rest]
      · simp [Pm.setProc, hq]
    · intro q
      rw [hstatus, ← hs₁, status_setProc]
      by_cases hq : q = s.curProc
      · simp [hq]
      · simp [hq]

/-- A process that is ready, with an empty queue of messages. -/
def readyProc (pid : Nat) (next : Option ProcRef) : Proc where
  pid := pid
  status := .ready
  block := .notBlocked
  waitProc := 0
  waitFor := 0
  exitStatus := 0
  ticksLeft := procStartTicks
  scResult := 0
  msgWaitbuf := none
  msgbuffer := rbufCreate (fun _ => 0) 20 24 false
  next := next

/-- The queue of the first processes, `count` of them; process 0 runs. -/
def firstReady (count : Nat) : Pm where
  procs p := readyProc p.val (if p.val + 1 < count then some (p + 1) else none)
  plistHead := some 0
  plistTail := some (Fin.ofNat (maxProcs + 1) (count - 1))
  curProc := 0

end Kos
