import Mathlib.Data.Finset.Option
import Kos.Lib.Run
import Kos.Lemmas.ReadyQueue

/-!
# The ready queue over whole runs

`pm_deactivate` unlinks a process but leaves `plist_tail` alone, so that removing the last process leaves `plist_tail` pointing to a
process outside the queue. In the runs in which that does not happen the queue holds exactly the active processes
(`queueOk_of_notTail`).
-/

namespace Kos

/-- A call that changes the ready queue. -/
inductive QueueCall where
  | activate (p : ProcRef)
  | deactivate (p : ProcRef)
  | block (p : ProcRef) (reason : BlockReason)
  | unblock (p : ProcRef)
  | destroy (p : ProcRef)
  | schedule
  deriving DecidableEq, Repr

namespace QueueCall

def exec (s : Pm) : QueueCall → Option Pm
  | activate p => some (pmActivate s p)
  | deactivate p => pmDeactivate s p
  | block p reason => (pmBlock s p reason).map Prod.snd
  | unblock p => some (pmUnblock s p)
  | destroy p => pmDestroy s p
  | schedule => pmSchedule s

/-- The process that the call deactivates; `pm_block` does nothing to a process that is blocked. -/
def removes (s : Pm) : QueueCall → Option ProcRef
  | deactivate p => some p
  | block p _ => if (s.procs p).status = .blocked then none else some p
  | destroy p => some p
  | _ => none

/-- The process that the call activates; `pm_destroy` wakes the process that waits. -/
def adds (s : Pm) : QueueCall → Option ProcRef
  | activate p => some p
  | unblock p => some p
  | destroy p => if (s.procs p).waitProc ≠ 0 then pmGetProc s (s.procs p).waitProc else none
  | _ => none

/-- The processes that `pm_destroy` looks up exist. -/
def LookupsOk (s : Pm) : QueueCall → Prop
  | destroy p => ((s.procs p).waitProc ≠ 0 → (pmGetProc s (s.procs p).waitProc).isSome) ∧
      ((s.procs p).waitFor ≠ 0 → (pmGetProc s (s.procs p).waitFor).isSome)
  | _ => True

instance (s : Pm) : (c : QueueCall) → Decidable (c.LookupsOk s)
  | destroy _ => inferInstanceAs (Decidable (_ ∧ _))
  | activate _ | deactivate _ | block _ _ | unblock _ | schedule => inferInstanceAs (Decidable True)

end QueueCall

/-- The processes, and those that were activated and not since deactivated. -/
structure QueueRun where
  pm : Pm
  active : Finset ProcRef

/-- The active processes without the one that the call deactivates. -/
def QueueRun.remaining (r : QueueRun) (c : QueueCall) : Finset ProcRef := r.active \ (c.removes r.pm).toFinset

/-- A call that may be made: it deactivates an active process, leaves one active, and activates one that is not. -/
def QueueRun.Legal (r : QueueRun) (c : QueueCall) : Prop :=
  (∀ p ∈ c.removes r.pm, p ∈ r.active) ∧ (r.remaining c).Nonempty ∧ (∀ p ∈ c.adds r.pm, p ∉ r.remaining c) ∧ c.LookupsOk r.pm

instance (r : QueueRun) (c : QueueCall) : Decidable (r.Legal c) := inferInstanceAs (Decidable (_ ∧ _ ∧ _ ∧ _))

def queueStep (r : QueueRun) (c : QueueCall) : Option QueueRun :=
  if r.Legal c then (c.exec r.pm).map (⟨·, r.remaining c ∪ (c.adds r.pm).toFinset⟩) else none

/-- The call does not deactivate the process that `plist_tail` points to. -/
def NotTail (r : QueueRun) (c : QueueCall) : Prop := ∀ p ∈ c.removes r.pm, r.pm.plistTail ≠ some p

/-- Following `next` from `plist_head` visits exactly the given processes, each once, and ends at `plist_tail`, whose `next` is
null. -/
def QueueOk (s : Pm) (active : Finset ProcRef) : Prop :=
  ∃ l, Links s.next s.plistHead l ∧ l.Nodup ∧ (∀ p, p ∈ l ↔ p ∈ active) ∧
    ∃ t, l.getLast? = some t ∧ s.plistTail = some t ∧ s.next t = none

open ReadyQueueAux

namespace QueueRunAux

/-- For a queue that is not empty this is what `Pm.Queue` says. -/
theorem queueOk_iff {s : Pm} {active : Finset ProcRef} (hne : active.Nonempty) :
    QueueOk s active ↔ ∃ l, s.Queue l ∧ ∀ p, p ∈ l ↔ p ∈ active := by
  constructor
  · rintro ⟨l, hl, hnd, hmem, t, hlast, htail, -⟩
    exact ⟨l, ⟨hl, htail.trans hlast.symm, hnd⟩, hmem⟩
  · rintro ⟨l, hq, hmem⟩
    obtain ⟨p, hp⟩ := hne
    have hl : l ≠ [] := List.ne_nil_of_mem ((hmem p).mpr hp)
    have hlast := List.getLast?_eq_some_getLast hl
    obtain ⟨l', hl'⟩ := List.getLast?_eq_some_iff.mp hlast
    refine ⟨l, hq.links, hq.nodup, hmem, _, hlast, hq.tail_eq.trans hlast, ?_⟩
    have hlinks := hq.links
    rw [hl'] at hlinks
    exact hlinks.drop

/-- The wake-up part of `pm_destroy`, when the waiting process exists and is not in the queue. -/
theorem wakeWaiter_queue {s : Pm} {l : List ProcRef} {p : ProcRef} (h : s.Queue l)
    (hw : (s.procs p).waitProc ≠ 0 → ∃ other, pmGetProc s (s.procs p).waitProc = some other ∧ other ∉ l) :
    ∃ s' l', wakeWaiter s p = some s' ∧ s'.Queue l' ∧
      (∀ q, q ∈ l' ↔ q ∈ l ∨ (s.procs p).waitProc ≠ 0 ∧ pmGetProc s (s.procs p).waitProc = some q) ∧
      ∀ q, (s'.procs q).pid = (s.procs q).pid ∧ (s'.procs q).waitFor = (s.procs q).waitFor := by
  by_cases hz : (s.procs p).waitProc = 0
  · exact ⟨s, l, if_neg (not_not.mpr hz), h, fun q => by simp [hz], fun q => ⟨rfl, rfl⟩⟩
  · obtain ⟨other, hget, hout⟩ := hw hz
    generalize hs₁ : s.setProc other (fun proc => { proc with scResult := (s.procs p).exitStatus }) = s₁
    generalize hs₂ : s₁.setProc other (fun proc => { proc with status := .ready, block := .notBlocked }) = s₂
    have hq : s₂.Queue l := by
      rw [← hs₂, ← hs₁]
      exact queue_setProc other (fun _ => rfl) (queue_setProc other (fun _ => rfl) h)
    have hids : ∀ q, (s₂.procs q).pid = (s.procs q).pid ∧ (s₂.procs q).waitFor = (s.procs q).waitFor := by
      intro q
      rw [← hs₂, ← hs₁]
      by_cases hqo : q = other
      · subst hqo
        simp [Pm.setProc]
      · simp [Pm.setProc, hqo]
    refine ⟨pmActivate s₂ other, l ++ [other], ?_, pmActivate_queue hq hout, fun q => ?_, fun q => ?_⟩
    · rw [← hs₂, ← hs₁]
      simp [wakeWaiter, hz, hget, pmUnblock]
    · simp [hz, hget, eq_comm]
    · have hrest := pmActivate_sameRest s₂ other
      exact ⟨(hrest.pid q).trans (hids q).1, (hrest.waitFor q).trans (hids q).2⟩

/-- The rest of `pm_destroy`, when the process that was waited for exists. -/
theorem forgetWaiter_queue {s : Pm} {l : List ProcRef} {p : ProcRef} (h : s.Queue l)
    (hf : (s.procs p).waitFor ≠ 0 → (pmGetProc s (s.procs p).waitFor).isSome) :
    ∃ s', forgetWaiter s p = some s' ∧ s'.Queue l := by
  unfold forgetWaiter
  by_cases hz : (s.procs p).waitFor = 0
  · exact ⟨s, if_neg (not_not.mpr hz), h⟩
  · obtain ⟨other, hget⟩ := Option.isSome_iff_exists.mp (hf hz)
    rw [if_pos hz, hget]
    by_cases hpid : (s.procs other).waitProc = (s.procs p).pid
    · exact ⟨_, if_pos hpid, queue_setProc other (fun _ => rfl) h⟩
    · exact ⟨s, if_neg hpid, h⟩

/-- `pm_destroy` of a process that is not the last one removes it and appends the process that waits for it. -/
theorem pmDestroy_queue {s : Pm} {l : List ProcRef} {p : ProcRef} (h : s.Queue l) (hp : p ∈ l) (htail : s.plistTail ≠ some p)
    (hadds : ∀ q ∈ (QueueCall.destroy p).adds s, q ∈ l → q = p) (hlook : (QueueCall.destroy p).LookupsOk s) :
    ∃ s' l', pmDestroy s p = some s' ∧ s'.Queue l' ∧ ∀ q, q ∈ l' ↔ (q ∈ l ∧ q ≠ p) ∨ q ∈ (QueueCall.destroy p).adds s := by
  obtain ⟨s₁, l₁, hs₁, hq₁, hl₁⟩ := pmDeactivate_removes h hp htail
  have hrest := pmDeactivate_sameRest hs₁
  generalize hs₂ : s₁.setProc p (fun proc => { proc with status := .slotFree }) = s₂
  have hq₂ : s₂.Queue l₁ := by
    rw [← hs₂]
    exact queue_setProc p (fun _ => rfl) hq₁
  have hsame : s.SameRest s₂ := by
    rw [← hs₂]
    exact hrest.trans (sameRest_setProc s₁ p fun _ => rfl)
  have hwaitProc := hsame.waitProc p
  have hadds_iff : ∀ q, q ∈ (QueueCall.destroy p).adds s ↔
      (s.procs p).waitProc ≠ 0 ∧ pmGetProc s (s.procs p).waitProc = some q := by
    intro q
    by_cases hz : (s.procs p).waitProc = 0 <;> simp [QueueCall.adds, hz]
  obtain ⟨s₃, l₃, hs₃, hq₃, hl₃, hids⟩ := wakeWaiter_queue (p := p) hq₂ (by
    rw [hwaitProc, pmGetProc_congr hsame.pid]
    intro hz
    obtain ⟨other, hget⟩ := Option.isSome_iff_exists.mp (hlook.1 hz)
    refine ⟨other, hget, fun hmem => ?_⟩
    obtain ⟨hm, hne⟩ := (hl₁ other).mp hmem
    exact hne (hadds other ((hadds_iff other).mpr ⟨hz, hget⟩) hm))
  obtain ⟨s₄, hs₄, hq₄⟩ := forgetWaiter_queue (p := p) hq₃ (by
    rw [(hids p).2, hsame.waitFor p, pmGetProc_congr (fun q => (hids q).1.trans (hsame.pid q))]
    exact hlook.2)
  refine ⟨s₄, l₃, ?_, hq₄, fun q => ?_⟩
  · simp only [pmDestroy, hs₁, Option.bind_eq_bind, Option.bind_some, hs₂, hs₃, hs₄]
  · rw [hl₃, hl₁, hadds_iff, hwaitProc, pmGetProc_congr hsame.pid]

theorem mem_remaining {r : QueueRun} {c : QueueCall} {p : ProcRef} :
    p ∈ r.remaining c ↔ p ∈ r.active ∧ p ∉ c.removes r.pm := by
  rw [QueueRun.remaining, Finset.mem_sdiff, Option.mem_toFinset]

/-- What a call leaves: the active processes without the one it removes, with the one it adds. -/
theorem mem_after {r : QueueRun} {c : QueueCall} {p : ProcRef} :
    p ∈ r.remaining c ∪ (c.adds r.pm).toFinset ↔ (p ∈ r.active ∧ p ∉ c.removes r.pm) ∨ p ∈ c.adds r.pm := by
  rw [Finset.mem_union, mem_remaining, Option.mem_toFinset]

/-- A legal call that does not deactivate the last process succeeds, and the queue is what it should be. -/
theorem exec_queue {r : QueueRun} {c : QueueCall} {l : List ProcRef} (h : r.pm.Queue l) (hmem : ∀ p, p ∈ l ↔ p ∈ r.active)
    (hleg : r.Legal c) (ht : NotTail r c) :
    ∃ s' l', c.exec r.pm = some s' ∧ s'.Queue l' ∧ ∀ p, p ∈ l' ↔ p ∈ r.remaining c ∪ (c.adds r.pm).toFinset := by
  obtain ⟨hrem, hne, hadd, hlook⟩ := hleg
  simp only [mem_after, ← hmem]
  simp only [mem_remaining, ← hmem] at hadd
  cases c with
  | activate p =>
    have hp : p ∉ l := fun hp => hadd p rfl ⟨hp, nofun⟩
    exact ⟨_, l ++ [p], rfl, pmActivate_queue h hp, fun q => by simp [QueueCall.removes, QueueCall.adds, eq_comm]⟩
  | unblock p =>
    have hp : p ∉ l := fun hp => hadd p rfl ⟨hp, nofun⟩
    have hq := pmActivate_queue (queue_setProc p (f := fun proc => { proc with status := .ready, block := .notBlocked })
      (fun _ => rfl) h) hp
    exact ⟨_, l ++ [p], rfl, hq, fun q => by simp [QueueCall.removes, QueueCall.adds, eq_comm]⟩
  | deactivate p =>
    have hp : p ∈ l := (hmem p).mpr (hrem p rfl)
    obtain ⟨s', l', hs', hq', hl'⟩ := pmDeactivate_removes h hp (ht p rfl)
    exact ⟨s', l', hs', hq', fun q => by simp [QueueCall.removes, QueueCall.adds, hl', eq_comm]⟩
  | block p reason =>
    by_cases hb : (r.pm.procs p).status = .blocked
    · exact ⟨r.pm, l, by simp [QueueCall.exec, pmBlock, hb], h, fun q => by simp [QueueCall.removes, QueueCall.adds, hb]⟩
    · have hrm : QueueCall.removes r.pm (.block p reason) = some p := if_neg hb
      have hp : p ∈ l := (hmem p).mpr (hrem p hrm)
      obtain ⟨s', l', hs', hq', hl'⟩ := pmDeactivate_removes
        (queue_setProc p (f := fun proc => { proc with status := .blocked, block := reason }) (fun _ => rfl) h) hp (ht p hrm)
      refine ⟨s', l', by simp [QueueCall.exec, pmBlock, hb, hs'], hq', fun q => ?_⟩
      simp [QueueCall.adds, hrm, hl', eq_comm]
  | destroy p =>
    have hp : p ∈ l := (hmem p).mpr (hrem p rfl)
    obtain ⟨s', l', hs', hq', hl'⟩ := pmDestroy_queue h hp (ht p rfl) (fun q hq hql => by
      by_contra hqp
      exact hadd q hq ⟨hql, fun he => hqp (Option.some.inj he).symm⟩) hlook
    refine ⟨s', l', hs', hq', fun q => ?_⟩
    rw [hl']
    simp [QueueCall.removes, eq_comm]
  | schedule =>
    obtain ⟨a, ha⟩ := hne
    have ha : a ∈ l := (hmem a).mpr (mem_remaining.mp ha).1
    obtain ⟨b, l', rfl⟩ := List.exists_cons_of_ne_nil (List.ne_nil_of_mem ha)
    obtain ⟨s', hs', hq', -⟩ := pmSchedule_queue h
    exact ⟨s', l' ++ [b], hs', hq', fun q => by simp [QueueCall.removes, QueueCall.adds, or_comm]⟩

/-- Deactivating the last process of a queue with others in it leaves `plist_tail` outside the queue; when it is the current
process, scheduling then loses the head. -/
theorem pmDeactivate_tail_breaks {s s' : Pm} {l : List ProcRef} {p : ProcRef} {active : Finset ProcRef}
    (h : s.Queue (l ++ [p])) (hl : l ≠ []) (hmem : ∀ q, q ∈ l ↔ q ∈ active) (hs : pmDeactivate s p = some s') :
    ¬QueueOk s' active := by
  have hnd := List.nodup_append.mp h.nodup
  have hpl : p ∉ l := fun hp => hnd.2.2 p hp p (List.mem_singleton_self p) rfl
  have htail : s.plistTail = some p := by
    rw [h.tail_eq]
    simp
  obtain ⟨s₁, hlinks, htail₁, -, -, -, heq⟩ := pmDeactivate_links h.links h.nodup
  rw [List.append_nil] at hlinks
  rw [htail] at htail₁
  rintro ⟨l', hlinks', -, hmem', t, hlast, htail', -⟩
  by_cases hcur : p = s.curProc
  · obtain ⟨a, l, rfl⟩ := List.exists_cons_of_ne_nil hl
    obtain ⟨s₂, hs₂, hnext, hhead, -, -⟩ := pmSchedule_pointers htail₁ hlinks.1
    rw [heq, if_pos hcur, hs₂] at hs
    cases hs
    obtain ⟨hpa, hpl⟩ := not_or.mp (mt List.mem_cons.mpr hpl)
    have hal : a ∉ l := (List.nodup_cons.mp hnd.1).1
    have hrest : Links s'.next s'.plistHead l := by
      rw [hnext, hhead, Function.update_of_ne (Ne.symm hpa)]
      refine hlinks.2.congr fun q hq => ?_
      have hqa : q ≠ a := fun he => hal (he ▸ hq)
      have hqp : q ≠ p := fun he => hpl (he ▸ hq)
      rw [Function.update_of_ne hqa, Function.update_of_ne hqp]
    have hmiss := (hmem' a).mpr ((hmem a).mp (List.mem_cons_self ..))
    rw [hlinks'.unique hrest] at hmiss
    exact hal hmiss
  · rw [heq, if_neg hcur] at hs
    cases hs
    rw [htail₁] at htail'
    cases htail'
    rw [hlinks'.unique hlinks] at hlast
    exact hpl (List.mem_of_getLast? hlast)

end QueueRunAux

open QueueRunAux

/-- In every state reached from a good queue by calls that do not deactivate the process at `plist_tail`: the queue visits exactly
the active processes, each once, and ends at `plist_tail`; every further call of this kind succeeds; and `pm_deactivate` leaves the
queue good exactly when it is not called for the process at `plist_tail`. -/
theorem queueOk_of_notTail (s₀ : Pm) (active : Finset ProcRef) (hne : active.Nonempty) (h₀ : QueueOk s₀ active) (r : QueueRun)
    (h : Reach queueStep NotTail ⟨s₀, active⟩ r) :
    QueueOk r.pm r.active ∧ (∀ c, r.Legal c → NotTail r c → (queueStep r c).isSome) ∧
      ∀ p, r.Legal (.deactivate p) →
        ((∃ s', pmDeactivate r.pm p = some s' ∧ QueueOk s' (r.remaining (.deactivate p))) ↔ r.pm.plistTail ≠ some p) := by
  have hinv : r.active.Nonempty ∧ ∃ l, r.pm.Queue l ∧ ∀ p, p ∈ l ↔ p ∈ r.active := by
    refine h.inv (fun r => r.active.Nonempty ∧ ∃ l, r.pm.Queue l ∧ ∀ p, p ∈ l ↔ p ∈ r.active)
      ⟨hne, (queueOk_iff hne).mp h₀⟩ ?_
    rintro r c r' ⟨-, l, hq, hmem⟩ ht hs
    unfold queueStep at hs
    split at hs
    · rename_i hleg
      obtain ⟨s', l', hs', hq', hl'⟩ := exec_queue hq hmem hleg ht
      rw [hs'] at hs
      cases hs
      exact ⟨hleg.2.1.mono Finset.subset_union_left, l', hq', hl'⟩
    · cases hs
  obtain ⟨hne', l, hq, hmem⟩ := hinv
  refine ⟨(queueOk_iff hne').mpr ⟨l, hq, hmem⟩, fun c hleg ht => ?_, fun p hleg => ?_⟩
  · obtain ⟨s', l', hs', -⟩ := exec_queue hq hmem hleg ht
    simp [queueStep, hleg, hs']
  · constructor
    · rintro ⟨s', hs', hok⟩ htail
      obtain ⟨l', rfl⟩ := List.getLast?_eq_some_iff.mp (hq.tail_eq.symm.trans htail)
      have hpl : p ∉ l' := fun hp => (List.nodup_append.mp hq.nodup).2.2 p hp p (List.mem_singleton_self p) rfl
      have hrem : ∀ q, q ∈ l' ↔ q ∈ r.remaining (.deactivate p) := by
        intro q
        rw [mem_remaining, ← hmem]
        by_cases hqp : q = p
        · subst hqp
          simp [hpl, QueueCall.removes]
        · simp [QueueCall.removes, hqp, Ne.symm hqp]
      obtain ⟨q, hq'⟩ := hleg.2.1
      exact pmDeactivate_tail_breaks hq (List.ne_nil_of_mem ((hrem q).mpr hq')) hrem hs' hok
    · intro htail
      obtain ⟨s', l', hs', hq', hl'⟩ := exec_queue hq hmem hleg (fun q hq he => htail (he.trans (congrArg some (Option.some.inj hq).symm)))
      refine ⟨s', hs', (queueOk_iff hleg.2.1).mpr ⟨l', hq', fun q => ?_⟩⟩
      rw [hl']
      simp [QueueCall.adds]

/-- The queue of the processes 0 and 1; process 0 runs. -/
def twoReady : Pm where
  procs p := readyProc p.val (if p = 0 then some 1 else none)
  plistHead := some 0
  plistTail := some 1
  curProc := 0

/-- Deactivating the first of two processes. -/
theorem queueOk_first_deactivated :
    ∃ r, queueStep ⟨twoReady, {0, 1}⟩ (.deactivate 0) = some r ∧ QueueOk r.pm r.active := by
  have hok : QueueOk twoReady {0, 1} := by
    refine ⟨[0, 1], ⟨rfl, rfl, rfl⟩, by decide, fun p => by simp, 1, rfl, rfl, rfl⟩
  have hstep : (queueStep ⟨twoReady, {0, 1}⟩ (.deactivate 0)).isSome := by decide +kernel
  obtain ⟨r, hr⟩ := Option.isSome_iff_exists.mp hstep
  refine ⟨r, hr, (queueOk_of_notTail twoReady {0, 1} ⟨0, by simp⟩ hok r (.step _ .init ?_ hr)).1⟩
  rintro p ⟨⟩
  decide

/-- Deactivating the second of two processes: `plist_tail` still points to it. -/
theorem queue_tail_stale :
    ∃ s', pmDeactivate twoReady 1 = some s' ∧ s'.plistHead = some 0 ∧ s'.next 0 = none ∧ s'.plistTail = some 1 ∧
      ¬QueueOk s' {0} := by
  refine ⟨_, rfl, rfl, rfl, rfl, ?_⟩
  rintro ⟨l, -, -, hmem, t, hlast, htail, -⟩
  cases htail
  have := (hmem 1).mp (List.mem_of_getLast? hlast)
  simp at this

end Kos
