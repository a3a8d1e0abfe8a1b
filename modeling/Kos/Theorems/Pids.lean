import Kos.Lib.Run
import Kos.Lemmas.Chain
import Kos.Lemmas.Table

/-!
# The number of a process names it

`init_pm` gives the free slots numbers that are also given to processes later, and a slot keeps its number when its process ends. In
every run `pm_get_proc` nevertheless finds the live process with a number, and there is only one (`pid_names_process`).
-/

namespace Kos

/-- A call that takes a slot of the process table or gives one back. -/
inductive TableCall where
  | create (status : ProcStatus) (mem : Nat → UInt8)
  | fork (parent : ProcRef) (mem : Nat → UInt8)
  | destroy (p : ProcRef)

/-- The process table, and the number of processes created so far. -/
structure TableRun where
  table : ProcTable
  created : Nat

def tableStep (r : TableRun) : TableCall → Option TableRun
  | .create status mem => (r.table.pmCreate status mem).map fun (_, t) => ⟨t, r.created + 1⟩
  | .fork parent mem =>
    match r.table.pmFork parent mem with
    | (some _, t) => some ⟨t, r.created + 1⟩
    | (none, t) => some ⟨t, r.created⟩
  | .destroy p => (pmDestroy r.table.pm p).map fun s => ⟨{ r.table with pm := s }, r.created⟩

/-- The counter of `newpid` has not wrapped. -/
def FewCreated (r : TableRun) (_ : TableCall) : Prop := r.created < 4294967296

instance (r : TableRun) (c : TableCall) : Decidable (FewCreated r c) := inferInstanceAs (Decidable (r.created < 4294967296))

namespace PidsAux

/-- What holds in every state. -/
structure TableInv (r : TableRun) : Prop where
  ordered : r.table.pm.Ordered
  cur : r.table.cur = w32 r.created
  below : ∀ p, r.table.pm.Live p → (r.table.pm.procs p).pid < r.created
  waits : ∀ p, (r.table.pm.procs p).waitProc = 0 ∧ (r.table.pm.procs p).waitFor = 0
  queue : ∃ l, r.table.pm.Chain l ∧ ∀ p ∈ l, r.table.pm.Live p

/-- A free slot is not in the ready queue. -/
theorem not_mem_of_empty {s : Pm} {l : List ProcRef} {p : ProcRef} (hl : ∀ q ∈ l, s.Live q) (hempty : s.getEmptyProc = some p) :
    p ∉ l := by
  intro hp
  exact (hl p hp).2 (getEmptyProc_eq_some.mp hempty).1.2

/-- A creation. -/
theorem TableInv.place {t : ProcTable} {n : Nat} {p : ProcRef} {f : Proc → Proc} {active : Bool} (h : TableInv ⟨t, n⟩)
    (hn : n < 4294967296) (hempty : t.pm.getEmptyProc = some p) (hf : NewProc f t.cur active) :
    TableInv ⟨⟨t.pm.place p f active, w32 (t.cur + 1)⟩, n + 1⟩ := by
  have hcur : t.cur = n := h.cur.trans (w32_of_lt hn)
  rw [hcur] at hf
  have hself : ((t.pm.place p f active).procs p).rest = (f (t.pm.procs p)).rest := rest_place_self ..
  refine ⟨?_, ?_, ?_, ?_, ?_⟩
  · refine h.ordered.place hempty ?_ hf
    intro q hq
    exact Nat.ne_of_lt (h.below q hq)
  · show w32 (t.cur + 1) = w32 (n + 1)
    rw [hcur]
  · intro q hq
    by_cases hqp : q = p
    · subst hqp
      have hpid : ((t.pm.place q f active).procs q).pid = n := (congrArg Proc.pid hself :).trans (hf.pid _)
      rw [hpid]
      exact Nat.lt_succ_self n
    · have hpid : ((t.pm.place p f active).procs q).pid = (t.pm.procs q).pid := (congrArg Proc.pid (rest_place_ne _ p f active hqp) :)
      rw [hpid]
      exact Nat.lt_succ_of_lt (h.below q ((Pm.Live.place_iff hqp).mp hq))
  · intro q
    by_cases hqp : q = p
    · subst hqp
      exact ⟨(congrArg Proc.waitProc hself :).trans (hf.waitProc _), (congrArg Proc.waitFor hself :).trans (hf.waitFor _)⟩
    · have hrest := rest_place_ne t.pm p f active hqp
      exact ⟨(congrArg Proc.waitProc hrest :).trans (h.waits q).1, (congrArg Proc.waitFor hrest :).trans (h.waits q).2⟩
  · obtain ⟨l, hchain, hlive⟩ := h.queue
    have hp := not_mem_of_empty hlive hempty
    have hlive' : ∀ q ∈ l, (t.pm.place p f active).Live q := by
      intro q hq
      have hqp : q ≠ p := fun he => hp (he ▸ hq)
      exact (Pm.Live.place_iff hqp).mpr (hlive q hq)
    cases active with
    | false => exact ⟨l, hchain.setProc p hf.next, hlive'⟩
    | true =>
      obtain ⟨l', hchain', hmem⟩ := (hchain.setProc p hf.next).activate hp
      refine ⟨l', hchain', ?_⟩
      intro q hq
      rcases hmem q hq with hq | rfl
      · exact hlive' q hq
      · refine ⟨(getEmptyProc_eq_some.mp hempty).1.1, ?_⟩
        rw [status_place, if_pos rfl, hf.status rfl]
        nofun

/-- `pm_destroy` of a process with which nobody waits. -/
theorem pmDestroy_of_noWait {s s' : Pm} {p : ProcRef} (hw : (s.procs p).waitProc = 0 ∧ (s.procs p).waitFor = 0)
    (h : pmDestroy s p = some s') :
    ∃ s₁, pmDeactivate s p = some s₁ ∧ s' = s₁.setProc p fun proc => { proc with status := .slotFree } := by
  unfold pmDestroy at h
  obtain ⟨s₁, hs₁, h⟩ := Option.bind_eq_some_iff.mp h
  have hrest := pmDeactivate_sameRest hs₁
  have hproc : ((s₁.setProc p fun proc => { proc with status := .slotFree }).procs p).waitProc = 0 := by
    simp [Pm.setProc, hrest.waitProc, hw.1]
  have hfor : ((s₁.setProc p fun proc => { proc with status := .slotFree }).procs p).waitFor = 0 := by
    simp [Pm.setProc, hrest.waitFor, hw.2]
  simp only [wakeWaiter, forgetWaiter, hproc, hfor, ne_eq, not_true_eq_false, if_false, Option.bind_eq_bind, Option.bind_some] at h
  exact ⟨s₁, hs₁, (Option.some.inj h).symm⟩

theorem TableInv.destroy {t : ProcTable} {n : Nat} {p : ProcRef} {s : Pm} (h : TableInv ⟨t, n⟩) (hs : pmDestroy t.pm p = some s) :
    TableInv ⟨{ t with pm := s }, n⟩ := by
  obtain ⟨s₁, hs₁, rfl⟩ := pmDestroy_of_noWait (h.waits p) hs
  obtain ⟨l, hchain, hlive⟩ := h.queue
  obtain ⟨l', hchain', hmem, hfree, hlive₁⟩ := hchain.deactivate hs₁
  have hrest : t.pm.SameRest (s₁.setProc p fun proc => { proc with status := .slotFree }) :=
    (pmDeactivate_sameRest hs₁).trans (sameRest_setProc s₁ p fun _ => rfl)
  have hback : ∀ q, (s₁.setProc p fun proc => { proc with status := .slotFree }).Live q → t.pm.Live q := by
    rintro q ⟨hq, hstatus⟩
    rw [ReadyQueueAux.status_setProc] at hstatus
    split at hstatus
    · exact absurd rfl hstatus
    · rcases hlive₁ q hstatus with hst | hm
      · exact ⟨hq, hst⟩
      · exact hlive q hm
  have hchain₁ : (s₁.setProc p fun proc => { proc with status := .slotFree }).Chain l' := hchain'.setProc p fun _ => rfl
  refine ⟨h.ordered.congr hrest.pid hback, h.cur, ?_, ?_, l', hchain₁, ?_⟩
  · intro q hq
    have := h.below q (hback q hq)
    rwa [← hrest.pid q] at this
  · intro q
    exact ⟨(hrest.waitProc q).trans (h.waits q).1, (hrest.waitFor q).trans (h.waits q).2⟩
  · intro q hq
    obtain ⟨hql, hqp⟩ := hmem q hq
    refine ⟨(hlive q hql).1, ?_⟩
    rw [ReadyQueueAux.status_setProc, if_neg hqp]
    exact fun he => (hlive q hql).2 (hfree q he)

theorem tableInv_step {r r' : TableRun} {c : TableCall} (h : TableInv r) (hc : FewCreated r c) (hs : tableStep r c = some r') :
    TableInv r' := by
  cases c with
  | create status mem =>
    simp only [tableStep, ProcTable.pmCreate, Option.map_map] at hs
    obtain ⟨p, hempty, rfl⟩ := Option.map_eq_some_iff.mp hs
    have hplace := h.place hc hempty (newProc_init r.table.cur status mem)
    by_cases hstatus : status = .ready
    · simpa [hstatus, Pm.place, ProcTable.initProc, ProcTable.newpid] using hplace
    · simpa [hstatus, Pm.place, ProcTable.initProc, ProcTable.newpid] using hplace
  | fork parent mem =>
    simp only [tableStep, ProcTable.pmFork] at hs
    cases hempty : r.table.pm.getEmptyProc with
    | none =>
      simp only [hempty] at hs
      cases hs
      exact h
    | some p =>
      simp only [hempty] at hs
      cases hs
      have hnew := newProc_init r.table.cur .ready mem
      have hchild : NewProc (fun proc => { proc.init r.table.cur .ready mem with
          scResult := (r.table.pm.procs parent).scResult }) r.table.cur false :=
        ⟨hnew.pid, hnew.waitProc, hnew.waitFor, hnew.exitStatus, hnew.block, hnew.next, fun hb => by cases hb⟩
      exact h.place hc hempty hchild
  | destroy p =>
    obtain ⟨s, hdestroy, rfl⟩ := Option.map_eq_some_iff.mp hs
    exact h.destroy hdestroy

/-- The state after `init_pm`. -/
theorem tableInv_init {mem : Nat → UInt8} {t₀ : ProcTable} (h : Started mem t₀) : TableInv ⟨t₀, 1⟩ := by
  have hlive : ∀ q, t₀.pm.Live q → q = 0 := by
    intro q hq
    by_contra hne
    exact hq.2 ((h.status q).trans (if_neg hne))
  refine ⟨?_, h.cur, ?_, ?_, [0], Pm.Chain.of_queue h.queue, ?_⟩
  · intro q hq i hi
    rw [hlive q hq] at hi
    exact absurd hi (Fin.not_lt_zero i)
  · intro q hq
    have hpid : (t₀.pm.procs 0).pid = 0 := (congrArg Proc.pid (h.rest 0) :)
    rw [hlive q hq, hpid]
    exact Nat.zero_lt_one
  · intro q
    exact ⟨h.waitProc, h.waitFor⟩
  · intro q hq
    rw [List.mem_singleton.mp hq]
    refine ⟨by decide, ?_⟩
    rw [h.status, if_pos rfl]
    nofun

end PidsAux

open PidsAux

/-- In every state reached from `init_pm`, the slot that `pm_get_proc` finds for the number of a live process is this process, and no
two live processes have the same number. -/
theorem pid_names_process (mem : Nat → UInt8) (t₀ : ProcTable) (h₀ : initPm mem = some t₀) (r : TableRun)
    (h : Reach tableStep FewCreated ⟨t₀, 1⟩ r) :
    (∀ p : ProcRef, p.val < maxProcs → (r.table.pm.procs p).status ≠ .slotFree →
      pmGetProc r.table.pm (r.table.pm.procs p).pid = some p) ∧
    ∀ p q : ProcRef, p.val < maxProcs → (r.table.pm.procs p).status ≠ .slotFree → q.val < maxProcs →
      (r.table.pm.procs q).status ≠ .slotFree → (r.table.pm.procs p).pid = (r.table.pm.procs q).pid → p = q := by
  have hinv : TableInv r := by
    refine h.inv TableInv (tableInv_init (started_of_initPm h₀)) ?_
    intro r c r' hr hc hs
    exact tableInv_step hr hc hs
  refine ⟨?_, ?_⟩
  · intro p hp hstatus
    exact hinv.ordered.getProc ⟨hp, hstatus⟩
  · intro p q hp hpstatus hq hqstatus he
    exact hinv.ordered.inj ⟨hp, hpstatus⟩ ⟨hq, hqstatus⟩ he

/-- Two processes are created, the first one ends and its slot is taken again. -/
def slotReused : List TableCall := [.create .ready zeroMem, .create .ready zeroMem, .destroy 1, .create .ready zeroMem]

/-- The process in slot 1 has the number 3, and so has the slot 3, which is free. The number is that of the process. -/
theorem reused_slot_found : ∃ t₀ r, initPm zeroMem = some t₀ ∧ Reach tableStep FewCreated ⟨t₀, 1⟩ r ∧
    (r.table.pm.procs 1).pid = 3 ∧ (r.table.pm.procs 3).pid = 3 ∧ pmGetProc r.table.pm 3 = some 1 := by
  obtain ⟨t₀, h₀, hrun⟩ : ∃ t₀, initPm zeroMem = some t₀ ∧ _ :=
    (Option.any_eq_true (fun t₀ => (runIf tableStep FewCreated ⟨t₀, 1⟩ slotReused).any fun r =>
      (r.table.pm.procs 1).pid = 3 ∧ (r.table.pm.procs 3).pid = 3 ∧ (r.table.pm.procs 1).status ≠ .slotFree) _).mp
      (by decide +kernel)
  obtain ⟨r, hr, hend⟩ := (Option.any_eq_true _ _).mp hrun
  obtain ⟨hpid, hfree, hlive⟩ := of_decide_eq_true hend
  have hreach : Reach tableStep FewCreated ⟨t₀, 1⟩ r := Reach.init.runIf slotReused hr
  refine ⟨t₀, r, h₀, hreach, hpid, hfree, ?_⟩
  have hget := (pid_names_process zeroMem t₀ h₀ r hreach).1 1 (by decide) hlive
  rwa [hpid] at hget

end Kos
