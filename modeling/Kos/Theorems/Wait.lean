import Kos.Lemmas.WaitRun

/-!
# Waiting for a process to end

Runs in which processes are created, wait for each other, exit and are killed. A process that waits is woken by the end of the process
it waits for, and gets its exit status (`waitpid_delivers`). The process numbers that `pm_destroy` looks up exist as long as no slot is
taken again whose number is still in `wait_for` of a live process (`destroy_finds_processes`): `wait_for` is not reset when the wait is
over.
-/

namespace Kos

open WaitAux

/-! ## The numbers that `pm_destroy` looks up -/

/-- Every number in `wait_proc` and `wait_for` of a live process is found. -/
def Found (s : Pm) : Prop :=
  ∀ p, s.Live p → ((s.procs p).waitProc ≠ 0 → (pmGetProc s (s.procs p).waitProc).isSome) ∧
    ((s.procs p).waitFor ≠ 0 → (pmGetProc s (s.procs p).waitFor).isSome)

/-- The slot that a new process takes is not the last one with a number that a live process has in `wait_for`. -/
def KeepsNumbers (r : PmRun) (c : PmCall) : Prop :=
  c.creates = true → ∀ i, r.table.pm.getEmptyProc = some i → ∀ p, r.table.pm.Live p → (r.table.pm.procs p).waitFor ≠ 0 →
    (r.table.pm.procs p).waitFor = r.table.cur ∨
      ∃ j ≠ i, j.val < maxProcs ∧ (r.table.pm.procs j).pid = (r.table.pm.procs p).waitFor

namespace FoundAux

/-- The one that waits is found: it is live. -/
theorem found_iff {s : Pm} (h : PmOk s) :
    Found s ↔ ∀ p, s.Live p → (s.procs p).waitFor ≠ 0 → ∃ j : ProcRef, j.val < maxProcs ∧ (s.procs j).pid = (s.procs p).waitFor := by
  obtain ⟨l, hl⟩ := h.waits
  constructor
  · intro hfound p hp hwait
    exact isSome_pmGetProc.mp ((hfound p hp).2 hwait)
  · intro hfound p hp
    refine ⟨?_, fun hwait => isSome_pmGetProc.mpr (hfound p hp hwait)⟩
    intro hwait
    obtain ⟨w, hw⟩ := hl.waited p hp hwait
    rw [hl.getProc_of_waits hw]
    rfl

/-- A call that creates no process. -/
theorem found_of_not_created {t t' : ProcTable} {c : PmCall} (h : PmOk t.pm) (h' : PmOk t'.pm) (hfound : Found t.pm)
    (he : Effect t c t') (hc : c.creates = true → t.pm.getEmptyProc = none) : Found t'.pm := by
  obtain ⟨-, hpid, hlive, hwaitFor⟩ := he.numbers h hc
  rw [found_iff h']
  intro p hp hwait
  simp only [hpid]
  rcases hwaitFor p with hsame | hget
  · rw [hsame] at hwait ⊢
    exact (found_iff h).mp hfound p (hlive p hp) hwait
  · exact isSome_pmGetProc.mp hget

/-- A creation leaves every number found if and only if it takes none away. -/
theorem found_place {t : ProcTable} {i : ProcRef} {f : Proc → Proc} {active : Bool} {result : Nat}
    (hempty : t.pm.getEmptyProc = some i) (hf : NewProc f t.cur active)
    (h' : PmOk ((t.pm.place i f active).storeResult t.pm.curProc result)) :
    Found ((t.pm.place i f active).storeResult t.pm.curProc result) ↔
      ∀ p, t.pm.Live p → (t.pm.procs p).waitFor ≠ 0 →
        (t.pm.procs p).waitFor = t.cur ∨ ∃ j ≠ i, j.val < maxProcs ∧ (t.pm.procs j).pid = (t.pm.procs p).waitFor := by
  have himax := (getEmptyProc_eq_some.mp hempty).1.1
  have hifree : ¬t.pm.Live i := fun hi => hi.2 (getEmptyProc_eq_some.mp hempty).1.2
  generalize hs' : (t.pm.place i f active).storeResult t.pm.curProc result = s' at h'
  have hproc : ∀ q, { s'.procs q with scResult := 0 } = { (t.pm.place i f active).procs q with scResult := 0 } :=
    hs' ▸ storeResult_rest (t.pm.place i f active) t.pm.curProc result
  have hpid : ∀ q, (s'.procs q).pid = if q = i then t.cur else (t.pm.procs q).pid := by
    intro q
    refine (congrArg Proc.pid (hproc q) :).trans ?_
    split_ifs with hq
    · subst hq
      exact (congrArg Proc.pid (rest_place_self t.pm q f active) :).trans (hf.pid _)
    · exact (congrArg Proc.pid (rest_place_ne t.pm i f active hq) :)
  have hfor : ∀ q ≠ i, (s'.procs q).waitFor = (t.pm.procs q).waitFor := by
    intro q hq
    exact (congrArg Proc.waitFor (hproc q) :).trans (congrArg Proc.waitFor (rest_place_ne t.pm i f active hq) :)
  have hfor_new : (s'.procs i).waitFor = 0 :=
    (congrArg Proc.waitFor (hproc i) :).trans ((congrArg Proc.waitFor (rest_place_self t.pm i f active) :).trans (hf.waitFor _))
  have hlive : ∀ q ≠ i, s'.Live q ↔ t.pm.Live q := by
    intro q hq
    have hstatus : (s'.procs q).status = (t.pm.procs q).status :=
      (congrArg Proc.status (hproc q) :).trans ((status_place t.pm i f active q).trans (if_neg hq))
    unfold Pm.Live
    rw [hstatus]
  rw [found_iff h']
  constructor
  · intro hall p hp hwait
    have hpi : p ≠ i := fun he => hifree (he ▸ hp)
    obtain ⟨j, hj, hjpid⟩ := hall p ((hlive p hpi).mpr hp) (by rwa [hfor p hpi])
    rw [hfor p hpi, hpid] at hjpid
    split_ifs at hjpid with hji
    · exact .inl hjpid.symm
    · exact .inr ⟨j, hji, hj, hjpid⟩
  · intro hall p hp hwait
    have hpi : p ≠ i := by
      rintro rfl
      exact hwait hfor_new
    rw [hfor p hpi] at hwait ⊢
    rcases hall p ((hlive p hpi).mp hp) hwait with hcur | ⟨j, hji, hj, hjpid⟩
    · exact ⟨i, himax, by rw [hpid, if_pos rfl, hcur]⟩
    · exact ⟨j, hj, by rw [hpid, if_neg hji, hjpid]⟩

/-- A call keeps every number found if and only if it keeps the numbers, provided it creates a process; otherwise it does. -/
theorem found_step {r r' : PmRun} {c : PmCall} (h : RunOk r) (hfound : Found r.table.pm) (hs : c.step r = some r') :
    Found r'.table.pm ↔ KeepsNumbers r c := by
  have h' := (h.step hs).pm
  obtain ⟨t, n⟩ := r
  obtain ⟨t', n'⟩ := r'
  have he := effect_of_exec (step_cases hs).1
  by_cases hnone : c.creates = true → t.pm.getEmptyProc = none
  · have hfound' := found_of_not_created h.pm h' hfound he hnone
    refine ⟨fun _ => ?_, fun _ => hfound'⟩
    intro hc i hempty
    cases (hnone hc).symm.trans hempty
  · obtain ⟨i, f, active, result, hc, hempty, hf, rfl⟩ := he.created_of_room hnone
    refine (found_place hempty hf h').trans ⟨?_, ?_⟩
    · intro hall _ j hj
      cases hempty.symm.trans hj
      exact hall
    · intro hkeep
      exact hkeep hc i hempty

/-- `pm_destroy` returns when the number in `wait_for` is found. -/
theorem isSome_pmDestroy {s : Pm} (h : PmOk s) (hfound : Found s) (h0 : s.curProc ≠ 0) (status : Nat) :
    (pmDestroy (dying s status) s.curProc).isSome := by
  obtain ⟨l, hl⟩ := h.waits
  obtain ⟨s₂, l₂, -, hdestroy, hended, -⟩ := h.destroy h0 status
  rw [hdestroy]
  unfold forgetWaiter
  split_ifs with hwait
  · rw [hended.waitFor] at hwait
    have hget := (hfound _ (hl.active _ hl.mem_cur).1).2 hwait
    rw [← pmGetProc_congr hended.pid, ← hended.waitFor] at hget
    obtain ⟨other, hother⟩ := Option.isSome_iff_exists.mp hget
    simp only [hother, Option.bind_eq_bind, Option.bind_some]
    split_ifs <;> rfl
  · rfl

end FoundAux

open FoundAux

/-- The process 1 waits for the process 2, which exits; its slot is taken by a new process. -/
def waitedAndReused : List PmCall :=
  [.create .ready zeroMem, .create .ready zeroMem, .schedule, .waitpid 2, .schedule, .exit 7, .create .ready zeroMem]

/-- The state in which a call that ends the current process destroys it. -/
def PmCall.atDestroy (s : Pm) : PmCall → Pm
  | .exit status => s.setProc s.curProc fun p => { p with exitStatus := status }
  | _ => s

/-- The process `w` was made ready, once, and got its result; no other process got one, and nobody is still waited for by `w`. -/
structure Delivered (s s' : Pm) (w : ProcRef) (status : Nat) : Prop where
  ready : (s'.procs w).status = .ready
  notBlocked : (s'.procs w).block = .notBlocked
  result : (s'.procs w).scResult = status
  others : ∀ p ≠ w, (s'.procs p).scResult = (s.procs p).scResult
  queued : ∃ l, s'.Queue l ∧ l.count w = 1
  once : ∀ p, s'.Live p → (s'.procs p).waitProc ≠ (s'.procs w).pid

namespace DeliverAux

open ReadyQueueAux

/-- What holds while `w` waits for `q`. -/
structure Waiting (r : PmRun) (w q : ProcRef) : Prop where
  ok : RunOk r
  live : r.table.pm.Live q
  waits : r.table.pm.Waits w q

theorem Waiting.waitProc_ne_zero {r : PmRun} {w q : ProcRef} (h : Waiting r w q) : (r.table.pm.procs q).waitProc ≠ 0 := by
  obtain ⟨l, hl⟩ := h.ok.pm.waits
  have hw0 : w ≠ 0 := by
    rintro rfl
    exact hl.not_mem_of_waits h.waits hl.idle
  rw [← h.waits.pid]
  exact hl.pid_ne_zero h.waits.live hw0

/-- A call that does not end the process that is waited for. -/
theorem Waiting.step {r r' : PmRun} {c : PmCall} {w q : ProcRef} (h : Waiting r w q)
    (hc : ¬(r.table.pm.caller = some q ∧ c.ends.isSome)) (hs : c.step r = some r') : Waiting r' w q := by
  have hexec := (step_cases hs).1
  have he := effect_of_exec hexec
  cases hends : c.ends with
  | none =>
    obtain ⟨-, hkeep, hlive⟩ := he.kept h.ok.pm h.ok.fresh hends
    exact ⟨h.ok.step hs, hlive q h.live, hkeep w q h.live h.waits (hlive q h.live)⟩
  | some status =>
    obtain ⟨h0, -⟩ := he.ended h.ok.pm hends
    obtain ⟨-, hkeep, hlive, -⟩ := he.kept_ended h.ok.pm hends
    have hcur : q ≠ r.table.pm.curProc := by
      rintro rfl
      refine hc ⟨caller_eq_some.mpr ⟨rfl, h0, ?_⟩, by rw [hends]; rfl⟩
      rintro hidle
      exact absurd h.live.1 (by rw [hidle]; decide)
    have hq : r'.table.pm.Live q := (hlive q).mpr ⟨h.live, hcur⟩
    exact ⟨h.ok.step hs, hq, hkeep w q h.live h.waits hq⟩

theorem atDestroy_eq {s : Pm} {c : PmCall} {status : Nat} (h : PmOk s) (hc : c.ends = some status) :
    c.atDestroy s = dying s status := by
  cases c with
  | exit status' =>
    cases hc
    rfl
  | kill =>
    cases hc
    exact (dying_of_unset h).symm
  | create | load | fork | waitpid | schedule => cases hc

/-- The end of the process that is waited for. -/
theorem Waiting.delivered {r : PmRun} {w : ProcRef} {s' : Pm} {l : List ProcRef} {status : Nat}
    (h : Waiting r w r.table.pm.curProc) (hended : Ended r.table.pm s' l status) : Delivered r.table.pm s' w status := by
  obtain ⟨l₀, hl₀⟩ := h.ok.pm.waits
  obtain ⟨hready, hblock, hresult, hmem, honce⟩ := hended.woken w h.waits h.waitProc_ne_zero
  refine ⟨hready, hblock, hresult, ?_, ⟨l, hended.ok.cur.1, List.count_eq_one_of_mem hended.ok.cur.1.nodup hmem⟩, ?_⟩
  · intro p hp
    refine hended.results p ?_
    rintro ⟨hwp, -⟩
    exact hp (hl₀.eq_of_waits h.waits hwp.live hwp.pid)
  · rw [hended.pid]
    exact honce

/-- What a whole call leaves of it. -/
theorem delivered_exec {r r' : PmRun} {c : PmCall} {w : ProcRef} {status : Nat} (h : Waiting r w r.table.pm.curProc)
    (hc : c.ends = some status) (hs : c.step r = some r') :
    ((r'.table.pm.procs w).status = .ready ∨ (r'.table.pm.procs w).status = .running) ∧
      (r'.table.pm.procs w).scResult = status ∧
      ∀ p ≠ w, p ≠ r.table.pm.curProc → (r'.table.pm.procs p).scResult = (r.table.pm.procs p).scResult := by
  obtain ⟨l₀, hl₀⟩ := h.ok.pm.waits
  have hwcur : w ≠ r.table.pm.curProc := fun he => hl₀.not_mem_of_waits h.waits (he ▸ hl₀.mem_cur)
  obtain ⟨h0, -, s, hdestroy, hs'⟩ := (effect_of_exec (step_cases hs).1).ended h.ok.pm hc
  obtain ⟨s₂, l, -, -, -, hended⟩ := h.ok.pm.destroy h0 status
  have hd := h.delivered (hended s hdestroy)
  rcases hs' with hs' | ⟨s₁, hs₁, hs'⟩
  · rw [hs']
    exact ⟨.inl hd.ready, hd.result, fun p hp _ => hd.others p hp⟩
  · have hrest := pmSchedule_sameRest hs₁
    have hproc : ∀ p ≠ r.table.pm.curProc, r'.table.pm.procs p = s₁.procs p := by
      intro p hp
      rw [hs', Pm.storeResult, procs_setProc, if_neg hp]
    rw [hproc w hwcur]
    refine ⟨?_, (hrest.scResult w).trans hd.result, ?_⟩
    · rw [pmSchedule_status hs₁, hd.ready]
      split_ifs
      · exact .inr rfl
      · exact .inl rfl
      · exact .inl rfl
    · intro p hp hcur
      rw [hproc p hcur]
      exact (hrest.scResult p).trans (hd.others p hp)

end DeliverAux

open DeliverAux

/-- A process `w` that calls `sys_waitpid` for a live process `q` for which nobody waits is blocked in every state reached before `q`
is destroyed. When `q` is destroyed, `w` is made ready, once, and gets the exit status of `q`, also when the last part of `pm_destroy`
then follows a null pointer; no other process gets a result. -/
theorem waitpid_delivers (mem : Nat → UInt8) (r₀ r : PmRun) (h₀ : initRun mem = some r₀)
    (h : Reach PmCall.step (fun _ _ => True) r₀ r) (w q : ProcRef) (pid : Nat) (hw : r.table.pm.caller = some w)
    (hget : pmGetProc r.table.pm pid = some q) (hlive : (r.table.pm.procs q).status ≠ .slotFree)
    (hnone : (r.table.pm.procs q).waitProc = 0) :
    ∃ r₁, PmCall.step r (.waitpid pid) = some r₁ ∧
      ∀ r₂, Reach PmCall.step (fun r c => ¬(r.table.pm.caller = some q ∧ c.ends.isSome)) r₁ r₂ →
        pmIsBlockedFor (r₂.table.pm.procs w) .waitProc = true ∧
        ∀ (c : PmCall) (status : Nat), r₂.table.pm.caller = some q → c.ends = some status →
          (∃ s, (pmDeactivate (c.atDestroy r₂.table.pm) q).bind
              (fun s₁ => wakeWaiter (s₁.setProc q fun proc => { proc with status := .slotFree }) q) = some s ∧
            Delivered r₂.table.pm s w status) ∧
          (∀ s, pmDestroy (c.atDestroy r₂.table.pm) q = some s → Delivered r₂.table.pm s w status) ∧
          ∀ r₃, c.step r₂ = some r₃ →
            ((r₃.table.pm.procs w).status = .ready ∨ (r₃.table.pm.procs w).status = .running) ∧
            (r₃.table.pm.procs w).scResult = status ∧
            ∀ p ≠ w, p ≠ q → (r₃.table.pm.procs p).scResult = (r₂.table.pm.procs p).scResult := by
  have hok := runOk_of_reach h₀ h
  obtain ⟨rfl, h0, -⟩ := caller_eq_some.mp hw
  obtain ⟨l, hl⟩ := hok.pm.waits
  obtain ⟨s₁, l₁, hs₁, hok₁, -, hwaits, hlive₁, -⟩ := hl.waitpid h0 hget hlive hnone
  have hstep : PmCall.step r (.waitpid pid) =
      some { r with table := { r.table with pm := s₁.storeResult r.table.pm.curProc 0 } } := by
    simp only [PmCall.step, PmCall.exec, hw, Option.bind_some, hs₁, Option.map_some, if_true]
  obtain ⟨-, hkeep, hlive'⟩ := hok₁.setProc r.table.pm.curProc (fun proc => { proc with scResult := 0 }) fun _ => rfl
  have hqlive : s₁.Live q := (hlive₁ q).mpr ⟨(pmGetProc_eq_some.mp hget).1.1, hlive⟩
  have hstart : Waiting { r with table := { r.table with pm := s₁.storeResult r.table.pm.curProc 0 } } r.table.pm.curProc q :=
    ⟨hok.step hstep, (hlive' q).mpr hqlive, hkeep _ q hqlive hwaits ((hlive' q).mpr hqlive)⟩
  refine ⟨_, hstep, ?_⟩
  intro r₂ hreach
  have hwaiting : Waiting r₂ r.table.pm.curProc q := by
    refine hreach.inv (fun r₂ => Waiting r₂ r.table.pm.curProc q) hstart ?_
    intro r₂ c r₃ h₂ hc hs
    exact h₂.step hc hs
  refine ⟨?_, ?_⟩
  · simp [pmIsBlockedFor, hwaiting.waits.status, hwaiting.waits.block]
  · intro c status hcaller hends
    obtain ⟨rfl, h0₂, -⟩ := caller_eq_some.mp hcaller
    rw [atDestroy_eq hwaiting.ok.pm hends]
    obtain ⟨s₂, l₂, hwake, -, hended₂, hended₃⟩ := hwaiting.ok.pm.destroy h0₂ status
    exact ⟨⟨s₂, hwake, hwaiting.delivered hended₂⟩, fun s hs => hwaiting.delivered (hended₃ s hs),
      fun r₃ hs => delivered_exec hwaiting hends hs⟩

/-- Two processes, of which the first is current. -/
def twoProcesses : List PmCall := [.create .ready zeroMem, .create .ready zeroMem, .schedule]

/-- The first process waits for the second one, which then exits with the status 7. -/
theorem waiter_gets_status : ∃ r₀ r r₁ r₂ r₃, initRun zeroMem = some r₀ ∧
    runIf PmCall.step (fun _ _ => True) r₀ twoProcesses = some r ∧ PmCall.step r (.waitpid 2) = some r₁ ∧
    PmCall.step r₁ .schedule = some r₂ ∧ pmIsBlockedFor (r₂.table.pm.procs 1) .waitProc = true ∧
    PmCall.step r₂ (.exit 7) = some r₃ ∧ (r₃.table.pm.procs 1).scResult = 7 := by
  have hrun : (initRun zeroMem).any (fun r₀ => (runIf PmCall.step (fun _ _ => True) r₀ twoProcesses).any fun r =>
      decide (r.table.pm.caller = some 1 ∧ pmGetProc r.table.pm 2 = some 2 ∧ (r.table.pm.procs 2).status ≠ .slotFree ∧
        (r.table.pm.procs 2).waitProc = 0) &&
      (PmCall.step r (.waitpid 2)).any fun r₁ => decide (r₁.table.pm.caller ≠ some 2) &&
        (PmCall.step r₁ .schedule).any fun r₂ => decide (r₂.table.pm.caller = some 2) &&
          (PmCall.step r₂ (.exit 7)).isSome) = true := by
    decide +kernel
  obtain ⟨r₀, h₀, hrun⟩ := (Option.any_eq_true _ _).mp hrun
  obtain ⟨r, hr, hnext⟩ := (Option.any_eq_true _ _).mp hrun
  obtain ⟨hstart, hnext⟩ := Bool.and_eq_true_iff.mp hnext
  obtain ⟨hcaller, hget, hlive, hnone⟩ := of_decide_eq_true hstart
  obtain ⟨r₁, hr₁, hnext⟩ := (Option.any_eq_true _ _).mp hnext
  obtain ⟨hcaller₁, hnext⟩ := Bool.and_eq_true_iff.mp hnext
  obtain ⟨r₂, hr₂, hnext⟩ := (Option.any_eq_true _ _).mp hnext
  obtain ⟨hcaller₂, hr₃⟩ := Bool.and_eq_true_iff.mp hnext
  obtain ⟨r₃, hr₃⟩ := Option.isSome_iff_exists.mp hr₃
  obtain ⟨r₁', hr₁', hall⟩ :=
    waitpid_delivers zeroMem r₀ r h₀ (Reach.init.runIf twoProcesses hr) 1 2 2 hcaller hget hlive hnone
  cases hr₁.symm.trans hr₁'
  have hreach : Reach PmCall.step (fun r c => ¬(r.table.pm.caller = some 2 ∧ c.ends.isSome)) r₁ r₂ :=
    .step .schedule .init (fun hc => of_decide_eq_true hcaller₁ hc.1) hr₂
  obtain ⟨hblocked, hdelivered⟩ := hall r₂ hreach
  obtain ⟨-, -, hexec⟩ := hdelivered (.exit 7) 7 (of_decide_eq_true hcaller₂) rfl
  exact ⟨r₀, r, r₁, r₂, r₃, h₀, hr, hr₁, hr₂, hblocked, hr₃, (hexec r₃ hr₃).2.1⟩

end Kos
