import Kos.Lib.Run
import Kos.Lemmas.Wait

/-!
# Runs of processes that wait for each other

What each call does (`Effect`), and what it keeps: the processes that wait are found by their numbers (`Pm.WaitOk`) and no live process
has an exit status yet. A new process never gets the number of a live one, because the counter of `newpid` cannot wrap: before that
there is no page left for a kernel stack.
-/

namespace Kos

def PmCall.creates : PmCall → Bool
  | .create .. | .load _ | .fork _ => true
  | _ => false

/-- The status with which a call ends the process that makes it. -/
def PmCall.ends : PmCall → Option Nat
  | .exit status => some status
  | .kill => some minusOne
  | _ => none

namespace WaitAux

open ReadyQueueAux

theorem caller_eq_some {s : Pm} {p : ProcRef} : s.caller = some p ↔ p = s.curProc ∧ s.curProc ≠ 0 ∧ s.curProc ≠ idleProc := by
  unfold Pm.caller
  split_ifs with h
  · refine ⟨nofun, ?_⟩
    rintro ⟨-, h0, hidle⟩
    rcases h with h | h
    · exact absurd h h0
    · exact absurd h hidle
  · obtain ⟨h0, hidle⟩ := not_or.mp h
    rw [Option.some.injEq]
    exact ⟨fun he => ⟨he.symm, h0, hidle⟩, fun he => he.1.symm⟩

/-- The result that a process has is stored once more. -/
theorem storeResult_self (s : Pm) (p : ProcRef) : s.storeResult p (s.procs p).scResult = s := setProc_eq_self rfl

/-- What a call does. -/
inductive Effect (t : ProcTable) : PmCall → ProcTable → Prop where
  | created {c : PmCall} {p : ProcRef} {f : Proc → Proc} {active : Bool} (result : Nat) (hc : c.creates = true)
      (hempty : t.pm.getEmptyProc = some p) (hf : NewProc f t.cur active) :
      Effect t c ⟨(t.pm.place p f active).storeResult t.pm.curProc result, w32 (t.cur + 1)⟩
  | refused {c : PmCall} (result : Nat) (hc : c.ends = none) (hempty : c.creates = true → t.pm.getEmptyProc = none) :
      Effect t c ⟨t.pm.storeResult t.pm.curProc result, t.cur⟩
  | scheduled {s : Pm} (hs : pmSchedule t.pm = some s) : Effect t .schedule ⟨s, t.cur⟩
  | waits {pid : Nat} {q : ProcRef} {s : Pm} (h0 : t.pm.curProc ≠ 0) (hget : pmGetProc t.pm pid = some q)
      (hlive : (t.pm.procs q).status ≠ .slotFree) (hnone : (t.pm.procs q).waitProc = 0)
      (hs : sysWaitpid t.pm t.pm.curProc pid = some (0, s)) : Effect t (.waitpid pid) ⟨s.storeResult t.pm.curProc 0, t.cur⟩
  | killed {s : Pm} (h0 : t.pm.curProc ≠ 0) (hs : pmDestroy t.pm t.pm.curProc = some s) : Effect t .kill ⟨s, t.cur⟩
  | exited {status : Nat} {s s' : Pm} (h0 : t.pm.curProc ≠ 0)
      (hs : pmDestroy (t.pm.setProc t.pm.curProc fun p => { p with exitStatus := status }) t.pm.curProc = some s)
      (hs' : pmSchedule s = some s') : Effect t (.exit status) ⟨s'.storeResult t.pm.curProc 0, t.cur⟩

theorem Effect.placed {t : ProcTable} {c : PmCall} {p : ProcRef} {f : Proc → Proc} {active : Bool} (hc : c.creates = true)
    (hempty : t.pm.getEmptyProc = some p) (hf : NewProc f t.cur active) :
    Effect t c ⟨t.pm.place p f active, w32 (t.cur + 1)⟩ := by
  have h := Effect.created (c := c) ((t.pm.place p f active).procs t.pm.curProc).scResult hc hempty hf
  rwa [storeResult_self] at h

/-- A call that creates a process when there is room for it. -/
theorem Effect.created_of_room {t t' : ProcTable} {c : PmCall} (he : Effect t c t')
    (hroom : ¬(c.creates = true → t.pm.getEmptyProc = none)) :
    ∃ p f active result, c.creates = true ∧ t.pm.getEmptyProc = some p ∧ NewProc f t.cur active ∧
      t' = ⟨(t.pm.place p f active).storeResult t.pm.curProc result, w32 (t.cur + 1)⟩ := by
  cases he with
  | created result hc hempty hf => exact ⟨_, _, _, result, hc, hempty, hf, rfl⟩
  | refused _ _ hempty => exact absurd hempty hroom
  | scheduled => exact absurd nofun hroom
  | waits => exact absurd nofun hroom
  | killed => exact absurd nofun hroom
  | exited => exact absurd nofun hroom

theorem effect_of_exec {t t' : ProcTable} {c : PmCall} (h : c.exec t = some t') : Effect t c t' := by
  cases c with
  | create status mem =>
    simp only [PmCall.exec, ProcTable.pmCreate, Option.map_map] at h
    obtain ⟨p, hempty, rfl⟩ := Option.map_eq_some_iff.mp h
    have heffect := Effect.placed (c := .create status mem) rfl hempty (newProc_init t.cur status mem)
    simpa [Pm.place, ProcTable.initProc, ProcTable.newpid] using heffect
  | load mem =>
    simp only [PmCall.exec, ProcTable.load, ProcTable.pmCreate, Option.map_map] at h
    obtain ⟨p, hempty, rfl⟩ := Option.map_eq_some_iff.mp h
    have hnew := newProc_init t.cur .blocked mem
    have hready : NewProc (fun proc => { proc.init t.cur .blocked mem with status := .ready, block := .notBlocked }) t.cur true :=
      ⟨hnew.pid, hnew.waitProc, hnew.waitFor, hnew.exitStatus, fun _ hb => (by cases hb), hnew.next, fun _ _ => rfl⟩
    have heffect := Effect.placed (c := .load mem) rfl hempty hready
    simpa [Pm.place, ProcTable.initProc, ProcTable.newpid, pmUnblock, setProc_setProc] using heffect
  | fork mem =>
    obtain ⟨p, hcaller, rfl⟩ := Option.map_eq_some_iff.mp h
    obtain ⟨rfl, -, -⟩ := caller_eq_some.mp hcaller
    cases hempty : t.pm.getEmptyProc with
    | none =>
      have hfork : sysFork t t.pm.curProc mem = (minusOne, t) := by simp only [sysFork, ProcTable.pmFork, hempty]
      simp only [hfork]
      exact .refused minusOne rfl fun _ => hempty
    | some child =>
      have hnew := newProc_init t.cur .ready mem
      have hready : NewProc (fun proc => { proc.init t.cur .ready mem with scResult := 0 }) t.cur true :=
        ⟨hnew.pid, hnew.waitProc, hnew.waitFor, hnew.exitStatus, hnew.block, hnew.next, fun _ _ => rfl⟩
      simp only [sysFork, ProcTable.pmFork, hempty, ProcTable.newpid, setProc_setProc]
      exact Effect.created _ rfl hempty hready
  | waitpid pid =>
    obtain ⟨p, hcaller, h⟩ := Option.bind_eq_some_iff.mp h
    obtain ⟨⟨result, s⟩, hs, rfl⟩ := Option.map_eq_some_iff.mp h
    obtain ⟨rfl, h0, -⟩ := caller_eq_some.mp hcaller
    have hwait := hs
    unfold sysWaitpid at hs
    obtain ⟨q, hget, hs⟩ := Option.bind_eq_some_iff.mp hs
    split at hs
    · cases hs
      exact .refused minusOne rfl fun hq => by cases hq
    · rename_i hq
      obtain ⟨hlive, hnone⟩ := not_or.mp hq
      obtain ⟨⟨b, s'⟩, -, hs⟩ := Option.bind_eq_some_iff.mp hs
      cases hs
      exact .waits h0 hget hlive (not_not.mp hnone) hwait
  | exit status =>
    obtain ⟨p, hcaller, h⟩ := Option.bind_eq_some_iff.mp h
    obtain ⟨⟨result, s⟩, hs, rfl⟩ := Option.map_eq_some_iff.mp h
    obtain ⟨rfl, h0, -⟩ := caller_eq_some.mp hcaller
    unfold sysExit at hs
    obtain ⟨s₁, hs₁, hs⟩ := Option.bind_eq_some_iff.mp hs
    obtain ⟨s₂, hs₂, hs⟩ := Option.bind_eq_some_iff.mp hs
    cases hs
    exact .exited h0 hs₁ hs₂
  | kill =>
    obtain ⟨p, hcaller, h⟩ := Option.bind_eq_some_iff.mp h
    obtain ⟨s, hs, rfl⟩ := Option.map_eq_some_iff.mp h
    obtain ⟨rfl, h0, -⟩ := caller_eq_some.mp hcaller
    exact .killed h0 hs
  | schedule =>
    obtain ⟨s, hs, rfl⟩ := Option.map_eq_some_iff.mp h
    exact .scheduled hs

/-! ## What a call keeps -/

theorem storeResult_rest (s : Pm) (p : ProcRef) (result : Nat) (q : ProcRef) :
    { (s.storeResult p result).procs q with scResult := 0 } = { s.procs q with scResult := 0 } := by
  rw [Pm.storeResult, procs_setProc]
  split_ifs <;> rfl

/-- What holds in every state. -/
structure PmOk (s : Pm) : Prop where
  waits : ∃ l, s.WaitOk l
  unset : ∀ p, s.Live p → (s.procs p).exitStatus = minusOne

theorem PmOk.storeResult {s : Pm} (h : PmOk s) (p : ProcRef) (result : Nat) :
    PmOk (s.storeResult p result) ∧ s.KeepsWaits (s.storeResult p result) ∧ ∀ q, (s.storeResult p result).Live q ↔ s.Live q := by
  obtain ⟨l, hl⟩ := h.waits
  obtain ⟨hok, hkeep, hlive⟩ := hl.setProc p (fun proc => { proc with scResult := result }) fun _ => rfl
  refine ⟨⟨⟨l, hok⟩, ?_⟩, hkeep, hlive⟩
  intro q hq
  have hstatus : ((s.storeResult p result).procs q).exitStatus = (s.procs q).exitStatus :=
    (congrArg Proc.exitStatus (storeResult_rest s p result q) :)
  rw [hstatus]
  exact h.unset q ((hlive q).mp hq)

theorem PmOk.schedule {s s' : Pm} (h : PmOk s) (hs : pmSchedule s = some s') :
    PmOk s' ∧ s.KeepsWaits s' ∧ ∀ q, s'.Live q ↔ s.Live q := by
  obtain ⟨l, hl⟩ := h.waits
  obtain ⟨s₁, l', hs₁, hok, hrest, hkeep, hlive⟩ := hl.schedule
  cases hs₁.symm.trans hs
  refine ⟨⟨⟨l', hok⟩, ?_⟩, hkeep, hlive⟩
  intro q hq
  rw [hrest.exitStatus]
  exact h.unset q ((hlive q).mp hq)

/-- A call that does not end a process. -/
theorem Effect.kept {t t' : ProcTable} {c : PmCall} (he : Effect t c t') (h : PmOk t.pm)
    (hfresh : ∀ p, t.pm.Live p → (t.pm.procs p).pid ≠ t.cur) (hc : c.ends = none) :
    PmOk t'.pm ∧ t.pm.KeepsWaits t'.pm ∧ ∀ q, t.pm.Live q → t'.pm.Live q := by
  obtain ⟨l, hl⟩ := h.waits
  cases he with
  | @created _ p f active result hcreates hempty hf =>
    obtain ⟨hok, hkeep⟩ := hl.place hempty hfresh hf
    have hlive : ∀ q, t.pm.Live q → (t.pm.place p f active).Live q := by
      intro q hq
      have hqp : q ≠ p := by
        rintro rfl
        exact hq.2 (getEmptyProc_eq_some.mp hempty).1.2
      exact (Pm.Live.place_iff hqp).mpr hq
    have hplace : PmOk (t.pm.place p f active) := by
      refine ⟨⟨_, hok⟩, ?_⟩
      intro q hq
      by_cases hqp : q = p
      · subst hqp
        exact (congrArg Proc.exitStatus (rest_place_self t.pm q f active) :).trans (hf.exitStatus _)
      · exact (congrArg Proc.exitStatus (rest_place_ne t.pm p f active hqp) :).trans (h.unset q ((Pm.Live.place_iff hqp).mp hq))
    obtain ⟨hstore, hkeep', hlive'⟩ := hplace.storeResult t.pm.curProc result
    refine ⟨hstore, ?_, fun q hq => (hlive' q).mpr (hlive q hq)⟩
    intro w q hq hw hq'
    exact hkeep' w q (hlive q hq) (hkeep w q hq hw (hlive q hq)) hq'
  | refused result =>
    obtain ⟨hstore, hkeep, hlive⟩ := h.storeResult t.pm.curProc result
    exact ⟨hstore, hkeep, fun q => (hlive q).mpr⟩
  | scheduled hs =>
    obtain ⟨hok, hkeep, hlive⟩ := h.schedule hs
    exact ⟨hok, hkeep, fun q => (hlive q).mpr⟩
  | @waits pid q s h0 hget hqlive hnone hs =>
    obtain ⟨s₁, l', hs₁, hok, hkeep, -, hlive, hrest⟩ := hl.waitpid h0 hget hqlive hnone
    obtain rfl : s₁ = s := congrArg Prod.snd (Option.some.inj (hs₁.symm.trans hs))
    have hwait : PmOk s₁ := by
      refine ⟨⟨l', hok⟩, ?_⟩
      intro q hq
      exact (congrArg Proc.exitStatus (hrest q) :).trans (h.unset q ((hlive q).mp hq))
    obtain ⟨hstore, hkeep', hlive'⟩ := hwait.storeResult t.pm.curProc 0
    refine ⟨hstore, ?_, fun q hq => (hlive' q).mpr ((hlive q).mpr hq)⟩
    intro w q hq hw hq'
    exact hkeep' w q ((hlive q).mpr hq) (hkeep w q hq hw ((hlive q).mpr hq)) hq'
  | killed => cases hc
  | exited => cases hc

/-- The state in which the current process is destroyed: it has its exit status. -/
def dying (s : Pm) (status : Nat) : Pm := s.setProc s.curProc fun p => { p with exitStatus := status }

/-- A killed process has the exit status that it was created with. -/
theorem dying_of_unset {s : Pm} (h : PmOk s) : dying s minusOne = s := by
  obtain ⟨l, hl⟩ := h.waits
  refine setProc_eq_self ?_
  show { s.procs s.curProc with exitStatus := minusOne } = s.procs s.curProc
  rw [← h.unset s.curProc (hl.active _ hl.mem_cur).1]

/-- What the end of the current process does, seen from the state before its exit status was set. -/
structure Ended (s s' : Pm) (l : List ProcRef) (status : Nat) : Prop where
  ok : s'.WaitOk l
  unset : ∀ q, s'.Live q → (s'.procs q).exitStatus = minusOne
  live : ∀ q, s'.Live q ↔ s.Live q ∧ q ≠ s.curProc
  pid : ∀ q, (s'.procs q).pid = (s.procs q).pid
  waitFor : ∀ q, (s'.procs q).waitFor = (s.procs q).waitFor
  keeps : s.KeepsWaits s'
  woken : ∀ w, s.Waits w s.curProc → (s.procs s.curProc).waitProc ≠ 0 →
    (s'.procs w).status = .ready ∧ (s'.procs w).block = .notBlocked ∧ (s'.procs w).scResult = status ∧ w ∈ l ∧
      ∀ q, s'.Live q → (s'.procs q).waitProc ≠ (s.procs w).pid
  results : ∀ r, ¬(s.Waits r s.curProc ∧ (s.procs s.curProc).waitProc ≠ 0) → (s'.procs r).scResult = (s.procs r).scResult

theorem ended_of_destroyed {s s' : Pm} {l : List ProcRef} {status : Nat} (h : PmOk s)
    (hd : (dying s status).Destroyed s' l s.curProc) : Ended s s' l status := by
  have hproc : ∀ q, (dying s status).procs q = { s.procs q with
      exitStatus := if q = s.curProc then status else (s.procs q).exitStatus } := by
    intro q
    rw [dying, procs_setProc]
    split_ifs <;> rfl
  have hlive : ∀ q, (dying s status).Live q ↔ s.Live q := by
    intro q
    unfold Pm.Live
    rw [hproc]
  have hwaits : ∀ w q, (dying s status).Waits w q ↔ s.Waits w q := by
    intro w q
    constructor
    · rintro ⟨hw, hpid, hstatus, hblock, hfor⟩
      simp only [hproc] at hpid hstatus hblock hfor
      exact ⟨(hlive w).mp hw, hpid, hstatus, hblock, hfor⟩
    · rintro ⟨hw, hpid, hstatus, hblock, hfor⟩
      refine ⟨(hlive w).mpr hw, ?_, ?_, ?_, ?_⟩ <;> simp only [hproc] <;> assumption
  refine ⟨hd.ok, ?_, ?_, ?_, ?_, ?_, ?_, ?_⟩
  · intro q hq
    obtain ⟨hq, hqp⟩ := (hd.live q).mp hq
    rw [hd.exitStatus, hproc, if_neg hqp]
    exact h.unset q ((hlive q).mp hq)
  · intro q
    rw [hd.live, hlive]
  · intro q
    rw [hd.pid, hproc]
  · intro q
    rw [hd.waitFor, hproc]
  · intro w q hq hw hq'
    exact hd.keeps w q ((hlive q).mpr hq) ((hwaits w q).mpr hw) hq'
  · intro w hw hwait
    have hwoken := hd.woken w ((hwaits w _).mpr hw) (by rw [hproc]; exact hwait)
    simpa only [hproc, if_true] using hwoken
  · intro r hr
    have hresult := hd.results r (by rw [hwaits, hproc]; exact hr)
    rwa [hproc] at hresult

/-- `pm_destroy` of the current process, which has its exit status, up to its last part and as a whole. -/
theorem PmOk.destroy {s : Pm} (h : PmOk s) (h0 : s.curProc ≠ 0) (status : Nat) :
    ∃ s₂ l, (pmDeactivate (dying s status) s.curProc).bind
        (fun s₁ => wakeWaiter (s₁.setProc s.curProc fun proc => { proc with status := .slotFree }) s.curProc) = some s₂ ∧
      pmDestroy (dying s status) s.curProc = forgetWaiter s₂ s.curProc ∧ Ended s s₂ l status ∧
      ∀ s₃, pmDestroy (dying s status) s.curProc = some s₃ → Ended s s₃ l status := by
  obtain ⟨l₀, hl₀⟩ := h.waits
  have hdying : (dying s status).WaitOk l₀ :=
    (hl₀.setProc s.curProc (fun proc => { proc with exitStatus := status }) fun _ => rfl).1
  obtain ⟨s₂, l, hwake, hdestroy, hd₂, hd₃⟩ := hdying.destroy h0
  exact ⟨s₂, l, hwake, hdestroy, ended_of_destroyed h hd₂, fun s₃ hs₃ => ended_of_destroyed h (hd₃ s₃ hs₃)⟩

/-- A call that ends the current process. -/
theorem Effect.ended {t t' : ProcTable} {c : PmCall} {status : Nat} (he : Effect t c t') (h : PmOk t.pm)
    (hc : c.ends = some status) :
    t.pm.curProc ≠ 0 ∧ t'.cur = t.cur ∧ ∃ s, pmDestroy (dying t.pm status) t.pm.curProc = some s ∧
      (t'.pm = s ∨ ∃ s₁, pmSchedule s = some s₁ ∧ t'.pm = s₁.storeResult t.pm.curProc 0) := by
  cases he with
  | created _ hcreates => cases c <;> simp [PmCall.creates, PmCall.ends] at hcreates hc
  | refused _ hnone => cases hc.symm.trans hnone
  | scheduled => cases hc
  | waits => cases hc
  | killed h0 hs =>
    cases hc
    refine ⟨h0, rfl, _, ?_, .inl rfl⟩
    rw [dying_of_unset h]
    exact hs
  | exited h0 hs hs' =>
    cases hc
    exact ⟨h0, rfl, _, hs, .inr ⟨_, hs', rfl⟩⟩

/-- What is left of the state when the current process has ended. -/
theorem Effect.kept_ended {t t' : ProcTable} {c : PmCall} {status : Nat} (he : Effect t c t') (h : PmOk t.pm)
    (hc : c.ends = some status) :
    PmOk t'.pm ∧ t.pm.KeepsWaits t'.pm ∧ (∀ q, t'.pm.Live q ↔ t.pm.Live q ∧ q ≠ t.pm.curProc) ∧
      (∀ q, (t'.pm.procs q).pid = (t.pm.procs q).pid) ∧ ∀ q, (t'.pm.procs q).waitFor = (t.pm.procs q).waitFor := by
  obtain ⟨h0, -, s, hs, hs'⟩ := he.ended h hc
  obtain ⟨s₂, l, -, -, -, hended⟩ := h.destroy h0 status
  have hd := hended s hs
  have hok : PmOk s := ⟨⟨l, hd.ok⟩, hd.unset⟩
  rcases hs' with hs' | ⟨s₁, hs₁, hs'⟩
  · rw [hs']
    exact ⟨hok, hd.keeps, hd.live, hd.pid, hd.waitFor⟩
  · rw [hs']
    obtain ⟨hok₁, hkeep₁, hlive₁⟩ := hok.schedule hs₁
    obtain ⟨hok', hkeep', hlive'⟩ := hok₁.storeResult t.pm.curProc 0
    have hrest := pmSchedule_sameRest hs₁
    have hproc := storeResult_rest s₁ t.pm.curProc 0
    refine ⟨hok', ?_, ?_, ?_, ?_⟩
    · intro w q hq hw hq'
      have hq₁ := (hlive' q).mp hq'
      have hq₀ := (hlive₁ q).mp hq₁
      exact hkeep' w q hq₁ (hkeep₁ w q hq₀ (hd.keeps w q hq hw hq₀) hq₁) hq'
    · intro q
      rw [hlive', hlive₁, hd.live]
    · intro q
      exact (congrArg Proc.pid (hproc q) :).trans ((hrest.pid q).trans (hd.pid q))
    · intro q
      exact (congrArg Proc.waitFor (hproc q) :).trans ((hrest.waitFor q).trans (hd.waitFor q))

/-- A call that creates no process gives no numbers; a number in `wait_for` that it sets is that of a slot. -/
theorem Effect.numbers {t t' : ProcTable} {c : PmCall} (he : Effect t c t') (h : PmOk t.pm)
    (hc : c.creates = true → t.pm.getEmptyProc = none) :
    t'.cur = t.cur ∧ (∀ q, (t'.pm.procs q).pid = (t.pm.procs q).pid) ∧ (∀ q, t'.pm.Live q → t.pm.Live q) ∧
      ∀ q, (t'.pm.procs q).waitFor = (t.pm.procs q).waitFor ∨ (pmGetProc t.pm (t'.pm.procs q).waitFor).isSome := by
  obtain ⟨l, hl⟩ := h.waits
  cases hends : c.ends with
  | some status =>
    obtain ⟨-, hcur, -⟩ := he.ended h hends
    obtain ⟨-, -, hlive, hpid, hwaitFor⟩ := he.kept_ended h hends
    exact ⟨hcur, hpid, fun q hq => ((hlive q).mp hq).1, fun q => .inl (hwaitFor q)⟩
  | none =>
    cases he with
    | created result hcreates hempty => cases (hc hcreates).symm.trans hempty
    | refused result =>
      have hproc := storeResult_rest t.pm t.pm.curProc result
      obtain ⟨-, -, hlive⟩ := h.storeResult t.pm.curProc result
      exact ⟨rfl, fun q => (congrArg Proc.pid (hproc q) :), fun q => (hlive q).mp,
        fun q => .inl (congrArg Proc.waitFor (hproc q) :)⟩
    | scheduled hs =>
      have hrest := pmSchedule_sameRest hs
      obtain ⟨-, -, hlive⟩ := h.schedule hs
      exact ⟨rfl, hrest.pid, fun q => (hlive q).mp, fun q => .inl (hrest.waitFor q)⟩
    | @waits pid q s h0 hget hqlive hnone hs =>
      obtain ⟨s₁, l', hs₁, hok, -, -, hlive, hrest⟩ := hl.waitpid h0 hget hqlive hnone
      obtain rfl : s₁ = s := congrArg Prod.snd (Option.some.inj (hs₁.symm.trans hs))
      have hproc := storeResult_rest s₁ t.pm.curProc 0
      refine ⟨rfl, ?_, ?_, ?_⟩
      · intro r
        exact (congrArg Proc.pid (hproc r) :).trans (congrArg Proc.pid (hrest r) :)
      · intro r hr
        refine (hlive r).mp ⟨hr.1, ?_⟩
        rw [← (congrArg Proc.status (hproc r) :)]
        exact hr.2
      · intro r
        have hfor : ((s₁.storeResult t.pm.curProc 0).procs r).waitFor = if r = t.pm.curProc then pid else (t.pm.procs r).waitFor :=
          (congrArg Proc.waitFor (hproc r) :).trans (congrArg Proc.waitFor (hrest r) :)
        rw [hfor]
        split_ifs
        · exact .inr (by rw [hget]; rfl)
        · exact .inl rfl
    | killed => cases hends
    | exited => cases hends

/-! ## Runs -/

/-- What holds in every state of a run. -/
structure RunOk (r : PmRun) : Prop where
  pm : PmOk r.table.pm
  cur : r.table.cur = r.kstacks
  below : ∀ p, r.table.pm.Live p → (r.table.pm.procs p).pid < r.kstacks
  bound : r.kstacks ≤ addressPages

/-- The number of a new process is not that of a live one. -/
theorem RunOk.fresh {r : PmRun} (h : RunOk r) (p : ProcRef) (hp : r.table.pm.Live p) : (r.table.pm.procs p).pid ≠ r.table.cur := by
  rw [h.cur]
  exact Nat.ne_of_lt (h.below p hp)

/-- What a step does: a process is created and there was a page for it, or no number is given. -/
theorem step_cases {r r' : PmRun} {c : PmCall} (h : c.step r = some r') :
    c.exec r.table = some r'.table ∧
      (r'.table.cur = r.table.cur ∧ r'.kstacks = r.kstacks ∨
        r'.table.cur ≠ r.table.cur ∧ r.kstacks < addressPages ∧ r'.kstacks = r.kstacks + 1) := by
  unfold PmCall.step at h
  obtain ⟨t, ht, h⟩ := Option.bind_eq_some_iff.mp h
  split_ifs at h with hcur hbound
  · cases h
    exact ⟨ht, .inl ⟨hcur, rfl⟩⟩
  · cases h
    exact ⟨ht, .inr ⟨hcur, hbound, rfl⟩⟩

theorem runOk_init {mem : Nat → UInt8} {r : PmRun} (h : initRun mem = some r) : RunOk r := by
  obtain ⟨t, ht, rfl⟩ := Option.map_eq_some_iff.mp h
  have hst := started_of_initPm ht
  have hrest : (t.pm.procs 0).rest = (Proc.init 0 .blocked mem (zeroProc 0)).rest := hst.rest 0
  have hlive : ∀ q, t.pm.Live q → q = 0 := by
    intro q hq
    by_contra hne
    exact hq.2 ((hst.status q).trans (if_neg hne))
  have hlive0 : t.pm.Live 0 := ⟨by decide, by rw [hst.status, if_pos rfl]; nofun⟩
  have hpid : (t.pm.procs 0).pid = 0 := (congrArg Proc.pid hrest :)
  have hwait : t.pm.WaitOk [0] := by
    refine ⟨?_, ⟨hst.queue, by rw [hst.curProc]; rfl⟩, List.mem_singleton_self 0, hpid, ?_, ?_, ?_⟩
    · intro q hq i hi
      rw [hlive q hq] at hi
      exact absurd hi (Fin.not_lt_zero i)
    · have hblock : (t.pm.procs 0).block = .init := (congrArg Proc.block hrest :)
      rw [hblock]
      nofun
    · intro q hq
      rw [List.mem_singleton.mp hq]
      exact ⟨hlive0, fun _ => rfl⟩
    · intro q hq hne
      rw [hlive q hq] at hne
      exact absurd (congrArg Proc.waitProc hrest :) hne
  refine ⟨⟨⟨[0], hwait⟩, ?_⟩, hst.cur, ?_, (by decide : 1 ≤ addressPages)⟩
  · intro q hq
    rw [hlive q hq]
    exact (congrArg Proc.exitStatus hrest :)
  · intro q hq
    rw [hlive q hq, hpid]
    exact Nat.zero_lt_one

theorem RunOk.step {r r' : PmRun} {c : PmCall} (h : RunOk r) (hs : c.step r = some r') : RunOk r' := by
  obtain ⟨t, n⟩ := r
  obtain ⟨t', n'⟩ := r'
  obtain ⟨hexec, hcases⟩ := step_cases hs
  have he := effect_of_exec hexec
  have hpm : PmOk t'.pm := by
    cases hc : c.ends with
    | none => exact (he.kept h.pm h.fresh hc).1
    | some status => exact (he.kept_ended h.pm hc).1
  have hcur : t.cur = n := h.cur
  by_cases hnone : c.creates = true → t.pm.getEmptyProc = none
  · obtain ⟨hcur', hpid, hlive, -⟩ := he.numbers h.pm hnone
    obtain ⟨-, hn⟩ := hcases.resolve_right fun hcase => hcase.1 hcur'
    obtain rfl : n' = n := hn
    refine ⟨hpm, hcur'.trans hcur, ?_, h.bound⟩
    intro p hp
    show (t'.pm.procs p).pid < n'
    rw [hpid]
    exact h.below p (hlive p hp)
  · obtain ⟨p, f, active, result, -, -, hf, rfl⟩ := he.created_of_room hnone
    have hlt : n + 1 < 4294967296 := Nat.lt_of_le_of_lt (Nat.succ_le_succ h.bound) (by decide)
    have hnext : w32 (t.cur + 1) = n + 1 := by rw [hcur, w32_of_lt hlt]
    have hne : w32 (t.cur + 1) ≠ t.cur := by
      rw [hnext, hcur]
      exact Nat.succ_ne_self n
    obtain ⟨-, hbound, hn⟩ := hcases.resolve_left fun hcase => hne hcase.1
    obtain rfl : n' = n + 1 := hn
    refine ⟨hpm, hnext, ?_, hbound⟩
    intro q hq
    have hproc := storeResult_rest (t.pm.place p f active) t.pm.curProc result q
    have hlive : (t.pm.place p f active).Live q := by
      refine ⟨hq.1, ?_⟩
      rw [← (congrArg Proc.status hproc :)]
      exact hq.2
    show (((t.pm.place p f active).storeResult t.pm.curProc result).procs q).pid < n + 1
    rw [(congrArg Proc.pid hproc :)]
    by_cases hqp : q = p
    · subst hqp
      have hpid : ((t.pm.place q f active).procs q).pid = n :=
        (congrArg Proc.pid (rest_place_self t.pm q f active) :).trans ((hf.pid _).trans hcur)
      rw [hpid]
      exact Nat.lt_succ_self n
    · have hpid : ((t.pm.place p f active).procs q).pid = (t.pm.procs q).pid :=
        (congrArg Proc.pid (rest_place_ne t.pm p f active hqp) :)
      rw [hpid]
      exact Nat.lt_succ_of_lt (h.below q ((Pm.Live.place_iff hqp).mp hlive))

theorem runOk_of_reach {mem : Nat → UInt8} {r₀ r : PmRun} {P : PmRun → PmCall → Prop} (h₀ : initRun mem = some r₀)
    (h : Reach (fun r c => PmCall.step r c) P r₀ r) : RunOk r := by
  refine h.inv RunOk (runOk_init h₀) ?_
  intro r c r' hr _ hs
  exact hr.step hs

end WaitAux

end Kos
