import Kos.Lib.RoundRobin
import Kos.Lemmas.ReadyQueue

/-!
# No ready process is passed over

`pm_block` of the current process unlinks the head of the ready queue and then calls `pm_schedule`, which moves the next process
from the head to the end: with two others ready, the process next in line is sent behind the rest. As long as a process only blocks
with at most one other ready, the scheduler is a round robin (`not_passed_over_of_fewReady`).
-/

namespace Kos

/-- What happens to the scheduler: a timer tick that schedules, the current process blocks, a blocked process is woken. -/
inductive SchedCall where
  | tick
  | block (reason : BlockReason)
  | unblock (p : ProcRef)
  deriving DecidableEq, Repr

/-- The process is in the ready queue. -/
def Pm.InReady (s : Pm) (p : ProcRef) : Prop := ∃ l, s.Queue l ∧ p ∈ l

/-- One step of the scheduler. -/
inductive SchedStep (s : Pm) : SchedCall → Pm → Prop where
  | tick {s' : Pm} (h : pmSchedule s = some s') : SchedStep s .tick s'
  | block {s' : Pm} {reason : BlockReason} {done : Bool} (h : pmBlock s s.curProc reason = some (done, s')) :
      SchedStep s (.block reason) s'
  | unblock {p : ProcRef} (hp : (s.procs p).status = .blocked) (hq : ¬s.InReady p) : SchedStep s (.unblock p) (pmUnblock s p)

/-- The current process blocks only when at most one other process is ready. -/
def FewReady (s : Pm) (c : SchedCall) : Prop := ∀ reason l, c = .block reason → s.Queue l → l.length ≤ 2

open ReadyQueueAux

namespace RoundRobinAux

/-- One step of the scheduler is a step of a round robin, when the current process blocks with few others ready. -/
theorem roundStep_of_schedStep {s s' : Pm} {c : SchedCall} {l : List ProcRef} (h : CurIsHead s l) (hs : SchedStep s c s')
    (hc : FewReady s c) : ∃ l', CurIsHead s' l' ∧ RoundStep l l' := by
  obtain ⟨hq, hhead⟩ := h
  obtain ⟨t, rfl⟩ : ∃ t, l = s.curProc :: t := by
    cases l with
    | nil => cases hhead
    | cons a t => exact ⟨t, by cases hhead; rfl⟩
  cases hs with
  | tick hs =>
    obtain ⟨s₁, hs₁, hq₁, hcur⟩ := pmSchedule_queue hq
    rw [hs] at hs₁
    cases hs₁
    exact ⟨_, ⟨hq₁, hcur.symm⟩, .rotate _ _⟩
  | @block _ reason done hs =>
    by_cases hb : (s.procs s.curProc).status = .blocked
    · simp only [pmBlock, hb, if_true, Option.some.injEq, Prod.mk.injEq] at hs
      obtain ⟨-, rfl⟩ := hs
      exact ⟨_, ⟨hq, rfl⟩, .stay _⟩
    · have hlen := hc reason _ rfl hq
      have hblock := pmBlock_cur reason hq hb
      cases t with
      | nil =>
        have hnone : pmBlock s s.curProc reason = none := hblock
        rw [hs] at hnone
        cases hnone
      | cons b t =>
        cases t with
        | nil =>
          obtain ⟨s₁, hs₁, hcur, -⟩ := hblock
          rw [hs] at hs₁
          cases hs₁
          exact ⟨_, hcur, .leave _ _⟩
        | cons a t => exact absurd hlen (by simp only [List.length_cons]; omega)
  | @unblock p hp hnq =>
    have hpl : p ∉ s.curProc :: t := fun hm => hnq ⟨_, hq, hm⟩
    have hq' := pmActivate_queue (queue_setProc p (f := fun proc => { proc with status := .ready, block := .notBlocked })
      (fun _ => rfl) hq) hpl
    exact ⟨_, ⟨hq', by rw [pmUnblock_curProc]; rfl⟩, .arrive _ p t⟩

/-- Along a run whose steps all meet the condition, the queues make a run of the round robin. -/
theorem exists_rounds {run : Nat → Pm} {n : Nat} (h₀ : ∃ l, CurIsHead (run 0) l)
    (hrun : ∀ m < n, ∃ c, SchedStep (run m) c (run (m + 1)) ∧ FewReady (run m) c) :
    ∃ ls : Nat → List ProcRef, (∀ m ≤ n, CurIsHead (run m) (ls m)) ∧ ∀ m < n, RoundStep (ls m) (ls (m + 1)) := by
  have hex : ∀ m, ∃ l, m ≤ n → CurIsHead (run m) l := by
    intro m
    induction m with
    | zero => exact h₀.imp fun _ h _ => h
    | succ m ih =>
      obtain ⟨l, hl⟩ := ih
      by_cases hm : m + 1 ≤ n
      · obtain ⟨c, hs, hc⟩ := hrun m hm
        obtain ⟨l', hl', -⟩ := roundStep_of_schedStep (hl (by omega)) hs hc
        exact ⟨l', fun _ => hl'⟩
      · exact ⟨[], fun h => absurd h hm⟩
  choose ls hls using hex
  refine ⟨ls, hls, fun m hm => ?_⟩
  obtain ⟨c, hs, hc⟩ := hrun m hm
  obtain ⟨l', hl', hround⟩ := roundStep_of_schedStep (hls m (Nat.le_of_lt hm)) hs hc
  rw [(hls (m + 1) hm).1.links.unique hl'.1.links]
  exact hround

end RoundRobinAux

open RoundRobinAux

/-- In every run in which the current process blocks only with at most one other process ready: a process `b` that is ready from a
time at which `a` is current to a later time at which it is current again, after another one was, is current in between. And this
is the exact condition for a block to hand the processor to the process next in line. -/
theorem not_passed_over_of_fewReady (run : Nat → Pm) (n : Nat) (h₀ : ∃ l, CurIsHead (run 0) l)
    (hrun : ∀ m < n, ∃ c, SchedStep (run m) c (run (m + 1)) ∧ FewReady (run m) c) :
    (∀ i k j a b, i < k → k < j → j ≤ n → (run i).curProc = a → (run k).curProc ≠ a → (run j).curProc = a →
      (∀ m, i ≤ m → m ≤ j → (run m).InReady b) → ∃ m, i ≤ m ∧ m ≤ j ∧ (run m).curProc = b) ∧
    ∀ m ≤ n, ∀ a b l reason, CurIsHead (run m) (a :: b :: l) → ((run m).procs a).status ≠ .blocked →
      ((∃ s', pmBlock (run m) a reason = some (true, s') ∧ s'.curProc = b) ↔ FewReady (run m) (.block reason)) := by
  obtain ⟨ls, hls, hround⟩ := exists_rounds h₀ hrun
  constructor
  · intro i k j a b hik hkj hjn hi hk hj hb
    have hhead : ∀ m ≤ n, ∀ p, (ls m).head? = some p ↔ (run m).curProc = p := by
      intro m hm p
      rw [(hls m hm).2, Option.some.injEq]
    have hready : ∀ m, i ≤ m → m ≤ j → b ∈ ls m := by
      intro m him hmj
      obtain ⟨l, hl, hbl⟩ := hb m him hmj
      rw [(hls m (by omega)).1.links.unique hl.links]
      exact hbl
    obtain ⟨m, him, hmj, hm⟩ := RoundStep.not_passed_over hround (fun m hm => (hls m hm).1.nodup) hik hkj hjn
      ((hhead i (by omega) a).mpr hi) (mt (hhead k (by omega) a).mp hk) ((hhead j hjn a).mpr hj) hready
    exact ⟨m, him, hmj, (hhead m (by omega) b).mp hm⟩
  · intro m hm a b l reason hcur hstat
    obtain ⟨hq, hhead⟩ := hcur
    cases hhead
    obtain ⟨s', hs', ⟨hq', hcur'⟩, -⟩ := pmBlock_cur reason hq hstat
    have hfew : FewReady (run m) (.block reason) ↔ l = [] := by
      constructor
      · intro hf
        have := hf reason _ rfl hq
        exact List.eq_nil_of_length_eq_zero (by simp only [List.length_cons] at this; omega)
      · rintro rfl _ l' - hl'
        rw [hl'.links.unique hq.links]
        exact Nat.le_refl 2
    rw [hfew]
    constructor
    · rintro ⟨s'', hs'', hb⟩
      rw [hs'] at hs''
      cases hs''
      rw [hb] at hcur'
      cases l with
      | nil => rfl
      | cons c l =>
        -- the head of the queue is then the third process, which is not the second
        have hcb : c = b := by simpa using hcur'
        have hnd := hq.nodup
        simp [hcb] at hnd
    · rintro rfl
      exact ⟨s', hs', by simpa using hcur'.symm⟩

/-- The states after the timer ticks, as long as there is a process to schedule. -/
def ticks (s : Pm) : Nat → Pm
  | 0 => s
  | m + 1 => (pmSchedule (ticks s m)).getD (ticks s m)

/-- With two processes ready, process 1 runs between the first two times that process 0 does. -/
theorem two_ready_alternate : ∃ m, 0 ≤ m ∧ m ≤ 2 ∧ (ticks (firstReady 2) m).curProc = 1 := by
  have hq₀ : (ticks (firstReady 2) 0).Queue [0, 1] := ⟨⟨rfl, rfl, rfl⟩, rfl, by decide⟩
  have hq₁ : (ticks (firstReady 2) 1).Queue [1, 0] := ⟨⟨rfl, rfl, rfl⟩, rfl, by decide⟩
  have hq₂ : (ticks (firstReady 2) 2).Queue [0, 1] := ⟨⟨rfl, rfl, rfl⟩, rfl, by decide⟩
  have hrun : ∀ m < 2, ∃ c, SchedStep (ticks (firstReady 2) m) c (ticks (firstReady 2) (m + 1)) ∧
      FewReady (ticks (firstReady 2) m) c := by
    intro m hm
    have htick : pmSchedule (ticks (firstReady 2) m) = some (ticks (firstReady 2) (m + 1)) := by
      match m, hm with
      | 0, _ => rfl
      | 1, _ => rfl
    exact ⟨.tick, .tick htick, fun reason l hc => (nomatch hc)⟩
  refine (not_passed_over_of_fewReady _ 2 ⟨_, hq₀, rfl⟩ hrun).1 0 1 2 0 1 (by decide) (by decide) (by decide) rfl
    (by decide) rfl fun m _ hm => ?_
  match m, hm with
  | 0, _ => exact ⟨_, hq₀, by decide⟩
  | 1, _ => exact ⟨_, hq₁, by decide⟩
  | 2, _ => exact ⟨_, hq₂, by decide⟩

/-- With three processes ready, process 0 runs, then process 1, which blocks, and then process 0 again: process 2 is ready all the
time and is passed over. -/
theorem third_passed_over :
    ∃ s₁ s₂, pmSchedule (firstReady 3) = some s₁ ∧ pmBlock s₁ s₁.curProc .sleeping = some (true, s₂) ∧
      (firstReady 3).curProc = 0 ∧ s₁.curProc = 1 ∧ s₂.curProc = 0 ∧
      (firstReady 3).InReady 2 ∧ s₁.InReady 2 ∧ s₂.InReady 2 := by
  refine ⟨_, _, rfl, rfl, rfl, rfl, rfl, ?_, ?_, ?_⟩
  · exact ⟨[0, 1, 2], ⟨⟨rfl, rfl, rfl, rfl⟩, rfl, by decide⟩, by decide⟩
  · exact ⟨[1, 2, 0], ⟨⟨rfl, rfl, rfl, rfl⟩, rfl, by decide⟩, by decide⟩
  · exact ⟨[0, 2], ⟨⟨rfl, rfl, rfl⟩, rfl, by decide⟩, by decide⟩

end Kos
