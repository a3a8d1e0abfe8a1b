import Kos.Lemmas.Table

/-!
# Processes that wait for a process

`wait_proc` of a process is the number of the one that waits for it. As long as no two live processes have the same number, the one
that waits is live and blocked until the process it waits for is destroyed (`Pm.WaitOk`), and `pm_destroy` finds it by its number.
`wait_for` of the one that waits is never reset: it stays when the wait is over.
-/

namespace Kos

/-- The process `w` waits for the process `q`. -/
structure Pm.Waits (s : Pm) (w q : ProcRef) : Prop where
  live : s.Live w
  pid : (s.procs w).pid = (s.procs q).waitProc
  status : (s.procs w).status = .blocked
  block : (s.procs w).block = .waitProc
  waitFor : (s.procs w).waitFor = (s.procs q).pid

/-- The ready queue is `l`, the process that idles is in it and has the number 0, and whoever is waited for is waited for by a process
that is blocked. -/
structure Pm.WaitOk (s : Pm) (l : List ProcRef) : Prop where
  ordered : s.Ordered
  cur : CurIsHead s l
  idle : 0 ∈ l
  idlePid : (s.procs 0).pid = 0
  idleBlock : (s.procs 0).block ≠ .waitProc
  active : ∀ p ∈ l, s.Live p ∧ ((s.procs p).status = .blocked → p = 0)
  waited : ∀ q, s.Live q → (s.procs q).waitProc ≠ 0 → ∃ w, s.Waits w q

/-- What waiting depends on is the same of a process in two states. -/
structure Pm.SameAt (s s' : Pm) (p : ProcRef) : Prop where
  status : (s'.procs p).status = (s.procs p).status
  pid : (s'.procs p).pid = (s.procs p).pid
  block : (s'.procs p).block = (s.procs p).block
  waitProc : (s'.procs p).waitProc = (s.procs p).waitProc
  waitFor : (s'.procs p).waitFor = (s.procs p).waitFor

theorem Pm.SameAt.live_iff {s s' : Pm} {p : ProcRef} (h : s.SameAt s' p) : s'.Live p ↔ s.Live p := by
  unfold Pm.Live
  rw [h.status]

theorem sameAt_of_rest {s s' : Pm} {p : ProcRef} (hrest : (s'.procs p).rest = (s.procs p).rest)
    (hstatus : (s'.procs p).status = (s.procs p).status) : s.SameAt s' p :=
  ⟨hstatus, (congrArg Proc.pid hrest :), (congrArg Proc.block hrest :), (congrArg Proc.waitProc hrest :),
    (congrArg Proc.waitFor hrest :)⟩

theorem sameAt_setProc (s : Pm) {p q : ProcRef} (f : Proc → Proc) (hq : q ≠ p) : s.SameAt (s.setProc p f) q := by
  have hproc : (s.setProc p f).procs q = s.procs q := Function.update_of_ne hq _ _
  refine ⟨?_, ?_, ?_, ?_, ?_⟩ <;> rw [hproc]

theorem sameAt_place (s : Pm) {p q : ProcRef} (f : Proc → Proc) (active : Bool) (hq : q ≠ p) : s.SameAt (s.place p f active) q := by
  refine sameAt_of_rest (rest_place_ne s p f active hq) ?_
  rw [status_place, if_neg hq]

/-- A wait depends on little of the process that is waited for. -/
theorem Pm.Waits.congr {s s' : Pm} {w q : ProcRef} (h : s.Waits w q) (hw : s.SameAt s' w)
    (hpid : (s'.procs q).pid = (s.procs q).pid) (hproc : (s'.procs q).waitProc = (s.procs q).waitProc) : s'.Waits w q := by
  refine ⟨hw.live_iff.mpr h.live, ?_, hw.status.trans h.status, hw.block.trans h.block, ?_⟩
  · rw [hw.pid, hproc]
    exact h.pid
  · rw [hw.waitFor, hpid]
    exact h.waitFor

/-- What `pm_destroy` does to the process that waited. -/
def Proc.wokenWith (result : Nat) (proc : Proc) : Proc := { proc with scResult := result, status := .ready, block := .notBlocked }

/-- Nobody stops waiting for a process that is still live. -/
def Pm.KeepsWaits (s s' : Pm) : Prop := ∀ w q, s.Live q → s.Waits w q → s'.Live q → s'.Waits w q

open ReadyQueueAux

/-- A queue that was rotated has the same members. -/
theorem mem_rotated {a p : ProcRef} {l : List ProcRef} : p ∈ l ++ [a] ↔ p ∈ a :: l := by simp [or_comm]

namespace Pm.WaitOk

variable {s s' : Pm} {l l' : List ProcRef} {p q w : ProcRef}

theorem mem_cur (h : s.WaitOk l) : s.curProc ∈ l := List.mem_of_head? h.cur.2

/-- When another process than the one that idles is current, it is not alone in the queue. -/
theorem cons_cons (h : s.WaitOk l) (h0 : s.curProc ≠ 0) : ∃ b l₁, l = s.curProc :: b :: l₁ ∧ 0 ∈ b :: l₁ ∧ s.curProc ∉ b :: l₁ := by
  have hnodup := h.cur.1.nodup
  have hidle := h.idle
  obtain ⟨l₀, rfl⟩ : ∃ l₀, l = s.curProc :: l₀ := List.head?_eq_some_iff.mp h.cur.2
  have hidle₀ : 0 ∈ l₀ := (List.mem_cons.mp hidle).resolve_left (Ne.symm h0)
  cases l₀ with
  | nil => exact absurd hidle₀ List.not_mem_nil
  | cons b l₁ => exact ⟨b, l₁, rfl, hidle₀, (List.nodup_cons.mp hnodup).1⟩

/-- The number of a process other than the one that idles. -/
theorem pid_ne_zero (h : s.WaitOk l) (hp : s.Live p) (hp0 : p ≠ 0) : (s.procs p).pid ≠ 0 := by
  intro hpid
  exact hp0 (h.ordered.inj hp (h.active 0 h.idle).1 (hpid.trans h.idlePid.symm))

theorem not_mem_of_waits (h : s.WaitOk l) (hw : s.Waits w q) : w ∉ l := by
  intro hmem
  have h0 := (h.active w hmem).2 hw.status
  subst h0
  exact h.idleBlock hw.block

/-- The process that waits is the one with the number in `wait_proc`. -/
theorem eq_of_waits (h : s.WaitOk l) (hw : s.Waits w q) (hp : s.Live p) (hpid : (s.procs p).pid = (s.procs q).waitProc) : p = w :=
  h.ordered.inj hp hw.live (hpid.trans hw.pid.symm)

theorem getProc_of_waits (h : s.WaitOk l) (hw : s.Waits w q) : pmGetProc s (s.procs q).waitProc = some w := by
  rw [← hw.pid]
  exact h.ordered.getProc hw.live

/-- A state in which nobody new is waited for. -/
theorem waited_of_keeps (h : s.WaitOk l) (hkeep : s.KeepsWaits s')
    (hback : ∀ q, s'.Live q → (s'.procs q).waitProc ≠ 0 → s.Live q ∧ (s.procs q).waitProc ≠ 0) :
    ∀ q, s'.Live q → (s'.procs q).waitProc ≠ 0 → ∃ w, s'.Waits w q := by
  intro q hq hwait
  obtain ⟨hq₀, hwait₀⟩ := hback q hq hwait
  obtain ⟨w, hw⟩ := h.waited q hq₀ hwait₀
  exact ⟨w, hkeep w q hq₀ hw hq⟩

/-! ## What a step does -/

/-- The queue changes, and the statuses of processes in it. -/
theorem requeue (h : s.WaitOk l) (hrest : s.SameRest s') (hcur : CurIsHead s' l') (hmem : ∀ p ∈ l', p ∈ l) (h0 : 0 ∈ l')
    (hstatus : ∀ p, (s'.procs p).status = (s.procs p).status ∨
      p ∈ l ∧ ((s'.procs p).status = .running ∨ (s'.procs p).status = .ready)) :
    s'.WaitOk l' ∧ s.KeepsWaits s' ∧ ∀ q, s'.Live q ↔ s.Live q := by
  have hlive : ∀ q, s'.Live q ↔ s.Live q := by
    intro q
    rcases hstatus q with hsame | ⟨hq, hrun⟩
    · unfold Pm.Live
      rw [hsame]
    · have hq' : s'.Live q := ⟨(h.active q hq).1.1, by rcases hrun with hrun | hrun <;> rw [hrun] <;> nofun⟩
      exact ⟨fun _ => (h.active q hq).1, fun _ => hq'⟩
  have hkeep : s.KeepsWaits s' := by
    intro w q _ hw _
    have hwstatus : (s'.procs w).status = (s.procs w).status := by
      rcases hstatus w with hsame | ⟨hmem, -⟩
      · exact hsame
      · exact absurd hmem (h.not_mem_of_waits hw)
    exact hw.congr (sameAt_of_rest (hrest w) hwstatus) (hrest.pid q) (hrest.waitProc q)
  refine ⟨⟨?_, hcur, h0, (hrest.pid 0).trans h.idlePid, ?_, ?_, ?_⟩, hkeep, hlive⟩
  · exact h.ordered.congr hrest.pid fun q => (hlive q).mp
  · rw [hrest.block]
    exact h.idleBlock
  · intro p hp
    obtain ⟨hp₀, hblocked⟩ := h.active p (hmem p hp)
    refine ⟨(hlive p).mpr hp₀, ?_⟩
    intro hst
    rcases hstatus p with hsame | ⟨-, hrun⟩
    · exact hblocked (hsame.symm.trans hst)
    · rw [hst] at hrun
      rcases hrun with hrun | hrun <;> cases hrun
  · refine h.waited_of_keeps hkeep ?_
    intro q hq hwait
    rw [hrest.waitProc] at hwait
    exact ⟨(hlive q).mp hq, hwait⟩

theorem schedule (h : s.WaitOk l) :
    ∃ s' l', pmSchedule s = some s' ∧ s'.WaitOk l' ∧ s.SameRest s' ∧ s.KeepsWaits s' ∧ ∀ q, s'.Live q ↔ s.Live q := by
  cases l with
  | nil => exact absurd h.idle List.not_mem_nil
  | cons a l =>
    obtain ⟨s', hs', hq', hcur'⟩ := pmSchedule_queue h.cur.1
    have hrest := pmSchedule_sameRest hs'
    have hstatus : ∀ p, (s'.procs p).status = (s.procs p).status ∨
        p ∈ a :: l ∧ ((s'.procs p).status = .running ∨ (s'.procs p).status = .ready) := by
      intro p
      rw [pmSchedule_status hs']
      split
      · rename_i hhead
        refine .inr ⟨mem_rotated.mp ?_, .inl rfl⟩
        exact List.mem_of_head? (hq'.links.head_eq.symm.trans hhead)
      · split
        · rename_i hcur
          exact .inr ⟨hcur.1 ▸ h.mem_cur, .inr rfl⟩
        · exact .inl rfl
    obtain ⟨hok, hkeep, hlive⟩ := h.requeue hrest ⟨hq', hcur'.symm⟩ (fun _ => mem_rotated.mp) (mem_rotated.mpr h.idle) hstatus
    exact ⟨s', l ++ [a], hs', hok, hrest, hkeep, hlive⟩

/-- The current process is taken out of the queue. -/
theorem deactivate (h : s.WaitOk l) (h0 : s.curProc ≠ 0) :
    ∃ s' l', pmDeactivate s s.curProc = some s' ∧ s'.WaitOk l' ∧ s.SameRest s' ∧ s.KeepsWaits s' ∧ (∀ q, s'.Live q ↔ s.Live q) ∧
      s.curProc ∉ l' ∧ (s'.procs s.curProc).status ≠ .blocked := by
  obtain ⟨b, l₁, rfl, hidle, hnot⟩ := h.cons_cons h0
  obtain ⟨s', hs', hcur', hrest, hstatus⟩ := pmDeactivate_cur h.cur.1
  have hcurmem : s'.curProc ∈ b :: l₁ := mem_rotated.mp (List.mem_of_head? hcur'.2)
  have hactive : ∀ p, (s'.procs p).status = (s.procs p).status ∨
      p ∈ s.curProc :: b :: l₁ ∧ ((s'.procs p).status = .running ∨ (s'.procs p).status = .ready) := by
    intro p
    rw [hstatus]
    split
    · rename_i hp
      exact .inr ⟨List.mem_cons_of_mem _ (hp ▸ hcurmem), .inl rfl⟩
    · split
      · rename_i hp
        exact .inr ⟨hp.1 ▸ h.mem_cur, .inr rfl⟩
      · exact .inl rfl
  obtain ⟨hok, hkeep, hlive⟩ :=
    h.requeue hrest hcur' (fun p hp => List.mem_cons_of_mem _ (mem_rotated.mp hp)) (mem_rotated.mpr hidle) hactive
  refine ⟨s', l₁ ++ [b], hs', hok, hrest, hkeep, hlive, fun hm => hnot (mem_rotated.mp hm), ?_⟩
  have hne : s.curProc ≠ s'.curProc := fun he => hnot (he ▸ hcurmem)
  rw [hstatus, if_neg hne]
  split
  · nofun
  · exact fun hblocked => h0 ((h.active _ h.mem_cur).2 hblocked)

/-- One process is changed, and may be put into the queue. What is left to show is that the change keeps the waits that the process
takes part in. -/
theorem update (h : s.WaitOk l) (p : ProcRef) (hsame : ∀ q ≠ p, s.SameAt s' q) (hord : s'.Ordered) (hcur : CurIsHead s' l')
    (hidle : 0 ∈ l') (hmem : ∀ r ∈ l', r ≠ p → r ∈ l) (hactive : p ∈ l' → s'.Live p ∧ ((s'.procs p).status = .blocked → p = 0))
    (h0 : p = 0 → (s'.procs p).pid = 0 ∧ (s'.procs p).block ≠ .waitProc)
    (hwaiter : ∀ q, s.Live q → s.Waits p q → s'.Live q → s'.Waits p q)
    (hwaited : ∀ w ≠ p, s.Live p → s.Waits w p → s'.Live p →
      (s'.procs p).pid = (s.procs p).pid ∧ (s'.procs p).waitProc = (s.procs p).waitProc)
    (hback : s'.Live p → (s'.procs p).waitProc ≠ 0 → s.Live p ∧ (s.procs p).waitProc ≠ 0) :
    s'.WaitOk l' ∧ s.KeepsWaits s' := by
  have hkeep : s.KeepsWaits s' := by
    intro w q hq hw hq'
    by_cases hwp : w = p
    · subst hwp
      exact hwaiter q hq hw hq'
    · by_cases hqp : q = p
      · subst hqp
        obtain ⟨hpid, hproc⟩ := hwaited w hwp hq hw hq'
        exact hw.congr (hsame w hwp) hpid hproc
      · exact hw.congr (hsame w hwp) (hsame q hqp).pid (hsame q hqp).waitProc
  refine ⟨⟨hord, hcur, hidle, ?_, ?_, ?_, ?_⟩, hkeep⟩
  · by_cases hp : p = 0
    · exact hp ▸ (h0 hp).1
    · exact (hsame 0 (Ne.symm hp)).pid.trans h.idlePid
  · by_cases hp : p = 0
    · exact hp ▸ (h0 hp).2
    · rw [(hsame 0 (Ne.symm hp)).block]
      exact h.idleBlock
  · intro r hr
    by_cases hrp : r = p
    · subst hrp
      exact hactive hr
    · obtain ⟨hlive, hblocked⟩ := h.active r (hmem r hr hrp)
      refine ⟨(hsame r hrp).live_iff.mpr hlive, ?_⟩
      rw [(hsame r hrp).status]
      exact hblocked
  · refine h.waited_of_keeps hkeep ?_
    intro q hq hwait
    by_cases hqp : q = p
    · subst hqp
      exact hback hq hwait
    · rw [(hsame q hqp).waitProc] at hwait
      exact ⟨(hsame q hqp).live_iff.mp hq, hwait⟩

/-- A process outside the queue that does not wait is freed. -/
theorem free (h : s.WaitOk l) (hp : p ∉ l) (hb : (s.procs p).status ≠ .blocked) :
    (s.setProc p fun proc => { proc with status := .slotFree }).WaitOk l ∧
      s.KeepsWaits (s.setProc p fun proc => { proc with status := .slotFree }) := by
  generalize hs' : s.setProc p (fun proc => { proc with status := .slotFree }) = s'
  have hrest : s.SameRest s' := hs' ▸ sameRest_setProc s p fun _ => rfl
  have hsame : ∀ q ≠ p, s.SameAt s' q := hs' ▸ fun q hq => sameAt_setProc s _ hq
  have hfree : ¬s'.Live p := by
    intro hlive
    refine hlive.2 ?_
    rw [← hs', status_setProc, if_pos rfl]
  have hlive : ∀ q, s'.Live q → s.Live q := by
    intro q hq
    have hqp : q ≠ p := fun he => hfree (he ▸ hq)
    exact (hsame q hqp).live_iff.mp hq
  have hqueue : s'.Queue l := hs' ▸ queue_setProc p (fun _ => rfl) h.cur.1
  have hcur : s'.curProc = s.curProc := hs' ▸ rfl
  refine h.update p hsame (h.ordered.congr hrest.pid hlive) ⟨hqueue, hcur ▸ h.cur.2⟩ h.idle (fun r hr _ => hr)
    (fun hpl => absurd hpl hp) (fun he => absurd (he ▸ h.idle) hp) ?_ ?_ ?_
  · intro q _ hw _
    exact absurd hw.status hb
  · intro w _ _ _ hp'
    exact absurd hp' hfree
  · intro hp' _
    exact absurd hp' hfree

/-- A process that waited for one that is no longer live is ready again. -/
theorem wake (h : s.WaitOk l) (result : Nat) (hw : s.Live w) (hwl : w ∉ l)
    (hno : ∀ q, s.Live q → (s.procs q).waitProc ≠ (s.procs w).pid) :
    (s.place w (Proc.wokenWith result) true).WaitOk (l ++ [w]) ∧ s.KeepsWaits (s.place w (Proc.wokenWith result) true) := by
  generalize hs' : s.place w (Proc.wokenWith result) true = s'
  have hsame : ∀ q ≠ w, s.SameAt s' q := hs' ▸ fun q hq => sameAt_place s _ true hq
  have hrest : (s'.procs w).rest = (Proc.wokenWith result (s.procs w)).rest := hs' ▸ rest_place_self s w _ true
  have hpid : (s'.procs w).pid = (s.procs w).pid := (congrArg Proc.pid hrest :)
  have hwaitProc : (s'.procs w).waitProc = (s.procs w).waitProc := (congrArg Proc.waitProc hrest :)
  have hready : (s'.procs w).status = .ready := by
    rw [← hs', status_place, if_pos rfl]
    rfl
  have hord : s'.Ordered := by
    refine h.ordered.congr ?_ ?_
    · intro q
      by_cases hqw : q = w
      · exact hqw ▸ hpid
      · exact (hsame q hqw).pid
    · intro q hq
      by_cases hqw : q = w
      · exact hqw ▸ hw
      · exact (hsame q hqw).live_iff.mp hq
  have hcur : CurIsHead s' (l ++ [w]) := hs' ▸ curIsHead_place true h.cur hwl fun _ => rfl
  refine h.update w hsame hord hcur (List.mem_append_left [w] h.idle) ?_ ?_ ?_ ?_ ?_ ?_
  · intro r hr hrw
    exact (List.mem_append.mp hr).resolve_right fun hr => hrw (List.mem_singleton.mp hr)
  · intro _
    refine ⟨⟨hw.1, by rw [hready]; nofun⟩, ?_⟩
    rw [hready]
    nofun
  · rintro rfl
    exact absurd h.idle hwl
  · intro q hq hwq _
    exact absurd hwq.pid.symm (hno q hq)
  · intro _ _ _ _ _
    exact ⟨hpid, hwaitProc⟩
  · intro _ hwait
    exact ⟨hw, hwaitProc ▸ hwait⟩

/-- What is recorded in `wait_proc` of a process is cleared, when no live process has that number. -/
theorem forget (h : s.WaitOk l) (hno : ∀ w, s.Live w → (s.procs w).pid ≠ (s.procs p).waitProc) :
    (s.setProc p fun proc => { proc with waitProc := 0 }).WaitOk l ∧
      s.KeepsWaits (s.setProc p fun proc => { proc with waitProc := 0 }) := by
  generalize hs' : s.setProc p (fun proc => { proc with waitProc := 0 }) = s'
  have hsame : ∀ q ≠ p, s.SameAt s' q := hs' ▸ fun q hq => sameAt_setProc s _ hq
  have hproc : s'.procs p = { s.procs p with waitProc := 0 } := hs' ▸ procs_setProc_self s p _
  have hpid : (s'.procs p).pid = (s.procs p).pid := by rw [hproc]
  have hstatus : (s'.procs p).status = (s.procs p).status := by rw [hproc]
  have hblock : (s'.procs p).block = (s.procs p).block := by rw [hproc]
  have hlive : s'.Live p ↔ s.Live p := by
    unfold Pm.Live
    rw [hstatus]
  have hord : s'.Ordered := by
    refine h.ordered.congr ?_ ?_
    · intro q
      by_cases hqp : q = p
      · exact hqp ▸ hpid
      · exact (hsame q hqp).pid
    · intro q hq
      by_cases hqp : q = p
      · exact hqp ▸ hlive.mp (hqp ▸ hq)
      · exact (hsame q hqp).live_iff.mp hq
  have hqueue : s'.Queue l := hs' ▸ queue_setProc p (fun _ => rfl) h.cur.1
  have hcur : s'.curProc = s.curProc := hs' ▸ rfl
  refine h.update p hsame hord ⟨hqueue, hcur ▸ h.cur.2⟩ h.idle (fun r hr _ => hr) ?_ ?_ ?_ ?_ ?_
  · intro hpl
    rw [hlive, hstatus]
    exact h.active p hpl
  · intro he
    rw [hpid, hblock, he]
    exact ⟨h.idlePid, h.idleBlock⟩
  · intro q hq hw _
    have hqp : q ≠ p := by
      rintro rfl
      exact hno q hw.live hw.pid
    refine ⟨hlive.mpr hw.live, ?_, hstatus.trans hw.status, hblock.trans hw.block, ?_⟩
    · rw [hpid, (hsame q hqp).waitProc]
      exact hw.pid
    · rw [hproc, (hsame q hqp).pid]
      exact hw.waitFor
  · intro w _ _ hw _
    exact absurd hw.pid (hno w hw.live)
  · intro _ hwait
    rw [hproc] at hwait
    exact absurd rfl hwait

/-- A process is created in a free slot. -/
theorem place (h : s.WaitOk l) {f : Proc → Proc} {active : Bool} {pid : Nat} (hempty : s.getEmptyProc = some p)
    (hfresh : ∀ q, s.Live q → (s.procs q).pid ≠ pid) (hf : NewProc f pid active) :
    (s.place p f active).WaitOk (if active then l ++ [p] else l) ∧ s.KeepsWaits (s.place p f active) := by
  have hfree : ¬s.Live p := fun hp => hp.2 (getEmptyProc_eq_some.mp hempty).1.2
  have hpl : p ∉ l := fun hp => hfree (h.active p hp).1
  have hmem : ∀ r ∈ (if active then l ++ [p] else l), r ∈ l ∨ active = true ∧ r = p := by
    intro r hr
    cases active with
    | true => simpa using hr
    | false => exact .inl hr
  have hwaitProc : ((s.place p f active).procs p).waitProc = 0 :=
    (congrArg Proc.waitProc (rest_place_self s p f active) :).trans (hf.waitProc _)
  refine h.update p (fun q hq => sameAt_place s f active hq) (h.ordered.place hempty hfresh hf)
    (curIsHead_place active h.cur hpl hf.next) ?_ ?_ ?_ ?_ ?_ ?_ ?_
  · split
    · exact List.mem_append_left [p] h.idle
    · exact h.idle
  · intro r hr hrp
    exact (hmem r hr).resolve_right fun hr => hrp hr.2
  · intro hp
    obtain ⟨hactive, -⟩ := (hmem p hp).resolve_left hpl
    have hready : ((s.place p f active).procs p).status = .ready := by rw [status_place, if_pos rfl, hf.status hactive]
    refine ⟨⟨(getEmptyProc_eq_some.mp hempty).1.1, by rw [hready]; nofun⟩, ?_⟩
    rw [hready]
    nofun
  · rintro rfl
    exact absurd h.idle hpl
  · intro q _ hw _
    exact absurd hw.live hfree
  · intro w _ hp _ _
    exact absurd hp hfree
  · intro _ hwait
    exact absurd hwaitProc hwait

/-- What waiting does not depend on is changed. -/
theorem congr (h : s.WaitOk l) (hsame : ∀ q, s.SameAt s' q) (hcur : CurIsHead s' l) :
    s'.WaitOk l ∧ s.KeepsWaits s' := by
  have hord : s'.Ordered := h.ordered.congr (fun q => (hsame q).pid) fun q => (hsame q).live_iff.mp
  refine h.update 0 (fun q _ => hsame q) hord hcur h.idle (fun r hr _ => hr) ?_ ?_ ?_ ?_ ?_
  · intro _
    exact ⟨(hsame 0).live_iff.mpr (h.active 0 h.idle).1, fun _ => rfl⟩
  · intro _
    rw [(hsame 0).pid, (hsame 0).block]
    exact ⟨h.idlePid, h.idleBlock⟩
  · intro q _ hw _
    exact hw.congr (hsame 0) (hsame q).pid (hsame q).waitProc
  · intro w _ _ _ _
    exact ⟨(hsame 0).pid, (hsame 0).waitProc⟩
  · rw [(hsame 0).waitProc, (hsame 0).live_iff]
    exact fun hlive hwait => ⟨hlive, hwait⟩

/-- What waiting does not depend on is changed of one process. -/
theorem setProc (h : s.WaitOk l) (p : ProcRef) (f : Proc → Proc) (hf : ∀ proc, { f proc with scResult := 0, exitStatus := 0 } =
      { proc with scResult := 0, exitStatus := 0 }) :
    (s.setProc p f).WaitOk l ∧ s.KeepsWaits (s.setProc p f) ∧ ∀ q, (s.setProc p f).Live q ↔ s.Live q := by
  have hsame : ∀ q, s.SameAt (s.setProc p f) q := by
    intro q
    by_cases hq : q = p
    · subst hq
      have hq' := hf (s.procs q)
      rw [← procs_setProc_self s q f] at hq'
      exact ⟨(congrArg Proc.status hq' :), (congrArg Proc.pid hq' :), (congrArg Proc.block hq' :), (congrArg Proc.waitProc hq' :),
        (congrArg Proc.waitFor hq' :)⟩
    · exact sameAt_setProc s f hq
  have hqueue : (s.setProc p f).Queue l := queue_setProc p (fun proc => (congrArg Proc.next (hf proc) :)) h.cur.1
  obtain ⟨hok, hkeep⟩ := h.congr hsame ⟨hqueue, h.cur.2⟩
  exact ⟨hok, hkeep, fun q => (hsame q).live_iff⟩

end Pm.WaitOk

/-! ## Waiting -/

/-- A process after the current one called `sys_waitpid` for `q`, but for what the queue changes. -/
def Pm.waitingProc (s : Pm) (q : ProcRef) (pid : Nat) (r : ProcRef) : Proc :=
  { s.procs r with
    waitProc := if r = q then (s.procs s.curProc).pid else (s.procs r).waitProc
    waitFor := if r = s.curProc then pid else (s.procs r).waitFor
    block := if r = s.curProc then .waitProc else (s.procs r).block }

/-- `sys_waitpid` of the current process, for a live process that nobody waits for. -/
theorem sysWaitpid_cur {s : Pm} {q b : ProcRef} {l : List ProcRef} {pid : Nat} (hqueue : s.Queue (s.curProc :: b :: l))
    (hblocked : (s.procs s.curProc).status ≠ .blocked) (hget : pmGetProc s pid = some q)
    (hlive : (s.procs q).status ≠ .slotFree) (hnone : (s.procs q).waitProc = 0) :
    ∃ s', sysWaitpid s s.curProc pid = some (0, s') ∧ CurIsHead s' (l ++ [b]) ∧
      (∀ r, (s'.procs r).rest = (s.waitingProc q pid r).rest) ∧
      ∀ r, (s'.procs r).status = if r = s'.curProc then .running else if r = s.curProc then .blocked else (s.procs r).status := by
  generalize hs₂ : (s.setProc q fun p => { p with waitProc := (s.procs s.curProc).pid }).setProc s.curProc
    (fun p => { p with waitFor := pid }) = s₂
  have hcur₂ : s₂.curProc = s.curProc := hs₂ ▸ rfl
  have hproc₂ : ∀ r, s₂.procs r = { s.waitingProc q pid r with block := (s.procs r).block } := by
    intro r
    rw [← hs₂, procs_setProc, procs_setProc, Pm.waitingProc]
    split_ifs <;> rfl
  have hqueue₂ : s₂.Queue (s₂.curProc :: b :: l) :=
    hcur₂ ▸ hs₂ ▸ queue_setProc _ (fun _ => rfl) (queue_setProc _ (fun _ => rfl) hqueue)
  obtain ⟨s', hs', hcur', hrest, hstatus⟩ := pmBlock_cur .waitProc hqueue₂ (by rw [hcur₂, hproc₂]; exact hblocked)
  rw [hcur₂] at hs'
  refine ⟨s', ?_, hcur', ?_, ?_⟩
  · simp only [sysWaitpid, hget, Option.bind_eq_bind, Option.bind_some, hlive, hnone, ne_eq, not_true_eq_false, or_self, if_false,
      hs₂, hs']
  · intro r
    rw [hrest r, procs_setProc, hcur₂, hproc₂]
    split_ifs with hr
    · simp [Pm.waitingProc, Proc.rest, hr]
    · simp [Pm.waitingProc, Proc.rest, hr]
  · intro r
    rw [hstatus, hcur₂, hproc₂]
    rfl

/-- The current process waits for `q` from now on, and another one runs. -/
structure Pm.StartsWait (s s' : Pm) (q : ProcRef) (number : Nat) : Prop where
  cur : s.curProc ≠ s'.curProc
  pid : ∀ r, (s'.procs r).pid = (s.procs r).pid
  waitProc : ∀ r, (s'.procs r).waitProc = if r = q then (s.procs s.curProc).pid else (s.procs r).waitProc
  waitFor : ∀ r, (s'.procs r).waitFor = if r = s.curProc then number else (s.procs r).waitFor
  block : ∀ r, (s'.procs r).block = if r = s.curProc then .waitProc else (s.procs r).block
  status : ∀ r, (s'.procs r).status = if r = s'.curProc then .running else if r = s.curProc then .blocked else (s.procs r).status

namespace Pm.StartsWait

variable {s s' : Pm} {q : ProcRef} {l : List ProcRef} {pid : Nat}

theorem live_iff (hw : s.StartsWait s' q pid) (h : s.WaitOk l) (hcur : s'.curProc ∈ l) (r : ProcRef) : s'.Live r ↔ s.Live r := by
  unfold Pm.Live
  rw [hw.status]
  split_ifs with hr hr
  · have hlive := (h.active r (hr ▸ hcur)).1
    exact ⟨fun _ => hlive, fun hl => ⟨hl.1, nofun⟩⟩
  · exact ⟨fun _ => hr ▸ (h.active _ h.mem_cur).1, fun hl => ⟨hl.1, nofun⟩⟩
  · exact Iff.rfl

theorem waits (hw : s.StartsWait s' q pid) (hlive : s'.Live s.curProc) (hq : (s.procs q).pid = pid) : s'.Waits s.curProc q := by
  refine ⟨hlive, ?_, ?_, ?_, ?_⟩
  · rw [hw.pid, hw.waitProc, if_pos rfl]
  · rw [hw.status, if_neg hw.cur, if_pos rfl]
  · rw [hw.block, if_pos rfl]
  · rw [hw.waitFor, if_pos rfl, hw.pid, hq]

/-- The other waits stay: nobody waited for `q`, and those who wait are not in the queue. -/
theorem keeps (hw : s.StartsWait s' q pid) (h : s.WaitOk l) (hcur : s'.curProc ∈ l) (hnone : (s.procs q).waitProc = 0) :
    s.KeepsWaits s' := by
  intro w r _ hwr _
  have hwl := h.not_mem_of_waits hwr
  have hwp : w ≠ s.curProc := fun he => hwl (he ▸ h.mem_cur)
  have hwp' : w ≠ s'.curProc := fun he => hwl (he ▸ hcur)
  have hrq : r ≠ q := by
    rintro rfl
    have hw0 : w ≠ 0 := fun he => hwl (he ▸ h.idle)
    exact h.pid_ne_zero hwr.live hw0 (hwr.pid.trans hnone)
  refine ⟨(hw.live_iff h hcur w).mpr hwr.live, ?_, ?_, ?_, ?_⟩
  · rw [hw.pid, hw.waitProc, if_neg hrq]
    exact hwr.pid
  · rw [hw.status, if_neg hwp', if_neg hwp]
    exact hwr.status
  · rw [hw.block, if_neg hwp]
    exact hwr.block
  · rw [hw.waitFor, if_neg hwp, hw.pid]
    exact hwr.waitFor

end Pm.StartsWait

/-- The process that calls `sys_waitpid` then waits, and all other waits stay. -/
theorem Pm.WaitOk.waitpid {s : Pm} {q : ProcRef} {l : List ProcRef} {pid : Nat} (h : s.WaitOk l) (h0 : s.curProc ≠ 0)
    (hget : pmGetProc s pid = some q) (hlive : (s.procs q).status ≠ .slotFree) (hnone : (s.procs q).waitProc = 0) :
    ∃ s' l', sysWaitpid s s.curProc pid = some (0, s') ∧ s'.WaitOk l' ∧ s.KeepsWaits s' ∧ s'.Waits s.curProc q ∧
      (∀ r, s'.Live r ↔ s.Live r) ∧ ∀ r, (s'.procs r).rest = (s.waitingProc q pid r).rest := by
  obtain ⟨⟨-, hqpid⟩, -⟩ := pmGetProc_eq_some.mp hget
  have hblocked : (s.procs s.curProc).status ≠ .blocked := fun hb => h0 ((h.active _ h.mem_cur).2 hb)
  obtain ⟨b, l₁, rfl, hidle, hnot⟩ := h.cons_cons h0
  obtain ⟨s', hs', hcur', hrest, hstatus⟩ := sysWaitpid_cur h.cur.1 hblocked hget hlive hnone
  have hcurmem : s'.curProc ∈ b :: l₁ := mem_rotated.mp (List.mem_of_head? hcur'.2)
  have hstarts : s.StartsWait s' q pid :=
    ⟨fun he => hnot (he ▸ hcurmem), fun r => (congrArg Proc.pid (hrest r) :), fun r => (congrArg Proc.waitProc (hrest r) :),
      fun r => (congrArg Proc.waitFor (hrest r) :), fun r => (congrArg Proc.block (hrest r) :), hstatus⟩
  have hlive' := hstarts.live_iff h (List.mem_cons_of_mem _ hcurmem)
  have hwaits : s'.Waits s.curProc q := hstarts.waits ((hlive' _).mpr (h.active _ h.mem_cur).1) hqpid
  have hkeep : s.KeepsWaits s' := hstarts.keeps h (List.mem_cons_of_mem _ hcurmem) hnone
  refine ⟨s', l₁ ++ [b], hs', ⟨?_, hcur', mem_rotated.mpr hidle, (hstarts.pid 0).trans h.idlePid, ?_, ?_, ?_⟩, hkeep, hwaits, hlive',
    hrest⟩
  · exact h.ordered.congr hstarts.pid fun r => (hlive' r).mp
  · rw [hstarts.block, if_neg (Ne.symm h0)]
    exact h.idleBlock
  · intro r hr
    have hrl := mem_rotated.mp hr
    have hrp : r ≠ s.curProc := fun he => hnot (he ▸ hrl)
    obtain ⟨hrlive, hrblocked⟩ := h.active r (List.mem_cons_of_mem _ hrl)
    refine ⟨(hlive' r).mpr hrlive, ?_⟩
    rw [hstatus, if_neg hrp]
    split_ifs
    · nofun
    · exact hrblocked
  · intro r hr hwait
    by_cases hrq : r = q
    · subst hrq
      exact ⟨_, hwaits⟩
    · rw [hstarts.waitProc, if_neg hrq] at hwait
      obtain ⟨w, hw⟩ := h.waited r ((hlive' r).mp hr) hwait
      exact ⟨w, hkeep w r ((hlive' r).mp hr) hw hr⟩

/-! ## Ending -/

/-- What `pm_destroy` of the process `p` does; `l` is the ready queue then. -/
structure Pm.Destroyed (s s' : Pm) (l : List ProcRef) (p : ProcRef) : Prop where
  ok : s'.WaitOk l
  live : ∀ q, s'.Live q ↔ s.Live q ∧ q ≠ p
  pid : ∀ q, (s'.procs q).pid = (s.procs q).pid
  waitFor : ∀ q, (s'.procs q).waitFor = (s.procs q).waitFor
  exitStatus : ∀ q, (s'.procs q).exitStatus = (s.procs q).exitStatus
  keeps : s.KeepsWaits s'
  woken : ∀ w, s.Waits w p → (s.procs p).waitProc ≠ 0 →
    (s'.procs w).status = .ready ∧ (s'.procs w).block = .notBlocked ∧ (s'.procs w).scResult = (s.procs p).exitStatus ∧ w ∈ l ∧
      ∀ q, s'.Live q → (s'.procs q).waitProc ≠ (s.procs w).pid
  results : ∀ r, ¬(s.Waits r p ∧ (s.procs p).waitProc ≠ 0) → (s'.procs r).scResult = (s.procs r).scResult

namespace Pm.WaitOk

variable {s s₁ : Pm} {l l₁ : List ProcRef} {p : ProcRef}

/-- Nobody else is waited for by the process that waits for `p`. -/
theorem waited_once {q w : ProcRef} (h : s.WaitOk l) (hp : s.Live p) (hwait : (s.procs p).waitProc ≠ 0) (hw : s.Waits w p)
    (hq : s.Live q) (hqp : q ≠ p) : (s.procs q).waitProc ≠ (s.procs w).pid := by
  intro he
  obtain ⟨w', hw'⟩ := h.waited q hq (by rw [he, hw.pid]; exact hwait)
  have hww' : w = w' := h.eq_of_waits hw' hw.live he.symm
  subst hww'
  exact hqp (h.ordered.inj hq hp (hw'.waitFor.symm.trans hw.waitFor))

/-- The process is out of the queue and its slot is free. -/
theorem release (h : s.WaitOk l) (h0 : s.curProc ≠ 0) :
    ∃ s₁ l₁, pmDeactivate s s.curProc = some s₁ ∧
      (s₁.setProc s.curProc fun proc => { proc with status := .slotFree }).WaitOk l₁ ∧
      s.SameRest (s₁.setProc s.curProc fun proc => { proc with status := .slotFree }) ∧
      s.KeepsWaits (s₁.setProc s.curProc fun proc => { proc with status := .slotFree }) ∧
      (∀ q, (s₁.setProc s.curProc fun proc => { proc with status := .slotFree }).Live q ↔ s.Live q ∧ q ≠ s.curProc) ∧
      ∀ w, s.Waits w s.curProc → w ∉ l₁ := by
  obtain ⟨s₁, l₁, hs₁, hok₁, hrest₁, hkeep₁, hlive₁, hnot, hblocked⟩ := h.deactivate h0
  have hcur := (h.active _ h.mem_cur).1
  obtain ⟨hok₂, hkeep₂⟩ := hok₁.free hnot hblocked
  have hlive₂ : ∀ q, (s₁.setProc s.curProc fun proc => { proc with status := .slotFree }).Live q ↔ s.Live q ∧ q ≠ s.curProc := by
    intro q
    by_cases hq : q = s.curProc
    · subst hq
      refine ⟨fun hl => absurd ?_ hl.2, fun hl => absurd rfl hl.2⟩
      rw [status_setProc, if_pos rfl]
    · rw [(sameAt_setProc s₁ _ hq).live_iff, hlive₁]
      exact ⟨fun hl => ⟨hl, hq⟩, fun hl => hl.1⟩
  refine ⟨s₁, l₁, hs₁, hok₂, hrest₁.trans (sameRest_setProc s₁ _ fun _ => rfl), ?_, hlive₂, ?_⟩
  · intro w q hq hw hq'
    exact hkeep₂ w q ((hlive₁ q).mpr hq) (hkeep₁ w q hq hw ((hlive₁ q).mpr hq)) hq'
  · intro w hw
    exact hok₁.not_mem_of_waits (hkeep₁ w _ hcur hw ((hlive₁ _).mpr hcur))

/-- Of the process that is woken only the result and the reason to wait change, apart from its place in the queue. -/
theorem rest_woken (s : Pm) (w : ProcRef) (result : Nat) (q : ProcRef) :
    { ((s.place w (Proc.wokenWith result) true).procs q).rest with scResult := 0, block := .notBlocked } =
      { (s.procs q).rest with scResult := 0, block := .notBlocked } := by
  by_cases hq : q = w
  · rw [hq, rest_place_self]
    rfl
  · rw [rest_place_ne s w _ true hq]

theorem live_woken {w : ProcRef} (hw : s.Live w) (result : Nat) (q : ProcRef) :
    (s.place w (Proc.wokenWith result) true).Live q ↔ s.Live q := by
  by_cases hq : q = w
  · subst hq
    refine ⟨fun _ => hw, fun _ => ⟨hw.1, ?_⟩⟩
    rw [status_place, if_pos rfl]
    nofun
  · exact Pm.Live.place_iff hq

theorem wakeWaiter (h : s.WaitOk l) (h0 : s.curProc ≠ 0) :
    ∃ s₁ s₂ l₂, pmDeactivate s s.curProc = some s₁ ∧
      Kos.wakeWaiter (s₁.setProc s.curProc fun proc => { proc with status := .slotFree }) s.curProc = some s₂ ∧
      s.Destroyed s₂ l₂ s.curProc := by
  have hcur := (h.active _ h.mem_cur).1
  obtain ⟨s₁, l₁, hs₁, hok, hrest, hkeep, hlive, hnot⟩ := h.release h0
  generalize hs₂ : (s₁.setProc s.curProc fun proc => { proc with status := .slotFree }) = s₂ at hok hrest hkeep hlive
  by_cases hwait : (s.procs s.curProc).waitProc = 0
  · refine ⟨s₁, s₂, l₁, hs₁, ?_, hok, hlive, hrest.pid, hrest.waitFor, hrest.exitStatus, hkeep, ?_, ?_⟩
    · rw [hs₂, Kos.wakeWaiter, hrest.waitProc, hwait]
      rfl
    · intro w _ hne
      exact absurd hwait hne
    · intro r _
      exact hrest.scResult r
  · obtain ⟨w, hw⟩ := h.waited _ hcur hwait
    have hwp : w ≠ s.curProc := by
      intro he
      exact h.not_mem_of_waits hw (he ▸ h.mem_cur)
    have hwlive : s₂.Live w := (hlive w).mpr ⟨hw.live, hwp⟩
    have hget : pmGetProc s₂ (s₂.procs s.curProc).waitProc = some w := by
      rw [hrest.waitProc, ← hw.pid, ← hrest.pid]
      exact hok.ordered.getProc hwlive
    have hno : ∀ q, s₂.Live q → (s₂.procs q).waitProc ≠ (s₂.procs w).pid := by
      intro q hq
      rw [hrest.waitProc, hrest.pid]
      exact h.waited_once hcur hwait hw ((hlive q).mp hq).1 ((hlive q).mp hq).2
    obtain ⟨hok₃, hkeep₃⟩ := hok.wake (s₂.procs s.curProc).exitStatus hwlive (hnot w hw) hno
    have hmost := rest_woken s₂ w (s₂.procs s.curProc).exitStatus
    have hlive₃ := live_woken hwlive (s₂.procs s.curProc).exitStatus
    generalize hs₃ : s₂.place w (Proc.wokenWith (s₂.procs s.curProc).exitStatus) true = s₃ at hok₃ hkeep₃ hmost hlive₃
    have hself : (s₃.procs w).rest = (Proc.wokenWith (s₂.procs s.curProc).exitStatus (s₂.procs w)).rest :=
      hs₃ ▸ rest_place_self s₂ w _ true
    have hother : ∀ q, q ≠ w → (s₃.procs q).rest = (s₂.procs q).rest := hs₃ ▸ fun q hq => rest_place_ne s₂ w _ true hq
    have hwaitProc : ∀ q, (s₃.procs q).waitProc = (s.procs q).waitProc := fun q =>
      (congrArg Proc.waitProc (hmost q) :).trans (hrest.waitProc q)
    refine ⟨s₁, s₃, l₁ ++ [w], hs₁, ?_, hok₃, fun q => (hlive₃ q).trans (hlive q),
      fun q => (congrArg Proc.pid (hmost q) :).trans (hrest.pid q), fun q => (congrArg Proc.waitFor (hmost q) :).trans (hrest.waitFor q),
      fun q => (congrArg Proc.exitStatus (hmost q) :).trans (hrest.exitStatus q), ?_, ?_, ?_⟩
    · have hne : (s₂.procs s.curProc).waitProc ≠ 0 := by
        rw [hrest.waitProc]
        exact hwait
      rw [hs₂, Kos.wakeWaiter, if_pos hne, hget, ← hs₃]
      exact congrArg some (congrArg (pmActivate · w) (setProc_setProc s₂ w _ _))
    · intro r q hq hr hq'
      have hq₂ := (hlive₃ q).mp hq'
      exact hkeep₃ r q hq₂ (hkeep r q hq hr hq₂) hq'
    · intro r hr _
      obtain rfl : r = w := h.eq_of_waits hw hr.live hr.pid
      refine ⟨?_, (congrArg Proc.block hself :), ?_, List.mem_append_right l₁ List.mem_cons_self, ?_⟩
      · rw [← hs₃, status_place, if_pos rfl]
        rfl
      · exact (congrArg Proc.scResult hself :).trans (hrest.exitStatus _)
      · intro q hq
        have hq₂ := (hlive q).mp ((hlive₃ q).mp hq)
        rw [hwaitProc]
        exact h.waited_once hcur hwait hw hq₂.1 hq₂.2
    · intro r hr
      have hrw : r ≠ w := fun he => hr ⟨he ▸ hw, hwait⟩
      exact (congrArg Proc.scResult (hother r hrw) :).trans (hrest.scResult r)

end Pm.WaitOk

/-- The last part of `pm_destroy` clears a `wait_proc` that is the number of the process destroyed, of which there is no other. -/
theorem Pm.Destroyed.forgetWaiter {s s₂ s₃ : Pm} {l l₂ : List ProcRef} {p : ProcRef} (hs : s.WaitOk l) (hp : s.Live p)
    (h : s.Destroyed s₂ l₂ p) (hs₃ : Kos.forgetWaiter s₂ p = some s₃) : s.Destroyed s₃ l₂ p := by
  unfold Kos.forgetWaiter at hs₃
  split at hs₃
  · obtain ⟨other, hother, hs₃⟩ := Option.bind_eq_some_iff.mp hs₃
    split at hs₃
    · rename_i hnum
      cases hs₃
      have hno : ∀ w, s₂.Live w → (s₂.procs w).pid ≠ (s₂.procs other).waitProc := by
        intro w hw he
        obtain ⟨hwlive, hwp⟩ := (h.live w).mp hw
        rw [hnum, h.pid, h.pid] at he
        exact hwp (hs.ordered.inj hwlive hp he)
      obtain ⟨hok, hkeep⟩ := h.ok.forget hno
      generalize hs₃ : s₂.setProc other (fun proc => { proc with waitProc := 0 }) = s₃ at hok hkeep
      have hproc : ∀ q, s₃.procs q = { s₂.procs q with waitProc := if q = other then 0 else (s₂.procs q).waitProc } := by
        intro q
        rw [← hs₃, procs_setProc]
        split_ifs <;> rfl
      have hlive : ∀ q, s₃.Live q ↔ s₂.Live q := by
        intro q
        unfold Pm.Live
        rw [hproc]
      refine ⟨hok, fun q => (hlive q).trans (h.live q), ?_, ?_, ?_, ?_, ?_, ?_⟩
      · intro q
        rw [hproc]
        exact h.pid q
      · intro q
        rw [hproc]
        exact h.waitFor q
      · intro q
        rw [hproc]
        exact h.exitStatus q
      · intro w q hq hw hq'
        have hq₂ := (hlive q).mp hq'
        exact hkeep w q hq₂ (h.keeps w q hq hw hq₂) hq'
      · intro w hw hwait
        obtain ⟨hstatus, hblock, hresult, hmem, hnone⟩ := h.woken w hw hwait
        rw [hproc w]
        refine ⟨hstatus, hblock, hresult, hmem, ?_⟩
        intro q hq
        rw [hproc q]
        by_cases hqo : q = other
        · rw [if_pos hqo, hw.pid]
          exact Ne.symm hwait
        · rw [if_neg hqo]
          exact hnone q ((hlive q).mp hq)
      · intro r hr
        rw [hproc]
        exact h.results r hr
    · cases hs₃
      exact h
  · cases hs₃
    exact h

/-- `pm_destroy` of the current process, up to its last part. -/
theorem Pm.WaitOk.destroy {s : Pm} {l : List ProcRef} (h : s.WaitOk l) (h0 : s.curProc ≠ 0) :
    ∃ s₂ l₂, (pmDeactivate s s.curProc).bind
        (fun s₁ => Kos.wakeWaiter (s₁.setProc s.curProc fun proc => { proc with status := .slotFree }) s.curProc) = some s₂ ∧
      pmDestroy s s.curProc = Kos.forgetWaiter s₂ s.curProc ∧ s.Destroyed s₂ l₂ s.curProc ∧
      ∀ s₃, pmDestroy s s.curProc = some s₃ → s.Destroyed s₃ l₂ s.curProc := by
  obtain ⟨s₁, s₂, l₂, hs₁, hs₂, hdestroyed⟩ := h.wakeWaiter h0
  have heq : pmDestroy s s.curProc = Kos.forgetWaiter s₂ s.curProc := by
    simp only [pmDestroy, hs₁, Option.bind_eq_bind, Option.bind_some, hs₂]
  refine ⟨s₂, l₂, ?_, heq, hdestroyed, ?_⟩
  · rw [hs₁]
    exact hs₂
  · intro s₃ hs₃
    exact hdestroyed.forgetWaiter h (h.active _ h.mem_cur).1 (heq.symm.trans hs₃)

end Kos
