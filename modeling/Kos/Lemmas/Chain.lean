import Kos.Lemmas.ReadyQueue

/-!
# The ready queue after the last process was removed

`pm_deactivate` can leave `plist_tail` pointing to a process that is no longer in the queue. What following `next` from `plist_head`
visits is a list also then: no function adds a process to it other than the one that is activated.
-/

namespace Kos

/-- What `plist_head` leads to; `plist_tail` may point elsewhere. -/
structure Pm.Chain (s : Pm) (l : List ProcRef) : Prop where
  links : Links s.next s.plistHead l
  nodup : l.Nodup
  tail : ∀ t, s.plistTail = some t → s.next t = none
  empty : s.plistTail = none → l = []

open ReadyQueueAux

namespace Pm.Chain

variable {s s' : Pm} {l : List ProcRef} {p : ProcRef}

theorem of_queue (h : s.Queue l) : s.Chain l := by
  refine ⟨h.links, h.nodup, ?_, ?_⟩
  · intro t ht
    obtain ⟨l₀, rfl⟩ := List.getLast?_eq_some_iff.mp (h.tail_eq.symm.trans ht)
    exact h.links.drop
  · intro hnone
    exact List.getLast?_eq_none_iff.mp (h.tail_eq.symm.trans hnone)

/-- A change of a process that leaves `next` alone leaves the list alone. -/
theorem setProc (p : ProcRef) {f : Proc → Proc} (hf : ∀ proc, (f proc).next = proc.next) (h : s.Chain l) : (s.setProc p f).Chain l := by
  have hnext := next_setProc s p hf
  refine ⟨?_, h.nodup, ?_, h.empty⟩
  · rw [hnext]
    exact h.links
  · rw [hnext]
    exact h.tail

/-- When `plist_tail` is in the list, the list is the queue. -/
theorem queue {t : ProcRef} (h : s.Chain l) (htail : s.plistTail = some t) (ht : t ∈ l) : s.Queue l := by
  refine ⟨h.links, ?_, h.nodup⟩
  obtain ⟨l₁, l₂, rfl⟩ := List.append_of_mem ht
  have hlast : Links s.next none l₂ := by
    rw [← h.tail t htail]
    exact h.links.drop
  have hl₂ : l₂ = [] := hlast.unique rfl
  subst hl₂
  rw [htail]
  simp

theorem activate (h : s.Chain l) (hp : p ∉ l) : ∃ l', (pmActivate s p).Chain l' ∧ ∀ q ∈ l', q ∈ l ∨ q = p := by
  have happend : s.Queue l → ∃ l', (pmActivate s p).Chain l' ∧ ∀ q ∈ l', q ∈ l ∨ q = p := by
    intro hq
    refine ⟨l ++ [p], of_queue (pmActivate_queue hq hp), ?_⟩
    intro q hq
    simpa using hq
  cases htail : s.plistTail with
  | none =>
    obtain rfl := h.empty htail
    exact happend ⟨h.links, htail, List.nodup_nil⟩
  | some t =>
    by_cases ht : t ∈ l
    · exact happend (h.queue htail ht)
    · -- the process is linked behind a process outside the list
      have hnext : (pmActivate s p).next = Function.update (Function.update s.next t (some p)) p none := by
        simp only [pmActivate, htail]
        exact (next_setNext _ p none).trans (by rw [next_setNext])
      have htail' : ∀ t', (pmActivate s p).plistTail = some t' → (pmActivate s p).next t' = none := by
        intro t' ht'
        cases ht'
        rw [hnext, Function.update_self]
      cases hhead : s.plistHead with
      | none =>
        have hhead' : (pmActivate s p).plistHead = some p := by simp [pmActivate, hhead]
        refine ⟨[p], ⟨⟨hhead', ?_⟩, List.nodup_singleton p, htail', by simp [pmActivate]⟩, by simp⟩
        rw [hnext, Function.update_self]
        exact rfl
      | some a =>
        have hhead' : (pmActivate s p).plistHead = s.plistHead := by simp [pmActivate, hhead]
        refine ⟨l, ⟨?_, h.nodup, htail', by simp [pmActivate]⟩, fun q hq => .inl hq⟩
        rw [hhead', hnext]
        refine h.links.congr ?_
        intro b hb
        have hbp : b ≠ p := fun he => hp (he ▸ hb)
        have hbt : b ≠ t := fun he => ht (he ▸ hb)
        rw [Function.update_of_ne hbp, Function.update_of_ne hbt]

theorem schedule (h : s.Chain l) (hs : pmSchedule s = some s') :
    ∃ l', s'.Chain l' ∧ (∀ q ∈ l', q ∈ l) ∧
      (∀ q, (s'.procs q).status = .slotFree → (s.procs q).status = .slotFree) ∧
      ∀ q, (s'.procs q).status ≠ .slotFree → (s.procs q).status ≠ .slotFree ∨ q ∈ l := by
  have hlist : ∃ l', s'.Chain l' ∧ ∀ q ∈ l', q ∈ l := by
    rcases pmSchedule_cases s with ⟨-, hnone⟩ | ⟨t, a, htail, hhead, -⟩
    · rw [hnone] at hs
      cases hs
    · obtain ⟨l₀, rfl⟩ : ∃ l₀, l = a :: l₀ := by
        cases l with
        | nil => cases hhead.symm.trans h.links
        | cons b l₀ => exact ⟨l₀, by rw [Option.some.inj (hhead.symm.trans h.links.1)]⟩
      by_cases ht : t ∈ a :: l₀
      · obtain ⟨s₁, hs₁, hq, -⟩ := pmSchedule_queue (h.queue htail ht)
        cases hs.symm.trans hs₁
        refine ⟨l₀ ++ [a], of_queue hq, ?_⟩
        intro q hq
        simpa [or_comm] using hq
      · obtain ⟨s₁, hs₁, hnext, hhead', htail', -⟩ := pmSchedule_pointers htail hhead
        cases hs.symm.trans hs₁
        obtain ⟨hta, htl⟩ := not_or.mp (mt List.mem_cons.mpr ht)
        obtain ⟨hal, hnd⟩ := List.nodup_cons.mp h.nodup
        refine ⟨l₀, ⟨?_, hnd, ?_, ?_⟩, fun q hq => List.mem_cons_of_mem a hq⟩
        · rw [hhead', hnext, Function.update_of_ne (Ne.symm hta)]
          refine h.links.2.congr ?_
          intro b hb
          have hba : b ≠ a := fun he => hal (he ▸ hb)
          have hbt : b ≠ t := fun he => htl (he ▸ hb)
          rw [Function.update_of_ne hba, Function.update_of_ne hbt]
        · intro t' ht'
          cases htail'.symm.trans ht'
          rw [hnext, Function.update_self]
        · intro hnone
          cases htail'.symm.trans hnone
  obtain ⟨l', hchain, hmem⟩ := hlist
  refine ⟨l', hchain, hmem, ?_, ?_⟩
  · intro q hq
    rw [pmSchedule_status hs] at hq
    split at hq
    · cases hq
    · split at hq
      · cases hq
      · exact hq
  intro q hq
  rw [pmSchedule_status hs] at hq
  split at hq
  · rename_i hhead
    refine .inr (hmem q ?_)
    have hfirst := hchain.links.head_eq
    rw [hhead] at hfirst
    exact List.mem_of_head? hfirst.symm
  · split at hq
    · rename_i hrun
      exact .inl (by rw [hrun.2]; nofun)
    · exact .inl hq

/-- `pm_deactivate` follows a null pointer when it does not find the process. -/
theorem mem_of_deactivate (h : s.Chain l) (hs : pmDeactivate s p = some s') : p ∈ l := by
  by_contra hp
  have hlen := List.Nodup.length_le_card h.nodup
  rw [Fintype.card_fin] at hlen
  have hlinks : Links s.next s.plistHead (l ++ []) := by
    rw [List.append_nil]
    exact h.links
  have hwalk := walkTo_of_links (· == p) hlinks
    (fun b hb => beq_false_of_ne fun he => hp (he ▸ hb)) (by simp) none hlen
  rw [pmDeactivate, hwalk] at hs
  cases hs

theorem deactivate (h : s.Chain l) (hs : pmDeactivate s p = some s') :
    ∃ l', s'.Chain l' ∧ (∀ q ∈ l', q ∈ l ∧ q ≠ p) ∧
      (∀ q, (s'.procs q).status = .slotFree → (s.procs q).status = .slotFree) ∧
      ∀ q, (s'.procs q).status ≠ .slotFree → (s.procs q).status ≠ .slotFree ∨ q ∈ l := by
  have hp := h.mem_of_deactivate hs
  obtain ⟨l₁, l₂, rfl⟩ := List.append_of_mem hp
  obtain ⟨s₁, hlinks, htail, hcur, hstatus, hnull, heq⟩ := pmDeactivate_links h.links h.nodup
  have hsub : (l₁ ++ l₂).Sublist (l₁ ++ p :: l₂) := List.Sublist.append (List.Sublist.refl l₁) (List.sublist_cons_self p l₂)
  have hmem : ∀ q ∈ l₁ ++ l₂, q ∈ l₁ ++ p :: l₂ ∧ q ≠ p := by
    intro q hq
    refine ⟨hsub.subset hq, ?_⟩
    rintro rfl
    exact (List.nodup_cons.mp (List.nodup_middle.mp h.nodup)).1 hq
  have hchain : s₁.Chain (l₁ ++ l₂) := by
    refine ⟨hlinks, h.nodup.sublist hsub, ?_, ?_⟩
    · intro t ht
      exact hnull t (h.tail t (htail.symm.trans ht))
    · intro hnone
      exact absurd (h.empty (htail.symm.trans hnone)) (by simp)
  rw [heq] at hs
  split at hs
  · obtain ⟨l', hchain', hmem', hfree, hlive⟩ := hchain.schedule hs
    simp only [hstatus] at hfree hlive
    refine ⟨l', hchain', fun q hq => hmem q (hmem' q hq), hfree, ?_⟩
    intro q hq
    rcases hlive q hq with hl | hl
    · exact .inl hl
    · exact .inr (hmem q hl).1
  · cases hs
    simp only [hstatus]
    exact ⟨l₁ ++ l₂, hchain, hmem, fun _ hq => hq, fun _ hq => .inl hq⟩

end Pm.Chain

end Kos
