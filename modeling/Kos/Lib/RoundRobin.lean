import Mathlib.Data.List.Basic

/-!
# Round robin on lists

A queue whose head is served. A step moves the head to the end, appends an element, or removes the head when only one other element
is left. Over any run of such steps an element that stays in the queue is served before another one is served again
(`RoundStep.not_passed_over`).
-/

namespace Kos

variable {α : Type*}

/-- One step of the queue. -/
inductive RoundStep : List α → List α → Prop where
  | rotate (a : α) (l : List α) : RoundStep (a :: l) (l ++ [a])
  | arrive (a p : α) (l : List α) : RoundStep (a :: l) (a :: l ++ [p])
  | leave (a b : α) : RoundStep [a, b] [b]
  | stay (l : List α) : RoundStep l l

/-- `b` is in the queue, and `a` is not before it. -/
def Ahead (b a : α) (l : List α) : Prop := ∃ l₁ l₂, l = l₁ ++ b :: l₂ ∧ a ∉ l₁

namespace RoundStep

variable {a b : α} {l l' : List α}

theorem head_ne_of_ahead (hab : a ≠ b) (h : Ahead b a l) : l.head? ≠ some a := by
  obtain ⟨l₁, l₂, rfl, ha⟩ := h
  cases l₁ with
  | nil => simpa using hab.symm
  | cons c l₁ =>
    intro hc
    cases hc
    exact ha (List.mem_cons_self ..)

/-- An element that waits in front of another stays in front of it until it is served. -/
theorem ahead_step (hs : RoundStep l l') (h : Ahead b a l) (hb : l.head? ≠ some b) : Ahead b a l' := by
  obtain ⟨l₁, l₂, hl, ha⟩ := h
  obtain ⟨c, l₁, rfl⟩ : ∃ c l₃, l₁ = c :: l₃ := by
    cases l₁ with
    | nil => simp [hl] at hb
    | cons c l₁ => exact ⟨c, l₁, rfl⟩
  have ha₁ : a ∉ l₁ := fun hm => ha (List.mem_cons_of_mem c hm)
  cases hs with
  | rotate d t =>
    obtain ⟨rfl, rfl⟩ := List.cons.inj hl
    exact ⟨l₁, l₂ ++ [d], by simp, ha₁⟩
  | arrive d p t =>
    rw [hl]
    exact ⟨c :: l₁, l₂ ++ [p], by simp, ha⟩
  | leave d e =>
    obtain ⟨-, ht⟩ := List.cons.inj hl
    obtain ⟨rfl, -⟩ := List.append_eq_singleton_iff.mp ht.symm |>.resolve_right (by simp)
    obtain ⟨rfl, -⟩ := List.cons.inj ht
    exact ⟨[], [], rfl, List.not_mem_nil⟩
  | stay => exact ⟨c :: l₁, l₂, hl, ha⟩

/-- When the element that is served stops being served, everything else in the queue is in front of it. -/
theorem ahead_of_served (hs : RoundStep l l') (hnd : l.Nodup) (ha : l.head? = some a) (hb : b ∈ l) (hab : a ≠ b) :
    l'.head? = some a ∨ Ahead b a l' := by
  cases hs with
  | rotate d t =>
    cases ha
    obtain ⟨l₁, l₂, rfl⟩ := List.append_of_mem ((List.mem_cons.mp hb).resolve_left hab.symm)
    refine .inr ⟨l₁, l₂ ++ [a], by simp, fun hm => ?_⟩
    exact (List.nodup_cons.mp hnd).1 (List.mem_append_left _ hm)
  | arrive d p t => exact .inl ha
  | leave d e =>
    cases ha
    obtain rfl : b = e := by simpa [hab.symm] using hb
    exact .inr ⟨[], [], rfl, List.not_mem_nil⟩
  | stay => exact .inl ha

/-- Nothing that stays in the queue is passed over: between two times at which `a` is served, with another element served in
between, everything that is in the queue all the time is served. -/
theorem not_passed_over {ls : Nat → List α} {n i k j : Nat} (hstep : ∀ m < n, RoundStep (ls m) (ls (m + 1)))
    (hnd : ∀ m ≤ n, (ls m).Nodup) (hik : i < k) (hkj : k < j) (hjn : j ≤ n) (hi : (ls i).head? = some a)
    (hk : (ls k).head? ≠ some a) (hj : (ls j).head? = some a) (hb : ∀ m, i ≤ m → m ≤ j → b ∈ ls m) :
    ∃ m, i ≤ m ∧ m ≤ j ∧ (ls m).head? = some b := by
  by_contra hno
  have hnot : ∀ m, i ≤ m → m ≤ j → (ls m).head? ≠ some b := fun m him hmj he => hno ⟨m, him, hmj, he⟩
  have hab : a ≠ b := fun he => hnot i (Nat.le_refl i) (by omega) (he ▸ hi)
  -- from `i` on, `a` is served or `b` is in front of it
  have hrun : ∀ d, i + d ≤ j → (ls (i + d)).head? = some a ∨ Ahead b a (ls (i + d)) := by
    intro d
    induction d with
    | zero => exact fun _ => .inl hi
    | succ d ih =>
      intro hd
      rcases ih (by omega) with h | h
      · exact (hstep (i + d) (by omega)).ahead_of_served (hnd _ (by omega)) h (hb _ (by omega) (by omega)) hab
      · exact .inr ((hstep (i + d) (by omega)).ahead_step h (hnot _ (by omega) (by omega)))
  -- from `k` on, `b` is in front of `a`
  have hlater : ∀ d, k + d ≤ j → Ahead b a (ls (k + d)) := by
    intro d
    induction d with
    | zero =>
      intro _
      have := hrun (k - i) (by omega)
      rw [Nat.add_sub_cancel' (Nat.le_of_lt hik)] at this
      exact this.resolve_left hk
    | succ d ih =>
      intro hd
      exact (hstep (k + d) (by omega)).ahead_step (ih (by omega)) (hnot _ (by omega) (by omega))
  have hend := hlater (j - k) (by omega)
  rw [Nat.add_sub_cancel' (Nat.le_of_lt hkj)] at hend
  exact head_ne_of_ahead hab hend hj

end RoundStep

end Kos
