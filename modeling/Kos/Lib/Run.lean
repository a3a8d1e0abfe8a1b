import Mathlib.Tactic.Common

/-!
# Runs of a partial step function

A component is a state type, a type of calls and a step function that is `none` when the call is not allowed in the state
(or when the program stops there). `Reach` collects the states of the runs whose steps all meet a condition; the condition
`fun _ _ => True` gives all runs.
-/

namespace Kos

/-- The states that runs from `s₀` reach when every call of the run meets `P` in the state it is made in. -/
inductive Reach {σ α : Type*} (step : σ → α → Option σ) (P : σ → α → Prop) (s₀ : σ) : σ → Prop where
  | init : Reach step P s₀ s₀
  | step {s s' : σ} (a : α) : Reach step P s₀ s → P s a → step s a = some s' → Reach step P s₀ s'

namespace Reach

variable {σ α : Type*} {step : σ → α → Option σ} {P Q : σ → α → Prop} {s₀ s s' : σ}

/-- What holds at the start and is kept by every step that meets the condition holds in every state reached. -/
theorem inv (Inv : σ → Prop) (h₀ : Inv s₀) (hs : ∀ s a s', Inv s → P s a → step s a = some s' → Inv s')
    (h : Reach step P s₀ s) : Inv s := by
  induction h with
  | init => exact h₀
  | step a _ hp hstep ih => exact hs _ a _ ih hp hstep

end Reach

/-- The state after the calls of a list, if each of them meets the condition and returns. -/
def runIf {σ α : Type*} (step : σ → α → Option σ) (P : σ → α → Prop) [∀ s a, Decidable (P s a)] (s : σ) : List α → Option σ
  | [] => some s
  | a :: as => if P s a then (step s a).bind fun s' => runIf step P s' as else none

/-- A list of calls that can be made is a run. -/
theorem Reach.runIf {σ α : Type*} {step : σ → α → Option σ} {P : σ → α → Prop} [∀ s a, Decidable (P s a)] {s₀ s s' : σ}
    (h : Reach step P s₀ s) (as : List α) (hrun : runIf step P s as = some s') : Reach step P s₀ s' := by
  induction as generalizing s with
  | nil =>
    cases hrun
    exact h
  | cons a as ih =>
    rw [Kos.runIf] at hrun
    split at hrun
    · rename_i hp
      obtain ⟨s₁, hs₁, hrun⟩ := Option.bind_eq_some_iff.mp hrun
      exact ih (.step a h hp hs₁) hrun
    · cases hrun

end Kos
