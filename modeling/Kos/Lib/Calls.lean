import Mathlib.Tactic.Common

/-!
# Calls that return a result

A component whose calls always return is a function that gives the result of a call and the state after it. `runCalls` makes a list of
calls; two components answer alike when a relation between their states is kept by every call that both answer with the same result.
-/

namespace Kos

variable {σ τ α β : Type*}

/-- The results of the calls, in order, and the state after them. -/
def runCalls (call : σ → α → β × σ) : σ → List α → List β × σ
  | s, [] => ([], s)
  | s, a :: as =>
    let (b, s) := call s a
    let (bs, s) := runCalls call s as
    (b :: bs, s)

/-- Two components with related states give the same results and end in related states, if each call does. -/
theorem runCalls_sim {call : σ → α → β × σ} {call' : τ → α → β × τ} (R : σ → τ → Prop)
    (hstep : ∀ s t a, R s t → (call s a).1 = (call' t a).1 ∧ R (call s a).2 (call' t a).2) (as : List α) {s : σ} {t : τ}
    (h : R s t) : (runCalls call s as).1 = (runCalls call' t as).1 ∧ R (runCalls call s as).2 (runCalls call' t as).2 := by
  induction as generalizing s t with
  | nil => exact ⟨rfl, h⟩
  | cons a as ih =>
    obtain ⟨hresult, hnext⟩ := hstep s t a h
    obtain ⟨hresults, hlast⟩ := ih hnext
    exact ⟨congrArg₂ List.cons hresult hresults, hlast⟩

end Kos
