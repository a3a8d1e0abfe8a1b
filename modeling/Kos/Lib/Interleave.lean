import Mathlib.Logic.Relation

/-!
# Code that is interrupted

A program is a list of changes of a state. Between two of them an interrupt can come, as often as it likes, when the state is open for
interrupts: it changes the state, too.
-/

namespace Kos

variable {σ : Type*}

/-- The runs of a program with interrupts. -/
inductive Interleaved (isOpen : σ → Prop) (irq : σ → σ → Prop) : σ → List (σ → σ) → σ → Prop where
  | done (s : σ) : Interleaved isOpen irq s [] s
  | step {s s' : σ} {f : σ → σ} {fs : List (σ → σ)} : Interleaved isOpen irq (f s) fs s' → Interleaved isOpen irq s (f :: fs) s'
  | irq {s s₁ s' : σ} {fs : List (σ → σ)} : isOpen s → irq s s₁ → Interleaved isOpen irq s₁ fs s' → Interleaved isOpen irq s fs s'

/-- The program without interrupts. -/
def runCode (s : σ) (fs : List (σ → σ)) : σ := fs.foldl (fun s f => f s) s

namespace Interleaved

variable {isOpen : σ → Prop} {irq : σ → σ → Prop} {s s' : σ} {fs : List (σ → σ)}

/-- In a state that is closed for interrupts the program goes on. -/
theorem of_closed {f : σ → σ} (h : Interleaved isOpen irq s (f :: fs) s') (hclosed : ¬isOpen s) : Interleaved isOpen irq (f s) fs s' := by
  cases h with
  | irq hopen _ _ => exact absurd hopen hclosed
  | step h => exact h

/-- After the program there are only interrupts. -/
theorem rest (h : Interleaved isOpen irq s [] s') : Relation.ReflTransGen irq s s' := by
  generalize hfs : ([] : List (σ → σ)) = fs at h
  induction h with
  | done s => exact .refl
  | step _ _ => cases hfs
  | irq _ hirq _ ih => exact (ih hfs).head hirq

end Interleaved

end Kos
