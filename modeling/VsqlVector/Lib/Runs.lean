/-
# Runs of a transition system

A system is given by its initial states and its steps; `Reaches` collects the
states its runs come through. What holds at the start and is kept by every
step holds in every state of every run (`Reaches.invariant`).

Key definition: `Reaches`.
Key theorems: `Reaches.invariant`, `Reaches.mono`.
-/
import Mathlib.Logic.Relation

namespace VsqlVector

/-- `Reaches init step s`: a run from a state in `init` comes through `s`. -/
inductive Reaches {σ : Type} (init : σ → Prop) (step : σ → σ → Prop) : σ → Prop
  | init {s : σ} : init s → Reaches init step s
  | step {s s' : σ} : Reaches init step s → step s s' → Reaches init step s'

namespace Reaches

variable {σ : Type} {init : σ → Prop} {step step' : σ → σ → Prop} {s : σ}

/-- **The invariant rule.** -/
theorem invariant {I : σ → Prop} (h0 : ∀ s, init s → I s)
    (hstep : ∀ s s', I s → step s s' → I s') (h : Reaches init step s) : I s := by
  induction h with
  | init hi => exact h0 _ hi
  | step _ hst ih => exact hstep _ _ ih hst

/-- A run whose steps all are steps of another system is a run of that system. -/
theorem mono (hsub : ∀ s s', step s s' → step' s s') (h : Reaches init step s) :
    Reaches init step' s := by
  induction h with
  | init hi => exact .init hi
  | step _ hst ih => exact .step ih (hsub _ _ hst)

end Reaches
end VsqlVector
