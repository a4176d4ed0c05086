import Mathlib.Logic.Relation

/-!
# Transition systems

Runs of a system are chains of steps. An invariant is proved for one step; if the step may rely on
something that is known of the whole history, it is enough that a good history has good beginnings.
-/

namespace Foundations

open Relation

variable {σ : Type} {Step : σ → σ → Prop}

/-- An invariant that every step keeps, as long as the history is good. -/
theorem invariant_of_history {G I : σ → Prop} {s s' : σ} (hrun : ReflTransGen Step s s')
    (hgood : ∀ s s', Step s s' → G s' → G s)
    (hstep : ∀ s s', Step s s' → G s' → I s → I s') (hg : G s') (hinv : I s) :
    I s' := by
  induction hrun with
  | refl => exact hinv
  | tail _ h ih => exact hstep _ _ h hg (ih (hgood _ _ h hg))

theorem invariant_of_step {I : σ → Prop} {s s' : σ} (hrun : ReflTransGen Step s s')
    (hstep : ∀ s s', Step s s' → I s → I s') (hinv : I s) : I s' := by
  induction hrun with
  | refl => exact hinv
  | tail _ h ih => exact hstep _ _ h ih

end Foundations
