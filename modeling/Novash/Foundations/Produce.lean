import Mathlib.Tactic

/-!
# Asking again and again

`produce next size hsize s` is what a partial function yields when it is asked again from wherever
it has arrived, until it has nothing to give. That this ends is due to a size that every answer
makes smaller.
-/

namespace Foundations

variable {σ α : Type} {next : σ → Option (α × σ)} {size : σ → ℕ}
  {hsize : ∀ {s a s'}, next s = some (a, s') → size s' < size s}

def produce (next : σ → Option (α × σ)) (size : σ → ℕ)
    (hsize : ∀ {s a s'}, next s = some (a, s') → size s' < size s) (s : σ) : List α :=
  match _h : next s with
  | none => []
  | some (a, s') => a :: produce next size hsize s'
termination_by size s
decreasing_by exact hsize _h

theorem produce_of_none {s : σ} (h : next s = none) : produce next size hsize s = [] := by
  rw [produce]
  split
  · rfl
  · next hsome => cases h.symm.trans hsome

theorem produce_of_some {s s' : σ} {a : α} (h : next s = some (a, s')) :
    produce next size hsize s = a :: produce next size hsize s' := by
  rw [produce]
  split
  · next hnone => cases h.symm.trans hnone
  · next hsome =>
    cases h.symm.trans hsome
    rfl

/-- Everything produced is an answer. -/
theorem exists_of_mem_produce {s : σ} {a : α} (ha : a ∈ produce next size hsize s) :
    ∃ s₁ s₂, next s₁ = some (a, s₂) := by
  fun_induction produce next size hsize s with
  | case1 => exact absurd ha List.not_mem_nil
  | case2 s a' s' h ih =>
    rcases List.mem_cons.mp ha with rfl | ha
    · exact ⟨s, s', h⟩
    · exact ih ha

end Foundations
