import Mathlib.Algebra.BigOperators.Group.List.Basic

/-!
# Elements that react on their own

A list of elements and a list of events: each event goes to every element, which changes, or goes
away, or takes no notice of it. The list is then made of its elements: each of them goes through the
events as if it were alone (`foldl_react`), and of the events only those count that concern it
(`react_own`). So events that concern different elements can change places.

`weight` is what an event counts for an element, in any commutative monoid.
-/

namespace Foundations

variable {α ε M : Type*}

/-- An element goes through some events, as long as it is there. -/
def reactAll (react : ε → α → Option α) : List ε → α → Option α
  | [], x => some x
  | e :: es, x => (react e x).bind (reactAll react es)

/-- What the events count for it. -/
def weighAll [AddCommMonoid M] (react : ε → α → Option α) (weight : ε → α → M) : List ε → α → M
  | [], _ => 0
  | e :: es, x => weight e x + ((react e x).map (weighAll react weight es)).getD 0

section

variable [AddCommMonoid M]

theorem sum_map_filterMap (f : α → Option α) (g : α → M) (l : List α) :
    ((l.filterMap f).map g).sum = (l.map fun x ↦ ((f x).map g).getD 0).sum := by
  induction l with
  | nil => rfl
  | cons x l ih =>
    rw [List.map_cons, List.sum_cons, ← ih, List.filterMap_cons]
    cases f x with
    | none => exact (zero_add _).symm
    | some y => rfl

variable (react : ε → α → Option α) (weight : ε → α → M)

/-- A list goes through events as its elements do. -/
theorem foldl_react (es : List ε) (l : List α) (m : M) :
    es.foldl (fun s e ↦ (s.1.filterMap (react e), s.2 + (s.1.map (weight e)).sum)) (l, m)
      = (l.filterMap (reactAll react es), m + (l.map (weighAll react weight es)).sum) := by
  induction es generalizing l m with
  | nil => simp [reactAll, weighAll]
  | cons e es ih =>
    rw [List.foldl_cons, ih, List.filterMap_filterMap, sum_map_filterMap, add_assoc,
      ← List.sum_map_add]
    rfl

/-- If an event that does not concern an element leaves it alone, and what concerns it stays the
same, then the events that concern it are all that counts for it. -/
theorem react_own (concerns : α → ε → Bool)
    (hother : ∀ e x, concerns x e = false → react e x = some x ∧ weight e x = 0)
    (hkeep : ∀ e x y, react e x = some y → concerns y = concerns x) (es : List ε) (x : α) :
    reactAll react es x = reactAll react (es.filter (concerns x)) x ∧
      weighAll react weight es x = weighAll react weight (es.filter (concerns x)) x := by
  induction es generalizing x with
  | nil => exact ⟨rfl, rfl⟩
  | cons e es ih =>
    rw [reactAll, weighAll]
    cases he : concerns x e with
    | false =>
      obtain ⟨hreact, hweight⟩ := hother e x he
      rw [List.filter_cons_of_neg (by rw [he]; decide), hreact, hweight, zero_add]
      exact ih x
    | true =>
      rw [List.filter_cons_of_pos he, reactAll, weighAll]
      cases hreact : react e x with
      | none => exact ⟨rfl, rfl⟩
      | some y =>
        obtain ⟨hall, hweights⟩ := ih y
        rw [hkeep e x y hreact] at hall hweights
        refine ⟨hall, ?_⟩
        rw [Option.map_some, Option.map_some, Option.getD_some, Option.getD_some, hweights]

end

end Foundations
