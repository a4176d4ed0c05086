import Mathlib.Tactic

/-!
# Arrays that grow

An array has a length, which counts its elements, and a capacity, the number of its cells; a cell
that was never written is `none`. Pushing an element doubles the capacity where no cell is left, and
what the new cells hold is not known. `arrput` counts what it pushes, and `arrpushnc` does not: it
writes a sentinel behind the elements.

`visitUntil` is a loop that knows nothing of the length: it goes on until an element stops it, and
has no result once it reads a cell that was not written. Behind a sentinel it has visited the
elements; without one it leaves them (`visitUntil_arrpushnc`, `visitUntil_eq_none`).
-/

namespace Foundations

variable {α : Type}

/-- The elements are written; `NULL` is the array without cells. -/
structure GrowArray (α : Type) where
  length : ℕ
  cells : List (Option α)
  written : ∀ i < length, ∃ a, cells[i]? = some (some a)

namespace GrowArray

def null : GrowArray α := ⟨0, [], fun _ h ↦ absurd h (Nat.not_lt_zero _)⟩

def capacity (a : GrowArray α) : ℕ := a.cells.length

/-- The capacity for at least `minCap` cells: at least twice the old one, and at least 4. -/
def newCapacity (cap minCap : ℕ) : ℕ :=
  if minCap ≤ cap then cap
  else if minCap < 2 * cap then 2 * cap
  else if minCap < 4 then 4
  else minCap

theorem le_newCapacity (cap minCap : ℕ) : minCap ≤ newCapacity cap minCap := by
  unfold newCapacity
  split_ifs <;> omega

/-- Room for one more element. The new cells are not written. -/
def maybeGrow (a : GrowArray α) : GrowArray α :=
  if a.cells = [] ∨ a.length + 1 > a.capacity then
    { length := a.length
      cells := a.cells
        ++ List.replicate (newCapacity a.capacity (a.length + 1) - a.capacity) none
      written := fun i hi ↦ by
        obtain ⟨x, hx⟩ := a.written i hi
        exact ⟨x, by rw [List.getElem?_append_left (List.getElem?_eq_some_iff.mp hx).1, hx]⟩ }
  else a

/-- Write one cell; the elements stay written. -/
def write (a : GrowArray α) (i : ℕ) (x : α) : GrowArray α where
  length := a.length
  cells := a.cells.set i (some x)
  written j hj := by
    obtain ⟨y, hy⟩ := a.written j hj
    have hlt := (List.getElem?_eq_some_iff.mp hy).1
    by_cases hij : i = j
    · exact ⟨x, by rw [hij, List.getElem?_set_self hlt]⟩
    · exact ⟨y, by rw [List.getElem?_set_ne hij, hy]⟩

theorem length_lt_capacity_maybeGrow (a : GrowArray α) :
    a.maybeGrow.length < a.maybeGrow.capacity := by
  have hle := le_newCapacity a.capacity (a.length + 1)
  rw [maybeGrow]
  split
  · change a.length < (a.cells ++ List.replicate _ none).length
    rw [List.length_append, List.length_replicate]
    change a.length < a.capacity + (newCapacity a.capacity (a.length + 1) - a.capacity)
    omega
  · next hfull =>
    rw [not_or, not_lt] at hfull
    exact hfull.2

/-- Write the cell behind the elements without counting it. -/
def arrpushnc (a : GrowArray α) (x : α) : GrowArray α := a.maybeGrow.write a.maybeGrow.length x

/-- Write the cell behind the elements and count it. -/
def arrput (a : GrowArray α) (x : α) : GrowArray α where
  length := a.maybeGrow.length + 1
  cells := (a.arrpushnc x).cells
  written i hi := by
    by_cases hlast : i = a.maybeGrow.length
    · subst hlast
      exact ⟨x, List.getElem?_set_self a.length_lt_capacity_maybeGrow⟩
    · exact (a.arrpushnc x).written i (by change i < a.maybeGrow.length; omega)

/-- The elements of the array. -/
def elements (a : GrowArray α) : List α := (a.cells.take a.length).filterMap id

/-! ## What the cells hold -/

/-- The elements are these, and the other cells are not written. -/
structure Holds (a : GrowArray α) (xs : List α) : Prop where
  length : a.length = xs.length
  cells : ∃ n, a.cells = xs.map some ++ List.replicate n none

variable {a : GrowArray α} {xs : List α}

theorem holds_null : (null : GrowArray α).Holds [] := ⟨rfl, 0, rfl⟩

theorem Holds.elements_eq (h : a.Holds xs) : a.elements = xs := by
  obtain ⟨n, hcells⟩ := h.cells
  rw [elements, hcells, h.length, List.take_left' (List.length_map some)]
  simp

/-- Growing leaves a cell that is not written behind the elements. -/
theorem Holds.maybeGrow (h : a.Holds xs) : a.maybeGrow.length = xs.length ∧
    ∃ n, a.maybeGrow.cells = xs.map some ++ none :: List.replicate n none := by
  obtain ⟨n, hcells⟩ := h.cells
  have hroom := a.length_lt_capacity_maybeGrow
  have hlength : a.maybeGrow.length = xs.length := by
    rw [GrowArray.maybeGrow]
    split <;> exact h.length
  obtain ⟨m, hm⟩ : ∃ m, a.maybeGrow.cells = xs.map some ++ List.replicate m none := by
    rw [GrowArray.maybeGrow]
    split
    · refine ⟨n + (newCapacity a.capacity (a.length + 1) - a.capacity), ?_⟩
      simp only [hcells, List.append_assoc, List.replicate_append_replicate]
    · exact ⟨n, hcells⟩
  refine ⟨hlength, m - 1, ?_⟩
  rw [capacity, hm, hlength, List.length_append, List.length_map, List.length_replicate] at hroom
  rw [hm, ← List.replicate_succ]
  congr 2
  omega

theorem Holds.cells_arrpushnc (h : a.Holds xs) (x : α) :
    ∃ n, (a.arrpushnc x).cells = xs.map some ++ some x :: List.replicate n none := by
  obtain ⟨hlength, n, hcells⟩ := h.maybeGrow
  refine ⟨n, ?_⟩
  change a.maybeGrow.cells.set a.maybeGrow.length (some x) = _
  have hlen : (xs.map some).length = xs.length := List.length_map some
  rw [hlength, hcells, List.set_append_right _ _ hlen.le, hlen, Nat.sub_self, List.set_cons_zero]

theorem Holds.arrput (h : a.Holds xs) (x : α) : (a.arrput x).Holds (xs ++ [x]) := by
  obtain ⟨hlength, -⟩ := h.maybeGrow
  obtain ⟨n, hcells⟩ := h.cells_arrpushnc x
  refine ⟨by rw [List.length_append, ← hlength]; rfl, n, ?_⟩
  change (a.arrpushnc x).cells = _
  rw [hcells, List.map_append, List.append_assoc]
  rfl

/-- The elements that are pushed one after the other are the elements of the array. -/
theorem Holds.foldl_arrput (h : a.Holds xs) (ys : List α) :
    (ys.foldl GrowArray.arrput a).Holds (xs ++ ys) := by
  induction ys generalizing a xs with
  | nil => rwa [List.append_nil]
  | cons y ys ih =>
    have hrest := ih (h.arrput y)
    rwa [List.append_assoc] at hrest

/-- A sentinel is not an element. -/
theorem Holds.elements_arrpushnc (h : a.Holds xs) (x : α) : (a.arrpushnc x).elements = xs := by
  obtain ⟨hlength, -⟩ := h.maybeGrow
  obtain ⟨n, hcells⟩ := h.cells_arrpushnc x
  have hlength' : (a.arrpushnc x).length = xs.length := hlength
  rw [elements, hcells, hlength', List.take_left' (List.length_map some)]
  simp

theorem cells_ne_nil_of_holds (h : a.Holds xs) (hxs : xs ≠ []) : a.cells ≠ [] := by
  obtain ⟨n, hcells⟩ := h.cells
  simp [hcells, hxs]

theorem cells_arrpushnc_ne_nil (a : GrowArray α) (x : α) : (a.arrpushnc x).cells ≠ [] := by
  have hroom := a.length_lt_capacity_maybeGrow
  rw [arrpushnc, write, ne_eq, List.set_eq_nil_iff]
  intro hnil
  rw [capacity, hnil] at hroom
  exact absurd hroom (Nat.not_lt_zero _)

/-! ## Loops that look for a sentinel -/

/-- The elements in front of the first one that stops the loop; nothing once a cell is read that was
not written, or is not there. -/
def visitUntil (stop : α → Bool) : List (Option α) → Option (List α)
  | [] => none
  | none :: _ => none
  | some x :: cells => if stop x then some [] else (visitUntil stop cells).map (x :: ·)

variable {stop : α → Bool}

theorem visitUntil_append (hxs : ∀ x ∈ xs, stop x = false) (cells : List (Option α)) :
    visitUntil stop (xs.map some ++ cells) = (visitUntil stop cells).map (xs ++ ·) := by
  induction xs with
  | nil => simp
  | cons x xs ih =>
    obtain ⟨hx, hxs⟩ := List.forall_mem_cons.mp hxs
    rw [List.map_cons, List.cons_append, visitUntil, hx, ih hxs, if_neg Bool.false_ne_true,
      Option.map_map]
    rfl

/-- Behind the elements stands the sentinel. -/
theorem visitUntil_arrpushnc (h : a.Holds xs) (hxs : ∀ x ∈ xs, stop x = false) {x : α}
    (hx : stop x = true) : visitUntil stop (a.arrpushnc x).cells = some xs := by
  obtain ⟨n, hcells⟩ := h.cells_arrpushnc x
  rw [hcells, visitUntil_append hxs, visitUntil, if_pos hx, Option.map_some, List.append_nil]

/-- Without a sentinel the loop reads what was not written. -/
theorem visitUntil_eq_none (h : a.Holds xs) (hxs : ∀ x ∈ xs, stop x = false) :
    visitUntil stop a.cells = none := by
  obtain ⟨n, hcells⟩ := h.cells
  rw [hcells, visitUntil_append hxs]
  cases n <;> rfl

end GrowArray

end Foundations
