import Mathlib.Tactic

/-!
# Buffers of a fixed size

A buffer has as many cells as it was declared with; a cell that was never written is `none`. A write
that would leave the buffer has no result, and neither has a read that comes to a cell that was not
written, or to the end of the buffer, before it finds what it looks for.

What is written from the first cell on without a gap is a prefix of the cells, `StartsWith`. Writing
behind it extends it (`StartsWith.write`), and so does writing over what comes after it: the prefix
may be shorter than what was written.
-/

namespace Foundations

variable {α : Type}

/-- What is cut off before more is appended would be cut off in the end. -/
theorem take_append_take (n : ℕ) (xs ys : List α) :
    (xs.take n ++ ys).take n = (xs ++ ys).take n := by
  rw [List.take_append, List.take_append, List.take_take, min_self, List.length_take]
  congr 2
  omega

structure Buffer (α : Type) (size : ℕ) where
  cells : List (Option α)
  length_cells : cells.length = size

namespace Buffer

variable {size : ℕ}

/-- No cell is written. -/
def blank (size : ℕ) : Buffer α size := ⟨List.replicate size none, List.length_replicate⟩

/-- Every cell holds `a`. -/
def filled (size : ℕ) (a : α) : Buffer α size :=
  ⟨List.replicate size (some a), List.length_replicate⟩

/-- Write the elements one after the other, the first at index `i`. -/
def write (b : Buffer α size) (i : ℕ) (xs : List α) : Option (Buffer α size) :=
  if h : i + xs.length ≤ size then
    some {
      cells := b.cells.take i ++ xs.map some ++ b.cells.drop (i + xs.length)
      length_cells := by
        simp only [List.length_append, List.length_take, List.length_map, List.length_drop,
          b.length_cells]
        omega }
  else none

/-- The elements in front of the first `stop`. -/
def readCells [DecidableEq α] (stop : α) : List (Option α) → Option (List α)
  | [] => none
  | none :: _ => none
  | some a :: cells => if a = stop then some [] else (readCells stop cells).map (a :: ·)

def read [DecidableEq α] (b : Buffer α size) (stop : α) : Option (List α) := readCells stop b.cells

theorem isSome_write_iff {b : Buffer α size} {i : ℕ} {xs : List α} :
    (b.write i xs).isSome = true ↔ i + xs.length ≤ size := by
  unfold write
  split_ifs with h
  · exact iff_of_true rfl h
  · exact iff_of_false Bool.false_ne_true h

/-! ## What the buffer starts with -/

/-- The first cells hold these elements. -/
def StartsWith (b : Buffer α size) (xs : List α) : Prop := xs.map some <+: b.cells

variable {b b' : Buffer α size} {xs ys : List α}

theorem startsWith_nil (b : Buffer α size) : b.StartsWith [] := List.nil_prefix

theorem StartsWith.shorten (h : b.StartsWith xs) (hys : ys <+: xs) : b.StartsWith ys :=
  (hys.map some).trans h

theorem StartsWith.write (h : b.StartsWith xs) (ys : List α)
    (hroom : xs.length + ys.length ≤ size) :
    ∃ b', b.write xs.length ys = some b' ∧ b'.StartsWith (xs ++ ys) := by
  refine ⟨_, dif_pos hroom, ?_⟩
  have htake : b.cells.take xs.length = xs.map some := by
    rw [← List.length_map some]
    exact (List.prefix_iff_eq_take.mp h).symm
  change (xs ++ ys).map some
    <+: b.cells.take xs.length ++ ys.map some ++ b.cells.drop (xs.length + ys.length)
  rw [List.map_append, htake]
  exact List.prefix_append _ _

theorem readCells_append [DecidableEq α] {stop : α} (hstop : stop ∉ xs)
    (cells : List (Option α)) :
    readCells stop (xs.map some ++ some stop :: cells) = some xs := by
  induction xs with
  | nil => exact if_pos rfl
  | cons x xs ih =>
    rw [List.mem_cons, not_or] at hstop
    rw [List.map_cons, List.cons_append, readCells, if_neg (Ne.symm hstop.1), ih hstop.2,
      Option.map_some]

/-- A text that is ended is read back. -/
theorem StartsWith.read [DecidableEq α] {stop : α} (h : b.StartsWith (xs ++ [stop]))
    (hstop : stop ∉ xs) : b.read stop = some xs := by
  obtain ⟨cells, hcells⟩ := h
  rw [List.map_append, List.append_assoc] at hcells
  rw [Buffer.read, ← hcells]
  exact readCells_append hstop cells

/-! ## Buffers without a gap -/

/-- Every cell is written. -/
def Written (b : Buffer α size) : Prop := none ∉ b.cells

theorem written_filled (size : ℕ) (a : α) : (filled size a).Written := by
  simp [Written, filled]

theorem Written.write (h : b.Written) {i : ℕ} (hwrite : b.write i xs = some b') : b'.Written := by
  unfold Buffer.write at hwrite
  split_ifs at hwrite
  cases hwrite
  simp only [Written, List.mem_append, List.mem_map, not_or]
  exact ⟨⟨fun hmem ↦ h (List.mem_of_mem_take hmem), by simp⟩,
    fun hmem ↦ h (List.mem_of_mem_drop hmem)⟩

theorem mem_cells_of_write {i : ℕ} {a : α} (hwrite : b.write i xs = some b') (ha : a ∈ xs) :
    some a ∈ b'.cells := by
  unfold Buffer.write at hwrite
  split_ifs at hwrite
  cases hwrite
  exact List.mem_append_left _ (List.mem_append_right _ (List.mem_map_of_mem ha))

theorem isSome_readCells [DecidableEq α] {stop : α} {cells : List (Option α)}
    (hwritten : none ∉ cells) (hstop : some stop ∈ cells) :
    (readCells stop cells).isSome = true := by
  induction cells with
  | nil => exact absurd hstop List.not_mem_nil
  | cons cell cells ih =>
    cases cell with
    | none => exact absurd List.mem_cons_self hwritten
    | some a =>
      rw [readCells]
      split_ifs with ha
      · rfl
      · rw [Option.isSome_map]
        refine ih (fun hmem ↦ hwritten (List.mem_cons_of_mem _ hmem)) ?_
        exact (List.mem_cons.mp hstop).resolve_left fun heq ↦ ha (Option.some.inj heq).symm

end Buffer

end Foundations
