import Mathlib.Data.List.DropRight
import Mathlib.Tactic

/-!
# Ring buffers

A ring buffer keeps the last `n` of the elements that are put into it. It is filled from slot 0 on,
and once it is full the oldest element makes room for the newest: `start` is the slot of the oldest
one, and stays 0 until then.

`RingBuffer.Holds` says which list a ring stands for, oldest element first. What is in a slot
outside that list is not looked at, so that a ring may be emptied by its counters alone.
-/

namespace Foundations

/-! ## The last elements of a list -/

section

variable {α : Type*}

theorem length_rtake (l : List α) (n : ℕ) : (l.rtake n).length = min n l.length := by
  rw [List.rtake, List.length_drop]
  omega

theorem rtake_of_length_le {l : List α} {n : ℕ} (h : l.length ≤ n) : l.rtake n = l := by
  rw [List.rtake, Nat.sub_eq_zero_of_le h, List.drop_zero]

/-- What has been dropped already does not count. -/
theorem rtake_rtake_append (l l' : List α) (n : ℕ) :
    (l.rtake n ++ l').rtake n = (l ++ l').rtake n := by
  simp only [List.rtake, List.length_append, List.length_drop, List.drop_append, List.drop_drop]
  congr 2 <;> omega

theorem rtake_rtake (l : List α) (n k : ℕ) : (l.rtake n).rtake k = l.rtake (min n k) := by
  rw [List.rtake, List.rtake, List.rtake, List.drop_drop, List.length_drop]
  congr 1
  omega

/-- The last elements are those of the second part. -/
theorem rtake_append_right (l l' : List α) : (l ++ l').rtake l'.length = l' := by
  rw [List.rtake, List.length_append, Nat.add_sub_cancel, List.drop_left]

theorem rtake_eq_of_suffix {l l' : List α} {n : ℕ} (h : l <:+ l') (hn : l.length = n) :
    l'.rtake n = l := by
  obtain ⟨pre, rfl⟩ := h
  rw [← hn]
  exact rtake_append_right pre l

theorem map_rtake {β : Type*} (f : α → β) (l : List α) (n : ℕ) :
    (l.rtake n).map f = (l.map f).rtake n := by
  rw [List.rtake, List.rtake, List.map_drop, List.length_map]

/-- A good element gives its own image and nothing else, and any other gives something, but not its
image. Then what comes last is the images of the last elements exactly when these are good. -/
theorem rtake_flatMap_eq_iff {β : Type*} {good : α → Prop} {f : α → β} {F : α → List β}
    (l : List α) (hgood : ∀ a ∈ l, good a → F a = [f a])
    (hbad : ∀ a ∈ l, ¬good a → F a ≠ [] ∧ f a ∉ F a) (n : ℕ) :
    (l.flatMap F).rtake n = (l.map f).rtake n ↔ ∀ a ∈ l.rtake n, good a := by
  induction l using List.reverseRecOn generalizing n with
  | nil => simp
  | append_singleton l a ih =>
    have hrest := ih (fun b hb ↦ hgood b (List.mem_append_left _ hb))
      (fun b hb ↦ hbad b (List.mem_append_left _ hb))
    have hlast : a ∈ l ++ [a] := List.mem_append_right _ List.mem_cons_self
    cases n with
    | zero => simp
    | succ n =>
      rw [List.flatMap_append, List.flatMap_singleton, List.map_append, List.map_singleton,
        List.rtake_concat_succ, List.rtake_concat_succ, List.forall_mem_append]
      by_cases ha : good a
      · rw [hgood a hlast ha, List.rtake_concat_succ, List.append_left_inj, hrest n]
        exact (and_iff_left (by simpa using ha)).symm
      · -- the last element that came of `a` is not its image
        obtain ⟨hne, hnot⟩ := hbad a hlast ha
        obtain ⟨bs, b, hF⟩ := (List.eq_nil_or_concat' (F a)).resolve_left hne
        refine iff_of_false (fun heq ↦ ?_) fun h ↦ ha (h.2 a List.mem_cons_self)
        rw [hF, ← List.append_assoc, List.rtake_concat_succ] at heq
        have hb : b = f a := List.singleton_inj.mp (List.append_inj_right' heq rfl)
        exact hnot (hF ▸ hb ▸ List.mem_append_right _ List.mem_cons_self)

end

/-! ## The buffer -/

structure RingBuffer (α : Type*) where
  slots : ℕ → Option α
  count : ℕ
  start : ℕ

namespace RingBuffer

variable {α : Type*} {n : ℕ} {r : RingBuffer α} {l : List α}

/-- Put an element into a ring of `n` slots. -/
def push (n : ℕ) (r : RingBuffer α) (a : α) : RingBuffer α :=
  if r.count < n then
    { r with slots := Function.update r.slots r.count (some a), count := r.count + 1 }
  else
    { r with slots := Function.update r.slots r.start (some a), start := (r.start + 1) % n }

/-- The ring has `n` slots and stands for `l`. -/
structure Holds (n : ℕ) (r : RingBuffer α) (l : List α) : Prop where
  count_eq : r.count = l.length
  length_le : l.length ≤ n
  start_lt : r.start < n
  start_eq : l.length < n → r.start = 0
  slot_eq : ∀ i (hi : i < l.length), r.slots ((r.start + i) % n) = some l[i]

theorem holds_nil (hn : 0 < n) (hcount : r.count = 0) (hstart : r.start = 0) : r.Holds n [] where
  count_eq := hcount
  length_le := Nat.zero_le n
  start_lt := hstart ▸ hn
  start_eq _ := hstart
  slot_eq i hi := absurd hi (Nat.not_lt_zero i)

namespace Holds

/-- A ring stands for one list. -/
theorem unique {l' : List α} (h : r.Holds n l) (h' : r.Holds n l') : l = l' := by
  have hlen : l.length = l'.length := h.count_eq.symm.trans h'.count_eq
  refine List.ext_getElem hlen fun i hi hi' ↦ ?_
  exact Option.some.inj ((h.slot_eq i hi).symm.trans (h'.slot_eq i hi'))

/-- Every slot below the number of elements is in use. -/
theorem slot_of_lt (h : r.Holds n l) {i : ℕ} (hi : i < r.count) : ∃ a, r.slots i = some a := by
  rw [h.count_eq] at hi
  rcases h.length_le.lt_or_eq with hlt | heq
  · have hslot := h.slot_eq i hi
    rw [h.start_eq hlt, Nat.zero_add, Nat.mod_eq_of_lt (hi.trans hlt)] at hslot
    exact ⟨_, hslot⟩
  · -- the way from the oldest element to slot `i`, around the end if need be
    have hslot := h.slot_eq ((i + (n - r.start)) % n) (heq ▸ Nat.mod_lt _ (by omega))
    have hround : (r.start + (i + (n - r.start)) % n) % n = i := by
      have hlt := h.start_lt
      rw [Nat.add_mod_mod, show r.start + (i + (n - r.start)) = i + n by omega,
        Nat.add_mod_right, Nat.mod_eq_of_lt (heq ▸ hi)]
    rw [hround] at hslot
    exact ⟨_, hslot⟩

private theorem push_of_lt (h : r.Holds n l) (hlt : l.length < n) (a : α) :
    (r.push n a).Holds n (l ++ [a]) := by
  have hstart := h.start_eq hlt
  rw [push, if_pos (h.count_eq ▸ hlt)]
  refine ⟨?_, ?_, h.start_lt, fun _ ↦ hstart, fun i hi ↦ ?_⟩
  · rw [List.length_append, h.count_eq]
    rfl
  · rw [List.length_append]
    exact hlt
  · have hi' : i < n := by
      rw [List.length_append, List.length_singleton] at hi
      omega
    dsimp only
    rw [hstart, Nat.zero_add, Nat.mod_eq_of_lt hi', h.count_eq]
    by_cases hlast : i = l.length
    · subst hlast
      rw [Function.update_self, List.getElem_concat_length rfl]
    · have hlt' : i < l.length := by
        rw [List.length_append, List.length_singleton] at hi
        omega
      have hslot := h.slot_eq i hlt'
      rw [hstart, Nat.zero_add, Nat.mod_eq_of_lt hi'] at hslot
      rw [Function.update_of_ne hlast, hslot, List.getElem_append_left hlt']

private theorem push_of_eq (h : r.Holds n l) (heq : l.length = n) (a : α) :
    (r.push n a).Holds n (l.tail ++ [a]) := by
  have hlt := h.start_lt
  have hlen : (l.tail ++ [a]).length = n := by
    rw [List.length_append, List.length_tail, List.length_singleton]
    omega
  rw [push, if_neg (by rw [h.count_eq, heq]; exact lt_irrefl n)]
  refine ⟨h.count_eq.trans (heq.trans hlen.symm), hlen.le, Nat.mod_lt _ (by omega),
    fun h' ↦ absurd h' (by omega), fun i hi ↦ ?_⟩
  dsimp only
  rw [Nat.mod_add_mod, Nat.add_assoc]
  by_cases hlast : i = n - 1
  · -- the slot of the oldest element, once around
    have hround : (r.start + (1 + i)) % n = r.start := by
      rw [hlast, Nat.add_sub_cancel' (by omega), Nat.add_mod_right, Nat.mod_eq_of_lt hlt]
    have htail : l.tail.length = i := by rw [List.length_tail]; omega
    rw [hround, Function.update_self]
    subst htail
    rw [List.getElem_concat_length rfl]
  · have hlt' : i + 1 < l.length := by omega
    have htail : i < l.tail.length := by rw [List.length_tail]; omega
    have hne : (r.start + (1 + i)) % n ≠ r.start := by
      -- two indices less than `n` apart are different slots
      intro hsame
      have hmod := Nat.mod_add_div (r.start + (1 + i)) n
      rw [hsame] at hmod
      have hdvd : 1 + i = n * ((r.start + (1 + i)) / n) := by omega
      rcases Nat.eq_zero_or_pos ((r.start + (1 + i)) / n) with hzero | hpos
      · rw [hzero] at hdvd
        omega
      · have := Nat.le_mul_of_pos_right n hpos
        omega
    rw [Function.update_of_ne hne, Nat.add_comm 1 i, h.slot_eq (i + 1) hlt',
      List.getElem_append_left htail, List.getElem_tail]

/-- A ring is a queue of at most `n` elements. -/
theorem push (h : r.Holds n l) (a : α) : (r.push n a).Holds n ((l ++ [a]).rtake n) := by
  rcases h.length_le.lt_or_eq with hlt | heq
  · rw [rtake_of_length_le (by rw [List.length_append]; exact hlt)]
    exact h.push_of_lt hlt a
  · have htail : (l ++ [a]).rtake n = l.tail ++ [a] := by
      have hpos : 0 < l.length := heq ▸ Nat.zero_lt_of_lt h.start_lt
      rw [List.rtake, List.length_append, heq, List.length_singleton, Nat.add_sub_cancel_left,
        List.drop_append_of_le_length hpos, List.drop_one]
    rw [htail]
    exact h.push_of_eq heq a

/-- What is put in after a list of which the ring keeps the last elements. -/
theorem push_rtake (h : r.Holds n (l.rtake n)) (a : α) :
    (r.push n a).Holds n ((l ++ [a]).rtake n) := by
  rw [← rtake_rtake_append]
  exact h.push a

end Holds

end RingBuffer

end Foundations
