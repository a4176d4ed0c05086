import Mathlib.Tactic

/-!
# Updating one element of a list

`modifyFirst p f l` applies `f` to the first element of `l` that satisfies `p`: the update of a
record that a search from the front of a linked list has found. What the update does is read off
`find?`, the search itself.

`findUntil` is a search that may give up.
-/

namespace Foundations

variable {α β : Type}

def modifyFirst (p : α → Bool) (f : α → α) : List α → List α
  | [] => []
  | x :: l => if p x then f x :: l else x :: modifyFirst p f l

@[simp] theorem length_modifyFirst (p : α → Bool) (f : α → α) (l : List α) :
    (modifyFirst p f l).length = l.length := by
  induction l with
  | nil => rfl
  | cons x l ih =>
    rw [modifyFirst]
    split
    · rfl
    · rw [List.length_cons, ih, List.length_cons]

/-- Two updates of the same element are one. -/
theorem modifyFirst_modifyFirst {p : α → Bool} {f g : α → α} (hf : ∀ x, p x = true → p (f x) = true)
    (l : List α) : modifyFirst p g (modifyFirst p f l) = modifyFirst p (fun x ↦ g (f x)) l := by
  induction l with
  | nil => rfl
  | cons x l ih =>
    by_cases hx : p x = true
    · rw [modifyFirst, if_pos hx, modifyFirst, if_pos (hf x hx), modifyFirst, if_pos hx]
    · rw [modifyFirst, if_neg hx, modifyFirst, if_neg hx, ih, modifyFirst, if_neg hx]

theorem modifyFirst_of_find?_eq_none {p : α → Bool} {f : α → α} {l : List α}
    (h : l.find? p = none) : modifyFirst p f l = l := by
  induction l with
  | nil => rfl
  | cons x l ih =>
    rw [List.find?_cons] at h
    split at h
    · exact nomatch h
    · next hx => rw [modifyFirst, hx, ih h]; rfl

/-- The search finds the updated element where it found the old one. -/
theorem find?_modifyFirst_self {p : α → Bool} {f : α → α} {l : List α} {x : α}
    (hx : l.find? p = some x) (hf : p (f x) = true) : (modifyFirst p f l).find? p = some (f x) := by
  induction l with
  | nil => exact nomatch hx
  | cons z l ih =>
    rw [List.find?_cons] at hx
    rw [modifyFirst]
    split at hx
    · next hz =>
      cases hx
      rw [if_pos hz, List.find?_cons, hf]
    · next hz =>
      rw [hz, if_neg Bool.false_ne_true, List.find?_cons, hz]
      exact ih hx

/-- An element of the updated list is old, or it is the update of the one that was found. -/
theorem mem_modifyFirst {p : α → Bool} {f : α → α} {l : List α} {x y : α}
    (hx : l.find? p = some x) (hy : y ∈ modifyFirst p f l) : y = f x ∨ y ∈ l := by
  induction l with
  | nil => exact nomatch hx
  | cons z l ih =>
    rw [List.find?_cons] at hx
    rw [modifyFirst] at hy
    split at hx
    · next hz =>
      rw [hz, if_pos rfl] at hy
      cases hx
      exact (List.mem_cons.mp hy).imp_right (List.mem_cons_of_mem _)
    · next hz =>
      rw [hz, if_neg Bool.false_ne_true] at hy
      rcases List.mem_cons.mp hy with rfl | hy
      · exact Or.inr List.mem_cons_self
      · exact (ih hx hy).imp_right (List.mem_cons_of_mem _)

/-- Without a search that succeeds, too, an element is old or an update. -/
theorem exists_of_mem_modifyFirst {p : α → Bool} {f : α → α} {l : List α} {y : α}
    (hy : y ∈ modifyFirst p f l) : ∃ x ∈ l, y = x ∨ y = f x := by
  cases hx : l.find? p with
  | none =>
    rw [modifyFirst_of_find?_eq_none hx] at hy
    exact ⟨y, hy, Or.inl rfl⟩
  | some x =>
    rcases mem_modifyFirst hx hy with rfl | hy
    · exact ⟨x, List.mem_of_find?_eq_some hx, Or.inr rfl⟩
    · exact ⟨y, hy, Or.inl rfl⟩

theorem apply_mem_modifyFirst {p : α → Bool} {f : α → α} {l : List α} {x : α}
    (hx : l.find? p = some x) : f x ∈ modifyFirst p f l := by
  induction l with
  | nil => exact nomatch hx
  | cons z l ih =>
    rw [List.find?_cons] at hx
    rw [modifyFirst]
    split at hx
    · next hz => cases hx; rw [if_pos hz]; exact List.mem_cons_self
    · next hz => rw [hz, if_neg Bool.false_ne_true]; exact List.mem_cons_of_mem _ (ih hx)

/-- What the update does not match stays. -/
theorem mem_modifyFirst_of_not {p : α → Bool} {f : α → α} {l : List α} {y : α} (hy : y ∈ l)
    (hp : p y = false) : y ∈ modifyFirst p f l := by
  induction l with
  | nil => exact nomatch hy
  | cons z l ih =>
    rw [modifyFirst]
    rcases List.mem_cons.mp hy with rfl | hy
    · rw [hp, if_neg Bool.false_ne_true]
      exact List.mem_cons_self
    · split
      · exact List.mem_cons_of_mem _ hy
      · exact List.mem_cons_of_mem _ (ih hy)

/-- A projection that the update respects is unchanged as a list. -/
theorem map_modifyFirst {p : α → Bool} {f : α → α} (g : α → β) (hg : ∀ x, g (f x) = g x)
    (l : List α) : (modifyFirst p f l).map g = l.map g := by
  induction l with
  | nil => rfl
  | cons x l ih =>
    rw [modifyFirst]
    split
    · rw [List.map_cons, List.map_cons, hg]
    · rw [List.map_cons, List.map_cons, ih]

/-- A map that carries the test and the change with it. -/
theorem map_modifyFirst_comm {p : α → Bool} {q : β → Bool} {f : α → α} {f' : β → β} (g : α → β)
    (hp : ∀ x, q (g x) = p x) (hf : ∀ x, g (f x) = f' (g x)) (l : List α) :
    (modifyFirst p f l).map g = modifyFirst q f' (l.map g) := by
  induction l with
  | nil => rfl
  | cons x l ih =>
    rw [List.map_cons, modifyFirst, modifyFirst, hp]
    cases p x with
    | true => exact congrArg (· :: l.map g) (hf x)
    | false => exact congrArg (g x :: ·) ih

/-- Only the element that was found can change its contribution to a count. -/
theorem countP_modifyFirst {p q : α → Bool} {f : α → α} {l : List α} {x : α}
    (hx : l.find? p = some x) :
    (modifyFirst p f l).countP q + (if q x then 1 else 0)
      = l.countP q + if q (f x) then 1 else 0 := by
  induction l with
  | nil => exact nomatch hx
  | cons z l ih =>
    rw [List.find?_cons] at hx
    rw [modifyFirst]
    split at hx
    · next hz =>
      cases hx
      rw [if_pos hz, List.countP_cons, List.countP_cons]
      omega
    · next hz =>
      have hrest := ih hx
      rw [hz, if_neg Bool.false_ne_true, List.countP_cons, List.countP_cons]
      omega

/-- The count of a list is that of the list without the first match and of the match. -/
theorem countP_eraseP {p q : α → Bool} {l : List α} {x : α} (hx : l.find? p = some x) :
    (l.eraseP p).countP q + (if q x then 1 else 0) = l.countP q := by
  induction l with
  | nil => exact nomatch hx
  | cons z l ih =>
    rw [List.find?_cons] at hx
    rw [List.eraseP_cons]
    split at hx
    · next hz => cases hx; rw [hz, cond_true, List.countP_cons]
    · next hz =>
      have hrest := ih hx
      rw [hz, cond_false, List.countP_cons, List.countP_cons]
      omega

/-- Where a key is not repeated, the search for the key of an element finds that element. -/
theorem find?_eq_of_nodup [DecidableEq β] {g : α → β} {l : List α} (hl : (l.map g).Nodup) {x : α}
    (hx : x ∈ l) : l.find? (fun y ↦ g y = g x) = some x := by
  induction l with
  | nil => exact nomatch hx
  | cons z l ih =>
    rw [List.map_cons, List.nodup_cons] at hl
    rw [List.find?_cons]
    rcases List.mem_cons.mp hx with rfl | hx
    · simp
    · have hne : ¬ g z = g x := fun h ↦ hl.1 (h ▸ List.mem_map_of_mem hx)
      simp only [hne, decide_false]
      exact ih hl.2 hx

/-! ## Lists without repeated keys -/

/-- In a list without repeated keys the update concerns one element, and only that one. -/
theorem mem_modifyFirst_of_nodup {g : α → β} {p : α → Bool} {f : α → α} {l : List α} {x y : α}
    (hl : (l.map g).Nodup) (hx : l.find? p = some x) (hy : y ∈ modifyFirst p f l) :
    y = f x ∨ y ∈ l ∧ g y ≠ g x := by
  induction l with
  | nil => exact nomatch hx
  | cons z l ih =>
    rw [List.map_cons, List.nodup_cons] at hl
    rw [List.find?_cons] at hx
    rw [modifyFirst] at hy
    split at hx
    · next hz =>
      rw [hz, if_pos rfl] at hy
      cases hx
      refine (List.mem_cons.mp hy).imp_right fun hy ↦ ⟨List.mem_cons_of_mem _ hy, fun h ↦ ?_⟩
      exact hl.1 (h ▸ List.mem_map_of_mem hy)
    · next hz =>
      rw [hz, if_neg Bool.false_ne_true] at hy
      rcases List.mem_cons.mp hy with rfl | hy
      · refine Or.inr ⟨List.mem_cons_self, fun h ↦ ?_⟩
        exact hl.1 (h ▸ List.mem_map_of_mem (List.mem_of_find?_eq_some hx))
      · exact (ih hl.2 hx hy).imp_right fun h ↦ ⟨List.mem_cons_of_mem _ h.1, h.2⟩

/-- What is left after the first match is removed has other keys. -/
theorem key_ne_of_mem_eraseP {g : α → β} {p : α → Bool} {l : List α} {x y : α}
    (hl : (l.map g).Nodup) (hx : l.find? p = some x) (hy : y ∈ l.eraseP p) : g y ≠ g x := by
  induction l with
  | nil => exact nomatch hx
  | cons z l ih =>
    rw [List.map_cons, List.nodup_cons] at hl
    rw [List.find?_cons] at hx
    rw [List.eraseP_cons] at hy
    split at hx
    · next hz =>
      rw [hz, cond_true] at hy
      cases hx
      exact fun h ↦ hl.1 (h ▸ List.mem_map_of_mem hy)
    · next hz =>
      rw [hz, cond_false] at hy
      rcases List.mem_cons.mp hy with rfl | hy
      · exact fun h ↦ hl.1 (h ▸ List.mem_map_of_mem (List.mem_of_find?_eq_some hx))
      · exact ih hl.2 hx hy

/-- Where keys are not repeated, the first element with a key is the only one. -/
theorem eraseP_eq_filter [DecidableEq β] {g : α → β} {l : List α} (hl : (l.map g).Nodup) (b : β) :
    l.eraseP (fun x ↦ g x = b) = l.filter fun x ↦ g x ≠ b := by
  induction l with
  | nil => rfl
  | cons z l ih =>
    rw [List.map_cons, List.nodup_cons] at hl
    by_cases hz : g z = b
    · have hrest : ∀ x ∈ l, decide (g x ≠ b) = true := fun x hx ↦
        decide_eq_true fun hgx ↦ hl.1 (hz.trans hgx.symm ▸ List.mem_map_of_mem hx)
      rw [List.eraseP_cons_of_pos (by simp [hz]), List.filter_cons_of_neg (by simp [hz]),
        List.filter_eq_self.mpr hrest]
    · rw [List.eraseP_cons_of_neg (by simp [hz]), List.filter_cons_of_pos (by simp [hz]), ih hl.2]

/-- A search that finds another element finds it still. -/
theorem find?_eraseP {p q : α → Bool} {l : List α} {x y : α} (hx : l.find? p = some x)
    (hy : l.find? q = some y) (hne : y ≠ x) : (l.eraseP p).find? q = some y := by
  induction l with
  | nil => exact nomatch hx
  | cons z l ih =>
    rw [List.find?_cons] at hx hy
    rw [List.eraseP_cons]
    split at hx
    · next hz =>
      cases hx
      rw [hz, cond_true]
      split at hy
      · exact absurd (Option.some.inj hy).symm hne
      · exact hy
    · next hz =>
      rw [hz, cond_false, List.find?_cons]
      split at hy
      · exact hy
      · exact ih hx hy

/-- Two searches find one element; its update by the first is found by the second. -/
theorem find?_modifyFirst_of_both {p q : α → Bool} {f : α → α} {l : List α} {x : α}
    (hf : ∀ y, q (f y) = q y) (hp : l.find? p = some x) (hq : l.find? q = some x) :
    (modifyFirst p f l).find? q = some (f x) := by
  induction l with
  | nil => exact nomatch hp
  | cons z l ih =>
    rw [List.find?_cons] at hp hq
    rw [modifyFirst]
    split at hp
    · next hz =>
      cases hp
      rw [if_pos hz, List.find?_cons, hf]
      split at hq
      · rfl
      · next hqz => rw [List.find?_some hq] at hqz; exact nomatch hqz
    · next hz =>
      rw [hz, if_neg Bool.false_ne_true, List.find?_cons]
      split at hq
      · cases hq
        rw [List.find?_some hp] at hz
        exact nomatch hz
      · exact ih hp hq

/-- A search for something else than what is updated finds what it found. -/
theorem find?_modifyFirst_of_not {p q : α → Bool} {f : α → α} {l : List α} {x : α}
    (hf : ∀ y, q (f y) = q y) (hq : l.find? q = some x) (hp : p x = false) :
    (modifyFirst p f l).find? q = some x := by
  induction l with
  | nil => exact nomatch hq
  | cons z l ih =>
    rw [List.find?_cons] at hq
    rw [modifyFirst]
    split at hq
    · next hqz =>
      cases hq
      rw [hp, if_neg Bool.false_ne_true, List.find?_cons, hqz]
    · next hqz =>
      split
      · rw [List.find?_cons, hf, hqz]
        exact hq
      · rw [List.find?_cons, hqz]
        exact ih hq

/-- A list of distinct numbers below `n` is no longer than `n`. -/
theorem length_le_of_nodup_lt {l : List ℕ} {n : ℕ} (hl : l.Nodup) (hlt : ∀ x ∈ l, x < n) :
    l.length ≤ n := by
  have hsub : l.toFinset ⊆ Finset.range n := fun x hx ↦
    Finset.mem_range.mpr (hlt x (List.mem_toFinset.mp hx))
  calc l.length = l.toFinset.card := (List.toFinset_card_of_nodup hl).symm
    _ ≤ (Finset.range n).card := Finset.card_le_card hsub
    _ = n := Finset.card_range n

/-! ## Giving up -/

/-- The search for the first element with `p`, which gives up at an element with `stop`. -/
def findUntil (stop p : α → Bool) : List α → Option α
  | [] => none
  | x :: l => if stop x then none else if p x then some x else findUntil stop p l

theorem findUntil_eq_find? {stop p : α → Bool} {l : List α} (h : ∀ x ∈ l, stop x = false) :
    findUntil stop p l = l.find? p := by
  induction l with
  | nil => rfl
  | cons x l ih =>
    obtain ⟨hx, hl⟩ := List.forall_mem_cons.mp h
    rw [findUntil, hx, if_neg Bool.false_ne_true, List.find?_cons, ih hl]
    cases p x <;> rfl

theorem findUntil_some {stop p : α → Bool} {l : List α} {x : α}
    (h : findUntil stop p l = some x) : p x = true := by
  induction l with
  | nil => exact nomatch h
  | cons y l ih =>
    rw [findUntil] at h
    split_ifs at h with hstop hp
    · cases h
      exact hp
    · exact ih h

/-- The search agrees with a search for `q` if the first element that concerns either of them
satisfies both, or ends the search where there is nothing to be found. -/
theorem findUntil_eq_find?_iff {stop p q : α → Bool} {l : List α} :
    findUntil stop p l = l.find? q ↔
      ∀ x, l.find? (fun x ↦ stop x || p x || q x) = some x →
        (stop x = false ∧ p x = true ∧ q x = true) ∨ (stop x = true ∧ l.find? q = none) := by
  induction l with
  | nil => exact iff_of_true rfl fun x h ↦ nomatch h
  | cons x l ih =>
    by_cases hx : (stop x || p x || q x) = true
    · -- the searches end at `x`, or one of them does
      rw [List.find?_cons_of_pos (p := fun x ↦ stop x || p x || q x) hx, findUntil]
      simp only [Option.some.injEq, forall_eq']
      cases hstop : stop x with
      | true =>
        rw [if_pos rfl, eq_comm]
        simp
      | false =>
        rw [if_neg Bool.false_ne_true]
        cases hp : p x with
        | true =>
          rw [if_pos rfl]
          cases hq : q x with
          | true => simp [List.find?_cons_of_pos hq]
          | false =>
            refine iff_of_false (fun h ↦ ?_) (by simp)
            exact nomatch hq.symm.trans (List.find?_some h.symm)
        | false =>
          have hq : q x = true := by rwa [hstop, hp, Bool.false_or, Bool.false_or] at hx
          rw [if_neg Bool.false_ne_true, List.find?_cons_of_pos hq]
          refine iff_of_false (fun h ↦ ?_) (by simp)
          exact nomatch hp.symm.trans (findUntil_some h)
    · rw [List.find?_cons_of_neg (p := fun x ↦ stop x || p x || q x) hx, findUntil]
      simp only [Bool.or_eq_true, not_or] at hx
      obtain ⟨⟨hstop, hp⟩, hq⟩ := hx
      rw [if_neg hstop, if_neg hp, List.find?_cons_of_neg hq]
      exact ih

end Foundations
