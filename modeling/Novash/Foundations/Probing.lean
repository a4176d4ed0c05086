import Mathlib.Data.Fintype.Card
import Mathlib.Data.Nat.ModEq
import Mathlib.Tactic

/-!
# Open addressing

A table of places, of which some are free, and a probing order in which the places are looked at. A
search ends at the first free place; so a place can be found as long as nothing before it is free,
and filling a free place never hides another (`Reaches.mono`, `Stores.insert`).

With steps of `1, 2, 3, …` the probed places are the triangular numbers after the first. Modulo a
power of two they are all different, so that the search comes to every place
(`exists_add_triangle_mod_eq`).
-/

namespace Foundations

/-! ## Triangular steps -/

/-- How far a search has come after `n` steps, of `1`, of `2` and so on up to `n`. -/
def triangle : ℕ → ℕ
  | 0 => 0
  | n + 1 => triangle n + (n + 1)

theorem two_mul_triangle (n : ℕ) : 2 * triangle n = n * (n + 1) := by
  induction n with
  | zero => rfl
  | succ n ih =>
    rw [triangle, mul_add, ih]
    ring

/-- The difference of two triangular numbers is a product of which one factor is odd. -/
private theorem two_mul_triangle_add (i d : ℕ) :
    2 * triangle (i + d) = 2 * triangle i + d * (2 * i + d + 1) := by
  rw [two_mul_triangle, two_mul_triangle]
  ring

theorem eq_of_triangle_modEq {k i j : ℕ} (hi : i < 2 ^ k) (hj : j < 2 ^ k)
    (h : triangle i ≡ triangle j [MOD 2 ^ k]) : i = j := by
  wlog hle : i ≤ j generalizing i j
  · exact (this hj hi h.symm (le_of_not_ge hle)).symm
  obtain ⟨d, rfl⟩ := Nat.exists_eq_add_of_le hle
  have hdvd : 2 ^ (k + 1) ∣ d * (2 * i + d + 1) := by
    have hmul := Nat.ModEq.mul_left' 2 h
    rw [two_mul_triangle_add, ← pow_succ'] at hmul
    have hzero : 2 * triangle i + 0 ≡ 2 * triangle i + d * (2 * i + d + 1) [MOD 2 ^ (k + 1)] := hmul
    exact (Nat.modEq_zero_iff_dvd.mp (Nat.ModEq.add_left_cancel' _ hzero).symm)
  have hlt : 2 ^ (k + 1) = 2 * 2 ^ k := pow_succ' 2 k
  -- the odd factor is prime to the power of two, so all of it divides the other one
  rcases Nat.even_or_odd d with heven | hodd
  · have hcop : Nat.Coprime (2 ^ (k + 1)) (2 * i + d + 1) := by
      refine Nat.Coprime.pow_left _ (Nat.coprime_two_left.mpr ?_)
      exact Even.add_one ((even_two_mul i).add heven)
    have hd := Nat.eq_zero_of_dvd_of_lt (hcop.dvd_of_dvd_mul_right hdvd) (by omega)
    rw [hd, add_zero]
  · have hcop : Nat.Coprime (2 ^ (k + 1)) d :=
      Nat.Coprime.pow_left _ (Nat.coprime_two_left.mpr hodd)
    have hle' := Nat.le_of_dvd (Nat.succ_pos _) (hcop.dvd_of_dvd_mul_left hdvd)
    omega

/-- From any place the triangular steps come to every place, in fewer steps than there are
places. -/
theorem exists_add_triangle_mod_eq (k a : ℕ) {b : ℕ} (hb : b < 2 ^ k) :
    ∃ i < 2 ^ k, (a + triangle i) % 2 ^ k = b := by
  have hpos : 0 < 2 ^ k := Nat.two_pow_pos k
  let f : Fin (2 ^ k) → Fin (2 ^ k) := fun i ↦ ⟨(a + triangle i) % 2 ^ k, Nat.mod_lt _ hpos⟩
  have hinj : Function.Injective f := by
    intro i j hij
    have hmod : a + triangle i ≡ a + triangle j [MOD 2 ^ k] := congrArg Fin.val hij
    exact Fin.ext (eq_of_triangle_modEq i.isLt j.isLt (Nat.ModEq.add_left_cancel' a hmod))
  obtain ⟨i, hi⟩ := Finite.injective_iff_surjective.mp hinj ⟨b, hb⟩
  exact ⟨i, i.isLt, congrArg Fin.val hi⟩

/-! ## Places that a search comes to -/

variable {β : Type*} {free free' : ℕ → Prop} {order : List ℕ} {p : ℕ}

/-- A search in this order comes to the place `p`: nothing before it is free. -/
def Reaches (free : ℕ → Prop) (order : List ℕ) (p : ℕ) : Prop :=
  ∃ before after, order = before ++ p :: after ∧ ∀ q ∈ before, ¬free q

/-- Where fewer places are free, a search comes to more of them. -/
theorem Reaches.mono (h : Reaches free order p) (hsub : ∀ q, free' q → free q) :
    Reaches free' order p := by
  obtain ⟨before, after, rfl, hbefore⟩ := h
  exact ⟨before, after, rfl, fun q hq hfree ↦ hbefore q hq (hsub q hfree)⟩

theorem Reaches.mem (h : Reaches free order p) : p ∈ order := by
  obtain ⟨before, after, rfl, -⟩ := h
  simp

/-- With a free place in the order, the search comes to one. -/
theorem exists_reaches_free [DecidablePred free] (h : ∃ q ∈ order, free q) :
    ∃ p, free p ∧ Reaches free order p := by
  have hsome : (order.find? fun q ↦ decide (free q)).isSome :=
    List.find?_isSome.mpr (by simpa using h)
  obtain ⟨p, hp⟩ := Option.isSome_iff_exists.mp hsome
  obtain ⟨hfree, before, after, rfl, hbefore⟩ := List.find?_eq_some_iff_append.mp hp
  exact ⟨p, of_decide_eq_true hfree, before, after, rfl, fun q hq ↦ by simpa using hbefore q hq⟩

/-- A search that stops with a verdict on the place it comes to, unless it has stopped with the same
one before. -/
theorem Reaches.foldlM_eq {σ : Type*} {look : σ → ℕ → Except β σ} {s : σ} {b : β}
    (h : Reaches free order p) (hp : look s p = .error b)
    (hbefore : ∀ q ∈ order, ¬free q → look s q = .ok s ∨ look s q = .error b) :
    order.foldlM look s = .error b := by
  obtain ⟨before, after, rfl, hfree⟩ := h
  induction before with
  | nil => rw [List.nil_append, List.foldlM_cons, hp]; rfl
  | cons q before ih =>
    rw [List.cons_append, List.foldlM_cons]
    obtain hok | herror := hbefore q (by simp) (hfree q List.mem_cons_self)
    · rw [hok]
      exact ih (fun r hr ↦ hfree r (List.mem_cons_of_mem _ hr))
        fun r hr ↦ hbefore r (List.mem_cons_of_mem _ hr)
    · rw [herror]; rfl

/-! ## Tables -/

section Tables

variable {E : Type*} {place : E → List ℕ} {n : ℕ} {cells : ℕ → Option E} {l : Finset E} {e : E}

/-- A table of `n` cells stores the elements of `l`, each of them once and where a search for it
comes to it; `place e` is the order in which the places for `e` are looked at. -/
structure Stores (place : E → List ℕ) (n : ℕ) (cells : ℕ → Option E) (l : Finset E) : Prop where
  mem : ∀ p e, cells p = some e → p < n ∧ e ∈ l
  inj : ∀ p q e, cells p = some e → cells q = some e → p = q
  reaches : ∀ e ∈ l, ∃ p, cells p = some e ∧ Reaches (cells · = none) (place e) p

theorem stores_empty : Stores place n (fun _ ↦ none) ∅ where
  mem _ _ h := nomatch h
  inj _ _ _ h := nomatch h
  reaches _ h := absurd h (Finset.notMem_empty _)

/-- A table with more cells than elements has a free one. -/
theorem Stores.exists_free (h : Stores place n cells l) (hlt : l.card < n) :
    ∃ p < n, cells p = none := by
  by_contra hnone
  push Not at hnone
  choose f hf using fun p : Fin n ↦ Option.ne_none_iff_exists'.mp (hnone p p.isLt)
  have hinj : Function.Injective fun p : Fin n ↦ (⟨f p, (h.mem p _ (hf p)).2⟩ : l) := by
    intro p q hpq
    have heq : f p = f q := congrArg Subtype.val hpq
    exact Fin.ext (h.inj p q (f p) (hf p) (heq ▸ hf q))
  have hcard := Fintype.card_le_of_injective _ hinj
  rw [Fintype.card_fin, Fintype.card_coe] at hcard
  exact absurd hlt (not_lt.mpr hcard)

/-- So has the order of every element, if it goes through the whole table. -/
theorem Stores.exists_reaches_free (h : Stores place n cells l) (hlt : l.card < n)
    (hplace : ∀ p, p ∈ place e ↔ p < n) :
    ∃ p < n, cells p = none ∧ Reaches (cells · = none) (place e) p := by
  obtain ⟨q, hq, hfree⟩ := h.exists_free hlt
  have hexists : ∃ p ∈ place e, cells p = none := ⟨q, (hplace q).mpr hq, hfree⟩
  obtain ⟨p, hp, hreach⟩ := Foundations.exists_reaches_free hexists
  exact ⟨p, (hplace p).mp hreach.mem, hp, hreach⟩

/-- Where a search for `e` ends, `e` can be put; nothing else is hidden by it. -/
theorem Stores.insert [DecidableEq E] (h : Stores place n cells l) (he : e ∉ l) {p : ℕ} (hp : p < n)
    (hfree : cells p = none) (hreach : Reaches (cells · = none) (place e) p) :
    Stores place n (Function.update cells p (some e)) (Insert.insert e l) where
  mem q e' hq := by
    obtain rfl | hne := eq_or_ne q p
    · rw [Function.update_self, Option.some_inj] at hq
      exact ⟨hp, hq ▸ Finset.mem_insert_self e l⟩
    · rw [Function.update_of_ne hne] at hq
      exact ⟨(h.mem q e' hq).1, Finset.mem_insert_of_mem (h.mem q e' hq).2⟩
  inj q r e' hq hr := by
    rw [Function.update_apply] at hq hr
    split_ifs at hq hr with hqp hrp hrp
    · exact hqp.trans hrp.symm
    · exact absurd (h.mem r e' hr).2 (Option.some_inj.mp hq ▸ he)
    · exact absurd (h.mem q e' hq).2 (Option.some_inj.mp hr ▸ he)
    · exact h.inj q r e' hq hr
  reaches e' he' := by
    have hsub (q : ℕ) (hq : Function.update cells p (some e) q = none) : cells q = none := by
      rw [Function.update_apply] at hq
      split_ifs at hq with hqp
      exact hq
    obtain rfl | hmem := Finset.mem_insert.mp he'
    · exact ⟨p, Function.update_self .., hreach.mono hsub⟩
    · obtain ⟨q, hq, hreachq⟩ := h.reaches e' hmem
      have hne : q ≠ p := fun heq ↦ by rw [heq, hfree] at hq; cases hq
      exact ⟨q, by rw [Function.update_of_ne hne, hq], hreachq.mono hsub⟩

end Tables

end Foundations
