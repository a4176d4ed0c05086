import Mathlib.Tactic

/-!
# Computations that can fail

The rule every proof about a failing computation goes by: it succeeds when its first step does and
what follows does. The rules about two of them, side by side: they agree when their first steps
agree and what follows does on related values (`Agree.bind`), and likewise when only the success of
the first is asked to carry over to the second (`Simulates.bind`). What is known of one computation
in either case, success or failure, goes by `Outcome.bind`.
-/

namespace Foundations

theorem bind_ok {ε α β : Type} {x : Except ε α} {f : α → Except ε β} {b : β} :
    (x >>= f) = .ok b ↔ ∃ a, x = .ok a ∧ f a = .ok b := by
  cases x with
  | error e => simp [bind, Except.bind]
  | ok a => simp [bind, Except.bind]

theorem bind_error {ε α β : Type} {x : Except ε α} {f : α → Except ε β} {e : ε} :
    (x >>= f) = .error e ↔ x = .error e ∨ ∃ a, x = .ok a ∧ f a = .error e := by
  cases x with
  | error e' => simp [bind, Except.bind]
  | ok a => simp [bind, Except.bind]

/-- A computation that was evaluated as far as `f` shows. -/
theorem exists_of_map_eq {ε α β : Type} {x : Except ε α} {f : α → β} {b : β}
    (h : x.toOption.map f = some b) : ∃ a, x = .ok a ∧ f a = b := by
  cases x with
  | error e => exact nomatch h
  | ok a => exact ⟨a, rfl, Option.some.inj h⟩

theorem toOption_eq_some {ε α : Type} {x : Except ε α} {a : α} :
    x.toOption = some a ↔ x = .ok a := by
  cases x with
  | error e => simp [Except.toOption]
  | ok b => simp [Except.toOption]

/-- A computation whose value has `Q` if it succeeds, and whose failure has `E` if it fails. -/
def Outcome {ε α : Type} (Q : α → Prop) (E : ε → Prop) : Except ε α → Prop
  | .error e => E e
  | .ok a => Q a

namespace Outcome

variable {ε α β : Type} {Q Q' : α → Prop} {R : β → Prop} {E E' : ε → Prop} {x : Except ε α}

theorem mono (h : Outcome Q E x) (hQ : ∀ a, Q a → Q' a) (hE : ∀ e, E e → E' e) :
    Outcome Q' E' x := by
  cases x with
  | error e => exact hE e h
  | ok a => exact hQ a h

theorem bind {f : α → Except ε β} (h : Outcome Q E x) (hf : ∀ a, Q a → Outcome R E (f a)) :
    Outcome R E (x >>= f) := by
  cases x with
  | error e => exact h
  | ok a => exact hf a h

theorem of_ok {a : α} (h : Outcome Q E x) (hx : x = .ok a) : Q a := by
  rw [hx] at h
  exact h

theorem of_error {e : ε} (h : Outcome Q E x) (hx : x = .error e) : E e := by
  rw [hx] at h
  exact h

end Outcome

/-- Both computations fail in the same way, or both succeed with related values. -/
inductive Agree {ε α β : Type} (R : α → β → Prop) : Except ε α → Except ε β → Prop
  | error (e : ε) : Agree R (.error e) (.error e)
  | ok {a : α} {b : β} (h : R a b) : Agree R (.ok a) (.ok b)

theorem Agree.bind {ε α β α' β' : Type} {R : α → β → Prop} {S : α' → β' → Prop} {x : Except ε α}
    {y : Except ε β} {f : α → Except ε α'} {g : β → Except ε β'} (h : Agree R x y)
    (hf : ∀ a b, R a b → Agree S (f a) (g b)) : Agree S (x >>= f) (y >>= g) := by
  cases h with
  | error e => exact .error e
  | ok h => exact hf _ _ h

theorem Agree.ite {ε α β : Type} {R : α → β → Prop} {p : Prop} [Decidable p] {x x' : Except ε α}
    {y y' : Except ε β} (h : Agree R x y) (h' : Agree R x' y') :
    Agree R (if p then x else x') (if p then y else y') := by
  split
  · exact h
  · exact h'

theorem Agree.eq_error {ε α β : Type} {R : α → β → Prop} {x : Except ε α} {y : Except ε β} {e : ε}
    (h : Agree R x y) (hx : x = .error e) : y = .error e := by
  subst hx
  cases h
  rfl

theorem Agree.exists_ok {ε α β : Type} {R : α → β → Prop} {x : Except ε α} {y : Except ε β} {a : α}
    (h : Agree R x y) (hx : x = .ok a) : ∃ b, y = .ok b ∧ R a b := by
  subst hx
  cases h with
  | ok h => exact ⟨_, rfl, h⟩

/-- Whatever the first computation returns, the second returns something related to it. -/
def Simulates {ε α β : Type} (R : α → β → Prop) (x : Except ε α) (y : Except ε β) : Prop :=
  ∀ a, x = .ok a → ∃ b, y = .ok b ∧ R a b

namespace Simulates

variable {ε α β α' β' : Type} {R : α → β → Prop} {S : α' → β' → Prop}

theorem error (e : ε) (y : Except ε β) : Simulates R (.error e) y := fun _ h ↦ by cases h

theorem ok {a : α} {b : β} (h : R a b) : Simulates R (.ok a : Except ε α) (.ok b) := by
  rintro _ ⟨⟩
  exact ⟨b, rfl, h⟩

theorem bind {x : Except ε α} {y : Except ε β} {f : α → Except ε α'} {g : β → Except ε β'}
    (h : Simulates R x y) (hf : ∀ a b, x = .ok a → R a b → Simulates S (f a) (g b)) :
    Simulates S (x >>= f) (y >>= g) := by
  intro c hc
  obtain ⟨a, ha, hc⟩ := bind_ok.mp hc
  obtain ⟨b, hb, hab⟩ := h a ha
  obtain ⟨d, hd, hcd⟩ := hf a b ha hab c hc
  exact ⟨d, bind_ok.mpr ⟨b, hb, hd⟩, hcd⟩

end Simulates

end Foundations
