import Novash.Foundations.Results

/-!
# Allocated blocks

A `Heap` is what has been allocated and not been freed. A block that is not allocated cannot be
freed, and so none can be freed twice: `free` has no result then.

Who owns which blocks is an equation between multisets: what is live consists of the blocks of the
data at hand and of a frame, which is everything else. A block that occurs in two places would be
counted twice, so that the equation also says that nothing is shared.

A computation that allocates and frees may fail in ways of its own as well. It is `Sound` if it
never frees what is not allocated. That it does the same as a computation that knows nothing of
memory is a statement apart (`Tracks`), and the two together say that it succeeds when that one does
(`Sound.exists_ok`).
-/

namespace Foundations

/-- No name is used twice, so that a block is not mistaken for one that was freed before. -/
structure Heap where
  next : ℕ
  live : Multiset ℕ

namespace Heap

/-- The name of the new block, and the heap with it. -/
def malloc (m : Heap) : ℕ × Heap := (m.next, ⟨m.next + 1, m.next ::ₘ m.live⟩)

def free (m : Heap) (block : ℕ) : Option Heap :=
  if block ∈ m.live then some { m with live := m.live.erase block } else none

/-- One block after the other. -/
def freeAll (m : Heap) (blocks : List ℕ) : Option Heap := blocks.foldlM free m

@[simp] theorem live_malloc (m : Heap) : m.malloc.2.live = {m.malloc.1} + m.live := rfl

end Heap

/-! ## Giving blocks back -/

/-- There is a result, and it has `Q`. -/
def Succeeds {α : Type} (Q : α → Prop) (x : Option α) : Prop := ∃ a, x = some a ∧ Q a

theorem Succeeds.bind {α β : Type} {Q : α → Prop} {R : β → Prop} {x : Option α} {f : α → Option β}
    (h : Succeeds Q x) (hf : ∀ a, Q a → Succeeds R (f a)) : Succeeds R (x >>= f) := by
  obtain ⟨a, rfl, ha⟩ := h
  exact hf a ha

section

variable {m : Heap} {frame : Multiset ℕ} {block : ℕ}

theorem succeeds_free (h : m.live = {block} + frame) :
    Succeeds (fun m' ↦ m'.live = frame) (m.free block) := by
  have hmem : block ∈ m.live := h ▸ Multiset.mem_add.mpr (.inl (Multiset.mem_singleton_self block))
  refine ⟨_, if_pos hmem, ?_⟩
  change m.live.erase block = frame
  rw [h, Multiset.singleton_add, Multiset.erase_cons_head]

/-- A list of data, each of which gives its own blocks back. -/
theorem succeeds_foldlM {α : Type} {blocks : α → Multiset ℕ} {f : Heap → α → Option Heap}
    (hf : ∀ (x : α) (m : Heap) (frame : Multiset ℕ), m.live = blocks x + frame →
      Succeeds (fun m' ↦ m'.live = frame) (f m x)) (xs : List α) :
    ∀ {m : Heap}, m.live = (xs.map blocks).sum + frame →
      Succeeds (fun m' ↦ m'.live = frame) (xs.foldlM f m) := by
  induction xs with
  | nil =>
    intro m h
    exact ⟨m, rfl, h.trans (zero_add _)⟩
  | cons x xs ih =>
    intro m h
    rw [List.map_cons, List.sum_cons, add_assoc] at h
    exact (hf x m _ h).bind fun m' hm' ↦ ih hm'

theorem succeeds_freeAll {blocks : List ℕ} (h : m.live = (blocks.map ({·})).sum + frame) :
    Succeeds (fun m' ↦ m'.live = frame) (m.freeAll blocks) :=
  succeeds_foldlM (f := Heap.free) (fun _ _ _ h ↦ succeeds_free h) blocks h

end

/-! ## Losing blocks -/

/-- What is live are these blocks and the frame, and so many blocks that nothing points to any
more. -/
def Leaves (n : ℕ) (owned frame : Multiset ℕ) (m : Heap) : Prop :=
  ∃ lost : Multiset ℕ, lost.card = n ∧ m.live = owned + (lost + frame)

namespace Leaves

variable {n n' : ℕ} {owned owned' rest rest' frame : Multiset ℕ} {m m' : Heap}

theorem none (h : m.live = owned + frame) : Leaves 0 owned frame m :=
  ⟨0, Multiset.card_zero, by rw [h, zero_add]⟩

theorem one {block : ℕ} (h : m.live = owned + ({block} + frame)) : Leaves 1 owned frame m :=
  ⟨{block}, Multiset.card_singleton _, h⟩

theorem congr (h : Leaves n owned frame m) (hn : n = n') (howned : owned = owned') :
    Leaves n' owned' frame m := hn ▸ howned ▸ h

/-- What is owned may be counted to the frame. -/
theorem regroup {frame' : Multiset ℕ} (h : Leaves n owned frame m)
    (heq : owned + frame = owned' + frame') : Leaves n owned' frame' m := by
  obtain ⟨lost, hcard, hlive⟩ := h
  refine ⟨lost, hcard, ?_⟩
  rw [hlive, add_left_comm, heq, add_left_comm]

/-- The next step works on a part of the frame. -/
theorem trans (h : Leaves n owned (rest + frame) m)
    (hnext : ∀ frame', m.live = rest + frame' → Leaves n' rest' frame' m') :
    Leaves (n + n') (owned + rest') frame m' := by
  obtain ⟨lost, hcard, hlive⟩ := h
  obtain ⟨lost', hcard', hlive'⟩ := hnext (owned + (lost + frame)) (by rw [hlive]; abel)
  refine ⟨lost + lost', by rw [Multiset.card_add, hcard, hcard'], ?_⟩
  rw [hlive']
  abel

end Leaves

/-! ## Computations that own what they free -/

/-- How a computation fails that allocates and frees. -/
inductive Fault (ε : Type)
  | invalidFree
  | other (e : ε)
  deriving DecidableEq

/-- A step that does nothing but give blocks back. -/
def orFault {ε α : Type} : Option α → Except (Fault ε) α
  | none => .error .invalidFree
  | some a => .ok a

section

variable {ε α β α' β' : Type}

/-- The computation frees nothing but what is allocated, and if it succeeds the result has `Q`. -/
def Sound (Q : α → Prop) (x : Except (Fault ε) α) : Prop := Outcome Q (· ≠ .invalidFree) x

namespace Sound

variable {Q Q' : α → Prop} {R : β → Prop} {x : Except (Fault ε) α}

theorem ok {a : α} (h : Q a) : Sound Q (.ok a : Except (Fault ε) α) := h

theorem other (e : ε) : Sound Q (.error (.other e)) := fun h ↦ by cases h

theorem bind {f : α → Except (Fault ε) β} (h : Sound Q x) (hf : ∀ a, Q a → Sound R (f a)) :
    Sound R (x >>= f) := Outcome.bind h hf

theorem mono (h : Sound Q x) (hQ : ∀ a, Q a → Q' a) : Sound Q' x := Outcome.mono h hQ fun _ ↦ id

theorem of_ok {a : α} (h : Sound Q x) (hx : x = .ok a) : Q a := Outcome.of_ok h hx

theorem of_error {e : Fault ε} (h : Sound Q x) (hx : x = .error e) :
    Sound R (.error e : Except (Fault ε) β) := by
  subst hx
  exact h

theorem orFault {x : Option α} (h : Succeeds Q x) : Sound Q (orFault x : Except (Fault ε) α) := by
  obtain ⟨a, rfl, ha⟩ := h
  exact ha

end Sound

/-! ## Computations that do the same -/

/-- The second computation goes the way of the first, unless it frees what is not allocated. -/
inductive Tracks (R : α → β → Prop) : Except ε α → Except (Fault ε) β → Prop
  | invalidFree (x : Except ε α) : Tracks R x (.error .invalidFree)
  | other (e : ε) : Tracks R (.error e) (.error (.other e))
  | ok {a : α} {b : β} (h : R a b) : Tracks R (.ok a) (.ok b)

namespace Tracks

variable {R : α → β → Prop} {S : α' → β' → Prop} {x : Except ε α} {y : Except (Fault ε) β}

theorem bind {f : α → Except ε α'} {g : β → Except (Fault ε) β'} (h : Tracks R x y)
    (hf : ∀ a b, R a b → Tracks S (f a) (g b)) : Tracks S (x >>= f) (y >>= g) := by
  cases h with
  | invalidFree x => exact .invalidFree _
  | other e => exact .other e
  | ok h => exact hf _ _ h

/-- Only the second computation gives blocks back. -/
theorem orFault_bind {z : Option β'} {g : β' → Except (Fault ε) β} (hg : ∀ b, Tracks R x (g b)) :
    Tracks R x (orFault z >>= g) := by
  cases z with
  | none => exact .invalidFree x
  | some b => exact hg b

/-- Only the first computation goes on. -/
theorem bind_left {T : α' → β → Prop} {f : α → Except ε α'} (h : Tracks R x y)
    (hf : ∀ a b, R a b → Tracks T (f a) (.ok b)) : Tracks T (x >>= f) y := by
  cases h with
  | invalidFree x => exact .invalidFree _
  | other e => exact .other e
  | ok h => exact hf _ _ h

/-- Both have failed. -/
theorem bind_error {f : α → Except ε α'} {e : Fault ε} (h : Tracks R x y) (hy : y = .error e) :
    Tracks S (x >>= f) (.error e) := by
  subst hy
  cases h with
  | invalidFree x => exact .invalidFree _
  | other e => exact .other e

theorem exists_of_ok {b : β} (h : Tracks R x y) (hy : y = .ok b) : ∃ a, x = .ok a ∧ R a b := by
  subst hy
  cases h with
  | ok h => exact ⟨_, rfl, h⟩

end Tracks

/-- What is sound succeeds when the computation that it tracks does. -/
theorem Sound.exists_ok {R : α → β → Prop} {Q : β → Prop} {x : Except ε α}
    {y : Except (Fault ε) β} {a : α} (h : Sound Q y) (ht : Tracks R x y) (hx : x = .ok a) :
    ∃ b, y = .ok b ∧ R a b ∧ Q b := by
  subst hx
  cases ht with
  | invalidFree => exact absurd rfl h
  | ok hab => exact ⟨_, rfl, hab, h⟩

end

end Foundations
