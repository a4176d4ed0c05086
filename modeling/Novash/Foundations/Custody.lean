import Novash.Foundations.Descriptors

/-!
# Custody of descriptors

What a process opens it holds until it closes it. A sequence of calls can be followed (`custody`) as
long as each descriptor that is closed is held at that moment; a call that closes anything else, or
closes a descriptor for the second time, is where following them fails. While it goes well, the
table is the first one but for what is held (`Holds`).
-/

namespace Foundations

variable {α : Type}

/-- A call on a table. What is opened goes to the lowest free descriptor. -/
inductive FdCall (α : Type)
  | opened (d : Descriptor α)
  | closed (fd : ℕ)
  deriving DecidableEq, Repr

/-- The table and what is held after a call, which may not close anything that is not held. -/
def FdCall.step : FdTable α × Finset ℕ → FdCall α → Option (FdTable α × Finset ℕ)
  | (t, held), opened d => some ((t.alloc d).2, insert (t.alloc d).1 held)
  | (t, held), closed fd => if fd ∈ held then some (t.close fd, held.erase fd) else none

/-- The table and what is held after a sequence of calls. -/
def custody (s : FdTable α × Finset ℕ) (calls : List (FdCall α)) :
    Option (FdTable α × Finset ℕ) := calls.foldlM FdCall.step s

section

variable {t t₀ : FdTable α} {held : Finset ℕ} {fd : ℕ}

theorem custody_append (s : FdTable α × Finset ℕ) (calls calls' : List (FdCall α)) :
    custody s (calls ++ calls') = custody s calls >>= (custody · calls') :=
  List.foldlM_append

theorem custody_opened (d : Descriptor α) (calls : List (FdCall α)) :
    custody (t, held) (.opened d :: calls)
      = custody ((t.alloc d).2, insert t.lowestFree held) calls := rfl

theorem custody_closed (hfd : fd ∈ held) (calls : List (FdCall α)) :
    custody (t, held) (.closed fd :: calls) = custody (t.close fd, held.erase fd) calls := by
  rw [custody, List.foldlM_cons, FdCall.step, if_pos hfd]
  rfl

theorem custody_closed_of_notMem (hfd : fd ∉ held) (calls : List (FdCall α)) :
    custody (t, held) (.closed fd :: calls) = none := by
  rw [custody, List.foldlM_cons, FdCall.step, if_neg hfd]
  rfl

/-- Several different descriptors can be closed if all of them are held. -/
theorem custody_closeAll {fds : List ℕ} (hnodup : fds.Nodup) (hheld : ∀ fd ∈ fds, fd ∈ held) :
    custody (t, held) (fds.map .closed) = some (t.closeAll fds, held \ fds.toFinset) := by
  induction fds generalizing t held with
  | nil =>
    rw [List.toFinset_nil, Finset.sdiff_empty]
    rfl
  | cons fd fds ih =>
    obtain ⟨hnot, hnodup⟩ := List.nodup_cons.mp hnodup
    obtain ⟨hfd, hrest⟩ := List.forall_mem_cons.mp hheld
    have hrest : ∀ x ∈ fds, x ∈ held.erase fd := fun x hx ↦
      Finset.mem_erase.mpr ⟨fun heq ↦ hnot (heq ▸ hx), hrest x hx⟩
    rw [List.map_cons, custody_closed hfd, ih hnodup hrest, List.toFinset_cons,
      Finset.sdiff_insert, Finset.erase_sdiff_comm]
    rfl

/-- A table is another one but for the descriptors that are held. -/
structure Holds (held : Finset ℕ) (t₀ t : FdTable α) : Prop where
  fresh : ∀ fd ∈ held, t₀.get fd = none
  isOpen : ∀ fd ∈ held, t.get fd ≠ none
  others : ∀ fd ∉ held, t.get fd = t₀.get fd

namespace Holds

theorem refl (t : FdTable α) : Holds ∅ t t :=
  ⟨fun _ h ↦ absurd h (Finset.notMem_empty _), fun _ h ↦ absurd h (Finset.notMem_empty _),
    fun _ _ ↦ rfl⟩

theorem alloc (h : Holds held t₀ t) (d : Descriptor α) :
    Holds (insert (t.alloc d).1 held) t₀ (t.alloc d).2 := by
  have hnot : t.lowestFree ∉ held := fun hmem ↦ h.isOpen _ hmem t.get_lowestFree
  refine ⟨fun fd hfd ↦ ?_, fun fd hfd ↦ ?_, fun fd hfd ↦ ?_⟩
  · rcases Finset.mem_insert.mp hfd with rfl | hfd
    · exact (h.others _ hnot).symm.trans t.get_lowestFree
    · exact h.fresh fd hfd
  · rcases Finset.mem_insert.mp hfd with rfl | hfd
    · rw [FdTable.get_alloc_self]
      exact Option.some_ne_none d
    · rw [FdTable.get_alloc_of_open d (h.isOpen fd hfd)]
      exact h.isOpen fd hfd
  · obtain ⟨hne, hfd⟩ := not_or.mp (mt Finset.mem_insert.mpr hfd)
    rw [FdTable.get_alloc_of_ne _ _ hne, h.others fd hfd]

theorem close (h : Holds held t₀ t) (hfd : fd ∈ held) :
    Holds (held.erase fd) t₀ (t.close fd) := by
  refine ⟨fun x hx ↦ h.fresh x (Finset.mem_of_mem_erase hx), fun x hx ↦ ?_, fun x hx ↦ ?_⟩
  · obtain ⟨hne, hx⟩ := Finset.mem_erase.mp hx
    rw [FdTable.get_close_of_ne _ hne]
    exact h.isOpen x hx
  · by_cases heq : x = fd
    · rw [heq, FdTable.get_close_self, h.fresh fd hfd]
    · have hx : x ∉ held := fun hmem ↦ hx (Finset.mem_erase.mpr ⟨heq, hmem⟩)
      rw [FdTable.get_close_of_ne _ heq, h.others x hx]

/-- Closing what is free does no harm. -/
theorem close_of_free (h : Holds held t₀ t) (hfd : fd ∉ held) (hfree : t₀.get fd = none) :
    Holds held t₀ (t.close fd) := by
  refine ⟨h.fresh, fun x hx ↦ ?_, fun x hx ↦ ?_⟩
  · have hne : x ≠ fd := fun heq ↦ hfd (heq ▸ hx)
    rw [FdTable.get_close_of_ne _ hne]
    exact h.isOpen x hx
  · by_cases heq : x = fd
    · rw [heq, FdTable.get_close_self, hfree]
    · rw [FdTable.get_close_of_ne _ heq, h.others x hx]

/-- As long as the calls can be followed, the table is as before but for what is held. -/
theorem of_custody {calls : List (FdCall α)} {t' : FdTable α} {held' : Finset ℕ}
    (h : Holds held t₀ t) (hcalls : custody (t, held) calls = some (t', held')) :
    Holds held' t₀ t' := by
  induction calls generalizing t held with
  | nil =>
    cases hcalls
    exact h
  | cons call calls ih =>
    cases call with
    | opened d =>
      rw [custody_opened] at hcalls
      exact ih (h.alloc d) hcalls
    | closed fd =>
      by_cases hfd : fd ∈ held
      · rw [custody_closed hfd] at hcalls
        exact ih (h.close hfd) hcalls
      · rw [custody_closed_of_notMem hfd] at hcalls
        cases hcalls

end Holds

end

end Foundations
