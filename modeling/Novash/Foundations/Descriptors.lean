import Mathlib.Tactic

/-!
# Descriptor tables

The table of open files of a process, over any type of files: descriptors are numbers, a new one is
the lowest that is free, and `dup2` and `close` name the ones they act on. Two tables are compared
by what `get` returns.
-/

namespace Foundations

/-- What a descriptor refers to, and its close-on-exec flag. -/
structure Descriptor (α : Type) where
  file : α
  cloexec : Bool := false
  deriving DecidableEq, Repr

/-- A descriptor as `dup` and `dup2` copy it: the copy is not closed on `exec`. -/
def Descriptor.copy {α : Type} (d : Descriptor α) : Descriptor α := { d with cloexec := false }

structure FdTable (α : Type) where
  slots : List (Option (Descriptor α))
  deriving DecidableEq, Repr

namespace FdTable

variable {α : Type}

def get (t : FdTable α) (fd : ℕ) : Option (Descriptor α) := t.slots.getD fd none

/-- Make a descriptor refer to something, or to nothing. -/
def set (t : FdTable α) (fd : ℕ) (d : Option (Descriptor α)) : FdTable α :=
  ⟨(t.slots.rightpad (fd + 1) none).set fd d⟩

/-- The lowest descriptor that is not open. -/
def lowestFree (t : FdTable α) : ℕ := t.slots.findIdx Option.isNone

/-- `open`, `pipe` and the like: a new descriptor for a file, and the table with it. -/
def alloc (t : FdTable α) (d : Descriptor α) : ℕ × FdTable α :=
  (t.lowestFree, t.set t.lowestFree (some d))

def close (t : FdTable α) (fd : ℕ) : FdTable α := t.set fd none

/-- `dup2`. The copy is not closed on `exec`; a descriptor copied onto itself is left alone. -/
def dup2 (t : FdTable α) (old new : ℕ) : Option (FdTable α) :=
  match t.get old with
  | none => none
  | some d => some (if old = new then t else t.set new (some { d with cloexec := false }))

/-- What is left of a table when the process executes another program. -/
def exec (t : FdTable α) : FdTable α :=
  ⟨t.slots.map fun slot ↦ slot.filter fun d ↦ !d.cloexec⟩

/-! ## What is open afterwards -/

@[simp] theorem get_set_self (t : FdTable α) (fd : ℕ) (d : Option (Descriptor α)) :
    (t.set fd d).get fd = d := by
  have hlt : fd < (t.slots.rightpad (fd + 1) none).length := by
    rw [List.length_rightpad]
    exact Nat.lt_of_lt_of_le (Nat.lt_succ_self fd) (le_max_left _ _)
  rw [get, set, List.getD_eq_getElem?_getD, List.getElem?_set_self hlt, Option.getD_some]

theorem get_set_of_ne (t : FdTable α) {fd fd' : ℕ} (d : Option (Descriptor α)) (h : fd' ≠ fd) :
    (t.set fd d).get fd' = t.get fd' := by
  rw [get, set, get, List.getD_eq_getElem?_getD, List.getElem?_set_ne h.symm,
    ← List.getD_eq_getElem?_getD, List.rightpad]
  simp only [List.getD_eq_getElem?_getD, List.getElem?_append, List.getElem?_replicate]
  split
  · rfl
  · next hlen =>
    rw [List.getElem?_eq_none (Nat.le_of_not_lt hlen)]
    split <;> rfl

@[simp] theorem get_close_self (t : FdTable α) (fd : ℕ) : (t.close fd).get fd = none :=
  t.get_set_self fd none

theorem get_close_of_ne (t : FdTable α) {fd fd' : ℕ} (h : fd' ≠ fd) :
    (t.close fd).get fd' = t.get fd' := t.get_set_of_ne none h

/-- The lowest free descriptor is free. -/
@[simp] theorem get_lowestFree (t : FdTable α) : t.get t.lowestFree = none := by
  rw [get, lowestFree, List.getD_eq_getElem?_getD]
  by_cases h : t.slots.findIdx Option.isNone < t.slots.length
  · have hnone := List.findIdx_getElem (p := Option.isNone) (w := h)
    rw [List.getElem?_eq_getElem h, Option.getD_some, Option.isNone_iff_eq_none.mp hnone]
  · rw [List.getElem?_eq_none (Nat.le_of_not_lt h), Option.getD_none]

/-- Where the first descriptors are open, none of them is the lowest free one. -/
theorem le_lowestFree {t : FdTable α} {m : ℕ} (h : ∀ fd < m, t.get fd ≠ none) :
    m ≤ t.lowestFree := by
  by_contra hlt
  exact h _ (Nat.lt_of_not_le hlt) t.get_lowestFree

/-- Below the lowest free descriptor all are open. -/
theorem get_ne_none_of_lt {t : FdTable α} {fd : ℕ} (h : fd < t.lowestFree) : t.get fd ≠ none := by
  have hlen : fd < t.slots.length := Nat.lt_of_lt_of_le h List.findIdx_le_length
  have hsome := List.not_of_lt_findIdx h
  rw [get, List.getD_eq_getElem?_getD, List.getElem?_eq_getElem hlen, Option.getD_some]
  intro hnone
  rw [hnone] at hsome
  exact nomatch hsome

theorem lowestFree_eq {t : FdTable α} {fd : ℕ} (hfree : t.get fd = none)
    (hopen : ∀ x < fd, t.get x ≠ none) : t.lowestFree = fd := by
  refine le_antisymm (Nat.le_of_not_lt fun hlt ↦ ?_) (le_lowestFree hopen)
  exact get_ne_none_of_lt hlt hfree

@[simp] theorem get_alloc_self (t : FdTable α) (d : Descriptor α) :
    (t.alloc d).2.get (t.alloc d).1 = some d := t.get_set_self _ _

theorem get_alloc_of_ne (t : FdTable α) (d : Descriptor α) {fd : ℕ} (h : fd ≠ (t.alloc d).1) :
    (t.alloc d).2.get fd = t.get fd := t.get_set_of_ne _ h

/-- What is open is not given out. -/
theorem ne_alloc {t : FdTable α} (d : Descriptor α) {fd : ℕ} (h : t.get fd ≠ none) :
    fd ≠ (t.alloc d).1 := by
  rintro rfl
  exact h t.get_lowestFree

theorem get_alloc_of_open {t : FdTable α} (d : Descriptor α) {fd : ℕ} (h : t.get fd ≠ none) :
    (t.alloc d).2.get fd = t.get fd := t.get_alloc_of_ne d (ne_alloc d h)

/-- What is open after a file has been opened is that, or was open. -/
theorem get_of_alloc {t : FdTable α} {d e : Descriptor α} {fd : ℕ}
    (h : (t.alloc d).2.get fd = some e) : e = d ∨ t.get fd = some e := by
  by_cases hfd : fd = (t.alloc d).1
  · rw [hfd, get_alloc_self] at h
    exact Or.inl (Option.some.inj h).symm
  · rw [get_alloc_of_ne _ _ hfd] at h
    exact Or.inr h

theorem get_of_close {t : FdTable α} {e : Descriptor α} {fd fd' : ℕ}
    (h : (t.close fd').get fd = some e) : t.get fd = some e := by
  by_cases hfd : fd = fd'
  · rw [hfd, get_close_self] at h
    cases h
  · rwa [get_close_of_ne _ hfd] at h

/-- `dup2` touches the new descriptor only. -/
theorem get_dup2_of_ne {t t' : FdTable α} {old new fd : ℕ} (h : t.dup2 old new = some t')
    (hfd : fd ≠ new) : t'.get fd = t.get fd := by
  unfold dup2 at h
  split at h
  · exact nomatch h
  · obtain rfl := Option.some.inj h
    split
    · rfl
    · exact t.get_set_of_ne _ hfd

/-- The copy is of the old descriptor, and stays open on `exec`. -/
theorem get_dup2_self {t t' : FdTable α} {old new : ℕ} {d : Descriptor α}
    (h : t.dup2 old new = some t') (hd : t.get old = some d) (hne : old ≠ new) :
    t'.get new = some { d with cloexec := false } := by
  rw [dup2, hd] at h
  obtain rfl := Option.some.inj h
  rw [if_neg hne, get_set_self]

theorem exists_dup2 {t : FdTable α} {old : ℕ} (new : ℕ) (h : t.get old ≠ none) :
    ∃ t', t.dup2 old new = some t' := by
  unfold dup2
  split
  · next hnone => exact absurd hnone h
  · exact ⟨_, rfl⟩

/-! ## What holds of all files -/

/-- What the descriptors of a table refer to has this property. -/
def AllFiles (P : α → Prop) (t : FdTable α) : Prop := ∀ fd d, t.get fd = some d → P d.file

namespace AllFiles

variable {P Q : α → Prop} {t t' : FdTable α}

theorem mono (h : t.AllFiles P) (hPQ : ∀ file, P file → Q file) : t.AllFiles Q :=
  fun fd d hd ↦ hPQ _ (h fd d hd)

theorem set (h : t.AllFiles P) (fd : ℕ) {d? : Option (Descriptor α)}
    (hd : ∀ d, d? = some d → P d.file) : (t.set fd d?).AllFiles P := by
  intro x e he
  by_cases hx : x = fd
  · rw [hx, get_set_self] at he
    exact hd e he
  · rw [get_set_of_ne _ _ hx] at he
    exact h x e he

theorem alloc (h : t.AllFiles P) {d : Descriptor α} (hd : P d.file) : (t.alloc d).2.AllFiles P :=
  h.set _ fun _ he ↦ Option.some.inj he ▸ hd

theorem close (h : t.AllFiles P) (fd : ℕ) : (t.close fd).AllFiles P := h.set fd nofun

theorem dup2 (h : t.AllFiles P) {old new : ℕ} (hdup : t.dup2 old new = some t') :
    t'.AllFiles P := by
  unfold FdTable.dup2 at hdup
  split at hdup
  · cases hdup
  next d hd =>
  obtain rfl := Option.some.inj hdup
  split
  · exact h
  · refine h.set new fun e he ↦ ?_
    obtain rfl := Option.some.inj he
    exact h old d hd

end AllFiles

/-! ## Redirecting a descriptor

`open`, `dup2` and `close` together: the new file goes to the lowest free descriptor, is copied to
where it is wanted, and the original is closed. Where the two are one and the same, nothing is left
of it. -/

section

variable {t t' : FdTable α} {file : α} {target : ℕ}

theorem get_redirect (h : (t.alloc ⟨file, false⟩).2.dup2 t.lowestFree target = some t') (fd : ℕ) :
    (t'.close t.lowestFree).get fd
      = if fd = target ∧ target ≠ t.lowestFree then some ⟨file, false⟩ else t.get fd := by
  have hopened : (t.alloc ⟨file, false⟩).2.get t.lowestFree = some ⟨file, false⟩ :=
    t.get_alloc_self _
  by_cases hfd : fd = t.lowestFree
  · have hne : ¬(fd = target ∧ target ≠ t.lowestFree) := fun ⟨heq, hne⟩ ↦ hne (heq ▸ hfd)
    rw [if_neg hne, hfd, get_close_self, get_lowestFree]
  rw [get_close_of_ne _ hfd]
  by_cases htarget : fd = target
  · have hne : t.lowestFree ≠ target := fun heq ↦ hfd (htarget.trans heq.symm)
    rw [if_pos ⟨htarget, hne.symm⟩, htarget, get_dup2_self h hopened hne]
  · rw [if_neg fun h ↦ htarget h.1, get_dup2_of_ne h htarget, get_alloc_of_ne _ _ hfd]

/-- The next file will be opened at the same descriptor. -/
theorem lowestFree_redirect
    (h : (t.alloc ⟨file, false⟩).2.dup2 t.lowestFree target = some t') :
    (t'.close t.lowestFree).lowestFree = t.lowestFree := by
  refine lowestFree_eq (get_close_self _ _) fun fd hfd ↦ ?_
  rw [get_redirect h]
  split
  · exact Option.some_ne_none _
  · exact get_ne_none_of_lt hfd

end

/-! ## Saving and restoring descriptors

Some descriptors are copied to free ones, others are written over, and then the copies are moved
back. In a pair of `saved` the copy comes first. -/

section

variable {saved : List (ℕ × ℕ)} {t₀ t₁ t₂ t₃ : FdTable α}

/-- The copies are open in the second table, at descriptors that were free in the first. -/
structure SavedIn (saved : List (ℕ × ℕ)) (t₀ t₁ : FdTable α) : Prop where
  copied : ∀ p ∈ saved, ∃ d, t₀.get p.2 = some d ∧ t₁.get p.1 = some d.copy
  fresh : ∀ p ∈ saved, t₀.get p.1 = none
  others : ∀ fd, (∀ p ∈ saved, fd ≠ p.1) → t₁.get fd = t₀.get fd

/-- The copies have been moved back. -/
structure RestoredIn (saved : List (ℕ × ℕ)) (t₂ t₃ : FdTable α) : Prop where
  closed : ∀ p ∈ saved, t₃.get p.1 = none
  moved : ∀ p ∈ saved, t₃.get p.2 = (t₂.get p.1).map Descriptor.copy
  others : ∀ fd, (∀ p ∈ saved, fd ≠ p.1 ∧ fd ≠ p.2) → t₃.get fd = t₂.get fd

theorem SavedIn.nil (t : FdTable α) : SavedIn [] t t :=
  ⟨(fun _ hp ↦ nomatch hp), (fun _ hp ↦ nomatch hp), fun _ _ ↦ rfl⟩

/-- One more descriptor is copied. -/
theorem SavedIn.concat (h : SavedIn saved t₀ t₁) {fd : ℕ} {d : Descriptor α}
    (hd : t₀.get fd = some d) :
    SavedIn (saved ++ [(t₁.lowestFree, fd)]) t₀ (t₁.alloc d.copy).2 := by
  have hopen : ∀ p ∈ saved, t₁.get p.1 ≠ none := by
    intro p hp
    obtain ⟨e, -, he⟩ := h.copied p hp
    rw [he]
    exact Option.some_ne_none _
  refine ⟨List.forall_mem_append.mpr ⟨fun p hp ↦ ?_, List.forall_mem_singleton.mpr ?_⟩,
    List.forall_mem_append.mpr ⟨h.fresh, List.forall_mem_singleton.mpr ?_⟩, fun x hx ↦ ?_⟩
  · rw [get_alloc_of_open _ (hopen p hp)]
    exact h.copied p hp
  · exact ⟨d, hd, get_alloc_self _ _⟩
  · rw [← h.others _ fun p hp heq ↦ hopen p hp (heq ▸ get_lowestFree _), get_lowestFree]
  · obtain ⟨hold, hnew⟩ := List.forall_mem_append.mp hx
    rw [get_alloc_of_ne _ _ (hnew _ List.mem_cons_self), h.others x hold]

theorem RestoredIn.nil (t : FdTable α) : RestoredIn [] t t :=
  ⟨(fun _ hp ↦ nomatch hp), (fun _ hp ↦ nomatch hp), fun _ _ ↦ rfl⟩

/-- One more copy is moved back. -/
theorem RestoredIn.concat (h : RestoredIn saved t₁ t₂) {bak fd : ℕ} (hopen : t₁.get bak ≠ none)
    (hne : bak ≠ fd) (hapart : ∀ p ∈ saved, (bak ≠ p.1 ∧ bak ≠ p.2) ∧ fd ≠ p.1 ∧ fd ≠ p.2) :
    RestoredIn (saved ++ [(bak, fd)]) t₁ (((t₂.dup2 bak fd).getD t₂).close bak) := by
  obtain ⟨d, hd⟩ := Option.ne_none_iff_exists'.mp hopen
  have hbak : t₂.get bak = some d := (h.others bak fun p hp ↦ (hapart p hp).1).trans hd
  obtain ⟨t₃, hdup⟩ := exists_dup2 fd (hbak ▸ Option.some_ne_none d)
  rw [hdup, Option.getD_some]
  have hkept : ∀ x, x ≠ bak → x ≠ fd → (t₃.close bak).get x = t₂.get x := fun x hx hfd ↦ by
    rw [get_close_of_ne _ hx, get_dup2_of_ne hdup hfd]
  refine ⟨List.forall_mem_append.mpr ⟨fun p hp ↦ ?_, List.forall_mem_singleton.mpr ?_⟩,
    List.forall_mem_append.mpr ⟨fun p hp ↦ ?_, List.forall_mem_singleton.mpr ?_⟩, fun x hx ↦ ?_⟩
  · rw [hkept _ (hapart p hp).1.1.symm (hapart p hp).2.1.symm, h.closed p hp]
  · exact get_close_self _ _
  · rw [hkept _ (hapart p hp).1.2.symm (hapart p hp).2.2.symm, h.moved p hp]
  · rw [get_close_of_ne _ hne.symm, get_dup2_self hdup hbak hne, hd]
    rfl
  · obtain ⟨hold, hnew⟩ := List.forall_mem_append.mp hx
    obtain ⟨hx, hfd⟩ := hnew _ List.mem_cons_self
    rw [hkept x hx hfd, h.others x hold]

theorem SavedIn.ne_lowestFree (h : SavedIn saved t₀ t₁) {p : ℕ × ℕ} (hp : p ∈ saved) :
    p.1 ≠ t₁.lowestFree := by
  intro hlowest
  obtain ⟨d, -, hd⟩ := h.copied p hp
  rw [hlowest, get_lowestFree] at hd
  cases hd

section

-- between the two, each descriptor but the lowest free one is written over with a new file, or not
variable {files : ℕ → Option α} (hsaved : SavedIn saved t₀ t₁)
  (hfiles : ∀ fd, fd ≠ t₁.lowestFree →
    t₂.get fd = ((files fd).map (⟨·, false⟩)).or (t₁.get fd))
  (hrestored : RestoredIn saved t₂ t₃) {fd : ℕ}

include hfiles in
theorem get_of_noFile (hfd : fd ≠ t₁.lowestFree) (hnone : files fd = none) :
    t₂.get fd = t₁.get fd := by
  rw [hfiles fd hfd, hnone]
  rfl

include hsaved hfiles hrestored

/-- What was written over and not saved refers to the new file now. -/
theorem targets_of_restored
    (hnew : ∀ fd file, files fd = some file → t₁.get fd ≠ some ⟨file, false⟩)
    (hsame : ∀ fd, t₃.get fd = t₀.get fd) {file : α} (hfile : files fd = some file) :
    (∃ p ∈ saved, fd = p.2) ∨ fd = t₁.lowestFree := by
  by_contra hnot
  obtain ⟨hfd, hlowest⟩ := not_or.mp hnot
  refine hnew fd file hfile ?_
  have hwritten : t₂.get fd = some ⟨file, false⟩ := by
    rw [hfiles fd hlowest, hfile]
    rfl
  by_cases hbak : ∃ p ∈ saved, fd = p.1
  · -- a copy was written over, and what was moved back is the file
    obtain ⟨p, hp, rfl⟩ := hbak
    obtain ⟨d, hd, hcopied⟩ := hsaved.copied p hp
    have hmoved := (hrestored.moved p hp).symm.trans ((hsame p.2).trans hd)
    rw [hwritten] at hmoved
    obtain rfl := Option.some.inj hmoved
    exact hcopied
  · have hne : ∀ p ∈ saved, fd ≠ p.1 := fun p hp heq ↦ hbak ⟨p, hp, heq⟩
    rw [hsaved.others fd hne, ← hsame fd,
      hrestored.others fd fun p hp ↦ ⟨hne p hp, fun heq ↦ hfd ⟨p, hp, heq⟩⟩, hwritten]

theorem restored_of_targets (hfree : t₂.lowestFree = t₁.lowestFree)
    (hflag : ∀ p ∈ saved, ∀ d, t₀.get p.2 = some d → d.cloexec = false)
    (htargets : ∀ fd file, files fd = some file →
      (∃ p ∈ saved, fd = p.2) ∨ fd = t₁.lowestFree) :
    t₃.get fd = t₀.get fd := by
  by_cases hbak : ∃ p ∈ saved, fd = p.1
  · obtain ⟨p, hp, rfl⟩ := hbak
    rw [hrestored.closed p hp, hsaved.fresh p hp]
  have hne : ∀ p ∈ saved, fd ≠ p.1 := fun p hp heq ↦ hbak ⟨p, hp, heq⟩
  by_cases hfd : ∃ p ∈ saved, fd = p.2
  · obtain ⟨p, hp, rfl⟩ := hfd
    obtain ⟨d, hd, hcopied⟩ := hsaved.copied p hp
    -- the copy itself was not written over
    have hkept : t₂.get p.1 = t₁.get p.1 := by
      refine get_of_noFile hfiles (hsaved.ne_lowestFree hp) ?_
      refine Option.eq_none_iff_forall_ne_some.mpr fun file hfile ↦ ?_
      rcases htargets _ _ hfile with ⟨q, hq, heq⟩ | heq
      · obtain ⟨e, he, -⟩ := hsaved.copied q hq
        rw [← heq, hsaved.fresh p hp] at he
        cases he
      · exact hsaved.ne_lowestFree hp heq
    have hcopy : d.copy.copy = d := by
      obtain ⟨file, cloexec⟩ := d
      obtain rfl := hflag p hp _ hd
      rfl
    rw [hrestored.moved p hp, hkept, hcopied, hd, Option.map_some, hcopy]
  · rw [hrestored.others fd fun p hp ↦ ⟨hne p hp, fun heq ↦ hfd ⟨p, hp, heq⟩⟩,
      ← hsaved.others fd hne]
    by_cases hlowest : fd = t₁.lowestFree
    · rw [hlowest, ← hfree, get_lowestFree, hfree, get_lowestFree]
    · exact get_of_noFile hfiles hlowest (Option.eq_none_iff_forall_ne_some.mpr fun file hfile ↦
        hlowest ((htargets fd file hfile).resolve_left hfd))

/-- All is as before exactly when no flag was lost, and what was written over was saved itself. -/
theorem restored_iff (hnew : ∀ fd file, files fd = some file → t₁.get fd ≠ some ⟨file, false⟩)
    (hfree : t₂.lowestFree = t₁.lowestFree) :
    (∀ fd, t₃.get fd = t₀.get fd) ↔
      (∀ p ∈ saved, ∀ d, t₀.get p.2 = some d → d.cloexec = false) ∧
      ∀ fd file, files fd = some file → (∃ p ∈ saved, fd = p.2) ∨ fd = t₁.lowestFree := by
  constructor
  · refine fun hsame ↦ ⟨fun p hp d hd ↦ ?_, fun fd file hfile ↦ ?_⟩
    · have hmoved := (hrestored.moved p hp).symm.trans ((hsame p.2).trans hd)
      obtain ⟨e, -, rfl⟩ := Option.map_eq_some_iff.mp hmoved
      rfl
    · exact targets_of_restored hsaved hfiles hrestored hnew hsame hfile
  · rintro ⟨hflag, htargets⟩ fd
    exact restored_of_targets hsaved hfiles hrestored hfree hflag htargets

end

end

/-! ## Closing several descriptors -/

def closeAll (t : FdTable α) (fds : List ℕ) : FdTable α := fds.foldl close t

theorem get_closeAll {t : FdTable α} {fds : List ℕ} {fd : ℕ} (h : fd ∉ fds) :
    (t.closeAll fds).get fd = t.get fd := by
  induction fds generalizing t with
  | nil => rfl
  | cons fd' fds ih =>
    obtain ⟨hne, hrest⟩ := List.ne_and_not_mem_of_not_mem_cons h
    exact (ih hrest).trans (t.get_close_of_ne hne)

theorem get_of_closeAll {t : FdTable α} {fds : List ℕ} {fd : ℕ} {e : Descriptor α}
    (h : (t.closeAll fds).get fd = some e) : t.get fd = some e := by
  induction fds generalizing t with
  | nil => exact h
  | cons fd' fds ih => exact get_of_close (ih h)

/-! ## Executing a program -/

theorem get_exec (t : FdTable α) (fd : ℕ) :
    t.exec.get fd = (t.get fd).filter fun d ↦ !d.cloexec := by
  simp only [get, exec, List.getD_eq_getElem?_getD, List.getElem?_map]
  cases t.slots[fd]? <;> rfl

end FdTable

end Foundations
