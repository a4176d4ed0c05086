import Novash.Executor.FailedRedirections

/-!
# Redirections in a pipeline

A child makes its redirections first, and then moves the ends of its pipes to 0 and 1. So the pipe
wins where both want the same descriptor: `a > f | b` writes to the pipe and leaves `f` empty. And
the ends are still at their old places while the redirections are made, where a redirection that
happens to have such a number writes over them.
-/

namespace Novash

open Foundations

/-! ## The redirections that are made -/

/-- `dup2` accepts the number. -/
def Redirection.inRange (nofile : ℕ) (r : Redirection) : Bool :=
  0 ≤ r.fd.toInt && r.fd.toInt.toNat < nofile

/-- The redirections before the first whose number is out of range: the others are given up. -/
def established (nofile : ℕ) (redir : List Redirection) : List Redirection :=
  redir.takeWhile (Redirection.inRange nofile)

theorem named_of_established {nofile fd : ℕ} {redir : List Redirection}
    (h : Named (established nofile redir) fd) : Named redir fd := by
  obtain ⟨r, hr, hfd⟩ := h
  exact ⟨r, (List.takeWhile_prefix _).subset hr, hfd⟩

theorem allOpened_established {nofile : ℕ} (redir : List Redirection) :
    ∀ {opens : List (Option File)}, allOpened redir opens = true →
      allOpened (established nofile redir) opens = true := by
  induction redir with
  | nil => exact fun _ ↦ rfl
  | cons r redir ih =>
    intro opens h
    rw [allOpened, Bool.and_eq_true] at h
    rw [established, List.takeWhile_cons]
    split
    · rw [allOpened, h.1]
      exact ih h.2
    · rfl

theorem dup2Int_of_inRange {nofile : ℕ} {r : Redirection} (h : r.inRange nofile = true)
    (fds : FdTable OpenFile) (file : OpenFile) :
    ∃ fds', dup2Int nofile (fds.alloc ⟨file, false⟩).2 (fds.alloc ⟨file, false⟩).1 r.fd
      = some fds' := by
  rw [Redirection.inRange, Bool.and_eq_true, decide_eq_true_eq, decide_eq_true_eq] at h
  rw [dup2Int, if_neg (by omega)]
  exact FdTable.exists_dup2 _ (get_alloc_self_ne_none fds ⟨file, false⟩)

theorem dup2Int_of_not_inRange {nofile : ℕ} {r : Redirection} (h : r.inRange nofile = false)
    (fds : FdTable OpenFile) (old : ℕ) : dup2Int nofile fds old r.fd = none := by
  rw [Redirection.inRange, Bool.and_eq_false_iff, decide_eq_false_iff_not,
    decide_eq_false_iff_not] at h
  rw [dup2Int, if_pos (by omega)]

/-- A redirection that fails leaves what the ones before it made. -/
theorem handleRedirection_established {nofile : ℕ} (redir : List Redirection) :
    ∀ {opens : List (Option File)} (fds : FdTable OpenFile), allOpened redir opens = true →
      ∃ n fds' made opens', (handleRedirection nofile redir opens fds).1 = .ok (n, fds') ∧
        handleRedirection nofile (established nofile redir) opens fds = (.ok (0, made), opens') ∧
          ∀ fd, fds'.get fd = made.get fd := by
  induction redir with
  | nil => exact fun fds _ ↦ ⟨0, fds, fds, _, rfl, rfl, fun _ ↦ rfl⟩
  | cons r redir ih =>
    intro opens fds h
    rw [allOpened, Bool.and_eq_true, Bool.and_eq_true] at h
    obtain ⟨target, htarget⟩ := Option.isSome_iff_exists.mp h.1.1
    obtain ⟨file, hfile⟩ := Option.isSome_iff_exists.mp h.1.2
    rw [established, List.takeWhile_cons]
    cases hrange : r.inRange nofile with
    | true =>
      obtain ⟨fds₁, hdup⟩ := dup2Int_of_inRange hrange fds file
      obtain ⟨n, fds', made, opens', hn, hmade, hget⟩ :=
        ih (fds₁.close (fds.alloc ⟨file, false⟩).1) h.2
      refine ⟨n, fds', made, opens', ?_, ?_, hget⟩
      · rw [handleRedirection, htarget, hfile]
        dsimp only
        rw [hdup]
        exact hn
      · rw [if_pos rfl, handleRedirection, htarget, hfile]
        dsimp only
        rw [hdup]
        exact hmade
    | false =>
      refine ⟨1, (fds.alloc ⟨file, false⟩).2.close (fds.alloc ⟨file, false⟩).1, fds, opens, ?_, rfl,
        fun fd ↦ ?_⟩
      · rw [handleRedirection, htarget, hfile]
        dsimp only
        rw [dup2Int_of_not_inRange hrange]
      · by_cases hfd : fd = (fds.alloc ⟨file, false⟩).1
        · rw [hfd, FdTable.get_close_self]
          exact (FdTable.get_lowestFree fds).symm
        · rw [FdTable.get_close_of_ne _ hfd, FdTable.get_alloc_of_ne _ _ hfd]

/-! ## Moving the ends of the pipes -/

/-- A descriptor has been moved to another number. -/
structure Moved (fd : Option ℕ) (target : ℕ) (fds fds' : FdTable OpenFile) : Prop where
  closed : ∀ x, fd = some x → fds'.get x = none
  moved : ∀ x, fd = some x → x ≠ target → fds'.get target = (fds.get x).map Descriptor.copy
  others : ∀ y, fd ≠ some y → (fd ≠ none → y ≠ target) → fds'.get y = fds.get y

theorem moved_of_moveFd {fd : Option ℕ} (target : ℕ) {fds : FdTable OpenFile}
    (h : ∀ x, fd = some x → fds.get x ≠ none) :
    ∃ fds', moveFd fd target fds = .ok fds' ∧ Moved fd target fds fds' := by
  cases fd with
  | none =>
    refine ⟨fds, rfl, fun x hx ↦ ?_, fun x hx ↦ ?_, fun _ _ _ ↦ rfl⟩
    · cases hx
    · cases hx
  | some x =>
    obtain ⟨fds₁, hdup⟩ := FdTable.exists_dup2 target (h x rfl)
    obtain ⟨d, hd⟩ := Option.ne_none_iff_exists'.mp (h x rfl)
    refine ⟨fds₁.close x, by rw [moveFd, hdup], ?_, ?_, fun y hy htarget ↦ ?_⟩
    · rintro _ ⟨⟩
      exact FdTable.get_close_self _ _
    · rintro _ ⟨⟩ hne
      rw [FdTable.get_close_of_ne _ hne.symm, FdTable.get_dup2_self hdup hd hne, hd]
      rfl
    · have hne : y ≠ x := fun heq ↦ hy (heq ▸ rfl)
      rw [FdTable.get_close_of_ne _ hne,
        FdTable.get_dup2_of_ne hdup (htarget (Option.some_ne_none x))]

/-! ## The child -/

theorem get_closeInherited_of_open {ctx : ExecutorCtx} {fds : FdTable OpenFile} {fd : ℕ}
    (h : (closeInherited ctx fds).get fd ≠ none) :
    (closeInherited ctx fds).get fd = fds.get fd := by
  have hclose : ∀ (fds : FdTable OpenFile) (x : ℕ), (fds.close x).get fd ≠ none →
      (fds.close x).get fd = fds.get fd := by
    intro fds x hopen
    refine FdTable.get_close_of_ne _ fun heq ↦ hopen ?_
    rw [heq, FdTable.get_close_self]
  unfold closeInherited at h ⊢
  dsimp only at h ⊢
  split at h
  · next hfirst =>
    have h₁ := hclose _ _ h
    have h₂ := hclose _ _ (h₁ ▸ h)
    rw [if_pos hfirst, h₁, h₂, hclose _ _ (h₂ ▸ h₁ ▸ h)]
  · next hfirst => rw [if_neg hfirst, hclose _ _ h]

/-- The tables of a child: `own` when it comes to its redirections, `made` behind them, `moved` with
its input in place, and `fds` when it executes its program. -/
structure ChildTables (nofile : ℕ) (redir : List Redirection) (opens : List (Option File))
    (inFd outFd : Option ℕ) (own made moved fds : FdTable OpenFile) : Prop where
  open_in : ∀ x, inFd = some x → own.get x ≠ none
  open_out : ∀ y, outFd = some y → own.get y ≠ none
  apart : ∀ x, inFd = some x → outFd ≠ some x
  out_pos : outFd ≠ some 0
  free : made.get own.lowestFree = none
  redirected : ∀ fd, fd ≠ own.lowestFree →
    made.get fd = ((lastFile (established nofile redir) opens fd).map (⟨·, false⟩)).or (own.get fd)
  input : Moved inFd 0 made moved
  output : Moved outFd 1 moved fds

namespace ChildTables

section

variable {nofile : ℕ} {redir : List Redirection} {opens : List (Option File)}
  {inFd outFd : Option ℕ} {own made moved fds : FdTable OpenFile}
  (h : ChildTables nofile redir opens inFd outFd own made moved fds)

include h

/-- The write end of the pipe goes to 1. -/
theorem get_one {y : ℕ} (hy : outFd = some y) (hne : y ≠ 1) :
    fds.get 1 = (made.get y).map Descriptor.copy := by
  rw [h.output.moved y hy hne, h.input.others y fun hin ↦ h.apart y hin hy]
  rintro - rfl
  exact h.out_pos hy

/-- The read end of the pipe goes to 0. -/
theorem get_zero {x : ℕ} (hx : inFd = some x) (hne : x ≠ 0) :
    fds.get 0 = (made.get x).map Descriptor.copy := by
  rw [h.output.others 0 h.out_pos fun _ ↦ Nat.zero_ne_one, h.input.moved x hx hne]

theorem get_in {x : ℕ} (hx : inFd = some x) (hne : outFd ≠ none → x ≠ 1) : fds.get x = none := by
  rw [h.output.others x (h.apart x hx) hne, h.input.closed x hx]

theorem get_others {fd : ℕ} (hin : inFd ≠ some fd) (hout : outFd ≠ some fd)
    (hzero : inFd ≠ none → fd ≠ 0) (hone : outFd ≠ none → fd ≠ 1) : fds.get fd = made.get fd := by
  rw [h.output.others fd hout hone, h.input.others fd hin hzero]

/-- The redirections leave alone what is open and not named. -/
theorem get_made (hopened : allOpened redir opens = true) {fd : ℕ} (hfd : own.get fd ≠ none)
    (hnot : ¬Named redir fd) : made.get fd = own.get fd := by
  have hlast : lastFile (established nofile redir) opens fd = none :=
    (lastFile_eq_none_iff (allOpened_established redir hopened)).mpr (mt named_of_established hnot)
  rw [h.redirected fd fun heq ↦ hfd (heq ▸ FdTable.get_lowestFree own), hlast]
  rfl

end

end ChildTables

theorem exists_childTables {nofile : ℕ} {ctx : ExecutorCtx} {redir : List Redirection}
    {opens : List (Option File)} {fds : FdTable OpenFile}
    (hopened : allOpened redir opens = true)
    (hopen : ∀ x, ctx.inFd = some x ∨ ctx.outFd = some x → (closeInherited ctx fds).get x ≠ none)
    (hne : ∀ x, ctx.inFd = some x → ctx.outFd ≠ some x) (hpos : ctx.outFd ≠ some 0) :
    ∃ made moved fds', (childSetup nofile ctx redir opens fds).1 = .ok fds' ∧
      ChildTables nofile redir opens ctx.inFd ctx.outFd (closeInherited ctx fds) made moved
        fds' := by
  obtain ⟨n, made, made', opens', hredir, hestablished, hsame⟩ :=
    @handleRedirection_established nofile redir opens (closeInherited ctx fds) hopened
  obtain ⟨hfree, hget⟩ := get_redirected _ hestablished
  have hmade : ∀ fd, fd ≠ (closeInherited ctx fds).lowestFree →
      made.get fd = ((lastFile (established nofile redir) opens fd).map (⟨·, false⟩)).or
        ((closeInherited ctx fds).get fd) := fun fd hfd ↦ (hsame fd).trans (hget fd hfd)
  have hkept : ∀ x, ctx.inFd = some x ∨ ctx.outFd = some x → made.get x ≠ none := by
    intro x hx
    have hx := hopen x hx
    rw [hmade x fun heq ↦ hx (heq ▸ FdTable.get_lowestFree _)]
    exact fun hnone ↦ hx (Option.or_eq_none_iff.mp hnone).2
  obtain ⟨moved, hmove, hin⟩ := moved_of_moveFd 0 fun x (hx : ctx.inFd = some x) ↦
    hkept x (Or.inl hx)
  obtain ⟨fds', hmove', hout⟩ := @moved_of_moveFd ctx.outFd 1 moved fun y hy ↦ by
    rw [hin.others y (fun hin ↦ hne y hin hy) fun _ heq ↦ hpos (heq ▸ hy)]
    exact hkept y (Or.inr hy)
  refine ⟨made, moved, fds', ?_, fun x hx ↦ hopen x (Or.inl hx), fun y hy ↦ hopen y (Or.inr hy),
    hne, hpos, ?_, hmade, hin, hout⟩
  · unfold childSetup
    dsimp only
    rw [hredir]
    change (moveFd ctx.inFd 0 made >>= moveFd ctx.outFd 1) = .ok fds'
    rw [hmove]
    exact hmove'
  · rw [hsame, ← hfree]
    exact FdTable.get_lowestFree _

/-! ## Who wins -/

namespace Attempt

/-- When a child executes its program with this table, its redirections have won over its pipes:
each number that is redirected is a descriptor on the file of its last redirection, and 0 and 1
refer to what the context holds for them only where they are not redirected. -/
structure RedirectionsWin (a : Attempt) (ctx : ExecutorCtx) (fds : FdTable OpenFile) : Prop where
  named : ∀ r ∈ a.proc.redir, ∃ fd file, r.fd.toInt = (fd : ℕ) ∧
    lastFile a.proc.redir a.sh.script.opens fd = some file ∧ fds.get fd = some ⟨file, false⟩
  input : ∀ x, ctx.inFd = some x →
    (fds.get 0).map Descriptor.file = (a.sh.fds.get x).map Descriptor.file →
      ¬Named a.proc.redir 0
  output : ∀ y, ctx.outFd = some y →
    (fds.get 1).map Descriptor.file = (a.sh.fds.get y).map Descriptor.file →
      ¬Named a.proc.redir 1

/-- The redirections of a child spare the lowest descriptor that is free to it, the ends of its
pipes, and the places for these. -/
structure Spared (a : Attempt) (ctx : ExecutorCtx) : Prop where
  free : ¬Named a.proc.redir (closeInherited ctx a.sh.fds).lowestFree
  input : ∀ x, ctx.inFd = some x → ¬Named a.proc.redir x ∧ ¬Named a.proc.redir 0
  output : ∀ y, ctx.outFd = some y → ¬Named a.proc.redir y ∧ ¬Named a.proc.redir 1
  /-- If all numbers are in range this says nothing more: all redirections are made. Otherwise those
  that are given up are of descriptors that refer to the files anyway. -/
  numbers : ∀ r ∈ a.proc.redir, ∃ fd : ℕ, r.fd.toInt = fd ∧
    ((lastFile (established a.sh.nofile a.proc.redir) a.sh.script.opens fd).map (⟨·, false⟩)).or
        ((closeInherited ctx a.sh.fds).get fd)
      = (lastFile a.proc.redir a.sh.script.opens fd).map (⟨·, false⟩)

/-- What is named, and neither an end of a pipe nor a place for one, stays as the redirections have
made it. -/
theorem get_of_named {nofile : ℕ} {redir : List Redirection} {opens : List (Option File)}
    {inFd outFd : Option ℕ} {own made moved fds : FdTable OpenFile}
    (h : ChildTables nofile redir opens inFd outFd own made moved fds)
    (hin : ∀ x, inFd = some x → ¬Named redir x ∧ ¬Named redir 0)
    (hout : ∀ y, outFd = some y → ¬Named redir y ∧ ¬Named redir 1) {fd : ℕ}
    (hfd : Named redir fd) : fds.get fd = made.get fd := by
  refine h.get_others ?_ ?_ ?_ ?_
  · exact fun hx ↦ (hin fd hx).1 hfd
  · exact fun hy ↦ (hout fd hy).1 hfd
  · intro hne heq
    obtain ⟨x, hx⟩ := Option.ne_none_iff_exists'.mp hne
    exact (hin x hx).2 (heq ▸ hfd)
  · intro hne heq
    obtain ⟨y, hy⟩ := Option.ne_none_iff_exists'.mp hne
    exact (hout y hy).2 (heq ▸ hfd)

section

-- `fds'` is the table of the program, when what is to be closed on `exec` may have been closed
variable {a : Attempt} {ctx : ExecutorCtx} {made moved fds fds' : FdTable OpenFile}
  (hopened : allOpened a.proc.redir a.sh.script.opens = true)
  (htables : ChildTables a.sh.nofile a.proc.redir a.sh.script.opens ctx.inFd ctx.outFd
    (closeInherited ctx a.sh.fds) made moved fds)
  (hexec : ∀ fd file, fds'.get fd = some ⟨file, false⟩ ↔ fds.get fd = some ⟨file, false⟩)

include hexec in
/-- Where the end of a pipe has been copied, the program finds the pipe. -/
theorem file_of_copy {x target : ℕ} (hopen : (closeInherited ctx a.sh.fds).get x ≠ none)
    (hcopy : fds.get target = ((closeInherited ctx a.sh.fds).get x).map Descriptor.copy) :
    (fds'.get target).map Descriptor.file = (a.sh.fds.get x).map Descriptor.file := by
  have hsame := get_closeInherited_of_open hopen
  rw [hsame] at hopen hcopy
  obtain ⟨d, hd⟩ := Option.ne_none_iff_exists'.mp hopen
  rw [hd] at hcopy ⊢
  rw [(hexec target d.file).mpr hcopy]
  rfl

include hopened htables hexec

theorem spared_of_redirectionsWin (hwin : a.RedirectionsWin ctx fds') : a.Spared ctx := by
  have hopen : ∀ fd, Named a.proc.redir fd → fds.get fd ≠ none := by
    rintro fd ⟨r, hr, hfd⟩ hnone
    obtain ⟨fd', file, hfd', -, hget⟩ := hwin.named r hr
    obtain rfl : fd = fd' := by omega
    rw [hexec, hnone] at hget
    cases hget
  -- the output is moved last, so its end is closed, and it has taken 1
  have hout : ∀ y, ctx.outFd = some y → ¬Named a.proc.redir y ∧ ¬Named a.proc.redir 1 := by
    intro y hy
    have hend : ¬Named a.proc.redir y := fun hnamed ↦ hopen y hnamed (htables.output.closed y hy)
    refine ⟨hend, fun hnamed ↦ ?_⟩
    have hmade := htables.get_made hopened (htables.open_out y hy) hend
    refine hwin.output y hy (file_of_copy hexec (htables.open_out y hy) ?_) hnamed
    rw [htables.get_one hy fun heq ↦ hend (heq ▸ hnamed), hmade]
  have hin : ∀ x, ctx.inFd = some x → ¬Named a.proc.redir x ∧ ¬Named a.proc.redir 0 := by
    intro x hx
    have hend : ¬Named a.proc.redir x := by
      intro hnamed
      refine hopen x hnamed (htables.get_in hx fun hne heq ↦ ?_)
      obtain ⟨y, hy⟩ := Option.ne_none_iff_exists'.mp hne
      exact (hout y hy).2 (heq ▸ hnamed)
    refine ⟨hend, fun hnamed ↦ ?_⟩
    have hmade := htables.get_made hopened (htables.open_in x hx) hend
    refine hwin.input x hx (file_of_copy hexec (htables.open_in x hx) ?_) hnamed
    rw [htables.get_zero hx fun heq ↦ hend (heq ▸ hnamed), hmade]
  have hfree : ¬Named a.proc.redir (closeInherited ctx a.sh.fds).lowestFree := fun hnamed ↦
    hopen _ hnamed ((get_of_named htables hin hout hnamed).trans htables.free)
  refine ⟨hfree, hin, hout, fun r hr ↦ ?_⟩
  obtain ⟨fd, file, hfd, hlast, hget⟩ := hwin.named r hr
  have hnamed : Named a.proc.redir fd := ⟨r, hr, hfd⟩
  refine ⟨fd, hfd, ?_⟩
  rw [← htables.redirected fd fun heq ↦ hfree (heq ▸ hnamed),
    ← get_of_named htables hin hout hnamed, (hexec fd file).mp hget, hlast]
  rfl

theorem redirectionsWin_of_spared (hspared : a.Spared ctx) : a.RedirectionsWin ctx fds' := by
  refine ⟨fun r hr ↦ ?_, fun x hx _ ↦ (hspared.input x hx).2,
    fun y hy _ ↦ (hspared.output y hy).2⟩
  obtain ⟨fd, hfd, hnumber⟩ := hspared.numbers r hr
  have hnamed : Named a.proc.redir fd := ⟨r, hr, hfd⟩
  obtain ⟨file, hlast⟩ := Option.ne_none_iff_exists'.mp
    (mt (lastFile_eq_none_iff hopened).mp (not_not.mpr hnamed))
  refine ⟨fd, file, hfd, hlast, (hexec fd file).mpr ?_⟩
  rw [get_of_named htables hspared.input hspared.output hnamed,
    htables.redirected fd fun heq ↦ hspared.free (heq ▸ hnamed), hnumber, hlast]
  rfl

end

/-- The write end of a pipe is not 0, since its read end is lower. -/
theorem outFd_ne_zero {node : Ast} {sh : Shell} {a : Attempt} {addr : ℕ} {ctx : ExecutorCtx}
    (ha : a ∈ execAttempts node sh) (hplace : a.place = .child addr ctx) :
    ctx.outFd ≠ some 0 := by
  have hchild : a.place ≠ .shell := by
    intro hshell
    cases hplace.symm.trans hshell
  obtain ⟨proc, rest, addr', ctx', sh', -, rfl⟩ := exists_turn_of_mem_execAttempts ha hchild
  cases hplace
  change (nextPipe rest sh').1.map Prod.snd ≠ some 0
  by_cases hrest : rest = []
  · rw [nextPipe, if_pos hrest]
    intro hzero
    cases hzero
  · obtain ⟨r, w, hpipe, -, hnew⟩ := exists_nextPipe hrest sh'
    rw [hpipe]
    intro hzero
    obtain rfl : w = 0 := Option.some.inj hzero
    -- the read end is at the lowest free descriptor
    have hread : r = sh'.fds.lowestFree := by
      rw [nextPipe, if_neg hrest] at hpipe
      exact (congrArg Prod.fst (Option.some.inj hpipe)).symm
    rw [FdTable.lowestFree_eq hnew.write_new fun x hx ↦ absurd hx (Nat.not_lt_zero x)] at hread
    exact hnew.ne hread

/-- For every command that is forked, if all files of its redirections can be opened: they win over
the pipes exactly when they spare what the child needs. -/
theorem redirectionsWin_iff {node : Ast} {sh : Shell} {a : Attempt} {addr : ℕ} {ctx : ExecutorCtx}
    (ha : a ∈ execAttempts node sh) (hplace : a.place = .child addr ctx)
    (hopened : allOpened a.proc.redir a.sh.script.opens = true) :
    ∃ fds, (childSetup a.sh.nofile ctx a.proc.redir a.sh.script.opens a.sh.fds).1 = .ok fds ∧
      (a.RedirectionsWin ctx fds ↔ a.Spared ctx) ∧
      (a.RedirectionsWin ctx fds.exec ↔ a.Spared ctx) := by
  obtain ⟨hopen, hne⟩ := ready_of_mem_execAttempts ha addr ctx hplace
  obtain ⟨made, moved, fds, hsetup, htables⟩ := @exists_childTables a.sh.nofile ctx a.proc.redir
    a.sh.script.opens a.sh.fds hopened hopen hne (outFd_ne_zero ha hplace)
  have hexec : ∀ fd file, fds.exec.get fd = some ⟨file, false⟩ ↔
      fds.get fd = some ⟨file, false⟩ := by
    intro fd file
    rw [FdTable.get_exec, Option.filter_eq_some_iff]
    exact and_iff_left rfl
  exact ⟨fds, hsetup,
    ⟨spared_of_redirectionsWin hopened htables fun _ _ ↦ Iff.rfl,
      redirectionsWin_of_spared hopened htables fun _ _ ↦ Iff.rfl⟩,
    ⟨spared_of_redirectionsWin hopened htables hexec,
      redirectionsWin_of_spared hopened htables hexec⟩⟩

/-- A command with its errors redirected to a file. -/
def errorsTo (name target : CStr) : Ast :=
  .cmd
    { argvParts := [[⟨.wordLiteral, .quoteNone, name⟩]]
      argv := some [name]
      redir := [{ fd := 2, type := .redirOut, target := some target }] }
    false

/-- `a 2> f | b`, from a terminal. -/
theorem redirectionsWin_iff_stderr :
    ∃ a ∈ execAttempts (.pipeline [errorsTo ['a'] ['f'], .word ['b'] false] false)
        (.onTerminal { pids := [10, 11], opens := [some (.other 0)] }),
      ∃ ctx fds, a.place = .child 0 ctx ∧
        (childSetup a.sh.nofile ctx a.proc.redir a.sh.script.opens a.sh.fds).1 = .ok fds ∧
        a.RedirectionsWin ctx fds.exec := by
  obtain ⟨a, rest, ctx, hattempts, hplace, hopened, hredir, hin, hout, hfree, hfile⟩ :
      ∃ (a : Attempt) (rest : List Attempt) (ctx : ExecutorCtx),
        execAttempts (.pipeline [errorsTo ['a'] ['f'], .word ['b'] false] false)
          (.onTerminal { pids := [10, 11], opens := [some (.other 0)] }) = a :: rest ∧
        a.place = .child 0 ctx ∧ allOpened a.proc.redir a.sh.script.opens = true ∧
        a.proc.redir.map Redirection.fd = [2] ∧ ctx.inFd = none ∧ ctx.outFd = some 7 ∧
        (closeInherited ctx a.sh.fds).lowestFree = 3 ∧
        ((lastFile (established a.sh.nofile a.proc.redir) a.sh.script.opens 2).map
            (⟨·, false⟩)).or ((closeInherited ctx a.sh.fds).get 2)
          = (lastFile a.proc.redir a.sh.script.opens 2).map (⟨·, false⟩) :=
    ⟨_, _, _, rfl, rfl, by decide, by decide, by decide, by decide, by decide, by decide⟩
  have hfd : ∀ r ∈ a.proc.redir, r.fd.toInt = 2 := by
    intro r hr
    have hmem := List.mem_map_of_mem (f := Redirection.fd) hr
    rw [hredir] at hmem
    rw [List.mem_singleton.mp hmem]
    rfl
  have hnot : ∀ fd, fd ≠ 2 → ¬Named a.proc.redir fd := by
    rintro fd hne ⟨r, hr, hnamed⟩
    have htwo := hfd r hr
    omega
  have hspared : a.Spared ctx := by
    refine ⟨hfree ▸ hnot 3 (by decide), fun x hx ↦ ?_, fun y hy ↦ ?_,
      fun r hr ↦ ⟨2, hfd r hr, hfile⟩⟩
    · rw [hin] at hx
      cases hx
    · rw [hout] at hy
      cases hy
      exact ⟨hnot 7 (by decide), hnot 1 (by decide)⟩
  have ha : a ∈ execAttempts (.pipeline [errorsTo ['a'] ['f'], .word ['b'] false] false)
      (.onTerminal { pids := [10, 11], opens := [some (.other 0)] }) := by
    rw [hattempts]
    exact List.mem_cons_self
  obtain ⟨fds, hsetup, -, hwin⟩ := redirectionsWin_iff ha hplace hopened
  exact ⟨a, ha, ctx, fds, hplace, hsetup, hwin.mpr hspared⟩

/-- In `a > f | b` the output of `a` goes to the pipe. -/
theorem not_redirectionsWin :
    ¬∀ (node : Ast) (sh : Shell) (a : Attempt) (addr : ℕ) (ctx : ExecutorCtx)
      (fds : FdTable OpenFile), a ∈ execAttempts node sh → a.place = .child addr ctx →
      allOpened a.proc.redir a.sh.script.opens = true →
      (childSetup a.sh.nofile ctx a.proc.redir a.sh.script.opens a.sh.fds).1 = .ok fds →
      a.RedirectionsWin ctx fds.exec := by
  intro hclaim
  obtain ⟨a, rest, ctx, hattempts, hplace, hopened, hredir, fds, hsetup, hget⟩ :
      ∃ (a : Attempt) (rest : List Attempt) (ctx : ExecutorCtx),
        execAttempts (.pipeline [.wordTo ['a'] ['f'], .word ['b'] false] false)
          (.onTerminal { pids := [10, 11], opens := [some (.other 0)] }) = a :: rest ∧
        a.place = .child 0 ctx ∧ allOpened a.proc.redir a.sh.script.opens = true ∧
        lastFile a.proc.redir a.sh.script.opens 1
          = some (.opened 1 [.wronly, .creat, .trunc] (.other 0)) ∧
        ∃ fds, (childSetup a.sh.nofile ctx a.proc.redir a.sh.script.opens a.sh.fds).1 = .ok fds ∧
          fds.exec.get 1 = some ⟨.pipeWrite 1, false⟩ :=
    ⟨_, _, _, rfl, rfl, by decide, by decide, _, rfl, by decide⟩
  have hwin := hclaim _ _ a 0 ctx fds (hattempts ▸ List.mem_cons_self) hplace hopened hsetup
  obtain ⟨r, hr, hfd⟩ : Named a.proc.redir 1 := by
    by_contra hnot
    rw [(lastFile_eq_none_iff hopened).mpr hnot] at hredir
    cases hredir
  obtain ⟨fd, file, hfd', hlast, hfile⟩ := hwin.named r hr
  obtain rfl : fd = 1 := by omega
  rw [hredir] at hlast
  rw [hget] at hfile
  cases hlast
  cases hfile

end Attempt

end Novash
