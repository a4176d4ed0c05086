import Novash.Executor.Executor
import Novash.Shell.Loop

/-!
# Redirections in the shell process

A builtin that runs in the shell is redirected in the shell's own table of descriptors, and
afterwards the table should be what it was. `handle_pure_builtin_execution` keeps copies of 0 and 1
and nothing else. A redirection can name any number, among them those of the copies.

All files of a list of redirections are opened at one and the same descriptor, the lowest that is
free when the copies have been made. So what the list does is easy to say (`get_redirected`): each
number gets the file that was opened last for it, except that one.
-/

namespace Novash

open Foundations

/-- The file that is opened by the last redirection of a descriptor. -/
def lastFile : List Redirection → List (Option File) → ℕ → Option OpenFile
  | [], _, _ => none
  | r :: redir, opens, fd =>
    (lastFile redir opens.tail fd).or (if r.fd.toInt = fd then openFile r.type opens else none)

/-- The shell when a builtin is redirected: `dup` has made copies of 0 and 1. -/
def backedUp (sh : Shell) : Shell := (dupFd 1 (dupFd 0 sh).2).2

/-! ## What redirections do -/

theorem dup2Int_ok {nofile old : ℕ} {new : Int32} {fds fds' : FdTable OpenFile}
    (h : dup2Int nofile fds old new = some fds') :
    0 ≤ new.toInt ∧ fds.dup2 old new.toInt.toNat = some fds' := by
  rw [dup2Int] at h
  split at h
  · exact nomatch h
  · next hrange => exact ⟨by omega, h⟩

/-- Redirections that all succeed. -/
theorem get_redirected {nofile : ℕ} {fds' : FdTable OpenFile} {opens' : List (Option File)}
    (redir : List Redirection) :
    ∀ {opens : List (Option File)} {fds : FdTable OpenFile},
      handleRedirection nofile redir opens fds = (.ok (0, fds'), opens') →
      fds'.lowestFree = fds.lowestFree ∧ ∀ fd, fd ≠ fds.lowestFree →
        fds'.get fd = ((lastFile redir opens fd).map (⟨·, false⟩)).or (fds.get fd) := by
  induction redir with
  | nil =>
    intro opens fds h
    cases h
    exact ⟨rfl, fun _ _ ↦ rfl⟩
  | cons r redir ih =>
    intro opens fds h
    rw [handleRedirection] at h
    split at h
    · cases h
    · cases h
    next _ file htarget hfile =>
    dsimp only at h
    split at h
    · cases h
    next fds₁ hdup =>
    obtain ⟨hpos, hdup⟩ := dup2Int_ok hdup
    obtain ⟨hfree, hget⟩ := ih h
    have hlowest : (fds₁.close (fds.alloc ⟨file, false⟩).1).lowestFree = fds.lowestFree :=
      FdTable.lowestFree_redirect hdup
    rw [hlowest] at hfree hget
    refine ⟨hfree, fun fd hfd ↦ (hget fd hfd).trans ?_⟩
    have hone : (fds₁.close (fds.alloc ⟨file, false⟩).1).get fd
        = if r.fd.toInt = fd then some ⟨file, false⟩ else fds.get fd := by
      refine (FdTable.get_redirect hdup fd).trans (if_congr ?_ rfl rfl)
      omega
    rw [hone, lastFile, hfile]
    -- a later redirection of the same descriptor wins
    cases lastFile redir opens.tail fd with
    | some last => rfl
    | none => split <;> rfl

/-- What a list opens is new. -/
theorem opened_of_lastFile {redir : List Redirection} {fd : ℕ} {file : OpenFile} :
    ∀ {opens : List (Option File)}, lastFile redir opens fd = some file →
      ¬file.MadeBefore opens := by
  induction redir with
  | nil => exact fun h ↦ nomatch h
  | cons r redir ih =>
    intro opens h
    rcases Option.or_eq_some_iff.mp h with h | ⟨-, h⟩
    · have hlater := ih h
      cases file with
      | opened left flags file =>
        rw [OpenFile.MadeBefore, List.length_tail] at hlater
        rw [OpenFile.MadeBefore]
        omega
      | _ => exact absurd trivial hlater
    · split at h
      · obtain ⟨f, -, rfl⟩ := Option.map_eq_some_iff.mp h
        exact lt_irrefl _
      · cases h

/-! ## What redirections should do

The files of a list go through the lowest free descriptor on their way. A redirection of that very
descriptor is copied onto itself, and then closed with the original.
-/

/-- Some redirection is of this descriptor. -/
def Named (redir : List Redirection) (fd : ℕ) : Prop := ∃ r ∈ redir, r.fd.toInt = fd

instance (redir : List Redirection) (fd : ℕ) : Decidable (Named redir fd) :=
  inferInstanceAs (Decidable (∃ r ∈ redir, r.fd.toInt = fd))

/-- Every file of a list can be opened. -/
def allOpened : List Redirection → List (Option File) → Bool
  | [], _ => true
  | r :: redir, opens =>
    r.target.isSome && (openFile r.type opens).isSome && allOpened redir opens.tail

theorem named_cons {r : Redirection} {redir : List Redirection} {fd : ℕ} :
    Named (r :: redir) fd ↔ r.fd.toInt = fd ∨ Named redir fd := by
  rw [Named, List.exists_mem_cons_iff]
  rfl

theorem lastFile_eq_none_iff {redir : List Redirection} {fd : ℕ} :
    ∀ {opens : List (Option File)}, allOpened redir opens = true →
      (lastFile redir opens fd = none ↔ ¬Named redir fd) := by
  induction redir with
  | nil => exact fun _ ↦ iff_of_true rfl fun ⟨_, hr, _⟩ ↦ absurd hr List.not_mem_nil
  | cons r redir ih =>
    intro opens h
    rw [allOpened, Bool.and_eq_true, Bool.and_eq_true] at h
    obtain ⟨file, hfile⟩ := Option.isSome_iff_exists.mp h.1.2
    rw [lastFile, hfile, Option.or_eq_none_iff, ih h.2, named_cons, not_or, and_comm]
    exact and_congr_left' (by simp)

theorem allOpened_of_handleRedirection {nofile : ℕ} {fds' : FdTable OpenFile}
    {opens' : List (Option File)} (redir : List Redirection) :
    ∀ {opens : List (Option File)} {fds : FdTable OpenFile},
      handleRedirection nofile redir opens fds = (.ok (0, fds'), opens') →
        allOpened redir opens = true := by
  induction redir with
  | nil => exact fun _ ↦ rfl
  | cons r redir ih =>
    intro opens fds h
    rw [handleRedirection] at h
    split at h
    · cases h
    · cases h
    next htarget hfile =>
    dsimp only at h
    split at h
    · cases h
    rw [allOpened, htarget, hfile, ih h]
    rfl

/-- Each descriptor that is redirected is open on the file of its last redirection, and every other
one is as before. -/
structure RedirectionsMade (redir : List Redirection) (opens : List (Option File))
    (fds fds' : FdTable OpenFile) : Prop where
  named : ∀ fd, Named redir fd →
    ∃ file, lastFile redir opens fd = some file ∧ fds'.get fd = some ⟨file, false⟩
  others : ∀ fd, ¬Named redir fd → fds'.get fd = fds.get fd

/-- If all redirections succeed, they have been made exactly when none is of the lowest descriptor
that was free. -/
theorem redirectionsMade_iff {nofile : ℕ} {redir : List Redirection}
    {opens opens' : List (Option File)} {fds fds' : FdTable OpenFile}
    (h : handleRedirection nofile redir opens fds = (.ok (0, fds'), opens')) :
    RedirectionsMade redir opens fds fds' ↔ ¬Named redir fds.lowestFree := by
  obtain ⟨hfree, hget⟩ := get_redirected redir h
  have hopened := allOpened_of_handleRedirection redir h
  have hclosed : fds'.get fds.lowestFree = none := by
    rw [← hfree]
    exact FdTable.get_lowestFree fds'
  constructor
  · intro hmade hnamed
    obtain ⟨file, -, hfile⟩ := hmade.named _ hnamed
    rw [hclosed] at hfile
    cases hfile
  · intro hfreed
    refine ⟨fun fd hnamed ↦ ?_, fun fd hnot ↦ ?_⟩
    · obtain ⟨file, hfile⟩ := Option.ne_none_iff_exists'.mp
        (mt (lastFile_eq_none_iff hopened).mp (not_not.mpr hnamed))
      refine ⟨file, hfile, ?_⟩
      rw [hget fd fun heq ↦ hfreed (heq ▸ hnamed), hfile]
      rfl
    · by_cases hlowest : fd = fds.lowestFree
      · rw [hlowest, hclosed, FdTable.get_lowestFree]
      · rw [hget fd hlowest, (lastFile_eq_none_iff hopened).mpr hnot]
        rfl

/-- The redirections of `> f 2> g`, on a terminal. -/
theorem redirectionsMade_iff_two :
    ∃ fds', RedirectionsMade
      [{ fd := 1, type := .redirOut, target := some ['f'] },
        { fd := 2, type := .redirOut, target := some ['g'] }]
      [some (.other 0), some (.other 1)] (Shell.onTerminal {}).fds fds' :=
  ⟨_, (@redirectionsMade_iff 1024 _ _ [] _ _ rfl).mpr (by decide)⟩

/-- After `3> f` with 3 free, 3 is free still. -/
theorem not_redirectionsMade :
    ¬∀ (nofile : ℕ) (redir : List Redirection) (opens opens' : List (Option File))
      (fds fds' : FdTable OpenFile),
      handleRedirection nofile redir opens fds = (.ok (0, fds'), opens') →
        RedirectionsMade redir opens fds fds' := by
  intro hclaim
  have hmade := hclaim 1024 [{ fd := 3, type := .redirOut, target := some ['f'] }]
    [some (.other 0)] [] (Shell.onTerminal {}).fds _ rfl
  obtain ⟨file, -, hget⟩ := hmade.named 3 ⟨_, List.mem_cons_self, rfl⟩
  cases hget

/-! ## What a builtin does to the table -/

/-- Only `fg` opens a descriptor. -/
theorem fds_callBuiltin {argv : List CStr} {status : ℤ} {sh sh' : Shell}
    (hfg : argv.headD [] ≠ "fg".toList) (h : callBuiltin argv sh = .ok (status, sh')) :
    sh'.fds = sh.fds := by
  obtain ⟨hname, -⟩ | ⟨-, hbg⟩ | ⟨-, cwd, out, chdirs, rfl⟩ := callBuiltin_cases h
  · exact absurd hname hfg
  · exact (onlyJobs_builtinBg hbg).fds
  · rfl

/-! ## Copies and their return -/

/-- The copies that `handle_pure_builtin_execution` makes, each with what it is a copy of. -/
def backups (sh : Shell) : List (ℕ × ℕ) :=
  ((dupFd 0 sh).1.map (·, 0)).toList ++ ((dupFd 1 (dupFd 0 sh).2).1.map (·, 1)).toList

/-- What `handle_pure_builtin_execution` does last. -/
def restored (sh₀ sh : Shell) : Shell :=
  restoreFd (dupFd 1 (dupFd 0 sh₀).2).1 1 (restoreFd (dupFd 0 sh₀).1 0 sh)

theorem dupFd_of_closed {fd : ℕ} {sh : Shell} (h : sh.fds.get fd = none) :
    dupFd fd sh = (none, sh) := by
  rw [dupFd, h]

theorem dupFd_of_open {fd : ℕ} {sh : Shell} {d : Descriptor OpenFile} (h : sh.fds.get fd = some d) :
    dupFd fd sh = (some sh.fds.lowestFree, { sh with fds := (sh.fds.alloc d.copy).2 }) := by
  rw [dupFd, h]
  rfl

theorem opensNew_dupFd {sh : Shell} (h : sh.OpensNew) (fd : ℕ) : (dupFd fd sh).2.OpensNew := by
  cases hfd : sh.fds.get fd with
  | none =>
    rw [dupFd_of_closed hfd]
    exact h
  | some d =>
    rw [dupFd_of_open hfd]
    exact FdTable.AllFiles.alloc h (h fd d hfd)

theorem opensNew_backedUp {sh : Shell} (h : sh.OpensNew) : (backedUp sh).OpensNew :=
  opensNew_dupFd (opensNew_dupFd h 0) 1

/-- A copy is made of an open descriptor, at one that was free. -/
theorem dupFd_some {fd bak : ℕ} {sh : Shell} (h : (dupFd fd sh).1 = some bak) :
    sh.fds.get fd ≠ none ∧ sh.fds.get bak = none ∧ (dupFd fd sh).2.fds.get bak ≠ none ∧
      ∀ x, sh.fds.get x ≠ none → (dupFd fd sh).2.fds.get x = sh.fds.get x := by
  cases hfd : sh.fds.get fd with
  | none =>
    rw [dupFd_of_closed hfd] at h
    exact nomatch h
  | some d =>
    rw [dupFd_of_open hfd] at h ⊢
    obtain rfl := Option.some.inj h
    refine ⟨Option.some_ne_none _, FdTable.get_lowestFree _, ?_, fun x hx ↦
      FdTable.get_alloc_of_open _ hx⟩
    exact (FdTable.get_alloc_self _ _).symm ▸ Option.some_ne_none _

theorem savedIn_dupFd {saved : List (ℕ × ℕ)} {t₀ : FdTable OpenFile} {fd : ℕ} {sh : Shell}
    (h : FdTable.SavedIn saved t₀ sh.fds) (hfd : ∀ p ∈ saved, fd ≠ p.1) :
    FdTable.SavedIn (saved ++ ((dupFd fd sh).1.map (·, fd)).toList) t₀ (dupFd fd sh).2.fds := by
  cases hopen : sh.fds.get fd with
  | none =>
    rw [dupFd_of_closed hopen]
    exact (List.append_nil saved).symm ▸ h
  | some d =>
    rw [dupFd_of_open hopen]
    exact h.concat ((h.others fd hfd).symm.trans hopen)

theorem savedIn_dupFd_nil (fd : ℕ) (sh : Shell) :
    FdTable.SavedIn ((dupFd fd sh).1.map (·, fd)).toList sh.fds (dupFd fd sh).2.fds :=
  savedIn_dupFd (.nil sh.fds) fun _ hp ↦ nomatch hp

theorem restoredIn_restoreFd {saved : List (ℕ × ℕ)} {t : FdTable OpenFile} {bak? : Option ℕ}
    {fd : ℕ} {sh : Shell} (h : FdTable.RestoredIn saved t sh.fds)
    (hbak : ∀ bak, bak? = some bak → t.get bak ≠ none ∧ bak ≠ fd ∧
      ∀ p ∈ saved, (bak ≠ p.1 ∧ bak ≠ p.2) ∧ fd ≠ p.1 ∧ fd ≠ p.2) :
    FdTable.RestoredIn (saved ++ (bak?.map (·, fd)).toList) t (restoreFd bak? fd sh).fds := by
  cases bak? with
  | none => exact (List.append_nil saved).symm ▸ h
  | some bak =>
    obtain ⟨hopen, hne, hapart⟩ := hbak bak rfl
    exact h.concat hopen hne hapart

section

variable {sh : Shell} (hstdout : sh.fds.get 0 ≠ none → sh.fds.get 1 ≠ none)

include hstdout

/-- Neither copy is at the other's place, nor at that of 1. -/
theorem backups_apart {bak₀ : ℕ} (h₀ : (dupFd 0 sh).1 = some bak₀) :
    bak₀ ≠ 0 ∧ bak₀ ≠ 1 ∧ ∀ bak₁, (dupFd 1 (dupFd 0 sh).2).1 = some bak₁ →
      bak₁ ≠ bak₀ ∧ bak₁ ≠ 0 := by
  obtain ⟨hopen₀, hfree₀, hbak₀, hkept⟩ := dupFd_some h₀
  refine ⟨?_, ?_, fun bak₁ h₁ ↦ ?_⟩
  · rintro rfl
    exact hopen₀ hfree₀
  · rintro rfl
    exact hstdout hopen₀ hfree₀
  obtain ⟨-, hfree₁, -, -⟩ := dupFd_some h₁
  constructor
  · rintro rfl
    exact hbak₀ hfree₁
  · rintro rfl
    exact hopen₀ ((hkept 0 hopen₀).symm.trans hfree₁)

theorem savedIn_backups : FdTable.SavedIn (backups sh) sh.fds (backedUp sh).fds := by
  refine savedIn_dupFd (savedIn_dupFd_nil 0 sh) fun p hp ↦ ?_
  obtain ⟨bak₀, hbak₀, rfl⟩ := Option.map_eq_some_iff.mp (Option.mem_toList.mp hp)
  exact (backups_apart hstdout hbak₀).2.1.symm

theorem restoredIn_restored {sh₁ : Shell} (hopen : ∀ p ∈ backups sh, sh₁.fds.get p.1 ≠ none) :
    FdTable.RestoredIn (backups sh) sh₁.fds (restored sh sh₁).fds := by
  obtain ⟨hopen₀, hopen₁⟩ := List.forall_mem_append.mp hopen
  have h₀ : FdTable.RestoredIn ((dupFd 0 sh).1.map (·, 0)).toList sh₁.fds
      (restoreFd (dupFd 0 sh).1 0 sh₁).fds := by
    refine restoredIn_restoreFd (.nil sh₁.fds) fun bak₀ hbak₀ ↦
      ⟨?_, (backups_apart hstdout hbak₀).1, fun _ hp ↦ nomatch hp⟩
    exact hopen₀ (bak₀, 0) (by simp [hbak₀])
  refine restoredIn_restoreFd h₀ fun bak₁ hbak₁ ↦ ⟨?_, ?_, fun p hp ↦ ?_⟩
  · exact hopen₁ (bak₁, 1) (by simp [hbak₁])
  · rintro rfl
    obtain ⟨hopen, hfree, -, -⟩ := dupFd_some hbak₁
    exact hopen hfree
  · obtain ⟨bak₀, hbak₀, rfl⟩ := Option.map_eq_some_iff.mp (Option.mem_toList.mp hp)
    obtain ⟨-, hne, hapart⟩ := backups_apart hstdout hbak₀
    exact ⟨hapart bak₁ hbak₁, hne.symm, Nat.one_ne_zero⟩

/-- The copies are of those of 0 and 1 that are open. -/
theorem exists_mem_backups (fd : ℕ) :
    (∃ p ∈ backups sh, fd = p.2) ↔ fd < 2 ∧ sh.fds.get fd ≠ none := by
  have hcopied := (savedIn_backups hstdout).copied
  constructor
  · rintro ⟨p, hp, rfl⟩
    obtain ⟨d, hd, -⟩ := hcopied p hp
    refine ⟨?_, hd ▸ Option.some_ne_none d⟩
    rcases List.mem_append.mp hp with hp | hp
    · obtain ⟨bak, -, rfl⟩ := Option.map_eq_some_iff.mp (Option.mem_toList.mp hp)
      exact Nat.zero_lt_two
    · obtain ⟨bak, -, rfl⟩ := Option.map_eq_some_iff.mp (Option.mem_toList.mp hp)
      exact Nat.one_lt_two
  · rintro ⟨hfd, hopen⟩
    obtain ⟨d, hd⟩ := Option.ne_none_iff_exists'.mp hopen
    interval_cases fd
    · refine ⟨(sh.fds.lowestFree, 0), List.mem_append_left _ ?_, rfl⟩
      rw [dupFd_of_open hd]
      exact List.mem_cons_self
    · have hkept : (dupFd 0 sh).2.fds.get 1 = some d := by
        refine ((savedIn_dupFd_nil 0 sh).others 1 fun p hp ↦ ?_).trans hd
        obtain ⟨bak₀, hbak₀, rfl⟩ := Option.map_eq_some_iff.mp (Option.mem_toList.mp hp)
        exact (backups_apart hstdout hbak₀).2.1.symm
      refine ⟨((dupFd 0 sh).2.fds.lowestFree, 1), List.mem_append_right _ ?_, rfl⟩
      rw [dupFd_of_open hkept]
      exact List.mem_cons_self

end

theorem get_restoreFd_self {bak fd : ℕ} {sh : Shell} (hopen : sh.fds.get bak ≠ none)
    (hne : bak ≠ fd) : (restoreFd (some bak) fd sh).fds.get fd ≠ none := by
  have hback : FdTable.RestoredIn [(bak, fd)] sh.fds (restoreFd (some bak) fd sh).fds :=
    (FdTable.RestoredIn.nil sh.fds).concat hopen hne fun _ hp ↦ nomatch hp
  rw [hback.moved _ List.mem_cons_self]
  exact fun hnone ↦ hopen (Option.map_eq_none_iff.mp hnone)

theorem get_restoreFd_of_ne {bak fd x : ℕ} {sh : Shell} (hopen : sh.fds.get bak ≠ none)
    (hne : bak ≠ fd) (hbak : x ≠ bak) (hfd : x ≠ fd) :
    (restoreFd (some bak) fd sh).fds.get x = sh.fds.get x := by
  have hback : FdTable.RestoredIn [(bak, fd)] sh.fds (restoreFd (some bak) fd sh).fds :=
    (FdTable.RestoredIn.nil sh.fds).concat hopen hne fun _ hp ↦ nomatch hp
  refine hback.others x fun p hp ↦ ?_
  obtain rfl := List.mem_singleton.mp hp
  exact ⟨hbak, hfd⟩

/-- With 0 open and 1 closed, the copy of 0 is 1, and what is copied next is that. So 1 is open in
the end. -/
theorem get_restored_ne_none {sh sh₁ : Shell} (h₀ : sh.fds.get 0 ≠ none) (h₁ : sh.fds.get 1 = none)
    (hopen : ∀ fd, (backedUp sh).fds.get fd ≠ none → sh₁.fds.get fd ≠ none) :
    (restored sh sh₁).fds.get 1 ≠ none := by
  have hlowest : sh.fds.lowestFree = 1 := FdTable.lowestFree_eq h₁ fun x hx ↦ by
    obtain rfl := Nat.lt_one_iff.mp hx
    exact h₀
  obtain ⟨d, hd⟩ := Option.ne_none_iff_exists'.mp h₀
  have hbak₀ : (dupFd 0 sh).1 = some 1 := by rw [dupFd_of_open hd, hlowest]
  obtain ⟨-, -, hone, hkept⟩ := dupFd_some hbak₀
  obtain ⟨d₁, hd₁⟩ := Option.ne_none_iff_exists'.mp hone
  have hbak₁ : (dupFd 1 (dupFd 0 sh).2).1 = some (dupFd 0 sh).2.fds.lowestFree := by
    rw [dupFd_of_open hd₁]
  generalize (dupFd 0 sh).2.fds.lowestFree = bak at hbak₁
  obtain ⟨-, hfree, hbak, hkept₁⟩ := dupFd_some hbak₁
  have hne₀ : bak ≠ 0 := by
    rintro rfl
    exact h₀ ((hkept 0 h₀).symm.trans hfree)
  have hne₁ : bak ≠ 1 := by
    rintro rfl
    exact hone hfree
  have hopen₁ : sh₁.fds.get 1 ≠ none := hopen 1 ((hkept₁ 1 hone).symm ▸ hone)
  rw [restored, hbak₁, hbak₀]
  refine get_restoreFd_self ?_ hne₁
  rw [get_restoreFd_of_ne hopen₁ Nat.one_ne_zero hne₁ hne₀]
  exact hopen bak hbak

/-! ## The builtin -/

/-- The builtin is called between the copies and their return. -/
theorem handlePureBuiltinExecutionWith_eq (call : List CStr → Shell → Except Halt (ℤ × Shell))
    (proc : Process) (sh : Shell) :
    handlePureBuiltinExecutionWith call proc sh =
      match handleRedirection (backedUp sh).nofile proc.redir (backedUp sh).script.opens
        (backedUp sh).fds with
      | (.error status, _) => .error (.exited status)
      | (.ok (_, fds), opens) => do
        let (status, sh₁) ← call proc.argv
          { backedUp sh with fds, script := { (backedUp sh).script with opens } }
        return (status, restored sh sh₁) := by
  unfold handlePureBuiltinExecutionWith backedUp restored
  dsimp only
  generalize handleRedirection _ _ _ _ = r
  obtain ⟨result, opens⟩ := r
  cases result <;> rfl

theorem eq_backedUp (sh : Shell) :
    (backedUp sh).nofile = sh.nofile ∧ (backedUp sh).script = sh.script := by
  have hdup : ∀ fd (sh : Shell),
      (dupFd fd sh).2.nofile = sh.nofile ∧ (dupFd fd sh).2.script = sh.script := by
    intro fd sh
    unfold dupFd
    split <;> exact ⟨rfl, rfl⟩
  exact ⟨(hdup 1 _).1.trans (hdup 0 sh).1, (hdup 1 _).2.trans (hdup 0 sh).2⟩

/-- The table in which the redirections of a builtin are made is, once they are undone, what it was:
1 was open if 0 was, neither was to be closed on `exec`, and each redirection was of one of the two,
or of the descriptor at which files are opened. -/
structure Restorable (redir : List Redirection) (sh : Shell) : Prop where
  stdout : sh.fds.get 0 ≠ none → sh.fds.get 1 ≠ none
  flags : ∀ fd < 2, ∀ d, sh.fds.get fd = some d → d.cloexec = false
  targets : ∀ fd file, lastFile redir sh.script.opens fd = some file →
    fd < 2 ∧ sh.fds.get fd ≠ none ∨ fd = (backedUp sh).fds.lowestFree

/-- If all redirections of a builtin other than `fg` succeed, and it returns, then the shell has the
descriptors that it had before exactly when the table was restorable. -/
theorem fds_handlePureBuiltinExecution_iff {proc : Process} {status : ℤ} {sh sh' : Shell}
    {fds : FdTable OpenFile} {opens : List (Option File)} (hnew : sh.OpensNew)
    (hfg : proc.argv.headD [] ≠ "fg".toList)
    (hredir : handleRedirection sh.nofile proc.redir sh.script.opens (backedUp sh).fds
      = (.ok (0, fds), opens))
    (h : handlePureBuiltinExecution proc sh = .ok (status, sh')) :
    (∀ fd, sh'.fds.get fd = sh.fds.get fd) ↔ Restorable proc.redir sh := by
  obtain ⟨hnofile, hscript⟩ := eq_backedUp sh
  rw [handlePureBuiltinExecution, handlePureBuiltinExecutionWith_eq, hnofile, hscript, hredir] at h
  obtain ⟨⟨status₁, sh₁⟩, hcall, h⟩ := bind_ok.mp h
  obtain ⟨-, rfl⟩ := Prod.mk.inj (Except.ok.inj h)
  -- what the builtin leaves is what the redirections made
  have hfds : sh₁.fds = fds := fds_callBuiltin hfg hcall
  obtain ⟨hfree, hget⟩ := get_redirected _ hredir
  rw [← hfds] at hfree hget
  have hopen : ∀ fd, (backedUp sh).fds.get fd ≠ none → sh₁.fds.get fd ≠ none := by
    intro fd hfd
    have hne : fd ≠ (backedUp sh).fds.lowestFree := fun heq ↦ hfd (heq ▸ FdTable.get_lowestFree _)
    rw [hget fd hne]
    cases lastFile proc.redir sh.script.opens fd with
    | none => exact hfd
    | some file => exact Option.some_ne_none _
  by_cases hstdout : sh.fds.get 0 ≠ none → sh.fds.get 1 ≠ none
  · have hsaved := savedIn_backups hstdout
    have hrestored : FdTable.RestoredIn (backups sh) sh₁.fds (restored sh sh₁).fds := by
      refine restoredIn_restored hstdout fun p hp ↦ hopen p.1 ?_
      obtain ⟨d, -, hd⟩ := hsaved.copied p hp
      exact hd ▸ Option.some_ne_none _
    have hfiles : ∀ fd file, lastFile proc.redir sh.script.opens fd = some file →
        (backedUp sh).fds.get fd ≠ some ⟨file, false⟩ := by
      intro fd file hfile hsame
      have hmade := opensNew_backedUp hnew fd _ hsame
      rw [hscript] at hmade
      exact opened_of_lastFile hfile hmade
    rw [FdTable.restored_iff hsaved hget hrestored hfiles hfree]
    have hmem := exists_mem_backups hstdout
    constructor
    · rintro ⟨hflags, htargets⟩
      refine ⟨hstdout, fun fd hfd d hd ↦ ?_, fun fd file hfile ↦ ?_⟩
      · obtain ⟨p, hp, rfl⟩ := (hmem fd).mpr ⟨hfd, hd ▸ Option.some_ne_none d⟩
        exact hflags p hp d hd
      · exact (htargets fd file hfile).imp_left (hmem fd).mp
    · rintro ⟨-, hflags, htargets⟩
      refine ⟨fun p hp d hd ↦ ?_, fun fd file hfile ↦ ?_⟩
      · exact hflags p.2 ((hmem p.2).mp ⟨p, hp, rfl⟩).1 d hd
      · exact (htargets fd file hfile).imp_left (hmem fd).mpr
  · obtain ⟨h₀, h₁⟩ := Classical.not_imp.mp hstdout
    refine ⟨fun hsame ↦ ?_, fun hrest ↦ absurd hrest.stdout hstdout⟩
    exact absurd ((hsame 1).trans (not_not.mp h₁)) (get_restored_ne_none h₀ (not_not.mp h₁) hopen)

/-- `echo > f`, or with another number before the `>`. -/
def echoTo (fd : Int32) : Process where
  argv := ["echo".toList]
  redir := [{ fd, type := .redirOut, target := some ['f'] }]

/-- A shell on a terminal, for which the next file can be opened. -/
def Shell.opening : Shell := .onTerminal { opens := [some (.other 0)] }

theorem Shell.opensNew_opening : Shell.opening.OpensNew := Shell.opensNew_onTerminal _

theorem fds_handlePureBuiltinExecution_stdout :
    ∃ status sh', handlePureBuiltinExecution (echoTo 1) .opening = .ok (status, sh') ∧
      ∀ fd, sh'.fds.get fd = Shell.opening.fds.get fd := by
  have heval : (handlePureBuiltinExecution (echoTo 1) .opening).toOption.map Prod.fst
      = some 0 := by decide
  obtain ⟨⟨status, sh'⟩, h, -⟩ := exists_of_map_eq heval
  have hredir : (handleRedirection Shell.opening.nofile (echoTo 1).redir Shell.opening.script.opens
      (backedUp .opening).fds).1.toOption.map Prod.fst = some 0 := by decide
  obtain ⟨⟨n, fds⟩, hfst, rfl⟩ := exists_of_map_eq hredir
  refine ⟨status, sh', h, (fds_handlePureBuiltinExecution_iff Shell.opensNew_opening (by decide)
    (Prod.ext hfst rfl) h).mpr ⟨by decide, ?_, fun fd file hfile ↦ Or.inl ?_⟩⟩
  · intro fd hfd d hd
    interval_cases fd <;> cases hd <;> rfl
  · obtain rfl : 1 = fd := by
      by_contra hne
      have hone : ¬((1 : Int32).toInt = (fd : ℤ)) := by
        rw [show (1 : Int32).toInt = 1 from rfl]
        omega
      rw [echoTo, lastFile, lastFile, if_neg hone] at hfile
      exact nomatch hfile
    decide

/-- After `echo 2> f` the shell's descriptor 2 refers to the new description of the file. -/
theorem not_fds_handlePureBuiltinExecution :
    ¬∀ (proc : Process) (status : ℤ) (sh sh' : Shell) (fds : FdTable OpenFile)
      (opens : List (Option File)), sh.OpensNew → proc.argv.headD [] ≠ "fg".toList →
      handleRedirection sh.nofile proc.redir sh.script.opens (backedUp sh).fds
        = (.ok (0, fds), opens) →
      handlePureBuiltinExecution proc sh = .ok (status, sh') →
      ∀ fd, sh'.fds.get fd = sh.fds.get fd := by
  intro hclaim
  have heval : (handlePureBuiltinExecution (echoTo 2) .opening).toOption.map
      (fun r ↦ r.2.fds.get 2)
      = some (some ⟨.opened 1 [.wronly, .creat, .trunc] (.other 0), false⟩) := by decide
  obtain ⟨⟨status, sh'⟩, h, hget⟩ := exists_of_map_eq heval
  have hredir : (handleRedirection Shell.opening.nofile (echoTo 2).redir Shell.opening.script.opens
      (backedUp .opening).fds).1.toOption.map Prod.fst = some 0 := by decide
  obtain ⟨⟨n, fds⟩, hfst, rfl⟩ := exists_of_map_eq hredir
  have hsame := hclaim _ _ _ _ _ _ Shell.opensNew_opening (by decide) (Prod.ext hfst rfl) h 2
  exact absurd (hsame.symm.trans hget) (by decide)

end Novash
