import Novash.Executor.AwaitedJob
import Novash.Executor.Calls
import Novash.Executor.Redirections
import Novash.Executor.Status

/-!
# Redirections that fail

A redirection fails because its file cannot be opened, or because the number before the `>` is out
of range (`firstFailure`). Either way the command should not be run, and the shell should go on.

`handle_redirection` serves both the children and the shell. `xopen` ends the process it is in,
which is right in a child and wrong in the shell. A `dup2` that fails is reported by the result,
which neither caller looks at, so the command is run all the same. What remains is the case of a
child and a file that cannot be opened (`failsSafely_iff`).

That the shell goes on means that `run_job` returns. For a child this is no matter of redirections:
the forks have to succeed, the wait has to end, and for a job in the foreground descriptor 0 has to
be a terminal, because the shell ends when it cannot take that back (`returns_runJob_iff`).
-/

namespace Novash

open Foundations

/-! ## The first failure -/

/-- The system call that fails for a redirection. -/
inductive RedirectionFailure
  | opening
  | duplicating
  deriving DecidableEq, Repr

/-- What fails first in a list of redirections, if anything does. The descriptor that `dup2` copies
is open, so that it fails only for a target that is out of range. -/
def firstFailure (nofile : ℕ) : List Redirection → List (Option File) →
    Option RedirectionFailure
  | [], _ => none
  | r :: redir, opens =>
    if r.target = none ∨ openFile r.type opens = none then some .opening
    else if r.fd.toInt < 0 ∨ nofile ≤ r.fd.toInt.toNat then some .duplicating
    else firstFailure nofile redir opens.tail

theorem handleRedirection_of_opening {nofile : ℕ} (redir : List Redirection) :
    ∀ {opens : List (Option File)} (fds : FdTable OpenFile),
      firstFailure nofile redir opens = some .opening →
      (handleRedirection nofile redir opens fds).1 = .error 127 := by
  induction redir with
  | nil =>
    intro opens fds h
    cases h
  | cons r redir ih =>
    intro opens fds h
    rw [handleRedirection]
    rw [firstFailure] at h
    cases htarget : r.target with
    | none => rfl
    | some target =>
    cases hfile : openFile r.type opens with
    | none => rfl
    | some file =>
    rw [if_neg (by simp only [htarget, hfile, reduceCtorEq, or_self, not_false_eq_true])] at h
    dsimp only
    rw [dup2Int]
    split at h
    · cases h
    next hrange =>
    obtain ⟨fds₁, hdup⟩ := FdTable.exists_dup2 r.fd.toInt.toNat
      (get_alloc_self_ne_none fds ⟨file, false⟩)
    rw [if_neg hrange, hdup]
    exact ih _ h

/-- If all files can be opened, up to one that cannot be copied, `handle_redirection` returns, and
closes nothing that was open. -/
theorem handleRedirection_returns {nofile : ℕ} (redir : List Redirection) :
    ∀ {opens : List (Option File)} (fds : FdTable OpenFile),
      firstFailure nofile redir opens ≠ some .opening →
      ∃ n fds', (handleRedirection nofile redir opens fds).1 = .ok (n, fds') ∧
        (n = 0 ↔ firstFailure nofile redir opens = none) ∧
        ∀ fd, fds.get fd ≠ none → fds'.get fd ≠ none := by
  induction redir with
  | nil => exact fun fds _ ↦ ⟨0, fds, rfl, iff_of_true rfl rfl, fun _ h ↦ h⟩
  | cons r redir ih =>
    intro opens fds h
    rw [handleRedirection]
    rw [firstFailure] at h ⊢
    cases htarget : r.target with
    | none => exact absurd (if_pos (Or.inl htarget)) h
    | some target =>
    cases hfile : openFile r.type opens with
    | none => exact absurd (if_pos (Or.inr hfile)) h
    | some file =>
    have hopens : ¬((some target : Option CStr) = none ∨ some file = none) := by simp
    rw [htarget, hfile, if_neg hopens] at h
    rw [if_neg hopens]
    dsimp only
    rw [dup2Int]
    by_cases hrange : r.fd.toInt < 0 ∨ nofile ≤ r.fd.toInt.toNat
    · rw [if_pos hrange, if_pos hrange]
      refine ⟨1, _, rfl, iff_of_false one_ne_zero (Option.some_ne_none _), fun fd hfd ↦ ?_⟩
      rwa [FdTable.get_close_of_ne _ (FdTable.ne_alloc _ hfd), FdTable.get_alloc_of_open _ hfd]
    obtain ⟨fds₁, hdup⟩ := FdTable.exists_dup2 r.fd.toInt.toNat
      (get_alloc_self_ne_none fds ⟨file, false⟩)
    rw [if_neg hrange] at h
    rw [if_neg hrange, if_neg hrange, hdup]
    obtain ⟨n, fds', hrest, hn, hkept⟩ := ih (fds₁.close (fds.alloc ⟨file, false⟩).1) h
    refine ⟨n, fds', hrest, hn, fun fd hfd ↦ hkept fd ?_⟩
    have hget := FdTable.get_redirect hdup fd
    rw [show (fds.alloc ⟨file, false⟩).1 = fds.lowestFree from rfl, hget]
    split
    · exact Option.some_ne_none _
    · exact hfd

/-! ## What is run -/

/-- The body of a command. -/
inductive Body
  | builtin (argv : List CStr)
  | program (path : CStr) (argv : List CStr)

/-- `execute_process`, up to the call of the builtin's function or of `execv`. A child whose command
is not found ends, and one without a command crashes. -/
def executeProcess (argv : List CStr) (sh : Shell) : Option Body :=
  match argv with
  | [] => none
  | name :: _ =>
    if builtinIsBuiltin name then some (.builtin argv)
    else (isInPath name sh).map fun path ↦ .program path argv

/-- Where `run_job` has a command run: by the shell, or by a child that is forked with a context for
the job at an address. -/
inductive Place
  | shell
  | child (addr : ℕ) (ctx : ExecutorCtx)

/-- A command that `run_job` comes to. -/
structure Attempt where
  proc : Process
  place : Place
  sh : Shell

/-- The commands that the loop of `run_job` comes to. -/
def forkAttempts : List Process → Job → ExecutorCtx → Shell → List Attempt
  | [], _, _, _ => []
  | proc :: rest, job, ctx, sh =>
    let fd := (nextPipe rest sh).1
    let sh := (nextPipe rest sh).2
    ⟨proc, .child job.addr (ctx.withOut fd), sh⟩ ::
      match forkProcess job.addr proc (ctx.withOut fd) sh with
      | .error _ => []
      | .ok (pid, sh) =>
        forkAttempts rest (job.addForked proc pid (ctx.group pid)) ((ctx.withOut fd).next pid fd)
          (finishFork job.isBackground (ctx.withOut fd) pid sh)

/-- The commands that `run_job` comes to. -/
def jobAttempts (job : Job) (sh : Shell) : List Attempt :=
  let (job, sh) := enlist job sh
  match isPureBuiltin job.processes with
  | .error _ => []
  | .ok (some proc) => [⟨proc, .shell, sh⟩]
  | .ok none =>
    let (ctx, sh) := executorInitContext sh
    forkAttempts job.processes { job with processes := [] } ctx sh

/-- The commands that come to be run when a tree is executed. -/
def execAttempts (node : Ast) (sh : Shell) : List Attempt :=
  (execCalls node sh).flatMap fun c ↦ jobAttempts c.1 c.2

namespace Attempt

/-- What fails first in the redirections of the command. -/
def failure (a : Attempt) : Option RedirectionFailure :=
  firstFailure a.sh.nofile a.proc.redir a.sh.script.opens

/-- The body of the command is run. In the shell this means that `handle_pure_builtin_execution`
ends in whatever way the builtin does. -/
def RunsBody (a : Attempt) : Prop :=
  match a.place with
  | .shell => ∀ e, handlePureBuiltinExecutionWith (fun _ _ ↦ .error e) a.proc a.sh = .error e
  | .child _ ctx =>
    (∃ fds, (childSetup a.sh.nofile ctx a.proc.redir a.sh.script.opens a.sh.fds).1 = .ok fds) ∧
      executeProcess a.proc.argv a.sh ≠ none

/-- The command is given up, and the shell goes on: the call of `run_job` returns. -/
def FailsSafely (a : Attempt) (c : Job × Shell) : Prop :=
  ¬a.RunsBody ∧ ∃ r, runJob c.1 c.2 = .ok r

end Attempt

/-- What a call of `run_job` that forks takes for granted of the system: every fork succeeds, and
the wait for a job in the foreground comes to an end. -/
def Granted (c : Job × Shell) : Prop :=
  ∃ job sh, forkJob (enlist c.1 c.2).1 (executorInitContext (enlist c.1 c.2).2).1
    (executorInitContext (enlist c.1 c.2).2).2 = .ok (job, sh) ∧
      (c.1.isBackground = false → ∃ r, foregroundLoop job.addr sh.script.wakeups sh = .ok r)

/-! ## The return of `run_job` -/

section

variable {sh sh₁ : Shell} {job job' : Job}

/-- On a terminal the wait returns when the loop ends, and elsewhere not at all. -/
theorem wait_returns_iff (hjob : sh.table.deref job.addr = some job) (hpos : 0 < job.pgid)
    (hgroup : ∃ k ∈ sh.children, k.pgid = job.pgid) :
    (∃ r, handleForegroundExecution job.addr sh = .ok r) ↔
      sh.tty = true ∧ ∃ r, foregroundLoop job.addr sh.script.wakeups sh = .ok r := by
  -- the loop leaves the descriptors alone
  have hregain : ∀ {stopped sh₂}, foregroundLoop job.addr sh.script.wakeups sh
      = .ok (stopped, sh₂) → ∀ table, { sh₂ with table : Shell }.tty = sh.tty := by
    intro stopped sh₂ hloop table
    change sh₂.tty = sh.tty
    rw [Shell.tty, (onlyJobs_foregroundLoop _ hloop).fds]
    rfl
  unfold handleForegroundExecution
  rw [hjob]
  dsimp only
  constructor
  · rintro ⟨r, h⟩
    obtain ⟨sh₁, hgrp, h⟩ := bind_ok.mp h
    obtain ⟨⟨stopped, sh₂⟩, hloop, h⟩ := bind_ok.mp h
    have htty : sh.tty = true := by
      have hfds : sh₂.fds = sh.fds :=
        (onlyJobs_foregroundLoop _ hloop).fds.trans (onlyJobs_xtcsetpgrp hgrp).fds
      have hback : ∀ {sh₃ sh₄ : Shell}, shellRegainControl sh₃ = .ok sh₄ → sh₃.fds = sh.fds →
          sh.tty = true := by
        intro sh₃ sh₄ hregain hsame
        unfold shellRegainControl at hregain
        split at hregain
        · next htty => rwa [Shell.tty, hsame] at htty
        · cases hregain
      dsimp only at h
      split at h
      · obtain ⟨_, h, -⟩ := bind_ok.mp h
        exact hback h hfds
      split at h
      · cases h
      · obtain ⟨_, h, -⟩ := bind_ok.mp h
        exact hback h hfds
    cases hgrp.symm.trans (xtcsetpgrp_of_group htty hpos hgroup)
    exact ⟨htty, _, hloop⟩
  · rintro ⟨htty, ⟨stopped, sh₂⟩, hloop⟩
    obtain ⟨events, job', -, -, hend⟩ := foregroundLoop_end _ hloop
    rw [xtcsetpgrp_of_group htty hpos hgroup]
    simp only [bind, Except.bind, hloop]
    cases stopped with
    | true =>
      rw [if_pos rfl, shellRegainControl_of_tty ((hregain hloop sh₂.table).trans htty)]
      exact ⟨_, rfl⟩
    | false =>
      rw [if_neg Bool.false_ne_true, hend.deref]
      dsimp only
      rw [shellRegainControl_of_tty ((hregain hloop _).trans htty)]
      exact ⟨_, rfl⟩

/-- A terminal that is open after something else has been opened was open before. -/
theorem get_of_alloc_terminal {t : FdTable OpenFile} {d e : Descriptor OpenFile} {fd : ℕ}
    (hd : d.file.isTerminal = true) (he : e.file.isTerminal = false)
    (h : (t.alloc e).2.get fd = some d) : t.get fd = some d := by
  refine (FdTable.get_of_alloc h).resolve_left ?_
  rintro rfl
  exact Bool.false_ne_true (he.symm.trans hd)

/-- What the loop opens in the shell is no terminal. -/
theorem terminal_of_forkLoop (rest : List Process) {d : Descriptor OpenFile}
    (hd : d.file.isTerminal = true) :
    ∀ {job : Job} {ctx : ExecutorCtx} {sh : Shell}, forkLoop rest job ctx sh = .ok (job', sh₁) →
      sh₁.fds.get 0 = some d → sh.fds.get 0 = some d := by
  induction rest with
  | nil =>
    intro job ctx sh h hget
    cases h
    exact hget
  | cons proc rest ih =>
    intro job ctx sh h hget
    obtain ⟨pid, sh₂, hturn, hrest⟩ := forkLoop_cons h
    have hget := ih hrest hget
    rw [hturn.fds] at hget
    have hget := FdTable.get_of_closeAll hget
    unfold nextPipe at hget
    split at hget
    · exact hget
    · exact get_of_alloc_terminal hd rfl (get_of_alloc_terminal hd rfl hget)

/-- Standard input is a terminal after the forks if it was one before. -/
theorem tty_forkJob (hfork : forkJob (enlist job sh).1 (executorInitContext (enlist job sh).2).1
    (executorInitContext (enlist job sh).2).2 = .ok (job', sh₁)) : sh₁.tty = sh.tty := by
  by_cases hopen : sh.fds.get 0 = none
  · refine Bool.eq_iff_iff.mpr (iff_of_false (fun htty ↦ ?_) fun htty ↦ ?_)
    · obtain ⟨⟨job₁, sh₂⟩, hloop, hfork⟩ := bind_ok.mp hfork
      obtain ⟨-, rfl⟩ := Prod.mk.inj (Except.ok.inj hfork)
      obtain ⟨d, hd, hterminal⟩ := (Option.any_eq_true _ _).mp htty
      -- before the forks, a pipe and the descriptor for the signals are opened
      have hsignals : (executorInitContext (enlist job sh).2).2.fds.get 0 = some d :=
        terminal_of_forkLoop _ hterminal hloop hd
      have hwrite := get_of_alloc_terminal hterminal rfl hsignals
      have hread := get_of_alloc_terminal hterminal rfl hwrite
      cases hopen.symm.trans (get_of_alloc_terminal hterminal rfl hread)
    · rw [Shell.tty, hopen] at htty
      cases htty
  · rw [Shell.tty, get_zero_of_forkJob hfork hopen]
    rfl

/-- A call of `run_job` that forks returns exactly when all is granted, and the job is in the
background or standard input a terminal. -/
theorem returns_runJob_iff (hfresh : job.Fresh) (hheap : job.addr + 1 = sh.heap)
    (hne : job.processes ≠ []) (hpure : isPureBuiltin job.processes = .ok none) :
    (∃ r, runJob job sh = .ok r) ↔
      Granted (job, sh) ∧ (job.isBackground = true ∨ sh.tty = true) := by
  have hrun : runJob job sh = runForked (enlist job sh).1 (enlist job sh).2 := by
    rw [runJob_eq hne, hpure]
    rfl
  rw [hrun]
  have hwait : ∀ {job' sh₁}, forkJob (enlist job sh).1 (executorInitContext (enlist job sh).2).1
      (executorInitContext (enlist job sh).2).2 = .ok (job', sh₁) →
      ((∃ r, handleExecution job' sh₁ = .ok r) ↔ job.isBackground = true ∨ sh.tty = true ∧
        ∃ r, foregroundLoop job'.addr sh₁.script.wakeups sh₁ = .ok r) := by
    intro job' sh₁ hfork
    let s : JobSystem := { sh.toJobSystem with heap := job.addr }
    have henlist : (enlist job sh).2.toJobSystem = s.add (enlist job sh).1 := by
      change _ = { s with table := jobsAddJob s.table (enlist job sh).1, heap := job.addr + 1 }
      rw [hheap]
      rfl
    obtain ⟨hlaunched, -, -, hbg, hsys⟩ := forkJob_launch hfork henlist rfl
      ⟨hfresh.pgid, hfresh.state, hfresh.live, hfresh.processes⟩ hne rfl
    have hbg : job'.isBackground = job.isBackground := hbg
    rw [handleExecution, hbg]
    by_cases hback : job.isBackground = true
    · rw [if_pos hback]
      exact iff_of_true ⟨_, rfl⟩ (Or.inl hback)
    · rw [if_neg hback, or_iff_right hback, ← tty_forkJob hfork]
      have hhead := List.mem_of_mem_head? hlaunched.pgid
      obtain ⟨p, hp, hpid⟩ := List.mem_map.mp hhead
      have hjob := deref_launch s job'
      rw [← hsys] at hjob
      refine @wait_returns_iff sh₁ { job' with id := jobsNewId s.table } hjob
        (hpid ▸ hlaunched.pid_pos p hp) ⟨⟨p.pid, job'.pgid, job'.addr⟩, ?_, rfl⟩
      rw [hsys]
      exact List.mem_append_right _ (List.mem_map_of_mem hp)
  constructor
  · rintro ⟨r, h⟩
    obtain ⟨⟨job', sh₁⟩, hfork, h⟩ := bind_ok.mp h
    obtain ⟨r', hexec, -⟩ := bind_ok.mp h
    rcases (hwait hfork).mp ⟨r', hexec⟩ with hback | ⟨htty, hloop⟩
    · refine ⟨⟨job', sh₁, hfork, fun hfg ↦ ?_⟩, Or.inl hback⟩
      exact absurd (hfg.symm.trans hback) Bool.false_ne_true
    · exact ⟨⟨job', sh₁, hfork, fun _ ↦ hloop⟩, Or.inr htty⟩
  · rintro ⟨⟨job', sh₁, hfork, hends⟩, hcase⟩
    have hexec : ∃ r, handleExecution job' sh₁ = .ok r := by
      refine (hwait hfork).mpr ?_
      by_cases hback : job.isBackground = true
      · exact Or.inl hback
      · exact Or.inr ⟨hcase.resolve_left hback, hends (Bool.not_eq_true _ ▸ hback)⟩
    obtain ⟨r, hexec⟩ := hexec
    exact ⟨_, bind_ok.mpr ⟨_, hfork, bind_ok.mpr ⟨_, hexec, rfl⟩⟩⟩

end

/-! ## The child -/

/-- The descriptors that a child moves to 0 and 1 are open when it comes to its redirections, and
not the same. -/
def Attempt.Ready (a : Attempt) : Prop :=
  ∀ addr ctx, a.place = .child addr ctx →
    (∀ fd, ctx.inFd = some fd ∨ ctx.outFd = some fd → (closeInherited ctx a.sh.fds).get fd ≠ none) ∧
      ∀ fd, ctx.inFd = some fd → ctx.outFd ≠ some fd

/-- Moving a descriptor closes no other one. -/
theorem moveFd_returns {fd : Option ℕ} (target : ℕ) {fds : FdTable OpenFile}
    (h : ∀ x, fd = some x → fds.get x ≠ none) :
    ∃ fds', moveFd fd target fds = .ok fds' ∧
      ∀ x, fds.get x ≠ none → fd ≠ some x → fds'.get x ≠ none := by
  cases fd with
  | none => exact ⟨fds, rfl, fun _ hx _ ↦ hx⟩
  | some fd =>
    obtain ⟨d, hd⟩ := Option.ne_none_iff_exists'.mp (h fd rfl)
    obtain ⟨fds', hmove, hkept⟩ := exists_moveFd (some fd) target fds h
    refine ⟨fds', hmove, fun x hx hne ↦ ?_⟩
    by_cases htarget : x = target
    · subst htarget
      obtain ⟨fds₁, hdup⟩ := FdTable.exists_dup2 x (h fd rfl)
      have hfd : fd ≠ x := fun heq ↦ hne (congrArg some heq)
      rw [moveFd, hdup] at hmove
      obtain rfl := Except.ok.inj hmove
      rw [FdTable.get_close_of_ne _ hfd.symm, FdTable.get_dup2_self hdup hd hfd]
      exact Option.some_ne_none _
    · rwa [hkept x hne htarget]

theorem childSetup_of_opening {nofile : ℕ} {ctx : ExecutorCtx} {redir : List Redirection}
    {opens : List (Option File)} (h : firstFailure nofile redir opens = some .opening)
    (fds : FdTable OpenFile) : (childSetup nofile ctx redir opens fds).1 = .error 127 := by
  have hredir := handleRedirection_of_opening redir (closeInherited ctx fds) h
  unfold childSetup
  dsimp only
  rw [hredir]
  rfl

/-- Apart from that the child gets as far as `execute_process`, whatever has failed. -/
theorem childSetup_returns {nofile : ℕ} {ctx : ExecutorCtx} {redir : List Redirection}
    {opens : List (Option File)} (h : firstFailure nofile redir opens ≠ some .opening)
    {fds : FdTable OpenFile}
    (hopen : ∀ fd, ctx.inFd = some fd ∨ ctx.outFd = some fd →
      (closeInherited ctx fds).get fd ≠ none)
    (hne : ∀ fd, ctx.inFd = some fd → ctx.outFd ≠ some fd) :
    ∃ fds', (childSetup nofile ctx redir opens fds).1 = .ok fds' := by
  obtain ⟨n, fds₁, hredir, -, hkept⟩ := handleRedirection_returns redir (closeInherited ctx fds) h
  obtain ⟨fds₂, hmove, hkept₂⟩ := moveFd_returns 0 fun x (hx : ctx.inFd = some x) ↦
    hkept x (hopen x (Or.inl hx))
  obtain ⟨fds₃, hmove', -⟩ := moveFd_returns 1 fun x (hx : ctx.outFd = some x) ↦
    hkept₂ x (hkept x (hopen x (Or.inr hx))) fun hin ↦ hne x hin hx
  refine ⟨fds₃, ?_⟩
  unfold childSetup
  dsimp only
  rw [hredir]
  change (moveFd ctx.inFd 0 fds₁ >>= moveFd ctx.outFd 1) = .ok fds₃
  rw [hmove]
  exact hmove'

/-- In the loop the descriptors that are to be moved are the ends of two different pipes. -/
theorem ready_of_apart {ctx : ExecutorCtx} {sh : Shell} (hctx : ctx.Apart 0 sh.fds)
    (proc : Process) (rest : List Process) (addr : ℕ) :
    Attempt.Ready ⟨proc, .child addr (ctx.withOut (nextPipe rest sh).1), (nextPipe rest sh).2⟩ := by
  rintro _ _ ⟨⟩
  have hin : ∀ fd, ctx.inFd = some fd →
      (closeInherited (ctx.withOut (nextPipe rest sh).1) (nextPipe rest sh).2.fds).get fd
        ≠ none := by
    intro fd hfd
    have hopen := (hctx.spent fd (ExecutorCtx.mem_spent_of_inFd hfd)).1
    rwa [hctx.get_inherited_input hfd, get_nextPipe_of_open rest hopen]
  by_cases hrest : rest = []
  · have hnext : nextPipe rest sh = (none, sh) := if_pos hrest
    rw [hnext] at hin ⊢
    refine ⟨fun fd hfd ↦ ?_, fun fd _ ↦ nofun⟩
    rcases hfd with hfd | hfd
    · exact hin fd hfd
    · exact nomatch hfd
  · obtain ⟨r, w, hpipe, -, hnew⟩ := exists_nextPipe hrest sh
    obtain ⟨-, -, hspent⟩ := hnew.apart hctx (Or.inr rfl)
    refine ⟨fun fd hfd ↦ ?_, fun fd hfd hout ↦ ?_⟩
    · rcases hfd with hfd | hfd
      · exact hin fd hfd
      · rw [hpipe] at hfd
        obtain rfl : w = fd := Option.some.inj hfd
        rw [hnew.get_inherited hctx (Or.inr rfl), hnew.write]
        exact Option.some_ne_none _
    · rw [hpipe] at hout
      obtain rfl : w = fd := Option.some.inj hout
      exact hspent (ExecutorCtx.mem_spent_of_inFd hfd)

/-- Every attempt of the loop is a turn of it, and the descriptors in the context are apart. -/
theorem exists_turn_of_mem_forkAttempts (rest : List Process) :
    ∀ {job : Job} {ctx : ExecutorCtx} {sh : Shell}, (rest ≠ [] → ctx.Apart 0 sh.fds) →
      ∀ a ∈ forkAttempts rest job ctx sh, ∃ proc rest' addr, ∃ (ctx' : ExecutorCtx) (sh' : Shell),
        ctx'.Apart 0 sh'.fds ∧ a =
          ⟨proc, .child addr (ctx'.withOut (nextPipe rest' sh').1), (nextPipe rest' sh').2⟩ := by
  induction rest with
  | nil => exact fun _ a ha ↦ nomatch ha
  | cons proc rest ih =>
    intro job ctx sh hctx a ha
    have hctx := hctx (List.cons_ne_nil _ _)
    rw [forkAttempts] at ha
    rcases List.mem_cons.mp ha with rfl | ha
    · exact ⟨proc, rest, job.addr, ctx, sh, hctx, rfl⟩
    split at ha
    · exact nomatch ha
    next pid sh₁ hfork =>
    -- the next turn has a context of the same kind
    exact ih (fun hne ↦ (forkTurn_of_forkProcess hfork).apart hctx hne) a ha

theorem exists_turn_of_mem_execAttempts {node : Ast} {sh : Shell} {a : Attempt}
    (ha : a ∈ execAttempts node sh) (hplace : a.place ≠ .shell) :
    ∃ proc rest addr, ∃ (ctx : ExecutorCtx) (sh' : Shell), ctx.Apart 0 sh'.fds ∧
        a = ⟨proc, .child addr (ctx.withOut (nextPipe rest sh').1), (nextPipe rest sh').2⟩ := by
  obtain ⟨c, -, ha⟩ := List.mem_flatMap.mp ha
  rw [jobAttempts] at ha
  split at ha
  next job sh _ =>
  split at ha
  · cases ha
  · obtain rfl := List.mem_singleton.mp ha
    exact absurd rfl hplace
  · exact exists_turn_of_mem_forkAttempts _
      (fun _ ↦ (apart_executorInitContext fun fd h ↦ absurd h (Nat.not_lt_zero fd)).1) a ha

theorem ready_of_mem_execAttempts {node : Ast} {sh : Shell} {a : Attempt}
    (ha : a ∈ execAttempts node sh) : a.Ready := by
  by_cases hplace : a.place = .shell
  · intro _ _ hchild
    cases hplace.symm.trans hchild
  · obtain ⟨proc, rest, addr, ctx, sh', hctx, rfl⟩ := exists_turn_of_mem_execAttempts ha hplace
    exact ready_of_apart hctx proc rest addr

/-! ## The command -/

/-- A call of `run_job` comes to a builtin in the shell, or forks. -/
theorem jobAttempts_cases {job : Job} {sh : Shell} {a : Attempt} (ha : a ∈ jobAttempts job sh) :
    (∃ proc, isPureBuiltin job.processes = .ok (some proc) ∧
      a = ⟨proc, .shell, (enlist job sh).2⟩) ∨
    isPureBuiltin job.processes = .ok none ∧ job.processes ≠ [] ∧ a.place ≠ .shell := by
  rw [jobAttempts] at ha
  dsimp only at ha
  split at ha
  · cases ha
  · next proc hpure => exact Or.inl ⟨proc, hpure, List.mem_singleton.mp ha⟩
  · next hpure =>
    obtain ⟨proc, rest, addr, ctx, sh', -, rfl⟩ := exists_turn_of_mem_forkAttempts _
      (fun _ ↦ (apart_executorInitContext fun fd h ↦ absurd h (Nat.not_lt_zero fd)).1) a ha
    refine Or.inr ⟨hpure, fun hnil ↦ ?_, nofun⟩
    have hnil : (enlist job sh).1.processes = [] := hnil
    rw [hnil] at ha
    cases ha

/-- In the shell no failure is safe: it ends the shell, or is not noticed. -/
theorem Attempt.not_failsSafely_of_shell {a : Attempt} {c : Job × Shell}
    (ha : a ∈ jobAttempts c.1 c.2) (hplace : a.place = .shell) : ¬a.FailsSafely c := by
  rcases jobAttempts_cases ha with ⟨proc, hpure, rfl⟩ | ⟨-, -, hchild⟩
  swap
  · exact absurd hplace hchild
  obtain ⟨hnofile, hscript⟩ := eq_backedUp (enlist c.1 c.2).2
  rintro ⟨hbody, ⟨status, sh'⟩, hrun⟩
  have hne : c.1.processes ≠ [] := fun hnil ↦ by
    rw [hnil] at hpure
    cases hpure
  rw [runJob_eq hne, hpure] at hrun
  have hrun : runPureBuiltin proc (enlist c.1 c.2).2 = .ok (status, sh') := hrun
  obtain ⟨r, hbuiltin, -⟩ := bind_ok.mp hrun
  rw [handlePureBuiltinExecution, handlePureBuiltinExecutionWith_eq, hnofile, hscript] at hbuiltin
  by_cases hopening : firstFailure (enlist c.1 c.2).2.nofile proc.redir
      (enlist c.1 c.2).2.script.opens = some .opening
  · have hredir :=
      handleRedirection_of_opening proc.redir (backedUp (enlist c.1 c.2).2).fds hopening
    split at hbuiltin
    · cases hbuiltin
    · next _ fds opens hok =>
      rw [hok] at hredir
      cases hredir
  · obtain ⟨n, fds, hredir, -⟩ :=
      handleRedirection_returns proc.redir (backedUp (enlist c.1 c.2).2).fds hopening
    refine hbody fun e ↦ ?_
    dsimp only
    rw [handlePureBuiltinExecutionWith_eq, hnofile, hscript]
    split
    · next _ _ herror =>
      rw [herror] at hredir
      cases hredir
    · rfl

/-- A child runs the body unless a file cannot be opened, or there is none to run. -/
theorem Attempt.runsBody_iff_of_child {a : Attempt} {addr : ℕ} {ctx : ExecutorCtx}
    (hplace : a.place = .child addr ctx) (hready : a.Ready) :
    a.RunsBody ↔ ¬(a.failure = some .opening ∨ executeProcess a.proc.argv a.sh = none) := by
  obtain ⟨hopen, hne⟩ := hready addr ctx hplace
  rw [Attempt.RunsBody, hplace, not_or]
  refine and_congr_left' ⟨?_, fun hopening ↦ childSetup_returns hopening hopen hne⟩
  rintro ⟨fds, hsetup⟩ hopening
  rw [childSetup_of_opening hopening a.sh.fds] at hsetup
  cases hsetup

/-- A command whose redirections fail is given up, and the shell goes on, exactly when the command
is forked, the first failure is that of an `open` or there would be nothing to run, the system
grants the forks and the end of the wait, and the job is in the background or standard input a
terminal. -/
theorem failsSafely_iff {node : Ast} {sh : Shell} {c : Job × Shell} (hc : c ∈ execCalls node sh)
    {a : Attempt} (ha : a ∈ jobAttempts c.1 c.2) :
    a.FailsSafely c ↔ a.place ≠ .shell ∧
      (a.failure = some .opening ∨ executeProcess a.proc.argv a.sh = none) ∧
      Granted c ∧ (c.1.isBackground = true ∨ c.2.tty = true) := by
  cases hplace : a.place with
  | shell => exact iff_of_false (a.not_failsSafely_of_shell ha hplace) fun h ↦ h.1 rfl
  | child addr ctx =>
    rcases jobAttempts_cases ha with ⟨proc, -, rfl⟩ | ⟨hpure, hne, -⟩
    · cases hplace
    have hready := ready_of_mem_execAttempts (List.mem_flatMap.mpr ⟨c, hc, ha⟩)
    rw [Attempt.FailsSafely, Attempt.runsBody_iff_of_child hplace hready, not_not,
      returns_runJob_iff (fresh_of_mem_execCalls c hc).1 (fresh_of_mem_execCalls c hc).2 hne hpure]
    exact ⟨fun h ↦ ⟨nofun, h⟩, And.right⟩

/-- A command with its output redirected to a file. -/
def Ast.wordTo (name target : CStr) : Ast :=
  .cmd
    { argvParts := [[⟨.wordLiteral, .quoteNone, name⟩]]
      argv := some [name]
      redir := [{ fd := 1, type := .redirOut, target := some target }] }
    false

/-- `ls > f`, where the file cannot be opened, and the child ends. -/
theorem failsSafely_ls :
    ∃ c ∈ execCalls (.wordTo "ls".toList ['f'])
        (.onTerminal { pids := [10], wakeups := [[.sigchld [⟨10, .exited 127⟩]]] }),
      ∃ a ∈ jobAttempts c.1 c.2, a.failure = some .opening ∧ a.FailsSafely c := by
  let sh : Shell := .onTerminal { pids := [10], wakeups := [[.sigchld [⟨10, .exited 127⟩]]] }
  obtain ⟨c, hc⟩ : ∃ c, execCalls (.wordTo "ls".toList ['f']) sh = [c] := ⟨_, rfl⟩
  have hmem : c ∈ execCalls (.wordTo "ls".toList ['f']) sh := hc ▸ List.mem_singleton_self c
  obtain rfl := List.singleton_inj.mp hc
  obtain ⟨a, ha, hfail, hplace⟩ : ∃ a, jobAttempts (compileCommandJob { addr := 0 }
      (.wordTo "ls".toList ['f'])) { sh with heap := 1 } = [a] ∧ a.failure = some .opening ∧
        a.place ≠ .shell := ⟨_, rfl, by decide, nofun⟩
  have heval : (runJob (compileCommandJob { addr := 0 } (.wordTo "ls".toList ['f']))
      { sh with heap := 1 }).toOption.map Prod.fst = some 0 := by decide +kernel
  obtain ⟨r, hrun, -⟩ := exists_of_map_eq heval
  obtain ⟨hgranted, htty⟩ := (returns_runJob_iff (fresh_of_mem_execCalls _ hmem).1 rfl
    (by decide) rfl).mp ⟨r, hrun⟩
  have hattempt : a ∈ jobAttempts _ _ := ha ▸ List.mem_singleton_self a
  exact ⟨_, hmem, a, hattempt, hfail, (failsSafely_iff hmem hattempt).mpr
    ⟨hplace, Or.inl hfail, hgranted, htty⟩⟩

/-- `echo > f`, where the file cannot be opened: the shell exits. -/
theorem not_failsSafely :
    ¬∀ (node : Ast) (sh : Shell), ∀ c ∈ execCalls node sh, ∀ a ∈ jobAttempts c.1 c.2,
      a.failure ≠ none → (a.place ≠ .shell → Granted c) → a.FailsSafely c := by
  intro hclaim
  obtain ⟨c, hc⟩ : ∃ c, execCalls (.wordTo "echo".toList ['f']) (.onTerminal {}) = [c] := ⟨_, rfl⟩
  have hmem : c ∈ execCalls (.wordTo "echo".toList ['f']) (.onTerminal {}) :=
    hc ▸ List.mem_singleton_self c
  obtain rfl := List.singleton_inj.mp hc
  obtain ⟨a, ha, hfail, hplace⟩ : ∃ a, jobAttempts (compileCommandJob { addr := 0 }
      (.wordTo "echo".toList ['f'])) { Shell.onTerminal {} with heap := 1 } = [a] ∧
        a.failure ≠ none ∧ a.place = .shell := ⟨_, rfl, by decide, rfl⟩
  have hattempt : a ∈ jobAttempts _ _ := ha ▸ List.mem_singleton_self a
  exact a.not_failsSafely_of_shell hattempt hplace
    (hclaim _ _ _ hmem a hattempt hfail fun hchild ↦ absurd hplace hchild)

end Novash
