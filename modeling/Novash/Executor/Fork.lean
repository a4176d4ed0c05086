import Novash.Foundations.Results
import Novash.Shell.State

/-!
# Forking the processes of a job

The first half of `run_job` and `fork_process`. The shell creates a pipe, forks a child between two
of its own descriptors, closes what it no longer needs and goes on to the next process. A child
starts from a copy of the table at that moment.

The handshake over `sync_pipe` is taken at its word: when the shell reads the byte, the first child
leads a group of its own, and `setpgid` succeeds for the others.
-/

namespace Novash

open Foundations ProcessState

/-- `executor_ctx_t`, with `none` for the descriptor -1. -/
structure ExecutorCtx where
  pgid : ℕ := 0
  inFd : Option ℕ := none
  outFd : Option ℕ := none
  syncPipe : ℕ × ℕ
  sfd : ℕ
  prevMask : SigSet

/-! ## In the child -/

/-- `dup2` onto the number written in the line, which may be out of range. -/
def dup2Int (nofile : ℕ) (fds : FdTable OpenFile) (old : ℕ) (new : Int32) :
    Option (FdTable OpenFile) :=
  if new.toInt < 0 ∨ nofile ≤ new.toInt.toNat then none else fds.dup2 old new.toInt.toNat

/-- `oflag` of `handle_redirection`. -/
def oflag : RedirectionType → List OpenFlag
  | .redirIn => [.rdonly]
  | .redirOut => [.wronly, .creat, .trunc]
  | .redirAppend => [.wronly, .creat, .append]

/-- `open`: the description it makes, unless it fails. -/
def openFile (type : RedirectionType) (opens : List (Option File)) : Option OpenFile :=
  (opens.headD none).map (.opened opens.length (oflag type))

/-- `handle_redirection`. The first component is what it returns and the table it leaves, or the
status with which `xopen` ends the process. -/
def handleRedirection (nofile : ℕ) : List Redirection → List (Option File) →
    FdTable OpenFile → Except ℕ (ℤ × FdTable OpenFile) × List (Option File)
  | [], opens, fds => (.ok (0, fds), opens)
  | r :: redir, opens, fds =>
    match r.target, openFile r.type opens with
    | none, _ => (.error 127, opens)
    | some _, none => (.error 127, opens.tail)
    | some _, some file =>
      let (fd, fds) := fds.alloc ⟨file, false⟩
      match dup2Int nofile fds fd r.fd with
      | none => (.ok (1, fds.close fd), opens.tail)
      | some fds => handleRedirection nofile redir opens.tail (fds.close fd)

/-- `xdup2(fd, target, true); close(fd);`, for a descriptor that may be -1. -/
def moveFd (fd : Option ℕ) (target : ℕ) (fds : FdTable OpenFile) : Except ℕ (FdTable OpenFile) :=
  match fd with
  | none => .ok fds
  | some fd =>
    match fds.dup2 fd target with
    | none => .error 127
    | some fds => .ok (fds.close fd)

/-- What a child closes first. The first child is the one that finds no group in the context. -/
def closeInherited (ctx : ExecutorCtx) (fds : FdTable OpenFile) : FdTable OpenFile :=
  let fds := fds.close ctx.sfd
  if ctx.pgid = 0 then (fds.close ctx.syncPipe.1).close ctx.syncPipe.2 else fds

/-- `fork_process` in the child, up to `execute_process`. That `handle_redirection` may have
failed is not looked at. -/
def childSetup (nofile : ℕ) (ctx : ExecutorCtx) (redir : List Redirection)
    (opens : List (Option File)) (fds : FdTable OpenFile) :
    Except ℕ (FdTable OpenFile) × List (Option File) :=
  let (result, opens) := handleRedirection nofile redir opens (closeInherited ctx fds)
  (do
    let (_, fds) ← result
    let fds ← moveFd ctx.inFd 0 fds
    moveFd ctx.outFd 1 fds,
   opens)

/-! ## In the shell -/

/-- The group of a child: its own for the first, and that of the first for the others. -/
def ExecutorCtx.group (ctx : ExecutorCtx) (pid : ℕ) : ℕ := if ctx.pgid = 0 then pid else ctx.pgid

/-- `fork_process` in the shell. -/
def forkProcess (addr : ℕ) (proc : Process) (ctx : ExecutorCtx) (sh : Shell) :
    Except Halt (ℕ × Shell) := do
  let (pid, sh) ← xfork sh
  let (start, opens) := childSetup sh.nofile ctx proc.redir sh.script.opens sh.fds
  let child : Child := ⟨pid, ctx.group pid, addr⟩
  return (pid,
    { sh with
      children := sh.children ++ [child]
      script := { sh.script with opens }
      spawned := sh.spawned ++ [⟨pid, addr, proc.argv, ctx.prevMask, start⟩] })

/-- The pipe to the next process, if there is one. -/
def nextPipe (rest : List Process) (sh : Shell) : Option (ℕ × ℕ) × Shell :=
  if rest = [] then (none, sh)
  else
    let (fd, sh) := xpipe sh
    (some fd, sh)

def closeOption (fd : Option ℕ) (sh : Shell) : Shell :=
  match fd with
  | none => sh
  | some fd => closeFd fd sh

/-- The shell's bookkeeping for one more forked process. -/
def Job.addForked (job : Job) (proc : Process) (pid pgid : ℕ) : Job :=
  { job with
    processes := job.processes ++ [{ proc with pid, state := processRunning }]
    pgid
    liveProcesses := job.liveProcesses + 1 }

/-- The context for the next process, which reads from this one's pipe. -/
def ExecutorCtx.next (ctx : ExecutorCtx) (pid : ℕ) (fd : Option (ℕ × ℕ)) : ExecutorCtx :=
  { ctx with pgid := ctx.group pid, inFd := fd.map Prod.fst }

/-- What the shell does between two forks: it notes the pid of a background process, finishes the
handshake with the first child, and closes its ends of the pipes of this one. -/
def finishFork (isBackground : Bool) (ctx : ExecutorCtx) (pid : ℕ) (sh : Shell) : Shell :=
  let sh := if isBackground then { sh with lastExec := { sh.lastExec with bgPid := pid } } else sh
  let sh := if ctx.pgid = 0 then closeFd ctx.syncPipe.1 (closeFd ctx.syncPipe.2 sh) else sh
  closeOption ctx.outFd (closeOption ctx.inFd sh)

/-- The loop of `run_job` over the processes that are left. `job` has those forked so far. -/
def forkLoop : List Process → Job → ExecutorCtx → Shell → Except Halt (Job × Shell)
  | [], job, _, sh => .ok (job, sh)
  | proc :: rest, job, ctx, sh => do
    let fd := (nextPipe rest sh).1
    let ctx := { ctx with outFd := fd.map Prod.snd }
    let (pid, sh) ← forkProcess job.addr proc ctx (nextPipe rest sh).2
    forkLoop rest (job.addForked proc pid (ctx.group pid)) (ctx.next pid fd)
      (finishFork job.isBackground ctx pid sh)

/-- `executor_init_context`. -/
def executorInitContext (sh : Shell) : ExecutorCtx × Shell :=
  let (syncPipe, sh) := xpipe sh
  let (prevMask, sh) := blockSignals sh
  let (sfd, sh) := xsignalfd sh
  ({ syncPipe, sfd, prevMask }, sh)

def executorDestroyContext (ctx : ExecutorCtx) (sh : Shell) : Shell :=
  let sh := closeFd ctx.syncPipe.2 (closeFd ctx.syncPipe.1 (closeFd ctx.sfd sh))
  { sh with sigmask := ctx.prevMask }

/-! ## What the loop changes in the shell -/

section

variable {sh sh' : Shell} {pid : ℕ}

theorem eq_nextPipe (rest : List Process) (sh : Shell) :
    ∃ fds pipes, (nextPipe rest sh).2 = { sh with fds, pipes } := by
  unfold nextPipe
  split <;> exact ⟨_, _, rfl⟩

theorem eq_finishFork (isBackground : Bool) (ctx : ExecutorCtx) (pid : ℕ) (sh : Shell) :
    ∃ fds lastExec, finishFork isBackground ctx pid sh = { sh with fds, lastExec } := by
  unfold finishFork
  cases ctx.inFd <;> cases ctx.outFd <;> split <;> split <;> exact ⟨_, _, rfl⟩

theorem eq_of_xfork (h : xfork sh = .ok (pid, sh')) :
    ∃ pids, sh' = { sh with script := { sh.script with pids } } := by
  unfold xfork at h
  split at h
  · cases h
  split at h
  · cases h
    exact ⟨_, rfl⟩
  · cases h

/-- A child has the mask of the context. -/
theorem eq_of_forkProcess {addr : ℕ} {proc : Process} {ctx : ExecutorCtx}
    (h : forkProcess addr proc ctx sh = .ok (pid, sh')) :
    ∃ script children start, sh' = { sh with
      script, children
      spawned := sh.spawned ++ [⟨pid, addr, proc.argv, ctx.prevMask, start⟩] } := by
  obtain ⟨⟨pid', sh₁⟩, hfork, h⟩ := bind_ok.mp h
  obtain ⟨pids, rfl⟩ := eq_of_xfork hfork
  cases h
  exact ⟨_, _, _, rfl⟩

theorem eq_of_forkLoop (procs : List Process) :
    ∀ {job job' : Job} {ctx : ExecutorCtx} {sh : Shell},
      forkLoop procs job ctx sh = .ok (job', sh') →
      ∃ fds pipes lastExec script children new,
        sh' = { sh with
          fds, pipes, lastExec, script, children
          spawned := sh.spawned ++ new } ∧
        ∀ c ∈ new, c.sigmask = ctx.prevMask := by
  induction procs with
  | nil =>
    intro job job' ctx sh h
    cases h
    exact ⟨_, _, _, _, _, [], by rw [List.append_nil], by simp⟩
  | cons proc rest ih =>
    intro job job' ctx sh h
    rw [forkLoop] at h
    obtain ⟨⟨pid, sh₁⟩, hfork, h⟩ := bind_ok.mp h
    obtain ⟨fds, pipes, hpipe⟩ := eq_nextPipe rest sh
    rw [hpipe] at hfork
    obtain ⟨script, children, start, rfl⟩ := eq_of_forkProcess hfork
    obtain ⟨fds', pipes', lastExec, script', children', new, hsh', hnew⟩ := ih h
    obtain ⟨fds₁, lastExec₁, hfinish⟩ := eq_finishFork job.isBackground
      { ctx with outFd := (nextPipe rest sh).1.map Prod.snd } pid
      { sh with
        fds, pipes, script, children
        spawned := sh.spawned ++ [⟨pid, job.addr, proc.argv, ctx.prevMask, start⟩] }
    refine ⟨fds', pipes', lastExec, script', children',
      ⟨pid, job.addr, proc.argv, ctx.prevMask, start⟩ :: new, ?_,
      List.forall_mem_cons.mpr ⟨rfl, hnew⟩⟩
    rw [hsh', hfinish, List.append_assoc]
    rfl

end

end Novash
