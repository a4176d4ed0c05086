import Novash.Executor.Jobs
import Novash.Foundations.Descriptors

/-!
# The state of the shell, and the system around it

`state.c`, with the part of the operating system that the shell depends on: the table of open files,
the signal mask, and the children that have not been reaped.

## What the system decides

Which pid a `fork` gets, what happens while the shell waits, whether a file can be opened: all this
is a `Script`, read from the front. A result about every script is a result about everything the
system can do. A script cannot make the system do what it never does: a pid in use is not given to a
new process, and `waitpid` reports on children only.

Failures of `fork` end the shell, as `xfork` does. That the system is out of memory or descriptors
(`xmalloc`, `xpipe`, `xsignalfd`) is left out, and so are the timestamps of `last_exec` and the
terminal's own foreground group.

## History

`reaped` and `spawned` are not in the program. They record every event that was reaped, with the
list of jobs that it found, and every child, with what it has when it starts its program. Nothing
reads them.
-/

namespace Novash

open Foundations

/-! ## The system -/

/-- A file that can be opened. -/
inductive File
  | terminal
  | other (n : ℕ)
  deriving DecidableEq, Repr

/-- The flags of `open`. -/
inductive OpenFlag
  | rdonly
  | wronly
  | rdwr
  | creat
  | trunc
  | append
  deriving DecidableEq, Repr

/-- An open file description: what a descriptor refers to. Copies of a descriptor refer to the same
one, and each `open` makes one that was not there before, also of a file that is open already. It is
told from the others by the number of results of `open` that were left when it was made. -/
inductive OpenFile
  | opened (left : ℕ) (oflag : List OpenFlag) (file : File)
  | pipeRead (pipe : ℕ)
  | pipeWrite (pipe : ℕ)
  | signals
  deriving DecidableEq, Repr

def OpenFile.isTerminal : OpenFile → Bool
  | opened _ _ .terminal => true
  | _ => false

/-- With these results of `open` still to come, the description is there already. -/
def OpenFile.MadeBefore (opens : List (Option File)) : OpenFile → Prop
  | opened left _ _ => opens.length < left
  | _ => True

/-- The signals the shell blocks; it never touches another one. -/
structure SigSet where
  sigchld : Bool := false
  sigint : Bool := false
  sigtstp : Bool := false
  deriving DecidableEq, Repr

/-- What `waitpid` reports about a child. -/
inductive WaitStatus
  | exited (status : UInt8)
  | signaled (sig : ℕ)
  | stopped (sig : ℕ)
  | continued
  deriving DecidableEq, Repr

/-- The child is gone: it was its last report. -/
def WaitStatus.isDeath : WaitStatus → Bool
  | exited _ => true
  | signaled _ => true
  | stopped _ => false
  | continued => false

structure WaitEvent where
  pid : ℕ
  status : WaitStatus
  deriving DecidableEq, Repr

/-- A signal read from the descriptor of `signalfd`. With `SIGCHLD` come the reports that `waitpid`
has at that moment. -/
inductive SignalfdSiginfo
  | sigchld (events : List WaitEvent)
  | sigint
  | sigtstp

/-- A child of the shell that has not been reaped. `job` is the job it was forked for. -/
structure Child where
  pid : ℕ
  pgid : ℕ
  job : ℕ
  deriving DecidableEq, Repr

structure Script where
  /-- The pids that `fork` gets. -/
  pids : List ℕ := []
  /-- The signals that are read each time `poll` returns. -/
  wakeups : List (List SignalfdSiginfo) := []
  /-- What `open` opens, or that it fails. -/
  opens : List (Option File) := []
  /-- Whether a group in which no child of the shell is left has other members. -/
  groups : List Bool := []
  /-- Whether `chdir` succeeds, and what `getcwd` returns after it. -/
  chdirs : List (Bool × Option CStr) := []

/-! ## The shell -/

/-- `shell_last_exec_t`. -/
structure LastExec where
  command : Option CStr := none
  exitStatus : ℤ := 0
  bgPid : ℕ := 0
  pgid : ℕ := 0
  deriving DecidableEq, Repr

/-- A child as it is when it calls `execute_process`, or the status with which it ended before. -/
structure Spawned where
  pid : ℕ
  job : ℕ
  argv : List CStr
  sigmask : SigSet
  start : Except ℕ (FdTable OpenFile)

/-- What job control is about: the list of jobs, and the children it has to agree with. -/
structure JobSystem where
  table : JobTable := {}
  children : List Child := []
  /-- Addresses from here on have not been handed out. -/
  heap : ℕ := 0
  /-- The events reaped so far, each with the list of jobs it found. -/
  reaped : List (JobTable × WaitEvent) := []

structure Shell extends JobSystem where
  lastExec : LastExec := {}
  shouldExit : Bool := false
  cwd : CStr := []
  shellStateGetenv : CStr → Option CStr := fun _ ↦ none
  /-- `stat` finds an executable file of this name. -/
  executable : CStr → Bool := fun _ ↦ false
  fds : FdTable OpenFile
  /-- Descriptors from here on are out of range. -/
  nofile : ℕ := 1024
  sigmask : SigSet := {}
  /-- The pipes created so far. -/
  pipes : ℕ := 0
  /-- The process id of the shell, which is also the group it is in. -/
  pid : ℕ := 1
  script : Script := {}
  out : List CStr := []
  spawned : List Spawned := []

/-- Why a function of the shell does not return. -/
inductive Halt
  /-- A freed job or a null pointer is dereferenced. -/
  | fault
  /-- Nothing happens any more that would end a wait. -/
  | blocked
  | exited (status : ℕ)
  deriving DecidableEq, Repr

namespace Shell

def print (sh : Shell) (line : CStr) : Shell := { sh with out := sh.out ++ [line] }

@[simp] theorem toJobSystem_print (sh : Shell) (line : CStr) :
    (sh.print line).toJobSystem = sh.toJobSystem := rfl

/-- `isatty(STDIN_FILENO)`. -/
def tty (sh : Shell) : Bool := (sh.fds.get 0).any fun d ↦ d.file.isTerminal

/-- What `open` will make is not in the table yet. -/
def OpensNew (sh : Shell) : Prop := sh.fds.AllFiles (OpenFile.MadeBefore sh.script.opens)

def resetLastExec (sh : Shell) : Shell :=
  { sh with lastExec := { pgid := sh.lastExec.pgid } }

/-- Nothing is different but the jobs, the signals and groups to come, and what has been printed. No
job is new. -/
def OnlyJobs (sh sh' : Shell) : Prop :=
  ∃ table children reaped wakeups groups out, sh' = { sh with
    table, children, reaped, out
    script := { sh.script with wakeups, groups } }

namespace OnlyJobs

variable {sh sh₁ sh' : Shell}

@[refl] theorem refl (sh : Shell) : sh.OnlyJobs sh := ⟨_, _, _, _, _, _, rfl⟩

theorem trans (h : sh.OnlyJobs sh₁) (h' : sh₁.OnlyJobs sh') : sh.OnlyJobs sh' := by
  obtain ⟨_, _, _, _, _, _, rfl⟩ := h
  obtain ⟨_, _, _, _, _, _, rfl⟩ := h'
  exact ⟨_, _, _, _, _, _, rfl⟩

theorem heap (h : sh.OnlyJobs sh') : sh'.heap = sh.heap := by
  obtain ⟨_, _, _, _, _, _, rfl⟩ := h
  rfl

theorem fds (h : sh.OnlyJobs sh') : sh'.fds = sh.fds := by
  obtain ⟨_, _, _, _, _, _, rfl⟩ := h
  rfl

theorem shouldExit (h : sh.OnlyJobs sh') : sh'.shouldExit = sh.shouldExit := by
  obtain ⟨_, _, _, _, _, _, rfl⟩ := h
  rfl

end OnlyJobs

end Shell

/-! ## System calls -/

/-- A pid that the system can give to a new process: neither a process nor a group has it. -/
def Shell.pidFree (sh : Shell) (pid : ℕ) : Bool :=
  0 < pid && pid < 2 ^ 31 && pid ≠ sh.pid && sh.children.all fun c ↦ c.pid ≠ pid && c.pgid ≠ pid

/-- The parent's side of `fork`. -/
def xfork (sh : Shell) : Except Halt (ℕ × Shell) :=
  match sh.script.pids with
  | [] => .error (.exited 1)
  | pid :: pids =>
    if sh.pidFree pid then .ok (pid, { sh with script := { sh.script with pids } })
    else .error (.exited 1)

/-- The two ends of a new pipe. -/
def xpipe (sh : Shell) : (ℕ × ℕ) × Shell :=
  let (fd₀, fds) := sh.fds.alloc ⟨.pipeRead sh.pipes, false⟩
  let (fd₁, fds) := fds.alloc ⟨.pipeWrite sh.pipes, false⟩
  ((fd₀, fd₁), { sh with fds, pipes := sh.pipes + 1 })

def closeFd (fd : ℕ) (sh : Shell) : Shell := { sh with fds := sh.fds.close fd }

/-- `xsigprocmask(SIG_BLOCK)` with the three signals of the shell, and the mask before it. -/
def blockSignals (sh : Shell) : SigSet × Shell :=
  (sh.sigmask, { sh with sigmask := ⟨true, true, true⟩ })

/-- `xsignalfd` with `SFD_CLOEXEC`. -/
def xsignalfd (sh : Shell) : ℕ × Shell :=
  let (sfd, fds) := sh.fds.alloc ⟨.signals, true⟩
  (sfd, { sh with fds })

/-- Whether a process group exists. A child keeps its group until it is reaped. -/
def groupExists (pgid : ℕ) (sh : Shell) : Bool × Shell :=
  if sh.children.any fun c ↦ c.pgid = pgid then (true, sh)
  else
    (sh.script.groups.headD false,
      { sh with script := { sh.script with groups := sh.script.groups.tail } })

/-- `xkill(-pgid, SIGCONT)`. Group 0 stands for the shell's own. -/
def xkill (pgid : ℕ) (sh : Shell) : Except Halt Shell :=
  if pgid = 0 then .ok sh
  else
    let (found, sh) := groupExists pgid sh
    if found then .ok sh else .error (.exited 1)

/-- `xtcsetpgrp(STDIN_FILENO, pgid)`, which forgives `ENOTTY` only. -/
def xtcsetpgrp (pgid : ℕ) (sh : Shell) : Except Halt Shell :=
  match sh.fds.get 0 with
  | none => .error (.exited 1)
  | some d =>
    if !d.file.isTerminal then .ok sh
    else if pgid = 0 then .error (.exited 1)
    else
      let (found, sh) := groupExists pgid sh
      if found then .ok sh else .error (.exited 1)

/-- `xtcsetattr` forgives nothing. -/
def shellRegainControl (sh : Shell) : Except Halt Shell :=
  if sh.tty then .ok sh else .error (.exited 1)

/-! ### What they change

Whether a group exists is the only thing that they ask of the system. -/

section

variable {pgid : ℕ} {sh sh' : Shell}

theorem eq_of_groupExists (pgid : ℕ) (sh : Shell) :
    ∃ groups, (groupExists pgid sh).2 = { sh with script := { sh.script with groups } } := by
  unfold groupExists
  split <;> exact ⟨_, rfl⟩

theorem eq_of_xkill (h : xkill pgid sh = .ok sh') :
    ∃ groups, sh' = { sh with script := { sh.script with groups } } := by
  unfold xkill at h
  split at h
  · cases h
    exact ⟨_, rfl⟩
  dsimp only at h
  split at h <;> cases h
  exact eq_of_groupExists pgid sh

theorem eq_of_xtcsetpgrp (h : xtcsetpgrp pgid sh = .ok sh') :
    ∃ groups, sh' = { sh with script := { sh.script with groups } } := by
  unfold xtcsetpgrp at h
  split at h
  · cases h
  split at h
  · cases h
    exact ⟨_, rfl⟩
  split at h
  · cases h
  dsimp only at h
  split at h <;> cases h
  exact eq_of_groupExists pgid sh

/-- The group of a child that is left can be given the terminal. -/
theorem xtcsetpgrp_of_group (htty : sh.tty = true) (hpos : 0 < pgid)
    (hgroup : ∃ k ∈ sh.children, k.pgid = pgid) : xtcsetpgrp pgid sh = .ok sh := by
  have hany : (sh.children.any fun k ↦ k.pgid = pgid) = true := by simpa using hgroup
  obtain ⟨d, hd, hterminal⟩ := (Option.any_eq_true _ _).mp htty
  rw [xtcsetpgrp, hd]
  dsimp only
  rw [hterminal, if_neg (by decide), if_neg hpos.ne', groupExists, if_pos hany]
  rfl

theorem shellRegainControl_of_tty (htty : sh.tty = true) : shellRegainControl sh = .ok sh :=
  if_pos htty

theorem eq_of_shellRegainControl (h : shellRegainControl sh = .ok sh') : sh' = sh := by
  unfold shellRegainControl at h
  split at h <;> cases h
  rfl

theorem onlyJobs_xkill (h : xkill pgid sh = .ok sh') : sh.OnlyJobs sh' := by
  obtain ⟨_, rfl⟩ := eq_of_xkill h
  exact ⟨_, _, _, _, _, _, rfl⟩

theorem onlyJobs_xtcsetpgrp (h : xtcsetpgrp pgid sh = .ok sh') : sh.OnlyJobs sh' := by
  obtain ⟨_, rfl⟩ := eq_of_xtcsetpgrp h
  exact ⟨_, _, _, _, _, _, rfl⟩

end

end Novash
