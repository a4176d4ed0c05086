import Novash.Foundations.Lists
import Novash.Parser.Ast

/-!
# Jobs

`jobs.c`: processes, jobs, and the shell's list of them.

## The list

The list is doubly linked. New jobs go to its tail, every search starts there and follows `prev`,
and only the choice of a new id walks from the head. So `jobs` lists the jobs from `jobs_tail` back
to the head, the newest first, and `jobsNewId` reads it in reverse.

A job is reached through pointers that outlive a search: `addr` is what such a pointer holds. An
address is never handed out twice, so a pointer to a job that was freed finds nothing.

## The counters

`live_processes` is an `unsigned` and the two counts of the list are `size_t`, so all three wrap.
-/

namespace Novash

open Foundations

/-- `process_state_e`. -/
inductive ProcessState
  | processRunning
  | processDone
  | processStopped
  | processKilled
  deriving DecidableEq, Repr

/-- `job_state_e`. `jobContinued` is what a job is for a moment when it is continued. -/
inductive JobState
  | jobRunning
  | jobDone
  | jobStopped
  | jobContinued
  | jobKilled
  deriving DecidableEq, Repr

open ProcessState JobState

/-- `process_t`. The fields that `xcalloc` leaves zero have that default: `pid` until the process is
forked, and `state`, which is therefore `PROCESS_RUNNING` before there is a process. -/
structure Process where
  pid : ℕ := 0
  argv : List CStr
  redir : List Redirection
  state : ProcessState := processRunning
  status : ℕ := 0
  deriving DecidableEq, Repr

/-- `job_t`. -/
structure Job where
  addr : ℕ
  id : ℕ := 0
  pgid : ℕ := 0
  processes : List Process := []
  command : CStr := []
  isBackground : Bool := false
  state : JobState := jobRunning
  liveProcesses : UInt32 := 0
  deriving DecidableEq, Repr

/-- `shell_jobs_t`. -/
structure JobTable where
  jobs : List Job := []
  jobsCount : UInt64 := 0
  runningJobsCount : UInt64 := 0
  deriving DecidableEq, Repr

/-! ## Processes -/

/-- `jobs_new_process` with `deep_copy`: the copy of a redirection has no parts. -/
def jobsNewProcess (cmd : CmdNode) : Process where
  argv := cmd.argv.getD []
  redir := cmd.redir.map fun r ↦ { r with targetParts := [] }

def jobsAddProcessToJob (job : Job) (process : Process) : Job :=
  { job with processes := job.processes ++ [process] }

namespace Process

/-- The process was forked. -/
def forked (p : Process) : Bool := p.pid ≠ 0

/-- What `live_processes` is meant to count. -/
def live (p : Process) : Bool := p.forked && p.state = processRunning

end Process

namespace Job

def hasPid (pid : ℕ) (job : Job) : Bool := job.processes.any fun p ↦ p.pid = pid

/-- The process record that `jobs_find_process_by_pid` returns, once its job is found. -/
def process? (job : Job) (pid : ℕ) : Option Process := job.processes.find? fun p ↦ p.pid = pid

def modifyProcess (job : Job) (pid : ℕ) (f : Process → Process) : Job :=
  { job with processes := modifyFirst (fun p ↦ p.pid = pid) f job.processes }

/-- A job of forked processes, as opposed to the entry of a builtin. -/
def forked (job : Job) : Bool := job.processes.any Process.forked

/-- The number of forked processes recorded as running. -/
def liveCount (job : Job) : ℕ := job.processes.countP Process.live

end Job

/-! ## The list of jobs -/

/-- The scan of `jobs_add_job`, from the candidate `newId`. -/
def newIdLoop (newId : ℕ) : List Job → ℕ
  | [] => newId
  | j :: jobs => if j.id ≥ newId + 1 then newId else newIdLoop (newId + 1) jobs

def jobsNewId (t : JobTable) : ℕ := newIdLoop 1 t.jobs.reverse

def jobsAddJob (t : JobTable) (job : Job) : JobTable where
  jobs := { job with id := jobsNewId t } :: t.jobs
  jobsCount := t.jobsCount + 1
  runningJobsCount := t.runningJobsCount + 1

def jobsLastJob (t : JobTable) : Option Job := t.jobs.head?

def jobsSecondLastJob (t : JobTable) : Option Job := t.jobs.tail.head?

def jobsFindJobByPgid (t : JobTable) (pgid : ℕ) : Option Job := t.jobs.find? fun j ↦ j.pgid = pgid

/-- The job of the record that `jobs_find_process_by_pid` returns. -/
def jobsFindProcessByPid (t : JobTable) (pid : ℕ) : Option Job := t.jobs.find? (Job.hasPid pid)

def jobsRemoveJob (t : JobTable) (pgid : ℕ) : Bool × JobTable :=
  match jobsFindJobByPgid t pgid with
  | none => (false, t)
  | some job =>
    (true,
      { jobs := t.jobs.eraseP fun j ↦ j.pgid = pgid
        jobsCount := t.jobsCount - 1
        runningJobsCount :=
          if job.state ≠ jobStopped then t.runningJobsCount - 1 else t.runningJobsCount })

namespace JobTable

/-- The job a pointer refers to, if it has not been freed. -/
def deref (t : JobTable) (addr : ℕ) : Option Job := t.jobs.find? fun j ↦ j.addr = addr

/-- Write to a job through a pointer. -/
def modify (t : JobTable) (addr : ℕ) (f : Job → Job) : JobTable :=
  { t with jobs := modifyFirst (fun j ↦ j.addr = addr) f t.jobs }

@[simp] theorem jobs_modify (t : JobTable) (addr : ℕ) (f : Job → Job) :
    (t.modify addr f).jobs = modifyFirst (fun j ↦ j.addr = addr) f t.jobs := rfl

theorem addr_of_deref {t : JobTable} {addr : ℕ} {job : Job} (h : t.deref addr = some job) :
    job.addr = addr := by simpa using List.find?_some h

theorem mem_of_deref {t : JobTable} {addr : ℕ} {job : Job} (h : t.deref addr = some job) :
    job ∈ t.jobs := List.mem_of_find?_eq_some h

/-- What was written through a pointer is read through it. -/
theorem deref_modify_self {t : JobTable} {addr : ℕ} {job : Job} (f : Job → Job)
    (h : t.deref addr = some job) (hf : (f job).addr = job.addr) :
    (t.modify addr f).deref addr = some (f job) :=
  find?_modifyFirst_self h (by simpa [hf] using addr_of_deref h)

/-- Two writes through one pointer. -/
theorem modify_modify (t : JobTable) (addr : ℕ) (f g : Job → Job)
    (hf : ∀ j, (f j).addr = j.addr) :
    (t.modify addr f).modify addr g = t.modify addr fun j ↦ g (f j) := by
  rw [modify, modify, modify, modifyFirst_modifyFirst fun j hj ↦ by simpa [hf] using hj]

theorem jobs_removeJob (t : JobTable) (pgid : ℕ) :
    (jobsRemoveJob t pgid).2.jobs = t.jobs.eraseP fun j ↦ j.pgid = pgid := by
  unfold jobsRemoveJob
  split
  · next hfind => exact (List.eraseP_of_forall_not (List.find?_eq_none.mp hfind)).symm
  · rfl

theorem jobs_removeJob_sublist (t : JobTable) (pgid : ℕ) :
    (jobsRemoveJob t pgid).2.jobs.Sublist t.jobs := by
  rw [jobs_removeJob]
  exact List.eraseP_sublist

end JobTable

/-! ## Changes of state -/

/-- The loop of `jobs_mark_job_stopped` and the state after it. -/
def Job.markStopped (job : Job) : Job :=
  { job with
    processes := job.processes.map fun p ↦
      if p.state = processRunning then { p with state := processStopped } else p
    state := jobStopped }

/-- `jobs_mark_job_stopped`, less what it prints. -/
def jobsMarkJobStopped (t : JobTable) (addr : ℕ) : JobTable :=
  let t := t.modify addr Job.markStopped
  { t with runningJobsCount := t.runningJobsCount - 1 }

/-- The loop of `jobs_mark_job_continued` and the state after it. -/
def Job.markContinued (job : Job) : Job :=
  { job with
    processes := job.processes.map fun p ↦
      if p.state = processStopped then { p with state := processRunning } else p
    state := jobContinued
    liveProcesses := job.processes.foldl
      (fun n p ↦ if p.state = processStopped then n + 1 else n) job.liveProcesses }

def jobsMarkJobContinued (t : JobTable) (addr : ℕ) : JobTable := t.modify addr Job.markContinued

/-- `jobs_mark_job_completed`, less what it prints. The job that is removed is the newest one with
this process group. -/
def jobsMarkJobCompleted (t : JobTable) (job : Job) : JobTable :=
  (jobsRemoveJob (t.modify job.addr fun j ↦ { j with state := jobDone }) job.pgid).2

/-! ## Printing a job -/

def JobState.text : JobState → CStr
  | jobRunning => " running ".toList
  | jobDone => "   done  ".toList
  | jobStopped => " stopped ".toList
  | jobContinued => "continued".toList
  | jobKilled => "  killed ".toList

/-- The line printed by `jobs_print_job_status`: `+` marks the newest job and `-` the one before. -/
def jobsPrintJobStatus (t : JobTable) (job : Job) : CStr :=
  let active :=
    if (jobsLastJob t).map Job.addr = some job.addr then '+'
    else if (jobsSecondLastJob t).map Job.addr = some job.addr then '-'
    else ' '
  ['['] ++ showInt job.id ++ [']', ' ', active, ' '] ++ job.state.text ++ [' '] ++ job.command

end Novash
