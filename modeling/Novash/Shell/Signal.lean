import Novash.Shell.State

/-!
# Reaping

`signal.c`: the shell learns about its children in `handle_sigchld_events` only, whoever calls it:
the event hook of the prompt, or the loop that waits for a foreground job.

An event changes the record of one process and, through it, the job that the record is in. The job
is looked up by pid among *all* records, also those of processes that are gone.
-/

namespace Novash

open Foundations ProcessState JobState

/-! ## One event -/

/-- What an event does to the job of the process it is about. -/
def Job.applyStatus (pid : ℕ) (status : WaitStatus) (job : Job) : Job :=
  match status with
  | .exited status =>
    { job.modifyProcess pid fun p ↦ { p with state := processDone, status := status.toNat } with
      liveProcesses := job.liveProcesses - 1 }
  | .signaled sig =>
    { job.modifyProcess pid fun p ↦ { p with state := processKilled, status := sig } with
      liveProcesses := job.liveProcesses - 1 }
  | .stopped _ =>
    { (job.modifyProcess pid fun p ↦ { p with state := processStopped }).markStopped with
      liveProcesses := 0 }
  | .continued => job.modifyProcess pid fun p ↦ { p with state := processRunning }

/-- The list after the job at `addr` has taken in an event. A stop also takes the job out of the
running ones, whether or not it was among them. -/
def JobTable.applyStatus (t : JobTable) (addr pid : ℕ) (status : WaitStatus) : JobTable :=
  let t := t.modify addr (Job.applyStatus pid status)
  match status with
  | .stopped _ => { t with runningJobsCount := t.runningJobsCount - 1 }
  | _ => t

/-- The three writes of the source on a stop, one after the other. -/
theorem JobTable.applyStatus_stopped (t : JobTable) (addr pid sig : ℕ) :
    t.applyStatus addr pid (.stopped sig)
      = (jobsMarkJobStopped
          (t.modify addr fun j ↦ j.modifyProcess pid fun p ↦ { p with state := processStopped })
          addr).modify addr fun j ↦ { j with liveProcesses := 0 } := by
  have hmark := t.modify_modify addr
    (fun j ↦ j.modifyProcess pid fun p ↦ { p with state := processStopped }) Job.markStopped
    fun j ↦ rfl
  have hlive := t.modify_modify addr
    (fun j ↦ (j.modifyProcess pid fun p ↦ { p with state := processStopped }).markStopped)
    (fun j ↦ { j with liveProcesses := 0 }) fun j ↦ rfl
  rw [jobsMarkJobStopped, hmark]
  exact congrArg (fun t' ↦ { t' with runningJobsCount := t'.runningJobsCount - 1 }) hlive.symm

/-- The body of the loop of `handle_sigchld_events`, less what it prints. -/
def JobTable.reap (t : JobTable) (ev : WaitEvent) : JobTable :=
  match jobsFindProcessByPid t ev.pid with
  | none => t
  | some job =>
    let t := t.applyStatus job.addr ev.pid ev.status
    let job := job.applyStatus ev.pid ev.status
    if job.liveProcesses = 0 && job.isBackground then jobsMarkJobCompleted t job else t

/-- What it prints: an unknown pid, a job that stopped, a background job that is done. -/
def JobTable.reapLines (t : JobTable) (ev : WaitEvent) : List CStr :=
  match jobsFindProcessByPid t ev.pid with
  | none => ["reaper: unknown pid ".toList ++ showInt ev.pid]
  | some job =>
    let t := t.applyStatus job.addr ev.pid ev.status
    let job := job.applyStatus ev.pid ev.status
    (match ev.status with
      | .stopped _ => [jobsPrintJobStatus t job]
      | _ => []) ++
    if job.liveProcesses = 0 && job.isBackground then
      [jobsPrintJobStatus t { job with state := jobDone }]
    else []

/-- The event as the system and the list of jobs see it. `waitpid` does not report on a process that
is not a child, or not any more. -/
def JobSystem.reap (s : JobSystem) (ev : WaitEvent) : JobSystem :=
  if s.children.any fun c ↦ c.pid = ev.pid then
    { s with
      table := s.table.reap ev
      children := if ev.status.isDeath then s.children.filter fun c ↦ c.pid ≠ ev.pid else s.children
      reaped := s.reaped ++ [(s.table, ev)] }
  else s

def reapEvent (sh : Shell) (ev : WaitEvent) : Shell :=
  { sh with
    toJobSystem := sh.toJobSystem.reap ev
    out :=
      if sh.children.any fun c ↦ c.pid = ev.pid then sh.out ++ sh.table.reapLines ev else sh.out }

/-! ## All events -/

def handleSigchldEvents (sh : Shell) (events : List WaitEvent) : Shell := events.foldl reapEvent sh

@[simp] theorem toJobSystem_handleSigchldEvents (sh : Shell) (events : List WaitEvent) :
    (handleSigchldEvents sh events).toJobSystem = events.foldl JobSystem.reap sh.toJobSystem := by
  induction events generalizing sh with
  | nil => rfl
  | cons ev events ih => exact ih (reapEvent sh ev)

theorem onlyJobs_reapEvent (sh : Shell) (ev : WaitEvent) : sh.OnlyJobs (reapEvent sh ev) := by
  unfold reapEvent JobSystem.reap
  split <;> exact ⟨_, _, _, _, _, _, rfl⟩

theorem onlyJobs_handleSigchldEvents (sh : Shell) (events : List WaitEvent) :
    sh.OnlyJobs (handleSigchldEvents sh events) := by
  induction events generalizing sh with
  | nil => rfl
  | cons ev events ih => exact (onlyJobs_reapEvent sh ev).trans (ih (reapEvent sh ev))

end Novash
