import Novash.Executor.Control

/-!
# Invariants of single jobs

Most of what is true of the list of jobs is true of each job by itself. `Control.KeptByJobs` is what
has to be checked of such a property: that new jobs have it, and that each way to write to a job
keeps it. `forall_jobs_of_step` turns that into a statement about a step, once for all properties.
-/

namespace Novash

open Foundations ProcessState JobState

namespace JobTable

/-- `resume` is one write to the job, and one more running job. -/
theorem jobs_resume (t : JobTable) (addr : ℕ) (isBackground : Bool) :
    (t.resume addr isBackground).jobs = (t.modify addr fun job ↦
      { job.markContinued with isBackground, state := jobRunning }).jobs := by
  have hjobs := congrArg JobTable.jobs (t.modify_modify addr Job.markContinued
    (fun job ↦ { job with isBackground, state := jobRunning }) fun _ ↦ rfl)
  exact hjobs

theorem runningJobsCount_resume (t : JobTable) (addr : ℕ) (isBackground : Bool) :
    (t.resume addr isBackground).runningJobsCount = t.runningJobsCount + 1 := rfl

/-- Completing a job that has just taken in an event is one write to it, and a removal. -/
theorem jobs_markCompleted_applyStatus (t : JobTable) (job : Job) (ev : WaitEvent) :
    (jobsMarkJobCompleted (t.applyStatus job.addr ev.pid ev.status)
      (job.applyStatus ev.pid ev.status)).jobs
      = (t.modify job.addr fun j ↦
          { j.applyStatus ev.pid ev.status with state := jobDone }).jobs.eraseP
        fun j ↦ j.pgid = job.pgid := by
  have hpgid : (job.applyStatus ev.pid ev.status).pgid = job.pgid := by cases ev.status <;> rfl
  have htwice := modifyFirst_modifyFirst (p := fun j : Job ↦ j.addr = job.addr)
    (f := Job.applyStatus ev.pid ev.status) (g := fun j ↦ { j with state := jobDone })
    (by simp) t.jobs
  rw [jobsMarkJobCompleted, jobs_removeJob, Job.addr_applyStatus, hpgid, jobs_modify,
    jobs_applyStatus, jobs_modify, htwice]

theorem deref_applyStatus_self {t : JobTable} {job : Job} (pid : ℕ) (status : WaitStatus)
    (h : t.deref job.addr = some job) :
    (t.applyStatus job.addr pid status).deref job.addr = some (job.applyStatus pid status) := by
  rw [deref, jobs_applyStatus]
  exact find?_modifyFirst_self h (by simp)

theorem forall_jobs_modify {P : Job → Prop} {t : JobTable} {addr : ℕ} {job : Job} {f : Job → Job}
    (hjob : t.deref addr = some job) (hP : ∀ j ∈ t.jobs, P j) (hf : P (f job)) :
    ∀ j ∈ (t.modify addr f).jobs, P j := by
  intro j hj
  rcases mem_modifyFirst hjob hj with rfl | hj
  · exact hf
  · exact hP j hj

end JobTable

/-- The job that a search finds is the one its pointer refers to. -/
theorem JobSystem.WellFormed.deref_eq {s : JobSystem} (hs : s.WellFormed) {job : Job}
    (hjob : job ∈ s.table.jobs) : s.table.deref job.addr = some job :=
  find?_eq_of_nodup hs.nodup hjob

theorem JobSystem.WellFormed.deref_of_find {s : JobSystem} (hs : s.WellFormed) {pid : ℕ} {job : Job}
    (hjob : jobsFindProcessByPid s.table pid = some job) : s.table.deref job.addr = some job :=
  hs.deref_eq (List.mem_of_find?_eq_some hjob)

/-- What is left of a job that takes in an event. In the background it is done when it has no live
process. -/
def Job.taken (job : Job) (ev : WaitEvent) : Job :=
  if (job.applyStatus ev.pid ev.status).liveProcesses = 0 ∧ job.isBackground = true then
    { job.applyStatus ev.pid ev.status with state := jobDone }
  else job.applyStatus ev.pid ev.status

/-- Reaping writes to one job, of a child, and may take a job off the list. -/
theorem JobSystem.forall_jobs_reap {P : Job → Prop} {s : JobSystem} {ev : WaitEvent}
    (hwf : s.WellFormed) (hP : ∀ job ∈ s.table.jobs, P job)
    (htaken : ∀ job, (∃ c ∈ s.children, c.pid = ev.pid) →
      jobsFindProcessByPid s.table ev.pid = some job → P job → P (job.taken ev)) :
    ∀ job ∈ (s.reap ev).table.jobs, P job := by
  rcases Control.reap_cases s ev with hsame | ⟨hchild, htable, -⟩
  · rw [hsame]
    exact hP
  rcases s.table.reap_cases ev with ⟨-, hsame⟩ | ⟨job, hfind, hcases⟩
  · rw [htable, hsame]
    exact hP
  have hderef := hwf.deref_of_find hfind
  have hjob := htaken job hchild hfind (hP job (JobTable.mem_of_deref hderef))
  rcases hcases with ⟨hlive, hbg, hdone⟩ | ⟨hnot, happly⟩
  · rw [Job.taken, if_pos ⟨hlive, hbg⟩] at hjob
    rw [htable, hdone]
    intro j hj
    exact JobTable.forall_jobs_modify hderef hP hjob j
      (List.eraseP_sublist.subset (s.table.jobs_markCompleted_applyStatus job ev ▸ hj))
  · rw [Job.taken, if_neg hnot] at hjob
    rw [htable, happly, JobTable.jobs_applyStatus]
    exact JobTable.forall_jobs_modify hderef hP hjob

namespace Control

/-- What keeps a property of jobs, in the state before an event: `Hit` says which events are taken
in. -/
structure KeptByJobs (P : Job → Prop) (s : JobSystem) (Hit : WaitEvent → Prop) : Prop where
  fresh : ∀ (job : Job) id, job.Fresh → P { job with id }
  launched : ∀ (job : Job) id, s.Launched job → P { job with id }
  applied : ∀ (job : Job) ev, Hit ev → (∃ c ∈ s.children, c.pid = ev.pid) →
    jobsFindProcessByPid s.table ev.pid = some job → P job → P (job.applyStatus ev.pid ev.status)
  /-- Only a background job is marked as completed by an event. -/
  done : ∀ job : Job, job.isBackground = true → P job → P { job with state := jobDone }
  resumed : ∀ (job : Job) isBackground, job.state = jobStopped → P job →
    P { job.markContinued with isBackground, state := jobRunning }
  forward : ∀ job : Job, P job → P { job with isBackground := false }

/-- A property of jobs that is kept by everything that is done to a job is kept by a step, if the
events it takes in are good. -/
theorem forall_jobs_of_step {P : Job → Prop} {good : JobTable → WaitEvent → Prop} {c c' : Control}
    (h : Step c c') (hgood : History good c') (hwf : c.sys.WellFormed)
    (hkept : KeptByJobs P c.sys (good c.sys.table)) (hP : ∀ job ∈ c.sys.table.jobs, P job) :
    ∀ job ∈ c'.sys.table.jobs, P job := by
  cases h with
  | allocate s => exact hP
  | enlist s job haddr hfresh => exact List.forall_mem_cons.mpr ⟨hkept.fresh job _ hfresh, hP⟩
  | delist s => exact fun j hj ↦ hP j ((JobTable.jobs_removeJob_sublist _ _).subset hj)
  | launch s job haddr hjob => exact List.forall_mem_cons.mpr ⟨hkept.launched job _ hjob, hP⟩
  | reap s w ev =>
    rcases reap_cases s ev with hsame | ⟨-, -, hreaped⟩
    · rw [hsame]
      exact hP
    have hev := good_of_history hgood hreaped
    refine JobSystem.forall_jobs_reap hwf hP fun job hchild hfind hjob ↦ ?_
    have happlied := hkept.applied job ev hev hchild hfind hjob
    unfold Job.taken
    split
    · next hdone =>
      exact hkept.done _ ((job.isBackground_applyStatus ev.pid ev.status).trans hdone.2) happlied
    · exact happlied
  | resumeBg s job hjob hstopped =>
    change ∀ j ∈ (s.table.resume job.addr true).jobs, P j
    rw [JobTable.jobs_resume]
    exact JobTable.forall_jobs_modify hjob hP
      (hkept.resumed job true hstopped (hP job (JobTable.mem_of_deref hjob)))
  | resumeFg s job hjob hstopped hbg =>
    change ∀ j ∈ (s.table.resume job.addr false).jobs, P j
    rw [JobTable.jobs_resume]
    exact JobTable.forall_jobs_modify hjob hP
      (hkept.resumed job false hstopped (hP job (JobTable.mem_of_deref hjob)))
  | bringForward s job hjob hbg =>
    exact JobTable.forall_jobs_modify hjob hP
      (hkept.forward job (hP job (JobTable.mem_of_deref hjob)))
  | finish s w job hjob hlive hstate =>
    exact fun j hj ↦ hP j ((JobTable.jobs_removeJob_sublist _ _).subset hj)
  | yield s w job hjob hstopped => exact hP

end Control

end Novash
