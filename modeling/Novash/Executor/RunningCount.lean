import Novash.Executor.Refinement

/-!
# The count of running jobs

`running_jobs_count` should be the number of listed jobs that are not stopped. It is decremented by
`jobs_mark_job_stopped` for *every* stop event, and again by `jobs_remove_job` for a job whose state
is not `JOB_STOPPED` at that moment. Two things go wrong:

* the second process of a pipeline stops, and the job, which is stopped already, is taken out of the
  count once more;
* a background job stops, which sets its `live_processes` to zero, so that it is marked as completed
  and taken out a second time.

Without such events the count is right in every state that the shell reaches. The counter is a
`size_t`; as long as fewer than 2^64 jobs are listed, it is the number itself.
-/

namespace Novash

open Foundations ProcessState JobState

/-- The job is one of those to be counted. -/
def Job.counted (job : Job) : Bool := job.state ≠ jobStopped

/-- The number of listed jobs that are not stopped. -/
def JobTable.notStopped (t : JobTable) : ℕ := t.jobs.countP Job.counted

/-- A stop event finds a job that is neither stopped nor in the background. -/
def StopsRunningForeground (t : JobTable) (ev : WaitEvent) : Prop :=
  ∀ sig job, ev.status = .stopped sig → jobsFindProcessByPid t ev.pid = some job →
    job.state ≠ jobStopped ∧ job.isBackground = false

/-! ## What the operations do to the count -/

namespace JobTable

/-- The counter is the number of jobs it should count, modulo the width of a `size_t`. -/
def Balanced (t : JobTable) : Prop := t.runningJobsCount = UInt64.ofNat t.notStopped

theorem pred_ofNat_succ (n : ℕ) : UInt64.ofNat (n + 1) - 1 = UInt64.ofNat n := by
  rw [UInt64.ofNat_add]
  exact UInt64.add_sub_cancel _ _

theorem Balanced.addJob {t : JobTable} (ht : t.Balanced) {job : Job}
    (hjob : job.state = jobRunning) : (jobsAddJob t job).Balanced := by
  have hcounted : Job.counted { job with id := jobsNewId t } = true := by
    rw [Job.counted, hjob]
    decide
  rw [Balanced, notStopped, jobsAddJob, List.countP_cons, if_pos hcounted, UInt64.ofNat_add, ht]
  rfl

theorem Balanced.removeJob {t : JobTable} (ht : t.Balanced) (pgid : ℕ) :
    (jobsRemoveJob t pgid).2.Balanced := by
  unfold jobsRemoveJob
  split
  · exact ht
  · next job hfind =>
    have hcount := countP_eraseP (q := Job.counted) hfind
    rw [Balanced] at ht ⊢
    by_cases hjob : job.state = jobStopped
    · rw [if_neg (not_not.mpr hjob), ht, notStopped, notStopped, ← hcount,
        if_neg (by rw [Job.counted, hjob]; decide), Nat.add_zero]
    · rw [if_pos hjob, ht, notStopped, notStopped, ← hcount,
        if_pos (by rw [Job.counted]; exact decide_eq_true hjob), pred_ofNat_succ]

theorem notStopped_modify {t : JobTable} {addr : ℕ} {job : Job} (f : Job → Job)
    (hjob : t.deref addr = some job) :
    (t.modify addr f).notStopped + (if job.counted then 1 else 0)
      = t.notStopped + if (f job).counted then 1 else 0 := countP_modifyFirst hjob

/-- A write that does not start or stop the job. -/
theorem Balanced.modify {t : JobTable} (ht : t.Balanced) {addr : ℕ} {job : Job} (f : Job → Job)
    (hjob : t.deref addr = some job) (hf : (f job).counted = job.counted) :
    (t.modify addr f).Balanced := by
  have hcount := notStopped_modify f hjob
  rw [hf] at hcount
  rw [Balanced, Nat.add_right_cancel hcount]
  exact ht

theorem Balanced.resume {t : JobTable} (ht : t.Balanced) {addr : ℕ} {job : Job}
    (isBackground : Bool) (hjob : t.deref addr = some job) (hstopped : job.state = jobStopped) :
    (t.resume addr isBackground).Balanced := by
  have hbefore : ¬job.counted = true := by rw [Job.counted, hstopped]; decide
  have hcount := notStopped_modify
    (fun job ↦ { job.markContinued with isBackground, state := jobRunning }) hjob
  rw [if_neg hbefore, if_pos (show Job.counted _ = true from rfl)] at hcount
  have hjobs : (t.resume addr isBackground).notStopped = (t.modify addr fun job ↦
      { job.markContinued with isBackground, state := jobRunning }).notStopped :=
    congrArg (List.countP Job.counted) (t.jobs_resume addr isBackground)
  rw [Balanced, runningJobsCount_resume, ht, hjobs]
  exact (UInt64.ofNat_add _ 1).symm.trans (congrArg UInt64.ofNat hcount.symm)

end JobTable

/-- `applyStatus` counts a job out if the event is a stop, and not otherwise. -/
theorem Job.counted_applyStatus (pid : ℕ) {status : WaitStatus} (job : Job)
    (hstatus : ∀ sig, status ≠ .stopped sig) :
    (job.applyStatus pid status).counted = job.counted := by
  cases status with
  | stopped sig => exact absurd rfl (hstatus sig)
  | _ => rfl

namespace JobTable

theorem Balanced.applyStatus {t : JobTable} (ht : t.Balanced) {ev : WaitEvent} {job : Job}
    (hev : StopsRunningForeground t ev) (hfind : jobsFindProcessByPid t ev.pid = some job)
    (hjob : t.deref job.addr = some job) :
    (t.applyStatus job.addr ev.pid ev.status).Balanced := by
  by_cases hstop : ∃ sig, ev.status = .stopped sig
  · obtain ⟨sig, hsig⟩ := hstop
    have hbefore : job.counted = true := decide_eq_true (hev sig job hsig hfind).1
    have hcount := notStopped_modify (Job.applyStatus ev.pid (.stopped sig)) hjob
    have hafter : ¬(job.applyStatus ev.pid (.stopped sig)).counted = true := Bool.false_ne_true
    rw [if_pos hbefore, if_neg hafter] at hcount
    rw [Balanced] at ht
    rw [hsig, Balanced, JobTable.applyStatus]
    change t.runningJobsCount - 1 = UInt64.ofNat (t.modify job.addr _).notStopped
    rw [ht, ← Nat.add_zero t.notStopped, ← hcount, pred_ofNat_succ]
  · have hstatus : ∀ sig, ev.status ≠ .stopped sig := fun sig h ↦ hstop ⟨sig, h⟩
    have hmodify := ht.modify (Job.applyStatus ev.pid ev.status) hjob
      (job.counted_applyStatus ev.pid hstatus)
    unfold JobTable.applyStatus
    dsimp only
    split
    · next sig hsig => exact absurd hsig (hstatus sig)
    · exact hmodify

end JobTable

/-! ## Steps and runs -/

/-- No job is stopped and in the background. -/
def Job.StopsInForeground (job : Job) : Prop := job.state = jobStopped → job.isBackground = false

theorem keptByJobs_stopsInForeground (s : JobSystem) :
    Control.KeptByJobs Job.StopsInForeground s (StopsRunningForeground s.table) where
  fresh job id hfresh hstopped := absurd (hfresh.state.symm.trans hstopped) (by decide)
  launched job id hjob hstopped := absurd (hjob.state.symm.trans hstopped) (by decide)
  applied job ev hev _ hfind hjob := by
    cases hstatus : ev.status with
    | stopped sig => exact fun _ ↦ (hev sig job hstatus hfind).2
    | _ => exact hjob
  done _ _ _ hstopped := nomatch hstopped
  resumed _ _ _ _ hstopped := nomatch hstopped
  forward _ _ _ := rfl

/-- Completing a job takes it out of the count once, because it was in it. -/
theorem JobTable.Balanced.markCompleted {t : JobTable} (ht : t.Balanced) {job : Job}
    (hjob : t.deref job.addr = some job) (hcounted : job.counted = true) :
    (jobsMarkJobCompleted t job).Balanced :=
  (ht.modify (fun j ↦ { j with state := jobDone }) hjob hcounted.symm).removeJob _

theorem JobTable.Balanced.reap {s : JobSystem} (hs : s.WellFormed) (ht : s.table.Balanced)
    (hjobs : ∀ job ∈ s.table.jobs, job.StopsInForeground) {ev : WaitEvent}
    (hev : StopsRunningForeground s.table ev) : (s.table.reap ev).Balanced := by
  rcases s.table.reap_cases ev with ⟨-, hsame⟩ | ⟨job, hfind, hcases⟩
  · rw [hsame]
    exact ht
  have hderef := hs.deref_of_find hfind
  have happly := ht.applyStatus hev hfind hderef
  rcases hcases with ⟨-, hbg, hdone⟩ | ⟨-, hsame⟩
  · have hcounted : (job.applyStatus ev.pid ev.status).counted = true := by
      rw [Job.counted_applyStatus ev.pid job fun sig hsig ↦
        Bool.false_ne_true ((hev sig job hsig hfind).2.symm.trans hbg)]
      refine decide_eq_true fun hstopped ↦ ?_
      exact Bool.false_ne_true
        ((hjobs job (mem_of_deref hderef) hstopped).symm.trans hbg)
    rw [hdone]
    refine happly.markCompleted ?_ hcounted
    rw [Job.addr_applyStatus]
    exact deref_applyStatus_self ev.pid ev.status hderef
  · rw [hsame]
    exact happly

/-- The count is right, and what keeps it right. -/
structure CountInvariant (c : Control) : Prop where
  wellFormed : c.sys.WellFormed
  balanced : c.sys.table.Balanced
  jobs : ∀ job ∈ c.sys.table.jobs, job.StopsInForeground

theorem countInvariant_step {c c' : Control} (h : c.Step c')
    (hgood : c'.History StopsRunningForeground) (hc : CountInvariant c) : CountInvariant c' where
  wellFormed := Control.wellFormed_step h hc.wellFormed
  jobs := Control.forall_jobs_of_step h hgood hc.wellFormed (keptByJobs_stopsInForeground c.sys)
    hc.jobs
  balanced := by
    obtain ⟨hwf, ht, hjobs⟩ := hc
    cases h with
    | allocate s => exact ht
    | enlist s job haddr hfresh => exact ht.addJob hfresh.state
    | delist s => exact ht.removeJob 0
    | launch s job haddr hjob => exact ht.addJob hjob.state
    | reap s w ev =>
      rcases Control.reap_cases s ev with hsame | ⟨-, htable, hreaped⟩
      · rw [hsame]
        exact ht
      · rw [htable]
        exact ht.reap hwf hjobs (Control.good_of_history hgood hreaped)
    | resumeBg s job hjob hstopped => exact ht.resume true hjob hstopped
    | resumeFg s job hjob hstopped hbg => exact ht.resume false hjob hstopped
    | bringForward s job hjob hbg => exact ht.modify _ hjob rfl
    | finish s w job hjob hlive hstate => exact ht.removeJob _
    | yield s w job hjob hstopped => exact ht

/-- In every state that the shell reaches between two operations, `running_jobs_count` is the number
of listed jobs that are not stopped, if every stop event so far found a job that was neither stopped
nor in the background. -/
theorem runningJobsCount_eq {ops : List Op} {sh sh' : Shell} (hinit : sh.Initial)
    (hrun : runOps ops sh = .ok sh')
    (hstops : ∀ e ∈ sh'.reaped, StopsRunningForeground e.1 e.2) :
    sh'.table.runningJobsCount = UInt64.ofNat sh'.table.notStopped ∧
      (sh'.table.jobs.length < 2 ^ 64 →
        sh'.table.runningJobsCount.toNat = sh'.table.notStopped) := by
  have hinv : CountInvariant ⟨sh'.toJobSystem, none⟩ :=
    invariant_of_history (runOps_steps hinit hrun) (fun _ _ ↦ Control.history_of_step)
      (fun _ _ ↦ countInvariant_step) hstops
      ⟨⟨List.nodup_nil, fun _ h ↦ nomatch h⟩, rfl, fun _ h ↦ nomatch h⟩
  refine ⟨hinv.balanced, fun hlen ↦ ?_⟩
  have hle : sh'.table.notStopped ≤ sh'.table.jobs.length := List.countP_le_length
  have hcount : sh'.table.runningJobsCount = UInt64.ofNat sh'.table.notStopped := hinv.balanced
  rw [hcount, UInt64.toNat_ofNat_of_lt' (hle.trans_lt hlen)]

/-- A foreground job stops, and is resumed in the background. -/
theorem runningJobsCount_eq_resumed :
    ∃ sh', runOps [.line (.word ['a'] false), .line (.word ['b', 'g'] false)]
        (.onTerminal { pids := [10], wakeups := [[.sigchld [⟨10, .stopped 20⟩]]] }) = .ok sh' ∧
      sh'.table.jobs.length = 1 ∧
      sh'.table.runningJobsCount = UInt64.ofNat sh'.table.notStopped ∧
      (sh'.table.jobs.length < 2 ^ 64 →
        sh'.table.runningJobsCount.toNat = sh'.table.notStopped) := by
  have heval : (runOps [.line (.word ['a'] false), .line (.word ['b', 'g'] false)]
      (.onTerminal { pids := [10], wakeups := [[.sigchld [⟨10, .stopped 20⟩]]] })).toOption.map
        (fun sh ↦ (sh.table.jobs.length, sh.reaped.map fun e ↦
          (e.2, (jobsFindProcessByPid e.1 e.2.pid).map fun j ↦ (j.state, j.isBackground))))
      = some (1, [(⟨10, .stopped 20⟩, some (jobRunning, false))]) := by decide +kernel
  obtain ⟨sh', hrun, hsh'⟩ := exists_of_map_eq heval
  obtain ⟨hlen, hreaped⟩ := Prod.mk.inj hsh'
  refine ⟨sh', hrun, hlen,
    runningJobsCount_eq (Shell.initial_onTerminal _) hrun fun e he sig job _ hfind ↦ ?_⟩
  have hmem := List.mem_map_of_mem (f := fun e : JobTable × WaitEvent ↦
    (e.2, (jobsFindProcessByPid e.1 e.2.pid).map fun j ↦ (j.state, j.isBackground))) he
  rw [hreaped, List.mem_singleton, hfind] at hmem
  obtain ⟨hstate, hbg⟩ := Prod.mk.inj (Option.some.inj (Prod.mk.inj hmem).2)
  exact ⟨hstate ▸ by decide, hbg⟩

/-- Both processes of `a | b` stop: the count of running jobs is 2^64 - 1, and there is none. -/
theorem not_runningJobsCount_eq :
    ¬ ∀ (ops : List Op) (sh sh' : Shell), sh.Initial → runOps ops sh = .ok sh' →
      sh'.table.runningJobsCount = UInt64.ofNat sh'.table.notStopped := by
  intro hclaim
  have heval : (runOps [.line (.pipeline [.word ['a'] false, .word ['b'] false] false)]
      (.onTerminal ⟨[10, 11], [[.sigchld [⟨10, .stopped 20⟩, ⟨11, .stopped 20⟩]]], [], [],
        []⟩)).toOption.map
        (fun sh ↦ (sh.table.runningJobsCount, sh.table.notStopped))
      = some (18446744073709551615, 0) := by decide +kernel
  obtain ⟨sh', hrun, hsh'⟩ := exists_of_map_eq heval
  obtain ⟨hcount, hnone⟩ := Prod.mk.inj hsh'
  have h := hclaim _ _ sh' (Shell.initial_onTerminal _) hrun
  rw [hcount, hnone] at h
  exact absurd h (by decide)

end Novash
