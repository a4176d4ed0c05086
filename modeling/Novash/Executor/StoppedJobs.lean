import Novash.Executor.BuiltinTurns
import Novash.Executor.CallHistory
import Novash.Executor.RunningCount

/-!
# Stopped jobs are foreground jobs

`builtin_fg` sends `SIGCONT` to a job that is not marked as a background one, whatever its state. It
is right to, because no job is both stopped and in the background: a background job that stops has
no live process, so the reaper completes it at once and it is gone; `fg` takes the mark off before
it waits, and what `bg` marks is running.
-/

namespace Novash

open Foundations ProcessState JobState Relation

/-- Only a stop makes a job stopped, and then it has no live process: in the background it is
done. -/
theorem Job.StopsInForeground.taken {job : Job} (h : job.StopsInForeground) (ev : WaitEvent) :
    (job.taken ev).StopsInForeground := by
  unfold Job.taken
  split
  · exact fun hstopped ↦ nomatch hstopped
  · next hnot =>
    cases hstatus : ev.status with
    | stopped sig =>
      rw [hstatus] at hnot
      exact fun _ ↦ Bool.eq_false_iff.mpr fun hbg ↦ hnot ⟨rfl, hbg⟩
    | _ => exact h

/-- What holds of the jobs in every run. -/
structure StopInvariant (c : Control) : Prop where
  wellFormed : c.sys.WellFormed
  jobs : ∀ job ∈ c.sys.table.jobs, job.StopsInForeground

theorem StopInvariant.step {c c' : Control} (h : c.Step c') (hc : StopInvariant c) :
    StopInvariant c' := by
  refine ⟨Control.wellFormed_step h hc.wellFormed, ?_⟩
  have hrunning : ∀ {job : Job}, job.state = jobRunning → job.StopsInForeground :=
    fun hstate hstopped ↦ nomatch hstate.symm.trans hstopped
  cases h with
  | allocate s => exact hc.jobs
  | enlist s job haddr hfresh =>
    exact List.forall_mem_cons.mpr ⟨hrunning hfresh.state, hc.jobs⟩
  | delist s => exact fun j hj ↦ hc.jobs j ((JobTable.jobs_removeJob_sublist _ _).subset hj)
  | launch s job haddr hjob => exact List.forall_mem_cons.mpr ⟨hrunning hjob.state, hc.jobs⟩
  | reap s w ev =>
    exact JobSystem.forall_jobs_reap hc.wellFormed hc.jobs fun job _ _ hjob ↦ hjob.taken ev
  | resumeBg s job hjob hstopped =>
    change ∀ j ∈ (s.table.resume job.addr true).jobs, _
    rw [JobTable.jobs_resume]
    exact JobTable.forall_jobs_modify hjob hc.jobs (hrunning rfl)
  | resumeFg s job hjob hstopped hbg =>
    change ∀ j ∈ (s.table.resume job.addr false).jobs, _
    rw [JobTable.jobs_resume]
    exact JobTable.forall_jobs_modify hjob hc.jobs (hrunning rfl)
  | bringForward s job hjob hbg => exact JobTable.forall_jobs_modify hjob hc.jobs fun _ ↦ rfl
  | finish s w job hjob hlive hstate =>
    exact fun j hj ↦ hc.jobs j ((JobTable.jobs_removeJob_sublist _ _).subset hj)
  | yield s w job hjob hstopped => exact hc.jobs

theorem stopInvariant_of_runs {c : Control} (h : Control.Runs {} c) : StopInvariant c :=
  invariant_of_step h (fun _ _ ↦ StopInvariant.step)
    ⟨⟨List.nodup_nil, fun _ h ↦ nomatch h⟩, fun _ h ↦ nomatch h⟩

/-! ## What `fg` sends -/

/-- `fg` sends `SIGCONT` to the group of the job: if that cannot be sent, `fg` ends with it, in
whatever way it fails. -/
def SendsSigcont (job : Job) (sh : Shell) : Prop :=
  ∀ e, continueJobWith (fun pgid sh ↦ if pgid = job.pgid then .error e else .ok sh) job sh
    = .error e

theorem sendsSigcont_iff (job : Job) (sh : Shell) :
    SendsSigcont job sh ↔ job.isBackground = false := by
  constructor
  · intro hsends
    by_contra hbg
    have hfault := hsends .fault
    rw [continueJobWith, if_pos (Bool.not_eq_false _ ▸ hbg)] at hfault
    cases hfault
  · intro hbg e
    rw [continueJobWith, if_neg (by rw [hbg]; exact Bool.false_ne_true), if_pos rfl]
    rfl

/-- `fg`, if the builtin is that, sends `SIGCONT` to the jobs that it selects and finds stopped, and
to no others. -/
def SignalsStopped (argv : List CStr) (sh : Shell) : Prop :=
  argv.headD [] = "fg".toList → ∀ jobIds, retrieveArgJobIds argv.tail = .ok jobIds →
    ∀ t ∈ fgTurns jobIds sh, ∀ job, findTargetJobFg t.2.table t.1 = some job →
      ∀ sh', xtcsetpgrp job.pgid t.2 = .ok sh' → (SendsSigcont job sh' ↔ job.state = jobStopped)

/-! ## Runs -/

/-- The jobs that a builtin of a run finds are those of a run of the machine. -/
theorem runs_of_runsBuiltin {ops : List Op} {sh₀ : Shell} (hinit : sh₀.Initial) {c : Job × Shell}
    (hc : c ∈ runCalls ops sh₀) {proc : Process} {sh : Shell} (hrun : RunsBuiltin c proc sh) :
    Control.Runs {} ⟨sh.toJobSystem, none⟩ ∧ sh.WellFormed := by
  obtain ⟨sh₁, hreached, hcall⟩ := exists_jobsReached_of_mem_runCalls hinit hc
  obtain ⟨fds, opens, rfl⟩ := eq_of_builtinShell hrun.shell
  have hlist : Control.Step ⟨sh₁.toJobSystem, none⟩ ⟨(enlist c.1 c.2).2.toJobSystem, none⟩ :=
    hcall.sys_enlist ▸ .enlist _ _ hcall.addr hcall.fresh_enlist
  exact ⟨hreached.1.tail hlist, hcall.enlisted.wellFormed⟩

theorem signalsStopped_of_runs {argv : List CStr} {sh : Shell}
    (hruns : Control.Runs {} ⟨sh.toJobSystem, none⟩) (hwf : sh.WellFormed) :
    SignalsStopped argv sh := by
  intro _ jobIds _ t ht job hfind sh' _
  have hinv := stopInvariant_of_runs (hruns.trans (turnReached_of_mem_fgTurns hwf t ht).1)
  obtain ⟨hmem, hselected⟩ := of_findTargetJobFg hfind
  rw [sendsSigcont_iff]
  refine ⟨fun hbg ↦ hselected.resolve_right fun hrunning ↦ ?_, hinv.jobs job hmem⟩
  exact Bool.false_ne_true (hbg.symm.trans hrunning.1)

/-- **Which jobs are continued.** In every run, no listed job that was forked is both stopped and in
the background, and of the jobs it selects, `fg` sends `SIGCONT` to exactly those that are
stopped. -/
theorem stopped_not_background {ops : List Op} {sh₀ : Shell} (hinit : sh₀.Initial) :
    (∀ sh, runOps ops sh₀ = .ok sh → ∀ job ∈ sh.table.jobs, job.forked = true →
      ¬(job.state = jobStopped ∧ job.isBackground = true)) ∧
    ∀ c ∈ runCalls ops sh₀, ∀ proc sh, RunsBuiltin c proc sh → SignalsStopped proc.argv sh := by
  refine ⟨fun sh hrun job hjob _ ⟨hstopped, hbg⟩ ↦ ?_, fun c hc proc sh hrun ↦ ?_⟩
  · have hinv := stopInvariant_of_runs (runOps_steps hinit hrun)
    exact Bool.false_ne_true ((hinv.jobs job hjob hstopped).symm.trans hbg)
  · obtain ⟨hruns, hwf⟩ := runs_of_runsBuiltin hinit hc hrun
    exact signalsStopped_of_runs hruns hwf

/-- `a` is stopped, and then `fg`. -/
theorem stopped_not_background_fg :
    ∃ c ∈ runCalls [.line (.word ['a'] false), .line (.word ['f', 'g'] false)]
        (.onTerminal { pids := [10], wakeups := [[.sigchld [⟨10, .stopped 20⟩]]] }),
      ∃ proc sh, RunsBuiltin c proc sh ∧ proc.argv = [['f', 'g']] ∧
        (findTargetJobFg sh.table 0).map Job.state = some jobStopped ∧
        SignalsStopped proc.argv sh := by
  have heval : ((runCalls [.line (.word ['a'] false), .line (.word ['f', 'g'] false)]
      (.onTerminal { pids := [10], wakeups := [[.sigchld [⟨10, .stopped 20⟩]]] })).map fun c ↦
        (isPureBuiltin c.1.processes).toOption.join.bind fun proc ↦
          (builtinShell proc (enlist c.1 c.2).2).map fun sh ↦
            (proc.argv, (findTargetJobFg sh.table 0).map Job.state))
      = [none, some ([['f', 'g']], some jobStopped)] := by decide +kernel
  have hmem := heval ▸ List.mem_cons_of_mem _ List.mem_cons_self
  obtain ⟨c, hc, hproc⟩ := List.mem_map.mp hmem
  obtain ⟨proc, hbuiltin, hsh⟩ := Option.bind_eq_some_iff.mp hproc
  obtain ⟨sh, hshell, heq⟩ := Option.map_eq_some_iff.mp hsh
  obtain ⟨hargv, hstate⟩ := Prod.mk.inj heq
  have hrun : RunsBuiltin c proc sh :=
    ⟨toOption_eq_some.mp (Option.join_eq_some_iff.mp hbuiltin), hshell⟩
  exact ⟨c, hc, proc, sh, hrun, hargv, hstate,
    (stopped_not_background (Shell.initial_onTerminal _)).2 c hc proc sh hrun⟩

end Novash
