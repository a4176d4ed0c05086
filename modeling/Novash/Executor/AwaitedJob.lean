import Novash.Executor.SignalMask
import Novash.Executor.Status
import Novash.Shell.Expansions

/-!
# The job that is waited for

`handle_foreground_execution` holds a pointer to its job while the reaper, which it calls from its
loop, takes jobs off the list and frees them. The pointer stays good for two reasons. The reaper
only removes jobs that are in the background, and the job that is waited for is not. And although a
job is removed by its process group, what is removed is the job that was meant, as long as groups
are not shared.

The list holds one job that has no group yet when a builtin runs: the entry of the builtin itself.
That there is never a second one is a fact about `run_job`, which takes the entry off before it
returns.
-/

namespace Novash

open Foundations ProcessState JobState CondOp Relation

/-! ## Process groups of the listed jobs -/

namespace JobTable

variable {t : JobTable}

def pgids (t : JobTable) : List ℕ := t.jobs.map Job.pgid

/-- Jobs that have a process group have different ones. -/
def DistinctGroups (t : JobTable) : Prop := (t.pgids.filter fun pgid ↦ pgid ≠ 0).Nodup

theorem pgids_modify (t : JobTable) (addr : ℕ) {f : Job → Job} (hf : Job.KeepsIdentity f) :
    (t.modify addr f).pgids = t.pgids := map_modifyFirst Job.pgid hf.pgid t.jobs

theorem pgids_removeJob (t : JobTable) (pgid : ℕ) :
    (jobsRemoveJob t pgid).2.pgids = t.pgids.erase pgid := by
  rw [pgids, jobs_removeJob, pgids, List.erase_eq_eraseP, List.eraseP_map]
  congr 2
  funext job
  exact decide_eq_decide.mpr eq_comm

theorem pgids_reap (t : JobTable) (ev : WaitEvent) : (t.reap ev).pgids.Sublist t.pgids := by
  have happly := Job.keepsIdentity_applyStatus ev.pid ev.status
  rcases reap_cases t ev with ⟨-, h⟩ | ⟨job, -, ⟨-, -, h⟩ | ⟨-, h⟩⟩
  · rw [h]
  · rw [h, pgids, jobs_markCompleted_applyStatus]
    refine (List.eraseP_sublist.map _).trans ?_
    rw [← pgids, t.pgids_modify job.addr (Job.keepsIdentity_complete ev.pid ev.status)]
  · rw [h, pgids, jobs_applyStatus, ← jobs_modify, ← pgids, t.pgids_modify job.addr happly]

theorem pgids_resume (t : JobTable) (addr : ℕ) (isBackground : Bool) :
    (t.resume addr isBackground).pgids = t.pgids := by
  rw [pgids, jobs_resume]
  exact t.pgids_modify addr (Job.keepsIdentity_resume isBackground)

/-- With at most one job that has no group, no two jobs have the same. -/
theorem DistinctGroups.nodup (h : t.DistinctGroups) (hentry : t.pgids.count 0 ≤ 1) :
    t.pgids.Nodup := by
  refine List.nodup_iff_count_le_one.mpr fun pgid ↦ ?_
  by_cases hzero : pgid = 0
  · exact hzero ▸ hentry
  · have hcount := List.nodup_iff_count_le_one.mp h pgid
    rwa [List.count_filter (by simpa using hzero)] at hcount

/-- Then removing a job by its group removes that job, and nothing else. -/
theorem jobs_removeJob_of_nodup (hpgids : t.pgids.Nodup) (haddrs : t.addrs.Nodup) {job : Job}
    (hjob : job ∈ t.jobs) :
    (jobsRemoveJob t job.pgid).2.jobs = t.jobs.filter fun j ↦ j.addr ≠ job.addr := by
  rw [jobs_removeJob, eraseP_eq_filter hpgids]
  refine List.filter_congr fun j hj ↦ decide_eq_decide.mpr (not_congr ⟨fun h ↦ ?_, fun h ↦ ?_⟩)
  · rw [List.inj_on_of_nodup_map hpgids hj hjob h]
  · rw [List.inj_on_of_nodup_map haddrs hj hjob h]

end JobTable

/-! ## A job in the foreground -/

/-- The job at an address is listed, is not in the background, and can be told from the others by
its group. -/
structure JobSystem.Holds (s : JobSystem) (addr : ℕ) : Prop where
  wellFormed : s.WellFormed
  pgids : s.table.pgids.Nodup
  job : ∃ job, s.table.deref addr = some job ∧ job.isBackground = false

namespace JobSystem.Holds

variable {s : JobSystem} {addr : ℕ}

/-- A job is left when another one is completed: the groups tell them apart. -/
theorem deref_markCompleted (h : s.Holds addr) {job job₁ : Job}
    (hjob : s.table.deref addr = some job) (hjob₁ : s.table.deref job₁.addr = some job₁)
    (hne : job.addr ≠ job₁.addr) (ev : WaitEvent) :
    (jobsMarkJobCompleted (s.table.applyStatus job₁.addr ev.pid ev.status)
      (job₁.applyStatus ev.pid ev.status)).deref addr = some job := by
  let f : Job → Job := fun j ↦ { j.applyStatus ev.pid ev.status with state := jobDone }
  have hf : Job.KeepsIdentity f := Job.keepsIdentity_complete ev.pid ev.status
  have hkept : (s.table.modify job₁.addr f).deref addr = some job :=
    find?_modifyFirst_of_not (fun j ↦ by rw [hf.addr]) hjob (decide_eq_false hne)
  rw [JobTable.deref, JobTable.jobs_markCompleted_applyStatus]
  cases hx : (s.table.modify job₁.addr f).jobs.find? fun j ↦ j.pgid = job₁.pgid with
  | none => rwa [List.eraseP_of_forall_not (List.find?_eq_none.mp hx)]
  | some x =>
    refine find?_eraseP hx hkept ?_
    rintro rfl
    -- both would have the group of the job that is removed
    have hpgid : job.pgid = job₁.pgid := by simpa using List.find?_some hx
    exact hne (congrArg Job.addr (List.inj_on_of_nodup_map h.pgids (JobTable.mem_of_deref hjob)
      (JobTable.mem_of_deref hjob₁) hpgid))

/-- The reaper writes to the job, or removes another one. -/
theorem job_reap (h : s.Holds addr) (ev : WaitEvent) :
    ∃ job, (s.reap ev).table.deref addr = some job ∧ job.isBackground = false := by
  obtain ⟨job, hjob, hbg⟩ := h.job
  rcases Control.reap_cases s ev with hsame | ⟨-, htable, -⟩
  · rw [hsame]
    exact ⟨job, hjob, hbg⟩
  rw [htable]
  rcases s.table.reap_cases ev with ⟨-, hsame⟩ | ⟨job₁, hfind, hcases⟩
  · rw [hsame]
    exact ⟨job, hjob, hbg⟩
  have hderef := h.wellFormed.deref_of_find hfind
  have haddr := JobTable.addr_of_deref hjob
  by_cases hsame : job.addr = job₁.addr
  · rw [← haddr, hsame, hderef] at hjob
    obtain rfl := Option.some.inj hjob
    rcases hcases with ⟨-, hbg₁, -⟩ | ⟨-, hreap⟩
    · -- only a job in the background is completed here
      exact absurd (hbg₁.symm.trans hbg) (by decide)
    · rw [hreap, ← haddr, hsame]
      exact ⟨_, JobTable.deref_applyStatus_self _ _ hderef,
        (job₁.isBackground_applyStatus ev.pid ev.status).trans hbg⟩
  · rcases hcases with ⟨-, -, hreap⟩ | ⟨-, hreap⟩
    · rw [hreap]
      exact ⟨job, h.deref_markCompleted hjob hderef hsame ev, hbg⟩
    · have happly := Job.keepsIdentity_applyStatus ev.pid ev.status
      rw [hreap, JobTable.deref, JobTable.jobs_applyStatus]
      exact ⟨job, find?_modifyFirst_of_not (fun j ↦ by rw [happly.addr]) hjob
        (decide_eq_false hsame), hbg⟩

theorem reap (h : s.Holds addr) (ev : WaitEvent) : (s.reap ev).Holds addr where
  wellFormed := Control.wellFormed_step (.reap s none ev) h.wellFormed
  pgids := by
    rcases Control.reap_cases s ev with hsame | ⟨-, htable, -⟩
    · exact hsame.symm ▸ h.pgids
    · exact htable ▸ h.pgids.sublist (s.table.pgids_reap ev)
  job := h.job_reap ev

theorem foldl_reap (events : List WaitEvent) :
    ∀ {s : JobSystem}, s.Holds addr → (events.foldl JobSystem.reap s).Holds addr := by
  induction events with
  | nil => exact fun h ↦ h
  | cons ev events ih => exact fun h ↦ ih (h.reap ev)

end JobSystem.Holds

/-! ## The wait -/

/-- Nothing but the wait for a job takes that job off the list. The reaper leaves it there, whatever
the events are. The wait reads no job that was freed, and when it returns, the job either stopped
and is listed still, or was the one that the wait removed. -/
structure HeldByWait (addr : ℕ) (sh : Shell) : Prop where
  kept : ∀ events, addr ∈ (handleSigchldEvents sh events).table.addrs
  no_fault : handleForegroundExecution addr sh ≠ .error .fault
  returns : ∀ {status sh'}, handleForegroundExecution addr sh = .ok (status, sh') →
    ∃ events job, events ⊆ wakeupEvents sh.script.wakeups ∧
      (handleSigchldEvents sh events).table.deref addr = some job ∧
      (status = jobStoppedExitCode ∧ job.state = jobStopped ∧
          sh'.table = (handleSigchldEvents sh events).table ∨
        status = 0 ∧ job.liveProcesses = 0 ∧
          sh'.table = (jobsRemoveJob (handleSigchldEvents sh events).table job.pgid).2 ∧
          sh'.table.jobs = (handleSigchldEvents sh events).table.jobs.filter
            fun j ↦ j.addr ≠ addr)

section

variable {sh sh' : Shell} {addr : ℕ}

theorem foregroundLoop_ne_fault (wakeups : List (List SignalfdSiginfo)) :
    ∀ {sh : Shell}, sh.Holds addr → foregroundLoop addr wakeups sh ≠ .error .fault := by
  induction wakeups with
  | nil =>
    intro sh h
    obtain ⟨job, hjob, -⟩ := h.job
    rw [foregroundLoop, hjob]
    dsimp only
    split <;> simp
  | cons signals wakeups ih =>
    intro sh h
    obtain ⟨job, hjob, -⟩ := h.job
    have hnext : (signals.foldl handleSignal sh).Holds addr :=
      toJobSystem_foldl_handleSignal signals sh ▸ h.foldl_reap _
    obtain ⟨job', hjob', -⟩ := hnext.job
    rw [foregroundLoop, hjob]
    dsimp only
    rw [hjob']
    dsimp only
    split
    · simp
    split
    · simp
    · exact ih hnext

theorem xtcsetpgrp_ne_fault (pgid : ℕ) (sh : Shell) : xtcsetpgrp pgid sh ≠ .error .fault := by
  unfold xtcsetpgrp
  split
  · simp
  split
  · simp
  split
  · simp
  dsimp only
  split <;> simp

theorem shellRegainControl_ne_fault (sh : Shell) : shellRegainControl sh ≠ .error .fault := by
  unfold shellRegainControl
  split <;> simp

theorem handleForegroundExecution_ne_fault (h : sh.Holds addr) :
    handleForegroundExecution addr sh ≠ .error .fault := by
  intro hfault
  obtain ⟨job, hjob, -⟩ := h.job
  unfold handleForegroundExecution at hfault
  rw [hjob] at hfault
  rcases bind_error.mp hfault with hfault | ⟨sh₁, hgrp, hfault⟩
  · exact xtcsetpgrp_ne_fault _ _ hfault
  have h₁ : sh₁.Holds addr := toJobSystem_of_xtcsetpgrp hgrp ▸ h
  rcases bind_error.mp hfault with hfault | ⟨⟨stopped, sh₂⟩, hloop, hfault⟩
  · exact foregroundLoop_ne_fault _ h₁ hfault
  obtain ⟨events, job', hevents, -, hend⟩ := foregroundLoop_end _ hloop
  dsimp only at hfault
  split at hfault
  · rcases bind_error.mp hfault with hfault | ⟨sh₃, -, hfault⟩
    · exact shellRegainControl_ne_fault _ hfault
    · cases hfault
  · rw [hend.deref] at hfault
    rcases bind_error.mp hfault with hfault | ⟨sh₃, -, hfault⟩
    · exact shellRegainControl_ne_fault _ hfault
    · cases hfault

theorem heldByWait_of_holds (h : sh.Holds addr) : HeldByWait addr sh where
  kept events := by
    have hreaped : (handleSigchldEvents sh events).Holds addr :=
      toJobSystem_handleSigchldEvents sh events ▸ h.foldl_reap events
    obtain ⟨job, hjob, -⟩ := hreaped.job
    exact JobTable.addr_of_deref hjob ▸ List.mem_map_of_mem (JobTable.mem_of_deref hjob)
  no_fault := handleForegroundExecution_ne_fault h
  returns := by
    intro status sh' hwait
    obtain ⟨job, hjob, -⟩ := h.job
    unfold handleForegroundExecution at hwait
    rw [hjob] at hwait
    obtain ⟨sh₁, hgrp, hwait⟩ := bind_ok.mp hwait
    obtain ⟨⟨stopped, sh₂⟩, hloop, hwait⟩ := bind_ok.mp hwait
    obtain ⟨events, job', hevents, hsub, hend⟩ := foregroundLoop_end _ hloop
    have htable : sh₂.table = (handleSigchldEvents sh events).table := by
      rw [hevents, toJobSystem_of_xtcsetpgrp hgrp, toJobSystem_handleSigchldEvents]
    have hheld : (handleSigchldEvents sh events).Holds addr :=
      toJobSystem_handleSigchldEvents sh events ▸ h.foldl_reap events
    obtain ⟨groups, rfl⟩ := eq_of_xtcsetpgrp hgrp
    have hderef := hend.deref
    rw [htable] at hderef
    refine ⟨events, job', hsub, hderef, ?_⟩
    cases stopped with
    | true =>
      obtain ⟨sh₃, hregain, hwait⟩ := bind_ok.mp hwait
      cases hwait
      rw [eq_of_shellRegainControl hregain]
      exact Or.inl ⟨rfl, hend.of_stopped rfl, htable⟩
    | false =>
      simp only [Bool.false_eq_true, if_false] at hwait
      rw [hend.deref] at hwait
      obtain ⟨sh₃, hregain, hwait⟩ := bind_ok.mp hwait
      cases hwait
      rw [eq_of_shellRegainControl hregain]
      refine Or.inr ⟨rfl, (hend.of_finished rfl).1, by rw [htable], ?_⟩
      have hremove := JobTable.jobs_removeJob_of_nodup hheld.pgids hheld.wellFormed.nodup
        (JobTable.mem_of_deref hderef)
      rw [JobTable.addr_of_deref hderef, ← htable] at hremove
      rw [← htable]
      exact hremove

end

/-! ## The waits of a call

`fgWaits`, `builtinWaits` and `jobWaits` follow `fgLoop`, `runPureBuiltin` and `runJob`, and list
the calls of `handle_foreground_execution` that these come to, each with the shell then. A builtin
that is forked has a copy of the list and no children, and is not followed.
-/

def fgWaits : List ℕ → Shell → List (ℕ × Shell)
  | [], _ => []
  | jobId :: jobIds, sh =>
    match findTargetJobFg sh.table jobId with
    | none => []
    | some job =>
      match xtcsetpgrp job.pgid sh >>= continueJob job with
      | .error _ => []
      | .ok sh =>
        let sh := (xsignalfd (blockSignals sh).2).2
        (job.addr, sh) ::
          match handleForegroundExecution job.addr sh with
          | .error _ => []
          | .ok (_, sh) => fgWaits jobIds sh

def builtinWaits (proc : Process) (sh : Shell) : List (ℕ × Shell) :=
  let sh := (dupFd 1 (dupFd 0 sh).2).2
  match handleRedirection sh.nofile proc.redir sh.script.opens sh.fds with
  | (.error _, _) => []
  | (.ok (_, fds), opens) =>
    if proc.argv.headD [] = "fg".toList then
      match retrieveArgJobIds proc.argv.tail with
      | .error _ => []
      | .ok jobIds => fgWaits jobIds { sh with fds, script := { sh.script with opens } }
    else []

def jobWaits (job : Job) (sh : Shell) : List (ℕ × Shell) :=
  if job.processes = [] then []
  else
    let (job, sh) := enlist job sh
    match isPureBuiltin job.processes with
    | .error _ => []
    | .ok (some proc) => builtinWaits proc sh
    | .ok none =>
      let (ctx, sh) := executorInitContext sh
      match forkJob job ctx sh with
      | .error _ => []
      | .ok (job, sh) => if job.isBackground then [] else [(job.addr, sh)]

section

variable {sh : Shell} {w : ℕ × Shell} {e : Halt}

theorem fgLoop_of_wait_error (jobIds : List ℕ) :
    ∀ {sh : Shell} {status : ℤ}, w ∈ fgWaits jobIds sh →
      handleForegroundExecution w.1 w.2 = .error e → fgLoop jobIds status sh = .error e := by
  induction jobIds with
  | nil => exact fun hw ↦ absurd hw List.not_mem_nil
  | cons jobId jobIds ih =>
    intro sh status hw herror
    cases hfind : findTargetJobFg sh.table jobId with
    | none =>
      rw [fgWaits, hfind] at hw
      exact absurd hw List.not_mem_nil
    | some job =>
    rw [fgWaits, hfind] at hw
    rw [fgLoop, hfind]
    dsimp only at hw ⊢
    split at hw
    · exact absurd hw List.not_mem_nil
    next sh₂ hcont =>
    obtain ⟨sh₁, hgrp, hcont⟩ := bind_ok.mp hcont
    refine bind_error.mpr (Or.inr ⟨sh₁, hgrp, bind_error.mpr (Or.inr ⟨sh₂, hcont, ?_⟩)⟩)
    rcases List.mem_cons.mp hw with rfl | hw
    · exact bind_error.mpr (Or.inl herror)
    · split at hw
      · exact absurd hw List.not_mem_nil
      next status' sh₃ hwait => exact bind_error.mpr (Or.inr ⟨_, hwait, ih hw herror⟩)

theorem callBuiltin_fg {argv : List CStr} (h : argv.headD [] = "fg".toList) (sh : Shell) :
    callBuiltin argv sh = builtinFg argv sh := by
  rw [callBuiltin, h]
  rfl

theorem handlePureBuiltinExecution_of_wait_error {proc : Process} (hw : w ∈ builtinWaits proc sh)
    (herror : handleForegroundExecution w.1 w.2 = .error e) :
    handlePureBuiltinExecution proc sh = .error e := by
  unfold builtinWaits at hw
  unfold handlePureBuiltinExecution handlePureBuiltinExecutionWith
  dsimp only at hw ⊢
  split at hw
  · exact absurd hw List.not_mem_nil
  next fds opens hredir =>
  rw [hredir]
  split at hw
  · next hname =>
    split at hw
    · exact absurd hw List.not_mem_nil
    next jobIds hids =>
    refine bind_error.mpr (Or.inl ?_)
    rw [callBuiltin_fg hname, builtinFg, hids]
    exact fgLoop_of_wait_error jobIds hw herror
  · exact absurd hw List.not_mem_nil

/-- `run_job` waits there: if a wait does not return, neither does `run_job`. -/
theorem runJob_of_wait_error {job : Job} (hw : w ∈ jobWaits job sh)
    (herror : handleForegroundExecution w.1 w.2 = .error e) : runJob job sh = .error e := by
  unfold jobWaits at hw
  split at hw
  · exact absurd hw List.not_mem_nil
  next hne =>
  rw [runJob_eq hne]
  have hprocs : (enlist job sh).1.processes = job.processes := rfl
  dsimp only at hw
  rw [hprocs] at hw
  cases hpure : isPureBuiltin job.processes with
  | error e' =>
    rw [hpure] at hw
    exact absurd hw List.not_mem_nil
  | ok proc? =>
    rw [hpure] at hw
    refine bind_error.mpr (Or.inr ⟨proc?, rfl, ?_⟩)
    cases proc? with
    | some proc =>
      dsimp only at hw ⊢
      exact bind_error.mpr (Or.inl (handlePureBuiltinExecution_of_wait_error hw herror))
    | none =>
      dsimp only at hw ⊢
      split at hw
      · exact absurd hw List.not_mem_nil
      next job' sh₁ hfork =>
      split at hw
      · exact absurd hw List.not_mem_nil
      next hbg =>
      obtain rfl := List.mem_singleton.mp hw
      refine bind_error.mpr (Or.inr ⟨_, hfork, bind_error.mpr (Or.inl ?_)⟩)
      rw [handleExecution, if_neg hbg]
      exact herror

end

/-! ## What a run leaves of the groups -/

namespace Control

/-- Only a new job brings a new group. -/
theorem pgids_of_step {c c' : Control} (h : c.Step c') : c.sys.heap ≤ c'.sys.heap ∧
    (c'.sys.heap = c.sys.heap → c'.sys.table.pgids.Sublist c.sys.table.pgids) := by
  have hremove : ∀ (t : JobTable) (pgid : ℕ), (jobsRemoveJob t pgid).2.pgids.Sublist t.pgids :=
    fun t pgid ↦ t.pgids_removeJob pgid ▸ List.erase_sublist
  cases h with
  | allocate s => exact ⟨Nat.le_succ _, fun heq ↦ absurd heq (Nat.succ_ne_self _)⟩
  | enlist s job haddr hfresh =>
    exact ⟨Nat.le_succ _, fun heq ↦ absurd heq (Nat.succ_ne_self _)⟩
  | launch s job haddr hjob =>
    exact ⟨Nat.le_succ _, fun heq ↦ absurd heq (Nat.succ_ne_self _)⟩
  | delist s => exact ⟨le_rfl, fun _ ↦ hremove s.table 0⟩
  | reap s w ev =>
    refine ⟨(JobSystem.WellFormed.heap_reap s ev).ge, fun _ ↦ ?_⟩
    rcases reap_cases s ev with hsame | ⟨-, htable, -⟩
    · rw [hsame]
    · exact htable ▸ s.table.pgids_reap ev
  | resumeBg s job => exact ⟨le_rfl, fun _ ↦ by exact s.table.pgids_resume job.addr true ▸ .refl _⟩
  | resumeFg s job => exact ⟨le_rfl, fun _ ↦ by exact s.table.pgids_resume job.addr false ▸ .refl _⟩
  | bringForward s job =>
    have hpgids := s.table.pgids_modify job.addr Job.keepsIdentity_bringForward
    exact ⟨le_rfl, fun _ ↦ by exact hpgids ▸ .refl _⟩
  | finish s w job => exact ⟨le_rfl, fun _ ↦ hremove s.table job.pgid⟩
  | yield s w job => exact ⟨le_rfl, fun _ ↦ .refl _⟩

/-- An invariant that every step keeps in which no address is given out. -/
theorem invariant_of_heap_eq {I : Control → Prop} {c c' : Control} (h : c.Runs c')
    (hheap : c'.sys.heap = c.sys.heap)
    (hstep : ∀ c c', Step c c' → c'.sys.heap = c.sys.heap → I c → I c') (hinv : I c) : I c' := by
  suffices hall : c.sys.heap ≤ c'.sys.heap ∧ (c'.sys.heap = c.sys.heap → I c') from hall.2 hheap
  clear hheap
  induction h with
  | refl => exact ⟨le_rfl, fun _ ↦ hinv⟩
  | tail _ hlast ih =>
    obtain ⟨hle, -⟩ := pgids_of_step hlast
    refine ⟨ih.1.trans hle, fun heq ↦ ?_⟩
    -- the heap did not grow in either part
    have hle' := ih.1
    exact hstep _ _ hlast (by omega) (ih.2 (by omega))

theorem pgids_of_runs {c c' : Control} (h : c.Runs c') (hheap : c'.sys.heap = c.sys.heap) :
    c'.sys.table.pgids.Sublist c.sys.table.pgids :=
  invariant_of_heap_eq (I := fun c' ↦ c'.sys.table.pgids.Sublist c.sys.table.pgids) h hheap
    (fun _ _ hstep heq hsub ↦ ((pgids_of_step hstep).2 heq).trans hsub) (.refl _)

end Control

/-! ## The jobs that are waited for -/

/-- The list while a builtin runs: at most one job has no group. -/
structure JobSystem.Enlisted (s : JobSystem) : Prop where
  wellFormed : s.WellFormed
  entry : s.table.pgids.count 0 ≤ 1

theorem JobSystem.Enlisted.of_runs {s s' : JobSystem} {w w' : Option Wait} (hs : s.Enlisted)
    (h : Control.Runs ⟨s, w⟩ ⟨s', w'⟩) (hheap : s'.heap = s.heap) : s'.Enlisted where
  wellFormed := hs.wellFormed.of_runs h
  entry := ((Control.pgids_of_runs h hheap).count_le 0).trans hs.entry

/-- The list between two jobs: every job has a group. -/
structure JobSystem.Settled (s : JobSystem) : Prop where
  wellFormed : s.WellFormed
  grouped : 0 ∉ s.table.pgids

theorem isBackground_of_continueJob {job : Job} {sh sh' : Shell}
    (hjob : sh.table.deref job.addr = some job) (h : continueJob job sh = .ok sh') :
    ∃ job', sh'.table.deref job.addr = some job' ∧ job'.isBackground = false := by
  unfold continueJob continueJobWith at h
  split at h
  · cases h
    exact ⟨_, JobTable.deref_modify_self _ hjob rfl, rfl⟩
  · obtain ⟨sh₁, hkill, h⟩ := bind_ok.mp h
    rw [← toJobSystem_of_xkill hkill] at hjob
    cases h
    exact ⟨_, JobTable.deref_resume_self false hjob, rfl⟩

theorem holds_of_mem_fgWaits (jobIds : List ℕ) :
    ∀ {sh : Shell}, sh.Enlisted → ∀ w ∈ fgWaits jobIds sh, w.2.table.DistinctGroups →
      w.2.Holds w.1 := by
  induction jobIds with
  | nil => exact fun _ w hw ↦ absurd hw List.not_mem_nil
  | cons jobId jobIds ih =>
    intro sh hsh w hw hgroups
    rw [fgWaits] at hw
    split at hw
    · exact absurd hw List.not_mem_nil
    next job hfind =>
    split at hw
    · exact absurd hw List.not_mem_nil
    next sh₂ hcont =>
    obtain ⟨sh₁, hgrp, hcont⟩ := bind_ok.mp hcont
    have hsys := toJobSystem_of_xtcsetpgrp hgrp
    have hderef := hsh.wellFormed.deref_eq (List.mem_of_find?_eq_some hfind)
    rw [← hsys] at hderef hsh
    have hp := List.find?_some hfind
    simp only [Bool.and_eq_true, Bool.or_eq_true, decide_eq_true_eq] at hp
    obtain ⟨fromStopped, hstep, hfrom⟩ := steps_continueJob hcont hderef (hp.2.imp id And.left)
    have hsh₂ : sh₂.Enlisted :=
      hsh.of_runs (ReflTransGen.single hstep) (onlyJobs_continueJob hcont).heap
    rcases List.mem_cons.mp hw with rfl | hw
    · have hjob := isBackground_of_continueJob hderef hcont
      exact ⟨hsh₂.wellFormed, JobTable.DistinctGroups.nodup hgroups hsh₂.entry, hjob⟩
    split at hw
    · exact absurd hw List.not_mem_nil
    next status sh₃ hwait =>
    have hruns := steps_handleForegroundExecution hwait hfrom
    exact ih (hsh₂.of_runs hruns (onlyJobs_handleForegroundExecution hwait).heap) w hw hgroups

/-- `run_job` is handed a job that it was just made for. -/
structure SettledCall (s : JobSystem) (job : Job) (sh : Shell) : Prop where
  settled : s.Settled
  sys : sh.toJobSystem = s.allocate
  addr : job.addr = s.heap
  fresh : job.Fresh

namespace SettledCall

variable {s : JobSystem} {job : Job} {sh : Shell}

/-- What `run_job` lists. -/
theorem sys_enlist (h : SettledCall s job sh) :
    (enlist job sh).2.toJobSystem = s.add (enlist job sh).1 := by
  have hlist : (enlist job sh).2.toJobSystem
      = { sh.toJobSystem with table := jobsAddJob sh.table (enlist job sh).1 } := rfl
  rw [hlist, h.sys]
  rfl

theorem fresh_enlist (h : SettledCall s job sh) : (enlist job sh).1.Fresh :=
  ⟨h.fresh.pgid, h.fresh.state, h.fresh.live, h.fresh.processes⟩

theorem enlisted (h : SettledCall s job sh) : (enlist job sh).2.Enlisted := by
  rw [h.sys_enlist]
  have hpgids : (s.add (enlist job sh).1).table.pgids = 0 :: s.table.pgids :=
    congrArg (· :: s.table.pgids) h.fresh.pgid
  refine ⟨h.settled.wellFormed.add h.addr, ?_⟩
  rw [hpgids, List.count_cons_self, List.count_eq_zero.mpr h.settled.grouped]

/-- The list when the processes of the job have been forked. -/
theorem pgids_forkJob (h : SettledCall s job sh) {job' : Job} {sh' : Shell}
    (hne : job.processes ≠ [])
    (hfork : forkJob (enlist job sh).1 (executorInitContext (enlist job sh).2).1
      (executorInitContext (enlist job sh).2).2 = .ok (job', sh')) :
    s.Launched job' ∧ job'.addr = s.heap ∧ sh'.toJobSystem = s.launch job' ∧
      0 ∉ sh'.table.pgids := by
  have hid : (enlist job sh).1.id = jobsNewId s.table := by
    have hid' : (enlist job sh).1.id = jobsNewId sh.toJobSystem.table := rfl
    rw [hid', h.sys]
    rfl
  obtain ⟨hlaunched, haddr, -, -, hsys'⟩ :=
    forkJob_launch hfork h.sys_enlist hid h.fresh_enlist hne rfl
  refine ⟨hlaunched, haddr.trans h.addr, hsys', ?_⟩
  -- the group of the job is the pid of its first process
  have hpos : 0 < job'.pgid := by
    obtain ⟨p, hp, hpid⟩ := List.mem_map.mp (List.mem_of_mem_head? hlaunched.pgid)
    exact hpid ▸ hlaunched.pid_pos p hp
  rw [hsys']
  exact List.not_mem_cons_of_ne_of_not_mem hpos.ne h.settled.grouped

theorem holds_of_mem_jobWaits (h : SettledCall s job sh) :
    ∀ w ∈ jobWaits job sh, w.2.table.DistinctGroups → w.2.Holds w.1 := by
  intro w hw hgroups
  unfold jobWaits at hw
  split at hw
  · exact absurd hw List.not_mem_nil
  next hne =>
  have henlisted := h.enlisted
  dsimp only at hw
  split at hw
  · exact absurd hw List.not_mem_nil
  · next proc hpure =>
    unfold builtinWaits at hw
    obtain ⟨_, hin⟩ := eq_of_dupFd 0 (enlist job sh).2
    obtain ⟨_, hout⟩ := eq_of_dupFd 1 (dupFd 0 (enlist job sh).2).2
    dsimp only at hw
    rw [hout, hin] at hw
    split at hw
    · exact absurd hw List.not_mem_nil
    split at hw
    · split at hw
      · exact absurd hw List.not_mem_nil
      next jobIds _ => exact holds_of_mem_fgWaits jobIds (by exact henlisted) w hw hgroups
    · exact absurd hw List.not_mem_nil
  · split at hw
    · exact absurd hw List.not_mem_nil
    next job' sh₁ hfork =>
    split at hw
    · exact absurd hw List.not_mem_nil
    next hbg =>
    obtain rfl := List.mem_singleton.mp hw
    obtain ⟨hlaunched, haddr, hsys, hgrouped⟩ := h.pgids_forkJob hne hfork
    refine ⟨?_, JobTable.DistinctGroups.nodup hgroups ?_, ?_⟩
    · exact hsys ▸ Control.wellFormed_step (.launch s job' haddr hlaunched) h.settled.wellFormed
    · exact (List.count_eq_zero.mpr hgrouped).trans_le (Nat.zero_le 1)
    · exact hsys ▸ ⟨_, deref_launch s job', Bool.not_eq_true _ ▸ hbg⟩

/-- When `run_job` returns, the entry of its builtin is off the list, or its job has a group. -/
theorem settled_runJob (h : SettledCall s job sh) {status : ℤ} {sh' : Shell}
    (hrun : runJob job sh = .ok (status, sh')) : sh'.Settled := by
  refine ⟨h.settled.wellFormed.of_runs
    (steps_runJob hrun h.sys h.addr h.fresh h.settled.wellFormed), ?_⟩
  rcases runJob_cases hrun with ⟨-, rfl⟩ | ⟨proc, -, hrun⟩ | ⟨hne, -, hrun⟩
  · rw [h.sys]
    exact h.settled.grouped
  · obtain ⟨⟨status₁, sh₁⟩, hbuiltin, hrun⟩ := bind_ok.mp hrun
    obtain ⟨fds, script, sh₂, fds', hcall, rfl⟩ := eq_of_handlePureBuiltinExecution hbuiltin
    have hruns := steps_callBuiltin (by exact h.enlisted.wellFormed) hcall
    have hheap := heap_callBuiltin hcall
    have hsh₂ : sh₂.Enlisted := h.enlisted.of_runs hruns hheap
    cases hrun
    change 0 ∉ (jobsRemoveJob sh₂.table 0).2.pgids
    rw [JobTable.pgids_removeJob, ← List.count_eq_zero, List.count_erase_self]
    exact Nat.sub_eq_zero_of_le hsh₂.entry
  · obtain ⟨⟨job', sh₁⟩, hfork, hrun⟩ := bind_ok.mp hrun
    obtain ⟨⟨status₂, sh₂⟩, hexec, hrun⟩ := bind_ok.mp hrun
    obtain ⟨hlaunched, -, hsys, hgrouped⟩ := h.pgids_forkJob hne hfork
    have hheap : sh₂.heap = sh₁.heap := by
      unfold handleExecution at hexec
      split at hexec
      · cases hexec
        rfl
      · exact (onlyJobs_handleForegroundExecution hexec).heap
    have hruns := steps_handleExecution hexec hsys hlaunched
    rw [← hsys] at hruns
    have hsub := Control.pgids_of_runs hruns hheap
    cases hrun
    exact fun hzero ↦ hgrouped (hsub.subset hzero)

end SettledCall

/-! ## The calls of a run -/

section

variable {sh sh' : Shell} {status : ℤ}

/-- The calls of a tree are each made on a job that was just made for it, one after the other. -/
theorem settledCall_of_mem_calls {cs : List (Job × Shell)} {r : Except Halt (ℤ × Shell)}
    (h : Calls runJob sh cs r) :
    (∀ c ∈ cs, c.1.Fresh ∧ c.1.addr + 1 = c.2.heap) → sh.Settled →
      (∀ c ∈ cs, ∃ s, SettledCall s c.1 c.2) ∧
        ∀ {status sh'}, r = .ok (status, sh') → sh'.Settled := by
  have hcall : ∀ {sh : Shell} {job : Job}, sh.Settled → job.Fresh →
      job.addr + 1 = (jobsNewJob sh).2.heap →
        SettledCall sh.toJobSystem job (jobsNewJob sh).2 := by
    intro sh job hsh hfresh haddr
    exact ⟨hsh, rfl, Nat.succ_injective haddr, hfresh⟩
  induction h with
  | done status sh =>
    refine fun _ hsh ↦ ⟨fun c hc ↦ absurd hc List.not_mem_nil, fun hr ↦ ?_⟩
    cases hr
    exact hsh
  | call hrun _ ih =>
    intro hcs hsh
    obtain ⟨⟨hfresh, haddr⟩, hcs⟩ := List.forall_mem_cons.mp hcs
    have hfirst := hcall hsh hfresh haddr
    obtain ⟨hrest, hend⟩ := ih hcs (hfirst.settled_runJob hrun)
    exact ⟨List.forall_mem_cons.mpr ⟨⟨_, hfirst⟩, hrest⟩, hend⟩
  | stop hrun =>
    intro hcs hsh
    obtain ⟨hfresh, haddr⟩ := hcs _ List.mem_cons_self
    refine ⟨fun c hc ↦ ?_, fun hr ↦ nomatch hr⟩
    obtain rfl := List.mem_singleton.mp hc
    exact ⟨_, hcall hsh hfresh haddr⟩

theorem fresh_of_mem_execCalls {node : Ast} :
    ∀ c ∈ execCalls node sh, c.1.Fresh ∧ c.1.addr + 1 = c.2.heap := by
  intro c hc
  have hcalls : execCalls node sh = (visitsWith runJob node sh).map callOf :=
    callsWith_eq_map runJob node sh
  rw [hcalls] at hc
  obtain ⟨⟨node', sh₁⟩, -, rfl⟩ := List.mem_map.mp hc
  have hnew := Job.Fresh.new sh₁.heap
  have hcompile : (node'.compileInto { addr := sh₁.heap }).Fresh ∧
      (node'.compileInto { addr := sh₁.heap }).addr = sh₁.heap := by
    cases node' with
    | cmd cmd invalid => exact hnew.compileCommandJob (.cmd cmd invalid)
    | pipeline nodes invalid => exact hnew.compilePipelineJob nodes
    | _ => exact ⟨hnew, rfl⟩
  exact ⟨hcompile.1, congrArg Nat.succ hcompile.2⟩

theorem settledCall_of_mem_op {op : Op} (hsh : sh.Settled) :
    (∀ c ∈ op.calls sh, ∃ s, SettledCall s c.1 c.2) ∧
      ∀ {sh'}, op.run sh = .ok sh' → sh'.Settled := by
  cases op with
  | line node =>
    rw [Op.calls]
    dsimp only [Op.run]
    split
    · refine ⟨fun c hc ↦ absurd hc List.not_mem_nil, fun h ↦ ?_⟩
      cases h
    obtain ⟨hcalls, hend⟩ :=
      settledCall_of_mem_calls (calls_execCalls node sh) fresh_of_mem_execCalls hsh
    refine ⟨hcalls, fun h ↦ ?_⟩
    obtain ⟨⟨status, sh₂⟩, hexec, h⟩ := bind_ok.mp h
    cases h
    exact hend hexec
  | hook events =>
    refine ⟨fun c hc ↦ absurd hc List.not_mem_nil, fun h ↦ ?_⟩
    have hruns := steps_op hsh.wellFormed h
    dsimp only [Op.run] at h
    split at h
    · cases h
    cases h
    have hheap := (onlyJobs_handleSigchldEvents sh events).heap
    refine ⟨hsh.wellFormed.of_runs hruns, fun hzero ↦ hsh.grouped ?_⟩
    exact (Control.pgids_of_runs hruns hheap).subset hzero

theorem settledCall_of_mem_runCalls (ops : List Op) :
    ∀ {sh : Shell}, sh.Settled → ∀ c ∈ runCalls ops sh, ∃ s, SettledCall s c.1 c.2 := by
  induction ops with
  | nil => exact fun _ c hc ↦ absurd hc List.not_mem_nil
  | cons op ops ih =>
    intro sh hsh c hc
    obtain ⟨hcalls, hend⟩ := settledCall_of_mem_op hsh
    rw [runCalls] at hc
    rcases List.mem_append.mp hc with hc | hc
    · exact hcalls c hc
    split at hc
    · exact absurd hc List.not_mem_nil
    · next sh₁ hop => exact ih (hend hop) c hc

end

/-- **Who takes a foreground job off the list.** For each job that `run_job` or `fg` waits for, in
any run and with any events while it waits, if the jobs that are listed at the start have groups of
their own, the reaper leaves the job where it is. The wait takes it off when it ends, unless it ends
because the job stopped. -/
theorem heldByWait {ops : List Op} {sh₀ : Shell} (hinit : sh₀.Initial) {c : Job × Shell}
    (hc : c ∈ runCalls ops sh₀) {w : ℕ × Shell} (hw : w ∈ jobWaits c.1 c.2)
    (hgroups : w.2.table.DistinctGroups) (script : Script) :
    HeldByWait w.1 { w.2 with script } := by
  have hsh₀ : sh₀.Settled := by
    rw [hinit]
    exact ⟨⟨List.nodup_nil, fun _ h ↦ nomatch h⟩, List.not_mem_nil⟩
  obtain ⟨s, hcall⟩ := settledCall_of_mem_runCalls ops hsh₀ c hc
  exact heldByWait_of_holds (by exact hcall.holds_of_mem_jobWaits w hw hgroups)

/-- The wait for `a`, while `b` runs in the background. -/
theorem heldByWait_two_jobs :
    ∃ c ∈ runCalls [.line (.word ['b'] true), .line (.word ['a'] false)]
        (.onTerminal { pids := [10, 11] }),
      ∃ w ∈ jobWaits c.1 c.2, w.2.table.pgids = [11, 10] ∧
        ∀ script, HeldByWait w.1 { w.2 with script } := by
  have heval : ((runCalls [.line (.word ['b'] true), .line (.word ['a'] false)]
      (.onTerminal { pids := [10, 11] })).map fun c ↦
        (jobWaits c.1 c.2).map fun w ↦ w.2.table.pgids) = [[], [[11, 10]]] := by decide +kernel
  have hcall : [[11, 10]] ∈ ((runCalls [.line (.word ['b'] true), .line (.word ['a'] false)]
      (.onTerminal { pids := [10, 11] })).map fun c ↦
        (jobWaits c.1 c.2).map fun w ↦ w.2.table.pgids) := heval ▸ by simp
  obtain ⟨c, hc, hwaits⟩ := List.mem_map.mp hcall
  have hwait : [11, 10] ∈ (jobWaits c.1 c.2).map fun w ↦ w.2.table.pgids := hwaits ▸ by simp
  obtain ⟨w, hw, hpgids⟩ := List.mem_map.mp hwait
  refine ⟨c, hc, w, hw, hpgids, heldByWait (Shell.initial_onTerminal _) hc hw ?_⟩
  rw [JobTable.DistinctGroups, hpgids]
  decide

end Novash
