import Novash.Executor.Calls
import Novash.Parser.Print

/-!
# The text of a command

The text of a job is there to be printed: by `jobs`, by `fg` and `bg`, and when a job stops or is
done. Nothing is decided by it. Two shells that differ in such texts only, in the list of jobs and
in what was printed, do the same with trees that differ in such texts only (`Alike`).

One lemma a function, and `Agree.bind` for what is made up of several.
-/

namespace Novash

open Foundations JobState

/-! ## Shells without texts -/

def Job.mute (job : Job) : Job := { job with command := [] }

def JobTable.mute (t : JobTable) : JobTable := { t with jobs := t.jobs.map Job.mute }

/-- The shell without the texts of its commands, and without what depends on them. -/
def Shell.mute (sh : Shell) : Shell :=
  { sh with
    table := sh.table.mute
    reaped := []
    lastExec := { sh.lastExec with command := none }
    out := [] }

/-- The shells differ in the texts of commands only. -/
def Shell.Alike (sh sh' : Shell) : Prop := sh.mute = sh'.mute

def Job.Alike (job job' : Job) : Prop := job.mute = job'.mute

/-- The same value, and shells that are alike. -/
def AlikeWith {α : Type} (x y : α × Shell) : Prop := x.1 = y.1 ∧ x.2.Alike y.2

/-! ## Jobs and lists of jobs -/

namespace JobTable

variable {t t' : JobTable}

theorem find?_mute (t : JobTable) {p : Job → Bool} (hp : ∀ job, p job.mute = p job) :
    t.mute.jobs.find? p = (t.jobs.find? p).map Job.mute := by
  have hcomp : p ∘ Job.mute = p := funext hp
  rw [mute, List.find?_map, hcomp]

theorem mute_modify (t : JobTable) (addr : ℕ) {f g : Job → Job}
    (hf : ∀ job, (f job).mute = g job.mute) : (t.modify addr f).mute = t.mute.modify addr g := by
  have hjobs := map_modifyFirst_comm (p := fun job : Job ↦ job.addr = addr)
    (q := fun job : Job ↦ job.addr = addr) Job.mute (fun _ ↦ rfl) hf t.jobs
  exact congrArg (fun jobs ↦ JobTable.mk jobs t.jobsCount t.runningJobsCount) hjobs

theorem jobsNewId_mute (t : JobTable) : jobsNewId t.mute = jobsNewId t := by
  have hloop : ∀ (jobs : List Job) (n : ℕ), newIdLoop n (jobs.map Job.mute) = newIdLoop n jobs := by
    intro jobs
    induction jobs with
    | nil => exact fun _ ↦ rfl
    | cons job jobs ih =>
      intro n
      rw [List.map_cons, newIdLoop, newIdLoop, ih]
      rfl
  rw [jobsNewId, jobsNewId, mute, ← List.map_reverse, hloop]

theorem mute_addJob (t : JobTable) (job : Job) :
    (jobsAddJob t job).mute = jobsAddJob t.mute job.mute := by
  rw [jobsAddJob, jobsAddJob, jobsNewId_mute]
  rfl

theorem mute_removeJob (t : JobTable) (pgid : ℕ) :
    (jobsRemoveJob t pgid).2.mute = (jobsRemoveJob t.mute pgid).2 := by
  have hfind : jobsFindJobByPgid t.mute pgid = (jobsFindJobByPgid t pgid).map Job.mute :=
    t.find?_mute fun _ ↦ rfl
  rw [jobsRemoveJob, jobsRemoveJob, hfind]
  cases jobsFindJobByPgid t pgid with
  | none => rfl
  | some job =>
    have herase : (t.jobs.eraseP fun j ↦ j.pgid = pgid).map Job.mute
        = (t.jobs.map Job.mute).eraseP fun j ↦ j.pgid = pgid := by
      rw [List.eraseP_map]
      rfl
    exact congrArg (fun jobs ↦ JobTable.mk jobs _ _) herase

theorem mute_applyStatus (t : JobTable) (addr pid : ℕ) (status : WaitStatus) :
    (t.applyStatus addr pid status).mute = t.mute.applyStatus addr pid status := by
  have hmodify := t.mute_modify addr (f := Job.applyStatus pid status)
    (g := Job.applyStatus pid status) fun job ↦ by cases status <;> rfl
  unfold applyStatus
  rw [← hmodify]
  cases status <;> rfl

theorem mute_markJobCompleted (t : JobTable) (job : Job) :
    (jobsMarkJobCompleted t job).mute = jobsMarkJobCompleted t.mute job.mute := by
  rw [jobsMarkJobCompleted, jobsMarkJobCompleted, mute_removeJob]
  exact congrArg (fun t : JobTable ↦ (jobsRemoveJob t job.pgid).2)
    (t.mute_modify job.addr fun _ ↦ rfl)

theorem mute_reap (t : JobTable) (ev : WaitEvent) : (t.reap ev).mute = t.mute.reap ev := by
  have hfind : jobsFindProcessByPid t.mute ev.pid
      = (jobsFindProcessByPid t ev.pid).map Job.mute := t.find?_mute fun _ ↦ rfl
  rw [reap, reap, hfind]
  cases jobsFindProcessByPid t ev.pid with
  | none => rfl
  | some job =>
    have hjob : (job.applyStatus ev.pid ev.status).mute
        = job.mute.applyStatus ev.pid ev.status := by
      cases ev.status <;> rfl
    dsimp only [Option.map_some]
    rw [← hjob]
    change JobTable.mute (if _ then _ else _) = if (job.applyStatus ev.pid ev.status).liveProcesses
      = 0 && (job.applyStatus ev.pid ev.status).isBackground then _ else _
    split
    · rw [mute_markJobCompleted, mute_applyStatus]
      rfl
    · exact t.mute_applyStatus job.addr ev.pid ev.status

theorem mute_resume (t : JobTable) (addr : ℕ) (isBackground : Bool) :
    (t.resume addr isBackground).mute = t.mute.resume addr isBackground := by
  have hcontinued : (jobsMarkJobContinued t addr).mute = jobsMarkJobContinued t.mute addr :=
    t.mute_modify addr fun _ ↦ rfl
  have hmodify := (jobsMarkJobContinued t addr).mute_modify addr
    (f := fun job ↦ { job with isBackground, state := jobRunning })
    (g := fun job ↦ { job with isBackground, state := jobRunning }) fun _ ↦ rfl
  rw [hcontinued] at hmodify
  exact congrArg (fun t : JobTable ↦ { t with runningJobsCount := t.runningJobsCount + 1 }) hmodify

theorem mute_bringForward (t : JobTable) (addr : ℕ) :
    (t.bringForward addr).mute = t.mute.bringForward addr := t.mute_modify addr fun _ ↦ rfl

end JobTable

namespace Job.Alike

variable {job job' : Job}

theorem mute_eq (h : job.Alike job') : job.mute = job'.mute := h

theorem addr (h : job.Alike job') : job.addr = job'.addr := (congrArg Job.addr h.mute_eq :)

theorem pgid (h : job.Alike job') : job.pgid = job'.pgid := (congrArg Job.pgid h.mute_eq :)

theorem processes (h : job.Alike job') : job.processes = job'.processes :=
  (congrArg Job.processes h.mute_eq :)

theorem isBackground (h : job.Alike job') : job.isBackground = job'.isBackground :=
  (congrArg Job.isBackground h.mute_eq :)

theorem state (h : job.Alike job') : job.state = job'.state := (congrArg Job.state h.mute_eq :)

theorem liveProcesses (h : job.Alike job') : job.liveProcesses = job'.liveProcesses :=
  (congrArg Job.liveProcesses h.mute_eq :)

theorem exists_eq (h : job.Alike job') : ∃ command, job = { job' with command } :=
  ⟨job.command, (congrArg (fun j : Job ↦ { j with command := job.command }) h.mute_eq :)⟩

end Job.Alike

/-! ## What is read and written without failing -/

namespace Shell.Alike

variable {sh sh' : Shell}

theorem mute_eq (h : sh.Alike sh') : sh.mute = sh'.mute := h

/-- A change of the shell that leaves the texts alone. -/
theorem map {f : Shell → Shell} (hf : ∀ sh, (f sh).mute = f sh.mute) (h : sh.Alike sh') :
    (f sh).Alike (f sh') := by
  rw [Alike, hf sh, hf sh', h.mute_eq]

theorem table (h : sh.Alike sh') : sh.table.mute = sh'.table.mute :=
  (congrArg (fun sh : Shell ↦ sh.table) h.mute_eq :)

theorem children (h : sh.Alike sh') : sh.children = sh'.children :=
  (congrArg (fun sh : Shell ↦ sh.children) h.mute_eq :)

theorem heap (h : sh.Alike sh') : sh.heap = sh'.heap :=
  (congrArg (fun sh : Shell ↦ sh.heap) h.mute_eq :)

theorem script (h : sh.Alike sh') : sh.script = sh'.script :=
  (congrArg Shell.script h.mute_eq :)

theorem fds (h : sh.Alike sh') : sh.fds = sh'.fds := (congrArg Shell.fds h.mute_eq :)

theorem shellStateGetenv (h : sh.Alike sh') : sh.shellStateGetenv = sh'.shellStateGetenv :=
  (congrArg Shell.shellStateGetenv h.mute_eq :)

theorem executable (h : sh.Alike sh') : sh.executable = sh'.executable :=
  (congrArg Shell.executable h.mute_eq :)

theorem nofile (h : sh.Alike sh') : sh.nofile = sh'.nofile :=
  (congrArg Shell.nofile h.mute_eq :)

/-- A search for a job whose result does not depend on the texts. -/
theorem find? (h : sh.Alike sh') {p : Job → Bool} (hp : ∀ job, p job.mute = p job) :
    (sh.table.jobs.find? p = none ∧ sh'.table.jobs.find? p = none) ∨
      ∃ job job', sh.table.jobs.find? p = some job ∧ sh'.table.jobs.find? p = some job' ∧
        job.Alike job' := by
  have hfind : (sh.table.jobs.find? p).map Job.mute = (sh'.table.jobs.find? p).map Job.mute := by
    rw [← JobTable.find?_mute _ hp, ← JobTable.find?_mute _ hp, h.table]
  cases hjob : sh.table.jobs.find? p with
  | none =>
    rw [hjob, Option.map_none] at hfind
    exact .inl ⟨rfl, Option.map_eq_none_iff.mp hfind.symm⟩
  | some job =>
    rw [hjob, Option.map_some] at hfind
    obtain ⟨job', hjob', heq⟩ := Option.map_eq_some_iff.mp hfind.symm
    exact .inr ⟨job, job', rfl, hjob', heq.symm⟩

theorem deref (h : sh.Alike sh') (addr : ℕ) :
    (sh.table.deref addr = none ∧ sh'.table.deref addr = none) ∨
      ∃ job job', sh.table.deref addr = some job ∧ sh'.table.deref addr = some job' ∧
        job.Alike job' :=
  h.find? fun _ ↦ rfl

end Shell.Alike

section

variable {sh sh' : Shell}

/-! ## Waiting -/

theorem alike_print {sh sh' : Shell} (h : sh.Alike sh') (line line' : CStr) :
    (sh.print line).Alike (sh'.print line') := h

theorem mute_reapEvent (sh : Shell) (ev : WaitEvent) :
    (reapEvent sh ev).mute = (reapEvent sh.mute ev).mute := by
  have hsys : ∀ s : JobSystem, s.children = sh.children → s.heap = sh.heap →
      s.table.mute = sh.table.mute →
      (s.reap ev).children = (sh.toJobSystem.reap ev).children ∧
        (s.reap ev).heap = (sh.toJobSystem.reap ev).heap ∧
        (s.reap ev).table.mute = (sh.toJobSystem.reap ev).table.mute := by
    intro s hchildren hheap htable
    unfold JobSystem.reap
    rw [hchildren]
    split
    · exact ⟨rfl, hheap, by rw [JobTable.mute_reap, JobTable.mute_reap, htable]⟩
    · exact ⟨hchildren, hheap, htable⟩
  have hmute : sh.table.mute.mute = sh.table.mute := by
    rw [JobTable.mute, JobTable.mute, List.map_map]
    rfl
  obtain ⟨hchildren, hheap, htable⟩ := hsys sh.mute.toJobSystem rfl rfl hmute
  -- what reaping writes apart from the texts is made of these parts
  have hbuild : ∀ sh₁ : Shell, (reapEvent sh₁ ev).mute
      = { sh₁ with
          table := (sh₁.toJobSystem.reap ev).table.mute
          children := (sh₁.toJobSystem.reap ev).children
          heap := (sh₁.toJobSystem.reap ev).heap
          reaped := []
          lastExec := { sh₁.lastExec with command := none }
          out := [] } := fun _ ↦ rfl
  rw [hbuild, hbuild, hchildren, hheap, htable]
  rfl

theorem alike_reapEvent (ev : WaitEvent) (h : sh.Alike sh') :
    (reapEvent sh ev).Alike (reapEvent sh' ev) := by
  rw [Shell.Alike, mute_reapEvent sh, mute_reapEvent sh', h.mute_eq]

theorem alike_handleSigchldEvents (events : List WaitEvent) :
    ∀ {sh sh' : Shell}, sh.Alike sh' →
      (handleSigchldEvents sh events).Alike (handleSigchldEvents sh' events) := by
  induction events with
  | nil => exact fun h ↦ h
  | cons ev events ih => exact fun h ↦ ih (alike_reapEvent ev h)

theorem alike_handleSignal (signals : List SignalfdSiginfo) :
    ∀ {sh sh' : Shell}, sh.Alike sh' →
      (signals.foldl handleSignal sh).Alike (signals.foldl handleSignal sh') := by
  induction signals with
  | nil => exact fun h ↦ h
  | cons sig signals ih =>
    intro sh sh' h
    refine ih ?_
    cases sig with
    | sigchld events => exact alike_handleSigchldEvents events h
    | sigint => exact h
    | sigtstp => exact h

theorem alike_groupExists (pgid : ℕ) (h : sh.Alike sh') :
    AlikeWith (groupExists pgid sh) (groupExists pgid sh') := by
  unfold groupExists
  rw [h.children, h.script]
  split
  · exact ⟨rfl, h⟩
  · refine ⟨rfl, ?_⟩
    exact h.map (f := fun s ↦ { s with
      script := { sh'.script with groups := sh'.script.groups.tail } }) fun _ ↦ rfl

theorem alike_xkill (pgid : ℕ) (h : sh.Alike sh') :
    Agree Shell.Alike (xkill pgid sh) (xkill pgid sh') := by
  obtain ⟨hfound, hsh⟩ := alike_groupExists pgid h
  unfold xkill
  split
  · exact .ok h
  · dsimp only
    rw [hfound]
    split
    · exact .ok hsh
    · exact .error _

theorem alike_xtcsetpgrp (pgid : ℕ) (h : sh.Alike sh') :
    Agree Shell.Alike (xtcsetpgrp pgid sh) (xtcsetpgrp pgid sh') := by
  obtain ⟨hfound, hsh⟩ := alike_groupExists pgid h
  unfold xtcsetpgrp
  rw [h.fds]
  split
  · exact .error _
  split
  · exact .ok h
  split
  · exact .error _
  · dsimp only
    rw [hfound]
    split
    · exact .ok hsh
    · exact .error _

theorem alike_shellRegainControl (h : sh.Alike sh') :
    Agree Shell.Alike (shellRegainControl sh) (shellRegainControl sh') := by
  have htty : sh.tty = sh'.tty := by rw [Shell.tty, Shell.tty, h.fds]
  unfold shellRegainControl
  rw [htty]
  split
  · exact .ok h
  · exact .error _

theorem alike_withTable {t t' : JobTable} (ht : t.mute = t'.mute) (h : sh.Alike sh') :
    Shell.Alike { sh with table := t } { sh' with table := t' } :=
  (congrArg₂ (fun (s : Shell) (table : JobTable) ↦ { s with table }) h.mute_eq ht :)

theorem alike_withWakeups (wakeups : List (List SignalfdSiginfo)) (h : sh.Alike sh') :
    Shell.Alike { sh with script := { sh.script with wakeups } }
      { sh' with script := { sh'.script with wakeups } } :=
  h.map (f := fun s ↦ { s with script := { s.script with wakeups } }) fun _ ↦ rfl

theorem alike_foregroundLoop (addr : ℕ) (wakeups : List (List SignalfdSiginfo)) :
    ∀ {sh sh' : Shell}, sh.Alike sh' →
      Agree AlikeWith (foregroundLoop addr wakeups sh) (foregroundLoop addr wakeups sh') := by
  induction wakeups with
  | nil =>
    intro sh sh' h
    rw [foregroundLoop, foregroundLoop]
    rcases h.deref addr with ⟨hnone, hnone'⟩ | ⟨job, job', hjob, hjob', halike⟩
    · rw [hnone, hnone']
      exact .error _
    · rw [hjob, hjob']
      dsimp only
      rw [halike.liveProcesses]
      split
      · exact .ok ⟨rfl, alike_withWakeups [] h⟩
      · exact .error _
  | cons signals wakeups ih =>
    intro sh sh' h
    rw [foregroundLoop, foregroundLoop]
    rcases h.deref addr with ⟨hnone, hnone'⟩ | ⟨job, job', hjob, hjob', halike⟩
    · rw [hnone, hnone']
      exact .error _
    · rw [hjob, hjob']
      dsimp only
      rw [halike.liveProcesses]
      split
      · exact .ok ⟨rfl, alike_withWakeups (signals :: wakeups) h⟩
      · have h₁ := alike_handleSignal signals h
        rcases h₁.deref addr with ⟨hnone, hnone'⟩ | ⟨job₁, job₁', hjob₁, hjob₁', halike₁⟩
        · rw [hnone, hnone']
          exact .error _
        · rw [hjob₁, hjob₁']
          dsimp only
          rw [halike₁.state]
          split
          · exact .ok ⟨rfl, alike_withWakeups wakeups h₁⟩
          · exact ih h₁

theorem alike_removeJob (pgid : ℕ) (h : sh.Alike sh') :
    Shell.Alike { sh with table := (jobsRemoveJob sh.table pgid).2 }
      { sh' with table := (jobsRemoveJob sh'.table pgid).2 } :=
  alike_withTable (by rw [JobTable.mute_removeJob, JobTable.mute_removeJob, h.table]) h

theorem alike_handleForegroundExecution (addr : ℕ) (h : sh.Alike sh') :
    Agree AlikeWith (handleForegroundExecution addr sh) (handleForegroundExecution addr sh') := by
  unfold handleForegroundExecution
  rcases h.deref addr with ⟨hnone, hnone'⟩ | ⟨job, job', hjob, hjob', halike⟩
  · rw [hnone, hnone']
    exact .error _
  rw [hjob, hjob']
  dsimp only
  rw [halike.pgid]
  refine (alike_xtcsetpgrp job'.pgid h).bind fun sh₁ sh₁' h₁ ↦ ?_
  rw [h₁.script]
  refine (alike_foregroundLoop addr _ h₁).bind ?_
  rintro ⟨stopped, sh₂⟩ ⟨_, sh₂'⟩ ⟨rfl, h₂⟩
  dsimp only at h₂ ⊢
  split
  · exact (alike_shellRegainControl h₂).bind fun sh₃ sh₃' h₃ ↦ .ok ⟨rfl, h₃⟩
  · rcases h₂.deref addr with ⟨hnone, hnone'⟩ | ⟨job₂, job₂', hjob₂, hjob₂', halike₂⟩
    · rw [hnone, hnone']
      exact .error _
    · rw [hjob₂, hjob₂']
      dsimp only
      rw [halike₂.pgid]
      exact (alike_shellRegainControl (alike_removeJob _ h₂)).bind fun sh₃ sh₃' h₃ ↦ .ok ⟨rfl, h₃⟩

/-! ## Builtins -/

theorem alike_resume (addr : ℕ) (isBackground : Bool) (h : sh.Alike sh') :
    Shell.Alike { sh with table := sh.table.resume addr isBackground }
      { sh' with table := sh'.table.resume addr isBackground } :=
  alike_withTable (by rw [JobTable.mute_resume, JobTable.mute_resume, h.table]) h

theorem alike_bgTurn {job job' : Job} (hjob : job.Alike job') (h : sh.Alike sh') :
    Agree Shell.Alike (bgTurn job sh) (bgTurn job' sh') := by
  unfold bgTurn
  rw [hjob.pgid, hjob.addr]
  exact (alike_xkill job'.pgid h).bind fun sh₁ sh₁' h₁ ↦
    .ok (alike_print (alike_resume job'.addr true h₁) _ _)

theorem alike_bgLoop (jobIds : List ℕ) :
    ∀ {sh sh' : Shell}, sh.Alike sh' → Agree AlikeWith (bgLoop jobIds sh) (bgLoop jobIds sh') := by
  induction jobIds with
  | nil => exact fun h ↦ .ok ⟨rfl, h⟩
  | cons jobId jobIds ih =>
    intro sh sh' h
    rw [bgLoop_cons, bgLoop_cons, findTargetJobBg, findTargetJobBg]
    rcases h.find? (p := fun job ↦ (jobId = 0 || job.id = jobId) && job.state = jobStopped)
      fun _ ↦ rfl with ⟨hnone, hnone'⟩ | ⟨job, job', hjob, hjob', halike⟩
    · rw [hnone, hnone']
      exact .ok ⟨rfl, alike_print h _ _⟩
    · rw [hjob, hjob']
      exact (alike_bgTurn halike h).bind fun sh₁ sh₁' h₁ ↦ ih h₁

theorem alike_continueJob {job job' : Job} (hjob : job.Alike job') (h : sh.Alike sh') :
    Agree Shell.Alike (continueJob job sh) (continueJob job' sh') := by
  unfold continueJob continueJobWith
  rw [hjob.isBackground, hjob.addr, hjob.pgid]
  split
  · have hforward : Shell.Alike { sh with table := sh.table.bringForward job'.addr }
        { sh' with table := sh'.table.bringForward job'.addr } :=
      alike_withTable (by rw [JobTable.mute_bringForward, JobTable.mute_bringForward, h.table]) h
    exact .ok (alike_print hforward _ _)
  · exact (alike_xkill job'.pgid h).bind fun sh₁ sh₁' h₁ ↦
      .ok (alike_print (alike_resume job'.addr false h₁) _ _)

theorem alike_xsignalfd (h : sh.Alike sh') : AlikeWith (xsignalfd sh) (xsignalfd sh') := by
  refine ⟨?_, h.map (f := fun sh ↦ (xsignalfd sh).2) fun _ ↦ rfl⟩
  rw [xsignalfd, xsignalfd, h.fds]

theorem alike_blockSignals (h : sh.Alike sh') : AlikeWith (blockSignals sh) (blockSignals sh') :=
  ⟨(congrArg Shell.sigmask h.mute_eq :), h.map (f := fun sh ↦ (blockSignals sh).2) fun _ ↦ rfl⟩

theorem alike_fgTurn {job job' : Job} (hjob : job.Alike job') (h : sh.Alike sh') :
    Agree AlikeWith (fgTurn job sh) (fgTurn job' sh') := by
  unfold fgTurn
  rw [hjob.pgid, hjob.addr]
  refine (alike_xtcsetpgrp job'.pgid h).bind fun sh₁ sh₁' h₁ ↦ ?_
  refine (alike_continueJob hjob h₁).bind fun sh₂ sh₂' h₂ ↦ ?_
  exact alike_handleForegroundExecution job'.addr (alike_xsignalfd (alike_blockSignals h₂).2).2

theorem alike_fgLoop (jobIds : List ℕ) :
    ∀ {sh sh' : Shell} (status : ℤ), sh.Alike sh' →
      Agree AlikeWith (fgLoop jobIds status sh) (fgLoop jobIds status sh') := by
  induction jobIds with
  | nil => exact fun _ h ↦ .ok ⟨rfl, h⟩
  | cons jobId jobIds ih =>
    intro sh sh' status h
    rw [fgLoop_cons, fgLoop_cons, findTargetJobFg, findTargetJobFg]
    rcases h.find? (p := fun job ↦ (jobId = 0 || job.id = jobId) &&
        (job.state = jobStopped || (job.isBackground && job.state = jobRunning)))
      fun _ ↦ rfl with ⟨hnone, hnone'⟩ | ⟨job, job', hjob, hjob', halike⟩
    · rw [hnone, hnone']
      exact .ok ⟨rfl, alike_print h _ _⟩
    · rw [hjob, hjob']
      refine (alike_fgTurn halike h).bind ?_
      rintro ⟨status₁, sh₁⟩ ⟨_, sh₁'⟩ ⟨rfl, h₁⟩
      exact ih status₁ h₁

theorem alike_builtinCd (argv : List CStr) (h : sh.Alike sh') :
    AlikeWith (builtinCd argv sh) (builtinCd argv sh') := by
  refine ⟨?_, h.map (f := fun sh ↦ (builtinCd argv sh).2) fun _ ↦ rfl⟩
  rw [builtinCd, builtinCd, h.shellStateGetenv, h.script]

theorem alike_builtinBg (argv : List CStr) (h : sh.Alike sh') :
    Agree AlikeWith (builtinBg argv sh) (builtinBg argv sh') := by
  unfold builtinBg
  split
  · exact .ok ⟨rfl, alike_print h _ _⟩
  · exact alike_bgLoop _ h

theorem alike_builtinFg (argv : List CStr) (h : sh.Alike sh') :
    Agree AlikeWith (builtinFg argv sh) (builtinFg argv sh') := by
  unfold builtinFg
  split
  · exact .ok ⟨rfl, alike_print h _ _⟩
  · exact alike_fgLoop _ 0 h

theorem alike_builtinFnType (argv : List CStr) (h : sh.Alike sh') :
    AlikeWith (builtinFnType argv sh) (builtinFnType argv sh') := by
  unfold builtinFnType
  split
  · exact ⟨rfl, alike_print h _ _⟩
  next cmd _ _ =>
  have hpath : isInPath cmd sh = isInPath cmd sh' := by
    rw [isInPath, isInPath, h.shellStateGetenv, h.executable]
  rw [hpath]
  split
  · exact ⟨rfl, alike_print h _ _⟩
  · split <;> exact ⟨rfl, alike_print h _ _⟩

theorem alike_callBuiltin (argv : List CStr) (h : sh.Alike sh') :
    Agree AlikeWith (callBuiltin argv sh) (callBuiltin argv sh') := by
  rw [callBuiltin, callBuiltin]
  -- the table of builtins, in its order
  refine .ite (.ok (alike_builtinCd argv h)) ?_
  refine .ite (.ok ⟨rfl, alike_print h _ _⟩) ?_
  refine .ite (.ok ⟨rfl, h.map (f := fun sh ↦ (builtinExit sh).2) fun _ ↦ rfl⟩) ?_
  refine .ite (.ok ⟨rfl, alike_print h _ _⟩) ?_
  refine .ite (.ok ⟨rfl, h⟩) ?_
  refine .ite (alike_builtinFg argv h) ?_
  refine .ite (alike_builtinBg argv h) ?_
  refine .ite (.ok ⟨rfl, h⟩) ?_
  exact .ite (.ok (alike_builtinFnType argv h)) (.error _)

/-! ## Jobs -/

theorem alike_withFds (fds : FdTable OpenFile) (h : sh.Alike sh') :
    Shell.Alike { sh with fds } { sh' with fds } :=
  h.map (f := fun s ↦ { s with fds }) fun _ ↦ rfl

theorem alike_closeFd (fd : ℕ) (h : sh.Alike sh') : (closeFd fd sh).Alike (closeFd fd sh') :=
  h.map (f := closeFd fd) fun _ ↦ rfl

theorem alike_closeOption (fd : Option ℕ) (h : sh.Alike sh') :
    (closeOption fd sh).Alike (closeOption fd sh') := by
  cases fd with
  | none => exact h
  | some fd => exact alike_closeFd fd h

theorem alike_dupFd (fd : ℕ) (h : sh.Alike sh') : AlikeWith (dupFd fd sh) (dupFd fd sh') := by
  unfold dupFd
  rw [h.fds]
  split
  · exact ⟨rfl, h⟩
  · exact ⟨rfl, alike_withFds _ h⟩

theorem alike_restoreFd (bak : Option ℕ) (fd : ℕ) (h : sh.Alike sh') :
    (restoreFd bak fd sh).Alike (restoreFd bak fd sh') := by
  unfold restoreFd
  split
  · exact h
  · rw [h.fds]
    exact alike_withFds _ h

theorem alike_runPureBuiltin (proc : Process) (h : sh.Alike sh') :
    Agree AlikeWith (runPureBuiltin proc sh) (runPureBuiltin proc sh') := by
  have hexec : Agree AlikeWith (handlePureBuiltinExecution proc sh)
      (handlePureBuiltinExecution proc sh') := by
    unfold handlePureBuiltinExecution handlePureBuiltinExecutionWith
    obtain ⟨hin, h₁⟩ := alike_dupFd 0 h
    obtain ⟨hout, h₂⟩ := alike_dupFd 1 h₁
    dsimp only
    rw [hin, hout]
    generalize (dupFd 1 (dupFd 0 sh).2).2 = sh₂ at h₂ ⊢
    generalize (dupFd 1 (dupFd 0 sh').2).2 = sh₂' at h₂ ⊢
    have hredir : handleRedirection sh₂.nofile proc.redir sh₂.script.opens sh₂.fds
        = handleRedirection sh₂'.nofile proc.redir sh₂'.script.opens sh₂'.fds := by
      rw [h₂.nofile, h₂.script, h₂.fds]
    rw [hredir]
    rcases handleRedirection sh₂'.nofile proc.redir sh₂'.script.opens sh₂'.fds with
      ⟨status | ⟨_, fds⟩, opens⟩
    · exact .error _
    · have h₃ := h₂.map (f := fun s ↦ { s with fds, script := { s.script with opens } }) fun _ ↦ rfl
      refine (alike_callBuiltin proc.argv h₃).bind ?_
      rintro ⟨status, sh₄⟩ ⟨_, sh₄'⟩ ⟨rfl, h₄⟩
      exact .ok ⟨rfl, alike_restoreFd _ 1 (alike_restoreFd _ 0 h₄)⟩
  refine hexec.bind ?_
  rintro ⟨status, sh₁⟩ ⟨_, sh₁'⟩ ⟨rfl, h₁⟩
  exact .ok ⟨rfl, alike_removeJob 0 h₁⟩

theorem alike_xpipe (h : sh.Alike sh') : AlikeWith (xpipe sh) (xpipe sh') := by
  refine ⟨?_, h.map (f := fun sh ↦ (xpipe sh).2) fun _ ↦ rfl⟩
  have hpipes : sh.pipes = sh'.pipes := (congrArg Shell.pipes h.mute_eq :)
  rw [xpipe, xpipe, h.fds, hpipes]

theorem alike_nextPipe (rest : List Process) (h : sh.Alike sh') :
    AlikeWith (nextPipe rest sh) (nextPipe rest sh') := by
  obtain ⟨hfd, hsh⟩ := alike_xpipe h
  unfold nextPipe
  split
  · exact ⟨rfl, h⟩
  · exact ⟨congrArg some hfd, hsh⟩

theorem alike_executorInitContext (h : sh.Alike sh') :
    AlikeWith (executorInitContext sh) (executorInitContext sh') := by
  obtain ⟨hsync, h₁⟩ := alike_xpipe h
  obtain ⟨hmask, h₂⟩ := alike_blockSignals h₁
  obtain ⟨hsfd, h₃⟩ := alike_xsignalfd h₂
  refine ⟨?_, h₃⟩
  unfold executorInitContext
  dsimp only
  rw [hsync, hmask, hsfd]

theorem alike_executorDestroyContext (ctx : ExecutorCtx) (h : sh.Alike sh') :
    (executorDestroyContext ctx sh).Alike (executorDestroyContext ctx sh') :=
  h.map (f := executorDestroyContext ctx) fun _ ↦ rfl

theorem alike_xfork (h : sh.Alike sh') : Agree AlikeWith (xfork sh) (xfork sh') := by
  have hpid : sh.pid = sh'.pid := (congrArg Shell.pid h.mute_eq :)
  have hfree : ∀ pid, sh.pidFree pid = sh'.pidFree pid := fun pid ↦ by
    rw [Shell.pidFree, Shell.pidFree, hpid, h.children]
  have hpids : sh.script.pids = sh'.script.pids := by rw [h.script]
  unfold xfork
  rw [hpids]
  split
  · exact .error _
  next pid pids _ =>
  rw [hfree]
  split
  · exact .ok ⟨rfl, h.map (f := fun s ↦ { s with script := { s.script with pids } }) fun _ ↦ rfl⟩
  · exact .error _

theorem alike_forkProcess (addr : ℕ) (proc : Process) (ctx : ExecutorCtx) (h : sh.Alike sh') :
    Agree AlikeWith (forkProcess addr proc ctx sh) (forkProcess addr proc ctx sh') := by
  refine (alike_xfork h).bind ?_
  rintro ⟨pid, sh₁⟩ ⟨_, sh₁'⟩ ⟨rfl, h₁⟩
  refine .ok ⟨rfl, ?_⟩
  exact h₁.map (f := fun sh₁ ↦ { sh₁ with
      children := sh₁.children ++ [⟨pid, ctx.group pid, addr⟩]
      script := { sh₁.script with
        opens := (childSetup sh₁.nofile ctx proc.redir sh₁.script.opens sh₁.fds).2 }
      spawned := sh₁.spawned ++ [⟨pid, addr, proc.argv, ctx.prevMask,
        (childSetup sh₁.nofile ctx proc.redir sh₁.script.opens sh₁.fds).1⟩] }) fun _ ↦ rfl

theorem alike_finishFork (isBackground : Bool) (ctx : ExecutorCtx) (pid : ℕ) (h : sh.Alike sh') :
    (finishFork isBackground ctx pid sh).Alike (finishFork isBackground ctx pid sh') := by
  unfold finishFork
  refine alike_closeOption ctx.outFd (alike_closeOption ctx.inFd ?_)
  have hbg : Shell.Alike { sh with lastExec := { sh.lastExec with bgPid := pid } }
      { sh' with lastExec := { sh'.lastExec with bgPid := pid } } :=
    h.map (f := fun s ↦ { s with lastExec := { s.lastExec with bgPid := pid } }) fun _ ↦ rfl
  cases isBackground with
  | true =>
    split
    · exact alike_closeFd _ (alike_closeFd _ hbg)
    · exact hbg
  | false =>
    split
    · exact alike_closeFd _ (alike_closeFd _ h)
    · exact h

/-- Jobs and shells that are alike. -/
def AlikeJobs (x y : Job × Shell) : Prop := x.1.Alike y.1 ∧ x.2.Alike y.2

theorem alike_forkLoop (procs : List Process) :
    ∀ {job job' : Job} (ctx : ExecutorCtx) {sh sh' : Shell}, job.Alike job' → sh.Alike sh' →
      Agree AlikeJobs (forkLoop procs job ctx sh) (forkLoop procs job' ctx sh') := by
  induction procs with
  | nil =>
    intro job job' ctx sh sh' hjob h
    exact .ok ⟨hjob, h⟩
  | cons proc rest ih =>
    intro job job' ctx sh sh' hjob h
    obtain ⟨hfd, hpipe⟩ := alike_nextPipe rest h
    rw [forkLoop, forkLoop]
    dsimp only
    rw [hfd, hjob.addr, hjob.isBackground]
    refine (alike_forkProcess job'.addr proc _ hpipe).bind ?_
    rintro ⟨pid, sh₁⟩ ⟨_, sh₁'⟩ ⟨rfl, h₁⟩
    refine ih _ ?_ (alike_finishFork job'.isBackground _ pid h₁)
    exact congrArg (fun job : Job ↦ job.addForked proc pid _) hjob.mute_eq

theorem alike_runForked {job job' : Job} (hjob : job.Alike job') (h : sh.Alike sh') :
    Agree AlikeWith (runForked job sh) (runForked job' sh') := by
  obtain ⟨hctx, h₀⟩ := alike_executorInitContext h
  unfold runForked
  dsimp only
  rw [hctx]
  have hfork : Agree AlikeJobs (forkJob job (executorInitContext sh').1 (executorInitContext sh).2)
      (forkJob job' (executorInitContext sh').1 (executorInitContext sh').2) := by
    unfold forkJob
    rw [hjob.processes]
    have hbare : Job.Alike { job with processes := [] } { job' with processes := [] } :=
      (congrArg (fun job : Job ↦ { job with processes := [] }) hjob.mute_eq :)
    refine (alike_forkLoop _ _ hbare h₀).bind ?_
    rintro ⟨job₁, sh₁⟩ ⟨job₁', sh₁'⟩ ⟨hjob₁, h₁⟩
    dsimp only at hjob₁ h₁ ⊢
    rw [hjob₁.addr, hjob₁.pgid]
    have htable : (sh₁.table.modify job₁'.addr fun _ ↦ job₁).mute
        = (sh₁'.table.modify job₁'.addr fun _ ↦ job₁').mute := by
      rw [sh₁.table.mute_modify job₁'.addr (g := fun _ ↦ job₁.mute) fun _ ↦ rfl,
        sh₁'.table.mute_modify job₁'.addr (g := fun _ ↦ job₁'.mute) fun _ ↦ rfl, h₁.table,
        hjob₁.mute_eq]
    refine .ok ⟨hjob₁, ?_⟩
    exact (alike_withTable htable h₁).map
      (f := fun s ↦ { s with lastExec := { s.lastExec with pgid := job₁'.pgid } }) fun _ ↦ rfl
  -- the same forks, then the same wait
  refine hfork.bind ?_
  rintro ⟨job₁, sh₁⟩ ⟨job₁', sh₁'⟩ ⟨hjob₁, h₁⟩
  have hexec : Agree AlikeWith (handleExecution job₁ sh₁) (handleExecution job₁' sh₁') := by
    dsimp only at hjob₁ h₁
    unfold handleExecution
    rw [hjob₁.isBackground, hjob₁.addr]
    split
    · exact .ok ⟨rfl, alike_print h₁ _ _⟩
    · exact alike_handleForegroundExecution _ h₁
  refine hexec.bind ?_
  rintro ⟨status, sh₂⟩ ⟨_, sh₂'⟩ ⟨rfl, h₂⟩
  refine .ok ⟨rfl, ?_⟩
  exact (alike_executorDestroyContext _ h₂).map
    (f := fun s ↦ { s with lastExec := { s.lastExec with exitStatus := status } }) fun _ ↦ rfl

theorem alike_runJob {job job' : Job} (hjob : job.Alike job') (h : sh.Alike sh') :
    Agree AlikeWith (runJob job sh) (runJob job' sh') := by
  obtain ⟨command, rfl⟩ := hjob.exists_eq
  have hid : jobsNewId sh.table = jobsNewId sh'.table :=
    (JobTable.jobsNewId_mute _).symm.trans
      ((congrArg jobsNewId h.table).trans (JobTable.jobsNewId_mute _))
  have hlisted : Job.Alike { job' with command, id := jobsNewId sh.table }
      { job' with id := jobsNewId sh'.table } := by
    rw [hid]
    rfl
  have htable : (jobsAddJob sh.table { job' with command, id := jobsNewId sh.table }).mute
      = (jobsAddJob sh'.table { job' with id := jobsNewId sh'.table }).mute := by
    rw [JobTable.mute_addJob, JobTable.mute_addJob, h.table, hlisted.mute_eq]
  have hreset : sh.resetLastExec.Alike sh'.resetLastExec :=
    h.map (f := Shell.resetLastExec) fun _ ↦ rfl
  have hnamed : Shell.Alike
      { sh.resetLastExec with
        lastExec := { sh.resetLastExec.lastExec with command := some command } }
      { sh'.resetLastExec with
        lastExec := { sh'.resetLastExec.lastExec with command := some job'.command } } := hreset
  have hadded := alike_withTable htable hnamed
  unfold runJob
  split
  · exact .ok ⟨rfl, h⟩
  dsimp only
  cases isPureBuiltin job'.processes with
  | error e => exact .error e
  | ok proc =>
    cases proc with
    | none => exact alike_runForked hlisted hadded
    | some proc => exact alike_runPureBuiltin proc hadded

end

/-! ## Trees -/

theorem agree_of_common {x y z : Except Halt (ℤ × Shell)} (hx : Agree AlikeWith x z)
    (hy : Agree AlikeWith y z) : Agree AlikeWith x y := by
  cases hx with
  | error e => cases hy; exact .error e
  | ok hx =>
    cases hy with
    | ok hy => exact .ok ⟨hx.1.trans hy.1.symm, hx.2.trans hy.2.symm⟩

theorem alike_compileCommandJob {job job' : Job} (hjob : job.Alike job') (node : Ast) :
    (compileCommandJob job node).Alike (compileCommandJob job' (node.erase true)) := by
  cases node with
  | cmd node invalid =>
    exact (congrArg (fun job : Job ↦ jobsAddProcessToJob { job with isBackground := node.isBg }
      (jobsNewProcess node)) hjob.mute_eq :)
  | _ => exact hjob

theorem alike_compilePipelineJob (nodes : List Ast) : ∀ {job job' : Job}, job.Alike job' →
    (compilePipelineJob job nodes).Alike (compilePipelineJob job' (Ast.eraseList true nodes)) := by
  induction nodes with
  | nil => exact fun hjob ↦ hjob
  | cons node nodes ih => exact fun hjob ↦ ih (alike_compileCommandJob hjob node)

theorem alike_jobsNewJob {sh sh' : Shell} (h : sh.Alike sh') :
    (jobsNewJob sh).1.Alike (jobsNewJob sh').1 ∧ (jobsNewJob sh).2.Alike (jobsNewJob sh').2 := by
  refine ⟨?_, h.map (f := fun sh ↦ (jobsNewJob sh).2) fun _ ↦ rfl⟩
  rw [jobsNewJob, jobsNewJob, h.heap]
  exact rfl

theorem callArgvs_append (cs cs' : List (Job × Shell)) :
    callArgvs (cs ++ cs') = callArgvs cs ++ callArgvs cs' := List.flatMap_append

section

/-- The function does not look at the texts. -/
def RunsAlike (run : Job → Shell → Except Halt (ℤ × Shell)) : Prop :=
  ∀ {job job' sh sh'}, Job.Alike job job' → Shell.Alike sh sh' →
    Agree AlikeWith (run job sh) (run job' sh')

variable {run : Job → Shell → Except Halt (ℤ × Shell)}

mutual

theorem alike_execNodeWith (hrun : RunsAlike run) (node : Ast) {sh sh' : Shell}
    (h : sh.Alike sh') :
    Agree AlikeWith (execNodeWith run node sh) (execNodeWith run (node.erase true) sh') ∧
      callArgvs (callsWith run node sh) = callArgvs (callsWith run (node.erase true) sh') := by
  match node with
  | .null => exact ⟨.ok ⟨rfl, h⟩, rfl⟩
  | .cmd node invalid =>
    obtain ⟨hjob, hsh⟩ := alike_jobsNewJob h
    rw [Ast.erase, execNodeWith, execNodeWith, callsWith, callsWith, Bool.true_and]
    cases invalid with
    | true => exact ⟨.ok ⟨rfl, h⟩, rfl⟩
    | false =>
      have hcompile := alike_compileCommandJob hjob (.cmd node false)
      refine ⟨hrun hcompile hsh, ?_⟩
      exact congrArg (fun ps : List Process ↦ ps.map Process.argv ++ []) hcompile.processes
  | .pipeline nodes invalid =>
    obtain ⟨hjob, hsh⟩ := alike_jobsNewJob h
    rw [Ast.erase, execNodeWith, execNodeWith, callsWith, callsWith, Bool.true_and]
    cases invalid with
    | true => exact ⟨.ok ⟨rfl, h⟩, rfl⟩
    | false =>
      have hcompile := alike_compilePipelineJob nodes hjob
      refine ⟨hrun hcompile hsh, ?_⟩
      exact congrArg (fun ps : List Process ↦ ps.map Process.argv ++ []) hcompile.processes
  | .conditional left right op invalid =>
    rw [Ast.erase, execNodeWith, execNodeWith, callsWith, callsWith, Bool.true_and]
    cases invalid with
    | true => exact ⟨.ok ⟨rfl, h⟩, rfl⟩
    | false =>
      rw [if_neg Bool.false_ne_true, if_neg Bool.false_ne_true, if_neg Bool.false_ne_true,
        if_neg Bool.false_ne_true, callArgvs_append, callArgvs_append]
      obtain ⟨hleft, hcalls⟩ := alike_execNodeWith hrun left h
      rw [hcalls]
      -- the left side gives the same status in both, so both go right or neither does
      generalize execNodeWith run left sh = x at hleft ⊢
      generalize execNodeWith run (left.erase true) sh' = x' at hleft ⊢
      cases hleft with
      | error e => exact ⟨.error e, rfl⟩
      | @ok a b hab =>
        obtain ⟨status, sh₁⟩ := a
        obtain ⟨_, sh₁'⟩ := b
        obtain ⟨rfl, h₁⟩ := hab
        simp only [bind, Except.bind]
        split
        · obtain ⟨hright, hcalls'⟩ := alike_execNodeWith hrun right h₁
          exact ⟨hright, congrArg _ hcalls'⟩
        · exact ⟨.ok ⟨rfl, h₁⟩, rfl⟩
  | .sequence nodes invalid =>
    rw [Ast.erase, execNodeWith, execNodeWith, callsWith, callsWith, Bool.true_and]
    cases invalid with
    | true => exact ⟨.ok ⟨rfl, h⟩, rfl⟩
    | false => exact alike_execSeqWith hrun nodes 0 h

theorem alike_execSeqWith (hrun : RunsAlike run) (nodes : List Ast) (status : ℤ) {sh sh' : Shell}
    (h : sh.Alike sh') :
    Agree AlikeWith (execSeqWith run nodes status sh)
        (execSeqWith run (Ast.eraseList true nodes) status sh') ∧
      callArgvs (callsSeqWith run nodes sh)
        = callArgvs (callsSeqWith run (Ast.eraseList true nodes) sh') := by
  match nodes with
  | [] => exact ⟨.ok ⟨rfl, h⟩, rfl⟩
  | node :: nodes =>
    obtain ⟨hnode, hcalls⟩ := alike_execNodeWith hrun node h
    rw [Ast.eraseList, execSeqWith, execSeqWith, callsSeqWith, callsSeqWith, callArgvs_append,
      callArgvs_append, hcalls]
    generalize execNodeWith run node sh = x at hnode ⊢
    generalize execNodeWith run (node.erase true) sh' = x' at hnode ⊢
    cases hnode with
    | error e => exact ⟨.error e, rfl⟩
    | @ok a b hab =>
      obtain ⟨status₁, sh₁⟩ := a
      obtain ⟨_, sh₁'⟩ := b
      obtain ⟨rfl, h₁⟩ := hab
      simp only [bind, Except.bind]
      obtain ⟨hrest, hcalls'⟩ := alike_execSeqWith hrun nodes status₁ h₁
      exact ⟨hrest, congrArg _ hcalls'⟩

end

end

/-- **The text of a command has no effect.** Trees that differ in such texts execute the same
argument vectors, with the same results. -/
theorem alike_execNode {node node' : Ast} {sh sh' : Shell}
    (hnode : node.erase true = node'.erase true) (h : sh.Alike sh') :
    Agree AlikeWith (execNode node sh) (execNode node' sh') ∧
      execArgvs node sh = execArgvs node' sh' := by
  obtain ⟨hexec, hcalls⟩ := alike_execNodeWith alike_runJob node h
  obtain ⟨hexec', hcalls'⟩ := alike_execNodeWith alike_runJob node'
    (show sh'.Alike sh' from rfl)
  rw [← hnode] at hexec' hcalls'
  exact ⟨agree_of_common hexec hexec', hcalls.trans hcalls'.symm⟩

end Novash
