import Novash.Executor.Invariants
import Novash.Shell.Loop

/-!
# The shell is that machine

Whatever a line is, what executing it does to the jobs is a run of `Control.Step`, and so is what
the event hook does. The proofs follow the functions: each gets the steps it takes, from the calls
it makes.

A function that does not return (the shell exits, crashes or waits for ever) reaches no state
between two operations, so nothing is claimed about it.
-/

namespace Novash

open Foundations ProcessState JobState Relation

/-- A run of the machine. -/
abbrev Control.Runs : Control → Control → Prop := ReflTransGen Control.Step

theorem JobSystem.WellFormed.of_runs {c c' : Control} (h : c.Runs c') (hc : c.sys.WellFormed) :
    c'.sys.WellFormed :=
  invariant_of_step (I := fun c ↦ c.sys.WellFormed) h (fun _ _ ↦ Control.wellFormed_step) hc

/-! ## Calls that leave the jobs alone -/

theorem toJobSystem_of_xkill {pgid : ℕ} {sh sh' : Shell} (h : xkill pgid sh = .ok sh') :
    sh'.toJobSystem = sh.toJobSystem := by
  obtain ⟨_, rfl⟩ := eq_of_xkill h
  rfl

theorem toJobSystem_of_xtcsetpgrp {pgid : ℕ} {sh sh' : Shell} (h : xtcsetpgrp pgid sh = .ok sh') :
    sh'.toJobSystem = sh.toJobSystem := by
  obtain ⟨_, rfl⟩ := eq_of_xtcsetpgrp h
  rfl

/-! ## Reaping and waiting -/

theorem steps_reap (w : Option Wait) (events : List WaitEvent) (s : JobSystem) :
    Control.Runs ⟨s, w⟩ ⟨events.foldl JobSystem.reap s, w⟩ := by
  induction events generalizing s with
  | nil => exact ReflTransGen.refl
  | cons ev events ih => exact ReflTransGen.head (.reap s w ev) (ih (s.reap ev))

/-- The events that come with a signal. -/
def SignalfdSiginfo.events : SignalfdSiginfo → List WaitEvent
  | sigchld events => events
  | sigint => []
  | sigtstp => []

theorem toJobSystem_foldl_handleSignal (signals : List SignalfdSiginfo) (sh : Shell) :
    (signals.foldl handleSignal sh).toJobSystem
      = (signals.flatMap SignalfdSiginfo.events).foldl JobSystem.reap sh.toJobSystem := by
  induction signals generalizing sh with
  | nil => rfl
  | cons sig signals ih =>
    rw [List.foldl_cons, ih, List.flatMap_cons, List.foldl_append]
    cases sig with
    | sigchld events => rw [handleSignal, toJobSystem_handleSigchldEvents]; rfl
    | sigint => rfl
    | sigtstp => rfl

/-- All events that come with the signals of a wait. -/
def wakeupEvents (wakeups : List (List SignalfdSiginfo)) : List WaitEvent :=
  wakeups.flatMap fun signals ↦ signals.flatMap SignalfdSiginfo.events

/-- What is known when the loop ends. -/
structure LoopEnd (addr : ℕ) (stopped : Bool) (s s' : JobSystem) (job : Job) : Prop where
  deref : s'.table.deref addr = some job
  of_stopped : stopped = true → job.state = jobStopped
  of_finished : stopped = false → job.liveProcesses = 0 ∧ (s' = s ∨ job.state ≠ jobStopped)

/-- A loop that finds no live process ends before it waits. -/
theorem loopEnd_of_liveProcesses {addr : ℕ} {s : JobSystem} {job : Job}
    (hjob : s.table.deref addr = some job) (hlive : job.liveProcesses = 0) :
    LoopEnd addr false s s job where
  deref := hjob
  of_stopped := Bool.noConfusion
  of_finished _ := ⟨hlive, Or.inl rfl⟩

/-- A loop that turns once more and then ends has seen that the job is not stopped. -/
theorem LoopEnd.of_turn {addr : ℕ} {stopped : Bool} {s s₁ s' : JobSystem} {job₁ job : Job}
    (hjob : s₁.table.deref addr = some job₁) (hrunning : job₁.state ≠ jobStopped)
    (h : LoopEnd addr stopped s₁ s' job) : LoopEnd addr stopped s s' job := by
  refine ⟨h.deref, h.of_stopped, fun hfin ↦ ⟨(h.of_finished hfin).1, Or.inr ?_⟩⟩
  -- the rest of the loop ended at once, or turned again
  rcases (h.of_finished hfin).2 with hsame | hstate
  · have hderef := h.deref
    rw [hsame] at hderef
    cases hjob.symm.trans hderef
    exact hrunning
  · exact hstate

theorem foregroundLoop_end {addr : ℕ} {stopped : Bool} {sh' : Shell}
    (wakeups : List (List SignalfdSiginfo)) :
    ∀ {sh : Shell}, foregroundLoop addr wakeups sh = .ok (stopped, sh') →
      ∃ (events : List WaitEvent) (job : Job),
        sh'.toJobSystem = events.foldl JobSystem.reap sh.toJobSystem ∧
        events ⊆ wakeupEvents wakeups ∧
        LoopEnd addr stopped sh.toJobSystem sh'.toJobSystem job := by
  induction wakeups with
  | nil =>
    intro sh h
    rw [foregroundLoop] at h
    split at h
    · cases h
    next job hjob =>
    split at h
    · next hlive =>
      cases h
      exact ⟨[], job, rfl, List.nil_subset _, loopEnd_of_liveProcesses hjob hlive⟩
    · cases h
  | cons signals wakeups ih =>
    intro sh h
    rw [foregroundLoop] at h
    split at h
    · cases h
    next job hjob =>
    split at h
    · next hlive =>
      cases h
      exact ⟨[], job, rfl, List.nil_subset _, loopEnd_of_liveProcesses hjob hlive⟩
    dsimp only at h
    split at h
    · cases h
    next job' hjob' =>
    -- the signals are handled, and the job is looked at again
    have hsys := toJobSystem_foldl_handleSignal signals sh
    split at h
    · next hstopped =>
      cases h
      exact ⟨_, job', hsys, List.subset_append_left _ _, hjob', fun _ ↦ hstopped, Bool.noConfusion⟩
    · next hrunning =>
      obtain ⟨events, job'', hevents, hsub, hend⟩ := ih h
      refine ⟨signals.flatMap SignalfdSiginfo.events ++ events, job'', ?_, ?_,
        hend.of_turn hjob' hrunning⟩
      · rw [List.foldl_append, ← hsys]
        exact hevents
      · exact List.append_subset.mpr ⟨List.subset_append_left _ _,
          fun ev hev ↦ List.mem_append_right _ (hsub hev)⟩

/-- A wait is some reaping, and then the job is removed or left stopped. -/
theorem steps_handleForegroundExecution {addr : ℕ} {sh sh' : Shell} {status : ℤ}
    {fromStopped : Bool} (h : handleForegroundExecution addr sh = .ok (status, sh'))
    (hfrom : ∀ job, sh.table.deref addr = some job → job.state = jobStopped → fromStopped = true) :
    Control.Runs ⟨sh.toJobSystem, some ⟨addr, fromStopped⟩⟩ ⟨sh'.toJobSystem, none⟩ := by
  unfold handleForegroundExecution at h
  split at h
  · exact nomatch h
  obtain ⟨sh₁, hgrp, h⟩ := bind_ok.mp h
  obtain ⟨⟨stopped, sh₂⟩, hloop, h⟩ := bind_ok.mp h
  obtain ⟨events, job, hevents, -, hend⟩ := foregroundLoop_end _ hloop
  rw [toJobSystem_of_xtcsetpgrp hgrp] at hevents hend
  have hreap : Control.Runs ⟨sh.toJobSystem, some ⟨addr, fromStopped⟩⟩
      ⟨sh₂.toJobSystem, some ⟨addr, fromStopped⟩⟩ := hevents ▸ steps_reap _ events _
  cases stopped with
  | true =>
    obtain ⟨sh₃, hregain, h⟩ := bind_ok.mp h
    cases h
    rw [eq_of_shellRegainControl hregain]
    exact hreap.tail (.yield _ _ job hend.deref (hend.of_stopped rfl))
  | false =>
    obtain ⟨hlive, hstate⟩ := hend.of_finished rfl
    simp only [Bool.false_eq_true, if_false] at h
    split at h
    · exact nomatch h
    next job' hjob' =>
    cases hend.deref.symm.trans hjob'
    obtain ⟨sh₃, hregain, h⟩ := bind_ok.mp h
    cases h
    rw [eq_of_shellRegainControl hregain]
    refine hreap.tail (.finish _ _ job hend.deref hlive ?_)
    rcases hstate with hsame | hstate
    · by_cases hstopped : job.state = jobStopped
      · have hderef := hend.deref
        rw [hsame] at hderef
        exact Or.inl (hfrom job hderef hstopped)
      · exact Or.inr hstopped
    · exact Or.inr hstate

/-! ## Builtins -/

theorem steps_bgTurn {job : Job} {jobId : ℕ} {sh sh' : Shell} (hwf : sh.WellFormed)
    (hfind : findTargetJobBg sh.table jobId = some job) (h : bgTurn job sh = .ok sh') :
    Control.Runs ⟨sh.toJobSystem, none⟩ ⟨sh'.toJobSystem, none⟩ := by
  obtain ⟨hmem, hstopped⟩ := of_findTargetJobBg hfind
  obtain ⟨sh₁, hkill, h⟩ := bind_ok.mp h
  obtain ⟨groups, rfl⟩ := eq_of_xkill hkill
  cases h
  exact ReflTransGen.single (.resumeBg _ job (hwf.deref_eq hmem) hstopped)

theorem steps_bgLoop {status : ℤ} {sh' : Shell} (jobIds : List ℕ) :
    ∀ {sh : Shell}, sh.WellFormed → bgLoop jobIds sh = .ok (status, sh') →
      Control.Runs ⟨sh.toJobSystem, none⟩ ⟨sh'.toJobSystem, none⟩ := by
  induction jobIds with
  | nil =>
    intro sh _ h
    cases h
    exact ReflTransGen.refl
  | cons jobId jobIds ih =>
    intro sh hwf h
    rw [bgLoop_cons] at h
    split at h
    · cases h; exact ReflTransGen.refl
    next job hfind =>
    obtain ⟨sh₁, hturn, h⟩ := bind_ok.mp h
    have hruns := steps_bgTurn hwf hfind hturn
    exact hruns.trans (ih (hwf.of_runs hruns) h)

/-- A job that `fg` selects is stopped, or in the background. -/
theorem steps_continueJob {job : Job} {sh sh' : Shell} (h : continueJob job sh = .ok sh')
    (hjob : sh.table.deref job.addr = some job)
    (hfg : job.state = jobStopped ∨ job.isBackground = true) :
    ∃ fromStopped,
      Control.Step ⟨sh.toJobSystem, none⟩ ⟨sh'.toJobSystem, some ⟨job.addr, fromStopped⟩⟩ ∧
      ∀ j, sh'.table.deref job.addr = some j → j.state = jobStopped → fromStopped = true := by
  unfold continueJob continueJobWith at h
  split at h
  · next hbg =>
    cases h
    refine ⟨job.state = jobStopped, .bringForward _ job hjob hbg, fun j hj hstopped ↦ ?_⟩
    have hj' : (sh.table.bringForward job.addr).deref job.addr = some j := hj
    rw [JobTable.bringForward, JobTable.deref_modify_self _ hjob rfl] at hj'
    cases hj'
    exact decide_eq_true hstopped
  · next hbg =>
    obtain ⟨sh₁, hkill, h⟩ := bind_ok.mp h
    have hsys := toJobSystem_of_xkill hkill
    cases h
    refine ⟨false, ?_, fun j hj hstopped ↦ ?_⟩
    · rw [Shell.toJobSystem_print, hsys]
      exact .resumeFg _ job hjob (hfg.resolve_right hbg) (Bool.not_eq_true _ ▸ hbg)
    · have hj' : (sh₁.table.resume job.addr false).deref job.addr = some j := hj
      rw [hsys, JobTable.deref_resume_self false hjob] at hj'
      cases hj'
      exact nomatch hstopped

theorem steps_fgTurn {job : Job} {jobId : ℕ} {sh sh' : Shell} {status : ℤ} (hwf : sh.WellFormed)
    (hfind : findTargetJobFg sh.table jobId = some job) (h : fgTurn job sh = .ok (status, sh')) :
    Control.Runs ⟨sh.toJobSystem, none⟩ ⟨sh'.toJobSystem, none⟩ := by
  obtain ⟨hmem, hselected⟩ := of_findTargetJobFg hfind
  obtain ⟨sh₁, hgrp, h⟩ := bind_ok.mp h
  obtain ⟨sh₂, hcont, hwait⟩ := bind_ok.mp h
  have hsys := toJobSystem_of_xtcsetpgrp hgrp
  obtain ⟨fromStopped, hstep, hfrom⟩ :=
    steps_continueJob hcont (hsys ▸ hwf.deref_eq hmem) (hselected.imp id And.left)
  rw [hsys] at hstep
  have hwaits := steps_handleForegroundExecution hwait hfrom
  exact ReflTransGen.head hstep hwaits

theorem steps_fgLoop (jobIds : List ℕ) :
    ∀ {status status' : ℤ} {sh sh' : Shell}, sh.WellFormed →
      fgLoop jobIds status sh = .ok (status', sh') →
      Control.Runs ⟨sh.toJobSystem, none⟩ ⟨sh'.toJobSystem, none⟩ := by
  induction jobIds with
  | nil =>
    intro status status' sh sh' _ h
    cases h
    exact ReflTransGen.refl
  | cons jobId jobIds ih =>
    intro status status' sh sh' hwf h
    rw [fgLoop_cons] at h
    split at h
    · cases h; exact ReflTransGen.refl
    next job hfind =>
    obtain ⟨⟨status₁, sh₁⟩, hturn, h⟩ := bind_ok.mp h
    have hruns := steps_fgTurn hwf hfind hturn
    exact hruns.trans (ih (hwf.of_runs hruns) h)

theorem steps_builtinFg {argv : List CStr} {status : ℤ} {sh sh' : Shell} (hwf : sh.WellFormed)
    (h : builtinFg argv sh = .ok (status, sh')) :
    Control.Runs ⟨sh.toJobSystem, none⟩ ⟨sh'.toJobSystem, none⟩ := by
  unfold builtinFg at h
  split at h
  · cases h; exact ReflTransGen.refl
  · exact steps_fgLoop _ hwf h

theorem steps_builtinBg {argv : List CStr} {status : ℤ} {sh sh' : Shell} (hwf : sh.WellFormed)
    (h : builtinBg argv sh = .ok (status, sh')) :
    Control.Runs ⟨sh.toJobSystem, none⟩ ⟨sh'.toJobSystem, none⟩ := by
  unfold builtinBg at h
  split at h
  · cases h; exact ReflTransGen.refl
  · exact steps_bgLoop _ hwf h

theorem steps_callBuiltin {argv : List CStr} {status : ℤ} {sh sh' : Shell} (hwf : sh.WellFormed)
    (h : callBuiltin argv sh = .ok (status, sh')) :
    Control.Runs ⟨sh.toJobSystem, none⟩ ⟨sh'.toJobSystem, none⟩ := by
  obtain ⟨-, hfg⟩ | ⟨-, hbg⟩ | ⟨-, cwd, out, chdirs, rfl⟩ := callBuiltin_cases h
  · exact steps_builtinFg hwf hfg
  · exact steps_builtinBg hwf hbg
  · exact ReflTransGen.refl

/-! ## Forking -/

/-- A pid that is given out is in use by no child and no group of children. -/
structure JobSystem.PidFree (s : JobSystem) (pid : ℕ) : Prop where
  pos : 0 < pid
  lt : pid < 2 ^ 31
  fresh : ∀ c ∈ s.children, c.pid ≠ pid ∧ c.pgid ≠ pid

theorem pidFree_of_xfork {sh sh' : Shell} {pid : ℕ} (h : xfork sh = .ok (pid, sh')) :
    sh.PidFree pid := by
  unfold xfork at h
  split at h
  · exact nomatch h
  · split at h
    · next hfree =>
      cases h
      simp only [Shell.pidFree, Bool.and_eq_true, decide_eq_true_eq, List.all_eq_true] at hfree
      exact ⟨hfree.1.1.1, hfree.1.1.2, hfree.2⟩
    · exact nomatch h

/-- What the shell closes after a fork, but for the write end of the pipe that it made for it. -/
def ExecutorCtx.spent (ctx : ExecutorCtx) : List ℕ :=
  (if ctx.pgid = 0 then [ctx.syncPipe.2, ctx.syncPipe.1] else []) ++ ctx.inFd.toList

theorem fds_finishFork (isBackground : Bool) (ctx : ExecutorCtx) (pid : ℕ) (sh : Shell) :
    (finishFork isBackground ctx pid sh).fds
      = sh.fds.closeAll (ctx.spent ++ ctx.outFd.toList) := by
  unfold finishFork ExecutorCtx.spent
  cases ctx.inFd <;> cases ctx.outFd <;> split <;> split <;> rfl

/-- The context with which a process is forked. -/
def ExecutorCtx.withOut (ctx : ExecutorCtx) (fd : Option (ℕ × ℕ)) : ExecutorCtx :=
  { ctx with outFd := fd.map Prod.snd }

/-- What one turn of the loop of `run_job` does: `proc` is forked, and `rest` is still to come. -/
structure ForkTurn (proc : Process) (rest : List Process) (job : Job) (ctx : ExecutorCtx)
    (sh : Shell) (pid : ℕ) (sh' : Shell) : Prop where
  pidFree : sh.PidFree pid
  sys : sh'.toJobSystem = { sh.toJobSystem with
    children := sh.children ++ [⟨pid, ctx.group pid, job.addr⟩] }
  fds : sh'.fds = (nextPipe rest sh).2.fds.closeAll
    (ctx.spent ++ (ctx.withOut (nextPipe rest sh).1).outFd.toList)
  pipes : sh'.pipes = (nextPipe rest sh).2.pipes
  wakeups : sh'.script.wakeups = sh.script.wakeups
  spawned : sh'.spawned = sh.spawned ++ [⟨pid, job.addr, proc.argv, ctx.prevMask,
    (childSetup sh.nofile (ctx.withOut (nextPipe rest sh).1) proc.redir sh.script.opens
      (nextPipe rest sh).2.fds).1⟩]

/-- A turn is a fork and what the shell does after it. -/
theorem forkTurn_of_forkProcess {proc : Process} {rest : List Process} {job : Job}
    {ctx : ExecutorCtx} {sh sh₁ : Shell} {pid : ℕ}
    (h : forkProcess job.addr proc (ctx.withOut (nextPipe rest sh).1) (nextPipe rest sh).2
      = .ok (pid, sh₁)) :
    ForkTurn proc rest job ctx sh pid
      (finishFork job.isBackground (ctx.withOut (nextPipe rest sh).1) pid sh₁) := by
  obtain ⟨⟨pid', sh₂⟩, hfork, h⟩ := bind_ok.mp h
  have hfree := pidFree_of_xfork hfork
  obtain ⟨pids, rfl⟩ := eq_of_xfork hfork
  obtain ⟨rfl, hsh₁⟩ := Prod.mk.inj (Except.ok.inj h)
  have hfds₁ : sh₁.fds = (nextPipe rest sh).2.fds := by rw [← hsh₁]
  have hfds := fds_finishFork job.isBackground (ctx.withOut (nextPipe rest sh).1) pid' sh₁
  obtain ⟨fds', lastExec, hfinish⟩ :=
    eq_finishFork job.isBackground (ctx.withOut (nextPipe rest sh).1) pid' sh₁
  obtain ⟨fds, pipes, hpipe⟩ := eq_nextPipe rest sh
  have hsys : (nextPipe rest sh).2.toJobSystem = sh.toJobSystem := by rw [hpipe]
  have hscript : (nextPipe rest sh).2.script = sh.script := by rw [hpipe]
  have hnofile : (nextPipe rest sh).2.nofile = sh.nofile := by rw [hpipe]
  have hspawned : (nextPipe rest sh).2.spawned = sh.spawned := by rw [hpipe]
  refine ⟨hsys ▸ hfree, ?_, hfds.trans (hfds₁ ▸ rfl), ?_, ?_, ?_⟩
  · rw [hfinish, ← hsh₁, ← hsys]
    rfl
  · rw [hfinish, ← hsh₁]
  · rw [hfinish, ← hsh₁, ← hscript]
  · rw [hfinish, ← hsh₁, ← hscript, ← hnofile, ← hspawned]
    rfl

theorem forkLoop_cons {proc : Process} {rest : List Process} {job : Job} {ctx : ExecutorCtx}
    {sh : Shell} {r : Job × Shell} (h : forkLoop (proc :: rest) job ctx sh = .ok r) :
    ∃ pid sh', ForkTurn proc rest job ctx sh pid sh' ∧
      forkLoop rest (job.addForked proc pid (ctx.group pid))
        ((ctx.withOut (nextPipe rest sh).1).next pid (nextPipe rest sh).1) sh' = .ok r := by
  rw [forkLoop] at h
  obtain ⟨⟨pid, sh₁⟩, hproc, h⟩ := bind_ok.mp h
  exact ⟨pid, _, forkTurn_of_forkProcess hproc, h⟩

/-- The state of the loop of `run_job`, the jobs and the children having been `s₀` before it. -/
structure Launching (s₀ : JobSystem) (job : Job) (ctx : ExecutorCtx) (s : JobSystem) : Prop
    extends s₀.Forked job where
  sys : s = { s₀ with children := s₀.children ++ job.kids }
  group : ctx.pgid = 0 ∧ job.processes = [] ∨
    ctx.pgid = job.pgid ∧ 0 < job.pgid ∧
      (job.processes.map Process.pid).head? = some job.pgid

/-- One more process. -/
theorem Launching.addForked {s₀ s s' : JobSystem} {job : Job} {ctx ctx' : ExecutorCtx} {pid : ℕ}
    (h : Launching s₀ job ctx s) (proc : Process) (hpid : s.PidFree pid)
    (hctx : ctx'.pgid = ctx.group pid)
    (hs' : s' = { s with children := s.children ++ [⟨pid, ctx.group pid, job.addr⟩] }) :
    Launching s₀ (job.addForked proc pid (ctx.group pid)) ctx' s' := by
  have hkids : (job.addForked proc pid (ctx.group pid)).kids
      = job.kids ++ [⟨pid, ctx.group pid, job.addr⟩] := by
    have hgroup : ∀ p ∈ job.processes, job.pgid = ctx.group pid := by
      intro p hp
      rcases h.group with ⟨-, hnil⟩ | ⟨hpgid, hpos, -⟩
      · rw [hnil] at hp; exact nomatch hp
      · rw [ExecutorCtx.group, hpgid, if_neg hpos.ne']
    rw [Job.kids, Job.addForked, List.map_append, Job.kids]
    congr 1
    exact List.map_congr_left fun p hp ↦ by rw [hgroup p hp]
  have hchild : ∀ p ∈ job.processes, p.pid ≠ pid := by
    intro p hp
    refine (hpid.fresh ⟨p.pid, job.pgid, job.addr⟩ ?_).1
    rw [h.sys]
    exact List.mem_append_right _ (List.mem_map.mpr ⟨p, hp, rfl⟩)
  have hnew : ∀ {P : Process → Prop}, (∀ p ∈ job.processes, P p) →
      P { proc with pid, state := processRunning } →
      ∀ p ∈ (job.addForked proc pid (ctx.group pid)).processes, P p := fun hold hone ↦
    List.forall_mem_append.mpr ⟨hold, List.forall_mem_singleton.mpr hone⟩
  refine ⟨⟨h.state, ?_, hnew h.running rfl, ?_, hnew h.pid_pos hpid.pos, hnew h.pid_lt hpid.lt,
    hnew h.fresh fun c hc ↦ hpid.fresh c ?_⟩, ?_, Or.inr ⟨hctx, ?_⟩⟩
  · rw [Job.addForked, h.live, List.length_append, List.length_singleton, UInt32.ofNat_add]
    rfl
  · rw [Job.addForked, List.map_append, List.nodup_append]
    refine ⟨h.nodup, List.nodup_singleton _, ?_⟩
    rintro _ ha _ hb rfl
    obtain ⟨p, hp, rfl⟩ := List.mem_map.mp ha
    exact hchild p hp (List.mem_singleton.mp hb)
  · rw [h.sys]
    exact List.mem_append_left _ hc
  · rw [hs', h.sys, hkids, List.append_assoc]
  · rw [Job.addForked, List.map_append, List.head?_append, ExecutorCtx.group]
    rcases h.group with ⟨hpgid, hnil⟩ | ⟨hpgid, hpos, hhead⟩
    · rw [if_pos hpgid, hnil]
      exact ⟨hpid.pos, rfl⟩
    · rw [hpgid, if_neg hpos.ne', hhead]
      exact ⟨hpos, rfl⟩

/-- The whole loop. -/
theorem Launching.of_forkLoop {s₀ : JobSystem} {job' : Job} {sh' : Shell} (rest : List Process) :
    ∀ {job : Job} {ctx : ExecutorCtx} {sh : Shell}, Launching s₀ job ctx sh.toJobSystem →
      forkLoop rest job ctx sh = .ok (job', sh') →
      (∃ ctx', Launching s₀ job' ctx' sh'.toJobSystem) ∧ job'.addr = job.addr ∧ job'.id = job.id ∧
        job'.isBackground = job.isBackground ∧
        job'.processes.length = job.processes.length + rest.length := by
  induction rest with
  | nil =>
    intro job ctx sh hl h
    cases h
    exact ⟨⟨ctx, hl⟩, rfl, rfl, rfl, rfl⟩
  | cons proc rest ih =>
    intro job ctx sh hl h
    obtain ⟨pid, sh₁, hturn, hrest⟩ := forkLoop_cons h
    obtain ⟨hl', haddr, hid, hbg, hlen⟩ :=
      ih (hl.addForked proc hturn.pidFree rfl hturn.sys) hrest
    refine ⟨hl', haddr, hid, hbg, ?_⟩
    rw [hlen, Job.addForked, List.length_append, List.length_singleton, List.length_cons]
    omega

theorem Launching.launched {s₀ s : JobSystem} {job : Job} {ctx : ExecutorCtx}
    (h : Launching s₀ job ctx s) (hne : job.processes ≠ []) : s₀.Launched job :=
  ⟨h.toForked, (h.group.resolve_left fun hnil ↦ hne hnil.2).2.2⟩

/-! ## Running a job -/

/-- Writing to the job that was added last is adding what was written. -/
theorem modify_addJob (t : JobTable) (job : Job) {job' : Job} (haddr : job'.addr = job.addr)
    (hid : job'.id = jobsNewId t) :
    (jobsAddJob t job).modify job'.addr (fun _ ↦ job') = jobsAddJob t job' := by
  have hhead : ({ job with id := jobsNewId t } : Job).addr = job'.addr := haddr.symm
  have hjob : ({ job' with id := jobsNewId t } : Job) = job' := by rw [← hid]
  rw [JobTable.modify, jobsAddJob, jobsAddJob, modifyFirst, if_pos (decide_eq_true hhead), hjob]

theorem Launching.init {s : JobSystem} {job : Job} {ctx : ExecutorCtx} (hjob : job.Fresh)
    (hctx : ctx.pgid = 0) :
    Launching s { job with processes := [] } ctx s where
  state := hjob.state
  live := hjob.live
  running _ hp := nomatch hp
  nodup := List.nodup_nil
  pid_pos _ hp := nomatch hp
  pid_lt _ hp := nomatch hp
  fresh _ hp := nomatch hp
  sys := by rw [Job.kids, List.map_nil, List.append_nil]
  group := Or.inl ⟨hctx, rfl⟩

/-- The loop over the processes of a listed job launches it. -/
theorem forkJob_launch {s : JobSystem} {job job' : Job} {ctx : ExecutorCtx} {sh sh' : Shell}
    (h : forkJob job ctx sh = .ok (job', sh')) (hsys : sh.toJobSystem = s.add job)
    (hid : job.id = jobsNewId s.table) (hjob : job.Fresh) (hne : job.processes ≠ [])
    (hctx : ctx.pgid = 0) :
    s.Launched job' ∧ job'.addr = job.addr ∧ job'.id = job.id ∧
      job'.isBackground = job.isBackground ∧ sh'.toJobSystem = s.launch job' := by
  obtain ⟨⟨job₁, sh₁⟩, hloop, h⟩ := bind_ok.mp h
  obtain ⟨rfl, rfl⟩ := Prod.mk.inj (Except.ok.inj h)
  obtain ⟨⟨ctx', hl⟩, haddr, hid₁, hbg, hlen⟩ :=
    Launching.of_forkLoop _ (Launching.init hjob hctx) hloop
  have hne₁ : job₁.processes ≠ [] := by
    rw [← List.length_pos_iff, hlen, List.length_nil, Nat.zero_add]
    exact List.length_pos_of_ne_nil hne
  have hlaunched := hl.launched hne₁
  have hsys₁ := hl.sys
  rw [hsys] at hlaunched hsys₁
  -- the loop starts with the job listed, but the children are those of before
  refine ⟨⟨⟨hlaunched.state, hlaunched.live, hlaunched.running, hlaunched.nodup,
    hlaunched.pid_pos, hlaunched.pid_lt, hlaunched.fresh⟩, hlaunched.pgid⟩, haddr, hid₁, hbg, ?_⟩
  rw [JobSystem.launch, JobSystem.add, ← modify_addJob s.table job haddr (hid₁.trans hid)]
  simp only [hsys₁]
  rfl

theorem deref_launch (s : JobSystem) (job : Job) :
    (s.launch job).table.deref job.addr = some { job with id := jobsNewId s.table } := by
  rw [JobTable.deref, JobSystem.launch, JobSystem.add, jobsAddJob, List.find?_cons]
  simp

/-- A job that has just been launched is waited for, or left in the background. -/
theorem steps_handleExecution {s : JobSystem} {job : Job} {sh sh' : Shell} {status : ℤ}
    (h : handleExecution job sh = .ok (status, sh')) (hsys : sh.toJobSystem = s.launch job)
    (hjob : s.Launched job) :
    Control.Runs ⟨s.launch job, job.launchWait⟩ ⟨sh'.toJobSystem, none⟩ := by
  unfold handleExecution at h
  unfold Job.launchWait
  split at h
  · next hbg =>
    cases h
    rw [if_pos hbg, ← hsys]
    exact ReflTransGen.refl
  · next hbg =>
    rw [if_neg hbg, ← hsys]
    refine steps_handleForegroundExecution h fun j hj hstopped ↦ ?_
    have hderef := deref_launch s job
    rw [← hsys] at hderef
    cases hderef.symm.trans hj
    exact absurd (hjob.state.symm.trans hstopped) (by decide)

theorem steps_runForked {s : JobSystem} {job : Job} {sh sh' : Shell} {status : ℤ}
    (h : runForked job sh = .ok (status, sh')) (hsys : sh.toJobSystem = s.add job)
    (haddr : job.addr = s.heap) (hid : job.id = jobsNewId s.table) (hjob : job.Fresh)
    (hne : job.processes ≠ []) : Control.Runs ⟨s, none⟩ ⟨sh'.toJobSystem, none⟩ := by
  obtain ⟨⟨job', sh₁⟩, hfork, h⟩ := bind_ok.mp h
  obtain ⟨⟨status', sh₂⟩, hexec, h⟩ := bind_ok.mp h
  obtain ⟨hlaunched, haddr', -, -, hsys₁⟩ := forkJob_launch hfork hsys hid hjob hne rfl
  have hlaunch : Control.Step ⟨s, none⟩ ⟨s.launch job', job'.launchWait⟩ :=
    .launch s job' (haddr'.trans haddr) hlaunched
  have hruns := ReflTransGen.head hlaunch (steps_handleExecution hexec hsys₁ hlaunched)
  cases h
  exact hruns

theorem steps_runPureBuiltin {s : JobSystem} {job : Job} {proc : Process} {sh sh' : Shell}
    {status : ℤ} (h : runPureBuiltin proc sh = .ok (status, sh'))
    (hsys : sh.toJobSystem = s.add job) (haddr : job.addr = s.heap) (hjob : job.Fresh)
    (hs : s.WellFormed) : Control.Runs ⟨s, none⟩ ⟨sh'.toJobSystem, none⟩ := by
  obtain ⟨⟨status', sh₁⟩, hexec, h⟩ := bind_ok.mp h
  have henlist : Control.Step ⟨s, none⟩ ⟨sh.toJobSystem, none⟩ := hsys ▸ .enlist s job haddr hjob
  have hcall : Control.Runs ⟨sh.toJobSystem, none⟩ ⟨sh₁.toJobSystem, none⟩ := by
    have hwf : sh.WellFormed := Control.wellFormed_step henlist hs
    obtain ⟨fds, script, sh₂, fds', hbuiltin, rfl⟩ := eq_of_handlePureBuiltinExecution hexec
    have hruns := steps_callBuiltin (by exact hwf) hbuiltin
    exact hruns
  cases h
  exact (ReflTransGen.head henlist hcall).tail (.delist _)

/-- A job just made, at the address that was given out for it. -/
theorem steps_runJob {s : JobSystem} {job : Job} {sh sh' : Shell} {status : ℤ}
    (h : runJob job sh = .ok (status, sh')) (hsys : sh.toJobSystem = s.allocate)
    (haddr : job.addr = s.heap) (hjob : job.Fresh) (hs : s.WellFormed) :
    Control.Runs ⟨s, none⟩ ⟨sh'.toJobSystem, none⟩ := by
  have hadd : (enlist job sh).2.toJobSystem = s.add (enlist job sh).1 := by
    change { sh.toJobSystem with table := jobsAddJob sh.table (enlist job sh).1 } = _
    rw [hsys]
    rfl
  have hid : (enlist job sh).1.id = jobsNewId s.table := by
    change jobsNewId sh.toJobSystem.table = _
    rw [hsys]
    rfl
  have hfresh : (enlist job sh).1.Fresh := ⟨hjob.1, hjob.2, hjob.3, hjob.4⟩
  rcases runJob_cases h with ⟨-, rfl⟩ | ⟨proc, -, h⟩ | ⟨hne, -, h⟩
  · rw [hsys]
    exact ReflTransGen.single (.allocate s)
  · exact steps_runPureBuiltin h hadd haddr hfresh hs
  · exact steps_runForked h hadd haddr hid hfresh hne

/-! ## Trees and lines -/

theorem Job.Fresh.compileCommandJob {job : Job} (h : job.Fresh) (node : Ast) :
    (compileCommandJob job node).Fresh ∧ (Novash.compileCommandJob job node).addr = job.addr := by
  cases node with
  | cmd node invalid =>
    refine ⟨⟨h.pgid, h.state, h.live, fun p hp ↦ ?_⟩, rfl⟩
    rcases List.mem_append.mp hp with hp | hp
    · exact h.processes p hp
    · rw [List.mem_singleton.mp hp]
      exact ⟨rfl, rfl⟩
  | _ => exact ⟨h, rfl⟩

theorem Job.Fresh.compilePipelineJob {job : Job} (h : job.Fresh) (nodes : List Ast) :
    (compilePipelineJob job nodes).Fresh ∧
      (Novash.compilePipelineJob job nodes).addr = job.addr := by
  induction nodes generalizing job with
  | nil => exact ⟨h, rfl⟩
  | cons node nodes ih =>
    obtain ⟨hfresh, haddr⟩ := h.compileCommandJob node
    obtain ⟨hfresh', haddr'⟩ := ih hfresh
    exact ⟨hfresh', haddr'.trans haddr⟩

theorem Job.Fresh.new (addr : ℕ) : ({ addr } : Job).Fresh :=
  ⟨rfl, rfl, rfl, fun _ hp ↦ nomatch hp⟩

mutual

theorem steps_execNode (node : Ast) {sh sh' : Shell} {status : ℤ} (hwf : sh.WellFormed)
    (h : execNodeWith runJob node sh = .ok (status, sh')) :
    Control.Runs ⟨sh.toJobSystem, none⟩ ⟨sh'.toJobSystem, none⟩ := by
  match node with
  | .null =>
    rw [execNodeWith] at h
    cases h
    exact ReflTransGen.refl
  | .cmd node invalid =>
    rw [execNodeWith] at h
    split at h
    · cases h; exact ReflTransGen.refl
    · obtain ⟨hfresh, haddr⟩ := (Job.Fresh.new sh.heap).compileCommandJob (.cmd node invalid)
      exact steps_runJob h rfl haddr hfresh hwf
  | .pipeline nodes invalid =>
    rw [execNodeWith] at h
    split at h
    · cases h; exact ReflTransGen.refl
    · obtain ⟨hfresh, haddr⟩ := (Job.Fresh.new sh.heap).compilePipelineJob nodes
      exact steps_runJob h rfl haddr hfresh hwf
  | .conditional left right op invalid =>
    rw [execNodeWith] at h
    split at h
    · cases h; exact ReflTransGen.refl
    obtain ⟨⟨status₁, sh₁⟩, hleft, h⟩ := bind_ok.mp h
    have hruns := steps_execNode left hwf hleft
    dsimp only at h
    split at h
    · exact hruns.trans (steps_execNode right (hwf.of_runs hruns) h)
    · cases h; exact hruns
  | .sequence nodes invalid =>
    rw [execNodeWith] at h
    split at h
    · cases h; exact ReflTransGen.refl
    · exact steps_execSeq nodes hwf h

theorem steps_execSeq (nodes : List Ast) {sh sh' : Shell} {status status' : ℤ}
    (hwf : sh.WellFormed) (h : execSeqWith runJob nodes status sh = .ok (status', sh')) :
    Control.Runs ⟨sh.toJobSystem, none⟩ ⟨sh'.toJobSystem, none⟩ := by
  match nodes with
  | [] =>
    rw [execSeqWith] at h
    cases h
    exact ReflTransGen.refl
  | node :: nodes =>
    rw [execSeqWith] at h
    obtain ⟨⟨status₁, sh₁⟩, hnode, h⟩ := bind_ok.mp h
    have hruns := steps_execNode node hwf hnode
    exact hruns.trans (steps_execSeq nodes (hwf.of_runs hruns) h)

end

theorem steps_op {op : Op} {sh sh' : Shell} (hwf : sh.WellFormed) (h : op.run sh = .ok sh') :
    Control.Runs ⟨sh.toJobSystem, none⟩ ⟨sh'.toJobSystem, none⟩ := by
  cases op with
  | line node =>
    rw [Op.run] at h
    split at h
    · exact nomatch h
    obtain ⟨⟨status, sh₁⟩, hnode, h⟩ := bind_ok.mp h
    cases h
    exact steps_execNode node hwf hnode
  | hook events =>
    rw [Op.run] at h
    split at h
    · exact nomatch h
    · cases h
      rw [toJobSystem_handleSigchldEvents]
      exact steps_reap none events sh.toJobSystem

theorem steps_runOps (ops : List Op) :
    ∀ {sh sh' : Shell}, sh.WellFormed → runOps ops sh = .ok sh' →
      Control.Runs ⟨sh.toJobSystem, none⟩ ⟨sh'.toJobSystem, none⟩ := by
  induction ops with
  | nil =>
    intro sh sh' _ h
    cases h
    exact ReflTransGen.refl
  | cons op ops ih =>
    intro sh sh' hwf h
    obtain ⟨sh₁, hop, h⟩ := bind_ok.mp h
    have hruns := steps_op hwf hop
    exact hruns.trans (ih (hwf.of_runs hruns) h)

/-- Whatever a shell has done since it was started, to its jobs it was a run of the machine. -/
theorem runOps_steps {ops : List Op} {sh sh' : Shell} (hinit : sh.Initial)
    (h : runOps ops sh = .ok sh') : Control.Runs {} ⟨sh'.toJobSystem, none⟩ := by
  have hwf : sh.WellFormed := by
    rw [hinit]
    exact ⟨List.nodup_nil, fun _ h ↦ nomatch h⟩
  have hruns := steps_runOps ops hwf h
  rw [hinit] at hruns
  exact hruns

end Novash
