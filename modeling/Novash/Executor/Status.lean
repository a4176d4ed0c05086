import Novash.Executor.Membership
import Novash.Executor.PipeEnds

/-!
# What the status of a command says

`exec_node` is documented to return the exit status of the command, and `&&` and `||` act on what
`run_job` returns. The exit status of a process does arrive: the reaper keeps it in the record of
the process. But `handle_foreground_execution` returns 0 for every job that is not stopped, and
frees the record. So what `run_job` returns says nothing about how the processes ended: after any
command that was forked, `A && B` runs `B` and `A || B` does not.

The result has two halves. If `exec_node` returns, and no process of the job was stopped, the status
is 0. And if the processes end while the shell waits, it does return, unless it loses the job to the
end of another one in the same process group.
-/

namespace Novash

open Foundations ProcessState JobState CondOp

/-! ## Commands that are forked -/

/-- The job that a command or a pipeline is compiled to. -/
def Ast.compile (addr : ℕ) : Ast → Option Job
  | .cmd node false => some (compileCommandJob { addr } (.cmd node false))
  | .pipeline nodes false => some (compilePipelineJob { addr } nodes)
  | _ => none

/-- The shell in which a node was compiled and its job listed, and the context for the processes. -/
def enlisted (job : Job) (sh : Shell) : ExecutorCtx × Shell :=
  executorInitContext (enlist job { sh with heap := sh.heap + 1 }).2

/-- The node is a command or a pipeline in the foreground that has to be forked, and the forks
succeed: `job` is what the loop makes of it, and `sh₁` the shell then. -/
def Forks (node : Ast) (sh : Shell) (job : Job) (sh₁ : Shell) : Prop :=
  ∃ job₀, node.compile sh.heap = some job₀ ∧ job₀.processes ≠ [] ∧
    isPureBuiltin job₀.processes = .ok none ∧ job₀.isBackground = false ∧
    forkJob (enlist job₀ { sh with heap := sh.heap + 1 }).1 (enlisted job₀ sh).1
      (enlisted job₀ sh).2 = .ok (job, sh₁)

section

variable {node : Ast} {sh sh₁ : Shell} {job : Job}

theorem fresh_of_compile {addr : ℕ} (h : node.compile addr = some job) :
    job.Fresh ∧ job.addr = addr := by
  unfold Ast.compile at h
  split at h
  · obtain rfl := Option.some.inj h
    exact (Job.Fresh.new addr).compileCommandJob _
  · obtain rfl := Option.some.inj h
    exact (Job.Fresh.new addr).compilePipelineJob _
  · exact nomatch h

theorem execNode_of_compile (h : node.compile sh.heap = some job) :
    execNode node sh = runJob job { sh with heap := sh.heap + 1 } := by
  unfold Ast.compile at h
  split at h
  · obtain rfl := Option.some.inj h
    rw [execNode, execNodeWith]
    rfl
  · obtain rfl := Option.some.inj h
    rw [execNode, execNodeWith]
    rfl
  · exact nomatch h

/-- What the forks leave. -/
theorem launched_of_forks (h : Forks node sh job sh₁) :
    sh.Launched job ∧ job.addr = sh.heap ∧ job.isBackground = false ∧
      sh₁.toJobSystem = sh.toJobSystem.launch job ∧ sh₁.table.jobs = job :: sh.table.jobs := by
  obtain ⟨job₀, hcompile, hne, -, hbg, hfork⟩ := h
  obtain ⟨hfresh, haddr⟩ := fresh_of_compile hcompile
  obtain ⟨hlaunched, haddr', hid, hbg', hsys⟩ := forkJob_launch (s := sh.toJobSystem) hfork rfl rfl
    ⟨hfresh.pgid, hfresh.state, hfresh.live, hfresh.processes⟩ hne rfl
  refine ⟨hlaunched, haddr'.trans haddr, hbg'.trans hbg, hsys, ?_⟩
  rw [hsys, JobSystem.launch, JobSystem.add, jobsAddJob]
  have hjob : ({ job with id := jobsNewId sh.table } : Job) = job := by
    rw [← show job.id = jobsNewId sh.table from hid]
  rw [hjob]

/-- After the forks, what is left is the wait. -/
theorem execNode_of_forks (h : Forks node sh job sh₁) (status : ℤ) :
    (∃ sh', execNode node sh = .ok (status, sh'))
      ↔ ∃ sh₂, handleForegroundExecution job.addr sh₁ = .ok (status, sh₂) := by
  obtain ⟨-, -, hbg, -, -⟩ := launched_of_forks h
  obtain ⟨job₀, hcompile, hne, hbuiltin, -, hfork⟩ := h
  have hforked : execNode node sh = runForked (enlist job₀ { sh with heap := sh.heap + 1 }).1
      (enlist job₀ { sh with heap := sh.heap + 1 }).2 := by
    rw [execNode_of_compile hcompile, runJob_eq hne, hbuiltin]
    rfl
  have hexec : handleExecution job sh₁ = handleForegroundExecution job.addr sh₁ := by
    rw [handleExecution, if_neg (by rw [hbg]; exact Bool.false_ne_true)]
  rw [hforked, ← hexec]
  constructor
  · rintro ⟨sh', hrun⟩
    -- the forks are a function of the state, so these are the same
    obtain ⟨⟨job', sh₁'⟩, hfork', hrun⟩ := bind_ok.mp hrun
    obtain ⟨rfl, rfl⟩ := Prod.mk.inj (Except.ok.inj (hfork.symm.trans hfork'))
    obtain ⟨⟨status', sh₂⟩, hwait, hrun⟩ := bind_ok.mp hrun
    obtain ⟨rfl, -⟩ := Prod.mk.inj (Except.ok.inj hrun)
    exact ⟨sh₂, hwait⟩
  · rintro ⟨sh₂, hwait⟩
    exact ⟨_, bind_ok.mpr ⟨_, hfork, bind_ok.mpr ⟨_, hwait, rfl⟩⟩⟩

end

/-! ## A wait without stops -/

/-- The job at this address is not stopped, and has these processes. -/
def Unstopped (addr : ℕ) (pids : List ℕ) (s : JobSystem) : Prop :=
  ∀ job ∈ s.table.jobs, job.addr = addr → job.state ≠ jobStopped ∧ job.pids = pids

/-- No event is a stop of one of these processes. -/
def NoStops (pids : List ℕ) (events : List WaitEvent) : Prop :=
  ∀ ev ∈ events, ev.pid ∈ pids → ∀ sig, ev.status ≠ .stopped sig

theorem Job.mem_pids_of_find {t : JobTable} {pid : ℕ} {job : Job}
    (hfind : jobsFindProcessByPid t pid = some job) : pid ∈ job.pids := by
  obtain ⟨p, hp⟩ := exists_process?_of_find hfind
  exact List.mem_map.mpr ⟨p, pid_of_process? hp⟩

theorem Unstopped.reap {addr : ℕ} {pids : List ℕ} {s : JobSystem} {ev : WaitEvent}
    (h : Unstopped addr pids s) (hwf : s.WellFormed)
    (hev : ev.pid ∈ pids → ∀ sig, ev.status ≠ .stopped sig) : Unstopped addr pids (s.reap ev) := by
  rcases Control.reap_cases s ev with hsame | ⟨-, htable, -⟩
  · rw [hsame]
    exact h
  rcases s.table.reap_cases ev with ⟨-, hsame⟩ | ⟨job, hfind, hcases⟩
  · rw [Unstopped, htable, hsame]
    exact h
  have hderef := hwf.deref_of_find hfind
  -- the job of the event may be this one: then the event is not a stop
  have happlied : (job.applyStatus ev.pid ev.status).addr = addr →
      (job.applyStatus ev.pid ev.status).state ≠ jobStopped ∧
        (job.applyStatus ev.pid ev.status).pids = pids := by
    intro haddr
    rw [Job.addr_applyStatus] at haddr
    obtain ⟨hstate, hpids⟩ := h job (JobTable.mem_of_deref hderef) haddr
    refine ⟨?_, (job.pids_applyStatus _ _).trans hpids⟩
    have hstatus := hev (hpids ▸ Job.mem_pids_of_find hfind)
    cases hcase : ev.status with
    | stopped sig => exact absurd hcase (hstatus sig)
    | _ => exact hstate
  rw [Unstopped, htable]
  rcases hcases with ⟨-, -, hdone⟩ | ⟨-, happly⟩
  · rw [hdone, JobTable.jobs_markCompleted_applyStatus]
    intro j hj haddr
    rcases mem_modifyFirst hderef (List.eraseP_sublist.subset hj) with rfl | hj
    · exact ⟨(fun h ↦ nomatch h), (happlied haddr).2⟩
    · exact h j hj haddr
  · rw [happly, JobTable.jobs_applyStatus]
    intro j hj haddr
    rcases mem_modifyFirst hderef hj with rfl | hj
    · exact happlied haddr
    · exact h j hj haddr

theorem Unstopped.foldl_reap {addr : ℕ} {pids : List ℕ} (events : List WaitEvent) {s : JobSystem}
    (h : Unstopped addr pids s) (hwf : s.WellFormed) (hevents : NoStops pids events) :
    Unstopped addr pids (events.foldl JobSystem.reap s) := by
  induction events generalizing s with
  | nil => exact h
  | cons ev events ih =>
    exact ih (h.reap hwf (hevents ev List.mem_cons_self))
      (Control.wellFormed_step (.reap s none ev) hwf)
      fun e he ↦ hevents e (List.mem_cons_of_mem _ he)

theorem wakeups_of_xtcsetpgrp {pgid : ℕ} {sh sh' : Shell} (h : xtcsetpgrp pgid sh = .ok sh') :
    sh'.script.wakeups = sh.script.wakeups := by
  obtain ⟨_, rfl⟩ := eq_of_xtcsetpgrp h
  rfl

/-- The wait of a job that is not stopped, and does not stop, returns 0 if it returns. -/
theorem status_eq_zero_of_wait {addr : ℕ} {pids : List ℕ} {sh sh' : Shell} {status : ℤ}
    (hsh : Unstopped addr pids sh.toJobSystem) (hwf : sh.WellFormed)
    (hevents : NoStops pids (wakeupEvents sh.script.wakeups))
    (h : handleForegroundExecution addr sh = .ok (status, sh')) : status = 0 := by
  unfold handleForegroundExecution at h
  split at h
  · exact nomatch h
  obtain ⟨sh₁, hgrp, h⟩ := bind_ok.mp h
  obtain ⟨⟨stopped, sh₂⟩, hloop, h⟩ := bind_ok.mp h
  obtain ⟨events, job, hsys, hsub, hend⟩ := foregroundLoop_end _ hloop
  rw [wakeups_of_xtcsetpgrp hgrp] at hsub
  rw [toJobSystem_of_xtcsetpgrp hgrp] at hsys
  have hunstopped : Unstopped addr pids sh₂.toJobSystem := hsys ▸
    hsh.foldl_reap events hwf fun ev hev ↦ hevents ev (hsub hev)
  cases stopped with
  | true =>
    exact absurd (hend.of_stopped rfl) (hunstopped job (JobTable.mem_of_deref hend.deref)
      (JobTable.addr_of_deref hend.deref)).1
  | false =>
    simp only [Bool.false_eq_true, if_false] at h
    split at h
    · exact nomatch h
    obtain ⟨sh₃, -, h⟩ := bind_ok.mp h
    exact (Prod.mk.inj (Except.ok.inj h)).1.symm

/-! ## A wait that ends -/

/-- The job that the shell waits for, and no other one, is listed last and has these address and
group, and its records say which of its processes are left. -/
structure Awaited (s : JobSystem) (job : Job) : Prop where
  jobs : ∃ rest, s.table.jobs = job :: rest ∧
    ∀ j ∈ rest, j.addr ≠ job.addr ∧ j.pgid ≠ job.pgid
  live : job.LiveAgrees
  pids : job.HasPids
  state : job.state ≠ jobStopped
  foreground : job.isBackground = false
  child : ∀ p ∈ job.processes, p.state = processRunning ↔ ∃ k ∈ s.children, k.pid = p.pid

namespace Awaited

variable {s : JobSystem} {job : Job} {ev : WaitEvent}

/-- The search for one of its pids finds the job. -/
theorem find (h : Awaited s job) {pid : ℕ} (hpid : pid ∈ job.pids) :
    jobsFindProcessByPid s.table pid = some job := by
  obtain ⟨rest, hjobs, -⟩ := h.jobs
  obtain ⟨p, hp, rfl⟩ := List.mem_map.mp hpid
  have hhas : job.hasPid p.pid = true := List.any_eq_true.mpr ⟨p, hp, decide_eq_true rfl⟩
  rw [jobsFindProcessByPid, hjobs, List.find?_cons, hhas]

/-- An event leaves the children with other pids. -/
theorem child_reap_of_ne (s : JobSystem) {ev : WaitEvent} {pid : ℕ} (hne : pid ≠ ev.pid) :
    (∃ k ∈ s.children, k.pid = pid) ↔ ∃ k ∈ (s.reap ev).children, k.pid = pid := by
  refine exists_congr fun k ↦ ?_
  rw [s.mem_children_reap ev k, and_assoc]
  exact and_congr_right fun _ ↦
    ⟨fun hk ↦ ⟨fun hdead ↦ hne (hk.symm.trans hdead.2), hk⟩, And.right⟩

/-- An event about another process is one about another job, if about any. -/
theorem reap_of_notMem (h : Awaited s job) (hpid : ev.pid ∉ job.pids)
    (htable : (s.reap ev).table = s.table.reap ev) : Awaited (s.reap ev) job := by
  obtain ⟨rest, hjobs, hrest⟩ := h.jobs
  refine ⟨?_, h.live, h.pids, h.state, h.foreground, fun p hp ↦ (h.child p hp).trans ?_⟩
  · rcases s.table.reap_cases ev with ⟨-, hsame⟩ | ⟨x, hfind, hcases⟩
    · exact ⟨rest, by rw [htable, hsame, hjobs], hrest⟩
    -- the event is for a job further down, which does not end the group of this one
    have hx : x ∈ rest := by
      have hmem := List.mem_of_find?_eq_some hfind
      rw [hjobs] at hmem
      refine (List.mem_cons.mp hmem).resolve_left ?_
      rintro rfl
      exact hpid (Job.mem_pids_of_find hfind)
    obtain ⟨hne, hpgid⟩ := hrest x hx
    have hmodify : ∀ f : Job → Job, (s.table.modify x.addr f).jobs
        = job :: modifyFirst (fun j ↦ j.addr = x.addr) f rest := by
      intro f
      rw [JobTable.jobs_modify, hjobs, modifyFirst, if_neg (by simpa using hne.symm)]
    have hkept : ∀ f : Job → Job, Job.KeepsIdentity f →
        ∀ j ∈ modifyFirst (fun j ↦ j.addr = x.addr) f rest,
          j.addr ≠ job.addr ∧ j.pgid ≠ job.pgid := by
      intro f hf j hj
      rcases exists_of_mem_modifyFirst hj with ⟨i, hi, rfl | rfl⟩
      · exact hrest j hi
      · rw [hf.addr, hf.pgid]
        exact hrest i hi
    have hid := Job.keepsIdentity_applyStatus ev.pid ev.status
    rcases hcases with ⟨-, -, hdone⟩ | ⟨-, happly⟩
    · let f : Job → Job := fun j ↦ { j.applyStatus ev.pid ev.status with state := jobDone }
      have hjobs' : (s.reap ev).table.jobs = job ::
          (modifyFirst (fun j ↦ j.addr = x.addr) f rest).eraseP fun j ↦ j.pgid = x.pgid := by
        rw [htable, hdone, JobTable.jobs_markCompleted_applyStatus, hmodify, List.eraseP_cons,
          decide_eq_false hpgid.symm, cond_false]
      exact ⟨_, hjobs', fun j hj ↦ hkept f ⟨hid.addr, hid.pgid, hid.pids⟩ j
        (List.eraseP_sublist.subset hj)⟩
    · refine ⟨_, ?_, hkept _ hid⟩
      rw [htable, happly, JobTable.jobs_applyStatus]
      exact hmodify _
  · exact child_reap_of_ne s fun hsame ↦ hpid (hsame ▸ List.mem_map_of_mem hp)

/-- A child is left where a process is recorded as running, also after the event. -/
theorem child_modifyProcess {p : Process} {f : Process → Process} (h : Awaited s job)
    (hp : job.process? ev.pid = some p) (hchild : ∃ k ∈ s.children, k.pid = ev.pid)
    (hf : ∀ q, (f q).pid = q.pid)
    (hstate : (f p).state = processRunning ↔ ¬ev.status.isDeath = true) :
    ∀ q ∈ (job.modifyProcess ev.pid f).processes,
      (q.state = processRunning ↔ ∃ k ∈ (s.reap ev).children, k.pid = q.pid) := by
  have hppid := (Job.pid_of_process? hp).2
  intro q hq
  rcases mem_modifyFirst_of_nodup h.pids.nodup hp hq with rfl | ⟨hq, hne⟩
  · refine hstate.trans ⟨fun hlives ↦ ?_, ?_⟩
    · obtain ⟨k, hk, hkpid⟩ := hchild
      exact ⟨k, (s.mem_children_reap ev k).mpr ⟨hk, fun hdead ↦ hlives hdead.1⟩,
        hkpid.trans (hppid.symm.trans (hf p).symm)⟩
    · rintro ⟨k, hk, hkpid⟩ hdeath
      exact ((s.mem_children_reap ev k).mp hk).2 ⟨hdeath, hkpid.trans ((hf p).trans hppid)⟩
  · exact (h.child q hq).trans (child_reap_of_ne s (hppid ▸ hne))

/-- An event about one of its processes goes into its record. -/
theorem reap_of_mem (h : Awaited s job) (hpid : ev.pid ∈ job.pids)
    (hev : ∀ sig, ev.status ≠ .stopped sig) (hchild : ∃ k ∈ s.children, k.pid = ev.pid)
    (htable : (s.reap ev).table = s.table.reap ev) :
    Awaited (s.reap ev) (job.applyStatus ev.pid ev.status) := by
  obtain ⟨rest, hjobs, hrest⟩ := h.jobs
  -- the process was a child, so its record said that it runs
  obtain ⟨p, hp⟩ := Job.exists_process?_of_find (h.find hpid)
  obtain ⟨hmem, hppid⟩ := Job.pid_of_process? hp
  have hrun : p.state = processRunning := (h.child p hmem).mpr (hppid.symm ▸ hchild)
  have hid := Job.keepsIdentity_applyStatus ev.pid ev.status
  have hpids := h.pids.of_pids_eq (hid.pids job)
  refine ⟨⟨rest, ?_, ?_⟩, h.live.applied (h.pids.pos _ hpid) hp fun _ ↦ hrun, hpids, ?_,
    (job.isBackground_applyStatus _ _).trans h.foreground, ?_⟩
  · rcases s.table.reap_cases ev with ⟨hnone, -⟩ | ⟨x, hfind, hcases⟩
    · exact nomatch (h.find hpid).symm.trans hnone
    obtain rfl : job = x := Option.some.inj ((h.find hpid).symm.trans hfind)
    rcases hcases with ⟨-, hbg, -⟩ | ⟨-, happly⟩
    · exact absurd (h.foreground.symm.trans hbg) Bool.false_ne_true
    · rw [htable, happly, JobTable.jobs_applyStatus, hjobs, modifyFirst, if_pos (by simp)]
  · rwa [hid.addr, hid.pgid]
  · cases hcase : ev.status with
    | stopped sig => exact absurd hcase (hev sig)
    | _ => exact h.state
  · have hrecords := fun f ↦ h.child_modifyProcess (f := f) hp hchild
    cases hcase : ev.status with
    | exited status =>
      exact hrecords (fun p ↦ { p with state := processDone, status := status.toNat })
        (fun _ ↦ rfl) (by simp [hcase, WaitStatus.isDeath])
    | signaled sig =>
      exact hrecords (fun p ↦ { p with state := processKilled, status := sig })
        (fun _ ↦ rfl) (by simp [hcase, WaitStatus.isDeath])
    | stopped sig => exact absurd hcase (hev sig)
    | continued =>
      exact hrecords (fun p ↦ { p with state := processRunning })
        (fun _ ↦ rfl) (by simp [hcase, WaitStatus.isDeath])

/-- The job is awaited still after any event but a stop of one of its processes. -/
theorem reap (h : Awaited s job) (hev : ev.pid ∈ job.pids → ∀ sig, ev.status ≠ .stopped sig) :
    ∃ job', Awaited (s.reap ev) job' ∧
      job'.addr = job.addr ∧ job'.pgid = job.pgid ∧ job'.pids = job.pids := by
  rcases Control.reap_cases s ev with hsame | ⟨hchild, htable, -⟩
  · rw [hsame]
    exact ⟨job, h, rfl, rfl, rfl⟩
  by_cases hpid : ev.pid ∈ job.pids
  · have hid := Job.keepsIdentity_applyStatus ev.pid ev.status
    exact ⟨_, h.reap_of_mem hpid (hev hpid) hchild htable, hid.addr job, hid.pgid job, hid.pids job⟩
  · exact ⟨job, h.reap_of_notMem hpid htable, rfl, rfl, rfl⟩

theorem foldl_reap (events : List WaitEvent) :
    ∀ {s : JobSystem} {job : Job}, Awaited s job → NoStops job.pids events →
      ∃ job', Awaited (events.foldl JobSystem.reap s) job' ∧
        job'.addr = job.addr ∧ job'.pgid = job.pgid ∧ job'.pids = job.pids := by
  induction events with
  | nil => exact fun h _ ↦ ⟨_, h, rfl, rfl, rfl⟩
  | cons ev events ih =>
    intro s job h hevents
    obtain ⟨job₁, h₁, haddr₁, hpgid₁, hpids₁⟩ := h.reap (hevents ev List.mem_cons_self)
    obtain ⟨job₂, h₂, haddr₂, hpgid₂, hpids₂⟩ := ih h₁ fun e he hpid ↦
      hevents e (List.mem_cons_of_mem _ he) (hpids₁ ▸ hpid)
    exact ⟨job₂, h₂, haddr₂.trans haddr₁, hpgid₂.trans hpgid₁, hpids₂.trans hpids₁⟩

theorem deref (h : Awaited s job) : s.table.deref job.addr = some job := by
  obtain ⟨rest, hjobs, -⟩ := h.jobs
  rw [JobTable.deref, hjobs, List.find?_cons, decide_eq_true rfl]

/-- When no child is left the counter is zero. -/
theorem live_eq_zero (h : Awaited s job) (hdead : ∀ k ∈ s.children, k.pid ∉ job.pids) :
    job.liveProcesses = 0 := by
  have hcount : job.liveCount = 0 := by
    refine List.countP_eq_zero.mpr fun p hp hlive ↦ ?_
    rw [Process.live, Bool.and_eq_true] at hlive
    obtain ⟨k, hk, hkpid⟩ := (h.child p hp).mp (of_decide_eq_true hlive.2)
    exact hdead k hk (hkpid ▸ List.mem_map_of_mem hp)
  rw [h.live.live, hcount]
  rfl

end Awaited

/-- The children that are left after some events are those about which no death was reported. -/
theorem children_foldl_reap (events : List WaitEvent) (s : JobSystem) (k : Child) :
    k ∈ (events.foldl JobSystem.reap s).children
      ↔ k ∈ s.children ∧ ∀ ev ∈ events, ¬(ev.status.isDeath = true ∧ k.pid = ev.pid) := by
  induction events generalizing s with
  | nil => simp
  | cons ev events ih =>
    rw [List.foldl_cons, ih, s.mem_children_reap ev k, and_assoc, List.forall_mem_cons]

/-- The loop ends if all processes of the job do. -/
theorem foregroundLoop_of_awaited (wakeups : List (List SignalfdSiginfo)) :
    ∀ {sh : Shell} {job : Job}, Awaited sh.toJobSystem job →
      NoStops job.pids (wakeupEvents wakeups) →
      (∀ k ∈ ((wakeupEvents wakeups).foldl JobSystem.reap sh.toJobSystem).children,
        k.pid ∉ job.pids) →
      ∃ sh' job', foregroundLoop job.addr wakeups sh = .ok (false, sh') ∧
        Awaited sh'.toJobSystem job' ∧ job'.addr = job.addr ∧ sh'.fds = sh.fds := by
  induction wakeups with
  | nil =>
    intro sh job h _ hdead
    rw [foregroundLoop, h.deref]
    dsimp only
    rw [if_pos (h.live_eq_zero hdead)]
    exact ⟨_, job, rfl, h, rfl, rfl⟩
  | cons signals wakeups ih =>
    intro sh job h hstops hdead
    rw [foregroundLoop, h.deref]
    dsimp only
    by_cases hlive : job.liveProcesses = 0
    · rw [if_pos hlive]
      exact ⟨_, job, rfl, h, rfl, rfl⟩
    rw [if_neg hlive]
    have hsys := toJobSystem_foldl_handleSignal signals sh
    obtain ⟨job₁, h₁, haddr, -, hpids⟩ := h.foldl_reap (signals.flatMap SignalfdSiginfo.events)
      fun ev hev ↦ hstops ev (List.mem_append_left _ hev)
    rw [← hsys] at h₁
    -- no event was a stop: the loop goes on
    rw [← haddr, h₁.deref]
    dsimp only
    rw [if_neg h₁.state]
    obtain ⟨sh', job', hloop, h', haddr', hfds⟩ := ih h₁
      (fun ev hev ↦ hpids ▸ hstops ev (List.mem_append_right _ hev)) (by
        rw [hsys, hpids, ← List.foldl_append]
        exact hdead)
    exact ⟨sh', job', hloop, h', haddr', hfds.trans (onlyJobs_foldl_handleSignal signals sh).fds⟩

/-- The wait ends, and its result is 0. -/
theorem wait_of_awaited {sh : Shell} {job : Job} (h : Awaited sh.toJobSystem job)
    (htty : sh.tty = true) (hpos : 0 < job.pgid) (hgroup : ∃ k ∈ sh.children, k.pgid = job.pgid)
    (hstops : NoStops job.pids (wakeupEvents sh.script.wakeups))
    (hdead : ∀ k ∈ ((wakeupEvents sh.script.wakeups).foldl JobSystem.reap sh.toJobSystem).children,
      k.pid ∉ job.pids) :
    ∃ sh', handleForegroundExecution job.addr sh = .ok (0, sh') := by
  obtain ⟨sh', job', hloop, h', haddr, hfds⟩ := foregroundLoop_of_awaited _ h hstops hdead
  -- the loop leaves the terminal as it was
  have hregain : ∀ sh'' : Shell, sh''.fds = sh.fds → shellRegainControl sh'' = .ok sh'' :=
    fun sh'' hsame ↦ shellRegainControl_of_tty (by rw [Shell.tty, hsame]; exact htty)
  refine ⟨{ sh' with table := (jobsRemoveJob sh'.table job'.pgid).2 }, ?_⟩
  unfold handleForegroundExecution
  rw [h.deref]
  have hgrp := xtcsetpgrp_of_group htty hpos hgroup
  refine bind_ok.mpr ⟨sh, hgrp, bind_ok.mpr ⟨(false, sh'), hloop, ?_⟩⟩
  simp only [Bool.false_eq_true, if_false, ← haddr, h'.deref]
  exact bind_ok.mpr ⟨_, hregain _ hfds, rfl⟩

/-! ## Status -/

/-- What the loop over the processes leaves of the shell around it. -/
theorem wakeups_of_forkLoop (rest : List Process) :
    ∀ {job job' : Job} {ctx : ExecutorCtx} {sh sh' : Shell},
      forkLoop rest job ctx sh = .ok (job', sh') → sh'.script.wakeups = sh.script.wakeups := by
  induction rest with
  | nil =>
    intro job job' ctx sh sh' h
    cases h
    rfl
  | cons proc rest ih =>
    intro job job' ctx sh sh' h
    obtain ⟨pid, sh₁, hturn, hrest⟩ := forkLoop_cons h
    exact (ih hrest).trans hturn.wakeups

section

variable {node : Ast} {sh sh₁ : Shell} {job : Job}

/-- Descriptor 0 of the shell, if open, is the same after the forks. -/
theorem get_zero_of_forkJob {job' : Job}
    (hfork : forkJob (enlist job sh).1 (executorInitContext (enlist job sh).2).1
      (executorInitContext (enlist job sh).2).2 = .ok (job', sh₁))
    (hopen : sh.fds.get 0 ≠ none) : sh₁.fds.get 0 = sh.fds.get 0 := by
  obtain ⟨⟨job₁, sh₂⟩, hloop, hfork⟩ := bind_ok.mp hfork
  obtain ⟨-, rfl⟩ := Prod.mk.inj (Except.ok.inj hfork)
  obtain ⟨hapart, hstandard⟩ := @apart_executorInitContext 1 (enlist job sh).2 fun fd hfd ↦ by
    obtain rfl := Nat.lt_one_iff.mp hfd
    exact hopen
  calc sh₂.fds.get 0
    _ = (executorInitContext (enlist job sh).2).2.fds.get 0 :=
      standard_of_forkLoop _ (fun _ ↦ hapart) hloop 0 Nat.zero_lt_one
    _ = sh.fds.get 0 := hstandard 0 Nat.zero_lt_one

theorem shell_of_forks (h : Forks node sh job sh₁) :
    (sh.tty = true → sh₁.tty = true) ∧ sh₁.script.wakeups = sh.script.wakeups := by
  obtain ⟨job₀, -, -, -, -, hfork⟩ := h
  refine ⟨fun htty ↦ ?_, ?_⟩
  · have hopen : sh.fds.get 0 ≠ none := fun hnone ↦ by
      rw [Shell.tty, hnone] at htty
      cases htty
    rw [Shell.tty, get_zero_of_forkJob hfork hopen]
    exact htty
  · obtain ⟨⟨job', sh'⟩, hloop, hfork⟩ := bind_ok.mp hfork
    obtain ⟨-, rfl⟩ := Prod.mk.inj (Except.ok.inj hfork)
    have hwakeups := wakeups_of_forkLoop _ hloop
    exact hwakeups

theorem awaited_of_forks (h : Forks node sh job sh₁) (hwf : sh.WellFormed)
    (hgroup : ∀ j ∈ sh.table.jobs, j.pgid ≠ job.pgid) :
    Awaited sh₁.toJobSystem job ∧ 0 < job.pgid ∧ ∃ k ∈ sh₁.children, k.pgid = job.pgid := by
  obtain ⟨hlaunched, haddr, hbg, hsys, hjobs⟩ := launched_of_forks h
  have hpids : job.HasPids :=
    ⟨List.forall_mem_map.mpr hlaunched.pid_pos, List.forall_mem_map.mpr hlaunched.pid_lt,
      hlaunched.nodup⟩
  have hkids : ∀ p ∈ job.processes, (⟨p.pid, job.pgid, job.addr⟩ : Child) ∈ sh₁.children := by
    intro p hp
    rw [hsys]
    exact List.mem_append_right _ (List.mem_map.mpr ⟨p, hp, rfl⟩)
  have hhead := List.mem_of_mem_head? hlaunched.pgid
  obtain ⟨p, hp, -⟩ := List.mem_map.mp hhead
  refine ⟨⟨⟨_, hjobs, fun j hj ↦ ⟨fun hsame ↦ ?_, hgroup j hj⟩⟩,
    Job.LiveAgrees.launched job.id hlaunched, hpids, ?_, hbg, fun p hp ↦ ?_⟩,
    hpids.pos _ hhead, _, hkids p hp, rfl⟩
  · have hlt := hwf.lt_heap j.addr (List.mem_map_of_mem hj)
    exact absurd (hsame.trans haddr) hlt.ne
  · exact fun hstopped ↦ nomatch hlaunched.state.symm.trans hstopped
  · exact iff_of_true (hlaunched.running p hp) ⟨_, hkids p hp, rfl⟩

/-- A forked job that no stop interrupts has the status 0. -/
theorem status_eq_zero (h : Forks node sh job sh₁) (hwf : sh.WellFormed)
    (hstops : NoStops job.pids (wakeupEvents sh.script.wakeups)) {status : ℤ} {sh' : Shell}
    (hrun : execNode node sh = .ok (status, sh')) : status = 0 := by
  obtain ⟨sh₂, hwait⟩ := (execNode_of_forks h status).mp ⟨sh', hrun⟩
  obtain ⟨hlaunched, haddr, -, hsys, hjobs⟩ := launched_of_forks h
  have hwf₁ : sh₁.WellFormed := by
    rw [hsys]
    exact Control.wellFormed_step (.launch sh.toJobSystem job haddr hlaunched) hwf
  refine status_eq_zero_of_wait (fun j hj hsame ↦ ?_) hwf₁ ((shell_of_forks h).2 ▸ hstops) hwait
  rw [hjobs] at hj
  rcases List.mem_cons.mp hj with rfl | hj
  · exact ⟨(fun hstopped ↦ nomatch hlaunched.state.symm.trans hstopped), rfl⟩
  · have hlt := hwf.lt_heap j.addr (List.mem_map_of_mem hj)
    exact absurd (hsame.trans haddr) hlt.ne

/-- It returns, if the processes end while the shell waits. -/
theorem returns_of_forks (h : Forks node sh job sh₁) (hwf : sh.WellFormed) (htty : sh.tty = true)
    (hgroup : ∀ j ∈ sh.table.jobs, j.pgid ≠ job.pgid)
    (hstops : NoStops job.pids (wakeupEvents sh.script.wakeups))
    (hdead : ∀ pid ∈ job.pids, ∃ ev ∈ wakeupEvents sh.script.wakeups,
      ev.status.isDeath = true ∧ ev.pid = pid) :
    ∃ status sh', execNode node sh = .ok (status, sh') := by
  obtain ⟨hawaited, hpos, hkid⟩ := awaited_of_forks h hwf hgroup
  obtain ⟨htty₁, hwakeups⟩ := shell_of_forks h
  refine ⟨0, (execNode_of_forks h 0).mpr
    (wait_of_awaited hawaited (htty₁ htty) hpos hkid (hwakeups ▸ hstops) fun k hk hpid ↦ ?_)⟩
  obtain ⟨ev, hev, hdeath, hevpid⟩ := hdead k.pid hpid
  exact ((children_foldl_reap _ _ k).mp hk).2 ev (hwakeups ▸ hev) ⟨hdeath, hevpid.symm⟩

end

/-- The last process of the job exits, with status 0. -/
def LastExitsZero (job : Job) (events : List WaitEvent) : Prop :=
  ∃ last, job.processes.getLast? = some last ∧
    (events.find? fun ev ↦ ev.pid = last.pid && ev.status.isDeath).map WaitEvent.status
      = some (.exited 0)

/-- Whatever stands to the right of the operator is executed after the node. -/
def RunsRight (node : Ast) (op : CondOp) (sh : Shell) : Prop :=
  ∃ status sh', execNode node sh = .ok (status, sh') ∧
    ∀ right, execNode (.conditional node right op false) sh = execNode right sh'

/-- The status of the node is 0, and `&&` and `||` take it for a success, if and only if it is. -/
structure StatusTells (node : Ast) (sh : Shell) (success : Prop) : Prop where
  status : ∀ status sh', execNode node sh = .ok (status, sh') → (status = 0 ↔ success)
  and : RunsRight node condAnd sh ↔ success
  or : RunsRight node condOr sh ↔ ¬success

theorem execNode_conditional {node : Ast} {op : CondOp} {sh sh' : Shell} {status : ℤ}
    (h : execNode node sh = .ok (status, sh')) (right : Ast) :
    execNode (.conditional node right op false) sh
      = if (op = condAnd ∧ status = 0) ∨ (op = condOr ∧ status ≠ 0) then execNode right sh'
        else .ok (status, sh') := by
  rw [execNode] at h ⊢
  rw [execNodeWith, if_neg Bool.false_ne_true, h]
  rfl

/-- After a status of 0, `&&` goes on and `||` does not. -/
theorem runsRight_of_zero {node : Ast} {sh sh' : Shell} (h : execNode node sh = .ok (0, sh')) :
    RunsRight node condAnd sh ∧ ¬RunsRight node condOr sh := by
  refine ⟨⟨0, sh', h, fun right ↦ ?_⟩, ?_⟩
  · rw [execNode_conditional h, if_pos (Or.inl ⟨rfl, rfl⟩)]
  · rintro ⟨status, sh'', h', hright⟩
    obtain ⟨rfl, rfl⟩ := Prod.mk.inj (Except.ok.inj (h.symm.trans h'))
    have hnull := hright .null
    rw [execNode_conditional h, if_neg (by simp), execNode, execNodeWith] at hnull
    exact absurd (Prod.mk.inj (Except.ok.inj hnull)).1 (by decide)

/-- Whenever a forked foreground job without stops returns, its status tells whether the last
process exited with 0 exactly if it did. And it does return, on a terminal, if all its processes end
while the shell waits and no other listed job has its process group. -/
theorem statusTells_iff {node : Ast} {sh sh₁ : Shell} {job : Job} (hforks : Forks node sh job sh₁)
    (hwf : sh.WellFormed) (hstops : NoStops job.pids (wakeupEvents sh.script.wakeups)) :
    ((∃ status sh', execNode node sh = .ok (status, sh')) →
      (StatusTells node sh (LastExitsZero job (wakeupEvents sh.script.wakeups))
        ↔ LastExitsZero job (wakeupEvents sh.script.wakeups))) ∧
    (sh.tty = true → (∀ j ∈ sh.table.jobs, j.pgid ≠ job.pgid) →
      (∀ pid ∈ job.pids, ∃ ev ∈ wakeupEvents sh.script.wakeups,
        ev.status.isDeath = true ∧ ev.pid = pid) →
      ∃ status sh', execNode node sh = .ok (status, sh')) := by
  refine ⟨?_, fun htty hgroup hdead ↦ returns_of_forks hforks hwf htty hgroup hstops hdead⟩
  rintro ⟨status, sh', hrun⟩
  obtain rfl := status_eq_zero hforks hwf hstops hrun
  obtain ⟨hand, hor⟩ := runsRight_of_zero hrun
  refine ⟨fun htells ↦ (htells.status 0 sh' hrun).mp rfl, fun hzero ↦ ⟨fun status sh'' h ↦ ?_,
    iff_of_true hand hzero, iff_of_false hor (not_not.mpr hzero)⟩⟩
  exact iff_of_true (status_eq_zero hforks hwf hstops h) hzero

/-- `a | b`, of which `b` exits first, with 0, and `a` then with 1. -/
theorem statusTells_iff_pipeline :
    ∃ node sh job sh₁, Forks node sh job sh₁ ∧ job.pids = [10, 11] ∧
      sh.script.wakeups = [[.sigchld [⟨11, .exited 0⟩]], [.sigchld [⟨10, .exited 1⟩]]] ∧
      (∃ status sh', execNode node sh = .ok (status, sh')) ∧
      StatusTells node sh (LastExitsZero job (wakeupEvents sh.script.wakeups)) := by
  have heval : (forkJob (enlist (compilePipelineJob { addr := 0 }
      [.word ['a'] false, .word ['b'] false]) { Shell.onTerminal { pids := [10, 11], wakeups :=
        [[.sigchld [⟨11, .exited 0⟩]], [.sigchld [⟨10, .exited 1⟩]]] } with heap := 1 }).1
      (enlisted (compilePipelineJob { addr := 0 } [.word ['a'] false, .word ['b'] false])
        (.onTerminal { pids := [10, 11], wakeups :=
          [[.sigchld [⟨11, .exited 0⟩]], [.sigchld [⟨10, .exited 1⟩]]] })).1
      (enlisted (compilePipelineJob { addr := 0 } [.word ['a'] false, .word ['b'] false])
        (.onTerminal { pids := [10, 11], wakeups :=
          [[.sigchld [⟨11, .exited 0⟩]], [.sigchld [⟨10, .exited 1⟩]]] })).2).toOption.map
        (fun r ↦ (r.1.pids, r.1.processes.getLast?.map Process.pid))
      = some ([10, 11], some 11) := by decide +kernel
  obtain ⟨⟨job, sh₁⟩, hfork, heq⟩ := exists_of_map_eq heval
  obtain ⟨hpids, hlast⟩ := Prod.mk.inj heq
  obtain ⟨last, hlast, hpid⟩ := Option.map_eq_some_iff.mp hlast
  have hforks : Forks (.pipeline [.word ['a'] false, .word ['b'] false] false) _ job sh₁ :=
    ⟨_, rfl, (fun h ↦ nomatch h), rfl, rfl, hfork⟩
  have hresult := statusTells_iff hforks ⟨List.nodup_nil, fun _ h ↦ nomatch h⟩
    (fun ev hev _ sig hsig ↦ by
      rcases List.mem_pair.mp hev with rfl | rfl <;> exact nomatch hsig)
  have hreturns := hresult.2 (by decide) (fun _ h ↦ nomatch h) (by rw [hpids]; decide)
  refine ⟨_, _, job, sh₁, hforks, hpids, rfl, hreturns, (hresult.1 hreturns).mpr ?_⟩
  exact ⟨last, hlast, by rw [hpid]; decide⟩

/-- `a` exits with 1: the status is 0. -/
theorem not_statusTells :
    ¬ ∀ (node : Ast) (sh sh₁ : Shell) (job : Job), Forks node sh job sh₁ → sh.WellFormed →
      NoStops job.pids (wakeupEvents sh.script.wakeups) → sh.tty = true →
      (∀ j ∈ sh.table.jobs, j.pgid ≠ job.pgid) →
      (∀ pid ∈ job.pids, ∃ ev ∈ wakeupEvents sh.script.wakeups,
        ev.status.isDeath = true ∧ ev.pid = pid) →
      StatusTells node sh (LastExitsZero job (wakeupEvents sh.script.wakeups)) := by
  intro hclaim
  have heval : (forkJob (enlist (compileCommandJob { addr := 0 } (.word ['a'] false))
      { Shell.onTerminal { pids := [10], wakeups := [[.sigchld [⟨10, .exited 1⟩]]] } with
        heap := 1 }).1
      (enlisted (compileCommandJob { addr := 0 } (.word ['a'] false))
        (.onTerminal { pids := [10], wakeups := [[.sigchld [⟨10, .exited 1⟩]]] })).1
      (enlisted (compileCommandJob { addr := 0 } (.word ['a'] false))
        (.onTerminal { pids := [10], wakeups := [[.sigchld [⟨10, .exited 1⟩]]] })).2).toOption.map
        (fun r ↦ (r.1.pids, r.1.processes.getLast?.map Process.pid)) = some ([10], some 10) := by
    decide +kernel
  have hstatus : (execNode (.word ['a'] false)
      (.onTerminal { pids := [10], wakeups := [[.sigchld [⟨10, .exited 1⟩]]] })).toOption.map
        Prod.fst = some 0 := by decide +kernel
  obtain ⟨⟨job, sh₁⟩, hfork, heq⟩ := exists_of_map_eq heval
  obtain ⟨hpids, hlast⟩ := Prod.mk.inj heq
  obtain ⟨⟨status, sh'⟩, hrun, rfl⟩ := exists_of_map_eq hstatus
  have hforks : Forks (.word ['a'] false) _ job sh₁ :=
    ⟨_, rfl, (fun h ↦ nomatch h), rfl, rfl, hfork⟩
  have htells := hclaim _ _ sh₁ job hforks ⟨List.nodup_nil, fun _ h ↦ nomatch h⟩
    (fun ev hev _ sig hsig ↦ by obtain rfl := List.mem_singleton.mp hev; exact nomatch hsig)
    (by decide) (fun _ h ↦ nomatch h) (by rw [hpids]; decide)
  obtain ⟨last, hlast', hzero⟩ := (htells.status 0 sh' hrun).mp rfl
  rw [hlast', Option.map_some, Option.some.injEq] at hlast
  rw [hlast] at hzero
  exact absurd hzero (by decide)

end Novash
