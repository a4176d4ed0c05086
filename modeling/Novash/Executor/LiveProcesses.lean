import Novash.Executor.Refinement

/-!
# The count of live processes

`live_processes` should be the number of the job's processes that are recorded as running. It is
decremented for every process that exits or is killed, whatever its record says, while a stop sets
it to zero and a continue event leaves it alone. So it goes wrong as soon as an event other than a
stop finds a process that is not recorded as running: one that is stopped is killed, one member of
a stopped pipeline exits, or a stopped process is continued from outside.

Stops are never the problem: they set the counter to zero and every running record to stopped.
-/

namespace Novash

open Foundations ProcessState JobState

/-- An event other than a stop finds a process that is recorded as running. -/
def HitsRunning (t : JobTable) (ev : WaitEvent) : Prop :=
  (∀ sig, ev.status ≠ .stopped sig) → ∀ job p, jobsFindProcessByPid t ev.pid = some job →
    job.process? ev.pid = some p → p.state = processRunning

/-! ## The records of one job -/

namespace Job

def pids (job : Job) : List ℕ := job.processes.map Process.pid

/-- The job has been forked: its processes have pids of their own. -/
structure HasPids (job : Job) : Prop where
  pos : ∀ pid ∈ job.pids, 0 < pid
  lt : ∀ pid ∈ job.pids, pid < 2 ^ 31
  nodup : job.pids.Nodup

/-- The job has not been forked, as that of a builtin. -/
def Unforked (job : Job) : Prop := ∀ p ∈ job.processes, p.pid = 0 ∧ p.state = processRunning

/-- The counter agrees with the records. -/
structure LiveAgrees (job : Job) : Prop where
  live : job.liveProcesses = UInt32.ofNat job.liveCount
  pids : job.HasPids ∨ job.Unforked

theorem HasPids.of_pids_eq {job job' : Job} (h : job.HasPids) (hpids : job'.pids = job.pids) :
    job'.HasPids :=
  ⟨hpids ▸ h.pos, hpids ▸ h.lt, hpids ▸ h.nodup⟩

/-- A job with distinct pids has few enough processes for its counter not to wrap. -/
theorem HasPids.liveCount_lt {job : Job} (h : job.HasPids) : job.liveCount < 2 ^ 32 := by
  have hlen : job.pids.length ≤ 2 ^ 31 := length_le_of_nodup_lt h.nodup h.lt
  rw [pids, List.length_map] at hlen
  have hle : job.liveCount ≤ job.processes.length := List.countP_le_length
  omega

theorem liveCount_of_unforked {job : Job} (h : job.Unforked) : job.liveCount = 0 := by
  refine List.countP_eq_zero.mpr fun p hp ↦ ?_
  simp [Process.live, Process.forked, (h p hp).1]

theorem LiveAgrees.toNat {job : Job} (h : job.LiveAgrees) :
    job.liveProcesses.toNat = job.liveCount := by
  have hlt : job.liveCount < 2 ^ 32 := by
    rcases h.pids with hpids | hun
    · exact hpids.liveCount_lt
    · rw [liveCount_of_unforked hun]
      decide
  rw [h.live, UInt32.toNat_ofNat_of_lt' hlt]

/-! ### New jobs -/

theorem LiveAgrees.fresh {job : Job} (id : ℕ) (h : job.Fresh) :
    LiveAgrees { job with id } where
  live := by
    have hun : job.Unforked := h.processes
    have hcount : liveCount { job with id } = 0 := liveCount_of_unforked hun
    rw [hcount]
    exact h.live
  pids := Or.inr h.processes

theorem LiveAgrees.launched {s : JobSystem} {job : Job} (id : ℕ) (h : s.Launched job) :
    LiveAgrees { job with id } where
  live := by
    have hcount : liveCount { job with id } = job.processes.length := by
      refine List.countP_eq_length.mpr fun p hp ↦ ?_
      simp [Process.live, Process.forked, h.running p hp, (h.pid_pos p hp).ne']
    rw [hcount]
    exact h.live
  pids := Or.inl
    ⟨List.forall_mem_map.mpr h.pid_pos, List.forall_mem_map.mpr h.pid_lt, h.nodup⟩

/-! ### Events -/

theorem pids_modifyProcess (job : Job) (pid : ℕ) (f : Process → Process)
    (hf : ∀ p, (f p).pid = p.pid) : (job.modifyProcess pid f).pids = job.pids :=
  map_modifyFirst Process.pid hf job.processes

theorem pids_markStopped (job : Job) : job.markStopped.pids = job.pids := by
  rw [pids, markStopped, List.map_map, pids]
  refine List.map_congr_left fun p _ ↦ ?_
  simp only [Function.comp_apply]
  split <;> rfl

theorem pids_markContinued (job : Job) : job.markContinued.pids = job.pids := by
  rw [pids, markContinued, List.map_map, pids]
  refine List.map_congr_left fun p _ ↦ ?_
  simp only [Function.comp_apply]
  split <;> rfl

theorem pids_applyStatus (pid : ℕ) (status : WaitStatus) (job : Job) :
    (job.applyStatus pid status).pids = job.pids := by
  cases status with
  | exited status => exact job.pids_modifyProcess pid _ fun _ ↦ rfl
  | signaled sig => exact job.pids_modifyProcess pid _ fun _ ↦ rfl
  | stopped sig => exact (pids_markStopped _).trans (job.pids_modifyProcess pid _ fun _ ↦ rfl)
  | continued => exact job.pids_modifyProcess pid _ fun _ ↦ rfl

/-- Nothing is recorded as running once the job is marked as stopped. -/
theorem liveCount_markStopped (job : Job) : job.markStopped.liveCount = 0 := by
  refine List.countP_eq_zero.mpr fun p hp ↦ ?_
  obtain ⟨q, -, rfl⟩ := List.mem_map.mp hp
  by_cases hq : q.state = processRunning
  · simp [Process.live, hq]
  · simp [Process.live, hq]

/-- A running process ends. -/
theorem liveCount_modifyProcess {job : Job} {pid : ℕ} {p : Process} (f : Process → Process)
    (hp : job.process? pid = some p) :
    (job.modifyProcess pid f).liveCount + (if p.live then 1 else 0)
      = job.liveCount + if (f p).live then 1 else 0 := countP_modifyFirst hp

theorem pid_of_process? {job : Job} {pid : ℕ} {p : Process} (hp : job.process? pid = some p) :
    p ∈ job.processes ∧ p.pid = pid :=
  ⟨List.mem_of_find?_eq_some hp, by simpa using List.find?_some hp⟩

theorem exists_process?_of_find {t : JobTable} {pid : ℕ} {job : Job}
    (hfind : jobsFindProcessByPid t pid = some job) : ∃ p, job.process? pid = some p := by
  have hhas := List.find?_some hfind
  exact Option.isSome_iff_exists.mp (List.find?_isSome.mpr (List.any_eq_true.mp hhas))

theorem hasPids_of_process? {job : Job} {pid : ℕ} {p : Process} (h : job.HasPids ∨ job.Unforked)
    (hpid : 0 < pid) (hp : job.process? pid = some p) : job.HasPids :=
  h.resolve_right fun hun ↦ by
    have hzero := (hun p (pid_of_process? hp).1).1
    rw [(pid_of_process? hp).2] at hzero
    exact hpid.ne' hzero

theorem LiveAgrees.applied {job : Job} {pid : ℕ} {status : WaitStatus} {p : Process}
    (h : job.LiveAgrees) (hpid : 0 < pid) (hp : job.process? pid = some p)
    (hrun : (∀ sig, status ≠ .stopped sig) → p.state = processRunning) :
    (job.applyStatus pid status).LiveAgrees where
  pids := Or.inl ((hasPids_of_process? h.pids hpid hp).of_pids_eq (job.pids_applyStatus pid status))
  live := by
    have hforked : p.forked = true := by
      rw [Process.forked, (pid_of_process? hp).2]
      exact decide_eq_true hpid.ne'
    have hlive : p.state = processRunning → p.live = true := fun hstate ↦ by
      rw [Process.live, hforked, hstate]
      rfl
    -- a process that ends was counted, and is not any more
    have hend : ∀ f : Process → Process, p.live = true → (f p).live = false →
        job.liveProcesses - 1 = UInt32.ofNat (job.modifyProcess pid f).liveCount := by
      intro f hbefore hafter
      have hcount := liveCount_modifyProcess f hp
      rw [if_pos hbefore, if_neg (by rw [hafter]; exact Bool.false_ne_true)] at hcount
      have hsucc : job.liveCount = (job.modifyProcess pid f).liveCount + 1 := hcount.symm
      rw [h.live, hsucc, UInt32.ofNat_add]
      exact UInt32.add_sub_cancel _ _
    cases status with
    | exited status =>
      exact hend _ (hlive (hrun fun _ h ↦ nomatch h)) (Bool.and_false _)
    | signaled sig =>
      exact hend _ (hlive (hrun fun _ h ↦ nomatch h)) (Bool.and_false _)
    | stopped sig =>
      have hzero : (job.applyStatus pid (.stopped sig)).liveCount = 0 := liveCount_markStopped _
      rw [hzero]
      rfl
    | continued =>
      have hbefore := hlive (hrun fun _ h ↦ nomatch h)
      have hcount := liveCount_modifyProcess (fun p ↦ { p with state := processRunning }) hp
      have hafter : Process.live { p with state := processRunning } = true := by
        rw [Process.live]
        exact (congrArg (· && true) hforked).trans rfl
      rw [if_pos hbefore, if_pos hafter] at hcount
      exact h.live.trans (congrArg UInt32.ofNat (Nat.add_right_cancel hcount).symm)

/-! ### Continuing -/

theorem foldl_stopped (ps : List Process) (n : UInt32) :
    ps.foldl (fun n p ↦ if p.state = processStopped then n + 1 else n) n
      = n + UInt32.ofNat (ps.countP fun p ↦ p.state = processStopped) := by
  induction ps generalizing n with
  | nil => exact (UInt32.add_zero n).symm
  | cons p ps ih =>
    rw [List.foldl_cons, ih, List.countP_cons]
    by_cases hp : p.state = processStopped
    · simp only [hp, if_true, decide_true]
      rw [UInt32.ofNat_add, UInt32.add_assoc, UInt32.add_comm 1]
      rfl
    · simp only [hp, if_false, decide_false, Bool.false_eq_true, Nat.add_zero]

/-- The records that were stopped are counted as well. -/
theorem countP_continued (ps : List Process) (hps : ∀ p ∈ ps, 0 < p.pid) :
    (ps.map fun p ↦
        if p.state = processStopped then { p with state := processRunning } else p).countP
        Process.live
      = ps.countP Process.live + ps.countP fun p ↦ p.state = processStopped := by
  induction ps with
  | nil => rfl
  | cons p ps ih =>
    have hforked : p.forked = true := decide_eq_true (hps p List.mem_cons_self).ne'
    rw [List.map_cons, List.countP_cons, List.countP_cons, List.countP_cons,
      ih fun q hq ↦ hps q (List.mem_cons_of_mem p hq)]
    by_cases hp : p.state = processStopped
    · have hold : ¬p.live = true := by rw [Process.live, hp, hforked]; decide
      have hnew : Process.live { p with state := processRunning } = true :=
        (congrArg (· && true) hforked).trans rfl
      rw [if_pos hp, if_pos hnew, if_neg hold, if_pos (decide_eq_true hp)]
      omega
    · rw [if_neg hp, if_neg (fun h ↦ hp (of_decide_eq_true h))]
      omega

theorem LiveAgrees.resumed {job : Job} (isBackground : Bool) (h : job.LiveAgrees) :
    LiveAgrees { job.markContinued with isBackground, state := jobRunning } := by
  rcases h.pids with hpids | hun
  · refine ⟨?_, Or.inl (hpids.of_pids_eq job.pids_markContinued)⟩
    have hcount := countP_continued job.processes fun p hp ↦
      hpids.pos p.pid (List.mem_map_of_mem hp)
    have hlive := foldl_stopped job.processes job.liveProcesses
    refine hlive.trans ?_
    rw [h.live, ← UInt32.ofNat_add]
    exact congrArg UInt32.ofNat hcount.symm
  · have hsame : job.markContinued.processes = job.processes := by
      refine (List.map_congr_left fun p hp ↦ ?_).trans (List.map_id _)
      rw [if_neg (by rw [(hun p hp).2]; decide)]
      rfl
    have hnone : job.processes.countP (fun p ↦ p.state = processStopped) = 0 :=
      List.countP_eq_zero.mpr fun p hp ↦ by rw [(hun p hp).2]; decide
    refine ⟨?_, Or.inr ?_⟩
    · have hcount : liveCount { job.markContinued with isBackground, state := jobRunning }
          = job.liveCount := congrArg (List.countP Process.live) hsame
      have hlive := foldl_stopped job.processes job.liveProcesses
      rw [hnone] at hlive
      rw [hcount, ← h.live]
      exact hlive.trans (UInt32.add_zero _)
    · exact fun p hp ↦ hun p (hsame ▸ hp)

end Job

/-! ## Steps and runs -/

/-- The children have pids. -/
def JobSystem.PidsPos (s : JobSystem) : Prop := ∀ c ∈ s.children, 0 < c.pid

theorem JobSystem.PidsPos.step {c c' : Control} (h : c.Step c') (hc : c.sys.PidsPos) :
    c'.sys.PidsPos := by
  cases h with
  | launch s job haddr hjob =>
    intro c hc'
    rcases List.mem_append.mp hc' with hold | hnew
    · exact hc c hold
    · obtain ⟨p, hp, rfl⟩ := List.mem_map.mp hnew
      exact hjob.pid_pos p hp
  | reap s w ev =>
    intro c hc'
    refine hc c ?_
    change c ∈ (s.reap ev).children at hc'
    unfold JobSystem.reap at hc'
    split at hc'
    · dsimp only at hc'
      split at hc'
      · exact List.mem_of_mem_filter hc'
      · exact hc'
    · exact hc'
  | _ => exact hc

theorem keptByJobs_liveAgrees {s : JobSystem} (hs : s.PidsPos) :
    Control.KeptByJobs Job.LiveAgrees s (HitsRunning s.table) where
  fresh job id h := Job.LiveAgrees.fresh id h
  launched job id h := Job.LiveAgrees.launched id h
  applied job ev hev hchild hfind hjob := by
    obtain ⟨c, hc, hpid⟩ := hchild
    have hpos : 0 < ev.pid := hpid ▸ hs c hc
    obtain ⟨p, hp⟩ := Job.exists_process?_of_find hfind
    exact hjob.applied hpos hp fun hstop ↦ hev hstop job p hfind hp
  done job _ h := ⟨h.live, h.pids.imp (fun h ↦ ⟨h.pos, h.lt, h.nodup⟩) id⟩
  resumed job isBackground _ h := h.resumed isBackground
  forward job h := ⟨h.live, h.pids.imp (fun h ↦ ⟨h.pos, h.lt, h.nodup⟩) id⟩

structure LiveInvariant (c : Control) : Prop where
  wellFormed : c.sys.WellFormed
  pidsPos : c.sys.PidsPos
  jobs : ∀ job ∈ c.sys.table.jobs, job.LiveAgrees

theorem liveInvariant_step {c c' : Control} (h : c.Step c') (hgood : c'.History HitsRunning)
    (hc : LiveInvariant c) : LiveInvariant c' where
  wellFormed := Control.wellFormed_step h hc.wellFormed
  pidsPos := hc.pidsPos.step h
  jobs := Control.forall_jobs_of_step h hgood hc.wellFormed (keptByJobs_liveAgrees hc.pidsPos)
    hc.jobs

/-- In every state that the shell reaches between two operations, `live_processes` of every listed
job is the number of its forked processes that are recorded as running, if every event so far other
than a stop found a process recorded as running. -/
theorem liveProcesses_eq {ops : List Op} {sh sh' : Shell} (hinit : sh.Initial)
    (hrun : runOps ops sh = .ok sh') (hhits : ∀ e ∈ sh'.reaped, HitsRunning e.1 e.2) :
    ∀ job ∈ sh'.table.jobs, job.liveProcesses.toNat = job.liveCount := by
  have hinv : LiveInvariant ⟨sh'.toJobSystem, none⟩ :=
    invariant_of_history (runOps_steps hinit hrun) (fun _ _ ↦ Control.history_of_step)
      (fun _ _ ↦ liveInvariant_step) hhits
      ⟨⟨List.nodup_nil, fun _ h ↦ nomatch h⟩, (fun _ h ↦ nomatch h), fun _ h ↦ nomatch h⟩
  exact fun job hjob ↦ (hinv.jobs job hjob).toNat

/-- The first process of `a | b &` exits, and one is left. -/
theorem liveProcesses_eq_pipeline :
    ∃ sh', runOps [.line (.pipeline [.word ['a'] false, .word ['b'] true] false),
        .hook [⟨10, .exited 0⟩]] (.onTerminal { pids := [10, 11] }) = .ok sh' ∧
      sh'.table.jobs.map Job.liveProcesses = [1] ∧
      ∀ job ∈ sh'.table.jobs, job.liveProcesses.toNat = job.liveCount := by
  have heval : (runOps [.line (.pipeline [.word ['a'] false, .word ['b'] true] false),
      .hook [⟨10, .exited 0⟩]] (.onTerminal { pids := [10, 11] })).toOption.map
        (fun sh ↦ (sh.table.jobs.map Job.liveProcesses, sh.reaped.map fun e ↦
          (jobsFindProcessByPid e.1 e.2.pid).bind fun j ↦
            (j.process? e.2.pid).map Process.state))
      = some ([1], [some processRunning]) := by decide +kernel
  obtain ⟨sh', hrun, hsh'⟩ := exists_of_map_eq heval
  obtain ⟨hlive, hreaped⟩ := Prod.mk.inj hsh'
  refine ⟨sh', hrun, hlive,
    liveProcesses_eq (Shell.initial_onTerminal _) hrun fun e he _ job p hfind hp ↦ ?_⟩
  have hmem := List.mem_map_of_mem (f := fun e : JobTable × WaitEvent ↦
    (jobsFindProcessByPid e.1 e.2.pid).bind fun j ↦ (j.process? e.2.pid).map Process.state) he
  rw [hreaped, List.mem_singleton, hfind, Option.bind_some, hp] at hmem
  exact Option.some.inj hmem

/-- A stopped job is killed: its counter is 2^32 - 1, and no process of it is running. -/
theorem not_liveProcesses_eq :
    ¬ ∀ (ops : List Op) (sh sh' : Shell), sh.Initial → runOps ops sh = .ok sh' →
      ∀ job ∈ sh'.table.jobs, job.liveProcesses.toNat = job.liveCount := by
  intro hclaim
  have heval : (runOps [.line (.word ['a'] false), .hook [⟨10, .signaled 9⟩]]
      (.onTerminal { pids := [10], wakeups := [[.sigchld [⟨10, .stopped 20⟩]]] })).toOption.map
        (fun sh ↦ sh.table.jobs.map fun job ↦ (job.liveProcesses.toNat, job.liveCount))
      = some [(4294967295, 0)] := by decide +kernel
  obtain ⟨sh', hrun, hsh'⟩ := exists_of_map_eq heval
  have hclaim' := hclaim _ _ sh' (Shell.initial_onTerminal _) hrun
  have hmem : (4294967295, 0) ∈ sh'.table.jobs.map fun job ↦
      (job.liveProcesses.toNat, job.liveCount) := hsh' ▸ List.mem_cons_self
  obtain ⟨job, hjob, heq⟩ := List.mem_map.mp hmem
  obtain ⟨hcounter, hcount⟩ := Prod.mk.inj heq
  have h := hclaim' job hjob
  rw [hcounter, hcount] at h
  exact absurd h (by decide)

end Novash
