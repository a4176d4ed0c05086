import Novash.Executor.LiveProcesses

/-!
# The records of a job

What the state of a job says about the records of its processes, and which processes the records
call alive. While events find processes that are recorded as running, and stops find jobs in the
foreground, the two agree: a job is stopped when one of its records is, and then none is running.
-/

namespace Novash

open Foundations ProcessState JobState

/-- Neither an exit nor a kill is recorded. -/
def Process.alive (p : Process) : Bool := p.state = processRunning || p.state = processStopped

namespace Job

/-- A process of the job has this pid, and is not recorded as dead. -/
def Alive (job : Job) (pid : ℕ) : Prop :=
  0 < pid ∧ ∃ p ∈ job.processes, p.pid = pid ∧ p.alive = true

/-! ## The state of a job and the records of its processes -/

/-- The state of the job agrees with the records, and a process group with pids. -/
structure StateAgrees (job : Job) : Prop where
  group : (job.Unforked ∧ job.pgid = 0) ∨ (job.HasPids ∧ 0 < job.pgid)
  unstopped : job.state ≠ jobStopped → ∀ p ∈ job.processes, p.state ≠ processStopped
  foreground : job.state = jobStopped → job.isBackground = false
  stopped : job.state = jobStopped →
    (∀ p ∈ job.processes, p.state ≠ processRunning) ∧ ∃ p ∈ job.processes, p.state = processStopped

theorem StateAgrees.of_unstopped {job : Job}
    (hgroup : (job.Unforked ∧ job.pgid = 0) ∨ (job.HasPids ∧ 0 < job.pgid))
    (hstate : job.state ≠ jobStopped) (hps : ∀ p ∈ job.processes, p.state ≠ processStopped) :
    job.StateAgrees :=
  ⟨hgroup, fun _ ↦ hps, fun h ↦ absurd h hstate, fun h ↦ absurd h hstate⟩

theorem StateAgrees.fresh {job : Job} (id : ℕ) (h : job.Fresh) : StateAgrees { job with id } := by
  refine .of_unstopped (Or.inl ⟨h.processes, h.pgid⟩) ?_ fun p hp hstopped ↦ ?_
  · exact fun hstopped ↦ nomatch h.state.symm.trans hstopped
  · exact nomatch (h.processes p hp).2.symm.trans hstopped

theorem StateAgrees.launched {s : JobSystem} {job : Job} (id : ℕ) (h : s.Launched job) :
    StateAgrees { job with id } := by
  have hpids : HasPids { job with id } :=
    ⟨List.forall_mem_map.mpr h.pid_pos, List.forall_mem_map.mpr h.pid_lt, h.nodup⟩
  refine .of_unstopped (Or.inr ⟨hpids, ?_⟩) ?_ fun p hp hstopped ↦ ?_
  · exact hpids.pos _ (List.mem_of_mem_head? h.pgid)
  · exact fun hstopped ↦ nomatch h.state.symm.trans hstopped
  · exact nomatch (h.running p hp).symm.trans hstopped

/-- A process that is not stopped gets another state than stopped: nothing changes about the job
as long as it is not stopped. -/
theorem StateAgrees.modifyProcess {job : Job} {pid : ℕ} {p : Process} {f : Process → Process}
    (h : job.StateAgrees) (hp : job.process? pid = some p) (hrun : p.state = processRunning)
    (hf : (f p).state ≠ processStopped) :
    job.state ≠ jobStopped ∧
      ∀ q ∈ (job.modifyProcess pid f).processes, q.state ≠ processStopped := by
  have hstate : job.state ≠ jobStopped := fun hstopped ↦
    (h.stopped hstopped).1 p (pid_of_process? hp).1 hrun
  refine ⟨hstate, fun q hq ↦ ?_⟩
  rcases mem_modifyFirst hp hq with rfl | hq
  · exact hf
  · exact h.unstopped hstate q hq

/-- A job that stops has a stopped process, and none that is running. -/
theorem records_markStopped (job : Job) {p : Process} (hp : p ∈ job.processes)
    (hstopped : p.state = processStopped) :
    (∀ q ∈ job.markStopped.processes, q.state ≠ processRunning) ∧
      ∃ q ∈ job.markStopped.processes, q.state = processStopped := by
  refine ⟨fun q hq ↦ ?_, p, ?_, hstopped⟩
  · obtain ⟨r, -, rfl⟩ := List.mem_map.mp hq
    by_cases hr : r.state = processRunning
    · simp [hr]
    · simp [hr]
  · refine List.mem_map.mpr ⟨p, hp, ?_⟩
    rw [if_neg (by rw [hstopped]; decide)]

theorem StateAgrees.applied {job : Job} {pid : ℕ} {status : WaitStatus} {p : Process}
    (h : job.StateAgrees) (hpid : 0 < pid) (hp : job.process? pid = some p)
    (hrun : (∀ sig, status ≠ .stopped sig) → p.state = processRunning)
    (hbg : ∀ sig, status = .stopped sig → job.isBackground = false) :
    (job.applyStatus pid status).StateAgrees := by
  have hgroup : (job.applyStatus pid status).HasPids ∧ 0 < (job.applyStatus pid status).pgid := by
    have hpids := hasPids_of_process? (h.group.symm.imp And.left And.left) hpid hp
    have hpgid : 0 < job.pgid := by
      rcases h.group with ⟨hun, -⟩ | ⟨-, hpgid⟩
      · have hzero := (hun p (pid_of_process? hp).1).1
        rw [(pid_of_process? hp).2] at hzero
        exact absurd hzero hpid.ne'
      · exact hpgid
    refine ⟨hpids.of_pids_eq (job.pids_applyStatus pid status), ?_⟩
    cases status <;> exact hpgid
  -- a stop writes every record of the job; the other events write one record
  cases status with
  | exited st =>
    obtain ⟨hstate, hps⟩ := h.modifyProcess hp (hrun fun _ h ↦ nomatch h)
      (f := fun p ↦ { p with state := processDone, status := st.toNat }) (fun h ↦ nomatch h)
    exact .of_unstopped (Or.inr hgroup) hstate hps
  | signaled sig =>
    obtain ⟨hstate, hps⟩ := h.modifyProcess hp (hrun fun _ h ↦ nomatch h)
      (f := fun p ↦ { p with state := processKilled, status := sig }) (fun h ↦ nomatch h)
    exact .of_unstopped (Or.inr hgroup) hstate hps
  | continued =>
    obtain ⟨hstate, hps⟩ := h.modifyProcess hp (hrun fun _ h ↦ nomatch h)
      (f := fun p ↦ { p with state := processRunning }) (fun h ↦ nomatch h)
    exact .of_unstopped (Or.inr hgroup) hstate hps
  | stopped sig =>
    have hrecords := records_markStopped
      (job.modifyProcess pid fun p ↦ { p with state := processStopped })
      (apply_mem_modifyFirst hp) rfl
    exact ⟨Or.inr hgroup, fun hstate ↦ absurd rfl hstate, fun _ ↦ hbg sig rfl, fun _ ↦ hrecords⟩

theorem StateAgrees.done {job : Job} (h : job.StateAgrees) (hbg : job.isBackground = true) :
    StateAgrees { job with state := jobDone } := by
  have hstate : job.state ≠ jobStopped := fun hstopped ↦
    Bool.false_ne_true ((h.foreground hstopped).symm.trans hbg)
  refine .of_unstopped (h.group.imp_right fun hpids ↦ ⟨hpids.1.of_pids_eq rfl, hpids.2⟩) ?_ ?_
  · exact fun h ↦ nomatch h
  · exact h.unstopped hstate

theorem StateAgrees.resumed {job : Job} (isBackground : Bool) (h : job.StateAgrees)
    (hstopped : job.state = jobStopped) :
    StateAgrees { job.markContinued with isBackground, state := jobRunning } := by
  obtain ⟨-, p, hp, hpstopped⟩ := h.stopped hstopped
  have hgroup := h.group.resolve_left fun hun ↦ nomatch (hun.1 p hp).2.symm.trans hpstopped
  refine .of_unstopped (Or.inr ⟨hgroup.1.of_pids_eq job.pids_markContinued, hgroup.2⟩) ?_
    fun q hq ↦ ?_
  · exact fun h ↦ nomatch h
  · obtain ⟨r, -, rfl⟩ := List.mem_map.mp hq
    by_cases hr : r.state = processStopped
    · simp [hr]
    · simp [hr]

theorem StateAgrees.forward {job : Job} (h : job.StateAgrees) :
    StateAgrees { job with isBackground := false } :=
  ⟨h.group.imp_right fun hpids ↦ ⟨hpids.1.of_pids_eq rfl, hpids.2⟩, h.unstopped, fun _ ↦ rfl,
    h.stopped⟩

/-! ## Processes that are alive -/

theorem Alive.forked {job : Job} {pid : ℕ} (h : job.Alive pid) : job.forked = true := by
  obtain ⟨hpos, p, hp, rfl, -⟩ := h
  exact List.any_eq_true.mpr ⟨p, hp, decide_eq_true hpos.ne'⟩

theorem Alive.hasPid {job : Job} {pid : ℕ} (h : job.Alive pid) : job.hasPid pid = true := by
  obtain ⟨-, p, hp, hpid, -⟩ := h
  exact List.any_eq_true.mpr ⟨p, hp, decide_eq_true hpid⟩

/-- A job in which a stop was recorded has a living process. -/
theorem StateAgrees.exists_alive {job : Job} (h : job.StateAgrees)
    (hstopped : job.state = jobStopped) : ∃ pid, job.Alive pid := by
  obtain ⟨-, p, hp, hpstopped⟩ := h.stopped hstopped
  have hgroup := h.group.resolve_left fun hun ↦ nomatch (hun.1 p hp).2.symm.trans hpstopped
  exact ⟨p.pid, hgroup.1.pos p.pid (List.mem_map_of_mem hp), p, hp, rfl,
    by simp [Process.alive, hpstopped]⟩

/-- So has a job whose counter is not zero. -/
theorem LiveAgrees.exists_alive {job : Job} (h : job.LiveAgrees) (hlive : job.liveProcesses ≠ 0) :
    ∃ pid, job.Alive pid := by
  have hcount : 0 < job.liveCount := by
    refine Nat.pos_of_ne_zero fun hzero ↦ hlive ?_
    rw [h.live, hzero]
    rfl
  obtain ⟨p, hp, hplive⟩ := List.countP_pos_iff.mp hcount
  simp only [Process.live, Process.forked, Bool.and_eq_true, decide_eq_true_eq] at hplive
  exact ⟨p.pid, Nat.pos_of_ne_zero hplive.1, p, hp, rfl, by simp [Process.alive, hplive.2]⟩

/-- A job that is not stopped and whose counter is zero has none. -/
theorem StateAgrees.not_alive {job : Job} (h : job.StateAgrees) (hlive : job.LiveAgrees)
    (hzero : job.liveProcesses = 0) (hstate : job.state ≠ jobStopped) (pid : ℕ) :
    ¬job.Alive pid := by
  rintro ⟨hpos, p, hp, rfl, halive⟩
  have hcount : job.liveCount = 0 := by rw [← hlive.toNat, hzero]; rfl
  have hplive := List.countP_eq_zero.mp hcount p hp
  have hrun : p.state = processRunning := by
    simpa [Process.alive, h.unstopped hstate p hp] using halive
  exact hplive (by simp [Process.live, Process.forked, hrun, hpos.ne'])

theorem Unforked.not_alive {job : Job} (h : job.Unforked) (pid : ℕ) : ¬job.Alive pid := by
  rintro ⟨hpos, p, hp, rfl, -⟩
  exact hpos.ne' (h p hp).1

/-- Writing to the records may leave pids and life alone. -/
theorem alive_map {job job' : Job} {f : Process → Process}
    (hps : job'.processes = job.processes.map f) (hpid : ∀ p, (f p).pid = p.pid)
    (hf : ∀ p, (f p).alive = p.alive) (pid : ℕ) :
    job'.Alive pid ↔ job.Alive pid := by
  rw [Alive, hps]
  simp [Alive, hpid, hf]

theorem alive_markStopped (job : Job) (pid : ℕ) : job.markStopped.Alive pid ↔ job.Alive pid := by
  refine alive_map rfl (fun p ↦ ?_) (fun p ↦ ?_) pid
  · split <;> rfl
  · split
    · next hp => simp [Process.alive, hp]
    · rfl

theorem alive_markContinued (job : Job) (pid : ℕ) :
    job.markContinued.Alive pid ↔ job.Alive pid := by
  refine alive_map rfl (fun p ↦ ?_) (fun p ↦ ?_) pid
  · split <;> rfl
  · split
    · next hp => simp [Process.alive, hp]
    · rfl

theorem alive_modifyProcess {job : Job} {pid : ℕ} {p : Process} {f : Process → Process}
    (hpids : job.HasPids) (hp : job.process? pid = some p) (hf : ∀ p, (f p).pid = p.pid) (q : ℕ) :
    (job.modifyProcess pid f).Alive q
      ↔ 0 < q ∧ q = pid ∧ (f p).alive = true ∨ q ≠ pid ∧ job.Alive q := by
  have hpid := (pid_of_process? hp).2
  constructor
  · rintro ⟨hpos, r, hr, rfl, halive⟩
    rcases mem_modifyFirst_of_nodup hpids.nodup hp hr with rfl | ⟨hr, hne⟩
    · exact Or.inl ⟨hpos, (hf p).trans hpid, halive⟩
    · exact Or.inr ⟨hpid ▸ hne, hpos, r, hr, rfl, halive⟩
  · rintro (⟨hpos, rfl, halive⟩ | ⟨hne, hpos, r, hr, rfl, halive⟩)
    · exact ⟨hpos, f p, apply_mem_modifyFirst hp, (hf p).trans hpid, halive⟩
    · exact ⟨hpos, r, mem_modifyFirst_of_not hr (decide_eq_false hne), rfl, halive⟩

/-- An event about a living process: a death takes it away, and nothing else changes who lives. -/
theorem alive_applyStatus {job : Job} {pid : ℕ} {p : Process} (hpids : job.HasPids)
    (hp : job.process? pid = some p) (halive : p.alive = true) (status : WaitStatus) (q : ℕ) :
    (job.applyStatus pid status).Alive q
      ↔ job.Alive q ∧ ¬(status.isDeath = true ∧ q = pid) := by
  have hmod := fun (f : Process → Process) (hf : ∀ p, (f p).pid = p.pid) ↦
    alive_modifyProcess hpids hp hf q
  have hsame : (0 < q ∧ q = pid ∧ true = true ∨ q ≠ pid ∧ job.Alive q)
      ↔ job.Alive q ∧ ¬(false = true ∧ q = pid) := by
    by_cases hq : q = pid
    · have hself : 0 < q → job.Alive q := fun hpos ↦
        ⟨hpos, p, (pid_of_process? hp).1, (pid_of_process? hp).2.trans hq.symm, halive⟩
      simpa [hq] using ⟨hq ▸ hself, fun h ↦ h.1⟩
    · simp [hq]
  cases status with
  | exited st =>
    refine (hmod (fun p ↦ { p with state := processDone, status := st.toNat }) fun _ ↦ rfl).trans ?_
    simp [Process.alive, WaitStatus.isDeath, and_comm]
  | signaled sig =>
    refine (hmod (fun p ↦ { p with state := processKilled, status := sig }) fun _ ↦ rfl).trans ?_
    simp [Process.alive, WaitStatus.isDeath, and_comm]
  | stopped sig =>
    have hstop := hmod (fun p ↦ { p with state := processStopped }) fun _ ↦ rfl
    exact ((alive_markStopped _ q).trans hstop).trans hsame
  | continued => exact (hmod (fun p ↦ { p with state := processRunning }) fun _ ↦ rfl).trans hsame

end Job

end Novash
