import Novash.Builtin.JobControl
import Novash.Foundations.Transitions

/-!
# Job control as a machine

What the shell does to its jobs, whatever function does it: the list, the children and the events,
and nothing of lines, files or output. The state also says which job the shell is waiting for, which
in the program is a place in the code.

`Step` lists everything that can happen, with the guards that the code has and no others. Each
invariant of job control is proved from it, once for every step. That the functions of the shell do
nothing else is `runOps_steps`.
-/

namespace Novash

open Foundations ProcessState JobState Relation

/-- The wait of `handle_foreground_execution`. -/
structure Wait where
  addr : ℕ
  /-- The job was stopped when the wait began. -/
  fromStopped : Bool

structure Control where
  sys : JobSystem := {}
  waiting : Option Wait := none

/-! ## New jobs -/

/-- A job as `jobs_new_job` and `compile_*_job` make it, at an address that has just been given
out: nothing in it has been forked. -/
structure Job.Fresh (job : Job) : Prop where
  pgid : job.pgid = 0
  state : job.state = jobRunning
  live : job.liveProcesses = 0
  processes : ∀ p ∈ job.processes, p.pid = 0 ∧ p.state = processRunning

/-- A job in the loop of `run_job`: the processes it has were forked, and the system gave out none
of their pids twice. -/
structure JobSystem.Forked (s : JobSystem) (job : Job) : Prop where
  state : job.state = jobRunning
  live : job.liveProcesses = UInt32.ofNat job.processes.length
  running : ∀ p ∈ job.processes, p.state = processRunning
  nodup : (job.processes.map Process.pid).Nodup
  pid_pos : ∀ p ∈ job.processes, 0 < p.pid
  pid_lt : ∀ p ∈ job.processes, p.pid < 2 ^ 31
  fresh : ∀ p ∈ job.processes, ∀ c ∈ s.children, c.pid ≠ p.pid ∧ c.pgid ≠ p.pid

/-- A job as the loop leaves it, with a process that leads the group of the job. -/
structure JobSystem.Launched (s : JobSystem) (job : Job) : Prop extends s.Forked job where
  pgid : (job.processes.map Process.pid).head? = some job.pgid

/-- The children that the processes of a job are. -/
def Job.kids (job : Job) : List Child := job.processes.map fun p ↦ ⟨p.pid, job.pgid, job.addr⟩

namespace JobSystem

/-- The address that `jobs_new_job` gives out next is taken. -/
def allocate (s : JobSystem) : JobSystem := { s with heap := s.heap + 1 }

def add (s : JobSystem) (job : Job) : JobSystem :=
  { s with table := jobsAddJob s.table job, heap := s.heap + 1 }

def launch (s : JobSystem) (job : Job) : JobSystem :=
  { s.add job with children := s.children ++ job.kids }

def remove (s : JobSystem) (pgid : ℕ) : JobSystem :=
  { s with table := (jobsRemoveJob s.table pgid).2 }

def resume (s : JobSystem) (addr : ℕ) (isBackground : Bool) : JobSystem :=
  { s with table := s.table.resume addr isBackground }

def bringForward (s : JobSystem) (addr : ℕ) : JobSystem :=
  { s with table := s.table.bringForward addr }

end JobSystem

/-! ## Steps -/

/-- The wait that a new job begins. -/
def Job.launchWait (job : Job) : Option Wait :=
  if job.isBackground then none else some ⟨job.addr, false⟩

inductive Control.Step : Control → Control → Prop
  | allocate (s : JobSystem) : Step ⟨s, none⟩ ⟨s.allocate, none⟩
  /-- A builtin is listed while it runs, and then taken off. -/
  | enlist (s : JobSystem) (job : Job) (haddr : job.addr = s.heap) (hfresh : job.Fresh) :
    Step ⟨s, none⟩ ⟨s.add job, none⟩
  | delist (s : JobSystem) : Step ⟨s, none⟩ ⟨s.remove 0, none⟩
  | launch (s : JobSystem) (job : Job) (haddr : job.addr = s.heap) (hjob : s.Launched job) :
    Step ⟨s, none⟩ ⟨s.launch job, job.launchWait⟩
  | reap (s : JobSystem) (w : Option Wait) (ev : WaitEvent) : Step ⟨s, w⟩ ⟨s.reap ev, w⟩
  /-- `bg` of a stopped job. -/
  | resumeBg (s : JobSystem) (job : Job) (hjob : s.table.deref job.addr = some job)
    (hstopped : job.state = jobStopped) : Step ⟨s, none⟩ ⟨s.resume job.addr true, none⟩
  /-- `fg` of a stopped job. -/
  | resumeFg (s : JobSystem) (job : Job) (hjob : s.table.deref job.addr = some job)
    (hstopped : job.state = jobStopped) (hbg : job.isBackground = false) :
    Step ⟨s, none⟩ ⟨s.resume job.addr false, some ⟨job.addr, false⟩⟩
  /-- `fg` of a background job. -/
  | bringForward (s : JobSystem) (job : Job) (hjob : s.table.deref job.addr = some job)
    (hbg : job.isBackground = true) :
    Step ⟨s, none⟩ ⟨s.bringForward job.addr, some ⟨job.addr, job.state = jobStopped⟩⟩
  /-- The loop ends and the job is removed. -/
  | finish (s : JobSystem) (w : Wait) (job : Job) (hjob : s.table.deref w.addr = some job)
    (hlive : job.liveProcesses = 0) (hstate : w.fromStopped = true ∨ job.state ≠ jobStopped) :
    Step ⟨s, some w⟩ ⟨s.remove job.pgid, none⟩
  /-- The loop ends because the job stopped. -/
  | yield (s : JobSystem) (w : Wait) (job : Job) (hjob : s.table.deref w.addr = some job)
    (hstopped : job.state = jobStopped) : Step ⟨s, some w⟩ ⟨s, none⟩

/-! ## What a step does to the history -/

namespace Control

/-- Every event so far was of a certain kind for the list of jobs that it found. -/
def History (good : JobTable → WaitEvent → Prop) (c : Control) : Prop :=
  ∀ e ∈ c.sys.reaped, good e.1 e.2

/-- An event that is reaped leaves the list as it is, or it is taken in and becomes part of the
history. -/
theorem reap_cases (s : JobSystem) (ev : WaitEvent) :
    s.reap ev = s ∨
      (∃ c ∈ s.children, c.pid = ev.pid) ∧ (s.reap ev).table = s.table.reap ev ∧
        (s.reap ev).reaped = s.reaped ++ [(s.table, ev)] := by
  unfold JobSystem.reap
  split
  · next hchild => exact Or.inr ⟨by simpa using hchild, rfl, rfl⟩
  · exact Or.inl rfl

/-- An event that is taken in is good if the history is. -/
theorem good_of_history {good : JobTable → WaitEvent → Prop} {s : JobSystem} {w : Option Wait}
    {ev : WaitEvent} (hgood : History good ⟨s.reap ev, w⟩)
    (hreaped : (s.reap ev).reaped = s.reaped ++ [(s.table, ev)]) : good s.table ev := by
  refine hgood (s.table, ev) ?_
  rw [hreaped]
  exact List.mem_append_right _ List.mem_cons_self

/-- The history only grows. -/
theorem history_of_step {good : JobTable → WaitEvent → Prop} {c c' : Control} (h : Step c c')
    (hgood : History good c') : History good c := by
  cases h with
  | reap s w ev =>
    rcases reap_cases s ev with hsame | ⟨-, -, hreaped⟩
    · rw [hsame] at hgood
      exact hgood
    · intro e he
      refine hgood e ?_
      rw [hreaped]
      exact List.mem_append_left _ he
  | _ => exact hgood

end Control

/-! ## Addresses -/

namespace JobTable

def addrs (t : JobTable) : List ℕ := t.jobs.map Job.addr

theorem addrs_modify (t : JobTable) (addr : ℕ) (f : Job → Job) (hf : ∀ j, (f j).addr = j.addr) :
    (t.modify addr f).addrs = t.addrs := map_modifyFirst Job.addr hf t.jobs

theorem addrs_removeJob (t : JobTable) (pgid : ℕ) :
    (jobsRemoveJob t pgid).2.addrs.Sublist t.addrs := (jobs_removeJob_sublist t pgid).map _

end JobTable

@[simp] theorem Job.addr_applyStatus (pid : ℕ) (status : WaitStatus) (job : Job) :
    (job.applyStatus pid status).addr = job.addr := by
  cases status <;> rfl

@[simp] theorem Job.isBackground_applyStatus (pid : ℕ) (status : WaitStatus) (job : Job) :
    (job.applyStatus pid status).isBackground = job.isBackground := by
  cases status <;> rfl

namespace JobTable

@[simp] theorem jobs_applyStatus (t : JobTable) (addr pid : ℕ) (status : WaitStatus) :
    (t.applyStatus addr pid status).jobs
      = modifyFirst (fun j ↦ j.addr = addr) (Job.applyStatus pid status) t.jobs := by
  cases status <;> rfl

/-- What reaping does to the list: nothing; or one job takes in the event; or it does and is then
removed as completed. -/
theorem reap_cases (t : JobTable) (ev : WaitEvent) :
    (jobsFindProcessByPid t ev.pid = none ∧ t.reap ev = t) ∨
    ∃ job, jobsFindProcessByPid t ev.pid = some job ∧
      (((job.applyStatus ev.pid ev.status).liveProcesses = 0 ∧ job.isBackground = true ∧
          t.reap ev = jobsMarkJobCompleted (t.applyStatus job.addr ev.pid ev.status)
            (job.applyStatus ev.pid ev.status)) ∨
        (¬((job.applyStatus ev.pid ev.status).liveProcesses = 0 ∧ job.isBackground = true) ∧
          t.reap ev = t.applyStatus job.addr ev.pid ev.status)) := by
  unfold reap
  cases hfind : jobsFindProcessByPid t ev.pid with
  | none => exact Or.inl ⟨rfl, rfl⟩
  | some job =>
    refine Or.inr ⟨job, rfl, ?_⟩
    by_cases h : (job.applyStatus ev.pid ev.status).liveProcesses = 0 ∧ job.isBackground = true
    · exact Or.inl ⟨h.1, h.2, if_pos (by simp [h])⟩
    · exact Or.inr ⟨h, if_neg (by simpa using h)⟩

theorem addrs_applyStatus (t : JobTable) (addr pid : ℕ) (status : WaitStatus) :
    (t.applyStatus addr pid status).addrs = t.addrs := by
  rw [addrs, jobs_applyStatus]
  exact map_modifyFirst Job.addr (Job.addr_applyStatus pid status) t.jobs

theorem addrs_reap (t : JobTable) (ev : WaitEvent) : (t.reap ev).addrs.Sublist t.addrs := by
  rcases reap_cases t ev with ⟨-, h⟩ | ⟨job, -, ⟨-, -, h⟩ | ⟨-, h⟩⟩
  · rw [h]
  · rw [h, jobsMarkJobCompleted]
    refine (addrs_removeJob _ _).trans ?_
    rw [addrs_modify _ _ (fun j ↦ { j with state := jobDone }) fun _ ↦ rfl, addrs_applyStatus]
  · rw [h, addrs_applyStatus]

theorem addrs_resume (t : JobTable) (addr : ℕ) (isBackground : Bool) :
    (t.resume addr isBackground).addrs = t.addrs := by
  have hmark : (jobsMarkJobContinued t addr).addrs = t.addrs :=
    addrs_modify t addr Job.markContinued fun _ ↦ rfl
  exact (addrs_modify _ addr (fun j ↦ { j with isBackground, state := jobRunning })
    fun _ ↦ rfl).trans hmark

theorem addrs_bringForward (t : JobTable) (addr : ℕ) : (t.bringForward addr).addrs = t.addrs :=
  addrs_modify t addr _ fun _ ↦ rfl

end JobTable

/-- Listed jobs have addresses of their own, all of them given out. -/
structure JobSystem.WellFormed (s : JobSystem) : Prop where
  nodup : s.table.addrs.Nodup
  lt_heap : ∀ addr ∈ s.table.addrs, addr < s.heap

namespace JobSystem.WellFormed

variable {s s' : JobSystem}

theorem of_sublist (hs : s.WellFormed) (hsub : s'.table.addrs.Sublist s.table.addrs)
    (hheap : s.heap ≤ s'.heap) : s'.WellFormed where
  nodup := hs.nodup.sublist hsub
  lt_heap addr haddr := (hs.lt_heap addr (hsub.subset haddr)).trans_le hheap

theorem of_eq (hs : s.WellFormed) (htable : s'.table.addrs = s.table.addrs)
    (hheap : s.heap ≤ s'.heap) : s'.WellFormed :=
  hs.of_sublist (htable ▸ List.Sublist.refl _) hheap

theorem add (hs : s.WellFormed) {job : Job} (haddr : job.addr = s.heap) :
    (s.add job).WellFormed where
  nodup := List.nodup_cons.mpr
    ⟨fun h ↦ absurd (hs.lt_heap _ h) (haddr ▸ Nat.lt_irrefl _), hs.nodup⟩
  lt_heap addr h := by
    rcases List.mem_cons.mp h with rfl | h
    · exact haddr ▸ Nat.lt_succ_self _
    · exact (hs.lt_heap addr h).trans (Nat.lt_succ_self _)

theorem heap_reap (s : JobSystem) (ev : WaitEvent) : (s.reap ev).heap = s.heap := by
  unfold JobSystem.reap
  split <;> rfl

end JobSystem.WellFormed

open JobSystem.WellFormed in
theorem Control.wellFormed_step {c c' : Control} (h : Step c c') (hc : c.sys.WellFormed) :
    c'.sys.WellFormed := by
  cases h with
  | allocate s => exact hc.of_eq rfl (Nat.le_succ _)
  | enlist s job haddr hfresh => exact hc.add haddr
  | delist s => exact hc.of_sublist (JobTable.addrs_removeJob _ _) (le_refl _)
  | launch s job haddr hjob => exact (hc.add haddr).of_eq rfl (le_refl _)
  | reap s w ev =>
    refine hc.of_sublist ?_ (heap_reap s ev).ge
    rcases reap_cases s ev with hsame | ⟨-, htable, -⟩
    · rw [hsame]
    · rw [htable]
      exact JobTable.addrs_reap _ _
  | resumeBg s job => exact hc.of_eq (JobTable.addrs_resume _ _ _) (le_refl _)
  | resumeFg s job => exact hc.of_eq (JobTable.addrs_resume _ _ _) (le_refl _)
  | bringForward s job => exact hc.of_eq (JobTable.addrs_bringForward _ _) (le_refl _)
  | finish s w job => exact hc.of_sublist (JobTable.addrs_removeJob _ _) (le_refl _)
  | yield s w job => exact hc

end Novash
