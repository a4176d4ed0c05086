import Novash.Executor.Records

/-!
# Which jobs are listed

A job that was forked should be in the list as long as one of its processes has not been reported as
dead, and no longer. Whether it is removed is decided in three places, each time by its counter:

* the reaper removes a background job whose counter is zero;
* the wait for a foreground job ends, and removes the job, when its counter is zero;
* `fg` on a background job begins a wait that may find the counter at zero already.

The counter is zero, too, when the job is stopped. A wait looks at the state of the job as well, but
the reaper does not, so a background job that stops is lost. And where the counter is wrong, as
described for `live_processes`, so are these decisions. Without such events the list is right
whenever the shell is between two operations.

## The invariant

`Tracked` relates the list to the children of the shell: the record that the search for the pid of a
child finds is that of the child, and every record that is not marked as dead belongs to a child.
Besides, nothing but the job that is waited for can be without such a record.
-/

namespace Novash

open Foundations ProcessState JobState

/-- The condition on an event: unless it is a stop it finds a process recorded as running, and if it
is a stop it finds a job that is not in the background. -/
structure HitsTracked (t : JobTable) (ev : WaitEvent) : Prop where
  running : HitsRunning t ev
  foreground : ∀ sig job, ev.status = .stopped sig → jobsFindProcessByPid t ev.pid = some job →
    job.isBackground = false

/-! ## The list and the children -/

structure JobSystem.Tracked (s : JobSystem) : Prop where
  child : ∀ k ∈ s.children, ∃ job, jobsFindProcessByPid s.table k.pid = some job ∧
    job.addr = k.job ∧ job.pgid = k.pgid ∧ job.Alive k.pid
  record : ∀ job ∈ s.table.jobs, ∀ pid, job.Alive pid →
    ∃ k ∈ s.children, k.pid = pid ∧ k.job = job.addr
  /-- A process group has one job. -/
  group : ∀ i ∈ s.table.jobs, ∀ j ∈ s.table.jobs, 0 < i.pgid → i.pgid = j.pgid → i.addr = j.addr

/-- An update of a job that leaves its identity alone. -/
structure Job.KeepsIdentity (f : Job → Job) : Prop where
  addr : ∀ job, (f job).addr = job.addr
  pgid : ∀ job, (f job).pgid = job.pgid
  pids : ∀ job, (f job).pids = job.pids

theorem Job.hasPid_eq_of_pids {job job' : Job} (h : job'.pids = job.pids) (pid : ℕ) :
    job'.hasPid pid = job.hasPid pid := by
  have hany : ∀ j : Job, j.hasPid pid = j.pids.any (· = pid) := fun j ↦ by
    rw [Job.pids, List.any_map]
    rfl
  rw [hany, hany, h]

namespace JobSystem.Tracked

variable {s s' : JobSystem}

theorem find_eq (hs : s.Tracked) (hwf : s.WellFormed) {k : Child} (hk : k ∈ s.children) {job : Job}
    (hjob : job ∈ s.table.jobs) (haddr : k.job = job.addr) :
    jobsFindProcessByPid s.table k.pid = some job := by
  obtain ⟨j, hfind, hj, -, -⟩ := hs.child k hk
  have hderef := hwf.deref_of_find hfind
  rw [hj, haddr, hwf.deref_eq hjob] at hderef
  rw [hfind, hderef]

/-- One job is updated, and some of its processes die. -/
theorem modify (hs : s.Tracked) (hwf : s.WellFormed) (dies : ℕ → Prop) {job : Job} {f : Job → Job}
    (hjob : job ∈ s.table.jobs) (hf : Job.KeepsIdentity f)
    (halive : ∀ pid, (f job).Alive pid ↔ job.Alive pid ∧ ¬dies pid)
    (hdies : ∀ pid, dies pid → jobsFindProcessByPid s.table pid = some job)
    (htable : s'.table.jobs = (s.table.modify job.addr f).jobs)
    (hchildren : ∀ k, k ∈ s'.children ↔ k ∈ s.children ∧ ¬dies k.pid) : s'.Tracked := by
  have hderef := hwf.deref_eq hjob
  have hold : ∀ j ∈ s'.table.jobs, ∃ i ∈ s.table.jobs, i.addr = j.addr ∧ i.pgid = j.pgid := by
    intro j hj
    rw [htable] at hj
    rcases mem_modifyFirst hderef hj with rfl | hj
    · exact ⟨job, hjob, (hf.addr job).symm, (hf.pgid job).symm⟩
    · exact ⟨j, hj, rfl, rfl⟩
  constructor
  case child =>
    intro k hk
    obtain ⟨hk, hdead⟩ := (hchildren k).mp hk
    obtain ⟨j, hfind, haddr, hpgid, hpid⟩ := hs.child k hk
    have hkeeps : ∀ i, (f i).hasPid k.pid = i.hasPid k.pid := fun i ↦
      Job.hasPid_eq_of_pids (hf.pids i) k.pid
    rw [jobsFindProcessByPid, htable]
    -- the child belongs to the job that is written, or to one that stays as it is
    by_cases hsame : j.addr = job.addr
    · obtain rfl : j = job := Option.some.inj
        ((hwf.deref_of_find hfind).symm.trans ((congrArg _ hsame).trans hderef))
      refine ⟨f j, find?_modifyFirst_of_both hkeeps hderef hfind, ?_⟩
      rw [hf.addr, hf.pgid]
      exact ⟨haddr, hpgid, (halive k.pid).mpr ⟨hpid, hdead⟩⟩
    · exact ⟨j, find?_modifyFirst_of_not hkeeps hfind (decide_eq_false hsame), haddr, hpgid, hpid⟩
  case record =>
    intro j hj pid hpid
    rw [htable] at hj
    rcases mem_modifyFirst_of_nodup hwf.nodup hderef hj with rfl | ⟨hj, hne⟩
    · obtain ⟨hpid, hlives⟩ := (halive pid).mp hpid
      obtain ⟨k, hk, rfl, hkjob⟩ := hs.record job hjob pid hpid
      exact ⟨k, (hchildren k).mpr ⟨hk, hlives⟩, rfl, hkjob.trans (hf.addr job).symm⟩
    · obtain ⟨k, hk, rfl, hkjob⟩ := hs.record j hj pid hpid
      -- what dies is a process of the job that is updated
      refine ⟨k, (hchildren k).mpr ⟨hk, fun hdead ↦ hne ?_⟩, rfl, hkjob⟩
      exact congrArg Job.addr
        (Option.some.inj ((hs.find_eq hwf hk hj hkjob).symm.trans (hdies k.pid hdead)))
  case group =>
    intro i hi j hj hpos hpgid
    obtain ⟨i', hi', hiaddr, hipgid⟩ := hold i hi
    obtain ⟨j', hj', hjaddr, hjpgid⟩ := hold j hj
    rw [← hiaddr, ← hjaddr]
    exact hs.group i' hi' j' hj' (hipgid ▸ hpos) (hipgid.trans (hpgid.trans hjpgid.symm))

/-- A job without living processes is removed. -/
theorem remove (hs : s.Tracked) {pgid : ℕ}
    (hdead : ∀ job ∈ s.table.jobs, job.pgid = pgid → ∀ pid, ¬job.Alive pid)
    (htable : s'.table.jobs = s.table.jobs.eraseP fun j ↦ j.pgid = pgid)
    (hchildren : s'.children = s.children) : s'.Tracked := by
  have hsub : s'.table.jobs.Sublist s.table.jobs := htable ▸ List.eraseP_sublist
  refine ⟨fun k hk ↦ ?_, fun job hjob pid hpid ↦ ?_, fun i hi j hj ↦ ?_⟩
  · obtain ⟨job, hfind, hjob⟩ := hs.child k (hchildren ▸ hk)
    refine ⟨job, ?_, hjob⟩
    rw [jobsFindProcessByPid, htable]
    cases hx : s.table.jobs.find? fun j ↦ j.pgid = pgid with
    | none => rwa [List.eraseP_of_forall_not (List.find?_eq_none.mp hx)]
    | some x =>
      refine find?_eraseP hx hfind fun hsame ↦ ?_
      have hpgid : x.pgid = pgid := by simpa using List.find?_some hx
      exact hdead x (List.mem_of_find?_eq_some hx) hpgid k.pid (hsame ▸ hjob.2.2)
  · rw [hchildren]
    exact hs.record job (hsub.subset hjob) pid hpid
  · exact hs.group i (hsub.subset hi) j (hsub.subset hj)

/-- The search for the group of a job finds that job, so it is the one that is removed. -/
theorem ne_of_mem_remove (hs : s.Tracked) (hwf : s.WellFormed) {job j : Job}
    (hjob : job ∈ s.table.jobs) (hpos : 0 < job.pgid)
    (hj : j ∈ s.table.jobs.eraseP fun i ↦ i.pgid = job.pgid) : j.addr ≠ job.addr := by
  cases hx : s.table.jobs.find? fun i ↦ i.pgid = job.pgid with
  | none => exact absurd (decide_eq_true rfl) (List.find?_eq_none.mp hx job hjob)
  | some x =>
    have hpgid : x.pgid = job.pgid := by simpa using List.find?_some hx
    rw [hs.group job hjob x (List.mem_of_find?_eq_some hx) hpos hpgid.symm]
    exact key_ne_of_mem_eraseP hwf.nodup hx hj

/-- A job is added, and its processes are children if it has any. -/
theorem add (hs : s.Tracked) (job : Job)
    (hpids : ∀ p ∈ job.processes, 0 < p.pid → p.alive = true ∧ ∀ k ∈ s.children, k.pid ≠ p.pid)
    (hgroup : 0 < job.pgid → ∀ j ∈ s.table.jobs, j.pgid ≠ job.pgid)
    (hpos : ∀ k ∈ s.children, 0 < k.pid)
    (htable : s'.table.jobs = job :: s.table.jobs)
    (hchildren : ∀ k, k ∈ s'.children ↔
      k ∈ s.children ∨ ∃ p ∈ job.processes, 0 < p.pid ∧ k = ⟨p.pid, job.pgid, job.addr⟩) :
    s'.Tracked := by
  constructor
  case child =>
    intro k hk
    rw [jobsFindProcessByPid, htable, List.find?_cons]
    rcases (hchildren k).mp hk with hk | ⟨p, hp, hppos, rfl⟩
    · have hnot : job.hasPid k.pid = false := by
        refine List.any_eq_false.mpr fun p hp hpid ↦ ?_
        have hpid : p.pid = k.pid := of_decide_eq_true hpid
        exact (hpids p hp (hpid ▸ hpos k hk)).2 k hk hpid.symm
      rw [hnot]
      exact hs.child k hk
    · have halive : job.Alive p.pid := ⟨hppos, p, hp, rfl, (hpids p hp hppos).1⟩
      rw [halive.hasPid]
      exact ⟨job, rfl, rfl, rfl, halive⟩
  case record =>
    intro j hj pid hpid
    rw [htable] at hj
    rcases List.mem_cons.mp hj with rfl | hj
    · obtain ⟨hppos, p, hp, rfl, -⟩ := hpid
      exact ⟨_, (hchildren _).mpr (Or.inr ⟨p, hp, hppos, rfl⟩), rfl, rfl⟩
    · obtain ⟨k, hk, hkpid⟩ := hs.record j hj pid hpid
      exact ⟨k, (hchildren k).mpr (Or.inl hk), hkpid⟩
  case group =>
    intro i hi j hj hipos hpgid
    rw [htable] at hi hj
    rcases List.mem_cons.mp hi with rfl | hi'
    · rcases List.mem_cons.mp hj with rfl | hj'
      · rfl
      · exact absurd hpgid.symm (hgroup hipos j hj')
    · rcases List.mem_cons.mp hj with rfl | hj'
      · exact absurd hpgid (hgroup (hpgid ▸ hipos) i hi')
      · exact hs.group i hi' j hj' hipos hpgid

end JobSystem.Tracked

/-! ## Steps -/

theorem keptByJobs_stateAgrees {s : JobSystem} (hs : s.PidsPos) :
    Control.KeptByJobs Job.StateAgrees s (HitsTracked s.table) where
  fresh job id h := Job.StateAgrees.fresh id h
  launched job id h := Job.StateAgrees.launched id h
  applied job ev hev hchild hfind hjob := by
    obtain ⟨k, hk, hpid⟩ := hchild
    obtain ⟨p, hp⟩ := Job.exists_process?_of_find hfind
    exact hjob.applied (hpid ▸ hs k hk) hp (fun hstop ↦ hev.running hstop job p hfind hp)
      fun sig hsig ↦ hev.foreground sig job hsig hfind
  done job hbg h := h.done hbg
  resumed job isBackground hstopped h := h.resumed isBackground hstopped
  forward job h := h.forward

/-- What is known of the list and the children. -/
structure MembershipInvariant (c : Control) : Prop extends LiveInvariant c where
  state : ∀ job ∈ c.sys.table.jobs, job.StateAgrees
  tracked : c.sys.Tracked
  /-- A job that is not waited for has a living process, and can go on without a wait. -/
  settled : ∀ job ∈ c.sys.table.jobs, 0 < job.pgid →
    (∀ w, c.waiting = some w → w.addr ≠ job.addr) →
    (job.isBackground = true ∨ job.state = jobStopped) ∧ ∃ pid, job.Alive pid
  waiting : ∀ w, c.waiting = some w → w.fromStopped = false

theorem Job.process?_of_alive {job : Job} {pid : ℕ} (hpids : job.HasPids) (h : job.Alive pid) :
    ∃ p, job.process? pid = some p ∧ p.alive = true := by
  obtain ⟨-, p, hp, rfl, halive⟩ := h
  exact ⟨p, find?_eq_of_nodup hpids.nodup hp, halive⟩

theorem Job.keepsIdentity_applyStatus (pid : ℕ) (status : WaitStatus) :
    KeepsIdentity (applyStatus pid status) where
  addr job := job.addr_applyStatus pid status
  pgid job := by cases status <;> rfl
  pids job := job.pids_applyStatus pid status

/-- The two writes to a job that its last event completes. -/
theorem Job.keepsIdentity_complete (pid : ℕ) (status : WaitStatus) :
    KeepsIdentity fun job ↦ { job.applyStatus pid status with state := jobDone } :=
  have h := keepsIdentity_applyStatus pid status
  ⟨h.addr, h.pgid, h.pids⟩

theorem Job.keepsIdentity_bringForward :
    KeepsIdentity fun job ↦ { job with isBackground := false } :=
  ⟨fun _ ↦ rfl, fun _ ↦ rfl, fun _ ↦ rfl⟩

theorem Job.keepsIdentity_resume (isBackground : Bool) :
    KeepsIdentity fun job ↦ { job.markContinued with isBackground, state := jobRunning } :=
  ⟨fun _ ↦ rfl, fun _ ↦ rfl, Job.pids_markContinued⟩

/-- A death takes its process from the children. -/
theorem JobSystem.mem_children_reap (s : JobSystem) (ev : WaitEvent) (k : Child) :
    k ∈ (s.reap ev).children
      ↔ k ∈ s.children ∧ ¬(ev.status.isDeath = true ∧ k.pid = ev.pid) := by
  rw [reap]
  split
  · by_cases hdeath : ev.status.isDeath = true
    · simp [hdeath, List.mem_filter]
    · simp [hdeath]
  · next hnone =>
    refine ⟨fun hk ↦ ⟨hk, fun h ↦ hnone ?_⟩, And.left⟩
    exact List.any_eq_true.mpr ⟨k, hk, decide_eq_true h.2⟩

namespace MembershipInvariant

variable {s : JobSystem} {w : Option Wait} {ev : WaitEvent}

/-- Where nothing is waited for, every job is settled. -/
theorem settled_idle (hc : MembershipInvariant ⟨s, none⟩) {job : Job} (hjob : job ∈ s.table.jobs)
    (hpos : 0 < job.pgid) :
    (job.isBackground = true ∨ job.state = jobStopped) ∧ ∃ pid, job.Alive pid :=
  hc.settled job hjob hpos fun w hw ↦ absurd hw.symm (Option.some_ne_none w)

/-- The job that an event finds, and what becomes of it. -/
structure Found (s : JobSystem) (ev : WaitEvent) (job : Job) : Prop where
  find : jobsFindProcessByPid s.table ev.pid = some job
  mem : job ∈ s.table.jobs
  pgid_pos : 0 < job.pgid
  state : (job.applyStatus ev.pid ev.status).StateAgrees
  live : (job.applyStatus ev.pid ev.status).LiveAgrees
  alive : ∀ q, (job.applyStatus ev.pid ev.status).Alive q
    ↔ job.Alive q ∧ ¬(ev.status.isDeath = true ∧ q = ev.pid)

theorem found (hc : MembershipInvariant ⟨s, w⟩) (hev : HitsTracked s.table ev)
    (hchild : ∃ c ∈ s.children, c.pid = ev.pid) : ∃ job, Found s ev job := by
  obtain ⟨k, hk, hpid⟩ := hchild
  obtain ⟨job, hfind, -, -, halive⟩ := hc.tracked.child k hk
  rw [hpid] at hfind halive
  have hjob : job ∈ s.table.jobs := List.mem_of_find?_eq_some hfind
  have hgroup := (hc.state job hjob).group.resolve_left fun hun ↦
    hun.1.not_alive ev.pid halive
  obtain ⟨p, hp, hpalive⟩ := Job.process?_of_alive hgroup.1 halive
  have hstate := (keptByJobs_stateAgrees hc.pidsPos).applied job ev hev ⟨k, hk, hpid⟩ hfind
    (hc.state job hjob)
  have hlive := (keptByJobs_liveAgrees hc.pidsPos).applied job ev hev.running ⟨k, hk, hpid⟩ hfind
    (hc.jobs job hjob)
  exact ⟨job, hfind, hjob, hgroup.2, hstate, hlive,
    Job.alive_applyStatus hgroup.1 hp hpalive ev.status⟩

/-- The job is updated, and maybe its state is written as well. -/
theorem tracked_modify (hc : MembershipInvariant ⟨s, w⟩) {job : Job} (hjob : Found s ev job)
    {s' : JobSystem} {f : Job → Job} (hf : Job.KeepsIdentity f)
    (halive : ∀ q, (f job).Alive q ↔ (job.applyStatus ev.pid ev.status).Alive q)
    (htable : s'.table.jobs = (s.table.modify job.addr f).jobs)
    (hchildren : s'.children = (s.reap ev).children) : s'.Tracked :=
  hc.tracked.modify hc.wellFormed (fun q ↦ ev.status.isDeath = true ∧ q = ev.pid) hjob.mem hf
    (fun q ↦ (halive q).trans (hjob.alive q)) (fun _ hdead ↦ hdead.2 ▸ hjob.find) htable
    fun k ↦ hchildren ▸ s.mem_children_reap ev k

/-- A background job whose last process died is completed: it is updated, and then removed. -/
theorem tracked_completed (hc : MembershipInvariant ⟨s, w⟩) {job : Job} (hjob : Found s ev job)
    (hzero : (job.applyStatus ev.pid ev.status).liveProcesses = 0)
    (hbg : job.isBackground = true)
    (htable : (s.reap ev).table = jobsMarkJobCompleted
      (s.table.applyStatus job.addr ev.pid ev.status) (job.applyStatus ev.pid ev.status)) :
    (s.reap ev).Tracked ∧
      ∀ j ∈ (s.reap ev).table.jobs, j ∈ s.table.jobs ∧ j.addr ≠ job.addr := by
  let f : Job → Job := fun j ↦ { j.applyStatus ev.pid ev.status with state := jobDone }
  have hf : Job.KeepsIdentity f := Job.keepsIdentity_complete ev.pid ev.status
  let s₁ : JobSystem := { s.reap ev with table := s.table.modify job.addr f }
  have hderef := hc.wellFormed.deref_eq hjob.mem
  have hs₁ : s₁.Tracked := hc.tracked_modify hjob hf (fun _ ↦ Iff.rfl) rfl rfl
  have hwf₁ : s₁.WellFormed := hc.wellFormed.of_eq (s.table.addrs_modify job.addr f hf.addr)
    (JobSystem.WellFormed.heap_reap s ev).ge
  have hfjob : f job ∈ s₁.table.jobs := apply_mem_modifyFirst hderef
  have hjobs : (s.reap ev).table.jobs = s₁.table.jobs.eraseP fun j ↦ j.pgid = (f job).pgid := by
    rw [htable, JobTable.jobs_markCompleted_applyStatus, hf.pgid]
  have hpos : 0 < (f job).pgid := (hf.pgid job).symm ▸ hjob.pgid_pos
  -- a background job is not stopped, so a count of 0 means that nobody is left
  have hunstopped : (job.applyStatus ev.pid ev.status).state ≠ jobStopped := fun hstopped ↦
    Bool.false_ne_true ((hjob.state.foreground hstopped).symm.trans
      ((job.isBackground_applyStatus _ _).trans hbg))
  constructor
  · refine hs₁.remove (fun j hj hpgid pid halive ↦ ?_) hjobs rfl
    have haddr := hs₁.group (f job) hfjob j hj hpos hpgid.symm
    have hsame := (hwf₁.deref_eq hj).symm.trans
      ((congrArg _ haddr.symm).trans (hwf₁.deref_eq hfjob))
    rw [Option.some.inj hsame] at halive
    exact hjob.state.not_alive hjob.live hzero hunstopped pid halive
  · intro j hj
    rw [hjobs] at hj
    have hne : j.addr ≠ job.addr := (hf.addr job) ▸ hs₁.ne_of_mem_remove hwf₁ hfjob hpos hj
    have hmem := mem_modifyFirst_of_nodup hc.wellFormed.nodup hderef
      (List.eraseP_sublist.subset hj)
    rcases hmem with rfl | ⟨hj, -⟩
    · exact absurd (hf.addr job) hne
    · exact ⟨hj, hne⟩

theorem tracked_reap (hc : MembershipInvariant ⟨s, w⟩)
    (hev : HitsTracked s.table ev) (hchild : ∃ c ∈ s.children, c.pid = ev.pid)
    (htable : (s.reap ev).table = s.table.reap ev) : (s.reap ev).Tracked := by
  obtain ⟨job, hjob⟩ := hc.found hev hchild
  rcases s.table.reap_cases ev with ⟨hnone, -⟩ | ⟨j, hfind, hcases⟩
  · exact nomatch hjob.find.symm.trans hnone
  obtain rfl : job = j := Option.some.inj (hjob.find.symm.trans hfind)
  rcases hcases with ⟨hzero, hbg, hdone⟩ | ⟨-, happly⟩
  · exact (hc.tracked_completed hjob hzero hbg (htable.trans hdone)).1
  · refine hc.tracked_modify hjob (Job.keepsIdentity_applyStatus ev.pid ev.status)
      (fun _ ↦ Iff.rfl) ?_ rfl
    rw [htable, happly, JobTable.jobs_applyStatus]
    rfl

/-- Whatever an event leaves in the list was settled, or is: a job whose last process it was
is not in the background, or is gone. -/
theorem settled_reap (hc : MembershipInvariant ⟨s, w⟩)
    (hev : HitsTracked s.table ev) (hchild : ∃ c ∈ s.children, c.pid = ev.pid)
    (htable : (s.reap ev).table = s.table.reap ev) :
    ∀ j ∈ (s.reap ev).table.jobs, 0 < j.pgid → (∀ v, w = some v → v.addr ≠ j.addr) →
      (j.isBackground = true ∨ j.state = jobStopped) ∧ ∃ pid, j.Alive pid := by
  obtain ⟨job, hjob⟩ := hc.found hev hchild
  rcases s.table.reap_cases ev with ⟨hnone, -⟩ | ⟨j, hfind, hcases⟩
  · exact nomatch hjob.find.symm.trans hnone
  obtain rfl : job = j := Option.some.inj (hjob.find.symm.trans hfind)
  rcases hcases with ⟨hzero, hbg, hdone⟩ | ⟨hcounted, happly⟩
  · intro j hj
    have hjold := (hc.tracked_completed hjob hzero hbg (htable.trans hdone)).2 j hj
    exact hc.settled j hjold.1
  intro j hj hpos hwait
  rw [htable, happly, JobTable.jobs_applyStatus] at hj
  have hderef := hc.wellFormed.deref_eq hjob.mem
  rcases mem_modifyFirst_of_nodup hc.wellFormed.nodup hderef hj with rfl | ⟨hj, -⟩
  swap
  · exact hc.settled j hj hpos hwait
  rw [job.addr_applyStatus] at hwait
  -- the job is stopped now, or was in the background and still has a process
  by_cases hstopped : (job.applyStatus ev.pid ev.status).state = jobStopped
  · exact ⟨Or.inr hstopped, hjob.state.exists_alive hstopped⟩
  · have hstate : job.state ≠ jobStopped := by
      cases hstatus : ev.status with
      | stopped sig => exact absurd (by rw [hstatus]; rfl) hstopped
      | _ => rwa [hstatus] at hstopped
    have hbg := (hc.settled job hjob.mem hjob.pgid_pos hwait).1.resolve_right hstate
    refine ⟨Or.inl ((job.isBackground_applyStatus _ _).trans hbg), hjob.live.exists_alive ?_⟩
    exact fun hzero ↦ hcounted ⟨hzero, hbg⟩

/-- A new job has processes that are not children yet, and a group of its own. -/
theorem tracked_launch (hc : MembershipInvariant ⟨s, none⟩) {job : Job} (hjob : s.Launched job) :
    (s.launch job).Tracked := by
  have hpgid : ∃ p ∈ job.processes, p.pid = job.pgid :=
    List.mem_map.mp (List.mem_of_mem_head? hjob.pgid)
  refine hc.tracked.add { job with id := jobsNewId s.table }
    (fun p hp _ ↦ ⟨?_, fun k hk ↦ (hjob.fresh p hp k hk).1⟩) (fun hpos j hj hsame ↦ ?_)
    hc.pidsPos rfl fun k ↦ ?_
  · rw [Process.alive, hjob.running p hp]
    rfl
  · -- a job with this group would have a living child in it
    obtain ⟨-, pid, halive⟩ := hc.settled_idle hj (hsame ▸ hpos)
    obtain ⟨k, hk, -, hkjob⟩ := hc.tracked.record j hj pid halive
    obtain ⟨i, hfind, -, hkpgid, -⟩ := hc.tracked.child k hk
    obtain rfl : i = j := Option.some.inj
      (hfind.symm.trans (hc.tracked.find_eq hc.wellFormed hk hj hkjob))
    obtain ⟨p, hp, hppgid⟩ := hpgid
    exact (hjob.fresh p hp k hk).2 (hkpgid.symm.trans (hsame.trans hppgid.symm))
  · change k ∈ s.children ++ job.kids ↔ _
    rw [List.mem_append, Job.kids, List.mem_map]
    refine or_congr_right (exists_congr fun p ↦ and_congr_right fun hp ↦ ?_)
    exact ⟨fun h ↦ ⟨hjob.pid_pos p hp, h.symm⟩, fun h ↦ h.2.symm⟩

/-- A job is updated by the shell itself. -/
theorem tracked_write (hc : MembershipInvariant ⟨s, w⟩) {s' : JobSystem} {job : Job} {f : Job → Job}
    (hjob : s.table.deref job.addr = some job) (hf : Job.KeepsIdentity f)
    (halive : ∀ pid, (f job).Alive pid ↔ job.Alive pid)
    (htable : s'.table.jobs = (s.table.modify job.addr f).jobs)
    (hchildren : s'.children = s.children) : s'.Tracked :=
  hc.tracked.modify hc.wellFormed (fun _ ↦ False) (JobTable.mem_of_deref hjob) hf
    (fun pid ↦ (halive pid).trans (by simp)) (fun _ h ↦ nomatch h) htable
    fun k ↦ by rw [hchildren]; simp

/-- The job that was waited for has no living process, whether it was forked or not. -/
theorem tracked_finish {v : Wait} (hc : MembershipInvariant ⟨s, some v⟩) {job : Job}
    (hjob : s.table.deref v.addr = some job) (hlive : job.liveProcesses = 0)
    (hstate : v.fromStopped = true ∨ job.state ≠ jobStopped) :
    (s.remove job.pgid).Tracked := by
  have hmem := JobTable.mem_of_deref hjob
  have hunstopped : job.state ≠ jobStopped := hstate.resolve_left fun h ↦
    Bool.false_ne_true ((hc.waiting v rfl).symm.trans h)
  refine hc.tracked.remove (fun j hj hpgid ↦ ?_) (JobTable.jobs_removeJob _ _) rfl
  rcases (hc.state j hj).group with ⟨hun, -⟩ | ⟨-, hpos⟩
  · exact hun.not_alive
  · have haddr := hc.tracked.group j hj job hmem hpos hpgid
    have hsame := (hc.wellFormed.deref_eq hj).symm.trans
      ((congrArg _ haddr).trans (hc.wellFormed.deref_eq hmem))
    rw [Option.some.inj hsame]
    exact (hc.state job hmem).not_alive (hc.jobs job hmem) hlive hunstopped

theorem tracked_step {c c' : Control} (h : c.Step c') (hgood : c'.History HitsTracked)
    (hc : MembershipInvariant c) : c'.sys.Tracked := by
  cases h with
  | allocate s => exact ⟨hc.tracked.child, hc.tracked.record, hc.tracked.group⟩
  | enlist s job haddr hfresh =>
    refine hc.tracked.add { job with id := jobsNewId s.table }
      (fun p hp hpos ↦ absurd (hfresh.processes p hp).1 hpos.ne')
      (fun hpos ↦ absurd hfresh.pgid hpos.ne') hc.pidsPos rfl fun k ↦ ?_
    refine ⟨Or.inl, fun hk ↦ hk.resolve_right ?_⟩
    rintro ⟨p, hp, hpos, -⟩
    exact absurd (hfresh.processes p hp).1 hpos.ne'
  | delist s =>
    refine hc.tracked.remove (fun job hjob hpgid ↦ ?_) (JobTable.jobs_removeJob _ _) rfl
    exact ((hc.state job hjob).group.resolve_right fun h ↦ h.2.ne' hpgid).1.not_alive
  | launch s job haddr hjob => exact hc.tracked_launch hjob
  | reap s w ev =>
    rcases Control.reap_cases s ev with hsame | ⟨hchild, htable, hreaped⟩
    · rw [hsame]
      exact hc.tracked
    · exact hc.tracked_reap (Control.good_of_history hgood hreaped) hchild htable
  | resumeBg s job hjob hstopped =>
    exact hc.tracked_write hjob (Job.keepsIdentity_resume true) job.alive_markContinued
      (s.table.jobs_resume job.addr true) rfl
  | resumeFg s job hjob hstopped hbg =>
    exact hc.tracked_write hjob (Job.keepsIdentity_resume false) job.alive_markContinued
      (s.table.jobs_resume job.addr false) rfl
  | bringForward s job hjob hbg =>
    exact hc.tracked_write hjob Job.keepsIdentity_bringForward (fun _ ↦ Iff.rfl) rfl rfl
  | finish s v job hjob hlive hstate => exact hc.tracked_finish hjob hlive hstate
  | yield s v job hjob hstopped => exact hc.tracked

/-- A job that the shell writes to is waited for from then on, or settled. -/
theorem settled_write (hc : MembershipInvariant ⟨s, none⟩) {t : JobTable} {v : Option Wait}
    {job : Job} {f : Job → Job} (hjob : s.table.deref job.addr = some job)
    (htable : t.jobs = (s.table.modify job.addr f).jobs)
    (hf : (∀ u, v = some u → u.addr ≠ (f job).addr) →
      ((f job).isBackground = true ∨ (f job).state = jobStopped) ∧ ∃ pid, (f job).Alive pid) :
    ∀ j ∈ t.jobs, 0 < j.pgid → (∀ u, v = some u → u.addr ≠ j.addr) →
      (j.isBackground = true ∨ j.state = jobStopped) ∧ ∃ pid, j.Alive pid := by
  intro j hj hpos hwait
  rw [htable] at hj
  rcases mem_modifyFirst hjob hj with rfl | hj
  · exact hf hwait
  · exact hc.settled_idle hj hpos

/-- A job that is launched and not waited for runs in the background, and the first of its
processes is alive. -/
theorem settled_launch (hc : MembershipInvariant ⟨s, none⟩) {job : Job} (hjob : s.Launched job) :
    ∀ j ∈ (s.launch job).table.jobs, 0 < j.pgid →
      (∀ v, job.launchWait = some v → v.addr ≠ j.addr) →
        (j.isBackground = true ∨ j.state = jobStopped) ∧ ∃ pid, j.Alive pid := by
  intro j hj hpos hwait
  rcases List.mem_cons.mp hj with rfl | hj
  · have hbg : job.isBackground = true := by
      by_contra hfg
      exact hwait _ (if_neg hfg) rfl
    obtain ⟨p, hp, -⟩ := List.mem_map.mp (List.mem_of_mem_head? hjob.pgid)
    exact ⟨Or.inl hbg, p.pid, hjob.pid_pos p hp, p, hp, rfl,
      by simp [Process.alive, hjob.running p hp]⟩
  · exact hc.settled_idle hj hpos

/-- Only the job that was waited for could be unsettled, and it is gone. -/
theorem settled_finish {v : Wait} (hc : MembershipInvariant ⟨s, some v⟩) {job : Job}
    (hjob : s.table.deref v.addr = some job) :
    ∀ j ∈ (s.remove job.pgid).table.jobs, 0 < j.pgid →
      (j.isBackground = true ∨ j.state = jobStopped) ∧ ∃ pid, j.Alive pid := by
  intro j hj hpos
  have hj' := (JobTable.jobs_removeJob_sublist _ _).subset hj
  refine hc.settled j hj' hpos fun u hu haddr ↦ ?_
  obtain rfl : j = job := by
    cases hu
    rw [haddr, hc.wellFormed.deref_eq hj'] at hjob
    exact Option.some.inj hjob
  rw [JobSystem.remove, JobTable.jobs_removeJob] at hj
  exact hc.tracked.ne_of_mem_remove hc.wellFormed (JobTable.mem_of_deref hjob) hpos hj rfl

/-- The job that was waited for stopped. -/
theorem settled_yield {v : Wait} (hc : MembershipInvariant ⟨s, some v⟩) {job : Job}
    (hjob : s.table.deref v.addr = some job) (hstopped : job.state = jobStopped) :
    ∀ j ∈ s.table.jobs, 0 < j.pgid →
      (j.isBackground = true ∨ j.state = jobStopped) ∧ ∃ pid, j.Alive pid := by
  intro j hj hpos
  by_cases haddr : v.addr = j.addr
  · rw [haddr, hc.wellFormed.deref_eq hj] at hjob
    obtain rfl := Option.some.inj hjob
    exact ⟨Or.inr hstopped, (hc.state j hj).exists_alive hstopped⟩
  · exact hc.settled j hj hpos fun u hu ↦ Option.some.inj hu ▸ haddr

theorem settled_step {c c' : Control} (h : c.Step c') (hgood : c'.History HitsTracked)
    (hc : MembershipInvariant c) :
    ∀ job ∈ c'.sys.table.jobs, 0 < job.pgid → (∀ v, c'.waiting = some v → v.addr ≠ job.addr) →
      (job.isBackground = true ∨ job.state = jobStopped) ∧ ∃ pid, job.Alive pid := by
  cases h with
  | allocate s => exact hc.settled
  | enlist s job haddr hfresh =>
    intro j hj hpos hwait
    rcases List.mem_cons.mp hj with rfl | hj
    · exact absurd hfresh.pgid hpos.ne'
    · exact hc.settled j hj hpos hwait
  | delist s => exact fun j hj ↦ hc.settled j ((JobTable.jobs_removeJob_sublist _ _).subset hj)
  | launch s job haddr hjob => exact hc.settled_launch hjob
  | reap s w ev =>
    rcases Control.reap_cases s ev with hsame | ⟨hchild, htable, hreaped⟩
    · rw [hsame]
      exact hc.settled
    · exact hc.settled_reap (Control.good_of_history hgood hreaped) hchild htable
  | resumeBg s job hjob hstopped =>
    refine hc.settled_write hjob (s.table.jobs_resume job.addr true) fun _ ↦ ⟨Or.inl rfl, ?_⟩
    obtain ⟨pid, halive⟩ :=
      (hc.state job (JobTable.mem_of_deref hjob)).exists_alive hstopped
    exact ⟨pid, (job.alive_markContinued pid).mpr halive⟩
  | resumeFg s job hjob hstopped hbg =>
    exact hc.settled_write hjob (s.table.jobs_resume job.addr false)
      fun hwait ↦ absurd rfl (hwait _ rfl)
  | bringForward s job hjob hbg =>
    exact hc.settled_write (f := fun job ↦ { job with isBackground := false }) hjob rfl
      fun hwait ↦ absurd rfl (hwait _ rfl)
  | finish s v job hjob hlive hstate =>
    exact fun j hj hpos _ ↦ hc.settled_finish hjob j hj hpos
  | yield s v job hjob hstopped =>
    exact fun j hj hpos _ ↦ hc.settled_yield hjob hstopped j hj hpos

theorem step {c c' : Control} (h : c.Step c') (hgood : c'.History HitsTracked)
    (hc : MembershipInvariant c) : MembershipInvariant c' where
  toLiveInvariant := liveInvariant_step h (fun e he ↦ (hgood e he).running) hc.toLiveInvariant
  state := Control.forall_jobs_of_step h hgood hc.wellFormed (keptByJobs_stateAgrees hc.pidsPos)
    hc.state
  tracked := hc.tracked_step h hgood
  settled := hc.settled_step h hgood
  waiting := by
    cases h with
    | launch s job haddr hjob =>
      intro v hv
      change (if job.isBackground then none else some _) = some v at hv
      split at hv
      · exact nomatch hv
      · exact Option.some.inj hv ▸ rfl
    | reap s w ev => exact hc.waiting
    | resumeFg s job hjob hstopped hbg => exact fun v hv ↦ Option.some.inj hv ▸ rfl
    | bringForward s job hjob hbg =>
      intro v hv
      have hrunning : job.state ≠ jobStopped := fun hstopped ↦ Bool.false_ne_true
        (((hc.state job (JobTable.mem_of_deref hjob)).foreground hstopped).symm.trans hbg)
      exact Option.some.inj hv ▸ decide_eq_false hrunning
    | _ => exact fun _ h ↦ nomatch h

end MembershipInvariant

/-! ## Runs -/

/-- In every state that the shell reaches between two operations, a forked job is in the list if and
only if one of its processes has not been reported as dead, provided that every event so far hit a
process recorded as running or, if it was a stop, a job in the foreground. -/
theorem listed_iff_living {ops : List Op} {sh sh' : Shell} (hinit : sh.Initial)
    (hrun : runOps ops sh = .ok sh') (hhits : ∀ e ∈ sh'.reaped, HitsTracked e.1 e.2) (addr : ℕ) :
    (∃ job ∈ sh'.table.jobs, job.addr = addr ∧ job.forked = true)
      ↔ ∃ k ∈ sh'.children, k.job = addr := by
  have hinv : MembershipInvariant ⟨sh'.toJobSystem, none⟩ :=
    invariant_of_history (runOps_steps hinit hrun) (fun _ _ ↦ Control.history_of_step)
      (fun _ _ h hgood hc ↦ hc.step h hgood) hhits
      { wellFormed := ⟨List.nodup_nil, fun _ h ↦ nomatch h⟩
        pidsPos    := fun _ h ↦ nomatch h
        jobs       := fun _ h ↦ nomatch h
        state      := fun _ h ↦ nomatch h
        tracked    := ⟨(fun _ h ↦ nomatch h), (fun _ h ↦ nomatch h), (fun _ h ↦ nomatch h)⟩
        settled    := fun _ h ↦ nomatch h
        waiting    := fun _ h ↦ nomatch h }
  constructor
  · rintro ⟨job, hjob, rfl, hforked⟩
    obtain ⟨p, hp, hpid⟩ := List.any_eq_true.mp hforked
    have hgroup := (hinv.state job hjob).group.resolve_left fun hun ↦
      of_decide_eq_true hpid (hun.1 p hp).1
    obtain ⟨-, pid, halive⟩ := hinv.settled_idle hjob hgroup.2
    obtain ⟨k, hk, -, hkjob⟩ := hinv.tracked.record job hjob pid halive
    exact ⟨k, hk, hkjob⟩
  · rintro ⟨k, hk, rfl⟩
    obtain ⟨job, hfind, haddr, -, halive⟩ := hinv.tracked.child k hk
    exact ⟨job, List.mem_of_find?_eq_some hfind, haddr, halive.forked⟩

/-- A foreground job stops, is continued by `fg` and exits, while another runs in the background. -/
theorem listed_iff_living_continued :
    ∃ sh', runOps [.line (.word ['b'] true), .line (.word ['a'] false),
        .line (.word ['f', 'g'] false)]
        (.onTerminal { pids := [10, 11], wakeups := [[.sigchld [⟨11, .stopped 20⟩]],
          [.sigchld [⟨11, .exited 0⟩]]] }) = .ok sh' ∧
      sh'.table.jobs.map Job.addr = [0] ∧
      ((∃ job ∈ sh'.table.jobs, job.addr = 1 ∧ job.forked = true)
        ↔ ∃ k ∈ sh'.children, k.job = 1) := by
  have heval : (runOps [.line (.word ['b'] true), .line (.word ['a'] false),
      .line (.word ['f', 'g'] false)]
      (.onTerminal { pids := [10, 11], wakeups := [[.sigchld [⟨11, .stopped 20⟩]],
        [.sigchld [⟨11, .exited 0⟩]]] })).toOption.map
        (fun sh ↦ (sh.table.jobs.map Job.addr, sh.reaped.map fun e ↦
          (jobsFindProcessByPid e.1 e.2.pid).map fun j ↦
            (j.isBackground, (j.process? e.2.pid).map Process.state)))
      = some ([0], List.replicate 2 (some (false, some processRunning))) := by decide +kernel
  obtain ⟨sh', hrun, hsh'⟩ := exists_of_map_eq heval
  obtain ⟨haddrs, hreaped⟩ := Prod.mk.inj hsh'
  have hfound : ∀ e ∈ sh'.reaped, ∀ job, jobsFindProcessByPid e.1 e.2.pid = some job →
      (job.isBackground, (job.process? e.2.pid).map Process.state)
        = (false, some processRunning) := by
    intro e he job hfind
    have hmem := List.mem_map_of_mem (f := fun e : JobTable × WaitEvent ↦
      (jobsFindProcessByPid e.1 e.2.pid).map fun j ↦
        (j.isBackground, (j.process? e.2.pid).map Process.state)) he
    rw [hreaped, hfind] at hmem
    exact Option.some.inj (List.eq_of_mem_replicate hmem)
  refine ⟨sh', hrun, haddrs, listed_iff_living (Shell.initial_onTerminal _) hrun (fun e he ↦ ?_) 1⟩
  refine ⟨fun _ job p hfind hp ↦ ?_, fun _ job _ hfind ↦ (Prod.mk.inj (hfound e he job hfind)).1⟩
  have hstate := (Prod.mk.inj (hfound e he job hfind)).2
  rw [hp] at hstate
  exact Option.some.inj hstate

/-- A background job stops: it is taken off the list, and its process is still there. -/
theorem not_listed_iff_living :
    ¬ ∀ (ops : List Op) (sh sh' : Shell), sh.Initial → runOps ops sh = .ok sh' → ∀ addr,
      ((∃ job ∈ sh'.table.jobs, job.addr = addr ∧ job.forked = true)
        ↔ ∃ k ∈ sh'.children, k.job = addr) := by
  intro hclaim
  have heval : (runOps [.line (.word ['a'] true), .hook [⟨10, .stopped 19⟩]]
      (.onTerminal { pids := [10] })).toOption.map
        (fun sh ↦ (sh.table.jobs.length, sh.children)) = some (0, [⟨10, 10, 0⟩]) := by
    decide +kernel
  obtain ⟨sh', hrun, hsh'⟩ := exists_of_map_eq heval
  obtain ⟨hjobs, hchildren⟩ := Prod.mk.inj hsh'
  have h := hclaim _ _ sh' (Shell.initial_onTerminal _) hrun 0
  obtain ⟨job, hjob, -⟩ := h.mpr ⟨_, hchildren ▸ List.mem_cons_self, rfl⟩
  rw [List.length_eq_zero_iff.mp hjobs] at hjob
  exact nomatch hjob

end Novash
