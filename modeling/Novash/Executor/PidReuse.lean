import Novash.Executor.Membership

/-!
# Pids that are given out again

A record stays in the list as long as its job does, and the pid in it can belong to a new process
by then. The reaper looks a process up by its pid, from the newest job on. So it finds the record of
the process that the event is about before any stale one, and that record is not marked as dead: for
as long as the job of the process is listed.

A job can be taken off the list while one of its processes lives. What the reaper finds for such a
process is nothing, or a stale record of another one.
-/

namespace Novash

open Foundations ProcessState JobState

namespace JobSystem

/-- What `handle_sigchld_events` writes to when a child changes state: its own record, as one of a
living process, or nothing. -/
def AppliesSoundly (s : JobSystem) (k : Child) : Prop :=
  ∀ job p, jobsFindProcessByPid s.table k.pid = some job → job.process? k.pid = some p →
    job.addr = k.job ∧ p.state ≠ processDone ∧ p.state ≠ processKilled

/-- The search for the pid of a child finds its job, in which it is recorded as alive. -/
def FindsOwn (s : JobSystem) (k : Child) : Prop :=
  ∃ job, jobsFindProcessByPid s.table k.pid = some job ∧ job.addr = k.job ∧ job.Alive k.pid

/-- A child whose job is listed is found. -/
def Finds (s : JobSystem) (k : Child) : Prop := k.job ∈ s.table.addrs → s.FindsOwn k

end JobSystem

/-! ## Records with pids of their own -/

/-- The processes of a job were forked, or none of them was. -/
def Job.OwnPids (job : Job) : Prop := job.HasPids ∨ ∀ pid ∈ job.pids, pid = 0

theorem Job.OwnPids.of_pids_eq {job job' : Job} (h : job.OwnPids) (hpids : job'.pids = job.pids) :
    job'.OwnPids := h.imp (fun h ↦ h.of_pids_eq hpids) fun h ↦ hpids ▸ h

theorem keptByJobs_ownPids (s : JobSystem) :
    Control.KeptByJobs Job.OwnPids s fun _ ↦ True where
  fresh _ _ h := Or.inr (List.forall_mem_map.mpr fun p hp ↦ (h.processes p hp).1)
  launched _ _ h := Or.inl
    ⟨List.forall_mem_map.mpr h.pid_pos, List.forall_mem_map.mpr h.pid_lt, h.nodup⟩
  applied job ev _ _ _ h := h.of_pids_eq (job.pids_applyStatus ev.pid ev.status)
  done _ _ h := h.of_pids_eq rfl
  resumed job _ _ h := h.of_pids_eq job.pids_markContinued
  forward _ h := h.of_pids_eq rfl

theorem Job.OwnPids.hasPids {job : Job} {pid : ℕ} (h : job.OwnPids) (halive : job.Alive pid) :
    job.HasPids := by
  obtain ⟨hpos, p, hp, rfl, -⟩ := halive
  exact h.resolve_right fun hzero ↦ hpos.ne' (hzero p.pid (List.mem_map_of_mem hp))

/-- An event leaves a process alive, unless it is its death. -/
theorem Job.Alive.applyStatus {job : Job} {pid q : ℕ} {status : WaitStatus} (h : job.Alive q)
    (hpids : job.OwnPids) (hlives : ¬(status.isDeath = true ∧ q = pid)) :
    (job.applyStatus pid status).Alive q := by
  by_cases hq : q = pid
  · subst hq
    obtain ⟨p, hp, halive⟩ := process?_of_alive (hpids.hasPids h) h
    exact (alive_applyStatus (hpids.hasPids h) hp halive status q).mpr ⟨h, hlives⟩
  · obtain ⟨hpos, p, hp, rfl, halive⟩ := h
    have hmod : ∀ f : Process → Process, (job.modifyProcess pid f).Alive p.pid := fun f ↦
      ⟨hpos, p, mem_modifyFirst_of_not hp (decide_eq_false hq), rfl, halive⟩
    cases status with
    | stopped sig => exact (alive_markStopped _ _).mpr (hmod _)
    | _ => exact hmod _

/-! ## What the operations do to a search -/

namespace JobSystem

variable {s s' : JobSystem} {k : Child}

/-- A job is written, and the child is alive in it still. -/
theorem Finds.modify (h : s.Finds k) (hwf : s.WellFormed) {job : Job} {f : Job → Job}
    (hjob : s.table.deref job.addr = some job) (hf : Job.KeepsIdentity f)
    (halive : k.job = job.addr → job.Alive k.pid → (f job).Alive k.pid)
    (htable : s'.table.jobs = (s.table.modify job.addr f).jobs) : s'.Finds k := by
  intro hlisted
  have haddrs : s'.table.addrs = s.table.addrs :=
    (congrArg (List.map Job.addr) htable).trans (s.table.addrs_modify job.addr f hf.addr)
  obtain ⟨j, hfind, haddr, hpid⟩ := h (haddrs ▸ hlisted)
  have hkeeps : ∀ i, (f i).hasPid k.pid = i.hasPid k.pid := fun i ↦
    Job.hasPid_eq_of_pids (hf.pids i) k.pid
  rw [FindsOwn, jobsFindProcessByPid, htable]
  by_cases hsame : j.addr = job.addr
  · obtain rfl : j = job := Option.some.inj
      ((hwf.deref_of_find hfind).symm.trans ((congrArg _ hsame).trans hjob))
    exact ⟨f j, find?_modifyFirst_of_both hkeeps hjob hfind, (hf.addr j).trans haddr,
      halive haddr.symm hpid⟩
  · exact ⟨j, find?_modifyFirst_of_not hkeeps hfind (decide_eq_false hsame), haddr, hpid⟩

/-- A job is removed. -/
theorem Finds.remove (h : s.Finds k) (hwf : s.WellFormed) {pgid : ℕ}
    (htable : s'.table.jobs = s.table.jobs.eraseP fun j ↦ j.pgid = pgid) : s'.Finds k := by
  intro hlisted
  have hsub : s'.table.addrs.Sublist s.table.addrs :=
    (htable ▸ List.eraseP_sublist : s'.table.jobs.Sublist s.table.jobs).map Job.addr
  obtain ⟨job, hfind, haddr, hpid⟩ := h (hsub.subset hlisted)
  refine ⟨job, ?_, haddr, hpid⟩
  rw [jobsFindProcessByPid, htable]
  cases hx : s.table.jobs.find? fun j ↦ j.pgid = pgid with
  | none => rwa [List.eraseP_of_forall_not (List.find?_eq_none.mp hx)]
  | some x =>
    -- the job that is removed is not the one that the child is in
    refine find?_eraseP hx hfind ?_
    rintro rfl
    obtain ⟨j, hj, hjaddr⟩ := List.mem_map.mp hlisted
    rw [htable] at hj
    exact key_ne_of_mem_eraseP hwf.nodup hx hj (hjaddr.trans haddr.symm)

/-- A job is added that is not the child's, and has no process with its pid. -/
theorem Finds.add (h : s.Finds k) {job : Job} (haddr : job.addr ≠ k.job)
    (hpids : ∀ p ∈ job.processes, p.pid ≠ k.pid) (htable : s'.table.jobs = job :: s.table.jobs) :
    s'.Finds k := by
  intro hlisted
  rw [JobTable.addrs, htable, List.map_cons, List.mem_cons] at hlisted
  have hnot : job.hasPid k.pid = false :=
    List.any_eq_false.mpr fun p hp hpid ↦ hpids p hp (of_decide_eq_true hpid)
  obtain ⟨j, hfind, hj⟩ := h (hlisted.resolve_left fun heq ↦ haddr heq.symm)
  refine ⟨j, ?_, hj⟩
  rw [jobsFindProcessByPid, htable, List.find?_cons, hnot]
  exact hfind

end JobSystem

/-! ## Steps and runs -/

/-- What is known of the children, whatever has been reaped. -/
structure PidInvariant (c : Control) : Prop where
  wellFormed : c.sys.WellFormed
  pidsPos : c.sys.PidsPos
  nodup : (c.sys.children.map Child.pid).Nodup
  lt_heap : ∀ k ∈ c.sys.children, k.job < c.sys.heap
  ownPids : ∀ job ∈ c.sys.table.jobs, job.OwnPids
  finds : ∀ k ∈ c.sys.children, c.sys.Finds k

namespace PidInvariant

variable {s : JobSystem} {w : Option Wait} {k : Child} {ev : WaitEvent}

theorem finds_reap (hc : PidInvariant ⟨s, w⟩) (hk : k ∈ (s.reap ev).children) :
    (s.reap ev).Finds k := by
  obtain ⟨hk, hlives⟩ := (s.mem_children_reap ev k).mp hk
  rcases Control.reap_cases s ev with hsame | ⟨-, htable, -⟩
  · rw [hsame]
    exact hc.finds k hk
  rcases s.table.reap_cases ev with ⟨-, hsame⟩ | ⟨job, hfind, hcases⟩
  · rw [JobSystem.Finds, JobSystem.FindsOwn, htable, hsame]
    exact hc.finds k hk
  have hderef := hc.wellFormed.deref_of_find hfind
  have hown := hc.ownPids job (JobTable.mem_of_deref hderef)
  have halive : k.job = job.addr → job.Alive k.pid →
      (job.applyStatus ev.pid ev.status).Alive k.pid := fun _ h ↦ h.applyStatus hown hlives
  rcases hcases with ⟨-, -, hdone⟩ | ⟨-, happly⟩
  · -- the job takes in the event, is marked as done, and goes
    let f : Job → Job := fun j ↦ { j.applyStatus ev.pid ev.status with state := jobDone }
    have hf : Job.KeepsIdentity f := Job.keepsIdentity_complete ev.pid ev.status
    let s₁ : JobSystem := { s with table := s.table.modify job.addr f }
    have hfinds : s₁.Finds k := (hc.finds k hk).modify hc.wellFormed hderef hf halive rfl
    have hjobs : (s.reap ev).table.jobs = s₁.table.jobs.eraseP fun j ↦ j.pgid = job.pgid := by
      rw [htable, hdone, JobTable.jobs_markCompleted_applyStatus]
    exact hfinds.remove (hc.wellFormed.of_eq (s.table.addrs_modify job.addr f hf.addr) le_rfl) hjobs
  · refine (hc.finds k hk).modify hc.wellFormed hderef
      (Job.keepsIdentity_applyStatus ev.pid ev.status) halive ?_
    rw [htable, happly, JobTable.jobs_applyStatus]
    rfl

theorem finds_launch (hc : PidInvariant ⟨s, none⟩) {job : Job} (haddr : job.addr = s.heap)
    (hjob : s.Launched job) (hk : k ∈ (s.launch job).children) : (s.launch job).Finds k := by
  rcases List.mem_append.mp hk with hk | hk
  · refine (hc.finds k hk).add ?_ (fun p hp ↦ ?_) rfl
    · exact fun heq ↦ (hc.lt_heap k hk).ne' (haddr.symm.trans heq)
    · exact ((hjob.fresh p hp k hk).1).symm
  · -- a child of the new job, which the search meets first
    obtain ⟨p, hp, rfl⟩ := List.mem_map.mp hk
    have halive : Job.Alive { job with id := jobsNewId s.table } p.pid :=
      ⟨hjob.pid_pos p hp, p, hp, rfl, by rw [Process.alive, hjob.running p hp]; rfl⟩
    refine fun _ ↦ ⟨{ job with id := jobsNewId s.table }, ?_, rfl, halive⟩
    exact List.find?_cons_of_pos halive.hasPid

theorem finds_step {c c' : Control} (h : c.Step c') (hc : PidInvariant c) :
    ∀ k ∈ c'.sys.children, c'.sys.Finds k := by
  cases h with
  | allocate s => exact hc.finds
  | enlist s job haddr hfresh =>
    intro k hk
    refine (hc.finds k hk).add ?_ (fun p hp ↦ ?_) rfl
    · exact fun heq ↦ (hc.lt_heap k hk).ne' (haddr.symm.trans heq)
    · rw [(hfresh.processes p hp).1]
      exact (hc.pidsPos k hk).ne
  | delist s =>
    exact fun k hk ↦ (hc.finds k hk).remove hc.wellFormed (JobTable.jobs_removeJob _ _)
  | launch s job haddr hjob => exact fun k hk ↦ hc.finds_launch haddr hjob hk
  | reap s w ev => exact fun k hk ↦ hc.finds_reap hk
  | resumeBg s job hjob hstopped =>
    exact fun k hk ↦ (hc.finds k hk).modify hc.wellFormed hjob (Job.keepsIdentity_resume true)
      (fun _ ↦ (job.alive_markContinued k.pid).mpr) (s.table.jobs_resume job.addr true)
  | resumeFg s job hjob hstopped hbg =>
    exact fun k hk ↦ (hc.finds k hk).modify hc.wellFormed hjob (Job.keepsIdentity_resume false)
      (fun _ ↦ (job.alive_markContinued k.pid).mpr) (s.table.jobs_resume job.addr false)
  | bringForward s job hjob hbg =>
    exact fun k hk ↦ (hc.finds k hk).modify hc.wellFormed hjob Job.keepsIdentity_bringForward
      (fun _ ↦ id) rfl
  | finish s v job hjob hlive hstate =>
    exact fun k hk ↦ (hc.finds k hk).remove hc.wellFormed (JobTable.jobs_removeJob _ _)
  | yield s v job hjob hstopped => exact hc.finds

theorem nodup_step {c c' : Control} (h : c.Step c') (hc : PidInvariant c) :
    (c'.sys.children.map Child.pid).Nodup := by
  cases h with
  | launch s job haddr hjob =>
    change ((s.children ++ job.kids).map Child.pid).Nodup
    have hkids : job.kids.map Child.pid = job.processes.map Process.pid := List.map_map
    rw [List.map_append, hkids]
    refine hc.nodup.append hjob.nodup fun pid hold hnew ↦ ?_
    obtain ⟨k, hk, rfl⟩ := List.mem_map.mp hold
    obtain ⟨p, hp, hpid⟩ := List.mem_map.mp hnew
    exact (hjob.fresh p hp k hk).1 hpid.symm
  | reap s w ev =>
    refine hc.nodup.sublist (List.Sublist.map _ ?_)
    change (s.reap ev).children.Sublist s.children
    unfold JobSystem.reap
    split
    · dsimp only
      split
      · exact List.filter_sublist
      · rfl
    · rfl
  | _ => exact hc.nodup

theorem lt_heap_step {c c' : Control} (h : c.Step c') (hc : PidInvariant c) :
    ∀ k ∈ c'.sys.children, k.job < c'.sys.heap := by
  have hgrow : ∀ k ∈ c.sys.children, k.job < c.sys.heap + 1 := fun k hk ↦
    (hc.lt_heap k hk).trans (Nat.lt_succ_self _)
  cases h with
  | allocate s => exact hgrow
  | enlist s job haddr hfresh => exact hgrow
  | launch s job haddr hjob =>
    refine List.forall_mem_append.mpr ⟨hgrow, List.forall_mem_map.mpr fun p hp ↦ ?_⟩
    exact haddr ▸ Nat.lt_succ_self _
  | reap s w ev =>
    intro k hk
    exact (hc.lt_heap k ((s.mem_children_reap ev k).mp hk).1).trans_le
      (JobSystem.WellFormed.heap_reap s ev).ge
  | _ => exact hc.lt_heap

theorem step {c c' : Control} (h : c.Step c') (hc : PidInvariant c) : PidInvariant c' where
  wellFormed := Control.wellFormed_step h hc.wellFormed
  pidsPos := hc.pidsPos.step h
  nodup := hc.nodup_step h
  lt_heap := hc.lt_heap_step h
  ownPids :=
    have hgood : c'.History fun _ _ ↦ True := fun _ _ ↦ trivial
    Control.forall_jobs_of_step h hgood hc.wellFormed (keptByJobs_ownPids c.sys) hc.ownPids
  finds := hc.finds_step h

/-- In every state that is reached, with any events at any time. -/
theorem of_runs {c : Control} (hrun : Control.Runs {} c) : PidInvariant c :=
  invariant_of_step hrun (fun _ _ h hc ↦ hc.step h)
    { wellFormed := ⟨List.nodup_nil, fun _ h ↦ nomatch h⟩
      pidsPos := fun _ h ↦ nomatch h
      nodup := List.nodup_nil
      lt_heap := fun _ h ↦ nomatch h
      ownPids := fun _ h ↦ nomatch h
      finds := fun _ h ↦ nomatch h }

end PidInvariant

/-- **Whose record an event is applied to.** Whatever the shell has done and whatever has happened
to its children, the next event of a child goes to the record of that child, as one of a living
process, or to none: exactly when the job of the child is listed still, or no record has its pid. -/
theorem appliesSoundly_iff {c : Control} (hrun : Control.Runs {} c) {k : Child}
    (hk : k ∈ c.sys.children) :
    c.sys.AppliesSoundly k ↔
      k.job ∈ c.sys.table.addrs ∨ jobsFindProcessByPid c.sys.table k.pid = none := by
  have hinv := PidInvariant.of_runs hrun
  constructor
  · intro hsound
    cases hfind : jobsFindProcessByPid c.sys.table k.pid with
    | none => exact Or.inr rfl
    | some job =>
      obtain ⟨p, hp⟩ := Job.exists_process?_of_find hfind
      obtain ⟨haddr, -⟩ := hsound job p hfind hp
      exact Or.inl (haddr ▸ List.mem_map_of_mem (List.mem_of_find?_eq_some hfind))
  · rintro (hlisted | hnone) job p hfind hp
    · obtain ⟨j, hj, haddr, halive⟩ := hinv.finds k hk hlisted
      obtain rfl : j = job := Option.some.inj (hj.symm.trans hfind)
      have hpids := (hinv.ownPids j (List.mem_of_find?_eq_some hfind)).hasPids halive
      obtain ⟨q, hq, hqalive⟩ := Job.process?_of_alive hpids halive
      obtain rfl : q = p := Option.some.inj (hq.symm.trans hp)
      refine ⟨haddr, fun hdone ↦ ?_, fun hkilled ↦ ?_⟩
      · simp [Process.alive, hdone] at hqalive
      · simp [Process.alive, hkilled] at hqalive
    · cases hnone.symm.trans hfind

/-- Pid 11 is given out again, to `c &`, while the record of `b` in `a | b &` still has it. -/
theorem appliesSoundly_iff_reused :
    ∃ sh', runOps [.line (.pipeline [.word ['a'] true, .word ['b'] true] false),
        .hook [⟨11, .exited 0⟩], .line (.word ['c'] true)]
        (.onTerminal { pids := [10, 11, 11] }) = .ok sh' ∧
      sh'.table.jobs.map Job.pids = [[11], [10, 11]] ∧
        sh'.toJobSystem.AppliesSoundly ⟨11, 11, 1⟩ := by
  have heval : (runOps [.line (.pipeline [.word ['a'] true, .word ['b'] true] false),
      .hook [⟨11, .exited 0⟩], .line (.word ['c'] true)]
      (.onTerminal { pids := [10, 11, 11] })).toOption.map
        (fun sh ↦ (sh.table.jobs.map Job.pids, sh.children, sh.table.addrs))
      = some ([[11], [10, 11]], [⟨10, 10, 0⟩, ⟨11, 11, 1⟩], [1, 0]) := by decide +kernel
  obtain ⟨sh', hrun, hsh'⟩ := exists_of_map_eq heval
  obtain ⟨hpids, hsh'⟩ := Prod.mk.inj hsh'
  obtain ⟨hchildren, haddrs⟩ := Prod.mk.inj hsh'
  have hruns := runOps_steps (Shell.initial_onTerminal _) hrun
  refine ⟨sh', hrun, hpids, (appliesSoundly_iff hruns ?_).mpr (Or.inl ?_)⟩
  · exact hchildren ▸ List.mem_cons_of_mem _ List.mem_cons_self
  · exact haddrs ▸ List.mem_cons_self

/-- And then `c` is stopped, which takes its job off the list. The event in which it is killed goes
to the record of `b`, which is marked as done. -/
theorem not_appliesSoundly :
    ¬∀ (ops : List Op) (sh sh' : Shell), sh.Initial → runOps ops sh = .ok sh' →
      ∀ k ∈ sh'.children, sh'.toJobSystem.AppliesSoundly k := by
  intro hclaim
  have heval : (runOps [.line (.pipeline [.word ['a'] true, .word ['b'] true] false),
      .hook [⟨11, .exited 0⟩], .line (.word ['c'] true), .hook [⟨11, .stopped 19⟩]]
      (.onTerminal { pids := [10, 11, 11] })).toOption.map
        (fun sh ↦ (sh.children, (jobsFindProcessByPid sh.table 11).map fun job ↦
          (job.addr, (job.process? 11).map Process.state)))
      = some ([⟨10, 10, 0⟩, ⟨11, 11, 1⟩], some (0, some processDone)) := by decide +kernel
  obtain ⟨sh', hrun, hsh'⟩ := exists_of_map_eq heval
  obtain ⟨hchildren, hfound⟩ := Prod.mk.inj hsh'
  obtain ⟨job, hfind, hjob⟩ := Option.map_eq_some_iff.mp hfound
  obtain ⟨haddr, hp⟩ := Prod.mk.inj hjob
  obtain ⟨p, hp, -⟩ := Option.map_eq_some_iff.mp hp
  have hk : ⟨11, 11, 1⟩ ∈ sh'.children := hchildren ▸ List.mem_cons_of_mem _ List.mem_cons_self
  have hown := (hclaim _ _ sh' (Shell.initial_onTerminal _) hrun _ hk job p hfind hp).1
  exact absurd (haddr.symm.trans hown) (by decide)

end Novash
