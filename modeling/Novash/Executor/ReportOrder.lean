import Mathlib.Data.UInt
import Novash.Executor.AwaitedJob
import Novash.Foundations.Reactions

/-!
# The order of the reports

`waitpid` reports on the children of all jobs, in an order that depends on how they are scheduled.
As long as the listed jobs can be told apart, by their addresses, groups and pids, a report is taken
in by one job at most, and by the others as if it had not been there. So each job goes through its
own reports (`table_handleSigchldEvents`), and reports on different jobs can be taken in in any
order (`handleSigchldEvents_reordered`).
-/

namespace Novash

open Foundations ProcessState JobState

/-! ## One job -/

namespace Job

/-- What becomes of a job with a report; `none` if it is completed and removed. -/
def react (ev : WaitEvent) (job : Job) : Option Job :=
  if job.hasPid ev.pid then
    let job := job.applyStatus ev.pid ev.status
    if job.liveProcesses = 0 && job.isBackground then none else some job
  else some job

/-- What it takes off `jobs_count` and `running_jobs_count`: a stop counts even if the job was
stopped before, and a completed job even if it was. -/
def weight (ev : WaitEvent) (job : Job) : UInt64 × UInt64 :=
  let left : UInt64 := if (job.react ev).isNone then 1 else 0
  (left, left +
    match ev.status with
    | .stopped _ => if job.hasPid ev.pid then 1 else 0
    | _ => 0)

variable {ev : WaitEvent} {job job' : Job}

theorem react_of_not (h : job.hasPid ev.pid = false) :
    job.react ev = some job ∧ job.weight ev = 0 := by
  have hreact : job.react ev = some job := by rw [react, h, if_neg Bool.false_ne_true]
  refine ⟨hreact, ?_⟩
  rw [weight, hreact, h]
  cases ev.status <;> rfl

theorem eq_of_react (h : job.react ev = some job') :
    job'.addr = job.addr ∧ job'.pgid = job.pgid ∧ job'.pids = job.pids := by
  unfold react at h
  dsimp only at h
  split_ifs at h with hpid hdone
  · cases h
    have hkeeps := keepsIdentity_applyStatus ev.pid ev.status
    exact ⟨hkeeps.addr job, hkeeps.pgid job, hkeeps.pids job⟩
  · cases h
    exact ⟨rfl, rfl, rfl⟩

theorem hasPid_of_react (h : job.react ev = some job') (pid : ℕ) :
    job'.hasPid pid = job.hasPid pid :=
  hasPid_eq_of_pids (eq_of_react h).2.2 pid

end Job

/-! ## One report -/

namespace JobTable

variable {t : JobTable} {ev : WaitEvent}

/-- The listed jobs have addresses, groups and pids of their own. -/
structure Apart (t : JobTable) : Prop where
  addrs : t.addrs.Nodup
  pgids : t.pgids.Nodup
  pids : t.jobs.Pairwise fun j j' ↦ ∀ pid, 0 < pid → j.hasPid pid = true → j'.hasPid pid = false

/-- A table with other jobs, from whose counters something is taken. -/
def count (t : JobTable) (s : List Job × UInt64 × UInt64) : JobTable where
  jobs := s.1
  jobsCount := t.jobsCount - s.2.1
  runningJobsCount := t.runningJobsCount - s.2.2

theorem eq_count {t' : JobTable} {s : List Job × UInt64 × UInt64} (hjobs : t'.jobs = s.1)
    (hcount : t'.jobsCount = t.jobsCount - s.2.1)
    (hrunning : t'.runningJobsCount = t.runningJobsCount - s.2.2) : t' = t.count s := by
  obtain ⟨jobs, jobsCount, runningJobsCount⟩ := t'
  exact congr (congr (congrArg JobTable.mk hjobs) hcount) hrunning

/-- Jobs that a report is not about. -/
theorem react_of_forall_not {l : List Job} (hl : ∀ job ∈ l, job.hasPid ev.pid = false) :
    l.filterMap (Job.react ev) = l ∧ (l.map (Job.weight ev)).sum = 0 := by
  induction l with
  | nil => exact ⟨rfl, rfl⟩
  | cons job l ih =>
    obtain ⟨hjob, hl⟩ := List.forall_mem_cons.mp hl
    obtain ⟨hreact, hweight⟩ := Job.react_of_not hjob
    rw [List.filterMap_cons, hreact, List.map_cons, List.sum_cons, hweight, zero_add]
    exact ⟨congrArg (job :: ·) (ih hl).1, (ih hl).2⟩

/-- Writing to a job through its address, where the job stands. -/
theorem modifyFirst_append {f : Job → Job} {before after : List Job} {job : Job}
    (h : ∀ j ∈ before, j.addr ≠ job.addr) :
    modifyFirst (fun j ↦ j.addr = job.addr) f (before ++ job :: after)
      = before ++ f job :: after := by
  induction before with
  | nil => rw [List.nil_append, List.nil_append, modifyFirst, if_pos (decide_eq_true rfl)]
  | cons j before ih =>
    obtain ⟨hj, hbefore⟩ := List.forall_mem_cons.mp h
    rw [List.cons_append, List.cons_append, modifyFirst, if_neg (by simpa using hj), ih hbefore]

/-- The job that a report is about, and the others. -/
theorem Apart.exists_append (h : t.Apart) (hpos : 0 < ev.pid) {job : Job}
    (hfind : jobsFindProcessByPid t ev.pid = some job) :
    job.hasPid ev.pid = true ∧ ∃ before after, t.jobs = before ++ job :: after ∧
      (∀ j ∈ before, j.addr ≠ job.addr ∧ j.pgid ≠ job.pgid) ∧
      (∀ j ∈ before, j.hasPid ev.pid = false) ∧ ∀ j ∈ after, j.hasPid ev.pid = false := by
  obtain ⟨hpid, before, after, hjobs, hbefore⟩ := List.find?_eq_some_iff_append.mp hfind
  have haddrs := h.addrs
  have hpgids := h.pgids
  have hpids := h.pids
  rw [JobTable.addrs, hjobs, List.map_append, List.map_cons, List.nodup_append] at haddrs
  rw [JobTable.pgids, hjobs, List.map_append, List.map_cons, List.nodup_append] at hpgids
  rw [hjobs, List.pairwise_append, List.pairwise_cons] at hpids
  refine ⟨hpid, before, after, hjobs, fun j hj ↦ ⟨?_, ?_⟩, fun j hj ↦ ?_, fun j hj ↦ ?_⟩
  · exact haddrs.2.2 _ (List.mem_map_of_mem hj) _ List.mem_cons_self
  · exact hpgids.2.2 _ (List.mem_map_of_mem hj) _ List.mem_cons_self
  · simpa using hbefore j hj
  · exact hpids.2.1.1 j hj ev.pid hpos hpid

/-- A job that stands apart is removed when it is completed. -/
theorem markCompleted_append {before after : List Job} {job : Job}
    (hjobs : t.jobs = before ++ job :: after)
    (hkeys : ∀ j ∈ before, j.addr ≠ job.addr ∧ j.pgid ≠ job.pgid) :
    jobsMarkJobCompleted t job
      = ⟨before ++ after, t.jobsCount - 1, t.runningJobsCount - 1⟩ := by
  let done : Job := { job with state := jobDone }
  have hmodify : (t.modify job.addr fun j ↦ { j with state := jobDone }).jobs
      = before ++ done :: after := by
    rw [jobs_modify, hjobs, modifyFirst_append fun j hj ↦ (hkeys j hj).1]
  have hother : ∀ j ∈ before, ¬decide (j.pgid = job.pgid) = true := fun j hj h ↦
    (hkeys j hj).2 (of_decide_eq_true h)
  have hfirst : (done :: after).find? (fun j ↦ decide (j.pgid = job.pgid)) = some done :=
    List.find?_cons_of_pos (decide_eq_true rfl)
  have herase : (done :: after).eraseP (fun j ↦ decide (j.pgid = job.pgid)) = after :=
    List.eraseP_cons_of_pos (decide_eq_true rfl)
  have hfind : jobsFindJobByPgid (t.modify job.addr fun j ↦ { j with state := jobDone }) job.pgid
      = some done := by
    rw [jobsFindJobByPgid, hmodify, List.find?_append, List.find?_eq_none.mpr hother, hfirst]
    rfl
  have hstate : done.state ≠ jobStopped := by simp [done]
  rw [jobsMarkJobCompleted, jobsRemoveJob, hfind]
  dsimp only
  rw [hmodify, List.eraseP_append_right _ hother, herase, if_pos hstate]
  rfl

/-- Among jobs that are told apart, one report goes to one job. -/
theorem reap_eq (h : t.Apart) (hpos : 0 < ev.pid) :
    t.reap ev = t.count (t.jobs.filterMap (Job.react ev), (t.jobs.map (Job.weight ev)).sum) := by
  rcases t.reap_cases ev with ⟨hnone, hreap⟩ | ⟨job, hfind, hcases⟩
  · have hnot : ∀ job ∈ t.jobs, job.hasPid ev.pid = false := by
      simpa [jobsFindProcessByPid] using hnone
    obtain ⟨hjobs, hsum⟩ := react_of_forall_not hnot
    rw [hreap, hjobs, hsum]
    exact eq_count rfl (sub_zero _).symm (sub_zero _).symm
  obtain ⟨hpid, before, after, hjobs, hkeys, hbefore, hafter⟩ := h.exists_append hpos hfind
  obtain ⟨hreact₁, hsum₁⟩ := react_of_forall_not hbefore
  obtain ⟨hreact₂, hsum₂⟩ := react_of_forall_not hafter
  have hsum : (t.jobs.map (Job.weight ev)).sum = job.weight ev := by
    rw [hjobs, List.map_append, List.sum_append, List.map_cons, List.sum_cons, hsum₁, hsum₂,
      zero_add, add_zero]
  rw [hsum]
  rcases hcases with ⟨hlive, hbg, hreap⟩ | ⟨hnot, hreap⟩
  · have hreact : job.react ev = none := by
      rw [Job.react, if_pos hpid]
      simp [hlive, hbg]
    have happlied : (t.applyStatus job.addr ev.pid ev.status).jobs
        = before ++ job.applyStatus ev.pid ev.status :: after := by
      rw [jobs_applyStatus, hjobs, modifyFirst_append fun j hj ↦ (hkeys j hj).1]
    have hkeeps := Job.keepsIdentity_applyStatus ev.pid ev.status
    rw [hreap, markCompleted_append happlied (by rwa [hkeeps.addr, hkeeps.pgid])]
    refine eq_count ?_ ?_ ?_
    · rw [hjobs, List.filterMap_append, hreact₁, List.filterMap_cons, hreact, hreact₂]
    · rw [Job.weight, hreact]
      cases ev.status <;> rfl
    · rw [Job.weight, hreact, hpid]
      cases ev.status with
      | stopped sig => exact sub_sub _ _ _ |>.trans (by rw [add_comm]; rfl)
      | _ => exact congrArg (t.runningJobsCount - ·) (add_zero _).symm
  · have hreact : job.react ev = some (job.applyStatus ev.pid ev.status) := by
      rw [Job.react, if_pos hpid]
      exact if_neg (by simpa using hnot)
    rw [hreap]
    refine eq_count ?_ ?_ ?_
    · rw [jobs_applyStatus, hjobs, modifyFirst_append fun j hj ↦ (hkeys j hj).1,
        List.filterMap_append, hreact₁, List.filterMap_cons, hreact, hreact₂]
    · rw [Job.weight, hreact]
      cases ev.status <;> exact (sub_zero _).symm
    · rw [Job.weight, hreact, hpid]
      cases ev.status with
      | stopped sig => exact congrArg (t.runningJobsCount - ·) (zero_add _).symm
      | _ => exact (sub_zero _).symm

theorem Apart.count (h : t.Apart) (n : UInt64 × UInt64) :
    (t.count (t.jobs.filterMap (Job.react ev), n)).Apart := by
  have hkeys {β : Type} (key : Job → β)
      (hkey : ∀ job job', job.react ev = some job' → key job' = key job) :
      ((t.jobs.filterMap (Job.react ev)).map key).Sublist (t.jobs.map key) := by
    induction t.jobs with
    | nil => exact List.Sublist.refl _
    | cons job l ih =>
      rw [List.filterMap_cons]
      cases hreact : job.react ev with
      | none => exact ih.cons _
      | some job' =>
        dsimp only
        rw [List.map_cons, List.map_cons, hkey job job' hreact]
        exact ih.cons_cons _
  refine ⟨h.addrs.sublist (hkeys _ fun _ _ h ↦ (Job.eq_of_react h).1),
    h.pgids.sublist (hkeys _ fun _ _ h ↦ (Job.eq_of_react h).2.1), ?_⟩
  refine h.pids.filterMap _ fun j j' hpids i hi i' hi' pid hpos hpid ↦ ?_
  rw [Job.hasPid_of_react hi']
  exact hpids pid hpos (Job.hasPid_of_react hi pid ▸ hpid)

theorem count_count (t : JobTable) (s s' : List Job × UInt64 × UInt64) :
    (t.count s).count s' = t.count (s'.1, s.2 + s'.2) :=
  eq_count rfl (sub_sub _ _ _) (sub_sub _ _ _)

theorem foldl_reap_count (events : List WaitEvent) (hpos : ∀ ev ∈ events, 0 < ev.pid) :
    ∀ s : List Job × UInt64 × UInt64, (t.count s).Apart →
      events.foldl reap (t.count s) = t.count (events.foldl (fun s ev ↦
        (s.1.filterMap (Job.react ev), s.2 + (s.1.map (Job.weight ev)).sum)) s) := by
  induction events with
  | nil => exact fun _ _ ↦ rfl
  | cons ev events ih =>
    intro s hs
    obtain ⟨hev, hevents⟩ := List.forall_mem_cons.mp hpos
    have hreap := reap_eq hs hev
    have hnext : ((t.count s).count
        (s.1.filterMap (Job.react ev), (s.1.map (Job.weight ev)).sum)).Apart := hs.count _
    rw [List.foldl_cons, List.foldl_cons, hreap]
    rw [count_count] at hnext ⊢
    exact ih hevents _ hnext

/-- Every job goes through the reports as if it were alone. -/
theorem foldl_reap_eq (h : t.Apart) (events : List WaitEvent) (hpos : ∀ ev ∈ events, 0 < ev.pid) :
    events.foldl reap t = t.count (t.jobs.filterMap (reactAll Job.react events),
      (t.jobs.map (weighAll Job.react Job.weight events)).sum) := by
  have hself : t.count (t.jobs, 0) = t := (eq_count rfl (sub_zero _).symm (sub_zero _).symm).symm
  have hfold := foldl_reap_count events hpos (t.jobs, 0) (hself.symm ▸ h)
  rwa [hself, foldl_react, zero_add] at hfold

end JobTable

/-! ## The reports that reach the list -/

/-- The reports that `waitpid` gives, about children that there are when it gives them. -/
def givenReports : List Child → List WaitEvent → List WaitEvent
  | _, [] => []
  | children, ev :: events =>
    if children.any fun c ↦ c.pid = ev.pid then
      ev :: givenReports
        (if ev.status.isDeath then children.filter fun c ↦ c.pid ≠ ev.pid else children) events
    else givenReports children events

theorem givenReports_sublist (events : List WaitEvent) : ∀ children : List Child,
    (givenReports children events).Sublist events := by
  induction events with
  | nil => exact fun _ ↦ List.Sublist.refl _
  | cons ev events ih =>
    intro children
    rw [givenReports]
    split
    · exact (ih _).cons_cons _
    · exact (ih _).cons _

theorem any_without (children : List Child) (q pid : ℕ) :
    ((children.filter fun c ↦ c.pid ≠ q).any fun c ↦ c.pid = pid)
      = (decide (pid ≠ q) && children.any fun c ↦ c.pid = pid) := by
  rw [Bool.eq_iff_iff]
  simp only [List.any_filter, List.any_eq_true, Bool.and_eq_true, decide_eq_true_eq]
  constructor
  · rintro ⟨c, hc, hne, rfl⟩
    exact ⟨hne, c, hc, rfl⟩
  · rintro ⟨hne, c, hc, rfl⟩
    exact ⟨c, hc, hne, rfl⟩

/-- Whether a report is given depends on the reports about the same process. -/
theorem filter_givenReports (p : ℕ → Bool) (events : List WaitEvent) :
    ∀ {children children' : List Child},
      (∀ pid, p pid = true →
        (children.any fun c ↦ c.pid = pid) = children'.any fun c ↦ c.pid = pid) →
      (givenReports children events).filter (fun ev ↦ p ev.pid)
        = givenReports children' (events.filter fun ev ↦ p ev.pid) := by
  induction events with
  | nil => exact fun _ ↦ rfl
  | cons ev events ih =>
    intro children children' hsame
    rw [givenReports]
    cases hp : p ev.pid with
    | true =>
      have hcons (l : List WaitEvent) : (ev :: l).filter (fun ev ↦ p ev.pid)
          = ev :: l.filter fun ev ↦ p ev.pid := List.filter_cons_of_pos hp
      rw [hcons, givenReports, ← hsame ev.pid hp]
      split
      · rw [hcons, ih]
        intro pid hpid
        split
        · rw [any_without, any_without, hsame pid hpid]
        · exact hsame pid hpid
      · exact ih hsame
    | false =>
      have hnot : ¬p ev.pid = true := by rw [hp]; decide
      have hcons (l : List WaitEvent) : (ev :: l).filter (fun ev ↦ p ev.pid)
          = l.filter fun ev ↦ p ev.pid := List.filter_cons_of_neg hnot
      rw [hcons]
      split
      · rw [hcons]
        refine ih fun pid hpid ↦ ?_
        have hne : pid ≠ ev.pid := fun h ↦ hnot (h ▸ hpid)
        split
        · rw [any_without, decide_eq_true hne, Bool.true_and, hsame pid hpid]
        · exact hsame pid hpid
      · exact ih hsame

namespace JobSystem

theorem table_foldl_reap (events : List WaitEvent) : ∀ s : JobSystem,
    (events.foldl reap s).table = (givenReports s.children events).foldl JobTable.reap s.table := by
  induction events with
  | nil => exact fun _ ↦ rfl
  | cons ev events ih =>
    intro s
    rw [List.foldl_cons, ih, givenReports, reap]
    split <;> rfl

theorem children_reap_eq (s : JobSystem) (ev : WaitEvent) :
    (s.reap ev).children
      = s.children.filter fun c ↦ !(ev.status.isDeath && decide (c.pid = ev.pid)) := by
  rw [reap]
  split
  · cases ev.status.isDeath <;> simp
  · next hnone =>
    refine (List.filter_eq_self.mpr fun c hc ↦ ?_).symm
    have hne : ¬c.pid = ev.pid := by simpa using fun h ↦ hnone (List.any_eq_true.mpr ⟨c, hc, h⟩)
    simp [hne]

/-- The children that are left are those about which no death was reported. -/
theorem children_foldl_reap_eq (events : List WaitEvent) : ∀ s : JobSystem,
    (events.foldl reap s).children
      = s.children.filter fun c ↦
          events.all fun ev ↦ !(ev.status.isDeath && decide (c.pid = ev.pid)) := by
  induction events with
  | nil => exact fun s ↦ (List.filter_eq_self.mpr fun _ _ ↦ rfl).symm
  | cons ev events ih =>
    intro s
    rw [List.foldl_cons, ih, children_reap_eq, List.filter_filter]
    exact List.filter_congr fun c _ ↦ by rw [List.all_cons, Bool.and_comm]

end JobSystem

/-! ## Any order -/

variable {sh : Shell} {events events' : List WaitEvent}

/-- What a job is left as after the reports on its processes. -/
theorem table_handleSigchldEvents (h : sh.table.Apart) (hpos : ∀ ev ∈ events, 0 < ev.pid) :
    (handleSigchldEvents sh events).table = sh.table.count
      (sh.table.jobs.filterMap fun job ↦
        reactAll Job.react
          (givenReports sh.children (events.filter fun ev ↦ job.hasPid ev.pid)) job,
      (sh.table.jobs.map fun job ↦ weighAll Job.react Job.weight
        (givenReports sh.children (events.filter fun ev ↦ job.hasPid ev.pid)) job).sum) := by
  have hgiven : ∀ ev ∈ givenReports sh.children events, 0 < ev.pid := fun ev hev ↦
    hpos ev ((givenReports_sublist events _).subset hev)
  have hown (job : Job) := react_own Job.react Job.weight (fun job ev ↦ job.hasPid ev.pid)
    (fun _ _ ↦ Job.react_of_not) (fun _ _ _ h ↦ funext fun _ ↦ Job.hasPid_of_react h _)
    (givenReports sh.children events) job
  have hfilter (job : Job) :
      (givenReports sh.children events).filter (fun ev ↦ job.hasPid ev.pid)
        = givenReports sh.children (events.filter fun ev ↦ job.hasPid ev.pid) :=
    filter_givenReports job.hasPid events fun _ _ ↦ rfl
  simp only [hfilter] at hown
  rw [toJobSystem_handleSigchldEvents, JobSystem.table_foldl_reap,
    JobTable.foldl_reap_eq h _ hgiven, funext fun job ↦ (hown job).1,
    funext fun job ↦ (hown job).2]

/-- **Reports on different jobs can be taken in in any order.** -/
theorem handleSigchldEvents_reordered (h : sh.table.Apart) (hpos : ∀ ev ∈ events, 0 < ev.pid)
    (hperm : events.Perm events')
    (horder : ∀ job ∈ sh.table.jobs, events.filter (fun ev ↦ job.hasPid ev.pid)
      = events'.filter fun ev ↦ job.hasPid ev.pid) :
    (handleSigchldEvents sh events).table = (handleSigchldEvents sh events').table ∧
      (handleSigchldEvents sh events).children = (handleSigchldEvents sh events').children := by
  constructor
  · rw [table_handleSigchldEvents h hpos,
      table_handleSigchldEvents h fun ev hev ↦ hpos ev (hperm.mem_iff.mpr hev)]
    congr 2
    · exact List.filterMap_congr fun job hjob ↦ by rw [horder job hjob]
    · exact congrArg List.sum (List.map_congr_left fun job hjob ↦ by rw [horder job hjob])
  · rw [toJobSystem_handleSigchldEvents, toJobSystem_handleSigchldEvents,
      JobSystem.children_foldl_reap_eq, JobSystem.children_foldl_reap_eq]
    refine List.filter_congr fun c _ ↦ ?_
    rw [Bool.eq_iff_iff, List.all_eq_true, List.all_eq_true]
    simp only [hperm.mem_iff]

/-- A pipeline of two in the background, and a job of one process that ends before it, between, or
after. -/
theorem handleSigchldEvents_reordered_two_jobs :
    let job (addr : ℕ) (pids : List ℕ) : Job :=
      { addr, pgid := pids.headD 0, isBackground := true,
        processes := pids.map fun pid ↦ { pid, argv := [], redir := [] },
        liveProcesses := pids.length.toUInt32 }
    let sh : Shell :=
      { Shell.onTerminal {} with
        table := ⟨[job 1 [20], job 0 [10, 11]], 2, 2⟩
        children := [⟨10, 10, 0⟩, ⟨11, 10, 0⟩, ⟨20, 20, 1⟩] }
    let done (pid : ℕ) : WaitEvent := ⟨pid, .exited 0⟩
    (handleSigchldEvents sh [done 10, done 20, done 11]).table
        = (handleSigchldEvents sh [done 20, done 10, done 11]).table ∧
      (handleSigchldEvents sh [done 10, done 20, done 11]).children
        = (handleSigchldEvents sh [done 20, done 10, done 11]).children := by
  intro job sh done
  have hapart : sh.table.Apart := by
    refine ⟨by decide, by decide, ?_⟩
    simp only [sh, job, List.pairwise_cons, Job.hasPid]
    simp
    omega
  exact handleSigchldEvents_reordered hapart (by decide) (.swap _ _ _) (by decide)

end Novash
