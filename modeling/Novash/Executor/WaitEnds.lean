import Novash.Executor.ReportOrder

/-!
# When the wait ends

The shell waits for a foreground job in `poll`. It is a matter of the reports on the processes of
the job alone whether and how the wait ends (`execNode_waits`). One report that a process has
stopped ends it with 146, wherever in the pipeline the process stands and whatever is reported with
it; without a stop it ends with 0 once every process has been reported to have ended, in any order
and with any reports on other jobs between them; and with neither the shell stays where it is.
-/

namespace Novash

open Foundations ProcessState JobState

/-- Among these reports, a process with one of the pids stops. -/
def ReportsStop (pids : List ℕ) (given : List WaitEvent) : Prop :=
  ∃ ev ∈ given, ev.pid ∈ pids ∧ ∃ sig, ev.status = .stopped sig

/-- Among these reports, each process with one of the pids ends. -/
def ReportsEnds (pids : List ℕ) (given : List WaitEvent) : Prop :=
  ∀ pid ∈ pids, ∃ ev ∈ given, ev.status.isDeath = true ∧ ev.pid = pid

theorem reportsStop_append {pids : List ℕ} {given given' : List WaitEvent} :
    ReportsStop pids (given ++ given') ↔ ReportsStop pids given ∨ ReportsStop pids given' := by
  simp only [ReportsStop, List.mem_append, or_and_right, exists_or]

/-! ## The reports that are given -/

section

variable {s : JobSystem} {ev : WaitEvent} {events : List WaitEvent}

theorem givenReports_of_child (h : ∃ k ∈ s.children, k.pid = ev.pid) :
    givenReports s.children (ev :: events) = ev :: givenReports (s.reap ev).children events := by
  have hany : (s.children.any fun c ↦ c.pid = ev.pid) = true := by simpa using h
  rw [givenReports, JobSystem.reap, if_pos hany, if_pos hany]

theorem reap_of_not_child (h : ¬∃ k ∈ s.children, k.pid = ev.pid) : s.reap ev = s :=
  (Control.reap_cases s ev).resolve_right fun hcases ↦ h hcases.1

theorem givenReports_of_not_child (h : ¬∃ k ∈ s.children, k.pid = ev.pid) :
    givenReports s.children (ev :: events) = givenReports (s.reap ev).children events := by
  have hany : ¬(s.children.any fun c ↦ c.pid = ev.pid) = true := by simpa using h
  rw [givenReports, if_neg hany, reap_of_not_child h]

theorem givenReports_append (events events' : List WaitEvent) : ∀ s : JobSystem,
    givenReports s.children (events ++ events') = givenReports s.children events
      ++ givenReports (events.foldl JobSystem.reap s).children events' := by
  induction events with
  | nil => exact fun _ ↦ rfl
  | cons ev events ih =>
    intro s
    by_cases hchild : ∃ k ∈ s.children, k.pid = ev.pid
    · rw [List.cons_append, givenReports_of_child hchild, givenReports_of_child hchild, ih]
      rfl
    · rw [List.cons_append, givenReports_of_not_child hchild, givenReports_of_not_child hchild, ih]
      rfl

/-- What is reported is reported about a child. -/
theorem child_of_mem_givenReports (events : List WaitEvent) : ∀ {s : JobSystem},
    ∀ ev ∈ givenReports s.children events, ∃ k ∈ s.children, k.pid = ev.pid := by
  induction events with
  | nil => exact fun _ h ↦ absurd h List.not_mem_nil
  | cons e events ih =>
    intro s ev hev
    by_cases hchild : ∃ k ∈ s.children, k.pid = e.pid
    · rw [givenReports_of_child hchild] at hev
      rcases List.mem_cons.mp hev with rfl | hev
      · exact hchild
      · obtain ⟨k, hk, hkpid⟩ := ih ev hev
        exact ⟨k, ((s.mem_children_reap e k).mp hk).1, hkpid⟩
    · rw [givenReports_of_not_child hchild, reap_of_not_child hchild] at hev
      exact ih ev hev

/-- A child is left if its end is not among the reports that are given. -/
theorem mem_children_foldl_reap (events : List WaitEvent) : ∀ {s : JobSystem} {k : Child},
    k ∈ (events.foldl JobSystem.reap s).children ↔ k ∈ s.children ∧
      ∀ ev ∈ givenReports s.children events, ¬(ev.status.isDeath = true ∧ ev.pid = k.pid) := by
  induction events with
  | nil => simp [givenReports]
  | cons ev events ih =>
    intro s k
    rw [List.foldl_cons, ih]
    by_cases hchild : ∃ k ∈ s.children, k.pid = ev.pid
    · rw [givenReports_of_child hchild, s.mem_children_reap ev k, List.forall_mem_cons, and_assoc,
        eq_comm (a := ev.pid)]
    · rw [givenReports_of_not_child hchild, reap_of_not_child hchild]

end

/-! ## A stop -/

section

variable {s : JobSystem} {job : Job} {ev : WaitEvent} {events : List WaitEvent} {addr : ℕ}

theorem Job.state_applyStatus (h : job.state = jobStopped) (pid : ℕ) (status : WaitStatus) :
    (job.applyStatus pid status).state = jobStopped := by
  cases status with
  | stopped sig => rfl
  | _ => exact h

/-- A job that is stopped stays so, whatever is reported. -/
theorem JobSystem.Holds.stopped_reap (h : s.Holds addr) (hjob : s.table.deref addr = some job)
    (hstopped : job.state = jobStopped) (ev : WaitEvent) :
    ∃ job', (s.reap ev).table.deref addr = some job' ∧ job'.state = jobStopped := by
  obtain ⟨j, hsome, hbg⟩ := h.job
  obtain rfl : job = j := Option.some.inj (hjob.symm.trans hsome)
  rcases Control.reap_cases s ev with hsame | ⟨-, htable, -⟩
  · exact ⟨_, hsame.symm ▸ hjob, hstopped⟩
  rw [htable]
  rcases s.table.reap_cases ev with ⟨-, hsame⟩ | ⟨job₁, hfind, hcases⟩
  · exact ⟨_, hsame.symm ▸ hjob, hstopped⟩
  have hderef := h.wellFormed.deref_of_find hfind
  have haddr := JobTable.addr_of_deref hjob
  by_cases hsame : job₁.addr = addr
  · obtain rfl := Option.some.inj (hjob.symm.trans (hsame ▸ hderef))
    rcases hcases with ⟨-, hbg₁, -⟩ | ⟨-, hreap⟩
    · exact absurd (hbg₁.symm.trans hbg) (by decide)
    · rw [hreap, ← hsame]
      exact ⟨_, JobTable.deref_applyStatus_self _ _ hderef, Job.state_applyStatus hstopped _ _⟩
  · have hne : job.addr ≠ job₁.addr := fun heq ↦ hsame (heq.symm.trans haddr)
    refine ⟨_, ?_, hstopped⟩
    rcases hcases with ⟨-, -, hreap⟩ | ⟨-, hreap⟩
    · rw [hreap]
      exact h.deref_markCompleted hjob hderef hne ev
    · rw [hreap, JobTable.deref, JobTable.jobs_applyStatus]
      exact find?_modifyFirst_of_not (fun j ↦ by rw [Job.addr_applyStatus]) hjob
        (decide_eq_false hne)

theorem JobSystem.Holds.stopped_foldl_reap (events : List WaitEvent) :
    ∀ {s : JobSystem} {job : Job}, s.Holds addr → s.table.deref addr = some job →
      job.state = jobStopped →
      ∃ job', (events.foldl JobSystem.reap s).table.deref addr = some job' ∧
        job'.state = jobStopped := by
  induction events with
  | nil => exact fun _ hjob hstopped ↦ ⟨_, hjob, hstopped⟩
  | cons ev events ih =>
    intro s job h hjob hstopped
    obtain ⟨job₁, hjob₁, hstopped₁⟩ := h.stopped_reap hjob hstopped ev
    exact ih (h.reap ev) hjob₁ hstopped₁

namespace Awaited

/-- A stop of one of its processes stops the job. -/
theorem stopped_reap (h : Awaited s job) (hpid : ev.pid ∈ job.pids)
    (hchild : ∃ k ∈ s.children, k.pid = ev.pid) {sig : ℕ} (hsig : ev.status = .stopped sig) :
    ∃ job', (s.reap ev).table.deref job.addr = some job' ∧ job'.state = jobStopped := by
  have htable : (s.reap ev).table = s.table.reap ev := by
    rw [JobSystem.reap, if_pos (by simpa using hchild)]
  rw [htable]
  rcases s.table.reap_cases ev with ⟨hnone, -⟩ | ⟨x, hfind, hcases⟩
  · exact absurd ((h.find hpid).symm.trans hnone) (by simp)
  obtain rfl : job = x := Option.some.inj ((h.find hpid).symm.trans hfind)
  rcases hcases with ⟨-, hbg, -⟩ | ⟨-, hreap⟩
  · exact absurd (h.foreground.symm.trans hbg) Bool.false_ne_true
  · rw [hreap]
    exact ⟨_, JobTable.deref_applyStatus_self _ _ h.deref, by rw [hsig]; rfl⟩

/-- Of the events only those count that are given. -/
theorem reap_given (h : Awaited s job) (ev : WaitEvent)
    (hev : (∃ k ∈ s.children, k.pid = ev.pid) → ev.pid ∈ job.pids →
      ∀ sig, ev.status ≠ .stopped sig) :
    ∃ job', Awaited (s.reap ev) job' ∧ job'.addr = job.addr ∧ job'.pids = job.pids := by
  by_cases hchild : ∃ k ∈ s.children, k.pid = ev.pid
  · obtain ⟨job', h', haddr, -, hpids⟩ := h.reap (hev hchild)
    exact ⟨job', h', haddr, hpids⟩
  · exact ⟨job, (reap_of_not_child hchild).symm ▸ h, rfl, rfl⟩

/-- The job goes on being awaited until it stops. -/
theorem foldl_reap_given (events : List WaitEvent) : ∀ {s : JobSystem} {job : Job},
    Awaited s job → ¬ReportsStop job.pids (givenReports s.children events) →
      ∃ job', Awaited (events.foldl JobSystem.reap s) job' ∧
        job'.addr = job.addr ∧ job'.pids = job.pids := by
  induction events with
  | nil => exact fun h _ ↦ ⟨_, h, rfl, rfl⟩
  | cons ev events ih =>
    intro s job h hstop
    obtain ⟨job₁, h₁, haddr₁, hpids₁⟩ := h.reap_given ev fun hchild hpid sig hsig ↦
      hstop ⟨ev, givenReports_of_child hchild ▸ List.mem_cons_self, hpid, sig, hsig⟩
    have hrest : ¬ReportsStop job₁.pids (givenReports (s.reap ev).children events) := by
      rintro ⟨e, he, hpid, hsig⟩
      refine hstop ⟨e, ?_, hpids₁ ▸ hpid, hsig⟩
      by_cases hchild : ∃ k ∈ s.children, k.pid = ev.pid
      · exact givenReports_of_child hchild ▸ List.mem_cons_of_mem _ he
      · exact givenReports_of_not_child hchild ▸ he
    obtain ⟨job₂, h₂, haddr₂, hpids₂⟩ := ih h₁ hrest
    exact ⟨job₂, h₂, haddr₂.trans haddr₁, hpids₂.trans hpids₁⟩

/-- Once a stop is reported, the job is found stopped when all reports have been taken in. -/
theorem exists_stopped (events : List WaitEvent) : ∀ {s : JobSystem} {job : Job},
    Awaited s job → s.Holds job.addr → ReportsStop job.pids (givenReports s.children events) →
      ∃ job', (events.foldl JobSystem.reap s).table.deref job.addr = some job' ∧
        job'.state = jobStopped := by
  induction events with
  | nil => exact fun _ _ hstop ↦ hstop.elim fun _ he ↦ absurd he.1 List.not_mem_nil
  | cons ev events ih =>
    intro s job h hholds hstop
    by_cases hchild : ∃ k ∈ s.children, k.pid = ev.pid
    · by_cases hsig : ev.pid ∈ job.pids ∧ ∃ sig, ev.status = .stopped sig
      · obtain ⟨hpid, sig, hsig⟩ := hsig
        obtain ⟨job₁, hjob₁, hstopped⟩ := h.stopped_reap hpid hchild hsig
        exact (hholds.reap ev).stopped_foldl_reap events hjob₁ hstopped
      · obtain ⟨job₁, h₁, haddr₁, hpids₁⟩ := h.reap_given ev fun _ hpid sig heq ↦
          hsig ⟨hpid, sig, heq⟩
        rw [← haddr₁]
        refine ih h₁ (haddr₁ ▸ hholds.reap ev) ?_
        obtain ⟨e, he, hpid, hstops⟩ := hstop
        rw [givenReports_of_child hchild] at he
        refine ⟨e, (List.mem_cons.mp he).resolve_left ?_, hpids₁ ▸ hpid, hstops⟩
        rintro rfl
        exact hsig ⟨hpid, hstops⟩
    · rw [givenReports_of_not_child hchild] at hstop
      rw [List.foldl_cons]
      rw [reap_of_not_child hchild] at hstop ⊢
      exact ih h hholds hstop

/-- The counter is zero only when no child is left. -/
theorem live_eq_zero_iff (h : Awaited s job) :
    job.liveProcesses = 0 ↔ ∀ k ∈ s.children, k.pid ∉ job.pids := by
  refine ⟨fun hzero k hk hpid ↦ ?_, h.live_eq_zero⟩
  obtain ⟨p, hp, hkpid⟩ := List.mem_map.mp hpid
  have hcount : job.liveCount = 0 := by
    rw [← h.live.toNat, hzero]
    rfl
  have hrun : p.state = processRunning := (h.child p hp).mpr ⟨k, hk, hkpid.symm⟩
  have hpos : 0 < p.pid := h.pids.pos _ (List.mem_map_of_mem hp)
  refine List.countP_eq_zero.mp hcount p hp ?_
  rw [Process.live, Process.forked, hrun, decide_eq_true hpos.ne']
  rfl

end Awaited

end

/-! ## The wait -/

/-- What is reported while the shell waits decides how the loop ends, if it does. -/
theorem foregroundLoop_cases (wakeups : List (List SignalfdSiginfo)) :
    ∀ {sh : Shell} {job : Job}, Awaited sh.toJobSystem job → sh.toJobSystem.Holds job.addr →
      let stops := ReportsStop job.pids (givenReports sh.children (wakeupEvents wakeups))
      let ended := ∀ k ∈ ((wakeupEvents wakeups).foldl JobSystem.reap sh.toJobSystem).children,
        k.pid ∉ job.pids
      stops ∧ (∃ sh', foregroundLoop job.addr wakeups sh = .ok (true, sh') ∧ sh'.fds = sh.fds) ∨
      ¬stops ∧ ended ∧ (∃ sh' job', foregroundLoop job.addr wakeups sh = .ok (false, sh') ∧
        sh'.table.deref job.addr = some job' ∧ sh'.fds = sh.fds) ∨
      ¬stops ∧ ¬ended ∧ foregroundLoop job.addr wakeups sh = .error .blocked := by
  induction wakeups with
  | nil =>
    intro sh job h _ stops ended
    have hstops : ¬stops := fun hstop ↦ hstop.elim fun _ he ↦ absurd he.1 List.not_mem_nil
    rw [foregroundLoop, h.deref]
    dsimp only
    by_cases hlive : job.liveProcesses = 0
    · rw [if_pos hlive]
      exact .inr (.inl ⟨hstops, h.live_eq_zero_iff.mp hlive, _, job, rfl, h.deref, rfl⟩)
    · rw [if_neg hlive]
      exact .inr (.inr ⟨hstops, fun hended ↦ hlive (h.live_eq_zero_iff.mpr hended), rfl⟩)
  | cons signals wakeups ih =>
    intro sh job h hholds stops ended
    have hsys := toJobSystem_foldl_handleSignal signals sh
    have hreports : givenReports sh.children (wakeupEvents (signals :: wakeups))
        = givenReports sh.children (signals.flatMap SignalfdSiginfo.events)
          ++ givenReports (signals.foldl handleSignal sh).children (wakeupEvents wakeups) := by
      rw [hsys]
      exact givenReports_append _ _ _
    rw [foregroundLoop, h.deref]
    dsimp only
    by_cases hlive : job.liveProcesses = 0
    · -- with no child left, nothing about the job is reported any more
      have hdead := h.live_eq_zero_iff.mp hlive
      rw [if_pos hlive]
      have hended : ended := fun k hk ↦ hdead k ((mem_children_foldl_reap _).mp hk).1
      refine .inr (.inl ⟨?_, hended, _, job, rfl, h.deref, rfl⟩)
      rintro ⟨ev, hev, hpid, -⟩
      obtain ⟨k, hk, hkpid⟩ := child_of_mem_givenReports _ ev hev
      exact hdead k hk (hkpid ▸ hpid)
    rw [if_neg hlive]
    by_cases hstop : ReportsStop job.pids
        (givenReports sh.children (signals.flatMap SignalfdSiginfo.events))
    · obtain ⟨job₁, hjob₁, hstopped⟩ := h.exists_stopped _ hholds hstop
      rw [← hsys] at hjob₁
      rw [hjob₁]
      dsimp only
      rw [if_pos hstopped]
      obtain ⟨ev, hev, hstop⟩ := hstop
      exact .inl ⟨⟨ev, hreports ▸ List.mem_append_left _ hev, hstop⟩, _, rfl,
        (onlyJobs_foldl_handleSignal signals sh).fds⟩
    · obtain ⟨job₁, h₁, haddr, hpids⟩ := h.foldl_reap_given _ hstop
      rw [← hsys] at h₁
      rw [← haddr, h₁.deref]
      dsimp only
      rw [if_neg h₁.state]
      have hholds₁ : (signals.foldl handleSignal sh).toJobSystem.Holds job₁.addr :=
        haddr ▸ hsys ▸ hholds.foldl_reap _
      have hfds := (onlyJobs_foldl_handleSignal signals sh).fds
      have hstops : stops ↔ ReportsStop job₁.pids
          (givenReports (signals.foldl handleSignal sh).children (wakeupEvents wakeups)) := by
        change ReportsStop job.pids (givenReports sh.children _) ↔ _
        rw [hpids, hreports]
        exact reportsStop_append.trans (or_iff_right hstop)
      have hended : ended ↔ ∀ k ∈ ((wakeupEvents wakeups).foldl JobSystem.reap
          (signals.foldl handleSignal sh).toJobSystem).children, k.pid ∉ job₁.pids := by
        rw [hsys, hpids, ← List.foldl_append]
        rfl
      rcases ih h₁ hholds₁ with ⟨hs, sh', hloop, hsame⟩ | ⟨hs, he, sh', job', hloop, hjob, hsame⟩ |
        ⟨hs, he, hloop⟩
      · exact .inl ⟨hstops.mpr hs, sh', hloop, hsame.trans hfds⟩
      · exact .inr (.inl ⟨mt hstops.mp hs, hended.mpr he, sh', job', hloop, hjob,
          hsame.trans hfds⟩)
      · exact .inr (.inr ⟨mt hstops.mp hs, mt hended.mp he, hloop⟩)

/-- On a terminal, the wait ends as the loop does. -/
theorem handleForegroundExecution_cases {sh : Shell} {job : Job} (h : Awaited sh.toJobSystem job)
    (hholds : sh.toJobSystem.Holds job.addr) (htty : sh.tty = true) (hpos : 0 < job.pgid)
    (hgroup : ∃ k ∈ sh.children, k.pgid = job.pgid) :
    let stops := ReportsStop job.pids (givenReports sh.children (wakeupEvents sh.script.wakeups))
    let ended := ∀ k ∈ ((wakeupEvents sh.script.wakeups).foldl JobSystem.reap
      sh.toJobSystem).children, k.pid ∉ job.pids
    stops ∧ (∃ sh', handleForegroundExecution job.addr sh = .ok (jobStoppedExitCode, sh')) ∨
    ¬stops ∧ ended ∧ (∃ sh', handleForegroundExecution job.addr sh = .ok (0, sh')) ∨
    ¬stops ∧ ¬ended ∧ handleForegroundExecution job.addr sh = .error .blocked := by
  intro stops ended
  have hregain : ∀ sh' : Shell, sh'.fds = sh.fds → shellRegainControl sh' = .ok sh' :=
    fun sh' hfds ↦ shellRegainControl_of_tty (by rw [Shell.tty, hfds]; exact htty)
  have hgrp := xtcsetpgrp_of_group htty hpos hgroup
  unfold handleForegroundExecution
  rw [h.deref]
  rcases foregroundLoop_cases sh.script.wakeups h hholds with ⟨hs, sh', hloop, hfds⟩ |
    ⟨hs, he, sh', job', hloop, hjob, hfds⟩ | ⟨hs, he, hloop⟩
  · refine .inl ⟨hs, sh', bind_ok.mpr ⟨sh, hgrp, bind_ok.mpr ⟨(true, sh'), hloop, ?_⟩⟩⟩
    exact bind_ok.mpr ⟨_, hregain sh' hfds, rfl⟩
  · let sh'' : Shell := { sh' with table := (jobsRemoveJob sh'.table job'.pgid).2 }
    refine .inr (.inl ⟨hs, he, sh'',
      bind_ok.mpr ⟨sh, hgrp, bind_ok.mpr ⟨(false, sh'), hloop, ?_⟩⟩⟩)
    simp only [Bool.false_eq_true, if_false, hjob]
    exact bind_ok.mpr ⟨sh'', hregain sh'' hfds, rfl⟩
  · exact .inr (.inr ⟨hs, he, bind_error.mpr (.inr ⟨sh, hgrp, bind_error.mpr (.inl hloop)⟩)⟩)

/-! ## The command -/

section

variable {node : Ast} {sh sh₁ : Shell} {job : Job}

theorem execNode_of_wait_error (h : Forks node sh job sh₁) {e : Halt}
    (hwait : handleForegroundExecution job.addr sh₁ = .error e) : execNode node sh = .error e := by
  obtain ⟨-, -, hbg, -, -⟩ := launched_of_forks h
  obtain ⟨job₀, hcompile, hne, hbuiltin, -, hfork⟩ := h
  have hexec : handleExecution job sh₁ = .error e := by
    rw [handleExecution, hbg]
    exact hwait
  have hforked : execNode node sh = runForked (enlist job₀ { sh with heap := sh.heap + 1 }).1
      (enlist job₀ { sh with heap := sh.heap + 1 }).2 := by
    rw [execNode_of_compile hcompile, runJob_eq hne, hbuiltin]
    rfl
  rw [hforked]
  exact bind_error.mpr (.inr ⟨_, hfork, bind_error.mpr (.inl hexec)⟩)

theorem holds_of_forks (h : Forks node sh job sh₁) (hwf : sh.WellFormed)
    (hpgids : (job.pgid :: sh.table.pgids).Nodup) : sh₁.toJobSystem.Holds job.addr := by
  obtain ⟨hlaunched, haddr, hbg, hsys, hjobs⟩ := launched_of_forks h
  refine ⟨?_, ?_, job, ?_, hbg⟩
  · rw [hsys]
    exact Control.wellFormed_step (.launch sh.toJobSystem job haddr hlaunched) hwf
  · rw [JobTable.pgids, hjobs]
    exact hpgids
  · rw [JobTable.deref, hjobs, List.find?_cons, decide_eq_true rfl]

/-- All processes have been children, so that none is left when the end of each was reported. -/
theorem reportsEnds_iff (h : Forks node sh job sh₁) (hawaited : Awaited sh₁.toJobSystem job)
    (events : List WaitEvent) :
    (∀ k ∈ (events.foldl JobSystem.reap sh₁.toJobSystem).children, k.pid ∉ job.pids)
      ↔ ReportsEnds job.pids (givenReports sh₁.children events) := by
  constructor
  · intro hended pid hpid
    obtain ⟨p, hp, rfl⟩ := List.mem_map.mp hpid
    obtain ⟨k, hk, hkpid⟩ := (hawaited.child p hp).mp ((launched_of_forks h).1.running p hp)
    by_contra hnone
    refine hended k ((mem_children_foldl_reap events).mpr ⟨hk, fun ev hev hdeath ↦ ?_⟩)
      (hkpid ▸ hpid)
    exact hnone ⟨ev, hev, hdeath.1, hdeath.2.trans hkpid⟩
  · intro hends k hk hpid
    obtain ⟨ev, hev, hdeath⟩ := hends k.pid hpid
    exact ((mem_children_foldl_reap events).mp hk).2 ev hev hdeath

/-- **When the wait ends.** The command of a foreground job returns 146 if and only if one of its
processes is reported to have stopped, and 0 if and only if none is and all are reported to have
ended; otherwise, and only then, the shell waits for ever. -/
theorem execNode_waits (h : Forks node sh job sh₁) (hwf : sh.WellFormed) (htty : sh.tty = true)
    (hpgids : (job.pgid :: sh.table.pgids).Nodup) :
    let given := givenReports sh₁.children (wakeupEvents sh.script.wakeups)
    ((∃ sh', execNode node sh = .ok (jobStoppedExitCode, sh')) ↔ ReportsStop job.pids given) ∧
      ((∃ sh', execNode node sh = .ok (0, sh'))
        ↔ ¬ReportsStop job.pids given ∧ ReportsEnds job.pids given) ∧
      (execNode node sh = .error .blocked
        ↔ ¬ReportsStop job.pids given ∧ ¬ReportsEnds job.pids given) := by
  intro given
  have hgroup : ∀ j ∈ sh.table.jobs, j.pgid ≠ job.pgid := fun j hj heq ↦
    (List.nodup_cons.mp hpgids).1 (heq ▸ List.mem_map_of_mem hj)
  obtain ⟨hawaited, hpos, hkid⟩ := awaited_of_forks h hwf hgroup
  obtain ⟨htty₁, hwakeups⟩ := shell_of_forks h
  have hcases := handleForegroundExecution_cases hawaited (holds_of_forks h hwf hpgids) (htty₁ htty)
    hpos hkid
  rw [reportsEnds_iff h hawaited, hwakeups] at hcases
  rcases hcases with ⟨hstop, hwait⟩ | ⟨hstop, hends, hwait⟩ | ⟨hstop, hends, hwait⟩
  · obtain ⟨sh', hrun⟩ := (execNode_of_forks h _).mpr hwait
    refine ⟨iff_of_true ⟨sh', hrun⟩ hstop, iff_of_false ?_ fun hnot ↦ hnot.1 hstop,
      iff_of_false ?_ fun hnot ↦ hnot.1 hstop⟩ <;> simp [hrun, jobStoppedExitCode]
  · obtain ⟨sh', hrun⟩ := (execNode_of_forks h _).mpr hwait
    refine ⟨iff_of_false ?_ hstop, iff_of_true ⟨sh', hrun⟩ ⟨hstop, hends⟩,
      iff_of_false ?_ fun hnot ↦ hnot.2 hends⟩ <;> simp [hrun, jobStoppedExitCode]
  · have hrun := execNode_of_wait_error h hwait
    refine ⟨iff_of_false ?_ hstop, iff_of_false ?_ fun hnot ↦ hends hnot.2,
      iff_of_true hrun ⟨hstop, hends⟩⟩ <;> simp [hrun]

end

/-- In `a | b`, `b` exits, and then `a` is stopped. -/
theorem execNode_waits_pipeline :
    ∃ sh', execNode (.pipeline [.word ['a'] false, .word ['b'] false] false)
        (.onTerminal { pids := [10, 11], wakeups :=
          [[.sigchld [⟨11, .exited 0⟩]], [.sigint, .sigchld [⟨10, .stopped 20⟩]]] })
      = .ok (jobStoppedExitCode, sh') := by
  let sh : Shell := .onTerminal { pids := [10, 11], wakeups :=
    [[.sigchld [⟨11, .exited 0⟩]], [.sigint, .sigchld [⟨10, .stopped 20⟩]]] }
  let job₀ : Job := compilePipelineJob { addr := 0 } [.word ['a'] false, .word ['b'] false]
  have heval : (forkJob (enlist job₀ { sh with heap := 1 }).1 (enlisted job₀ sh).1
      (enlisted job₀ sh).2).toOption.map (fun r ↦
        (r.1.pids, givenReports r.2.children (wakeupEvents sh.script.wakeups)))
      = some ([10, 11], [⟨11, .exited 0⟩, ⟨10, .stopped 20⟩]) := by decide +kernel
  obtain ⟨⟨job, sh₁⟩, hfork, heq⟩ := exists_of_map_eq heval
  obtain ⟨hpids, hgiven⟩ := Prod.mk.inj heq
  have hforks : Forks (.pipeline [.word ['a'] false, .word ['b'] false] false) sh job sh₁ :=
    ⟨job₀, rfl, List.cons_ne_nil _ _, rfl, rfl, hfork⟩
  refine (execNode_waits hforks ⟨List.nodup_nil, fun _ h ↦ absurd h List.not_mem_nil⟩ (by decide)
    (List.nodup_singleton _)).1.mpr ⟨⟨10, .stopped 20⟩, ?_, ?_, 20, rfl⟩
  · rw [hgiven]
    decide
  · rw [hpids]
    decide

end Novash
