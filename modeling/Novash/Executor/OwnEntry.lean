import Novash.Executor.BuiltinTurns
import Novash.Executor.CallHistory

/-!
# The entry of a builtin

`run_job` lists a builtin before it calls it, as a job that has no processes of its own and the
group 0. That entry is not meant to be seen: `jobs` lists what runs in the background, and `fg` and
`bg` want a process group to signal. `bg` never selects it, since it is not stopped. `fg` selects a
running job that is marked as a background one, and the mark of the entry is that of the line: after
`fg &` it is the entry that is found first. `jobs` prints the whole list, itself included.
-/

namespace Novash

open Foundations ProcessState JobState Relation

/-! ## Jobs with processes -/

/-- A process of the job was forked, and so it has a group. -/
def Job.Owns (job : Job) : Prop := 0 < job.pgid ∧ ∃ pid ∈ job.pids, 0 < pid

theorem Job.Owns.of_eq {job job' : Job} (h : job.Owns) (hpgid : job'.pgid = job.pgid)
    (hpids : job'.pids = job.pids) : job'.Owns := by
  rw [Job.Owns, hpgid, hpids]
  exact h

theorem Job.Owns.launched {s : JobSystem} {job : Job} (id : ℕ) (h : s.Launched job) :
    Job.Owns { job with id } := by
  have hmem : job.pgid ∈ job.pids := List.mem_of_mem_head? h.pgid
  obtain ⟨p, hp, hpid⟩ := List.mem_map.mp hmem
  have hpos : 0 < job.pgid := hpid ▸ h.pid_pos p hp
  exact ⟨hpos, job.pgid, hmem, hpos⟩

theorem Job.pgid_taken (job : Job) (ev : WaitEvent) : (job.taken ev).pgid = job.pgid := by
  unfold Job.taken
  split
  · exact (Job.keepsIdentity_complete ev.pid ev.status).pgid job
  · exact (Job.keepsIdentity_applyStatus ev.pid ev.status).pgid job

theorem Job.pids_taken (job : Job) (ev : WaitEvent) : (job.taken ev).pids = job.pids := by
  unfold Job.taken
  split
  · exact (Job.keepsIdentity_complete ev.pid ev.status).pids job
  · exact (Job.keepsIdentity_applyStatus ev.pid ev.status).pids job

/-- A job without a group is the entry of a builtin. -/
theorem keptByJobs_owns (s : JobSystem) :
    Control.KeptByJobs (fun job ↦ job.Owns ∨ job.pgid = 0) s fun _ ↦ True where
  fresh _ _ h := Or.inr h.pgid
  launched _ id h := Or.inl (.launched id h)
  applied job ev _ _ _ h := by
    have hkeeps := Job.keepsIdentity_applyStatus ev.pid ev.status
    exact h.imp (fun h ↦ h.of_eq (hkeeps.pgid job) (hkeeps.pids job)) (hkeeps.pgid job).trans
  done _ _ h := h.imp (fun h ↦ h.of_eq rfl rfl) id
  resumed job _ _ h := h.imp (fun h ↦ h.of_eq rfl job.pids_markContinued) id
  forward _ h := h.imp (fun h ↦ h.of_eq rfl rfl) id

/-- What is known of the jobs in every run. -/
structure OwnsInvariant (c : Control) : Prop where
  wellFormed : c.sys.WellFormed
  pidsPos : c.sys.PidsPos
  jobs : ∀ job ∈ c.sys.table.jobs, job.Owns ∨ job.pgid = 0

theorem OwnsInvariant.step {c c' : Control} (h : c.Step c') (hc : OwnsInvariant c) :
    OwnsInvariant c' where
  wellFormed := Control.wellFormed_step h hc.wellFormed
  pidsPos := hc.pidsPos.step h
  jobs :=
    have hgood : c'.History fun _ _ ↦ True := fun _ _ ↦ trivial
    Control.forall_jobs_of_step h hgood hc.wellFormed (keptByJobs_owns c.sys) hc.jobs

/-- Between two jobs, every listed job has processes of its own. -/
theorem owns_of_jobsReached {sh : Shell} (h : JobsReached sh) :
    sh.PidsPos ∧ ∀ job ∈ sh.table.jobs, job.Owns := by
  have hinv : OwnsInvariant ⟨sh.toJobSystem, none⟩ :=
    invariant_of_step h.1 (fun _ _ ↦ OwnsInvariant.step)
      ⟨⟨List.nodup_nil, fun _ h ↦ nomatch h⟩, (fun _ h ↦ nomatch h), fun _ h ↦ nomatch h⟩
  refine ⟨hinv.pidsPos, fun job hjob ↦ (hinv.jobs job hjob).resolve_right fun hzero ↦ ?_⟩
  exact h.2.grouped (List.mem_map.mpr ⟨job, hjob, hzero⟩)

/-! ## The entry while the builtin runs -/

/-- The entry of a builtin: nothing was forked, and it was not written to, but for its mark; `b` is
the mark that the line gave it. -/
structure Job.IsEntry (b : Bool) (job : Job) : Prop where
  pids : ∀ pid ∈ job.pids, pid = 0
  state : job.state = jobRunning
  mark : job.isBackground = true → b = true

/-- What is known of the jobs while a builtin runs. -/
structure EntryInvariant (b : Bool) (c : Control) : Prop where
  wellFormed : c.sys.WellFormed
  pidsPos : c.sys.PidsPos
  jobs : ∀ job ∈ c.sys.table.jobs, job.Owns ∨ job.IsEntry b

/-- No event is about the entry, and only a stopped job is resumed. -/
theorem EntryInvariant.step {b : Bool} {c c' : Control} (h : c.Step c')
    (hheap : c'.sys.heap = c.sys.heap) (hc : EntryInvariant b c) : EntryInvariant b c' := by
  refine ⟨Control.wellFormed_step h hc.wellFormed, hc.pidsPos.step h, ?_⟩
  have hstopped : ∀ {s : JobSystem} {addr : ℕ} {job : Job}, s = c.sys →
      s.table.deref addr = some job → job.state = jobStopped → job.Owns := by
    rintro s addr job rfl hjob hstate
    refine (hc.jobs job (JobTable.mem_of_deref hjob)).resolve_right fun hentry ↦ ?_
    exact nomatch hentry.state.symm.trans hstate
  cases h with
  | allocate s => exact absurd hheap (Nat.succ_ne_self _)
  | enlist s job haddr hfresh => exact absurd hheap (Nat.succ_ne_self _)
  | launch s job haddr hjob => exact absurd hheap (Nat.succ_ne_self _)
  | delist s => exact fun j hj ↦ hc.jobs j ((JobTable.jobs_removeJob_sublist _ _).subset hj)
  | reap s w ev =>
    refine JobSystem.forall_jobs_reap hc.wellFormed hc.jobs fun job hchild hfind hjob ↦ ?_
    obtain ⟨k, hk, hpid⟩ := hchild
    have hpos : 0 < ev.pid := hpid ▸ hc.pidsPos k hk
    obtain ⟨p, hp⟩ := Job.exists_process?_of_find hfind
    have howns := hjob.resolve_right fun hentry ↦ hpos.ne' (hentry.pids ev.pid
      (List.mem_map.mpr ⟨p, Job.pid_of_process? hp⟩))
    exact Or.inl (howns.of_eq (job.pgid_taken ev) (job.pids_taken ev))
  | resumeBg s job hjob hstate =>
    change ∀ j ∈ (s.table.resume job.addr true).jobs, _
    rw [JobTable.jobs_resume]
    exact JobTable.forall_jobs_modify hjob hc.jobs
      (Or.inl ((hstopped rfl hjob hstate).of_eq rfl job.pids_markContinued))
  | resumeFg s job hjob hstate hbg =>
    change ∀ j ∈ (s.table.resume job.addr false).jobs, _
    rw [JobTable.jobs_resume]
    exact JobTable.forall_jobs_modify hjob hc.jobs
      (Or.inl ((hstopped rfl hjob hstate).of_eq rfl job.pids_markContinued))
  | bringForward s job hjob hbg =>
    refine JobTable.forall_jobs_modify hjob hc.jobs ?_
    exact (hc.jobs job (JobTable.mem_of_deref hjob)).imp (fun h ↦ h.of_eq rfl rfl)
      fun h ↦ ⟨h.pids, h.state, fun hmark ↦ nomatch hmark⟩
  | finish s w job hjob hlive hstate =>
    exact fun j hj ↦ hc.jobs j ((JobTable.jobs_removeJob_sublist _ _).subset hj)
  | yield s w job hjob hstate => exact hc.jobs

theorem EntryInvariant.of_turnReached {b : Bool} {sh sh' : Shell}
    (hsh : EntryInvariant b ⟨sh.toJobSystem, none⟩) (h : TurnReached sh sh') :
    EntryInvariant b ⟨sh'.toJobSystem, none⟩ :=
  Control.invariant_of_heap_eq h.1 h.2 (fun _ _ ↦ EntryInvariant.step) hsh

theorem isEntry_enlist {job : Job} (hjob : job.Fresh) (sh : Shell) :
    (enlist job sh).1.IsEntry job.isBackground :=
  ⟨List.forall_mem_map.mpr fun p hp ↦ (hjob.processes p hp).1, hjob.state, id⟩

/-- `run_job` lists the entry before the others. -/
theorem SettledCall.jobs_enlist {s : JobSystem} {job : Job} {sh : Shell}
    (h : SettledCall s job sh) :
    (enlist job sh).2.table.jobs = (enlist job sh).1 :: s.table.jobs := by
  have hid : (enlist job sh).1 = { (enlist job sh).1 with id := jobsNewId s.table } := by
    have hsys : sh.table = s.table := by
      rw [h.sys]
      rfl
    rw [← hsys]
    rfl
  rw [h.sys_enlist]
  exact congrArg (· :: s.table.jobs) hid.symm

theorem entryInvariant_enlist {sh : Shell} (hsh : JobsReached sh) {job : Job} {sh₁ : Shell}
    (hcall : SettledCall sh.toJobSystem job sh₁) :
    EntryInvariant job.isBackground ⟨(enlist job sh₁).2.toJobSystem, none⟩ := by
  obtain ⟨hpids, howns⟩ := owns_of_jobsReached hsh
  refine ⟨hcall.enlisted.wellFormed, ?_, ?_⟩
  · rw [hcall.sys_enlist]
    exact hpids
  · change ∀ j ∈ (enlist job sh₁).2.table.jobs, _
    rw [hcall.jobs_enlist]
    exact List.forall_mem_cons.mpr ⟨Or.inr (isEntry_enlist hcall.fresh sh₁),
      fun j hj ↦ Or.inl (howns j hj)⟩

/-! ## What is listed and selected -/

/-- Every job that `jobs` lists, and every job that `fg` or `bg` can select in one of its turns, has
processes of its own. -/
structure EntryHidden (argv : List CStr) (sh : Shell) : Prop where
  jobs : argv.headD [] = "jobs".toList → ∀ job ∈ sh.table.jobs, job.Owns
  fg : argv.headD [] = "fg".toList → ∀ jobIds, retrieveArgJobIds argv.tail = .ok jobIds →
    ∀ t ∈ fgTurns jobIds sh, ∀ jobId job, findTargetJobFg t.2.table jobId = some job → job.Owns
  bg : argv.headD [] = "bg".toList → ∀ jobIds, retrieveArgJobIds argv.tail = .ok jobIds →
    ∀ t ∈ bgTurns jobIds sh, ∀ jobId job, findTargetJobBg t.2.table jobId = some job → job.Owns

/-- `fg` and `bg` look for a job at least once. -/
theorem ne_nil_of_retrieveArgJobIds {args : List CStr} {jobIds : List ℕ}
    (h : retrieveArgJobIds args = .ok jobIds) : jobIds ≠ [] := by
  unfold retrieveArgJobIds at h
  split at h
  · cases h
    exact List.cons_ne_nil _ _
  · next hne =>
    rintro rfl
    cases args with
    | nil => exact hne rfl
    | cons arg args =>
      rw [List.mapM_cons] at h
      obtain ⟨jobId, -, h⟩ := bind_ok.mp h
      obtain ⟨jobIds, -, h⟩ := bind_ok.mp h
      cases h

section

variable {b : Bool} {sh : Shell} {job : Job} {jobId : ℕ} {jobIds : List ℕ}

/-- `bg` does not select the entry, which is not stopped. -/
theorem owns_of_findTargetJobBg (hsh : EntryInvariant b ⟨sh.toJobSystem, none⟩)
    (hfind : findTargetJobBg sh.table jobId = some job) : job.Owns := by
  obtain ⟨hmem, hstopped⟩ := of_findTargetJobBg hfind
  refine (hsh.jobs job hmem).resolve_right fun hentry ↦ ?_
  exact nomatch hentry.state.symm.trans hstopped

/-- Nor does `fg`, if it is not marked. -/
theorem owns_of_findTargetJobFg (hsh : EntryInvariant false ⟨sh.toJobSystem, none⟩)
    (hfind : findTargetJobFg sh.table jobId = some job) : job.Owns := by
  obtain ⟨hmem, hselected⟩ := of_findTargetJobFg hfind
  refine (hsh.jobs job hmem).resolve_right fun hentry ↦ ?_
  rcases hselected with hstopped | ⟨hmark, -⟩
  · exact nomatch hentry.state.symm.trans hstopped
  · exact nomatch hentry.mark hmark

end

/-- **The entry of a builtin.** In any run, while a builtin runs in the shell, its own entry is
neither listed nor selected if and only if the builtin is not `jobs`, nor `fg`, on a line that ends
with `&`, with arguments that could name jobs. -/
theorem entryHidden_iff {ops : List Op} {sh₀ : Shell} (hinit : sh₀.Initial) {c : Job × Shell}
    (hc : c ∈ runCalls ops sh₀) {proc : Process} {sh : Shell} (hrun : RunsBuiltin c proc sh) :
    EntryHidden proc.argv sh ↔ proc.argv.headD [] ≠ "jobs".toList ∧
      (proc.argv.headD [] = "fg".toList → c.1.isBackground = true →
        ∀ jobIds, retrieveArgJobIds proc.argv.tail ≠ .ok jobIds) := by
  obtain ⟨sh₁, hreached, hcall⟩ := exists_jobsReached_of_mem_runCalls hinit hc
  obtain ⟨fds, opens, rfl⟩ := eq_of_builtinShell hrun.shell
  have hentry := entryInvariant_enlist hreached hcall
  have hjobs := hcall.jobs_enlist
  have hnot : ¬(enlist c.1 c.2).1.Owns := by
    intro howns
    exact howns.1.ne' hcall.fresh.pgid
  constructor
  · intro hhidden
    refine ⟨fun hname ↦ hnot (hhidden.jobs hname _ (hjobs ▸ List.mem_cons_self)), ?_⟩
    intro hname hbg jobIds hids
    obtain ⟨jobId, jobIds, rfl⟩ := List.exists_cons_of_ne_nil (ne_nil_of_retrieveArgJobIds hids)
    refine hnot (hhidden.fg hname _ hids _ List.mem_cons_self 0 _ ?_)
    -- the entry stands first in the list
    change findTargetJobFg (enlist c.1 c.2).2.table 0 = _
    rw [findTargetJobFg, hjobs]
    refine List.find?_cons_of_pos ?_
    have hstate : (enlist c.1 c.2).1.state = jobRunning := hcall.fresh.state
    have hmark : (enlist c.1 c.2).1.isBackground = true := hbg
    rw [hstate, hmark]
    rfl
  · rintro ⟨hname, hmarked⟩
    refine ⟨fun h ↦ absurd h hname, fun hfg jobIds hids t ht jobId job hfind ↦ ?_,
      fun hbg jobIds hids t ht jobId job hfind ↦ ?_⟩
    · have hunmarked : c.1.isBackground = false := by
        by_contra hmark
        exact hmarked hfg (Bool.not_eq_false _ ▸ hmark) jobIds hids
      rw [hunmarked] at hentry
      have hturn := turnReached_of_mem_fgTurns (by exact hentry.wellFormed) t ht
      exact owns_of_findTargetJobFg (hentry.of_turnReached hturn) hfind
    · have hturn := turnReached_of_mem_bgTurns (by exact hentry.wellFormed) t ht
      exact owns_of_findTargetJobBg (hentry.of_turnReached hturn) hfind

/-- `fg`, while `a` runs in the background. -/
theorem entryHidden_iff_fg :
    ∃ c ∈ runCalls [.line (.word ['a'] true), .line (.word ['f', 'g'] false)]
        (.onTerminal { pids := [10] }),
      ∃ proc sh, RunsBuiltin c proc sh ∧ proc.argv = [['f', 'g']] ∧
        sh.table.jobs.map Job.pgid = [0, 10] ∧ EntryHidden proc.argv sh := by
  have heval : ((runCalls [.line (.word ['a'] true), .line (.word ['f', 'g'] false)]
      (.onTerminal { pids := [10] })).map fun c ↦ (c.1.isBackground,
        (isPureBuiltin c.1.processes).toOption.join.bind fun proc ↦
          (builtinShell proc (enlist c.1 c.2).2).map fun sh ↦
            (proc.argv, sh.table.jobs.map Job.pgid)))
      = [(true, none), (false, some ([['f', 'g']], [0, 10]))] := by decide +kernel
  have hmem := heval ▸ List.mem_cons_of_mem _ List.mem_cons_self
  obtain ⟨c, hc, heq⟩ := List.mem_map.mp hmem
  obtain ⟨hmark, hproc⟩ := Prod.mk.inj heq
  obtain ⟨proc, hbuiltin, hsh⟩ := Option.bind_eq_some_iff.mp hproc
  obtain ⟨sh, hshell, heq⟩ := Option.map_eq_some_iff.mp hsh
  obtain ⟨hargv, hpgids⟩ := Prod.mk.inj heq
  have hrun : RunsBuiltin c proc sh :=
    ⟨toOption_eq_some.mp (Option.join_eq_some_iff.mp hbuiltin), hshell⟩
  refine ⟨c, hc, proc, sh, hrun, hargv, hpgids,
    (entryHidden_iff (Shell.initial_onTerminal _) hc hrun).mpr ⟨?_, fun _ hbg ↦ ?_⟩⟩
  · rw [hargv]
    decide
  · rw [hmark] at hbg
    cases hbg

/-- `jobs` lists itself. -/
theorem not_entryHidden :
    ¬ ∀ (ops : List Op) (sh₀ : Shell), sh₀.Initial → ∀ c ∈ runCalls ops sh₀, ∀ proc sh,
      RunsBuiltin c proc sh → EntryHidden proc.argv sh := by
  intro hclaim
  have hhidden := hclaim [.line (.word "jobs".toList false)] (.onTerminal {})
    (Shell.initial_onTerminal _) _ (List.mem_append_left _ List.mem_cons_self) _ _ ⟨rfl, rfl⟩
  exact (hhidden.jobs rfl _ List.mem_cons_self).1.ne rfl

end Novash
