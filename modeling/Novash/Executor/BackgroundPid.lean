import Novash.Executor.CallHistory
import Novash.Executor.StoredStatus

/-!
# `$!`

`last_exec.bg_pid` is written for every process of a job in the background, so that the pid of the
last one is left there. But `last_exec` is reset whenever a job is run, and only a background job
writes the field again: a command in the foreground or a builtin leaves 0. So `$!` names the most
recently started background job as long as nothing else is run after it.
-/

namespace Novash

open Foundations ProcessState JobState

/-! ## The loop over the processes -/

/-- While the processes of a job are forked, the pid that is kept is that of the last one, or, if
the job is not in the background, the one that was kept before. -/
structure NotesPid (isBackground : Bool) (b : ℕ) (job : Job) (sh : Shell) : Prop where
  mark : job.isBackground = isBackground
  background : isBackground = true → ∀ p ∈ job.processes.getLast?, p.pid = sh.lastExec.bgPid
  foreground : isBackground = false → sh.lastExec.bgPid = b

theorem lastExec_closeOption (fd : Option ℕ) (sh : Shell) :
    (closeOption fd sh).lastExec = sh.lastExec := by
  cases fd <;> rfl

theorem lastExec_finishFork (isBackground : Bool) (ctx : ExecutorCtx) (pid : ℕ) (sh : Shell) :
    (finishFork isBackground ctx pid sh).lastExec
      = if isBackground then { sh.lastExec with bgPid := pid } else sh.lastExec := by
  unfold finishFork
  dsimp only
  rw [lastExec_closeOption, lastExec_closeOption]
  split_ifs <;> rfl

section

variable {isBackground : Bool} {b : ℕ} {job job' : Job} {sh sh' : Shell}

theorem lastExec_forkProcess {addr pid : ℕ} {proc : Process} {ctx : ExecutorCtx}
    {rest : List Process} (h : forkProcess addr proc ctx (nextPipe rest sh).2 = .ok (pid, sh')) :
    sh'.lastExec = sh.lastExec := by
  obtain ⟨fds, pipes, hpipe⟩ := eq_nextPipe rest sh
  obtain ⟨script, children, start, rfl⟩ := eq_of_forkProcess h
  rw [hpipe]

theorem NotesPid.forkLoop (rest : List Process) :
    ∀ {job : Job} {ctx : ExecutorCtx} {sh : Shell}, NotesPid isBackground b job sh →
      forkLoop rest job ctx sh = .ok (job', sh') → NotesPid isBackground b job' sh' := by
  induction rest with
  | nil =>
    intro job ctx sh hnotes h
    cases h
    exact hnotes
  | cons proc rest ih =>
    intro job ctx sh hnotes h
    rw [Novash.forkLoop] at h
    obtain ⟨⟨pid, sh₁⟩, hfork, h⟩ := bind_ok.mp h
    refine ih ?_ h
    refine ⟨hnotes.mark, fun hbg p hp ↦ ?_, fun hfg ↦ ?_⟩
    · rw [Job.addForked, List.getLast?_concat, Option.mem_some_iff] at hp
      rw [lastExec_finishFork, if_pos (hnotes.mark.trans hbg), ← hp]
    · have hmark : ¬job.isBackground = true := by
        rw [hnotes.mark, hfg]
        exact Bool.false_ne_true
      rw [lastExec_finishFork, if_neg hmark, lastExec_forkProcess hfork]
      exact hnotes.foreground hfg

theorem notesPid_forkJob {ctx : ExecutorCtx} (h : forkJob job ctx sh = .ok (job', sh')) :
    NotesPid job.isBackground sh.lastExec.bgPid job' sh' := by
  obtain ⟨⟨job₁, sh₁⟩, hloop, h⟩ := bind_ok.mp h
  have hstart : NotesPid job.isBackground sh.lastExec.bgPid { job with processes := [] } sh :=
    ⟨rfl, fun _ _ hp ↦ (nomatch hp), fun _ ↦ rfl⟩
  have hnotes := hstart.forkLoop _ hloop
  cases h
  exact ⟨hnotes.mark, hnotes.background, hnotes.foreground⟩

end

/-! ## One call -/

/-- The pid of the last process of a job. -/
def Job.lastPid (job : Job) : Option ℕ := job.processes.getLast?.map Process.pid

/-- The job is one that is forked in the background. -/
structure Job.StartsBackground (job : Job) : Prop where
  processes : job.processes ≠ []
  forked : isPureBuiltin job.processes = .ok none
  background : job.isBackground = true

section

variable {s : JobSystem} {job : Job} {sh sh' : Shell} {status : ℤ}

theorem lastExec_handleExecution (h : handleExecution job sh = .ok (status, sh')) :
    sh'.lastExec = sh.lastExec := by
  unfold handleExecution at h
  split at h
  · cases h
    rfl
  · obtain ⟨_, _, _, _, _, _, rfl⟩ := onlyJobs_handleForegroundExecution h
    rfl

/-- A background job is left at the head of the list, and its last pid is kept. -/
theorem bgPid_of_startsBackground (hcall : SettledCall s job sh) (hjob : job.StartsBackground)
    (h : runJob job sh = .ok (status, sh')) :
    ∃ job', sh'.table.jobs.head? = some job' ∧ job'.lastPid = some sh'.lastExec.bgPid := by
  rw [runJob_eq hjob.processes, hjob.forked] at h
  change runForked (enlist job sh).1 (enlist job sh).2 = .ok (status, sh') at h
  obtain ⟨⟨job₁, sh₁⟩, hfork, h⟩ := bind_ok.mp h
  obtain ⟨⟨status₂, sh₂⟩, hexec, h⟩ := bind_ok.mp h
  obtain ⟨hlaunched, -, hsys, -⟩ := hcall.pgids_forkJob hjob.processes hfork
  have hnotes := notesPid_forkJob hfork
  have hmark : job₁.isBackground = true := hnotes.mark.trans hjob.background
  obtain ⟨p, hp⟩ : ∃ p, job₁.processes.getLast? = some p := by
    refine Option.ne_none_iff_exists'.mp fun hnone ↦ ?_
    have hpgid := hlaunched.pgid
    rw [List.getLast?_eq_none_iff.mp hnone] at hpgid
    cases hpgid
  rw [handleExecution, if_pos hmark] at hexec
  cases hexec
  cases h
  refine ⟨{ job₁ with id := jobsNewId s.table }, ?_, ?_⟩
  · change sh₁.table.jobs.head? = _
    rw [hsys]
    rfl
  · have hpid : p.pid = sh₁.lastExec.bgPid := hnotes.background hjob.background p hp
    rw [Job.lastPid, hp]
    exact congrArg some hpid

/-- Anything else leaves 0. -/
theorem bgPid_of_not_startsBackground (hne : job.processes ≠ []) (hjob : ¬job.StartsBackground)
    (h : runJob job sh = .ok (status, sh')) : sh'.lastExec.bgPid = 0 := by
  rcases runJob_cases h with ⟨hnil, -⟩ | ⟨proc, -, h⟩ | ⟨-, hforked, h⟩
  · exact absurd hnil hne
  · obtain ⟨-, -, -, -, hkept⟩ := runPureBuiltin_cases h
    rw [hkept]
    rfl
  · obtain ⟨⟨job₁, sh₁⟩, hfork, h⟩ := bind_ok.mp h
    obtain ⟨⟨status₂, sh₂⟩, hexec, h⟩ := bind_ok.mp h
    have hkept := lastExec_handleExecution hexec
    have hmark : job.isBackground = false :=
      Bool.eq_false_iff.mpr fun hbg ↦ hjob ⟨hne, hforked, hbg⟩
    have hzero := (notesPid_forkJob hfork).foreground hmark
    cases h
    change sh₂.lastExec.bgPid = 0
    rw [hkept, hzero]
    rfl

end

/-! ## The most recent background job -/

/-- The job that a call has started in the background: it is listed first when `run_job` returns. -/
def startedJob (c : Job × Shell) : Option Job :=
  match isPureBuiltin c.1.processes, runJob c.1 c.2 with
  | .ok none, .ok (_, sh) =>
    if c.1.processes ≠ [] ∧ c.1.isBackground then sh.table.jobs.head? else none
  | _, _ => none

/-- The pid of the last process of the background job that was started last, or `b` if none was. -/
def mostRecentPid (b : ℕ) (cs : List (Job × Shell)) : ℕ :=
  ((cs.filterMap startedJob).getLast?.bind Job.lastPid).getD b

section

variable {b : ℕ} {cs : List (Job × Shell)} {c : Job × Shell} {sh : Shell} {status : ℤ}

theorem startedJob_of_startsBackground (hjob : c.1.StartsBackground)
    (h : runJob c.1 c.2 = .ok (status, sh)) : startedJob c = sh.table.jobs.head? := by
  rw [startedJob, hjob.forked, h]
  exact if_pos ⟨hjob.processes, hjob.background⟩

theorem startedJob_of_not_startsBackground (hjob : ¬c.1.StartsBackground) :
    startedJob c = none := by
  unfold startedJob
  split
  · next hforked _ => exact if_neg fun h ↦ hjob ⟨h.1, hforked, h.2⟩
  · rfl

theorem mostRecentPid_concat_of_none (h : startedJob c = none) :
    mostRecentPid b (cs ++ [c]) = mostRecentPid b cs := by
  rw [mostRecentPid, mostRecentPid, List.filterMap_append, List.filterMap_cons_none h,
    List.filterMap_nil, List.append_nil]

theorem mostRecentPid_concat_of_some {job : Job} {pid : ℕ} (h : startedJob c = some job)
    (hpid : job.lastPid = some pid) : mostRecentPid b (cs ++ [c]) = pid := by
  rw [mostRecentPid, List.filterMap_append, List.filterMap_cons_some h, List.filterMap_nil,
    List.getLast?_concat, Option.bind_some, hpid, Option.getD_some]

end

/-! ## Runs -/

/-- The call starts a background job, or nothing is lost when the record is reset. -/
def SparesBgPid (c : Job × Shell) : Prop :=
  c.1.StartsBackground ∨ c.1.processes = [] ∨ c.2.lastExec.bgPid = 0

section

variable {c : Job × Shell} {sh sh' : Shell} {status : ℤ}

theorem bgPid_of_spares (hspares : SparesBgPid c) (hjob : ¬c.1.StartsBackground)
    (h : runJob c.1 c.2 = .ok (status, sh')) :
    sh'.lastExec.bgPid = c.2.lastExec.bgPid := by
  by_cases hnil : c.1.processes = []
  · rw [runJob, if_pos hnil] at h
    cases h
    rfl
  · rw [bgPid_of_not_startsBackground hnil hjob h]
    exact ((hspares.resolve_left hjob).resolve_left hnil).symm

theorem bgPid_handleSigchldEvents (sh : Shell) (events : List WaitEvent) :
    (handleSigchldEvents sh events).lastExec.bgPid = sh.lastExec.bgPid := by
  obtain ⟨_, _, _, _, _, _, heq⟩ := onlyJobs_handleSigchldEvents sh events
  rw [heq]

end

/-- What a run keeps: if all calls so far that returned were such, the pid that is kept is that of
the most recent background job. -/
theorem callInvariant_bgPid (b : ℕ) : CallInvariant fun hist sh ↦ JobsReached sh ∧
    ((∀ c ∈ hist, (∃ r, runJob c.1 c.2 = .ok r) → SparesBgPid c) →
      sh.lastExec.bgPid = mostRecentPid b hist) where
  call {hist sh job status sh'} hsh hfresh haddr hrun := by
    refine ⟨hsh.1.runJob hfresh haddr hrun, fun hcs ↦ ?_⟩
    obtain ⟨hhist, hlast⟩ := List.forall_mem_append.mp hcs
    have hspares := hlast _ List.mem_cons_self ⟨_, hrun⟩
    by_cases hjob : job.StartsBackground
    · have hcall : SettledCall sh.toJobSystem job (jobsNewJob sh).2 :=
        ⟨hsh.1.2, rfl, haddr, hfresh⟩
      obtain ⟨job', hhead, hpid⟩ := bgPid_of_startsBackground hcall hjob hrun
      exact (mostRecentPid_concat_of_some
        ((startedJob_of_startsBackground hjob hrun).trans hhead) hpid).symm
    · rw [mostRecentPid_concat_of_none (startedJob_of_not_startsBackground hjob),
        bgPid_of_spares hspares hjob hrun]
      exact hsh.2 hhist
  hook {hist sh} events hsh := by
    refine ⟨hsh.1.handleSigchldEvents events, fun hcs ↦ ?_⟩
    rw [bgPid_handleSigchldEvents]
    exact hsh.2 hcs

theorem runCalls_subset {pre ops : List Op} (h : pre <+: ops) :
    ∀ sh, runCalls pre sh ⊆ runCalls ops sh := by
  induction pre generalizing ops with
  | nil => exact fun sh ↦ List.nil_subset _
  | cons op pre ih =>
    intro sh c hc
    obtain ⟨rest, rfl⟩ := h
    rw [runCalls] at hc
    rw [List.cons_append, runCalls]
    rcases List.mem_append.mp hc with hc | hc
    · exact List.mem_append_left _ hc
    refine List.mem_append_right _ ?_
    split at hc
    · exact absurd hc List.not_mem_nil
    · exact ih (List.prefix_append _ _) _ hc

/-- In a run, `$!` is the pid of the last process of the most recently started background job, and
no other job changes what is kept. -/
structure BgPidKept (ops : List Op) (sh₀ : Shell) : Prop where
  expands : ∀ pre, pre <+: ops → ∀ sh, runOps pre sh₀ = .ok sh → ∀ world,
    expandSpecialOne (expandEnv world sh) '!'
      = some (showInt (mostRecentPid sh₀.lastExec.bgPid (runCalls pre sh₀)))
  unchanged : ∀ c ∈ runCalls ops sh₀, ¬c.1.StartsBackground → ∀ status sh,
    runJob c.1 c.2 = .ok (status, sh) → sh.lastExec.bgPid = c.2.lastExec.bgPid

/-- **The pid of the background job.** A run keeps it if and only if every job that is run to its
end is one that is forked in the background, or is run while the pid that is kept is 0. -/
theorem bgPidKept_iff {ops : List Op} {sh₀ : Shell} (hinit : sh₀.Initial) :
    BgPidKept ops sh₀ ↔
      ∀ c ∈ runCalls ops sh₀, (∃ r, runJob c.1 c.2 = .ok r) → SparesBgPid c := by
  constructor
  · rintro hkept c hc ⟨⟨status, sh⟩, hrun⟩
    by_cases hjob : c.1.StartsBackground
    · exact Or.inl hjob
    by_cases hnil : c.1.processes = []
    · exact Or.inr (Or.inl hnil)
    refine Or.inr (Or.inr ?_)
    rw [← hkept.unchanged c hc hjob status sh hrun]
    exact bgPid_of_not_startsBackground hnil hjob hrun
  · intro hspares
    refine ⟨fun pre hpre sh hrun world ↦ ?_, fun c hc hjob status sh hrun ↦ ?_⟩
    · have hkept := (callInvariant_bgPid sh₀.lastExec.bgPid).of_runOps pre []
        ⟨jobsReached_of_initial hinit, fun _ ↦ rfl⟩ hrun
      have hpid := hkept.2 fun c hc ↦ hspares c (runCalls_subset hpre sh₀ hc)
      exact congrArg (fun pid : ℕ ↦ some (showInt pid)) hpid
    · exact bgPid_of_spares (hspares c hc ⟨_, hrun⟩) hjob hrun

/-- `a` in the background, and then `b`. -/
theorem bgPidKept_iff_two_jobs :
    BgPidKept [.line (.word ['a'] true), .line (.word ['b'] true)]
      (.onTerminal { pids := [10, 11] }) := by
  have heval : (runCalls [.line (.word ['a'] true), .line (.word ['b'] true)]
      (.onTerminal { pids := [10, 11] })).map (fun c ↦ (c.1.processes.isEmpty,
        (isPureBuiltin c.1.processes).toOption.map Option.isNone, c.1.isBackground))
      = [(false, some true, true), (false, some true, true)] := by decide +kernel
  refine (bgPidKept_iff (Shell.initial_onTerminal _)).mpr fun c hc _ ↦ Or.inl ?_
  have hmem := List.mem_map_of_mem (f := fun c : Job × Shell ↦ (c.1.processes.isEmpty,
    (isPureBuiltin c.1.processes).toOption.map Option.isNone, c.1.isBackground)) hc
  rw [heval, List.mem_pair, or_self] at hmem
  obtain ⟨hne, hforked⟩ := Prod.mk.inj hmem
  obtain ⟨hforked, hmark⟩ := Prod.mk.inj hforked
  obtain ⟨proc?, hpure, hnone⟩ := Option.map_eq_some_iff.mp hforked
  obtain rfl := Option.isNone_iff_eq_none.mp hnone
  exact ⟨by simpa using hne, toOption_eq_some.mp hpure, hmark⟩

/-- `a` in the background, and then `pwd`: `$!` is 0. -/
theorem not_bgPidKept :
    ¬ ∀ (ops : List Op) (sh₀ : Shell), sh₀.Initial → BgPidKept ops sh₀ := by
  intro hclaim
  have heval : (runOps [.line (.word ['a'] true), .line (.word "pwd".toList false)]
      (.onTerminal { pids := [10] })).toOption.map (fun sh ↦ sh.lastExec.bgPid) = some 0 := by
    decide +kernel
  have hrecent : mostRecentPid 0
      (runCalls [.line (.word ['a'] true), .line (.word "pwd".toList false)]
        (.onTerminal { pids := [10] })) = 10 := by decide +kernel
  obtain ⟨sh, hrun, hzero⟩ := exists_of_map_eq heval
  have hexpands := (hclaim _ _ (Shell.initial_onTerminal _)).expands _ List.prefix_rfl sh hrun
    fun _ ↦ ⟨⟨true, true, true, false⟩, none, fun _ ↦ none, fun _ ↦ ⟨.nomatch, []⟩⟩
  change some (showInt sh.lastExec.bgPid) = some (showInt (mostRecentPid 0 _)) at hexpands
  rw [hzero, hrecent] at hexpands
  exact absurd hexpands (by decide)

end Novash
