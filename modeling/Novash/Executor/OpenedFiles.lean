import Novash.Executor.CallHistory
import Novash.Executor.Redirections

/-!
# What `open` will make

Each `open` that succeeds makes a description that no descriptor of the shell refers to yet
(`Shell.OpensNew`). This holds when the shell starts and in every run of it: what is put into the
table comes from `pipe`, from `signalfd` or from an `open` that is over, and a copy of a descriptor
refers to what the original does.
-/

namespace Novash

open Foundations

/-- There are only fewer results of `open` to come. -/
theorem OpenFile.MadeBefore.mono {file : OpenFile} {opens opens' : List (Option File)}
    (h : file.MadeBefore opens) (hle : opens'.length ≤ opens.length) : file.MadeBefore opens' := by
  cases file with
  | opened left flags file => exact Nat.lt_of_le_of_lt hle h
  | _ => trivial

/-! ## Redirections -/

theorem length_handleRedirection (nofile : ℕ) (redir : List Redirection) :
    ∀ (opens : List (Option File)) (fds : FdTable OpenFile),
      (handleRedirection nofile redir opens fds).2.length ≤ opens.length := by
  induction redir with
  | nil => exact fun _ _ ↦ le_rfl
  | cons r redir ih =>
    intro opens fds
    have htail : opens.tail.length ≤ opens.length := List.length_tail.trans_le (Nat.sub_le _ 1)
    rw [handleRedirection]
    split
    · exact le_rfl
    · exact htail
    · dsimp only
      split
      · exact htail
      · exact (ih _ _).trans htail

/-- What redirections open is there afterwards, and nothing else is new. -/
theorem madeBefore_handleRedirection {nofile : ℕ} {status : ℤ} {fds' : FdTable OpenFile}
    {opens' : List (Option File)} (redir : List Redirection) :
    ∀ {opens : List (Option File)} {fds : FdTable OpenFile},
      fds.AllFiles (OpenFile.MadeBefore opens) →
      handleRedirection nofile redir opens fds = (.ok (status, fds'), opens') →
        fds'.AllFiles (OpenFile.MadeBefore opens') := by
  induction redir with
  | nil =>
    intro opens fds hfds h
    cases h
    exact hfds
  | cons r redir ih =>
    intro opens fds hfds h
    rw [handleRedirection] at h
    split at h
    · cases h
    · cases h
    next _ file htarget hfile =>
    obtain ⟨f, hf, rfl⟩ := Option.map_eq_some_iff.mp hfile
    have hlt : opens.tail.length < opens.length := by
      cases opens with
      | nil => cases hf
      | cons => exact Nat.lt_succ_self _
    have hopened : (fds.alloc ⟨.opened opens.length (oflag r.type) f, false⟩).2.AllFiles
        (OpenFile.MadeBefore opens.tail) :=
      (hfds.mono fun _ hmade ↦ hmade.mono hlt.le).alloc hlt
    dsimp only at h
    split at h
    · cases h
      exact hopened.close _
    next hdup =>
    exact ih ((hopened.dup2 (dup2Int_ok hdup).2).close _) h

/-! ## Builtins -/

section

variable {sh sh' : Shell} {status : ℤ}

theorem Shell.OpensNew.onlyJobs (hnew : sh.OpensNew) (h : sh.OnlyJobs sh') : sh'.OpensNew := by
  obtain ⟨_, _, _, _, _, _, rfl⟩ := h
  exact hnew

theorem opensNew_restoreFd (hnew : sh.OpensNew) (bak : Option ℕ) (fd : ℕ) :
    (restoreFd bak fd sh).OpensNew := by
  cases bak with
  | none => exact hnew
  | some bak =>
    refine FdTable.AllFiles.close ?_ bak
    cases hdup : sh.fds.dup2 bak fd with
    | none => exact hnew
    | some fds => exact FdTable.AllFiles.dup2 hnew hdup

/-- `fg` opens descriptors for signals. -/
theorem opensNew_fgLoop (jobIds : List ℕ) :
    ∀ {sh : Shell} {status status' : ℤ}, sh.OpensNew →
      fgLoop jobIds status sh = .ok (status', sh') → sh'.OpensNew := by
  induction jobIds with
  | nil =>
    intro sh status status' hnew h
    cases h
    exact hnew
  | cons jobId jobIds ih =>
    intro sh status status' hnew h
    rw [fgLoop_cons] at h
    split at h
    · cases h
      exact hnew
    · obtain ⟨⟨status₁, sh₁⟩, hturn, h⟩ := bind_ok.mp h
      have hblocked : Shell.OpensNew
          { sh with sigmask := ⟨true, true, true⟩, fds := (sh.fds.alloc ⟨.signals, true⟩).2 } :=
        FdTable.AllFiles.alloc hnew trivial
      exact ih (hblocked.onlyJobs (onlyJobs_fgTurn hturn)) h

theorem opensNew_callBuiltin {argv : List CStr} (hnew : sh.OpensNew)
    (h : callBuiltin argv sh = .ok (status, sh')) : sh'.OpensNew := by
  obtain ⟨-, hfg⟩ | ⟨-, hbg⟩ | ⟨-, cwd, out, chdirs, rfl⟩ := callBuiltin_cases h
  · unfold builtinFg at hfg
    split at hfg
    · cases hfg
      exact hnew
    · exact opensNew_fgLoop _ hnew hfg
  · exact hnew.onlyJobs (onlyJobs_builtinBg hbg)
  · exact hnew

theorem opensNew_handlePureBuiltinExecution {proc : Process} (hnew : sh.OpensNew)
    (h : handlePureBuiltinExecution proc sh = .ok (status, sh')) : sh'.OpensNew := by
  rw [handlePureBuiltinExecution, handlePureBuiltinExecutionWith_eq] at h
  split at h
  · cases h
  next _ _ fds opens hredir =>
  obtain ⟨⟨status₁, sh₁⟩, hcall, h⟩ := bind_ok.mp h
  obtain ⟨-, rfl⟩ := Prod.mk.inj (Except.ok.inj h)
  have hredirected : Shell.OpensNew
      { backedUp sh with fds, script := { (backedUp sh).script with opens } } :=
    madeBefore_handleRedirection _ (opensNew_backedUp hnew) hredir
  exact opensNew_restoreFd (opensNew_restoreFd (opensNew_callBuiltin hredirected hcall) _ _) _ _

end

/-! ## Forks -/

section

variable {sh sh' : Shell} {status : ℤ}

theorem opensNew_xpipe (hnew : sh.OpensNew) : (xpipe sh).2.OpensNew := by
  have hread : (sh.fds.alloc ⟨.pipeRead sh.pipes, false⟩).2.AllFiles
      (OpenFile.MadeBefore sh.script.opens) := FdTable.AllFiles.alloc hnew trivial
  exact FdTable.AllFiles.alloc hread trivial

theorem opensNew_nextPipe (hnew : sh.OpensNew) (rest : List Process) :
    (nextPipe rest sh).2.OpensNew := by
  unfold nextPipe
  split
  · exact hnew
  · exact opensNew_xpipe hnew

/-- The redirections of a child open what the shell does not see. -/
theorem opensNew_forkProcess {addr pid : ℕ} {proc : Process} {ctx : ExecutorCtx}
    (hnew : sh.OpensNew) (h : forkProcess addr proc ctx sh = .ok (pid, sh')) : sh'.OpensNew := by
  obtain ⟨⟨pid', sh₁⟩, hfork, h⟩ := bind_ok.mp h
  obtain ⟨pids, rfl⟩ := eq_of_xfork hfork
  cases h
  exact FdTable.AllFiles.mono hnew fun _ hmade ↦ hmade.mono (length_handleRedirection _ _ _ _)

theorem opensNew_finishFork (hnew : sh.OpensNew) (isBackground : Bool) (ctx : ExecutorCtx)
    (pid : ℕ) : (finishFork isBackground ctx pid sh).OpensNew := by
  obtain ⟨fds, lastExec, hfinish⟩ := eq_finishFork isBackground ctx pid sh
  have hfds := fds_finishFork isBackground ctx pid sh
  rw [hfinish] at hfds ⊢
  change fds = _ at hfds
  intro fd d hd
  exact hnew fd d (FdTable.get_of_closeAll (hfds ▸ hd))

theorem opensNew_forkLoop (procs : List Process) :
    ∀ {job job' : Job} {ctx : ExecutorCtx} {sh : Shell}, sh.OpensNew →
      forkLoop procs job ctx sh = .ok (job', sh') → sh'.OpensNew := by
  induction procs with
  | nil =>
    intro job job' ctx sh hnew h
    cases h
    exact hnew
  | cons proc rest ih =>
    intro job job' ctx sh hnew h
    rw [forkLoop] at h
    obtain ⟨⟨pid, sh₁⟩, hfork, h⟩ := bind_ok.mp h
    have hforked : sh₁.OpensNew := opensNew_forkProcess (opensNew_nextPipe hnew rest) hfork
    exact ih (opensNew_finishFork hforked _ _ _) h

theorem opensNew_forkJob {job job' : Job} {ctx : ExecutorCtx} (hnew : sh.OpensNew)
    (h : forkJob job ctx sh = .ok (job', sh')) : sh'.OpensNew := by
  obtain ⟨⟨job₁, sh₁⟩, hloop, h⟩ := bind_ok.mp h
  have hforked : sh₁.OpensNew := opensNew_forkLoop _ hnew hloop
  cases h
  exact hforked

theorem opensNew_handleExecution {job : Job} (hnew : sh.OpensNew)
    (h : handleExecution job sh = .ok (status, sh')) : sh'.OpensNew := by
  unfold handleExecution at h
  split at h
  · cases h
    exact hnew
  · exact hnew.onlyJobs (onlyJobs_handleForegroundExecution h)

theorem opensNew_runForked {job : Job} (hnew : sh.OpensNew)
    (h : runForked job sh = .ok (status, sh')) : sh'.OpensNew := by
  obtain ⟨⟨job₁, sh₁⟩, hfork, h⟩ := bind_ok.mp h
  obtain ⟨⟨status₂, sh₂⟩, hexec, h⟩ := bind_ok.mp h
  have hinit : (executorInitContext sh).2.OpensNew :=
    FdTable.AllFiles.alloc (opensNew_xpipe hnew) trivial
  have hwaited : sh₂.OpensNew := opensNew_handleExecution (opensNew_forkJob hinit hfork) hexec
  cases h
  exact ((FdTable.AllFiles.close hwaited _).close _).close _

end

/-! ## Runs -/

theorem opensNew_runJob {job : Job} {status : ℤ} {sh sh' : Shell} (hnew : sh.OpensNew)
    (h : runJob job sh = .ok (status, sh')) : sh'.OpensNew := by
  rcases runJob_cases h with ⟨-, rfl⟩ | ⟨proc, -, h⟩ | ⟨-, -, h⟩
  · exact hnew
  · obtain ⟨⟨status₁, sh₁⟩, hbuiltin, h⟩ := bind_ok.mp h
    have hcalled : sh₁.OpensNew :=
      opensNew_handlePureBuiltinExecution (show (enlist job sh).2.OpensNew from hnew) hbuiltin
    cases h
    exact hcalled
  · exact opensNew_runForked (show (enlist job sh).2.OpensNew from hnew) h

theorem callInvariant_opensNew : CallInvariant fun _ ↦ Shell.OpensNew where
  call {_ sh _ _ _} hnew _ _ hrun :=
    opensNew_runJob (show (jobsNewJob sh).2.OpensNew from hnew) hrun
  hook events hnew := hnew.onlyJobs (onlyJobs_handleSigchldEvents _ events)

/-- In every run of the shell `open` goes on to make new descriptions. -/
theorem opensNew_of_runOps {ops : List Op} {sh₀ sh : Shell} (hnew : sh₀.OpensNew)
    (h : runOps ops sh₀ = .ok sh) : sh.OpensNew :=
  callInvariant_opensNew.of_runOps ops [] hnew h

/-- And wherever a job is run. -/
theorem opensNew_of_mem_runCalls {ops : List Op} {sh₀ : Shell} (hnew : sh₀.OpensNew)
    {c : Job × Shell} (hc : c ∈ runCalls ops sh₀) : c.2.OpensNew := by
  obtain ⟨_, sh, hsh, -, -, hc⟩ := callInvariant_opensNew.of_mem_runCalls ops [] hnew c hc
  rw [hc]
  exact hsh

end Novash
