import Novash.Executor.Wiring
import Novash.Foundations.Custody

/-!
# What the shell closes

While it runs a job the shell opens a pipe for the handshake, a descriptor for signals and a pipe
between each two processes, and it closes all of them again. The pipe of the handshake it closes
twice: once behind the first fork, and once more in `executor_destroy_context`, which tells from -1
that a descriptor is closed. Nothing has set the two to -1.

The second time the numbers are free, as nothing else is open by then. So in the end the table of
the shell is what it was.
-/

namespace Novash

open Foundations

/-! ## The calls

Each of these goes through the function it is named for, and lists what the shell opens and closes
on the way.
-/

def xpipeCalls (sh : Shell) : List (FdCall OpenFile) :=
  [.opened ⟨.pipeRead sh.pipes, false⟩, .opened ⟨.pipeWrite sh.pipes, false⟩]

def executorInitContextCalls (sh : Shell) : List (FdCall OpenFile) :=
  xpipeCalls sh ++ [.opened ⟨.signals, true⟩]

def nextPipeCalls (rest : List Process) (sh : Shell) : List (FdCall OpenFile) :=
  if rest = [] then [] else xpipeCalls sh

def closeOptionCalls (fd : Option ℕ) : List (FdCall OpenFile) :=
  match fd with
  | none => []
  | some fd => [.closed fd]

def finishForkCalls (ctx : ExecutorCtx) : List (FdCall OpenFile) :=
  (if ctx.pgid = 0 then [.closed ctx.syncPipe.2, .closed ctx.syncPipe.1] else []) ++
    closeOptionCalls ctx.inFd ++ closeOptionCalls ctx.outFd

def forkLoopCalls : List Process → Job → ExecutorCtx → Shell → List (FdCall OpenFile)
  | [], _, _, _ => []
  | proc :: rest, job, ctx, sh =>
    let fd := (nextPipe rest sh).1
    nextPipeCalls rest sh ++
      match forkProcess job.addr proc (ctx.withOut fd) (nextPipe rest sh).2 with
      | .error _ => []
      | .ok (pid, sh) =>
        finishForkCalls (ctx.withOut fd) ++
          forkLoopCalls rest (job.addForked proc pid (ctx.group pid))
            ((ctx.withOut fd).next pid fd) (finishFork job.isBackground (ctx.withOut fd) pid sh)

def executorDestroyContextCalls (ctx : ExecutorCtx) : List (FdCall OpenFile) :=
  [.closed ctx.sfd, .closed ctx.syncPipe.1, .closed ctx.syncPipe.2]

/-- All that the shell opens and closes from `executor_init_context` to the end of `run_job`. In
between it waits for the job, or prints a line. -/
def runForkedCalls (job : Job) (sh : Shell) : List (FdCall OpenFile) :=
  let (ctx, sh₀) := executorInitContext sh
  executorInitContextCalls sh ++ forkLoopCalls job.processes { job with processes := [] } ctx sh₀ ++
    match forkJob job ctx sh₀ >>= fun r ↦ handleExecution r.1 r.2 with
    | .error _ => []
    | .ok _ => executorDestroyContextCalls ctx

theorem finishForkCalls_eq (ctx : ExecutorCtx) :
    finishForkCalls ctx = (ctx.spent ++ ctx.outFd.toList).map .closed := by
  unfold finishForkCalls ExecutorCtx.spent
  cases ctx.inFd <;> cases ctx.outFd <;> split <;> rfl

/-! ## Up to the end of the loop -/

/-- What the shell holds between two turns. -/
def ExecutorCtx.held (ctx : ExecutorCtx) : Finset ℕ := insert ctx.sfd ctx.spent.toFinset

theorem custody_executorInitContext (sh : Shell) :
    custody (sh.fds, ∅) (executorInitContextCalls sh)
      = some ((executorInitContext sh).2.fds, (executorInitContext sh).1.held) := by
  have hspent : (executorInitContext sh).1.spent
      = [(executorInitContext sh).1.syncPipe.2, (executorInitContext sh).1.syncPipe.1] := rfl
  rw [ExecutorCtx.held, hspent, List.toFinset_cons, List.toFinset_cons, List.toFinset_nil]
  rfl

theorem nodup_executorInitContext (sh : Shell) : (executorInitContext sh).1.spent.Nodup := by
  let r := sh.fds.alloc ⟨.pipeRead sh.pipes, false⟩
  let w := r.2.alloc ⟨.pipeWrite sh.pipes, false⟩
  have hne : r.1 ≠ w.1 := FdTable.ne_alloc _ (get_alloc_self_ne_none _ _)
  change [w.1, r.1].Nodup
  rw [List.nodup_cons]
  exact ⟨fun hmem ↦ hne (List.mem_singleton.mp hmem).symm, List.nodup_singleton _⟩

theorem custody_nextPipe {rest : List Process} (hrest : rest ≠ []) {r w : ℕ} {sh : Shell}
    (hpipe : (nextPipe rest sh).1 = some (r, w)) (held : Finset ℕ) :
    custody (sh.fds, held) (nextPipeCalls rest sh)
      = some ((nextPipe rest sh).2.fds, insert w (insert r held)) := by
  rw [nextPipe, if_neg hrest] at hpipe ⊢
  rw [nextPipeCalls, if_neg hrest]
  cases hpipe
  rfl

section

variable {proc : Process} {rest : List Process} {job : Job} {ctx : ExecutorCtx} {sh sh' : Shell}
  {pid m : ℕ}

/-- Behind a turn the shell holds the read end of the pipe that it made, if it made one, and the
descriptor for signals. -/
theorem ForkTurn.custody_eq (h : ForkTurn proc rest job ctx sh pid sh') (hctx : ctx.Apart m sh.fds)
    (hnodup : ctx.spent.Nodup) :
    custody (sh.fds, ctx.held)
        (nextPipeCalls rest sh ++ finishForkCalls (ctx.withOut (nextPipe rest sh).1))
      = some (sh'.fds, insert ctx.sfd ((nextPipe rest sh).1.map Prod.fst).toFinset) := by
  obtain ⟨hopen, -, hsfd⟩ := hctx.sfd
  have hspent : (ctx.withOut (nextPipe rest sh).1).spent = ctx.spent := rfl
  rw [finishForkCalls_eq, hspent, h.fds, custody_append]
  by_cases hrest : rest = []
  · have hnone : nextPipe rest sh = (none, sh) := if_pos hrest
    rw [nextPipeCalls, if_pos hrest, hnone]
    change custody (sh.fds, ctx.held) ((ctx.spent ++ []).map .closed)
      = some (sh.fds.closeAll (ctx.spent ++ []), _)
    have hheld : ∀ fd ∈ ctx.spent, fd ∈ ctx.held := fun fd hfd ↦
      Finset.mem_insert_of_mem (List.mem_toFinset.mpr hfd)
    rw [List.append_nil, custody_closeAll hnodup hheld, ExecutorCtx.held,
      Finset.insert_sdiff_of_notMem _ (mt List.mem_toFinset.mp hsfd), Finset.sdiff_self]
    rfl
  · obtain ⟨r, w, hpipe, -, hnew⟩ := exists_nextPipe hrest sh
    obtain ⟨-, hrsfd, hrspent⟩ := hnew.apart hctx (Or.inl rfl)
    obtain ⟨-, hwsfd, hwspent⟩ := hnew.apart hctx (Or.inr rfl)
    rw [custody_nextPipe hrest hpipe, hpipe]
    change custody (_, _) ((ctx.spent ++ [w]).map .closed) = _
    have hnodup : (ctx.spent ++ [w]).Nodup := by
      rw [← List.concat_eq_append]
      exact hnodup.concat hwspent
    have hheld : ∀ fd ∈ ctx.spent ++ [w], fd ∈ insert w (insert r ctx.held) := by
      intro fd hfd
      rcases List.mem_append.mp hfd with hfd | hfd
      · exact Finset.mem_insert_of_mem (Finset.mem_insert_of_mem
          (Finset.mem_insert_of_mem (List.mem_toFinset.mpr hfd)))
      · rw [List.mem_singleton.mp hfd]
        exact Finset.mem_insert_self _ _
    rw [custody_closeAll hnodup hheld]
    refine congrArg (fun s ↦ some (_, s)) (Finset.ext fun fd ↦ ?_)
    simp only [ExecutorCtx.held, Finset.mem_sdiff, Finset.mem_insert, List.mem_toFinset,
      List.mem_append, List.mem_singleton, Option.map_some, Option.mem_toFinset, Option.mem_def,
      Option.some.injEq]
    have hne := hnew.ne
    grind

theorem forkLoopCalls_cons {sh₁ : Shell} (h : forkProcess job.addr proc
    (ctx.withOut (nextPipe rest sh).1) (nextPipe rest sh).2 = .ok (pid, sh₁)) :
    forkLoopCalls (proc :: rest) job ctx sh
      = (nextPipeCalls rest sh ++ finishForkCalls (ctx.withOut (nextPipe rest sh).1)) ++
        forkLoopCalls rest (job.addForked proc pid (ctx.group pid))
          ((ctx.withOut (nextPipe rest sh).1).next pid (nextPipe rest sh).1)
          (finishFork job.isBackground (ctx.withOut (nextPipe rest sh).1) pid sh₁) := by
  rw [forkLoopCalls, h, List.append_assoc]

end

/-- The loop closes what it opens and, at its first turn, the pipe of the handshake. -/
theorem custody_forkLoop (rest : List Process) (hrest : rest ≠ []) :
    ∀ {job job' : Job} {ctx : ExecutorCtx} {sh sh' : Shell}, ctx.Apart 0 sh.fds →
      ctx.spent.Nodup → forkLoop rest job ctx sh = .ok (job', sh') →
      custody (sh.fds, ctx.held) (forkLoopCalls rest job ctx sh) = some (sh'.fds, {ctx.sfd}) := by
  induction rest with
  | nil => exact absurd rfl hrest
  | cons proc rest ih =>
    intro job job' ctx sh sh' hctx hnodup h
    rw [forkLoop] at h
    obtain ⟨⟨pid, sh₁⟩, hfork, hloop⟩ := bind_ok.mp h
    have hturn := forkTurn_of_forkProcess hfork
    rw [forkLoopCalls_cons hfork, custody_append, hturn.custody_eq hctx hnodup]
    by_cases hlast : rest = []
    · subst hlast
      cases hloop
      rfl
    · have hspent := hturn.spent_next
      have hheld : ((ctx.withOut (nextPipe rest sh).1).next pid (nextPipe rest sh).1).held
          = insert ctx.sfd ((nextPipe rest sh).1.map Prod.fst).toFinset := by
        rw [ExecutorCtx.held, hspent]
        cases (nextPipe rest sh).1 <;> rfl
      have hnodup : ((ctx.withOut (nextPipe rest sh).1).next pid
          (nextPipe rest sh).1).spent.Nodup := by
        rw [hspent]
        cases (nextPipe rest sh).1
        · exact List.nodup_nil
        · exact List.nodup_singleton _
      have hnext := ih hlast (hturn.apart hctx hlast) hnodup hloop
      rw [hheld] at hnext
      exact hnext

/-! ## The whole -/

/-- Each close of the shell is of a descriptor that it has opened in the meantime and not closed
since, and in the end its table is what it was. -/
structure ClosesItsOwn (job : Job) (sh sh' : Shell) : Prop where
  closes : custody (sh.fds, ∅) (runForkedCalls job sh) ≠ none
  table : ∀ fd, sh'.fds.get fd = sh.fds.get fd

section

variable {job : Job} {sh sh' : Shell} {status : ℤ}

theorem fds_handleExecution (h : handleExecution job sh = .ok (status, sh')) :
    sh'.fds = sh.fds := by
  unfold handleExecution at h
  split at h
  · cases h
    rfl
  · exact (onlyJobs_handleForegroundExecution h).fds

/-- Up to `executor_destroy_context` all is well. Then the descriptor for signals is closed, and
what is closed after that is not held. -/
theorem custody_runForked (hne : job.processes ≠ [])
    (h : runForked job sh = .ok (status, sh')) :
    ∃ calls fds, runForkedCalls job sh
        = calls ++ executorDestroyContextCalls (executorInitContext sh).1 ∧
      custody (sh.fds, ∅) calls = some (fds, {(executorInitContext sh).1.sfd}) ∧
      sh'.fds = ((fds.close (executorInitContext sh).1.sfd).close
        (executorInitContext sh).1.syncPipe.1).close (executorInitContext sh).1.syncPipe.2 := by
  rw [runForked] at h
  dsimp only at h
  obtain ⟨⟨job₁, sh₁⟩, hfork, h⟩ := bind_ok.mp h
  obtain ⟨⟨status₁, sh₂⟩, hexec, h⟩ := bind_ok.mp h
  obtain ⟨-, rfl⟩ := Prod.mk.inj (Except.ok.inj h)
  obtain ⟨⟨job₂, sh₃⟩, hloop, hjob⟩ := bind_ok.mp hfork
  obtain ⟨-, hsh₁⟩ := Prod.mk.inj (Except.ok.inj hjob)
  have hfds : sh₂.fds = sh₃.fds := by rw [fds_handleExecution hexec, ← hsh₁]
  have happart := (@apart_executorInitContext 0 sh fun fd h ↦ absurd h (Nat.not_lt_zero fd)).1
  have hcustody := custody_forkLoop _ hne happart (nodup_executorInitContext sh) hloop
  refine ⟨executorInitContextCalls sh ++ forkLoopCalls job.processes { job with processes := [] }
    (executorInitContext sh).1 (executorInitContext sh).2, sh₃.fds, ?_, ?_, ?_⟩
  · rw [runForkedCalls]
    dsimp only
    rw [bind_ok.mpr ⟨_, hfork, hexec⟩]
  · rw [custody_append, custody_executorInitContext]
    exact hcustody
  · rw [← hfds]
    rfl

/-- What is closed twice is free in the end, as it was at the start. -/
theorem get_runForked (hne : job.processes ≠ []) (h : runForked job sh = .ok (status, sh'))
    (fd : ℕ) : sh'.fds.get fd = sh.fds.get fd := by
  obtain ⟨calls, fds, -, hcustody, hfds⟩ := custody_runForked hne h
  have hinit : Holds (executorInitContext sh).1.held sh.fds (executorInitContext sh).2.fds :=
    (Holds.refl sh.fds).of_custody (custody_executorInitContext sh)
  have hsync : ∀ x ∈ (executorInitContext sh).1.spent, sh.fds.get x = none := fun x hx ↦
    hinit.fresh x (Finset.mem_insert_of_mem (List.mem_toFinset.mpr hx))
  have hloop := ((Holds.refl sh.fds).of_custody hcustody).close (Finset.mem_singleton_self _)
  rw [Finset.erase_singleton] at hloop
  have hfirst := hloop.close_of_free (Finset.notMem_empty _)
    (hsync _ (List.mem_cons_of_mem _ List.mem_cons_self))
  have hsecond := hfirst.close_of_free (Finset.notMem_empty _) (hsync _ List.mem_cons_self)
  rw [hfds]
  exact hsecond.others fd (Finset.notMem_empty fd)

/-- Whenever `run_job` has forked processes and returns, it has closed the pipe of the handshake
twice. Its table is what it was all the same. -/
theorem not_closesItsOwn (hne : job.processes ≠ []) (hpure : isPureBuiltin job.processes = .ok none)
    (h : runJob job sh = .ok (status, sh')) :
    ¬ClosesItsOwn (enlist job sh).1 (enlist job sh).2 sh' ∧
      ∀ fd, sh'.fds.get fd = sh.fds.get fd := by
  rcases runJob_cases h with ⟨hnil, -⟩ | ⟨proc, hbuiltin, -⟩ | ⟨-, -, hforked⟩
  · exact absurd hnil hne
  · cases hpure.symm.trans hbuiltin
  · have hne : (enlist job sh).1.processes ≠ [] := hne
    refine ⟨fun hown ↦ ?_, @get_runForked _ (enlist job sh).2 _ _ hne hforked⟩
    obtain ⟨calls, fds, hcalls, hcustody, -⟩ := custody_runForked hne hforked
    refine hown.closes ?_
    rw [hcalls, custody_append, hcustody]
    change custody (fds, {(executorInitContext (enlist job sh).2).1.sfd}) _ = none
    rw [executorDestroyContextCalls, custody_closed (Finset.mem_singleton_self _),
      Finset.erase_singleton]
    exact custody_closed_of_notMem (Finset.notMem_empty _) _

end

/-- The job of `ls &`. -/
def backgroundLs : Job := compileCommandJob { addr := 0 } (.word "ls".toList true)

theorem not_closesItsOwn_background :
    ∃ status sh', runJob backgroundLs (.onTerminal { pids := [10] }) = .ok (status, sh') ∧
      ¬ClosesItsOwn (enlist backgroundLs (.onTerminal { pids := [10] })).1
        (enlist backgroundLs (.onTerminal { pids := [10] })).2 sh' := by
  have heval : (runJob backgroundLs (.onTerminal { pids := [10] })).toOption.map Prod.fst
      = some 0 := by decide +kernel
  obtain ⟨⟨status, sh'⟩, h, -⟩ := exists_of_map_eq heval
  exact ⟨status, sh', h, (not_closesItsOwn (by decide) rfl h).1⟩

/-- There 3 and 4 are closed behind the fork, and again in the end. -/
theorem not_forall_closesItsOwn :
    ¬∀ (job : Job) (sh sh' : Shell) (status : ℤ), job.processes ≠ [] →
      isPureBuiltin job.processes = .ok none → runJob job sh = .ok (status, sh') →
      ClosesItsOwn (enlist job sh).1 (enlist job sh).2 sh' := by
  intro hclaim
  have heval : (runJob backgroundLs (.onTerminal { pids := [10] })).toOption.map Prod.fst
      = some 0 := by decide +kernel
  obtain ⟨⟨status, sh'⟩, h, -⟩ := exists_of_map_eq heval
  have hown := hclaim backgroundLs _ sh' status (by decide) rfl h
  exact hown.closes (by decide +kernel)

end Novash
