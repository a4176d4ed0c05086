import Novash.Builtin.Builtin
import Novash.Executor.Fork

/-!
# Running a job, and a tree of them

`executor.c`. `runJob` lists a job, runs it and, unless it stays in the background or stops, takes
it off the list. A single builtin runs inside the shell and everything else is forked.

## The status

The tree is executed by what `run_job` returns. `execNodeWith` is `exec_node` over any function in
its place, so that what the tree does with a status and where the status comes from can be looked
at separately.
-/

namespace Novash

open Foundations CondOp

/-! ## Builtins in the shell process -/

/-- `dup`, which gives -1 for a descriptor that is not open. -/
def dupFd (fd : ℕ) (sh : Shell) : Option ℕ × Shell :=
  match sh.fds.get fd with
  | none => (none, sh)
  | some d =>
    let (bak, fds) := sh.fds.alloc { d with cloexec := false }
    (some bak, { sh with fds })

/-- `dup2(bak, fd); close(bak);`. -/
def restoreFd (bak : Option ℕ) (fd : ℕ) (sh : Shell) : Shell :=
  match bak with
  | none => sh
  | some bak => { sh with fds := ((sh.fds.dup2 bak fd).getD sh.fds).close bak }

/-- `handle_pure_builtin_execution`, where `call` calls the function of the builtin. A redirection
that cannot be opened ends the process, which here is the shell. -/
def handlePureBuiltinExecutionWith (call : List CStr → Shell → Except Halt (ℤ × Shell))
    (proc : Process) (sh : Shell) : Except Halt (ℤ × Shell) :=
  let (stdinBak, sh) := dupFd 0 sh
  let (stdoutBak, sh) := dupFd 1 sh
  let (result, opens) := handleRedirection sh.nofile proc.redir sh.script.opens sh.fds
  match result with
  | .error status => .error (.exited status)
  | .ok (_, fds) => do
    let (status, sh) ← call proc.argv { sh with fds, script := { sh.script with opens } }
    return (status, restoreFd stdoutBak 1 (restoreFd stdinBak 0 sh))

def handlePureBuiltinExecution (proc : Process) (sh : Shell) : Except Halt (ℤ × Shell) :=
  handlePureBuiltinExecutionWith callBuiltin proc sh

theorem eq_of_dupFd (fd : ℕ) (sh : Shell) : ∃ fds, (dupFd fd sh).2 = { sh with fds } := by
  unfold dupFd
  split <;> exact ⟨_, rfl⟩

theorem eq_of_restoreFd (bak : Option ℕ) (fd : ℕ) (sh : Shell) :
    ∃ fds, restoreFd bak fd sh = { sh with fds } := by
  cases bak <;> exact ⟨_, rfl⟩

/-- Around the call of the builtin only descriptors are moved, and files opened. -/
theorem eq_of_handlePureBuiltinExecution {proc : Process} {sh sh' : Shell} {status : ℤ}
    (h : handlePureBuiltinExecution proc sh = .ok (status, sh')) :
    ∃ fds script sh₁ fds',
      callBuiltin proc.argv { sh with fds, script } = .ok (status, sh₁) ∧
        sh' = { sh₁ with fds := fds' } := by
  have hdup : ∃ fds, (dupFd 1 (dupFd 0 sh).2).2 = { sh with fds } := by
    obtain ⟨_, hin⟩ := eq_of_dupFd 0 sh
    exact hin ▸ eq_of_dupFd 1 _
  have hback : ∀ bak bak' sh, ∃ fds, restoreFd bak' 1 (restoreFd bak 0 sh) = { sh with fds } := by
    intro bak bak' sh
    obtain ⟨_, hout⟩ := eq_of_restoreFd bak 0 sh
    exact hout ▸ eq_of_restoreFd bak' 1 _
  obtain ⟨fds₀, hdup⟩ := hdup
  unfold handlePureBuiltinExecution handlePureBuiltinExecutionWith at h
  dsimp only at h
  rw [hdup] at h
  split at h
  · cases h
  next fds _ =>
  obtain ⟨⟨status₁, sh₁⟩, hcall, h⟩ := bind_ok.mp h
  obtain ⟨fds', hsh'⟩ := hback (dupFd 0 sh).1 (dupFd 1 (dupFd 0 sh).2).1 sh₁
  cases h
  exact ⟨fds, _, sh₁, fds', hcall, hsh'⟩

/-! ## Running a job -/

def runPureBuiltin (proc : Process) (sh : Shell) : Except Halt (ℤ × Shell) := do
  let (status, sh) ← handlePureBuiltinExecution proc sh
  return (status, { sh with table := (jobsRemoveJob sh.table 0).2 })

/-- Everything up to the end of the loop over the processes. The records of the job are written
while it is already listed; nothing reads the list meanwhile. -/
def forkJob (job : Job) (ctx : ExecutorCtx) (sh : Shell) : Except Halt (Job × Shell) := do
  let (job, sh) ← forkLoop job.processes { job with processes := [] } ctx sh
  return (job,
    { sh with
      table := sh.table.modify job.addr fun _ ↦ job
      lastExec := { sh.lastExec with pgid := job.pgid } })

def handleBackgroundExecution (job : Job) (sh : Shell) : Except Halt (ℤ × Shell) :=
  .ok (0, sh.print (['['] ++ showInt job.id ++ "] ".toList ++ showInt job.pgid))

def handleExecution (job : Job) (sh : Shell) : Except Halt (ℤ × Shell) :=
  if job.isBackground then handleBackgroundExecution job sh
  else handleForegroundExecution job.addr sh

def runForked (job : Job) (sh : Shell) : Except Halt (ℤ × Shell) := do
  let (ctx, sh) := executorInitContext sh
  let (job, sh) ← forkJob job ctx sh
  let (status, sh) ← handleExecution job sh
  let sh := executorDestroyContext ctx sh
  return (status, { sh with lastExec := { sh.lastExec with exitStatus := status } })

/-- A job of one process whose command is a builtin. Without a command the lookup of its name
crashes. -/
def isPureBuiltin : List Process → Except Halt (Option Process)
  | [proc] =>
    match proc.argv with
    | [] => .error .fault
    | name :: _ => .ok (if builtinIsBuiltin name then some proc else none)
  | _ => .ok none

/-- A builtin that runs in the shell is the only process of its job. -/
theorem eq_of_isPureBuiltin {procs : List Process} {proc : Process}
    (h : isPureBuiltin procs = .ok (some proc)) : procs = [proc] := by
  unfold isPureBuiltin at h
  split at h
  · split at h
    · cases h
    split at h <;> cases h
    rfl
  · cases h

/-- A job of one process that is forked is not a builtin. -/
theorem not_builtin_of_isPureBuiltin {proc : Process} (h : isPureBuiltin [proc] = .ok none) :
    ∃ name args, proc.argv = name :: args ∧ builtinIsBuiltin name = false := by
  unfold isPureBuiltin at h
  dsimp only at h
  split at h
  · cases h
  next name args hargv =>
  split at h
  · cases h
  next hbuiltin => exact ⟨name, args, hargv, by simpa using hbuiltin⟩

def runJob (job : Job) (sh : Shell) : Except Halt (ℤ × Shell) :=
  if job.processes = [] then .ok (-1, sh)
  else do
    let sh := sh.resetLastExec
    let sh := { sh with lastExec := { sh.lastExec with command := some job.command } }
    let job := { job with id := jobsNewId sh.table }
    let sh := { sh with table := jobsAddJob sh.table job }
    match ← isPureBuiltin job.processes with
    | some proc => runPureBuiltin proc sh
    | none => runForked job sh

/-- What `run_job` does first: it lists the job. -/
def enlist (job : Job) (sh : Shell) : Job × Shell :=
  let sh := sh.resetLastExec
  let sh := { sh with lastExec := { sh.lastExec with command := some job.command } }
  ({ job with id := jobsNewId sh.table },
    { sh with table := jobsAddJob sh.table { job with id := jobsNewId sh.table } })

theorem runJob_eq {job : Job} {sh : Shell} (hne : job.processes ≠ []) :
    runJob job sh = isPureBuiltin job.processes >>= fun
      | some proc => runPureBuiltin proc (enlist job sh).2
      | none => runForked (enlist job sh).1 (enlist job sh).2 := by
  rw [runJob, if_neg hne]
  rfl

/-- What a call of `run_job` that returns has done: nothing, a builtin in the shell, or forks. -/
theorem runJob_cases {job : Job} {sh sh' : Shell} {status : ℤ}
    (h : runJob job sh = .ok (status, sh')) :
    (job.processes = [] ∧ sh' = sh) ∨
    (∃ proc, isPureBuiltin job.processes = .ok (some proc) ∧
      runPureBuiltin proc (enlist job sh).2 = .ok (status, sh')) ∨
    (job.processes ≠ [] ∧ isPureBuiltin job.processes = .ok none ∧
      runForked (enlist job sh).1 (enlist job sh).2 = .ok (status, sh')) := by
  by_cases hnil : job.processes = []
  · rw [runJob, if_pos hnil] at h
    cases h
    exact Or.inl ⟨hnil, rfl⟩
  · rw [runJob_eq hnil] at h
    obtain ⟨proc?, hpure, h⟩ := bind_ok.mp h
    cases proc? with
    | some proc => exact Or.inr (Or.inl ⟨proc, hpure, h⟩)
    | none => exact Or.inr (Or.inr ⟨hnil, hpure, h⟩)

/-! ## Trees -/

/-- `jobs_new_job`. -/
def jobsNewJob (sh : Shell) : Job × Shell := ({ addr := sh.heap }, { sh with heap := sh.heap + 1 })

def compileCommandJob (job : Job) : Ast → Job
  | .cmd node _ =>
    jobsAddProcessToJob { job with command := node.rawStr, isBackground := node.isBg }
      (jobsNewProcess node)
  | _ => job

def compilePipelineJob (job : Job) (nodes : List Ast) : Job := nodes.foldl compileCommandJob job

/-- The commands of a pipeline, with their flags; a command is a pipeline of one. -/
def Ast.stages : Ast → List (CmdNode × Bool)
  | .cmd node invalid => [(node, invalid)]
  | .pipeline nodes _ => nodes.filterMap fun
    | .cmd node invalid => some (node, invalid)
    | _ => none
  | _ => []

/-- Each command of a pipeline becomes a process. -/
theorem processes_compilePipelineJob (job : Job) (nodes : List Ast) (invalid : Bool) :
    (compilePipelineJob job nodes).processes = job.processes ++
      (Ast.pipeline nodes invalid).stages.map fun c ↦ jobsNewProcess c.1 := by
  induction nodes generalizing job with
  | nil => exact (List.append_nil _).symm
  | cons node nodes ih =>
    rw [compilePipelineJob, List.foldl_cons, ← compilePipelineJob, ih]
    cases node with
    | cmd node invalid => exact List.append_assoc _ _ _
    | _ => rfl

section

variable (run : Job → Shell → Except Halt (ℤ × Shell))

mutual

def execNodeWith : Ast → Shell → Except Halt (ℤ × Shell)
  | .null, sh => .ok (-1, sh)
  | .cmd node invalid, sh =>
    if invalid then .ok (-1, sh)
    else
      let (job, sh) := jobsNewJob sh
      run (compileCommandJob job (.cmd node invalid)) sh
  | .pipeline nodes invalid, sh =>
    if invalid then .ok (-1, sh)
    else
      let (job, sh) := jobsNewJob sh
      run (compilePipelineJob job nodes) sh
  | .conditional left right op invalid, sh =>
    if invalid then .ok (-1, sh)
    else do
      let (status, sh) ← execNodeWith left sh
      if (op = condAnd ∧ status = 0) ∨ (op = condOr ∧ status ≠ 0) then execNodeWith right sh
      else return (status, sh)
  | .sequence nodes invalid, sh =>
    if invalid then .ok (-1, sh) else execSeqWith nodes 0 sh

def execSeqWith : List Ast → ℤ → Shell → Except Halt (ℤ × Shell)
  | [], status, sh => .ok (status, sh)
  | node :: nodes, _, sh => do
    let (status, sh) ← execNodeWith node sh
    execSeqWith nodes status sh

end

end

def execNode (node : Ast) (sh : Shell) : Except Halt (ℤ × Shell) := execNodeWith runJob node sh

end Novash
