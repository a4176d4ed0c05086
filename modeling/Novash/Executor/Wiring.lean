import Novash.Executor.Status
import Novash.Executor.SignalMask

/-!
# The wiring of a pipeline

Between two neighbours of a pipeline there is a pipe: the left one starts its program with the write
end as descriptor 1, the right one with the read end as descriptor 0, and everything else that is
standard is the shell's own. The shell keeps only one descriptor from a turn of its loop to the
next, the read end of the newest pipe (`ctx.in_fd`). The number of that descriptor says nothing: it
was free when the pipe was made, and will be given out again once it is closed. So the invariant is
about what it refers to.

A single builtin is no pipeline in this sense. It runs in the shell, which forks nothing for it.
-/

namespace Novash

open Foundations

/-- The standard descriptors of process `i` of `n`, whose pipes are numbered from `base`. The first
process reads from `input`; what is not connected to a pipe is as in the table `own`. -/
structure Wired (base n : ℕ) (input : Option (Descriptor OpenFile)) (own : FdTable OpenFile)
    (i : ℕ) (fds : FdTable OpenFile) : Prop where
  stdin : fds.get 0 = if i = 0 then input else some ⟨.pipeRead (base + (i - 1)), false⟩
  stdout : fds.get 1 = if i + 1 = n then own.get 1 else some ⟨.pipeWrite (base + i), false⟩
  stderr : fds.get 2 = own.get 2

/-- Executing a program closes neither end of a pipe. -/
theorem Wired.exec {base n i : ℕ} {own fds : FdTable OpenFile}
    (h : Wired base n (own.get 0) own i fds) :
    Wired base n (own.exec.get 0) own.exec i fds.exec := by
  refine ⟨?_, ?_, ?_⟩
  · rw [FdTable.get_exec, FdTable.get_exec, h.stdin]
    split <;> rfl
  · rw [FdTable.get_exec, FdTable.get_exec, h.stdout]
    split <;> rfl
  · rw [FdTable.get_exec, FdTable.get_exec, h.stderr]

/-- Process `i` of those behind the first is process `i + 1` of all. -/
theorem Wired.next {base n i : ℕ} {own own' fds : FdTable OpenFile}
    (h : Wired (base + 1) n (some ⟨.pipeRead base, false⟩) own' i fds)
    (hown : ∀ fd < 3, own'.get fd = own.get fd) (input : Option (Descriptor OpenFile)) :
    Wired base (n + 1) input own (i + 1) fds := by
  refine ⟨?_, ?_, ?_⟩
  · rw [h.stdin, if_neg (Nat.succ_ne_zero i), Nat.add_sub_cancel]
    split
    · next hzero => rw [hzero, Nat.add_zero]
    · next hpos => rw [Nat.add_assoc, Nat.add_sub_cancel' (Nat.pos_of_ne_zero hpos)]
  · rw [h.stdout, hown 1 (by decide), Nat.add_assoc, Nat.add_comm 1 i]
    simp only [Nat.add_right_cancel_iff]
  · rw [h.stderr, hown 2 (by decide)]

/-! ## One turn -/

/-- What the next process will read from: the read end in the context, or else descriptor 0. -/
def ExecutorCtx.input (ctx : ExecutorCtx) (fds : FdTable OpenFile) :
    Option (Descriptor OpenFile) := fds.get (ctx.inFd.getD 0)

/-- A descriptor that `in_fd` holds is the read end of a pipe. -/
def ExecutorCtx.ReadsPipe (ctx : ExecutorCtx) (fds : FdTable OpenFile) : Prop :=
  ∀ fd, ctx.inFd = some fd → ∃ k, fds.get fd = some ⟨.pipeRead k, false⟩

theorem get_moveFd_self {fd target : ℕ} {fds fds' : FdTable OpenFile} {d : Descriptor OpenFile}
    (h : moveFd (some fd) target fds = .ok fds') (hd : fds.get fd = some d) (hne : fd ≠ target) :
    fds'.get target = some { d with cloexec := false } := by
  rw [moveFd] at h
  split at h
  · cases h
  next fds₁ hdup =>
  obtain rfl := Except.ok.inj h
  rw [FdTable.get_close_of_ne _ hne.symm, FdTable.get_dup2_self hdup hd hne]

section

variable {proc : Process} {rest : List Process} {job : Job} {ctx : ExecutorCtx} {sh sh' : Shell}
  {pid : ℕ}

/-- Moving the input to 0. -/
theorem get_zero_of_moveInput (hctx : ctx.Apart 3 sh.fds) (hin : ctx.ReadsPipe sh.fds)
    (rest : List Process) {fds : FdTable OpenFile}
    (hmove : moveFd ctx.inFd 0 (closeInherited (ctx.withOut (nextPipe rest sh).1)
      (nextPipe rest sh).2.fds) = .ok fds) :
    fds.get 0 = ctx.input sh.fds := by
  have hkept : ∀ fd, sh.fds.get fd ≠ none →
      (nextPipe rest sh).2.fds.get fd = sh.fds.get fd := fun fd ↦ get_nextPipe_of_open rest
  cases hfd : ctx.inFd with
  | none =>
    rw [hfd] at hmove
    obtain rfl := Except.ok.inj hmove
    rw [hctx.get_inherited_standard (by decide), hkept 0 (hctx.standard 0 (by decide)),
      ExecutorCtx.input, hfd, Option.getD_none]
  | some fd =>
    obtain ⟨hopen, hlow⟩ := hctx.spent fd (ExecutorCtx.mem_spent_of_inFd hfd)
    obtain ⟨k, hk⟩ := hin fd hfd
    have hread := (hctx.get_inherited_input hfd (nextPipe rest sh).1 _).trans (hkept fd hopen)
    rw [hfd] at hmove
    rw [get_moveFd_self hmove (hread.trans hk) (by omega), ExecutorCtx.input, hfd,
      Option.getD_some, hk]

/-- What a child without redirections has as its standard descriptors. -/
theorem childSetup_wired (hctx : ctx.Apart 3 sh.fds) (hin : ctx.ReadsPipe sh.fds)
    (rest : List Process) (opens : List (Option File)) :
    ∃ fds, (childSetup sh.nofile (ctx.withOut (nextPipe rest sh).1) [] opens
        (nextPipe rest sh).2.fds).1 = .ok fds ∧
      Wired sh.pipes (rest.length + 1) (ctx.input sh.fds) sh.fds 0 fds := by
  obtain ⟨fds₁, hmove₁, hget₁⟩ :=
    hctx.exists_moveInput (nextPipe rest sh).1 fun fd ↦ get_nextPipe_of_open rest
  have hstdin := get_zero_of_moveInput hctx hin rest hmove₁
  have hstandard : ∀ fd < 3, fd ≠ 0 → fds₁.get fd = sh.fds.get fd := by
    intro fd hfd hne
    rw [hget₁ fd (hctx.notMem_spent hfd) hne, hctx.get_inherited_standard hfd,
      get_nextPipe_of_open rest (hctx.standard fd hfd)]
  rw [childSetup_withOut, hmove₁]
  change ∃ fds, moveFd ((nextPipe rest sh).1.map Prod.snd) 1 fds₁ = .ok fds ∧ _
  by_cases hrest : rest = []
  · have hlast : 0 + 1 = rest.length + 1 := by rw [hrest, List.length_nil]
    rw [nextPipe, if_pos hrest]
    refine ⟨fds₁, rfl, hstdin, ?_, hstandard 2 (by decide) (by decide)⟩
    rw [if_pos hlast, hstandard 1 (by decide) (by decide)]
  · obtain ⟨r, w, hpipe, -, hnew⟩ := exists_nextPipe hrest sh
    obtain ⟨hlow, -, hspent⟩ := hnew.apart hctx (Or.inr rfl)
    have hwrite : fds₁.get w = some ⟨.pipeWrite sh.pipes, false⟩ := by
      rw [hget₁ w hspent (by omega), hnew.get_inherited hctx (Or.inr rfl), hnew.write]
    -- then the output is moved to 1
    obtain ⟨fds₂, hmove₂, hget₂⟩ := exists_moveFd (some w) 1 fds₁ fun fd hfd ↦ by
      obtain rfl := Option.some.inj hfd
      rw [hwrite]
      exact Option.some_ne_none _
    have hkept₂ : ∀ fd < 3, fd ≠ 1 → fds₂.get fd = fds₁.get fd := fun fd hfd ↦
      hget₂ fd fun h ↦ by have := Option.some.inj h; omega
    have hlast : 0 + 1 ≠ rest.length + 1 := by
      have := List.length_pos_iff.mpr hrest
      omega
    rw [hpipe, Option.map_some]
    refine ⟨fds₂, hmove₂, ?_, ?_, ?_⟩
    · rw [hkept₂ 0 (by decide) (by decide), hstdin, if_pos rfl]
    · rw [get_moveFd_self hmove₂ hwrite (by omega), if_neg hlast, Nat.add_zero]
    · rw [hkept₂ 2 (by decide) (by decide), hstandard 2 (by decide) (by decide)]

/-- Between two turns the context holds the read end of the pipe that was made last. -/
theorem ForkTurn.input (h : ForkTurn proc rest job ctx sh pid sh') (hctx : ctx.Apart 3 sh.fds)
    (hrest : rest ≠ []) :
    let ctx' := (ctx.withOut (nextPipe rest sh).1).next pid (nextPipe rest sh).1
    ctx'.ReadsPipe sh'.fds ∧ ctx'.input sh'.fds = some ⟨.pipeRead sh.pipes, false⟩ := by
  obtain ⟨r, w, hpipe, -, hnew⟩ := exists_nextPipe hrest sh
  obtain ⟨-, -, hspent⟩ := hnew.apart hctx (Or.inl rfl)
  have hread : sh'.fds.get r = some ⟨.pipeRead sh.pipes, false⟩ := by
    rw [h.fds, hpipe, FdTable.get_closeAll, hnew.read]
    intro hmem
    rcases List.mem_append.mp hmem with hmem | hmem
    · exact hspent hmem
    · exact hnew.ne (List.mem_singleton.mp hmem)
  rw [hpipe]
  refine ⟨fun fd hfd ↦ ?_, hread⟩
  obtain rfl : r = fd := Option.some.inj hfd
  exact ⟨_, hread⟩

end

/-! ## The loop -/

/-- In the loop each process is forked in its turn, and wired. The first of those that are left
reads from what the context holds. -/
theorem wired_of_forkLoop (rest : List Process) :
    ∀ {job job' : Job} {ctx : ExecutorCtx} {sh sh' : Shell},
      (rest ≠ [] → ctx.Apart 3 sh.fds ∧ ctx.ReadsPipe sh.fds) → (∀ proc ∈ rest, proc.redir = []) →
      forkLoop rest job ctx sh = .ok (job', sh') →
      ∃ kids, sh'.spawned = sh.spawned ++ kids ∧
        kids.map Spawned.argv = rest.map Process.argv ∧
        ∀ i kid, kids[i]? = some kid → ∃ fds, kid.start = .ok fds ∧
          Wired sh.pipes rest.length (ctx.input sh.fds) sh.fds i fds := by
  induction rest with
  | nil =>
    intro job job' ctx sh sh' _ _ h
    cases h
    exact ⟨[], (List.append_nil _).symm, rfl, fun _ _ h ↦ nomatch h⟩
  | cons proc rest ih =>
    intro job job' ctx sh sh' hctx hredir h
    obtain ⟨pid, sh₁, hturn, hloop⟩ := forkLoop_cons h
    obtain ⟨hapart, hreads⟩ := hctx (List.cons_ne_nil _ _)
    obtain ⟨kids, hspawned, hargv, hkids⟩ :=
      ih (fun hne ↦ ⟨hturn.apart hapart hne, (hturn.input hapart hne).1⟩)
        (fun p hp ↦ hredir p (List.mem_cons_of_mem _ hp)) hloop
    obtain ⟨first, hfirst, hfirstargv, hstart⟩ : ∃ kid, sh₁.spawned = sh.spawned ++ [kid] ∧
        kid.argv = proc.argv ∧ kid.start = (childSetup sh.nofile
          (ctx.withOut (nextPipe rest sh).1) proc.redir sh.script.opens
          (nextPipe rest sh).2.fds).1 := ⟨_, hturn.spawned, rfl, rfl⟩
    rw [hredir proc List.mem_cons_self] at hstart
    refine ⟨first :: kids, ?_, ?_, fun i kid hkid ↦ ?_⟩
    · rw [hspawned, hfirst, List.append_assoc, List.singleton_append]
    · rw [List.map_cons, List.map_cons, hfirstargv, hargv]
    cases i with
    | zero =>
      obtain rfl := Option.some.inj hkid
      obtain ⟨fds, hsetup, hwired⟩ := childSetup_wired hapart hreads rest sh.script.opens
      exact ⟨fds, hstart.trans hsetup, hwired⟩
    | succ i =>
      -- child `i` of the rest, after a turn that made one pipe more
      obtain ⟨fds, hstart, hwired⟩ := hkids i kid hkid
      have hne : rest ≠ [] := by
        rintro rfl
        obtain rfl := List.map_eq_nil_iff.mp hargv
        cases hkid
      obtain ⟨r, w, -, hpipes, -⟩ := exists_nextPipe hne sh
      have hpipes : sh₁.pipes = sh.pipes + 1 := hturn.pipes.trans hpipes
      rw [hpipes, (hturn.input hapart hne).2] at hwired
      exact ⟨fds, hstart, hwired.next (hturn.standard hapart) _⟩

/-! ## The pipeline -/

/-- Between two states of the shell the commands were forked in their order, one child each, and the
children are wired, both when they call `execute_process` and when another program has been executed
there. The first pipe that is made for a job is that of the handshake. -/
def PipelineWired (cmds : List CmdNode) (sh sh' : Shell) : Prop :=
  ∃ kids, sh'.spawned = sh.spawned ++ kids ∧
    kids.map Spawned.argv = cmds.map (fun cmd ↦ cmd.argv.getD []) ∧
    ∀ i kid, kids[i]? = some kid → ∃ fds, kid.start = .ok fds ∧
      Wired (sh.pipes + 1) cmds.length (sh.fds.get 0) sh.fds i fds ∧
      Wired (sh.pipes + 1) cmds.length (sh.fds.exec.get 0) sh.fds.exec i fds.exec

/-- A single command that is a builtin. -/
def Ast.singleBuiltin (node : Ast) : Bool :=
  match node.stages with
  | [stage] => builtinIsBuiltin ((stage.1.argv.getD []).headD [])
  | _ => false

section

variable {node : Ast} {sh sh' : Shell} {job job' : Job}

theorem processes_compile {addr : ℕ} (h : node.compile addr = some job) :
    job.processes = node.stages.map fun stage ↦ jobsNewProcess stage.1 := by
  unfold Ast.compile at h
  split at h
  · obtain rfl := Option.some.inj h
    rfl
  · obtain rfl := Option.some.inj h
    exact processes_compilePipelineJob { addr } _ false
  · exact nomatch h

/-- Once all processes of a job have been forked, they are wired. -/
theorem pipelineWired_of_forkJob (hcompile : node.compile sh.heap = some job)
    (hredir : ∀ c ∈ node.stages, c.1.redir = []) (hopen : ∀ fd < 3, sh.fds.get fd ≠ none)
    (hfork : forkJob (enlist job { sh with heap := sh.heap + 1 }).1 (enlisted job sh).1
      (enlisted job sh).2 = .ok (job', sh')) :
    PipelineWired (node.stages.map Prod.fst) sh sh' := by
  obtain ⟨⟨job₁, sh₁⟩, hloop, h⟩ := bind_ok.mp hfork
  obtain ⟨-, rfl⟩ := Prod.mk.inj (Except.ok.inj h)
  let sh₀ := (enlist job { sh with heap := sh.heap + 1 }).2
  have hcompiled := processes_compile hcompile
  have hprocs : (enlist job { sh with heap := sh.heap + 1 }).1.processes
      = node.stages.map fun stage ↦ jobsNewProcess stage.1 := hcompiled
  have hnone : ∀ proc ∈ (enlist job { sh with heap := sh.heap + 1 }).1.processes,
      proc.redir = [] := by
    rw [hprocs]
    intro proc hproc
    obtain ⟨c, hc, rfl⟩ := List.mem_map.mp hproc
    rw [jobsNewProcess, hredir c hc, List.map_nil]
  -- the loop starts with the pipe of the handshake, and otherwise with the table of the shell
  obtain ⟨hapart, hsame⟩ := @apart_executorInitContext 3 sh₀ hopen
  have hreads : (executorInitContext sh₀).1.ReadsPipe (executorInitContext sh₀).2.fds :=
    fun fd hfd ↦ nomatch hfd
  obtain ⟨kids, hspawned, hargv, hkids⟩ :=
    wired_of_forkLoop _ (fun _ ↦ ⟨hapart, hreads⟩) hnone hloop
  have hown : ∀ fd < 3, (executorInitContext sh₀).2.fds.get fd = sh.fds.get fd := hsame
  refine ⟨kids, hspawned, ?_, fun i kid hkid ↦ ?_⟩
  · rw [hargv, hprocs, List.map_map, List.map_map]
    rfl
  · obtain ⟨fds, hstart, hwired⟩ := hkids i kid hkid
    have hwired : Wired (sh.pipes + 1) (node.stages.map Prod.fst).length (sh.fds.get 0) sh.fds i
        fds := by
      refine ⟨hwired.stdin.trans ?_, hwired.stdout.trans ?_, hwired.stderr.trans ?_⟩
      · rw [← hown 0 (by decide)]
        rfl
      · rw [hown 1 (by decide), hprocs, List.length_map, List.length_map]
        rfl
      · exact hown 2 (by decide)
    exact ⟨fds, hstart, hwired, hwired.exec⟩

/-- `run_job` has two ways to go. -/
theorem isPureBuiltin_compile (hcompile : node.compile sh.heap = some job)
    {builtin? : Option Process} (h : isPureBuiltin job.processes = .ok builtin?) :
    builtin?.isSome = node.singleBuiltin := by
  rw [processes_compile hcompile] at h
  unfold Ast.singleBuiltin
  cases hstages : node.stages with
  | nil =>
    rw [hstages] at h
    cases h
    rfl
  | cons stage stages =>
    rw [hstages] at h
    cases stages with
    | cons => cases h; rfl
    | nil =>
      obtain ⟨cmd, invalid⟩ := stage
      simp only [List.map_cons, List.map_nil, isPureBuiltin, jobsNewProcess] at h
      cases hargv : cmd.argv.getD [] with
      | nil => rw [hargv] at h; cases h
      | cons name args =>
        rw [hargv] at h
        cases h
        dsimp only
        rw [hargv, List.headD_cons]
        split <;> simp_all

/-- A pipeline that `exec_node` has executed. -/
theorem spawned_of_execNode (hcompile : node.compile sh.heap = some job)
    (hstages : node.stages ≠ []) {status : ℤ} (h : execNode node sh = .ok (status, sh')) :
    node.singleBuiltin = true ∧ sh'.spawned = sh.spawned ∨
    node.singleBuiltin = false ∧ ∃ job' sh₁,
      forkJob (enlist job { sh with heap := sh.heap + 1 }).1 (enlisted job sh).1
        (enlisted job sh).2 = .ok (job', sh₁) ∧ sh'.spawned = sh₁.spawned := by
  have hne : job.processes ≠ [] := by
    rw [processes_compile hcompile]
    exact fun h ↦ hstages (List.map_eq_nil_iff.mp h)
  rw [execNode_of_compile hcompile] at h
  rcases runJob_cases h with ⟨hnil, -⟩ | ⟨proc, hpure, h⟩ | ⟨-, hpure, h⟩
  · exact absurd hnil hne
  · have hsignals := signals_runPureBuiltin h
    exact Or.inl ⟨(isPureBuiltin_compile hcompile hpure).symm, congrArg Prod.snd hsignals⟩
  · obtain ⟨⟨job', sh₁⟩, hfork, h⟩ := bind_ok.mp h
    obtain ⟨⟨status₂, sh₂⟩, hexec, h⟩ := bind_ok.mp h
    cases h
    exact Or.inr ⟨(isPureBuiltin_compile hcompile hpure).symm, job', sh₁, hfork,
      congrArg Prod.snd (signals_handleExecution hexec)⟩

/-- A pipeline without redirections is wired, from the moment all its processes have been forked,
unless it is a single builtin: then no process is forked. -/
theorem wired_or_in_shell (hcompile : node.compile sh.heap = some job) (hstages : node.stages ≠ [])
    (hredir : ∀ stage ∈ node.stages, stage.1.redir = [])
    (hopen : ∀ fd < 3, sh.fds.get fd ≠ none) :
    (node.singleBuiltin = true →
      ∀ status sh', execNode node sh = .ok (status, sh') → sh'.spawned = sh.spawned) ∧
    (node.singleBuiltin = false →
      (∀ job' sh', forkJob (enlist job { sh with heap := sh.heap + 1 }).1 (enlisted job sh).1
          (enlisted job sh).2 = .ok (job', sh') →
        PipelineWired (node.stages.map Prod.fst) sh sh') ∧
      ∀ status sh', execNode node sh = .ok (status, sh') →
        PipelineWired (node.stages.map Prod.fst) sh sh') := by
  refine ⟨fun hsingle status sh' h ↦ ?_, fun hsingle ↦ ⟨fun job' sh' ↦ ?_, fun status sh' h ↦ ?_⟩⟩
  · rcases spawned_of_execNode hcompile hstages h with ⟨-, hsame⟩ | ⟨hnot, -⟩
    · exact hsame
    · exact absurd (hsingle.symm.trans hnot) (by decide)
  · exact pipelineWired_of_forkJob hcompile hredir hopen
  · rcases spawned_of_execNode hcompile hstages h with ⟨hnot, -⟩ | ⟨-, job', sh₁, hfork, hsame⟩
    · exact absurd (hsingle.symm.trans hnot) (by decide)
    · rw [PipelineWired, hsame]
      exact pipelineWired_of_forkJob hcompile hredir hopen hfork

end

/-- `a | b | c`, from a terminal. -/
theorem wired_or_in_shell_three :
    ∃ job' sh', forkJob (compilePipelineJob { addr := 0, id := 1 }
        [.word ['a'] false, .word ['b'] false, .word ['c'] false])
      (enlisted (compilePipelineJob { addr := 0 }
        [.word ['a'] false, .word ['b'] false, .word ['c'] false])
        (.onTerminal { pids := [10, 11, 12] })).1
      (enlisted (compilePipelineJob { addr := 0 }
        [.word ['a'] false, .word ['b'] false, .word ['c'] false])
        (.onTerminal { pids := [10, 11, 12] })).2 = .ok (job', sh') ∧
      ∃ cmds, cmds.map CmdNode.argv = [some [['a']], some [['b']], some [['c']]] ∧
        PipelineWired cmds (.onTerminal { pids := [10, 11, 12] }) sh' := by
  have heval : (forkJob (compilePipelineJob { addr := 0, id := 1 }
        [.word ['a'] false, .word ['b'] false, .word ['c'] false])
      (enlisted (compilePipelineJob { addr := 0 }
        [.word ['a'] false, .word ['b'] false, .word ['c'] false])
        (.onTerminal { pids := [10, 11, 12] })).1
      (enlisted (compilePipelineJob { addr := 0 }
        [.word ['a'] false, .word ['b'] false, .word ['c'] false])
        (.onTerminal { pids := [10, 11, 12] })).2).toOption.map
        (fun r ↦ r.1.pgid) = some 10 := by decide +kernel
  obtain ⟨⟨job', sh'⟩, hfork, -⟩ := exists_of_map_eq heval
  let node : Ast := .pipeline [.word ['a'] false, .word ['b'] false, .word ['c'] false] false
  have hforked := (@wired_or_in_shell node (.onTerminal { pids := [10, 11, 12] }) _ rfl
    (by decide) (by decide) (by decide)).2 rfl
  exact ⟨job', sh', hfork, node.stages.map Prod.fst, rfl, hforked.1 job' sh' hfork⟩

/-- `pwd` forks no child. -/
theorem not_forall_pipelineWired :
    ¬∀ (node : Ast) (job : Job) (sh sh' : Shell) (status : ℤ), node.compile sh.heap = some job →
      node.stages ≠ [] → (∀ stage ∈ node.stages, stage.1.redir = []) →
      (∀ fd < 3, sh.fds.get fd ≠ none) → execNode node sh = .ok (status, sh') →
      PipelineWired (node.stages.map Prod.fst) sh sh' := by
  intro hclaim
  have heval : (execNode (.word "pwd".toList false) (.onTerminal {})).toOption.map
      (fun r ↦ r.2.spawned.map Spawned.argv) = some [] := by decide +kernel
  obtain ⟨⟨status, sh'⟩, hexec, hnone⟩ := exists_of_map_eq heval
  obtain ⟨kids, hspawned, hargv, -⟩ := hclaim (.word "pwd".toList false) _ (.onTerminal {}) sh'
    status rfl (by decide) (by decide) (by decide) hexec
  have hkids : sh'.spawned = kids := hspawned
  rw [← hkids, show sh'.spawned.map Spawned.argv = [] from hnone] at hargv
  exact nomatch hargv

end Novash
