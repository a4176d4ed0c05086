import Novash.Executor.Calls
import Novash.Shell.Loop

/-!
# The signal mask of the shell

A job is forked with the three signals of the shell blocked, and each child gets back the mask that
was there before (`executor_init_context`, `fork_process`). So a child starts its program with the
mask of the shell at the call of `run_job`, and what matters is that every call leaves that mask as
it found it. `executor_destroy_context` sees to this for jobs that are forked.

`fg` blocks the same signals for the same wait, and does not put the mask back. It does so once it
has found a job to bring to the foreground (`Job.bringsForward`), and from then on the signals stay
blocked in the shell and in whatever it starts.
-/

namespace Novash

open Foundations

/-- `SIGCHLD`, `SIGINT` and `SIGTSTP`. -/
def SigSet.blocked : SigSet := ⟨true, true, true⟩

/-- What is followed here: the mask of the shell, and the children with theirs. -/
def Shell.signals (sh : Shell) : SigSet × List Spawned := (sh.sigmask, sh.spawned)

/-! ## What leaves the mask alone -/

theorem Shell.OnlyJobs.signals {sh sh' : Shell} (h : sh.OnlyJobs sh') :
    sh'.signals = sh.signals := by
  obtain ⟨_, _, _, _, _, _, rfl⟩ := h
  rfl

/-! ## Builtins -/

section

variable {sh sh' : Shell}

/-- `fg` with these arguments has a job to bring to the foreground first. -/
def fgFinds (argv : List CStr) (t : JobTable) : Bool :=
  match retrieveArgJobIds argv.tail with
  | .ok (jobId :: _) => (findTargetJobFg t jobId).isSome
  | _ => false

/-- Once a job has been found, the signals are blocked. -/
theorem signals_fgLoop (jobIds : List ℕ) :
    ∀ {sh : Shell} {status status' : ℤ}, fgLoop jobIds status sh = .ok (status', sh') →
      sh'.signals = (if jobIds.head?.any fun jobId ↦ (findTargetJobFg sh.table jobId).isSome
        then .blocked else sh.sigmask, sh.spawned) := by
  induction jobIds with
  | nil => intro sh status status' h; cases h; rfl
  | cons jobId jobIds ih =>
    intro sh status status' h
    rw [fgLoop_cons] at h
    rw [List.head?_cons, Option.any_some]
    split at h
    · next hnone => cases h; rw [hnone]; rfl
    · next job hjob =>
      obtain ⟨⟨status₁, sh₁⟩, hturn, h⟩ := bind_ok.mp h
      have h₁ : sh₁.signals = (SigSet.blocked, sh.spawned) := (onlyJobs_fgTurn hturn).signals
      have hmask : sh₁.sigmask = .blocked := congrArg Prod.fst h₁
      have hspawned : sh₁.spawned = sh.spawned := congrArg Prod.snd h₁
      rw [ih h, hmask, ite_self, hspawned, hjob]
      rfl

theorem signals_builtinFg {argv : List CStr} {status : ℤ}
    (h : builtinFg argv sh = .ok (status, sh')) :
    sh'.signals = (if fgFinds argv sh.table then .blocked else sh.sigmask, sh.spawned) := by
  unfold builtinFg at h
  unfold fgFinds
  split at h
  · next herror => cases h; rw [herror]; rfl
  · next jobIds hids =>
    rw [signals_fgLoop jobIds h, hids]
    cases jobIds <;> rfl

/-- The command is `fg`, and finds a job. -/
def bringsForward (argv : List CStr) (t : JobTable) : Bool :=
  argv.headD [] = "fg".toList && fgFinds argv t

theorem signals_callBuiltin {argv : List CStr} {status : ℤ}
    (h : callBuiltin argv sh = .ok (status, sh')) :
    sh'.signals = (if bringsForward argv sh.table then .blocked else sh.sigmask, sh.spawned) := by
  have hother (hname : argv.headD [] ≠ "fg".toList) (hsame : sh'.signals = sh.signals) :
      sh'.signals
        = (if bringsForward argv sh.table then .blocked else sh.sigmask, sh.spawned) := by
    rw [bringsForward, decide_eq_false hname, hsame]
    rfl
  obtain ⟨hname, hfg⟩ | ⟨hname, hbg⟩ | ⟨hname, cwd, out, chdirs, rfl⟩ :=
    callBuiltin_cases h
  · rw [signals_builtinFg hfg, bringsForward, decide_eq_true hname, Bool.true_and]
  · exact hother (hname ▸ by decide) (onlyJobs_builtinBg hbg).signals
  · exact hother hname rfl

end

/-! ## Jobs -/

/-- `run_job` finds a job for `fg`, among the jobs with the one of `fg` itself. -/
def Job.bringsForward (job : Job) (t : JobTable) : Bool :=
  match job.processes with
  | [proc] => Novash.bringsForward proc.argv (jobsAddJob t { job with id := jobsNewId t })
  | _ => false

/-- The mask and the children after a piece of work: the mask is as it was, and the children that
have been forked got it too. -/
def KeepsMask (mask : SigSet) (sh sh' : Shell) : Prop :=
  sh.sigmask = mask → sh'.sigmask = mask ∧
    ∃ new, sh'.spawned = sh.spawned ++ new ∧ ∀ c ∈ new, c.sigmask = mask

namespace KeepsMask

variable {mask : SigSet} {sh sh₁ sh' : Shell}

theorem of_signals (h : sh'.signals = sh.signals) : KeepsMask mask sh sh' := by
  intro hmask
  refine ⟨(congrArg Prod.fst h).trans hmask, [], ?_, by simp⟩
  rw [List.append_nil]
  exact congrArg Prod.snd h

theorem refl (sh : Shell) : KeepsMask mask sh sh := of_signals rfl

theorem trans (h : KeepsMask mask sh sh₁) (h' : KeepsMask mask sh₁ sh') :
    KeepsMask mask sh sh' := by
  intro hmask
  obtain ⟨hmask₁, new, hnew, hall⟩ := h hmask
  obtain ⟨hmask', new', hnew', hall'⟩ := h' hmask₁
  refine ⟨hmask', new ++ new', by rw [hnew', hnew, List.append_assoc], fun c hc ↦ ?_⟩
  rcases List.mem_append.mp hc with hc | hc
  · exact hall c hc
  · exact hall' c hc

end KeepsMask

section

variable {sh sh' : Shell}

theorem signals_handleExecution {job : Job} {status : ℤ}
    (h : handleExecution job sh = .ok (status, sh')) : sh'.signals = sh.signals := by
  unfold handleExecution at h
  split at h
  · cases h; rfl
  · exact (onlyJobs_handleForegroundExecution h).signals

theorem signals_forkJob {job job' : Job} {ctx : ExecutorCtx}
    (h : forkJob job ctx sh = .ok (job', sh')) : ∃ new,
      sh'.signals = (sh.sigmask, sh.spawned ++ new) ∧ ∀ c ∈ new, c.sigmask = ctx.prevMask := by
  obtain ⟨⟨job₁, sh₁⟩, hloop, h⟩ := bind_ok.mp h
  obtain ⟨fds, pipes, lastExec, script, children, new, rfl, hnew⟩ := eq_of_forkLoop _ hloop
  cases h
  exact ⟨new, rfl, hnew⟩

/-- A forked job leaves the mask as it was, and its children get it. -/
theorem keepsMask_runForked {job : Job} {status : ℤ} (mask : SigSet)
    (h : runForked job sh = .ok (status, sh')) : KeepsMask mask sh sh' := by
  intro hmask
  obtain ⟨⟨job₁, sh₁⟩, hfork, h⟩ := bind_ok.mp h
  obtain ⟨⟨status₂, sh₂⟩, hexec, h⟩ := bind_ok.mp h
  obtain ⟨new, h₁, hnew⟩ := signals_forkJob hfork
  have h₂ := signals_handleExecution hexec
  have hspawned : sh₂.spawned = sh.spawned ++ new :=
    (congrArg Prod.snd h₂).trans (congrArg Prod.snd h₁)
  cases h
  exact ⟨hmask, new, hspawned, fun c hc ↦ (hnew c hc).trans hmask⟩

theorem signals_runPureBuiltin {proc : Process} {status : ℤ}
    (h : runPureBuiltin proc sh = .ok (status, sh')) :
    sh'.signals
      = (if bringsForward proc.argv sh.table then .blocked else sh.sigmask, sh.spawned) := by
  unfold runPureBuiltin at h
  obtain ⟨⟨status₁, sh₁⟩, hbuiltin, h⟩ := bind_ok.mp h
  cases h
  obtain ⟨fds, script, sh₂, fds', hcall, rfl⟩ := eq_of_handlePureBuiltinExecution hbuiltin
  have hsignals := signals_callBuiltin hcall
  exact hsignals

theorem Job.bringsForward_of_forked {job : Job} (t : JobTable)
    (h : isPureBuiltin job.processes = .ok none) : job.bringsForward t = false := by
  unfold Job.bringsForward
  split
  · next proc hprocs =>
    obtain ⟨name, args, hargv, hbuiltin⟩ := not_builtin_of_isPureBuiltin (hprocs ▸ h)
    have hname : name ≠ "fg".toList := by
      rintro rfl
      exact absurd hbuiltin (by decide)
    rw [Novash.bringsForward, hargv, List.headD_cons, decide_eq_false hname]
    rfl
  · rfl

/-- A call of `run_job` leaves the mask as it was and gives it to its children, unless it brings a
job to the foreground: then the signals stay blocked. -/
theorem signals_runJob {job : Job} {status : ℤ} (h : runJob job sh = .ok (status, sh')) :
    if job.bringsForward sh.table then sh'.sigmask = .blocked ∧ sh'.spawned = sh.spawned
    else ∀ mask, KeepsMask mask sh sh' := by
  rcases runJob_cases h with ⟨hnil, rfl⟩ | ⟨proc, hbuiltin, h⟩ | ⟨-, hforked, h⟩
  · rw [Job.bringsForward, hnil]
    exact fun mask ↦ .refl sh'
  · have hforward : job.bringsForward sh.table = Novash.bringsForward proc.argv
        (jobsAddJob sh.table { job with id := jobsNewId sh.table }) := by
      simp only [Job.bringsForward, eq_of_isPureBuiltin hbuiltin]
    have hsignals : sh'.signals
        = (if job.bringsForward sh.table then .blocked else sh.sigmask, sh.spawned) := by
      rw [hforward]
      exact signals_runPureBuiltin h
    split
    · next hfg =>
      rw [if_pos hfg] at hsignals
      exact ⟨congrArg Prod.fst hsignals, congrArg Prod.snd hsignals⟩
    · next hfg =>
      rw [if_neg hfg] at hsignals
      exact fun mask ↦ .of_signals hsignals
  · rw [Job.bringsForward_of_forked sh.table hforked, if_neg Bool.false_ne_true]
    intro mask
    have hkeeps := keepsMask_runForked mask h
    exact hkeeps

end

/-! ## Runs -/

def Op.calls (sh : Shell) : Op → List (Job × Shell)
  | line node => if sh.shouldExit then [] else execCalls node sh
  | hook _ => []

/-- The jobs that a run hands to `run_job`, each with the shell in which it is run. The last line of
the run need not return. -/
def runCalls : List Op → Shell → List (Job × Shell)
  | [], _ => []
  | op :: ops, sh =>
    op.calls sh ++
      match op.run sh with
      | .error _ => []
      | .ok sh => runCalls ops sh

/-- The mask is what it was before the first line: after every line, and whenever a job is run. So
every child has it, those of a line that does not return included. -/
structure MaskKept (ops : List Op) (sh₀ : Shell) : Prop where
  lines : ∀ pre, pre <+: ops → ∀ sh, runOps pre sh₀ = .ok sh → sh.sigmask = sh₀.sigmask ∧
    ∃ new, sh.spawned = sh₀.spawned ++ new ∧ ∀ c ∈ new, c.sigmask = sh₀.sigmask
  calls : ∀ c ∈ runCalls ops sh₀, c.2.sigmask = sh₀.sigmask

/-- No call of `run_job` that returns has brought a job to the foreground. -/
def NoneBroughtForward (ops : List Op) (sh₀ : Shell) : Prop :=
  ∀ c ∈ runCalls ops sh₀, (∃ result, runJob c.1 c.2 = .ok result) →
    c.1.bringsForward c.2.table = false

section

variable {sh sh' : Shell} {node : Ast} {mask : SigSet}

/-- What the calls of a line do, when none of them brings a job to the foreground or the signals
were blocked anyway. -/
theorem keepsMask_calls {cs : List (Job × Shell)}
    (hcs : mask = .blocked ∨ ∀ c ∈ cs, (∃ result, runJob c.1 c.2 = .ok result) →
      c.1.bringsForward c.2.table = false) :
    ∀ c ∈ cs, ∀ {status sh'}, runJob c.1 c.2 = .ok (status, sh') → KeepsMask mask c.2 sh' := by
  intro c hc status sh' hrun
  have hsignals := signals_runJob hrun
  split at hsignals
  · next hforward =>
    rcases hcs with hblocked | hnone
    · intro _
      refine ⟨hsignals.1.trans hblocked.symm, [], ?_, by simp⟩
      rw [List.append_nil]
      exact hsignals.2
    · exact absurd (hnone c hc ⟨_, hrun⟩) (by simp [hforward])
  · exact hsignals mask

theorem keepsMask_jobsNewJob (sh : Shell) : KeepsMask mask sh (jobsNewJob sh).2 := .of_signals rfl

theorem keepsMask_execNode (hcs : mask = .blocked ∨ ∀ c ∈ execCalls node sh,
      (∃ result, runJob c.1 c.2 = .ok result) → c.1.bringsForward c.2.table = false) :
    (∀ c ∈ execCalls node sh, KeepsMask mask sh c.2) ∧
      ∀ {status sh'}, execNode node sh = .ok (status, sh') → KeepsMask mask sh sh' := by
  have hcalls := calls_execCalls node sh
  refine ⟨hcalls.rel_of_mem .trans keepsMask_jobsNewJob (keepsMask_calls hcs), ?_⟩
  intro status sh' h
  exact hcalls.rel .refl .trans keepsMask_jobsNewJob h (keepsMask_calls hcs)

theorem keepsMask_run {op : Op} (hcs : mask = .blocked ∨ ∀ c ∈ op.calls sh,
      (∃ result, runJob c.1 c.2 = .ok result) → c.1.bringsForward c.2.table = false) :
    (∀ c ∈ op.calls sh, KeepsMask mask sh c.2) ∧
      ∀ {sh'}, op.run sh = .ok sh' → KeepsMask mask sh sh' := by
  cases op with
  | line node =>
    rw [Op.calls] at hcs ⊢
    dsimp only [Op.run]
    split
    · exact ⟨by simp, fun h ↦ by cases h⟩
    next hexit =>
    rw [if_neg hexit] at hcs
    have hline := keepsMask_execNode hcs
    refine ⟨hline.1, fun h ↦ ?_⟩
    obtain ⟨⟨status, sh₂⟩, hexec, h⟩ := bind_ok.mp h
    cases h
    exact hline.2 hexec
  | hook events =>
    refine ⟨by simp [Op.calls], fun h ↦ ?_⟩
    dsimp only [Op.run] at h
    split at h <;> cases h
    exact .of_signals (onlyJobs_handleSigchldEvents sh events).signals

/-- A call that brings a job to the foreground blocks the signals for whatever comes next. -/
theorem blocked_after {c : Job × Shell} (hc : c ∈ execCalls node sh) {result : ℤ × Shell}
    (hrun : runJob c.1 c.2 = .ok result) (hforward : c.1.bringsForward c.2.table = true) :
    (∃ c' ∈ execCalls node sh, c'.2.sigmask = .blocked) ∨
      ∃ status sh', execNode node sh = .ok (status, sh') ∧ sh'.sigmask = .blocked := by
  obtain ⟨status, sh₁⟩ := result
  have hsignals := signals_runJob hrun
  rw [if_pos hforward] at hsignals
  have hafter := (calls_execCalls node sh).after_mem
    (fun _ ↦ rfl) (fun _ ↦ rfl) hc hrun (R := fun sh sh' ↦ sh'.sigmask = sh.sigmask)
  rcases hafter with ⟨c', hc', hmask⟩ | ⟨status', sh', h, hmask⟩
  · exact Or.inl ⟨c', hc', hmask.trans hsignals.1⟩
  · exact Or.inr ⟨status', sh', h, hmask.trans hsignals.1⟩

end

theorem keepsMask_runOps {mask : SigSet} (ops : List Op) :
    ∀ {sh : Shell}, (mask = .blocked ∨ NoneBroughtForward ops sh) → sh.sigmask = mask →
      (∀ pre, pre <+: ops → ∀ sh', runOps pre sh = .ok sh' → KeepsMask mask sh sh') ∧
        ∀ c ∈ runCalls ops sh, c.2.sigmask = mask := by
  induction ops with
  | nil =>
    intro sh _ _
    refine ⟨fun pre hpre sh' h ↦ ?_, fun c hc ↦ absurd hc List.not_mem_nil⟩
    obtain rfl := List.prefix_nil.mp hpre
    cases h
    exact .refl sh
  | cons op ops ih =>
    intro sh hnone hmask
    -- the first operation, and then the others in the shell that it leaves
    have hstep := keepsMask_run (hnone.imp_right fun h c hc ↦ h c (List.mem_append_left _ hc))
    have hrest : ∀ sh₁, op.run sh = .ok sh₁ → mask = .blocked ∨ NoneBroughtForward ops sh₁ := by
      intro sh₁ hop
      refine hnone.imp_right fun h c hc ↦ h c ?_
      rw [runCalls, hop]
      exact List.mem_append_right _ hc
    constructor
    · intro pre hpre sh' h
      rcases List.prefix_cons_iff.mp hpre with rfl | ⟨pre, rfl, hpre'⟩
      · cases h
        exact .refl sh
      · obtain ⟨sh₁, hop, h⟩ := bind_ok.mp h
        have hkeeps := hstep.2 hop
        exact hkeeps.trans ((ih (hrest sh₁ hop) (hkeeps hmask).1).1 pre hpre' sh' h)
    · intro c hc
      rw [runCalls] at hc
      rcases List.mem_append.mp hc with hc | hc
      · exact (hstep.1 c hc hmask).1
      · cases hop : op.run sh with
        | error e => rw [hop] at hc; exact absurd hc List.not_mem_nil
        | ok sh₁ =>
          rw [hop] at hc
          exact (ih (hrest sh₁ hop) (hstep.2 hop hmask).1).2 c hc

/-- Where the mask is kept and the signals were not all blocked before, no job has been brought to
the foreground. -/
theorem noneBroughtForward_of_maskKept (ops : List Op) :
    ∀ {sh : Shell}, sh.sigmask ≠ .blocked →
      (∀ pre, pre <+: ops → ∀ sh', runOps pre sh = .ok sh' → sh'.sigmask = sh.sigmask) →
      (∀ c ∈ runCalls ops sh, c.2.sigmask = sh.sigmask) → NoneBroughtForward ops sh := by
  induction ops with
  | nil => exact fun _ _ _ c hc ↦ absurd hc List.not_mem_nil
  | cons op ops ih =>
    intro sh hmask hlines hcalls c hc ⟨result, hrun⟩
    rw [← Bool.not_eq_true]
    intro hforward
    rw [runCalls] at hc
    have hop_calls : ∀ c ∈ op.calls sh, c ∈ runCalls (op :: ops) sh :=
      fun c hc ↦ List.mem_append_left _ hc
    have hop_run : ∀ {sh₁}, op.run sh = .ok sh₁ → sh₁.sigmask = sh.sigmask := by
      intro sh₁ hop
      refine hlines [op] (List.prefix_append _ _) sh₁ ?_
      rw [runOps, List.foldlM_cons, hop]
      rfl
    rcases List.mem_append.mp hc with hc | hc
    · cases op with
      | hook events => exact absurd hc List.not_mem_nil
      | line node =>
        dsimp only [Op.calls, Op.run] at hc hop_calls hop_run
        split at hc
        · exact absurd hc List.not_mem_nil
        next hexit =>
        rw [if_neg hexit] at hop_calls hop_run
        rcases blocked_after hc hrun hforward with ⟨c', hc', hblocked⟩ | ⟨st, sh', h, hblocked⟩
        · exact hmask ((hcalls c' (hop_calls c' hc')).symm.trans hblocked)
        · have hsame : sh'.sigmask = sh.sigmask := hop_run (by rw [h]; rfl)
          exact hmask (hsame.symm.trans hblocked)
    · cases hop : op.run sh with
      | error e => rw [hop] at hc; exact absurd hc List.not_mem_nil
      | ok sh₁ =>
        rw [hop] at hc
        have hsame : sh₁.sigmask = sh.sigmask := hop_run hop
        refine absurd (ih (hsame ▸ hmask) ?_ ?_ c hc ⟨result, hrun⟩) (by simp [hforward])
        · intro pre hpre sh' h
          have h' : runOps (op :: pre) sh = .ok sh' := by
            rw [runOps, List.foldlM_cons, hop]
            exact h
          exact (hlines (op :: pre) (List.cons_prefix_cons.mpr ⟨rfl, hpre⟩) sh' h').trans hsame.symm
        · intro c hc
          refine (hcalls c ?_).trans hsame.symm
          rw [runCalls, hop]
          exact List.mem_append_right _ hc

/-- The shell keeps its signal mask, and gives it to its children, in exactly the runs in which no
`fg` brings a job to the foreground (or the mask had all three signals to begin with). -/
theorem maskKept_iff (ops : List Op) (sh₀ : Shell) :
    MaskKept ops sh₀ ↔ sh₀.sigmask = .blocked ∨ NoneBroughtForward ops sh₀ := by
  constructor
  · intro hkept
    by_cases hmask : sh₀.sigmask = .blocked
    · exact Or.inl hmask
    · refine Or.inr (noneBroughtForward_of_maskKept ops hmask ?_ hkept.calls)
      exact fun pre hpre sh' h ↦ (hkept.lines pre hpre sh' h).1
  · intro h
    obtain ⟨hlines, hcalls⟩ := keepsMask_runOps ops h rfl
    exact ⟨fun pre hpre sh hrun ↦ hlines pre hpre sh hrun rfl, hcalls⟩

/-- `a` is stopped, brought back by `fg`, and ends: the signals stay blocked. -/
theorem not_maskKept : ¬∀ script ops, MaskKept ops (Shell.onTerminal script) := by
  intro hall
  let script : Script := {
    pids := [2]
    wakeups := [[.sigchld [⟨2, .stopped 19⟩]], [.sigchld [⟨2, .exited 0⟩]]] }
  let ops := [Op.line (.word ['a'] false), .line (.word ['f', 'g'] false)]
  have hrun : (runOps ops (Shell.onTerminal script)).toOption.map Shell.sigmask
      = some .blocked := by decide +kernel
  obtain ⟨sh, hsh, hmask⟩ := exists_of_map_eq hrun
  have hkept := ((hall script ops).lines ops List.prefix_rfl sh hsh).1
  exact absurd (hmask.symm.trans hkept) (by decide)

end Novash
