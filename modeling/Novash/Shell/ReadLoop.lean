import Novash.Executor.Calls
import Novash.Executor.Refinement
import Novash.Shell.Lines

/-!
# The read loop

`shell_loop` as a whole: what `readline` returns is a line, or nothing because it was interrupted,
or nothing because the input has ended. While it waits, the event hook reaps.

Two things leave the loop. At the end of the input it is left if no job is running, or if the user
has been warned and has entered nothing since. And it is left after a line that executed `exit`,
whatever is running: that path has no warning. `leavesWarned_iff` says when this is no harm.
-/

namespace Novash

open Foundations

/-! ## The builtin that ends the shell -/

/-- The command is run in the shell, and is `exit`. -/
def Job.isExit (job : Job) : Bool :=
  match job.processes with
  | [proc] => proc.argv.headD [] = "exit".toList
  | _ => false

section

variable {sh sh' : Shell} {status : ℤ}

theorem shouldExit_runForked {job : Job} (h : runForked job sh = .ok (status, sh')) :
    sh'.shouldExit = sh.shouldExit := by
  obtain ⟨⟨job₁, sh₁⟩, hfork, h⟩ := bind_ok.mp h
  obtain ⟨⟨status₂, sh₂⟩, hexec, h⟩ := bind_ok.mp h
  cases h
  obtain ⟨⟨job₀, sh₀⟩, hloop, hfork⟩ := bind_ok.mp hfork
  cases hfork
  obtain ⟨fds, pipes, lastExec, script, children, new, rfl, -⟩ := eq_of_forkLoop _ hloop
  unfold handleExecution at hexec
  split at hexec
  · cases hexec
    rfl
  · have hflag := (onlyJobs_handleForegroundExecution hexec).shouldExit
    exact hflag

/-- What is forked is not `exit`. -/
theorem Job.isExit_of_forked (job : Job) (h : isPureBuiltin job.processes = .ok none) :
    job.isExit = false := by
  unfold Job.isExit
  split
  · next proc hprocs =>
    rw [hprocs] at h
    obtain ⟨name, args, hargv, hname⟩ := not_builtin_of_isPureBuiltin h
    rw [hargv, List.headD_cons, decide_eq_false]
    rintro rfl
    exact absurd hname (by decide)
  · rfl

/-- A job sets the flag if it is `exit`, and nothing takes the flag back. -/
theorem shouldExit_runJob {job : Job} (h : runJob job sh = .ok (status, sh')) :
    sh'.shouldExit = (sh.shouldExit || job.isExit) := by
  rcases runJob_cases h with ⟨hnil, rfl⟩ | ⟨proc, hpure, h⟩ | ⟨-, hpure, h⟩
  · rw [Job.isExit, hnil, Bool.or_false]
  · obtain ⟨⟨status₁, sh₁⟩, hbuiltin, h⟩ := bind_ok.mp h
    cases h
    rw [Job.isExit, eq_of_isPureBuiltin hpure]
    obtain ⟨fds, script, sh₂, fds', hcall, rfl⟩ := eq_of_handlePureBuiltinExecution hbuiltin
    have hflag := shouldExit_callBuiltin hcall
    exact hflag
  · rw [job.isExit_of_forked hpure, Bool.or_false]
    have hflag := shouldExit_runForked h
    exact hflag

/-- A tree sets the flag if one of its jobs is `exit`. -/
theorem shouldExit_execNode {node : Ast} (h : execNode node sh = .ok (status, sh')) :
    sh'.shouldExit = (sh.shouldExit || (execCalls node sh).any fun c ↦ c.1.isExit) := by
  have hcalls : ∀ {sh : Shell} {cs : List (Job × Shell)} {r : Except Halt (ℤ × Shell)},
      Calls runJob sh cs r → r = .ok (status, sh') →
        sh'.shouldExit = (sh.shouldExit || cs.any fun c ↦ c.1.isExit) := by
    intro sh cs r hcalls hr
    induction hcalls with
    | done => cases hr; exact (Bool.or_false _).symm
    | call hrun _ ih =>
      rw [ih hr, shouldExit_runJob hrun, List.any_cons, Bool.or_assoc]
      rfl
    | stop => cases hr
  exact hcalls (calls_execCalls node sh) h

end

/-! ## The loop -/

/-- What `readline` returns: a line, or `NULL` with or without an `EINTR`. With a line comes the
memory that the parser is given for its tree. -/
inductive ReadlineResult
  | line (text : CStr) (heap : ℕ → Bool)
  | interrupted
  | eof

/-- What happens in one round of the loop: the event hook reaps, and `readline` returns. -/
structure Round where
  events : List WaitEvent := []
  input : ReadlineResult

/-- The state of the loop. -/
structure LoopState where
  shell : Shell
  warningExit : Bool := false

/-- The shell when `readline` returns. -/
def Round.shell (r : Round) (s : LoopState) : Shell := handleSigchldEvents s.shell r.events

def exitWarning : CStr := "you have running jobs".toList

section

variable (world : Shell → Surroundings)

/-- The tree that a line is executed as, or how the parser ends the process. -/
def readTree (text : CStr) (heap : ℕ → Bool) (sh : Shell) : Except Halt Ast :=
  match expandLine (expandEnv world sh) heap text with
  | .error (.exit _) => .error (.exited 1)
  | .error .crash => .error .fault
  | .ok node => .ok node

/-- One round of `shell_loop`, and whether the loop is left. `continue` goes to the condition of the
loop, too. -/
def shellLoopRound (r : Round) (s : LoopState) : Except Halt (Bool × LoopState) :=
  let sh := r.shell s
  match r.input with
  | .interrupted => .ok (sh.shouldExit, { s with shell := sh })
  | .eof =>
    if 0 < sh.table.runningJobsCount && !s.warningExit then
      .ok (sh.shouldExit, ⟨sh.print exitWarning, true⟩)
    else .ok (true, { s with shell := sh.print "exit".toList })
  | .line text heap => do
    let node ← readTree world text heap sh
    let (_, sh) ← execNode node sh
    return (sh.shouldExit, ⟨sh, false⟩)

/-- `shell_loop`, for as long as there are rounds. -/
def shellLoopRounds : List Round → LoopState → Except Halt (Bool × LoopState)
  | [], s => .ok (false, s)
  | r :: rs, s => do
    let (left, s) ← shellLoopRound world r s
    if left then return (true, s) else shellLoopRounds rs s

/-! ## Leaving with a warning -/

/-- The end of the input is answered with the warning. -/
def Warns (r : Round) (s : LoopState) : Prop :=
  r.input = .eof ∧ ∃ s', shellLoopRound world r s = .ok (false, s') ∧
    s'.shell.out = (r.shell s).out ++ [exitWarning]

/-- A line that is the command `exit`, and nothing else. -/
def Ast.isExitRequest : Ast → Bool
  | .sequence [.cmd node _] _ => (node.argv.getD []).headD [] = "exit".toList
  | _ => false

/-- What is entered asks for the shell to end. -/
def RequestsExit (r : Round) (s : LoopState) : Prop :=
  match r.input with
  | .interrupted => False
  | .eof => True
  | .line text heap => ∃ node, readTree world text heap (r.shell s) = .ok node ∧ node.isExitRequest

/-- The rounds `early` come first and do not leave the loop, and the next is `r`, in the state
`s`. -/
def ComesTo (rs : List Round) (s₀ : LoopState) (early : List Round) (r : Round) (s : LoopState) :
    Prop := ∃ since, rs = early ++ r :: since ∧ shellLoopRounds world early s₀ = .ok (false, s)

/-- Among the rounds is one in which the user is warned, and nothing has been entered since. -/
def HasWarned (rs : List Round) (s₀ : LoopState) : Prop :=
  ∃ early r since s, rs = early ++ r :: since ∧ shellLoopRounds world early s₀ = .ok (false, s) ∧
    Warns world r s ∧ ∀ u ∈ since, u.input = .interrupted

/-- If the loop is left with jobs running, the user has been warned of them and has only asked
again. -/
def LeavesWarned (rs : List Round) (s₀ : LoopState) : Prop :=
  ∀ early r s s', ComesTo world rs s₀ early r s → shellLoopRound world r s = .ok (true, s') →
    0 < s'.shell.table.runningJobsCount → HasWarned world early s₀ ∧ RequestsExit world r s

/-- A line that executes `exit` leaves no job running, or it is nothing but the repeated request. -/
def ExitIsSafe (r : Round) (s : LoopState) : Prop :=
  ∀ text heap node, r.input = .line text heap → readTree world text heap (r.shell s) = .ok node →
    ((execCalls node (r.shell s)).any fun c ↦ c.1.isExit) = true →
    ∀ status sh, execNode node (r.shell s) = .ok (status, sh) →
      0 < sh.table.runningJobsCount → s.warningExit = true ∧ node.isExitRequest = true

/-! ## The flag -/

variable {world} {r : Round} {rs : List Round} {s₀ s s' : LoopState}

/-- A round that does not leave the loop, and what it does to the flag. -/
theorem warningExit_shellLoopRound (h : shellLoopRound world r s = .ok (false, s')) :
    s'.shell.shouldExit = false ∧
      (s'.warningExit = true ↔
        Warns world r s ∨ s.warningExit = true ∧ r.input = .interrupted) := by
  have hround := h
  unfold shellLoopRound at h
  dsimp only at h
  split at h
  · next hinput =>
    obtain ⟨hexit, rfl⟩ := Prod.mk.inj (Except.ok.inj h)
    refine ⟨hexit, fun hflag ↦ Or.inr ⟨hflag, hinput⟩, ?_⟩
    rintro (⟨heof, -⟩ | ⟨hflag, -⟩)
    · exact nomatch hinput.symm.trans heof
    · exact hflag
  · next hinput =>
    split at h
    · obtain ⟨hexit, rfl⟩ := Prod.mk.inj (Except.ok.inj h)
      exact ⟨hexit, fun _ ↦ Or.inl ⟨hinput, _, hround, rfl⟩, fun _ ↦ rfl⟩
    · exact nomatch h
  · next hinput =>
    obtain ⟨node, -, h⟩ := bind_ok.mp h
    obtain ⟨⟨status, sh⟩, -, h⟩ := bind_ok.mp h
    obtain ⟨hexit, rfl⟩ := Prod.mk.inj (Except.ok.inj h)
    refine ⟨hexit, fun hflag ↦ absurd hflag Bool.false_ne_true, ?_⟩
    rintro (⟨heof, -⟩ | ⟨-, hinterrupted⟩)
    · exact nomatch hinput.symm.trans heof
    · exact nomatch hinput.symm.trans hinterrupted

theorem shellLoopRounds_concat (rs : List Round) (r : Round) :
    ∀ s₀, shellLoopRounds world (rs ++ [r]) s₀ = (do
      let (left, s) ← shellLoopRounds world rs s₀
      if left then return (true, s) else shellLoopRound world r s) := by
  induction rs with
  | nil =>
    intro s₀
    change shellLoopRounds world [r] s₀ = shellLoopRound world r s₀
    rw [shellLoopRounds]
    cases shellLoopRound world r s₀ with
    | error e => rfl
    | ok x =>
      obtain ⟨left, s⟩ := x
      cases left <;> rfl
  | cons r' rs ih =>
    intro s₀
    rw [List.cons_append, shellLoopRounds, shellLoopRounds]
    cases shellLoopRound world r' s₀ with
    | error e => rfl
    | ok x =>
      obtain ⟨left, s⟩ := x
      cases left with
      | true => rfl
      | false => exact ih s

theorem hasWarned_concat (h : shellLoopRounds world rs s₀ = .ok (false, s)) :
    HasWarned world (rs ++ [r]) s₀ ↔
      Warns world r s ∨ HasWarned world rs s₀ ∧ r.input = .interrupted := by
  constructor
  · rintro ⟨early, r', since, s₁, hrs, hearly, hwarns, hsince⟩
    induction since using List.reverseRecOn with
    | nil =>
      obtain ⟨rfl, hr⟩ := List.append_inj' hrs rfl
      obtain rfl := List.singleton_inj.mp hr
      cases h.symm.trans hearly
      exact Or.inl hwarns
    | append_singleton since u _ =>
      rw [← List.cons_append, ← List.append_assoc] at hrs
      obtain ⟨rfl, hr⟩ := List.append_inj' hrs rfl
      obtain rfl := List.singleton_inj.mp hr
      exact Or.inr ⟨⟨early, r', since, s₁, rfl, hearly, hwarns,
        fun u hu ↦ hsince u (List.mem_append_left _ hu)⟩, hsince _ List.mem_concat_self⟩
  · rintro (hwarns | ⟨⟨early, r', since, s₁, rfl, hearly, hwarns, hsince⟩, hr⟩)
    · exact ⟨rs, r, [], s, rfl, h, hwarns, fun u hu ↦ absurd hu List.not_mem_nil⟩
    · refine ⟨early, r', since ++ [r], s₁, by rw [List.append_assoc]; rfl, hearly, hwarns, ?_⟩
      exact List.forall_mem_append.mpr ⟨hsince, List.forall_mem_singleton.mpr hr⟩

/-- The flag is set exactly while the last thing the user has entered is an end of the input that
was answered with the warning. -/
theorem warningExit_iff (hwarning : s₀.warningExit = false)
    (hexit : s₀.shell.shouldExit = false) (rs : List Round) :
    ∀ {s}, shellLoopRounds world rs s₀ = .ok (false, s) →
      s.shell.shouldExit = false ∧ (s.warningExit = true ↔ HasWarned world rs s₀) := by
  induction rs using List.reverseRecOn with
  | nil =>
    intro s h
    cases h
    refine ⟨hexit, fun h ↦ absurd (hwarning.symm.trans h) Bool.false_ne_true, ?_⟩
    rintro ⟨early, r, since, s, hrs, -⟩
    exact absurd hrs.symm (List.append_ne_nil_of_right_ne_nil _ (List.cons_ne_nil _ _))
  | append_singleton rs r ih =>
    intro s h
    rw [shellLoopRounds_concat] at h
    obtain ⟨⟨left, s₁⟩, hrs, h⟩ := bind_ok.mp h
    cases left with
    | true => exact absurd (Prod.mk.inj (Except.ok.inj h)).1.symm Bool.false_ne_true
    | false =>
      obtain ⟨hexit', hflag⟩ := warningExit_shellLoopRound h
      rw [hflag, (ih hrs).2, hasWarned_concat hrs]
      exact ⟨hexit', Iff.rfl⟩

/-! ## When the loop is left with jobs running -/

/-- A round in a state that is reached leaves the loop with jobs running only after a warning,
exactly when the line it may have read does. -/
theorem leavesWarned_round_iff (hexit : s.shell.shouldExit = false) :
    (∀ s', shellLoopRound world r s = .ok (true, s') → 0 < s'.shell.table.runningJobsCount →
        s.warningExit = true ∧ RequestsExit world r s) ↔ ExitIsSafe world r s := by
  have hsh : (r.shell s).shouldExit = false :=
    (onlyJobs_handleSigchldEvents s.shell r.events).shouldExit.trans hexit
  constructor
  · intro hleaves text heap node hinput htree hany status sh hexec hrunning
    have hround : shellLoopRound world r s = .ok (true, ⟨sh, false⟩) := by
      have hflag : sh.shouldExit = true := by
        rw [shouldExit_execNode hexec, hany, Bool.or_true]
      unfold shellLoopRound
      dsimp only
      rw [hinput]
      simp only [htree, hexec, bind, Except.bind, hflag]
      rfl
    obtain ⟨hwarning, hrequest⟩ := hleaves _ hround hrunning
    unfold RequestsExit at hrequest
    rw [hinput] at hrequest
    obtain ⟨node', htree', hnode⟩ := hrequest
    cases htree.symm.trans htree'
    exact ⟨hwarning, hnode⟩
  · intro hsafe s' h hrunning
    unfold shellLoopRound at h
    dsimp only at h
    unfold RequestsExit
    split at h
    · -- an interruption only looks at the flag of `exit`
      exact absurd (hsh.symm.trans (Prod.mk.inj (Except.ok.inj h)).1) Bool.false_ne_true
    · split at h
      · exact absurd (hsh.symm.trans (Prod.mk.inj (Except.ok.inj h)).1) Bool.false_ne_true
      · next hguard =>
        obtain ⟨-, rfl⟩ := Prod.mk.inj (Except.ok.inj h)
        simp only [Bool.and_eq_true, decide_eq_true_eq, Bool.not_eq_true', not_and] at hguard
        exact ⟨Bool.not_eq_false _ ▸ hguard hrunning, trivial⟩
    · next text heap hinput =>
      obtain ⟨node, htree, h⟩ := bind_ok.mp h
      obtain ⟨⟨status, sh⟩, hexec, h⟩ := bind_ok.mp h
      obtain ⟨hflag, rfl⟩ := Prod.mk.inj (Except.ok.inj h)
      rw [shouldExit_execNode hexec, hsh, Bool.false_or] at hflag
      obtain ⟨hwarning, hnode⟩ := hsafe _ _ _ hinput htree hflag _ _ hexec hrunning
      exact ⟨hwarning, node, htree, hnode⟩

/-- **Leaving the shell.** Whatever is entered and whatever happens meanwhile, the loop is left with
jobs running only after the user has been warned and has entered nothing but the repeated request,
exactly when this is so for the lines that execute `exit`. -/
theorem leavesWarned_iff (hwarning : s₀.warningExit = false)
    (hexit : s₀.shell.shouldExit = false) :
    LeavesWarned world rs s₀ ↔
      ∀ early r s, ComesTo world rs s₀ early r s → ExitIsSafe world r s := by
  constructor
  · intro hleaves early r s hcomes
    obtain ⟨since, hrs, hearly⟩ := hcomes
    obtain ⟨hexit', hflag⟩ := warningExit_iff hwarning hexit early hearly
    refine (leavesWarned_round_iff hexit').mp fun s' hround hrunning ↦ ?_
    obtain ⟨hwarned, hrequest⟩ := hleaves early r s s' ⟨since, hrs, hearly⟩ hround hrunning
    exact ⟨hflag.mpr hwarned, hrequest⟩
  · intro hsafe early r s s' hcomes hround hrunning
    obtain ⟨since, hrs, hearly⟩ := hcomes
    obtain ⟨hexit', hflag⟩ := warningExit_iff hwarning hexit early hearly
    obtain ⟨hset, hrequest⟩ := (leavesWarned_round_iff hexit').mpr
      (hsafe early r s ⟨since, hrs, hearly⟩) s' hround hrunning
    exact ⟨hflag.mp hset, hrequest⟩

end

/-! ## Two runs -/

/-- Nothing outside the shell for the expander to read. -/
def nothingAround (_ : Shell) : Surroundings where
  flags := ⟨true, true, true, false⟩
  home := none
  getpwnam _ := none
  glob _ := ⟨.nomatch, []⟩

/-- A job is running, and the end of the input comes twice, with an interruption in between. -/
theorem leavesWarned_iff_eof :
    LeavesWarned nothingAround [⟨[], .eof⟩, ⟨[], .interrupted⟩, ⟨[], .eof⟩]
      ⟨{ Shell.onTerminal {} with table := { jobs := [{ addr := 0 }], runningJobsCount := 1 } },
        false⟩ := by
  refine (leavesWarned_iff rfl rfl).mpr ?_
  rintro early r s ⟨since, hrs, -⟩ text heap node hinput
  have hr : r ∈ early ++ r :: since := List.mem_append_right _ List.mem_cons_self
  rw [← hrs] at hr
  simp only [List.mem_cons, List.not_mem_nil, or_false] at hr
  rcases hr with rfl | rfl | rfl <;> cases hinput

/-- `a &`, and then `exit`: the shell ends, and `a` is running. -/
theorem not_leavesWarned :
    ¬∀ (world : Shell → Surroundings) (rs : List Round) (s₀ : LoopState),
      s₀.warningExit = false → s₀.shell.shouldExit = false → LeavesWarned world rs s₀ := by
  intro hall
  let background : Round := ⟨[], .line "a &".toList fun _ ↦ false⟩
  let exit : Round := ⟨[], .line "exit".toList fun _ ↦ false⟩
  let s₀ : LoopState := ⟨.onTerminal { pids := [10] }, false⟩
  have heval : (do
      let x ← shellLoopRounds nothingAround [background] s₀
      let y ← shellLoopRound nothingAround exit x.2
      return (x.1, y) : Except Halt (Bool × Bool × LoopState)).toOption.map
        (fun z ↦ (z.1, z.2.1, z.2.2.shell.table.runningJobsCount)) = some (false, true, 1) := by
    decide +kernel
  obtain ⟨z, hz, heq⟩ := exists_of_map_eq heval
  obtain ⟨⟨left, s⟩, hx, hz⟩ := bind_ok.mp hz
  obtain ⟨⟨left', s'⟩, hy, hz⟩ := bind_ok.mp hz
  cases hz
  obtain ⟨rfl, heq⟩ := Prod.mk.inj heq
  obtain ⟨rfl, hrunning⟩ := Prod.mk.inj heq
  have hleaves := hall nothingAround [background, exit] s₀ rfl rfl [background] exit s s'
    ⟨[], rfl, hx⟩ hy (hrunning ▸ by decide)
  -- the only thing that was entered before is a line
  obtain ⟨⟨early, r, since, s₁, hrs, -, ⟨heof, -⟩, -⟩, -⟩ := hleaves
  have hr : r ∈ early ++ r :: since := List.mem_append_right _ List.mem_cons_self
  rw [← hrs] at hr
  obtain rfl := List.mem_singleton.mp hr
  cases heof

end Novash
