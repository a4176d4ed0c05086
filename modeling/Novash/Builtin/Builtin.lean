import Novash.Builtin.JobControl

/-!
# Builtins

`builtin.c`. The name of a command is looked up in a table that is fixed at the start.

`history` is here for its status only: the ring of commands that it prints is not part of the state.
-/

namespace Novash

open Foundations

/-- The keys of the table that `builtin_init` builds. -/
def builtinNames : List CStr :=
  ["cd", "echo", "exit", "pwd", "jobs", "fg", "bg", "history", "type"].map String.toList

def builtinIsBuiltin (name : CStr) : Bool := builtinNames.contains name

/-- `chdir` fails with -1 without a directory to go to. Whatever `chdir` did, the shell's copy of
the working directory is replaced if `getcwd` returns one. -/
def builtinCd (argv : List CStr) (sh : Shell) : ℤ × Shell :=
  let home := sh.shellStateGetenv "HOME".toList
  let dir := match argv.tail with
    | [] => home
    | path :: _ => if path.headD '\x00' = '~' then home else some path
  let (success, cwd) := sh.script.chdirs.headD (false, none)
  (if dir.isSome && success then 0 else -1,
    { sh with
      cwd := cwd.getD sh.cwd
      script := { sh.script with chdirs := sh.script.chdirs.tail } })

def builtinEcho (argv : List CStr) (sh : Shell) : ℤ × Shell :=
  (0, sh.print (argv.tail.flatMap fun arg ↦ arg ++ [' ']))

def builtinExit (sh : Shell) : ℤ × Shell := (0, { sh with shouldExit := true })

def builtinPwd (sh : Shell) : ℤ × Shell := (0, sh.print sh.cwd)

/-- The directories of `PATH`, as `strsep` cuts it. -/
def pathDirs (path : CStr) : List CStr := path.splitOn ':'

def isInPath (cmd : CStr) (sh : Shell) : Option CStr :=
  match sh.shellStateGetenv "PATH".toList with
  | none => none
  | some path => ((pathDirs path).map fun dir ↦ dir ++ ['/'] ++ cmd).find? sh.executable

def builtinFnType (argv : List CStr) (sh : Shell) : ℤ × Shell :=
  match argv.tail with
  | [] => (1, sh.print "type: missing argument".toList)
  | cmd :: _ =>
    if builtinIsBuiltin cmd then (0, sh.print (cmd ++ " is a shell builtin".toList))
    else
      match isInPath cmd sh with
      | some path => (0, sh.print (cmd ++ " is ".toList ++ path))
      | none => (0, sh.print (cmd ++ ": not found".toList))

/-- The function that `builtin_get_function` finds, called. -/
def callBuiltin (argv : List CStr) (sh : Shell) : Except Halt (ℤ × Shell) :=
  let name := argv.headD []
  if name = "cd".toList then .ok (builtinCd argv sh)
  else if name = "echo".toList then .ok (builtinEcho argv sh)
  else if name = "exit".toList then .ok (builtinExit sh)
  else if name = "pwd".toList then .ok (builtinPwd sh)
  else if name = "jobs".toList then .ok (builtinJobs sh)
  else if name = "fg".toList then builtinFg argv sh
  else if name = "bg".toList then builtinBg argv sh
  else if name = "history".toList then .ok (0, sh)
  else if name = "type".toList then .ok (builtinFnType argv sh)
  else .error .fault

/-! ### What a builtin writes -/

variable {argv : List CStr} {status : ℤ} {sh sh' : Shell}

/-- `type` only prints. -/
theorem builtinFnType_eq (argv : List CStr) (sh : Shell) :
    ∃ out, (builtinFnType argv sh).2 = { sh with out } := by
  unfold builtinFnType
  split
  · exact ⟨_, rfl⟩
  split
  · exact ⟨_, rfl⟩
  · split <;> exact ⟨_, rfl⟩

/-- Only `fg` and `bg` reach the jobs. What the other builtins write is the working directory and
the output, and `exit` the flag that ends the shell. -/
theorem callBuiltin_cases (h : callBuiltin argv sh = .ok (status, sh')) :
    (argv.headD [] = "fg".toList ∧ builtinFg argv sh = .ok (status, sh')) ∨
    (argv.headD [] = "bg".toList ∧ builtinBg argv sh = .ok (status, sh')) ∨
    (argv.headD [] ≠ "fg".toList ∧ ∃ cwd out chdirs,
      sh' = { sh with
        cwd, out
        script := { sh.script with chdirs }
        shouldExit := sh.shouldExit || argv.headD [] = "exit".toList }) := by
  -- the builtins that do nothing to the jobs
  have hother {name : CStr} (hname : argv.headD [] = name) (hne : name ≠ "fg".toList)
      (hsh : ∃ cwd out chdirs, sh' = { sh with
        cwd, out
        script := { sh.script with chdirs }
        shouldExit := sh.shouldExit || name = "exit".toList }) :
      argv.headD [] ≠ "fg".toList ∧ ∃ cwd out chdirs, sh' = { sh with
        cwd, out
        script := { sh.script with chdirs }
        shouldExit := sh.shouldExit || argv.headD [] = "exit".toList } := hname ▸ ⟨hne, hsh⟩
  have hkeep {name : CStr} (hne : name ≠ "exit".toList) :
      (sh.shouldExit || name = "exit".toList) = sh.shouldExit := by
    rw [decide_eq_false hne, Bool.or_false]
  rw [callBuiltin] at h
  -- the table of builtins, in its order
  obtain ⟨hcd, h⟩ | ⟨-, h⟩ := ite_eq_iff.mp h
  · cases h
    exact .inr (.inr (hother hcd (by decide) ⟨_, _, _, by rw [hkeep (by decide)]⟩))
  obtain ⟨hecho, h⟩ | ⟨-, h⟩ := ite_eq_iff.mp h
  · cases h
    exact .inr (.inr (hother hecho (by decide) ⟨_, _, _, by rw [hkeep (by decide)]; rfl⟩))
  obtain ⟨hexit, h⟩ | ⟨-, h⟩ := ite_eq_iff.mp h
  · cases h
    refine .inr (.inr (hother hexit (by decide) ⟨sh.cwd, sh.out, sh.script.chdirs, ?_⟩))
    rw [decide_eq_true rfl, Bool.or_true]
  obtain ⟨hpwd, h⟩ | ⟨-, h⟩ := ite_eq_iff.mp h
  · cases h
    exact .inr (.inr (hother hpwd (by decide) ⟨_, _, _, by rw [hkeep (by decide)]; rfl⟩))
  obtain ⟨hjobs, h⟩ | ⟨-, h⟩ := ite_eq_iff.mp h
  · cases h
    exact .inr (.inr (hother hjobs (by decide) ⟨_, _, _, by rw [hkeep (by decide)]⟩))
  obtain ⟨hfg, h⟩ | ⟨-, h⟩ := ite_eq_iff.mp h
  · exact .inl ⟨hfg, h⟩
  obtain ⟨hbg, h⟩ | ⟨-, h⟩ := ite_eq_iff.mp h
  · exact .inr (.inl ⟨hbg, h⟩)
  obtain ⟨hhistory, h⟩ | ⟨-, h⟩ := ite_eq_iff.mp h
  · cases h
    exact .inr (.inr (hother hhistory (by decide) ⟨_, _, _, by rw [hkeep (by decide)]⟩))
  obtain ⟨htype, h⟩ | ⟨-, h⟩ := ite_eq_iff.mp h
  · obtain ⟨out, hout⟩ := builtinFnType_eq argv sh
    have hsh := congrArg Prod.snd (Except.ok.inj h)
    refine .inr (.inr (hother htype (by decide) ⟨sh.cwd, out, sh.script.chdirs, ?_⟩))
    rw [hkeep (by decide)]
    exact hsh.symm.trans hout
  · cases h

/-- Of the builtins only `exit` ends the shell. -/
theorem shouldExit_callBuiltin (h : callBuiltin argv sh = .ok (status, sh')) :
    sh'.shouldExit = (sh.shouldExit || argv.headD [] = "exit".toList) := by
  obtain ⟨hname, hfg⟩ | ⟨hname, hbg⟩ | ⟨-, cwd, out, chdirs, rfl⟩ := callBuiltin_cases h
  · rw [hname, decide_eq_false (by decide), Bool.or_false]
    obtain ⟨_, _, honly⟩ := onlyJobs_builtinFg hfg
    exact honly.shouldExit
  · rw [hname, decide_eq_false (by decide), Bool.or_false]
    exact (onlyJobs_builtinBg hbg).shouldExit
  · rfl

/-- No builtin makes a job. -/
theorem heap_callBuiltin (h : callBuiltin argv sh = .ok (status, sh')) : sh'.heap = sh.heap := by
  obtain ⟨-, hfg⟩ | ⟨-, hbg⟩ | ⟨-, cwd, out, chdirs, rfl⟩ := callBuiltin_cases h
  · obtain ⟨_, _, honly⟩ := onlyJobs_builtinFg hfg
    exact honly.heap
  · exact (onlyJobs_builtinBg hbg).heap
  · rfl

end Novash
