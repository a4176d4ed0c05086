import Novash.Basic.MapUpdates

/-!
# The environment of the shell

`init_environment` of `state.c` fills the string map that `shell_state_getenv` reads, and nothing
changes it later. So the shell knows four variables at most, whatever else is in the environment of
its process (`initEnvironment_getenv`).
-/

namespace Novash

/-- `PATH_MAX`, with the terminating NUL. -/
def pathMax : ℕ := 4096

/-- `HIST_FILENAME`. -/
def histFilename : CStr := ".nsh_history".toList

/-- The line that `snprintf` would print for `HISTFILE`. -/
def histFilePath (cwd : CStr) : CStr := cwd ++ '/' :: histFilename

/-- The path of the history file, if it fits the buffer. -/
def histFileValue (cwd : CStr) : Option CStr :=
  let histFileLen := (histFilePath cwd).length
  if 0 < histFileLen ∧ histFileLen < pathMax then some (histFilePath cwd) else none

/-- The call of `shput` for a variable, if it has a value. -/
def putVariable (key : CStr) (value : Option CStr) : List (CStr × Option CStr) :=
  if value.isSome then [(key, value)] else []

/-- The calls of `shput`, in their order. `home` and `path` are what `getenv` returns, and `exe` is
the target of the link `/proc/self/exe` if it can be read, which `readlink` cuts to the buffer. -/
def environmentPuts (home path exe : Option CStr) (cwd : CStr) : List (CStr × Option CStr) :=
  putVariable "HOME".toList home ++ putVariable "PATH".toList path
    ++ putVariable "SHELL".toList (exe.map (·.take (pathMax - 1)))
    ++ putVariable "HISTFILE".toList (histFileValue cwd)

/-- `init_environment`. -/
def initEnvironment (home path exe : Option CStr) (cwd : CStr) (hashSeed : UInt64) :
    Option (StringMap CStr × UInt64) :=
  StringMap.null.shputs hashSeed (environmentPuts home path exe cwd)

/-- `shell_state_getenv`, with `none` for `NULL`. -/
def shellGetenv (environment : StringMap CStr) (key : CStr) : Option (Option CStr) :=
  environment.shget key

/-- A variable without a value keeps the one it has, which is none. -/
private theorem foldl_putVariable (f : CStr → Option CStr) (key : CStr) (value : Option CStr)
    (hkey : f key = none) :
    (putVariable key value).foldl (fun f put ↦ Function.update f put.1 put.2) f
      = Function.update f key value := by
  cases value with
  | none => exact (Function.update_eq_self_iff.mpr hkey.symm).symm
  | some v => rfl

/-- Four variables with different names. -/
private theorem foldl_four {k₁ k₂ k₃ k₄ : CStr} (hdistinct : [k₁, k₂, k₃, k₄].Nodup)
    (v₁ v₂ v₃ v₄ : Option CStr) (key : CStr) :
    (putVariable k₁ v₁ ++ putVariable k₂ v₂ ++ putVariable k₃ v₃ ++ putVariable k₄ v₄).foldl
        (fun f put ↦ Function.update f put.1 put.2) (fun _ ↦ none) key
      = if key = k₁ then v₁ else if key = k₂ then v₂ else if key = k₃ then v₃
        else if key = k₄ then v₄ else none := by
  simp only [List.nodup_cons, List.mem_cons, List.not_mem_nil, or_false, not_or] at hdistinct
  obtain ⟨⟨h₁₂, h₁₃, h₁₄⟩, ⟨h₂₃, h₂₄⟩, h₃₄, -⟩ := hdistinct
  simp only [List.foldl_append]
  rw [foldl_putVariable _ k₁ v₁ rfl,
    foldl_putVariable _ k₂ v₂ (Function.update_of_ne (Ne.symm h₁₂) ..),
    foldl_putVariable _ k₃ v₃ (by simp [Ne.symm h₁₃, Ne.symm h₂₃]),
    foldl_putVariable _ k₄ v₄ (by simp [Ne.symm h₁₄, Ne.symm h₂₄, Ne.symm h₃₄])]
  simp only [Function.update_apply]
  grind

/-- `init_environment` comes to an end, whatever the seed of its table. What `shell_state_getenv`
finds then is what `HOME` and `PATH` were in the environment of the process, the path of the shell
itself under `SHELL`, cut to its buffer, and the history file in the working directory, if its path
is short enough; every other variable is `NULL`. -/
theorem initEnvironment_getenv (home path exe : Option CStr) (cwd : CStr) (hashSeed : UInt64) :
    ∃ environment hashSeed',
      initEnvironment home path exe cwd hashSeed = some (environment, hashSeed') ∧
      ∀ key, shellGetenv environment key = some (
        if key = "HOME".toList then home
        else if key = "PATH".toList then path
        else if key = "SHELL".toList then exe.map (·.take 4095)
        else if key = "HISTFILE".toList then
          if (cwd ++ "/.nsh_history".toList).length < 4096 then
            some (cwd ++ "/.nsh_history".toList)
          else none
        else none) := by
  obtain ⟨environment, hashSeed', hputs, hget⟩ :=
    StringMap.shget_shputs_null hashSeed (environmentPuts home path exe cwd)
  refine ⟨environment, hashSeed', hputs, fun key ↦ ?_⟩
  have hpath : histFilePath cwd = cwd ++ "/.nsh_history".toList := rfl
  have hpos : 0 < (cwd ++ "/.nsh_history".toList).length := by simp
  have hhist : histFileValue cwd
      = if (cwd ++ "/.nsh_history".toList).length < 4096 then
          some (cwd ++ "/.nsh_history".toList)
        else none := by
    simp only [histFileValue, hpath, hpos, true_and, pathMax]
  rw [shellGetenv, hget, environmentPuts, foldl_four (by decide), hhist, pathMax]

end Novash
