import Novash.Basic.MapUpdates
import Novash.Builtin.Builtin

/-!
# The table of builtins

`builtin_init` puts the functions of the builtins into a string map, in which `builtin_is_builtin`
and `builtin_get_function` look the name of a command up. Whatever the seed of the table, the lookup
ends, and it finds what `builtinIsBuiltin` and `callBuiltin` say (`builtinInit_table`).
-/

namespace Novash

/-- The functions of the table, `builtin_fn_t`. -/
inductive BuiltinFn
  | cd
  | echo
  | exit
  | pwd
  | jobs
  | fg
  | bg
  | history
  | fnType
  deriving DecidableEq, Repr

def BuiltinFn.call : BuiltinFn → List CStr → Shell → Except Halt (ℤ × Shell)
  | cd, argv, sh => .ok (builtinCd argv sh)
  | echo, argv, sh => .ok (builtinEcho argv sh)
  | exit, _, sh => .ok (builtinExit sh)
  | pwd, _, sh => .ok (builtinPwd sh)
  | jobs, _, sh => .ok (builtinJobs sh)
  | fg, argv, sh => builtinFg argv sh
  | bg, argv, sh => builtinBg argv sh
  | history, _, sh => .ok (0, sh)
  | fnType, argv, sh => .ok (builtinFnType argv sh)

def builtinEntries : List (CStr × Option BuiltinFn) :=
  [("cd".toList, some .cd), ("echo".toList, some .echo), ("exit".toList, some .exit),
    ("pwd".toList, some .pwd), ("jobs".toList, some .jobs), ("fg".toList, some .fg),
    ("bg".toList, some .bg), ("history".toList, some .history), ("type".toList, some .fnType)]

/-- `builtin_init`: the calls of `shput`, with the value of `stbds_hash_seed`. -/
def builtinInit (hashSeed : UInt64) : Option (StringMap BuiltinFn × UInt64) :=
  StringMap.null.shputs hashSeed builtinEntries

/-- `builtin_get_function`, with `none` for `NULL`. -/
def builtinGetFunction (builtins : StringMap BuiltinFn) (name : CStr) : Option (Option BuiltinFn) :=
  builtins.shget name

/-- `builtin_is_builtin`. -/
def isBuiltinIn (builtins : StringMap BuiltinFn) (name : CStr) : Option Bool :=
  (builtins.shget name).map Option.isSome

/-- What the table stands for. -/
def builtinFunction (name : CStr) : Option BuiltinFn :=
  builtinEntries.foldl (fun f put ↦ Function.update f put.1 put.2) (fun _ ↦ none) name

theorem isSome_builtinFunction (name : CStr) :
    (builtinFunction name).isSome = builtinIsBuiltin name := by
  have hsome : ∀ put ∈ builtinEntries, put.2.isSome := by decide
  rw [builtinFunction, StringMap.isSome_foldl_update hsome, Option.isSome_none, Bool.or_false]
  rfl

/-- Calling what the table holds for the name is `callBuiltin`. -/
theorem callBuiltin_eq_call (argv : List CStr) (sh : Shell) :
    callBuiltin argv sh =
      match builtinFunction (argv.headD []) with
      | none => .error .fault
      | some fn => fn.call argv sh := by
  rw [callBuiltin]
  generalize hname : argv.headD [] = name
  split_ifs with hcd hecho hexit hpwd hjobs hfg hbg hhistory htype
  · rw [hcd]; rfl
  · rw [hecho]; rfl
  · rw [hexit]; rfl
  · rw [hpwd]; rfl
  · rw [hjobs]; rfl
  · rw [hfg]; rfl
  · rw [hbg]; rfl
  · rw [hhistory]; rfl
  · rw [htype]; rfl
  · have hnone : (builtinFunction name).isSome = false := by
      rw [isSome_builtinFunction, builtinIsBuiltin, List.contains_eq_mem,
        decide_eq_false_iff_not]
      simp only [builtinNames, List.map_cons, List.map_nil, List.mem_cons, List.not_mem_nil,
        or_false, not_or]
      exact ⟨hcd, hecho, hexit, hpwd, hjobs, hfg, hbg, hhistory, htype⟩
    rw [Option.not_isSome_iff_eq_none.mp (Bool.eq_false_iff.mp hnone)]

/-- Whatever the seed, `builtin_init` comes to an end and leaves a table in which every lookup of
`builtin_is_builtin` and of `builtin_get_function` ends; the first is `builtinIsBuiltin`, and
calling the function that the second finds for the name of a command is `callBuiltin`. -/
theorem builtinInit_table (hashSeed : UInt64) :
    ∃ builtins hashSeed', builtinInit hashSeed = some (builtins, hashSeed') ∧
      (∀ name, isBuiltinIn builtins name = some (builtinIsBuiltin name)) ∧
      ∀ argv sh, ∃ fn, builtinGetFunction builtins (argv.headD []) = some fn ∧
        callBuiltin argv sh =
          match fn with
          | none => .error .fault
          | some fn => fn.call argv sh := by
  obtain ⟨builtins, hashSeed', hputs, hget⟩ := StringMap.shget_shputs_null hashSeed builtinEntries
  refine ⟨builtins, hashSeed', hputs, fun name ↦ ?_, fun argv sh ↦ ?_⟩
  · rw [isBuiltinIn, hget, Option.map_some]
    exact congrArg some (isSome_builtinFunction name)
  · exact ⟨_, hget _, callBuiltin_eq_call argv sh⟩

end Novash
