import Novash.Executor.CommandText
import Novash.Expander.Expander
import Novash.Parser.JoinLines
import Novash.Shell.Loop

/-!
# The expansion of a line

`shell_loop` expands a whole line before it executes any of it. What the expander reads from outside
the shell, the directory above all, may be anything that depends on what the shell has done.
-/

namespace Novash

open Foundations TokenType

/-! ## What the expander reads -/

/-- What the expander reads that is not the shell's. -/
structure Surroundings where
  flags : ShellFlags
  home : Option CStr
  getpwnam : CStr → Option (Option CStr)
  glob : CStr → GlobResult

/-- What the expander reads in a state of the shell. -/
def expandEnv (world : Shell → Surroundings) (sh : Shell) : ExpandEnv where
  exitStatus := sh.lastExec.exitStatus
  bgPid := sh.lastExec.bgPid
  pid := sh.pid
  flags := (world sh).flags
  shellStateGetenv := sh.shellStateGetenv
  home := (world sh).home
  getpwnam := (world sh).getpwnam
  glob := (world sh).glob

/-- The tree of a line as it is executed. -/
def expandLine (env : ExpandEnv) (heap : ℕ → Bool) (line : CStr) : Except ParseStop Ast := do
  let (node, _) ← parserCreateAst (⟨Lexer.init line, .operator tokEof, heap⟩ : ParserState Lexer)
  return expanderExpandAst env node

/-! ## Expanding trees that differ in the text of their commands -/

section

variable (env : ExpandEnv)

mutual

/-- The expander does not look at the text of a command. -/
theorem expanderExpandAst_erase (node : Ast) :
    expanderExpandAst env (node.erase true) = (expanderExpandAst env node).erase true := by
  match node with
  | .null => rfl
  | .cmd node invalid =>
    rw [Ast.erase, expanderExpandAst, expanderExpandAst, Ast.erase, Bool.true_and, Bool.true_and]
    rfl
  | .pipeline nodes invalid =>
    rw [Ast.erase, expanderExpandAst, expanderExpandAst, Ast.erase, expanderExpandList_erase nodes]
  | .conditional left right op invalid =>
    rw [Ast.erase, expanderExpandAst, expanderExpandAst, Ast.erase, expanderExpandAst_erase left,
      expanderExpandAst_erase right]
  | .sequence nodes invalid =>
    rw [Ast.erase, expanderExpandAst, expanderExpandAst, Ast.erase, expanderExpandList_erase nodes]

theorem expanderExpandList_erase (nodes : List Ast) :
    expanderExpandList env (Ast.eraseList true nodes)
      = Ast.eraseList true (expanderExpandList env nodes) := by
  match nodes with
  | [] => rfl
  | node :: nodes =>
    rw [Ast.eraseList, expanderExpandList, expanderExpandList, Ast.eraseList,
      expanderExpandAst_erase node, expanderExpandList_erase nodes]

end

theorem SameNode.expanderExpandAst {node node' : Ast} (h : SameNode node node') :
    SameNode (expanderExpandAst env node) (expanderExpandAst env node') := by
  rw [SameNode, ← expanderExpandAst_erase, ← expanderExpandAst_erase, h]

theorem expanderExpandList_append (nodes nodes' : List Ast) :
    expanderExpandList env (nodes ++ nodes')
      = expanderExpandList env nodes ++ expanderExpandList env nodes' := by
  induction nodes with
  | nil => rfl
  | cons node nodes ih =>
    rw [List.cons_append, expanderExpandList, expanderExpandList, ih, List.cons_append]

end

/-! ## One element after the other -/

/-- The calls of two stretches of elements, with the shell that the first stretch leaves. -/
theorem callsSeqWith_append (run : Job → Shell → Except Halt (ℤ × Shell))
    (nodes nodes' : List Ast) :
    ∀ (status : ℤ) (sh : Shell), callsSeqWith run (nodes ++ nodes') sh =
      callsSeqWith run nodes sh ++
        match execSeqWith run nodes status sh with
        | .error _ => []
        | .ok (_, sh) => callsSeqWith run nodes' sh := by
  induction nodes with
  | nil => exact fun _ _ ↦ rfl
  | cons node nodes ih =>
    intro status sh
    rw [List.cons_append, callsSeqWith, callsSeqWith, execSeqWith, List.append_assoc]
    cases execNodeWith run node sh with
    | error e => rfl
    | ok x => exact congrArg _ (ih x.1 x.2)

section

variable {env : ExpandEnv} {heap : ℕ → Bool} {line : CStr} {node : Ast}

theorem expandLine_of_parsesTo (h : ParsesTo heap line node) :
    expandLine env heap line = .ok (expanderExpandAst env node) := by
  obtain ⟨p, hparse, -⟩ := h
  rw [expandLine, hparse]
  rfl

end

/-! ## A shell to try lines in -/

/-- A directory in which `*` finds a file once a child has been started, and nothing before. -/
def fileOfFirstChild (sh : Shell) : Surroundings where
  flags := ⟨true, true, true, false⟩
  home := none
  getpwnam := fun _ ↦ none
  glob := fun _ ↦ if sh.spawned.isEmpty then ⟨.nomatch, []⟩ else ⟨.ok, [['x']]⟩

/-- Its first child is stopped, and the second one ends. -/
def stoppedFirst : Shell := Shell.onTerminal
  { pids := [100, 200],
    wakeups := [[.sigchld [⟨100, .stopped 20⟩]], [.sigchld [⟨200, .exited 0⟩]]] }

end Novash
