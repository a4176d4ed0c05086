import Novash.Executor.Executor

/-!
# Runs of the shell

The shell as a whole: it executes lines, and between them the event hook of the prompt reaps what
has happened. A line is any tree, so that a result about every run needs nothing of the parser.
-/

namespace Novash

/-- What happens between two prompts, or at one. -/
inductive Op
  | line (node : Ast)
  | hook (events : List WaitEvent)

/-- `exit` ends the loop after the line it is in. -/
def Op.run (sh : Shell) : Op → Except Halt Shell
  | line node =>
    if sh.shouldExit then .error (.exited 0) else do
      let (_, sh) ← execNode node sh
      return sh
  | hook events =>
    if sh.shouldExit then .error (.exited 0) else .ok (handleSigchldEvents sh events)

def runOps (ops : List Op) (sh : Shell) : Except Halt Shell := ops.foldlM Op.run sh

/-- A shell that has just been started. -/
def Shell.Initial (sh : Shell) : Prop := sh.toJobSystem = {}

/-- A shell just started on a terminal, to which its three descriptors refer. -/
def Shell.onTerminal (script : Script) : Shell where
  fds := ⟨List.replicate 3 (some ⟨.opened (script.opens.length + 1) [.rdwr] .terminal, false⟩)⟩
  script := script

theorem Shell.initial_onTerminal (script : Script) : (Shell.onTerminal script).Initial := rfl

theorem Shell.opensNew_onTerminal (script : Script) : (Shell.onTerminal script).OpensNew := by
  intro fd d hd
  rcases fd with _ | _ | _ | fd <;> cases hd <;> exact Nat.lt_succ_self _

/-- A command of one word, and nothing else. -/
def Ast.word (name : CStr) (isBg : Bool) : Ast :=
  .cmd { argvParts := [[⟨.wordLiteral, .quoteNone, name⟩]], argv := some [name], isBg } false

end Novash
