import Novash.Executor.Chains
import Novash.Expander.Flags
import Novash.Printer.Lines
import Novash.Shell.ReadLoop

/-!
# What a line means

The meaning of a well-formed line, by recursion on its grammar and without a tree: the words are
expanded first, and then the elements are executed in order, a chain by what each of its operators
makes of the last status, a pipeline as one job with one process for each of its commands.

The shell gets there by way of a text, its tokens, a tree that leans to the left, and flags in the
nodes of that tree. Typing a line does what the line means, and so does typing many
(`shellLoopRounds_typed`).

## Commands whose words cannot be expanded

A command that stands alone is then not run, and has the status -1. In a pipeline it is run all the
same, with no words.
-/

namespace Novash

open Foundations CondOp

namespace Grammar

section

variable (env : ExpandEnv)

/-! ## The meaning of a line -/

/-- A target without parts stays `NULL`, and so does one whose expansion fails. -/
def Redir.expand (r : Redir) : Redirection where
  fd := r.fd
  type := r.type
  target := if r.target = [] then none else (expandRedirectionTarget env r.target).toOption

def Command.process (c : Command) : Process where
  argv := (expandArgvParts env (c.first :: c.args)).toOption.getD []
  redir := c.redirs.map (Redir.expand env)

/-- The words and the targets can all be expanded. -/
def Command.expands (c : Command) : Bool :=
  (expandArgvParts env (c.first :: c.args)).toOption.isSome &&
    c.redirs.all fun r ↦ (expandRedirectionTarget env r.target).toOption.isSome

def Pipeline.exec (isBg : Bool) (p : Pipeline) (sh : Shell) : Except Halt (ℤ × Shell) :=
  if p.rest = [] ∧ p.first.expands env = false then .ok (-1, sh)
  else
    runJob
      { addr := sh.heap
        processes := (p.first :: p.rest).map (Command.process env)
        isBackground := isBg }
      { sh with heap := sh.heap + 1 }

/-- The rest of a chain, at the status of the last pipeline that was run. -/
def execRest (isBg : Bool) : List (CondOp × Pipeline) → ℤ → Shell → Except Halt (ℤ × Shell)
  | [], status, sh => .ok (status, sh)
  | (op, p) :: rest, status, sh =>
    if op.runs status then do
      let (status, sh) ← p.exec env (isBg && rest.isEmpty) sh
      execRest isBg rest status sh
    else execRest isBg rest status sh

/-- Only the last pipeline of a chain is put in the background. -/
def Chain.exec (isBg : Bool) (c : Chain) (sh : Shell) : Except Halt (ℤ × Shell) := do
  let (status, sh) ← c.first.exec env (isBg && c.rest.isEmpty) sh
  execRest env isBg c.rest status sh

def execElements : List Element → ℤ → Shell → Except Halt (ℤ × Shell)
  | [], status, sh => .ok (status, sh)
  | e :: es, _, sh => do
    let (status, sh) ← e.chain.exec env e.isBg sh
    execElements es status sh

def Line.exec (l : Line) (sh : Shell) : Except Halt (ℤ × Shell) :=
  execElements env (l.first :: l.rest) 0 sh

/-! ## The tree of a line means the same -/

/-- The node of a command after expansion. -/
def Command.node (isBg : Bool) (c : Command) : CmdNode :=
  (expanderExpandCmd env
    { argvParts := c.first :: c.args, redir := c.redirs.map Redir.toRedirection, isBg } false).1

theorem Command.fails_iff (isBg : Bool) (c : Command) :
    CmdNode.Fails env
        { argvParts := c.first :: c.args, redir := c.redirs.map Redir.toRedirection, isBg } ↔
      c.expands env = false := by
  have hwords : (∃ word ∈ c.first :: c.args, ∃ e, expandArgvParts env [word] = .error e) ↔
      (expandArgvParts env (c.first :: c.args)).toOption.isSome = false := by
    rw [← Bool.not_eq_true, Option.isSome_iff_exists]
    simp only [toOption_eq_some]
    rw [expandArgvParts_ok_iff]
    simp only [exists_error_iff, not_forall, exists_prop]
  have htargets : (∃ r ∈ c.redirs.map Redir.toRedirection,
      ∃ e, expandRedirectionTarget env r.targetParts = .error e) ↔
      (c.redirs.all fun r ↦ (expandRedirectionTarget env r.target).toOption.isSome) = false := by
    rw [← Bool.not_eq_true, List.all_eq_true]
    simp only [List.mem_map, exists_exists_and_eq_and, Option.isSome_iff_exists, toOption_eq_some,
      exists_error_iff, not_forall, exists_prop]
    rfl
  rw [CmdNode.Fails, hwords, htargets, Command.expands, Bool.and_eq_false_iff]

/-- The expansion of a command, and of its flag. -/
theorem Command.expand_toAst (isBg : Bool) (c : Command) :
    expanderExpandAst env (c.toAst isBg) = .cmd (c.node env isBg) (!c.expands env) := by
  have hflag := @invalid_expanderExpandCmd env
    { argvParts := c.first :: c.args, redir := c.redirs.map Redir.toRedirection, isBg } false
  rw [c.fails_iff env isBg, Bool.false_eq_true, false_or] at hflag
  have hnot : (expanderExpandCmd env
      { argvParts := c.first :: c.args, redir := c.redirs.map Redir.toRedirection, isBg }
      false).2 = !c.expands env := by
    rw [Bool.eq_iff_iff, hflag, Bool.not_eq_true']
  rw [Command.toAst, expanderExpandAst, ← hnot]
  rfl

theorem expandRedir_map (invalid : Bool) (rs : List Redir) :
    ((expandRedir env invalid (rs.map Redir.toRedirection)).1.map fun r ↦
        { r with targetParts := [] })
      = rs.map (Redir.expand env) := by
  induction rs generalizing invalid with
  | nil => rfl
  | cons r rs ih =>
    rw [List.map_cons, List.map_cons, expandRedir]
    split
    · next hnil =>
      have htarget : r.target = [] := hnil
      rw [List.map_cons, ih invalid, Redir.expand, if_pos htarget]
      rfl
    · next hnil =>
      have htarget : r.target ≠ [] := hnil
      rw [List.map_cons, ih, Redir.expand, if_neg htarget, fst_expandInto]
      rfl

/-- The record of a command is made from its node. -/
theorem Command.jobsNewProcess_node (isBg : Bool) (c : Command) :
    jobsNewProcess (c.node env isBg) = c.process env := by
  have hargv : (c.node env isBg).argv
      = (expandArgvParts env (c.first :: c.args)).toOption := by
    rw [Command.node, expanderExpandCmd, if_neg (List.cons_ne_nil _ _)]
    exact fst_expandInto _ _
  have hredir : ((c.node env isBg).redir.map fun r ↦ { r with targetParts := [] })
      = c.redirs.map (Redir.expand env) := expandRedir_map env _ c.redirs
  rw [jobsNewProcess, hargv, hredir, Command.process]

/-- A command is added to its job, which is in the background when its last command is. -/
theorem compileCommandJob_toAst (isBg : Bool) (c : Command) (job : Job) :
    compileCommandJob job (expanderExpandAst env (c.toAst isBg))
      = { job with
          processes := job.processes ++ [c.process env], command := [], isBackground := isBg } := by
  rw [Command.expand_toAst, compileCommandJob, jobsAddProcessToJob, Command.jobsNewProcess_node]
  rfl

theorem compilePipelineJob_commandsToAst (isBg : Bool) (cs : List Command) : ∀ job : Job,
    job.command = [] →
      compilePipelineJob job (expanderExpandList env (commandsToAst isBg cs))
        = { job with
            processes := job.processes ++ cs.map (Command.process env)
            isBackground := if cs.isEmpty then job.isBackground else isBg } := by
  induction cs with
  | nil =>
    intro job _
    simp [commandsToAst, expanderExpandList, compilePipelineJob]
  | cons c cs ih =>
    intro job hcommand
    have hbg : (if cs.isEmpty then isBg && cs.isEmpty else isBg) = isBg := by cases cs <;> simp
    rw [commandsToAst, expanderExpandList, compilePipelineJob, List.foldl_cons,
      ← compilePipelineJob, compileCommandJob_toAst, ih _ rfl]
    dsimp only
    rw [hbg, hcommand, List.append_assoc]
    rfl

theorem execNode_pipeline (isBg : Bool) (p : Pipeline) (sh : Shell) :
    execNode (expanderExpandAst env (p.toAst isBg)) sh = p.exec env isBg sh := by
  rw [Pipeline.toAst, Pipeline.exec, execNode]
  by_cases hrest : p.rest = []
  · rw [if_pos hrest, Command.expand_toAst, execNodeWith, hrest]
    cases hexpands : p.first.expands env with
    | false => rfl
    | true =>
      rw [if_neg (by decide), if_neg (by simp)]
      dsimp only [jobsNewJob]
      rw [← hexpands, ← Command.expand_toAst, compileCommandJob_toAst]
      rfl
  · have hempty : p.rest.isEmpty = false := by simpa using hrest
    rw [if_neg hrest, if_neg fun h ↦ hrest h.1, expanderExpandAst, execNodeWith,
      if_neg Bool.false_ne_true, expanderExpandList]
    dsimp only [jobsNewJob]
    rw [compilePipelineJob, List.foldl_cons, ← compilePipelineJob, compileCommandJob_toAst,
      compilePipelineJob_commandsToAst env isBg p.rest _ rfl, hempty]
    rfl

theorem execNode_chainToAst (isBg : Bool) (rest : List (CondOp × Pipeline)) :
    ∀ (left : Ast) (sh : Shell),
      execNode (expanderExpandAst env (chainToAst isBg left rest)) sh
        = (do
            let (status, sh) ← execNode (expanderExpandAst env left) sh
            execRest env isBg rest status sh) := by
  induction rest with
  | nil =>
    intro left sh
    rw [chainToAst]
    cases execNode (expanderExpandAst env left) sh <;> rfl
  | cons x rest ih =>
    intro left sh
    obtain ⟨op, p⟩ := x
    have hcond : execNode (expanderExpandAst env
        (.conditional left (p.toAst (isBg && rest.isEmpty)) op false)) sh
          = execNode (expanderExpandAst env left) sh >>= fun (status, sh) ↦
              if op.runs status then p.exec env (isBg && rest.isEmpty) sh
              else .ok (status, sh) := by
      rw [expanderExpandAst, execNode, execNodeWith_conditional]
      simp only [← execNode_pipeline]
      rfl
    rw [chainToAst, ih, hcond]
    cases execNode (expanderExpandAst env left) sh with
    | error e => rfl
    | ok x =>
      simp only [bind, Except.bind, execRest]
      split_ifs <;> rfl

theorem execNode_chain (isBg : Bool) (c : Chain) (sh : Shell) :
    execNode (expanderExpandAst env (c.toAst isBg)) sh = c.exec env isBg sh := by
  rw [Chain.toAst, execNode_chainToAst, execNode_pipeline, Chain.exec]

theorem execSeqWith_elements (es : List Element) : ∀ (status : ℤ) (sh : Shell),
    execSeqWith runJob (expanderExpandList env (es.map Element.toAst)) status sh
      = execElements env es status sh := by
  induction es with
  | nil => exact fun _ _ ↦ rfl
  | cons e es ih =>
    intro status sh
    rw [List.map_cons, expanderExpandList, execSeqWith, execElements, ← execNode, Element.toAst,
      execNode_chain]
    cases e.chain.exec env e.isBg sh with
    | error e => rfl
    | ok x => exact ih x.1 x.2

/-- **The tree of a line means what the line means.** -/
theorem execNode_toAst (l : Line) (sh : Shell) :
    execNode (expanderExpandAst env l.toAst) sh = l.exec env sh := by
  rw [Line.toAst, expanderExpandAst, execNode, execNodeWith, if_neg Bool.false_ne_true,
    execSeqWith_elements, Line.exec]

end

end Grammar

end Novash
