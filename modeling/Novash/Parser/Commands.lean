import Novash.Parser.Parser

/-!
# The commands of a tree

What the parser promises about the commands it builds, wherever in the tree they stand: each has a
first word, and nothing in it is expanded yet.
-/

namespace Novash

open Foundations

namespace Ast

mutual

/-- The commands of a tree with their flags, from left to right. -/
def cmds : Ast → List (CmdNode × Bool)
  | null => []
  | cmd node invalid => [(node, invalid)]
  | pipeline nodes _ => cmdsList nodes
  | conditional left right _ _ => cmds left ++ cmds right
  | sequence nodes _ => cmdsList nodes

def cmdsList : List Ast → List (CmdNode × Bool)
  | [] => []
  | node :: nodes => cmds node ++ cmdsList nodes

end

theorem mem_cmdsList {c : CmdNode × Bool} {node : Ast} {nodes : List Ast} (hnode : node ∈ nodes)
    (h : c ∈ node.cmds) : c ∈ cmdsList nodes := by
  induction nodes with
  | nil => exact absurd hnode List.not_mem_nil
  | cons first nodes ih =>
    rw [cmdsList]
    rcases List.mem_cons.mp hnode with rfl | hnode
    · exact List.mem_append_left _ h
    · exact List.mem_append_right _ (ih hnode)

theorem cmdsList_append (nodes nodes' : List Ast) :
    cmdsList (nodes ++ nodes') = cmdsList nodes ++ cmdsList nodes' := by
  induction nodes with
  | nil => rfl
  | cons node nodes ih => rw [List.cons_append, cmdsList, cmdsList, ih, List.append_assoc]

/-- The elements of a sequence. -/
def elements : Ast → List Ast
  | sequence nodes _ => nodes
  | _ => []

mutual

/-- The pipelines that the operators and separators of a tree join, and what stands in the place of
one: a command, or `NULL`. -/
def pipelines : Ast → List Ast
  | conditional left right _ _ => pipelines left ++ pipelines right
  | sequence nodes _ => pipelinesList nodes
  | null => [null]
  | cmd node invalid => [cmd node invalid]
  | pipeline nodes invalid => [pipeline nodes invalid]

def pipelinesList : List Ast → List Ast
  | [] => []
  | node :: nodes => pipelines node ++ pipelinesList nodes

end

mutual

/-- Every command is one of a pipeline. -/
theorem cmdsList_pipelines : ∀ node : Ast, cmdsList node.pipelines = node.cmds
  | null => rfl
  | cmd _ _ => rfl
  | pipeline nodes invalid => List.append_nil _
  | conditional left right _ _ => by
    rw [pipelines, cmdsList_append, cmdsList_pipelines left, cmdsList_pipelines right, cmds]
  | sequence nodes _ => cmdsList_pipelinesList nodes

theorem cmdsList_pipelinesList : ∀ nodes : List Ast,
    cmdsList (pipelinesList nodes) = cmdsList nodes
  | [] => rfl
  | node :: nodes => by
    rw [pipelinesList, cmdsList_append, cmdsList_pipelines node, cmdsList_pipelinesList nodes,
      cmdsList]

end

end Ast

/-- A command as the parser leaves it. -/
structure CmdNode.Unexpanded (cmd : CmdNode) : Prop where
  argvParts : cmd.argvParts ≠ []
  argv : cmd.argv = none
  redir : ∀ r ∈ cmd.redir, r.target = none

/-- So are all commands of the tree. -/
def Ast.Unexpanded (node : Ast) : Prop := ∀ c ∈ node.cmds, c.1.Unexpanded

section

variable {σ : Type} [TokenSource σ] {p p' : ParserState σ} {node : Ast}

theorem target_of_parseRedirection {rs : List Redirection}
    (h : parseRedirection p = .ok (rs, p')) : ∀ r ∈ rs, r.target = none := by
  replace h := parseRedirection_run h
  induction h with
  | done => exact fun _ h ↦ absurd h List.not_mem_nil
  | one _ hone _ ih =>
    obtain ⟨⟨fd, p₂⟩, -, hone⟩ := bind_ok.mp hone
    dsimp only at hone
    split at hone
    · cases hone
    obtain ⟨p₃, -, hone⟩ := bind_ok.mp hone
    split_ifs at hone
    obtain ⟨p₄, -, hone⟩ := bind_ok.mp hone
    cases hone
    exact List.forall_mem_cons.mpr ⟨rfl, ih⟩

theorem unexpanded_parseCommand (h : parseCommand p = .ok (node, p')) : node.Unexpanded := by
  unfold parseCommand at h
  split_ifs at h with hword
  · cases h
    exact fun _ h ↦ absurd h List.not_mem_nil
  · obtain ⟨⟨ws, p₁⟩, hargs, h⟩ := bind_ok.mp h
    obtain ⟨⟨rs, p₂⟩, hredir, h⟩ := bind_ok.mp h
    cases h
    -- the token at which the command begins is its first word
    rw [parseArguments_of_word (not_not.mp hword)] at hargs
    obtain ⟨p₃, -, hargs⟩ := bind_ok.mp hargs
    obtain ⟨⟨ws', p₄⟩, -, hargs⟩ := bind_ok.mp hargs
    cases hargs
    rintro c hc
    obtain rfl := List.mem_singleton.mp hc
    exact ⟨List.cons_ne_nil _ _, rfl, target_of_parseRedirection hredir⟩

theorem unexpanded_pipelineLoop {nodes : List Ast} (h : pipelineLoop p = .ok (nodes, p')) :
    ∀ c ∈ Ast.cmdsList nodes, c.1.Unexpanded := by
  replace h := pipelineLoop_run h
  induction h with
  | done => exact fun _ h ↦ absurd h List.not_mem_nil
  | command _ _ hcmd _ _ ih => exact List.forall_mem_append.mpr ⟨unexpanded_parseCommand hcmd, ih⟩

theorem unexpanded_parsePipeline (h : parsePipeline p = .ok (node, p')) : node.Unexpanded := by
  obtain ⟨⟨firstCommand, p₁⟩, hcmd, h⟩ := bind_ok.mp h
  obtain ⟨⟨nodes, p₂⟩, hloop, h⟩ := bind_ok.mp h
  dsimp only at h
  split_ifs at h
  · cases h
    exact unexpanded_parseCommand hcmd
  · cases h
    exact List.forall_mem_append.mpr ⟨unexpanded_parseCommand hcmd, unexpanded_pipelineLoop hloop⟩

theorem unexpanded_conditionalLoop {left : Ast} (hleft : left.Unexpanded)
    (h : conditionalLoop left p = .ok (node, p')) : node.Unexpanded := by
  replace h := conditionalLoop_run h
  induction h with
  | done => exact hleft
  | operand _ _ hright _ ih =>
    exact ih (List.forall_mem_append.mpr ⟨hleft, unexpanded_parsePipeline hright⟩)

theorem unexpanded_parseConditional (h : parseConditional p = .ok (node, p')) :
    node.Unexpanded := by
  obtain ⟨⟨left, p₁⟩, hpipe, h⟩ := bind_ok.mp h
  exact unexpanded_conditionalLoop (unexpanded_parsePipeline hpipe) h

theorem unexpanded_sequenceLoop {nodes : List Ast} (h : sequenceLoop p = .ok (nodes, p')) :
    ∀ c ∈ Ast.cmdsList nodes, c.1.Unexpanded := by
  replace h := sequenceLoop_run h
  induction h with
  | null => exact fun _ h ↦ absurd h List.not_mem_nil
  | last hcond =>
    rw [Ast.cmdsList, Ast.cmdsList, List.append_nil]
    exact unexpanded_parseConditional hcond
  | element hcond _ _ _ _ ih =>
    exact List.forall_mem_append.mpr ⟨unexpanded_parseConditional hcond, ih⟩

/-- Every command of a line has a first word and is not expanded. -/
theorem unexpanded_parserCreateAst (h : parserCreateAst p = .ok (node, p')) : node.Unexpanded := by
  obtain ⟨p₁, -, h⟩ := bind_ok.mp h
  split_ifs at h
  · cases h
    exact fun _ h ↦ absurd h List.not_mem_nil
  · obtain ⟨⟨nodes, p₂⟩, hloop, h⟩ := bind_ok.mp h
    cases h
    exact unexpanded_sequenceLoop hloop

end

end Novash
