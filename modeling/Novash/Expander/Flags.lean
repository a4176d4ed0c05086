import Novash.Expander.Expander
import Novash.Parser.Commands

/-!
# The flags of a tree

A node of a tree should be flagged if and only if something in or below it could not be expanded, so
that whoever looks at the root of a line can tell whether the line is sound. `expander_expand_ast`
sets the flag of the command itself and of no node above it, and it clears none. So a tree comes out
right only if the flags of the nodes above the commands were right from the start.
-/

namespace Novash

open Foundations

/-! ## The nodes of a tree -/

namespace Ast

mutual

/-- The nodes of a tree, each in front of those below it. -/
def nodes : Ast → List Ast
  | null => []
  | cmd node invalid => [cmd node invalid]
  | pipeline children invalid => pipeline children invalid :: nodesList children
  | conditional left right op invalid =>
    conditional left right op invalid :: (nodes left ++ nodes right)
  | sequence children invalid => sequence children invalid :: nodesList children

def nodesList : List Ast → List Ast
  | [] => []
  | node :: children => nodes node ++ nodesList children

end

end Ast

section

variable (env : ExpandEnv)

mutual

/-- The expander goes through the nodes. -/
theorem nodes_expanderExpandAst (node : Ast) :
    (expanderExpandAst env node).nodes = node.nodes.map (expanderExpandAst env) := by
  match node with
  | .null => rfl
  | .cmd node invalid => rfl
  | .pipeline children invalid =>
    rw [expanderExpandAst, Ast.nodes, nodes_expanderExpandList children, Ast.nodes, List.map_cons,
      expanderExpandAst]
  | .conditional left right op invalid =>
    rw [expanderExpandAst, Ast.nodes, nodes_expanderExpandAst left, nodes_expanderExpandAst right,
      Ast.nodes, List.map_cons, List.map_append, expanderExpandAst]
  | .sequence children invalid =>
    rw [expanderExpandAst, Ast.nodes, nodes_expanderExpandList children, Ast.nodes, List.map_cons,
      expanderExpandAst]

theorem nodes_expanderExpandList (children : List Ast) :
    Ast.nodesList (expanderExpandList env children)
      = (Ast.nodesList children).map (expanderExpandAst env) := by
  match children with
  | [] => rfl
  | node :: children =>
    rw [expanderExpandList, Ast.nodesList, nodes_expanderExpandAst node,
      nodes_expanderExpandList children, Ast.nodesList, List.map_append]

end

end

section

variable {env : ExpandEnv}

mutual

/-- The expander goes through the commands. -/
theorem cmds_expanderExpandAst (node : Ast) :
    (expanderExpandAst env node).cmds
      = node.cmds.map fun c ↦ expanderExpandCmd env c.1 c.2 := by
  match node with
  | .null => rfl
  | .cmd node invalid => rfl
  | .pipeline nodes invalid =>
    rw [expanderExpandAst, Ast.cmds, Ast.cmds, cmds_expanderExpandList nodes]
  | .conditional left right op invalid =>
    rw [expanderExpandAst, Ast.cmds, Ast.cmds, cmds_expanderExpandAst left,
      cmds_expanderExpandAst right, List.map_append]
  | .sequence nodes invalid =>
    rw [expanderExpandAst, Ast.cmds, Ast.cmds, cmds_expanderExpandList nodes]

theorem cmds_expanderExpandList (nodes : List Ast) :
    Ast.cmdsList (expanderExpandList env nodes)
      = (Ast.cmdsList nodes).map fun c ↦ expanderExpandCmd env c.1 c.2 := by
  match nodes with
  | [] => rfl
  | node :: nodes =>
    rw [expanderExpandList, Ast.cmdsList, Ast.cmdsList, cmds_expanderExpandAst node,
      cmds_expanderExpandList nodes, List.map_append]

end

end

/-! ## What fails -/

/-- Expansion fails for some word of the command, or for some target of a redirection. -/
def CmdNode.Fails (env : ExpandEnv) (cmd : CmdNode) : Prop :=
  (∃ word ∈ cmd.argvParts, ∃ e, expandArgvParts env [word] = .error e) ∨
    ∃ r ∈ cmd.redir, ∃ e, expandRedirectionTarget env r.targetParts = .error e

/-- Expansion fails for some command of the tree. -/
def Ast.Fails (env : ExpandEnv) (node : Ast) : Prop := ∃ c ∈ node.cmds, c.1.Fails env

section

variable {env : ExpandEnv}

theorem expandArgvParts_ok_cons (word : Word) (words : List Word) :
    (∃ argv, expandArgvParts env (word :: words) = .ok argv) ↔
      (∃ argv, expandArgvParts env [word] = .ok argv) ∧
        ∃ argv, expandArgvParts env words = .ok argv := by
  constructor
  · rintro ⟨argv, h⟩
    obtain ⟨parts, hpass, h⟩ := bind_ok.mp h
    obtain ⟨entry, hentry, h⟩ := bind_ok.mp h
    obtain ⟨rest, hrest, -⟩ := bind_ok.mp h
    refine ⟨⟨entry ++ [], ?_⟩, rest, hrest⟩
    rw [expandArgvParts, hpass]
    change argvEntry env parts >>= _ = _
    rw [hentry]
    rfl
  · rintro ⟨⟨argv, h⟩, rest, hrest⟩
    obtain ⟨parts, hpass, h⟩ := bind_ok.mp h
    obtain ⟨entry, hentry, -⟩ := bind_ok.mp h
    refine ⟨entry ++ rest, ?_⟩
    rw [expandArgvParts, hpass]
    change argvEntry env parts >>= _ = _
    rw [hentry, hrest]
    rfl

/-- The words of a command expand one by one. -/
theorem expandArgvParts_ok_iff (words : List Word) :
    (∃ argv, expandArgvParts env words = .ok argv) ↔
      ∀ word ∈ words, ∃ argv, expandArgvParts env [word] = .ok argv := by
  induction words with
  | nil => exact iff_of_true ⟨[], rfl⟩ fun _ h ↦ absurd h List.not_mem_nil
  | cons word words ih => rw [expandArgvParts_ok_cons, ih, List.forall_mem_cons]

theorem exists_error_iff {α : Type} {result : Except ExpandError α} :
    (∃ e, result = .error e) ↔ ¬∃ a, result = .ok a := by
  cases result with
  | error e => simp
  | ok a => simp

theorem fst_expandInto {α : Type} (invalid : Bool) (result : Except ExpandError α) :
    (expandInto invalid result).1 = result.toOption := by
  cases result <;> rfl

theorem invalid_expandInto {α : Type} (invalid : Bool) (result : Except ExpandError α) :
    (expandInto invalid result).2 = true ↔ invalid = true ∨ ∃ e, result = .error e := by
  cases result with
  | error e => exact iff_of_true rfl (Or.inr ⟨e, rfl⟩)
  | ok a => simp [expandInto]

theorem invalid_expandRedir (redir : List Redirection) (invalid : Bool) :
    (expandRedir env invalid redir).2 = true ↔
      invalid = true ∨ ∃ r ∈ redir, ∃ e, expandRedirectionTarget env r.targetParts = .error e := by
  induction redir generalizing invalid with
  | nil => simp [expandRedir]
  | cons r redir ih =>
    rw [expandRedir, List.exists_mem_cons_iff]
    split
    · next hparts =>
      -- a target without parts is not expanded, and would not fail
      have hok : ¬∃ e, expandRedirectionTarget env r.targetParts = .error e := by
        rw [hparts]
        exact fun ⟨_, herror⟩ ↦ nomatch herror
      rw [or_iff_right hok]
      exact ih invalid
    · rw [← or_assoc, ← invalid_expandInto]
      exact ih _

theorem invalid_expanderExpandCmd (cmd : CmdNode) (invalid : Bool) :
    (expanderExpandCmd env cmd invalid).2 = true ↔ invalid = true ∨ cmd.Fails env := by
  have hwords : (∃ word ∈ cmd.argvParts, ∃ e, expandArgvParts env [word] = .error e) ↔
      ∃ e, expandArgvParts env cmd.argvParts = .error e := by
    rw [exists_error_iff, expandArgvParts_ok_iff]
    simp only [exists_error_iff, not_forall, exists_prop]
  rw [CmdNode.Fails, hwords, ← or_assoc, ← invalid_expandInto, ← invalid_expandRedir,
    expanderExpandCmd]
  by_cases hparts : cmd.argvParts = []
  · rw [if_pos hparts, hparts]
    rfl
  · rw [if_neg hparts]

theorem map_targetParts_expandRedir (redir : List Redirection) (invalid : Bool) :
    (expandRedir env invalid redir).1.map Redirection.targetParts
      = redir.map Redirection.targetParts := by
  induction redir generalizing invalid with
  | nil => rfl
  | cons r redir ih =>
    rw [expandRedir, List.map_cons]
    split
    · rw [← ih invalid]
      rfl
    · rw [← ih (expandInto invalid (expandRedirectionTarget env r.targetParts)).2]
      rfl

/-- The expander leaves the words as they are. -/
theorem fails_expanderExpandCmd (cmd : CmdNode) (invalid : Bool) :
    (expanderExpandCmd env cmd invalid).1.Fails env ↔ cmd.Fails env := by
  have htargets : ∀ redir : List Redirection,
      (∃ r ∈ redir, ∃ e, expandRedirectionTarget env r.targetParts = .error e) ↔
        ∃ parts ∈ redir.map Redirection.targetParts,
          ∃ e, expandRedirectionTarget env parts = .error e := fun redir ↦ by simp
  rw [CmdNode.Fails, htargets, CmdNode.Fails, htargets cmd.redir]
  exact or_congr Iff.rfl (by rw [expanderExpandCmd, map_targetParts_expandRedir])

theorem fails_expanderExpandAst (node : Ast) :
    (expanderExpandAst env node).Fails env ↔ node.Fails env := by
  rw [Ast.Fails, cmds_expanderExpandAst, Ast.Fails]
  simp only [List.mem_map, exists_exists_and_eq_and, fails_expanderExpandCmd]

end

/-! ## The flags -/

/-- Every node is flagged if and only if expansion failed for some command in it or below it. -/
def FlagsRight (env : ExpandEnv) (node : Ast) : Prop :=
  ∀ n ∈ node.nodes, n.invalid = true ↔ n.Fails env

/-- A node whose flag will be right: nothing but the flag of a command changes, and that is only
set. -/
def Ast.FlagReady (env : ExpandEnv) (node : Ast) : Prop :=
  match node with
  | .cmd _ invalid => invalid = true → node.Fails env
  | _ => node.invalid = true ↔ node.Fails env

/-- For every tree: all flags are right after the expansion exactly when those of the commands were
clear before it, apart from commands that fail, and those of all other nodes were right already. -/
theorem flagsRight_expanderExpandAst_iff (env : ExpandEnv) (node : Ast) :
    FlagsRight env (expanderExpandAst env node) ↔ ∀ n ∈ node.nodes, n.FlagReady env := by
  rw [FlagsRight, nodes_expanderExpandAst, List.forall_mem_map]
  refine forall₂_congr fun n _ ↦ ?_
  rw [fails_expanderExpandAst]
  cases n with
  | cmd cmd invalid =>
    have hfails : (Ast.cmd cmd invalid).Fails env ↔ cmd.Fails env := by
      simp [Ast.Fails, Ast.cmds]
    change ((expanderExpandCmd env cmd invalid).2 = true ↔ _) ↔ (invalid = true → _)
    rw [invalid_expanderExpandCmd, hfails]
    exact or_iff_right_iff_imp
  | null | pipeline | conditional | sequence =>
    rw [expanderExpandAst]
    rfl

/-- In the tree of the line `~v`, where there is no user `v`, the sequence is not flagged. -/
theorem not_flagsRight_expanderExpandAst :
    ¬∀ (env : ExpandEnv) (node : Ast), FlagsRight env (expanderExpandAst env node) := by
  intro hclaim
  let cmd : CmdNode := { argvParts := [[⟨.wordTilde, .quoteNone, ['~', 'v']⟩]] }
  have hright := hclaim emptyDirectory (.sequence [.cmd cmd false] false)
  have hfails : ((expanderExpandAst emptyDirectory (.sequence [.cmd cmd false] false))).Fails
      emptyDirectory :=
    ⟨_, List.mem_cons_self, Or.inl ⟨_, List.mem_cons_self, .userNotFound ['~', 'v'], rfl⟩⟩
  have hflag := (hright _ List.mem_cons_self).mpr hfails
  cases hflag

end Novash
