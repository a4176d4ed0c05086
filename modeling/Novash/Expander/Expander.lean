import Novash.Expander.Pipeline

/-!
# Expanding a tree

`expander.c`: every command of a line gets its `argv`, and every redirection its target, before the
first command runs. An expansion that fails leaves `NULL` behind and sets the `invalid` flag of the
command; nothing here clears a flag.

The passes rewrite the parts of a word in place. Each word is expanded once, so the parts of an
expanded tree are kept here as the parser left them.
-/

namespace Novash

section

variable (env : ExpandEnv)

/-- What `expand_argv_parts` and `expand_redirection_target` return, and `*invalid` after them. -/
def expandInto {α : Type} (invalid : Bool) : Except ExpandError α → Option α × Bool
  | .ok a => (some a, invalid)
  | .error _ => (none, true)

def expandRedir (invalid : Bool) : List Redirection → List Redirection × Bool
  | [] => ([], invalid)
  | r :: redir =>
    if r.targetParts = [] then
      let (redir, invalid) := expandRedir invalid redir
      (r :: redir, invalid)
    else
      let (target, invalid) := expandInto invalid (expandRedirectionTarget env r.targetParts)
      let (redir, invalid) := expandRedir invalid redir
      ({ r with target } :: redir, invalid)

def expanderExpandCmd (node : CmdNode) (invalid : Bool) : CmdNode × Bool :=
  let (argv, invalid) :=
    if node.argvParts = [] then (node.argv, invalid)
    else expandInto invalid (expandArgvParts env node.argvParts)
  let (redir, invalid) := expandRedir env invalid node.redir
  ({ node with argv, redir }, invalid)

mutual

def expanderExpandAst : Ast → Ast
  | .null => .null
  | .cmd node invalid =>
    let (node, invalid) := expanderExpandCmd env node invalid
    .cmd node invalid
  | .pipeline nodes invalid => .pipeline (expanderExpandList nodes) invalid
  | .conditional left right op invalid =>
    .conditional (expanderExpandAst left) (expanderExpandAst right) op invalid
  | .sequence nodes invalid => .sequence (expanderExpandList nodes) invalid

def expanderExpandList : List Ast → List Ast
  | [] => []
  | node :: nodes => expanderExpandAst node :: expanderExpandList nodes

end

end

end Novash
