import Novash.Lexer.Token

/-!
# The abstract syntax tree

`parser.h`. An `Ast` is a pointer to a node, so `null` is one of its values: the parser stores null
children in several places, and the expander and the executor test for them.

`raw_str` is kept for display. `invalid` belongs to every node; nothing in the parser writes it.
-/

namespace Novash

inductive RedirectionType
  | redirIn
  | redirOut
  | redirAppend
  deriving DecidableEq, Repr

/-- `redirection_t`. `target` is `NULL` until the expander sets it. -/
structure Redirection where
  fd : Int32
  type : RedirectionType
  targetParts : Word := []
  target : Option CStr := none
  deriving DecidableEq, Repr

/-- `cmd_node_t`. `argv` is `NULL` until the expander sets it, and after an expansion that
failed. -/
structure CmdNode where
  argvParts : List Word
  argv : Option (List CStr) := none
  redir : List Redirection := []
  rawStr : CStr := []
  isBg : Bool := false
  deriving DecidableEq, Repr

inductive CondOp
  | condAnd
  | condOr
  deriving DecidableEq, Repr

/-- `ast_node_t *`. -/
inductive Ast
  | null
  | cmd (node : CmdNode) (invalid : Bool)
  | pipeline (nodes : List Ast) (invalid : Bool)
  | conditional (left right : Ast) (op : CondOp) (invalid : Bool)
  | sequence (nodes : List Ast) (invalid : Bool)
  deriving Repr

namespace Ast

def isNull : Ast → Bool
  | null => true
  | _ => false

@[simp] theorem isNull_null : isNull null = true := rfl

@[simp] theorem isNull_cmd (node : CmdNode) (invalid : Bool) : isNull (cmd node invalid) = false :=
  rfl

@[simp] theorem isNull_pipeline (nodes : List Ast) (invalid : Bool) :
    isNull (pipeline nodes invalid) = false := rfl

@[simp] theorem isNull_conditional (left right : Ast) (op : CondOp) (invalid : Bool) :
    isNull (conditional left right op invalid) = false := rfl

@[simp] theorem isNull_sequence (nodes : List Ast) (invalid : Bool) :
    isNull (sequence nodes invalid) = false := rfl

/-- The `invalid` field; `NULL` has none. -/
def invalid : Ast → Bool
  | null => false
  | cmd _ invalid => invalid
  | pipeline _ invalid => invalid
  | conditional _ _ _ invalid => invalid
  | sequence _ invalid => invalid

end Ast

end Novash
