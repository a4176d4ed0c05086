import Novash.Basic.CString

/-!
# Tokens and word parts

The types of `lexer.h`. A pointer that may be `NULL` is an `Option`, except for `raw_value`, which
is `NULL` exactly on the operator tokens and is the empty string there.
-/

namespace Novash

inductive TokenType
  | tokWord
  | tokSemi
  | tokPipe
  | tokOr
  | tokAnd
  | tokBg
  | tokFd
  | tokRedirIn
  | tokRedirOut
  | tokRedirAppend
  | tokEof
  deriving DecidableEq, Repr

inductive WordPartType
  | wordLiteral
  | wordVariable
  | wordTilde
  | wordGlob
  deriving DecidableEq, Repr

inductive QuoteContext
  | quoteNone
  | quoteSingle
  | quoteDouble
  deriving DecidableEq, Repr

structure WordPart where
  type : WordPartType
  quote : QuoteContext
  value : CStr
  deriving DecidableEq, Repr

/-- The parts of one word, in order. -/
abbrev Word := List WordPart

structure Token where
  type : TokenType
  rawValue : CStr := []
  parts : Word := []
  deriving DecidableEq, Repr

/-- A token that carries no text. -/
abbrev Token.operator (type : TokenType) : Token := { type }

end Novash
