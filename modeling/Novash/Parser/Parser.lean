import Novash.Foundations.Results
import Novash.Lexer.Lexer
import Novash.Parser.Ast

/-!
# The parser

`parser.c`, over any source of tokens. The parser asks for one token at a time and keeps the last
one in `g_tok`; a `TokenSource` is what it asks. The lexer is one, and a list of tokens is another.

## What the parser does not write

Every node is a block from `xmalloc`, and its `invalid` flag is never assigned: the flag of a new
node is whatever the block held. `heap` is that content for the blocks still to come, in the order
in which they are handed out.

## Termination

Each loop ends because it consumes tokens. The measure is `left`: the size of what the source still
has, or zero once the lookahead is `TOK_EOF`, which is the token that stops every loop. A source
carries the proof that a token other than `TOK_EOF` makes it smaller.
-/

namespace Novash

open Foundations TokenType RedirectionType CondOp

/-- Where the parser takes its tokens from. `pos` and `input` are read for `raw_str` only. -/
class TokenSource (σ : Type) where
  /-- The next token; `none` when the lexer crashes. -/
  next : σ → Option (Token × σ)
  /-- How much of the source is left. -/
  size : σ → ℕ
  /-- A token other than `TOK_EOF` uses some of it up. -/
  size_lt : ∀ {s s' : σ} {tok : Token}, next s = some (tok, s') → tok.type ≠ tokEof →
    size s' < size s
  pos : σ → ℕ
  input : σ → CStr

instance : TokenSource Lexer where
  next := lexerNextToken
  size := Lexer.remaining
  size_lt h htok :=
    have hmoves := lexerNextToken_moves h htok
    Lexer.remaining_lt hmoves.1 hmoves.2.2 hmoves.2.1
  pos := Lexer.pos
  input := Lexer.input

/-- A list of tokens, followed by `TOK_EOF` for ever. -/
instance : TokenSource (List Token) where
  next
    | [] => some (.operator tokEof, [])
    | tok :: toks => some (tok, toks)
  size := List.length
  size_lt {s s' tok} h htok := by
    cases s with
    | nil => cases h; exact absurd rfl htok
    | cons t ts => cases h; exact Nat.lt_succ_self _
  pos _ := 0
  input _ := []

/-! ## State and failure -/

/-- The lexer, the lookahead `g_tok`, and what the memory handed out next contains. -/
structure ParserState (σ : Type) where
  lex : σ
  gTok : Token
  heap : ℕ → Bool

/-- What the parser prints before `exit(EXIT_FAILURE)`. -/
inductive ParseError
  | unexpectedToken (type : TokenType)
  | expectedFilename
  | expectedCommand
  deriving DecidableEq, Repr

def ParseError.message : ParseError → String
  | unexpectedToken type => s!"Unexpected token type {type.ctorIdx} in redirection\n"
  | expectedFilename => "Expected filename after redirection\n"
  | expectedCommand => "Syntax error: expected command after '|'\n"

/-- How the parser can fail to return. Both end the shell. -/
inductive ParseStop
  | exit (error : ParseError)
  | crash
  deriving DecidableEq, Repr

variable {σ : Type} [TokenSource σ]

namespace ParserState

/-- What the loops still have to consume. -/
def left (p : ParserState σ) : ℕ :=
  if p.gTok.type = tokEof then 0 else TokenSource.size p.lex + 1

/-- `xmalloc(sizeof(ast_node_t))`: what the new block holds in its `invalid` field. -/
def newNode (p : ParserState σ) : Bool × ParserState σ :=
  (p.heap 0, { p with heap := fun n ↦ p.heap (n + 1) })

@[simp] theorem left_newNode (p : ParserState σ) : p.newNode.2.left = p.left := rfl

end ParserState

def nextToken (p : ParserState σ) : Except ParseStop (ParserState σ) :=
  match TokenSource.next p.lex with
  | none => .error .crash
  | some (tok, lex) => .ok { p with lex, gTok := tok }

theorem left_nextToken_lt {p p' : ParserState σ} (h : nextToken p = .ok p')
    (hp : p.gTok.type ≠ tokEof) : p'.left < p.left := by
  unfold nextToken at h
  split at h
  · cases h
  · rename_i tok lex hnext
    cases h
    simp only [ParserState.left, if_neg hp]
    split_ifs with htok
    · exact Nat.succ_pos _
    · exact Nat.succ_lt_succ (TokenSource.size_lt hnext htok)

/-! ## Commands -/

def parseArguments (p : ParserState σ) : Except ParseStop (List Word × ParserState σ) :=
  if _hword : p.gTok.type = tokWord then
    match _hnext : nextToken p with
    | .error e => .error e
    | .ok p' => do
      let (argvParts, p'') ← parseArguments p'
      return (p.gTok.parts :: argvParts, p'')
  else .ok ([], p)
termination_by p.left
decreasing_by exact left_nextToken_lt _hnext (by rw [_hword]; decide)

/-- One word, and then the others. -/
theorem parseArguments_of_word {p : ParserState σ} (hword : p.gTok.type = tokWord) :
    parseArguments p = do
      let p₁ ← nextToken p
      let (ws, p') ← parseArguments p₁
      return (p.gTok.parts :: ws, p') := by
  rw [parseArguments, dif_pos hword]
  split
  all_goals
    next hnext =>
    rw [hnext]
    rfl

/-- The turns of a call that returns. -/
inductive ArgumentsRun : ParserState σ → List Word → ParserState σ → Prop
  | done {p} (hword : p.gTok.type ≠ tokWord) : ArgumentsRun p [] p
  | word {p p₁ p' ws} (hword : p.gTok.type = tokWord) (hnext : nextToken p = .ok p₁)
      (hrest : ArgumentsRun p₁ ws p') : ArgumentsRun p (p.gTok.parts :: ws) p'

theorem parseArguments_run {p p' : ParserState σ} {ws : List Word}
    (h : parseArguments p = .ok (ws, p')) : ArgumentsRun p ws p' := by
  fun_induction parseArguments p generalizing ws with
  | case1 => cases h
  | case2 p hword p₁ hnext ih =>
    obtain ⟨⟨ws', p''⟩, hrest, h⟩ := bind_ok.mp h
    cases h
    exact .word hword hnext (ih hrest)
  | case3 p hword =>
    cases h
    exact .done hword

def startsRedirection (type : TokenType) : Bool :=
  type = tokFd || type = tokRedirIn || type = tokRedirOut || type = tokRedirAppend

/-- The type of a redirection and its descriptor, from the operator and the number read before it.
An output redirection from descriptor 0 goes to descriptor 1: without a number the descriptor is 0
at this point. -/
def redirectionOf (fd : Int32) : TokenType → Option (RedirectionType × Int32)
  | tokRedirIn => some (redirIn, fd)
  | tokRedirOut => some (redirOut, if fd = 0 then 1 else fd)
  | tokRedirAppend => some (redirAppend, if fd = 0 then 1 else fd)
  | _ => none

theorem ne_tokEof_of_redirectionOf {fd : Int32} {type : TokenType} {r : RedirectionType × Int32}
    (h : redirectionOf fd type = some r) : type ≠ tokEof := by
  rintro rfl
  cases h

/-- The optional descriptor number before a redirection operator. -/
def parseFd (p : ParserState σ) : Except ParseStop (Int32 × ParserState σ) :=
  if p.gTok.type = tokFd then do
    let p' ← nextToken p
    return (toInt (strtol p.gTok.rawValue).1, p')
  else .ok (0, p)

/-- One round of the loop of `parse_redirection`: `[FD] REDIR_TYPE FILENAME`. -/
def parseOneRedirection (p : ParserState σ) : Except ParseStop (Redirection × ParserState σ) := do
  let (fd, p) ← parseFd p
  match redirectionOf fd p.gTok.type with
  | none => .error (.exit (.unexpectedToken p.gTok.type))
  | some (type, fd) =>
    let p ← nextToken p
    if p.gTok.type ≠ tokWord then .error (.exit .expectedFilename)
    else
      let p' ← nextToken p
      return ({ fd, type, targetParts := p.gTok.parts }, p')

theorem left_parseFd_le {p p' : ParserState σ} {fd : Int32} (h : parseFd p = .ok (fd, p')) :
    p'.left ≤ p.left := by
  unfold parseFd at h
  split_ifs at h with hfd
  · obtain ⟨p₁, hnext, hres⟩ := bind_ok.mp h
    cases hres
    exact (left_nextToken_lt hnext (by rw [hfd]; decide)).le
  · cases h
    exact le_refl _

theorem left_parseOneRedirection_lt {p p' : ParserState σ} {r : Redirection}
    (h : parseOneRedirection p = .ok (r, p')) : p'.left < p.left := by
  obtain ⟨⟨fd, p₁⟩, hfd, h⟩ := bind_ok.mp h
  dsimp only at h
  split at h
  · cases h
  rename_i type fd' hop
  obtain ⟨p₂, hnext, h⟩ := bind_ok.mp h
  split_ifs at h with hword
  obtain ⟨p₃, hnext', h⟩ := bind_ok.mp h
  cases h
  have hword' : p₂.gTok.type ≠ tokEof := fun hc ↦ by rw [hc] at hword; exact hword (by decide)
  exact (left_nextToken_lt hnext' hword').trans
    ((left_nextToken_lt hnext (ne_tokEof_of_redirectionOf hop)).trans_le (left_parseFd_le hfd))

def parseRedirection (p : ParserState σ) : Except ParseStop (List Redirection × ParserState σ) :=
  if startsRedirection p.gTok.type then
    match _hone : parseOneRedirection p with
    | .error e => .error e
    | .ok (r, p') => do
      let (redir, p'') ← parseRedirection p'
      return (r :: redir, p'')
  else .ok ([], p)
termination_by p.left
decreasing_by exact left_parseOneRedirection_lt _hone

/-- One redirection, and then the others. -/
theorem parseRedirection_of_starts {p : ParserState σ}
    (hstart : startsRedirection p.gTok.type = true) :
    parseRedirection p = do
      let (r, p₁) ← parseOneRedirection p
      let (redir, p') ← parseRedirection p₁
      return (r :: redir, p') := by
  rw [parseRedirection, if_pos hstart]
  split
  all_goals
    next hone =>
    rw [hone]
    rfl

/-- The turns of a call that returns. -/
inductive RedirectionRun : ParserState σ → List Redirection → ParserState σ → Prop
  | done {p} (hstart : startsRedirection p.gTok.type = false) : RedirectionRun p [] p
  | one {p r p₁ rs p'} (hstart : startsRedirection p.gTok.type = true)
      (hone : parseOneRedirection p = .ok (r, p₁)) (hrest : RedirectionRun p₁ rs p') :
      RedirectionRun p (r :: rs) p'

theorem parseRedirection_run {p p' : ParserState σ} {rs : List Redirection}
    (h : parseRedirection p = .ok (rs, p')) : RedirectionRun p rs p' := by
  fun_induction parseRedirection p generalizing rs with
  | case1 => cases h
  | case2 p hstart r p₁ hone ih =>
    obtain ⟨⟨rs', p''⟩, hrest, h⟩ := bind_ok.mp h
    cases h
    exact .one hstart hone (ih hrest)
  | case3 p hstart =>
    cases h
    exact .done (Bool.eq_false_iff.mpr hstart)

/-- `raw_str` runs from the position of the lexer at the call to its position after the last
redirection. -/
def parseCommand (p : ParserState σ) : Except ParseStop (Ast × ParserState σ) :=
  if p.gTok.type ≠ tokWord then .ok (.null, p)
  else do
    let start := TokenSource.pos p.lex
    let (argvParts, p) ← parseArguments p
    let (redir, p) ← parseRedirection p
    let rawStr := ((TokenSource.input p.lex).drop start).take (TokenSource.pos p.lex - start)
    let isBg := p.gTok.type = tokBg
    return (.cmd { argvParts, redir, rawStr, isBg } p.newNode.1, p.newNode.2)

theorem left_parseArguments_le {p p' : ParserState σ} {ws : List Word}
    (h : parseArguments p = .ok (ws, p')) : p'.left ≤ p.left := by
  replace h := parseArguments_run h
  induction h with
  | done => exact le_refl _
  | word hword hnext _ ih => exact ih.trans (left_nextToken_lt hnext (by rw [hword]; decide)).le

theorem left_parseRedirection_le {p p' : ParserState σ} {rs : List Redirection}
    (h : parseRedirection p = .ok (rs, p')) : p'.left ≤ p.left := by
  replace h := parseRedirection_run h
  induction h with
  | done => exact le_refl _
  | one _ hone _ ih => exact ih.trans (left_parseOneRedirection_lt hone).le

/-- The first word of a command is consumed. -/
private theorem left_parseArguments_lt {p p' : ParserState σ} {ws : List Word}
    (hword : p.gTok.type = tokWord) (h : parseArguments p = .ok (ws, p')) : p'.left < p.left := by
  rw [parseArguments_of_word hword] at h
  obtain ⟨p₁, hnext, h⟩ := bind_ok.mp h
  obtain ⟨⟨ws', p''⟩, hrest, h⟩ := bind_ok.mp h
  cases h
  exact (left_parseArguments_le hrest).trans_lt (left_nextToken_lt hnext (by rw [hword]; decide))

/-- `parse_command` returns `NULL` and consumes nothing, or consumes something. -/
theorem left_parseCommand {p p' : ParserState σ} {node : Ast}
    (h : parseCommand p = .ok (node, p')) :
    p'.left ≤ p.left ∧ (node.isNull = false → p'.left < p.left) := by
  unfold parseCommand at h
  split_ifs at h with hword
  · cases h
    exact ⟨le_refl _, fun hn ↦ absurd hn (by simp)⟩
  · obtain ⟨⟨ws, p₁⟩, hargs, h⟩ := bind_ok.mp h
    obtain ⟨⟨rs, p₂⟩, hredir, h⟩ := bind_ok.mp h
    cases h
    have hlt := (left_parseRedirection_le hredir).trans_lt
      (left_parseArguments_lt (not_not.mp hword) hargs)
    exact ⟨hlt.le, fun _ ↦ hlt⟩

/-! ## Pipelines -/

/-- The loop of `parse_pipeline`: the commands after the first one. -/
def pipelineLoop (p : ParserState σ) : Except ParseStop (List Ast × ParserState σ) :=
  if _hpipe : p.gTok.type = tokPipe then
    match _hnext : nextToken p with
    | .error e => .error e
    | .ok p₁ =>
      match _hcmd : parseCommand p₁ with
      | .error e => .error e
      | .ok (nextCommand, p₂) =>
        if nextCommand.isNull then .error (.exit .expectedCommand)
        else do
          let (nodes, p₃) ← pipelineLoop p₂
          return (nextCommand :: nodes, p₃)
  else .ok ([], p)
termination_by p.left
decreasing_by
  exact (left_parseCommand _hcmd).1.trans_lt (left_nextToken_lt _hnext (by rw [_hpipe]; decide))

/-- One command, and then the others. -/
theorem pipelineLoop_of_pipe {p : ParserState σ} (hpipe : p.gTok.type = tokPipe) :
    pipelineLoop p = do
      let p₁ ← nextToken p
      let (nextCommand, p₂) ← parseCommand p₁
      if nextCommand.isNull then .error (.exit .expectedCommand)
      else
        let (nodes, p₃) ← pipelineLoop p₂
        return (nextCommand :: nodes, p₃) := by
  rw [pipelineLoop, dif_pos hpipe]
  split
  · next hnext =>
    rw [hnext]
    rfl
  next hnext =>
  rw [hnext]
  split
  all_goals
    next hcmd =>
    simp only [bind, Except.bind, hcmd]

/-- The turns of a call that returns. -/
inductive PipelineRun : ParserState σ → List Ast → ParserState σ → Prop
  | done {p} (hpipe : p.gTok.type ≠ tokPipe) : PipelineRun p [] p
  | command {p p₁ nextCommand p₂ nodes p'} (hpipe : p.gTok.type = tokPipe)
      (hnext : nextToken p = .ok p₁) (hcmd : parseCommand p₁ = .ok (nextCommand, p₂))
      (hnull : nextCommand.isNull = false) (hrest : PipelineRun p₂ nodes p') :
      PipelineRun p (nextCommand :: nodes) p'

theorem pipelineLoop_run {p p' : ParserState σ} {nodes : List Ast}
    (h : pipelineLoop p = .ok (nodes, p')) : PipelineRun p nodes p' := by
  fun_induction pipelineLoop p generalizing nodes with
  | case1 => cases h
  | case2 => cases h
  | case3 => cases h
  | case4 p hpipe p₁ hnext nextCommand p₂ hcmd hnull ih =>
    obtain ⟨⟨nodes', p''⟩, hrest, h⟩ := bind_ok.mp h
    cases h
    exact .command hpipe hnext hcmd (Bool.eq_false_iff.mpr hnull) (ih hrest)
  | case5 p hpipe =>
    cases h
    exact .done hpipe

/-- The first command may be `NULL`, and is pushed all the same. The block of the pipeline node is
allocated before it is known whether there is a pipeline. -/
def parsePipeline (p : ParserState σ) : Except ParseStop (Ast × ParserState σ) := do
  let (firstCommand, p₁) ← parseCommand p
  let (nodes, p₂) ← pipelineLoop p₁.newNode.2
  -- a single command needs no pipeline
  if nodes = [] then return (firstCommand, p₂)
  else return (.pipeline (firstCommand :: nodes) p₁.newNode.1, p₂)

theorem left_pipelineLoop {p p' : ParserState σ} {nodes : List Ast}
    (h : pipelineLoop p = .ok (nodes, p')) :
    p'.left ≤ p.left ∧ (nodes ≠ [] → p'.left < p.left) := by
  replace h := pipelineLoop_run h
  induction h with
  | done => exact ⟨le_refl _, fun hn ↦ absurd rfl hn⟩
  | command hpipe hnext hcmd _ _ ih =>
    have hlt := (ih.1.trans (left_parseCommand hcmd).1).trans_lt
      (left_nextToken_lt hnext (by rw [hpipe]; decide))
    exact ⟨hlt.le, fun _ ↦ hlt⟩

theorem left_parsePipeline {p p' : ParserState σ} {node : Ast}
    (h : parsePipeline p = .ok (node, p')) :
    p'.left ≤ p.left ∧ (node.isNull = false → p'.left < p.left) := by
  obtain ⟨⟨firstCommand, p₁⟩, hcmd, h⟩ := bind_ok.mp h
  obtain ⟨⟨nodes, p₂⟩, hloop, h⟩ := bind_ok.mp h
  have hfirst := left_parseCommand hcmd
  have hrest := left_pipelineLoop hloop
  rw [ParserState.left_newNode] at hrest
  dsimp only at h
  split_ifs at h with hnodes
  · cases h
    exact ⟨hrest.1.trans hfirst.1, fun hn ↦ hrest.1.trans_lt (hfirst.2 hn)⟩
  · cases h
    exact ⟨hrest.1.trans hfirst.1, fun _ ↦ (hrest.2 hnodes).trans_le hfirst.1⟩

/-! ## Conditionals -/

/-- The operator of a conditional, if the lookahead is one. -/
def condOpOf : TokenType → Option CondOp
  | tokAnd => some condAnd
  | tokOr => some condOr
  | _ => none

theorem ne_tokEof_of_condOpOf {type : TokenType} {op : CondOp} (h : condOpOf type = some op) :
    type ≠ tokEof := by
  rintro rfl
  cases h

def conditionalLoop (left : Ast) (p : ParserState σ) : Except ParseStop (Ast × ParserState σ) :=
  match _hop : condOpOf p.gTok.type with
  | none => .ok (left, p)
  | some op =>
    match _hnext : nextToken p with
    | .error e => .error e
    | .ok p₁ =>
      match _hright : parsePipeline p₁ with
      | .error e => .error e
      | .ok (right, p₂) =>
        conditionalLoop (.conditional left right op p₂.newNode.1) p₂.newNode.2
termination_by p.left
decreasing_by
  exact (left_parsePipeline _hright).1.trans_lt
    (left_nextToken_lt _hnext (ne_tokEof_of_condOpOf _hop))

theorem conditionalLoop_of_none {p : ParserState σ} {left : Ast}
    (hop : condOpOf p.gTok.type = none) : conditionalLoop left p = .ok (left, p) := by
  rw [conditionalLoop]
  split
  · rfl
  · next hsome => cases hop.symm.trans hsome

/-- One operator with what is on its right, and then the others. -/
theorem conditionalLoop_of_op {p : ParserState σ} {left : Ast} {op : CondOp}
    (hop : condOpOf p.gTok.type = some op) :
    conditionalLoop left p = (do
      let p₁ ← nextToken p
      let (right, p₂) ← parsePipeline p₁
      conditionalLoop (.conditional left right op p₂.newNode.1) p₂.newNode.2) := by
  rw [conditionalLoop]
  split
  · next hnone => cases hop.symm.trans hnone
  next op' hop' =>
  cases hop.symm.trans hop'
  split
  · next hnext =>
    rw [hnext]
    rfl
  next hnext =>
  rw [hnext]
  split
  all_goals
    next hright =>
    simp only [bind, Except.bind, hright]

/-- The turns of a call that returns. -/
inductive ConditionalRun : Ast → ParserState σ → Ast → ParserState σ → Prop
  | done {left p} (hop : condOpOf p.gTok.type = none) : ConditionalRun left p left p
  | operand {left p op p₁ right p₂ node p'} (hop : condOpOf p.gTok.type = some op)
      (hnext : nextToken p = .ok p₁) (hright : parsePipeline p₁ = .ok (right, p₂))
      (hrest : ConditionalRun (.conditional left right op p₂.newNode.1) p₂.newNode.2 node p') :
      ConditionalRun left p node p'

theorem conditionalLoop_run {left node : Ast} {p p' : ParserState σ}
    (h : conditionalLoop left p = .ok (node, p')) : ConditionalRun left p node p' := by
  fun_induction conditionalLoop left p with
  | case1 left p hop =>
    cases h
    exact .done hop
  | case2 => cases h
  | case3 => cases h
  | case4 left p op hop p₁ hnext right p₂ hright ih => exact .operand hop hnext hright (ih h)

def parseConditional (p : ParserState σ) : Except ParseStop (Ast × ParserState σ) := do
  let (left, p) ← parsePipeline p
  conditionalLoop left p

theorem left_conditionalLoop {left node : Ast} {p p' : ParserState σ}
    (h : conditionalLoop left p = .ok (node, p')) :
    p'.left ≤ p.left ∧ (node ≠ left → p'.left < p.left) := by
  replace h := conditionalLoop_run h
  induction h with
  | done => exact ⟨le_refl _, fun hn ↦ absurd rfl hn⟩
  | operand hop hnext hright _ ih =>
    have hlt := left_nextToken_lt hnext (ne_tokEof_of_condOpOf hop)
    have hres := (ih.1.trans (left_parsePipeline hright).1).trans_lt hlt
    exact ⟨hres.le, fun _ ↦ hres⟩

theorem left_parseConditional {p p' : ParserState σ} {node : Ast}
    (h : parseConditional p = .ok (node, p')) :
    p'.left ≤ p.left ∧ (node.isNull = false → p'.left < p.left) := by
  obtain ⟨⟨left, p₁⟩, hpipe, h⟩ := bind_ok.mp h
  have hfirst := left_parsePipeline hpipe
  have hrest := left_conditionalLoop h
  refine ⟨hrest.1.trans hfirst.1, fun hn ↦ ?_⟩
  by_cases hnode : node = left
  · subst hnode
    exact hrest.1.trans_lt (hfirst.2 hn)
  · exact (hrest.2 hnode).trans_le hfirst.1

/-! ## Sequences -/

def isSeparator (type : TokenType) : Bool := type = tokSemi || type = tokBg

theorem ne_tokEof_of_isSeparator {type : TokenType} (h : isSeparator type = true) :
    type ≠ tokEof := by
  rintro rfl
  cases h

/-- Any number of `;` and `&` after an element. -/
def skipSeparators (p : ParserState σ) : Except ParseStop (ParserState σ) :=
  if _hsep : isSeparator p.gTok.type then
    match _hnext : nextToken p with
    | .error e => .error e
    | .ok p' => skipSeparators p'
  else .ok p
termination_by p.left
decreasing_by exact left_nextToken_lt _hnext (ne_tokEof_of_isSeparator _hsep)

/-- The turns of a call that returns. -/
inductive SeparatorsRun : ParserState σ → ParserState σ → Prop
  | done {p} (hsep : isSeparator p.gTok.type = false) : SeparatorsRun p p
  | separator {p p₁ p'} (hsep : isSeparator p.gTok.type = true) (hnext : nextToken p = .ok p₁)
      (hrest : SeparatorsRun p₁ p') : SeparatorsRun p p'

theorem skipSeparators_run {p p' : ParserState σ} (h : skipSeparators p = .ok p') :
    SeparatorsRun p p' := by
  fun_induction skipSeparators p with
  | case1 => cases h
  | case2 p hsep p₁ hnext ih => exact .separator hsep hnext (ih h)
  | case3 p hsep =>
    cases h
    exact .done (Bool.eq_false_iff.mpr hsep)

theorem left_skipSeparators_le {p p' : ParserState σ} (h : skipSeparators p = .ok p') :
    p'.left ≤ p.left := by
  replace h := skipSeparators_run h
  induction h with
  | done => exact le_refl _
  | separator hsep hnext _ ih =>
    exact ih.trans (left_nextToken_lt hnext (ne_tokEof_of_isSeparator hsep)).le

theorem skipSeparators_of_not {p : ParserState σ} (h : isSeparator p.gTok.type = false) :
    skipSeparators p = .ok p := by
  rw [skipSeparators, dif_neg (by rw [h]; decide)]

theorem skipSeparators_of_separator {p p₁ : ParserState σ} (h : isSeparator p.gTok.type = true)
    (hnext : nextToken p = .ok p₁) : skipSeparators p = skipSeparators p₁ := by
  rw [skipSeparators, dif_pos h]
  split
  · next herr => cases hnext.symm.trans herr
  · next hnext' =>
    cases hnext.symm.trans hnext'
    rfl

/-- The `do … while (g_tok.type != TOK_EOF)` loop, left early when an element is `NULL`. -/
def sequenceLoop (p : ParserState σ) : Except ParseStop (List Ast × ParserState σ) :=
  match _hnext : parseConditional p with
  | .error e => .error e
  | .ok (nextCommand, p₁) =>
    if _hnull : nextCommand.isNull then .ok ([], p₁)
    else
      match _hsep : skipSeparators p₁ with
      | .error e => .error e
      | .ok p₂ =>
        if p₂.gTok.type = tokEof then .ok ([nextCommand], p₂)
        else do
          let (nodes, p₃) ← sequenceLoop p₂
          return (nextCommand :: nodes, p₃)
termination_by p.left
decreasing_by
  exact (left_skipSeparators_le _hsep).trans_lt
    ((left_parseConditional _hnext).2 (by simpa using _hnull))

/-- The turns of a call that returns. -/
inductive SequenceRun : ParserState σ → List Ast → ParserState σ → Prop
  | null {p node p₁} (hcond : parseConditional p = .ok (node, p₁)) (hnull : node.isNull = true) :
      SequenceRun p [] p₁
  | last {p node p₁ p₂} (hcond : parseConditional p = .ok (node, p₁))
      (hnull : node.isNull = false) (hskip : skipSeparators p₁ = .ok p₂)
      (heof : p₂.gTok.type = tokEof) : SequenceRun p [node] p₂
  | element {p node p₁ p₂ nodes p'} (hcond : parseConditional p = .ok (node, p₁))
      (hnull : node.isNull = false) (hskip : skipSeparators p₁ = .ok p₂)
      (heof : p₂.gTok.type ≠ tokEof) (hrest : SequenceRun p₂ nodes p') :
      SequenceRun p (node :: nodes) p'

theorem sequenceLoop_run {p p' : ParserState σ} {nodes : List Ast}
    (h : sequenceLoop p = .ok (nodes, p')) : SequenceRun p nodes p' := by
  fun_induction sequenceLoop p generalizing nodes with
  | case1 => cases h
  | case2 p node p₁ hcond hnull =>
    cases h
    exact .null hcond hnull
  | case3 => cases h
  | case4 p node p₁ hcond hnull p₂ hskip heof =>
    cases h
    exact .last hcond (Bool.eq_false_iff.mpr hnull) hskip heof
  | case5 p node p₁ hcond hnull p₂ hskip heof ih =>
    obtain ⟨⟨nodes', p''⟩, hrest, h⟩ := bind_ok.mp h
    cases h
    exact .element hcond (Bool.eq_false_iff.mpr hnull) hskip heof (ih hrest)

/-- The loop ends at an element that is `NULL`. -/
theorem sequenceLoop_of_isNull {p p₁ : ParserState σ} {node : Ast}
    (hcond : parseConditional p = .ok (node, p₁)) (hnull : node.isNull = true) :
    sequenceLoop p = .ok ([], p₁) := by
  rw [sequenceLoop]
  split
  · next herr => cases hcond.symm.trans herr
  next hcond' =>
  cases hcond.symm.trans hcond'
  rw [dif_pos hnull]

/-- One turn of the loop that reads an element. -/
theorem sequenceLoop_element {p p₁ p₂ : ParserState σ} {node : Ast}
    (hcond : parseConditional p = .ok (node, p₁)) (hnull : node.isNull = false)
    (hskip : skipSeparators p₁ = .ok p₂) :
    sequenceLoop p =
      if p₂.gTok.type = tokEof then .ok ([node], p₂)
      else (sequenceLoop p₂).map fun (nodes, p₃) ↦ (node :: nodes, p₃) := by
  rw [sequenceLoop]
  split
  · next herr => cases hcond.symm.trans herr
  next hcond' =>
  cases hcond.symm.trans hcond'
  rw [dif_neg (by rw [hnull]; decide)]
  split
  · next herr => cases hskip.symm.trans herr
  next hskip' =>
  cases hskip.symm.trans hskip'
  by_cases heof : p₂.gTok.type = tokEof
  · rw [if_pos heof, if_pos heof]
  · rw [if_neg heof, if_neg heof]
    cases sequenceLoop p₂ <;> rfl

/-- The tree of a line, and the parser as it is left. Whatever the lookahead was before, it is
replaced first. -/
def parserCreateAst (p : ParserState σ) : Except ParseStop (Ast × ParserState σ) := do
  let p ← nextToken p
  if p.gTok.type = tokEof then return (.null, p)
  else
    let (nodes, p') ← sequenceLoop p.newNode.2
    return (.sequence nodes p.newNode.1, p')

end Novash
