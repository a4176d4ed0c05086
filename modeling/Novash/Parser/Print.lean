import Novash.Parser.Parser

/-!
# The grammar, and parsing what was printed

The parser is written as four nested loops that share one lookahead. What they accept is easier to
see from the other end: the types below are the well-formed trees, level by level, built so that an
ill-formed one cannot be written down. `toAst` is the tree the parser should build for one, and
`tokens` prints it.

## The shape of the proof

Every loop stops at the first token that is not its own. So the spec lemma of each level is about a
parser that sees the printed text *followed by some token that this level does not continue with*,
and says that exactly the printed text is consumed. `EndsCommand`, `EndsPipeline` and `EndsChain`
are the three follow conditions; each level provides the one below with its own operator.

The background flag is the only thing that depends on the token after the text. It belongs to the
last command, which is why every level passes it on to its last part only.

## What is compared

The trees are compared without `raw_str`. The `invalid` flags are not the parser's: they are
whatever the memory held. `erase keepInvalid` forgets them too, unless it is told to keep them, and
keeping them is sound when the memory handed out is clear.
-/

namespace Novash

open Foundations TokenType RedirectionType CondOp

/-! ## Trees without the text they came from -/

namespace Ast

mutual

/-- Forget `raw_str`, and the `invalid` flags unless `keepInvalid`. -/
def erase (keepInvalid : Bool) : Ast → Ast
  | null => null
  | cmd node invalid => cmd { node with rawStr := [] } (keepInvalid && invalid)
  | pipeline nodes invalid => pipeline (eraseList keepInvalid nodes) (keepInvalid && invalid)
  | conditional left right op invalid =>
    conditional (erase keepInvalid left) (erase keepInvalid right) op (keepInvalid && invalid)
  | sequence nodes invalid => sequence (eraseList keepInvalid nodes) (keepInvalid && invalid)

def eraseList (keepInvalid : Bool) : List Ast → List Ast
  | [] => []
  | node :: nodes => erase keepInvalid node :: eraseList keepInvalid nodes

end

theorem isNull_erase (keepInvalid : Bool) (node : Ast) :
    (node.erase keepInvalid).isNull = node.isNull := by
  cases node <;> rw [erase] <;> rfl

end Ast

/-! ## Well-formed trees -/

namespace Grammar

/-- A redirection with its descriptor written out. Descriptor 0 cannot be redirected for output:
the parser reads it as "no number". -/
structure Redir where
  fd : Int32
  type : RedirectionType
  target : Word
  fd_ne_zero : type ≠ redirIn → fd ≠ 0

structure Command where
  first : Word
  args : List Word
  redirs : List Redir

/-- One command, or a pipeline of two or more. -/
structure Pipeline where
  first : Command
  rest : List Command

/-- A left-nested chain of `&&` and `||`. -/
structure Chain where
  first : Pipeline
  rest : List (CondOp × Pipeline)

structure Element where
  chain : Chain
  isBg : Bool

structure Line where
  first : Element
  rest : List Element

/-! ### Their trees -/

def Redir.toRedirection (r : Redir) : Redirection :=
  { fd := r.fd, type := r.type, targetParts := r.target }

def Command.toAst (isBg : Bool) (c : Command) : Ast :=
  .cmd { argvParts := c.first :: c.args, redir := c.redirs.map Redir.toRedirection, isBg } false

/-- The commands after the first; only the last of them can be marked. -/
def commandsToAst (isBg : Bool) : List Command → List Ast
  | [] => []
  | c :: cs => c.toAst (isBg && cs.isEmpty) :: commandsToAst isBg cs

def Pipeline.toAst (isBg : Bool) (p : Pipeline) : Ast :=
  if p.rest = [] then p.first.toAst isBg
  else .pipeline (p.first.toAst false :: commandsToAst isBg p.rest) false

def chainToAst (isBg : Bool) (left : Ast) : List (CondOp × Pipeline) → Ast
  | [] => left
  | (op, p) :: rest =>
    chainToAst isBg (.conditional left (p.toAst (isBg && rest.isEmpty)) op false) rest

def Chain.toAst (isBg : Bool) (c : Chain) : Ast :=
  chainToAst isBg (c.first.toAst (isBg && c.rest.isEmpty)) c.rest

def Element.toAst (e : Element) : Ast := e.chain.toAst e.isBg

def Line.toAst (l : Line) : Ast := .sequence ((l.first :: l.rest).map Element.toAst) false

/-! ### Their tokens

`raw` gives the text of a word, which the parser does not read. -/

section

variable (raw : Word → CStr)

def wordToken (w : Word) : Token := ⟨tokWord, raw w, w⟩

theorem wordToken_ne_eof (w : Word) : (wordToken raw w).type ≠ tokEof := TokenType.noConfusion

def redirToken : RedirectionType → TokenType
  | redirIn => tokRedirIn
  | redirOut => tokRedirOut
  | redirAppend => tokRedirAppend

def Redir.tokens (r : Redir) : List Token :=
  [{ type := tokFd, rawValue := showInt r.fd.toInt }, .operator (redirToken r.type),
    wordToken raw r.target]

def Command.tokens (c : Command) : List Token :=
  (c.first :: c.args).map (wordToken raw) ++ c.redirs.flatMap (Redir.tokens raw)

def Pipeline.tokens (p : Pipeline) : List Token :=
  p.first.tokens raw ++ p.rest.flatMap fun c ↦ .operator tokPipe :: c.tokens raw

def condToken : CondOp → TokenType
  | condAnd => tokAnd
  | condOr => tokOr

def Chain.tokens (c : Chain) : List Token :=
  c.first.tokens raw ++ c.rest.flatMap fun (op, p) ↦ .operator (condToken op) :: p.tokens raw

def Element.terminator (e : Element) : Token := .operator (if e.isBg then tokBg else tokSemi)

def Element.tokens (e : Element) : List Token := e.chain.tokens raw ++ [e.terminator]

def Line.tokens (l : Line) : List Token := (l.first :: l.rest).flatMap (Element.tokens raw)

end

end Grammar

/-! ## What a parser sees -/

section

variable {σ : Type} [TokenSource σ]

/-- The source gives these tokens next, in this order. -/
def Delivers (s : σ) : List Token → Prop
  | [] => True
  | tok :: toks => ∃ s', TokenSource.next s = some (tok, s') ∧ Delivers s' toks

/-- The lookahead is the first of these tokens, and the source gives the others next. -/
def ParserState.Sees (p : ParserState σ) : List Token → Prop
  | [] => False
  | tok :: toks => p.gTok = tok ∧ Delivers p.lex toks

/-- The memory the parser is handed is clear, if its flags are to be compared. -/
def ParserState.Clear (keepInvalid : Bool) (p : ParserState σ) : Prop :=
  keepInvalid = true → ∀ n, p.heap n = false

theorem delivers_list (toks : List Token) : Delivers toks toks := by
  induction toks with
  | nil => trivial
  | cons tok toks ih => exact ⟨toks, rfl, ih⟩

theorem nextToken_of_sees {p : ParserState σ} {tok tok' : Token} {toks : List Token}
    (h : p.Sees (tok :: tok' :: toks)) :
    ∃ p', nextToken p = .ok p' ∧ p'.Sees (tok' :: toks) ∧ p'.heap = p.heap := by
  obtain ⟨-, lex, hnext, hrest⟩ := h
  exact ⟨{ p with lex, gTok := tok' }, by rw [nextToken, hnext], ⟨rfl, hrest⟩, rfl⟩

omit [TokenSource σ] in
theorem clear_newNode {keepInvalid : Bool} {p : ParserState σ} (h : p.Clear keepInvalid) :
    (keepInvalid && p.newNode.1) = false ∧ p.newNode.2.Clear keepInvalid := by
  refine ⟨?_, fun hk n ↦ h hk (n + 1)⟩
  cases keepInvalid with
  | false => rfl
  | true => exact h rfl 0

/-! ## Parsing what was printed -/

namespace Grammar

variable {raw : Word → CStr} {p : ParserState σ} {t : Token} {ts : List Token}
  {keepInvalid : Bool}

/-- There is always a token after the one in hand: the text of the next part, or the token that
follows all parts. -/
theorem exists_append_cons (xs : List Token) (t : Token) (ts : List Token) :
    ∃ t' ts', xs ++ t :: ts = t' :: ts' := by
  cases xs with
  | nil => exact ⟨t, ts, rfl⟩
  | cons x xs => exact ⟨x, xs ++ t :: ts, rfl⟩

/-! ### Words and redirections -/

theorem parseArguments_tokens (ws : List Word) (ht : t.type ≠ tokWord) :
    ∀ {p : ParserState σ}, p.Sees (ws.map (wordToken raw) ++ t :: ts) →
      ∃ p', parseArguments p = .ok (ws, p') ∧ p'.Sees (t :: ts) ∧ p'.heap = p.heap := by
  induction ws with
  | nil =>
    intro p h
    have hword : p.gTok.type ≠ tokWord := by rw [h.1]; exact ht
    exact ⟨p, by rw [parseArguments, dif_neg hword], h, rfl⟩
  | cons w ws ih =>
    intro p h
    have hword : p.gTok.type = tokWord := by rw [h.1]; rfl
    have hparts : p.gTok.parts = w := by rw [h.1]; rfl
    obtain ⟨t', ts', hts⟩ := exists_append_cons (ws.map (wordToken raw)) t ts
    rw [List.map_cons, List.cons_append, hts] at h
    obtain ⟨p₁, hnext, hsees, hheap⟩ := nextToken_of_sees h
    obtain ⟨p', hrest, hsees', hheap'⟩ := ih (hts ▸ hsees)
    refine ⟨p', ?_, hsees', hheap'.trans hheap⟩
    rw [parseArguments_of_word hword, hnext, hparts]
    simp only [bind, Except.bind]
    rw [hrest]
    rfl

theorem redirectionOf_redirToken (r : Redir) :
    redirectionOf r.fd (redirToken r.type) = some (r.type, r.fd) := by
  have hfd := r.fd_ne_zero
  cases htype : r.type with
  | redirIn => rfl
  | redirOut =>
    rw [redirToken, redirectionOf, if_neg (hfd (by rw [htype]; decide))]
  | redirAppend =>
    rw [redirToken, redirectionOf, if_neg (hfd (by rw [htype]; decide))]

/-- One redirection, whatever token comes after its target. -/
theorem parseOneRedirection_tokens (r : Redir) (h : p.Sees (r.tokens raw ++ t :: ts)) :
    ∃ p', parseOneRedirection p = .ok (r.toRedirection, p') ∧ p'.Sees (t :: ts) ∧
      p'.heap = p.heap := by
  have hfd : p.gTok.type = tokFd := by rw [h.1]
  have hraw : p.gTok.rawValue = showInt r.fd.toInt := by rw [h.1]
  obtain ⟨p₁, hnext₁, hsees₁, hheap₁⟩ := nextToken_of_sees h
  obtain ⟨p₂, hnext₂, hsees₂, hheap₂⟩ := nextToken_of_sees hsees₁
  obtain ⟨p₃, hnext₃, hsees₃, hheap₃⟩ := nextToken_of_sees hsees₂
  refine ⟨p₃, ?_, hsees₃, hheap₃.trans (hheap₂.trans hheap₁)⟩
  have hparse : parseFd p = .ok (r.fd, p₁) := by
    rw [parseFd, if_pos hfd, hnext₁, hraw, toInt_strtol_showInt]
    rfl
  have hop : redirectionOf r.fd p₁.gTok.type = some (r.type, r.fd) := by
    rw [hsees₁.1]
    exact redirectionOf_redirToken r
  rw [parseOneRedirection, hparse]
  simp only [bind, Except.bind, hop, hnext₂, hsees₂.1, hnext₃]
  rfl

theorem parseRedirection_tokens (rs : List Redir) (ht : startsRedirection t.type = false) :
    ∀ {p : ParserState σ}, p.Sees (rs.flatMap (Redir.tokens raw) ++ t :: ts) →
      ∃ p', parseRedirection p = .ok (rs.map Redir.toRedirection, p') ∧ p'.Sees (t :: ts) ∧
        p'.heap = p.heap := by
  induction rs with
  | nil =>
    intro p h
    have hstart : ¬startsRedirection p.gTok.type = true := by rw [h.1, ht]; decide
    exact ⟨p, by rw [parseRedirection, if_neg hstart]; rfl, h, rfl⟩
  | cons r rs ih =>
    intro p h
    have hstart : startsRedirection p.gTok.type = true := by rw [h.1]; rfl
    obtain ⟨t', ts', hts⟩ := exists_append_cons (rs.flatMap (Redir.tokens raw)) t ts
    rw [List.flatMap_cons, List.append_assoc, hts] at h
    obtain ⟨p₁, hone, hsees, hheap⟩ := parseOneRedirection_tokens r h
    obtain ⟨p', hrest, hsees', hheap'⟩ := ih (hts ▸ hsees)
    refine ⟨p', ?_, hsees', hheap'.trans hheap⟩
    rw [parseRedirection_of_starts hstart, hone]
    simp only [bind, Except.bind]
    rw [hrest]
    rfl

/-! ### Commands and pipelines -/

/-- A token that neither continues a command nor starts a redirection. -/
def EndsCommand (type : TokenType) : Prop :=
  type ≠ tokWord ∧ startsRedirection type = false

omit [TokenSource σ] in
theorem clear_of_heap {p' : ParserState σ} (hclear : p.Clear keepInvalid)
    (hheap : p'.heap = p.heap) : p'.Clear keepInvalid := by
  rw [ParserState.Clear, hheap]
  exact hclear

/-- The command is marked exactly when the token after it is `&`. -/
theorem parseCommand_tokens (c : Command) (ht : EndsCommand t.type)
    (h : p.Sees (c.tokens raw ++ t :: ts)) (hclear : p.Clear keepInvalid) :
    ∃ node p', parseCommand p = .ok (node, p') ∧ p'.Sees (t :: ts) ∧ p'.Clear keepInvalid ∧
      node.erase keepInvalid = c.toAst (decide (t.type = tokBg)) := by
  have hword : p.gTok.type = tokWord := by rw [h.1]; rfl
  -- the words end at the first redirection, or at the token after the command
  obtain ⟨t', ts', hts⟩ := exists_append_cons (c.redirs.flatMap (Redir.tokens raw)) t ts
  have ht' : t'.type ≠ tokWord := by
    cases hr : c.redirs with
    | nil => rw [hr] at hts; cases hts; exact ht.1
    | cons r rs => rw [hr] at hts; cases hts; exact fun h ↦ nomatch h
  rw [Command.tokens, List.append_assoc, hts] at h
  obtain ⟨p₁, hargs, hsees₁, hheap₁⟩ := parseArguments_tokens _ ht' h
  obtain ⟨p₂, hredir, hsees₂, hheap₂⟩ := parseRedirection_tokens c.redirs ht.2 (hts ▸ hsees₁)
  obtain ⟨hinvalid, hclear'⟩ :=
    clear_newNode (clear_of_heap (clear_of_heap hclear hheap₁) hheap₂)
  rw [parseCommand, if_neg (not_not.mpr hword), hargs]
  simp only [bind, Except.bind, hredir]
  refine ⟨_, _, rfl, hsees₂, hclear', ?_⟩
  rw [Ast.erase, hinvalid, Command.toAst, hsees₂.1]

/-- The follow condition of a pipeline. -/
def EndsPipeline (type : TokenType) : Prop := EndsCommand type ∧ type ≠ tokPipe

/-- A command of a pipeline is followed by `|`, the last one by the token after the pipeline. -/
theorem endsCommand_after {cs : List Command} (ht : EndsPipeline t.type)
    (hts : cs.flatMap (fun c ↦ .operator tokPipe :: c.tokens raw) ++ t :: ts = t' :: ts') :
    EndsCommand t'.type ∧
      decide (t'.type = tokBg) = (decide (t.type = tokBg) && cs.isEmpty) := by
  cases cs with
  | nil =>
    cases hts
    exact ⟨ht.1, by simp⟩
  | cons c cs =>
    cases hts
    exact ⟨⟨by decide, by decide⟩, by simp⟩

theorem erase_eq_toAst_not_null {node : Ast} {isBg : Bool} {c : Command}
    (h : node.erase keepInvalid = c.toAst isBg) : node.isNull = false := by
  rw [← Ast.isNull_erase keepInvalid, h]
  rfl

theorem pipelineLoop_tokens (cs : List Command) (ht : EndsPipeline t.type) :
    ∀ {p : ParserState σ}, p.Clear keepInvalid →
      p.Sees (cs.flatMap (fun c ↦ .operator tokPipe :: c.tokens raw) ++ t :: ts) →
      ∃ nodes p', pipelineLoop p = .ok (nodes, p') ∧ p'.Sees (t :: ts) ∧ p'.Clear keepInvalid ∧
        Ast.eraseList keepInvalid nodes = commandsToAst (decide (t.type = tokBg)) cs := by
  induction cs with
  | nil =>
    intro p hclear h
    have hpipe : p.gTok.type ≠ tokPipe := by rw [h.1]; exact ht.2
    exact ⟨[], p, by rw [pipelineLoop, dif_neg hpipe], h, hclear, rfl⟩
  | cons c cs ih =>
    intro p hclear h
    have hpipe : p.gTok.type = tokPipe := by rw [h.1]
    -- the command is followed by another `|`, or by the token after the pipeline
    obtain ⟨t', ts', hts⟩ :=
      exists_append_cons (cs.flatMap fun c ↦ .operator tokPipe :: c.tokens raw) t ts
    have ht' := endsCommand_after ht hts
    rw [List.flatMap_cons, List.append_assoc, hts, List.cons_append] at h
    obtain ⟨t'', ts'', hts'⟩ := exists_append_cons (c.tokens raw) t' ts'
    rw [hts'] at h
    obtain ⟨p₁, hnext, hsees₁, hheap₁⟩ := nextToken_of_sees h
    obtain ⟨node, p₂, hcmd, hsees₂, hclear₂, hnode⟩ :=
      parseCommand_tokens c ht'.1 (hts' ▸ hsees₁) (clear_of_heap hclear hheap₁)
    obtain ⟨nodes, p', hrest, hsees', hclear', hnodes⟩ := ih hclear₂ (hts ▸ hsees₂)
    refine ⟨node :: nodes, p', ?_, hsees', hclear', ?_⟩
    · rw [pipelineLoop_of_pipe hpipe, hnext]
      simp only [bind, Except.bind]
      rw [hcmd]
      dsimp only
      rw [erase_eq_toAst_not_null hnode, hrest]
      rfl
    · rw [Ast.eraseList, hnode, hnodes, commandsToAst, ht'.2]

theorem parsePipeline_tokens (pl : Pipeline) (ht : EndsPipeline t.type)
    (h : p.Sees (pl.tokens raw ++ t :: ts)) (hclear : p.Clear keepInvalid) :
    ∃ node p', parsePipeline p = .ok (node, p') ∧ p'.Sees (t :: ts) ∧ p'.Clear keepInvalid ∧
      node.erase keepInvalid = pl.toAst (decide (t.type = tokBg)) := by
  obtain ⟨t', ts', hts⟩ :=
    exists_append_cons (pl.rest.flatMap fun c ↦ .operator tokPipe :: c.tokens raw) t ts
  have ht' := endsCommand_after ht hts
  rw [Pipeline.tokens, List.append_assoc, hts] at h
  obtain ⟨first, p₁, hcmd, hsees₁, hclear₁, hfirst⟩ := parseCommand_tokens pl.first ht'.1 h hclear
  obtain ⟨hinvalid, hclear₁'⟩ := clear_newNode hclear₁
  have hsees₁' : p₁.newNode.2.Sees (t' :: ts') := hsees₁
  obtain ⟨nodes, p', hloop, hsees', hclear', hnodes⟩ :=
    pipelineLoop_tokens pl.rest ht hclear₁' (hts ▸ hsees₁')
  rw [parsePipeline, hcmd]
  simp only [bind, Except.bind, hloop]
  rw [ht'.2] at hfirst
  cases hr : pl.rest with
  | nil =>
    rw [hr] at hnodes hfirst
    have hnil : nodes = [] := by
      cases nodes with
      | nil => rfl
      | cons n ns => cases hnodes
    rw [if_pos hnil]
    refine ⟨first, p', rfl, hsees', hclear', ?_⟩
    rw [Pipeline.toAst, if_pos hr, hfirst, List.isEmpty_nil, Bool.and_true]
  | cons c cs =>
    rw [hr] at hnodes hfirst
    have hne : nodes ≠ [] := by
      rintro rfl
      cases hnodes
    rw [if_neg hne]
    refine ⟨_, p', rfl, hsees', hclear', ?_⟩
    rw [Pipeline.toAst, if_neg (by simp [hr]), hr, Ast.erase, Ast.eraseList, hfirst, hnodes,
      hinvalid, List.isEmpty_cons, Bool.and_false]

/-! ### Chains -/

/-- The follow condition of a chain. -/
def EndsChain (type : TokenType) : Prop := EndsPipeline type ∧ condOpOf type = none

theorem condOpOf_condToken (op : CondOp) : condOpOf (condToken op) = some op := by
  cases op <;> rfl

/-- A pipeline of a chain is followed by an operator, the last one by the token after the chain. -/
theorem endsPipeline_after {rest : List (CondOp × Pipeline)} (ht : EndsChain t.type)
    (hts : rest.flatMap (fun (op, pl) ↦ .operator (condToken op) :: pl.tokens raw) ++ t :: ts
      = t' :: ts') :
    EndsPipeline t'.type ∧
      decide (t'.type = tokBg) = (decide (t.type = tokBg) && rest.isEmpty) := by
  cases rest with
  | nil =>
    cases hts
    exact ⟨ht.1, by simp⟩
  | cons opl rest =>
    obtain ⟨op, pl⟩ := opl
    cases hts
    cases op <;> exact ⟨⟨⟨by decide, by decide⟩, by decide⟩, by simp [condToken]⟩

theorem conditionalLoop_tokens (rest : List (CondOp × Pipeline)) (ht : EndsChain t.type) :
    ∀ {p : ParserState σ} (left : Ast), p.Clear keepInvalid →
      p.Sees (rest.flatMap (fun (op, pl) ↦ .operator (condToken op) :: pl.tokens raw) ++ t :: ts) →
      ∃ node p', conditionalLoop left p = .ok (node, p') ∧ p'.Sees (t :: ts) ∧
        p'.Clear keepInvalid ∧
        node.erase keepInvalid
          = chainToAst (decide (t.type = tokBg)) (left.erase keepInvalid) rest := by
  induction rest with
  | nil =>
    intro p left hclear h
    refine ⟨left, p, ?_, h, hclear, rfl⟩
    exact conditionalLoop_of_none (by rw [h.1, ht.2])
  | cons opl rest ih =>
    intro p left hclear h
    obtain ⟨op, pl⟩ := opl
    have hop : condOpOf p.gTok.type = some op := by rw [h.1]; exact condOpOf_condToken op
    obtain ⟨t', ts', hts⟩ := exists_append_cons
      (rest.flatMap fun (op, pl) ↦ .operator (condToken op) :: pl.tokens raw) t ts
    have ht' := endsPipeline_after ht hts
    rw [List.flatMap_cons, List.append_assoc, hts, List.cons_append] at h
    obtain ⟨t'', ts'', hts'⟩ := exists_append_cons (pl.tokens raw) t' ts'
    rw [hts'] at h
    obtain ⟨p₁, hnext, hsees₁, hheap₁⟩ := nextToken_of_sees h
    obtain ⟨right, p₂, hpipe, hsees₂, hclear₂, hright⟩ :=
      parsePipeline_tokens pl ht'.1 (hts' ▸ hsees₁) (clear_of_heap hclear hheap₁)
    obtain ⟨hinvalid, hclear₂'⟩ := clear_newNode hclear₂
    have hsees₂' : p₂.newNode.2.Sees (t' :: ts') := hsees₂
    obtain ⟨node, p', hrest, hsees', hclear', hnode⟩ :=
      ih (.conditional left right op p₂.newNode.1) hclear₂' (hts ▸ hsees₂')
    refine ⟨node, p', ?_, hsees', hclear', ?_⟩
    · rw [conditionalLoop_of_op hop, hnext]
      simp only [bind, Except.bind]
      rw [hpipe]
      exact hrest
    · rw [hnode, chainToAst, Ast.erase, hright, hinvalid, ht'.2]

theorem parseConditional_tokens (c : Chain) (ht : EndsChain t.type)
    (h : p.Sees (c.tokens raw ++ t :: ts)) (hclear : p.Clear keepInvalid) :
    ∃ node p', parseConditional p = .ok (node, p') ∧ p'.Sees (t :: ts) ∧ p'.Clear keepInvalid ∧
      node.erase keepInvalid = c.toAst (decide (t.type = tokBg)) := by
  obtain ⟨t', ts', hts⟩ := exists_append_cons
    (c.rest.flatMap fun (op, pl) ↦ .operator (condToken op) :: pl.tokens raw) t ts
  have ht' := endsPipeline_after ht hts
  rw [Chain.tokens, List.append_assoc, hts] at h
  obtain ⟨left, p₁, hpipe, hsees₁, hclear₁, hleft⟩ := parsePipeline_tokens c.first ht'.1 h hclear
  obtain ⟨node, p', hloop, hsees', hclear', hnode⟩ :=
    conditionalLoop_tokens c.rest ht left hclear₁ (hts ▸ hsees₁)
  rw [parseConditional, hpipe]
  refine ⟨node, p', hloop, hsees', hclear', ?_⟩
  rw [hnode, hleft, Chain.toAst, ht'.2]

/-! ### Elements and lines -/

theorem endsChain_terminator (e : Element) : EndsChain e.terminator.type := by
  cases h : e.isBg <;> rw [Element.terminator, h] <;>
    exact ⟨⟨⟨by decide, by decide⟩, by decide⟩, by decide⟩

theorem decide_terminator (e : Element) : decide (e.terminator.type = tokBg) = e.isBg := by
  cases h : e.isBg <;> rw [Element.terminator, h] <;> rfl

theorem isSeparator_terminator (e : Element) : isSeparator e.terminator.type = true := by
  cases h : e.isBg <;> rw [Element.terminator, h] <;> rfl

/-- A single separator, before a token that is not one. -/
theorem skipSeparators_one {t' : Token} (ht : isSeparator t.type = true)
    (ht' : isSeparator t'.type = false) (h : p.Sees (t :: t' :: ts)) :
    ∃ p', skipSeparators p = .ok p' ∧ p'.Sees (t' :: ts) ∧ p'.heap = p.heap := by
  obtain ⟨p', hnext, hsees, hheap⟩ := nextToken_of_sees h
  refine ⟨p', ?_, hsees, hheap⟩
  rw [skipSeparators_of_separator (by rw [h.1, ht]) hnext]
  exact skipSeparators_of_not (by rw [hsees.1, ht'])

theorem parseElement_tokens (e : Element) (t' : Token) (ht' : isSeparator t'.type = false)
    (h : p.Sees (e.tokens raw ++ t' :: ts)) (hclear : p.Clear keepInvalid) :
    ∃ node p₁ p', parseConditional p = .ok (node, p₁) ∧ skipSeparators p₁ = .ok p' ∧
      p'.Sees (t' :: ts) ∧ p'.Clear keepInvalid ∧ node.erase keepInvalid = e.toAst := by
  rw [Element.tokens, List.append_assoc] at h
  obtain ⟨node, p₁, hcond, hsees₁, hclear₁, hnode⟩ :=
    parseConditional_tokens e.chain (endsChain_terminator e) h hclear
  obtain ⟨p', hskip, hsees', hheap⟩ :=
    skipSeparators_one (isSeparator_terminator e) ht' hsees₁
  rw [decide_terminator] at hnode
  exact ⟨node, p₁, p', hcond, hskip, hsees', clear_of_heap hclear₁ hheap, hnode⟩

theorem isNull_toAst (e : Element) : e.toAst.isNull = false := by
  have hpipe : ∀ (pl : Pipeline) (b : Bool), (pl.toAst b).isNull = false := by
    intro pl b
    unfold Pipeline.toAst
    split <;> rfl
  have hchain : ∀ (b : Bool) (rest : List (CondOp × Pipeline)) (left : Ast),
      left.isNull = false → (chainToAst b left rest).isNull = false := by
    intro b rest
    induction rest with
    | nil => intro left h; exact h
    | cons opl rest ih => intro left _; exact ih _ rfl
  exact hchain _ _ _ (hpipe _ _)

/-- The first token of an element is the first word of its first command. -/
theorem tokens_eq_cons (e : Element) :
    ∃ w toks, e.tokens raw = wordToken raw w :: toks := ⟨_, _, rfl⟩

theorem sequenceLoop_tokens (rest : List Element) :
    ∀ {e : Element} {p : ParserState σ}, p.Clear keepInvalid →
      p.Sees ((e :: rest).flatMap (Element.tokens raw) ++ [.operator tokEof]) →
      ∃ nodes p', sequenceLoop p = .ok (nodes, p') ∧ p'.gTok.type = tokEof ∧
        Ast.eraseList keepInvalid nodes = (e :: rest).map Element.toAst := by
  induction rest with
  | nil =>
    intro e p hclear h
    rw [List.flatMap_cons, List.flatMap_nil, List.append_nil] at h
    obtain ⟨node, p₁, p', hcond, hskip, hsees', -, hnode⟩ :=
      parseElement_tokens e (.operator tokEof) rfl h hclear
    have hnull : node.isNull = false := by
      rw [← Ast.isNull_erase keepInvalid, hnode, isNull_toAst]
    have heof : p'.gTok.type = tokEof := by rw [hsees'.1]
    refine ⟨[node], p', ?_, heof, by rw [Ast.eraseList, hnode]; rfl⟩
    rw [sequenceLoop_element hcond hnull hskip, if_pos heof]
  | cons e' rest ih =>
    intro e p hclear h
    obtain ⟨w, toks, htoks⟩ : ∃ w toks, e'.tokens raw = wordToken raw w :: toks := tokens_eq_cons e'
    have hrest : (e' :: rest).flatMap (Element.tokens raw) ++ [.operator tokEof]
        = wordToken raw w
          :: (toks ++ (rest.flatMap (Element.tokens raw) ++ [.operator tokEof])) := by
      rw [List.flatMap_cons, htoks, List.cons_append, List.cons_append, List.append_assoc]
    rw [List.flatMap_cons, List.append_assoc, hrest] at h
    obtain ⟨node, p₁, p₂, hcond, hskip, hsees₂, hclear₂, hnode⟩ :=
      parseElement_tokens e (wordToken raw w) rfl h hclear
    obtain ⟨nodes, p', hloop, heof, hnodes⟩ := ih hclear₂ (hrest ▸ hsees₂)
    have hnull : node.isNull = false := by
      rw [← Ast.isNull_erase keepInvalid, hnode, isNull_toAst]
    refine ⟨node :: nodes, p', ?_, heof, ?_⟩
    · have hne : p₂.gTok.type ≠ tokEof := hsees₂.1 ▸ wordToken_ne_eof raw w
      rw [sequenceLoop_element hcond hnull hskip, if_neg hne, hloop]
      rfl
    · rw [Ast.eraseList, hnode, hnodes, List.map_cons, List.map_cons, List.map_cons]

theorem parserCreateAst_line (keepInvalid : Bool) (line : Line) {s : σ} (g : Token)
    {heap : ℕ → Bool} (hs : Delivers s (line.tokens raw ++ [.operator tokEof]))
    (hheap : keepInvalid = true → ∀ n, heap n = false) :
    ∃ node p', parserCreateAst ⟨s, g, heap⟩ = .ok (node, p') ∧ p'.gTok.type = tokEof ∧
      node.erase keepInvalid = line.toAst := by
  obtain ⟨w, toks, htoks⟩ : ∃ w toks, line.first.tokens raw = wordToken raw w :: toks :=
    tokens_eq_cons line.first
  have hline : line.tokens raw ++ [.operator tokEof]
      = wordToken raw w
        :: (toks ++ (line.rest.flatMap (Element.tokens raw) ++ [.operator tokEof])) := by
    rw [Line.tokens, List.flatMap_cons, htoks, List.cons_append, List.cons_append,
      List.append_assoc]
  rw [hline] at hs
  obtain ⟨s', hnext, hrest⟩ := hs
  let p₁ : ParserState σ := ⟨s', wordToken raw w, heap⟩
  have hfirst : nextToken (⟨s, g, heap⟩ : ParserState σ) = .ok p₁ := by rw [nextToken, hnext]
  have hclear₁ : p₁.Clear keepInvalid := hheap
  have hsees : p₁.newNode.2.Sees (line.tokens raw ++ [.operator tokEof]) := by
    rw [hline]
    exact ⟨rfl, hrest⟩
  obtain ⟨hinvalid, hclear⟩ := clear_newNode hclear₁
  obtain ⟨nodes, p', hloop, heof, hnodes⟩ := sequenceLoop_tokens line.rest hclear hsees
  refine ⟨.sequence nodes p₁.newNode.1, p', ?_, heof, ?_⟩
  · rw [parserCreateAst, hfirst]
    simp only [bind, Except.bind]
    rw [if_neg (wordToken_ne_eof raw w), hloop]
    rfl
  · rw [Ast.erase, hnodes, hinvalid, Line.toAst]

/-- **Parsing undoes printing.** From any source that delivers the printed tokens, the parser builds
the tree that was printed. The memory it is handed decides the `invalid` flags and nothing else: if
that memory is clear, so are they. -/
theorem parserCreateAst_tokens (line : Line) {s : σ} (g : Token) (heap : ℕ → Bool)
    (hs : Delivers s (line.tokens raw ++ [.operator tokEof])) :
    ∃ node p', parserCreateAst ⟨s, g, heap⟩ = .ok (node, p') ∧ p'.gTok.type = tokEof ∧
      node.erase false = line.toAst ∧
      ((∀ n, heap n = false) → node.erase true = line.toAst) := by
  obtain ⟨node, p', hparse, heof, hnode⟩ :=
    parserCreateAst_line false line g hs (by simp)
  refine ⟨node, p', hparse, heof, hnode, fun hheap ↦ ?_⟩
  obtain ⟨node', p'', hparse', -, hnode'⟩ :=
    parserCreateAst_line true line g hs fun _ ↦ hheap
  cases hparse.symm.trans hparse'
  exact hnode'

/-- The line `a 2>> b && c | d & a ;`, with words of one literal part, from memory full of set
flags. -/
theorem parserCreateAst_tokens_list :
    let word (c : Char) : Word := [⟨.wordLiteral, .quoteNone, [c]⟩]
    let line : Line :=
      ⟨⟨⟨⟨⟨word 'a', [], [⟨2, redirAppend, word 'b', by decide⟩]⟩, []⟩,
          [(condAnd, ⟨⟨word 'c', [], []⟩, [⟨word 'd', [], []⟩]⟩)]⟩, true⟩,
        [⟨⟨⟨⟨word 'a', [], []⟩, []⟩, []⟩, false⟩]⟩
    ∃ node p',
      parserCreateAst (σ := List Token)
        ⟨line.tokens (fun _ ↦ []) ++ [.operator tokEof], .operator tokEof, fun _ ↦ true⟩
        = .ok (node, p') ∧
      p'.gTok.type = tokEof ∧ node.erase false = line.toAst ∧
      ((∀ _ : ℕ, true = false) → node.erase true = line.toAst) :=
  parserCreateAst_tokens _ _ _ (delivers_list _)

end Grammar

end

end Novash
