import Novash.Expander.Expander
import Novash.Lexer.Reading
import Novash.Parser.Print

/-!
# Any argument vector can be written

The way back from arguments to a line: put a backslash before every byte that could mean something
to the lexer, and a space between the arguments. `parse_argvLine` says that lexing, parsing and
expanding that line gives the arguments again, one `NODE_CMD` and nothing else.

The letters after a backslash that stand for control bytes are not among the quoted bytes, so
`unescape` gives every quoted byte back. A quoted argument is one literal part in the lexer's eyes,
and one literal part is what `expand_argv_parts` passes on without a look at the directory.
-/

namespace Novash

open Foundations TokenType WordPartType QuoteContext

/-! ## Quoting -/

/-- The bytes that get a backslash. -/
def needsQuoting (c : Char) : Bool :=
  isspace c || c ∈ ['|', '&', ';', '<', '>', '$', '*', '?', '[', '\'', '"', '\\', '~']

def quoteByte (c : Char) : CStr := if needsQuoting c then ['\\', c] else [c]

def quoteArg (s : CStr) : CStr := s.flatMap quoteByte

def argvLine (args : List CStr) : CStr := [' '].intercalate (args.map quoteArg)

theorem quoteArg_cons (c : Char) (s : CStr) : quoteArg (c :: s) = quoteByte c ++ quoteArg s :=
  List.flatMap_cons

theorem argvLine_cons (s : CStr) (args : List CStr) :
    argvLine (s :: args) = quoteArg s ++ args.flatMap fun s ↦ ' ' :: quoteArg s := by
  induction args generalizing s with
  | nil => simp [argvLine, List.intercalate]
  | cons s' args ih =>
    have hcons : argvLine (s :: s' :: args) = quoteArg s ++ ' ' :: argvLine (s' :: args) := by
      simp [argvLine, List.intercalate]
    rw [hcons, ih, List.flatMap_cons, List.cons_append]

/-- No control byte has a quoted letter. -/
theorem unescape_of_needsQuoting {c : Char} (hc : needsQuoting c = true) : unescape c = c := by
  unfold unescape
  split_ifs with h h h h h h h
  all_goals first
    | rfl
    | exact absurd (h ▸ hc) (by decide)

theorem plainIn_of_not_needsQuoting {c : Char} (hnul : c ≠ '\x00')
    (hc : needsQuoting c = false) : PlainIn quoteNone c := by
  simp only [needsQuoting, Bool.or_eq_false_iff, decide_eq_false_iff_not, List.mem_cons,
    List.not_mem_nil, or_false, not_or] at hc
  refine ⟨hnul, ?_, fun h ↦ absurd h (by tauto)⟩
  simp [endsLiteral, isWordChar, isMetaChar, isExpansionChar, isGlobChar, hc]

/-! ## Lexing a quoted argument -/

/-- The lexer stores the byte itself, whether or not it is quoted. -/
theorem literalLoop_quoteByte {c : Char} (hnul : c ≠ '\x00') {buf : LiteralBuf} {lex : Lexer}
    {t : CStr} (hr : lex.rest = quoteByte c ++ t) :
    literalLoop quoteNone buf lex
      = literalLoop quoteNone (buf.push c) (lex.skip (quoteByte c).length) := by
  unfold quoteByte at hr ⊢
  by_cases hc : needsQuoting c = true
  · rw [if_pos hc] at hr ⊢
    rw [literalLoop_escape hr (by decide), unescape_of_needsQuoting hc]
    rfl
  · rw [if_neg hc] at hr ⊢
    exact literalLoop_plain hr (plainIn_of_not_needsQuoting hnul (Bool.not_eq_true _ ▸ hc))

theorem literalLoop_quoteArg {s t : CStr} (hs : NulFree s) :
    ∀ {buf : LiteralBuf} {lex : Lexer}, lex.rest = quoteArg s ++ t →
      literalLoop quoteNone buf lex
        = literalLoop quoteNone (s.foldl LiteralBuf.push buf) (lex.skip (quoteArg s).length) := by
  induction s with
  | nil => intro buf lex _; rfl
  | cons c s ih =>
    intro buf lex hr
    rw [quoteArg_cons, List.append_assoc] at hr
    rw [literalLoop_quoteByte (fun h ↦ hs (h ▸ List.mem_cons_self)) hr,
      ih (fun h ↦ hs (List.mem_cons_of_mem c h)) (Lexer.rest_skip_of_append hr), Lexer.skip_skip,
      List.foldl_cons, quoteArg_cons, List.length_append]

/-- What may follow a quoted argument: the end of the line, or the space before the next one. -/
def EndsArg (t : CStr) : Prop := t = [] ∨ ∃ t', t = ' ' :: t'

/-- A quoted argument starts a word, and its first byte starts a literal part. -/
theorem quoteArg_head {s : CStr} (hne : s ≠ []) (hs : NulFree s) :
    ∃ c t, quoteArg s = c :: t ∧ c ≠ '\x00' ∧ isspace c = false ∧ isMetaChar c = false ∧
      StartsLiteral quoteNone c := by
  obtain ⟨c, s, rfl⟩ := List.exists_cons_of_ne_nil hne
  rw [quoteArg_cons, quoteByte]
  by_cases hc : needsQuoting c = true
  · rw [if_pos hc]
    exact ⟨'\\', c :: quoteArg s, rfl, by decide, by decide, by decide, by decide, by decide,
      by decide, by decide, by decide⟩
  · rw [if_neg hc]
    refine ⟨c, quoteArg s, rfl, fun h ↦ hs (h ▸ List.mem_cons_self), ?_⟩
    simp only [needsQuoting, Bool.or_eq_true, decide_eq_true_eq, List.mem_cons, List.not_mem_nil,
      or_false, not_or] at hc
    simp [isMetaChar, StartsLiteral, isGlobChar, hc]

/-- The token of a quoted argument: one word of one literal part. -/
def argToken (s : CStr) : Token := ⟨tokWord, quoteArg s, [⟨wordLiteral, quoteNone, s⟩]⟩

theorem lexerNextToken_quoteArg {s t : CStr} {lex : Lexer} (hne : s ≠ []) (hs : NulFree s)
    (hr : lex.rest = quoteArg s ++ t) (ht : EndsArg t) :
    lexerNextToken lex = some (argToken s, lex.skip (quoteArg s).length) := by
  obtain ⟨c, u, hhead, hnul, hspace, hmeta, hstart⟩ := quoteArg_head hne hs
  have hr' : lex.rest = c :: (u ++ t) := by rw [hr, hhead, List.cons_append]
  have hrest := Lexer.rest_skip_of_append hr
  have hloop : literalLoop quoteNone .empty lex
      = (s.foldl LiteralBuf.push .empty, lex.skip (quoteArg s).length) := by
    rw [literalLoop_quoteArg hs hr]
    rcases ht with rfl | ⟨t', rfl⟩
    · exact literalLoop_nil hrest
    · exact literalLoop_end hrest (by decide)
  have hword : wordLoop [] quoteNone lex
      = some ([⟨wordLiteral, quoteNone, s⟩], lex.skip (quoteArg s).length) := by
    rw [wordLoop_part hr' hnul (by simp [endsWord, hspace, hmeta])
      (lexNextWordPart_literal hr' hstart hs hloop), putPart,
      if_pos (List.length_pos_of_ne_nil hne), List.nil_append]
    rcases ht with rfl | ⟨t', rfl⟩
    · exact wordLoop_nil hrest
    · exact wordLoop_end hrest rfl
  have hnext : (lex.skip (quoteArg s).length).peek ≠ '<' ∧
      (lex.skip (quoteArg s).length).peek ≠ '>' := by
    rcases ht with rfl | ⟨t', rfl⟩
    · rw [Lexer.peek_of_rest_nil hrest]
      decide
    · rw [Lexer.peek_of_rest hrest]
      decide
  rw [lexerNextToken_word hr' hspace hmeta hnul hword hnext, argToken]
  have hraw : lex.xstrdupN lex.pos ((lex.skip (quoteArg s).length).pos - lex.pos) = quoteArg s := by
    rw [Lexer.xstrdupN, Lexer.skip, Nat.add_sub_cancel_left, ← Lexer.rest, hr, List.take_left]
  rw [hraw]

/-- The arguments after the first, each with its space. -/
theorem delivers_args {args : List CStr} (hargs : ∀ s ∈ args, s ≠ [] ∧ NulFree s) :
    ∀ {lex : Lexer}, lex.rest = (args.flatMap fun s ↦ ' ' :: quoteArg s) →
      Delivers lex (args.map argToken ++ [.operator tokEof]) := by
  induction args with
  | nil => intro lex hr; exact ⟨lex, lexerNextToken_eof hr, trivial⟩
  | cons s args ih =>
    intro lex hr
    obtain ⟨hne, hs⟩ := hargs s List.mem_cons_self
    rw [List.flatMap_cons, List.cons_append] at hr
    have hr₁ := Lexer.rest_skip_one hr
    have ht : EndsArg (args.flatMap fun s ↦ ' ' :: quoteArg s) := by
      cases args with
      | nil => exact Or.inl rfl
      | cons s' args => exact Or.inr ⟨_, rfl⟩
    refine ⟨(lex.skip 1).skip (quoteArg s).length, ?_,
      ih (fun s' hs' ↦ hargs s' (List.mem_cons_of_mem s hs')) (Lexer.rest_skip_of_append hr₁)⟩
    exact (lexerNextToken_space hr (by decide)).trans (lexerNextToken_quoteArg hne hs hr₁ ht)

theorem delivers_argvLine {s : CStr} {args : List CStr}
    (hargs : ∀ s' ∈ s :: args, s' ≠ [] ∧ NulFree s') :
    Delivers (Lexer.init (argvLine (s :: args)))
      ((s :: args).map argToken ++ [.operator tokEof]) := by
  obtain ⟨hne, hs⟩ := hargs s List.mem_cons_self
  have hr : (Lexer.init (argvLine (s :: args))).rest
      = quoteArg s ++ args.flatMap fun s ↦ ' ' :: quoteArg s := argvLine_cons s args
  have ht : EndsArg (args.flatMap fun s ↦ ' ' :: quoteArg s) := by
    cases args with
    | nil => exact Or.inl rfl
    | cons s' args => exact Or.inr ⟨_, rfl⟩
  exact ⟨_, lexerNextToken_quoteArg hne hs hr ht,
    delivers_args (fun s' hs' ↦ hargs s' (List.mem_cons_of_mem s hs'))
      (Lexer.rest_skip_of_append hr)⟩

/-! ## Parsing and expanding the line -/

section

variable {σ : Type} [TokenSource σ]

open Grammar

/-- A line of one command and nothing after it. -/
theorem parserCreateAst_command {raw : Word → CStr} (c : Grammar.Command) {s : σ} (g : Token)
    (heap : ℕ → Bool) (hs : Delivers s (c.tokens raw ++ [.operator tokEof])) :
    ∃ node invalid invalid' p', parserCreateAst ⟨s, g, heap⟩ =
        .ok (.sequence [.cmd node invalid] invalid', p') ∧
      node.argvParts = c.first :: c.args ∧ node.redir = c.redirs.map Redir.toRedirection ∧
      node.isBg = false ∧ ((∀ n, heap n = false) → invalid = false ∧ invalid' = false) := by
  let chain : Grammar.Chain := ⟨⟨c, []⟩, []⟩
  have hchain : chain.tokens raw = c.tokens raw := by
    simp [chain, Grammar.Chain.tokens, Grammar.Pipeline.tokens]
  obtain ⟨s', hnext, hrest⟩ := hs
  let p₁ : ParserState σ := ⟨s', wordToken raw c.first, heap⟩
  have hfirst : nextToken (⟨s, g, heap⟩ : ParserState σ) = .ok p₁ := by rw [nextToken, hnext]
  have hsees : p₁.newNode.2.Sees (chain.tokens raw ++ [.operator tokEof]) := by
    rw [hchain]
    exact ⟨rfl, hrest⟩
  -- the flags are compared when the memory is clear, and forgotten when it is not
  have hparse : ∀ keepInvalid, p₁.newNode.2.Clear keepInvalid →
      ∃ node p', parseConditional p₁.newNode.2 = .ok (node, p') ∧ p'.gTok.type = tokEof ∧
        node.erase keepInvalid = c.toAst false := by
    intro keepInvalid hclear
    obtain ⟨node, p', hcond, hsees', -, hnode⟩ := parseConditional_tokens chain
      (t := .operator tokEof) ⟨⟨⟨by decide, by decide⟩, by decide⟩, by decide⟩ hsees hclear
    exact ⟨node, p', hcond, by rw [hsees'.1], hnode⟩
  obtain ⟨ast, p', hcond, heof, hast⟩ := hparse false fun h ↦ absurd h Bool.false_ne_true
  obtain ⟨node, invalid, rfl⟩ : ∃ node invalid, ast = .cmd node invalid := by
    cases ast with
    | cmd node invalid => exact ⟨node, invalid, rfl⟩
    | _ => cases hast
  have hskip : skipSeparators p' = .ok p' := skipSeparators_of_not (by rw [heof]; rfl)
  have hloop : sequenceLoop p₁.newNode.2 = .ok ([.cmd node invalid], p') := by
    rw [sequenceLoop_element hcond (by simp) hskip, if_pos heof]
  have hnode := (Ast.cmd.inj hast).1
  refine ⟨node, invalid, p₁.newNode.1, p', ?_, congrArg CmdNode.argvParts hnode,
    congrArg CmdNode.redir hnode, congrArg CmdNode.isBg hnode, fun hheap ↦ ?_⟩
  · rw [parserCreateAst, hfirst]
    simp only [bind, Except.bind]
    rw [if_neg (wordToken_ne_eof raw c.first), hloop]
    rfl
  · obtain ⟨ast', p'', hcond', -, hast'⟩ := hparse true fun _ n ↦ hheap (n + 1)
    cases hcond.symm.trans hcond'
    exact ⟨(Ast.cmd.inj hast').2, hheap 0⟩

end

/-- Words of one literal part each are passed on as they stand. -/
theorem expandArgvParts_literals (env : ExpandEnv) (quote : QuoteContext) (args : List CStr) :
    expandArgvParts env (args.map fun s ↦ [⟨wordLiteral, quote, s⟩]) = .ok args := by
  induction args with
  | nil => rfl
  | cons s args ih =>
    rw [List.map_cons, expandArgvParts, ih]
    rfl

theorem expanderExpandCmd_ok {env : ExpandEnv} {node : CmdNode} {argv : List CStr} (invalid : Bool)
    (hne : node.argvParts ≠ []) (hargv : expandArgvParts env node.argvParts = .ok argv)
    (hredir : node.redir = []) :
    expanderExpandCmd env node invalid = ({ node with argv := some argv }, invalid) := by
  rw [expanderExpandCmd, if_neg hne, hargv, hredir]
  simp only [expandInto, expandRedir, ← hredir]

/-- **Any argument vector can be written.** The quoted line of a non-empty list of non-empty
NUL-free strings is a sequence of one command, and expanding it gives the command exactly these
arguments. Neither step touches the flags of the two nodes, which are what the memory held. -/
theorem parse_argvLine (env : ExpandEnv) (args : List CStr) (g : Token) (heap : ℕ → Bool)
    (hne : args ≠ []) (hargs : ∀ s ∈ args, s ≠ [] ∧ NulFree s) :
    ∃ node invalid invalid' p',
      parserCreateAst ⟨Lexer.init (argvLine args), g, heap⟩ =
        .ok (.sequence [.cmd node invalid] invalid', p') ∧
      expanderExpandAst env (.sequence [.cmd node invalid] invalid') =
        .sequence [.cmd { node with argv := some args } invalid] invalid' ∧
      node.redir = [] ∧ node.isBg = false ∧
      ((∀ n, heap n = false) → invalid = false ∧ invalid' = false) := by
  obtain ⟨s, args, rfl⟩ := List.exists_cons_of_ne_nil hne
  let word : CStr → Word := fun s ↦ [⟨wordLiteral, quoteNone, s⟩]
  let raw : Word → CStr := fun w ↦ quoteArg (w.map WordPart.value).flatten
  let c : Grammar.Command := ⟨word s, args.map word, []⟩
  have htokens : c.tokens raw = (s :: args).map argToken := by
    simp [c, word, raw, Grammar.Command.tokens, Grammar.wordToken, argToken]
  have hdelivers : Delivers (Lexer.init (argvLine (s :: args)))
      (c.tokens raw ++ [.operator tokEof]) := htokens ▸ delivers_argvLine hargs
  obtain ⟨node, invalid, invalid', p', hparse, hparts, hredir, hbg, hclear⟩ :=
    parserCreateAst_command c g heap hdelivers
  have hargv : expandArgvParts env node.argvParts = .ok (s :: args) := by
    rw [hparts]
    exact expandArgvParts_literals env quoteNone (s :: args)
  refine ⟨node, invalid, invalid', p', hparse, ?_, hredir, hbg, hclear⟩
  rw [expanderExpandAst, expanderExpandList, expanderExpandList, expanderExpandAst,
    expanderExpandCmd_ok invalid (by rw [hparts]; exact List.cons_ne_nil _ _) hargv hredir]

/-- The three arguments `a b`, `$*` and a tilde, with every flag in the memory set. -/
theorem parse_argvLine_special :
    let args : List CStr := [['a', ' ', 'b'], ['$', '*'], ['~']]
    ∃ node invalid invalid' p',
      parserCreateAst ⟨Lexer.init (argvLine args), .operator tokEof, fun _ ↦ true⟩ =
        .ok (.sequence [.cmd node invalid] invalid', p') ∧
      expanderExpandAst emptyDirectory (.sequence [.cmd node invalid] invalid') =
        .sequence [.cmd { node with argv := some args } invalid] invalid' ∧
      node.redir = [] ∧ node.isBg = false ∧
      ((∀ _ : ℕ, true = false) → invalid = false ∧ invalid' = false) :=
  parse_argvLine emptyDirectory _ _ (fun _ ↦ true) (by decide) (by decide)

end Novash
