import Novash.Parser.Parser

/-!
# What becomes of the words of a line

Parsing seen from the tokens: every function of the parser takes tokens off the front of the line,
and the words among them are, in order, the words of the tree it returns. So when the parser stops
at `TOK_EOF`, every word of the line is in the tree; when it stops earlier, the rest of the line is
lost.

## When it stops early

The loop over the elements of a line takes a `NULL` for the end. `parse_conditional` returns `NULL`
at any token that can begin neither a command nor one of the operators it looks for itself: a
separator, which happens at the start of the line only, and a redirection, which happens wherever a
command should stand. That is a property of pairs of adjacent tokens (`CanFollow`), and each
function of the parser carries it from the tokens before it to those after it, in both directions.
-/

namespace Novash

open Foundations TokenType

/-! ## The words of a tree and of a line -/

namespace Ast

mutual

/-- The arguments and redirection targets of a tree, from left to right. -/
def words : Ast → List Word
  | null => []
  | cmd node _ => node.argvParts ++ node.redir.map Redirection.targetParts
  | pipeline nodes _ => wordsList nodes
  | conditional left right _ _ => words left ++ words right
  | sequence nodes _ => wordsList nodes

def wordsList : List Ast → List Word
  | [] => []
  | node :: nodes => words node ++ wordsList nodes

end

theorem words_of_isNull {node : Ast} (h : node.isNull = true) : node.words = [] := by
  cases node with
  | null => rfl
  | _ => exact absurd h (by simp)

end Ast

/-- The words among some tokens. The number before a redirection operator is not a word. -/
def wordsOf (toks : List Token) : List Word :=
  toks.filterMap fun tok ↦ if tok.type = tokWord then some tok.parts else none

/-- After one of these a command is expected. -/
def opensCommand (type : TokenType) : Bool :=
  isSeparator type || type = tokAnd || type = tokOr || type = tokPipe

theorem opensCommand_of_isSeparator {type : TokenType} (h : isSeparator type = true) :
    opensCommand type = true := by
  rw [opensCommand, h]
  rfl

theorem opensCommand_of_condOpOf {type : TokenType} {op : CondOp} (h : condOpOf type = some op) :
    opensCommand type = true := by
  cases type <;> first | rfl | cases h

theorem startsRedirection_of_opensCommand {type : TokenType} (h : opensCommand type = true) :
    startsRedirection type = false := by
  cases type <;> first | rfl | exact absurd h (by decide)

/-- A separator is no operator between commands, nor the first word of one. -/
theorem kind_of_separator {type : TokenType} (h : isSeparator type = true) :
    type ≠ tokWord ∧ type ≠ tokPipe ∧ condOpOf type = none := by
  cases type <;> first | exact ⟨by decide, by decide, rfl⟩ | exact absurd h (by decide)

/-- A redirection does not stand where a command is expected. -/
def CanFollow (tok tok' : Token) : Prop :=
  opensCommand tok.type = true → startsRedirection tok'.type = false

/-- A line that begins with a command or an operator of one, and in which every redirection comes
after the words of a command. -/
structure WellPlaced (toks : List Token) : Prop where
  first : ∀ tok ∈ toks.head?, isSeparator tok.type = false ∧ startsRedirection tok.type = false
  chain : toks.IsChain CanFollow

theorem isChain_cons_of_not {tok : Token} {toks : List Token} (h : opensCommand tok.type = false) :
    (tok :: toks).IsChain CanFollow ↔ toks.IsChain CanFollow :=
  ⟨fun hc ↦ hc.tail, fun hc ↦ hc.cons fun _ _ ho ↦ absurd (h.symm.trans ho) Bool.false_ne_true⟩

/-! ## The tokens to come -/

section

variable {σ : Type} [TokenSource σ]

/-- The tokens that a source gives before `TOK_EOF`, or before it crashes. -/
def TokenSource.tokens (s : σ) : List Token :=
  match _hnext : TokenSource.next s with
  | none => []
  | some (tok, s') => if _heof : tok.type = tokEof then [] else tok :: TokenSource.tokens s'
termination_by TokenSource.size s
decreasing_by exact TokenSource.size_lt _hnext _heof

namespace ParserState

variable {p p' p'' : ParserState σ} {ws ws' : List Word}

/-- The lookahead, and what comes after it. -/
def upcoming (p : ParserState σ) : List Token :=
  if p.gTok.type = tokEof then [] else p.gTok :: TokenSource.tokens p.lex

omit [TokenSource σ] in
@[simp] theorem gTok_newNode (p : ParserState σ) : p.newNode.2.gTok = p.gTok := rfl

theorem upcoming_of_eof (h : p.gTok.type = tokEof) : p.upcoming = [] := if_pos h

theorem upcoming_of_nextToken (hp : p.gTok.type ≠ tokEof) (h : nextToken p = .ok p') :
    p.upcoming = p.gTok :: p'.upcoming := by
  unfold nextToken at h
  split at h
  · cases h
  · next tok lex hnext =>
    cases h
    rw [upcoming, if_neg hp, TokenSource.tokens, upcoming]
    split
    · next hnone => cases hnext.symm.trans hnone
    · next hsome =>
      cases hnext.symm.trans hsome
      split <;> rfl

/-- The tokens to come are in their places, relative to each other. -/
def Placed (p : ParserState σ) : Prop := p.upcoming.IsChain CanFollow

/-- A command could be expected here. -/
def Ready (p : ParserState σ) : Prop := p.Placed ∧ startsRedirection p.gTok.type = false

/-- The parser went from `p` to `p'` over tokens whose words are `ws`, and `good` before that is
`good` after it. -/
structure Reads (good : ParserState σ → Prop) (p p' : ParserState σ) (ws : List Word) : Prop where
  words : wordsOf p.upcoming = ws ++ wordsOf p'.upcoming
  iff : good p ↔ good p'

namespace Reads

variable {good : ParserState σ → Prop}

theorem refl (good : ParserState σ → Prop) (p : ParserState σ) : Reads good p p [] := ⟨rfl, Iff.rfl⟩

theorem trans (h : Reads good p p' ws) (h' : Reads good p' p'' ws') :
    Reads good p p'' (ws ++ ws') :=
  ⟨by rw [h.words, h'.words, List.append_assoc], h.iff.trans h'.iff⟩

end Reads

end ParserState

open ParserState

variable {p p' : ParserState σ} {node : Ast}

/-! ## One token -/

/-- A token of a command, after which anything may stand. -/
theorem nextToken_reads (hp : p.gTok.type ≠ tokEof) (hopens : opensCommand p.gTok.type = false)
    (h : nextToken p = .ok p') : Reads Placed p p' (wordsOf [p.gTok]) := by
  have hup := upcoming_of_nextToken hp h
  refine ⟨?_, ?_⟩
  · rw [hup, ← List.singleton_append, wordsOf, List.filterMap_append]
    rfl
  · rw [Placed, hup]
    exact isChain_cons_of_not hopens

theorem nextToken_reads_word (hword : p.gTok.type = tokWord) (h : nextToken p = .ok p') :
    Reads Placed p p' [p.gTok.parts] := by
  have hone := nextToken_reads (by rw [hword]; decide) (by rw [hword]; rfl) h
  rwa [wordsOf, List.filterMap_cons, if_pos hword, List.filterMap_nil] at hone

/-- The number or the operator of a redirection. -/
theorem nextToken_reads_redirection (hstart : startsRedirection p.gTok.type = true)
    (h : nextToken p = .ok p') : Reads Placed p p' [] := by
  have hkind : p.gTok.type ≠ tokEof ∧ opensCommand p.gTok.type = false ∧
      p.gTok.type ≠ tokWord := by
    cases ht : p.gTok.type <;> rw [ht] at hstart <;>
      first | exact ⟨by decide, rfl, by decide⟩ | exact absurd hstart (by decide)
  have hone := nextToken_reads hkind.1 hkind.2.1 h
  rwa [wordsOf, List.filterMap_cons, if_neg hkind.2.2, List.filterMap_nil] at hone

/-- An operator, after which a command is expected. -/
theorem nextToken_reads_operator (hopens : opensCommand p.gTok.type = true)
    (h : nextToken p = .ok p') : Reads Ready p p' [] := by
  have hp : p.gTok.type ≠ tokEof := fun hc ↦ by rw [hc] at hopens; exact absurd hopens (by decide)
  have hword : p.gTok.type ≠ tokWord := fun hc ↦ by
    rw [hc] at hopens; exact absurd hopens (by decide)
  have hstart := startsRedirection_of_opensCommand hopens
  have hup := upcoming_of_nextToken hp h
  refine ⟨?_, ?_⟩
  · rw [hup, wordsOf, List.filterMap_cons, if_neg hword]
    rfl
  · rw [Ready, Placed, hup]
    refine ⟨fun ⟨hchain, _⟩ ↦ ⟨hchain.tail, ?_⟩, fun hready ↦ ⟨hready.1.cons ?_, hstart⟩⟩
    · by_cases heof : p'.gTok.type = tokEof
      · rw [heof]
        rfl
      · rw [upcoming, if_neg heof] at hchain
        exact hchain.rel hopens
    · intro tok htok _
      rw [upcoming] at htok
      split_ifs at htok with heof
      · cases htok
      · cases htok
        exact hready.2

/-! ## Commands -/

theorem parseArguments_reads {ws : List Word} (h : parseArguments p = .ok (ws, p')) :
    Reads Placed p p' ws := by
  replace h := parseArguments_run h
  induction h with
  | done => exact .refl Placed _
  | word hword hnext _ ih => exact (nextToken_reads_word hword hnext).trans ih

theorem parseFd_reads {fd : Int32} (h : parseFd p = .ok (fd, p')) : Reads Placed p p' [] := by
  unfold parseFd at h
  split_ifs at h with hfd
  · obtain ⟨p₁, hnext, hres⟩ := bind_ok.mp h
    cases hres
    exact nextToken_reads_redirection (by rw [hfd]; rfl) hnext
  · cases h
    exact .refl Placed p

theorem startsRedirection_of_redirectionOf {fd : Int32} {type : TokenType}
    {r : RedirectionType × Int32} (h : redirectionOf fd type = some r) :
    startsRedirection type = true := by
  cases type <;> first | rfl | cases h

theorem parseOneRedirection_reads {r : Redirection} (h : parseOneRedirection p = .ok (r, p')) :
    Reads Placed p p' [r.targetParts] := by
  obtain ⟨⟨fd, p₁⟩, hfd, h⟩ := bind_ok.mp h
  dsimp only at h
  split at h
  · cases h
  next type fd' hop =>
  obtain ⟨p₂, hnext, h⟩ := bind_ok.mp h
  split_ifs at h with hword
  obtain ⟨p₃, hnext', h⟩ := bind_ok.mp h
  cases h
  have hoperator := nextToken_reads_redirection (startsRedirection_of_redirectionOf hop) hnext
  have htarget := nextToken_reads_word (not_not.mp hword) hnext'
  exact (parseFd_reads hfd).trans (hoperator.trans htarget)

theorem parseRedirection_reads {rs : List Redirection} (h : parseRedirection p = .ok (rs, p')) :
    Reads Placed p p' (rs.map Redirection.targetParts) ∧
      startsRedirection p'.gTok.type = false := by
  replace h := parseRedirection_run h
  induction h with
  | done hstart => exact ⟨.refl Placed _, hstart⟩
  | one _ hone _ ih =>
    obtain ⟨hreads, hstop⟩ := ih
    exact ⟨(parseOneRedirection_reads hone).trans hreads, hstop⟩

/-- A command is read whole, or it is `NULL` and nothing is read. -/
theorem parseCommand_reads (h : parseCommand p = .ok (node, p')) :
    Reads Ready p p' node.words ∧ (node.isNull = true → p' = p ∧ p.gTok.type ≠ tokWord) := by
  unfold parseCommand at h
  split_ifs at h with hword
  · cases h
    exact ⟨.refl Ready p, fun _ ↦ ⟨rfl, hword⟩⟩
  · obtain ⟨⟨ws, p₁⟩, hargs, h⟩ := bind_ok.mp h
    obtain ⟨⟨rs, p₂⟩, hredir, h⟩ := bind_ok.mp h
    cases h
    obtain ⟨hreads, hstop⟩ := parseRedirection_reads hredir
    have hall := (parseArguments_reads hargs).trans hreads
    have hstart : startsRedirection p.gTok.type = false := by
      rw [not_not.mp hword]
      rfl
    refine ⟨⟨hall.words, ?_⟩, fun hnull ↦ absurd hnull (by simp)⟩
    exact ⟨fun hr ↦ ⟨hall.iff.mp hr.1, hstop⟩, fun hr ↦ ⟨hall.iff.mpr hr.1, hstart⟩⟩

/-! ## Pipelines and conditionals -/

theorem pipelineLoop_reads {nodes : List Ast} (h : pipelineLoop p = .ok (nodes, p')) :
    Reads Ready p p' (Ast.wordsList nodes) ∧ (nodes = [] → p' = p ∧ p.gTok.type ≠ tokPipe) := by
  replace h := pipelineLoop_run h
  induction h with
  | done hpipe => exact ⟨.refl Ready _, fun _ ↦ ⟨rfl, hpipe⟩⟩
  | command hpipe hnext hcmd _ _ ih =>
    have hoperator := nextToken_reads_operator (by rw [hpipe]; rfl) hnext
    exact ⟨hoperator.trans ((parseCommand_reads hcmd).1.trans ih.1),
      fun hn ↦ absurd hn (List.cons_ne_nil _ _)⟩

theorem parsePipeline_reads (h : parsePipeline p = .ok (node, p')) :
    Reads Ready p p' node.words ∧
      (node.isNull = true →
        p'.gTok = p.gTok ∧ p.gTok.type ≠ tokWord ∧ p.gTok.type ≠ tokPipe) := by
  obtain ⟨⟨firstCommand, p₁⟩, hcmd, h⟩ := bind_ok.mp h
  obtain ⟨⟨nodes, p₂⟩, hloop, h⟩ := bind_ok.mp h
  obtain ⟨hfirst, hnull⟩ := parseCommand_reads hcmd
  obtain ⟨hrest, hnil⟩ := pipelineLoop_reads hloop
  have hall : Reads Ready p p₂ (firstCommand.words ++ Ast.wordsList nodes) :=
    hfirst.trans ⟨hrest.words, hrest.iff⟩
  dsimp only at h
  split_ifs at h with hnodes
  · cases h
    obtain ⟨rfl, hpipe⟩ := hnil hnodes
    rw [hnodes, Ast.wordsList, List.append_nil] at hall
    refine ⟨hall, fun hn ↦ ?_⟩
    obtain ⟨rfl, hword⟩ := hnull hn
    exact ⟨rfl, hword, hpipe⟩
  · cases h
    exact ⟨hall, fun hn ↦ absurd hn (by simp)⟩

theorem conditionalLoop_reads {left : Ast} (h : conditionalLoop left p = .ok (node, p')) :
    ∃ ws, node.words = left.words ++ ws ∧ Reads Ready p p' ws ∧
      (node.isNull = true → p' = p ∧ left.isNull = true ∧ condOpOf p.gTok.type = none) := by
  replace h := conditionalLoop_run h
  induction h with
  | done hop => exact ⟨[], (List.append_nil _).symm, .refl Ready _, fun hn ↦ ⟨rfl, hn, hop⟩⟩
  | @operand left p op p₁ right p₂ node p' hop hnext hright _ ih =>
    obtain ⟨ws, hws, hreads, hnull⟩ := ih
    have hoperator := (nextToken_reads_operator (opensCommand_of_condOpOf hop) hnext).trans
      (parsePipeline_reads hright).1
    refine ⟨right.words ++ ws, ?_, hoperator.trans ⟨hreads.words, hreads.iff⟩, fun hn ↦ ?_⟩
    · rw [hws, Ast.words, List.append_assoc]
    · exact absurd (hnull hn).2.1 (by simp)

theorem parseConditional_reads (h : parseConditional p = .ok (node, p')) :
    Reads Ready p p' node.words ∧
      (node.isNull = true → p'.gTok = p.gTok ∧ p.gTok.type ≠ tokWord ∧
        p.gTok.type ≠ tokPipe ∧ condOpOf p.gTok.type = none) := by
  obtain ⟨⟨left, p₁⟩, hpipe, h⟩ := bind_ok.mp h
  obtain ⟨hfirst, hleft⟩ := parsePipeline_reads hpipe
  obtain ⟨ws, hws, hreads, hnull⟩ := conditionalLoop_reads h
  refine ⟨hws ▸ hfirst.trans hreads, fun hn ↦ ?_⟩
  obtain ⟨rfl, hleftnull, hop⟩ := hnull hn
  obtain ⟨hsame, hword, hpipe⟩ := hleft hleftnull
  exact ⟨hsame, hword, hpipe, hsame ▸ hop⟩

/-! ## Lines -/

theorem skipSeparators_reads (h : skipSeparators p = .ok p') :
    Reads Ready p p' [] ∧ isSeparator p'.gTok.type = false := by
  replace h := skipSeparators_run h
  induction h with
  | done hsep => exact ⟨.refl Ready _, hsep⟩
  | separator hsep hnext _ ih =>
    obtain ⟨hreads, hstop⟩ := ih
    have hoperator := nextToken_reads_operator (opensCommand_of_isSeparator hsep) hnext
    exact ⟨hoperator.trans hreads, hstop⟩

/-- An element that is read as `NULL` begins with a redirection, unless there is none or it begins
with a separator. -/
theorem startsRedirection_of_null {type : TokenType} (heof : type ≠ tokEof)
    (hsep : isSeparator type = false) (hword : type ≠ tokWord) (hpipe : type ≠ tokPipe)
    (hop : condOpOf type = none) : startsRedirection type = true := by
  cases type <;> first | rfl | contradiction

/-- Where an element cannot begin, nothing is read. -/
theorem parseConditional_of_null (hword : p.gTok.type ≠ tokWord) (hpipe : p.gTok.type ≠ tokPipe)
    (hop : condOpOf p.gTok.type = none) : parseConditional p = .ok (.null, p.newNode.2) := by
  have hpipeline : parsePipeline p = .ok (.null, p.newNode.2) := by
    rw [parsePipeline, parseCommand, if_pos hword]
    simp only [bind, Except.bind]
    rw [pipelineLoop, dif_neg (show p.newNode.2.gTok.type ≠ tokPipe from hpipe)]
    rfl
  rw [parseConditional, hpipeline]
  simp only [bind, Except.bind]
  exact conditionalLoop_of_none hop

/-- The loop over the elements stops there, and says nothing. -/
theorem sequenceLoop_of_null (hword : p.gTok.type ≠ tokWord) (hpipe : p.gTok.type ≠ tokPipe)
    (hop : condOpOf p.gTok.type = none) : sequenceLoop p = .ok ([], p.newNode.2) :=
  sequenceLoop_of_isNull (parseConditional_of_null hword hpipe hop) rfl

theorem sequenceLoop_reads {nodes : List Ast} (heof : p.gTok.type ≠ tokEof)
    (hsep : isSeparator p.gTok.type = false) (h : sequenceLoop p = .ok (nodes, p')) :
    (p'.gTok.type = tokEof ↔ p.Ready) ∧
      wordsOf p.upcoming = Ast.wordsList nodes ++ wordsOf p'.upcoming := by
  replace h := sequenceLoop_run h
  induction h with
  | null hcond hnull =>
    obtain ⟨hreads, hnone⟩ := parseConditional_reads hcond
    obtain ⟨hsame, hword, hpipe, hop⟩ := hnone hnull
    have hstart := startsRedirection_of_null heof hsep hword hpipe hop
    refine ⟨⟨fun h ↦ absurd (hsame ▸ h) heof, fun h ↦ ?_⟩, ?_⟩
    · exact absurd (hstart.symm.trans h.2) (by decide)
    · rw [hreads.words, Ast.words_of_isNull hnull]
      rfl
  | last hcond _ hskip heof₂ =>
    have hreads := (parseConditional_reads hcond).1.trans (skipSeparators_reads hskip).1
    have hup := upcoming_of_eof heof₂
    refine ⟨⟨fun _ ↦ hreads.iff.mpr ⟨?_, by rw [heof₂]; rfl⟩, fun _ ↦ heof₂⟩, ?_⟩
    · rw [Placed, hup]
      exact .nil
    · rw [hreads.words]
      simp [Ast.wordsList]
  | element hcond _ hskip heof₂ _ ih =>
    obtain ⟨hsep₂, hnotsep⟩ := skipSeparators_reads hskip
    have hreads := (parseConditional_reads hcond).1.trans hsep₂
    obtain ⟨hiff, hwords⟩ := ih heof₂ hnotsep
    refine ⟨hiff.trans hreads.iff.symm, ?_⟩
    rw [hreads.words, hwords, Ast.wordsList]
    simp only [List.append_nil, List.append_assoc]

theorem parserCreateAst_reads {s : σ} {g : Token} {heap : ℕ → Bool}
    (h : parserCreateAst ⟨s, g, heap⟩ = .ok (node, p')) :
    (p'.gTok.type = tokEof ↔ WellPlaced (TokenSource.tokens s)) ∧
      wordsOf (TokenSource.tokens s) = node.words ++ wordsOf p'.upcoming := by
  obtain ⟨p₁, hnext, h⟩ := bind_ok.mp h
  -- the tokens of the line are those from the first lookahead on
  have htoks : TokenSource.tokens s = p₁.upcoming := by
    have hne : (Token.operator tokSemi).type ≠ tokEof := by decide
    have hup := upcoming_of_nextToken (p := ⟨s, .operator tokSemi, heap⟩) hne hnext
    rw [upcoming, if_neg hne] at hup
    exact (List.cons.inj hup).2
  rw [htoks]
  dsimp only at h
  split_ifs at h with heof
  · cases h
    have hup := upcoming_of_eof heof
    rw [hup]
    exact ⟨⟨fun _ ↦ ⟨by simp, .nil⟩, fun _ ↦ heof⟩, rfl⟩
  obtain ⟨⟨nodes, p₂⟩, hloop, h⟩ := bind_ok.mp h
  cases h
  have hhead : p₁.upcoming.head? = some p₁.gTok := by rw [upcoming, if_neg heof]; rfl
  by_cases hsep : isSeparator p₁.gTok.type = true
  · have hkind := kind_of_separator hsep
    have hstop := sequenceLoop_of_null (p := p₁.newNode.2) hkind.1 hkind.2.1 hkind.2.2
    cases hloop.symm.trans hstop
    refine ⟨⟨fun h ↦ absurd h heof, fun hw ↦ ?_⟩, rfl⟩
    exact absurd (hsep.symm.trans (hw.first p₁.gTok hhead).1) (by decide)
  · obtain ⟨hiff, hwords⟩ := sequenceLoop_reads (p := p₁.newNode.2) heof (by simpa using hsep) hloop
    refine ⟨hiff.trans ⟨fun hr ↦ ⟨?_, hr.1⟩, fun hw ↦ ⟨hw.chain, ?_⟩⟩, hwords⟩
    · rw [hhead]
      rintro tok ⟨⟩
      exact ⟨by simpa using hsep, hr.2⟩
    · exact (hw.first p₁.gTok hhead).2

end

/-! ## What is lost -/

/-- The parser has come to the end of the line, and has put every word of it into the tree, once and
in order. -/
def WordsKept (line : CStr) (node : Ast) (p' : ParserState Lexer) : Prop :=
  p'.gTok.type = tokEof ∧ node.words = wordsOf (TokenSource.tokens (Lexer.init line))

/-- A line is read to its end exactly when nothing but a command stands where a command should. -/
theorem wordsKept_iff {line : CStr} {g : Token} {heap : ℕ → Bool} {node : Ast}
    {p' : ParserState Lexer} (h : parserCreateAst ⟨Lexer.init line, g, heap⟩ = .ok (node, p')) :
    WordsKept line node p' ↔ WellPlaced (TokenSource.tokens (Lexer.init line)) := by
  obtain ⟨hiff, hwords⟩ := parserCreateAst_reads h
  refine ⟨fun hkept ↦ hiff.mp hkept.1, fun hplaced ↦ ?_⟩
  have heof := hiff.mpr hplaced
  rw [ParserState.upcoming_of_eof heof] at hwords
  exact ⟨heof, by rw [hwords, wordsOf, List.filterMap_nil, List.append_nil]⟩

theorem wordsKept_iff_redirection :
    ∃ (node : Ast) (p' : ParserState Lexer),
      parserCreateAst ⟨Lexer.init "a b > c; d".toList, .operator tokEof, fun _ ↦ false⟩
        = .ok (node, p') ∧
      WordsKept "a b > c; d".toList node p' ∧
      WellPlaced (TokenSource.tokens (Lexer.init "a b > c; d".toList)) := by
  have heval : (parserCreateAst
      (⟨Lexer.init "a b > c; d".toList, .operator tokEof, fun _ ↦ false⟩ :
        ParserState Lexer)).toOption.map (fun r ↦ (r.2.gTok.type, r.1.words))
      = some (tokEof, wordsOf (TokenSource.tokens (Lexer.init "a b > c; d".toList))) := by
    decide +kernel
  obtain ⟨⟨node, p'⟩, hparse, heq⟩ := exists_of_map_eq heval
  obtain ⟨heof, hwords⟩ := Prod.mk.inj heq
  exact ⟨node, p', hparse, ⟨heof, hwords⟩, (wordsKept_iff hparse).mp ⟨heof, hwords⟩⟩

/-- The line `;a` is not read beyond its first byte, and the parser returns all the same. -/
theorem not_wordsKept : ¬∀ (line : CStr) (g : Token) (heap : ℕ → Bool) (node : Ast)
    (p' : ParserState Lexer), parserCreateAst ⟨Lexer.init line, g, heap⟩ = .ok (node, p') →
      WordsKept line node p' := by
  intro hall
  have heval : (parserCreateAst
      (⟨Lexer.init ";a".toList, .operator tokEof, fun _ ↦ false⟩ :
        ParserState Lexer)).toOption.map (fun r ↦ r.2.gTok.type) = some tokSemi := by
    decide +kernel
  obtain ⟨⟨node, p'⟩, hparse, hsemi⟩ := exists_of_map_eq heval
  have heof := (hall _ _ _ _ _ hparse).1
  exact absurd (hsemi.symm.trans heof) (by decide)

end Novash
