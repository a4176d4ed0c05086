import Novash.Parser.SyntaxErrors

/-!
# Missing operands

`parse_command` returns `NULL` where no command begins. Only the loop of `parse_pipeline` looks at
what it returns; the first command of a pipeline, and both sides of a conditional, are stored as
they are. So a tree has parts missing when an operand is missing in the line, and of these only the
ones behind a `|` are reported.
-/

namespace Novash

open Foundations TokenType ParserState

/-! ## Trees without missing parts -/

namespace Ast

def isCommand : Ast → Bool
  | cmd _ _ => true
  | _ => false

mutual

/-- Each pipeline has two commands at least, nothing in it or beside an operator is `NULL`, and
each command has a word. -/
def Complete : Ast → Prop
  | null => False
  | cmd node _ => node.argvParts ≠ []
  | pipeline nodes _ => 2 ≤ nodes.length ∧ nodes.all isCommand = true ∧ CompleteList nodes
  | conditional left right _ _ => Complete left ∧ Complete right
  | sequence nodes _ => CompleteList nodes

def CompleteList : List Ast → Prop
  | [] => True
  | node :: nodes => Complete node ∧ CompleteList nodes

end

end Ast

/-! ## Operands in a line -/

/-- An operator has the end of a command before it and the beginning of one behind it. -/
def OperandsAround (tok tok' : Token) : Prop :=
  (joinsCommands tok.type = true → tok'.type = tokWord) ∧
    (joinsCommands tok'.type = true → tok.type = tokWord)

instance : DecidableRel OperandsAround := fun _ _ ↦ inferInstanceAs (Decidable (_ ∧ _))

/-- No operand of `|`, `&&` or `||` is missing. -/
structure OperandsPresent (toks : List Token) : Prop where
  first : ∀ tok ∈ toks.head?, joinsCommands tok.type = false
  around : toks.IsChain OperandsAround

section

variable {σ : Type} [TokenSource σ] {p p' : ParserState σ} {node : Ast}

/-- From here on no operand is missing. -/
def ParserState.Around (p : ParserState σ) : Prop := p.stream.IsChain OperandsAround

theorem around_of_takes {toks : List Token} (h : Takes p toks p') (hp : p.Around) : p'.Around := by
  rw [Around, h.stream_eq] at hp
  exact hp.right_of_append

/-- An operator that has its right operand. -/
theorem word_of_around (hjoins : joinsCommands p.gTok.type = true) (hp : p.Around)
    (h : nextToken p = .ok p') : p'.gTok.type = tokWord := by
  obtain ⟨toks, hcons⟩ := p'.stream_eq_cons
  rw [Around, (takes_of_nextToken_joins hjoins h).stream_eq, hcons] at hp
  exact (List.isChain_cons_cons.mp hp).1.1 hjoins

/-! ## What the parser builds -/

theorem complete_parseCommand (h : parseCommand p = .ok (node, p'))
    (hword : p.gTok.type = tokWord) : node.isCommand = true ∧ node.Complete := by
  rcases readsCommand_parseCommand h with ⟨hne, -⟩ | ⟨-, cmd, invalid, words, written, rfl, hreads⟩
  · exact absurd hword hne
  · refine ⟨rfl, ?_⟩
    rw [Ast.Complete, hreads.argvParts]
    intro hnil
    have hfirst := hreads.first
    rw [List.map_eq_nil_iff.mp hnil] at hfirst
    cases hfirst

/-- The commands behind a `|` are not `NULL`. -/
theorem complete_pipelineLoop {nodes : List Ast} (h : pipelineLoop p = .ok (nodes, p')) :
    nodes.all Ast.isCommand = true ∧ Ast.CompleteList nodes := by
  replace h := pipelineLoop_run h
  induction h with
  | done => exact ⟨rfl, trivial⟩
  | command _ _ hcmd hnull _ ih =>
    obtain ⟨hcommand, hcomplete⟩ := complete_parseCommand hcmd (word_of_parseCommand hcmd hnull)
    obtain ⟨hcommands, hcompletes⟩ := ih
    exact ⟨by rw [List.all_cons, hcommand, hcommands]; rfl, hcomplete, hcompletes⟩

/-- A pipeline that begins with a word. -/
theorem complete_parsePipeline (h : parsePipeline p = .ok (node, p'))
    (hword : p.gTok.type = tokWord) : node.Complete := by
  obtain ⟨⟨firstCommand, p₁⟩, hcmd, h⟩ := bind_ok.mp h
  obtain ⟨⟨nodes, p₂⟩, hloop, h⟩ := bind_ok.mp h
  obtain ⟨hcommand, hcomplete⟩ := complete_parseCommand hcmd hword
  obtain ⟨hcommands, hcompletes⟩ := complete_pipelineLoop hloop
  dsimp only at h
  split_ifs at h with hnil
  · cases h
    exact hcomplete
  · cases h
    refine ⟨?_, by rw [List.all_cons, hcommand, hcommands]; rfl, hcomplete, hcompletes⟩
    have hpos := List.length_pos_of_ne_nil hnil
    rw [List.length_cons]
    omega

theorem complete_conditionalLoop {left : Ast} (hleft : left.Complete) (hp : p.Around)
    (h : conditionalLoop left p = .ok (node, p')) : node.Complete := by
  replace h := conditionalLoop_run h
  induction h with
  | done => exact hleft
  | operand hop hnext hright _ ih =>
    have hjoins := joinsCommands_of_condOpOf hop
    have hone := takes_of_nextToken_joins hjoins hnext
    obtain ⟨toks, htakes⟩ := takes_of_joined (calls_parsePipeline hright).2.1
    have hcomplete := complete_parsePipeline hright (word_of_around hjoins hp hnext)
    exact ih ⟨hleft, hcomplete⟩ (around_of_takes (hone.trans htakes).newNode hp)

theorem complete_parseConditional (h : parseConditional p = .ok (node, p'))
    (hword : p.gTok.type = tokWord) (hp : p.Around) : node.Complete := by
  obtain ⟨⟨left, p₁⟩, hleft, h⟩ := bind_ok.mp h
  obtain ⟨toks, htakes⟩ := takes_of_joined (calls_parsePipeline hleft).2.1
  exact complete_conditionalLoop (complete_parsePipeline hleft hword) (around_of_takes htakes hp) h

/-- An element that is not `NULL` begins with a word, unless its first operand is missing. -/
theorem word_of_parseConditional (h : parseConditional p = .ok (node, p'))
    (hnull : node.isNull = false) (hjoins : joinsCommands p.gTok.type = false) :
    p.gTok.type = tokWord := by
  by_contra hword
  have hkind : p.gTok.type ≠ tokPipe ∧ condOpOf p.gTok.type = none := by
    cases ht : p.gTok.type <;> rw [ht] at hjoins <;>
      first | exact ⟨by decide, rfl⟩ | exact absurd hjoins (by decide)
  cases h.symm.trans (parseConditional_of_null hword hkind.1 hkind.2)
  cases hnull

/-- Behind separators, too, no operator stands without its left operand. -/
theorem not_joins_of_skipSeparators (h : skipSeparators p = .ok p')
    (hjoins : joinsCommands p.gTok.type = false) (hp : p.Around) :
    joinsCommands p'.gTok.type = false := by
  obtain ⟨seps, htakes, -, -, hseps⟩ := takes_skipSeparators h
  cases hlast : seps.getLast? with
  | none =>
    rw [List.getLast?_eq_none_iff.mp hlast] at htakes
    rw [htakes.gTok_eq]
    exact hjoins
  | some sep =>
    rw [Around, htakes.stream_eq, List.isChain_append] at hp
    have haround := hp.2.2 sep hlast p'.gTok p'.head?_stream
    by_contra hc
    have hword := haround.2 (by simpa using hc)
    have hsep := hseps sep (List.mem_of_getLast? hlast)
    rw [hword] at hsep
    exact absurd hsep (by decide)

theorem complete_sequenceLoop {nodes : List Ast} (hjoins : joinsCommands p.gTok.type = false)
    (hp : p.Around) (h : sequenceLoop p = .ok (nodes, p')) : Ast.CompleteList nodes := by
  replace h := sequenceLoop_run h
  induction h with
  | null => exact trivial
  | last hcond hnull =>
    have hword := word_of_parseConditional hcond hnull hjoins
    exact ⟨complete_parseConditional hcond hword hp, trivial⟩
  | element hcond hnull hskip _ _ ih =>
    have hword := word_of_parseConditional hcond hnull hjoins
    obtain ⟨-, hjoined, hstop⟩ := calls_parseConditional hcond
    obtain ⟨toks, htakes⟩ := takes_of_joined hjoined
    obtain ⟨seps, hseps, -⟩ := takes_skipSeparators hskip
    have hp₁ := around_of_takes htakes hp
    exact ⟨complete_parseConditional hcond hword hp,
      ih (not_joins_of_skipSeparators hskip hstop hp₁) (around_of_takes hseps hp₁)⟩

theorem complete_parserCreateAst {s : σ} {g : Token} {heap : ℕ → Bool}
    (hops : OperandsPresent (TokenSource.stream s))
    (h : parserCreateAst ⟨s, g, heap⟩ = .ok (node, p')) (hnull : node.isNull = false) :
    node.Complete := by
  obtain ⟨p₁, hnext, h⟩ := bind_ok.mp h
  rw [stream_line hnext] at hops
  split_ifs at h
  · cases h
    cases hnull
  · obtain ⟨⟨nodes, p₂⟩, hloop, h⟩ := bind_ok.mp h
    cases h
    exact complete_sequenceLoop (p := p₁.newNode.2) (hops.first _ p₁.head?_stream) hops.around hloop

end

/-! ## Lines -/

/-- What is parsed has no parts missing, and a line with an operand missing is not parsed: the
parser prints an error and exits. -/
structure OperandsChecked (line : CStr) (g : Token) (heap : ℕ → Bool) : Prop where
  complete : ∀ {node : Ast} {p' : ParserState Lexer},
    parserCreateAst ⟨Lexer.init line, g, heap⟩ = .ok (node, p') → node.isNull = false →
      node.Complete
  reported : ¬OperandsPresent (TokenSource.stream (Lexer.init line)) →
    ∃ error, parserCreateAst ⟨Lexer.init line, g, heap⟩ = .error (.exit error)

/-- Missing operands are noticed exactly on the lines without any, and on those in which a `|` or
the operator of a redirection has no word behind it, in the part that is looked at. -/
theorem operandsChecked_iff (line : CStr) (g : Token) (heap : ℕ → Bool) :
    OperandsChecked line g heap ↔
      OperandsPresent (TokenSource.stream (Lexer.init line)) ∨
        ¬(lookedAt (TokenSource.stream (Lexer.init line))).IsChain WordIfNeeded := by
  have houtcome := parserCreateAst_outcome (Lexer.init line) g heap
  constructor
  · intro h
    by_cases hops : OperandsPresent (TokenSource.stream (Lexer.init line))
    · exact Or.inl hops
    obtain ⟨error, herror⟩ := h.reported hops
    have hfails := houtcome.of_error herror
    cases error with
    | unexpectedToken => exact hfails.elim
    | expectedFilename => exact Or.inr hfails
    | expectedCommand => exact Or.inr hfails
  · intro hcond
    refine ⟨fun {node p'} hparse hnull ↦ ?_, fun hops ↦ ?_⟩
    · have hops := hcond.resolve_right (not_not.mpr (houtcome.of_ok hparse))
      exact complete_parserCreateAst hops hparse hnull
    · have hcomplains := hcond.resolve_left hops
      cases hparse : parserCreateAst ⟨Lexer.init line, g, heap⟩ with
      | ok r => exact absurd (houtcome.of_ok hparse) hcomplains
      | error e =>
        cases e with
        | exit error => exact ⟨error, rfl⟩
        | crash => exact absurd (houtcome.of_error hparse).2 hcomplains

/-- The line `a &&` is parsed, with `NULL` on the right of the operator. -/
theorem not_operandsChecked :
    ¬∀ (line : CStr) (g : Token) (heap : ℕ → Bool), OperandsChecked line g heap := by
  intro hall
  have hmissing : ¬OperandsPresent (TokenSource.stream (Lexer.init "a &&".toList)) := fun h ↦
    absurd h.around (by decide +kernel)
  obtain ⟨error, herror⟩ := (hall "a &&".toList (.operator tokEof) fun _ ↦ false).reported hmissing
  have heval : (parserCreateAst
      (⟨Lexer.init "a &&".toList, .operator tokEof, fun _ ↦ false⟩ :
        ParserState Lexer)).toOption.map (fun r ↦ r.2.gTok.type) = some tokEof := by
    decide +kernel
  rw [herror] at heval
  cases heval

end Novash
