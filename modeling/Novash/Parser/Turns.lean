import Novash.Parser.SyntaxErrors

/-!
# The loops of the parser end

Each turn of a loop takes at least one token, but for the turn of the loop over the elements in
which `parse_conditional` returns `NULL`: that one takes nothing, and it is the last. The parser
therefore returns on every line that the lexer gets through, or exits with one of two messages.
-/

namespace Novash

open Foundations TokenType ParserState

section

variable {σ : Type} [TokenSource σ]

/-- One turn of a loop, from the parser before it to the parser after it. -/
inductive LoopTurn : ParserState σ → ParserState σ → Prop
  | argument {p p' : ParserState σ} (hword : p.gTok.type = tokWord) (hnext : nextToken p = .ok p') :
      LoopTurn p p'
  | redirection {p p' : ParserState σ} {r : Redirection}
      (hstart : startsRedirection p.gTok.type = true) (hone : parseOneRedirection p = .ok (r, p')) :
      LoopTurn p p'
  | pipeline {p p' : ParserState σ} {c : ParseCall σ} (hturn : pipelineTurn p = some (c, p')) :
      LoopTurn p p'
  | conditional {p p' : ParserState σ} {c : ParseCall σ}
      (hturn : conditionalTurn p = some (c, p')) : LoopTurn p p'
  | separator {p p' : ParserState σ} (hsep : isSeparator p.gTok.type = true)
      (hnext : nextToken p = .ok p') : LoopTurn p p'
  | element {p p' : ParserState σ} {c : ParseCall σ} (hturn : sequenceTurn p = some (c, p')) :
      LoopTurn p p'
  | noElement {p p' : ParserState σ} {node : Ast} (hcond : parseConditional p = .ok (node, p'))
      (hnull : node.isNull = true) : LoopTurn p p'

/-- At least one token is taken. -/
def Consumes (p p' : ParserState σ) : Prop := ∃ tok toks, Takes p (tok :: toks) p'

/-- The loop over the elements finds no further one: nothing is taken, and the loop ends. -/
def GivesUp (p p' : ParserState σ) : Prop := Takes p [] p' ∧ sequenceLoop p = .ok ([], p')

variable {p p' : ParserState σ} {node : Ast}

theorem left_of_takes_nil (h : Takes p [] p') : p'.left = p.left := by
  cases h with
  | refl hlex htok => rw [left, left, hlex, htok]

theorem consumes_of_left_lt {toks : List Token} (h : Takes p toks p') (hlt : p'.left < p.left) :
    Consumes p p' := by
  cases toks with
  | nil => exact absurd (left_of_takes_nil h) hlt.ne
  | cons tok toks => exact ⟨tok, toks, h⟩

/-- Every turn makes progress, or is the last one of its loop. -/
theorem consumes_or_givesUp (h : LoopTurn p p') : Consumes p p' ∨ GivesUp p p' := by
  cases h with
  | argument hword hnext =>
    exact Or.inl ⟨_, [], .of_nextToken (by rw [hword]; decide) hnext⟩
  | redirection hstart hone =>
    obtain ⟨w, htakes, -⟩ := takes_parseOneRedirection hone
    exact Or.inl (consumes_of_left_lt htakes (left_parseOneRedirection_lt hone))
  | pipeline hturn =>
    obtain ⟨hpipe, hnext, hcmd, -, hafter⟩ := pipelineTurn_eq_some.mp hturn
    obtain ⟨toks, htakes⟩ := takes_parseCommand hcmd
    have hone := Takes.of_nextToken (by rw [hpipe]; decide) hnext
    rw [hafter]
    exact Or.inl ⟨_, toks, hone.trans htakes⟩
  | conditional hturn =>
    obtain ⟨⟨op, hop⟩, hnext, hpipeline, hafter⟩ := conditionalTurn_eq_some.mp hturn
    obtain ⟨toks, htakes⟩ := takes_of_joined (calls_parsePipeline hpipeline).2.1
    have hone := takes_of_nextToken_joins (joinsCommands_of_condOpOf hop) hnext
    rw [hafter]
    exact Or.inl ⟨_, toks, (hone.trans htakes).newNode⟩
  | separator hsep hnext =>
    exact Or.inl ⟨_, [], .of_nextToken (ne_tokEof_of_isSeparator hsep) hnext⟩
  | element hturn =>
    obtain ⟨-, hcond, -, hskip⟩ := sequenceTurn_eq_some.mp hturn
    obtain ⟨toks, htakes⟩ := takes_of_joined (calls_parseConditional hcond).2.1
    obtain ⟨seps, hseps, -⟩ := takes_skipSeparators hskip
    exact Or.inl (consumes_of_left_lt (htakes.trans hseps) (left_sequenceTurn hturn))
  | noElement hcond hnull =>
    refine Or.inr ⟨?_, sequenceLoop_of_isNull hcond hnull⟩
    rw [eq_of_parseConditional hcond hnull]
    exact .refl rfl rfl

/-- A number is followed by an operator. -/
theorem isChain_stream [FdSource σ] (s : σ) : (TokenSource.stream s).IsChain fun tok tok' ↦
    tok.type = tokFd → isRedirectionOperator tok'.type = true := by
  fun_induction TokenSource.stream s with
  | case1 => exact .nil
  | case2 => exact .singleton _
  | case3 s tok s' hnext heof ih =>
    refine ih.cons fun tok' htok' hfd ↦ ?_
    obtain ⟨tok'', s'', hnext', hop⟩ := FdSource.followed hnext hfd
    have hhead : (TokenSource.stream s').head? = some tok'' := by
      rw [TokenSource.stream]
      split
      · next hnone => cases hnext'.symm.trans hnone
      · next hsome =>
        cases hnext'.symm.trans hsome
        split <;> rfl
    cases hhead.symm.trans htok'
    exact hop

end

/-- On a line that the lexer gets through, the parser returns or exits with one of two messages; the
message for a number without an operator is never printed, for every number of the line has one;
and every turn of a loop takes a token, unless it is the last one of the loop over the elements. -/
theorem parserCreateAst_terminates {line : CStr} (h : TokenSource.Ends (Lexer.init line))
    (g : Token) (heap : ℕ → Bool) :
    ((∃ node p', parserCreateAst ⟨Lexer.init line, g, heap⟩ = .ok (node, p')) ∨
      parserCreateAst ⟨Lexer.init line, g, heap⟩ = .error (.exit .expectedFilename) ∨
      parserCreateAst ⟨Lexer.init line, g, heap⟩ = .error (.exit .expectedCommand)) ∧
    ((TokenSource.stream (Lexer.init line)).IsChain fun tok tok' ↦
      tok.type = tokFd → isRedirectionOperator tok'.type = true) ∧
    ∀ p p' : ParserState Lexer, LoopTurn p p' → Consumes p p' ∨ GivesUp p p' := by
  refine ⟨?_, isChain_stream _, fun p p' ↦ consumes_or_givesUp⟩
  have houtcome := parserCreateAst_outcome (Lexer.init line) g heap
  cases hparse : parserCreateAst ⟨Lexer.init line, g, heap⟩ with
  | ok r => exact Or.inl ⟨r.1, r.2, rfl⟩
  | error e =>
    have hfails := houtcome.of_error hparse
    cases e with
    | exit error =>
      cases error with
      | unexpectedToken => exact hfails.elim
      | expectedFilename => exact Or.inr (Or.inl rfl)
      | expectedCommand => exact Or.inr (Or.inr rfl)
    | crash => exact absurd h hfails.1

theorem parserCreateAst_terminates_number :
    (∃ node p', parserCreateAst ⟨Lexer.init "a 2> f".toList, .operator tokEof, fun _ ↦ false⟩
      = .ok (node, p')) ∨
    parserCreateAst ⟨Lexer.init "a 2> f".toList, .operator tokEof, fun _ ↦ false⟩
      = .error (.exit .expectedFilename) ∨
    parserCreateAst ⟨Lexer.init "a 2> f".toList, .operator tokEof, fun _ ↦ false⟩
      = .error (.exit .expectedCommand) := by
  have hends : TokenSource.Ends (Lexer.init "a 2> f".toList) := by
    rw [TokenSource.Ends]
    decide +kernel
  exact (parserCreateAst_terminates hends (.operator tokEof) fun _ ↦ false).1

/-- On the line `;` the loop over the elements makes a turn that takes nothing. -/
theorem not_consumes : ¬∀ (line : CStr) (g : Token) (heap : ℕ → Bool) (p p' : ParserState Lexer),
    nextToken ⟨Lexer.init line, g, heap⟩ = .ok p → LoopTurn p.newNode.2 p' →
      Consumes p.newNode.2 p' := by
  intro hall
  have heval : (nextToken (⟨Lexer.init ";".toList, .operator tokEof, fun _ ↦ false⟩ :
      ParserState Lexer)).toOption.map (fun p ↦ isSeparator p.gTok.type) = some true := by
    decide +kernel
  obtain ⟨p, hnext, hsep⟩ := exists_of_map_eq heval
  have hcond : parseConditional p.newNode.2 = _ := parseConditional_of_separator hsep
  obtain ⟨tok, toks, htakes⟩ := hall _ _ _ p _ hnext (.noElement hcond rfl)
  have hstream := congrArg List.length htakes.stream_eq
  rw [List.length_append, List.length_cons] at hstream
  have hsame : p.newNode.2.newNode.2.stream = p.newNode.2.stream := rfl
  rw [hsame] at hstream
  omega

end Novash
