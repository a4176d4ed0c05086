import Novash.Parser.Print
import Novash.Printer.Tokens

/-!
# Printing lines

Every well-formed line whose words can be printed has a text, and the shell reads that text back:
the lexer gives the tokens of the line, and the parser the tree (`parserCreateAst_text`).
-/

namespace Novash

open Foundations TokenType WordPartType QuoteContext

/-! ## The text of a line -/

/-- The token as the lexer makes it: a number has a part, which the parser does not read. -/
def Token.lexed (tok : Token) : Token :=
  if tok.type = tokFd then { tok with parts := [⟨wordLiteral, quoteNone, tok.rawValue⟩] } else tok

@[simp] theorem Token.view_lexed (tok : Token) : tok.lexed.view = tok.view := by
  unfold Token.lexed
  split_ifs with hfd
  · simp [Token.view, hfd]
  · rfl

namespace Grammar

/-- Every part of every word has a text. -/
def PrintableWord (w : Word) : Prop := ∀ part ∈ w, part.Printable

def Command.Printable (c : Command) : Prop :=
  (∀ w ∈ c.first :: c.args, PrintableWord w) ∧ ∀ r ∈ c.redirs, PrintableWord r.target

def Pipeline.Printable (p : Pipeline) : Prop := ∀ c ∈ p.first :: p.rest, c.Printable

def Chain.Printable (c : Chain) : Prop :=
  c.first.Printable ∧ ∀ x ∈ c.rest, x.2.Printable

def Line.Printable (l : Line) : Prop := ∀ e ∈ l.first :: l.rest, e.chain.Printable

/-- The tokens of a line, as the lexer makes them. -/
def Line.lexed (l : Line) : List Token := (l.tokens wordText).map Token.lexed

def Line.text (l : Line) : CStr := tokensText l.lexed

/-! ## The tokens of a line can be printed -/

/-- Between two lists of tokens nothing is asked: a number has its operator in the same list. -/
theorem printableTokens_append {toks toks' : List Token} (h : PrintableTokens toks)
    (h' : PrintableTokens toks') : PrintableTokens (toks ++ toks') := by
  induction toks with
  | nil => exact h'
  | cons tok toks ih =>
    obtain ⟨htok, hfd, htoks⟩ := h
    refine ⟨htok, fun htype ↦ ?_, ih htoks⟩
    obtain ⟨next, hnext, hredir⟩ := hfd htype
    have hhead : (toks ++ toks').head? = some next := by
      rw [List.head?_append, Option.mem_def.mp hnext, Option.some_or]
    exact ⟨next, hhead, hredir⟩

/-- A token that is no number stands alone. -/
theorem printableTokens_cons {tok : Token} {toks : List Token} (h : tok.Printable)
    (hfd : tok.type ≠ tokFd) (h' : PrintableTokens toks) : PrintableTokens (tok :: toks) :=
  ⟨h, fun hc ↦ absurd hc hfd, h'⟩

/-- The tokens can be printed once the lexer's parts are added. -/
def Lexable (toks : List Token) : Prop := PrintableTokens (toks.map Token.lexed)

namespace Lexable

variable {toks toks' : List Token}

theorem append (h : Lexable toks) (h' : Lexable toks') : Lexable (toks ++ toks') := by
  rw [Lexable, List.map_append]
  exact printableTokens_append h h'

theorem flatMap {α : Type} {f : α → List Token} {xs : List α} (h : ∀ x ∈ xs, Lexable (f x)) :
    Lexable (xs.flatMap f) := by
  induction xs with
  | nil => trivial
  | cons x xs ih =>
    rw [List.flatMap_cons]
    exact (h x List.mem_cons_self).append (ih fun y hy ↦ h y (List.mem_cons_of_mem _ hy))

theorem operator {type : TokenType} (hword : type ≠ tokWord) (hfd : type ≠ tokFd)
    (heof : type ≠ tokEof) (h : Lexable toks) : Lexable (.operator type :: toks) := by
  have hlexed : Token.lexed (.operator type) = .operator type := if_neg hfd
  rw [Lexable, List.map_cons, hlexed]
  refine printableTokens_cons ?_ hfd h
  cases type <;> first | exact ⟨rfl, rfl⟩ | contradiction

theorem word {w : Word} (hw : PrintableWord w) (h : Lexable toks) :
    Lexable (wordToken wordText w :: toks) :=
  printableTokens_cons ⟨hw, rfl⟩ TokenType.noConfusion h

end Lexable

/-- A descriptor number is a word that the lexer takes for one. -/
theorem isWordFd_showInt (fd : Int32) : isWordFd (showInt fd.toInt) = true := by
  have hlo := fd.le_toInt
  have hhi := fd.toInt_lt
  have hread : strtol (showInt fd.toInt) = (fd.toInt, []) := strtol_showInt (by omega) (by omega)
  simp [isWordFd, hread, List.length_pos_iff, showInt_ne_nil]

theorem Redir.lexable {r : Redir} (h : PrintableWord r.target) :
    Lexable (r.tokens wordText) := by
  have hnumber : (⟨tokFd, showInt r.fd.toInt, [⟨wordLiteral, quoteNone, showInt r.fd.toInt⟩]⟩ :
      Token).Printable :=
    ⟨isWordFd_showInt r.fd, fun c hc ↦ (mem_showInt hc).imp_right .inl, rfl⟩
  have hrest : Lexable [.operator (redirToken r.type), wordToken wordText r.target] :=
    .operator (by cases r.type <;> decide) (by cases r.type <;> decide)
      (by cases r.type <;> decide) (.word h trivial)
  have hredir : isRedirectionOperator (redirToken r.type) = true := by cases r.type <;> rfl
  refine ⟨hnumber, fun _ ↦ ⟨Token.lexed (.operator (redirToken r.type)), rfl, ?_⟩, hrest⟩
  cases r.type <;> rfl

theorem Command.lexable {c : Command} (h : c.Printable) : Lexable (c.tokens wordText) := by
  obtain ⟨hwords, hredirs⟩ := h
  have hall : ∀ ws : List Word, (∀ w ∈ ws, PrintableWord w) →
      Lexable (ws.map (wordToken wordText)) := by
    intro ws hws
    induction ws with
    | nil => trivial
    | cons w ws ih =>
      exact .word (hws w List.mem_cons_self) (ih fun v hv ↦ hws v (List.mem_cons_of_mem _ hv))
  exact (hall _ hwords).append (.flatMap fun r hr ↦ Redir.lexable (hredirs r hr))

theorem Pipeline.lexable {p : Pipeline} (h : p.Printable) : Lexable (p.tokens wordText) :=
  (Command.lexable (h _ List.mem_cons_self)).append (.flatMap fun c hc ↦
    .operator (by decide) (by decide) (by decide)
      (Command.lexable (h c (List.mem_cons_of_mem _ hc))))

theorem Chain.lexable {c : Chain} (h : c.Printable) : Lexable (c.tokens wordText) := by
  refine (Pipeline.lexable h.1).append (.flatMap fun x hx ↦ ?_)
  obtain ⟨op, p⟩ := x
  have hp : p.Printable := h.2 _ hx
  cases op <;> exact .operator (by decide) (by decide) (by decide) (Pipeline.lexable hp)

theorem Line.lexable {l : Line} (h : l.Printable) : Lexable (l.tokens wordText) := by
  refine .flatMap fun e he ↦ (Chain.lexable (h e he)).append ?_
  unfold Element.terminator
  cases e.isBg <;> exact .operator (by decide) (by decide) (by decide) trivial

end Grammar

/-! ## Reading a line back -/

/-- A list of tokens, none of them `TOK_EOF`, is its own stream. -/
theorem stream_list {toks : List Token} (h : ∀ tok ∈ toks, tok.type ≠ tokEof) :
    TokenSource.stream toks = toks ++ [.operator tokEof] := by
  induction toks with
  | nil =>
    rw [TokenSource.stream_elim]
    rfl
  | cons tok toks ih =>
    have hnext : TokenSource.next (tok :: toks) = some (tok, toks) := rfl
    rw [TokenSource.stream_elim, hnext, Option.elim_some, if_neg (h tok List.mem_cons_self),
      ih fun t ht ↦ h t (List.mem_cons_of_mem _ ht), List.cons_append]

theorem PrintableTokens.type_ne {toks : List Token} (h : PrintableTokens toks) :
    ∀ tok ∈ toks, tok.type ≠ tokEof := by
  induction toks with
  | nil => exact fun _ h ↦ nomatch h
  | cons tok toks ih =>
    obtain ⟨htok, -, htoks⟩ := h
    intro t ht
    rcases List.mem_cons.mp ht with rfl | ht
    · obtain ⟨type, raw, parts⟩ := t
      rintro ⟨⟩
      exact htok
    · exact ih htoks t ht

/-- The lexer's tokens look like those that were printed. -/
theorem stream_text {l : Grammar.Line} (h : l.Printable) :
    (TokenSource.stream (Lexer.init l.text)).map Token.view
      = (TokenSource.stream (l.tokens wordText)).map Token.view := by
  have hlexed : (l.lexed).map Token.view = (l.tokens wordText).map Token.view := by
    rw [Grammar.Line.lexed, List.map_map]
    exact List.map_congr_left fun tok _ ↦ tok.view_lexed
  have hprintable : PrintableTokens l.lexed := Grammar.Line.lexable h
  have hne : ∀ tok ∈ l.tokens wordText, tok.type ≠ tokEof := by
    intro tok htok
    have hmem : tok.lexed ∈ l.lexed := List.mem_map_of_mem htok
    have htype : tok.lexed.type = tok.type := by
      rw [← Token.type_view, tok.view_lexed, Token.type_view]
    exact htype ▸ hprintable.type_ne _ hmem
  rw [Grammar.Line.text, lexerInit_stream hprintable, stream_list hne, List.map_append,
    List.map_append, hlexed]

theorem delivers_list_eof (toks : List Token) : Delivers toks (toks ++ [.operator tokEof]) := by
  induction toks with
  | nil => exact ⟨[], rfl, trivial⟩
  | cons tok toks ih => exact ⟨toks, rfl, ih⟩

/-- The flags of the tree are compared if the memory of the parser is clear. -/
theorem parserCreateAst_text (keepInvalid : Bool) {l : Grammar.Line} (g : Token) {heap : ℕ → Bool}
    (h : l.Printable) (hheap : keepInvalid = true → ∀ n, heap n = false) :
    ∃ node p, parserCreateAst (⟨Lexer.init l.text, g, heap⟩ : ParserState Lexer) = .ok (node, p) ∧
      p.gTok.type = tokEof ∧ node.erase keepInvalid = l.toAst := by
  obtain ⟨node, p, hparse, heof, hnode⟩ := Grammar.parserCreateAst_line keepInvalid l g
    (delivers_list_eof (l.tokens wordText)) hheap
  have hagree : Agree (ViewsWith SameNode) (parserCreateAst ⟨l.tokens wordText, g, heap⟩)
      (parserCreateAst (⟨Lexer.init l.text, g, heap⟩ : ParserState Lexer)) :=
    parserCreateAst_views (stream_text h).symm
  obtain ⟨⟨node', p'⟩, hparse', hsame, hviews⟩ := hagree.exists_ok hparse
  refine ⟨node', p', hparse', hviews.type_eq.trans heof, ?_⟩
  rw [← hnode]
  exact (SameNode.erase_eq hsame keepInvalid).symm

/-- **Parsing undoes printing, down to the bytes.** A line whose words can be printed has a text,
and the shell reads the text to its end and back into the tree of the line. -/
theorem parserCreateAst_lineText (l : Grammar.Line) (g : Token) (heap : ℕ → Bool)
    (h : l.Printable) :
    ∃ node p, parserCreateAst (⟨Lexer.init l.text, g, heap⟩ : ParserState Lexer) = .ok (node, p) ∧
      p.gTok.type = tokEof ∧ node.erase false = l.toAst ∧
      ((∀ n, heap n = false) → node.erase true = l.toAst) := by
  have hfalse : false = true → ∀ n, heap n = false := fun h ↦ nomatch h
  obtain ⟨node, p, hparse, heof, hnode⟩ := parserCreateAst_text false g h hfalse
  refine ⟨node, p, hparse, heof, hnode, fun hheap ↦ ?_⟩
  obtain ⟨node', p', hparse', -, hnode'⟩ := parserCreateAst_text true g h fun _ ↦ hheap
  cases hparse.symm.trans hparse'
  exact hnode'

/-- The line `a "$B"c 2>> 'd e' | f && ~ * &`, from memory full of set flags. -/
theorem parserCreateAst_lineText_list :
    let lit (q : QuoteContext) (s : String) : WordPart := ⟨wordLiteral, q, s.toList⟩
    let line : Grammar.Line :=
      ⟨⟨⟨⟨⟨[lit quoteNone "a"], [[⟨wordVariable, quoteDouble, ['B']⟩, lit quoteNone "c"]],
            [⟨2, .redirAppend, [lit quoteSingle "d e"], by decide⟩]⟩,
            [⟨[lit quoteNone "f"], [], []⟩]⟩,
          [(.condAnd, ⟨⟨[⟨wordTilde, quoteNone, ['~']⟩], [[⟨wordGlob, quoteNone, ['*']⟩]], []⟩,
            []⟩)]⟩, true⟩, []⟩
    ∃ node p,
      parserCreateAst (⟨Lexer.init line.text, .operator tokEof, fun _ ↦ true⟩ : ParserState Lexer)
        = .ok (node, p) ∧
      p.gTok.type = tokEof ∧ node.erase false = line.toAst ∧
      ((∀ _ : ℕ, true = false) → node.erase true = line.toAst) := by
  intro lit line
  refine parserCreateAst_lineText line _ _ ?_
  simp [line, lit, Grammar.Line.Printable, Grammar.Chain.Printable, Grammar.Pipeline.Printable,
    Grammar.Command.Printable, Grammar.PrintableWord, WordPart.Printable, NulFree, isNameChar]
  decide

end Novash
