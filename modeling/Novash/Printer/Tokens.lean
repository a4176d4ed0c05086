import Novash.Lexer.Numbers
import Novash.Parser.Views
import Novash.Printer.Words

/-!
# Printing tokens

The text of a list of tokens has a space after every token but a descriptor number, which its
operator must follow at once. `stream_tokensText` says that the lexer gives exactly the tokens that
were printed.
-/

namespace Novash

open Foundations TokenType WordPartType QuoteContext

/-! ## The text of a list of tokens -/

def operatorText : TokenType → CStr
  | tokSemi => [';']
  | tokPipe => ['|']
  | tokOr => ['|', '|']
  | tokAnd => ['&', '&']
  | tokBg => ['&']
  | tokRedirIn => ['<']
  | tokRedirOut => ['>']
  | tokRedirAppend => ['>', '>']
  | tokWord | tokFd | tokEof => []

def tokenText (tok : Token) : CStr :=
  if tok.type = tokWord then wordText tok.parts
  else if tok.type = tokFd then tok.rawValue
  else operatorText tok.type

/-- What stands between a token and the next one. -/
def tokenSpace (tok : Token) : CStr := if tok.type = tokFd then [] else [' ']

def tokensText : List Token → CStr
  | [] => []
  | tok :: toks => tokenText tok ++ (tokenSpace tok ++ tokensText toks)

/-- A token as the lexer makes it from its own text. A descriptor number may have a sign. -/
def Token.Printable (tok : Token) : Prop :=
  match tok.type with
  | tokWord => (∀ part ∈ tok.parts, part.Printable) ∧ tok.rawValue = wordText tok.parts
  | tokFd =>
    isWordFd tok.rawValue = true ∧
      (∀ c ∈ tok.rawValue, isdigit c = true ∨ c = '-' ∨ c = '+') ∧
      tok.parts = [⟨wordLiteral, quoteNone, tok.rawValue⟩]
  | tokEof => False
  | _ => tok.rawValue = [] ∧ tok.parts = []

/-- Every token can be written, and after a descriptor number comes a redirection. -/
def PrintableTokens : List Token → Prop
  | [] => True
  | tok :: toks =>
    tok.Printable ∧
      (tok.type = tokFd → ∃ next ∈ toks.head?, isRedirectionOperator next.type = true) ∧
      PrintableTokens toks

/-! ## Reading a token back -/

section

variable {lex : Lexer} {tok : Token} {toks : List Token} {t : CStr}

/-- The texts of the operators, each in front of a space. -/
theorem lexerNextToken_operatorText {type : TokenType} (hword : type ≠ tokWord)
    (hfd : type ≠ tokFd) (heof : type ≠ tokEof) (hr : lex.rest = operatorText type ++ ' ' :: t) :
    lexerNextToken lex = some (.operator type, lex.skip (operatorText type).length) := by
  have hone {c : Char} {u : CStr} (hr : lex.rest = c :: u) (hspace : isspace c = false) :
      lexerNextToken lex = switchToken lex ∧ lex.peek = c ∧ lex.advance = lex.skip 1 ∧
        (lex.skip 1).peek = u.headD '\x00' := by
    refine ⟨?_, Lexer.peek_of_rest hr, Lexer.advance_of_rest hr, ?_⟩
    · rw [lexerNextToken, skipWhitespaces_of_rest hr hspace]
    · rw [Lexer.peek_eq_headD, Lexer.rest_skip_one hr]
  have htwo {c d : Char} {u : CStr} (hr : lex.rest = c :: d :: u) :
      (lex.skip 1).advance = lex.skip 2 := by
    rw [Lexer.advance_of_rest (Lexer.rest_skip_one hr), Lexer.skip_skip]
  cases type with
  | tokWord => exact absurd rfl hword
  | tokFd => exact absurd rfl hfd
  | tokEof => exact absurd rfl heof
  | tokSemi =>
    obtain ⟨htoken, hpeek, hadvance, -⟩ := hone hr (by decide)
    simp [htoken, switchToken, hpeek, hadvance, operatorText]
  | tokRedirIn =>
    obtain ⟨htoken, hpeek, hadvance, -⟩ := hone hr (by decide)
    simp [htoken, switchToken, hpeek, hadvance, operatorText]
  | tokPipe =>
    obtain ⟨htoken, hpeek, hadvance, hnext⟩ := hone hr (by decide)
    simp [htoken, switchToken, hpeek, hadvance, hnext, operatorText]
  | tokBg =>
    obtain ⟨htoken, hpeek, hadvance, hnext⟩ := hone hr (by decide)
    simp [htoken, switchToken, hpeek, hadvance, hnext, operatorText]
  | tokRedirOut =>
    obtain ⟨htoken, hpeek, hadvance, hnext⟩ := hone hr (by decide)
    simp [htoken, switchToken, hpeek, hadvance, hnext, operatorText]
  | tokOr =>
    obtain ⟨htoken, hpeek, hadvance, hnext⟩ := hone hr (by decide)
    simp [htoken, switchToken, hpeek, hadvance, hnext, htwo hr, operatorText]
  | tokAnd =>
    obtain ⟨htoken, hpeek, hadvance, hnext⟩ := hone hr (by decide)
    simp [htoken, switchToken, hpeek, hadvance, hnext, htwo hr, operatorText]
  | tokRedirAppend =>
    obtain ⟨htoken, hpeek, hadvance, hnext⟩ := hone hr (by decide)
    simp [htoken, switchToken, hpeek, hadvance, hnext, htwo hr, operatorText]

theorem xstrdupN_skip {w : CStr} (hr : lex.rest = w ++ t) :
    lex.xstrdupN lex.pos ((lex.skip w.length).pos - lex.pos) = w :=
  (Lexer.Passes.of_append hr).xstrdupN_eq

theorem lexerNextToken_wordText {w : Word} (hw : ∀ part ∈ w, part.Printable)
    (hr : lex.rest = wordText w ++ ' ' :: t) (hprev : lex.peekPrev ≠ '~') :
    lexerNextToken lex
      = some (⟨tokWord, wordText w, w⟩, lex.skip (wordText w).length) := by
  obtain ⟨c, u, hhead, hnul, hspace, hmeta⟩ := wordText_head hw
  have hr' : lex.rest = c :: (u ++ ' ' :: t) := by rw [hr, hhead, List.cons_append]
  have hstop : StopsWord (' ' :: t) := by
    intro c hc
    obtain rfl := Option.some_inj.mp hc
    exact .inl rfl
  have hpeek : (lex.skip (wordText w).length).peek = ' ' :=
    Lexer.peek_of_rest (Lexer.rest_skip_of_append hr)
  rw [lexerNextToken_word hr' hspace hmeta hnul (wordLoop_wordText hw hr hstop hprev)
    (by rw [hpeek]; decide), xstrdupN_skip hr]

/-- The bytes of a number stand for themselves. -/
theorem quoteArg_number {d : CStr} (hd : ∀ c ∈ d, isdigit c = true ∨ c = '-' ∨ c = '+') :
    quoteArg d = d := by
  have hbyte : ∀ c ∈ d, quoteByte c = [c] := by
    intro c hc
    have hplain : needsQuoting c = false := by
      by_contra hquote
      simp only [needsQuoting, isspace, Bool.not_eq_false, Bool.or_eq_true, beq_iff_eq,
        decide_eq_true_eq, List.mem_cons, List.not_mem_nil, or_false] at hquote
      rcases hquote with (((((rfl | rfl) | rfl) | rfl) | rfl) | rfl) | rfl | rfl | rfl | rfl |
        rfl | rfl | rfl | rfl | rfl | rfl | rfl | rfl | rfl <;>
        exact absurd (hd _ hc) (by decide)
    rw [quoteByte, if_neg (by rw [hplain]; decide)]
  rw [quoteArg, List.flatMap_congr hbyte, List.flatMap_singleton']

theorem lexerNextToken_fdText (htype : tok.type = tokFd) (h : tok.Printable)
    (hr : lex.rest = tok.rawValue ++ t) (ht : t.head? = some '<' ∨ t.head? = some '>')
    (hprev : lex.peekPrev ≠ '~') :
    lexerNextToken lex = some (tok, lex.skip tok.rawValue.length) := by
  obtain ⟨type, d, parts⟩ := tok
  obtain rfl : type = tokFd := htype
  obtain ⟨hfd, hd, hparts⟩ := h
  obtain rfl : parts = [⟨wordLiteral, quoteNone, d⟩] := hparts
  change lex.rest = d ++ t at hr
  change isWordFd d = true at hfd
  change ∀ c ∈ d, isdigit c = true ∨ c = '-' ∨ c = '+' at hd
  have hd0 : d ≠ [] := by
    rintro rfl
    exact absurd hfd (by decide)
  have hnul : NulFree d := fun hc ↦ absurd (hd _ hc) (by decide)
  let part : WordPart := ⟨wordLiteral, quoteNone, d⟩
  have hpart : part.Printable := ⟨hd0, hnul, fun h ↦ nomatch h⟩
  have htext : wordText [part] = d := by
    change quoteArg d ++ [] = d
    rw [List.append_nil, quoteArg_number hd]
  have hw : ∀ p ∈ [part], p.Printable := by simpa using hpart
  obtain ⟨c, u, hhead, hc, hspace, hmeta⟩ := wordText_head hw
  have hr' : lex.rest = c :: (u ++ t) := by rw [hr, ← htext, hhead]; rfl
  have hstop : StopsWord t := by
    intro b hb
    rcases ht with ht | ht <;> cases ht.symm.trans hb <;> exact .inr rfl
  have hpeek : (lex.skip d.length).peek = '<' ∨ (lex.skip d.length).peek = '>' := by
    have hrest := Lexer.rest_skip_of_append hr
    cases t with
    | nil => rcases ht with ht | ht <;> cases ht
    | cons b t =>
      rw [Lexer.peek_of_rest hrest]
      exact ht.imp Option.some_inj.mp Option.some_inj.mp
  have hword := wordLoop_wordText hw (htext.symm ▸ hr) hstop hprev
  rw [htext] at hword
  rw [lexerNextToken_of_word hr' hspace hmeta hc, handleWordToken, hword, Option.map_some,
    Option.map_some]
  dsimp only
  rw [xstrdupN_skip hr]
  have hafter : (decide ((lex.skip d.length).peek = '>')
      || decide ((lex.skip d.length).peek = '<')) = true := by
    rcases hpeek with hpeek | hpeek <;> simp [hpeek]
  simp only [hafter, Bool.and_true]
  exact congrArg some (if_pos hfd)

/-- A redirection starts with one of two bytes. -/
theorem tokensText_head_of_redirection
    (h : ∃ next ∈ toks.head?, isRedirectionOperator next.type = true) :
    (tokensText toks).head? = some '<' ∨ (tokensText toks).head? = some '>' := by
  obtain ⟨next, hnext, hredir⟩ := h
  cases toks with
  | nil => cases hnext
  | cons tok toks =>
    obtain rfl : tok = next := Option.some_inj.mp hnext
    simp only [isRedirectionOperator, Bool.or_eq_true, decide_eq_true_eq] at hredir
    rcases hredir with (htype | htype) | htype <;> simp [tokensText, tokenText, operatorText, htype]

/-- An operator has no text and no parts. -/
theorem Token.Printable.eq_operator (h : tok.Printable) (hword : tok.type ≠ tokWord)
    (hfd : tok.type ≠ tokFd) : tok = .operator tok.type ∧ tok.type ≠ tokEof := by
  obtain ⟨type, raw, parts⟩ := tok
  cases type with
  | tokWord => exact absurd rfl hword
  | tokFd => exact absurd rfl hfd
  | tokEof => exact h.elim
  | _ =>
    obtain ⟨hraw, hparts⟩ := h
    change raw = [] at hraw
    change parts = [] at hparts
    exact ⟨by rw [hraw, hparts, Token.operator], by simp⟩

/-- One token of the text: the lexer gives it and stands behind it. -/
theorem lexerNextToken_tokenText (h : tok.Printable)
    (hfd : tok.type = tokFd → ∃ next ∈ toks.head?, isRedirectionOperator next.type = true)
    (hr : lex.rest = tokenText tok ++ (tokenSpace tok ++ tokensText toks))
    (hprev : lex.peekPrev ≠ '~') :
    lexerNextToken lex = some (tok, lex.skip (tokenText tok).length) := by
  by_cases hw : tok.type = tokWord
  · obtain ⟨type, raw, parts⟩ := tok
    obtain rfl : type = tokWord := hw
    obtain ⟨hparts, hraw⟩ := h
    obtain rfl : raw = wordText parts := hraw
    exact lexerNextToken_wordText hparts hr hprev
  by_cases hn : tok.type = tokFd
  · have htext : tokenText tok = tok.rawValue := by rw [tokenText, if_neg hw, if_pos hn]
    have hspace : tokenSpace tok = [] := by rw [tokenSpace, if_pos hn]
    rw [htext, hspace, List.nil_append] at hr
    rw [htext]
    exact lexerNextToken_fdText hn h hr (tokensText_head_of_redirection (hfd hn)) hprev
  · obtain ⟨htok, heof⟩ := h.eq_operator hw hn
    have htext : tokenText tok = operatorText tok.type := by rw [tokenText, if_neg hw, if_neg hn]
    have hspace : tokenSpace tok = [' '] := by rw [tokenSpace, if_neg hn]
    rw [htext, hspace, List.singleton_append] at hr
    rw [htext, lexerNextToken_operatorText hw hn heof hr, ← htok]

/-- Before a token stands no `~`: neither a space nor a number has one. -/
theorem exists_skip_tokenSpace (h : tok.Printable) (hprev : lex.peekPrev ≠ '~')
    (hr : lex.rest = tokenText tok ++ (tokenSpace tok ++ t)) :
    ∃ n, (lex.skip n).rest = t ∧ (lex.skip n).peekPrev ≠ '~' ∧
      lexerNextToken (lex.skip (tokenText tok).length) = lexerNextToken (lex.skip n) := by
  have hr₁ := Lexer.rest_skip_of_append hr
  by_cases hn : tok.type = tokFd
  · have hspace : tokenSpace tok = [] := by rw [tokenSpace, if_pos hn]
    rw [hspace, List.nil_append] at hr hr₁
    refine ⟨_, hr₁, ?_, rfl⟩
    by_cases htext : tokenText tok = []
    · rwa [htext]
    · rw [peekPrev_skip hr htext]
      have hraw : tokenText tok = tok.rawValue := by simp [tokenText, hn]
      obtain ⟨type, raw, parts⟩ := tok
      obtain rfl : type = tokFd := hn
      intro htilde
      have hmem := List.getLast_mem htext
      rw [htilde, hraw] at hmem
      exact absurd (h.2.1 '~' hmem) (by decide)
  · have hspace : tokenSpace tok = [' '] := by rw [tokenSpace, if_neg hn]
    rw [hspace] at hr₁
    refine ⟨(tokenText tok).length + 1, ?_, ?_, ?_⟩
    · rw [← Lexer.skip_skip, Lexer.rest_skip_one hr₁]
      rfl
    · rw [← Lexer.skip_skip, peekPrev_skip_one hr₁]
      decide
    · rw [lexerNextToken_space hr₁ (by decide), Lexer.skip_skip]

theorem stream_eq_cons_of_next {lex' : Lexer} (hnext : lexerNextToken lex = some (tok, lex'))
    (heof : tok.type ≠ tokEof) :
    TokenSource.stream lex = tok :: TokenSource.stream lex' := by
  have hnext' : TokenSource.next lex = some (tok, lex') := hnext
  rw [TokenSource.stream_elim, hnext', Option.elim_some, if_neg heof]

theorem stream_eq_of_next_eq {lex lex' : Lexer} (h : lexerNextToken lex = lexerNextToken lex') :
    TokenSource.stream lex = TokenSource.stream lex' := by
  have h' : TokenSource.next lex = TokenSource.next lex' := h
  rw [TokenSource.stream_elim lex, TokenSource.stream_elim lex', h']

theorem stream_of_rest_eq_nil (hr : lex.rest = []) :
    TokenSource.stream lex = [.operator tokEof] := by
  have hnext : TokenSource.next lex = some (Token.operator tokEof, lex) := lexerNextToken_eof hr
  rw [TokenSource.stream_elim, hnext, Option.elim_some]
  exact if_pos rfl

theorem stream_tokensText (h : PrintableTokens toks) :
    ∀ {lex : Lexer}, lex.rest = tokensText toks → lex.peekPrev ≠ '~' →
      TokenSource.stream lex = toks ++ [.operator tokEof] := by
  induction toks with
  | nil =>
    intro lex hr _
    exact stream_of_rest_eq_nil hr
  | cons tok toks ih =>
    intro lex hr hprev
    obtain ⟨htok, hfd, htoks⟩ := h
    have heof : tok.type ≠ tokEof := by
      intro heof
      obtain ⟨type, raw, parts⟩ := tok
      obtain rfl : type = tokEof := heof
      exact htok
    obtain ⟨n, hrest, hprev', hskip⟩ := exists_skip_tokenSpace htok hprev hr
    rw [stream_eq_cons_of_next (lexerNextToken_tokenText htok hfd hr hprev) heof,
      stream_eq_of_next_eq hskip, ih htoks hrest hprev', List.cons_append]

theorem lexerInit_stream (h : PrintableTokens toks) :
    TokenSource.stream (Lexer.init (tokensText toks)) = toks ++ [.operator tokEof] :=
  have hprev : (Lexer.init (tokensText toks)).peekPrev = '\x00' := rfl
  stream_tokensText h rfl (by rw [hprev]; decide)

/-- **The lexer reads every printed list of tokens back**, and then gives `TOK_EOF`. -/
theorem lexerInit_tokensText (toks : List Token) (h : PrintableTokens toks) :
    TokenSource.stream (Lexer.init (tokensText toks)) = toks ++ [.operator tokEof] :=
  lexerInit_stream h

/-- The tokens of `l "a'$B" 2>> f | w`. -/
theorem lexerInit_tokensText_pipeline :
    TokenSource.stream (Lexer.init (tokensText
      [⟨tokWord, ['l'], [⟨wordLiteral, quoteNone, ['l']⟩]⟩,
        ⟨tokWord, "\"a\\'\"''\"${B}\"".toList,
          [⟨wordLiteral, quoteDouble, ['a', '\'']⟩, ⟨wordVariable, quoteDouble, ['B']⟩]⟩,
        ⟨tokFd, ['2'], [⟨wordLiteral, quoteNone, ['2']⟩]⟩, .operator tokRedirAppend,
        ⟨tokWord, ['f'], [⟨wordLiteral, quoteNone, ['f']⟩]⟩, .operator tokPipe,
        ⟨tokWord, ['w'], [⟨wordLiteral, quoteNone, ['w']⟩]⟩]))
      = [⟨tokWord, ['l'], [⟨wordLiteral, quoteNone, ['l']⟩]⟩,
        ⟨tokWord, "\"a\\'\"''\"${B}\"".toList,
          [⟨wordLiteral, quoteDouble, ['a', '\'']⟩, ⟨wordVariable, quoteDouble, ['B']⟩]⟩,
        ⟨tokFd, ['2'], [⟨wordLiteral, quoteNone, ['2']⟩]⟩, .operator tokRedirAppend,
        ⟨tokWord, ['f'], [⟨wordLiteral, quoteNone, ['f']⟩]⟩, .operator tokPipe,
        ⟨tokWord, ['w'], [⟨wordLiteral, quoteNone, ['w']⟩]⟩] ++ [.operator tokEof] := by
  refine lexerInit_tokensText _ ?_
  simp only [PrintableTokens, Token.Printable, WordPart.Printable, Token.operator,
    List.forall_mem_cons]
  simp [NulFree, isNameChar, isRedirectionOperator]
  decide

end

end Novash
