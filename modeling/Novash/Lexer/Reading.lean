import Novash.Lexer.Lexer

/-!
# Reading a lexer step by step

What each lexer function does when the bytes that are left start in a known way. These are the only
facts about the lexer that the results on whole words and whole lines use: none of them unfolds a
loop again.
-/

namespace Novash

open TokenType WordPartType QuoteContext

/-! ## Literals -/

theorem literalLoop_nil {quoteCtx : QuoteContext} {buf : LiteralBuf} {lex : Lexer}
    (hr : lex.rest = []) : literalLoop quoteCtx buf lex = (buf, lex) := by
  rw [literalLoop, dif_pos (Lexer.peek_of_rest_nil hr)]

theorem literalLoop_end {quoteCtx : QuoteContext} {buf : LiteralBuf} {lex : Lexer} {c : Char}
    {t : CStr} (hr : lex.rest = c :: t) (hend : endsLiteral quoteCtx c = true) :
    literalLoop quoteCtx buf lex = (buf, lex) := by
  rw [literalLoop, Lexer.peek_of_rest hr, if_pos hend]
  split <;> rfl

/-- A byte that stands for itself inside a literal. -/
def PlainIn (quoteCtx : QuoteContext) (c : Char) : Prop :=
  c ≠ '\x00' ∧ endsLiteral quoteCtx c = false ∧ (c = '\\' → quoteCtx = quoteSingle)

theorem literalLoop_plain {quoteCtx : QuoteContext} {buf : LiteralBuf} {lex : Lexer} {c : Char}
    {t : CStr} (hr : lex.rest = c :: t) (hc : PlainIn quoteCtx c) :
    literalLoop quoteCtx buf lex = literalLoop quoteCtx (buf.push c) (lex.skip 1) := by
  obtain ⟨hnul, hend, hesc⟩ := hc
  rw [literalLoop, Lexer.peek_of_rest hr, dif_neg hnul, if_neg (by simp [hend]),
    if_neg (fun h ↦ h.2 (hesc h.1)), Lexer.advance_of_rest hr]

theorem literalLoop_escape {quoteCtx : QuoteContext} {buf : LiteralBuf} {lex : Lexer} {c : Char}
    {t : CStr} (hr : lex.rest = '\\' :: c :: t) (hq : quoteCtx ≠ quoteSingle) :
    literalLoop quoteCtx buf lex = literalLoop quoteCtx (buf.push (unescape c)) (lex.skip 2) := by
  have hend : endsLiteral quoteCtx '\\' = false := by cases quoteCtx <;> decide
  have hr₁ := Lexer.rest_skip_one hr
  have hescape : handleEscape lex = (unescape c, lex.skip 2) := by
    rw [handleEscape, Lexer.advance_of_rest hr, Lexer.peek_of_rest hr₁, Lexer.advance_of_rest hr₁,
      Lexer.skip_skip]
  rw [literalLoop, Lexer.peek_of_rest hr, dif_neg (by decide), if_neg (by simp [hend]),
    if_pos ⟨rfl, hq⟩, hescape]

/-- A stretch of plain bytes goes into the buffer as it stands. -/
theorem literalLoop_plain_append {quoteCtx : QuoteContext} {w t : CStr}
    (hw : ∀ c ∈ w, PlainIn quoteCtx c) :
    ∀ {buf : LiteralBuf} {lex : Lexer}, lex.rest = w ++ t →
      literalLoop quoteCtx buf lex
        = literalLoop quoteCtx (w.foldl LiteralBuf.push buf) (lex.skip w.length) := by
  induction w with
  | nil => intro buf lex _; rfl
  | cons c w ih =>
    intro buf lex hr
    rw [literalLoop_plain hr (hw c List.mem_cons_self),
      ih (fun d hd ↦ hw d (List.mem_cons_of_mem c hd)) (Lexer.rest_skip_one hr),
      Lexer.skip_skip, List.foldl_cons, List.length_cons, Nat.add_comm 1]

theorem bytes_foldl_push (w : CStr) :
    ∀ buf : LiteralBuf, (w.foldl LiteralBuf.push buf).bytes = buf.bytes ++ w := by
  induction w with
  | nil => intro buf; simp
  | cons c w ih => intro buf; rw [List.foldl_cons, ih]; simp

/-- A literal whose buffer ends up holding the NUL-free text `w`. -/
theorem handleLiteral_of_loop {quoteCtx : QuoteContext} {lex lex' : Lexer} {w : CStr}
    (hw : NulFree w)
    (h : literalLoop quoteCtx .empty lex = (w.foldl LiteralBuf.push .empty, lex')) :
    (handleLiteral lex quoteCtx).1.getD [] = w ∧ (handleLiteral lex quoteCtx).2 = lex' := by
  rw [handleLiteral, h]
  simp only [bytes_foldl_push, LiteralBuf.bytes_empty, List.nil_append, cstr_eq_self hw, and_true]
  cases w <;> rfl

/-! ## Parts of a word -/

theorem lexNextWordPart_quote {quoteCtx : QuoteContext} {lex : Lexer} {c : Char} {t : CStr}
    (hr : lex.rest = c :: t) (hc : c = '\'' ∨ c = '"') :
    lexNextWordPart lex quoteCtx = some (none, toggleQuote c quoteCtx, lex.skip 1) := by
  rw [lexNextWordPart, Lexer.peek_of_rest hr, if_pos hc, Lexer.advance_of_rest hr]

/-- A byte at which a literal part starts: it opens nothing else in this context. -/
def StartsLiteral (quoteCtx : QuoteContext) (c : Char) : Prop :=
  c ≠ '\'' ∧ c ≠ '"' ∧ (c = '$' → quoteCtx = quoteSingle) ∧ (c = '~' → quoteCtx ≠ quoteNone) ∧
    (isGlobChar c = true → quoteCtx ≠ quoteNone)

theorem lexNextWordPart_literal {quoteCtx : QuoteContext} {lex lex' : Lexer} {c : Char}
    {w t : CStr} (hr : lex.rest = c :: t) (hc : StartsLiteral quoteCtx c) (hw : NulFree w)
    (h : literalLoop quoteCtx .empty lex = (w.foldl LiteralBuf.push .empty, lex')) :
    lexNextWordPart lex quoteCtx = some (some ⟨wordLiteral, quoteCtx, w⟩, quoteCtx, lex') := by
  obtain ⟨hsingle, hdouble, hdollar, htilde, hglob⟩ := hc
  obtain ⟨hval, hlex⟩ := handleLiteral_of_loop hw h
  have hquote : ¬(c = '\'' ∨ c = '"') := by tauto
  have hvar : ¬(c = '$' ∧ (quoteCtx = quoteNone ∨ quoteCtx = quoteDouble)) := by
    rintro ⟨hc, hq⟩
    rcases hq with hq | hq <;> exact absurd ((hdollar hc).symm.trans hq) (by decide)
  rw [lexNextWordPart, Lexer.peek_of_rest hr, if_neg hquote, if_neg hvar,
    if_neg (fun hq ↦ htilde hq.1 hq.2.1), if_neg (fun hq ↦ hglob hq.1 hq.2), ← hval, ← hlex]

/-! ## Words -/

theorem wordLoop_nil {parts : Word} {quoteCtx : QuoteContext} {lex : Lexer} (hr : lex.rest = []) :
    wordLoop parts quoteCtx lex = some (parts, lex) := by
  rw [wordLoop, dif_pos (Lexer.peek_of_rest_nil hr)]

theorem wordLoop_end {parts : Word} {quoteCtx : QuoteContext} {lex : Lexer} {c : Char} {t : CStr}
    (hr : lex.rest = c :: t) (hend : endsWord quoteCtx c = true) :
    wordLoop parts quoteCtx lex = some (parts, lex) := by
  rw [wordLoop, Lexer.peek_of_rest hr, dif_pos hend]
  split <;> rfl

theorem wordLoop_part {parts : Word} {quoteCtx quoteCtx' : QuoteContext} {lex lex' : Lexer}
    {c : Char} {t : CStr} {part : Option WordPart} (hr : lex.rest = c :: t) (hc : c ≠ '\x00')
    (hend : endsWord quoteCtx c = false)
    (hpart : lexNextWordPart lex quoteCtx = some (part, quoteCtx', lex')) :
    wordLoop parts quoteCtx lex = wordLoop (putPart parts part) quoteCtx' lex' := by
  rw [wordLoop, dif_neg (by rw [Lexer.peek_of_rest hr]; exact hc),
    dif_neg (by rw [Lexer.peek_of_rest hr]; simp [hend])]
  split
  · next hnone => cases hpart.symm.trans hnone
  · next hpart' =>
    cases hpart.symm.trans hpart'
    rfl

/-! ## Tokens -/

theorem skipWhitespaces_of_rest {lex : Lexer} {c : Char} {t : CStr} (hr : lex.rest = c :: t)
    (hc : isspace c = false) : skipWhitespaces lex = lex := by
  simp [skipWhitespaces, Lexer.advanceWhile, hr, hc]

theorem lexerNextToken_eof {lex : Lexer} (hr : lex.rest = []) :
    lexerNextToken lex = some (.operator tokEof, lex) := by
  have hskip : skipWhitespaces lex = lex := by simp [skipWhitespaces, Lexer.advanceWhile, hr]
  rw [lexerNextToken, hskip, switchToken, Lexer.peek_of_rest_nil hr]
  simp [Lexer.advance_of_rest_nil hr]

/-- A byte other than white space and the operator bytes starts a word. -/
theorem lexerNextToken_of_word {lex : Lexer} {c : Char} {t : CStr} (hr : lex.rest = c :: t)
    (hspace : isspace c = false) (hmeta : isMetaChar c = false) (hnul : c ≠ '\x00') :
    lexerNextToken lex = (handleWordToken lex).map fun (tok, lex) ↦
      if isWordFd tok.rawValue && (lex.peek = '>' || lex.peek = '<') then
        ({ tok with type := tokFd }, lex)
      else (tok, lex) := by
  simp only [isMetaChar, Bool.or_eq_false_iff, beq_eq_false_iff_ne] at hmeta
  obtain ⟨⟨⟨⟨hpipe, hamp⟩, hsemi⟩, hlt⟩, hgt⟩ := hmeta
  rw [lexerNextToken, skipWhitespaces_of_rest hr hspace, switchToken, Lexer.peek_of_rest hr,
    if_neg hpipe, if_neg hamp, if_neg hgt, if_neg hlt, if_neg hsemi, if_neg hnul]

theorem lexerNextToken_word {lex lex' : Lexer} {c : Char} {t : CStr} {parts : Word}
    (hr : lex.rest = c :: t) (hspace : isspace c = false) (hmeta : isMetaChar c = false)
    (hnul : c ≠ '\x00') (hloop : wordLoop [] quoteNone lex = some (parts, lex'))
    (hnext : lex'.peek ≠ '<' ∧ lex'.peek ≠ '>') :
    lexerNextToken lex
      = some (⟨tokWord, lex.xstrdupN lex.pos (lex'.pos - lex.pos), parts⟩, lex') := by
  rw [lexerNextToken_of_word hr hspace hmeta hnul, handleWordToken, hloop]
  simp [hnext.1, hnext.2]

/-- The parts of a word token, whether or not it is a descriptor number, are those the word loop
collected. -/
theorem wordLoop_of_lexerNextToken {lex lex' : Lexer} {c : Char} {t : CStr} {tok : Token}
    (hr : lex.rest = c :: t) (hspace : isspace c = false) (hmeta : isMetaChar c = false)
    (hnul : c ≠ '\x00') (h : lexerNextToken lex = some (tok, lex')) :
    wordLoop [] quoteNone lex = some (tok.parts, lex') := by
  rw [lexerNextToken_of_word hr hspace hmeta hnul, handleWordToken, Option.map_map] at h
  obtain ⟨⟨parts, lex₁⟩, hloop, htok⟩ := Option.map_eq_some_iff.mp h
  rw [hloop]
  dsimp only [Function.comp_apply] at htok
  split_ifs at htok <;> cases htok <;> rfl

/-- White space in front of a token changes nothing else about it. -/
theorem lexerNextToken_space {lex : Lexer} {c : Char} {t : CStr} (hr : lex.rest = c :: t)
    (hc : isspace c = true) : lexerNextToken lex = lexerNextToken (lex.skip 1) := by
  have hskip : skipWhitespaces lex = skipWhitespaces (lex.skip 1) := by
    simp [skipWhitespaces, Lexer.advanceWhile, hr, Lexer.rest_skip_one hr, hc, Nat.add_comm]
  rw [lexerNextToken, hskip, lexerNextToken]

end Novash
