import Novash.Parser.Turns
import Novash.Printer.Lines

/-!
# The normal form of a line

A line that is read token by token and written again. Every part that the lexer makes can be
written, with one exception: a `[` that nothing closes takes the rest of the input with it, and has
no text that can stand in a line. Apart from it a line and its normal form have the same tokens to
the parser's eye, and the normal form is its own normal form (`views_normalLine`).
-/

namespace Novash

open Foundations TokenType WordPartType QuoteContext

/-- A wildcard that starts with `[` has its `]`. -/
def WordPart.Closed (part : WordPart) : Prop :=
  part.type = wordGlob → part.value.head? = some '[' → ']' ∈ part.value

instance (part : WordPart) : Decidable part.Closed :=
  inferInstanceAs (Decidable (_ → _ → _))

/-- The token written in its normal form. -/
def Token.normal (tok : Token) : Token :=
  match tok.type with
  | tokWord => ⟨tokWord, wordText tok.parts, tok.parts⟩
  | tokFd => ⟨tokFd, tok.rawValue, [⟨wordLiteral, quoteNone, tok.rawValue⟩]⟩
  | type => .operator type

def normalLine (line : CStr) : CStr :=
  tokensText ((TokenSource.tokens (Lexer.init line)).map Token.normal)

/-! ## The parts that the lexer makes -/

section

variable {lex lex' : Lexer} {quoteCtx quoteCtx' : QuoteContext} {part : WordPart}

theorem prefix_literalLoop (quoteCtx : QuoteContext) (buf : LiteralBuf) (lex : Lexer) :
    buf.bytes <+: (literalLoop quoteCtx buf lex).1.bytes := by
  fun_induction literalLoop quoteCtx buf lex with
  | case1 => exact List.prefix_rfl
  | case2 => exact List.prefix_rfl
  | case3 buf lex _ _ _ ih =>
    rw [LiteralBuf.bytes_push] at ih
    exact (List.prefix_append _ _).trans ih
  | case4 buf lex _ _ _ ih =>
    rw [LiteralBuf.bytes_push] at ih
    exact (List.prefix_append _ _).trans ih

/-- Single quotes end at the first quote character of their own. -/
theorem quote_notMem_literalLoop (hctx : quoteCtx = quoteSingle) (buf : LiteralBuf) (lex : Lexer)
    (hbuf : '\'' ∉ buf.bytes) : '\'' ∉ (literalLoop quoteCtx buf lex).1.bytes := by
  fun_induction literalLoop quoteCtx buf lex with
  | case1 => exact hbuf
  | case2 => exact hbuf
  | case3 buf lex _ _ hescape => exact absurd hctx hescape.2
  | case4 buf lex _ hend _ ih =>
    refine ih ?_
    subst hctx
    rw [LiteralBuf.bytes_push, List.mem_append, List.mem_singleton, not_or]
    refine ⟨hbuf, fun hquote ↦ hend ?_⟩
    rw [endsLiteral, ← hquote]
    rfl

/-- The first byte of a text in single quotes is the first one that is stored. -/
theorem head?_literalLoop (hctx : quoteCtx = quoteSingle) {buf : LiteralBuf}
    (hbuf : buf.bytes = []) (lex : Lexer) (hne : (literalLoop quoteCtx buf lex).1.bytes ≠ []) :
    (literalLoop quoteCtx buf lex).1.bytes.head? = some lex.peek := by
  rw [literalLoop] at hne ⊢
  split_ifs at hne ⊢ with hnul hend hescape
  · exact absurd hbuf hne
  · exact absurd hbuf hne
  · exact absurd hctx hescape.2
  · obtain ⟨rest, hrest⟩ := prefix_literalLoop quoteCtx (buf.push lex.peek) lex.advance
    rw [← hrest, LiteralBuf.bytes_push, hbuf]
    rfl

theorem printable_literal (hquote : ¬(lex.peek = '\'' ∨ lex.peek = '"'))
    (hne : (handleLiteral lex quoteCtx).1.getD [] ≠ []) :
    (⟨wordLiteral, quoteCtx, (handleLiteral lex quoteCtx).1.getD []⟩ : WordPart).Printable := by
  obtain ⟨buf, hbuf, hvalue⟩ : ∃ buf, buf = (literalLoop quoteCtx .empty lex).1 ∧
      (handleLiteral lex quoteCtx).1.getD [] = cstr buf.bytes := by
    refine ⟨_, rfl, ?_⟩
    rw [handleLiteral]
    dsimp only
    split_ifs with hlength
    · rfl
    · rw [List.eq_nil_of_length_eq_zero (Nat.eq_zero_of_not_pos hlength)]
      rfl
  rw [hvalue] at hne ⊢
  refine ⟨hne, fun hnul ↦ ?_, fun hctx ↦ ⟨fun hmem ↦ ?_, fun hhead ↦ ?_⟩⟩
  · simpa using List.mem_takeWhile_imp hnul
  · have hbytes := quote_notMem_literalLoop hctx .empty lex List.not_mem_nil
    exact hbytes (hbuf ▸ List.takeWhile_subset _ hmem)
  · have hbytes : buf.bytes ≠ [] := fun hnil ↦ hne (by rw [hnil]; rfl)
    have hfirst := head?_literalLoop hctx LiteralBuf.bytes_empty lex (hbuf ▸ hbytes)
    obtain ⟨t, ht⟩ : ∃ t, cstr buf.bytes = '"' :: t := List.head?_eq_some_iff.mp hhead
    obtain ⟨u, hu⟩ := List.takeWhile_prefix (l := buf.bytes) (· ≠ '\x00')
    rw [← hbuf, ← hu, ← cstr, ht] at hfirst
    exact hquote (.inr (Option.some_inj.mp hfirst).symm)

theorem pos_closeCurly_le (hasCurly : Bool) (lex : Lexer) :
    (closeCurly hasCurly lex).pos ≤ lex.pos + hasCurly.toNat := by
  unfold closeCurly
  split
  · next hclose =>
    obtain ⟨rfl, -⟩ := Bool.and_eq_true_iff.mp hclose
    rw [Lexer.advance]
    split <;> simp
  · omega

/-- The first elements of a list are among those that pass the test, if there are enough of them. -/
theorem mem_of_mem_take_takeWhile {s : CStr} {p : Char → Bool} {n : ℕ} {c : Char}
    (hn : n ≤ (s.takeWhile p).length) (hc : c ∈ s.take n) : c ∈ s.takeWhile p := by
  rw [← List.takeWhile_append_dropWhile (p := p) (l := s), List.take_append_of_le_length hn] at hc
  exact List.mem_of_mem_take hc

/-- The name of a variable is made of the bytes of a name, or is one of the special signs. -/
theorem name_handleVariableWordPart {name : CStr}
    (h : handleVariableWordPart lex = some (some name, lex')) (hne : name ≠ []) :
    (∀ c ∈ name, isNameChar c = true) ∨
      ∃ c, name = [c] ∧ isSpecialParameterChar c = true := by
  -- where the name starts
  obtain ⟨lex₁, hlex₁, hin, hpos⟩ : ∃ lex₁,
      (if lex.advance.peek == '{' then lex.advance.advance else lex.advance) = lex₁ ∧
        lex₁.input = lex.input ∧
        lex₁.pos = lex.advance.pos + (lex.advance.peek == '{').toNat := by
    refine ⟨_, rfl, by split <;> simp, ?_⟩
    split
    · next hcurly =>
      have hbrace : lex.advance.peek = '{' := by simpa using hcurly
      rw [Lexer.advance_of_peek (by rw [hbrace]; decide), hbrace]
      rfl
    · next hcurly =>
      rw [Bool.not_eq_true] at hcurly
      rw [hcurly]
      rfl
  have hcut (lex₂ : Lexer) (hin₂ : lex₂.input = lex.input) (n : ℕ) :
      lex₂.xstrdupN (lex.advance.pos + (lex.advance.peek == '{').toNat) n
        = lex₁.rest.take n := by
    rw [Lexer.xstrdupN, ← hpos, hin₂, ← hin, Lexer.rest]
  simp only [handleVariableWordPart, hlex₁] at h
  split at h
  · next hspecial =>
    cases h
    right
    have hnul : lex₁.peek ≠ '\x00' := by
      intro hnul
      rw [hnul] at hspecial
      exact absurd hspecial (by decide)
    obtain ⟨c, t, hr⟩ := Lexer.rest_of_pos_lt (Lexer.pos_lt_of_peek hnul)
    rw [hcut _ (by rw [input_closeCurly, Lexer.input_advance, hin]), hr]
    rw [Lexer.peek_of_rest hr] at hspecial
    exact ⟨c, rfl, hspecial⟩
  · split at h
    · cases h
    · next hwrap =>
      split at h
      · next hzero =>
        split at h <;> cases h
        exact absurd rfl hne
      · next hlen =>
        cases h
        left
        have hlast := pos_closeCurly_le (lex.advance.peek == '{') (lex₁.advanceWhile isNameChar)
        have hwhile : (lex₁.advanceWhile isNameChar).pos
            = lex₁.pos + (lex₁.rest.takeWhile isNameChar).length := rfl
        intro c hc
        rw [hcut _ (by rw [input_closeCurly, Lexer.input_advanceWhile, hin])] at hc
        refine List.mem_takeWhile_imp (mem_of_mem_take_takeWhile ?_ hc)
        omega

/-- What a bracket takes: the bytes before a `]`, and that as well if there is one. -/
theorem handleGlobWordPart_fst {t : CStr} (hnul : NulFree lex.input) (hr : lex.rest = '[' :: t) :
    (handleGlobWordPart lex).1 = '[' :: bracketText t ∨
      (handleGlobWordPart lex).1 = '[' :: (bracketText t ++ [']']) := by
  obtain ⟨hafter, hpasses⟩ := handleGlobWordPart_bracket hr
  have hvalue : (handleGlobWordPart lex).1
      = lex.xstrdupN lex.pos ((handleGlobWordPart lex).2.pos - lex.pos) := by
    rw [handleGlobWordPart, Lexer.peek_of_rest hr, if_neg (by decide)]
    simp [Lexer.xstrdupN]
  have hstop := Lexer.peek_advanceWhile (p := fun c ↦ c != '\x00' && c != ']') rfl lex
  rw [hvalue, hafter]
  generalize lex.advanceWhile (fun c ↦ c != '\x00' && c != ']') = lex₂ at hpasses hstop ⊢
  cases hrest : lex₂.rest with
  | nil =>
    left
    rw [Lexer.advance_of_rest_nil hrest, hpasses.xstrdupN_eq]
  | cons c u =>
    right
    have hmem : c ∈ lex.input := by
      refine List.mem_of_mem_drop (i := lex.pos) ?_
      change c ∈ lex.rest
      rw [hpasses.rest_eq, hrest]
      simp
    have hc : c = ']' := by
      rw [Lexer.peek_of_rest hrest] at hstop
      simpa [show c ≠ '\x00' from fun h ↦ hnul (h ▸ hmem)] using hstop
    rw [(hpasses.trans (.advance hrest)).xstrdupN_eq, hc, List.cons_append]

theorem printable_bracket {t : CStr} (hnul : NulFree lex.input) (hr : lex.rest = '[' :: t)
    (hclosed : (⟨wordGlob, quoteNone, (handleGlobWordPart lex).1⟩ : WordPart).Closed) :
    (⟨wordGlob, quoteNone, (handleGlobWordPart lex).1⟩ : WordPart).Printable := by
  have htext : ∀ c ∈ bracketText t, c ≠ '\x00' ∧ c ≠ ']' := by
    intro c hc
    simpa using List.mem_takeWhile_imp hc
  rcases handleGlobWordPart_fst hnul hr with hvalue | hvalue
  · rw [hvalue] at hclosed
    rcases List.mem_cons.mp (hclosed rfl rfl) with hc | hc
    · exact absurd hc (by decide)
    · exact absurd rfl (htext _ hc).2
  · rw [hvalue]
    exact ⟨rfl, .inr (.inr ⟨_, rfl, fun h ↦ (htext _ h).1 rfl, fun h ↦ (htext _ h).2 rfl⟩)⟩

/-- What `lex_next_word_part` returns has a text, unless it is a `[` that nothing closes. -/
theorem printable_lexNextWordPart (hnul : NulFree lex.input)
    (h : lexNextWordPart lex quoteCtx = some (some part, quoteCtx', lex'))
    (hne : part.value ≠ []) (hclosed : part.Closed) : part.Printable := by
  unfold lexNextWordPart at h
  dsimp only at h
  split_ifs at h with hquote hdollar htilde hglob
  · cases h
  · obtain ⟨⟨name, lex₁⟩, hvar, hpart⟩ := Option.map_eq_some_iff.mp h
    have hsingle : quoteCtx ≠ quoteSingle := by
      rcases hdollar.2 with rfl | rfl <;> decide
    match name with
    | none =>
      cases hpart
      exact ⟨hne, by simp [NulFree], fun h ↦ absurd h hsingle⟩
    | some [] => cases hpart
    | some (c :: name) =>
      cases hpart
      exact ⟨hsingle, hne, name_handleVariableWordPart hvar hne⟩
  · obtain ⟨htilde, hctx, -⟩ := htilde
    have hnul' : lex.peek ≠ '\x00' := by rw [htilde]; decide
    obtain ⟨c, t, hr⟩ := Lexer.rest_of_pos_lt (Lexer.pos_lt_of_peek hnul')
    obtain rfl : c = '~' := (Lexer.peek_of_rest hr).symm.trans htilde
    cases h
    exact ⟨hctx, _, handleTildeWordPart_fst hr, fun _ hc ↦ List.mem_takeWhile_imp hc⟩
  · obtain ⟨hglob, rfl⟩ := hglob
    have hnul' : lex.peek ≠ '\x00' := fun h ↦ by rw [h] at hglob; exact absurd hglob (by decide)
    obtain ⟨c, t, hr⟩ := Lexer.rest_of_pos_lt (Lexer.pos_lt_of_peek hnul')
    rw [Lexer.peek_of_rest hr] at hglob
    by_cases hc : c = '*' ∨ c = '?'
    · have hone : handleGlobWordPart lex = ([c], lex.advance) := by
        rw [handleGlobWordPart, Lexer.peek_of_rest hr, if_pos hc]
      rw [hone] at h
      cases h
      exact ⟨rfl, hc.imp (by rintro rfl; rfl) fun hc ↦ .inl (by rw [hc])⟩
    · obtain rfl : c = '[' := by simpa [isGlobChar, hc] using hglob
      cases h
      exact printable_bracket hnul hr hclosed
  · cases h
    exact printable_literal hquote hne

/-! ## Words and tokens -/

theorem printable_wordLoop {parts parts' : Word} (hnul : NulFree lex.input)
    (h : wordLoop parts quoteCtx lex = some (parts', lex'))
    (hparts : ∀ p ∈ parts, p.Closed → p.Printable) : ∀ p ∈ parts', p.Closed → p.Printable := by
  fun_induction wordLoop parts quoteCtx lex with
  | case1 => cases h; exact hparts
  | case2 => cases h; exact hparts
  | case3 => cases h
  | case4 parts quoteCtx lex hc hend part quoteCtx' lex₁ hpart ih =>
    have hin := (lexNextWordPart_moves hc (by simpa using hend) hpart).1
    refine ih (hin ▸ hnul) h fun p hp hclosed ↦ ?_
    cases part with
    | none => exact hparts p hp hclosed
    | some part =>
      rw [putPart] at hp
      split_ifs at hp with hlength
      · rcases List.mem_append.mp hp with hp | hp
        · exact hparts p hp hclosed
        · obtain rfl := List.mem_singleton.mp hp
          exact printable_lexNextWordPart hnul hpart (List.ne_nil_of_length_pos hlength) hclosed
      · exact hparts p hp hclosed

variable {tok : Token}

/-- Three kinds of tokens: those without a text, and the words with and without the number test. -/
theorem lexerNextToken_cases (h : lexerNextToken lex = some (tok, lex')) :
    (tok = .operator tok.type ∧ tok.type ≠ tokWord ∧ tok.type ≠ tokFd) ∨
      (tok.type = tokWord ∨ tok.type = tokFd) ∧
        ∃ lex₁, wordLoop [] quoteNone (skipWhitespaces lex) = some (tok.parts, lex₁) := by
  unfold lexerNextToken switchToken at h
  dsimp only at h
  split_ifs at h
  iterate 9 (cases h; exact .inl ⟨rfl, by decide, by decide⟩)
  obtain ⟨⟨word, lex₁⟩, hword, hres⟩ := Option.map_eq_some_iff.mp h
  obtain ⟨⟨parts, lex₂⟩, hloop, hw⟩ := Option.map_eq_some_iff.mp hword
  cases hw
  dsimp only at hres
  right
  split_ifs at hres <;> cases hres
  · exact ⟨.inr rfl, _, hloop⟩
  · exact ⟨.inl rfl, _, hloop⟩

theorem printable_lexerNextToken (hnul : NulFree lex.input)
    (h : lexerNextToken lex = some (tok, lex')) : ∀ p ∈ tok.parts, p.Closed → p.Printable := by
  rcases lexerNextToken_cases h with ⟨htok, -⟩ | ⟨-, lex₁, hloop⟩
  · rw [htok]
    exact fun _ hp ↦ absurd hp List.not_mem_nil
  · have hskip : NulFree (skipWhitespaces lex).input := hnul
    exact printable_wordLoop hskip hloop fun _ hp ↦ absurd hp List.not_mem_nil

/-- The text of a number has no other bytes than digits and signs. -/
theorem number_lexerNextToken (h : lexerNextToken lex = some (tok, lex'))
    (hfd : tok.type = tokFd) :
    isWordFd tok.rawValue = true ∧
      ∀ c ∈ tok.rawValue, isdigit c = true ∨ c = '-' ∨ c = '+' := by
  have hraw : tok.rawValue = (⟨tok, lex, lex'⟩ : LexCall).span := by
    rcases switchToken_cases h with ⟨heof, -⟩ | ⟨-, -, hne⟩ | ⟨-, hraw⟩
    · rw [hfd] at heof
      cases heof
    · exact absurd hfd hne
    · exact hraw
  have hword : isWordFd tok.rawValue = true :=
    hraw ▸ ((type_eq_tokFd_iff h (.inr hfd)).mp hfd).1
  refine ⟨hword, ?_⟩
  rw [hraw] at hword ⊢
  rcases (isWordFd_iff (isspace_headD_span lex lex' tok)).mp hword with hdecimal | ⟨hsign, htail⟩
  · exact fun c hc ↦ .inl (hdecimal.2 c hc)
  · generalize (⟨tok, lex, lex'⟩ : LexCall).span = s at hsign htail
    cases s with
    | nil => exact fun _ hc ↦ absurd hc List.not_mem_nil
    | cons d s =>
      rw [List.forall_mem_cons]
      refine ⟨.inr ?_, fun c hc ↦ .inl (htail.2 c hc)⟩
      exact hsign.imp Option.some_inj.mp Option.some_inj.mp

/-- A token of the lexer can be written in its normal form. -/
theorem printable_normal (hnul : NulFree lex.input) (h : lexerNextToken lex = some (tok, lex'))
    (heof : tok.type ≠ tokEof) (hclosed : ∀ p ∈ tok.parts, p.Closed) : tok.normal.Printable := by
  have hparts := printable_lexerNextToken hnul h
  obtain ⟨type, raw, parts⟩ := tok
  cases type with
  | tokWord => exact ⟨fun p hp ↦ hparts p hp (hclosed p hp), rfl⟩
  | tokFd =>
    obtain ⟨hword, hbytes⟩ := number_lexerNextToken h rfl
    exact ⟨hword, hbytes, rfl⟩
  | tokEof => exact absurd rfl heof
  | _ => exact ⟨rfl, rfl⟩

end

@[simp] theorem Token.type_normal (tok : Token) : tok.normal.type = tok.type := by
  obtain ⟨type, raw, parts⟩ := tok
  cases type <;> rfl

@[simp] theorem Token.view_normal (tok : Token) : tok.normal.view = tok.view := by
  obtain ⟨type, raw, parts⟩ := tok
  cases type <;> rfl

@[simp] theorem Token.normal_normal (tok : Token) : tok.normal.normal = tok.normal := by
  obtain ⟨type, raw, parts⟩ := tok
  cases type <;> rfl

/-! ## Lines -/

theorem TokenSource.tokens_elim {σ : Type} [TokenSource σ] (s : σ) :
    TokenSource.tokens s = (TokenSource.next s).elim [] fun x ↦
      if x.1.type = tokEof then [] else x.1 :: TokenSource.tokens x.2 := by
  rw [TokenSource.tokens]
  split
  · next hnext => rw [hnext, Option.elim_none]
  · next hnext =>
    rw [hnext, Option.elim_some]
    split_ifs <;> rfl

section

variable {lex : Lexer}

/-- The stream of a line that the lexer gets through. -/
theorem stream_eq_tokens (h : TokenSource.Ends lex) :
    TokenSource.stream lex = TokenSource.tokens lex ++ [.operator tokEof] := by
  fun_induction TokenSource.tokens lex with
  | case1 lex hnext =>
    rw [TokenSource.Ends, TokenSource.stream_elim, hnext] at h
    obtain ⟨tok, htok, -⟩ := h
    exact absurd htok List.not_mem_nil
  | case2 lex tok lex' hnext heof =>
    rw [TokenSource.stream_elim, hnext, Option.elim_some, if_pos heof]
    rcases lexerNextToken_cases hnext with ⟨htok, -⟩ | ⟨hword | hfd, -⟩
    · rw [htok, heof]
      rfl
    · rw [heof] at hword
      cases hword
    · rw [heof] at hfd
      cases hfd
  | case3 lex tok lex' hnext heof ih =>
    rw [TokenSource.Ends, TokenSource.stream_elim, hnext, Option.elim_some, if_neg heof] at h
    rw [TokenSource.stream_elim, hnext, Option.elim_some, if_neg heof, ih, List.cons_append]
    obtain ⟨t, ht, hteof⟩ := h
    rcases List.mem_cons.mp ht with rfl | ht
    · exact absurd hteof heof
    · exact ⟨t, ht, hteof⟩

theorem printableTokens_normal (hnul : NulFree lex.input)
    (hclosed : ∀ tok ∈ TokenSource.tokens lex, ∀ p ∈ tok.parts, p.Closed) :
    PrintableTokens ((TokenSource.tokens lex).map Token.normal) := by
  fun_induction TokenSource.tokens lex with
  | case1 => trivial
  | case2 => trivial
  | case3 lex tok lex' hnext heof ih =>
    have hin : lex'.input = lex.input := (lexerNextToken_moves hnext heof).1
    obtain ⟨htok, hrest⟩ := List.forall_mem_cons.mp hclosed
    refine ⟨printable_normal hnul hnext heof htok, fun hfd ↦ ?_, ih (hin ▸ hnul) hrest⟩
    rw [tok.type_normal] at hfd
    obtain ⟨tok', lex'', hnext', hop⟩ := FdSource.followed hnext hfd
    have heof' : tok'.type ≠ tokEof := fun heof' ↦ by rw [heof'] at hop; cases hop
    refine ⟨tok'.normal, ?_, by rwa [tok'.type_normal]⟩
    rw [TokenSource.tokens_elim, hnext', Option.elim_some, if_neg heof']
    rfl

end

/-- The tokens of a printed list are the list. -/
theorem tokens_tokensText {toks : List Token} (h : PrintableTokens toks) :
    TokenSource.tokens (Lexer.init (tokensText toks)) = toks := by
  have hstream := lexerInit_stream h
  have hends : TokenSource.Ends (Lexer.init (tokensText toks)) := by
    rw [TokenSource.Ends, hstream]
    exact ⟨.operator tokEof, by simp, rfl⟩
  rw [stream_eq_tokens hends] at hstream
  exact List.append_cancel_right hstream

/-- **The normal form.** A line that the lexer gets through, and in which every `[` is closed, has
the same tokens to the parser's eye as its normal form, which is its own normal form. -/
theorem views_normalLine (line : CStr) (hnul : NulFree line)
    (hends : TokenSource.Ends (Lexer.init line))
    (hclosed : ∀ tok ∈ TokenSource.tokens (Lexer.init line), ∀ p ∈ tok.parts, p.Closed) :
    (TokenSource.stream (Lexer.init (normalLine line))).map Token.view
        = (TokenSource.stream (Lexer.init line)).map Token.view ∧
      normalLine (normalLine line) = normalLine line := by
  have hprintable := printableTokens_normal hnul hclosed
  have hstream := lexerInit_stream hprintable
  constructor
  · rw [normalLine, hstream, stream_eq_tokens hends, List.map_append, List.map_append,
      List.map_map]
    exact congrArg (· ++ _) (List.map_congr_left fun tok _ ↦ tok.view_normal)
  · rw [normalLine, normalLine, tokens_tokensText hprintable, List.map_map]
    exact congrArg tokensText (List.map_congr_left fun tok _ ↦ tok.normal_normal)

/-- The line `a  "b"$c 2>>'d'|[x]*` and `a "b"''${c} 2>> 'd' | [x]''*`. -/
theorem views_normalLine_pipeline :
    (TokenSource.stream (Lexer.init (normalLine "a  \"b\"$c 2>>'d'|[x]*".toList))).map Token.view
        = (TokenSource.stream (Lexer.init "a  \"b\"$c 2>>'d'|[x]*".toList)).map Token.view ∧
      normalLine (normalLine "a  \"b\"$c 2>>'d'|[x]*".toList)
        = normalLine "a  \"b\"$c 2>>'d'|[x]*".toList :=
  views_normalLine _ (by decide) (by rw [TokenSource.Ends]; decide +kernel) (by decide +kernel)

example : normalLine "a  b\"c\"$d 2>e".toList = "a b''\"c\"''$\x7bd\x7d 2> e ".toList := by
  decide +kernel

end Novash
