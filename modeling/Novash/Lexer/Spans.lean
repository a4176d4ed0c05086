import Mathlib.Logic.Relation
import Novash.Lexer.Lexer

/-!
# The tokens of a line

`lexer_next_token` is called until it returns `TOK_EOF`. Each call passes some white space and then
the span of its token, and no call leaves the input: the position stays within its length, since a
byte is passed only where there is one (`Lexer.Within`).

A call has no result when the length of a variable name wraps. `WrapsAt` is the only text at which
that happens (`wrapsAt_of_lexerNextToken`).
-/

namespace Novash

open TokenType WordPartType QuoteContext Relation

namespace Lexer

/-! ## Staying within the input -/

/-- The position is one of the input, or its end. -/
def Within (lex : Lexer) : Prop := lex.pos ≤ lex.length

variable {lex lex' : Lexer}

theorem within_init (input : CStr) : (init input).Within := Nat.zero_le _

theorem Within.advance (h : lex.Within) : lex.advance.Within := by
  unfold Lexer.advance
  split
  · next hlt => exact hlt
  · exact h

theorem Within.advanceWhile (h : lex.Within) (p : Char → Bool) : (lex.advanceWhile p).Within := by
  have hlen : (lex.rest.takeWhile p).length ≤ lex.rest.length :=
    (List.takeWhile_sublist p).length_le
  have hrest : lex.rest.length = lex.input.length - lex.pos := List.length_drop
  have hpos : lex.pos ≤ lex.input.length := h
  change lex.pos + (lex.rest.takeWhile p).length ≤ lex.input.length
  omega

/-- The bytes between two positions of the input, and those after. -/
theorem rest_eq_append (hin : lex'.input = lex.input) (hpos : lex.pos ≤ lex'.pos) :
    lex.rest = lex.xstrdupN lex.pos (lex'.pos - lex.pos) ++ lex'.rest := by
  rw [rest, rest, xstrdupN, hin]
  nth_rewrite 1 [← List.take_append_drop (lex'.pos - lex.pos) (lex.input.drop lex.pos)]
  rw [List.drop_drop, Nat.add_sub_cancel' hpos]

end Lexer

section

variable {lex lex' : Lexer}

theorem within_handleEscape (h : lex.Within) : (handleEscape lex).2.Within := h.advance.advance

theorem within_literalLoop (quoteCtx : QuoteContext) (buf : LiteralBuf) (lex : Lexer)
    (h : lex.Within) : (literalLoop quoteCtx buf lex).2.Within := by
  fun_induction literalLoop quoteCtx buf lex with
  | case1 => exact h
  | case2 => exact h
  | case3 buf lex _ _ _ ih => exact ih (within_handleEscape h)
  | case4 buf lex _ _ _ ih => exact ih h.advance

theorem within_closeCurly (h : lex.Within) (hasCurly : Bool) :
    (closeCurly hasCurly lex).Within := by
  unfold closeCurly
  split
  · exact h.advance
  · exact h

theorem within_handleVariableWordPart {name : Option CStr} (hlex : lex.Within)
    (h : handleVariableWordPart lex = some (name, lex')) : lex'.Within := by
  unfold handleVariableWordPart at h
  dsimp only at h
  have hopen : (if lex.advance.peek == '{' then lex.advance.advance else lex.advance).Within := by
    split
    · exact hlex.advance.advance
    · exact hlex.advance
  generalize (if lex.advance.peek == '{' then lex.advance.advance else lex.advance) = lex₁
    at h hopen
  split at h
  · cases h
    exact within_closeCurly hopen.advance _
  · have hclose := within_closeCurly (hopen.advanceWhile isNameChar) (lex.advance.peek == '{')
    split at h
    · cases h
    · split at h <;> cases h <;> exact hclose

theorem within_handleGlobWordPart (h : lex.Within) : (handleGlobWordPart lex).2.Within := by
  unfold handleGlobWordPart
  dsimp only
  split
  · exact h.advance
  · exact (h.advanceWhile _).advance

theorem within_lexNextWordPart {quoteCtx quoteCtx' : QuoteContext} {part : Option WordPart}
    (hlex : lex.Within) (h : lexNextWordPart lex quoteCtx = some (part, quoteCtx', lex')) :
    lex'.Within := by
  unfold lexNextWordPart at h
  dsimp only at h
  split at h
  · cases h
    exact hlex.advance
  split at h
  · obtain ⟨⟨name, lex₁⟩, hvar, hpart⟩ := Option.map_eq_some_iff.mp h
    have hwithin := within_handleVariableWordPart hlex hvar
    split at hpart <;> next heq => cases heq; cases hpart; exact hwithin
  split at h
  · cases h
    exact hlex.advance.advanceWhile _
  split at h
  · cases h
    exact within_handleGlobWordPart hlex
  · cases h
    exact within_literalLoop _ _ _ hlex

theorem within_wordLoop (parts : Word) (quoteCtx : QuoteContext) (lex : Lexer) {parts' : Word}
    (hlex : lex.Within) (h : wordLoop parts quoteCtx lex = some (parts', lex')) : lex'.Within := by
  fun_induction wordLoop parts quoteCtx lex with
  | case1 => cases h; exact hlex
  | case2 => cases h; exact hlex
  | case3 => cases h
  | case4 parts quoteCtx lex _ _ part quoteCtx' lex₁ hpart ih =>
    exact ih (within_lexNextWordPart hlex hpart) h

theorem within_handleWordToken {tok : Token} (hlex : lex.Within)
    (h : handleWordToken lex = some (tok, lex')) : lex'.Within := by
  obtain ⟨⟨parts, lex₁⟩, hloop, htok⟩ := Option.map_eq_some_iff.mp h
  cases htok
  exact within_wordLoop _ _ _ hlex hloop

theorem within_switchToken {tok : Token} (hlex : lex.Within)
    (h : switchToken lex = some (tok, lex')) : lex'.Within := by
  unfold switchToken at h
  dsimp only at h
  split_ifs at h
  · cases h; exact hlex.advance.advance
  · cases h; exact hlex.advance
  · cases h; exact hlex.advance.advance
  · cases h; exact hlex.advance
  · cases h; exact hlex.advance.advance
  · cases h; exact hlex.advance
  · cases h; exact hlex.advance
  · cases h; exact hlex.advance
  · cases h; exact hlex.advance
  · obtain ⟨⟨word, lex₁⟩, hword, hres⟩ := Option.map_eq_some_iff.mp h
    have hwithin := within_handleWordToken hlex hword
    dsimp only at hres
    split_ifs at hres <;> cases hres <;> exact hwithin

/-! ## Where a name wraps -/

/-- `${`, followed by neither a name nor a special parameter nor `}`. -/
def WrapsAt (s : CStr) : Prop :=
  ∃ t, s = '$' :: '{' :: t ∧ isNameChar (t.headD '\x00') = false ∧
    isSpecialParameterChar (t.headD '\x00') = false ∧ t.headD '\x00' ≠ '}'

theorem Lexer.peek_eq_headD (lex : Lexer) : lex.peek = lex.rest.headD '\x00' := by
  cases hr : lex.rest with
  | nil => exact Lexer.peek_of_rest_nil hr
  | cons c t => exact Lexer.peek_of_rest hr

/-- The length wraps behind an open brace only, when less than two bytes were passed. -/
theorem handleVariableWordPart_eq_none (h : handleVariableWordPart lex = none) :
    lex.advance.peek = '{' ∧ isSpecialParameterChar lex.advance.advance.peek = false ∧
      (closeCurly true (lex.advance.advance.advanceWhile isNameChar)).pos - lex.advance.pos
        < 2 := by
  unfold handleVariableWordPart at h
  dsimp only at h
  by_cases hcurly : lex.advance.peek = '{'
  · have htrue : (lex.advance.peek == '{') = true := by simpa using hcurly
    simp only [htrue, ↓reduceIte] at h
    obtain ⟨-, h⟩ | ⟨hspecial, h⟩ := ite_eq_iff.mp h
    · cases h
    obtain ⟨hwrap, -⟩ | ⟨-, h⟩ := ite_eq_iff.mp h
    · exact ⟨hcurly, by simpa using hspecial, hwrap⟩
    · split at h <;> cases h
  · have hfalse : (lex.advance.peek == '{') = false := by simpa using hcurly
    simp only [hfalse, Bool.false_eq_true, ↓reduceIte] at h
    obtain ⟨-, h⟩ | ⟨-, h⟩ := ite_eq_iff.mp h
    · cases h
    obtain ⟨hwrap, -⟩ | ⟨-, h⟩ := ite_eq_iff.mp h
    · exact absurd hwrap (Nat.not_lt_zero _)
    · split at h <;> cases h

theorem wrapsAt_of_handleVariableWordPart {t : CStr} (hr : lex.rest = '$' :: t)
    (h : handleVariableWordPart lex = none) : WrapsAt lex.rest := by
  obtain ⟨hcurly, hspecial, hwrap⟩ := handleVariableWordPart_eq_none h
  have hr₁ : lex.advance.rest = t := by
    rw [Lexer.advance_of_rest hr, Lexer.rest_skip_one hr]
  obtain ⟨u, hu⟩ : ∃ u, t = '{' :: u := by
    rw [Lexer.peek_eq_headD, hr₁] at hcurly
    cases t with
    | nil => cases hcurly
    | cons c u => exact ⟨u, congrArg (· :: u) hcurly⟩
  subst hu
  have hr₂ : (lex.advance.skip 1).rest = u := Lexer.rest_skip_one hr₁
  have hpeek : (lex.advance.skip 1).peek = u.headD '\x00' := by rw [Lexer.peek_eq_headD, hr₂]
  rw [Lexer.advance_of_rest hr₁] at hspecial hwrap
  rw [hpeek] at hspecial
  -- the name is empty, and nothing was passed after it
  have hname : (u.takeWhile isNameChar).length = 0 := by
    have hle := pos_le_closeCurly true ((lex.advance.skip 1).advanceWhile isNameChar)
    rw [Lexer.advanceWhile, hr₂] at hle hwrap
    simp only [Lexer.pos_skip] at hle hwrap
    omega
  have hclosed : u.headD '\x00' ≠ '}' := by
    intro hbrace
    have hstay : (lex.advance.skip 1).advanceWhile isNameChar = lex.advance.skip 1 := by
      rw [Lexer.advanceWhile, hr₂, hname, Lexer.skip_zero]
    rw [hstay, closeCurly, hpeek, hbrace] at hwrap
    have hne : (lex.advance.skip 1).peek ≠ '\x00' := by rw [hpeek, hbrace]; decide
    simp only [BEq.rfl, Bool.and_self, ↓reduceIte, Lexer.advance_of_peek hne, Lexer.pos_skip]
      at hwrap
    omega
  refine ⟨u, hr, ?_, hspecial, hclosed⟩
  cases u with
  | nil => rfl
  | cons c u =>
    by_contra hc
    rw [List.takeWhile_cons_of_pos (by simpa using hc)] at hname
    cases hname

theorem wrapsAt_of_lexNextWordPart {quoteCtx : QuoteContext}
    (h : lexNextWordPart lex quoteCtx = none) : WrapsAt lex.rest := by
  unfold lexNextWordPart at h
  dsimp only at h
  split at h
  · cases h
  split at h
  · next hdollar =>
    have hne : lex.peek ≠ '\x00' := by rw [hdollar.1]; decide
    obtain ⟨c, t, hr⟩ := Lexer.rest_of_pos_lt (Lexer.pos_lt_of_peek hne)
    have hc : c = '$' := (Lexer.peek_of_rest hr).symm.trans hdollar.1
    subst hc
    exact wrapsAt_of_handleVariableWordPart hr (Option.map_eq_none_iff.mp h)
  split at h
  · cases h
  split at h <;> cases h

theorem wrapsAt_of_wordLoop (parts : Word) (quoteCtx : QuoteContext) (lex : Lexer)
    (h : wordLoop parts quoteCtx lex = none) :
    ∃ lex₁ : Lexer, lex₁.input = lex.input ∧ WrapsAt lex₁.rest := by
  fun_induction wordLoop parts quoteCtx lex with
  | case1 => cases h
  | case2 => cases h
  | case3 parts quoteCtx lex _ _ hpart => exact ⟨lex, rfl, wrapsAt_of_lexNextWordPart hpart⟩
  | case4 parts quoteCtx lex hnul hend part quoteCtx' lex₁ hpart ih =>
    obtain ⟨lex', hin, hwraps⟩ := ih h
    have hmoves := lexNextWordPart_moves hnul (by simpa using hend) hpart
    exact ⟨lex', hin.trans hmoves.1, hwraps⟩

/-- A call that has no result has met such a text. -/
theorem wrapsAt_of_lexerNextToken (h : lexerNextToken lex = none) :
    ∃ pre s, lex.input = pre ++ s ∧ WrapsAt s := by
  have hloop : wordLoop [] quoteNone (skipWhitespaces lex) = none := by
    unfold lexerNextToken switchToken at h
    dsimp only at h
    split_ifs at h
    exact Option.map_eq_none_iff.mp (Option.map_eq_none_iff.mp h)
  obtain ⟨lex', hin, hwraps⟩ := wrapsAt_of_wordLoop _ _ _ hloop
  refine ⟨lex'.input.take lex'.pos, lex'.rest, ?_, hwraps⟩
  have hskip : (skipWhitespaces lex).input = lex.input := rfl
  rw [Lexer.rest, List.take_append_drop, hin, hskip]

/-! ## One call -/

/-- The three kinds of tokens: `TOK_EOF`, at a NUL; the operators; and the words. -/
theorem switchToken_cases {tok : Token} (h : switchToken lex = some (tok, lex')) :
    (tok.type = tokEof ∧ lex.peek = '\x00' ∧ lex' = lex.advance) ∨
    (tok.type ≠ tokEof ∧ tok.type ≠ tokWord ∧ tok.type ≠ tokFd) ∨
    (tok.type ≠ tokEof ∧ tok.rawValue = lex.xstrdupN lex.pos (lex'.pos - lex.pos)) := by
  unfold switchToken at h
  dsimp only at h
  split_ifs at h with hpipe _ hamp _ hgt _ hlt hsemi hnul
  · cases h; exact Or.inr (Or.inl (by decide))
  · cases h; exact Or.inr (Or.inl (by decide))
  · cases h; exact Or.inr (Or.inl (by decide))
  · cases h; exact Or.inr (Or.inl (by decide))
  · cases h; exact Or.inr (Or.inl (by decide))
  · cases h; exact Or.inr (Or.inl (by decide))
  · cases h; exact Or.inr (Or.inl (by decide))
  · cases h; exact Or.inr (Or.inl (by decide))
  · cases h; exact Or.inl ⟨rfl, hnul, rfl⟩
  · obtain ⟨⟨word, lex₁⟩, hword, hres⟩ := Option.map_eq_some_iff.mp h
    obtain ⟨⟨parts, lex₂⟩, -, hw⟩ := Option.map_eq_some_iff.mp hword
    cases hw
    dsimp only at hres
    split_ifs at hres <;> cases hres <;> exact Or.inr (Or.inr ⟨by simp, rfl⟩)

end

/-- A call of `lexer_next_token` that has a result. -/
structure LexCall where
  tok : Token
  before : Lexer
  after : Lexer

namespace LexCall

/-- The lexer at the first byte of the token. -/
def start (c : LexCall) : Lexer := skipWhitespaces c.before

/-- The bytes passed before the token. -/
def blank (c : LexCall) : CStr := c.before.xstrdupN c.before.pos (c.start.pos - c.before.pos)

/-- The bytes of the token. -/
def span (c : LexCall) : CStr := c.start.xstrdupN c.start.pos (c.after.pos - c.start.pos)

/-- What there is to say about one call. -/
structure Ok (c : LexCall) : Prop where
  input_eq : c.after.input = c.before.input
  start_le : c.before.pos ≤ c.start.pos
  within : c.after.Within
  blank_space : ∀ b ∈ c.blank, isspace b = true
  eof : c.tok.type = tokEof → c.start.pos = c.after.pos ∧ c.after.pos = c.after.length
  progress : c.tok.type ≠ tokEof → c.start.pos < c.after.pos
  rawValue_eq : c.tok.type = tokWord ∨ c.tok.type = tokFd → c.tok.rawValue = c.span

theorem blank_eq (c : LexCall) : c.blank = c.before.rest.takeWhile isspace := by
  have hpos : c.start.pos - c.before.pos = (c.before.rest.takeWhile isspace).length :=
    Nat.add_sub_cancel_left _ _
  rw [blank, hpos, Lexer.xstrdupN, ← Lexer.rest]
  nth_rewrite 2 [← List.takeWhile_append_dropWhile (p := isspace) (l := c.before.rest)]
  rw [List.take_left]

theorem skipWhitespaces_skipWhitespaces (lex : Lexer) :
    skipWhitespaces (skipWhitespaces lex) = skipWhitespaces lex := by
  have hstops := List.head?_dropWhile_not isspace lex.rest
  rw [skipWhitespaces, skipWhitespaces, Lexer.advanceWhile, Lexer.rest_advanceWhile]
  cases hr : lex.rest.dropWhile isspace with
  | nil => rfl
  | cons c t =>
    rw [hr] at hstops
    rw [List.takeWhile_cons_of_neg (by simpa using hstops)]
    rfl

/-- The end of the input is found only where the input ends, and the lexer stays there. -/
theorem end_of_lexerNextToken {lex lex' : Lexer} {tok : Token} (hlex : lex.Within)
    (hnul : NulFree lex.input) (h : lexerNextToken lex = some (tok, lex'))
    (htok : tok.type = tokEof) :
    (skipWhitespaces lex).pos = lex'.pos ∧ lex'.input = lex.input ∧ lex'.pos = lex'.length := by
  obtain ⟨hpeek, hlex'⟩ : (skipWhitespaces lex).peek = '\x00' ∧
      lex' = (skipWhitespaces lex).advance := by
    rcases switchToken_cases h with heof | hop | hword
    · exact heof.2
    · exact absurd htok hop.1
    · exact absurd htok hword.1
  have hend : (skipWhitespaces lex).pos = lex.input.length := by
    refine le_antisymm (hlex.advanceWhile isspace) (Nat.le_of_not_lt fun hlt ↦ ?_)
    obtain ⟨c, t, hr⟩ := Lexer.rest_of_pos_lt hlt
    rw [Lexer.peek_of_rest hr] at hpeek
    have hmem : c ∈ (skipWhitespaces lex).rest := hr ▸ List.mem_cons_self
    exact hnul (hpeek ▸ List.mem_of_mem_drop hmem)
  have hstay : (skipWhitespaces lex).advance = skipWhitespaces lex :=
    if_neg (by change ¬(skipWhitespaces lex).pos < lex.input.length; omega)
  rw [hlex', hstay]
  exact ⟨rfl, rfl, hend⟩

theorem ok_of_lexerNextToken {lex lex' : Lexer} {tok : Token} (hlex : lex.Within)
    (hnul : NulFree lex.input) (h : lexerNextToken lex = some (tok, lex')) :
    (⟨tok, lex, lex'⟩ : LexCall).Ok := by
  have hstart : lexerNextToken (skipWhitespaces lex) = some (tok, lex') := by
    rw [lexerNextToken, skipWhitespaces_skipWhitespaces]
    exact h
  have hwithin' := within_switchToken (hlex.advanceWhile isspace) h
  have hend := end_of_lexerNextToken hlex hnul h
  have hmoves : tok.type ≠ tokEof → lex'.input = lex.input ∧ (skipWhitespaces lex).pos < lex'.pos :=
    fun htok ↦ ⟨(lexerNextToken_moves hstart htok).1, (lexerNextToken_moves hstart htok).2.1⟩
  refine ⟨?_, Lexer.pos_le_advanceWhile _ _, hwithin', ?_,
    fun htok ↦ ⟨(hend htok).1, (hend htok).2.2⟩, fun htok ↦ (hmoves htok).2, fun htok ↦ ?_⟩
  · by_cases htok : tok.type = tokEof
    · exact (hend htok).2.1
    · exact (hmoves htok).1
  · intro b hb
    rw [blank_eq] at hb
    exact List.mem_takeWhile_imp hb
  · rcases switchToken_cases h with heof | hop | hword
    · rw [heof.1] at htok
      rcases htok with htok | htok <;> cases htok
    · exact htok.elim (absurd · hop.2.1) (absurd · hop.2.2)
    · exact hword.2

end LexCall

/-! ## All calls -/

/-- The first `n` calls, none after a `TOK_EOF`. -/
def lexCalls : ℕ → Lexer → Option (List LexCall)
  | 0, _ => some []
  | n + 1, lex =>
    match lexerNextToken lex with
    | none => none
    | some (tok, lex') =>
      if tok.type = tokEof then some [⟨tok, lex, lex'⟩]
      else (lexCalls n lex').map (⟨tok, lex, lex'⟩ :: ·)

/-- Calls that take a lexer to the end of its input. -/
structure Tiles (lex : Lexer) (calls : List LexCall) : Prop where
  last : ∃ c, calls.getLast? = some c ∧ c.tok.type = tokEof ∧ c.after.pos = lex.length
  first : ∀ c ∈ calls.head?, c.before = lex
  chain : calls.IsChain fun c c' ↦ c'.before = c.after
  length_le : calls.length ≤ lex.remaining + 1
  ok : ∀ c ∈ calls, c.Ok
  tile : calls.flatMap (fun c ↦ c.blank ++ c.span) = lex.rest

theorem LexCall.Ok.rest_eq {c : LexCall} (h : c.Ok) :
    c.before.rest = c.blank ++ c.span ++ c.after.rest := by
  have hpos : c.start.pos ≤ c.after.pos := by
    by_cases htok : c.tok.type = tokEof
    · exact (h.eof htok).1.le
    · exact (h.progress htok).le
  have hstart := Lexer.rest_eq_append (show c.start.input = c.before.input from rfl) h.start_le
  have hspan := Lexer.rest_eq_append (show c.after.input = c.start.input from h.input_eq) hpos
  rw [hstart, hspan, ← List.append_assoc]
  rfl

theorem tiles_of_lexCalls (n : ℕ) : ∀ {lex : Lexer}, lex.Within → NulFree lex.input →
    lex.remaining < n → lexCalls n lex ≠ none →
    ∃ calls, lexCalls n lex = some calls ∧ Tiles lex calls := by
  induction n with
  | zero => intro lex _ _ hn; exact absurd hn (Nat.not_lt_zero _)
  | succ n ih =>
    intro lex hlex hnul hn hwrap
    rw [lexCalls] at hwrap ⊢
    cases hcall : lexerNextToken lex with
    | none => rw [hcall] at hwrap; exact absurd rfl hwrap
    | some result =>
      obtain ⟨tok, lex'⟩ := result
      rw [hcall] at hwrap
      dsimp only at hwrap ⊢
      have hok := LexCall.ok_of_lexerNextToken hlex hnul hcall
      have hrest := hok.rest_eq
      have hlen : lex'.length = lex.length := congrArg List.length hok.input_eq
      by_cases htok : tok.type = tokEof
      · rw [if_pos htok]
        obtain ⟨hspan, hend⟩ := hok.eof htok
        have hnil : lex'.rest = [] := List.drop_eq_nil_iff.mpr hend.ge
        dsimp only at hrest
        rw [hnil, List.append_nil] at hrest
        exact ⟨_, rfl, ⟨_, rfl, htok, hend.trans hlen⟩, by simp, by simp, by simp,
          by simpa using hok, by simpa using hrest.symm⟩
      · rw [if_neg htok] at hwrap ⊢
        have hprogress : lex.pos < lex'.pos := hok.start_le.trans_lt (hok.progress htok)
        have hwithin : lex'.Within := hok.within
        have hin : lex'.pos ≤ lex'.length := hwithin
        have hremaining : lex'.remaining < lex.remaining := by
          rw [Lexer.remaining, Lexer.remaining, hlen]
          omega
        obtain ⟨calls, hcalls, htiles⟩ := ih hwithin (hok.input_eq ▸ hnul) (by omega)
          fun hnone ↦ hwrap (by rw [hnone]; rfl)
        refine ⟨⟨tok, lex, lex'⟩ :: calls, by rw [hcalls]; rfl, ?_, by simp, ?_, ?_, ?_, ?_⟩
        · obtain ⟨c, hlast, heof, hpos⟩ := htiles.last
          exact ⟨c, by rw [List.getLast?_cons, hlast]; rfl, heof, hpos.trans hlen⟩
        · exact List.isChain_cons.mpr ⟨htiles.first, htiles.chain⟩
        · have := htiles.length_le
          rw [List.length_cons]
          omega
        · intro c hc
          rcases List.mem_cons.mp hc with rfl | hc
          · exact hok
          · exact htiles.ok c hc
        · rw [List.flatMap_cons, htiles.tile]
          exact hrest.symm

/-- Calls run out of results at a text where a name wraps only. -/
theorem wrapsAt_of_lexCalls (n : ℕ) : ∀ {lex : Lexer}, lex.Within → NulFree lex.input →
    lexCalls n lex = none → ∃ pre s, lex.input = pre ++ s ∧ WrapsAt s := by
  induction n with
  | zero => intro lex _ _ h; cases h
  | succ n ih =>
    intro lex hlex hnul h
    rw [lexCalls] at h
    cases hcall : lexerNextToken lex with
    | none => exact wrapsAt_of_lexerNextToken hcall
    | some result =>
      obtain ⟨tok, lex'⟩ := result
      rw [hcall] at h
      dsimp only at h
      have hok := LexCall.ok_of_lexerNextToken hlex hnul hcall
      split at h
      · cases h
      · have hin : lex'.input = lex.input := hok.input_eq
        obtain ⟨pre, s, hs, hwraps⟩ :=
          ih hok.within (hin ▸ hnul) (Option.map_eq_none_iff.mp h)
        exact ⟨pre, s, hin.symm.trans hs, hwraps⟩

/-- On a line without NULs, `lexer_next_token` reaches `TOK_EOF` within `length + 1` calls, unless
the length of a variable name wraps, which takes a `${` followed by neither a name nor a special
parameter nor `}`. The calls pass the whole line: white space, and the spans of the tokens. -/
theorem lexCalls_tiles {input : CStr} (hnul : NulFree input) :
    ((∃ n, lexCalls n (.init input) = none) → ∃ pre s, input = pre ++ s ∧ WrapsAt s) ∧
    ((∀ n, lexCalls n (.init input) ≠ none) →
      ∃ calls, lexCalls (input.length + 1) (.init input) = some calls ∧
        Tiles (.init input) calls) := by
  refine ⟨fun ⟨n, hnone⟩ ↦ wrapsAt_of_lexCalls n (Lexer.within_init input) hnul hnone,
    fun hwrap ↦ ?_⟩
  exact tiles_of_lexCalls _ (Lexer.within_init input) hnul (Nat.lt_succ_self _) (hwrap _)

theorem lexCalls_tiles_redirection :
    ∃ calls, lexCalls 7 (.init "ls > a".toList) = some calls ∧
      Tiles (.init "ls > a".toList) calls := by
  have hnul : NulFree "ls > a".toList := by decide
  refine (lexCalls_tiles hnul).2 fun n hnone ↦ ?_
  obtain ⟨pre, s, hinput, t, rfl, -⟩ := (lexCalls_tiles hnul).1 ⟨n, hnone⟩
  have hdollar : '$' ∈ "ls > a".toList := by
    rw [hinput]
    exact List.mem_append_right _ List.mem_cons_self
  exact absurd hdollar (by decide)

end Novash
