import Novash.Lexer.Spans
import Novash.Parser.LookedAt

/-!
# The text of a command

Where a command stands in the line is read off the calls of the lexer: it runs from the first byte
of its first token to the last byte of its last one (`sourceText`). `raw_str` is another part of the
line. When `parse_command` looks at the position of the lexer, the first word is already consumed,
so `raw_str` begins behind it, at a blank or an operator, if it is not empty.
-/

namespace Novash

open Foundations TokenType QuoteContext ParserState

/-! ## The calls of the lexer -/

/-- All calls of `lexer_next_token`, up to the one that gives `TOK_EOF` or crashes. -/
def lexCallsFrom (lex : Lexer) : List LexCall :=
  match _hnext : lexerNextToken lex with
  | none => []
  | some (tok, lex') =>
    if _heof : tok.type = tokEof then [⟨tok, lex, lex'⟩] else ⟨tok, lex, lex'⟩ :: lexCallsFrom lex'
termination_by lex.remaining
decreasing_by
  have hmoves := lexerNextToken_moves _hnext _heof
  exact Lexer.remaining_lt hmoves.1 hmoves.2.2 hmoves.2.1

theorem lexCallsFrom_of_next {lex lex' : Lexer} {tok : Token}
    (h : lexerNextToken lex = some (tok, lex')) :
    lexCallsFrom lex =
      ⟨tok, lex, lex'⟩ :: if tok.type = tokEof then [] else lexCallsFrom lex' := by
  rw [lexCallsFrom]
  split
  · next hnone => cases h.symm.trans hnone
  · next hsome =>
    cases h.symm.trans hsome
    split <;> rfl

/-- They give the tokens of the line. -/
theorem map_tok_lexCallsFrom (lex : Lexer) :
    (lexCallsFrom lex).map LexCall.tok = TokenSource.stream lex := by
  fun_induction lexCallsFrom lex with
  | case1 lex hnone =>
    rw [TokenSource.stream]
    split
    · rfl
    · next hsome => cases hnone.symm.trans hsome
  | case2 lex tok lex' hnext heof =>
    rw [TokenSource.stream]
    split
    · next hnone => cases hnext.symm.trans hnone
    · next hsome =>
      cases hnext.symm.trans hsome
      rw [dif_pos heof]
      rfl
  | case3 lex tok lex' hnext heof ih =>
    rw [TokenSource.stream]
    split
    · next hnone => cases hnext.symm.trans hnone
    · next hsome =>
      cases hnext.symm.trans hsome
      rw [dif_neg heof, List.map_cons, ih]

theorem pos_le_of_next {lex lex' : Lexer} {tok : Token}
    (h : lexerNextToken lex = some (tok, lex')) : lex.pos ≤ lex'.pos := by
  by_cases heof : tok.type = tokEof
  · have hskip : lex.pos ≤ (skipWhitespaces lex).pos := Lexer.pos_le_advanceWhile _ _
    rcases switchToken_cases h with ⟨-, -, rfl⟩ | ⟨hne, -⟩ | ⟨hne, -⟩
    · exact hskip.trans (Lexer.pos_le_advance _)
    · exact absurd heof hne
    · exact absurd heof hne
  · exact (lexerNextToken_moves h heof).2.1.le

theorem input_of_next {lex lex' : Lexer} {tok : Token}
    (h : lexerNextToken lex = some (tok, lex')) : lex'.input = lex.input := by
  by_cases heof : tok.type = tokEof
  · rcases switchToken_cases h with ⟨-, -, rfl⟩ | ⟨hne, -⟩ | ⟨hne, -⟩
    · exact Lexer.input_advance _
    · exact absurd heof hne
    · exact absurd heof hne
  · exact (lexerNextToken_moves h heof).1

/-- The calls move forward. -/
theorem pos_le_of_mem_lexCallsFrom {lex : Lexer} {c : LexCall} (h : c ∈ lexCallsFrom lex) :
    lex.pos ≤ c.after.pos := by
  fun_induction lexCallsFrom lex with
  | case1 => exact absurd h List.not_mem_nil
  | case2 lex tok lex' hnext heof =>
    rw [List.mem_singleton.mp h]
    exact pos_le_of_next hnext
  | case3 lex tok lex' hnext heof ih =>
    rcases List.mem_cons.mp h with rfl | h
    · exact pos_le_of_next hnext
    · exact (pos_le_of_next hnext).trans (ih h)

/-! ## The ends of a word -/

/-- A byte at which a word ends. -/
def isDelimiter (c : Char) : Bool := c = '\x00' || isspace c || isMetaChar c

theorem isDelimiter_of_wordLoop (parts : Word) (quoteCtx : QuoteContext) (lex : Lexer)
    {parts' : Word} {lex' : Lexer} (h : wordLoop parts quoteCtx lex = some (parts', lex')) :
    isDelimiter lex'.peek = true := by
  fun_induction wordLoop parts quoteCtx lex with
  | case1 parts quoteCtx lex hnul =>
    cases h
    rw [hnul]
    rfl
  | case2 parts quoteCtx lex _ hend =>
    cases h
    rw [endsWord, Bool.and_eq_true] at hend
    rw [isDelimiter, Bool.or_assoc, hend.2, Bool.or_true]
  | case3 => cases h
  | case4 parts quoteCtx lex _ _ part quoteCtx' lex₁ hpart ih => exact ih h

/-- A word begins at a byte at which none ends, and ends in front of one at which it does. -/
theorem word_ends {lex lex' : Lexer} {tok : Token} (h : lexerNextToken lex = some (tok, lex'))
    (hword : tok.type = tokWord) :
    isDelimiter (skipWhitespaces lex).peek = false ∧ isDelimiter lex'.peek = true ∧
      (skipWhitespaces lex).pos < lex'.pos ∧ lex'.input = lex.input := by
  have hspace : isspace (skipWhitespaces lex).peek = false := Lexer.peek_advanceWhile rfl lex
  unfold lexerNextToken switchToken at h
  dsimp only at h
  split_ifs at h with hpipe _ hamp _ hgt _ hlt hsemi hnul
  -- the operators, and the end of the input
  all_goals try (cases h; cases hword)
  obtain ⟨⟨word, lex₁⟩, hhandle, hres⟩ := Option.map_eq_some_iff.mp h
  have hlex : lex₁ = lex' := by
    dsimp only at hres
    split_ifs at hres <;> cases hres <;> rfl
  subst hlex
  have hend : endsWord quoteNone (skipWhitespaces lex).peek = false := by
    simp [endsWord, isMetaChar, hspace, hpipe, hamp, hgt, hlt, hsemi]
  have hmoves := handleWordToken_moves hnul hend hhandle
  obtain ⟨⟨parts, lex₂⟩, hloop, htok⟩ := Option.map_eq_some_iff.mp hhandle
  cases htok
  refine ⟨?_, isDelimiter_of_wordLoop _ _ _ hloop, hmoves.2, hmoves.1⟩
  simp [isDelimiter, isMetaChar, hspace, hpipe, hamp, hgt, hlt, hsemi, hnul]

/-! ## Where the parser is -/

/-- The calls of the lexer from the lookahead on. -/
def callsAt (line : CStr) (p : ParserState Lexer) : List LexCall :=
  (lexCallsFrom (.init line)).drop ((lexCallsFrom (.init line)).length - p.stream.length)

/-- The calls that gave the tokens which a function of the parser took. -/
def ParseCall.lexCalls (line : CStr) (c : ParseCall Lexer) : List LexCall :=
  (callsAt line c.before).take (c.before.stream.length - c.after.stream.length)

/-- The text of the line from the first byte of the first token to the last byte of the last. -/
def ParseCall.sourceText (line : CStr) (c : ParseCall Lexer) : CStr :=
  match (c.lexCalls line).head?, (c.lexCalls line).getLast? with
  | some first, some last =>
    (line.drop first.start.pos).take (last.after.pos - first.start.pos)
  | _, _ => []

/-- The parser is somewhere on the line: its lookahead was given by one of the calls. -/
def OnLine (line : CStr) (p : ParserState Lexer) : Prop :=
  ∃ pre call, lexCallsFrom (.init line) =
      pre ++ call :: (if p.gTok.type = tokEof then [] else lexCallsFrom p.lex) ∧
    call.tok = p.gTok ∧ call.after = p.lex ∧ call.before.input = line ∧
      lexerNextToken call.before = some (call.tok, call.after)

section

variable {line : CStr} {p p' : ParserState Lexer}

theorem onLine_of_nextToken {g : Token} {heap : ℕ → Bool}
    (h : nextToken ⟨Lexer.init line, g, heap⟩ = .ok p) : OnLine line p := by
  have hnext := next_of_nextToken h
  exact ⟨[], ⟨p.gTok, .init line, p.lex⟩, lexCallsFrom_of_next hnext, rfl, rfl, rfl, hnext⟩

theorem OnLine.takes {toks : List Token} (h : Takes p toks p') (hp : OnLine line p) :
    OnLine line p' := by
  induction h with
  | refl hlex htok =>
    obtain ⟨pre, call, hcalls, htok', hlex', hinput, hnext⟩ := hp
    exact ⟨pre, call, by rw [hcalls, hlex, htok], htok'.trans htok.symm, hlex'.trans hlex.symm,
      hinput, hnext⟩
  | @cons p p₁ _ _ hne hnext _ ih =>
    obtain ⟨pre, call, hcalls, htok', hlex', hinput, hcall⟩ := hp
    refine ih ⟨pre ++ [call], ⟨p₁.gTok, p.lex, p₁.lex⟩, ?_, rfl, rfl, ?_, hnext⟩
    · rw [hcalls, if_neg hne, lexCallsFrom_of_next hnext, List.append_assoc]
      rfl
    · rw [← hlex', input_of_next hcall, hinput]

/-- The calls from the lookahead on begin with the one that gave it. -/
theorem OnLine.callsAt_eq (hp : OnLine line p) : ∃ call rest, callsAt line p = call :: rest ∧
    call.tok = p.gTok ∧ call.after = p.lex ∧ call.before.input = line ∧
      lexerNextToken call.before = some (call.tok, call.after) ∧
        ∀ c ∈ call :: rest, p.lex.pos ≤ c.after.pos := by
  obtain ⟨pre, call, hcalls, htok, hlex, hinput, hnext⟩ := hp
  have hlength : p.stream.length =
      (call :: if p.gTok.type = tokEof then [] else lexCallsFrom p.lex).length := by
    rw [stream, List.length_cons]
    split_ifs
    · rfl
    · rw [List.length_cons, ← map_tok_lexCallsFrom, List.length_map]
  refine ⟨call, if p.gTok.type = tokEof then [] else lexCallsFrom p.lex, ?_, htok, hlex, hinput,
    hnext, List.forall_mem_cons.mpr ⟨by rw [hlex], fun c hc ↦ ?_⟩⟩
  · rw [callsAt, hlength, hcalls, List.length_append, Nat.add_sub_cancel, List.drop_left]
  · split_ifs at hc
    · exact absurd hc List.not_mem_nil
    · exact pos_le_of_mem_lexCallsFrom hc

theorem OnLine.input_eq (hp : OnLine line p) : p.lex.input = line := by
  obtain ⟨-, call, -, -, hlex, hinput, hnext⟩ := hp
  rw [← hlex, input_of_next hnext, hinput]

/-- The first byte of some text of the line. -/
theorem head?_take_drop {s : CStr} {n i : ℕ} (hn : 0 < n) :
    ((s.drop i).take n).head? = s[i]? := by
  rw [List.head?_take, if_neg (by omega), List.head?_drop]

/-- The text of what begins with a word begins with a byte that does not end one. -/
theorem head?_sourceText {c : ParseCall Lexer} {toks : List Token} (hp : OnLine line c.before)
    (hword : c.before.gTok.type = tokWord) (htakes : Takes c.before toks c.after)
    (hne : toks ≠ []) :
    ∃ b, (c.sourceText line).head? = some b ∧ isDelimiter b = false := by
  obtain ⟨call, rest, hcalls, htok, hlex, hinput, hnext, hpos⟩ := hp.callsAt_eq
  obtain ⟨hstart, -, hlt, -⟩ := word_ends hnext (by rw [htok, hword])
  have hlength : c.before.stream.length - c.after.stream.length = toks.length := by
    rw [htakes.stream_eq, List.length_append, Nat.add_sub_cancel]
  obtain ⟨n, hn⟩ := Nat.exists_eq_succ_of_ne_zero (mt List.length_eq_zero_iff.mp hne)
  have hlexCalls : c.lexCalls line = call :: rest.take n := by
    rw [ParseCall.lexCalls, hcalls, hlength, hn, List.take_succ_cons]
  obtain ⟨last, hlast⟩ : ∃ last, (c.lexCalls line).getLast? = some last := by
    rw [hlexCalls]
    exact ⟨_, List.getLast?_cons⟩
  have hmem : last ∈ call :: rest := by
    have hmem := List.mem_of_getLast? hlast
    rw [hlexCalls] at hmem
    exact List.mem_cons.mpr ((List.mem_cons.mp hmem).imp_right List.mem_of_mem_take)
  have hbehind := hpos last hmem
  rw [← hlex] at hbehind
  have hfirst : (c.sourceText line).head? = (line)[call.start.pos]? := by
    rw [ParseCall.sourceText, hlast, hlexCalls]
    refine head?_take_drop (Nat.sub_pos_of_lt ?_)
    exact hlt.trans_le hbehind
  have hnul : call.start.peek ≠ '\x00' := fun hc ↦ by
    change isDelimiter call.start.peek = false at hstart
    rw [hc] at hstart
    exact absurd hstart (by decide)
  have hin : call.start.pos < line.length := by
    have hlt := Lexer.pos_lt_of_peek hnul
    rwa [Lexer.length, show call.start.input = line from hinput] at hlt
  refine ⟨call.start.peek, ?_, hstart⟩
  rw [hfirst, Lexer.peek, show call.start.input = line from hinput,
    List.getD_eq_getElem?_getD, List.getElem?_eq_getElem hin, Option.getD_some]

/-- `raw_str` is empty, or it begins with a byte at which a word ends. -/
theorem rawStr_ne_sourceText {c : ParseCall Lexer} {cmd : CmdNode} {words : List Token}
    {written : List Written} (hp : OnLine line c.before)
    (h : ReadsCommand c.before c.after cmd words written) : cmd.rawStr ≠ c.sourceText line := by
  have hword : c.before.gTok.type = tokWord :=
    h.words_type _ (List.mem_of_head? h.first)
  have hne : words ++ written.flatMap Written.tokens ≠ [] := by
    intro hnil
    have hfirst := h.first
    rw [(List.append_eq_nil_iff.mp hnil).1] at hfirst
    cases hfirst
  obtain ⟨b, hb, hdelimiter⟩ := head?_sourceText hp hword h.takes hne
  obtain ⟨call, rest, -, htok, hlex, hinput, hnext, -⟩ := hp.callsAt_eq
  obtain ⟨-, hends, -, -⟩ := word_ends hnext (by rw [htok, hword])
  rw [hlex] at hends
  intro heq
  rw [← heq, h.rawStr] at hb
  -- the first byte of `raw_str` is the one behind the first word
  have hinput' : TokenSource.input c.after.lex = line := (hp.takes h.takes).input_eq
  rw [hinput', List.head?_take] at hb
  split_ifs at hb
  rw [List.head?_drop] at hb
  have hpeek : c.before.lex.peek = b := by
    rw [Lexer.peek, hp.input_eq, List.getD_eq_getElem?_getD]
    change ((line)[TokenSource.pos c.before.lex]?).getD _ = b
    rw [hb, Option.getD_some]
  rw [hpeek, hdelimiter] at hends
  exact absurd hends (by decide)

end

end Novash
