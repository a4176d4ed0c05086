import Mathlib.Data.List.GetD
import Novash.Lexer.Reading

/-!
# Lexing a part of a line

A lexer over `pre ++ w ++ post` that starts behind `pre` does what a lexer over `w` does, as long as
it does not come to the end of `w`. When nothing comes after `w` it may come to its end as well.
`Inside` is that condition; it is asked of the lexer that a function leaves behind, and since no
function moves backwards it then holds of every lexer on the way.

Only `~` looks at the byte before it, so `pre` must not end in one.
-/

namespace Novash

open TokenType WordPartType QuoteContext

/-- The lexer, with something before its input and something after it. -/
def Lexer.embed (pre post : CStr) (lex : Lexer) : Lexer :=
  ⟨pre ++ (lex.input ++ post), pre.length + lex.pos⟩

/-- The lexer has not come to the end of its input, or nothing comes after it. -/
def Lexer.Inside (post : CStr) (lex : Lexer) : Prop := lex.pos < lex.length ∨ post = []

section

variable {pre post : CStr} {lex lex' : Lexer}

namespace Lexer

theorem Inside.of_le (h : lex'.Inside post) (hin : lex'.input = lex.input)
    (hle : lex.pos ≤ lex'.pos) : lex.Inside post := by
  refine h.imp_left fun hlt ↦ hle.trans_lt ?_
  rwa [length, hin] at hlt

theorem Inside.of_advance (h : lex.advance.Inside post) : lex.Inside post :=
  h.of_le (input_advance lex) (pos_le_advance lex)

theorem Inside.of_advanceWhile {p : Char → Bool} (h : (lex.advanceWhile p).Inside post) :
    lex.Inside post :=
  h.of_le (input_advanceWhile p lex) (pos_le_advanceWhile p lex)

/-! ## Peeking and advancing -/

theorem pos_embed (pre post : CStr) (lex : Lexer) :
    (lex.embed pre post).pos = pre.length + lex.pos := rfl

theorem embed_skip (pre post : CStr) (lex : Lexer) (n : ℕ) :
    (lex.skip n).embed pre post = (lex.embed pre post).skip n := by
  rw [embed, embed, skip, skip, Nat.add_assoc]

theorem getD_embed (h : lex.pos < lex.length ∨ post = []) :
    (lex.input ++ post).getD lex.pos '\x00' = lex.input.getD lex.pos '\x00' := by
  rcases h with h | rfl
  · exact List.getD_append _ _ _ _ h
  · rw [List.append_nil]

theorem peek_embed (h : lex.Inside post) : (lex.embed pre post).peek = lex.peek := by
  rw [peek, peek, embed, List.getD_append_right _ _ _ _ (Nat.le_add_right _ _),
    Nat.add_sub_cancel_left, getD_embed h]

theorem length_embed (pre post : CStr) (lex : Lexer) :
    (lex.embed pre post).length = pre.length + (lex.length + post.length) := by
  rw [length, length, embed, List.length_append, List.length_append]

theorem advance_embed (h : lex.Inside post) :
    (lex.embed pre post).advance = lex.advance.embed pre post := by
  have hiff : (lex.embed pre post).pos < (lex.embed pre post).length ↔ lex.pos < lex.length := by
    rw [length_embed, embed, Nat.add_lt_add_iff_left]
    rcases h with h | rfl
    · exact iff_of_true (Nat.lt_add_right _ h) h
    · rw [List.length_nil, Nat.add_zero]
  rw [advance, advance]
  by_cases hlt : lex.pos < lex.length
  · rw [if_pos hlt, if_pos (hiff.mpr hlt), embed_skip]
  · rw [if_neg hlt, if_neg (mt hiff.mp hlt)]

theorem rest_embed (h : lex.Inside post) : (lex.embed pre post).rest = lex.rest ++ post := by
  rw [rest, rest, embed, ← List.drop_drop, List.drop_left]
  rcases h with h | rfl
  · exact List.drop_append_of_le_length h.le
  · rw [List.append_nil, List.append_nil]

theorem advanceWhile_embed {p : Char → Bool} (h : (lex.advanceWhile p).Inside post) :
    (lex.embed pre post).advanceWhile p = (lex.advanceWhile p).embed pre post := by
  have htake : (lex.rest ++ post).takeWhile p = lex.rest.takeWhile p := by
    rcases h with h | rfl
    · have hshort : (lex.rest.takeWhile p).length ≠ lex.rest.length := by
        intro heq
        rw [advanceWhile, pos_skip, heq, rest, List.length_drop] at h
        simp only [length, input_skip] at h
        omega
      rw [List.takeWhile_append, if_neg hshort]
    · rw [List.append_nil]
  rw [advanceWhile, advanceWhile, rest_embed h.of_advanceWhile, htake, embed_skip]

theorem xstrdupN_embed {start n : ℕ} (h : start + n ≤ lex.length ∨ post = []) :
    (lex.embed pre post).xstrdupN (pre.length + start) n = lex.xstrdupN start n := by
  rw [xstrdupN, xstrdupN, embed, ← List.drop_drop, List.drop_left]
  rcases h with h | rfl
  · rw [length] at h
    rw [List.drop_append_of_le_length (by omega), List.take_append_of_le_length]
    rw [List.length_drop]
    omega
  · rw [List.append_nil]

end Lexer

/-! ## Literals -/

theorem handleEscape_embed (h : (handleEscape lex).2.Inside post) :
    handleEscape (lex.embed pre post)
      = ((handleEscape lex).1, (handleEscape lex).2.embed pre post) := by
  have h₁ : lex.advance.Inside post := Lexer.Inside.of_advance h
  rw [handleEscape, Lexer.advance_embed h₁.of_advance, Lexer.peek_embed h₁,
    Lexer.advance_embed h₁]
  rfl

theorem literalLoop_embed (quoteCtx : QuoteContext) (buf : LiteralBuf) (lex : Lexer) :
    (literalLoop quoteCtx buf lex).2.Inside post →
      literalLoop quoteCtx buf (lex.embed pre post)
        = ((literalLoop quoteCtx buf lex).1,
            (literalLoop quoteCtx buf lex).2.embed pre post) := by
  fun_induction literalLoop quoteCtx buf lex with
  | case1 buf lex hnul =>
    intro h
    rw [literalLoop, dif_pos (by rwa [Lexer.peek_embed h])]
  | case2 buf lex hnul hend =>
    intro h
    rw [literalLoop, Lexer.peek_embed h, dif_neg hnul, if_pos hend]
  | case3 buf lex hnul hend hesc ih =>
    intro h
    have h₁ : (handleEscape lex).2.Inside post :=
      h.of_le (input_literalLoop _ _ _) (pos_le_literalLoop _ _ _)
    have h₀ : lex.Inside post := h₁.of_le (input_handleEscape lex) (pos_lt_handleEscape hnul).le
    rw [literalLoop, Lexer.peek_embed h₀, dif_neg hnul, if_neg hend, if_pos hesc,
      handleEscape_embed h₁]
    exact ih h
  | case4 buf lex hnul hend hesc ih =>
    intro h
    have h₁ : lex.advance.Inside post :=
      h.of_le (input_literalLoop _ _ _) (pos_le_literalLoop _ _ _)
    rw [literalLoop, Lexer.peek_embed h₁.of_advance, dif_neg hnul, if_neg hend, if_neg hesc,
      Lexer.advance_embed h₁.of_advance]
    exact ih h

theorem handleLiteral_embed {quoteCtx : QuoteContext}
    (h : (handleLiteral lex quoteCtx).2.Inside post) :
    handleLiteral (lex.embed pre post) quoteCtx
      = ((handleLiteral lex quoteCtx).1, (handleLiteral lex quoteCtx).2.embed pre post) := by
  rw [handleLiteral, literalLoop_embed _ _ _ h]
  rfl

/-! ## Variables, tildes and wildcards -/

theorem Lexer.Inside.of_closeCurly {hasCurly : Bool} (h : (closeCurly hasCurly lex).Inside post) :
    lex.Inside post := h.of_le (input_closeCurly _ _) (pos_le_closeCurly _ _)

theorem closeCurly_embed {hasCurly : Bool} (h : (closeCurly hasCurly lex).Inside post) :
    closeCurly hasCurly (lex.embed pre post) = (closeCurly hasCurly lex).embed pre post := by
  have h₀ : lex.Inside post := Lexer.Inside.of_closeCurly h
  rw [closeCurly, closeCurly, Lexer.peek_embed h₀, Lexer.advance_embed h₀]
  split <;> rfl

/-- The text up to where the lexer is now. -/
theorem text_embed {start : ℕ} (h : lex.Inside post) (hle : start ≤ lex.pos) :
    (lex.embed pre post).xstrdupN (pre.length + start)
        ((lex.embed pre post).pos - (pre.length + start))
      = lex.xstrdupN start (lex.pos - start) := by
  have hend : start + (lex.pos - start) ≤ lex.length ∨ post = [] :=
    h.imp_left fun hlt ↦ (Nat.add_sub_cancel' hle).trans_le hlt.le
  rw [Lexer.pos_embed, Nat.add_sub_add_left, Lexer.xstrdupN_embed hend]

/-- The lexer behind the `{` of a variable, if there is one. -/
theorem openCurly_embed (pre : CStr) {hasCurly : Bool} (hcurly : hasCurly = true → lex.peek = '{')
    (h : (if hasCurly then lex.advance else lex).Inside post) :
    lex.Inside post ∧
      (if hasCurly then lex.advance else lex).pos = lex.pos + hasCurly.toNat ∧
      (if hasCurly then (lex.embed pre post).advance else lex.embed pre post)
        = (if hasCurly then lex.advance else lex).embed pre post := by
  cases hasCurly with
  | false => exact ⟨h, rfl, rfl⟩
  | true =>
    have hnul : lex.peek ≠ '\x00' := by rw [hcurly rfl]; decide
    have h₀ : lex.Inside post := Lexer.Inside.of_advance h
    refine ⟨h₀, ?_, Lexer.advance_embed h₀⟩
    rw [if_pos rfl, Lexer.advance_of_peek hnul]
    rfl

/-- A special parameter is one byte. -/
theorem pos_lt_closeCurly_advance {hasCurly : Bool}
    (hspecial : isSpecialParameterChar lex.peek = true) :
    lex.pos < (closeCurly hasCurly lex.advance).pos := by
  have hnul : lex.peek ≠ '\x00' := by
    intro hc
    rw [hc] at hspecial
    exact absurd hspecial (by decide)
  have hle := pos_le_closeCurly hasCurly lex.advance
  rw [Lexer.advance_of_peek hnul] at hle
  rw [Lexer.advance_of_peek hnul]
  exact hle

theorem handleVariableWordPart_embed {name : Option CStr}
    (h : handleVariableWordPart lex = some (name, lex')) (hin : lex'.Inside post) :
    handleVariableWordPart (lex.embed pre post) = some (name, lex'.embed pre post) := by
  unfold handleVariableWordPart at h ⊢
  dsimp only at h ⊢
  have hcurly : (lex.advance.peek == '{') = true → lex.advance.peek = '{' := by simp
  -- the lexer behind the `$`, and behind the `{`
  obtain ⟨lex₁, hlex₁⟩ : ∃ lex₁,
    (if lex.advance.peek == '{' then lex.advance.advance else lex.advance) = lex₁ := ⟨_, rfl⟩
  have hopen := @openCurly_embed post lex.advance pre _ hcurly
  rw [hlex₁] at hopen h
  by_cases hspecial : isSpecialParameterChar lex₁.peek = true
  · rw [if_pos hspecial] at h
    cases h
    have h₁ := (Lexer.Inside.of_closeCurly hin).of_advance
    obtain ⟨h₀, hpos, hembed⟩ := hopen h₁
    have hend : lex.advance.pos + (lex.advance.peek == '{').toNat + 1
        ≤ (closeCurly (lex.advance.peek == '{') lex₁.advance).pos :=
      hpos ▸ pos_lt_closeCurly_advance hspecial
    rw [Lexer.advance_embed h₀.of_advance, Lexer.peek_embed h₀, hembed, Lexer.peek_embed h₁,
      if_pos hspecial, Lexer.advance_embed h₁, closeCurly_embed hin]
    rw [Lexer.pos_embed, Nat.add_assoc,
      Lexer.xstrdupN_embed (hin.imp_left fun hlt ↦ hend.trans hlt.le)]
  · rw [if_neg hspecial] at h
    obtain ⟨lex₂, hlex₂⟩ : ∃ lex₂,
      closeCurly (lex.advance.peek == '{') (lex₁.advanceWhile isNameChar) = lex₂ := ⟨_, rfl⟩
    rw [hlex₂] at h
    have hwrap : ¬lex₂.pos - lex.advance.pos < 2 * (lex.advance.peek == '{').toNat := by
      intro hc
      rw [if_pos hc] at h
      cases h
    rw [if_neg hwrap] at h
    have heq : lex' = lex₂ := by
      split_ifs at h <;> cases h <;> rfl
    subst heq
    have hin₂ := hlex₂ ▸ hin
    have hname := Lexer.Inside.of_closeCurly hin₂
    have h₁ := hname.of_advanceWhile
    obtain ⟨h₀, hpos, hembed⟩ := hopen h₁
    have hsub : (lex'.embed pre post).pos - (lex.advance.embed pre post).pos
        = lex'.pos - lex.advance.pos := by
      rw [Lexer.pos_embed, Lexer.pos_embed, Nat.add_sub_add_left]
    rw [Lexer.advance_embed h₀.of_advance, Lexer.peek_embed h₀, hembed, Lexer.peek_embed h₁,
      if_neg hspecial, Lexer.advanceWhile_embed hname, closeCurly_embed hin₂, hlex₂, hsub,
      if_neg hwrap]
    have hend : lex.advance.pos + (lex.advance.peek == '{').toNat
        + (lex'.pos - lex.advance.pos - 2 * (lex.advance.peek == '{').toNat) ≤ lex'.pos := by
      have hle : lex₁.pos ≤ lex'.pos := by
        rw [← hlex₂]
        exact (Lexer.pos_le_advanceWhile _ _).trans (pos_le_closeCurly _ _)
      omega
    rw [Lexer.pos_embed, Nat.add_assoc,
      Lexer.xstrdupN_embed (hin.imp_left fun hlt ↦ hend.trans hlt.le)]
    split_ifs at h ⊢ <;> cases h <;> rfl

theorem handleTildeWordPart_embed (h : (handleTildeWordPart lex).2.Inside post) :
    handleTildeWordPart (lex.embed pre post)
      = ((handleTildeWordPart lex).1, (handleTildeWordPart lex).2.embed pre post) := by
  have h₁ : lex.advance.Inside post := Lexer.Inside.of_advanceWhile h
  have hle : lex.pos ≤ (handleTildeWordPart lex).2.pos :=
    (Lexer.pos_le_advance lex).trans (Lexer.pos_le_advanceWhile _ _)
  rw [handleTildeWordPart, Lexer.advance_embed h₁.of_advance, Lexer.advanceWhile_embed h]
  exact Prod.ext (text_embed h hle) rfl

theorem handleGlobWordPart_embed (h : (handleGlobWordPart lex).2.Inside post) :
    handleGlobWordPart (lex.embed pre post)
      = ((handleGlobWordPart lex).1, (handleGlobWordPart lex).2.embed pre post) := by
  by_cases hc : lex.peek = '*' ∨ lex.peek = '?'
  · simp only [handleGlobWordPart, if_pos hc] at h ⊢
    rw [Lexer.peek_embed h.of_advance, if_pos hc, Lexer.advance_embed h.of_advance]
  · simp only [handleGlobWordPart, if_neg hc] at h ⊢
    rw [Lexer.peek_embed h.of_advance.of_advanceWhile, if_neg hc,
      Lexer.advanceWhile_embed h.of_advance, Lexer.advance_embed h.of_advance]
    have hle := (Lexer.pos_le_advanceWhile (fun c ↦ c != '\x00' && c != ']') lex).trans
      (Lexer.pos_le_advance _)
    exact Prod.ext (text_embed h hle) rfl

/-! ## Words -/

/-- Before the part is nothing that a `~` would look at. -/
theorem peekPrev_embed (hpre : pre.getLast? ≠ some '~') (h : lex.Inside post) :
    (lex.embed pre post).peekPrev = '~' ↔ lex.peekPrev = '~' := by
  rcases Nat.eq_zero_or_pos lex.pos with hzero | hpos
  · -- at the start the byte before is the last one of `pre`
    have hnot : lex.peekPrev ≠ '~' := by
      rw [Lexer.peekPrev, if_neg fun hc ↦ hc.1.ne' hzero]
      decide
    refine iff_of_false ?_ hnot
    rw [Lexer.peekPrev, Lexer.pos_embed, hzero, Nat.add_zero]
    split
    · next hc =>
      intro heq
      refine hpre ?_
      rw [List.getLast?_eq_getElem?]
      rw [Lexer.embed, List.getD_append _ _ _ _ (Nat.sub_lt hc.1 Nat.one_pos),
        List.getD_eq_getElem?_getD, List.getElem?_eq_getElem (Nat.sub_lt hc.1 Nat.one_pos)] at heq
      rw [List.getElem?_eq_getElem (Nat.sub_lt hc.1 Nat.one_pos)]
      exact congrArg some heq
    · decide
  · have hprev : (lex.embed pre post).input.getD ((lex.embed pre post).pos - 1) '\x00'
        = lex.input.getD (lex.pos - 1) '\x00' := by
      rw [Lexer.pos_embed, Nat.add_sub_assoc hpos, Lexer.embed,
        List.getD_append_right _ _ _ _ (Nat.le_add_right _ _), Nat.add_sub_cancel_left]
      rcases h with h | rfl
      · exact List.getD_append _ _ _ _ (h.trans_le' (Nat.sub_le _ _))
      · rw [List.append_nil]
    have hiff : (0 < (lex.embed pre post).pos ∧
          (lex.embed pre post).pos ≤ (lex.embed pre post).length) ↔
        0 < lex.pos ∧ lex.pos ≤ lex.length := by
      rw [Lexer.length_embed, Lexer.pos_embed]
      rcases h with h | rfl
      · omega
      · rw [List.length_nil]
        omega
    rw [Lexer.peekPrev, Lexer.peekPrev, hprev]
    simp only [hiff]

theorem lexNextWordPart_embed (hpre : pre.getLast? ≠ some '~')
    {quoteCtx quoteCtx' : QuoteContext} {part : Option WordPart} (h₀ : lex.Inside post)
    (h : lexNextWordPart lex quoteCtx = some (part, quoteCtx', lex')) (hin : lex'.Inside post) :
    lexNextWordPart (lex.embed pre post) quoteCtx
      = some (part, quoteCtx', lex'.embed pre post) := by
  unfold lexNextWordPart at h ⊢
  dsimp only at h ⊢
  have htilde : (lex.embed pre post).peekPrev ≠ '~' ↔ lex.peekPrev ≠ '~' :=
    not_congr (peekPrev_embed hpre h₀)
  rw [Lexer.peek_embed h₀]
  split at h
  · next hquote =>
    cases h
    rw [if_pos hquote, Lexer.advance_embed h₀]
  next hquote =>
  rw [if_neg hquote]
  split at h
  · next hdollar =>
    obtain ⟨⟨name, lex₁⟩, hvar, hpart⟩ := Option.map_eq_some_iff.mp h
    rw [if_pos hdollar]
    rcases name with _ | _ | ⟨c, name⟩
    all_goals
      cases hpart
      rw [handleVariableWordPart_embed hvar hin]
      rfl
  next hdollar =>
  rw [if_neg hdollar]
  split at h
  · next htest =>
    cases h
    rw [if_pos ⟨htest.1, htest.2.1, htilde.mpr htest.2.2⟩, handleTildeWordPart_embed hin]
  next htest =>
  rw [if_neg fun hc ↦ htest ⟨hc.1, hc.2.1, htilde.mp hc.2.2⟩]
  split at h
  · next hglob =>
    cases h
    rw [if_pos hglob, handleGlobWordPart_embed hin]
  next hglob =>
  cases h
  rw [if_neg hglob, handleLiteral_embed hin]

theorem wordLoop_embed (hpre : pre.getLast? ≠ some '~') (parts : Word) (quoteCtx : QuoteContext)
    (lex : Lexer) {parts' : Word} (h : wordLoop parts quoteCtx lex = some (parts', lex'))
    (hin : lex'.Inside post) :
    wordLoop parts quoteCtx (lex.embed pre post) = some (parts', lex'.embed pre post) := by
  have h₀ : lex.Inside post :=
    hin.of_le (wordLoop_moves parts quoteCtx lex h).1 (wordLoop_moves parts quoteCtx lex h).2
  fun_induction wordLoop parts quoteCtx lex with
  | case1 parts quoteCtx lex hnul =>
    cases h
    rw [wordLoop, dif_pos (by rwa [Lexer.peek_embed h₀])]
  | case2 parts quoteCtx lex hnul hend =>
    cases h
    rw [wordLoop, Lexer.peek_embed h₀, dif_neg hnul, dif_pos hend]
  | case3 => cases h
  | case4 parts quoteCtx lex hnul hend part quoteCtx' lex₁ hpart ih =>
    have hmoves := wordLoop_moves _ _ _ h
    have h₁ : lex₁.Inside post := hin.of_le hmoves.1 hmoves.2
    rw [wordLoop, Lexer.peek_embed h₀, dif_neg hnul, dif_neg hend]
    split
    · next hnone => cases (lexNextWordPart_embed hpre h₀ hpart h₁).symm.trans hnone
    next hsome =>
    cases (lexNextWordPart_embed hpre h₀ hpart h₁).symm.trans hsome
    exact ih h h₁

/-! ## Tokens -/

theorem handleWordToken_embed (hpre : pre.getLast? ≠ some '~') {tok : Token}
    (h : handleWordToken lex = some (tok, lex')) (hin : lex'.Inside post) :
    handleWordToken (lex.embed pre post) = some (tok, lex'.embed pre post) := by
  obtain ⟨⟨parts, lex₁⟩, hloop, htok⟩ := Option.map_eq_some_iff.mp h
  cases htok
  obtain ⟨hinput, hle⟩ := wordLoop_moves _ _ _ hloop
  have hend : lex.pos + (lex'.pos - lex.pos) ≤ lex.length ∨ post = [] := by
    refine hin.imp_left fun hlt ↦ ?_
    rw [Nat.add_sub_cancel' hle, Lexer.length, ← hinput]
    exact hlt.le
  rw [handleWordToken, wordLoop_embed hpre _ _ _ hloop hin, Option.map_some]
  dsimp only
  rw [Lexer.pos_embed, Lexer.pos_embed, Nat.add_sub_add_left, Lexer.xstrdupN_embed hend]

/-- The first byte of a token is passed, whichever token it is. -/
theorem inside_of_switchToken {tok : Token} (hspace : isspace lex.peek = false)
    (h : switchToken lex = some (tok, lex')) (hin : lex'.Inside post) :
    lex.advance.Inside post := by
  unfold switchToken at h
  dsimp only at h
  split_ifs at h with hpipe _ hamp _ hgt _ hlt hsemi hnul
  · cases h; exact hin.of_advance
  · cases h; exact hin
  · cases h; exact hin.of_advance
  · cases h; exact hin
  · cases h; exact hin.of_advance
  · cases h; exact hin
  · cases h; exact hin
  · cases h; exact hin
  · cases h; exact hin
  · obtain ⟨⟨word, lex₁⟩, hword, htok⟩ := Option.map_eq_some_iff.mp h
    have hend : endsWord quoteNone lex.peek = false := by
      simp [endsWord, isMetaChar, hspace, hpipe, hamp, hgt, hlt, hsemi]
    have hmoves := handleWordToken_moves hnul hend hword
    have hlex : lex₁ = lex' := by
      dsimp only at htok
      split at htok <;> cases htok <;> rfl
    subst hlex
    rw [Lexer.advance_of_peek hnul]
    exact hin.of_le hmoves.1 hmoves.2

theorem switchToken_embed (hpre : pre.getLast? ≠ some '~') {tok : Token}
    (hspace : isspace lex.peek = false) (h : switchToken lex = some (tok, lex'))
    (hin : lex'.Inside post) :
    switchToken (lex.embed pre post) = some (tok, lex'.embed pre post) := by
  have h₁ := inside_of_switchToken hspace h hin
  have h₀ := h₁.of_advance
  unfold switchToken at h ⊢
  dsimp only at h ⊢
  rw [Lexer.peek_embed h₀, Lexer.advance_embed h₀, Lexer.peek_embed h₁, Lexer.advance_embed h₁]
  split_ifs at h ⊢
  iterate 9
    · cases h
      rfl
  · obtain ⟨⟨word, lex₁⟩, hword, htok⟩ := Option.map_eq_some_iff.mp h
    dsimp only at htok
    have hlex : lex₁ = lex' := by split at htok <;> cases htok <;> rfl
    subst hlex
    rw [handleWordToken_embed hpre hword hin, Option.map_some]
    dsimp only
    rw [Lexer.peek_embed hin]
    split_ifs at htok ⊢ <;> cases htok <;> rfl

theorem lexerNextToken_embed (hpre : pre.getLast? ≠ some '~') {tok : Token}
    (h : lexerNextToken lex = some (tok, lex')) (hin : lex'.Inside post) :
    lexerNextToken (lex.embed pre post) = some (tok, lex'.embed pre post) := by
  have hspace : isspace (skipWhitespaces lex).peek = false := Lexer.peek_advanceWhile rfl lex
  have h₁ := inside_of_switchToken hspace h hin
  rw [lexerNextToken, skipWhitespaces, Lexer.advanceWhile_embed h₁.of_advance]
  exact switchToken_embed hpre hspace h hin

end

end Novash
