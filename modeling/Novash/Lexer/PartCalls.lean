import Novash.Foundations.Produce
import Novash.Lexer.Spans

/-!
# The parts of a word, one call after the other

The loop of `handle_word_token` is a list of calls of `lex_next_word_part`, each with the quote
context and the position it starts from (`PartCall`). What one call does is one of five things
(`PartRead`), and the bytes it passes are known for each of them.

The word tests whether it ends between its parts only, so that what is asked of the bytes of a word
is asked of the bytes of a part, and of where a part ends.
-/

namespace Novash

open Foundations TokenType WordPartType QuoteContext

/-! ## Passing bytes -/

namespace Lexer

variable {lex lex₁ lex' : Lexer} {w w' : CStr}

/-- The lexer passes the bytes `w` and is left behind them. -/
structure Passes (lex : Lexer) (w : CStr) (lex' : Lexer) : Prop where
  rest_eq : lex.rest = w ++ lex'.rest
  eq_skip : lex' = lex.skip w.length

theorem Passes.of_append {t : CStr} (h : lex.rest = w ++ t) : lex.Passes w (lex.skip w.length) :=
  ⟨by rw [rest_skip_of_append h, h], rfl⟩

theorem Passes.nil (lex : Lexer) : lex.Passes [] lex := ⟨rfl, rfl⟩

theorem Passes.trans (h : lex.Passes w lex₁) (h' : lex₁.Passes w' lex') :
    lex.Passes (w ++ w') lex' := by
  refine ⟨by rw [h.rest_eq, h'.rest_eq, List.append_assoc], ?_⟩
  rw [h'.eq_skip, h.eq_skip, skip_skip, List.length_append]

theorem Passes.advance {c : Char} {t : CStr} (h : lex.rest = c :: t) :
    lex.Passes [c] lex.advance := by
  rw [advance_of_rest h]
  exact .of_append (w := [c]) h

/-- Without a byte that is left there is nothing to pass. -/
theorem exists_passes_advance (lex : Lexer) :
    ∃ w, lex.Passes w lex.advance ∧ ∀ c ∈ w, c = lex.peek := by
  cases hr : lex.rest with
  | nil => exact ⟨[], by rw [advance_of_rest_nil hr]; exact .nil lex, by simp⟩
  | cons c t => exact ⟨[c], .advance hr, by simp [peek_of_rest hr]⟩

theorem Passes.advanceWhile (lex : Lexer) (p : Char → Bool) :
    lex.Passes (lex.rest.takeWhile p) (lex.advanceWhile p) :=
  ⟨by rw [rest_advanceWhile, List.takeWhile_append_dropWhile], rfl⟩

/-- The bytes that are passed are those between the two positions. -/
theorem Passes.xstrdupN_eq (h : lex.Passes w lex') :
    lex.xstrdupN lex.pos (lex'.pos - lex.pos) = w := by
  rw [h.eq_skip, pos_skip, Nat.add_sub_cancel_left, xstrdupN, ← rest, h.rest_eq, List.take_left]

theorem Passes.pos_eq (h : lex.Passes w lex') : lex'.pos = lex.pos + w.length := by
  rw [h.eq_skip, pos_skip]

/-- Behind a byte that was passed, that byte is the previous one. -/
theorem Passes.peekPrev_eq {c : Char} (h : lex.Passes (w ++ [c]) lex') : lex'.peekPrev = c := by
  have hget : lex.input[lex.pos + w.length]? = some c := by
    rw [← List.getElem?_drop, ← rest, h.rest_eq]
    simp
  have hlt : lex.pos + w.length < lex.input.length := (List.getElem?_eq_some_iff.mp hget).1
  have hpos : lex'.pos = lex.pos + w.length + 1 := by rw [h.pos_eq]; simp [Nat.add_assoc]
  have hin : lex'.input = lex.input := by rw [h.eq_skip, input_skip]
  rw [peekPrev, if_pos ⟨by omega, by rw [length, hin]; omega⟩, hin, hpos, Nat.add_sub_cancel,
    List.getD_eq_getElem?_getD, hget, Option.getD_some]

theorem Passes.peekPrev_eq_getLast (h : lex.Passes w lex') (hw : w ≠ []) :
    lex'.peekPrev = w.getLast hw := by
  rw [← List.dropLast_append_getLast hw] at h
  exact h.peekPrev_eq

end Lexer

section

variable {lex lex' : Lexer} {quoteCtx quoteCtx' : QuoteContext} {part : Option WordPart}

/-! ## What the scanners pass -/

/-- The bytes that `handle_variable_word_part` may pass behind the `$`. -/
def isVariableChar (c : Char) : Bool :=
  c == '{' || c == '}' || isSpecialParameterChar c || isNameChar c

theorem exists_passes_closeCurly (hasCurly : Bool) (lex : Lexer) :
    ∃ w, lex.Passes w (closeCurly hasCurly lex) ∧ ∀ c ∈ w, isVariableChar c = true := by
  unfold closeCurly
  split
  · next hclose =>
    obtain ⟨w, hw, hpeek⟩ := lex.exists_passes_advance
    have hbrace : lex.peek = '}' := by simp_all
    exact ⟨w, hw, fun c hc ↦ by rw [hpeek c hc, hbrace]; rfl⟩
  · exact ⟨[], .nil lex, by simp⟩

theorem exists_passes_handleVariableWordPart {name : Option CStr} {t : CStr}
    (hr : lex.rest = '$' :: t) (h : handleVariableWordPart lex = some (name, lex')) :
    ∃ w, lex.Passes ('$' :: w) lex' ∧ ∀ c ∈ w, isVariableChar c = true := by
  -- the optional brace, with which every branch goes on
  have hopen : ∃ w, lex.Passes ('$' :: w)
      (if lex.advance.peek == '{' then lex.advance.advance else lex.advance) ∧
        ∀ c ∈ w, isVariableChar c = true := by
    have hdollar := Lexer.Passes.advance hr
    split
    · next hcurly =>
      obtain ⟨w, hw, hpeek⟩ := lex.advance.exists_passes_advance
      have hbrace : lex.advance.peek = '{' := by simpa using hcurly
      exact ⟨w, hdollar.trans hw, fun c hc ↦ by rw [hpeek c hc, hbrace]; rfl⟩
    · exact ⟨[], hdollar, by simp⟩
  unfold handleVariableWordPart at h
  dsimp only at h
  generalize (if lex.advance.peek == '{' then lex.advance.advance else lex.advance) = lex₁
    at h hopen
  obtain ⟨w₁, hw₁, hchars₁⟩ := hopen
  split at h
  · next hspecial =>
    cases h
    obtain ⟨w₂, hw₂, hpeek⟩ := lex₁.exists_passes_advance
    obtain ⟨w₃, hw₃, hchars₃⟩ := exists_passes_closeCurly (lex.advance.peek == '{') lex₁.advance
    refine ⟨w₁ ++ (w₂ ++ w₃), by simpa using hw₁.trans (hw₂.trans hw₃), fun c hc ↦ ?_⟩
    rcases List.mem_append.mp hc with hc | hc
    · exact hchars₁ c hc
    rcases List.mem_append.mp hc with hc | hc
    · rw [hpeek c hc, isVariableChar, hspecial]
      simp
    · exact hchars₃ c hc
  · obtain ⟨w₃, hw₃, hchars₃⟩ :=
      exists_passes_closeCurly (lex.advance.peek == '{') (lex₁.advanceWhile isNameChar)
    have hpasses := hw₁.trans ((Lexer.Passes.advanceWhile lex₁ isNameChar).trans hw₃)
    have hchars : ∀ c ∈ w₁ ++ (lex₁.rest.takeWhile isNameChar ++ w₃), isVariableChar c = true := by
      intro c hc
      rcases List.mem_append.mp hc with hc | hc
      · exact hchars₁ c hc
      rcases List.mem_append.mp hc with hc | hc
      · rw [isVariableChar, List.mem_takeWhile_imp hc]
        simp
      · exact hchars₃ c hc
    split at h
    · cases h
    · split at h <;> cases h <;> exact ⟨_, by simpa using hpasses, hchars⟩

/-- The bytes that `handle_tilde_word_part` passes behind the `~`. -/
def isUserChar (c : Char) : Bool := isalnum c || c == '_' || c == '-'

theorem handleTildeWordPart_passes {t : CStr} (hr : lex.rest = '~' :: t) :
    lex.Passes ('~' :: t.takeWhile isUserChar) (handleTildeWordPart lex).2 := by
  have hpasses := (Lexer.Passes.advance hr).trans (Lexer.Passes.advanceWhile lex.advance isUserChar)
  rw [Lexer.advance_of_rest hr, Lexer.rest_skip_one hr, ← Lexer.advance_of_rest hr] at hpasses
  exact hpasses

/-- The bytes between a `[` and the `]` that ends it, or the end of the input. -/
def bracketText (t : CStr) : CStr := t.takeWhile fun c ↦ c != '\x00' && c != ']'

theorem handleGlobWordPart_bracket {t : CStr} (hr : lex.rest = '[' :: t) :
    (handleGlobWordPart lex).2 = (lex.advanceWhile fun c ↦ c != '\x00' && c != ']').advance ∧
      lex.Passes ('[' :: bracketText t) (lex.advanceWhile fun c ↦ c != '\x00' && c != ']') := by
  constructor
  · rw [handleGlobWordPart, Lexer.peek_of_rest hr]
    rfl
  · have hpasses := Lexer.Passes.advanceWhile lex fun c ↦ c != '\x00' && c != ']'
    rwa [hr] at hpasses

/-! ## What a call does -/

/-- Nothing but a literal begins here. -/
def TakesLiteral (quoteCtx : QuoteContext) (lex : Lexer) : Prop :=
  ¬(lex.peek = '\'' ∨ lex.peek = '"') ∧
    ¬(lex.peek = '$' ∧ (quoteCtx = quoteNone ∨ quoteCtx = quoteDouble)) ∧
    ¬(lex.peek = '~' ∧ quoteCtx = quoteNone ∧ lex.peekPrev ≠ '~') ∧
    ¬(isGlobChar lex.peek = true ∧ quoteCtx = quoteNone)

instance (quoteCtx : QuoteContext) (lex : Lexer) : Decidable (TakesLiteral quoteCtx lex) :=
  inferInstanceAs (Decidable (¬_ ∧ _))

/-- The branches of `lex_next_word_part`, with what each of them passes. -/
inductive PartRead (lex : Lexer) (quoteCtx : QuoteContext) :
    Option WordPart → QuoteContext → Lexer → Prop
  | quote {c : Char} {t : CStr} (hr : lex.rest = c :: t) (hc : c = '\'' ∨ c = '"') :
      PartRead lex quoteCtx none (toggleQuote c quoteCtx) lex.advance
  | dollar {part : Option WordPart} {lex' : Lexer} {w : CStr} (hctx : quoteCtx ≠ quoteSingle)
      (hpasses : lex.Passes ('$' :: w) lex') (hw : ∀ c ∈ w, isVariableChar c = true)
      (hpart : ∀ p ∈ part, p.type ≠ wordTilde) : PartRead lex quoteCtx part quoteCtx lex'
  | tilde {t : CStr} (hr : lex.rest = '~' :: t) (hctx : quoteCtx = quoteNone)
      (hprev : lex.peekPrev ≠ '~') :
      PartRead lex quoteCtx (some ⟨wordTilde, quoteCtx, (handleTildeWordPart lex).1⟩) quoteCtx
        (handleTildeWordPart lex).2
  | wildcard {c : Char} {t : CStr} (hr : lex.rest = c :: t) (hc : c = '*' ∨ c = '?')
      (hctx : quoteCtx = quoteNone) :
      PartRead lex quoteCtx (some ⟨wordGlob, quoteCtx, [c]⟩) quoteCtx lex.advance
  | bracket {t : CStr} (hr : lex.rest = '[' :: t) (hctx : quoteCtx = quoteNone) :
      PartRead lex quoteCtx (some ⟨wordGlob, quoteCtx, (handleGlobWordPart lex).1⟩) quoteCtx
        (handleGlobWordPart lex).2
  | literal (h : TakesLiteral quoteCtx lex) :
      PartRead lex quoteCtx (some ⟨wordLiteral, quoteCtx, (handleLiteral lex quoteCtx).1.getD []⟩)
        quoteCtx (handleLiteral lex quoteCtx).2

theorem partRead_of_lexNextWordPart (hnul : lex.peek ≠ '\x00')
    (h : lexNextWordPart lex quoteCtx = some (part, quoteCtx', lex')) :
    PartRead lex quoteCtx part quoteCtx' lex' := by
  obtain ⟨c, t, hr⟩ := Lexer.rest_of_pos_lt (Lexer.pos_lt_of_peek hnul)
  have hpeek := Lexer.peek_of_rest hr
  unfold lexNextWordPart at h
  dsimp only at h
  split at h
  · next hquote =>
    cases h
    rw [hpeek] at hquote ⊢
    exact .quote hr hquote
  next hquote =>
  split at h
  · next hdollar =>
    obtain ⟨⟨name, lex₁⟩, hvar, hpart⟩ := Option.map_eq_some_iff.mp h
    have hc : c = '$' := hpeek.symm.trans hdollar.1
    subst hc
    obtain ⟨w, hpasses, hw⟩ := exists_passes_handleVariableWordPart hr hvar
    have hctx : quoteCtx ≠ quoteSingle := by rintro rfl; simp at hdollar
    split at hpart <;> next heq =>
      cases heq
      cases hpart
      exact .dollar hctx hpasses hw (by simp)
  next hdollar =>
  split at h
  · next htilde =>
    cases h
    have hc : c = '~' := hpeek.symm.trans htilde.1
    subst hc
    exact .tilde hr htilde.2.1 htilde.2.2
  next htilde =>
  split at h
  · next hglob =>
    cases h
    by_cases hwild : c = '*' ∨ c = '?'
    · have hpart : handleGlobWordPart lex = ([c], lex.advance) := by
        rw [handleGlobWordPart, hpeek]
        exact if_pos hwild
      rw [hpart]
      exact .wildcard hr hwild hglob.2
    · have hc : c = '[' := by simpa [isGlobChar, hpeek, hwild] using hglob.1
      subst hc
      exact .bracket hr hglob.2
  · next hglob =>
    cases h
    exact .literal ⟨hquote, hdollar, htilde, hglob⟩

/-! ## The calls of a word -/

/-- A call of `lex_next_word_part` that has a result. -/
structure PartCall where
  quoteCtx : QuoteContext
  before : Lexer
  part : Option WordPart
  quoteCtx' : QuoteContext
  after : Lexer

/-- A turn of the loop of `handle_word_token`, and where the next one starts. -/
def nextPart (s : QuoteContext × Lexer) : Option (PartCall × QuoteContext × Lexer) :=
  if s.2.peek = '\x00' ∨ endsWord s.1 s.2.peek = true then none
  else (lexNextWordPart s.2 s.1).map fun (part, quoteCtx', lex') ↦
    (⟨s.1, s.2, part, quoteCtx', lex'⟩, quoteCtx', lex')

theorem nextPart_eq_some {s s' : QuoteContext × Lexer} {c : PartCall}
    (h : nextPart s = some (c, s')) :
    s.2.peek ≠ '\x00' ∧ endsWord s.1 s.2.peek = false ∧
      lexNextWordPart s.2 s.1 = some (c.part, c.quoteCtx', c.after) ∧
      c.quoteCtx = s.1 ∧ c.before = s.2 ∧ s' = (c.quoteCtx', c.after) := by
  unfold nextPart at h
  split at h
  · cases h
  · next hgo =>
    obtain ⟨⟨part, ctx, lex'⟩, hpart, hc⟩ := Option.map_eq_some_iff.mp h
    cases hc
    rw [not_or, Bool.not_eq_true] at hgo
    exact ⟨hgo.1, hgo.2, hpart, rfl, rfl, rfl⟩

theorem remaining_nextPart {s s' : QuoteContext × Lexer} {c : PartCall}
    (h : nextPart s = some (c, s')) : s'.2.remaining < s.2.remaining := by
  obtain ⟨hnul, hend, hpart, -, -, rfl⟩ := nextPart_eq_some h
  have hmoves := lexNextWordPart_moves hnul hend hpart
  exact Lexer.remaining_lt hmoves.1 (Lexer.pos_lt_of_peek hnul) hmoves.2

/-- The calls that read a word, from a quote context and a position. -/
def partCalls (quoteCtx : QuoteContext) (lex : Lexer) : List PartCall :=
  produce nextPart (fun s ↦ s.2.remaining) remaining_nextPart (quoteCtx, lex)

theorem partCalls_of_end (h : lex.peek = '\x00' ∨ endsWord quoteCtx lex.peek = true) :
    partCalls quoteCtx lex = [] := produce_of_none (if_pos h)

theorem partCalls_of_part (hnul : lex.peek ≠ '\x00') (hend : endsWord quoteCtx lex.peek = false)
    (h : lexNextWordPart lex quoteCtx = some (part, quoteCtx', lex')) :
    partCalls quoteCtx lex
      = ⟨quoteCtx, lex, part, quoteCtx', lex'⟩ :: partCalls quoteCtx' lex' := by
  refine produce_of_some ?_
  rw [nextPart, if_neg (by simp [hnul, hend]), h]
  rfl

/-- The calls follow one another, from the first position to the last, where the word ends. -/
inductive ReadsParts : QuoteContext → Lexer → List PartCall → Lexer → Prop
  | nil {quoteCtx : QuoteContext} {lex : Lexer}
      (h : lex.peek = '\x00' ∨ endsWord quoteCtx lex.peek = true) :
      ReadsParts quoteCtx lex [] lex
  | cons {quoteCtx quoteCtx' : QuoteContext} {lex lex₁ lex' : Lexer} {part : Option WordPart}
      {calls : List PartCall} (hnul : lex.peek ≠ '\x00')
      (hend : endsWord quoteCtx lex.peek = false)
      (hread : PartRead lex quoteCtx part quoteCtx' lex₁)
      (hmoves : lex₁.input = lex.input ∧ lex.pos < lex₁.pos)
      (h : ReadsParts quoteCtx' lex₁ calls lex') :
      ReadsParts quoteCtx lex (⟨quoteCtx, lex, part, quoteCtx', lex₁⟩ :: calls) lex'

theorem readsParts_of_wordLoop {parts parts' : Word}
    (h : wordLoop parts quoteCtx lex = some (parts', lex')) :
    ReadsParts quoteCtx lex (partCalls quoteCtx lex) lex' ∧
      parts' = ((partCalls quoteCtx lex).map PartCall.part).foldl putPart parts := by
  fun_induction wordLoop parts quoteCtx lex with
  | case1 parts quoteCtx lex hnul =>
    rw [partCalls_of_end (Or.inl hnul)]
    cases h
    exact ⟨.nil (Or.inl hnul), rfl⟩
  | case2 parts quoteCtx lex hnul hend =>
    rw [partCalls_of_end (Or.inr hend)]
    cases h
    exact ⟨.nil (Or.inr hend), rfl⟩
  | case3 => cases h
  | case4 parts quoteCtx lex hnul hend part quoteCtx' lex₁ hpart ih =>
    have hend' : endsWord quoteCtx lex.peek = false := by simpa using hend
    rw [partCalls_of_part hnul hend' hpart]
    obtain ⟨hreads, hparts⟩ := ih h
    exact ⟨.cons hnul hend' (partRead_of_lexNextWordPart hnul hpart)
      (lexNextWordPart_moves hnul hend' hpart) hreads, hparts⟩

/-- A word token is read by its calls, from the first byte behind the white space. -/
theorem readsParts_of_lexerNextToken {tok : Token} (h : lexerNextToken lex = some (tok, lex'))
    (htok : tok.type = tokWord ∨ tok.type = tokFd) :
    ReadsParts quoteNone (skipWhitespaces lex) (partCalls quoteNone (skipWhitespaces lex)) lex' ∧
      tok.parts
        = ((partCalls quoteNone (skipWhitespaces lex)).map PartCall.part).foldl putPart [] := by
  unfold lexerNextToken switchToken at h
  dsimp only at h
  split_ifs at h
  iterate 9 (cases h; simp at htok)
  obtain ⟨⟨word, lex₁⟩, hword, hres⟩ := Option.map_eq_some_iff.mp h
  obtain ⟨⟨parts, lex₂⟩, hloop, hw⟩ := Option.map_eq_some_iff.mp hword
  cases hw
  obtain ⟨hreads, hparts⟩ := readsParts_of_wordLoop hloop
  dsimp only at hres
  split_ifs at hres <;> cases hres <;> exact ⟨hreads, hparts⟩

end

end Novash
