import Novash.Memory.Tokens
import Novash.Printer.Normal

/-!
# The memory of the lexer

The lexer once more, with the blocks that it allocates. It does the same as without them
(`erase_lexerNextToken`).

A part without a text is not kept, and its block is lost then. The one text that is empty although
something was stored is that of a backslash at the end of the line, the byte it stands for being a
NUL (`end_of_empty`). So a line loses one block at most (`Lost`).
-/

namespace Novash.Memory

open Foundations TokenType WordPartType QuoteContext

/-! ## The functions of the lexer -/

/-- A part with a value has it from an allocation of its own. The literal of a word stores a byte
before it ends (`pos_lt_literalLoop`), so that no buffer is given up for `xstrdup("")`. -/
def lexNextWordPart (lex : Lexer) (quoteCtx : QuoteContext) (m : Heap) :
    Option (Option HeapPart × QuoteContext × Lexer × Heap) :=
  (Novash.lexNextWordPart lex quoteCtx).map fun (part, quoteCtx, lex) ↦
    match part with
    | none => (none, quoteCtx, lex, m)
    | some part =>
      let (value, m) := newStr part.value m
      (some ⟨part.type, part.quote, value⟩, quoteCtx, lex, m)

/-- `if (part.value && strlen(part.value) > 0) arrput(parts, part);` -/
def putPart (parts : HeapWord) (part : Option HeapPart) (m : Heap) : HeapWord × Heap :=
  match part with
  | none => (parts, m)
  | some part => if part.value.text.length > 0 then parts.arrpush part m else (parts, m)

theorem lexNextWordPart_of_erase {lex lex' : Lexer} {quoteCtx quoteCtx' : QuoteContext}
    {part : Option HeapPart} {m m' : Heap}
    (h : lexNextWordPart lex quoteCtx m = some (part, quoteCtx', lex', m')) :
    Novash.lexNextWordPart lex quoteCtx = some (part.map HeapPart.erase, quoteCtx', lex') := by
  obtain ⟨⟨part₀, ctx, lex₁⟩, hpart, hres⟩ := Option.map_eq_some_iff.mp h
  rw [hpart]
  dsimp only at hres
  split at hres <;> cases hres <;> rfl

def wordLoop (parts : HeapWord) (quoteCtx : QuoteContext) (lex : Lexer) (m : Heap) :
    Option (HeapWord × Lexer × Heap) :=
  if _hc : lex.peek = '\x00' then some (parts, lex, m)
  else if _hend : endsWord quoteCtx lex.peek then some (parts, lex, m)
  else
    match _h : lexNextWordPart lex quoteCtx m with
    | none => none
    | some (part, quoteCtx, lex, m) =>
      let (parts, m) := putPart parts part m
      wordLoop parts quoteCtx lex m
termination_by lex.remaining
decreasing_by
  have hmoves := lexNextWordPart_moves _hc (by simpa using _hend) (lexNextWordPart_of_erase _h)
  exact Lexer.remaining_lt hmoves.1 (Lexer.pos_lt_of_peek _hc) hmoves.2

def handleWordToken (lex : Lexer) (m : Heap) : Option (HeapToken × Lexer × Heap) :=
  (wordLoop .empty quoteNone lex m).map fun (parts, lex', m) ↦
    let (rawValue, m) := newStr (lex.xstrdupN lex.pos (lex'.pos - lex.pos)) m
    (⟨tokWord, some rawValue, parts⟩, lex', m)

/-- The bytes for which `lexer_next_token` has a case. -/
def hasCase (c : Char) : Bool := isMetaChar c || c == '\x00'

/-- The tokens of the other cases have no text, and nothing is allocated for them. -/
def switchToken (lex : Lexer) (m : Heap) : Option (HeapToken × Lexer × Heap) :=
  if hasCase lex.peek then
    (Novash.switchToken lex).map fun (tok, lex) ↦ ({ type := tok.type }, lex, m)
  else
    (handleWordToken lex m).map fun (tok, lex, m) ↦
      if isWordFd tok.erase.rawValue && (lex.peek = '>' || lex.peek = '<') then
        ({ tok with type := tokFd }, lex, m)
      else (tok, lex, m)

def lexerNextToken (lex : Lexer) (m : Heap) : Option (HeapToken × Lexer × Heap) :=
  switchToken (skipWhitespaces lex) m

/-! ### The lexer without its memory -/

section

variable {lex : Lexer} {quoteCtx : QuoteContext}

theorem erase_putPart (parts : HeapWord) (part : Option HeapPart) (m : Heap) :
    (putPart parts part m).1.erase = Novash.putPart parts.erase (part.map HeapPart.erase) := by
  cases part with
  | none => rfl
  | some part =>
    rw [putPart, Option.map_some, Novash.putPart]
    change HeapWord.erase (if part.value.text.length > 0 then _ else _ : HeapWord × Heap).1
      = if part.value.text.length > 0 then _ else _
    split
    · rw [HeapWord.erase, HeapArray.elems_arrpush, List.map_append]
      rfl
    · rfl

theorem erase_wordLoop (parts : HeapWord) (quoteCtx : QuoteContext) (lex : Lexer) (m : Heap) :
    (wordLoop parts quoteCtx lex m).map (fun r ↦ (r.1.erase, r.2.1))
      = Novash.wordLoop parts.erase quoteCtx lex := by
  fun_induction wordLoop parts quoteCtx lex m with
  | case1 parts quoteCtx lex m hnul =>
    rw [Novash.wordLoop, dif_pos hnul]
    rfl
  | case2 parts quoteCtx lex m hnul hend =>
    rw [Novash.wordLoop, dif_neg hnul, dif_pos hend]
    rfl
  | case3 parts quoteCtx lex m hnul hend hpart =>
    have hnone := Option.map_eq_none_iff.mp hpart
    rw [Novash.wordLoop, dif_neg hnul, dif_neg hend]
    split
    · rfl
    · next hsome => exact absurd (hnone.symm.trans hsome) (by simp)
  | case4 parts quoteCtx lex m hnul hend part quoteCtx' lex' m₁ hpart parts' m' hput ih =>
    have hsome := lexNextWordPart_of_erase hpart
    have herase := erase_putPart parts part m₁
    rw [hput] at herase
    rw [ih, herase]
    conv_rhs => rw [Novash.wordLoop, dif_neg hnul, dif_neg hend]
    split
    · next hnone => exact absurd (hsome.symm.trans hnone) (by simp)
    · next hsome' =>
      cases hsome.symm.trans hsome'
      rfl

theorem erase_handleWordToken (lex : Lexer) (m : Heap) :
    (handleWordToken lex m).map (fun r ↦ (r.1.erase, r.2.1)) = Novash.handleWordToken lex := by
  rw [handleWordToken, Novash.handleWordToken, Option.map_map]
  have hloop := erase_wordLoop .empty quoteNone lex m
  change _ = Novash.wordLoop [] quoteNone lex at hloop
  rw [← hloop, Option.map_map]
  rfl

/-- An operator has no text. -/
theorem operator_of_hasCase {tok : Token} {lex' : Lexer} (hcase : hasCase lex.peek = true)
    (h : Novash.switchToken lex = some (tok, lex')) : tok = .operator tok.type := by
  unfold Novash.switchToken at h
  dsimp only at h
  split_ifs at h with hpipe _ hamp _ hgt _ hlt hsemi hnul
  iterate 9 (cases h; rfl)
  simp [hasCase, isMetaChar, hpipe, hamp, hgt, hlt, hsemi, hnul] at hcase

theorem switchToken_of_word (hcase : ¬hasCase lex.peek = true) :
    Novash.switchToken lex = (Novash.handleWordToken lex).map fun (tok, lex) ↦
      if isWordFd tok.rawValue && (lex.peek = '>' || lex.peek = '<') then
        ({ tok with type := tokFd }, lex)
      else (tok, lex) := by
  simp only [hasCase, isMetaChar, Bool.or_eq_true, beq_iff_eq, not_or] at hcase
  obtain ⟨⟨⟨⟨⟨hpipe, hamp⟩, hsemi⟩, hlt⟩, hgt⟩, hnul⟩ := hcase
  rw [Novash.switchToken, if_neg hpipe, if_neg hamp, if_neg hgt, if_neg hlt, if_neg hsemi,
    if_neg hnul]

theorem erase_switchToken (lex : Lexer) (m : Heap) :
    (switchToken lex m).map (fun r ↦ (r.1.erase, r.2.1)) = Novash.switchToken lex := by
  rw [switchToken]
  split
  · next hcase =>
    rw [Option.map_map]
    cases hswitch : Novash.switchToken lex with
    | none => rfl
    | some r =>
      have htok : r.1 = .operator r.1.type := operator_of_hasCase hcase hswitch
      exact congrArg some (Prod.ext htok.symm rfl)
  · next hcase =>
    rw [switchToken_of_word hcase, ← erase_handleWordToken lex m, Option.map_map, Option.map_map]
    congr 1
    funext r
    dsimp only [Function.comp]
    split <;> rfl

theorem erase_lexerNextToken (lex : Lexer) (m : Heap) :
    (lexerNextToken lex m).map (fun r ↦ (r.1.erase, r.2.1)) = Novash.lexerNextToken lex :=
  erase_switchToken _ m

end

/-! ## What the lexer loses -/

section

variable {lex lex' : Lexer} {quoteCtx quoteCtx' : QuoteContext}

theorem xstrdupN_ne_nil (hpos : lex.pos < lex.length)
    (hmoves : lex'.input = lex.input ∧ lex.pos < lex'.pos) :
    lex'.xstrdupN lex.pos (lex'.pos - lex.pos) ≠ [] := by
  refine List.ne_nil_of_length_pos ?_
  rw [Lexer.xstrdupN, hmoves.1, List.length_take, List.length_drop]
  exact lt_min (Nat.sub_pos_of_lt hmoves.2) (Nat.sub_pos_of_lt hpos)

theorem unescape_ne_nul {c : Char} (hc : c ≠ '\x00') : unescape c ≠ '\x00' := by
  unfold unescape
  split_ifs
  iterate 7 decide
  exact hc

theorem cstr_ne_nil {c : Char} {bytes : List Char} (hc : c ≠ '\x00') (h : [c] <+: bytes) :
    cstr bytes ≠ [] := by
  obtain ⟨t, rfl⟩ := h
  rw [cstr, List.singleton_append, List.takeWhile_cons_of_pos (by simpa using hc)]
  exact List.cons_ne_nil _ _

theorem singleton_prefix_literalLoop (quoteCtx : QuoteContext) (c : Char) (lex : Lexer) :
    [c] <+: (literalLoop quoteCtx (LiteralBuf.empty.push c) lex).1.bytes := by
  simpa using prefix_literalLoop quoteCtx (LiteralBuf.empty.push c) lex

/-- A literal is empty only if a backslash is all that is left. -/
theorem end_of_literalLoop (hnul : NulFree lex.input) (hc : lex.peek ≠ '\x00')
    (hend : endsLiteral quoteCtx lex.peek = false)
    (hempty : cstr (literalLoop quoteCtx .empty lex).1.bytes = []) :
    lex.rest = ['\\'] ∧ (literalLoop quoteCtx .empty lex).2.rest = [] := by
  rw [literalLoop, dif_neg hc, if_neg (by simp [hend])] at hempty ⊢
  obtain ⟨c, t, hr⟩ := Lexer.rest_of_pos_lt (Lexer.pos_lt_of_peek hc)
  split_ifs at hempty ⊢ with hescape
  · obtain rfl : c = '\\' := (Lexer.peek_of_rest hr).symm.trans hescape.1
    have hrest : lex.advance.rest = t := by
      rw [Lexer.advance_of_rest hr, Lexer.rest_skip_one hr]
    cases t with
    | nil =>
      refine ⟨hr, ?_⟩
      have hlex : (handleEscape lex).2 = lex.advance := Lexer.advance_of_rest_nil hrest
      rw [hlex, literalLoop_nil hrest]
      exact hrest
    | cons d t =>
      have hd : d ≠ '\x00' := by
        rintro rfl
        refine hnul (List.mem_of_mem_drop (i := lex.pos) ?_)
        change _ ∈ lex.rest
        rw [hr]
        simp
      have hbyte : (handleEscape lex).1 = unescape d := by
        rw [handleEscape, Lexer.peek_of_rest hrest]
      refine absurd hempty (cstr_ne_nil (unescape_ne_nul hd) ?_)
      exact hbyte ▸ singleton_prefix_literalLoop quoteCtx _ _
  · exact absurd hempty (cstr_ne_nil hc (singleton_prefix_literalLoop quoteCtx _ _))

/-- A part is empty only if a backslash is all that is left. -/
theorem end_of_empty (hnul : NulFree lex.input) (hc : lex.peek ≠ '\x00')
    (hend : endsWord quoteCtx lex.peek = false) {part : WordPart}
    (h : Novash.lexNextWordPart lex quoteCtx = some (some part, quoteCtx', lex'))
    (hempty : part.value = []) : lex.rest = ['\\'] ∧ lex'.rest = [] := by
  have hmoves := lexNextWordPart_moves hc hend h
  have hpos := Lexer.pos_lt_of_peek hc
  unfold Novash.lexNextWordPart at h
  dsimp only at h
  split_ifs at h with hquote hdollar htilde hglob
  · cases h
  · obtain ⟨⟨name, lex₁⟩, hvar, hpart⟩ := Option.map_eq_some_iff.mp h
    match name with
    | none =>
      cases hpart
      cases hempty
    | some [] => cases hpart
    | some (c :: name) =>
      cases hpart
      cases hempty
  · cases h
    exact absurd hempty (xstrdupN_ne_nil hpos hmoves)
  · cases h
    rw [handleGlobWordPart] at hempty hmoves
    dsimp only at hempty hmoves
    split_ifs at hempty hmoves
    exact absurd hempty (xstrdupN_ne_nil hpos hmoves)
  · cases h
    have hliteral := endsLiteral_eq_false hend hquote hdollar hglob
    refine end_of_literalLoop hnul hc hliteral ?_
    rw [handleLiteral] at hempty
    dsimp only at hempty
    split_ifs at hempty with hlength
    · exact hempty
    · rw [List.eq_nil_of_length_eq_zero (Nat.eq_zero_of_not_pos hlength)]
      rfl

/-- What was lost of the line so far: nothing, or, at its end, the text of a backslash. -/
def Lost (lex : Lexer) (lost : Multiset ℕ) : Prop :=
  lost = 0 ∨ lost.card = 1 ∧ lex.rest = [] ∧ lex.input.getLast? = some '\\'

theorem Lost.of_moves {lost : Multiset ℕ} (h : Lost lex lost) (hin : lex'.input = lex.input)
    (hpos : lex.pos ≤ lex'.pos) : Lost lex' lost := by
  rcases h with hzero | ⟨hcard, hrest, hlast⟩
  · exact .inl hzero
  · refine .inr ⟨hcard, ?_, hin ▸ hlast⟩
    rw [Lexer.rest, hin]
    exact List.drop_eq_nil_of_le ((List.drop_eq_nil_iff.mp hrest).trans hpos)

/-- Nothing was lost as long as something is left. -/
theorem Lost.eq_zero {lost : Multiset ℕ} (h : Lost lex lost) (hc : lex.peek ≠ '\x00') :
    lost = 0 :=
  h.resolve_right fun hend ↦ hc (Lexer.peek_of_rest_nil hend.2.1)

/-- What is live are the blocks that are owned, and what was lost. -/
def Owns (lex : Lexer) (m : Heap) (owned : Multiset ℕ) : Prop :=
  ∃ lost, Lost lex lost ∧ m.live = lost + owned

variable {m m' : Heap} {frame : Multiset ℕ}

theorem owns_putPart (hnul : NulFree lex.input) (hc : lex.peek ≠ '\x00')
    (hend : endsWord quoteCtx lex.peek = false) {parts : HeapWord} {part : Option HeapPart}
    (h : Owns lex m (parts.blocks + frame))
    (hpart : lexNextWordPart lex quoteCtx m = some (part, quoteCtx', lex', m')) :
    Owns lex' (putPart parts part m').2 ((putPart parts part m').1.blocks + frame) := by
  obtain ⟨lost, hlost, hlive⟩ := h
  rw [hlost.eq_zero hc, zero_add] at hlive
  obtain ⟨⟨part₀, ctx, lex₁⟩, hpart₀, hres⟩ := Option.map_eq_some_iff.mp hpart
  cases part₀ with
  | none =>
    cases hres
    exact ⟨0, .inl rfl, hlive.trans (zero_add _).symm⟩
  | some part₀ =>
    cases hres
    rw [putPart]
    split
    · refine ⟨0, .inl rfl, (HeapArray.live_arrpush ?_).trans (zero_add _).symm⟩
      change {m.malloc.1} + m.live = _
      rw [hlive, HeapWord.blocks, HeapPart.blocks]
      change {m.malloc.1} + (_ + frame) = _ + {m.malloc.1} + frame
      abel
    · next hlength =>
      have hempty := List.eq_nil_of_length_eq_zero (Nat.eq_zero_of_not_pos hlength)
      obtain ⟨hrest, hrest'⟩ := end_of_empty hnul hc hend hpart₀ hempty
      refine ⟨{m.malloc.1}, .inr ⟨Multiset.card_singleton _, hrest', ?_⟩, ?_⟩
      · rw [(lexNextWordPart_moves hc hend hpart₀).1, ← List.take_append_drop lex.pos lex.input,
          ← Lexer.rest, hrest, List.getLast?_concat]
      · change {m.malloc.1} + m.live = _
        rw [hlive]

theorem owns_wordLoop (parts : HeapWord) (quoteCtx : QuoteContext) (lex : Lexer) (m : Heap)
    (hnul : NulFree lex.input) (h : Owns lex m (parts.blocks + frame)) {parts' : HeapWord}
    (hloop : wordLoop parts quoteCtx lex m = some (parts', lex', m')) :
    Owns lex' m' (parts'.blocks + frame) := by
  fun_induction wordLoop parts quoteCtx lex m with
  | case1 =>
    cases hloop
    exact h
  | case2 =>
    cases hloop
    exact h
  | case3 => cases hloop
  | case4 parts quoteCtx lex m hc hend part quoteCtx' lex₁ m₁ hpart parts₁ m₂ hput ih =>
    have hend' : endsWord quoteCtx lex.peek = false := by simpa using hend
    have hin := (lexNextWordPart_moves hc hend' (lexNextWordPart_of_erase hpart)).1
    have howns := owns_putPart hnul hc hend' h hpart
    rw [hput] at howns
    exact ih (hin ▸ hnul) howns hloop

theorem moves_of_lexerNextToken {tok : Token}
    (h : Novash.lexerNextToken lex = some (tok, lex')) :
    lex'.input = lex.input ∧ lex.pos ≤ lex'.pos := by
  by_cases htok : tok.type = tokEof
  · rcases switchToken_cases h with ⟨-, -, rfl⟩ | ⟨hne, -⟩ | ⟨hne, -⟩
    · exact ⟨Lexer.input_advance _,
        (Lexer.pos_le_advanceWhile _ lex).trans (Lexer.pos_le_advance _)⟩
    · exact absurd htok hne
    · exact absurd htok hne
  · exact ⟨(lexerNextToken_moves h htok).1, (lexerNextToken_moves h htok).2.1.le⟩

theorem owns_lexerNextToken (hnul : NulFree lex.input) (h : Owns lex m frame) {tok : HeapToken}
    (htok : lexerNextToken lex m = some (tok, lex', m')) :
    Owns lex' m' (tok.blocks + frame) := by
  have hmoves := moves_of_lexerNextToken ((erase_lexerNextToken lex m).symm.trans
    (congrArg (Option.map _) htok))
  rw [lexerNextToken, switchToken] at htok
  split at htok
  · obtain ⟨⟨tok₀, lex₁⟩, hswitch, hres⟩ := Option.map_eq_some_iff.mp htok
    cases hres
    obtain ⟨lost, hlost, hlive⟩ := h
    exact ⟨lost, hlost.of_moves hmoves.1 hmoves.2, hlive.trans (by rw [HeapToken.blocks, zero_add])⟩
  · obtain ⟨⟨tok₀, lex₁, m₁⟩, hword, hres⟩ := Option.map_eq_some_iff.mp htok
    obtain ⟨⟨parts, lex₂, m₂⟩, hloop, hres₀⟩ := Option.map_eq_some_iff.mp hword
    have hskip : Owns (skipWhitespaces lex) m (HeapWord.blocks .empty + frame) := by
      obtain ⟨lost, hlost, hlive⟩ := h
      exact ⟨lost, hlost.of_moves rfl (Lexer.pos_le_advanceWhile _ _), hlive.trans (by
        rw [show HeapWord.blocks .empty = 0 from rfl, zero_add])⟩
    obtain ⟨lost, hlost, hlive⟩ := owns_wordLoop _ _ _ _ (by exact hnul) hskip hloop
    cases hres₀
    obtain ⟨htokBlocks, rfl, rfl⟩ :
        tok.blocks = {m₂.malloc.1} + parts.blocks ∧ lex₁ = lex' ∧ m' = m₂.malloc.2 := by
      dsimp only at hres
      split_ifs at hres <;> cases hres <;> exact ⟨rfl, rfl, rfl⟩
    refine ⟨lost, hlost, ?_⟩
    rw [Heap.live_malloc, hlive, htokBlocks]
    abel

/-- `TOK_EOF` has no text. -/
theorem blocks_of_eof {tok : HeapToken} (h : lexerNextToken lex m = some (tok, lex', m'))
    (heof : tok.type = tokEof) : tok.blocks = 0 := by
  rw [lexerNextToken, switchToken] at h
  split at h
  · obtain ⟨⟨tok₀, lex₁⟩, -, hres⟩ := Option.map_eq_some_iff.mp h
    cases hres
    rfl
  · obtain ⟨⟨tok₀, lex₁, m₁⟩, hword, hres⟩ := Option.map_eq_some_iff.mp h
    obtain ⟨⟨parts, lex₂, m₂⟩, -, hres₀⟩ := Option.map_eq_some_iff.mp hword
    cases hres₀
    dsimp only at hres
    split_ifs at hres <;> cases hres <;> cases heof

end

end Novash.Memory
