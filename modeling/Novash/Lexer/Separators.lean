import Novash.Lexer.PartCalls

/-!
# Separators inside words

White space and the operator bytes end a word outside quotes. The loop tests for them before each
part only, so every part has to stop in front of them. All do but the bracket, which passes
everything up to its `]`.

Each byte of a word is read in some quote context, and some are read behind a backslash: the list of
these readings is `wordReads`, and its bytes are the span of the token.
-/

namespace Novash

open TokenType QuoteContext

/-- White space and the bytes of the operators. -/
def separatesWords (c : Char) : Bool := isspace c || isMetaChar c

/-! ## How the bytes of a word are read -/

/-- One byte of a word, with `quote_ctx` where it is read; it is escaped when `handle_escape` reads
it behind the backslash. -/
structure ReadByte where
  byte : Char
  quoteCtx : QuoteContext
  escaped : Bool
  deriving DecidableEq, Repr

/-- The byte behind a backslash, if there is one. -/
def escapeReads (quoteCtx : QuoteContext) (lex : Lexer) : List ReadByte :=
  if lex.advance.pos < lex.length then [⟨lex.advance.peek, quoteCtx, true⟩] else []

/-- The bytes that `handle_literal` reads. -/
def literalReads (quoteCtx : QuoteContext) (lex : Lexer) : List ReadByte :=
  if _hc : lex.peek = '\x00' then []
  else if endsLiteral quoteCtx lex.peek then []
  else if lex.peek = '\\' ∧ quoteCtx ≠ quoteSingle then
    ⟨lex.peek, quoteCtx, false⟩ :: (escapeReads quoteCtx lex
      ++ literalReads quoteCtx (handleEscape lex).2)
  else ⟨lex.peek, quoteCtx, false⟩ :: literalReads quoteCtx lex.advance
termination_by lex.remaining
decreasing_by
  · exact Lexer.remaining_lt (input_handleEscape lex) (Lexer.pos_lt_of_peek _hc)
      (pos_lt_handleEscape _hc)
  · exact Lexer.remaining_lt (Lexer.input_advance lex) (Lexer.pos_lt_of_peek _hc)
      (by rw [Lexer.advance_of_peek _hc]; exact Nat.lt_succ_self _)

namespace PartCall

/-- The bytes that the call passes. -/
def span (c : PartCall) : CStr := c.before.xstrdupN c.before.pos (c.after.pos - c.before.pos)

/-- Only `handle_literal` knows of escapes. -/
def reads (c : PartCall) : List ReadByte :=
  if TakesLiteral c.quoteCtx c.before then literalReads c.quoteCtx c.before
  else c.span.map fun b ↦ ⟨b, c.quoteCtx, false⟩

/-- Every separator among these bytes is escaped or quoted. -/
def Guarded (c : PartCall) : Prop :=
  ∀ r ∈ c.reads, separatesWords r.byte = true → r.escaped = true ∨ r.quoteCtx ≠ quoteNone

/-- There is no separator between a bracket that is opened outside quotes and the `]` that ends it,
or the end of the input. -/
def PlainBracket (c : PartCall) : Prop :=
  c.quoteCtx = quoteNone → c.before.peek = '[' →
    ∀ b ∈ bracketText c.before.rest, separatesWords b = false

instance (c : PartCall) : Decidable c.PlainBracket :=
  decidable_of_iff (c.quoteCtx = quoteNone → c.before.peek = '[' →
    (bracketText c.before.rest).all (separatesWords · = false) = true) (by simp [PlainBracket])

end PartCall

/-- The bytes of a word that starts here. -/
def wordReads (lex : Lexer) : List ReadByte := (partCalls quoteNone lex).flatMap PartCall.reads

/-- The readings of a word between two positions are those of its bytes, and every separator among
them is escaped or quoted. -/
structure SeparatorsGuarded (lex lex' : Lexer) : Prop where
  bytes : (wordReads lex).map ReadByte.byte = lex.xstrdupN lex.pos (lex'.pos - lex.pos)
  guarded : ∀ r ∈ wordReads lex, separatesWords r.byte = true →
    r.escaped = true ∨ r.quoteCtx ≠ quoteNone

section

variable {lex lex' : Lexer} {quoteCtx quoteCtx' : QuoteContext} {part : Option WordPart}
  {calls : List PartCall}

/-! ## Literals -/

theorem escapeReads_passes (quoteCtx : QuoteContext) (lex : Lexer) :
    lex.advance.Passes ((escapeReads quoteCtx lex).map ReadByte.byte) (handleEscape lex).2 := by
  rw [escapeReads, handleEscape]
  split
  · next hlt =>
    have hlt' : lex.advance.pos < lex.advance.length := by
      rwa [Lexer.length, Lexer.input_advance]
    obtain ⟨c, t, hr⟩ := Lexer.rest_of_pos_lt hlt'
    rw [List.map_singleton, Lexer.peek_of_rest hr]
    exact .advance hr
  · next hle =>
    have hstay : lex.advance.advance = lex.advance := by
      rw [Lexer.advance, if_neg]
      rwa [Lexer.length, Lexer.input_advance]
    dsimp only
    rw [hstay]
    exact .nil _

theorem literalReads_passes (quoteCtx : QuoteContext) (buf : LiteralBuf) (lex : Lexer) :
    lex.Passes ((literalReads quoteCtx lex).map ReadByte.byte)
      (literalLoop quoteCtx buf lex).2 := by
  fun_induction literalLoop quoteCtx buf lex with
  | case1 buf lex hnul =>
    rw [literalReads, dif_pos hnul]
    exact .nil lex
  | case2 buf lex hnul hend =>
    rw [literalReads, dif_neg hnul, if_pos hend]
    exact .nil lex
  | case3 buf lex hnul hend hesc ih =>
    obtain ⟨c, t, hr⟩ := Lexer.rest_of_pos_lt (Lexer.pos_lt_of_peek hnul)
    rw [literalReads, dif_neg hnul, if_neg hend, if_pos hesc, List.map_cons, List.map_append]
    have hfirst : lex.Passes [lex.peek] lex.advance := by
      rw [Lexer.peek_of_rest hr]
      exact .advance hr
    exact hfirst.trans ((escapeReads_passes quoteCtx lex).trans ih)
  | case4 buf lex hnul hend hesc ih =>
    obtain ⟨c, t, hr⟩ := Lexer.rest_of_pos_lt (Lexer.pos_lt_of_peek hnul)
    rw [literalReads, dif_neg hnul, if_neg hend, if_neg hesc, List.map_cons]
    have hfirst : lex.Passes [lex.peek] lex.advance := by
      rw [Lexer.peek_of_rest hr]
      exact .advance hr
    exact hfirst.trans ih

/-- Outside quotes a literal stops in front of a separator that no backslash precedes. -/
theorem guarded_literalReads (quoteCtx : QuoteContext) (lex : Lexer) :
    ∀ r ∈ literalReads quoteCtx lex, separatesWords r.byte = true →
      r.escaped = true ∨ r.quoteCtx ≠ quoteNone := by
  fun_induction literalReads quoteCtx lex with
  | case1 => simp
  | case2 => simp
  | case3 lex hnul hend hesc ih =>
    refine List.forall_mem_cons.mpr ⟨fun hsep ↦ ?_, fun r hr ↦ ?_⟩
    · dsimp only at hsep
      rw [hesc.1] at hsep
      exact absurd hsep (by decide)
    rcases List.mem_append.mp hr with hr | hr
    · rw [escapeReads] at hr
      split at hr
      · rw [List.mem_singleton] at hr
        subst hr
        exact fun _ ↦ Or.inl rfl
      · exact absurd hr List.not_mem_nil
    · exact ih r hr
  | case4 lex hnul hend hesc ih =>
    refine List.forall_mem_cons.mpr ⟨fun hsep ↦ Or.inr ?_, ih⟩
    rintro rfl
    simp_all [endsLiteral, isWordChar, separatesWords]

/-! ## Parts -/

/-- A test that all separators fail. -/
theorem separatesWords_eq_false {p : Char → Bool}
    (hp : (" \t\n\x0b\x0c\r|&;<>".toList.all fun c ↦ !p c) = true) {c : Char}
    (h : p c = true) : separatesWords c = false := by
  by_contra hsep
  have hc : c ∈ " \t\n\x0b\x0c\r|&;<>".toList := by
    simp only [separatesWords, isspace, isMetaChar, Bool.not_eq_false, Bool.or_eq_true, beq_iff_eq]
      at hsep
    simp only [List.mem_cons, List.not_mem_nil, or_false, String.reduceToList]
    tauto
  have hpc := List.all_eq_true.mp hp c hc
  rw [h] at hpc
  cases hpc

/-- Outside literals all the bytes that a call passes are read in its quote context. -/
theorem reads_of_passes {w : CStr} (hctx : ¬TakesLiteral quoteCtx lex) (h : lex.Passes w lex') :
    (⟨quoteCtx, lex, part, quoteCtx', lex'⟩ : PartCall).reads
      = w.map fun b ↦ ⟨b, quoteCtx, false⟩ := by
  rw [PartCall.reads, if_neg hctx, PartCall.span, h.xstrdupN_eq]

theorem guarded_of_passes {w : CStr} (hctx : ¬TakesLiteral quoteCtx lex) (h : lex.Passes w lex') :
    (⟨quoteCtx, lex, part, quoteCtx', lex'⟩ : PartCall).Guarded ↔
      (quoteCtx = quoteNone → ∀ b ∈ w, separatesWords b = false) := by
  rw [PartCall.Guarded, reads_of_passes hctx h]
  simp only [List.forall_mem_map, Bool.false_eq_true, false_or]
  constructor
  · rintro hall rfl b hb
    by_contra hsep
    exact hall b hb (by simpa using hsep) rfl
  · intro hall b hb hsep hnone
    rw [hall hnone b hb] at hsep
    cases hsep

namespace PartRead

/-- Outside literals, the separators that are passed are those in a bracket. -/
theorem exists_passes (h : PartRead lex quoteCtx part quoteCtx' lex') :
    (TakesLiteral quoteCtx lex ∧ lex' = (handleLiteral lex quoteCtx).2) ∨
    (¬TakesLiteral quoteCtx lex ∧ ∃ w, lex.Passes w lex' ∧
      ((∀ b ∈ w, separatesWords b = false) ↔
        (lex.peek = '[' → ∀ b ∈ bracketText lex.rest, separatesWords b = false) ∨
          quoteCtx ≠ quoteNone)) := by
  cases h with
  | @quote c t hr hc =>
    have hpeek := Lexer.peek_of_rest hr
    refine Or.inr ⟨fun htakes ↦ htakes.1 (by rwa [hpeek]), _, .advance hr, ?_⟩
    rw [hpeek]
    rcases hc with rfl | rfl <;>
      exact iff_of_true (List.forall_mem_singleton.mpr rfl)
        (Or.inl fun hc ↦ absurd hc (by decide))
  | dollar hctx hpasses hw hpart =>
    have hpeek := Lexer.peek_of_rest (c := '$') hpasses.rest_eq
    refine Or.inr ⟨fun htakes ↦ htakes.2.1 ⟨hpeek, ?_⟩, _, hpasses, ?_⟩
    · cases quoteCtx with
      | quoteNone => exact Or.inl rfl
      | quoteSingle => exact absurd rfl hctx
      | quoteDouble => exact Or.inr rfl
    · rw [hpeek]
      refine iff_of_true (List.forall_mem_cons.mpr ⟨by decide, fun b hb ↦ ?_⟩)
        (Or.inl fun hc ↦ absurd hc (by decide))
      exact separatesWords_eq_false (by decide) (hw b hb)
  | tilde hr hctx hprev =>
    have hpeek := Lexer.peek_of_rest hr
    refine Or.inr ⟨fun htakes ↦ htakes.2.2.1 ⟨hpeek, hctx, hprev⟩, _,
      handleTildeWordPart_passes hr, ?_⟩
    rw [hpeek]
    refine iff_of_true (List.forall_mem_cons.mpr ⟨by decide, fun b hb ↦ ?_⟩)
      (Or.inl fun hc ↦ absurd hc (by decide))
    exact separatesWords_eq_false (p := isUserChar) (by decide) (List.mem_takeWhile_imp hb)
  | @wildcard c t hr hc hctx =>
    have hpeek := Lexer.peek_of_rest hr
    refine Or.inr ⟨fun htakes ↦ htakes.2.2.2 ⟨?_, hctx⟩, _, .advance hr, ?_⟩
    · rw [hpeek]
      rcases hc with rfl | rfl <;> rfl
    · rw [hpeek]
      rcases hc with rfl | rfl <;>
        exact iff_of_true (List.forall_mem_singleton.mpr rfl)
          (Or.inl fun hc ↦ absurd hc (by decide))
  | @bracket t hr hctx =>
    have hpeek := Lexer.peek_of_rest hr
    obtain ⟨hlex', hpasses⟩ := handleGlobWordPart_bracket hr
    -- behind the bracket comes its `]`, or nothing
    obtain ⟨w, hw, hlast⟩ :=
      (lex.advanceWhile fun c ↦ c != '\x00' && c != ']').exists_passes_advance
    have hstop := Lexer.peek_advanceWhile (p := fun c ↦ c != '\x00' && c != ']') rfl lex
    have hplain : ∀ b ∈ w, separatesWords b = false := by
      intro b hb
      rw [← hlast b hb] at hstop
      have hb' : b = '\x00' ∨ b = ']' := by
        by_contra hne
        simp_all
      rcases hb' with rfl | rfl <;> decide
    refine Or.inr ⟨fun htakes ↦ htakes.2.2.2 ⟨by rw [hpeek]; rfl, hctx⟩, _,
      hlex' ▸ hpasses.trans hw, ?_⟩
    have htext : bracketText lex.rest = '[' :: bracketText t := by rw [hr]; rfl
    rw [List.forall_mem_append, and_iff_left hplain, htext, hpeek, imp_iff_right rfl]
    exact (or_iff_left fun hne ↦ hne hctx).symm
  | literal h => exact Or.inl ⟨h, rfl⟩

theorem passes (h : PartRead lex quoteCtx part quoteCtx' lex') :
    lex.Passes ((⟨quoteCtx, lex, part, quoteCtx', lex'⟩ : PartCall).reads.map ReadByte.byte)
      lex' := by
  rcases h.exists_passes with ⟨htakes, hlex'⟩ | ⟨htakes, w, hw, -⟩
  · rw [PartCall.reads, if_pos htakes, hlex']
    exact literalReads_passes quoteCtx .empty lex
  · rw [reads_of_passes htakes hw, List.map_map]
    simpa [Function.comp_def] using hw

theorem guarded_iff (h : PartRead lex quoteCtx part quoteCtx' lex') :
    (⟨quoteCtx, lex, part, quoteCtx', lex'⟩ : PartCall).Guarded ↔
      (⟨quoteCtx, lex, part, quoteCtx', lex'⟩ : PartCall).PlainBracket := by
  rcases h.exists_passes with ⟨htakes, -⟩ | ⟨htakes, w, hw, hplain⟩
  · refine iff_of_true ?_ fun hctx hpeek ↦ ?_
    · rw [PartCall.Guarded, PartCall.reads, if_pos htakes]
      exact guarded_literalReads quoteCtx lex
    · dsimp only at hpeek
      exact absurd ⟨by rw [hpeek]; rfl, hctx⟩ htakes.2.2.2
  · rw [guarded_of_passes htakes hw, hplain]
    exact ⟨fun hall hctx ↦ (hall hctx).resolve_right (not_not_intro hctx),
      fun hall hctx ↦ Or.inl (hall hctx)⟩

end PartRead

/-! ## Words -/

namespace ReadsParts

theorem passes (h : ReadsParts quoteCtx lex calls lex') :
    lex.Passes ((calls.flatMap PartCall.reads).map ReadByte.byte) lex' := by
  induction h with
  | nil => exact .nil _
  | cons _ _ hread _ _ ih =>
    rw [List.flatMap_cons, List.map_append]
    exact hread.passes.trans ih

theorem guarded_iff (h : ReadsParts quoteCtx lex calls lex') :
    (∀ c ∈ calls, c.Guarded) ↔ ∀ c ∈ calls, c.PlainBracket := by
  induction h with
  | nil => simp
  | cons _ _ hread _ _ ih =>
    rw [List.forall_mem_cons, List.forall_mem_cons, hread.guarded_iff, ih]

end ReadsParts

/-- **Separators.** The separators in a word are escaped or quoted exactly when none stands between
an unquoted `[` with which a part begins and the `]` that ends it, or the end of the input. -/
theorem separatorsGuarded_iff {tok : Token} (h : lexerNextToken lex = some (tok, lex'))
    (htok : tok.type = tokWord ∨ tok.type = tokFd) :
    SeparatorsGuarded (skipWhitespaces lex) lex' ↔
      ∀ c ∈ partCalls quoteNone (skipWhitespaces lex), c.PlainBracket := by
  have hreads := (readsParts_of_lexerNextToken h htok).1
  have hbytes : (wordReads (skipWhitespaces lex)).map ReadByte.byte
      = (skipWhitespaces lex).xstrdupN (skipWhitespaces lex).pos
        (lex'.pos - (skipWhitespaces lex).pos) := hreads.passes.xstrdupN_eq.symm
  have hguarded : (∀ c ∈ partCalls quoteNone (skipWhitespaces lex), c.Guarded) ↔
      ∀ r ∈ wordReads (skipWhitespaces lex), separatesWords r.byte = true →
        r.escaped = true ∨ r.quoteCtx ≠ quoteNone := by
    rw [wordReads, List.forall_mem_flatMap]
    rfl
  rw [← hreads.guarded_iff, hguarded]
  exact ⟨SeparatorsGuarded.guarded, fun hall ↦ ⟨hbytes, hall⟩⟩

theorem separatorsGuarded_iff_quoted :
    ∃ tok lex', lexerNextToken (.init "[a]' '".toList) = some (tok, lex') ∧
      SeparatorsGuarded (skipWhitespaces (.init "[a]' '".toList)) lex' := by
  have heval : (lexerNextToken (.init "[a]' '".toList)).map (·.1.type) = some tokWord := by
    decide +kernel
  obtain ⟨⟨tok, lex'⟩, h, htok⟩ := Option.map_eq_some_iff.mp heval
  exact ⟨tok, lex', h, (separatorsGuarded_iff h (Or.inl htok)).mpr (by decide +kernel)⟩

/-- The `;` in `a[;b` is read outside quotes. -/
theorem not_separatorsGuarded : ¬∀ (lex : Lexer) (tok : Token) (lex' : Lexer),
    lexerNextToken lex = some (tok, lex') → tok.type = tokWord ∨ tok.type = tokFd →
    SeparatorsGuarded (skipWhitespaces lex) lex' := by
  intro h
  have heval : (lexerNextToken (.init "a[;b".toList)).map (·.1.type) = some tokWord := by
    decide +kernel
  obtain ⟨⟨tok, lex'⟩, hcall, htok⟩ := Option.map_eq_some_iff.mp heval
  have hread : ⟨';', quoteNone, false⟩ ∈ wordReads (skipWhitespaces (.init "a[;b".toList)) := by
    decide +kernel
  rcases (h _ _ _ hcall (Or.inl htok)).guarded _ hread rfl with hescaped | hquoted
  · exact absurd hescaped (by decide)
  · exact hquoted rfl

end

end Novash
