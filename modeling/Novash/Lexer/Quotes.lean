import Novash.Lexer.Reading

/-!
# Quoted regions

Between two quote characters every byte should stand for itself. The text after the first byte of a
region does: `handle_literal` reads it in one go and knows which quote it is looking for. The first
byte does not have to, because `lex_next_word_part` tests for *either* quote character before it
looks at the context, and `toggleQuote` leaves any region on either of them. So a region whose first
byte is the other quote character is closed by it, and the rest of the region is read as unquoted
text.

`lexesQuoted_iff_head` says that this is the only exception. The direction that refutes the rest
needs an invariant of the word loop: once the region has been left, its own quote character is only
met again as the last byte of the line, so no part read after that can carry the context of the
region.
-/

namespace Novash

open TokenType WordPartType QuoteContext

/-- The byte that opens and closes a region. -/
def quoteChar : QuoteContext → Char
  | quoteDouble => '"'
  | _ => '\''

/-- The quote character that does not. -/
def otherQuoteChar : QuoteContext → Char
  | quoteDouble => '\''
  | _ => '"'

/-- The line made of one region with the text `s` between its quote characters. -/
def quotedLine (q : QuoteContext) (s : CStr) : CStr := quoteChar q :: (s ++ [quoteChar q])

/-- The line is one word and nothing else; the parts of the word carry the context of the region
and spell the text. -/
def LexesQuoted (q : QuoteContext) (s : CStr) : Prop :=
  ∃ word lex₁ lex₂,
    lexerNextToken (Lexer.init (quotedLine q s)) = some (word, lex₁) ∧
    word.type = tokWord ∧
    lexerNextToken lex₁ = some (.operator tokEof, lex₂) ∧
    (∀ part ∈ word.parts, part.quote = q) ∧
    (word.parts.map WordPart.value).flatten = s

variable {q : QuoteContext}

/-! ## A region that does not start with the other quote character -/

private theorem quoteChar_eq (q : QuoteContext) : quoteChar q = '\'' ∨ quoteChar q = '"' := by
  cases q <;> simp [quoteChar]

private theorem endsWord_quoteChar (q q' : QuoteContext) : endsWord q' (quoteChar q) = false := by
  cases q <;> cases q' <;> decide

private theorem quoteChar_ne_nul (q : QuoteContext) : quoteChar q ≠ '\x00' := by
  cases q <;> decide

private theorem toggleQuote_open (hq : q ≠ quoteNone) :
    toggleQuote (quoteChar q) quoteNone = q := by
  cases q <;> first | rfl | exact absurd rfl hq

private theorem toggleQuote_close (hq : q ≠ quoteNone) (c : Char) :
    toggleQuote c q = quoteNone := by
  cases q <;> first | rfl | exact absurd rfl hq

/-- Inside a region white space and operators do not end the word. -/
private theorem endsWord_of_ne_none (hq : q ≠ quoteNone) (c : Char) : endsWord q c = false := by
  simp [endsWord, hq]

private theorem startsLiteral_of_plainIn {c : Char} (hq : q ≠ quoteNone) (hc : PlainIn q c)
    (hother : c ≠ otherQuoteChar q) : StartsLiteral q c := by
  obtain ⟨_, hend, _⟩ := hc
  cases q
  case quoteNone => exact absurd rfl hq
  case quoteSingle => simp_all [StartsLiteral, endsLiteral, otherQuoteChar]
  case quoteDouble => simp_all [StartsLiteral, endsLiteral, otherQuoteChar]

/-- The parts of a region: one literal, or none when there is no text. -/
private def regionParts (q : QuoteContext) (s : CStr) : Word :=
  if s = [] then [] else [⟨wordLiteral, q, s⟩]

private theorem wordLoop_region {s : CStr} {lex : Lexer} (hq : q ≠ quoteNone)
    (hs : ∀ c ∈ s, PlainIn q c) (hhead : s.head? ≠ some (otherQuoteChar q))
    (hr : lex.rest = s ++ [quoteChar q]) :
    wordLoop [] q lex = some (regionParts q s, lex.skip (s.length + 1)) := by
  -- once the text is read, the closing quote leads to the end of the line
  have hclose : ∀ {parts : Word} {lex' : Lexer}, lex'.rest = [quoteChar q] →
      wordLoop parts q lex' = some (parts, lex'.skip 1) := by
    intro parts lex' hr'
    rw [wordLoop_part hr' (quoteChar_ne_nul q) (endsWord_quoteChar q q)
      (lexNextWordPart_quote hr' (quoteChar_eq q)), toggleQuote_close hq,
      wordLoop_nil (Lexer.rest_skip_one hr')]
    rfl
  cases s with
  | nil => rw [hclose hr]; rfl
  | cons c s =>
    have hc : PlainIn q c := hs c List.mem_cons_self
    have hnul : NulFree (c :: s) := fun h ↦ (hs _ h).1 rfl
    have hrest : (lex.skip (c :: s).length).rest = [quoteChar q] := Lexer.rest_skip_of_append hr
    have hend : endsLiteral q (quoteChar q) = true := by
      cases q <;> rfl
    have hloop : literalLoop q .empty lex
        = ((c :: s).foldl LiteralBuf.push .empty, lex.skip (c :: s).length) := by
      rw [literalLoop_plain_append hs hr, literalLoop_end hrest hend]
    have hhead' : c ≠ otherQuoteChar q := fun h ↦ hhead (by rw [h]; rfl)
    have hpart := lexNextWordPart_literal hr (startsLiteral_of_plainIn hq hc hhead') hnul hloop
    rw [wordLoop_part hr hc.1 (endsWord_of_ne_none hq c) hpart, hclose hrest, Lexer.skip_skip]
    rfl

private theorem lexesQuoted_of_head {s : CStr} (hq : q ≠ quoteNone)
    (hs : ∀ c ∈ s, PlainIn q c) (hhead : s.head? ≠ some (otherQuoteChar q)) :
    LexesQuoted q s := by
  have hr : (Lexer.init (quotedLine q s)).rest = quoteChar q :: (s ++ [quoteChar q]) := rfl
  have hr₁ := Lexer.rest_skip_one hr
  have hend : ((Lexer.init (quotedLine q s)).skip (1 + (s.length + 1))).rest = [] := by
    simp [Lexer.rest_skip, quotedLine]
  have hloop : wordLoop [] quoteNone (Lexer.init (quotedLine q s))
      = some (regionParts q s, (Lexer.init (quotedLine q s)).skip (1 + (s.length + 1))) := by
    rw [wordLoop_part hr (quoteChar_ne_nul q) (endsWord_quoteChar q _)
      (lexNextWordPart_quote hr (quoteChar_eq q)), toggleQuote_open hq, putPart,
      wordLoop_region hq hs hhead hr₁, Lexer.skip_skip]
  have hpeek := Lexer.peek_of_rest_nil hend
  have hspace : isspace (quoteChar q) = false := by cases q <;> decide
  have hmeta : isMetaChar (quoteChar q) = false := by cases q <;> decide
  refine ⟨_, _, _, lexerNextToken_word hr hspace hmeta (quoteChar_ne_nul q) hloop
    (by rw [hpeek]; decide), rfl, lexerNextToken_eof hend, ?_, ?_⟩
  · intro part hpart
    rw [regionParts] at hpart
    split at hpart <;> simp_all
  · rw [regionParts]
    split <;> simp_all

/-! ## A region that starts with the other quote character -/

/-- What is left of the line once a region has been left too early: the quote character of the
region stands at the very end, or has been passed. -/
private def OnlyAtEnd (d : Char) (rest : CStr) : Prop :=
  rest = [] ∨ ∃ u, d ∉ u ∧ rest = u ++ [d]

private theorem OnlyAtEnd.drop {d : Char} {rest : CStr} (h : OnlyAtEnd d rest) (n : ℕ) :
    OnlyAtEnd d (rest.drop n) := by
  rcases h with rfl | ⟨u, hu, rfl⟩
  · exact Or.inl (List.drop_nil)
  · by_cases hn : n ≤ u.length
    · exact Or.inr ⟨u.drop n, fun h ↦ hu (List.mem_of_mem_drop h),
        List.drop_append_of_le_length hn⟩
    · exact Or.inl (List.drop_eq_nil_iff.mpr (by simp; omega))

/-- One part read outside the region: it carries another context, and the region is entered again
only at the end of the line. -/
private theorem lexNextWordPart_outside {lex lex' : Lexer} {ctx ctx' : QuoteContext}
    {part : Option WordPart} (hne : ctx ≠ q) (hq : q ≠ quoteNone)
    (hnul : lex.peek ≠ '\x00') (hat : OnlyAtEnd (quoteChar q) lex.rest)
    (h : lexNextWordPart lex ctx = some (part, ctx', lex')) :
    (∀ p ∈ part, p.quote ≠ q) ∧ (ctx' ≠ q ∨ lex'.rest = []) := by
  unfold lexNextWordPart at h
  dsimp only at h
  split at h
  · cases h
    refine ⟨by simp, ?_⟩
    by_cases hctx : toggleQuote lex.peek ctx = q
    · right
      -- the region is entered again: this was its own quote character
      have hpeek : lex.peek = quoteChar q := by
        cases ctx <;> cases q <;> simp_all [toggleQuote, quoteChar]
      obtain ⟨c, t, hr⟩ := Lexer.rest_of_pos_lt (Lexer.pos_lt_of_peek hnul)
      rw [Lexer.peek_of_rest hr] at hpeek
      subst hpeek
      rcases hat with hnil | ⟨u, hu, hru⟩
      · exact absurd (hr.symm.trans hnil) (List.cons_ne_nil _ _)
      · rw [Lexer.advance_of_rest hr, Lexer.rest_skip_one hr]
        cases u with
        | nil => exact (List.cons.inj (hr.symm.trans hru)).2
        | cons d u =>
          have hd : quoteChar q = d := (List.cons.inj (hr.symm.trans hru)).1
          exact absurd (hd ▸ List.mem_cons_self) hu
    · exact Or.inl hctx
  split at h
  · obtain ⟨⟨name, lex₁⟩, _, hpart⟩ := Option.map_eq_some_iff.mp h
    split at hpart <;> cases hpart <;> simp [hne]
  split at h
  · cases h; simp [hne]
  split at h <;> cases h <;> simp [hne]

private theorem wordLoop_outside (hq : q ≠ quoteNone) (parts : Word) (ctx : QuoteContext)
    (lex : Lexer) : (ctx ≠ q ∨ lex.rest = []) → OnlyAtEnd (quoteChar q) lex.rest →
      (∀ p ∈ parts, p.quote ≠ q) →
      ∀ {parts' lex'}, wordLoop parts ctx lex = some (parts', lex') →
        ∀ p ∈ parts', p.quote ≠ q := by
  fun_induction wordLoop parts ctx lex with
  | case1 parts ctx lex hnul =>
    intro _ _ hparts parts' lex' h
    cases h
    exact hparts
  | case2 parts ctx lex hnul hend =>
    intro _ _ hparts parts' lex' h
    cases h
    exact hparts
  | case3 parts ctx lex hnul hend hpart =>
    intro _ _ _ parts' lex' h
    cases h
  | case4 parts ctx lex hnul hend part ctx' lex₁ hpart ih =>
    intro hctx hat hparts parts' lex' h
    have hne : ctx ≠ q := by
      rcases hctx with hctx | hr
      · exact hctx
      · exact absurd (Lexer.peek_of_rest_nil hr) hnul
    obtain ⟨hquote, hnext⟩ := lexNextWordPart_outside hne hq hnul hat hpart
    have hmoves := lexNextWordPart_moves hnul (by simpa using hend) hpart
    have hrest : lex₁.rest = lex.rest.drop (lex₁.pos - lex.pos) := by
      rw [Lexer.rest, Lexer.rest, hmoves.1, List.drop_drop]
      congr 1
      omega
    refine ih hnext (hrest ▸ hat.drop _) ?_ h
    intro p hp
    cases part with
    | none => exact hparts p hp
    | some part =>
      rw [putPart] at hp
      split at hp
      · rcases List.mem_append.mp hp with hp | hp
        · exact hparts p hp
        · exact (List.mem_singleton.mp hp) ▸ hquote part rfl
      · exact hparts p hp

private theorem not_lexesQuoted_of_head {s : CStr} (hq : q ≠ quoteNone)
    (hs : ∀ c ∈ s, PlainIn q c) (hhead : s.head? = some (otherQuoteChar q)) :
    ¬LexesQuoted q s := by
  rintro ⟨word, lex₁, lex₂, htok, -, -, hquotes, hvalue⟩
  obtain ⟨t, rfl⟩ : ∃ t, s = otherQuoteChar q :: t := List.head?_eq_some_iff.mp hhead
  have hr : (Lexer.init (quotedLine q (otherQuoteChar q :: t))).rest
      = quoteChar q :: otherQuoteChar q :: (t ++ [quoteChar q]) := rfl
  have hr₁ := Lexer.rest_skip_one hr
  have hr₂ := Lexer.rest_skip_one hr₁
  have hother : otherQuoteChar q = '\'' ∨ otherQuoteChar q = '"' := by
    cases q <;> simp [otherQuoteChar]
  have hspace : isspace (quoteChar q) = false := by cases q <;> decide
  have hmeta : isMetaChar (quoteChar q) = false := by cases q <;> decide
  -- the second quote character leaves the region
  have hloop : wordLoop [] quoteNone (Lexer.init (quotedLine q (otherQuoteChar q :: t)))
      = wordLoop [] quoteNone
          (((Lexer.init (quotedLine q (otherQuoteChar q :: t))).skip 1).skip 1) := by
    rw [wordLoop_part hr (quoteChar_ne_nul q) (endsWord_quoteChar q _)
      (lexNextWordPart_quote hr (quoteChar_eq q)), toggleQuote_open hq, putPart,
      wordLoop_part hr₁ (hs _ List.mem_cons_self).1 (endsWord_of_ne_none hq _)
      (lexNextWordPart_quote hr₁ hother), toggleQuote_close hq, putPart]
  have hquote : quoteChar q ∉ t := by
    intro hmem
    have hend := (hs _ (List.mem_cons_of_mem _ hmem)).2.1
    revert hend
    cases q <;> first | exact absurd rfl hq | decide
  have hparts : ∀ p ∈ word.parts, p.quote ≠ q := by
    have hword := wordLoop_of_lexerNextToken hr hspace hmeta (quoteChar_ne_nul q) htok
    rw [hloop] at hword
    exact wordLoop_outside hq [] quoteNone _ (Or.inl hq.symm) (Or.inr ⟨t, hquote, hr₂⟩) (by simp)
      hword
  -- every part would have to carry the context of the region, so there is none
  have hnil : word.parts = [] := List.eq_nil_iff_forall_not_mem.mpr fun p hp ↦
    hparts p hp (hquotes p hp)
  rw [hnil] at hvalue
  exact absurd hvalue (by simp)

/-! ## The exact condition -/

private theorem lexesQuoted_iff {s : CStr} (hq : q ≠ quoteNone) (hs : ∀ c ∈ s, PlainIn q c) :
    LexesQuoted q s ↔ s.head? ≠ some (otherQuoteChar q) :=
  ⟨fun h hhead ↦ not_lexesQuoted_of_head hq hs hhead h, lexesQuoted_of_head hq hs⟩

/-- **Quoted regions.** Over the texts that can stand in a region at all, a region is opaque exactly
when its text does not start with the other quote character. -/
theorem lexesQuoted_iff_head {s : CStr} (hs : NulFree s) :
    ('\'' ∉ s → (LexesQuoted quoteSingle s ↔ s.head? ≠ some '"')) ∧
    ('"' ∉ s → '$' ∉ s → '\\' ∉ s → (LexesQuoted quoteDouble s ↔ s.head? ≠ some '\'')) := by
  constructor
  · intro hquote
    refine lexesQuoted_iff (by decide) fun c hc ↦ ⟨fun h ↦ hs (h ▸ hc), ?_, fun _ ↦ rfl⟩
    simpa [endsLiteral] using fun h : c = '\'' ↦ hquote (h ▸ hc)
  · intro hquote hdollar hslash
    refine lexesQuoted_iff (by decide) fun c hc ↦
      ⟨fun h ↦ hs (h ▸ hc), ?_, fun h ↦ absurd (h ▸ hc) hslash⟩
    simp only [endsLiteral, Bool.or_eq_false_iff, beq_eq_false_iff_ne]
    exact ⟨fun h ↦ hquote (h ▸ hc), fun h ↦ hdollar (h ▸ hc)⟩

theorem lexesQuoted_iff_head_metachars :
    LexesQuoted quoteSingle ['|', ' ', '"'] ∧ LexesQuoted quoteDouble ['a', '\'', ';'] :=
  ⟨((lexesQuoted_iff_head (by decide)).1 (by decide)).mpr (by decide),
    ((lexesQuoted_iff_head (by decide)).2 (by decide) (by decide) (by decide)).mpr (by decide)⟩

/-- The line `'"'`: the double quote ends the region, and the word has no part at all. -/
theorem not_lexesQuoted_of_other_quote :
    ¬((∀ s, NulFree s → '\'' ∉ s → LexesQuoted quoteSingle s) ∧
      (∀ s, NulFree s → '"' ∉ s → '$' ∉ s → '\\' ∉ s → LexesQuoted quoteDouble s)) := by
  rintro ⟨hsingle, -⟩
  obtain ⟨word, lex₁, lex₂, htok, -, -, -, hvalue⟩ := hsingle ['"'] (by decide) (by decide)
  have hlex : lexerNextToken (Lexer.init (quotedLine quoteSingle ['"']))
      = some (⟨tokWord, ['\'', '"', '\''], []⟩, ⟨['\'', '"', '\''], 3⟩) := by decide +kernel
  rw [hlex] at htok
  cases htok
  exact absurd hvalue (by decide)

end Novash
