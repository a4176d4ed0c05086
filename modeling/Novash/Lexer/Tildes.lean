import Novash.Lexer.PartCalls

/-!
# Tildes inside words

A tilde part should be the first part of a word. What `lex_next_word_part` tests is only that the
byte before the `~` is not another one, each time a part starts. A literal never ends in front of an
unquoted `~`, but every other part can: the tilde after it is a tilde part of its own, except after
a `~` that stands alone.
-/

namespace Novash

open TokenType WordPartType QuoteContext

/-- The call reads a tilde part. -/
def PartCall.IsTilde (c : PartCall) : Prop := ∃ p ∈ c.part, p.type = wordTilde

/-- The part ends outside quotes in front of a `~`, and is not a single `~` itself. -/
def PartCall.MeetsTilde (c : PartCall) : Prop :=
  c.quoteCtx' = quoteNone ∧ c.after.peek = '~' ∧
    ¬(c.before.peek = '~' ∧ c.after.pos = c.before.pos + 1)

instance (c : PartCall) : Decidable c.MeetsTilde := inferInstanceAs (Decidable (_ ∧ _))

/-- The only tilde part is the first part of the word, and it starts at the first byte. -/
structure TildeLeads (start : Lexer) (parts : Word) : Prop where
  first : ∀ p ∈ parts.tail, p.type ≠ wordTilde
  start : ∀ c ∈ partCalls quoteNone start, c.IsTilde → c.before = start

section

variable {lex lex' : Lexer} {quoteCtx quoteCtx' : QuoteContext} {part : Option WordPart}
  {calls : List PartCall}

/-! ## Where parts end -/

theorem literalLoop_stops (quoteCtx : QuoteContext) (buf : LiteralBuf) (lex : Lexer) :
    (literalLoop quoteCtx buf lex).2.peek = '\x00' ∨
      endsLiteral quoteCtx (literalLoop quoteCtx buf lex).2.peek = true := by
  fun_induction literalLoop quoteCtx buf lex with
  | case1 buf lex hnul => exact Or.inl hnul
  | case2 buf lex _ hend => exact Or.inr hend
  | case3 _ _ _ _ _ ih => exact ih
  | case4 _ _ _ _ _ ih => exact ih

theorem PartRead.isTilde_iff (h : PartRead lex quoteCtx part quoteCtx' lex') :
    (∃ p ∈ part, p.type = wordTilde) ↔
      lex.peek = '~' ∧ quoteCtx = quoteNone ∧ lex.peekPrev ≠ '~' := by
  cases h with
  | quote hr hc =>
    rw [Lexer.peek_of_rest hr]
    rcases hc with rfl | rfl <;> simp
  | dollar hctx hpasses hw hpart =>
    rw [Lexer.peek_of_rest (c := '$') hpasses.rest_eq]
    simpa using hpart
  | tilde hr hctx hprev => exact iff_of_true ⟨_, rfl, rfl⟩ ⟨Lexer.peek_of_rest hr, hctx, hprev⟩
  | wildcard hr hc hctx =>
    rw [Lexer.peek_of_rest hr]
    rcases hc with rfl | rfl <;> simp
  | bracket hr hctx =>
    rw [Lexer.peek_of_rest hr]
    simp
  | literal h => exact iff_of_false (by simp) h.2.2.1

/-- The byte before an unquoted `~` at which a part ends is a `~` only if that is the part. -/
theorem PartRead.peekPrev_eq_iff (h : PartRead lex quoteCtx part quoteCtx' lex')
    (hctx' : quoteCtx' = quoteNone) (hpeek : lex'.peek = '~') :
    lex'.peekPrev = '~' ↔ lex.peek = '~' ∧ lex'.pos = lex.pos + 1 := by
  cases h with
  | quote hr hc =>
    rw [(Lexer.Passes.advance hr).peekPrev_eq_getLast (by simp), Lexer.peek_of_rest hr]
    rcases hc with rfl | rfl <;> simp
  | dollar hctx hpasses hw hpart =>
    rw [Lexer.peek_of_rest (c := '$') hpasses.rest_eq, hpasses.peekPrev_eq_getLast (by simp)]
    refine iff_of_false (fun hlast ↦ ?_) (by simp)
    rcases List.mem_cons.mp (hlast ▸ List.getLast_mem _) with hc | hc
    · exact absurd hc (by decide)
    · exact absurd (hw _ hc) (by decide)
  | @tilde t hr hctx hprev =>
    have hpasses := handleTildeWordPart_passes hr
    rw [hpasses.peekPrev_eq_getLast (by simp), hpasses.pos_eq, Lexer.peek_of_rest hr]
    cases hname : t.takeWhile isUserChar with
    | nil => simp
    | cons c w =>
      refine iff_of_false (fun hlast ↦ ?_) (by simp)
      rw [List.getLast_cons (List.cons_ne_nil c w)] at hlast
      have hmem : '~' ∈ t.takeWhile isUserChar := hname ▸ hlast ▸ List.getLast_mem _
      exact absurd (List.mem_takeWhile_imp hmem) (by decide)
  | wildcard hr hc hctx =>
    rw [(Lexer.Passes.advance hr).peekPrev_eq_getLast (by simp), Lexer.peek_of_rest hr]
    rcases hc with rfl | rfl <;> simp
  | @bracket t hr hctx =>
    obtain ⟨hlex', hpasses⟩ := handleGlobWordPart_bracket hr
    rw [hlex'] at hpeek ⊢
    rw [Lexer.peek_of_rest hr]
    refine iff_of_false (fun hprev ↦ ?_) (by simp)
    have hstop := Lexer.peek_advanceWhile (p := fun c ↦ c != '\x00' && c != ']') rfl lex
    cases hrest : (lex.advanceWhile fun c ↦ c != '\x00' && c != ']').rest with
    | nil =>
      rw [Lexer.advance_of_rest_nil hrest, Lexer.peek_of_rest_nil hrest] at hpeek
      exact absurd hpeek (by decide)
    | cons c u =>
      rw [(hpasses.trans (.advance hrest)).peekPrev_eq_getLast (by simp)] at hprev
      rw [Lexer.peek_of_rest hrest] at hstop
      rw [show c = '~' by simpa using hprev] at hstop
      exact absurd hstop (by decide)
  | literal h =>
    subst hctx'
    rcases literalLoop_stops quoteNone .empty lex with hstop | hstop
    · exact absurd (hpeek.symm.trans hstop) (by decide)
    · exact absurd ((congrArg (endsLiteral quoteNone) hpeek).symm.trans hstop) (by decide)

/-! ## Words -/

namespace ReadsParts

theorem pos_le (h : ReadsParts quoteCtx lex calls lex') : ∀ c ∈ calls, lex.pos ≤ c.before.pos := by
  induction h with
  | nil => simp
  | cons _ _ _ hmoves _ ih =>
    refine List.forall_mem_cons.mpr ⟨le_refl _, fun c hc ↦ ?_⟩
    exact hmoves.2.le.trans (ih c hc)

/-- Behind the first call there is a tilde part only where a part meets a tilde. -/
theorem not_isTilde_iff (h : ReadsParts quoteCtx lex calls lex') :
    (∀ c ∈ calls.tail, ¬c.IsTilde) ↔ ∀ c ∈ calls, ¬c.MeetsTilde := by
  induction h with
  | nil => simp
  | @cons quoteCtx quoteCtx' lex lex₁ lex' part calls _ _ hread _ hrest ih =>
    rw [List.tail_cons, List.forall_mem_cons, ← ih]
    cases hrest with
    | nil hend =>
      refine iff_of_true (by simp) ⟨?_, by simp⟩
      rintro ⟨hctx, hpeek, -⟩
      dsimp only at hctx hpeek
      rw [hctx, hpeek] at hend
      exact absurd hend (by decide)
    | @cons _ ctx₂ _ lex₂ _ part₂ calls _ _ hread₂ _ _ =>
      -- the next call reads a tilde part exactly when this one meets a tilde
      rw [List.tail_cons, List.forall_mem_cons]
      refine and_congr_left fun _ ↦ not_congr ?_
      refine hread₂.isTilde_iff.trans ?_
      constructor
      · rintro ⟨hpeek, hctx, hprev⟩
        exact ⟨hctx, hpeek, mt (hread.peekPrev_eq_iff hctx hpeek).mpr hprev⟩
      · rintro ⟨hctx, hpeek, hlone⟩
        exact ⟨hpeek, hctx, mt (hread.peekPrev_eq_iff hctx hpeek).mp hlone⟩

end ReadsParts

theorem foldl_putPart (l : List (Option WordPart)) (parts : Word) :
    l.foldl putPart parts = parts ++ l.flatMap (putPart []) := by
  induction l generalizing parts with
  | nil => simp
  | cons part l ih =>
    rw [List.foldl_cons, ih, List.flatMap_cons, ← List.append_assoc]
    congr 1
    cases part with
    | none => simp [putPart]
    | some p =>
      simp only [putPart]
      split <;> simp

theorem mem_of_mem_putPart {p : WordPart} (h : p ∈ putPart [] part) : p ∈ part := by
  cases part with
  | none => exact absurd h List.not_mem_nil
  | some q =>
    rw [putPart] at h
    split at h
    · rw [List.nil_append, List.mem_singleton] at h
      exact congrArg some h.symm
    · exact absurd h List.not_mem_nil

/-- The parts behind the first one come from the calls behind the first one. -/
theorem exists_call_of_mem_tail {p : WordPart}
    (hp : p ∈ ((calls.map PartCall.part).foldl putPart []).tail) :
    ∃ c ∈ calls.tail, p ∈ c.part := by
  cases calls with
  | nil => exact absurd hp List.not_mem_nil
  | cons c calls =>
    rw [foldl_putPart, List.nil_append, List.map_cons, List.flatMap_cons] at hp
    have hmem : p ∈ (calls.map PartCall.part).flatMap (putPart []) := by
      cases hpart : c.part with
      | none => exact List.mem_of_mem_tail (by simpa [hpart, putPart] using hp)
      | some q =>
        rw [hpart, putPart] at hp
        split at hp
        · simpa using hp
        · exact List.mem_of_mem_tail (by simpa using hp)
    obtain ⟨part, hpart, hput⟩ := List.mem_flatMap.mp hmem
    obtain ⟨d, hd, rfl⟩ := List.mem_map.mp hpart
    exact ⟨d, hd, mem_of_mem_putPart hput⟩

/-- **Tildes.** The tilde part of a word is its first part, at its first byte, exactly when no part
but a single `~` ends outside quotes in front of a `~`. -/
theorem tildeLeads_iff {tok : Token} (h : lexerNextToken lex = some (tok, lex'))
    (htok : tok.type = tokWord ∨ tok.type = tokFd) :
    TildeLeads (skipWhitespaces lex) tok.parts ↔
      ∀ c ∈ partCalls quoteNone (skipWhitespaces lex), ¬c.MeetsTilde := by
  obtain ⟨hreads, hparts⟩ := readsParts_of_lexerNextToken h htok
  rw [← hreads.not_isTilde_iff]
  constructor
  · rintro ⟨-, hstart⟩ c hc htilde
    have hbefore := hstart c (List.mem_of_mem_tail hc) htilde
    -- but the first call has moved on
    generalize partCalls quoteNone (skipWhitespaces lex) = calls at hreads hc
    cases hreads with
    | nil => exact absurd hc List.not_mem_nil
    | cons _ _ _ hmoves hrest =>
      have hle := hrest.pos_le c hc
      rw [hbefore] at hle
      exact absurd hmoves.2 (Nat.not_lt.mpr hle)
  · intro hnone
    constructor
    · intro p hp htype
      rw [hparts] at hp
      obtain ⟨c, hc, hpart⟩ := exists_call_of_mem_tail hp
      exact hnone c hc ⟨p, hpart, htype⟩
    · intro c hc htilde
      generalize partCalls quoteNone (skipWhitespaces lex) = calls at hreads hc hnone
      cases hreads with
      | nil => exact absurd hc List.not_mem_nil
      | cons =>
        rcases List.mem_cons.mp hc with rfl | hc
        · rfl
        · exact absurd htilde (hnone c hc)

theorem tildeLeads_iff_home :
    ∃ tok lex', lexerNextToken (.init "~/a".toList) = some (tok, lex') ∧
      TildeLeads (skipWhitespaces (.init "~/a".toList)) tok.parts := by
  have heval : (lexerNextToken (.init "~/a".toList)).map (·.1.type) = some tokWord := by
    decide +kernel
  obtain ⟨⟨tok, lex'⟩, h, htok⟩ := Option.map_eq_some_iff.mp heval
  exact ⟨tok, lex', h, (tildeLeads_iff h (Or.inl htok)).mpr (by decide +kernel)⟩

/-- In `*~` the tilde is a tilde part, behind a wildcard. -/
theorem not_tildeLeads : ¬∀ (lex : Lexer) (tok : Token) (lex' : Lexer),
    lexerNextToken lex = some (tok, lex') → tok.type = tokWord ∨ tok.type = tokFd →
    TildeLeads (skipWhitespaces lex) tok.parts := by
  intro h
  have heval : (lexerNextToken (.init "*~".toList)).map (fun r ↦ (r.1.type, r.1.parts))
      = some (tokWord, [⟨wordGlob, quoteNone, ['*']⟩, ⟨wordTilde, quoteNone, ['~']⟩]) := by
    decide +kernel
  obtain ⟨⟨tok, lex'⟩, hcall, hres⟩ := Option.map_eq_some_iff.mp heval
  obtain ⟨htok, hparts⟩ := Prod.mk.inj hres
  have hleads := (h _ _ _ hcall (Or.inl htok)).first
  dsimp only at hparts
  rw [hparts] at hleads
  exact hleads ⟨wordTilde, quoteNone, ['~']⟩ (by simp) rfl

end

end Novash
