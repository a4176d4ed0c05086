import Novash.Lexer.Spans
import Novash.Lexer.Embedding
import Novash.Parser.Join

/-!
# The line `a ; b`

What the lexer reads from it, when it is known what it reads from `a` and from `b`
(`delivers_joinLines`), and then what the parser makes of it (`parsesTo_joinLines`).

The text of `b` is read as it would be by itself: it starts behind white space. For the text of `a`
this needs that nothing is left open at its end. A quote that is not closed, for instance, does not
keep `a` from being parsed, but it takes the `;` into the last word (`ClosedAtEnd`).
-/

namespace Novash

open Foundations TokenType

/-- `a ; b`. -/
def joinLines (a b : CStr) : CStr := a ++ " ; ".toList ++ b

/-- Nothing is left open at the end of the line, such as a quote: a `;` that comes after it is read
as a separator. -/
def ClosedAtEnd (line : CStr) : Prop :=
  Delivers (Lexer.init (line ++ " ; ".toList))
    (TokenSource.tokens (Lexer.init line) ++ [.operator tokSemi, .operator tokEof])

instance decidableDelivers {σ : Type} [TokenSource σ] :
    (toks : List Token) → (s : σ) → Decidable (Delivers s toks)
  | [], _ => .isTrue trivial
  | tok :: toks, s =>
    match hnext : TokenSource.next s with
    | none => .isFalse fun ⟨_, h, _⟩ ↦ by cases hnext.symm.trans h
    | some (tok', s') =>
      have := decidableDelivers toks s'
      decidable_of_iff (tok' = tok ∧ Delivers s' toks)
        ⟨fun ⟨heq, hrest⟩ ↦ ⟨s', heq ▸ hnext, hrest⟩,
          fun ⟨_, h, hrest⟩ ↦ by cases hnext.symm.trans h; exact ⟨rfl, hrest⟩⟩

instance (line : CStr) : Decidable (ClosedAtEnd line) := decidableDelivers _ _

section

variable {lex lex' : Lexer} {tok : Token}

theorem switchToken_semi (h : switchToken lex = some (tok, lex')) (htok : tok.type = tokSemi) :
    lex.peek = ';' ∧ lex' = lex.advance := by
  unfold switchToken at h
  dsimp only at h
  by_cases hsemi : lex.peek = ';'
  · rw [hsemi] at h
    cases h
    exact ⟨hsemi, rfl⟩
  · rw [if_neg hsemi] at h
    split_ifs at h
    iterate 8
      · cases h
        exact absurd htok (by decide)
    · obtain ⟨⟨word, lex₁⟩, hword, hres⟩ := Option.map_eq_some_iff.mp h
      obtain ⟨_, _, hword⟩ := Option.map_eq_some_iff.mp hword
      cases hword
      dsimp only at hres
      split_ifs at hres <;> cases hres <;> exact absurd htok (by simp)

/-- A line that ends in white space does not end behind a `;`. -/
theorem pos_lt_of_lexerNextToken_semi {w : CStr} {c : Char} (hin : lex.input = w ++ [c])
    (hc : isspace c = true) (h : lexerNextToken lex = some (tok, lex'))
    (htok : tok.type = tokSemi) : lex'.pos < lex'.length := by
  obtain ⟨hpeek, rfl⟩ := switchToken_semi h htok
  have hin' : (skipWhitespaces lex).input = w ++ [c] := hin
  obtain ⟨d, t, hr⟩ := Lexer.rest_of_pos_lt (Lexer.pos_lt_of_peek (by rw [hpeek]; decide))
  have hd : d = ';' := (Lexer.peek_of_rest hr).symm.trans hpeek
  rw [Lexer.advance_of_rest hr]
  cases ht : t with
  | nil =>
    have hlast : (skipWhitespaces lex).input.getLast? = some d := by
      rw [← List.take_append_drop (skipWhitespaces lex).pos (skipWhitespaces lex).input,
        ← Lexer.rest, hr, ht, List.getLast?_append, List.getLast?_singleton, Option.some_or]
    rw [hin', List.getLast?_append, List.getLast?_singleton, Option.some_or] at hlast
    cases hlast
    exact absurd hc (by rw [hd]; decide)
  | cons c' t' => exact Lexer.pos_lt_of_rest (ht ▸ Lexer.rest_skip_one hr)

theorem lexerNextToken_skipSpaces {w t : CStr} (hw : ∀ c ∈ w, isspace c = true) :
    ∀ {lex : Lexer}, lex.rest = w ++ t →
      lexerNextToken lex = lexerNextToken (lex.skip w.length) := by
  induction w with
  | nil => intro lex _; rfl
  | cons c w ih =>
    intro lex hr
    rw [lexerNextToken_space hr (hw c List.mem_cons_self),
      ih (fun d hd ↦ hw d (List.mem_cons_of_mem c hd)) (Lexer.rest_skip_one hr), Lexer.skip_skip,
      List.length_cons, Nat.add_comm 1]

/-- In front of the end of a C string there is only white space. -/
theorem isspace_of_lexerNextToken_eof (hnul : NulFree lex.input)
    (h : lexerNextToken lex = some (tok, lex')) (htok : tok.type = tokEof) :
    ∀ c ∈ lex.rest, isspace c = true := by
  have hpeek : (skipWhitespaces lex).peek = '\x00' := by
    rcases switchToken_cases h with heof | hop | hword
    · exact heof.2.1
    · exact absurd htok hop.1
    · exact absurd htok hword.1
  have hrest : (skipWhitespaces lex).rest = [] := by
    cases hr : (skipWhitespaces lex).rest with
    | nil => rfl
    | cons c t =>
      have hc : c ∈ lex.input := by
        have hmem : c ∈ (skipWhitespaces lex).rest := hr ▸ List.mem_cons_self
        exact List.mem_of_mem_drop hmem
      rw [Lexer.peek_of_rest hr] at hpeek
      exact absurd (hpeek ▸ hc) hnul
  rw [skipWhitespaces, Lexer.rest_advanceWhile] at hrest
  exact List.dropWhile_eq_nil_iff.mp hrest

/-- What a lexer gives does not depend on the text before its input. -/
theorem delivers_embed {pre : CStr} (hpre : pre.getLast? ≠ some '~') (toks : List Token) :
    ∀ {lex : Lexer}, Delivers lex toks → Delivers (lex.embed pre []) toks := by
  induction toks with
  | nil => exact fun _ ↦ trivial
  | cons tok toks ih =>
    rintro lex ⟨lex', hnext, hrest⟩
    exact ⟨_, lexerNextToken_embed hpre hnext (.inr rfl), ih hrest⟩

/-- The tokens up to a `;` that nothing but white space follows, and then those of the text put
behind it. -/
theorem delivers_append {w post : CStr} {c : Char} (hc : isspace c = true)
    (hnul : NulFree (w ++ [c])) {rest : List Token}
    (hrest : Delivers (⟨w ++ [c] ++ post, (w ++ [c]).length⟩ : Lexer) rest) (toks : List Token)
    (hne : ∀ tok ∈ toks, tok.type ≠ tokEof) :
    ∀ {lex : Lexer}, lex.input = w ++ [c] →
      Delivers lex (toks ++ [.operator tokSemi, .operator tokEof]) →
        Delivers (lex.embed [] post) (toks ++ .operator tokSemi :: rest) := by
  induction toks with
  | nil =>
    rintro lex hin ⟨lex₁, hsemi, lex₂, heof, -⟩
    have hin₁ : lex₁.input = w ++ [c] := (lexerNextToken_moves hsemi (by decide)).1.trans hin
    have hlt := pos_lt_of_lexerNextToken_semi hin hc hsemi rfl
    refine ⟨_, lexerNextToken_embed (by decide) hsemi (.inl hlt), ?_⟩
    cases rest with
    | nil => trivial
    | cons tok rest =>
      obtain ⟨lex₃, hnext, hrest⟩ := hrest
      refine ⟨lex₃, ?_, hrest⟩
      -- between the `;` and the text behind it there is only white space
      have hspace := isspace_of_lexerNextToken_eof (hin₁ ▸ hnul) heof rfl
      have hr : (lex₁.embed [] post).rest = lex₁.rest ++ post := Lexer.rest_embed (.inl hlt)
      have hend : (lex₁.embed [] post).skip lex₁.rest.length
          = ⟨w ++ [c] ++ post, (w ++ [c]).length⟩ := by
        have hlen : lex₁.rest.length = lex₁.length - lex₁.pos := List.length_drop
        have hpos : ([] : CStr).length + lex₁.pos + (lex₁.length - lex₁.pos) = lex₁.length := by
          rw [List.length_nil, Nat.zero_add, Nat.add_sub_cancel' hlt.le]
        rw [Lexer.embed, Lexer.skip, hlen, hpos, Lexer.length, hin₁]
        rfl
      have hskip := lexerNextToken_skipSpaces hspace hr
      rw [hend] at hskip
      exact hskip.trans hnext
  | cons tok toks ih =>
    rintro lex hin ⟨lex₁, hnext, hdelivers⟩
    have hin₁ : lex₁.input = w ++ [c] :=
      (lexerNextToken_moves hnext (hne tok List.mem_cons_self)).1.trans hin
    -- another token comes, so this one does not end the line
    have hlt : lex₁.pos < lex₁.length := by
      cases toks with
      | nil =>
        obtain ⟨_, hsemi, -⟩ := hdelivers
        exact (lexerNextToken_moves hsemi (by decide)).2.2
      | cons tok' toks =>
        obtain ⟨_, hnext', -⟩ := hdelivers
        have hne' := hne tok' (List.mem_cons_of_mem _ List.mem_cons_self)
        exact (lexerNextToken_moves hnext' hne').2.2
    exact ⟨_, lexerNextToken_embed (by decide) hnext (.inl hlt),
      ih (fun t ht ↦ hne t (List.mem_cons_of_mem _ ht)) hin₁ hdelivers⟩

/-- The lexer reads from `a ; b` the tokens of `a`, the `;` and the tokens of `b`. -/
theorem delivers_joinLines {a b : CStr} {toks : List Token} (hnul : NulFree a)
    (hclosed : ClosedAtEnd a) (hne : ∀ tok ∈ TokenSource.tokens (Lexer.init a), tok.type ≠ tokEof)
    (hb : Delivers (Lexer.init b) toks) :
    Delivers (Lexer.init (joinLines a b))
      (TokenSource.tokens (Lexer.init a) ++ .operator tokSemi :: toks) := by
  have hw : a ++ " ; ".toList = a ++ [' ', ';'] ++ [' '] := by
    rw [List.append_assoc]
    rfl
  have hnul' : NulFree (a ++ [' ', ';'] ++ [' ']) := by
    rw [← hw, nulFree_append]
    exact ⟨hnul, by decide⟩
  have hlast : (a ++ [' ', ';'] ++ [' ']).getLast? ≠ some '~' := by
    rw [List.getLast?_append, List.getLast?_singleton, Option.some_or]
    decide
  have hrest : Delivers (⟨a ++ [' ', ';'] ++ [' '] ++ b, (a ++ [' ', ';'] ++ [' ']).length⟩ : Lexer)
      toks := by
    have hembed := delivers_embed hlast toks hb
    rwa [Lexer.embed, List.append_nil] at hembed
  have hin : (Lexer.init (a ++ " ; ".toList)).input = a ++ [' ', ';'] ++ [' '] := hw
  exact delivers_append (by decide) hnul' hrest _ hne hin hclosed

end

/-! ## Its tree -/

/-- The line is parsed to its end, and this is its tree. -/
def ParsesTo (heap : ℕ → Bool) (line : CStr) (node : Ast) : Prop :=
  ∃ p, parserCreateAst (⟨Lexer.init line, .operator tokEof, heap⟩ : ParserState Lexer)
    = .ok (node, p) ∧ p.gTok.type = tokEof

/-- The tree of a line is its elements, or `NULL` when there is none. -/
theorem ParsesTo.eq_or {heap : ℕ → Bool} {line : CStr} {node : Ast} (hheap : ∀ n, heap n = false)
    (h : ParsesTo heap line node) : node = .null ∨ node = .sequence node.elements false := by
  obtain ⟨p, hparse, heof⟩ := h
  obtain ⟨p₁, hfrom, -⟩ := parsedFrom_of_parserCreateAst hheap hparse heof
  by_cases hnil : TokenSource.tokens (Lexer.init line) = []
  · exact .inl (hfrom.none hnil)
  · exact .inr (hfrom.some hnil).2

def ParsesCompletely (heap : ℕ → Bool) (line : CStr) : Prop := ∃ node, ParsesTo heap line node

instance (heap : ℕ → Bool) (line : CStr) : Decidable (ParsesCompletely heap line) :=
  decidable_of_iff ((parserCreateAst (⟨Lexer.init line, .operator tokEof, heap⟩ :
      ParserState Lexer)).toOption.map (fun r ↦ r.2.gTok.type) = some tokEof) <| by
    constructor
    · intro h
      obtain ⟨⟨node, p⟩, hparse, heof⟩ := exists_of_map_eq h
      exact ⟨node, p, hparse, heof⟩
    · rintro ⟨node, p, hparse, heof⟩
      rw [hparse]
      exact congrArg some heof

theorem parsesTo_joinLines {heap : ℕ → Bool} {a b : CStr} {node₁ node₂ : Ast}
    (hheap : ∀ n, heap n = false) (ha : ParsesTo heap a node₁) (hb : ParsesTo heap b node₂)
    (hne : TokenSource.tokens (Lexer.init a) ≠ []) (hnul : NulFree a) (hclosed : ClosedAtEnd a) :
    ∃ node, ParsesTo heap (joinLines a b) node ∧
      SameNode node (.sequence (node₁.elements ++ node₂.elements) false) := by
  obtain ⟨p₁, h₁, heof₁⟩ := ha
  obtain ⟨p₂, h₂, heof₂⟩ := hb
  obtain ⟨toks₁, htoks₁, hdelivers₁⟩ := parserCreateAst_delivers h₁ heof₁
  obtain ⟨toks₂, htoks₂, hdelivers₂⟩ := parserCreateAst_delivers h₂ heof₂
  have htokens₁ := tokens_of_delivers heof₁ toks₁ htoks₁ hdelivers₁
  rw [← tokens_of_delivers heof₂ toks₂ htoks₂ hdelivers₂] at hdelivers₂
  have hjoined := delivers_joinLines hnul hclosed (by rwa [htokens₁]) hdelivers₂
  obtain ⟨node, p, hparse, heof, hsame⟩ :=
    parserCreateAst_join (g := .operator tokEof) hheap hheap hheap h₁ heof₁ h₂ heof₂ hne heof₂
      hjoined
  exact ⟨node, ⟨p, hparse, heof⟩, hsame⟩

end Novash
