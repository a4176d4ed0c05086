import Novash.Expander.Argv
import Novash.Lexer.PartCalls

/-!
# Printing words

A text for every word: each part is written so that the lexer reads it back, and between two parts
stands `''`, which is no part itself and keeps them apart. `Printable` are the parts that have a
text; `wordLoop_wordText` says that the lexer reads a printed word back part by part.

A wildcard `[` has a text only with its `]`, and single quotes cannot hold their own character, nor
start with the other one.
-/

namespace Novash

open Foundations TokenType WordPartType QuoteContext

/-! ## The text of a word -/

/-- A byte inside double quotes. -/
def doubleQuoteByte (c : Char) : CStr := if c ∈ ['\'', '"', '$', '\\'] then ['\\', c] else [c]

/-- The text of a part inside its quotes. -/
def valueText (part : WordPart) : CStr :=
  match part.type with
  | wordLiteral =>
    match part.quote with
    | quoteNone => quoteArg part.value
    | quoteSingle => part.value
    | quoteDouble => part.value.flatMap doubleQuoteByte
  | wordVariable => '$' :: '{' :: (part.value ++ ['}'])
  | wordTilde => part.value
  | wordGlob => part.value

/-- The quotes around a text. -/
def inQuotes (text : CStr) : QuoteContext → CStr
  | quoteNone => text
  | quoteSingle => '\'' :: (text ++ ['\''])
  | quoteDouble => '"' :: (text ++ ['"'])

def partText (part : WordPart) : CStr := inQuotes (valueText part) part.quote

/-- The parts after the first, each behind `''`. -/
def partsText (w : Word) : CStr := w.flatMap fun part ↦ '\'' :: '\'' :: partText part

def wordText : Word → CStr
  | [] => ['\'', '\'']
  | part :: w => partText part ++ partsText w

/-- The parts that can be written. -/
def WordPart.Printable (part : WordPart) : Prop :=
  match part.type with
  | wordLiteral =>
    part.value ≠ [] ∧ NulFree part.value ∧
      (part.quote = quoteSingle → '\'' ∉ part.value ∧ part.value.head? ≠ some '"')
  | wordVariable =>
    part.quote ≠ quoteSingle ∧ part.value ≠ [] ∧
      ((∀ c ∈ part.value, isNameChar c = true) ∨
        ∃ c, part.value = [c] ∧ isSpecialParameterChar c = true)
  | wordTilde =>
    part.quote = quoteNone ∧ ∃ user, part.value = '~' :: user ∧ ∀ c ∈ user, isUserChar c = true
  | wordGlob =>
    part.quote = quoteNone ∧ (part.value = ['*'] ∨ part.value = ['?'] ∨
      ∃ text, part.value = '[' :: (text ++ [']']) ∧ '\x00' ∉ text ∧ ']' ∉ text)

/-! ## Reading a part back -/

section

variable {quoteCtx : QuoteContext} {lex : Lexer} {part : WordPart} {w : Word} {s t : CStr}

/-- What may come after the text of a part: its closing quote or, outside quotes, a quote character
or the end of the word. -/
def StopsPart (quoteCtx : QuoteContext) : CStr → Prop
  | [] => quoteCtx = quoteNone
  | c :: _ =>
    match quoteCtx with
    | quoteNone => c = '\'' ∨ c = '"' ∨ isspace c = true ∨ isMetaChar c = true
    | quoteSingle => c = '\''
    | quoteDouble => c = '"'

theorem endsLiteral_of_stopsPart {c : Char} (h : StopsPart quoteCtx (c :: t)) :
    endsLiteral quoteCtx c = true := by
  cases quoteCtx with
  | quoteNone =>
    obtain rfl | rfl | hspace | hmeta := h
    · rfl
    · rfl
    · simp [endsLiteral, isWordChar, hspace]
    · simp [endsLiteral, isWordChar, hmeta]
  | quoteSingle => exact decide_eq_true h
  | quoteDouble => simp [endsLiteral, show c = '"' from h]

/-- There the literal ends. -/
theorem literalLoop_of_stopsPart {buf : LiteralBuf} (hr : lex.rest = t)
    (ht : StopsPart quoteCtx t) : literalLoop quoteCtx buf lex = (buf, lex) := by
  cases t with
  | nil => exact literalLoop_nil hr
  | cons c t => exact literalLoop_end hr (endsLiteral_of_stopsPart ht)

/-- A literal that is written byte by byte is stored byte by byte. -/
theorem literalLoop_flatMap {text : Char → CStr}
    (htext : ∀ c ∈ s, ∀ {buf : LiteralBuf} {lex : Lexer} {t : CStr}, lex.rest = text c ++ t →
      literalLoop quoteCtx buf lex = literalLoop quoteCtx (buf.push c) (lex.skip (text c).length)) :
    ∀ {buf : LiteralBuf} {lex : Lexer}, lex.rest = s.flatMap text ++ t →
      literalLoop quoteCtx buf lex
        = literalLoop quoteCtx (s.foldl LiteralBuf.push buf)
            (lex.skip (s.flatMap text).length) := by
  induction s with
  | nil => intro buf lex _; rfl
  | cons c s ih =>
    intro buf lex hr
    rw [List.flatMap_cons, List.append_assoc] at hr
    rw [htext c List.mem_cons_self hr, ih (fun d hd ↦ htext d (List.mem_cons_of_mem c hd))
      (Lexer.rest_skip_of_append hr), Lexer.skip_skip, List.foldl_cons, List.flatMap_cons,
      List.length_append]

theorem literalLoop_doubleQuoteByte {c : Char} (hnul : c ≠ '\x00') {buf : LiteralBuf} {lex : Lexer}
    {t : CStr} (hr : lex.rest = doubleQuoteByte c ++ t) :
    literalLoop quoteDouble buf lex
      = literalLoop quoteDouble (buf.push c) (lex.skip (doubleQuoteByte c).length) := by
  unfold doubleQuoteByte at hr ⊢
  split_ifs at hr ⊢ with hc
  · have hunescape : unescape c = c := by
      rcases List.mem_cons.mp hc with rfl | hc
      · rfl
      · fin_cases hc <;> rfl
    rw [literalLoop_escape hr (by decide), hunescape]
    rfl
  · simp only [List.mem_cons, List.not_mem_nil, or_false, not_or] at hc
    exact literalLoop_plain hr ⟨hnul, by simp [endsLiteral, hc], fun h ↦ absurd h hc.2.2.2⟩

/-- The literal parts. -/
theorem lexNextWordPart_literalText (htype : part.type = wordLiteral) (h : part.Printable)
    (hr : lex.rest = valueText part ++ t) (ht : StopsPart part.quote t) :
    lexNextWordPart lex part.quote
      = some (some part, part.quote, lex.skip (valueText part).length) := by
  obtain ⟨type, quote, value⟩ := part
  obtain rfl : type = wordLiteral := htype
  obtain ⟨hne, hnul, hsingle⟩ := h
  have hend := Lexer.rest_skip_of_append hr
  cases quote with
  | quoteNone =>
    obtain ⟨c, u, hhead, -, -, -, hstart⟩ := quoteArg_head hne hnul
    have hr' : lex.rest = c :: (u ++ t) := by rw [hr, valueText, hhead, List.cons_append]
    refine lexNextWordPart_literal hr' hstart hnul ?_
    exact (literalLoop_quoteArg hnul hr).trans (literalLoop_of_stopsPart hend ht)
  | quoteSingle =>
    obtain ⟨hquote, hhead⟩ := hsingle rfl
    obtain ⟨c, value, rfl⟩ := List.exists_cons_of_ne_nil hne
    have hplain : ∀ d ∈ c :: value, PlainIn quoteSingle d := fun d hd ↦
      ⟨fun hd0 ↦ hnul (hd0 ▸ hd), decide_eq_false fun hdq ↦ hquote (hdq ▸ hd), fun _ ↦ rfl⟩
    have hstart : StartsLiteral quoteSingle c :=
      ⟨fun hc ↦ hquote (hc ▸ List.mem_cons_self), fun hc ↦ hhead (congrArg some hc), fun _ ↦ rfl,
        fun _ ↦ by decide, fun _ ↦ by decide⟩
    refine lexNextWordPart_literal hr hstart hnul ?_
    exact (literalLoop_plain_append hplain hr).trans (literalLoop_of_stopsPart hend ht)
  | quoteDouble =>
    obtain ⟨c, value, rfl⟩ := List.exists_cons_of_ne_nil hne
    -- the first byte is not a quote character: those are escaped
    obtain ⟨b, u, hhead, hstart⟩ :
        ∃ b u, doubleQuoteByte c = b :: u ∧ StartsLiteral quoteDouble b := by
      unfold doubleQuoteByte
      split_ifs with hc
      · exact ⟨'\\', [c], rfl, by decide, by decide, fun h ↦ absurd h (by decide),
          fun _ ↦ by decide, fun _ ↦ by decide⟩
      · simp only [List.mem_cons, List.not_mem_nil, or_false, not_or] at hc
        exact ⟨c, [], rfl, hc.1, hc.2.1, fun h ↦ absurd h hc.2.2.1, fun _ ↦ by decide,
          fun _ ↦ by decide⟩
    have hr' : lex.rest = b :: (u ++ value.flatMap doubleQuoteByte ++ t) := by
      rw [hr, valueText, List.flatMap_cons, hhead]
      rfl
    refine lexNextWordPart_literal hr' hstart hnul ?_
    have hbytes : ∀ d ∈ c :: value, ∀ {buf : LiteralBuf} {lex : Lexer} {t : CStr},
        lex.rest = doubleQuoteByte d ++ t →
          literalLoop quoteDouble buf lex
            = literalLoop quoteDouble (buf.push d) (lex.skip (doubleQuoteByte d).length) :=
      fun d hd ↦ literalLoop_doubleQuoteByte fun hd0 ↦ hnul (hd0 ▸ hd)
    exact (literalLoop_flatMap hbytes hr).trans (literalLoop_of_stopsPart hend ht)

/-- `${name}`. -/
theorem handleVariableWordPart_name {name : CStr} (hne : name ≠ [])
    (hname : (∀ c ∈ name, isNameChar c = true) ∨
      ∃ c, name = [c] ∧ isSpecialParameterChar c = true)
    (hr : lex.rest = '$' :: '{' :: (name ++ '}' :: t)) :
    handleVariableWordPart lex = some (some name, lex.skip (name.length + 3)) := by
  have hr₁ : (lex.skip 1).rest = '{' :: (name ++ '}' :: t) := Lexer.rest_skip_one hr
  have hr₂ : (lex.skip 2).rest = name ++ '}' :: t := by
    rw [← Lexer.rest_skip_one hr₁, Lexer.skip_skip]
  have hr₃ : ((lex.skip 2).skip name.length).rest = '}' :: t := Lexer.rest_skip_of_append hr₂
  have hclose : closeCurly true (lex.skip (2 + name.length)) = lex.skip (name.length + 3) := by
    rw [Lexer.skip_skip] at hr₃
    rw [closeCurly, Lexer.peek_of_rest hr₃, Lexer.advance_of_rest hr₃, Lexer.skip_skip]
    exact congrArg lex.skip (by omega)
  have hcut (n : ℕ) : (lex.skip n).xstrdupN (lex.pos + 1 + 1) name.length = name := by
    have hdrop : lex.input.drop (lex.pos + 2) = name ++ '}' :: t := hr₂
    rw [Lexer.xstrdupN, Lexer.input_skip, hdrop, List.take_left]
  rw [handleVariableWordPart, Lexer.advance_of_rest hr]
  simp only [Lexer.peek_of_rest hr₁, Lexer.advance_of_rest hr₁, Lexer.skip_skip, Lexer.pos_skip,
    BEq.rfl, if_true, Bool.toNat_true]
  obtain hname | ⟨c, rfl, hc⟩ := hname
  · obtain ⟨c, u, rfl⟩ := List.exists_cons_of_ne_nil hne
    have hspecial : isSpecialParameterChar (lex.skip (1 + 1)).peek = false := by
      rw [Lexer.peek_of_rest hr₂]
      by_contra hspecial
      simp only [isSpecialParameterChar, Bool.not_eq_false, Bool.or_eq_true, beq_iff_eq] at hspecial
      have hnamec := hname c List.mem_cons_self
      rcases hspecial with ((rfl | rfl) | rfl) | rfl <;> exact absurd hnamec (by decide)
    have hwhile : (lex.skip (1 + 1)).advanceWhile isNameChar = lex.skip (2 + (c :: u).length) := by
      rw [Lexer.advanceWhile, hr₂, List.takeWhile_append_of_pos hname,
        List.takeWhile_cons_of_neg (by decide), List.append_nil, Lexer.skip_skip]
    rw [if_neg (by rw [hspecial]; decide), hwhile, hclose, Lexer.pos_skip]
    have hlen : lex.pos + ((c :: u).length + 3) - (lex.pos + 1) - 2 * 1 = (c :: u).length := by
      omega
    rw [hlen, if_neg (by rw [List.length_cons]; omega), if_neg (by simp), hcut]
  · have hspecial : isSpecialParameterChar (lex.skip (1 + 1)).peek = true := by
      rw [Lexer.peek_of_rest hr₂]
      exact hc
    rw [if_pos hspecial, Lexer.advance_of_rest hr₂, Lexer.skip_skip]
    change some (some (Lexer.xstrdupN (closeCurly true (lex.skip (2 + [c].length))) _ [c].length),
      closeCurly true (lex.skip (2 + [c].length))) = _
    rw [hclose, hcut]

theorem lexNextWordPart_variableText (htype : part.type = wordVariable) (h : part.Printable)
    (hr : lex.rest = valueText part ++ t) :
    lexNextWordPart lex part.quote
      = some (some part, part.quote, lex.skip (valueText part).length) := by
  obtain ⟨type, quote, name⟩ := part
  obtain rfl : type = wordVariable := htype
  obtain ⟨hquote, hne, hname⟩ := h
  have hr' : lex.rest = '$' :: '{' :: (name ++ '}' :: t) := by rw [hr, valueText]; simp
  have hctx : quote = quoteNone ∨ quote = quoteDouble := by
    cases quote <;> first | exact .inl rfl | exact .inr rfl | exact absurd rfl hquote
  have hlength : (valueText ⟨wordVariable, quote, name⟩).length = name.length + 3 := by
    simp [valueText]
  rw [lexNextWordPart, Lexer.peek_of_rest hr', if_neg (by decide), if_pos ⟨rfl, hctx⟩,
    handleVariableWordPart_name hne hname hr', hlength]
  obtain ⟨c, name, rfl⟩ := List.exists_cons_of_ne_nil hne
  rfl

/-- No byte at which a part stops goes on with a user name. -/
theorem isUserChar_eq_false_of_stops {c : Char}
    (h : c = '\'' ∨ c = '"' ∨ isspace c = true ∨ isMetaChar c = true) : isUserChar c = false := by
  simp only [isspace, isMetaChar, Bool.or_eq_true, beq_iff_eq] at h
  rcases h with rfl | rfl | (((((rfl | rfl) | rfl) | rfl) | rfl) | rfl) |
    ((((rfl | rfl) | rfl) | rfl) | rfl) <;> rfl

theorem handleTildeWordPart_fst (hr : lex.rest = '~' :: t) :
    (handleTildeWordPart lex).1 = '~' :: t.takeWhile isUserChar := by
  rw [← (handleTildeWordPart_passes hr).xstrdupN_eq]
  simp [handleTildeWordPart, Lexer.xstrdupN]

theorem lexNextWordPart_tildeText (htype : part.type = wordTilde) (h : part.Printable)
    (hr : lex.rest = valueText part ++ t) (ht : StopsPart part.quote t)
    (hprev : lex.peekPrev ≠ '~') :
    lexNextWordPart lex part.quote
      = some (some part, part.quote, lex.skip (valueText part).length) := by
  obtain ⟨type, quote, value⟩ := part
  obtain rfl : type = wordTilde := htype
  obtain ⟨rfl, user, rfl, huser⟩ := h
  have hr' : lex.rest = '~' :: (user ++ t) := hr
  have hstop : t.takeWhile isUserChar = [] := by
    cases t with
    | nil => rfl
    | cons c t =>
      exact List.takeWhile_cons_of_neg (by rw [isUserChar_eq_false_of_stops ht]; decide)
  have htake : (user ++ t).takeWhile isUserChar = user := by
    rw [List.takeWhile_append_of_pos huser, hstop, List.append_nil]
  have hpasses := handleTildeWordPart_passes hr'
  rw [htake] at hpasses
  have hvalue : (handleTildeWordPart lex).1 = '~' :: user := by
    rw [handleTildeWordPart_fst hr', htake]
  rw [lexNextWordPart, Lexer.peek_of_rest hr', if_neg (by decide),
    if_neg (fun h ↦ absurd h.1 (by decide)), if_pos ⟨rfl, rfl, hprev⟩]
  dsimp only
  rw [hvalue, hpasses.eq_skip]
  rfl

theorem lexNextWordPart_globText (htype : part.type = wordGlob) (h : part.Printable)
    (hr : lex.rest = valueText part ++ t) :
    lexNextWordPart lex part.quote
      = some (some part, part.quote, lex.skip (valueText part).length) := by
  obtain ⟨type, quote, value⟩ := part
  obtain rfl : type = wordGlob := htype
  obtain ⟨rfl, hvalue⟩ := h
  have hone {c : Char} (hc : c = '*' ∨ c = '?') (hr : lex.rest = c :: t) :
      lexNextWordPart lex quoteNone
        = some (some ⟨wordGlob, quoteNone, [c]⟩, quoteNone, lex.skip 1) := by
    rw [lexNextWordPart, Lexer.peek_of_rest hr]
    rcases hc with rfl | rfl <;>
      simp [isGlobChar, handleGlobWordPart, Lexer.peek_of_rest hr, Lexer.advance_of_rest hr]
  obtain rfl | rfl | ⟨text, rfl, hnul, hbracket⟩ := hvalue
  · exact hone (.inl rfl) hr
  · exact hone (.inr rfl) hr
  · have hr' : lex.rest = ('[' :: text) ++ ']' :: t := by rw [hr, valueText]; simp
    have hplain : ∀ c ∈ '[' :: text, (c != '\x00' && c != ']') = true := by
      intro c hc
      obtain rfl | hc := List.mem_cons.mp hc
      · rfl
      · simp only [Bool.and_eq_true, bne_iff_ne]
        exact ⟨fun h ↦ hnul (h ▸ hc), fun h ↦ hbracket (h ▸ hc)⟩
    have hwhile : lex.advanceWhile (fun c ↦ c != '\x00' && c != ']')
        = lex.skip ('[' :: text).length := by
      rw [Lexer.advanceWhile, hr', List.takeWhile_append_of_pos hplain,
        List.takeWhile_cons_of_neg (by decide), List.append_nil]
    have hpasses : lex.Passes ('[' :: (text ++ [']'])) (lex.skip (text.length + 2)) := by
      have hall := Lexer.Passes.of_append (w := '[' :: (text ++ [']'])) (t := t) hr
      simpa using hall
    have hglob : handleGlobWordPart lex
        = ('[' :: (text ++ [']']), lex.skip (text.length + 2)) := by
      have hrest := Lexer.rest_skip_of_append hr'
      have hpeek : lex.peek = '[' := Lexer.peek_of_rest hr'
      rw [handleGlobWordPart, hpeek, if_neg (by decide), hwhile, Lexer.advance_of_rest hrest,
        Lexer.skip_skip, List.length_cons]
      exact congrArg (·, _) hpasses.xstrdupN_eq
    have hpeek : lex.peek = '[' := Lexer.peek_of_rest hr'
    rw [lexNextWordPart, hpeek, if_neg (by decide), if_neg (fun h ↦ absurd h.1 (by decide)),
      if_neg (fun h ↦ absurd h.1 (by decide)), if_pos ⟨rfl, rfl⟩, hglob]
    simp [valueText]

/-- **Reading a part.** At the text of a part `lex_next_word_part` returns the part, and consumes
the text. -/
theorem lexNextWordPart_valueText (h : part.Printable) (hr : lex.rest = valueText part ++ t)
    (ht : StopsPart part.quote t) (hprev : lex.peekPrev ≠ '~') :
    lexNextWordPart lex part.quote
      = some (some part, part.quote, lex.skip (valueText part).length) := by
  cases htype : part.type with
  | wordLiteral => exact lexNextWordPart_literalText htype h hr ht
  | wordVariable => exact lexNextWordPart_variableText htype h hr
  | wordTilde => exact lexNextWordPart_tildeText htype h hr ht hprev
  | wordGlob => exact lexNextWordPart_globText htype h hr

/-! ## Reading a word back -/

theorem WordPart.Printable.value_ne_nil (h : part.Printable) : part.value ≠ [] := by
  obtain ⟨type, quote, value⟩ := part
  cases type with
  | wordLiteral => exact h.1
  | wordVariable => exact h.2.1
  | wordTilde =>
    obtain ⟨-, user, rfl, -⟩ := h
    exact List.cons_ne_nil _ _
  | wordGlob =>
    obtain ⟨-, rfl | rfl | ⟨text, rfl, -⟩⟩ := h <;> exact List.cons_ne_nil _ _

/-- The text of a part starts with a byte that does not end the word. -/
theorem valueText_head (h : part.Printable) :
    ∃ c u, valueText part = c :: u ∧ c ≠ '\x00' ∧ endsWord part.quote c = false := by
  obtain ⟨type, quote, value⟩ := part
  cases type with
  | wordLiteral =>
    obtain ⟨hne, hnul, -⟩ := h
    cases quote with
    | quoteNone =>
      obtain ⟨c, u, hhead, hc, hspace, hmeta, -⟩ := quoteArg_head hne hnul
      exact ⟨c, u, hhead, hc, by simp [endsWord, hspace, hmeta]⟩
    | quoteSingle =>
      obtain ⟨c, value, rfl⟩ := List.exists_cons_of_ne_nil hne
      exact ⟨c, value, rfl, fun hc ↦ hnul (hc ▸ List.mem_cons_self), rfl⟩
    | quoteDouble =>
      obtain ⟨c, value, rfl⟩ := List.exists_cons_of_ne_nil hne
      have hc : c ≠ '\x00' := fun hc ↦ hnul (hc ▸ List.mem_cons_self)
      simp only [valueText, List.flatMap_cons, doubleQuoteByte]
      split_ifs
      · exact ⟨'\\', _, rfl, by decide, rfl⟩
      · exact ⟨c, _, rfl, hc, rfl⟩
  | wordVariable => exact ⟨'$', _, rfl, by decide, by cases quote <;> rfl⟩
  | wordTilde =>
    obtain ⟨rfl, user, rfl, -⟩ := h
    exact ⟨'~', _, rfl, by decide, rfl⟩
  | wordGlob =>
    obtain ⟨rfl, rfl | rfl | ⟨text, rfl, -⟩⟩ := h
    · exact ⟨'*', _, rfl, by decide, rfl⟩
    · exact ⟨'?', _, rfl, by decide, rfl⟩
    · exact ⟨'[', _, rfl, by decide, rfl⟩

/-- One turn of the loop over the parts, at the text of a part without its quotes. -/
theorem wordLoop_valueText {parts : Word} (h : part.Printable)
    (hr : lex.rest = valueText part ++ t) (ht : StopsPart part.quote t)
    (hprev : lex.peekPrev ≠ '~') :
    wordLoop parts part.quote lex
      = wordLoop (parts ++ [part]) part.quote (lex.skip (valueText part).length) := by
  obtain ⟨c, u, hhead, hnul, hend⟩ := valueText_head h
  have hr' : lex.rest = c :: (u ++ t) := by rw [hr, hhead, List.cons_append]
  rw [wordLoop_part hr' hnul hend (lexNextWordPart_valueText h hr ht hprev), putPart,
    if_pos (List.length_pos_of_ne_nil h.value_ne_nil)]

/-- A quote character opens or closes quotes. -/
theorem wordLoop_quoteChar {parts : Word} {c : Char} (hr : lex.rest = c :: t)
    (hc : c = '\'' ∨ c = '"') :
    wordLoop parts quoteCtx lex = wordLoop parts (toggleQuote c quoteCtx) (lex.skip 1) := by
  have hend : endsWord quoteCtx c = false := by
    rcases hc with rfl | rfl <;> cases quoteCtx <;> rfl
  have hnul : c ≠ '\x00' := by rcases hc with rfl | rfl <;> decide
  rw [wordLoop_part hr hnul hend (lexNextWordPart_quote hr hc), putPart]

theorem peekPrev_skip {u : CStr} (hr : lex.rest = u ++ t) (hu : u ≠ []) :
    (lex.skip u.length).peekPrev = u.getLast hu :=
  (Lexer.Passes.of_append hr).peekPrev_eq_getLast hu

theorem peekPrev_skip_one {c : Char} (hr : lex.rest = c :: t) : (lex.skip 1).peekPrev = c :=
  peekPrev_skip (u := [c]) hr (List.cons_ne_nil _ _)

/-- One part, with its quotes. -/
theorem wordLoop_partText {parts : Word} (h : part.Printable)
    (hr : lex.rest = partText part ++ t) (ht : StopsPart quoteNone t)
    (hprev : lex.peekPrev ≠ '~') :
    wordLoop parts quoteNone lex
      = wordLoop (parts ++ [part]) quoteNone (lex.skip (partText part).length) := by
  -- the part between two quote characters
  have hquotes {q : Char} (hq : q = '\'' ∨ q = '"') (hpart : StopsPart part.quote (q :: t))
      (hopen : toggleQuote q quoteNone = part.quote) (hclose : toggleQuote q part.quote = quoteNone)
      (htext : partText part = q :: (valueText part ++ [q])) :
      wordLoop parts quoteNone lex
        = wordLoop (parts ++ [part]) quoteNone (lex.skip (partText part).length) := by
    have hr' : lex.rest = q :: (valueText part ++ q :: t) := by rw [hr, htext]; simp
    have hr₁ : (lex.skip 1).rest = valueText part ++ q :: t := Lexer.rest_skip_one hr'
    have hprev₁ : (lex.skip 1).peekPrev ≠ '~' := by
      rw [peekPrev_skip_one hr']
      rcases hq with rfl | rfl <;> decide
    rw [wordLoop_quoteChar hr' hq, hopen, wordLoop_valueText h hr₁ hpart hprev₁,
      wordLoop_quoteChar (Lexer.rest_skip_of_append hr₁) hq, hclose, Lexer.skip_skip,
      Lexer.skip_skip, htext]
    have hlength : 1 + ((valueText part).length + 1) = (q :: (valueText part ++ [q])).length := by
      simp
      omega
    rw [hlength]
  cases hquote : part.quote with
  | quoteNone =>
    have htext : partText part = valueText part := by rw [partText, hquote]; rfl
    rw [htext] at hr ⊢
    have hloop : wordLoop parts part.quote lex = _ :=
      wordLoop_valueText h hr (hquote ▸ ht) hprev
    rwa [hquote] at hloop
  | quoteSingle =>
    exact hquotes (.inl rfl) (by rw [hquote]; rfl) (by rw [hquote]; rfl) (by rw [hquote]; rfl)
      (by rw [partText, hquote]; rfl)
  | quoteDouble =>
    exact hquotes (.inr rfl) (by rw [hquote]; rfl) (by rw [hquote]; rfl) (by rw [hquote]; rfl)
      (by rw [partText, hquote]; rfl)

/-- What may come after a word. -/
def StopsWord (t : CStr) : Prop := ∀ c ∈ t.head?, isspace c = true ∨ isMetaChar c = true

theorem stopsPart_of_stopsWord (ht : StopsWord t) : StopsPart quoteNone t := by
  cases t with
  | nil => rfl
  | cons c t => exact .inr (.inr (ht c rfl))

theorem stopsPart_partsText (w : Word) (ht : StopsWord t) :
    StopsPart quoteNone (partsText w ++ t) := by
  cases w with
  | nil => exact stopsPart_of_stopsWord ht
  | cons part w => exact .inl rfl

theorem partsText_cons (part : WordPart) (w : Word) :
    partsText (part :: w) = '\'' :: '\'' :: (partText part ++ partsText w) := rfl

theorem wordLoop_partsText (hw : ∀ part ∈ w, part.Printable) (ht : StopsWord t) :
    ∀ {lex : Lexer} {parts : Word}, lex.rest = partsText w ++ t →
      wordLoop parts quoteNone lex
        = wordLoop (parts ++ w) quoteNone (lex.skip (partsText w).length) := by
  induction w with
  | nil =>
    intro lex parts _
    rw [List.append_nil]
    rfl
  | cons part w ih =>
    intro lex parts hr
    have hr' : lex.rest = '\'' :: '\'' :: (partText part ++ (partsText w ++ t)) := by
      rw [hr, partsText_cons]
      simp
    have hr₁ := Lexer.rest_skip_one hr'
    have hr₂ := Lexer.rest_skip_one hr₁
    have hprev : ((lex.skip 1).skip 1).peekPrev ≠ '~' := by
      rw [peekPrev_skip_one hr₁]
      decide
    rw [wordLoop_quoteChar hr' (.inl rfl), wordLoop_quoteChar hr₁ (.inl rfl)]
    change wordLoop parts quoteNone _ = _
    rw [wordLoop_partText (hw part List.mem_cons_self) hr₂ (stopsPart_partsText w ht) hprev,
      ih (fun p hp ↦ hw p (List.mem_cons_of_mem _ hp)) (Lexer.rest_skip_of_append hr₂),
      List.append_assoc, Lexer.skip_skip, Lexer.skip_skip, Lexer.skip_skip]
    have hlength : 1 + (1 + ((partText part).length + (partsText w).length))
        = (partsText (part :: w)).length := by
      rw [partsText_cons, List.length_cons, List.length_cons, List.length_append]
      omega
    rw [hlength]
    rfl

/-- **Reading a word.** At the text of a word, followed by something that ends it, the loop over the
parts collects the parts of the word and consumes the text. -/
theorem wordLoop_wordText (hw : ∀ part ∈ w, part.Printable) (hr : lex.rest = wordText w ++ t)
    (ht : StopsWord t) (hprev : lex.peekPrev ≠ '~') :
    wordLoop [] quoteNone lex = some (w, lex.skip (wordText w).length) := by
  have hstop {lex : Lexer} {parts : Word} (hr : lex.rest = t) :
      wordLoop parts quoteNone lex = some (parts, lex) := by
    cases t with
    | nil => exact wordLoop_nil hr
    | cons c t =>
      refine wordLoop_end hr ?_
      rcases ht c rfl with hc | hc <;> simp [endsWord, hc]
  cases w with
  | nil =>
    have hr₁ := Lexer.rest_skip_one hr
    rw [wordLoop_quoteChar hr (.inl rfl), wordLoop_quoteChar hr₁ (.inl rfl)]
    exact hstop (Lexer.rest_skip_one hr₁)
  | cons part w =>
    have hr' : lex.rest = partText part ++ (partsText w ++ t) := by rw [hr, wordText]; simp
    have hr₁ := Lexer.rest_skip_of_append hr'
    rw [wordLoop_partText (hw part List.mem_cons_self) hr' (stopsPart_partsText w ht) hprev,
      wordLoop_partsText (fun p hp ↦ hw p (List.mem_cons_of_mem _ hp)) ht hr₁,
      hstop (Lexer.rest_skip_of_append hr₁), Lexer.skip_skip, wordText, List.length_append]
    rfl

theorem wordText_head (hw : ∀ part ∈ w, part.Printable) :
    ∃ c u, wordText w = c :: u ∧ c ≠ '\x00' ∧ isspace c = false ∧ isMetaChar c = false := by
  cases w with
  | nil => exact ⟨'\'', _, rfl, by decide, by decide, by decide⟩
  | cons part w =>
    obtain ⟨c, u, hhead, hnul, hend⟩ := valueText_head (hw part List.mem_cons_self)
    cases hquote : part.quote with
    | quoteNone =>
      rw [hquote] at hend
      simp only [endsWord, decide_true, Bool.true_and, Bool.or_eq_false_iff] at hend
      exact ⟨c, u ++ partsText w, by rw [wordText, partText, hquote, hhead]; rfl, hnul, hend⟩
    | quoteSingle =>
      exact ⟨'\'', _, by rw [wordText, partText, hquote]; rfl, by decide, by decide, by decide⟩
    | quoteDouble =>
      exact ⟨'"', _, by rw [wordText, partText, hquote]; rfl, by decide, by decide, by decide⟩

end

end Novash
