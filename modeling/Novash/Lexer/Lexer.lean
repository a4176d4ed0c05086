import Novash.Lexer.Token

/-!
# The lexer

`lexer.c`, in the default build (`LOG_LEVEL=NONE`, so `pr_err` does nothing). A lexer is the input
line with a position in it; every function returns the lexer it leaves behind.

`handle_variable_word_part` computes the length of a name as `pos - start - 2 * has_curly` in
`size_t`. When that wraps, `xstrdup_n` copies about `2 ^ 64` bytes from the input and the shell
crashes; the functions above it therefore return `none` for a crash.

## Termination

The loops of `handle_literal` and `handle_word_token` are recursions on the number of bytes left.
For the second one this is a property of the lexer, not of the loop: it holds because every call of
`lex_next_word_part` inside the loop consumes at least one byte (`lexNextWordPart_pos_lt`).

## Reading

The proofs look at a lexer through `rest`, the bytes not yet consumed. A spec lemma says what a
function does when `rest` starts in a given way, and where it leaves the lexer in terms of `skip`.
-/

namespace Novash

open TokenType WordPartType QuoteContext

/-- `lexer_t`; its `length` field is the length of `input`. -/
structure Lexer where
  input : CStr
  pos : ℕ
  deriving DecidableEq, Repr

namespace Lexer

/-- `lexer_init`. -/
def init (input : CStr) : Lexer := { input, pos := 0 }

def length (lex : Lexer) : ℕ := lex.input.length

/-- The bytes that are not consumed yet. -/
def rest (lex : Lexer) : CStr := lex.input.drop lex.pos

/-- How many bytes are left, the measure of every loop. -/
def remaining (lex : Lexer) : ℕ := lex.length - lex.pos

/-- The lexer `n` bytes further on. -/
def skip (lex : Lexer) (n : ℕ) : Lexer := { lex with pos := lex.pos + n }

def peek (lex : Lexer) : Char := lex.input.getD lex.pos '\x00'

def peekPrev (lex : Lexer) : Char :=
  if 0 < lex.pos ∧ lex.pos ≤ lex.length then lex.input.getD (lex.pos - 1) '\x00' else '\x00'

/-- `advance` returns the byte it passes, which is what `peek` returned before. -/
def advance (lex : Lexer) : Lexer := if lex.pos < lex.length then lex.skip 1 else lex

/-- `while (p(peek(lex))) advance(lex);` for a test that the end of the input fails. -/
def advanceWhile (p : Char → Bool) (lex : Lexer) : Lexer :=
  lex.skip (lex.rest.takeWhile p).length

/-- `xstrdup_n(&lex->input[start], n)`. -/
def xstrdupN (lex : Lexer) (start n : ℕ) : CStr := (lex.input.drop start).take n

/-! ### Looking at a lexer through what is left -/

@[simp] theorem input_skip (lex : Lexer) (n : ℕ) : (lex.skip n).input = lex.input := rfl

@[simp] theorem pos_skip (lex : Lexer) (n : ℕ) : (lex.skip n).pos = lex.pos + n := rfl

@[simp] theorem skip_zero (lex : Lexer) : lex.skip 0 = lex := rfl

@[simp] theorem skip_skip (lex : Lexer) (m n : ℕ) : (lex.skip m).skip n = lex.skip (m + n) := by
  simp [skip, Nat.add_assoc]

@[simp] theorem rest_init (s : CStr) : (init s).rest = s := rfl

theorem rest_skip (lex : Lexer) (n : ℕ) : (lex.skip n).rest = lex.rest.drop n := by
  rw [rest, rest, input_skip, pos_skip, List.drop_drop]

theorem rest_skip_of_append {lex : Lexer} {w t : CStr} (h : lex.rest = w ++ t) :
    (lex.skip w.length).rest = t := by
  rw [rest_skip, h, List.drop_left]

theorem rest_skip_one {lex : Lexer} {c : Char} {t : CStr} (h : lex.rest = c :: t) :
    (lex.skip 1).rest = t := by
  rw [rest_skip, h, List.drop_one, List.tail_cons]

theorem peek_of_rest {lex : Lexer} {c : Char} {t : CStr} (h : lex.rest = c :: t) :
    lex.peek = c := by
  have hget : lex.input[lex.pos]? = some c := by rw [← List.head?_drop, ← rest, h, List.head?_cons]
  rw [peek, List.getD_eq_getElem?_getD, hget, Option.getD_some]

theorem peek_of_rest_nil {lex : Lexer} (h : lex.rest = []) : lex.peek = '\x00' := by
  have hle : lex.input.length ≤ lex.pos := List.drop_eq_nil_iff.mp h
  rw [peek, List.getD_eq_getElem?_getD, List.getElem?_eq_none hle, Option.getD_none]

theorem rest_of_pos_lt {lex : Lexer} (h : lex.pos < lex.length) :
    ∃ c t, lex.rest = c :: t := by
  cases hr : lex.rest with
  | nil => exact absurd (List.drop_eq_nil_iff.mp hr) (Nat.not_le.mpr h)
  | cons c t => exact ⟨c, t, rfl⟩

/-- A byte that is not NUL is a byte of the input. -/
theorem pos_lt_of_peek {lex : Lexer} (h : lex.peek ≠ '\x00') : lex.pos < lex.length := by
  by_contra hle
  exact h (peek_of_rest_nil (List.drop_eq_nil_iff.mpr (Nat.not_lt.mp hle)))

theorem pos_lt_of_rest {lex : Lexer} {c : Char} {t : CStr} (h : lex.rest = c :: t) :
    lex.pos < lex.length := by
  by_contra hle
  rw [rest, List.drop_eq_nil_iff.mpr (Nat.not_lt.mp hle)] at h
  exact List.cons_ne_nil c t h.symm

theorem advance_of_rest {lex : Lexer} {c : Char} {t : CStr} (h : lex.rest = c :: t) :
    lex.advance = lex.skip 1 := if_pos (pos_lt_of_rest h)

theorem advance_of_peek {lex : Lexer} (h : lex.peek ≠ '\x00') : lex.advance = lex.skip 1 :=
  if_pos (pos_lt_of_peek h)

theorem advance_of_rest_nil {lex : Lexer} (h : lex.rest = []) : lex.advance = lex :=
  if_neg (Nat.not_lt.mpr (List.drop_eq_nil_iff.mp h))

theorem pos_le_advance (lex : Lexer) : lex.pos ≤ lex.advance.pos := by
  unfold advance
  split <;> simp

@[simp] theorem input_advance (lex : Lexer) : lex.advance.input = lex.input := by
  unfold advance
  split <;> simp

@[simp] theorem input_advanceWhile (p : Char → Bool) (lex : Lexer) :
    (lex.advanceWhile p).input = lex.input := rfl

theorem pos_le_advanceWhile (p : Char → Bool) (lex : Lexer) :
    lex.pos ≤ (lex.advanceWhile p).pos := Nat.le_add_right _ _

theorem rest_advanceWhile (p : Char → Bool) (lex : Lexer) :
    (lex.advanceWhile p).rest = lex.rest.dropWhile p := by
  rw [advanceWhile, rest_skip]
  nth_rewrite 2 [← List.takeWhile_append_dropWhile (p := p) (l := lex.rest)]
  rw [List.drop_left]

/-- The byte at which such a loop stops fails the test. -/
theorem peek_advanceWhile {p : Char → Bool} (hnul : p '\x00' = false) (lex : Lexer) :
    p (lex.advanceWhile p).peek = false := by
  cases hr : (lex.advanceWhile p).rest with
  | nil => rw [peek_of_rest_nil hr, hnul]
  | cons c t =>
    rw [peek_of_rest hr]
    rw [rest_advanceWhile] at hr
    have hhead := List.head?_dropWhile_not p lex.rest
    simpa [hr] using hhead

/-- A lexer over the same input that has moved on has fewer bytes left. -/
theorem remaining_lt {lex lex' : Lexer} (hin : lex'.input = lex.input)
    (hlt : lex.pos < lex.length) (hpos : lex.pos < lex'.pos) : lex'.remaining < lex.remaining := by
  simp only [remaining, length] at *
  rw [hin]
  omega

end Lexer

/-! ## Character classes -/

def isMetaChar (c : Char) : Bool := c == '|' || c == '&' || c == ';' || c == '<' || c == '>'

def isGlobChar (c : Char) : Bool := c == '*' || c == '?' || c == '['

def isExpansionChar (c : Char) : Bool := c == '$' || c == '*' || c == '?' || isGlobChar c

def isSpecialParameterChar (c : Char) : Bool := c == '$' || c == '?' || c == '!' || c == '-'

def isWordChar (c : Char) : Bool := !isspace c && !isMetaChar c && !isExpansionChar c

def skipWhitespaces (lex : Lexer) : Lexer := lex.advanceWhile isspace

/-- The test of `lexer_next_token` on the text of a word; being followed by `<` or `>` is tested
separately. -/
def isWordFd (buf : CStr) : Bool := (strtol buf).2 = [] && 0 < buf.length

/-! ## Literals -/

/-- The byte a backslash followed by `c` stands for. -/
def unescape (c : Char) : Char :=
  if c = 'n' then '\n'
  else if c = 't' then '\t'
  else if c = 'r' then '\r'
  else if c = 'a' then '\x07'
  else if c = 'b' then '\x08'
  else if c = 'f' then '\x0c'
  else if c = 'v' then '\x0b'
  else c

/-- Returns the byte to store. After a backslash that ends the input that byte is NUL. -/
def handleEscape (lex : Lexer) : Char × Lexer :=
  let lex := lex.advance
  (unescape lex.peek, lex.advance)

/-- The growing buffer of `handle_literal`: `cap` bytes are allocated, and there is always room for
one more byte, the terminator. -/
structure LiteralBuf where
  cap : ℕ
  bytes : List Char
  fits : bytes.length < cap

namespace LiteralBuf

def empty : LiteralBuf := ⟨64, [], by decide⟩

/-- Store one byte, doubling the buffer first when only the terminator would still fit. -/
def push (buf : LiteralBuf) (c : Char) : LiteralBuf :=
  if h : buf.bytes.length + 1 ≥ buf.cap then
    ⟨buf.cap * 2, buf.bytes ++ [c], by have := buf.fits; simp; omega⟩
  else ⟨buf.cap, buf.bytes ++ [c], by simp; omega⟩

@[simp] theorem bytes_empty : empty.bytes = [] := rfl

@[simp] theorem bytes_push (buf : LiteralBuf) (c : Char) :
    (buf.push c).bytes = buf.bytes ++ [c] := by
  unfold push
  split <;> rfl

end LiteralBuf

/-- The bytes at which `handle_literal` stops in a quote context. -/
def endsLiteral (quoteCtx : QuoteContext) (c : Char) : Bool :=
  match quoteCtx with
  | quoteNone => !isWordChar c || c == '\'' || c == '"'
  | quoteSingle => c == '\''
  | quoteDouble => c == '"' || c == '$'

theorem pos_lt_handleEscape {lex : Lexer} (h : lex.peek ≠ '\x00') :
    lex.pos < (handleEscape lex).2.pos := by
  have hle := Lexer.pos_le_advance lex.advance
  rw [Lexer.advance_of_peek h] at hle
  rw [handleEscape, Lexer.advance_of_peek h]
  exact Nat.lt_of_succ_le hle

theorem input_handleEscape (lex : Lexer) : (handleEscape lex).2.input = lex.input := by
  simp [handleEscape]

def literalLoop (quoteCtx : QuoteContext) (buf : LiteralBuf) (lex : Lexer) : LiteralBuf × Lexer :=
  if _hc : lex.peek = '\x00' then (buf, lex)
  else if endsLiteral quoteCtx lex.peek then (buf, lex)
  else if lex.peek = '\\' ∧ quoteCtx ≠ quoteSingle then
    literalLoop quoteCtx (buf.push (handleEscape lex).1) (handleEscape lex).2
  else literalLoop quoteCtx (buf.push lex.peek) lex.advance
termination_by lex.remaining
decreasing_by
  · exact Lexer.remaining_lt (input_handleEscape lex) (Lexer.pos_lt_of_peek _hc)
      (pos_lt_handleEscape _hc)
  · exact Lexer.remaining_lt (Lexer.input_advance lex) (Lexer.pos_lt_of_peek _hc)
      (by rw [Lexer.advance_of_peek _hc]; exact Nat.lt_succ_self _)

/-- `NULL` when nothing was stored. The caller reads the buffer as a C string. -/
def handleLiteral (lex : Lexer) (quoteCtx : QuoteContext) : Option CStr × Lexer :=
  let (buf, lex) := literalLoop quoteCtx .empty lex
  (if 0 < buf.bytes.length then some (cstr buf.bytes) else none, lex)

/-! ## Variables, tildes and wildcards -/

def isNameChar (c : Char) : Bool := isalnum c || c == '_'

/-- `if (has_curly && peek(lex) == '}') advance(lex);` -/
def closeCurly (hasCurly : Bool) (lex : Lexer) : Lexer :=
  if hasCurly && lex.peek == '}' then lex.advance else lex

/-- The name after a `$`: `NULL` for a lone `$`, the empty string for `${}`. -/
def handleVariableWordPart (lex : Lexer) : Option (Option CStr × Lexer) :=
  let lex := lex.advance
  let start := lex.pos
  let hasCurly := lex.peek == '{'
  let lex := if hasCurly then lex.advance else lex
  if isSpecialParameterChar lex.peek then
    let lex := closeCurly hasCurly lex.advance
    some (some (lex.xstrdupN (start + hasCurly.toNat) 1), lex)
  else
    let lex := closeCurly hasCurly (lex.advanceWhile isNameChar)
    -- the `size_t` subtraction wraps: a `{` was consumed, but no `}` and no name
    if lex.pos - start < 2 * hasCurly.toNat then none
    else
      let len := lex.pos - start - 2 * hasCurly.toNat
      if len = 0 then some (if hasCurly then some [] else none, lex)
      else some (some (lex.xstrdupN (start + hasCurly.toNat) len), lex)

def handleTildeWordPart (lex : Lexer) : CStr × Lexer :=
  let start := lex.pos
  let lex := lex.advance.advanceWhile fun c ↦ isalnum c || c == '_' || c == '-'
  (lex.xstrdupN start (lex.pos - start), lex)

def handleGlobWordPart (lex : Lexer) : CStr × Lexer :=
  let c := lex.peek
  if c = '*' ∨ c = '?' then ([c], lex.advance)
  else
    let start := lex.pos
    let lex := (lex.advanceWhile fun c ↦ c != '\x00' && c != ']').advance
    (lex.xstrdupN start (lex.pos - start), lex)

/-! ## Words -/

def toggleQuote (c : Char) : QuoteContext → QuoteContext
  | quoteNone => if c = '\'' then quoteSingle else quoteDouble
  | quoteSingle => quoteNone
  | quoteDouble => quoteNone

/-- The next part of a word, with the quote context after it. `some none` is the zero part, which
carries no value. -/
def lexNextWordPart (lex : Lexer) (quoteCtx : QuoteContext) :
    Option (Option WordPart × QuoteContext × Lexer) :=
  let c := lex.peek
  if c = '\'' ∨ c = '"' then some (none, toggleQuote c quoteCtx, lex.advance)
  else if c = '$' ∧ (quoteCtx = quoteNone ∨ quoteCtx = quoteDouble) then
    (handleVariableWordPart lex).map fun
      | (none, lex) => (some ⟨wordLiteral, quoteCtx, ['$']⟩, quoteCtx, lex)
      | (some [], lex) => (none, quoteCtx, lex)
      | (some varname, lex) => (some ⟨wordVariable, quoteCtx, varname⟩, quoteCtx, lex)
  else if c = '~' ∧ quoteCtx = quoteNone ∧ lex.peekPrev ≠ '~' then
    let (tilde, lex) := handleTildeWordPart lex
    some (some ⟨wordTilde, quoteCtx, tilde⟩, quoteCtx, lex)
  else if isGlobChar c ∧ quoteCtx = quoteNone then
    let (glob, lex) := handleGlobWordPart lex
    some (some ⟨wordGlob, quoteCtx, glob⟩, quoteCtx, lex)
  else
    let (lit, lex) := handleLiteral lex quoteCtx
    some (some ⟨wordLiteral, quoteCtx, lit.getD []⟩, quoteCtx, lex)

/-! ### Progress

Every branch of `lex_next_word_part` passes at least one byte, except that a literal stops at once
on a byte that ends it. The tests made before the last branch, and those of the loop that calls the
function, exclude exactly those bytes. -/

theorem input_literalLoop (quoteCtx : QuoteContext) (buf : LiteralBuf) (lex : Lexer) :
    (literalLoop quoteCtx buf lex).2.input = lex.input := by
  fun_induction literalLoop quoteCtx buf lex with
  | case1 => rfl
  | case2 => rfl
  | case3 buf lex _ _ _ ih => rw [ih, input_handleEscape]
  | case4 buf lex _ _ _ ih => rw [ih, Lexer.input_advance]

theorem pos_le_literalLoop (quoteCtx : QuoteContext) (buf : LiteralBuf) (lex : Lexer) :
    lex.pos ≤ (literalLoop quoteCtx buf lex).2.pos := by
  fun_induction literalLoop quoteCtx buf lex with
  | case1 => exact le_refl _
  | case2 => exact le_refl _
  | case3 buf lex hc _ _ ih => exact (pos_lt_handleEscape hc).le.trans ih
  | case4 buf lex _ _ _ ih => exact lex.pos_le_advance.trans ih

/-- A literal consumes at least the byte it starts with, unless that byte ends it. -/
theorem pos_lt_literalLoop {quoteCtx : QuoteContext} {buf : LiteralBuf} {lex : Lexer}
    (hc : lex.peek ≠ '\x00') (hq : endsLiteral quoteCtx lex.peek = false) :
    lex.pos < (literalLoop quoteCtx buf lex).2.pos := by
  rw [literalLoop, dif_neg hc, if_neg (by simp [hq])]
  split
  · exact (pos_lt_handleEscape hc).trans_le (pos_le_literalLoop _ _ _)
  · refine lt_of_lt_of_le ?_ (pos_le_literalLoop _ _ _)
    rw [Lexer.advance_of_peek hc]
    exact Nat.lt_succ_self _

theorem input_closeCurly (hasCurly : Bool) (lex : Lexer) :
    (closeCurly hasCurly lex).input = lex.input := by
  unfold closeCurly
  split <;> simp

theorem pos_le_closeCurly (hasCurly : Bool) (lex : Lexer) :
    lex.pos ≤ (closeCurly hasCurly lex).pos := by
  unfold closeCurly
  split
  · exact lex.pos_le_advance
  · exact le_refl _

theorem handleVariableWordPart_moves {lex lex' : Lexer} {name : Option CStr}
    (hc : lex.peek ≠ '\x00') (h : handleVariableWordPart lex = some (name, lex')) :
    lex'.input = lex.input ∧ lex.pos < lex'.pos := by
  have hstart : lex.pos < lex.advance.pos := by
    rw [Lexer.advance_of_peek hc]
    exact Nat.lt_succ_self _
  -- the lexer after the optional `{`
  obtain ⟨lex₁, hlex₁, hin, hpos⟩ : ∃ lex₁,
      (if lex.advance.peek == '{' then lex.advance.advance else lex.advance) = lex₁ ∧
      lex₁.input = lex.input ∧ lex.pos < lex₁.pos := by
    refine ⟨_, rfl, ?_, ?_⟩
    · split <;> simp
    · split
      · exact hstart.trans_le (Lexer.pos_le_advance _)
      · exact hstart
  simp only [handleVariableWordPart, hlex₁] at h
  split at h
  · cases h
    exact ⟨by rw [input_closeCurly, Lexer.input_advance, hin],
      hpos.trans_le ((Lexer.pos_le_advance _).trans (pos_le_closeCurly _ _))⟩
  · split at h
    · cases h
    · have hmoves : (closeCurly (lex.advance.peek == '{') (lex₁.advanceWhile isNameChar)).input
            = lex.input ∧
          lex.pos < (closeCurly (lex.advance.peek == '{') (lex₁.advanceWhile isNameChar)).pos :=
        ⟨by rw [input_closeCurly, Lexer.input_advanceWhile, hin],
          hpos.trans_le ((Lexer.pos_le_advanceWhile _ _).trans (pos_le_closeCurly _ _))⟩
      split at h <;> cases h <;> exact hmoves

theorem handleTildeWordPart_moves {lex : Lexer} (hc : lex.peek ≠ '\x00') :
    (handleTildeWordPart lex).2.input = lex.input ∧ lex.pos < (handleTildeWordPart lex).2.pos := by
  refine ⟨by simp [handleTildeWordPart], ?_⟩
  refine lt_of_lt_of_le ?_ (Lexer.pos_le_advanceWhile _ _)
  rw [Lexer.advance_of_peek hc]
  exact Nat.lt_succ_self _

/-- A `[` is itself passed by the loop that looks for `]`. -/
theorem handleGlobWordPart_moves {lex : Lexer} (hc : isGlobChar lex.peek = true) :
    (handleGlobWordPart lex).2.input = lex.input ∧ lex.pos < (handleGlobWordPart lex).2.pos := by
  have hnul : lex.peek ≠ '\x00' := fun h ↦ by rw [h] at hc; exact absurd hc (by decide)
  unfold handleGlobWordPart
  dsimp only
  split
  · rw [Lexer.advance_of_peek hnul]
    exact ⟨rfl, Nat.lt_succ_self _⟩
  · rename_i hbracket
    refine ⟨by simp, lt_of_lt_of_le ?_ (Lexer.pos_le_advance _)⟩
    obtain ⟨c, t, hr⟩ := Lexer.rest_of_pos_lt (Lexer.pos_lt_of_peek hnul)
    rw [Lexer.peek_of_rest hr] at hc hbracket
    have hc' : c = '[' := by simpa [isGlobChar, hbracket] using hc
    subst hc'
    simp [Lexer.advanceWhile, hr]

/-- The bytes at which the loop of `handle_word_token` stops. -/
def endsWord (quoteCtx : QuoteContext) (c : Char) : Bool :=
  quoteCtx = quoteNone && (isspace c || isMetaChar c)

theorem endsLiteral_eq_false {quoteCtx : QuoteContext} {c : Char}
    (hend : endsWord quoteCtx c = false) (hquote : ¬(c = '\'' ∨ c = '"'))
    (hdollar : ¬(c = '$' ∧ (quoteCtx = quoteNone ∨ quoteCtx = quoteDouble)))
    (hglob : ¬(isGlobChar c = true ∧ quoteCtx = quoteNone)) : endsLiteral quoteCtx c = false := by
  cases quoteCtx
  case quoteNone =>
    simp_all [endsLiteral, endsWord, isWordChar, isExpansionChar, isGlobChar]
  case quoteSingle => simp_all [endsLiteral]
  case quoteDouble => simp_all [endsLiteral]

theorem lexNextWordPart_moves {lex lex' : Lexer} {quoteCtx quoteCtx' : QuoteContext}
    {part : Option WordPart} (hc : lex.peek ≠ '\x00') (hend : endsWord quoteCtx lex.peek = false)
    (h : lexNextWordPart lex quoteCtx = some (part, quoteCtx', lex')) :
    lex'.input = lex.input ∧ lex.pos < lex'.pos := by
  unfold lexNextWordPart at h
  dsimp only at h
  split at h
  · cases h
    rw [Lexer.advance_of_peek hc]
    exact ⟨rfl, Nat.lt_succ_self _⟩
  rename_i hquote
  split at h
  · obtain ⟨⟨name, lex₁⟩, hvar, hpart⟩ := Option.map_eq_some_iff.mp h
    have hmoves := handleVariableWordPart_moves hc hvar
    split at hpart <;> cases hpart <;> simp_all
  rename_i hdollar
  split at h
  · cases h
    exact handleTildeWordPart_moves hc
  split at h
  · cases h
    exact handleGlobWordPart_moves (by tauto)
  rename_i hglob
  cases h
  exact ⟨input_literalLoop _ _ _,
    pos_lt_literalLoop hc (endsLiteral_eq_false hend hquote hdollar hglob)⟩

/-! ## Tokens -/

/-- `if (part.value && strlen(part.value) > 0) arrput(parts, part);` -/
def putPart (parts : Word) : Option WordPart → Word
  | none => parts
  | some part => if part.value.length > 0 then parts ++ [part] else parts

def wordLoop (parts : Word) (quoteCtx : QuoteContext) (lex : Lexer) : Option (Word × Lexer) :=
  if _hc : lex.peek = '\x00' then some (parts, lex)
  else if _hend : endsWord quoteCtx lex.peek then some (parts, lex)
  else
    match _h : lexNextWordPart lex quoteCtx with
    | none => none
    | some (part, quoteCtx, lex) => wordLoop (putPart parts part) quoteCtx lex
termination_by lex.remaining
decreasing_by
  have hmoves := lexNextWordPart_moves _hc (by simpa using _hend) _h
  exact Lexer.remaining_lt hmoves.1 (Lexer.pos_lt_of_peek _hc) hmoves.2

def handleWordToken (lex : Lexer) : Option (Token × Lexer) :=
  (wordLoop [] quoteNone lex).map fun (parts, lex') ↦
    (⟨tokWord, lex.xstrdupN lex.pos (lex'.pos - lex.pos), parts⟩, lex')

/-- The `switch` of `lexer_next_token`, at the first byte that is not white space. -/
def switchToken (lex : Lexer) : Option (Token × Lexer) :=
  let c := lex.peek
  if c = '|' then
    let lex := lex.advance
    if lex.peek = '|' then some (.operator tokOr, lex.advance) else some (.operator tokPipe, lex)
  else if c = '&' then
    let lex := lex.advance
    if lex.peek = '&' then some (.operator tokAnd, lex.advance) else some (.operator tokBg, lex)
  else if c = '>' then
    let lex := lex.advance
    if lex.peek = '>' then some (.operator tokRedirAppend, lex.advance)
    else some (.operator tokRedirOut, lex)
  else if c = '<' then some (.operator tokRedirIn, lex.advance)
  else if c = ';' then some (.operator tokSemi, lex.advance)
  else if c = '\x00' then some (.operator tokEof, lex.advance)
  else
    (handleWordToken lex).map fun (tok, lex) ↦
      if isWordFd tok.rawValue && (lex.peek = '>' || lex.peek = '<') then
        ({ tok with type := tokFd }, lex)
      else (tok, lex)

/-- One token, or `none` when the lexer crashes. At the end of the input the token is `TOK_EOF`,
however often it is asked for. -/
def lexerNextToken (lex : Lexer) : Option (Token × Lexer) := switchToken (skipWhitespaces lex)

/-! ### Progress of tokens -/

theorem wordLoop_moves (parts : Word) (quoteCtx : QuoteContext) (lex : Lexer) {parts' lex'}
    (h : wordLoop parts quoteCtx lex = some (parts', lex')) :
    lex'.input = lex.input ∧ lex.pos ≤ lex'.pos := by
  fun_induction wordLoop parts quoteCtx lex with
  | case1 => cases h; exact ⟨rfl, le_refl _⟩
  | case2 => cases h; exact ⟨rfl, le_refl _⟩
  | case3 => cases h
  | case4 parts quoteCtx lex hnul hend part quoteCtx' lex₁ hpart ih =>
    have hmoves := lexNextWordPart_moves hnul (by simpa using hend) hpart
    have hrest := ih h
    exact ⟨hrest.1.trans hmoves.1, hmoves.2.le.trans hrest.2⟩

/-- A word is asked for at a byte that does not end it, and consumes that byte. -/
theorem handleWordToken_moves {lex lex' : Lexer} {tok : Token} (hnul : lex.peek ≠ '\x00')
    (hend : endsWord quoteNone lex.peek = false) (h : handleWordToken lex = some (tok, lex')) :
    lex'.input = lex.input ∧ lex.pos < lex'.pos := by
  obtain ⟨⟨parts, lex₁⟩, hword, htok⟩ := Option.map_eq_some_iff.mp h
  cases htok
  rw [wordLoop, dif_neg hnul, dif_neg (by simp [hend])] at hword
  split at hword
  · cases hword
  · rename_i part ctx lex₂ hpart
    have hmoves := lexNextWordPart_moves hnul hend hpart
    have hrest := wordLoop_moves _ _ _ hword
    exact ⟨hrest.1.trans hmoves.1, hmoves.2.trans_le hrest.2⟩

private theorem switchToken_moves {lex lex' : Lexer} {tok : Token}
    (hspace : isspace lex.peek = false) (h : switchToken lex = some (tok, lex'))
    (htok : tok.type ≠ tokEof) :
    lex.peek ≠ '\x00' ∧ lex'.input = lex.input ∧ lex.pos < lex'.pos := by
  -- what passing one or two bytes does, for the operators
  have hone : ∀ {c : Char}, lex.peek = c → c ≠ '\x00' →
      lex.peek ≠ '\x00' ∧ lex.advance.input = lex.input ∧ lex.pos < lex.advance.pos := by
    rintro c rfl hnul
    refine ⟨hnul, Lexer.input_advance lex, ?_⟩
    rw [Lexer.advance_of_peek hnul]
    exact Nat.lt_succ_self _
  have htwo : ∀ {c : Char}, lex.peek = c → c ≠ '\x00' →
      lex.peek ≠ '\x00' ∧ lex.advance.advance.input = lex.input ∧
        lex.pos < lex.advance.advance.pos := fun hc hnul ↦
    ⟨(hone hc hnul).1, by simp, (hone hc hnul).2.2.trans_le (Lexer.pos_le_advance _)⟩
  unfold switchToken at h
  dsimp only at h
  split_ifs at h with hpipe _ hamp _ hgt _ hlt hsemi hnul
  · cases h; exact htwo hpipe (by decide)
  · cases h; exact hone hpipe (by decide)
  · cases h; exact htwo hamp (by decide)
  · cases h; exact hone hamp (by decide)
  · cases h; exact htwo hgt (by decide)
  · cases h; exact hone hgt (by decide)
  · cases h; exact hone hlt (by decide)
  · cases h; exact hone hsemi (by decide)
  · cases h; exact absurd rfl htok
  · obtain ⟨⟨word, lex₁⟩, hword, hres⟩ := Option.map_eq_some_iff.mp h
    have hend : endsWord quoteNone lex.peek = false := by
      simp [endsWord, isMetaChar, hspace, hpipe, hamp, hgt, hlt, hsemi]
    have hmoves := handleWordToken_moves hnul hend hword
    dsimp only at hres
    split_ifs at hres <;> cases hres <;> exact ⟨hnul, hmoves⟩

/-- **Progress.** Every token but `TOK_EOF` consumes at least one byte. -/
theorem lexerNextToken_moves {lex lex' : Lexer} {tok : Token}
    (h : lexerNextToken lex = some (tok, lex')) (htok : tok.type ≠ tokEof) :
    lex'.input = lex.input ∧ lex.pos < lex'.pos ∧ lex.pos < lex.length := by
  have hskip : lex.pos ≤ (skipWhitespaces lex).pos := Lexer.pos_le_advanceWhile _ _
  obtain ⟨hnul, hin, hpos⟩ := switchToken_moves (Lexer.peek_advanceWhile rfl lex) h htok
  have hlt : (skipWhitespaces lex).pos < lex.length := Lexer.pos_lt_of_peek hnul
  exact ⟨hin, hskip.trans_lt hpos, hskip.trans_lt hlt⟩

end Novash
