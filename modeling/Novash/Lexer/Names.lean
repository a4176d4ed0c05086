import Novash.Lexer.Spans

/-!
# The names of variables

The name behind a `$` or `${` should be the bytes up to the first one that is not of a name. Its
length is computed from where the loop has stopped, with two bytes taken off for the braces. The
closing one is taken off whether or not it was there: without it the name loses its last byte, and
without a name the length wraps.
-/

namespace Novash

variable {lex : Lexer}

/-- The bytes behind `$` or `${`, from those behind `$`. -/
def nameText : CStr → CStr
  | '{' :: t => t
  | t => t

/-- `lex->pos - start - 2 * has_curly`, as an integer that is not cut to a `size_t`, where the name
is not a special parameter. -/
def nameLength (lex : Lexer) : ℤ :=
  let lex := lex.advance
  let start := lex.pos
  let hasCurly := lex.peek == '{'
  let lex := if hasCurly then lex.advance else lex
  let lex := closeCurly hasCurly (lex.advanceWhile isNameChar)
  (lex.pos : ℤ) - start - 2 * hasCurly.toNat

/-- The length does not wrap, and the name that is taken is `name`; that there is none, or that it
is to be ignored, says that it is empty. -/
structure TakesName (lex : Lexer) (name : CStr) : Prop where
  length_nonneg : 0 ≤ nameLength lex
  taken : ∃ name' lex', handleVariableWordPart lex = some (name', lex') ∧ name'.getD [] = name

/-- A brace that is opened in front of a name is closed behind it. -/
def ClosesName (t : CStr) : Prop :=
  t.head? = some '{' → ((nameText t).dropWhile isNameChar).head? = some '}'

instance (t : CStr) : Decidable (ClosesName t) := inferInstanceAs (Decidable (_ → _))

theorem closeCurly_false (lex : Lexer) : closeCurly false lex = lex := rfl

/-- Where the lexer stands after the name and, if there is one, the closing brace. -/
theorem pos_closeCurly_true (lex : Lexer) :
    (closeCurly true (lex.advanceWhile isNameChar)).pos
      = lex.pos + (lex.rest.takeWhile isNameChar).length
        + if (lex.rest.dropWhile isNameChar).head? = some '}' then 1 else 0 := by
  have hpeek : (lex.advanceWhile isNameChar).peek
      = (lex.rest.dropWhile isNameChar).headD '\x00' := by
    rw [Lexer.peek_eq_headD, Lexer.rest_advanceWhile]
  rw [closeCurly, hpeek]
  cases hd : lex.rest.dropWhile isNameChar with
  | nil => rfl
  | cons c t =>
    have hrest : (lex.advanceWhile isNameChar).rest = c :: t := by rw [Lexer.rest_advanceWhile, hd]
    by_cases hc : c = '}'
    · subst hc
      rw [if_pos (by simp), Lexer.advance_of_rest hrest, Lexer.advanceWhile, Lexer.skip_skip]
      simp [Nat.add_assoc]
    · simp [hc, Lexer.advanceWhile]

section

variable {t : CStr}

/-- Behind a `$` alone the name is what its loop passes. -/
theorem handleVariableWordPart_bare (hr : lex.rest = '$' :: t) (hcurly : t.head? ≠ some '{')
    (hspecial : isSpecialParameterChar (t.headD '\x00') = false) :
    nameLength lex = (t.takeWhile isNameChar).length ∧
      ∃ name' lex', handleVariableWordPart lex = some (name', lex') ∧
        name'.getD [] = t.takeWhile isNameChar := by
  have hadv : lex.advance = lex.skip 1 := Lexer.advance_of_rest hr
  have hr₁ : (lex.skip 1).rest = t := Lexer.rest_skip_one hr
  have hpeek : (lex.skip 1).peek = t.headD '\x00' := by rw [Lexer.peek_eq_headD, hr₁]
  have hopen : ((lex.skip 1).peek == '{') = false := by
    rw [hpeek]
    cases t with
    | nil => rfl
    | cons c t => simpa using hcurly
  rw [← hpeek] at hspecial
  have hpos : ((lex.skip 1).advanceWhile isNameChar).pos - (lex.skip 1).pos
      = (t.takeWhile isNameChar).length := by
    rw [Lexer.advanceWhile, hr₁, Lexer.pos_skip, Nat.add_sub_cancel_left]
  have hname : ((lex.skip 1).advanceWhile isNameChar).xstrdupN (lex.skip 1).pos
      (t.takeWhile isNameChar).length = t.takeWhile isNameChar := by
    rw [Lexer.xstrdupN, Lexer.input_advanceWhile, ← Lexer.rest, hr₁,
      ← List.prefix_iff_eq_take.mp (List.takeWhile_prefix _)]
  constructor
  · simp only [nameLength, hadv, hopen, Bool.false_eq_true, if_false, closeCurly_false,
      Bool.toNat_false, Lexer.advanceWhile, hr₁, Lexer.pos_skip]
    push_cast
    ring
  · simp only [handleVariableWordPart, hadv, hopen, Bool.false_eq_true, if_false, hspecial,
      closeCurly_false, Bool.toNat_false, hpos, Nat.mul_zero, Nat.not_lt_zero, Nat.sub_zero,
      Nat.add_zero, hname]
    split_ifs with hempty
    · exact ⟨none, _, rfl, (List.length_eq_zero_iff.mp hempty).symm⟩
    · exact ⟨some _, _, rfl, rfl⟩

/-- Behind `${` the length is one less than that of the name unless a `}` follows, and it is the
number of bytes that are taken. -/
theorem handleVariableWordPart_braced (hr : lex.rest = '$' :: '{' :: t)
    (hspecial : isSpecialParameterChar (t.headD '\x00') = false) :
    nameLength lex = ((t.takeWhile isNameChar).length : ℤ)
        + (if (t.dropWhile isNameChar).head? = some '}' then 1 else 0) - 1 ∧
      (0 ≤ nameLength lex → ∃ name' lex', handleVariableWordPart lex = some (name', lex') ∧
        name'.getD [] = t.take (nameLength lex).toNat) := by
  have hadv : lex.advance = lex.skip 1 := Lexer.advance_of_rest hr
  have hr₁ : (lex.skip 1).rest = '{' :: t := Lexer.rest_skip_one hr
  have hadv₁ : (lex.skip 1).advance = lex.skip 2 := Lexer.advance_of_rest hr₁
  have hr₂ : (lex.skip 2).rest = t := Lexer.rest_skip_one hr₁
  rw [← hr₂, ← Lexer.peek_eq_headD] at hspecial
  have hopen : ((lex.skip 1).peek == '{') = true := by rw [Lexer.peek_of_rest hr₁]; rfl
  have hpos := pos_closeCurly_true (lex.skip 2)
  rw [hr₂, Lexer.pos_skip] at hpos
  have hlen : nameLength lex
      = ((closeCurly true ((lex.skip 2).advanceWhile isNameChar)).pos : ℤ) - (lex.pos + 1) - 2 := by
    simp [nameLength, hadv, hopen, hadv₁]
  refine ⟨?_, fun hnonneg ↦ ?_⟩
  · rw [hlen, hpos]
    push_cast
    ring
  have hwrap :
      ¬(closeCurly true ((lex.skip 2).advanceWhile isNameChar)).pos - (lex.pos + 1) < 2 := by omega
  have htaken : (closeCurly true ((lex.skip 2).advanceWhile isNameChar)).xstrdupN (lex.pos + 1 + 1)
      (nameLength lex).toNat = t.take (nameLength lex).toNat := by
    rw [Lexer.xstrdupN, input_closeCurly, Lexer.input_advanceWhile, Lexer.input_skip, ← hr₂]
    rfl
  have hsize : (closeCurly true ((lex.skip 2).advanceWhile isNameChar)).pos - (lex.pos + 1) - 2
      = (nameLength lex).toNat := by omega
  simp only [handleVariableWordPart, hadv, hopen, if_true, hadv₁, hspecial,
    Bool.false_eq_true, if_false, Lexer.pos_skip, Bool.toNat_true, Nat.mul_one, if_neg hwrap,
    hsize, htaken]
  split_ifs with hempty
  · exact ⟨some [], _, rfl, by rw [hempty]; rfl⟩
  · exact ⟨some _, _, rfl, rfl⟩

/-- **Names.** The name behind a `$` is read to its end exactly when a brace that is opened is
closed. -/
theorem takesName_iff (hr : lex.rest = '$' :: t)
    (hspecial : isSpecialParameterChar ((nameText t).headD '\x00') = false) :
    TakesName lex ((nameText t).takeWhile isNameChar) ↔ ClosesName t := by
  by_cases hcurly : t.head? = some '{'
  · obtain ⟨u, rfl⟩ : ∃ u, t = '{' :: u := by
      cases t with
      | nil => cases hcurly
      | cons c u => exact ⟨u, congrArg (· :: u) (Option.some.inj hcurly)⟩
    obtain ⟨hlen, htaken⟩ := handleVariableWordPart_braced hr hspecial
    rw [ClosesName, imp_iff_right hcurly, nameText]
    have hprefix : u.take (u.takeWhile isNameChar).length = u.takeWhile isNameChar :=
      (List.prefix_iff_eq_take.mp (List.takeWhile_prefix _)).symm
    constructor
    · rintro ⟨hnonneg, name', lex', hname, hget⟩
      by_contra hopen
      obtain ⟨name, lex₁, hname₁, hget₁⟩ := htaken hnonneg
      cases hname.symm.trans hname₁
      rw [if_neg hopen] at hlen
      -- one byte less than the name is taken
      have hshort := congrArg List.length (hget.symm.trans hget₁)
      rw [List.length_take] at hshort
      omega
    · intro hclosed
      rw [if_pos hclosed] at hlen
      have hlen' : nameLength lex = (u.takeWhile isNameChar).length := by omega
      obtain ⟨name, lex', hname, hget⟩ := htaken (by omega)
      refine ⟨by omega, name, lex', hname, ?_⟩
      rw [hget, hlen', Int.toNat_natCast, hprefix]
  · have htext : nameText t = t := by
      cases t with
      | nil => rfl
      | cons c u =>
        unfold nameText
        split
        · next heq => exact absurd (congrArg List.head? heq) hcurly
        · rfl
    rw [htext] at hspecial ⊢
    obtain ⟨hlen, htaken⟩ := handleVariableWordPart_bare hr hcurly hspecial
    exact iff_of_true ⟨by omega, htaken⟩ fun hc ↦ absurd hc hcurly

theorem takesName_iff_closed :
    TakesName (.init "${A}".toList) ['A'] :=
  (@takesName_iff (.init "${A}".toList) "{A}".toList rfl rfl).mpr (by decide)

/-- The name behind the `$` of `${A` is ignored. -/
theorem not_takesName : ¬∀ (lex : Lexer) (t : CStr), lex.rest = '$' :: t →
    isSpecialParameterChar ((nameText t).headD '\x00') = false →
    TakesName lex ((nameText t).takeWhile isNameChar) := by
  intro h
  obtain ⟨-, name', lex', hname, hget⟩ := h (.init "$\x7bA".toList) "\x7bA".toList rfl rfl
  have heval : handleVariableWordPart (.init "$\x7bA".toList)
      = some (some [], ⟨"$\x7bA".toList, 3⟩) := by decide +kernel
  cases hname.symm.trans heval
  exact absurd hget (by decide)

end

end Novash
