import Novash.Lexer.Spans

/-!
# Which words are descriptor numbers

A word in front of `<` or `>` is a descriptor number when it is made of digits. The test is whether
`strtol` reads all of it, and `strtol` reads a sign too: so the option in `tail -3>f` is taken for a
descriptor. White space, which `strtol` skips as well, does not stand at the start of a word.
-/

namespace Novash

open TokenType

/-- A non-empty run of decimal digits. -/
def IsDecimal (s : CStr) : Prop := s ≠ [] ∧ ∀ c ∈ s, isdigit c = true

instance (s : CStr) : Decidable (IsDecimal s) :=
  decidable_of_iff (s ≠ [] ∧ s.all isdigit = true) (and_congr_right fun _ ↦ List.all_eq_true)

/-- The sign that `strtol` accepts stands first. -/
def HasSign (s : CStr) : Prop := s.head? = some '-' ∨ s.head? = some '+'

instance (s : CStr) : Decidable (HasSign s) := inferInstanceAs (Decidable (_ ∨ _))

/-- A sign and then digits. -/
def IsSigned (s : CStr) : Prop := HasSign s ∧ IsDecimal s.tail

instance (s : CStr) : Decidable (IsSigned s) := inferInstanceAs (Decidable (_ ∧ _))

/-- The next byte is that of a redirection. -/
def BeforeRedirection (lex : Lexer) : Prop := lex.peek = '>' ∨ lex.peek = '<'

instance (lex : Lexer) : Decidable (BeforeRedirection lex) := inferInstanceAs (Decidable (_ ∨ _))

/-- The token is a descriptor number exactly when its span is made of digits and stands directly in
front of a redirection. -/
def LexCall.ClassifiedByDigits (c : LexCall) : Prop :=
  c.tok.type = tokFd ↔ IsDecimal c.span ∧ BeforeRedirection c.after

/-! ## What `strtol` reads -/

theorem strtolSign_snd (s : CStr) : (strtolSign s).2 = if HasSign s then s.tail else s := by
  unfold strtolSign
  split
  · exact (if_pos (Or.inl rfl : HasSign ('-' :: _))).symm
  · exact (if_pos (Or.inr rfl : HasSign ('+' :: _))).symm
  · next hminus hplus =>
    rw [if_neg]
    rintro (hs | hs)
    · obtain ⟨t, rfl⟩ := List.head?_eq_some_iff.mp hs
      exact hminus t rfl
    · obtain ⟨t, rfl⟩ := List.head?_eq_some_iff.mp hs
      exact hplus t rfl

/-- All of a text is read exactly when digits are what follows the sign, if there is one. -/
theorem strtol_snd_eq_nil_iff {s : CStr} (hs : s ≠ []) (hspace : isspace (s.headD '\x00') = false) :
    (strtol s).2 = [] ↔ IsDecimal (if HasSign s then s.tail else s) := by
  have hdrop : s.dropWhile isspace = s := by
    cases s with
    | nil => rfl
    | cons c t => exact List.dropWhile_cons_of_neg (by simpa using hspace)
  rw [strtol, hdrop, ← strtolSign_snd]
  generalize strtolSign s = r
  obtain ⟨sign, t⟩ := r
  dsimp only
  rw [IsDecimal]
  split
  · next hnone =>
    refine iff_of_false hs fun hdecimal ↦ ?_
    rw [List.takeWhile_eq_self_iff.mpr hdecimal.2] at hnone
    exact hdecimal.1 hnone
  · next hsome =>
    rw [List.dropWhile_eq_nil_iff]
    refine (and_iff_right fun ht ↦ hsome ?_).symm
    rw [ht, List.takeWhile_nil]

theorem isWordFd_iff {s : CStr} (hspace : isspace (s.headD '\x00') = false) :
    isWordFd s = true ↔ IsDecimal s ∨ IsSigned s := by
  by_cases hs : s = []
  · subst hs
    decide
  have hlen : 0 < s.length := List.length_pos_iff.mpr hs
  rw [isWordFd, Bool.and_eq_true, decide_eq_true_eq, decide_eq_true_eq, and_iff_left hlen,
    strtol_snd_eq_nil_iff hs hspace, IsSigned]
  split
  · next hsign =>
    -- a sign is not a digit
    rw [and_iff_right hsign]
    refine (or_iff_right fun hdecimal ↦ ?_).symm
    rcases hsign with hsign | hsign <;>
      exact absurd (hdecimal.2 _ (List.mem_of_mem_head? hsign)) (by decide)
  · next hsign => exact (or_iff_left fun h ↦ hsign h.1).symm

/-! ## Tokens -/

section

variable {lex lex' : Lexer} {tok : Token}

/-- The test that decides between the two kinds of words. -/
theorem type_eq_tokFd_iff (h : lexerNextToken lex = some (tok, lex'))
    (htok : tok.type = tokWord ∨ tok.type = tokFd) :
    tok.type = tokFd ↔
      isWordFd (⟨tok, lex, lex'⟩ : LexCall).span = true ∧ BeforeRedirection lex' := by
  unfold lexerNextToken switchToken at h
  dsimp only at h
  split_ifs at h
  iterate 9 (cases h; simp at htok)
  obtain ⟨⟨word, lex₁⟩, hword, hres⟩ := Option.map_eq_some_iff.mp h
  obtain ⟨⟨parts, lex₂⟩, -, hw⟩ := Option.map_eq_some_iff.mp hword
  cases hw
  dsimp only at hres
  rw [LexCall.span, LexCall.start, BeforeRedirection]
  split_ifs at hres with hfd <;> cases hres <;> simpa using hfd

/-- A word does not start with white space. -/
theorem isspace_headD_span (lex lex' : Lexer) (tok : Token) :
    isspace ((⟨tok, lex, lex'⟩ : LexCall).span.headD '\x00') = false := by
  have hstop : isspace (skipWhitespaces lex).peek = false := Lexer.peek_advanceWhile rfl lex
  rw [Lexer.peek_eq_headD] at hstop
  change isspace (((skipWhitespaces lex).rest.take _).headD '\x00') = false
  generalize lex'.pos - _ = n
  cases n with
  | zero => rfl
  | succ n =>
    cases hr : (skipWhitespaces lex).rest with
    | nil => rfl
    | cons c t => rwa [hr] at hstop

/-- **Descriptor numbers.** A word is classified by its digits except where it is a signed number in
front of a redirection. -/
theorem classifiedByDigits_iff (h : lexerNextToken lex = some (tok, lex'))
    (htok : tok.type = tokWord ∨ tok.type = tokFd) :
    (⟨tok, lex, lex'⟩ : LexCall).ClassifiedByDigits ↔
      ¬(IsSigned (⟨tok, lex, lex'⟩ : LexCall).span ∧ BeforeRedirection lex') := by
  rw [LexCall.ClassifiedByDigits, type_eq_tokFd_iff h htok,
    isWordFd_iff (isspace_headD_span lex lex' tok)]
  generalize (⟨tok, lex, lex'⟩ : LexCall).span = s
  have hdisjoint : IsSigned s → ¬IsDecimal s := by
    rintro ⟨hsign, -⟩ hdecimal
    rcases hsign with hsign | hsign <;>
      exact absurd (hdecimal.2 _ (List.mem_of_mem_head? hsign)) (by decide)
  tauto

theorem classifiedByDigits_iff_stderr :
    ∃ tok lex', lexerNextToken (.init "2>f".toList) = some (tok, lex') ∧
      (⟨tok, .init "2>f".toList, lex'⟩ : LexCall).ClassifiedByDigits := by
  have heval : (lexerNextToken (.init "2>f".toList)).map
      (fun r ↦ (r.1.type, (⟨r.1, .init "2>f".toList, r.2⟩ : LexCall).span))
      = some (tokFd, "2".toList) := by decide +kernel
  obtain ⟨⟨tok, lex'⟩, h, hres⟩ := Option.map_eq_some_iff.mp heval
  obtain ⟨htok, hspan⟩ := Prod.mk.inj hres
  refine ⟨tok, lex', h, (classifiedByDigits_iff h (Or.inr htok)).mpr fun hsigned ↦ ?_⟩
  dsimp only at hspan
  rw [hspan] at hsigned
  exact absurd hsigned.1 (by decide)

/-- The option in `-3>f` is taken for a descriptor. -/
theorem not_classifiedByDigits : ¬∀ (lex : Lexer) (tok : Token) (lex' : Lexer),
    lexerNextToken lex = some (tok, lex') → tok.type = tokWord ∨ tok.type = tokFd →
    (⟨tok, lex, lex'⟩ : LexCall).ClassifiedByDigits := by
  intro h
  have heval : (lexerNextToken (.init "-3>f".toList)).map
      (fun r ↦ (r.1.type, (⟨r.1, .init "-3>f".toList, r.2⟩ : LexCall).span))
      = some (tokFd, "-3".toList) := by decide +kernel
  obtain ⟨⟨tok, lex'⟩, hcall, hres⟩ := Option.map_eq_some_iff.mp heval
  obtain ⟨htok, hspan⟩ := Prod.mk.inj hres
  have hdecimal := ((h _ _ _ hcall (Or.inr htok)).mp htok).1
  dsimp only at hspan
  rw [hspan] at hdecimal
  exact absurd hdecimal (by decide)

end

end Novash
