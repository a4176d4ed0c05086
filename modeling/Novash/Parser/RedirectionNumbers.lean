import Novash.Parser.LookedAt

/-!
# The descriptors of redirections

Each redirection of a command is read from one that is written, in order, with the type of its
operator and the parts of its target. Its descriptor is the number that stands before the operator,
if the number is one that survives: `strtol` gives a `long`, which is cut to an `int`, and an output
redirection takes 0 for "no number".
-/

namespace Novash

open Foundations TokenType RedirectionType ParserState

/-! ## Numbers -/

/-- The number that a string of digits with an optional sign stands for. -/
def decimalValue (s : CStr) : ℤ :=
  let (sign, t) := strtolSign (s.dropWhile isspace)
  sign * (Nat.ofDigitChars 10 (t.takeWhile isdigit) 0 : ℤ)

theorem strtol_eq_clampLong (s : CStr) : (strtol s).1 = clampLong (decimalValue s) := by
  rw [strtol, decimalValue]
  obtain ⟨sign, t⟩ := strtolSign (s.dropWhile isspace)
  dsimp only
  split_ifs with hdigits
  · rw [hdigits]
    simp [clampLong, Nat.ofDigitChars]
  · rfl

/-- A number is read as it is exactly when it is an `int`. -/
theorem toInt_strtol_eq_iff (s : CStr) :
    (toInt (strtol s).1).toInt = decimalValue s ↔
      -2 ^ 31 ≤ decimalValue s ∧ decimalValue s < 2 ^ 31 := by
  constructor
  · intro h
    rw [← h]
    exact ⟨Int32.le_toInt _, Int32.toInt_lt _⟩
  · rintro ⟨hlo, hhi⟩
    have hclamp : clampLong (decimalValue s) = decimalValue s := by
      rw [clampLong]
      omega
    rw [strtol_eq_clampLong, hclamp, toInt, Int32.toInt_ofInt_of_le (by omega) (by omega)]

/-! ## One redirection -/

/-- The type an operator stands for. -/
def redirectionTypeOf : TokenType → Option RedirectionType
  | tokRedirIn => some redirIn
  | tokRedirOut => some redirOut
  | tokRedirAppend => some redirAppend
  | _ => none

namespace Written

/-- The descriptor that is meant: the number that is written, or else 0 for `<` and 1 for `>` and
`>>`. -/
def descriptor (w : Written) : ℤ :=
  match w.number with
  | some tok => decimalValue tok.rawValue
  | none => if w.operator.type = tokRedirIn then 0 else 1

/-- The redirection says what is written. -/
structure Means (w : Written) (r : Redirection) : Prop where
  type : redirectionTypeOf w.operator.type = some r.type
  targetParts : r.targetParts = w.target.parts
  fd : r.fd.toInt = w.descriptor

end Written

/-- A number before an operator that is kept: an `int`, and not 0 before `>` and `>>`. -/
def NumberFits (tok op : Token) : Prop :=
  tok.type = tokFd → (-2 ^ 31 ≤ decimalValue tok.rawValue ∧ decimalValue tok.rawValue < 2 ^ 31) ∧
    (op.type ≠ tokRedirIn → decimalValue tok.rawValue ≠ 0)

instance : DecidableRel NumberFits := fun _ _ ↦ inferInstanceAs (Decidable (_ → _))

/-- The number of a redirection, if it has one, is kept. -/
def Written.Fits (w : Written) : Prop := ∀ tok ∈ w.number, NumberFits tok w.operator

theorem redirectionOf_eq_some {fd fd' : Int32} {type : TokenType} {rtype : RedirectionType}
    (h : redirectionOf fd type = some (rtype, fd')) :
    redirectionTypeOf type = some rtype ∧
      fd' = if type ≠ tokRedirIn ∧ fd = 0 then 1 else fd := by
  cases type <;> simp_all [redirectionOf, redirectionTypeOf]

/-- A written number is read as it is when it is kept, and only then. -/
theorem toInt_read_eq_iff (tok op : Token) (htok : tok.type = tokFd) :
    (if op.type ≠ tokRedirIn ∧ toInt (strtol tok.rawValue).1 = 0 then 1
      else toInt (strtol tok.rawValue).1).toInt = decimalValue tok.rawValue ↔
        NumberFits tok op := by
  have hread := (toInt_strtol_eq_iff tok.rawValue).mpr
  rw [NumberFits, ← toInt_strtol_eq_iff, imp_iff_right htok]
  generalize toInt (strtol tok.rawValue).1 = fd at hread ⊢
  generalize decimalValue tok.rawValue = n at hread ⊢
  by_cases hone : op.type ≠ tokRedirIn ∧ fd = 0
  · obtain ⟨hout, rfl⟩ := hone
    rw [if_pos ⟨hout, rfl⟩, imp_iff_right hout]
    constructor
    · -- the default is the number only if it is 1, and that is an `int`
      intro h
      have hone : n = 1 := h.symm
      rw [hone] at hread
      exact absurd (hread (by decide)) (by decide)
    · rintro ⟨h, hne⟩
      exact absurd h.symm hne
  · rw [if_neg hone]
    refine ⟨fun h ↦ ⟨h, fun hout hzero ↦ hone ⟨hout, ?_⟩⟩, And.left⟩
    exact Int32.toInt_inj.mp (h.trans hzero)

/-- The redirection that is read says what is written exactly when the number is kept. -/
theorem Written.means_iff {w : Written} {r : Redirection} (h : w.Gives r) :
    w.Means r ↔ w.Fits := by
  obtain ⟨hop, hparts⟩ := h
  obtain ⟨htype, hfd⟩ := redirectionOf_eq_some hop
  have hmeans : w.Means r ↔ r.fd.toInt = w.descriptor :=
    ⟨Written.Means.fd, fun hfd ↦ ⟨htype, hparts, hfd⟩⟩
  rw [hmeans, hfd, Written.readNumber, Written.descriptor, Written.Fits]
  cases hnumber : w.number with
  | none =>
    dsimp only
    by_cases hin : w.operator.type = tokRedirIn
    · simp [hin]
    · simp [hin]
  | some tok =>
    rw [toInt_read_eq_iff tok w.operator (w.number_type tok hnumber)]
    simp

/-! ## The redirections of a command -/

/-- Redirections as they are written are known from their tokens. -/
theorem Written.eq_of_tokens {w w' : Written} {toks toks' : List Token}
    (h : w.tokens ++ toks = w'.tokens ++ toks') : w = w' ∧ toks = toks' := by
  obtain ⟨number, op, target, hnumber, hop, htarget⟩ := w
  obtain ⟨number', op', target', hnumber', hop', htarget'⟩ := w'
  have hne : ∀ tok : Token, tok.type = tokFd → isRedirectionOperator tok.type = true → False := by
    intro tok hfd hoperator
    rw [hfd] at hoperator
    exact absurd hoperator (by decide)
  cases number with
  | none =>
    cases number' with
    | none => simpa [Written.tokens, and_assoc] using h
    | some tok' =>
      have hfirst : op = tok' := (List.cons.inj h).1
      exact (hne op (hfirst ▸ hnumber' tok' rfl) hop).elim
  | some tok =>
    cases number' with
    | none =>
      have hfirst : tok = op' := (List.cons.inj h).1
      exact (hne op' (hfirst ▸ hnumber tok rfl) hop').elim
    | some tok' => simpa [Written.tokens, and_assoc] using h

theorem eq_of_flatMap_tokens : ∀ {written written' : List Written},
    written.flatMap Written.tokens = written'.flatMap Written.tokens → written = written'
  | [], [], _ => rfl
  | [], w' :: _, h => by
    obtain ⟨tok, toks, hcons, -⟩ := w'.tokens_eq_cons
    rw [List.flatMap_cons, hcons] at h
    cases h
  | w :: _, [], h => by
    obtain ⟨tok, toks, hcons, -⟩ := w.tokens_eq_cons
    rw [List.flatMap_cons, hcons] at h
    cases h
  | w :: written, w' :: written', h => by
    obtain ⟨rfl, hrest⟩ := Written.eq_of_tokens h
    rw [eq_of_flatMap_tokens hrest]

/-- The words and the redirections of a command are known from its tokens. -/
theorem eq_of_words_append {words words' : List Token} {written written' : List Written}
    (hwords : ∀ tok ∈ words, tok.type = tokWord) (hwords' : ∀ tok ∈ words', tok.type = tokWord)
    (h : words ++ written.flatMap Written.tokens = words' ++ written'.flatMap Written.tokens) :
    written = written' := by
  have hstart : ∀ {tok toks} {ws : List Written}, ws.flatMap Written.tokens = tok :: toks →
      tok.type ≠ tokWord := by
    intro tok toks ws hws hword
    cases ws with
    | nil => cases hws
    | cons w ws =>
      obtain ⟨first, rest, hcons, hfirst⟩ := w.tokens_eq_cons
      rw [List.flatMap_cons, hcons] at hws
      rw [(List.cons.inj hws).1, hword] at hfirst
      exact absurd hfirst (by decide)
  induction words generalizing words' with
  | nil =>
    cases words' with
    | nil => exact eq_of_flatMap_tokens h
    | cons word' words' => exact absurd (hwords' word' List.mem_cons_self) (hstart h)
  | cons word words ih =>
    cases words' with
    | nil => exact absurd (hwords word List.mem_cons_self) (hstart h.symm)
    | cons word' words' =>
      exact ih (List.forall_mem_cons.mp hwords).2 (List.forall_mem_cons.mp hwords').2
        (List.cons.inj h).2

section

variable {σ : Type} [TokenSource σ] {p p' : ParserState σ}

/-- What the call of `parse_command` has taken is some words and some redirections, and the
redirections of the command are these, in order. -/
def ParseCall.RedirectionsAsWritten (c : ParseCall σ) : Prop :=
  ∀ cmd invalid, c.node = .cmd cmd invalid → ∃ words written,
    Takes c.before (words ++ written.flatMap Written.tokens) c.after ∧
      (∀ tok ∈ words, tok.type = tokWord) ∧ List.Forall₂ Written.Means written cmd.redir

theorem forall₂_means_iff {written : List Written} {rs : List Redirection}
    (h : List.Forall₂ Written.Gives written rs) :
    List.Forall₂ Written.Means written rs ↔ ∀ w ∈ written, w.Fits := by
  induction h with
  | nil => simp
  | cons hgives _ ih =>
    rw [List.forall₂_cons, Written.means_iff hgives, ih, List.forall_mem_cons]

theorem isChain_numberFits_cons {tok : Token} {toks : List Token} (h : tok.type ≠ tokFd) :
    (tok :: toks).IsChain NumberFits ↔ toks.IsChain NumberFits :=
  ⟨List.IsChain.tail, fun hchain ↦ hchain.cons fun _ _ hfd ↦ absurd hfd h⟩

theorem isChain_numberFits_append {words : List Token} (h : ∀ tok ∈ words, tok.type ≠ tokFd)
    (toks : List Token) :
    (words ++ toks).IsChain NumberFits ↔ toks.IsChain NumberFits := by
  induction words with
  | nil => rfl
  | cons word words ih =>
    obtain ⟨hword, hwords⟩ := List.forall_mem_cons.mp h
    rw [List.cons_append, isChain_numberFits_cons hword, ih hwords]

theorem isChain_numberFits_written (w : Written) (toks : List Token) :
    (w.tokens ++ toks).IsChain NumberFits ↔ w.Fits ∧ toks.IsChain NumberFits := by
  have hop : w.operator.type ≠ tokFd := fun hc ↦ by
    have hop := w.operator_type
    rw [hc] at hop
    exact absurd hop (by decide)
  have htarget : w.target.type ≠ tokFd := by
    rw [w.target_type]
    decide
  rw [Written.tokens, Written.Fits]
  cases w.number with
  | none =>
    change (w.operator :: w.target :: toks).IsChain NumberFits ↔ _
    rw [isChain_numberFits_cons hop, isChain_numberFits_cons htarget]
    simp
  | some tok =>
    change (tok :: w.operator :: w.target :: toks).IsChain NumberFits ↔ _
    rw [List.isChain_cons_cons, isChain_numberFits_cons hop, isChain_numberFits_cons htarget]
    simp

theorem isChain_numberFits_flatMap (written : List Written) (toks : List Token) :
    (written.flatMap Written.tokens ++ toks).IsChain NumberFits ↔
      (∀ w ∈ written, w.Fits) ∧ toks.IsChain NumberFits := by
  induction written with
  | nil => simp
  | cons w written ih =>
    rw [List.flatMap_cons, List.append_assoc, isChain_numberFits_written, ih,
      List.forall_mem_cons, and_assoc]

/-- The redirections of a command are as they are written when every number of it is kept. -/
theorem redirectionsAsWritten_iff {c : ParseCall σ}
    (h : parseCommand c.before = .ok (c.node, c.after)) :
    c.before.lookedAt.IsChain NumberFits ↔
      c.RedirectionsAsWritten ∧ c.after.lookedAt.IsChain NumberFits := by
  rcases readsCommand_parseCommand h with
    ⟨-, hnull, hsame⟩ | ⟨-, cmd, invalid, words, written, hnode, hreads⟩
  · rw [hsame]
    refine (and_iff_right fun cmd invalid hcmd ↦ ?_).symm
    rw [hnull] at hcmd
    cases hcmd
  have hkept : c.RedirectionsAsWritten ↔ ∀ w ∈ written, w.Fits := by
    rw [← forall₂_means_iff hreads.gives]
    constructor
    · intro hall
      obtain ⟨words', written', htakes, hwords', hmeans⟩ := hall cmd invalid hnode
      have htoks := List.append_cancel_right (htakes.stream_eq.symm.trans hreads.takes.stream_eq)
      rwa [← eq_of_words_append hwords' hreads.words_type htoks]
    · intro hmeans cmd' invalid' hnode'
      cases hnode.symm.trans hnode'
      exact ⟨words, written, hreads.takes, hreads.words_type, hmeans⟩
  have hwords : ∀ tok ∈ words, tok.type ≠ tokFd := by
    intro tok htok
    rw [hreads.words_type tok htok]
    decide
  rw [lookedAt_of_readsCommand hreads, List.append_assoc, isChain_numberFits_append hwords,
    isChain_numberFits_flatMap, hkept]

theorem isChain_numberFits_covers {calls : List (ParseCall σ)} (h : Covers p calls p') :
    p.lookedAt.IsChain NumberFits ↔
      (∀ c ∈ calls, c.RedirectionsAsWritten) ∧ p'.lookedAt.IsChain NumberFits := by
  induction h with
  | nil h =>
    rw [lookedAt_of_takes_nil h]
    simp
  | @operator p _ _ _ hopens hone _ ih =>
    have hfd : p.gTok.type ≠ tokFd := fun hc ↦ by
      rw [hc] at hopens
      exact absurd hopens (by decide)
    rw [lookedAt_of_operator hopens hone, isChain_numberFits_cons hfd, ih]
  | command hbefore hcmd _ ih =>
    rw [lookedAt_of_takes_nil hbefore, redirectionsAsWritten_iff hcmd, ih, List.forall_mem_cons,
      and_assoc]

/-! ## Lines -/

theorem redirectionsAsWritten_line {s : σ} {p₁ : ParserState σ} {node : Ast}
    (h : LineRead s p p₁ p' node) :
    (∀ c ∈ lineCommands p, c.RedirectionsAsWritten) ↔
      (lookedAt (TokenSource.stream s)).IsChain NumberFits := by
  rcases h.stops with ⟨-, hlooked, hnone⟩ | ⟨-, hlooked, hstop⟩
  · have hcommands : lineCommands p = [] := by
      rw [lineCommands, linePipelines, hnone]
      rfl
    rw [hcommands, hlooked]
    exact ⟨fun _ ↦ .singleton _, fun _ _ hc ↦ absurd hc List.not_mem_nil⟩
  · rw [hlooked, isChain_numberFits_covers h.covers, lookedAt_of_stop hstop]
    exact (and_iff_left (.singleton _)).symm

end

/-- The commands of a tree come from the calls of `parse_command`, and the redirections of each are
those that are written in the line. -/
structure RedirectionsKept (line : CStr) (g : Token) (heap : ℕ → Bool) (node : Ast) : Prop where
  cmds : node.cmds = Ast.cmdsList
    ((lineCommands (⟨Lexer.init line, g, heap⟩ : ParserState Lexer)).map ParseCall.node)
  written : ∀ c ∈ lineCommands (⟨Lexer.init line, g, heap⟩ : ParserState Lexer),
    c.RedirectionsAsWritten

/-- The redirections of a line are kept exactly when every number written before one of them, in the
part of the line that is looked at, is an `int` and is not 0 before `>` or `>>`. -/
theorem redirectionsKept_iff {line : CStr} {g : Token} {heap : ℕ → Bool} {node : Ast}
    {p' : ParserState Lexer} (h : parserCreateAst ⟨Lexer.init line, g, heap⟩ = .ok (node, p')) :
    RedirectionsKept line g heap node ↔
      (lookedAt (TokenSource.stream (Lexer.init line))).IsChain NumberFits := by
  obtain ⟨p₁, hread⟩ := lineRead_parserCreateAst h
  rw [← redirectionsAsWritten_line hread]
  exact ⟨RedirectionsKept.written, fun hall ↦ ⟨cmds_parserCreateAst h, hall⟩⟩

theorem redirectionsKept_iff_stderr :
    ∃ (node : Ast) (p' : ParserState Lexer),
      parserCreateAst ⟨Lexer.init "a 2> f < g".toList, .operator tokEof, fun _ ↦ false⟩
        = .ok (node, p') ∧
      RedirectionsKept "a 2> f < g".toList (.operator tokEof) (fun _ ↦ false) node := by
  have heval : (parserCreateAst
      (⟨Lexer.init "a 2> f < g".toList, .operator tokEof, fun _ ↦ false⟩ :
        ParserState Lexer)).toOption.map (fun r ↦ r.2.gTok.type) = some tokEof := by
    decide +kernel
  obtain ⟨⟨node, p'⟩, hparse, -⟩ := exists_of_map_eq heval
  exact ⟨node, p', hparse, (redirectionsKept_iff hparse).mpr (by decide +kernel)⟩

/-- The number in `a 0> f` is taken for none. -/
theorem not_redirectionsKept : ¬∀ (line : CStr) (g : Token) (heap : ℕ → Bool) (node : Ast)
    (p' : ParserState Lexer), parserCreateAst ⟨Lexer.init line, g, heap⟩ = .ok (node, p') →
      RedirectionsKept line g heap node := by
  intro hall
  have heval : (parserCreateAst
      (⟨Lexer.init "a 0> f".toList, .operator tokEof, fun _ ↦ false⟩ :
        ParserState Lexer)).toOption.map (fun r ↦ r.2.gTok.type) = some tokEof := by
    decide +kernel
  obtain ⟨⟨node, p'⟩, hparse, -⟩ := exists_of_map_eq heval
  obtain ⟨p₁, hread⟩ := lineRead_parserCreateAst hparse
  have hfits := (redirectionsAsWritten_line hread).mp (hall _ _ _ _ _ hparse).written
  exact absurd hfits (by decide +kernel)

end Novash
