import Novash.Parser.LookedAt

/-!
# Where one element ends and the next begins

The loop over the elements of a line asks for a separator between two of them only in the sense that
it skips those that are there. So it depends on `parse_conditional` whether it stops in front of a
separator. It does, except in one case: a command takes its words, then its redirections, and if a
word follows a redirection the command is over and the word begins an element of its own.
-/

namespace Novash

open Foundations TokenType ParserState

/-! ## A word after a target -/

/-- Somewhere a word stands directly behind the target of a redirection. -/
def wordAfterTarget : List Token → Bool
  | op :: target :: toks =>
    (isRedirectionOperator op.type && target.type = tokWord &&
      toks.head?.any fun tok ↦ tok.type = tokWord) || wordAfterTarget (target :: toks)
  | _ => false

theorem wordAfterTarget_cons {tok : Token} {toks : List Token}
    (h : isRedirectionOperator tok.type = false) :
    wordAfterTarget (tok :: toks) = wordAfterTarget toks := by
  cases toks with
  | nil => rfl
  | cons target toks => rw [wordAfterTarget, h, Bool.false_and, Bool.false_and, Bool.false_or]

theorem wordAfterTarget_append {words : List Token}
    (h : ∀ tok ∈ words, isRedirectionOperator tok.type = false) (toks : List Token) :
    wordAfterTarget (words ++ toks) = wordAfterTarget toks := by
  induction words with
  | nil => rfl
  | cons word words ih =>
    obtain ⟨hword, hwords⟩ := List.forall_mem_cons.mp h
    rw [List.cons_append, wordAfterTarget_cons hword, ih hwords]

/-- One redirection, with what stands behind it. -/
theorem wordAfterTarget_written (w : Written) (toks : List Token) :
    wordAfterTarget (w.tokens ++ toks) =
      ((toks.head?.any fun tok ↦ tok.type = tokWord) || wordAfterTarget toks) := by
  have hnumber : ∀ tok ∈ w.number.toList, isRedirectionOperator tok.type = false := by
    intro tok htok
    rw [w.number_type tok (by simpa using htok)]
    rfl
  have htarget : isRedirectionOperator w.target.type = false := by
    rw [w.target_type]
    rfl
  rw [Written.tokens, List.append_assoc, wordAfterTarget_append hnumber]
  change wordAfterTarget (w.operator :: w.target :: toks) = _
  rw [wordAfterTarget, w.operator_type, wordAfterTarget_cons htarget]
  simp [w.target_type]

/-- Of several redirections only the last one can have a word behind it. -/
theorem wordAfterTarget_flatMap (written : List Written) {toks : List Token}
    (hne : written ≠ []) : wordAfterTarget (written.flatMap Written.tokens ++ toks) =
      ((toks.head?.any fun tok ↦ tok.type = tokWord) || wordAfterTarget toks) := by
  induction written with
  | nil => exact absurd rfl hne
  | cons w written ih =>
    rw [List.flatMap_cons, List.append_assoc, wordAfterTarget_written]
    cases written with
    | nil => rfl
    | cons w' written =>
      have hhead : ((((w' :: written).flatMap Written.tokens ++ toks).head?).any
          fun tok ↦ tok.type = tokWord) = false := by
        obtain ⟨tok, rest, hcons, hstart⟩ := w'.tokens_eq_cons
        rw [List.flatMap_cons, hcons, List.cons_append, List.cons_append, List.head?_cons,
          Option.any_some]
        exact decide_eq_false fun hword ↦ by rw [hword] at hstart; exact absurd hstart (by decide)
      rw [hhead, Bool.false_or, ih (List.cons_ne_nil _ _)]

section

variable {σ : Type} [TokenSource σ] {p p' : ParserState σ} {node : Ast}

/-- A command has a word after a target if and only if it is followed by a word. -/
theorem wordAfterTarget_parseCommand (h : parseCommand p = .ok (node, p')) :
    wordAfterTarget p.lookedAt =
      (decide (p'.gTok.type = tokWord) || wordAfterTarget p'.lookedAt) := by
  rcases readsCommand_parseCommand h with ⟨hword, -, rfl⟩ | ⟨-, cmd, _, words, written, -, hreads⟩
  · rw [decide_eq_false hword, Bool.false_or]
  obtain ⟨toks, hcons⟩ := lookedAt_eq_cons p'
  have hwords : ∀ tok ∈ words, isRedirectionOperator tok.type = false := by
    intro tok htok
    rw [hreads.words_type tok htok]
    rfl
  rw [lookedAt_of_readsCommand hreads, List.append_assoc, wordAfterTarget_append hwords]
  by_cases hnil : written = []
  · rw [hnil, decide_eq_false (hreads.word hnil)]
    rfl
  · rw [wordAfterTarget_flatMap written hnil, hcons]
    rfl

/-- In a pipeline, or in a chain of them, only the last command can be followed by a word. -/
theorem wordAfterTarget_joined {calls : List (ParseCall σ)} (h : Joined p calls p') :
    wordAfterTarget p.lookedAt =
      (decide (p'.gTok.type = tokWord) || wordAfterTarget p'.lookedAt) := by
  induction h with
  | one hbefore hcmd hafter =>
    rw [lookedAt_of_takes_nil hbefore, wordAfterTarget_parseCommand hcmd,
      lookedAt_of_takes_nil hafter, hafter.gTok_eq]
  | @cons _ p₁ p' c _ hbefore hcmd hjoins hone _ ih =>
    have hkind : c.after.gTok.type ≠ tokWord ∧ isRedirectionOperator c.after.gTok.type = false := by
      cases ht : c.after.gTok.type <;> rw [ht] at hjoins <;>
        first | exact ⟨by decide, rfl⟩ | exact absurd hjoins (by decide)
    rw [lookedAt_of_takes_nil hbefore, wordAfterTarget_parseCommand hcmd, decide_eq_false hkind.1,
      Bool.false_or, lookedAt_of_operator (opensCommand_of_joins hjoins) hone,
      wordAfterTarget_cons hkind.2, ih]

theorem wordAfterTarget_singleton (tok : Token) : wordAfterTarget [tok] = false := rfl

/-! ## Separators -/

/-- From the end of one element to the beginning of the next there is a separator. -/
def Separated (c c' : ParseCall σ) : Prop :=
  ∃ seps, c.after.stream = seps ++ c'.before.stream ∧ ∃ tok ∈ seps, isSeparator tok.type = true

theorem Separated.length_lt {c c' : ParseCall σ} (h : Separated c c') :
    c'.before.stream.length < c.after.stream.length := by
  obtain ⟨seps, hstream, sep, hsep, -⟩ := h
  rw [hstream, List.length_append]
  have := List.length_pos_of_mem hsep
  omega

theorem wordAfterTarget_separators {seps : List Token}
    (h : ∀ tok ∈ seps, isSeparator tok.type = true) (toks : List Token) :
    wordAfterTarget (seps ++ toks) = wordAfterTarget toks := by
  refine wordAfterTarget_append (fun tok htok ↦ ?_) toks
  have hsep := h tok htok
  cases ht : tok.type <;> rw [ht] at hsep <;> first | rfl | exact absurd hsep (by decide)

theorem before_of_head {c : ParseCall σ} (h : c ∈ (sequenceElements p).head?) : c.before = p := by
  rw [sequenceElements] at h
  cases hturn : sequenceTurn p with
  | none =>
    rw [produce_of_none hturn] at h
    cases h
  | some turn =>
    obtain ⟨c', p₁⟩ := turn
    rw [produce_of_some hturn] at h
    cases h
    exact (sequenceTurn_eq_some.mp hturn).1

/-- A word begins an element. -/
theorem sequenceElements_ne_nil {nodes : List Ast} (hword : p.gTok.type = tokWord)
    (h : SequenceRun p nodes p') : sequenceElements p ≠ [] := by
  have hread : ∀ {node p₁ p₂}, parseConditional p = .ok (node, p₁) → node.isNull = false →
      skipSeparators p₁ = .ok p₂ → sequenceElements p ≠ [] := by
    intro node p₁ p₂ hcond hnull hskip
    have hturn : sequenceTurn p = some (⟨p, node, p₁⟩, p₂) :=
      sequenceTurn_eq_some.mpr ⟨rfl, hcond, hnull, hskip⟩
    rw [sequenceElements, produce_of_some hturn]
    exact List.cons_ne_nil _ _
  cases h with
  | null hcond hnull => exact absurd hword ((parseConditional_reads hcond).2 hnull).2.1
  | last hcond hnull hskip => exact hread hcond hnull hskip
  | element hcond hnull hskip => exact hread hcond hnull hskip

/-- Where an element is not followed by a separator, it is followed by a word, or the parser
stops. -/
theorem startsRedirection_of_stop {type : TokenType} (heof : type ≠ tokEof) (hword : type ≠ tokWord)
    (hsep : isSeparator type = false) (hjoins : joinsCommands type = false) :
    startsRedirection type = true := by
  cases type <;> first | rfl | contradiction

/-- Where separators lead to something else than a word, there was none before them. -/
theorem not_word_of_separators {p p' : ParserState σ} {seps : List Token} (h : Takes p seps p')
    (hseps : ∀ tok ∈ seps, isSeparator tok.type = true) (hend : p'.gTok.type ≠ tokWord) :
    p.gTok.type ≠ tokWord := by
  cases seps with
  | nil =>
    rw [← h.gTok_eq]
    exact hend
  | cons sep seps =>
    rw [← h.head_eq]
    exact (kind_of_separator (hseps sep List.mem_cons_self)).1

/-- Before a redirection no element begins. -/
theorem sequenceElements_of_startsRedirection (h : startsRedirection p.gTok.type = true) :
    sequenceElements p = [] := by
  have hcond := parseConditional_of_startsRedirection h
  rw [sequenceElements, produce_of_none (sequenceTurn_of_isNull hcond rfl)]

/-- An element that begins where another one ended is not separated from it. -/
theorem not_separated_of_takes_nil {c c' : ParseCall σ} (h : Takes c.after [] p)
    (hc' : c' ∈ (sequenceElements p).head?) : ¬Separated c c' := by
  rintro ⟨seps, hstream, sep, hmem, -⟩
  rw [before_of_head hc', h.stream_eq] at hstream
  have hempty : seps = [] := List.self_eq_append_left.mp hstream
  rw [hempty] at hmem
  exact absurd hmem List.not_mem_nil

theorem separated_sequenceLoop {nodes : List Ast} (hsep : isSeparator p.gTok.type = false)
    (h : sequenceLoop p = .ok (nodes, p')) :
    (sequenceElements p).IsChain Separated ↔ wordAfterTarget p.lookedAt = false := by
  replace h := sequenceLoop_run h
  induction h with
  | @null p node p₁ hcond hnull =>
    rw [sequenceElements, produce_of_none (sequenceTurn_of_isNull hcond hnull)]
    refine ⟨fun _ ↦ ?_, fun _ ↦ .nil⟩
    obtain ⟨-, hword, hpipe, hop⟩ := (parseConditional_reads hcond).2 hnull
    by_cases heof : p.gTok.type = tokEof
    · rw [lookedAt_of_eof heof, wordAfterTarget_singleton]
    · have hstart := startsRedirection_of_null heof hsep hword hpipe hop
      rw [lookedAt_of_startsRedirection hstart, wordAfterTarget_singleton]
  | @last p node p₁ p₂ hcond hnull hskip heof₂ =>
    have hturn : sequenceTurn p = some (⟨p, node, p₁⟩, p₂) :=
      sequenceTurn_eq_some.mpr ⟨rfl, hcond, hnull, hskip⟩
    obtain ⟨-, hjoined, -⟩ := calls_parseConditional hcond
    obtain ⟨seps, htakes, hlooked, -, hseps⟩ := takes_skipSeparators hskip
    have hword := not_word_of_separators htakes hseps (by rw [heof₂]; decide)
    rw [sequenceElements, produce_of_some hturn, produce_of_none (sequenceTurn_of_eof heof₂),
      wordAfterTarget_joined hjoined, decide_eq_false hword, hlooked,
      wordAfterTarget_separators hseps, lookedAt_of_eof heof₂]
    exact ⟨fun _ ↦ rfl, fun _ ↦ .singleton _⟩
  | @element p node p₁ p₂ nodes p' hcond hnull hskip heof₂ hrest ih =>
    have hturn : sequenceTurn p = some (⟨p, node, p₁⟩, p₂) :=
      sequenceTurn_eq_some.mpr ⟨rfl, hcond, hnull, hskip⟩
    obtain ⟨-, hjoined, hnotjoin⟩ := calls_parseConditional hcond
    obtain ⟨seps, htakes, hlooked, hnil, hseps⟩ := takes_skipSeparators hskip
    have hsep₂ := (skipSeparators_reads hskip).2
    have hchain : (sequenceElements p₂).IsChain Separated ↔ wordAfterTarget p₂.lookedAt = false :=
      ih hsep₂
    rw [sequenceElements, produce_of_some hturn, ← sequenceElements,
      wordAfterTarget_joined hjoined, List.isChain_cons, hchain]
    by_cases hsep : isSeparator p₁.gTok.type = true
    · -- the next element begins behind a separator
      have hword := (kind_of_separator hsep).1
      obtain ⟨sep, hmem⟩ := List.exists_mem_of_ne_nil seps fun hc ↦
        absurd (hsep.symm.trans (hnil.mp hc)) (by decide)
      rw [decide_eq_false hword, Bool.false_or, hlooked, wordAfterTarget_separators hseps]
      refine and_iff_right fun c' hc' ↦ ⟨seps, ?_, sep, hmem, hseps sep hmem⟩
      rw [before_of_head hc']
      exact htakes.stream_eq
    have hnotsep : isSeparator p₁.gTok.type = false := by simpa using hsep
    rw [hnil.mpr hnotsep] at htakes
    rw [lookedAt_of_takes_nil htakes, ← htakes.gTok_eq]
    by_cases hword : p₂.gTok.type = tokWord
    · -- the next element begins at once
      rw [decide_eq_true hword, Bool.true_or]
      refine ⟨fun hall ↦ ?_, fun h ↦ absurd h (by decide)⟩
      obtain ⟨c', hc'⟩ : ∃ c', (sequenceElements p₂).head? = some c' :=
        Option.ne_none_iff_exists'.mp fun hc ↦
          sequenceElements_ne_nil hword hrest (List.head?_eq_none_iff.mp hc)
      exact absurd (hall.1 c' hc') (not_separated_of_takes_nil htakes hc')
    · -- there is no next element
      have hstart := startsRedirection_of_stop heof₂ hword hsep₂ (htakes.gTok_eq ▸ hnotjoin)
      rw [decide_eq_false hword, Bool.false_or, sequenceElements_of_startsRedirection hstart]
      exact and_iff_right fun c' hc' ↦ by cases hc'

end

/-! ## Lines -/

/-- The elements of a tree come from the calls of `parse_conditional`, and between two neighbours
the line has a separator. -/
structure SeparatedElements (line : CStr) (g : Token) (heap : ℕ → Bool) (node : Ast) : Prop where
  elements : node.elements =
    (lineElements (⟨Lexer.init line, g, heap⟩ : ParserState Lexer)).map ParseCall.node
  separated :
    (lineElements (⟨Lexer.init line, g, heap⟩ : ParserState Lexer)).IsChain Separated

/-- A line is cut into elements at separators exactly when in the part of it that is looked at no
word follows the target of a redirection. -/
theorem separatedElements_iff {line : CStr} {g : Token} {heap : ℕ → Bool} {node : Ast}
    {p' : ParserState Lexer} (h : parserCreateAst ⟨Lexer.init line, g, heap⟩ = .ok (node, p')) :
    SeparatedElements line g heap node ↔
      wordAfterTarget (lookedAt (TokenSource.stream (Lexer.init line))) = false := by
  obtain ⟨p₁, hread⟩ := lineRead_parserCreateAst h
  have hchain : SeparatedElements line g heap node ↔
      (lineElements (⟨Lexer.init line, g, heap⟩ : ParserState Lexer)).IsChain Separated :=
    ⟨SeparatedElements.separated, fun hchain ↦ ⟨hread.elements, hchain⟩⟩
  rw [hchain]
  rcases hread.stops with ⟨-, hlooked, hnone⟩ | ⟨hsep, hlooked, hstop⟩
  · rw [hnone, hlooked, wordAfterTarget_singleton]
    exact ⟨fun _ ↦ rfl, fun _ ↦ .nil⟩
  have helements : lineElements (⟨Lexer.init line, g, heap⟩ : ParserState Lexer)
      = sequenceElements p₁.newNode.2 := by rw [lineElements, hread.next]
  obtain ⟨p₂, hnext, h⟩ := bind_ok.mp h
  cases hread.next.symm.trans hnext
  rw [hlooked, helements]
  split_ifs at h with heof
  · have hnone : sequenceElements p₁.newNode.2 = [] := produce_of_none (sequenceTurn_of_eof heof)
    rw [hnone, lookedAt_of_eof heof, wordAfterTarget_singleton]
    exact ⟨fun _ ↦ rfl, fun _ ↦ .nil⟩
  · obtain ⟨⟨nodes, p₃⟩, hloop, -⟩ := bind_ok.mp h
    exact separated_sequenceLoop (p := p₁.newNode.2) hsep hloop

theorem separatedElements_iff_redirection :
    ∃ (node : Ast) (p' : ParserState Lexer),
      parserCreateAst ⟨Lexer.init "a > f; b".toList, .operator tokEof, fun _ ↦ false⟩
        = .ok (node, p') ∧
      SeparatedElements "a > f; b".toList (.operator tokEof) (fun _ ↦ false) node := by
  have heval : (parserCreateAst
      (⟨Lexer.init "a > f; b".toList, .operator tokEof, fun _ ↦ false⟩ :
        ParserState Lexer)).toOption.map (fun r ↦ r.2.gTok.type) = some tokEof := by
    decide +kernel
  obtain ⟨⟨node, p'⟩, hparse, -⟩ := exists_of_map_eq heval
  exact ⟨node, p', hparse, (separatedElements_iff hparse).mpr (by decide +kernel)⟩

/-- In `a > f b` the word `b` begins a second element. -/
theorem not_separatedElements : ¬∀ (line : CStr) (g : Token) (heap : ℕ → Bool) (node : Ast)
    (p' : ParserState Lexer), parserCreateAst ⟨Lexer.init line, g, heap⟩ = .ok (node, p') →
      SeparatedElements line g heap node := by
  intro hall
  have heval : (parserCreateAst
      (⟨Lexer.init "a > f b".toList, .operator tokEof, fun _ ↦ false⟩ :
        ParserState Lexer)).toOption.map (fun r ↦ r.2.gTok.type) = some tokEof := by
    decide +kernel
  obtain ⟨⟨node, p'⟩, hparse, -⟩ := exists_of_map_eq heval
  have hchain := (hall _ _ _ _ _ hparse).separated
  -- the stream is as long behind the first element as in front of the second
  have hlengths : (lineElements (⟨Lexer.init "a > f b".toList, .operator tokEof, fun _ ↦ false⟩ :
      ParserState Lexer)).map (fun c ↦ (c.before.stream.length, c.after.stream.length))
      = [(5, 2), (2, 1)] := by
    decide +kernel
  have hshorter := (List.isChain_map (R := fun x y : ℕ × ℕ ↦ y.1 < x.2)
    fun c : ParseCall Lexer ↦ (c.before.stream.length, c.after.stream.length)).mpr
      (hchain.imp fun _ _ h ↦ h.length_lt)
  rw [hlengths] at hshorter
  exact absurd hshorter (by decide)

end Novash
