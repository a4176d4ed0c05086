import Novash.Parser.Calls

/-!
# How far the parser looks

The parser does not look beyond a redirection that stands where a command should, and gives up a
line that begins with a separator. `lookedAt` is the part of a line up to there, read off the tokens
alone, and what the functions of the parser take is taken from it.
-/

namespace Novash

open Foundations TokenType ParserState

/-! ## The part of a line that is read -/

/-- The tokens the parser looks at. Where a command is expected and a redirection stands, it stops;
`ready` says whether a command is expected now. -/
def lookedAtFrom (ready : Bool) : List Token → List Token
  | [] => []
  | tok :: toks =>
    if ready && startsRedirection tok.type then [tok]
    else tok :: lookedAtFrom (opensCommand tok.type) toks

/-- The tokens of a line that the parser looks at. A line that begins with a separator is given up
at once. -/
def lookedAt (toks : List Token) : List Token :=
  if toks.head?.any fun tok ↦ isSeparator tok.type then toks.take 1 else lookedAtFrom true toks

theorem lookedAtFrom_cons {ready : Bool} {tok : Token} {toks : List Token}
    (h : startsRedirection tok.type = false) :
    lookedAtFrom ready (tok :: toks) = tok :: lookedAtFrom (opensCommand tok.type) toks := by
  rw [lookedAtFrom, h, Bool.and_false, if_neg Bool.false_ne_true]

/-- Inside a command nothing stops the parser. -/
theorem lookedAtFrom_append {toks : List Token} (h : ∀ tok ∈ toks, opensCommand tok.type = false)
    (rest : List Token) :
    lookedAtFrom false (toks ++ rest) = toks ++ lookedAtFrom false rest := by
  induction toks with
  | nil => rfl
  | cons tok toks ih =>
    obtain ⟨htok, htoks⟩ := List.forall_mem_cons.mp h
    rw [List.cons_append, lookedAtFrom, Bool.false_and, if_neg Bool.false_ne_true, htok, ih htoks,
      List.cons_append]

section

variable {σ : Type} [TokenSource σ] {p p' : ParserState σ}

/-- What is looked at from a place where a command may begin. -/
def ParserState.lookedAt (p : ParserState σ) : List Token := lookedAtFrom true p.stream

theorem lookedAt_eq_cons (p : ParserState σ) : ∃ toks, p.lookedAt = p.gTok :: toks := by
  obtain ⟨toks, h⟩ := p.stream_eq_cons
  rw [ParserState.lookedAt, h, lookedAtFrom]
  split_ifs
  · exact ⟨_, rfl⟩
  · exact ⟨_, rfl⟩

theorem lookedAt_of_startsRedirection (h : startsRedirection p.gTok.type = true) :
    p.lookedAt = [p.gTok] := by
  obtain ⟨toks, hstream⟩ := p.stream_eq_cons
  rw [ParserState.lookedAt, hstream, lookedAtFrom, h, Bool.and_self, if_pos rfl]

theorem lookedAt_of_eof (h : p.gTok.type = tokEof) : p.lookedAt = [p.gTok] := by
  rw [ParserState.lookedAt, stream, if_pos h, lookedAtFrom_cons (by rw [h]; rfl)]
  rfl

theorem lookedAt_of_takes_nil (h : Takes p [] p') : p.lookedAt = p'.lookedAt := by
  rw [ParserState.lookedAt, h.stream_eq]
  rfl

theorem lookedAt_of_operator (hopens : opensCommand p.gTok.type = true)
    (h : Takes p [p.gTok] p') : p.lookedAt = p.gTok :: p'.lookedAt := by
  rw [ParserState.lookedAt, h.stream_eq, List.singleton_append,
    lookedAtFrom_cons (startsRedirection_of_opensCommand hopens), hopens]
  rfl

/-- The separators that follow an element are passed, and nothing else. -/
theorem takes_skipSeparators (h : skipSeparators p = .ok p') :
    ∃ seps, Takes p seps p' ∧ p.lookedAt = seps ++ p'.lookedAt ∧
      (seps = [] ↔ isSeparator p.gTok.type = false) ∧
        ∀ tok ∈ seps, isSeparator tok.type = true := by
  replace h := skipSeparators_run h
  induction h with
  | done hsep =>
    exact ⟨[], .refl rfl rfl, rfl, iff_of_true rfl hsep, fun _ h ↦ absurd h List.not_mem_nil⟩
  | separator hsep hnext _ ih =>
    obtain ⟨seps, htakes, hlooked, -, hseps⟩ := ih
    have hone := Takes.of_nextToken (ne_tokEof_of_isSeparator hsep) hnext
    refine ⟨_ :: seps, hone.trans htakes, ?_, by simp [hsep],
      List.forall_mem_cons.mpr ⟨hsep, hseps⟩⟩
    rw [lookedAt_of_operator (opensCommand_of_isSeparator hsep) hone, hlooked, List.cons_append]

/-- The number, the operator and the target of a redirection. -/
theorem Written.type_of_mem {w : Written} {tok : Token} (h : tok ∈ w.tokens) :
    tok.type = tokFd ∨ isRedirectionOperator tok.type = true ∨ tok.type = tokWord := by
  rcases List.mem_append.mp h with h | h
  · exact Or.inl (w.number_type tok (by simpa using h))
  · rcases List.mem_cons.mp h with rfl | h
    · exact Or.inr (Or.inl w.operator_type)
    · rw [List.mem_singleton.mp h]
      exact Or.inr (Or.inr w.target_type)

theorem Written.tokens_eq_cons (w : Written) :
    ∃ tok toks, w.tokens = tok :: toks ∧ startsRedirection tok.type = true := by
  rw [Written.tokens]
  cases hnumber : w.number with
  | none =>
    refine ⟨w.operator, [w.target], rfl, ?_⟩
    exact startsRedirection_of_operator w.operator_type
  | some tok =>
    refine ⟨tok, [w.operator, w.target], rfl, ?_⟩
    rw [w.number_type tok hnumber]
    rfl

/-- No token of a command is an operator between commands. -/
theorem ReadsCommand.not_opens {cmd : CmdNode} {words : List Token} {written : List Written}
    (h : ReadsCommand p p' cmd words written) :
    ∀ tok ∈ words ++ written.flatMap Written.tokens, opensCommand tok.type = false := by
  intro tok htok
  rcases List.mem_append.mp htok with htok | htok
  · rw [h.words_type tok htok]
    rfl
  · obtain ⟨w, -, htok⟩ := List.mem_flatMap.mp htok
    rcases w.type_of_mem htok with hfd | hop | hword
    · rw [hfd]
      rfl
    · exact opensCommand_of_redirectionOperator hop
    · rw [hword]
      rfl

theorem lookedAt_of_readsCommand {cmd : CmdNode} {words : List Token} {written : List Written}
    (h : ReadsCommand p p' cmd words written) :
    p.lookedAt = words ++ written.flatMap Written.tokens ++ p'.lookedAt := by
  -- after a command stands no redirection, so it does not matter that one could be expected
  have hready : lookedAtFrom true p'.stream = lookedAtFrom false p'.stream := by
    obtain ⟨toks, hstream⟩ := p'.stream_eq_cons
    rw [hstream, lookedAtFrom_cons h.stops, lookedAtFrom_cons h.stops]
  obtain ⟨word, words', rfl⟩ : ∃ word words', words = word :: words' := by
    cases words with
    | nil => exact absurd h.first (by simp)
    | cons word words' => exact ⟨word, words', rfl⟩
  have hword := h.words_type word List.mem_cons_self
  have hopens := h.not_opens
  rw [List.cons_append] at hopens
  rw [ParserState.lookedAt, ParserState.lookedAt, hready, h.takes.stream_eq, List.cons_append,
    List.cons_append, lookedAtFrom_cons (by rw [hword]; rfl),
    hopens word List.mem_cons_self,
    lookedAtFrom_append fun tok htok ↦ hopens tok (List.mem_cons_of_mem _ htok)]
  rfl

theorem stream_line {s : σ} {g : Token} {heap : ℕ → Bool} (h : nextToken ⟨s, g, heap⟩ = .ok p) :
    TokenSource.stream s = p.stream := by
  have hne : (Token.operator tokSemi).type ≠ tokEof := by decide
  have hup := stream_of_nextToken (p := ⟨s, .operator tokSemi, heap⟩) hne h
  rw [stream, if_neg hne] at hup
  exact (List.cons.inj hup).2

/-- The part of a line that is looked at, from its first token. -/
theorem lookedAt_line {s : σ} {g : Token} {heap : ℕ → Bool}
    (h : nextToken ⟨s, g, heap⟩ = .ok p) : lookedAt (TokenSource.stream s) =
      if isSeparator p.gTok.type then [p.gTok] else p.lookedAt := by
  obtain ⟨toks, hcons⟩ := p.stream_eq_cons
  rw [lookedAt, ParserState.lookedAt, stream_line h, hcons]
  rfl

theorem parseConditional_of_startsRedirection (h : startsRedirection p.gTok.type = true) :
    parseConditional p = .ok (.null, p.newNode.2) := by
  have hkind : p.gTok.type ≠ tokWord ∧ p.gTok.type ≠ tokPipe ∧ condOpOf p.gTok.type = none := by
    cases ht : p.gTok.type <;> rw [ht] at h <;>
      first | exact ⟨by decide, by decide, rfl⟩ | exact absurd h (by decide)
  exact parseConditional_of_null hkind.1 hkind.2.1 hkind.2.2

theorem parseConditional_of_separator (h : isSeparator p.gTok.type = true) :
    parseConditional p = .ok (.null, p.newNode.2) := by
  have hkind := kind_of_separator h
  exact parseConditional_of_null hkind.1 hkind.2.1 hkind.2.2

/-- The loop over the elements ends at `TOK_EOF` or at a redirection. -/
theorem stop_of_sequenceLoop {nodes : List Ast} (hsep : isSeparator p.gTok.type = false)
    (h : sequenceLoop p = .ok (nodes, p')) :
    p'.gTok.type = tokEof ∨ startsRedirection p'.gTok.type = true := by
  replace h := sequenceLoop_run h
  induction h with
  | @null p node p₁ hcond hnull =>
    obtain ⟨hsame, hword, hpipe, hop⟩ := (parseConditional_reads hcond).2 hnull
    rw [hsame]
    by_cases heof : p.gTok.type = tokEof
    · exact Or.inl heof
    · exact Or.inr (startsRedirection_of_null heof hsep hword hpipe hop)
  | last _ _ _ heof₂ => exact Or.inl heof₂
  | element _ _ hskip _ _ ih => exact ih (skipSeparators_reads hskip).2

theorem lookedAt_of_stop (h : p.gTok.type = tokEof ∨ startsRedirection p.gTok.type = true) :
    p.lookedAt = [p.gTok] :=
  h.elim lookedAt_of_eof lookedAt_of_startsRedirection

/-- A line that is parsed: the part that is looked at consists of what the commands of the line and
the operators between them take, and of the token at which the parser stops. -/
structure LineRead (s : σ) (p p₁ p' : ParserState σ) (node : Ast) : Prop where
  next : nextToken p = .ok p₁
  elements : node.elements = (lineElements p).map ParseCall.node
  pipelines : Ast.pipelinesList node.elements = (linePipelines p).map ParseCall.node
  covers : Covers p₁ (lineCommands p) p'
  stops : (isSeparator p₁.gTok.type = true ∧ lookedAt (TokenSource.stream s) = [p₁.gTok] ∧
      lineElements p = []) ∨
    (isSeparator p₁.gTok.type = false ∧ lookedAt (TokenSource.stream s) = p₁.lookedAt ∧
      (p'.gTok.type = tokEof ∨ startsRedirection p'.gTok.type = true))

theorem lineRead_parserCreateAst {s : σ} {g : Token} {heap : ℕ → Bool} {node : Ast}
    (h : parserCreateAst ⟨s, g, heap⟩ = .ok (node, p')) :
    ∃ p₁, LineRead s ⟨s, g, heap⟩ p₁ p' node := by
  have hcalls := callsOf_parserCreateAst h
  obtain ⟨p₁, hnext, hcovers⟩ := hcalls.covers
  have hlooked := lookedAt_line hnext
  refine ⟨p₁, hnext, hcalls.elements, hcalls.pipelines, hcovers, ?_⟩
  by_cases hsep : isSeparator p₁.gTok.type = true
  · have hcond : parseConditional p₁.newNode.2 = _ := parseConditional_of_separator hsep
    refine Or.inl ⟨hsep, by rw [hlooked, if_pos hsep], ?_⟩
    rw [lineElements, hnext]
    exact produce_of_none (sequenceTurn_of_isNull hcond rfl)
  have hnotsep : isSeparator p₁.gTok.type = false := by simpa using hsep
  refine Or.inr ⟨hnotsep, by rw [hlooked, if_neg hsep], ?_⟩
  obtain ⟨p₂, hnext₂, h⟩ := bind_ok.mp h
  cases hnext.symm.trans hnext₂
  split_ifs at h with heof
  · cases h
    exact Or.inl heof
  obtain ⟨⟨nodes, p₃⟩, hloop, h⟩ := bind_ok.mp h
  cases h
  exact stop_of_sequenceLoop (p := p₁.newNode.2) hnotsep hloop

end

end Novash
