import Novash.Parser.LookedAt

/-!
# When the parser gives up

The parser exits when a `|` or the operator of a redirection is not followed by a word, and for no
other reason: the third of its messages, for a number that no operator follows, is never printed,
since the lexer takes a number for one only in front of `<` or `>`. It crashes only when the lexer
does.

What each function of the parser does to this question is said in one statement for both outcomes
(`Carries`, `Fails`): either the question is the same before and after, or the answer is known.
-/

namespace Novash

open Foundations TokenType ParserState

/-! ## Numbers before operators -/

/-- A source that gives a number only in front of the operator of a redirection. -/
class FdSource (σ : Type) [TokenSource σ] : Prop where
  followed : ∀ {s s' : σ} {tok : Token}, TokenSource.next s = some (tok, s') → tok.type = tokFd →
    ∃ tok' s'', TokenSource.next s' = some (tok', s'') ∧ isRedirectionOperator tok'.type = true

theorem peek_of_switchToken {lex lex' : Lexer} {tok : Token}
    (h : switchToken lex = some (tok, lex')) (hfd : tok.type = tokFd) :
    lex'.peek = '>' ∨ lex'.peek = '<' := by
  unfold switchToken at h
  dsimp only at h
  split_ifs at h
  all_goals try (cases h; exact absurd hfd (by decide))
  obtain ⟨⟨word, lex₁⟩, hword, hres⟩ := Option.map_eq_some_iff.mp h
  obtain ⟨⟨parts, lex₂⟩, -, hw⟩ := Option.map_eq_some_iff.mp hword
  cases hw
  dsimp only at hres
  split_ifs at hres with hnumber
  · cases hres
    simpa using (Bool.and_eq_true_iff.mp hnumber).2
  · cases hres
    cases hfd

theorem operator_of_peek {lex : Lexer} (h : lex.peek = '>' ∨ lex.peek = '<') :
    ∃ tok lex', lexerNextToken lex = some (tok, lex') ∧ isRedirectionOperator tok.type = true := by
  have hskip : skipWhitespaces lex = lex := by
    have hne : lex.peek ≠ '\x00' := by
      rcases h with h | h <;> rw [h] <;> decide
    obtain ⟨c, t, hr⟩ := Lexer.rest_of_pos_lt (Lexer.pos_lt_of_peek hne)
    have hspace : isspace c = false := by
      rw [Lexer.peek_of_rest hr] at h
      rcases h with rfl | rfl <;> decide
    rw [skipWhitespaces, Lexer.advanceWhile, hr, List.takeWhile_cons_of_neg (by simp [hspace])]
    rfl
  rw [lexerNextToken, hskip, switchToken]
  rcases h with h | h
  · simp only [h, Char.reduceEq, if_false, if_true]
    split_ifs
    · exact ⟨_, _, rfl, rfl⟩
    · exact ⟨_, _, rfl, rfl⟩
  · simp only [h, Char.reduceEq, if_false, if_true]
    exact ⟨_, _, rfl, rfl⟩

instance : FdSource Lexer where
  followed h hfd := operator_of_peek (peek_of_switchToken h hfd)

section

variable {σ : Type} [TokenSource σ]

namespace ParserState

/-- If the lookahead is a number, the token after it is an operator. -/
def FdFollowed (p : ParserState σ) : Prop :=
  p.gTok.type = tokFd → ∃ tok s, TokenSource.next p.lex = some (tok, s) ∧
    isRedirectionOperator tok.type = true

/-- The source comes to its end without crashing. -/
def Ends (p : ParserState σ) : Prop := ∃ tok ∈ p.stream, tok.type = tokEof

end ParserState

/-! ## What the parser complains about -/

/-- A word must follow. -/
def needsWord (type : TokenType) : Bool := type = tokPipe || isRedirectionOperator type

def WordIfNeeded (tok tok' : Token) : Prop := needsWord tok.type = true → tok'.type = tokWord

/-- The words that are needed are there, in the part that is looked at. -/
def ParserState.Sound (ready : Bool) (p : ParserState σ) : Prop :=
  (lookedAtFrom ready p.stream).IsChain WordIfNeeded

/-- The parser has come from `p` to `p'` without learning whether it will complain. -/
structure Carries (ready : Bool) (p : ParserState σ) (ready' : Bool) (p' : ParserState σ) :
    Prop where
  fd : p.FdFollowed → p'.FdFollowed
  ends : p.Ends → p'.Ends
  sound : p.Sound ready ↔ p'.Sound ready'

/-- The parser has stopped: it complains, or the source has crashed. -/
def Fails (ready : Bool) (p : ParserState σ) : ParseStop → Prop
  | .exit (.unexpectedToken _) => False
  | .exit .expectedFilename => ¬p.Sound ready
  | .exit .expectedCommand => ¬p.Sound ready
  | .crash => ¬p.Ends ∧ p.Sound ready

section

variable {p p' p'' : ParserState σ} {ready ready' ready'' : Bool} {e : ParseStop}

theorem Carries.refl (ready : Bool) (p : ParserState σ) : Carries ready p ready p :=
  ⟨id, id, Iff.rfl⟩

theorem Carries.newNode (ready : Bool) (p : ParserState σ) :
    Carries ready p ready p.newNode.2 := ⟨id, id, Iff.rfl⟩

theorem Carries.trans (h : Carries ready p ready' p') (h' : Carries ready' p' ready'' p'') :
    Carries ready p ready'' p'' :=
  ⟨h'.fd ∘ h.fd, h'.ends ∘ h.ends, h.sound.trans h'.sound⟩

theorem Carries.fails (h : Carries ready p ready' p') (h' : Fails ready' p' e) :
    Fails ready p e := by
  cases e with
  | exit error =>
    cases error with
    | unexpectedToken => exact h'
    | expectedFilename => exact fun hsound ↦ h' (h.sound.mp hsound)
    | expectedCommand => exact fun hsound ↦ h' (h.sound.mp hsound)
  | crash => exact ⟨fun hends ↦ h'.1 (h.ends hends), h.sound.mpr h'.2⟩

/-- A step that carries, and what comes after it. -/
theorem outcome_bind {α β : Type} {x : Except ParseStop (α × ParserState σ)}
    {f : α × ParserState σ → Except ParseStop (β × ParserState σ)}
    (h : Outcome (fun r ↦ Carries ready p ready' r.2) (Fails ready p) x)
    (hf : ∀ r, Carries ready p ready' r.2 →
      Outcome (fun r' ↦ Carries ready' r.2 ready'' r'.2) (Fails ready' r.2) (f r)) :
    Outcome (fun r ↦ Carries ready p ready'' r.2) (Fails ready p) (x >>= f) :=
  h.bind fun r hr ↦ (hf r hr).mono (fun _ hr' ↦ hr.trans hr') fun _ he ↦ hr.fails he

/-- A redirection cannot begin here, so it does not matter whether it could. -/
theorem sound_iff_of_not_starts (h : startsRedirection p.gTok.type = false) (ready ready' : Bool) :
    p.Sound ready ↔ p.Sound ready' := by
  obtain ⟨toks, hstream⟩ := p.stream_eq_cons
  rw [ParserState.Sound, ParserState.Sound, hstream, lookedAtFrom_cons h, lookedAtFrom_cons h]

/-! ## One token -/

theorem lookedAtFrom_eq_cons (ready : Bool) (p : ParserState σ) :
    ∃ toks, lookedAtFrom ready p.stream = p.gTok :: toks := by
  obtain ⟨toks, h⟩ := p.stream_eq_cons
  rw [h, lookedAtFrom]
  split_ifs
  · exact ⟨_, rfl⟩
  · exact ⟨_, rfl⟩

theorem fails_of_crash (hp : p.gTok.type ≠ tokEof) (h : p.stream = [p.gTok]) :
    Fails ready p .crash := by
  constructor
  · rintro ⟨tok, htok, heof⟩
    rw [h] at htok
    exact hp (List.mem_singleton.mp htok ▸ heof)
  · rw [ParserState.Sound, h, lookedAtFrom]
    split_ifs
    · exact .singleton _
    · exact .singleton _

theorem ends_of_stream_eq (hp : p.gTok.type ≠ tokEof) (h : p.stream = p.gTok :: p'.stream) :
    p.Ends → p'.Ends := by
  rintro ⟨tok, htok, heof⟩
  rw [h] at htok
  rcases List.mem_cons.mp htok with rfl | htok
  · exact absurd heof hp
  · exact ⟨tok, htok, heof⟩

theorem sound_of_stream_eq (hstop : (ready && startsRedirection p.gTok.type) = false)
    (h : p.stream = p.gTok :: p'.stream) :
    p.Sound ready ↔
      WordIfNeeded p.gTok p'.gTok ∧ p'.Sound (opensCommand p.gTok.type) := by
  obtain ⟨toks, hcons⟩ := lookedAtFrom_eq_cons (opensCommand p.gTok.type) p'
  rw [ParserState.Sound, ParserState.Sound, h, lookedAtFrom, hstop, if_neg Bool.false_ne_true,
    hcons, List.isChain_cons_cons]

theorem word_of_parseCommand {node : Ast} (h : parseCommand p = .ok (node, p'))
    (hnull : node.isNull = false) : p.gTok.type = tokWord := by
  rcases readsCommand_parseCommand h with ⟨-, rfl, -⟩ | ⟨hword, -⟩
  · cases hnull
  · exact hword

variable [FdSource σ]

theorem fdFollowed_of_nextToken (h : nextToken p = .ok p') : p'.FdFollowed :=
  FdSource.followed (next_of_nextToken h)

/-- A token is taken, or the source crashes behind it. -/
theorem nextToken_outcome (hp : p.gTok.type ≠ tokEof) :
    Outcome (fun p' ↦ p.stream = p.gTok :: p'.stream ∧ p'.FdFollowed)
      (fun e ↦ e = .crash ∧ p.stream = [p.gTok]) (nextToken p) := by
  cases h : nextToken p with
  | ok p' => exact ⟨stream_of_nextToken hp h, fdFollowed_of_nextToken h⟩
  | error e =>
    unfold nextToken at h
    split at h
    · next hnone =>
      cases h
      refine ⟨rfl, ?_⟩
      rw [stream, if_neg hp, TokenSource.stream]
      split
      · rfl
      · next hsome => cases hnone.symm.trans hsome
    · cases h

/-- A token after which nothing in particular is needed. -/
theorem nextToken_carries (ready : Bool) (hp : p.gTok.type ≠ tokEof)
    (hstop : (ready && startsRedirection p.gTok.type) = false)
    (hneeds : needsWord p.gTok.type = false) :
    Outcome (Carries ready p (opensCommand p.gTok.type)) (Fails ready p) (nextToken p) := by
  refine (nextToken_outcome hp).mono (fun p' ⟨hstream, hfd⟩ ↦ ⟨fun _ ↦ hfd,
    ends_of_stream_eq hp hstream, ?_⟩) ?_
  · rw [sound_of_stream_eq hstop hstream]
    exact and_iff_right fun hc ↦ absurd (hneeds.symm.trans hc) (by decide)
  · rintro e ⟨rfl, hstream⟩
    exact fails_of_crash hp hstream

/-- A token after which a word is needed. -/
theorem nextToken_needs (ready : Bool) (hneeds : needsWord p.gTok.type = true)
    (hstop : (ready && startsRedirection p.gTok.type) = false) :
    Outcome (fun p' ↦ (p'.gTok.type = tokWord → Carries ready p (opensCommand p.gTok.type) p') ∧
      (p'.gTok.type ≠ tokWord → ¬p.Sound ready)) (Fails ready p) (nextToken p) := by
  have hp : p.gTok.type ≠ tokEof := fun hc ↦ by
    rw [hc] at hneeds
    exact absurd hneeds (by decide)
  refine (nextToken_outcome hp).mono (fun p' ⟨hstream, hfd⟩ ↦ ?_) ?_
  · have hsound := sound_of_stream_eq hstop hstream
    refine ⟨fun hword ↦ ⟨fun _ ↦ hfd, ends_of_stream_eq hp hstream, ?_⟩, fun hword h ↦ ?_⟩
    · rw [hsound]
      exact and_iff_right fun _ ↦ hword
    · exact hword ((hsound.mp h).1 hneeds)
  · rintro e ⟨rfl, hstream⟩
    exact fails_of_crash hp hstream

/-! ## Commands -/

theorem parseArguments_outcome (p : ParserState σ) :
    Outcome (fun r ↦ Carries false p false r.2) (Fails false p) (parseArguments p) := by
  fun_induction parseArguments p with
  | case1 p hword e hnext =>
    have hone := nextToken_carries false (p := p) (by rw [hword]; decide) rfl
      (by rw [hword]; rfl)
    exact hone.of_error hnext
  | case2 p hword p₁ hnext ih =>
    have hone := (nextToken_carries false (p := p) (by rw [hword]; decide) rfl
      (by rw [hword]; rfl)).of_ok hnext
    rw [hword] at hone
    exact (ih.mono (fun r hr ↦ hone.trans hr) fun e he ↦ hone.fails he).bind fun r hr ↦ hr
  | case3 p => exact .refl false p

theorem isRedirectionOperator_of_starts {type : TokenType} (h : startsRedirection type = true)
    (hfd : type ≠ tokFd) : isRedirectionOperator type = true := by
  cases type <;> first | rfl | exact absurd rfl hfd | exact absurd h (by decide)

/-- After the number, if there is one, stands an operator. -/
theorem parseFd_outcome (hfd : p.FdFollowed) (hstart : startsRedirection p.gTok.type = true) :
    Outcome (fun r ↦ Carries false p false r.2 ∧ isRedirectionOperator r.2.gTok.type = true)
      (Fails false p) (parseFd p) := by
  unfold parseFd
  split_ifs with hnumber
  · obtain ⟨tok, s, hnext, hop⟩ := hfd hnumber
    have hok : nextToken p = .ok { p with lex := s, gTok := tok } := by
      rw [nextToken]
      split
      · next hnone => cases hnext.symm.trans hnone
      · next hsome =>
        cases hnext.symm.trans hsome
        rfl
    have hone := (nextToken_carries false (p := p) (by rw [hnumber]; decide) rfl
      (by rw [hnumber]; rfl)).of_ok hok
    rw [hnumber] at hone
    rw [hok]
    exact ⟨hone, hop⟩
  · exact ⟨.refl false p, isRedirectionOperator_of_starts hstart hnumber⟩
theorem needsWord_of_operator {type : TokenType} (h : isRedirectionOperator type = true) :
    needsWord type = true := by
  rw [needsWord, h, Bool.or_true]

theorem parseOneRedirection_outcome (hfd : p.FdFollowed)
    (hstart : startsRedirection p.gTok.type = true) :
    Outcome (fun r ↦ Carries false p false r.2) (Fails false p) (parseOneRedirection p) := by
  refine (parseFd_outcome hfd hstart).bind fun ⟨fd, p₁⟩ ⟨hnumber, hop⟩ ↦ ?_
  dsimp only at hnumber hop ⊢
  refine Outcome.mono ?_ (fun r hr ↦ hnumber.trans hr) fun e he ↦ hnumber.fails he
  have hopens := opensCommand_of_redirectionOperator hop
  split
  · next hnone =>
    cases ht : p₁.gTok.type <;> rw [ht] at hop hnone <;>
      first | exact absurd hop (by decide) | cases hnone
  refine (nextToken_needs false (needsWord_of_operator hop) rfl).bind
    fun p₂ ⟨hword, hnot⟩ ↦ ?_
  rw [hopens] at hword
  split_ifs with hne
  · exact hnot hne
  have htarget := not_not.mp hne
  have hone := nextToken_carries false (p := p₂) (by rw [htarget]; decide) rfl
    (by rw [htarget]; rfl)
  rw [htarget] at hone
  refine Outcome.mono (hone.bind fun p₃ hp₃ ↦ ?_) (fun r hr ↦ (hword htarget).trans hr)
    fun e he ↦ (hword htarget).fails he
  exact hp₃

theorem parseRedirection_outcome (p : ParserState σ) (hfd : p.FdFollowed) :
    Outcome (fun r ↦ Carries false p false r.2 ∧ startsRedirection r.2.gTok.type = false)
      (Fails false p) (parseRedirection p) := by
  fun_induction parseRedirection p with
  | case1 p hstart e hone => exact (parseOneRedirection_outcome hfd hstart).of_error hone
  | case2 p hstart r p₁ hone ih =>
    have hcarries := (parseOneRedirection_outcome hfd hstart).of_ok hone
    have hrest : Outcome (fun r ↦ Carries false p false r.2 ∧
        startsRedirection r.2.gTok.type = false) (Fails false p) (parseRedirection p₁) :=
      (ih (hcarries.fd hfd)).mono (fun r hr ↦ ⟨hcarries.trans hr.1, hr.2⟩)
        fun e he ↦ hcarries.fails he
    exact hrest.bind fun r hr ↦ hr
  | case3 p hstart => exact ⟨.refl false p, by simpa using hstart⟩

theorem parseCommand_outcome (p : ParserState σ) :
    Outcome (fun r ↦ Carries true p true r.2) (Fails true p) (parseCommand p) := by
  unfold parseCommand
  split_ifs with hne
  · exact .refl true p
  have hword := not_not.mp hne
  have hstart : startsRedirection p.gTok.type = false := by
    rw [hword]
    rfl
  have hfd : p.FdFollowed := fun hc ↦ by
    rw [hword] at hc
    cases hc
  have hready : Carries true p false p := ⟨id, id, sound_iff_of_not_starts hstart true false⟩
  refine Outcome.mono ((parseArguments_outcome p).bind fun ⟨ws, p₁⟩ hargs ↦ ?_)
    (fun r hr ↦ hready.trans hr) fun e he ↦ hready.fails he
  dsimp only at hargs ⊢
  have hrest : Outcome (fun r ↦ Carries false p₁ true r.2) (Fails false p₁)
      (parseRedirection p₁) :=
    (parseRedirection_outcome p₁ (hargs.fd hfd)).mono (fun r ⟨hredir, hstop⟩ ↦
      ⟨hredir.fd, hredir.ends, hredir.sound.trans (sound_iff_of_not_starts hstop false true)⟩)
      fun e he ↦ he
  refine (hrest.mono (fun r hr ↦ hargs.trans hr) fun e he ↦ hargs.fails he).bind fun r hr ↦ ?_
  exact hr.trans (.newNode true r.2)

/-! ## Pipelines, conditionals and lines -/
/-- After a `|` a command is needed. -/
theorem nextToken_pipe_outcome (hpipe : p.gTok.type = tokPipe) :
    Outcome (fun p' ↦ (p'.gTok.type = tokWord → Carries true p true p') ∧
      (p'.gTok.type ≠ tokWord → ¬p.Sound true)) (Fails true p) (nextToken p) := by
  have hone := nextToken_needs true (p := p) (by rw [hpipe]; rfl) (by rw [hpipe]; rfl)
  rwa [hpipe] at hone

/-- After any other operator the parser goes on with whatever there is. -/
theorem nextToken_operator_outcome (hopens : opensCommand p.gTok.type = true)
    (hpipe : p.gTok.type ≠ tokPipe) :
    Outcome (Carries true p true) (Fails true p) (nextToken p) := by
  have hkind : p.gTok.type ≠ tokEof ∧ startsRedirection p.gTok.type = false ∧
      needsWord p.gTok.type = false := by
    cases ht : p.gTok.type <;> rw [ht] at hopens hpipe <;>
      first
      | exact ⟨by decide, rfl, rfl⟩
      | exact absurd rfl hpipe
      | exact absurd hopens (by decide)
  have hone := nextToken_carries true hkind.1 (by rw [hkind.2.1]; rfl) hkind.2.2
  rwa [hopens] at hone

theorem pipelineLoop_outcome (p : ParserState σ) :
    Outcome (fun r ↦ Carries true p true r.2) (Fails true p) (pipelineLoop p) := by
  fun_induction pipelineLoop p with
  | case1 p hpipe e hnext => exact (nextToken_pipe_outcome hpipe).of_error hnext
  | case2 p hpipe p₁ hnext e hcmd =>
    have hword : p₁.gTok.type = tokWord := by
      by_contra hne
      cases hcmd.symm.trans (parseCommand_of_not_word hne)
    have hcarries := ((nextToken_pipe_outcome hpipe).of_ok hnext).1 hword
    exact hcarries.fails ((parseCommand_outcome p₁).of_error hcmd)
  | case3 p hpipe p₁ hnext node p₂ hcmd hnull =>
    have hword : p₁.gTok.type ≠ tokWord := by
      rcases readsCommand_parseCommand hcmd with ⟨hword, -⟩ | ⟨-, cmd, invalid, -, -, rfl, -⟩
      · exact hword
      · cases hnull
    exact ((nextToken_pipe_outcome hpipe).of_ok hnext).2 hword
  | case4 p hpipe p₁ hnext node p₂ hcmd hnull ih =>
    have hword := word_of_parseCommand hcmd (by simpa using hnull)
    have hcarries := (((nextToken_pipe_outcome hpipe).of_ok hnext).1 hword).trans
      ((parseCommand_outcome p₁).of_ok hcmd)
    exact (ih.mono (fun r hr ↦ hcarries.trans hr) fun e he ↦ hcarries.fails he).bind
      fun r hr ↦ hr
  | case5 p => exact .refl true p

theorem parsePipeline_outcome (p : ParserState σ) :
    Outcome (fun r ↦ Carries true p true r.2) (Fails true p) (parsePipeline p) := by
  refine outcome_bind (parseCommand_outcome p) fun r _ ↦ ?_
  have hnew := Carries.newNode true r.2
  refine outcome_bind ((pipelineLoop_outcome r.2.newNode.2).mono (fun r' hr' ↦ hnew.trans hr')
    fun e he ↦ hnew.fails he) fun r' _ ↦ ?_
  dsimp only
  split_ifs
  · exact .refl true r'.2
  · exact .refl true r'.2

theorem conditionalLoop_outcome (left : Ast) (p : ParserState σ) :
    Outcome (fun r ↦ Carries true p true r.2) (Fails true p) (conditionalLoop left p) := by
  have hkind : ∀ {type : TokenType} {op : CondOp}, condOpOf type = some op →
      opensCommand type = true ∧ type ≠ tokPipe := by
    intro type op hop
    cases type <;> first | exact ⟨rfl, by decide⟩ | cases hop
  fun_induction conditionalLoop left p with
  | case1 left p => exact .refl true p
  | case2 left p op hop e hnext =>
    exact (nextToken_operator_outcome (hkind hop).1 (hkind hop).2).of_error hnext
  | case3 left p op hop p₁ hnext e hright =>
    have hcarries := (nextToken_operator_outcome (hkind hop).1 (hkind hop).2).of_ok hnext
    exact hcarries.fails ((parsePipeline_outcome p₁).of_error hright)
  | case4 left p op hop p₁ hnext right p₂ hright ih =>
    have hcarries := ((nextToken_operator_outcome (hkind hop).1 (hkind hop).2).of_ok hnext).trans
      (((parsePipeline_outcome p₁).of_ok hright).trans (.newNode true p₂))
    exact ih.mono (fun r hr ↦ hcarries.trans hr) fun e he ↦ hcarries.fails he

theorem parseConditional_outcome (p : ParserState σ) :
    Outcome (fun r ↦ Carries true p true r.2) (Fails true p) (parseConditional p) :=
  outcome_bind (parsePipeline_outcome p) fun r _ ↦ conditionalLoop_outcome r.1 r.2

theorem skipSeparators_outcome (p : ParserState σ) :
    Outcome (Carries true p true) (Fails true p) (skipSeparators p) := by
  have hkind : ∀ {type : TokenType}, isSeparator type = true →
      opensCommand type = true ∧ type ≠ tokPipe := by
    intro type hsep
    cases type <;> first | exact ⟨rfl, by decide⟩ | exact absurd hsep (by decide)
  fun_induction skipSeparators p with
  | case1 p hsep e hnext =>
    exact (nextToken_operator_outcome (hkind hsep).1 (hkind hsep).2).of_error hnext
  | case2 p hsep p₁ hnext ih =>
    have hcarries := (nextToken_operator_outcome (hkind hsep).1 (hkind hsep).2).of_ok hnext
    exact ih.mono (fun r hr ↦ hcarries.trans hr) fun e he ↦ hcarries.fails he
  | case3 p => exact .refl true p

theorem sequenceLoop_outcome (p : ParserState σ) :
    Outcome (fun r ↦ Carries true p true r.2) (Fails true p) (sequenceLoop p) := by
  fun_induction sequenceLoop p with
  | case1 p e hcond => exact (parseConditional_outcome p).of_error hcond
  | case2 p node p₁ hcond => exact (parseConditional_outcome p).of_ok hcond
  | case3 p node p₁ hcond _ e hskip =>
    have hcarries := (parseConditional_outcome p).of_ok hcond
    exact hcarries.fails ((skipSeparators_outcome p₁).of_error hskip)
  | case4 p node p₁ hcond _ p₂ hskip =>
    exact ((parseConditional_outcome p).of_ok hcond).trans
      ((skipSeparators_outcome p₁).of_ok hskip)
  | case5 p node p₁ hcond _ p₂ hskip _ ih =>
    have hcarries := ((parseConditional_outcome p).of_ok hcond).trans
      ((skipSeparators_outcome p₁).of_ok hskip)
    exact (ih.mono (fun r hr ↦ hcarries.trans hr) fun e he ↦ hcarries.fails he).bind
      fun r hr ↦ hr

/-- The source comes to its end without crashing. -/
def TokenSource.Ends (s : σ) : Prop := ∃ tok ∈ TokenSource.stream s, tok.type = tokEof

/-- Why a line is not parsed. -/
def LineFails (s : σ) : ParseStop → Prop
  | .exit (.unexpectedToken _) => False
  | .exit .expectedFilename => ¬(lookedAt (TokenSource.stream s)).IsChain WordIfNeeded
  | .exit .expectedCommand => ¬(lookedAt (TokenSource.stream s)).IsChain WordIfNeeded
  | .crash => ¬TokenSource.Ends s ∧ (lookedAt (TokenSource.stream s)).IsChain WordIfNeeded

omit [FdSource σ] in
theorem stream_eq_nil {s : σ} {g : Token} {heap : ℕ → Bool}
    (h : nextToken ⟨s, g, heap⟩ = .error e) : e = .crash ∧ TokenSource.stream s = [] := by
  unfold nextToken at h
  split at h
  · next hnone =>
    cases h
    refine ⟨rfl, ?_⟩
    rw [TokenSource.stream]
    split
    · rfl
    · next hsome => cases hnone.symm.trans hsome
  · cases h

omit [FdSource σ] in
theorem lineFails_of_fails {s : σ} (hlooked : lookedAt (TokenSource.stream s) = p.lookedAt)
    (hstream : TokenSource.stream s = p.stream) (h : Fails true p e) : LineFails s e := by
  have hsound : (lookedAt (TokenSource.stream s)).IsChain WordIfNeeded ↔ p.Sound true := by
    rw [hlooked]
    rfl
  have hends : TokenSource.Ends s ↔ p.Ends := by rw [TokenSource.Ends, hstream, ParserState.Ends]
  cases e with
  | exit error =>
    cases error with
    | unexpectedToken => exact h
    | expectedFilename => exact fun hc ↦ h (hsound.mp hc)
    | expectedCommand => exact fun hc ↦ h (hsound.mp hc)
  | crash => exact ⟨fun hc ↦ h.1 (hends.mp hc), hsound.mpr h.2⟩

theorem isChain_of_parserCreateAst {s : σ} {g : Token} {heap : ℕ → Bool}
    (hparse : parserCreateAst ⟨s, g, heap⟩ = .ok (node, p')) :
    (lookedAt (TokenSource.stream s)).IsChain WordIfNeeded := by
  obtain ⟨p₁, hread⟩ := lineRead_parserCreateAst hparse
  rcases hread.stops with ⟨-, hlooked, -⟩ | ⟨-, hlooked, hstop⟩
  · rw [hlooked]
    exact .singleton _
  obtain ⟨p₂, hnext, h⟩ := bind_ok.mp hparse
  cases hread.next.symm.trans hnext
  rw [hlooked]
  split_ifs at h with heof
  · rw [lookedAt_of_eof heof]
    exact .singleton _
  obtain ⟨⟨nodes, p₃⟩, hloop, h⟩ := bind_ok.mp h
  cases h
  have hcarries := (sequenceLoop_outcome p₁.newNode.2).of_ok hloop
  have hsound : p'.Sound true := by
    change p'.lookedAt.IsChain WordIfNeeded
    rw [lookedAt_of_stop hstop]
    exact .singleton _
  exact hcarries.sound.mpr hsound

theorem lineFails_of_parserCreateAst {s : σ} {g : Token} {heap : ℕ → Bool}
    (hparse : parserCreateAst ⟨s, g, heap⟩ = .error e) : LineFails s e := by
  rcases bind_error.mp hparse with hnext | ⟨p₁, hnext, h⟩
  · obtain ⟨rfl, hnil⟩ := stream_eq_nil hnext
    refine ⟨fun ⟨tok, htok, _⟩ ↦ ?_, ?_⟩
    · rw [hnil] at htok
      exact absurd htok List.not_mem_nil
    · rw [hnil]
      exact .nil
  have hlooked := lookedAt_line hnext
  split_ifs at h with heof
  · cases h
  rcases bind_error.mp h with hloop | ⟨r, -, h⟩
  · have hsep : ¬isSeparator p₁.gTok.type = true := fun hsep ↦ by
      have hcond : parseConditional p₁.newNode.2 = _ := parseConditional_of_separator hsep
      cases hloop.symm.trans (sequenceLoop_of_isNull hcond rfl)
    rw [if_neg hsep] at hlooked
    exact lineFails_of_fails hlooked (stream_line hnext)
      ((sequenceLoop_outcome p₁.newNode.2).of_error hloop)
  · cases h

/-- A line is parsed only if the words that are needed are there; the parser complains only if one
is not; and it crashes only if the source does, before anything is found missing. -/
theorem parserCreateAst_outcome (s : σ) (g : Token) (heap : ℕ → Bool) :
    Outcome (fun _ ↦ (lookedAt (TokenSource.stream s)).IsChain WordIfNeeded) (LineFails s)
      (parserCreateAst ⟨s, g, heap⟩) := by
  cases hparse : parserCreateAst ⟨s, g, heap⟩ with
  | ok r => exact isChain_of_parserCreateAst hparse
  | error e => exact lineFails_of_parserCreateAst hparse

end

end

end Novash
