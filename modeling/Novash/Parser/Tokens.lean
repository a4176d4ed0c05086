import Novash.Parser.Words

/-!
# The tokens a command is made of

Parsing seen token by token. `Takes p toks p'` says that the parser goes from `p` to `p'` over the
tokens `toks`, and every function of the parser is described by what it takes: a command takes some
words and then redirections, each with its number, its operator and its target (`Written`).

The `stream` of a parser is its lookahead with everything after it, up to and including `TOK_EOF`.
-/

namespace Novash

open Foundations TokenType RedirectionType

section

variable {σ : Type} [TokenSource σ]

/-! ## The stream of tokens -/

/-- The tokens that a source gives, the last of them `TOK_EOF` unless it crashes before. -/
def TokenSource.stream (s : σ) : List Token :=
  match _hnext : TokenSource.next s with
  | none => []
  | some (tok, s') => if _heof : tok.type = tokEof then [tok] else tok :: TokenSource.stream s'
termination_by TokenSource.size s
decreasing_by exact TokenSource.size_lt _hnext _heof

namespace ParserState

/-- The lookahead, and what comes after it. -/
def stream (p : ParserState σ) : List Token :=
  if p.gTok.type = tokEof then [p.gTok] else p.gTok :: TokenSource.stream p.lex

/-- The parser goes from `p` to `p'` over some tokens. -/
inductive Takes : ParserState σ → List Token → ParserState σ → Prop
  | refl {p p' : ParserState σ} (hlex : p'.lex = p.lex) (htok : p'.gTok = p.gTok) : Takes p [] p'
  | cons {p p₁ p' : ParserState σ} {toks : List Token} (hp : p.gTok.type ≠ tokEof)
      (hnext : TokenSource.next p.lex = some (p₁.gTok, p₁.lex)) (h : Takes p₁ toks p') :
      Takes p (p.gTok :: toks) p'

variable {p p' p'' : ParserState σ} {toks toks' : List Token}

theorem stream_eq_cons (p : ParserState σ) : ∃ toks, p.stream = p.gTok :: toks := by
  rw [stream]
  split_ifs
  · exact ⟨_, rfl⟩
  · exact ⟨_, rfl⟩

@[simp] theorem head?_stream (p : ParserState σ) : p.stream.head? = some p.gTok := by
  obtain ⟨toks, h⟩ := p.stream_eq_cons
  rw [h, List.head?_cons]

theorem stream_congr (hlex : p'.lex = p.lex) (htok : p'.gTok = p.gTok) : p'.stream = p.stream := by
  rw [stream, stream, hlex, htok]

theorem stream_of_next (hp : p.gTok.type ≠ tokEof)
    (hnext : TokenSource.next p.lex = some (p'.gTok, p'.lex)) :
    p.stream = p.gTok :: p'.stream := by
  rw [stream, if_neg hp, TokenSource.stream, stream]
  split
  · next hnone => cases hnext.symm.trans hnone
  · next hsome =>
    cases hnext.symm.trans hsome
    split <;> rfl

theorem next_of_nextToken (h : nextToken p = .ok p') :
    TokenSource.next p.lex = some (p'.gTok, p'.lex) := by
  unfold nextToken at h
  split at h
  · cases h
  · next hnext =>
    cases h
    exact hnext

theorem stream_of_nextToken (hp : p.gTok.type ≠ tokEof) (h : nextToken p = .ok p') :
    p.stream = p.gTok :: p'.stream := stream_of_next hp (next_of_nextToken h)

namespace Takes

theorem of_nextToken (hp : p.gTok.type ≠ tokEof) (h : nextToken p = .ok p') :
    Takes p [p.gTok] p' := .cons hp (next_of_nextToken h) (.refl rfl rfl)

theorem trans (h : Takes p toks p') (h' : Takes p' toks' p'') : Takes p (toks ++ toks') p'' := by
  induction h with
  | refl hlex htok =>
    cases h' with
    | refl hlex' htok' => exact .refl (hlex'.trans hlex) (htok'.trans htok)
    | cons hp hnext h' =>
      rw [htok] at hp ⊢
      exact .cons hp (hlex ▸ hnext) h'
  | cons hp hnext _ ih => exact .cons hp hnext (ih h')

/-- The blocks handed out in the meantime do not matter. -/
theorem congr (h : Takes p toks p') (hlex : p''.lex = p'.lex) (htok : p''.gTok = p'.gTok) :
    Takes p toks p'' := by
  rw [← List.append_nil toks]
  exact h.trans (.refl hlex htok)

theorem newNode (h : Takes p toks p') : Takes p toks p'.newNode.2 := h.congr rfl rfl

theorem stream_eq (h : Takes p toks p') : p.stream = toks ++ p'.stream := by
  induction h with
  | refl hlex htok => exact (stream_congr hlex htok).symm
  | cons hp hnext _ ih => rw [stream_of_next hp hnext, ih, List.cons_append]

theorem head_eq {tok : Token} (h : Takes p (tok :: toks) p') : tok = p.gTok := by
  cases h
  rfl

theorem gTok_eq (h : Takes p [] p') : p'.gTok = p.gTok := by
  cases h with
  | refl _ htok => exact htok

end Takes

end ParserState

open ParserState

variable {p p' : ParserState σ} {node : Ast}

/-! ## Words -/

theorem takes_parseArguments {ws : List Word} (h : parseArguments p = .ok (ws, p')) :
    ∃ toks, Takes p toks p' ∧ (∀ tok ∈ toks, tok.type = tokWord) ∧
      ws = toks.map Token.parts ∧ p'.gTok.type ≠ tokWord := by
  replace h := parseArguments_run h
  induction h with
  | done hword => exact ⟨[], .refl rfl rfl, fun _ h ↦ absurd h List.not_mem_nil, rfl, hword⟩
  | word hword hnext _ ih =>
    obtain ⟨toks, htakes, hwords, hws, hstop⟩ := ih
    have hone := Takes.of_nextToken (by rw [hword]; decide) hnext
    exact ⟨_ :: toks, hone.trans htakes, List.forall_mem_cons.mpr ⟨hword, hwords⟩,
      congrArg (_ :: ·) hws, hstop⟩

/-! ## Redirections -/

def isRedirectionOperator (type : TokenType) : Bool :=
  type = tokRedirIn || type = tokRedirOut || type = tokRedirAppend

theorem startsRedirection_of_operator {type : TokenType} (h : isRedirectionOperator type = true) :
    startsRedirection type = true := by
  cases type <;> first | rfl | exact absurd h (by decide)

theorem opensCommand_of_redirectionOperator {type : TokenType}
    (h : isRedirectionOperator type = true) : opensCommand type = false := by
  cases type <;> first | rfl | exact absurd h (by decide)

/-- A redirection as it stands in the line: the number before the operator, if there is one, the
operator, and the word after it. -/
structure Written where
  number : Option Token
  operator : Token
  target : Token
  number_type : ∀ tok ∈ number, tok.type = tokFd
  operator_type : isRedirectionOperator operator.type = true
  target_type : target.type = tokWord

namespace Written

def tokens (w : Written) : List Token := w.number.toList ++ [w.operator, w.target]

/-- What is read for the number. -/
def readNumber (w : Written) : Int32 :=
  match w.number with
  | none => 0
  | some tok => toInt (strtol tok.rawValue).1

/-- The redirection was read from `w`. -/
def Gives (w : Written) (r : Redirection) : Prop :=
  redirectionOf w.readNumber w.operator.type = some (r.type, r.fd) ∧
    r.targetParts = w.target.parts

end Written

theorem isRedirectionOperator_of_redirectionOf {fd : Int32} {type : TokenType}
    {r : RedirectionType × Int32} (h : redirectionOf fd type = some r) :
    isRedirectionOperator type = true := by
  cases type <;> first | rfl | cases h

theorem takes_parseFd {fd : Int32} (h : parseFd p = .ok (fd, p')) :
    ∃ number : Option Token, (∀ tok ∈ number, tok.type = tokFd) ∧ Takes p number.toList p' ∧
      fd = number.elim 0 fun tok ↦ toInt (strtol tok.rawValue).1 := by
  unfold parseFd at h
  split_ifs at h with hfd
  · obtain ⟨p₁, hnext, hres⟩ := bind_ok.mp h
    cases hres
    have hone := Takes.of_nextToken (by rw [hfd]; decide) hnext
    refine ⟨some p.gTok, ?_, hone, rfl⟩
    rintro tok ⟨⟩
    exact hfd
  · cases h
    exact ⟨none, by simp, .refl rfl rfl, rfl⟩

theorem takes_parseOneRedirection {r : Redirection} (h : parseOneRedirection p = .ok (r, p')) :
    ∃ w : Written, Takes p w.tokens p' ∧ w.Gives r := by
  obtain ⟨⟨fd, p₁⟩, hfd, h⟩ := bind_ok.mp h
  dsimp only at h
  split at h
  · cases h
  next type fd' hop =>
  obtain ⟨p₂, hnext, h⟩ := bind_ok.mp h
  split_ifs at h with hword
  obtain ⟨p₃, hnext', h⟩ := bind_ok.mp h
  cases h
  have hoperator := isRedirectionOperator_of_redirectionOf hop
  have hword := not_not.mp hword
  obtain ⟨number, hnumber, htakes, rfl⟩ := takes_parseFd hfd
  have hone := Takes.of_nextToken (ne_tokEof_of_redirectionOf hop) hnext
  have htwo := Takes.of_nextToken (by rw [hword]; decide) hnext'
  refine ⟨⟨number, p₁.gTok, p₂.gTok, hnumber, hoperator, hword⟩, htakes.trans (hone.trans htwo), ?_,
    rfl⟩
  cases number <;> exact hop

theorem takes_parseRedirection {rs : List Redirection} (h : parseRedirection p = .ok (rs, p')) :
    ∃ ws : List Written, Takes p (ws.flatMap Written.tokens) p' ∧
      List.Forall₂ Written.Gives ws rs ∧ startsRedirection p'.gTok.type = false ∧
        (ws = [] → p'.gTok = p.gTok) := by
  replace h := parseRedirection_run h
  induction h with
  | done hstart => exact ⟨[], .refl rfl rfl, .nil, hstart, fun _ ↦ rfl⟩
  | one _ hone _ ih =>
    obtain ⟨w, htakes, hgives⟩ := takes_parseOneRedirection hone
    obtain ⟨ws, htakes', hgives', hstop, -⟩ := ih
    exact ⟨w :: ws, htakes.trans htakes', .cons hgives hgives', hstop,
      fun hnil ↦ absurd hnil (List.cons_ne_nil _ _)⟩

/-! ## Commands -/

/-- A call of `parse_command` that reads a command. -/
structure ReadsCommand (p p' : ParserState σ) (cmd : CmdNode) (words : List Token)
    (written : List Written) : Prop where
  takes : Takes p (words ++ written.flatMap Written.tokens) p'
  first : words.head? = some p.gTok
  words_type : ∀ tok ∈ words, tok.type = tokWord
  argvParts : cmd.argvParts = words.map Token.parts
  gives : List.Forall₂ Written.Gives written cmd.redir
  stops : startsRedirection p'.gTok.type = false
  -- without a redirection every word was taken
  word : written = [] → p'.gTok.type ≠ tokWord
  isBg : cmd.isBg = true ↔ p'.gTok.type = tokBg
  rawStr : cmd.rawStr = ((TokenSource.input p'.lex).drop (TokenSource.pos p.lex)).take
    (TokenSource.pos p'.lex - TokenSource.pos p.lex)

theorem parseCommand_of_not_word (hword : p.gTok.type ≠ tokWord) :
    parseCommand p = .ok (.null, p) := if_pos hword

/-- `NULL`, or a command. -/
theorem readsCommand_parseCommand (h : parseCommand p = .ok (node, p')) :
    (p.gTok.type ≠ tokWord ∧ node = .null ∧ p' = p) ∨
    (p.gTok.type = tokWord ∧ ∃ cmd invalid words written, node = .cmd cmd invalid ∧
      ReadsCommand p p' cmd words written) := by
  unfold parseCommand at h
  split_ifs at h with hword
  · cases h
    exact Or.inl ⟨hword, rfl, rfl⟩
  refine Or.inr ⟨not_not.mp hword, ?_⟩
  obtain ⟨⟨ws, p₁⟩, hargs, h⟩ := bind_ok.mp h
  obtain ⟨⟨rs, p₂⟩, hredir, h⟩ := bind_ok.mp h
  cases h
  obtain ⟨words, htakes, hwords, hws, hstop⟩ := takes_parseArguments hargs
  obtain ⟨written, htakes', hgives, hstop', hnone⟩ := takes_parseRedirection hredir
  have htakes₂ : Takes p (words ++ written.flatMap Written.tokens) p₂.newNode.2 :=
    (htakes.trans htakes').newNode
  refine ⟨_, _, words, written, rfl, htakes₂, ?_, hwords, hws, hgives, hstop', fun hnil ↦ ?_,
    by simp, rfl⟩
  · cases words with
    | nil => exact absurd (htakes.gTok_eq ▸ not_not.mp hword) hstop
    | cons tok toks => rw [htakes.head_eq, List.head?_cons]
  · rw [gTok_newNode, hnone hnil]
    exact hstop

end

end Novash
