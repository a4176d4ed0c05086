import Novash.Parser.Join
import Novash.Parser.Tokens

/-!
# What the parser reads of a token

The type of a token, the parts of a word and the text of a number: the `view` of a token is what is
left of it when everything else is forgotten. Two sources whose tokens have the same views are
parsed alike, into the same tree or to the same error (`parserCreateAst_views`). The text of the
commands aside, nothing else of a line is looked at: not its spaces, not the way its words are
written.
-/

namespace Novash

open Foundations TokenType

/-- What the parser reads of a token. -/
def Token.view (tok : Token) : Token :=
  { type := tok.type
    rawValue := if tok.type = tokFd then tok.rawValue else []
    parts := if tok.type = tokWord then tok.parts else [] }

@[simp] theorem Token.type_view (tok : Token) : tok.view.type = tok.type := rfl

section

variable {tok tok' : Token}

theorem Token.type_eq_of_view (h : tok.view = tok'.view) : tok'.type = tok.type :=
  (congrArg Token.type h).symm

theorem Token.parts_eq_of_view (h : tok.view = tok'.view) (hword : tok.type = tokWord) :
    tok'.parts = tok.parts := by
  have hparts := congrArg Token.parts h
  simp only [Token.view, type_eq_of_view h, if_pos hword] at hparts
  exact hparts.symm

theorem Token.rawValue_eq_of_view (h : tok.view = tok'.view) (hfd : tok.type = tokFd) :
    tok'.rawValue = tok.rawValue := by
  have hraw := congrArg Token.rawValue h
  simp only [Token.view, type_eq_of_view h, if_pos hfd] at hraw
  exact hraw.symm

end

/-! ## Trees without texts -/

mutual

/-- Forgetting the texts first makes no difference. -/
theorem Ast.erase_erase (keepInvalid : Bool) (node : Ast) :
    (node.erase true).erase keepInvalid = node.erase keepInvalid := by
  match node with
  | .null => rfl
  | .cmd node invalid => rfl
  | .pipeline nodes invalid =>
    rw [Ast.erase, Ast.erase, Ast.erase, Ast.eraseList_eraseList keepInvalid nodes, Bool.true_and]
  | .conditional left right op invalid =>
    rw [Ast.erase, Ast.erase, Ast.erase, Ast.erase_erase keepInvalid left,
      Ast.erase_erase keepInvalid right, Bool.true_and]
  | .sequence nodes invalid =>
    rw [Ast.erase, Ast.erase, Ast.erase, Ast.eraseList_eraseList keepInvalid nodes, Bool.true_and]

theorem Ast.eraseList_eraseList (keepInvalid : Bool) (nodes : List Ast) :
    Ast.eraseList keepInvalid (Ast.eraseList true nodes) = Ast.eraseList keepInvalid nodes := by
  match nodes with
  | [] => rfl
  | node :: nodes =>
    rw [Ast.eraseList, Ast.eraseList, Ast.eraseList, Ast.erase_erase keepInvalid node,
      Ast.eraseList_eraseList keepInvalid nodes]

end

theorem SameNode.erase_eq {node node' : Ast} (h : SameNode node node') (keepInvalid : Bool) :
    node.erase keepInvalid = node'.erase keepInvalid := by
  rw [← node.erase_erase, h, node'.erase_erase]

variable {σ τ : Type} [TokenSource σ] [TokenSource τ]

/-! ## Parsers that see the same -/

/-- The tokens still to come look the same, and the blocks still to be handed out are the same. -/
structure SameViews (p : ParserState σ) (q : ParserState τ) : Prop where
  stream : p.stream.map Token.view = q.stream.map Token.view
  heap : p.heap = q.heap

/-- The same value, and parsers that see the same. -/
def ViewsWith {α : Type} (R : α → α → Prop) (x : α × ParserState σ) (y : α × ParserState τ) :
    Prop :=
  R x.1 y.1 ∧ SameViews x.2 y.2

/-- A stream ends with `TOK_EOF`, or where the source crashes. -/
theorem TokenSource.stream_elim (s : σ) :
    TokenSource.stream s = (TokenSource.next s).elim [] fun x ↦
      if x.1.type = tokEof then [x.1] else x.1 :: TokenSource.stream x.2 := by
  rw [TokenSource.stream]
  split
  · next hnext => rw [hnext, Option.elim_none]
  · next hnext =>
    rw [hnext, Option.elim_some]
    split_ifs <;> rfl

/-- The next token, and the stream of the parser behind it. -/
theorem nextToken_eq_of_stream (p : ParserState σ) :
    (TokenSource.stream p.lex = [] ∧ nextToken p = .error .crash) ∨
      ∃ p', nextToken p = .ok p' ∧ p'.stream = TokenSource.stream p.lex ∧ p'.heap = p.heap := by
  rw [TokenSource.stream_elim, nextToken]
  cases TokenSource.next p.lex with
  | none => exact .inl ⟨rfl, rfl⟩
  | some x => exact .inr ⟨_, rfl, rfl, rfl⟩

theorem ParserState.stream_ne_nil (p : ParserState σ) : p.stream ≠ [] := by
  obtain ⟨toks, h⟩ := p.stream_eq_cons
  rw [h]
  exact List.cons_ne_nil _ _

/-- The next token of two sources with the same views. -/
theorem nextToken_of_streams {p : ParserState σ} {q : ParserState τ}
    (h : (TokenSource.stream p.lex).map Token.view = (TokenSource.stream q.lex).map Token.view)
    (hheap : p.heap = q.heap) : Agree SameViews (nextToken p) (nextToken q) := by
  rcases nextToken_eq_of_stream p with ⟨hp, herr⟩ | ⟨p', hnext, hp, hheap'⟩
  · rw [hp, List.map_nil] at h
    have hq := List.map_eq_nil_iff.mp h.symm
    rcases nextToken_eq_of_stream q with ⟨-, herr'⟩ | ⟨q', -, hq', -⟩
    · rw [herr, herr']
      exact .error _
    · exact absurd (hq'.trans hq) q'.stream_ne_nil
  · rcases nextToken_eq_of_stream q with ⟨hq, -⟩ | ⟨q', hnext', hq, hheap''⟩
    · rw [hq, ← hp, List.map_nil] at h
      exact absurd (List.map_eq_nil_iff.mp h) p'.stream_ne_nil
    · rw [hnext, hnext']
      exact .ok ⟨by rw [hp, hq, h], by rw [hheap', hheap'', hheap]⟩

namespace SameViews

variable {p : ParserState σ} {q : ParserState τ}

theorem newNode (h : SameViews p q) : SameViews p.newNode.2 q.newNode.2 :=
  ⟨h.stream, by rw [ParserState.newNode, ParserState.newNode, h.heap]⟩

theorem newNode_fst (h : SameViews p q) : p.newNode.1 = q.newNode.1 := congrFun h.heap 0

theorem view_eq (h : SameViews p q) : p.gTok.view = q.gTok.view := by
  have hhead := congrArg List.head? h.stream
  rw [List.head?_map, List.head?_map, ParserState.head?_stream, ParserState.head?_stream] at hhead
  exact Option.some_inj.mp hhead

theorem type_eq (h : SameViews p q) : q.gTok.type = p.gTok.type :=
  Token.type_eq_of_view h.view_eq

theorem parts_eq (h : SameViews p q) (hword : p.gTok.type = tokWord) :
    q.gTok.parts = p.gTok.parts := Token.parts_eq_of_view h.view_eq hword

theorem rawValue_eq (h : SameViews p q) (hfd : p.gTok.type = tokFd) :
    q.gTok.rawValue = p.gTok.rawValue := Token.rawValue_eq_of_view h.view_eq hfd

theorem nextToken (h : SameViews p q) (hne : p.gTok.type ≠ tokEof) :
    Agree SameViews (nextToken p) (nextToken q) := by
  have hstream := h.stream
  rw [ParserState.stream, ParserState.stream, if_neg hne, if_neg (h.type_eq ▸ hne), List.map_cons,
    List.map_cons] at hstream
  exact nextToken_of_streams (List.cons.inj hstream).2 h.heap

end SameViews

section

variable {p : ParserState σ} {q : ParserState τ}

/-! ### Commands -/

theorem parseArguments_views (p : ParserState σ) :
    ∀ {q : ParserState τ}, SameViews p q →
      Agree (ViewsWith Eq) (parseArguments p) (parseArguments q) := by
  fun_induction parseArguments p with
  | case1 p hword e hnext =>
    intro q h
    have hne : p.gTok.type ≠ tokEof := by rw [hword]; decide
    rw [parseArguments_of_word (p := q) (h.type_eq ▸ hword), (h.nextToken hne).eq_error hnext]
    exact .error _
  | case2 p hword p₁ hnext ih =>
    intro q h
    have hne : p.gTok.type ≠ tokEof := by rw [hword]; decide
    obtain ⟨q₁, hnext', h₁⟩ := (h.nextToken hne).exists_ok hnext
    rw [parseArguments_of_word (p := q) (h.type_eq ▸ hword), hnext', h.parts_eq hword]
    exact (ih h₁).bind fun x y hxy ↦ .ok ⟨congrArg _ hxy.1, hxy.2⟩
  | case3 p hword =>
    intro q h
    rw [parseArguments, dif_neg (h.type_eq ▸ hword)]
    exact .ok ⟨rfl, h⟩

theorem parseFd_views (h : SameViews p q) :
    Agree (ViewsWith Eq) (parseFd p) (parseFd q) := by
  unfold parseFd
  by_cases hfd : p.gTok.type = tokFd
  · have hne : p.gTok.type ≠ tokEof := by rw [hfd]; decide
    rw [if_pos hfd, if_pos (h.type_eq ▸ hfd), h.rawValue_eq hfd]
    exact (h.nextToken hne).bind fun x y hxy ↦ .ok ⟨rfl, hxy⟩
  · rw [if_neg hfd, if_neg (h.type_eq ▸ hfd)]
    exact .ok ⟨rfl, h⟩

theorem parseOneRedirection_views (h : SameViews p q) :
    Agree (ViewsWith Eq) (parseOneRedirection p) (parseOneRedirection q) := by
  unfold parseOneRedirection
  refine (parseFd_views h).bind ?_
  rintro ⟨fd, p₁⟩ ⟨_, q₁⟩ ⟨rfl, h₁⟩
  dsimp only at h₁ ⊢
  rw [h₁.type_eq]
  split
  · exact .error _
  next type fd' hop =>
  refine (h₁.nextToken (ne_tokEof_of_redirectionOf hop)).bind fun p₂ q₂ h₂ ↦ ?_
  by_cases hword : p₂.gTok.type = tokWord
  · have hne : p₂.gTok.type ≠ tokEof := by rw [hword]; decide
    rw [if_neg (not_not.mpr hword), if_neg (not_not.mpr (h₂.type_eq ▸ hword)), h₂.parts_eq hword]
    exact (h₂.nextToken hne).bind fun x y hxy ↦ .ok ⟨rfl, hxy⟩
  · rw [if_pos hword, if_pos (h₂.type_eq ▸ hword)]
    exact .error _

theorem parseRedirection_views (p : ParserState σ) :
    ∀ {q : ParserState τ}, SameViews p q →
      Agree (ViewsWith Eq) (parseRedirection p) (parseRedirection q) := by
  fun_induction parseRedirection p with
  | case1 p hstart e hone =>
    intro q h
    rw [parseRedirection_of_starts (p := q) (h.type_eq ▸ hstart),
      (parseOneRedirection_views h).eq_error hone]
    exact .error _
  | case2 p hstart r p₁ hone ih =>
    intro q h
    obtain ⟨⟨_, q₁⟩, hone', rfl, h₁⟩ := (parseOneRedirection_views h).exists_ok hone
    rw [parseRedirection_of_starts (p := q) (h.type_eq ▸ hstart), hone']
    exact (ih h₁).bind fun x y hxy ↦ .ok ⟨congrArg _ hxy.1, hxy.2⟩
  | case3 p hstart =>
    intro q h
    rw [parseRedirection, if_neg (h.type_eq ▸ hstart)]
    exact .ok ⟨rfl, h⟩

theorem parseCommand_views (h : SameViews p q) :
    Agree (ViewsWith SameNode) (parseCommand p) (parseCommand q) := by
  unfold parseCommand
  by_cases hword : p.gTok.type = tokWord
  swap
  · rw [if_pos hword, if_pos (h.type_eq ▸ hword)]
    exact .ok ⟨rfl, h⟩
  rw [if_neg (not_not.mpr hword), if_neg (not_not.mpr (h.type_eq ▸ hword))]
  refine (parseArguments_views p h).bind ?_
  rintro ⟨ws, p₁⟩ ⟨_, q₁⟩ ⟨rfl, h₁⟩
  refine (parseRedirection_views p₁ h₁).bind ?_
  rintro ⟨rs, p₂⟩ ⟨_, q₂⟩ ⟨rfl, h₂⟩
  refine .ok ⟨?_, h₂.newNode⟩
  dsimp only [SameNode] at h₂ ⊢
  rw [Ast.erase, Ast.erase, h₂.newNode_fst, h₂.type_eq]

/-! ### Pipelines and conditionals -/

theorem pipelineLoop_views (p : ParserState σ) :
    ∀ {q : ParserState τ}, SameViews p q →
      Agree (ViewsWith SameNodes) (pipelineLoop p) (pipelineLoop q) := by
  fun_induction pipelineLoop p with
  | case1 p hpipe e hnext =>
    intro q h
    have hne : p.gTok.type ≠ tokEof := by rw [hpipe]; decide
    rw [pipelineLoop_of_pipe (p := q) (h.type_eq ▸ hpipe), (h.nextToken hne).eq_error hnext]
    exact .error _
  | case2 p hpipe p₁ hnext e hcmd =>
    intro q h
    have hne : p.gTok.type ≠ tokEof := by rw [hpipe]; decide
    obtain ⟨q₁, hnext', h₁⟩ := (h.nextToken hne).exists_ok hnext
    rw [pipelineLoop_of_pipe (p := q) (h.type_eq ▸ hpipe), hnext']
    simp only [bind, Except.bind]
    rw [(parseCommand_views h₁).eq_error hcmd]
    exact .error _
  | case3 p hpipe p₁ hnext nextCommand p₂ hcmd hnull =>
    intro q h
    have hne : p.gTok.type ≠ tokEof := by rw [hpipe]; decide
    obtain ⟨q₁, hnext', h₁⟩ := (h.nextToken hne).exists_ok hnext
    obtain ⟨⟨nextCommand', q₂⟩, hcmd', hsame, -⟩ := (parseCommand_views h₁).exists_ok hcmd
    rw [pipelineLoop_of_pipe (p := q) (h.type_eq ▸ hpipe), hnext']
    simp only [bind, Except.bind]
    rw [hcmd']
    dsimp only
    rw [if_pos (by rwa [hsame.isNull_eq])]
    exact .error _
  | case4 p hpipe p₁ hnext nextCommand p₂ hcmd hnull ih =>
    intro q h
    have hne : p.gTok.type ≠ tokEof := by rw [hpipe]; decide
    obtain ⟨q₁, hnext', h₁⟩ := (h.nextToken hne).exists_ok hnext
    obtain ⟨⟨nextCommand', q₂⟩, hcmd', hsame, h₂⟩ := (parseCommand_views h₁).exists_ok hcmd
    rw [pipelineLoop_of_pipe (p := q) (h.type_eq ▸ hpipe), hnext']
    simp only [bind, Except.bind]
    rw [hcmd']
    dsimp only
    rw [if_neg (by rwa [hsame.isNull_eq])]
    exact (ih h₂).bind fun x y hxy ↦ .ok ⟨.cons hsame hxy.1, hxy.2⟩
  | case5 p hpipe =>
    intro q h
    rw [pipelineLoop, dif_neg (h.type_eq ▸ hpipe)]
    exact .ok ⟨rfl, h⟩

theorem parsePipeline_views (h : SameViews p q) :
    Agree (ViewsWith SameNode) (parsePipeline p) (parsePipeline q) := by
  unfold parsePipeline
  refine (parseCommand_views h).bind ?_
  rintro ⟨firstCommand, p₁⟩ ⟨firstCommand', q₁⟩ ⟨hfirst, h₁⟩
  refine (pipelineLoop_views _ h₁.newNode).bind ?_
  rintro ⟨nodes, p₂⟩ ⟨nodes', q₂⟩ ⟨hnodes, h₂⟩
  dsimp only at hfirst hnodes h₁ h₂ ⊢
  by_cases hnil : nodes = []
  · rw [if_pos hnil, if_pos (hnodes.eq_nil_iff.mpr hnil)]
    exact .ok ⟨hfirst, h₂⟩
  · rw [if_neg hnil, if_neg (mt hnodes.eq_nil_iff.mp hnil)]
    refine .ok ⟨?_, h₂⟩
    dsimp only [SameNode]
    rw [Ast.erase, Ast.erase, h₁.newNode_fst]
    exact congrArg (fun nodes ↦ Ast.pipeline nodes _) (SameNodes.cons hfirst hnodes)

theorem conditionalLoop_views (left : Ast) (p : ParserState σ) :
    ∀ {left' : Ast} {q : ParserState τ}, SameNode left left' → SameViews p q →
      Agree (ViewsWith SameNode) (conditionalLoop left p) (conditionalLoop left' q) := by
  fun_induction conditionalLoop left p with
  | case1 left p hop =>
    intro left' q hleft h
    rw [conditionalLoop_of_none (p := q) (h.type_eq ▸ hop)]
    exact .ok ⟨hleft, h⟩
  | case2 left p op hop e hnext =>
    intro left' q hleft h
    rw [conditionalLoop_of_op (p := q) (h.type_eq ▸ hop),
      (h.nextToken (ne_tokEof_of_condOpOf hop)).eq_error hnext]
    exact .error _
  | case3 left p op hop p₁ hnext e hright =>
    intro left' q hleft h
    obtain ⟨q₁, hnext', h₁⟩ := (h.nextToken (ne_tokEof_of_condOpOf hop)).exists_ok hnext
    rw [conditionalLoop_of_op (p := q) (h.type_eq ▸ hop), hnext']
    simp only [bind, Except.bind]
    rw [(parsePipeline_views h₁).eq_error hright]
    exact .error _
  | case4 left p op hop p₁ hnext right p₂ hright ih =>
    intro left' q hleft h
    obtain ⟨q₁, hnext', h₁⟩ := (h.nextToken (ne_tokEof_of_condOpOf hop)).exists_ok hnext
    obtain ⟨⟨right', q₂⟩, hright', hsame, h₂⟩ := (parsePipeline_views h₁).exists_ok hright
    rw [conditionalLoop_of_op (p := q) (h.type_eq ▸ hop), hnext']
    simp only [bind, Except.bind]
    rw [hright']
    refine ih ?_ h₂.newNode
    dsimp only [SameNode] at hleft hsame h₂ ⊢
    rw [Ast.erase, Ast.erase, h₂.newNode_fst, hleft, hsame]

theorem parseConditional_views (h : SameViews p q) :
    Agree (ViewsWith SameNode) (parseConditional p) (parseConditional q) := by
  unfold parseConditional
  refine (parsePipeline_views h).bind ?_
  rintro ⟨left, p₁⟩ ⟨left', q₁⟩ ⟨hleft, h₁⟩
  exact conditionalLoop_views left p₁ hleft h₁

/-! ### Lines -/

theorem skipSeparators_views (p : ParserState σ) :
    ∀ {q : ParserState τ}, SameViews p q →
      Agree SameViews (skipSeparators p) (skipSeparators q) := by
  fun_induction skipSeparators p with
  | case1 p hsep e hnext =>
    intro q h
    have herr := (h.nextToken (ne_tokEof_of_isSeparator hsep)).eq_error hnext
    rw [skipSeparators, dif_pos (h.type_eq ▸ hsep)]
    split
    · next herr' =>
      cases herr.symm.trans herr'
      exact .error _
    · next hok => cases herr.symm.trans hok
  | case2 p hsep p₁ hnext ih =>
    intro q h
    obtain ⟨q₁, hnext', h₁⟩ := (h.nextToken (ne_tokEof_of_isSeparator hsep)).exists_ok hnext
    rw [skipSeparators_of_separator (h.type_eq ▸ hsep) hnext']
    exact ih h₁
  | case3 p hsep =>
    intro q h
    rw [skipSeparators_of_not (by simpa [h.type_eq] using hsep)]
    exact .ok h

/-- The loop fails where its element does. -/
theorem sequenceLoop_of_error {e : ParseStop} (h : parseConditional p = .error e) :
    sequenceLoop p = .error e := by
  rw [sequenceLoop]
  split
  · next herr =>
    cases h.symm.trans herr
    rfl
  · next hok => cases h.symm.trans hok

theorem sequenceLoop_of_skip_error {p₁ : ParserState σ} {node : Ast} {e : ParseStop}
    (hcond : parseConditional p = .ok (node, p₁)) (hnull : node.isNull = false)
    (h : skipSeparators p₁ = .error e) : sequenceLoop p = .error e := by
  rw [sequenceLoop]
  split
  · next herr => cases hcond.symm.trans herr
  next hcond' =>
  cases hcond.symm.trans hcond'
  rw [dif_neg (by rw [hnull]; decide)]
  split
  · next herr =>
    cases h.symm.trans herr
    rfl
  · next hok => cases h.symm.trans hok

theorem sequenceLoop_views (p : ParserState σ) :
    ∀ {q : ParserState τ}, SameViews p q →
      Agree (ViewsWith SameNodes) (sequenceLoop p) (sequenceLoop q) := by
  fun_induction sequenceLoop p with
  | case1 p e hcond =>
    intro q h
    rw [sequenceLoop_of_error ((parseConditional_views h).eq_error hcond)]
    exact .error _
  | case2 p node p₁ hcond hnull =>
    intro q h
    obtain ⟨⟨node', q₁⟩, hcond', hsame, h₁⟩ := (parseConditional_views h).exists_ok hcond
    rw [sequenceLoop_of_isNull hcond' (by rwa [hsame.isNull_eq])]
    exact .ok ⟨rfl, h₁⟩
  | case3 p node p₁ hcond hnull e hskip =>
    intro q h
    obtain ⟨⟨node', q₁⟩, hcond', hsame, h₁⟩ := (parseConditional_views h).exists_ok hcond
    rw [sequenceLoop_of_skip_error hcond' (by simpa [hsame.isNull_eq] using hnull)
      ((skipSeparators_views p₁ h₁).eq_error hskip)]
    exact .error _
  | case4 p node p₁ hcond hnull p₂ hskip heof =>
    intro q h
    obtain ⟨⟨node', q₁⟩, hcond', hsame, h₁⟩ := (parseConditional_views h).exists_ok hcond
    obtain ⟨q₂, hskip', h₂⟩ := (skipSeparators_views p₁ h₁).exists_ok hskip
    rw [sequenceLoop_element hcond' (by simpa [hsame.isNull_eq] using hnull) hskip',
      if_pos (h₂.type_eq ▸ heof)]
    exact .ok ⟨.cons hsame rfl, h₂⟩
  | case5 p node p₁ hcond hnull p₂ hskip heof ih =>
    intro q h
    obtain ⟨⟨node', q₁⟩, hcond', hsame, h₁⟩ := (parseConditional_views h).exists_ok hcond
    obtain ⟨q₂, hskip', h₂⟩ := (skipSeparators_views p₁ h₁).exists_ok hskip
    rw [sequenceLoop_element hcond' (by simpa [hsame.isNull_eq] using hnull) hskip',
      if_neg (h₂.type_eq ▸ heof)]
    have hrest := (ih h₂).bind (S := ViewsWith SameNodes)
      (f := fun x ↦ .ok (node :: x.1, x.2)) (g := fun x ↦ .ok (node' :: x.1, x.2))
      fun x y hxy ↦ .ok ⟨.cons hsame hxy.1, hxy.2⟩
    exact hrest

end

/-- **The parser reads the views of the tokens, and nothing else.** Two sources whose tokens have
the same views are parsed alike in the same memory: into trees that differ in the text of their
commands only, with the same views ahead, or to the same error. -/
theorem parserCreateAst_views {s : σ} {t : τ} {g g' : Token} {heap : ℕ → Bool}
    (h : (TokenSource.stream s).map Token.view = (TokenSource.stream t).map Token.view) :
    Agree (ViewsWith SameNode) (parserCreateAst ⟨s, g, heap⟩) (parserCreateAst ⟨t, g', heap⟩) := by
  unfold parserCreateAst
  refine (nextToken_of_streams (p := ⟨s, g, heap⟩) (q := ⟨t, g', heap⟩) h rfl).bind fun p q h ↦ ?_
  rw [h.type_eq]
  by_cases heof : p.gTok.type = tokEof
  · rw [if_pos heof, if_pos heof]
    exact .ok ⟨rfl, h⟩
  · rw [if_neg heof, if_neg heof]
    refine (sequenceLoop_views _ h.newNode).bind ?_
    rintro ⟨nodes, p'⟩ ⟨nodes', q'⟩ ⟨hnodes, h'⟩
    refine .ok ⟨?_, h'⟩
    dsimp only [SameNode] at hnodes ⊢
    rw [Ast.erase, Ast.erase, h.newNode_fst, hnodes]

end Novash
