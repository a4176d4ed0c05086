import Novash.Parser.Commands
import Novash.Parser.Print
import Novash.Parser.Words

/-!
# Two lines on one

What the parser makes of `a ; b` when it is known what it makes of `a` and of `b`: the elements of
both, in order (`parserCreateAst_join`).

Two parsers are followed, one on the first line alone and one on both. They see the same tokens up
to the end of the first line, where one finds `TOK_EOF` and the other `;` (`Along`). No function
below the loop over the elements of a line can tell these two tokens apart; that loop goes on after
one of them and stops at the other.

The trees are compared without `raw_str`, and the memory handed out is clear.
-/

namespace Novash

open Foundations Grammar TokenType

variable {σ τ : Type} [TokenSource σ] [TokenSource τ]

/-! ## The tokens of a line that is parsed to its end -/

/-- The parser goes from `p` to `p'` over some tokens, none of them `TOK_EOF`. -/
def Passes (p p' : ParserState σ) : Prop :=
  ∃ toks : List Token, (∀ tok ∈ toks, tok.type ≠ tokEof) ∧
    ∀ rest, p'.Sees rest → p.Sees (toks ++ rest)

namespace Passes

variable {p p' p'' : ParserState σ}

theorem refl (p : ParserState σ) : Passes p p := ⟨[], by simp, fun _ h ↦ h⟩

theorem trans (h : Passes p p') (h' : Passes p' p'') : Passes p p'' := by
  obtain ⟨toks, hne, hsees⟩ := h
  obtain ⟨toks', hne', hsees'⟩ := h'
  refine ⟨toks ++ toks', fun tok htok ↦ ?_, fun rest hrest ↦ ?_⟩
  · exact (List.mem_append.mp htok).elim (hne tok) (hne' tok)
  · rw [List.append_assoc]
    exact hsees _ (hsees' _ hrest)

/-- The blocks handed out make no difference. -/
theorem newNode (h : Passes p p') : Passes p p'.newNode.2 := h

end Passes

section

variable {p p' : ParserState σ} {node : Ast}

theorem nextToken_passes (hp : p.gTok.type ≠ tokEof) (h : nextToken p = .ok p') : Passes p p' := by
  refine ⟨[p.gTok], by simpa using hp, fun rest hrest ↦ ?_⟩
  unfold nextToken at h
  split at h
  · cases h
  next tok lex hnext =>
  cases h
  cases rest with
  | nil => exact hrest.elim
  | cons tok' rest =>
    obtain ⟨rfl, hrest⟩ := hrest
    exact ⟨rfl, lex, hnext, hrest⟩

theorem parseArguments_passes {ws : List Word} (h : parseArguments p = .ok (ws, p')) :
    Passes p p' := by
  replace h := parseArguments_run h
  induction h with
  | done => exact .refl _
  | word hword hnext _ ih => exact (nextToken_passes (by rw [hword]; decide) hnext).trans ih

theorem parseOneRedirection_passes {r : Redirection} (h : parseOneRedirection p = .ok (r, p')) :
    Passes p p' := by
  obtain ⟨⟨fd, p₁⟩, hfd, h⟩ := bind_ok.mp h
  have hfirst : Passes p p₁ := by
    unfold parseFd at hfd
    split_ifs at hfd with htype
    · obtain ⟨p₂, hnext, hres⟩ := bind_ok.mp hfd
      cases hres
      exact nextToken_passes (by rw [htype]; decide) hnext
    · cases hfd
      exact .refl _
  dsimp only at h
  split at h
  · cases h
  next type fd' hop =>
  obtain ⟨p₂, hnext, h⟩ := bind_ok.mp h
  split_ifs at h with hword
  obtain ⟨p₃, hnext', h⟩ := bind_ok.mp h
  cases h
  have hword' : p₂.gTok.type ≠ tokEof := by rw [not_not.mp hword]; decide
  exact hfirst.trans ((nextToken_passes (ne_tokEof_of_redirectionOf hop) hnext).trans
    (nextToken_passes hword' hnext'))

theorem parseRedirection_passes {rs : List Redirection} (h : parseRedirection p = .ok (rs, p')) :
    Passes p p' := by
  replace h := parseRedirection_run h
  induction h with
  | done => exact .refl _
  | one _ hone _ ih => exact (parseOneRedirection_passes hone).trans ih

theorem parseCommand_passes (h : parseCommand p = .ok (node, p')) : Passes p p' := by
  unfold parseCommand at h
  split_ifs at h
  · cases h
    exact .refl _
  · obtain ⟨⟨ws, p₁⟩, hargs, h⟩ := bind_ok.mp h
    obtain ⟨⟨rs, p₂⟩, hredir, h⟩ := bind_ok.mp h
    cases h
    exact ((parseArguments_passes hargs).trans (parseRedirection_passes hredir)).newNode

theorem pipelineLoop_passes {nodes : List Ast} (h : pipelineLoop p = .ok (nodes, p')) :
    Passes p p' := by
  replace h := pipelineLoop_run h
  induction h with
  | done => exact .refl _
  | command hpipe hnext hcmd _ _ ih =>
    exact (nextToken_passes (by rw [hpipe]; decide) hnext).trans
      ((parseCommand_passes hcmd).trans ih)

theorem parsePipeline_passes (h : parsePipeline p = .ok (node, p')) : Passes p p' := by
  obtain ⟨⟨firstCommand, p₁⟩, hcmd, h⟩ := bind_ok.mp h
  obtain ⟨⟨nodes, p₂⟩, hloop, h⟩ := bind_ok.mp h
  have hall : Passes p p₂ := (parseCommand_passes hcmd).newNode.trans (pipelineLoop_passes hloop)
  dsimp only at h
  split_ifs at h <;> cases h <;> exact hall

theorem conditionalLoop_passes {left : Ast} (h : conditionalLoop left p = .ok (node, p')) :
    Passes p p' := by
  replace h := conditionalLoop_run h
  induction h with
  | done => exact .refl _
  | operand hop hnext hright _ ih =>
    exact (nextToken_passes (ne_tokEof_of_condOpOf hop) hnext).trans
      ((parsePipeline_passes hright).newNode.trans ih)

theorem parseConditional_passes (h : parseConditional p = .ok (node, p')) : Passes p p' := by
  obtain ⟨⟨left, p₁⟩, hpipe, h⟩ := bind_ok.mp h
  exact (parsePipeline_passes hpipe).trans (conditionalLoop_passes h)

theorem skipSeparators_passes (h : skipSeparators p = .ok p') : Passes p p' := by
  replace h := skipSeparators_run h
  induction h with
  | done => exact .refl _
  | separator hsep hnext _ ih =>
    exact (nextToken_passes (ne_tokEof_of_isSeparator hsep) hnext).trans ih

theorem sequenceLoop_passes {nodes : List Ast} (h : sequenceLoop p = .ok (nodes, p')) :
    Passes p p' := by
  replace h := sequenceLoop_run h
  induction h with
  | null hcond => exact parseConditional_passes hcond
  | last hcond _ hskip =>
    exact (parseConditional_passes hcond).trans (skipSeparators_passes hskip)
  | element hcond _ hskip _ _ ih =>
    exact ((parseConditional_passes hcond).trans (skipSeparators_passes hskip)).trans ih

/-- A line that is parsed to its end is a list of tokens. -/
theorem parserCreateAst_delivers {s : σ} {g : Token} {heap : ℕ → Bool}
    (h : parserCreateAst ⟨s, g, heap⟩ = .ok (node, p')) (heof : p'.gTok.type = tokEof) :
    ∃ toks : List Token, (∀ tok ∈ toks, tok.type ≠ tokEof) ∧ Delivers s (toks ++ [p'.gTok]) := by
  obtain ⟨p₁, hnext, h⟩ := bind_ok.mp h
  have hpasses : Passes p₁ p' := by
    dsimp only at h
    split_ifs at h
    · cases h
      exact .refl _
    · obtain ⟨⟨nodes, p₂⟩, hloop, h⟩ := bind_ok.mp h
      cases h
      exact sequenceLoop_passes (p := p₁.newNode.2) hloop
  obtain ⟨toks, hne, hsees⟩ := hpasses
  have hall := hsees [p'.gTok] ⟨rfl, trivial⟩
  refine ⟨toks, hne, ?_⟩
  unfold nextToken at hnext
  split at hnext
  · cases hnext
  next tok lex htok =>
  cases hnext
  cases htoks : toks ++ [p'.gTok] with
  | nil => exact absurd htoks (by simp)
  | cons tok' rest =>
    rw [htoks] at hall
    obtain ⟨rfl, hrest⟩ := hall
    exact ⟨lex, htok, hrest⟩

end

/-! ## Two parsers, one behind the other's back -/

/-- The parsers see the same tokens up to the point where the first one sees `TOK_EOF` and the
second one `v`, and after it `vs`. -/
structure Along (v : Token) (vs : List Token) (p : ParserState σ) (q : ParserState τ) : Prop where
  sees : ∃ toks : List Token, ∃ e : Token, (∀ tok ∈ toks, tok.type ≠ tokEof) ∧ e.type = tokEof ∧
    p.Sees (toks ++ [e]) ∧ q.Sees (toks ++ v :: vs)
  clear : p.Clear true
  clear' : q.Clear true

/-- A token at which every function below the loop over the elements stops. -/
def EndsElement (v : Token) : Prop := v.type = tokSemi ∨ v.type = tokEof

section

variable {v : Token} {vs : List Token} {p : ParserState σ} {q : ParserState τ}

namespace Along

theorem newNode (h : Along v vs p q) : Along v vs p.newNode.2 q.newNode.2 :=
  ⟨h.sees, (clear_newNode h.clear).2, (clear_newNode h.clear').2⟩

/-- The blocks handed out to both hold the same. -/
theorem newNode_fst (h : Along v vs p q) : p.newNode.1 = q.newNode.1 :=
  (h.clear rfl 0).trans (h.clear' rfl 0).symm

/-- At the end of the first line. -/
theorem of_eof (h : Along v vs p q) (heof : p.gTok.type = tokEof) : q.Sees (v :: vs) := by
  obtain ⟨toks, e, hne, -, hp, hq⟩ := h.sees
  cases toks with
  | nil => exact hq
  | cons tok toks =>
    obtain ⟨rfl, -⟩ := hp
    exact absurd heof (hne _ List.mem_cons_self)

/-- Before it. -/
theorem gTok_eq (h : Along v vs p q) (hne : p.gTok.type ≠ tokEof) : q.gTok = p.gTok := by
  obtain ⟨toks, e, -, he, hp, hq⟩ := h.sees
  cases toks with
  | nil =>
    obtain ⟨rfl, -⟩ := hp
    exact absurd he hne
  | cons tok toks => exact hq.1.trans hp.1.symm

/-- A test that cannot tell the two ends apart gives the same in both parsers. -/
theorem test_eq (h : Along v vs p q) (hv : EndsElement v) {α : Type} (f : TokenType → α)
    (hf : f tokSemi = f tokEof) : f q.gTok.type = f p.gTok.type := by
  by_cases heof : p.gTok.type = tokEof
  · obtain ⟨hq, -⟩ := h.of_eof heof
    rw [heof, hq]
    rcases hv with hv | hv
    · rw [hv, hf]
    · rw [hv]
  · rw [h.gTok_eq heof]

theorem nextToken (h : Along v vs p q) (hne : p.gTok.type ≠ tokEof) :
    Simulates (Along v vs) (nextToken p) (Novash.nextToken q) := by
  obtain ⟨toks, e, htoks, he, hp, hq⟩ := h.sees
  cases toks with
  | nil =>
    obtain ⟨rfl, -⟩ := hp
    exact absurd he hne
  | cons tok toks =>
    have htoks' : ∀ tok ∈ toks, tok.type ≠ tokEof := fun t ht ↦ htoks t (List.mem_cons_of_mem _ ht)
    obtain ⟨u, us, hu⟩ := exists_append_cons toks e []
    obtain ⟨u', us', hu'⟩ := exists_append_cons toks v vs
    rw [List.cons_append, hu] at hp
    rw [List.cons_append, hu'] at hq
    obtain ⟨p₁, hnext, hsees, hheap⟩ := nextToken_of_sees hp
    obtain ⟨q₁, hnext', hsees', hheap'⟩ := nextToken_of_sees hq
    rw [hnext, hnext']
    exact .ok ⟨⟨toks, e, htoks', he, hu ▸ hsees, hu' ▸ hsees'⟩,
      clear_of_heap h.clear hheap, clear_of_heap h.clear' hheap'⟩

end Along

/-- The same, and the parsers still see the same. -/
def AlongWith {α : Type} (R : α → α → Prop) (v : Token) (vs : List Token) (x : α × ParserState σ)
    (y : α × ParserState τ) : Prop :=
  R x.1 y.1 ∧ Along v vs x.2 y.2

/-- The trees differ in the text of their commands only. -/
def SameNode (node node' : Ast) : Prop := node.erase true = node'.erase true

def SameNodes (nodes nodes' : List Ast) : Prop :=
  Ast.eraseList true nodes = Ast.eraseList true nodes'

theorem SameNode.isNull_eq {node node' : Ast} (h : SameNode node node') :
    node'.isNull = node.isNull := by
  rw [← Ast.isNull_erase true, ← h, Ast.isNull_erase]

theorem SameNodes.cons {node node' : Ast} {nodes nodes' : List Ast} (h : SameNode node node')
    (h' : SameNodes nodes nodes') : SameNodes (node :: nodes) (node' :: nodes') :=
  congrArg₂ List.cons h h'

theorem SameNodes.append {nodes nodes' : List Ast} (h : SameNodes nodes nodes') :
    ∀ {rest rest' : List Ast}, SameNodes rest rest' →
      SameNodes (nodes ++ rest) (nodes' ++ rest') := by
  have heq : ∀ ns ns' : List Ast,
      Ast.eraseList true (ns ++ ns') = Ast.eraseList true ns ++ Ast.eraseList true ns' := by
    intro ns ns'
    induction ns with
    | nil => rfl
    | cons node ns ih => rw [List.cons_append, Ast.eraseList, Ast.eraseList, ih, List.cons_append]
  intro rest rest' h'
  rw [SameNodes, heq, heq, h, h']

theorem SameNodes.eq_nil_iff {nodes nodes' : List Ast} (h : SameNodes nodes nodes') :
    nodes' = [] ↔ nodes = [] := by
  cases nodes with
  | nil =>
    cases nodes' with
    | nil => exact Iff.rfl
    | cons => cases h
  | cons =>
    cases nodes' with
    | nil => cases h
    | cons => exact iff_of_false (List.cons_ne_nil _ _) (List.cons_ne_nil _ _)

/-! ### Commands -/

theorem parseArguments_along (hv : EndsElement v) (p : ParserState σ) :
    ∀ {q : ParserState τ}, Along v vs p q →
      Simulates (AlongWith Eq v vs) (parseArguments p) (parseArguments q) := by
  fun_induction parseArguments p with
  | case1 => exact fun _ ↦ .error _ _
  | case2 p hword p₁ hnext ih =>
    intro q h
    have hne : p.gTok.type ≠ tokEof := by rw [hword]; decide
    have hgTok := h.gTok_eq hne
    rw [parseArguments_of_word (p := q) (hgTok ▸ hword), hgTok]
    obtain ⟨q₁, hnext', h₁⟩ := h.nextToken hne _ hnext
    rw [hnext']
    exact (ih h₁).bind fun x y _ hxy ↦ .ok ⟨congrArg _ hxy.1, hxy.2⟩
  | case3 p hword =>
    intro q h
    have hword' : ¬q.gTok.type = tokWord := by
      rwa [h.test_eq hv (fun type ↦ type = tokWord) (by simp)]
    rw [parseArguments, dif_neg hword']
    exact .ok ⟨rfl, h⟩

theorem parseFd_along (hv : EndsElement v) (h : Along v vs p q) :
    Simulates (AlongWith Eq v vs) (parseFd p) (parseFd q) := by
  unfold parseFd
  by_cases hfd : p.gTok.type = tokFd
  · have hne : p.gTok.type ≠ tokEof := by rw [hfd]; decide
    have hgTok := h.gTok_eq hne
    rw [if_pos hfd, if_pos (hgTok ▸ hfd), hgTok]
    exact (h.nextToken hne).bind fun x y _ hxy ↦ .ok ⟨rfl, hxy⟩
  · rw [if_neg hfd, if_neg (by rwa [h.test_eq hv (fun type ↦ type = tokFd) (by simp)])]
    exact .ok ⟨rfl, h⟩

theorem parseOneRedirection_along (hv : EndsElement v) (h : Along v vs p q) :
    Simulates (AlongWith Eq v vs) (parseOneRedirection p) (parseOneRedirection q) := by
  unfold parseOneRedirection
  refine (parseFd_along hv h).bind ?_
  rintro ⟨fd, p₁⟩ ⟨_, q₁⟩ - ⟨rfl, h₁⟩
  dsimp only at h₁ ⊢
  rw [h₁.test_eq hv (redirectionOf fd) rfl]
  split
  · exact .error _ _
  next type fd' hop =>
  refine (h₁.nextToken (ne_tokEof_of_redirectionOf hop)).bind fun p₂ q₂ _ h₂ ↦ ?_
  by_cases hword : p₂.gTok.type = tokWord
  · have hne : p₂.gTok.type ≠ tokEof := by rw [hword]; decide
    have hgTok := h₂.gTok_eq hne
    rw [if_neg (not_not.mpr hword), if_neg (not_not.mpr (hgTok ▸ hword)), hgTok]
    exact (h₂.nextToken hne).bind fun x y _ hxy ↦ .ok ⟨rfl, hxy⟩
  · rw [if_pos hword]
    exact .error _ _

theorem parseRedirection_along (hv : EndsElement v) (p : ParserState σ) :
    ∀ {q : ParserState τ}, Along v vs p q →
      Simulates (AlongWith Eq v vs) (parseRedirection p) (parseRedirection q) := by
  fun_induction parseRedirection p with
  | case1 => exact fun _ ↦ .error _ _
  | case2 p hstart r p₁ hone ih =>
    intro q h
    have hstart' : startsRedirection q.gTok.type = true := by
      rwa [h.test_eq hv startsRedirection rfl]
    obtain ⟨⟨_, q₁⟩, hone', rfl, h₁⟩ := parseOneRedirection_along hv h _ hone
    rw [parseRedirection_of_starts hstart', hone']
    exact (ih h₁).bind fun x y _ hxy ↦ .ok ⟨congrArg _ hxy.1, hxy.2⟩
  | case3 p hstart =>
    intro q h
    have hstart' : ¬startsRedirection q.gTok.type = true := by
      rwa [h.test_eq hv startsRedirection rfl]
    rw [parseRedirection, if_neg hstart']
    exact .ok ⟨rfl, h⟩

theorem parseCommand_along (hv : EndsElement v) (h : Along v vs p q) :
    Simulates (AlongWith SameNode v vs) (parseCommand p) (parseCommand q) := by
  have htest : (q.gTok.type = tokWord) = (p.gTok.type = tokWord) :=
    h.test_eq hv (fun type ↦ type = tokWord) (by simp)
  unfold parseCommand
  by_cases hword : p.gTok.type = tokWord
  swap
  · rw [if_pos hword, if_pos (show ¬q.gTok.type = tokWord by rwa [htest])]
    exact .ok ⟨rfl, h⟩
  rw [if_neg (not_not.mpr hword), if_neg (not_not.mpr (show q.gTok.type = tokWord by rwa [htest]))]
  refine (parseArguments_along hv p h).bind ?_
  rintro ⟨ws, p₁⟩ ⟨_, q₁⟩ - ⟨rfl, h₁⟩
  refine (parseRedirection_along hv p₁ h₁).bind ?_
  rintro ⟨rs, p₂⟩ ⟨_, q₂⟩ - ⟨rfl, h₂⟩
  have hbg : decide (q₂.gTok.type = tokBg) = decide (p₂.gTok.type = tokBg) :=
    Along.test_eq h₂ hv (fun type ↦ decide (type = tokBg)) rfl
  refine .ok ⟨?_, Along.newNode h₂⟩
  dsimp only [SameNode]
  rw [Ast.erase, Ast.erase, Along.newNode_fst h₂, hbg]

/-! ### Pipelines and conditionals -/

theorem pipelineLoop_along (hv : EndsElement v) (p : ParserState σ) :
    ∀ {q : ParserState τ}, Along v vs p q →
      Simulates (AlongWith SameNodes v vs) (pipelineLoop p) (pipelineLoop q) := by
  fun_induction pipelineLoop p with
  | case1 => exact fun _ ↦ .error _ _
  | case2 => exact fun _ ↦ .error _ _
  | case3 => exact fun _ ↦ .error _ _
  | case4 p hpipe p₁ hnext nextCommand p₂ hcmd hnull ih =>
    intro q h
    -- a `|` is not the end, so the other parser reads it as well
    have hne : p.gTok.type ≠ tokEof := by rw [hpipe]; decide
    obtain ⟨q₁, hnext', h₁⟩ := h.nextToken hne _ hnext
    obtain ⟨⟨nextCommand', q₂⟩, hcmd', hsame, h₂⟩ := parseCommand_along hv h₁ _ hcmd
    have hnull' : ¬nextCommand'.isNull = true := by rwa [hsame.isNull_eq]
    rw [pipelineLoop_of_pipe (p := q) (h.gTok_eq hne ▸ hpipe), hnext']
    simp only [bind, Except.bind]
    rw [hcmd']
    dsimp only
    rw [if_neg hnull']
    exact (ih h₂).bind fun x y _ hxy ↦ .ok ⟨.cons hsame hxy.1, hxy.2⟩
  | case5 p hpipe =>
    intro q h
    have hpipe' : ¬q.gTok.type = tokPipe := by
      rwa [h.test_eq hv (fun type ↦ type = tokPipe) (by simp)]
    rw [pipelineLoop, dif_neg hpipe']
    exact .ok ⟨rfl, h⟩

theorem parsePipeline_along (hv : EndsElement v) (h : Along v vs p q) :
    Simulates (AlongWith SameNode v vs) (parsePipeline p) (parsePipeline q) := by
  unfold parsePipeline
  refine (parseCommand_along hv h).bind ?_
  rintro ⟨firstCommand, p₁⟩ ⟨firstCommand', q₁⟩ - ⟨hfirst, h₁⟩
  refine (pipelineLoop_along hv _ (Along.newNode h₁)).bind ?_
  rintro ⟨nodes, p₂⟩ ⟨nodes', q₂⟩ - ⟨hnodes, h₂⟩
  dsimp only at hfirst hnodes h₂ ⊢
  by_cases hnil : nodes = []
  · rw [if_pos hnil, if_pos (hnodes.eq_nil_iff.mpr hnil)]
    exact .ok ⟨hfirst, h₂⟩
  · rw [if_neg hnil, if_neg (mt hnodes.eq_nil_iff.mp hnil)]
    refine .ok ⟨?_, h₂⟩
    dsimp only [SameNode]
    rw [Ast.erase, Ast.erase, Along.newNode_fst h₁]
    exact congrArg (fun nodes ↦ Ast.pipeline nodes _) (SameNodes.cons hfirst hnodes)

theorem conditionalLoop_along (hv : EndsElement v) (left : Ast) (p : ParserState σ) :
    ∀ {left' : Ast} {q : ParserState τ}, SameNode left left' → Along v vs p q →
      Simulates (AlongWith SameNode v vs) (conditionalLoop left p) (conditionalLoop left' q) := by
  fun_induction conditionalLoop left p with
  | case1 left p hop =>
    intro left' q hleft h
    have hop' : condOpOf q.gTok.type = none := by rwa [h.test_eq hv condOpOf rfl]
    rw [conditionalLoop_of_none hop']
    exact .ok ⟨hleft, h⟩
  | case2 => exact fun _ _ ↦ .error _ _
  | case3 => exact fun _ _ ↦ .error _ _
  | case4 left p op hop p₁ hnext right p₂ hright ih =>
    intro left' q hleft h
    have hne := ne_tokEof_of_condOpOf hop
    obtain ⟨q₁, hnext', h₁⟩ := h.nextToken hne _ hnext
    obtain ⟨⟨right', q₂⟩, hright', hsame, h₂⟩ := parsePipeline_along hv h₁ _ hright
    rw [conditionalLoop_of_op (p := q) (h.gTok_eq hne ▸ hop), hnext']
    simp only [bind, Except.bind]
    rw [hright']
    refine ih ?_ (Along.newNode h₂)
    dsimp only [SameNode] at hleft hsame ⊢
    rw [Ast.erase, Ast.erase, Along.newNode_fst h₂, hleft, hsame]

theorem parseConditional_along (hv : EndsElement v) (h : Along v vs p q) :
    Simulates (AlongWith SameNode v vs) (parseConditional p) (parseConditional q) := by
  unfold parseConditional
  refine (parsePipeline_along hv h).bind ?_
  rintro ⟨left, p₁⟩ ⟨left', q₁⟩ - ⟨hleft, h₁⟩
  exact conditionalLoop_along hv left p₁ hleft h₁

/-! ### The elements of a line -/

/-- Two parsers at the same place of two copies of a line. -/
theorem skipSeparators_along (hv : v.type = tokEof) (p : ParserState σ) :
    ∀ {q : ParserState τ}, Along v vs p q →
      Simulates (Along v vs) (skipSeparators p) (skipSeparators q) := by
  fun_induction skipSeparators p with
  | case1 => exact fun _ ↦ .error _ _
  | case2 p hsep p₁ hnext ih =>
    intro q h
    have hne := ne_tokEof_of_isSeparator hsep
    obtain ⟨q₁, hnext', h₁⟩ := h.nextToken hne _ hnext
    rw [skipSeparators_of_separator (h.gTok_eq hne ▸ hsep) hnext']
    exact ih h₁
  | case3 p hsep =>
    intro q h
    have hsep' : isSeparator q.gTok.type = false := by
      by_cases heof : p.gTok.type = tokEof
      · rw [(h.of_eof heof).1, hv]
        rfl
      · rw [h.gTok_eq heof]
        simpa using hsep
    rw [skipSeparators_of_not hsep']
    exact .ok h

theorem sequenceLoop_along (hv : v.type = tokEof) (p : ParserState σ) :
    ∀ {q : ParserState τ}, Along v vs p q →
      Simulates (AlongWith SameNodes v vs) (sequenceLoop p) (sequenceLoop q) := by
  fun_induction sequenceLoop p with
  | case1 => exact fun _ ↦ .error _ _
  | case2 p node p₁ hcond hnull =>
    intro q h
    obtain ⟨⟨node', q₁⟩, hcond', hsame, h₁⟩ := parseConditional_along (.inr hv) h _ hcond
    rw [sequenceLoop_of_isNull hcond' (by rwa [hsame.isNull_eq])]
    exact .ok ⟨rfl, h₁⟩
  | case3 => exact fun _ ↦ .error _ _
  | case4 p node p₁ hcond hnull p₂ hskip heof =>
    intro q h
    obtain ⟨⟨node', q₁⟩, hcond', hsame, h₁⟩ := parseConditional_along (.inr hv) h _ hcond
    obtain ⟨q₂, hskip', h₂⟩ := skipSeparators_along hv p₁ h₁ _ hskip
    have heof' : q₂.gTok.type = tokEof := by rw [(h₂.of_eof heof).1, hv]
    rw [sequenceLoop_element hcond' (by simpa [hsame.isNull_eq] using hnull) hskip', if_pos heof']
    exact .ok ⟨.cons hsame rfl, h₂⟩
  | case5 p node p₁ hcond hnull p₂ hskip heof ih =>
    intro q h
    obtain ⟨⟨node', q₁⟩, hcond', hsame, h₁⟩ := parseConditional_along (.inr hv) h _ hcond
    obtain ⟨q₂, hskip', h₂⟩ := skipSeparators_along hv p₁ h₁ _ hskip
    rw [sequenceLoop_element hcond' (by simpa [hsame.isNull_eq] using hnull) hskip',
      if_neg (by rwa [h₂.gTok_eq heof])]
    rintro ⟨nodes, p₃⟩ h
    obtain ⟨⟨nodes', p₃'⟩, hrest, h⟩ := bind_ok.mp h
    cases h
    obtain ⟨⟨nodes'', q₃⟩, hrest', hnodes, h₃⟩ := ih h₂ _ hrest
    rw [hrest']
    exact ⟨_, rfl, .cons hsame hnodes, h₃⟩

/-- Where the first parser comes to the end of its line, the second one passes the `;` as well. -/
theorem skipSeparators_past (hv : v.type = tokSemi) {w : Token} {ws : List Token}
    (hw : isSeparator w.type = false) {p' : ParserState σ} (hskip : skipSeparators p = .ok p')
    (h : Along v (w :: ws) p q) :
    ∃ q', skipSeparators q = .ok q' ∧
      (p'.gTok.type = tokEof → q'.Sees (w :: ws) ∧ q'.Clear true) ∧
      (p'.gTok.type ≠ tokEof → Along v (w :: ws) p' q') := by
  replace hskip := skipSeparators_run hskip
  induction hskip generalizing q with
  | separator hsep hnext _ ih =>
    have hne := ne_tokEof_of_isSeparator hsep
    obtain ⟨q₁, hnext', h₁⟩ := h.nextToken hne _ hnext
    rw [skipSeparators_of_separator (h.gTok_eq hne ▸ hsep) hnext']
    exact ih h₁
  | @done p hsep =>
    -- where this parser is at its end, the other one has the `;` and steps over it
    by_cases heof : p.gTok.type = tokEof
    · obtain ⟨q₁, hnext, hsees, hheap⟩ := nextToken_of_sees (h.of_eof heof)
      have hsemi : isSeparator q.gTok.type = true := by
        rw [(h.of_eof heof).1, hv]
        rfl
      have hstop : isSeparator q₁.gTok.type = false := by rwa [hsees.1]
      rw [skipSeparators_of_separator hsemi hnext, skipSeparators_of_not hstop]
      exact ⟨q₁, rfl, fun _ ↦ ⟨hsees, clear_of_heap h.clear' hheap⟩, fun hne ↦ absurd heof hne⟩
    · have hsep' : isSeparator q.gTok.type = false := by rwa [h.gTok_eq heof]
      exact ⟨q, skipSeparators_of_not hsep', fun hc ↦ absurd hc heof, fun _ ↦ h⟩

/-- The elements of the first line, and then what follows the `;`. -/
theorem sequenceLoop_past (hv : v.type = tokSemi) {w : Token} {ws : List Token}
    (hw : isSeparator w.type = false) {nodes : List Ast} {p' : ParserState σ}
    (hloop : sequenceLoop p = .ok (nodes, p')) (heof : p'.gTok.type = tokEof)
    (hne : p.gTok.type ≠ tokEof) (h : Along v (w :: ws) p q) :
    ∃ nodes' q₀, SameNodes nodes nodes' ∧ q₀.Sees (w :: ws) ∧ q₀.Clear true ∧
      sequenceLoop q = if q₀.gTok.type = tokEof then .ok (nodes', q₀)
        else (sequenceLoop q₀).map fun (rest, q') ↦ (nodes' ++ rest, q') := by
  replace hloop := sequenceLoop_run hloop
  induction hloop generalizing q with
  | null hcond hnull =>
    exact absurd (((parseConditional_reads hcond).2 hnull).1 ▸ heof) hne
  | last hcond hnull hskip _ =>
    obtain ⟨⟨node', q₁⟩, hcond', hsame, h₁⟩ := parseConditional_along (.inl hv) h _ hcond
    obtain ⟨q₂, hskip', hpast, -⟩ := skipSeparators_past hv hw hskip h₁
    -- the last element of the first line: behind it the second line begins
    obtain ⟨hsees, hclear⟩ := hpast heof
    refine ⟨[node'], q₂, .cons hsame rfl, hsees, hclear, ?_⟩
    exact sequenceLoop_element hcond' (by rwa [hsame.isNull_eq]) hskip'
  | element hcond hnull hskip heof₂ _ ih =>
    obtain ⟨⟨node', q₁⟩, hcond', hsame, h₁⟩ := parseConditional_along (.inl hv) h _ hcond
    obtain ⟨q₂, hskip', -, hbefore⟩ := skipSeparators_past hv hw hskip h₁
    have h₂ := hbefore heof₂
    obtain ⟨nodes', q₀, hnodes, hsees, hclear, hq⟩ := ih heof heof₂ h₂
    refine ⟨node' :: nodes', q₀, .cons hsame hnodes, hsees, hclear, ?_⟩
    rw [sequenceLoop_element hcond' (by rwa [hsame.isNull_eq]) hskip',
      if_neg (by rwa [h₂.gTok_eq heof₂]), hq]
    split
    · rfl
    · cases sequenceLoop q₀ <;> rfl

end

/-! ## The joined line -/

theorem tokens_of_delivers {e : Token} (he : e.type = tokEof) (toks : List Token) :
    ∀ {s : σ}, (∀ tok ∈ toks, tok.type ≠ tokEof) → Delivers s (toks ++ [e]) →
      TokenSource.tokens s = toks := by
  induction toks with
  | nil =>
    rintro s - ⟨s', hnext, -⟩
    rw [TokenSource.tokens]
    split
    · rfl
    next hnext' =>
    cases hnext.symm.trans hnext'
    rw [dif_pos he]
  | cons tok toks ih =>
    rintro s hne ⟨s', hnext, hrest⟩
    rw [TokenSource.tokens]
    split
    · next hnone => cases hnext.symm.trans hnone
    next hnext' =>
    cases hnext.symm.trans hnext'
    rw [dif_neg (hne tok List.mem_cons_self),
      ih (fun t ht ↦ hne t (List.mem_cons_of_mem _ ht)) hrest]

/-- The first token of a line. -/
theorem nextToken_of_delivers {s : σ} (g : Token) (heap : ℕ → Bool) {tok : Token}
    {toks : List Token} (h : Delivers s (tok :: toks)) :
    ∃ p, nextToken ⟨s, g, heap⟩ = .ok p ∧ p.Sees (tok :: toks) ∧ ∀ n, p.heap n = heap n := by
  have hstart : (⟨s, g, heap⟩ : ParserState σ).Sees (g :: tok :: toks) := ⟨rfl, h⟩
  obtain ⟨p, hnext, hsees, hheap⟩ := nextToken_of_sees hstart
  exact ⟨p, hnext, hsees, congrFun hheap⟩

theorem gTok_ne_eof {p : ParserState σ} {toks rest : List Token} (hcons : toks ≠ [])
    (hne : ∀ tok ∈ toks, tok.type ≠ tokEof) (hsees : p.Sees (toks ++ rest)) :
    p.gTok.type ≠ tokEof := by
  obtain ⟨tok, toks, rfl⟩ := List.exists_cons_of_ne_nil hcons
  rw [hsees.1]
  exact hne tok List.mem_cons_self

/-- A line that begins with a separator is not parsed to its end. -/
theorem isSeparator_eq_false_of_head {s : σ} {g : Token} {heap : ℕ → Bool} {node : Ast}
    {p' : ParserState σ} {e w : Token} {ws : List Token}
    (h : parserCreateAst ⟨s, g, heap⟩ = .ok (node, p')) (heof : p'.gTok.type = tokEof)
    (he : e.type = tokEof) (hw : TokenSource.tokens s ++ [e] = w :: ws) :
    isSeparator w.type = false := by
  have hplaced := (parserCreateAst_reads h).1.mp heof
  cases htoks : TokenSource.tokens s with
  | nil =>
    rw [htoks] at hw
    cases hw
    rw [he]
    rfl
  | cons tok toks =>
    rw [htoks] at hw hplaced
    cases hw
    exact (hplaced.first _ rfl).1

/-- A line that is parsed to its end: the parser behind the first token, and what its loop does
from there. -/
structure ParsedFrom (toks : List Token) (node : Ast) (p p' : ParserState σ) : Prop where
  sees : ∃ e, e.type = tokEof ∧ p.Sees (toks ++ [e])
  ne : ∀ tok ∈ toks, tok.type ≠ tokEof
  eof : p'.gTok.type = tokEof
  none : toks = [] → node = .null
  some : toks ≠ [] → sequenceLoop p = .ok (node.elements, p') ∧
    node = .sequence node.elements false

theorem parsedFrom_of_parserCreateAst {s : σ} {g : Token} {heap : ℕ → Bool} {node : Ast}
    {p' : ParserState σ} (hheap : ∀ n, heap n = false)
    (h : parserCreateAst ⟨s, g, heap⟩ = .ok (node, p')) (heof : p'.gTok.type = tokEof) :
    ∃ p, ParsedFrom (TokenSource.tokens s) node p p' ∧ p.Clear true := by
  obtain ⟨toks, hne, hdelivers⟩ := parserCreateAst_delivers h heof
  rw [tokens_of_delivers heof toks hne hdelivers]
  obtain ⟨p₁, hnext, h⟩ := bind_ok.mp h
  obtain ⟨u, us, hu⟩ := exists_append_cons toks p'.gTok []
  obtain ⟨p₁', hnext', hsees, hheap'⟩ := nextToken_of_delivers g heap (hu ▸ hdelivers)
  cases hnext.symm.trans hnext'
  have hclear : p₁.Clear true := fun _ n ↦ (hheap' n).trans (hheap n)
  refine ⟨p₁.newNode.2, ⟨⟨_, heof, hu ▸ hsees⟩, hne, heof, fun hnil ↦ ?_, fun hcons ↦ ?_⟩,
    (clear_newNode hclear).2⟩
  · have htype : p₁.gTok.type = tokEof := by
      subst hnil
      cases hu
      rw [hsees.1, heof]
    dsimp only at h
    rw [if_pos htype] at h
    cases h
    rfl
  · have htype : p₁.gTok.type ≠ tokEof := gTok_ne_eof hcons hne (hu ▸ hsees)
    dsimp only at h
    rw [if_neg htype] at h
    obtain ⟨⟨nodes, p₂⟩, hloop, h⟩ := bind_ok.mp h
    cases h
    exact ⟨hloop, congrArg (Ast.sequence nodes) (hclear rfl 0)⟩

/-- What the loop makes of a copy of the line. -/
theorem ParsedFrom.copy {toks : List Token} {node : Ast} {p p' : ParserState σ}
    {q : ParserState τ} {e : Token} (h : ParsedFrom toks node p p') (hclear : p.Clear true)
    (he : e.type = tokEof) (hsees : q.Sees (toks ++ [e])) (hclear' : q.Clear true)
    (hne : q.gTok.type ≠ tokEof) :
    ∃ nodes q', sequenceLoop q = .ok (nodes, q') ∧ q'.gTok.type = tokEof ∧
      SameNodes node.elements nodes := by
  have hcons : toks ≠ [] := by
    rintro rfl
    exact hne (hsees.1 ▸ he)
  obtain ⟨hloop, -⟩ := h.some hcons
  obtain ⟨e', he', hsees'⟩ := h.sees
  have halong : Along e [] p q := ⟨⟨toks, e', h.ne, he', hsees', hsees⟩, hclear, hclear'⟩
  obtain ⟨⟨nodes, q'⟩, hloop', hnodes, halong'⟩ := sequenceLoop_along he p halong _ hloop
  exact ⟨nodes, q', hloop', by rw [(Along.of_eof halong' h.eof).1, he], hnodes⟩

/-- **Two lines on one.** The parser makes of `a ; b` the elements of `a` and then those of `b`. -/
theorem parserCreateAst_join {s₁ s₂ : σ} {s : τ} {g₁ g₂ g : Token} {heap₁ heap₂ heap : ℕ → Bool}
    {node₁ node₂ : Ast} {p₁ p₂ : ParserState σ} {e : Token} (hheap₁ : ∀ n, heap₁ n = false)
    (hheap₂ : ∀ n, heap₂ n = false) (hheap : ∀ n, heap n = false)
    (h₁ : parserCreateAst ⟨s₁, g₁, heap₁⟩ = .ok (node₁, p₁)) (heof₁ : p₁.gTok.type = tokEof)
    (h₂ : parserCreateAst ⟨s₂, g₂, heap₂⟩ = .ok (node₂, p₂)) (heof₂ : p₂.gTok.type = tokEof)
    (hne : TokenSource.tokens s₁ ≠ []) (he : e.type = tokEof)
    (hs : Delivers s (TokenSource.tokens s₁ ++ .operator tokSemi ::
      (TokenSource.tokens s₂ ++ [e]))) :
    ∃ node p, parserCreateAst ⟨s, g, heap⟩ = .ok (node, p) ∧ p.gTok.type = tokEof ∧
      SameNode node (.sequence (node₁.elements ++ node₂.elements) false) := by
  obtain ⟨p, hfirst, hclear⟩ := parsedFrom_of_parserCreateAst hheap₁ h₁ heof₁
  obtain ⟨p', hsecond, hclear'⟩ := parsedFrom_of_parserCreateAst hheap₂ h₂ heof₂
  obtain ⟨hloop, -⟩ := hfirst.some hne
  -- the parser of both lines behind its first token
  obtain ⟨w, ws, hw⟩ := exists_append_cons (TokenSource.tokens s₂) e []
  obtain ⟨u, us, hu⟩ := exists_append_cons (TokenSource.tokens s₁) (.operator tokSemi) (w :: ws)
  rw [hw, hu] at hs
  obtain ⟨q, hnext, hsees, hheapq⟩ := nextToken_of_delivers g heap hs
  have hclearq : q.Clear true := fun _ n ↦ (hheapq n).trans (hheap n)
  obtain ⟨e₁, he₁, hseesp⟩ := hfirst.sees
  have halong : Along (.operator tokSemi) (w :: ws) p q.newNode.2 :=
    ⟨⟨_, e₁, hfirst.ne, he₁, hseesp, hu ▸ hsees⟩, hclear, (clear_newNode hclearq).2⟩
  have hpne : p.gTok.type ≠ tokEof := gTok_ne_eof hne hfirst.ne hseesp
  have hwsep : isSeparator w.type = false := isSeparator_eq_false_of_head h₂ heof₂ he hw
  obtain ⟨nodes, q₀, hnodes, hsees₀, hclear₀, hloopq⟩ :=
    sequenceLoop_past rfl hwsep hloop heof₁ hpne halong
  have hqne : ¬q.gTok.type = tokEof := by
    rw [show q.gTok = p.gTok from halong.gTok_eq hpne]
    exact hpne
  rw [parserCreateAst, hnext]
  simp only [bind, Except.bind]
  rw [if_neg hqne, hloopq]
  have hseq : ∀ {ns ns' : List Ast}, SameNodes ns ns' →
      SameNode (.sequence ns' q.newNode.1) (.sequence ns false) := by
    intro ns ns' h
    rw [SameNode, Ast.erase, Ast.erase, (clear_newNode hclearq).1, h]
    rfl
  by_cases heof₀ : q₀.gTok.type = tokEof
  · -- the second line is empty
    have hnil : TokenSource.tokens s₂ = [] :=
      of_not_not fun hcons ↦ gTok_ne_eof hcons hsecond.ne (hw ▸ hsees₀) heof₀
    have hall : SameNodes (node₁.elements ++ node₂.elements) nodes := by
      rw [hsecond.none hnil]
      change SameNodes (node₁.elements ++ []) nodes
      rwa [List.append_nil]
    rw [if_pos heof₀]
    exact ⟨_, q₀, rfl, heof₀, hseq hall⟩
  · obtain ⟨nodes', q', hloop', heof', hnodes'⟩ :=
      hsecond.copy hclear' he (hw ▸ hsees₀) hclear₀ heof₀
    rw [if_neg heof₀, hloop']
    exact ⟨_, q', rfl, heof', hseq (hnodes.append hnodes')⟩

end Novash
