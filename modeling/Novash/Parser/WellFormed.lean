import Novash.Parser.JoinLines
import Novash.Parser.Operands
import Novash.Parser.Views

/-!
# The trees that are built

Parsing undoes printing; here is the other half. A tree that the parser builds and that has no
missing parts is the tree of a line of the grammar, and of one only (`existsUnique_line`): nothing
else is accepted, and no two lines have the same tree.

Each loop gives a level of the grammar what the one below gives it. The background flag is carried
upwards: a command has it if `&` follows, and that is so for the last command of an element at most,
since the others are followed by an operator.
-/

namespace Novash

open Foundations TokenType RedirectionType CondOp ParserState

namespace Grammar

/-! ## Different lines have different trees -/

theorem Redir.eq_of_toRedirection {r r' : Redir} (h : r.toRedirection = r'.toRedirection) :
    r = r' := by
  obtain ⟨fd, type, target, hfd⟩ := r
  obtain ⟨fd', type', target', hfd'⟩ := r'
  cases h
  rfl

theorem Command.eq_of_toAst {b b' : Bool} {c c' : Command} (h : c.toAst b = c'.toAst b') :
    b = b' ∧ c = c' := by
  obtain ⟨first, args, redirs⟩ := c
  obtain ⟨first', args', redirs'⟩ := c'
  rw [Command.toAst, Command.toAst, Ast.cmd.injEq, CmdNode.mk.injEq, List.cons.injEq] at h
  obtain ⟨⟨⟨rfl, rfl⟩, -, hredirs, -, rfl⟩, -⟩ := h
  have hinj : Function.Injective Redir.toRedirection := fun _ _ ↦ Redir.eq_of_toRedirection
  obtain rfl : redirs = redirs' := List.map_injective_iff.mpr hinj hredirs
  exact ⟨rfl, rfl⟩

theorem eq_of_commandsToAst {b b' : Bool} {cs : List Command} : ∀ {cs' : List Command},
    commandsToAst b cs = commandsToAst b' cs' → cs = cs' ∧ (cs ≠ [] → b = b') := by
  induction cs with
  | nil =>
    intro cs' h
    cases cs' with
    | nil => exact ⟨rfl, fun hne ↦ absurd rfl hne⟩
    | cons c' cs' => exact nomatch h
  | cons c cs ih =>
    intro cs' h
    cases cs' with
    | nil => exact nomatch h
    | cons c' cs' =>
      rw [commandsToAst, commandsToAst, List.cons.injEq] at h
      obtain ⟨hb, rfl⟩ := Command.eq_of_toAst h.1
      obtain ⟨rfl, hlast⟩ := ih h.2
      refine ⟨rfl, fun _ ↦ ?_⟩
      cases cs with
      | nil => simpa using hb
      | cons => exact hlast (List.cons_ne_nil _ _)

theorem Pipeline.eq_of_toAst {b b' : Bool} {p p' : Pipeline} (h : p.toAst b = p'.toAst b') :
    b = b' ∧ p = p' := by
  obtain ⟨first, rest⟩ := p
  obtain ⟨first', rest'⟩ := p'
  rw [Pipeline.toAst, Pipeline.toAst] at h
  dsimp only at h
  split_ifs at h with hrest hrest' hrest'
  · obtain ⟨hb, rfl⟩ := Command.eq_of_toAst h
    rw [hrest, hrest']
    exact ⟨hb, rfl⟩
  · rw [Command.toAst] at h
    cases h
  · rw [Command.toAst] at h
    cases h
  · rw [Ast.pipeline.injEq, List.cons.injEq] at h
    obtain ⟨-, rfl⟩ := Command.eq_of_toAst h.1.1
    obtain ⟨rfl, hb⟩ := eq_of_commandsToAst h.1.2
    exact ⟨hb hrest, rfl⟩

/-- The pipelines of a chain, and the operators between them. -/
def unchain : Ast → Ast × List (CondOp × Ast)
  | .conditional left right op _ => ((unchain left).1, (unchain left).2 ++ [(op, right)])
  | node => (node, [])

/-- The pipelines after the first one; only the last of them can be marked. -/
def restToAst (isBg : Bool) : List (CondOp × Pipeline) → List (CondOp × Ast)
  | [] => []
  | (op, p) :: rest => (op, p.toAst (isBg && rest.isEmpty)) :: restToAst isBg rest

theorem unchain_chainToAst (isBg : Bool) (rest : List (CondOp × Pipeline)) : ∀ left : Ast,
    unchain (chainToAst isBg left rest)
      = ((unchain left).1, (unchain left).2 ++ restToAst isBg rest) := by
  induction rest with
  | nil => exact fun left ↦ by rw [chainToAst, restToAst, List.append_nil]
  | cons x rest ih =>
    obtain ⟨op, p⟩ := x
    intro left
    rw [chainToAst, ih, unchain, restToAst, List.append_assoc, List.singleton_append]

theorem unchain_pipeline (isBg : Bool) (p : Pipeline) :
    unchain (p.toAst isBg) = (p.toAst isBg, []) := by
  rw [Pipeline.toAst]
  split <;> rfl

theorem eq_of_restToAst {b b' : Bool} {rest : List (CondOp × Pipeline)} :
    ∀ {rest' : List (CondOp × Pipeline)},
      restToAst b rest = restToAst b' rest' → rest = rest' ∧ (rest ≠ [] → b = b') := by
  induction rest with
  | nil =>
    intro rest' h
    cases rest' with
    | nil => exact ⟨rfl, fun hne ↦ absurd rfl hne⟩
    | cons x' rest' => exact nomatch h
  | cons x rest ih =>
    intro rest' h
    cases rest' with
    | nil => exact nomatch h
    | cons x' rest' =>
      obtain ⟨op, p⟩ := x
      obtain ⟨op', p'⟩ := x'
      rw [restToAst, restToAst, List.cons.injEq, Prod.mk.injEq] at h
      obtain ⟨⟨rfl, hp⟩, hrest⟩ := h
      obtain ⟨hb, rfl⟩ := Pipeline.eq_of_toAst hp
      obtain ⟨rfl, hlast⟩ := ih hrest
      refine ⟨rfl, fun _ ↦ ?_⟩
      cases rest with
      | nil => simpa using hb
      | cons => exact hlast (List.cons_ne_nil _ _)

theorem Element.eq_of_toAst {e e' : Element} (h : e.toAst = e'.toAst) : e = e' := by
  obtain ⟨⟨first, rest⟩, isBg⟩ := e
  obtain ⟨⟨first', rest'⟩, isBg'⟩ := e'
  have hun := congrArg unchain h
  rw [Element.toAst, Element.toAst, Chain.toAst, Chain.toAst, unchain_chainToAst,
    unchain_chainToAst, unchain_pipeline, unchain_pipeline, Prod.mk.injEq] at hun
  obtain ⟨hfirst, hrest⟩ := hun
  obtain ⟨hb, rfl⟩ := Pipeline.eq_of_toAst hfirst
  obtain ⟨rfl, hlast⟩ := eq_of_restToAst hrest
  have hbg : isBg = isBg' := by
    cases rest with
    | nil => simpa using hb
    | cons => exact hlast (List.cons_ne_nil _ _)
  rw [hbg]

theorem Line.eq_of_toAst {l l' : Line} (h : l.toAst = l'.toAst) : l = l' := by
  have hinj : Function.Injective Element.toAst := fun _ _ ↦ Element.eq_of_toAst
  rw [Line.toAst, Line.toAst, Ast.sequence.injEq] at h
  obtain ⟨first, rest⟩ := l
  obtain ⟨first', rest'⟩ := l'
  obtain ⟨rfl, rfl⟩ := List.cons.inj (List.map_injective_iff.mpr hinj h.1)
  rfl

/-! ## They have no missing parts, and nothing to forget -/

section

variable (keepInvalid : Bool)

theorem eraseList_commandsToAst (isBg : Bool) (cs : List Command) :
    Ast.eraseList keepInvalid (commandsToAst isBg cs) = commandsToAst isBg cs := by
  induction cs with
  | nil => rfl
  | cons c cs ih =>
    rw [commandsToAst, Ast.eraseList, ih, Command.toAst, Ast.erase, Bool.and_false]

theorem Pipeline.erase_toAst (isBg : Bool) (p : Pipeline) :
    (p.toAst isBg).erase keepInvalid = p.toAst isBg := by
  rw [Pipeline.toAst]
  split
  · rw [Command.toAst, Ast.erase, Bool.and_false]
  · rw [Ast.erase, Ast.eraseList, eraseList_commandsToAst, Command.toAst, Ast.erase,
      Bool.and_false]

theorem erase_chainToAst (isBg : Bool) (rest : List (CondOp × Pipeline)) : ∀ left : Ast,
    (chainToAst isBg left rest).erase keepInvalid
      = chainToAst isBg (left.erase keepInvalid) rest := by
  induction rest with
  | nil => exact fun _ ↦ rfl
  | cons x rest ih =>
    obtain ⟨op, p⟩ := x
    intro left
    rw [chainToAst, ih, Ast.erase, Pipeline.erase_toAst, Bool.and_false, chainToAst]

theorem eraseList_elements (es : List Element) :
    Ast.eraseList keepInvalid (es.map Element.toAst) = es.map Element.toAst := by
  induction es with
  | nil => rfl
  | cons e es ih =>
    rw [List.map_cons, Ast.eraseList, ih, Element.toAst, Chain.toAst, erase_chainToAst,
      Pipeline.erase_toAst]

theorem Line.erase_toAst (l : Line) : l.toAst.erase keepInvalid = l.toAst := by
  rw [Line.toAst, Ast.erase, eraseList_elements, Bool.and_false]

end

theorem complete_commandsToAst (isBg : Bool) (cs : List Command) :
    (commandsToAst isBg cs).length = cs.length ∧
      (commandsToAst isBg cs).all Ast.isCommand = true ∧
      Ast.CompleteList (commandsToAst isBg cs) := by
  induction cs with
  | nil => exact ⟨rfl, rfl, trivial⟩
  | cons c cs ih =>
    obtain ⟨hlength, hall, hcomplete⟩ := ih
    exact ⟨congrArg (· + 1) hlength, hall, List.cons_ne_nil _ _, hcomplete⟩

theorem Pipeline.complete_toAst (isBg : Bool) (p : Pipeline) : (p.toAst isBg).Complete := by
  rw [Pipeline.toAst]
  split
  · exact List.cons_ne_nil _ _
  · next hrest =>
    obtain ⟨hlength, hall, hcomplete⟩ := complete_commandsToAst isBg p.rest
    refine ⟨?_, hall, List.cons_ne_nil _ _, hcomplete⟩
    rw [List.length_cons, hlength]
    exact Nat.succ_le_succ (List.length_pos_of_ne_nil hrest)

theorem complete_chainToAst (isBg : Bool) (rest : List (CondOp × Pipeline)) : ∀ {left : Ast},
    left.Complete → (chainToAst isBg left rest).Complete := by
  induction rest with
  | nil => exact id
  | cons x rest ih => exact fun hleft ↦ ih ⟨hleft, x.2.complete_toAst _⟩

theorem Line.complete_toAst (l : Line) : l.toAst.Complete := by
  rw [Line.toAst]
  change Ast.CompleteList _
  induction l.first :: l.rest with
  | nil => trivial
  | cons e es ih =>
    exact ⟨complete_chainToAst e.isBg e.chain.rest (e.chain.first.complete_toAst _), ih⟩

end Grammar

/-! ## Every tree without missing parts is one of them -/

section

variable {σ : Type} [TokenSource σ] {p p' : ParserState σ} {node : Ast} {keepInvalid : Bool}

/-- The lookahead marks the command before it. -/
def ParserState.marks (p : ParserState σ) : Bool := p.gTok.type = tokBg

theorem clear_nextToken (h : nextToken p = .ok p') (hclear : p.Clear keepInvalid) :
    p'.Clear keepInvalid := by
  unfold nextToken at h
  split at h <;> cases h
  exact hclear

theorem clear_arguments {ws : List Word} (h : ArgumentsRun p ws p') (hclear : p.Clear keepInvalid) :
    p'.Clear keepInvalid := by
  induction h with
  | done => exact hclear
  | word _ hnext _ ih => exact ih (clear_nextToken hnext hclear)

/-- A redirection that is parsed can be written. -/
theorem exists_redir (keepInvalid : Bool) {r : Redirection}
    (h : parseOneRedirection p = .ok (r, p')) :
    (∃ r' : Grammar.Redir, r = r'.toRedirection) ∧
      (p.Clear keepInvalid → p'.Clear keepInvalid) := by
  obtain ⟨⟨fd, p₁⟩, hfd, h⟩ := bind_ok.mp h
  have hclear₁ : p.Clear keepInvalid → p₁.Clear keepInvalid := by
    unfold parseFd at hfd
    split_ifs at hfd
    · obtain ⟨q, hnext, hfd⟩ := bind_ok.mp hfd
      cases hfd
      exact clear_nextToken hnext
    · cases hfd
      exact id
  dsimp only at h
  split at h
  · cases h
  next type fd' hop =>
  obtain ⟨p₂, hnext, h⟩ := bind_ok.mp h
  split_ifs at h
  obtain ⟨p₃, hnext', h⟩ := bind_ok.mp h
  cases h
  refine ⟨⟨⟨fd', type, p₂.gTok.parts, fun hin hzero ↦ ?_⟩, rfl⟩, fun hclear ↦
    clear_nextToken hnext' (clear_nextToken hnext (hclear₁ hclear))⟩
  -- an output from descriptor 0 would have gone to descriptor 1
  unfold redirectionOf at hop
  split at hop <;> cases hop
  · exact hin rfl
  all_goals
    split_ifs at hzero with hfd0
    · cases hzero
    · exact hfd0 hzero

theorem exists_redirs (keepInvalid : Bool) {rs : List Redirection}
    (h : RedirectionRun p rs p') :
    (∃ rs' : List Grammar.Redir, rs = rs'.map Grammar.Redir.toRedirection) ∧
      (p.Clear keepInvalid → p'.Clear keepInvalid) := by
  induction h with
  | done => exact ⟨⟨[], rfl⟩, id⟩
  | one _ hone _ ih =>
    obtain ⟨⟨r, rfl⟩, hclear⟩ := exists_redir keepInvalid hone
    obtain ⟨⟨rs, rfl⟩, hclears⟩ := ih
    exact ⟨⟨r :: rs, rfl⟩, hclears ∘ hclear⟩

theorem exists_command (h : parseCommand p = .ok (node, p')) (hclear : p.Clear keepInvalid) :
    p'.Clear keepInvalid ∧
      (node = .null ∨ ∃ c : Grammar.Command, node.erase keepInvalid = c.toAst p'.marks) := by
  unfold parseCommand at h
  split_ifs at h with hword
  · cases h
    exact ⟨hclear, .inl rfl⟩
  obtain ⟨⟨ws, p₁⟩, hargs, h⟩ := bind_ok.mp h
  obtain ⟨⟨rs, p₂⟩, hredir, h⟩ := bind_ok.mp h
  cases h
  obtain ⟨⟨rs, rfl⟩, hclear₂⟩ := exists_redirs keepInvalid (parseRedirection_run hredir)
  obtain ⟨hinvalid, hclear'⟩ :=
    clear_newNode (hclear₂ (clear_arguments (parseArguments_run hargs) hclear))
  refine ⟨hclear', .inr ?_⟩
  cases parseArguments_run hargs with
  | done hnot => exact absurd hnot hword
  | @word _ _ _ ws' =>
    refine ⟨⟨p.gTok.parts, ws', rs⟩, ?_⟩
    rw [Ast.erase, hinvalid]
    rfl

/-- The commands behind a `|` are not `NULL`. -/
theorem exists_commands {nodes : List Ast} (h : PipelineRun p nodes p')
    (hclear : p.Clear keepInvalid) :
    p'.Clear keepInvalid ∧
      ∃ cs, Ast.eraseList keepInvalid nodes = Grammar.commandsToAst p'.marks cs ∧
        (cs = [] → p'.gTok = p.gTok) ∧ (cs ≠ [] → p.marks = false) := by
  induction h with
  | done => exact ⟨hclear, [], rfl, fun _ ↦ rfl, fun h ↦ absurd rfl h⟩
  | command hpipe hnext hcmd hnull _ ih =>
    obtain ⟨hclear₂, hcommand⟩ := exists_command hcmd (clear_nextToken hnext hclear)
    obtain ⟨hclear', cs, hcs, hnil, hcons⟩ := ih hclear₂
    refine ⟨hclear', ?_⟩
    rcases hcommand with rfl | ⟨c, hc⟩
    · cases hnull
    refine ⟨c :: cs, ?_, (nomatch ·), fun _ ↦ ?_⟩
    · rw [Ast.eraseList, Grammar.commandsToAst, hc, hcs]
      congr 2
      cases cs with
      | nil => rw [List.isEmpty_nil, Bool.and_true, marks, marks, hnil rfl]
      | cons => rw [hcons (List.cons_ne_nil _ _), List.isEmpty_cons, Bool.and_false]
    · rw [marks, hpipe]
      rfl

theorem exists_pipeline (h : parsePipeline p = .ok (node, p')) (hclear : p.Clear keepInvalid) :
    p'.Clear keepInvalid ∧
      (node.Complete → ∃ q : Grammar.Pipeline, node.erase keepInvalid = q.toAst p'.marks) := by
  obtain ⟨⟨firstCommand, p₁⟩, hcmd, h⟩ := bind_ok.mp h
  obtain ⟨⟨nodes, p₂⟩, hloop, h⟩ := bind_ok.mp h
  obtain ⟨hclear₁, hfirst⟩ := exists_command hcmd hclear
  obtain ⟨hinvalid, hclear₁'⟩ := clear_newNode hclear₁
  obtain ⟨hclear₂, cs, hcs, hnil, hcons⟩ := exists_commands (pipelineLoop_run hloop) hclear₁'
  dsimp only at h
  split_ifs at h with hnodes
  · cases h
    refine ⟨hclear₂, fun hcomplete ↦ ?_⟩
    rcases hfirst with rfl | ⟨c, hc⟩
    · exact hcomplete.elim
    have hnone : cs = [] := by
      rw [hnodes] at hcs
      cases cs with
      | nil => rfl
      | cons => exact absurd hcs.symm (List.cons_ne_nil _ _)
    refine ⟨⟨c, []⟩, ?_⟩
    rw [Grammar.Pipeline.toAst, if_pos rfl, hc, marks, marks, hnil hnone]
    rfl
  · cases h
    refine ⟨hclear₂, fun hcomplete ↦ ?_⟩
    rcases hfirst with rfl | ⟨c, hc⟩
    · exact absurd hcomplete.2.1 Bool.false_ne_true
    have hsome : cs ≠ [] := by
      rintro rfl
      cases nodes with
      | nil => exact hnodes rfl
      | cons => exact absurd hcs (List.cons_ne_nil _ _)
    have hmark : p₁.marks = false := hcons hsome
    refine ⟨⟨c, cs⟩, ?_⟩
    rw [Ast.erase, Ast.eraseList, hinvalid, Grammar.Pipeline.toAst, if_neg hsome, hc, hcs, hmark]

theorem complete_left {left : Ast} (h : ConditionalRun left p node p')
    (hcomplete : node.Complete) : left.Complete := by
  induction h with
  | done => exact hcomplete
  | operand _ _ _ _ ih => exact (ih hcomplete).1

/-- A chain of pipelines goes on with what it has on its left. -/
theorem exists_rest {left : Ast} (h : ConditionalRun left p node p')
    (hclear : p.Clear keepInvalid) :
    p'.Clear keepInvalid ∧ (node.Complete →
      ∃ rest, node.erase keepInvalid
          = Grammar.chainToAst p'.marks (left.erase keepInvalid) rest ∧
        (rest = [] → p'.gTok = p.gTok) ∧ (rest ≠ [] → p.marks = false)) := by
  induction h with
  | done => exact ⟨hclear, fun _ ↦ ⟨[], rfl, fun _ ↦ rfl, fun h ↦ absurd rfl h⟩⟩
  | @operand left p op p₁ right p₂ node p' hop hnext hright hrun ih =>
    obtain ⟨hclear₂, hpipeline⟩ := exists_pipeline hright (clear_nextToken hnext hclear)
    obtain ⟨hinvalid, hclear₂'⟩ := clear_newNode hclear₂
    obtain ⟨hclear', hrest⟩ := ih hclear₂'
    refine ⟨hclear', fun hcomplete ↦ ?_⟩
    obtain ⟨q, hq⟩ := hpipeline (complete_left hrun hcomplete).2
    obtain ⟨rest, hnode, hnil, hcons⟩ := hrest hcomplete
    have hmark : (p'.marks && rest.isEmpty) = p₂.marks := by
      cases rest with
      | nil => rw [List.isEmpty_nil, Bool.and_true, marks, hnil rfl]; rfl
      | cons =>
        have hmark : p₂.marks = false := hcons (List.cons_ne_nil _ _)
        rw [List.isEmpty_cons, Bool.and_false, hmark]
    refine ⟨(op, q) :: rest, ?_, (nomatch ·), fun _ ↦ ?_⟩
    · rw [hnode, Ast.erase, hinvalid, Grammar.chainToAst, hmark, hq]
    · rw [marks, decide_eq_false]
      intro hbg
      rw [hbg] at hop
      cases hop

theorem exists_chain (h : parseConditional p = .ok (node, p')) (hclear : p.Clear keepInvalid) :
    p'.Clear keepInvalid ∧
      (node.Complete → ∃ c : Grammar.Chain, node.erase keepInvalid = c.toAst p'.marks) := by
  obtain ⟨⟨left, p₁⟩, hleft, h⟩ := bind_ok.mp h
  have hrun := conditionalLoop_run h
  obtain ⟨hclear₁, hfirst⟩ := exists_pipeline hleft hclear
  obtain ⟨hclear', hrest⟩ := exists_rest hrun hclear₁
  refine ⟨hclear', fun hcomplete ↦ ?_⟩
  obtain ⟨q, hq⟩ := hfirst (complete_left hrun hcomplete)
  obtain ⟨rest, hnode, hnil, hcons⟩ := hrest hcomplete
  refine ⟨⟨q, rest⟩, ?_⟩
  rw [hnode, hq, Grammar.Chain.toAst]
  congr 2
  cases rest with
  | nil => rw [List.isEmpty_nil, Bool.and_true, marks, marks, hnil rfl]
  | cons => rw [hcons (List.cons_ne_nil _ _), List.isEmpty_cons, Bool.and_false]

theorem clear_skipSeparators (h : SeparatorsRun p p') (hclear : p.Clear keepInvalid) :
    p'.Clear keepInvalid := by
  induction h with
  | done => exact hclear
  | separator _ hnext _ ih => exact ih (clear_nextToken hnext hclear)

theorem exists_elements {nodes : List Ast} (h : SequenceRun p nodes p')
    (hclear : p.Clear keepInvalid) (hcomplete : Ast.CompleteList nodes) :
    ∃ es : List Grammar.Element,
      Ast.eraseList keepInvalid nodes = es.map Grammar.Element.toAst := by
  induction h with
  | null => exact ⟨[], rfl⟩
  | @last p node p₁ p₂ hcond =>
    obtain ⟨c, hc⟩ := (exists_chain hcond hclear).2 hcomplete.1
    refine ⟨[⟨c, p₁.marks⟩], ?_⟩
    rw [Ast.eraseList, hc]
    rfl
  | @element p node p₁ p₂ nodes p' hcond hnull hskip heof hrest ih =>
    obtain ⟨hclear₁, hchain⟩ := exists_chain hcond hclear
    obtain ⟨c, hc⟩ := hchain hcomplete.1
    obtain ⟨es, hes⟩ := ih (clear_skipSeparators (skipSeparators_run hskip) hclear₁) hcomplete.2
    refine ⟨⟨c, p₁.marks⟩ :: es, ?_⟩
    rw [Ast.eraseList, hc, hes]
    rfl

theorem exists_line (keepInvalid : Bool) {s : σ} {g : Token} {heap : ℕ → Bool}
    (h : parserCreateAst ⟨s, g, heap⟩ = .ok (node, p'))
    (hheap : keepInvalid = true → ∀ n, heap n = false) (helements : node.elements ≠ [])
    (hcomplete : node.Complete) : ∃ l : Grammar.Line, node.erase keepInvalid = l.toAst := by
  obtain ⟨p₁, hnext, h⟩ := bind_ok.mp h
  split_ifs at h
  · cases h
    exact absurd rfl helements
  obtain ⟨⟨nodes, p₂⟩, hloop, h⟩ := bind_ok.mp h
  cases h
  obtain ⟨hinvalid, hclear⟩ := clear_newNode (clear_nextToken hnext hheap)
  obtain ⟨es, hes⟩ := exists_elements (sequenceLoop_run hloop) hclear hcomplete
  cases es with
  | nil =>
    cases nodes with
    | nil => exact absurd rfl helements
    | cons => exact nomatch hes
  | cons e es =>
    refine ⟨⟨e, es⟩, ?_⟩
    rw [Ast.erase, hinvalid, hes]
    rfl

end

mutual

theorem Ast.complete_of_erase {keepInvalid : Bool} (node : Ast)
    (h : (node.erase keepInvalid).Complete) : node.Complete := by
  match node with
  | .null => exact h
  | .cmd node invalid => exact h
  | .pipeline nodes invalid =>
    obtain ⟨hlength, hall, hcomplete⟩ := h
    obtain ⟨hcompletes, hsame⟩ := Ast.completeList_of_eraseList nodes hcomplete
    exact ⟨hsame.1 ▸ hlength, hsame.2 ▸ hall, hcompletes⟩
  | .conditional left right op invalid =>
    exact ⟨Ast.complete_of_erase left h.1, Ast.complete_of_erase right h.2⟩
  | .sequence nodes invalid => exact (Ast.completeList_of_eraseList nodes h).1

theorem Ast.completeList_of_eraseList {keepInvalid : Bool} (nodes : List Ast)
    (h : Ast.CompleteList (Ast.eraseList keepInvalid nodes)) :
    Ast.CompleteList nodes ∧ (Ast.eraseList keepInvalid nodes).length = nodes.length ∧
      (Ast.eraseList keepInvalid nodes).all Ast.isCommand = nodes.all Ast.isCommand := by
  match nodes with
  | [] => exact ⟨trivial, rfl, rfl⟩
  | node :: nodes =>
    obtain ⟨hcompletes, hlength, hall⟩ := Ast.completeList_of_eraseList nodes h.2
    refine ⟨⟨Ast.complete_of_erase node h.1, hcompletes⟩, congrArg (· + 1) hlength, ?_⟩
    rw [Ast.eraseList, List.all_cons, List.all_cons, hall]
    cases node <;> rfl

end

/-! ## Lines -/

/-- **What is accepted is well-formed.** A tree with elements has no missing parts if and only if it
is the tree of a line of the grammar, and then of one only. -/
theorem existsUnique_line {σ : Type} [TokenSource σ] {s : σ} {g : Token} {heap : ℕ → Bool}
    {node : Ast} {p' : ParserState σ} (h : parserCreateAst ⟨s, g, heap⟩ = .ok (node, p'))
    (helements : node.elements ≠ []) :
    node.Complete ↔ ∃! l : Grammar.Line, node.erase false = l.toAst ∧
      ((∀ n, heap n = false) → node.erase true = l.toAst) := by
  constructor
  · intro hcomplete
    obtain ⟨l, hl⟩ := exists_line false h (fun h ↦ nomatch h) helements hcomplete
    refine ⟨l, ⟨hl, fun hheap ↦ ?_⟩, fun l' hl' ↦ Grammar.Line.eq_of_toAst (hl'.1.symm.trans hl)⟩
    obtain ⟨l', hl'⟩ := exists_line true h (fun _ ↦ hheap) helements hcomplete
    have hsame : node.erase false = l'.toAst := by
      rw [← node.erase_erase, hl', Grammar.Line.erase_toAst]
    rw [hl', Grammar.Line.eq_of_toAst (hsame.symm.trans hl)]
  · rintro ⟨l, ⟨hl, -⟩, -⟩
    exact Ast.complete_of_erase node (hl ▸ l.complete_toAst)

/-- The tree of `a 2> b | c && d &`, in memory full of set flags. -/
theorem existsUnique_line_background :
    ∃ node p', parserCreateAst (⟨Lexer.init "a 2> b | c && d &".toList, .operator tokEof,
        fun _ ↦ true⟩ : ParserState Lexer) = .ok (node, p') ∧
      (node.Complete ↔ ∃! l : Grammar.Line, node.erase false = l.toAst ∧
        ((∀ _ : ℕ, true = false) → node.erase true = l.toAst)) := by
  have heval : (parserCreateAst (⟨Lexer.init "a 2> b | c && d &".toList, .operator tokEof,
      fun _ ↦ true⟩ : ParserState Lexer)).toOption.map (fun r ↦ r.1.elements.length) = some 1 := by
    decide +kernel
  cases hparse : parserCreateAst (⟨Lexer.init "a 2> b | c && d &".toList, .operator tokEof,
      fun _ ↦ true⟩ : ParserState Lexer) with
  | error e =>
    rw [hparse] at heval
    cases heval
  | ok r =>
    obtain ⟨node, p'⟩ := r
    rw [hparse] at heval
    have hlength : node.elements.length = 1 := Option.some_inj.mp heval
    refine ⟨node, p', rfl, existsUnique_line hparse fun hnil ↦ ?_⟩
    rw [hnil] at hlength
    cases hlength

end Novash
