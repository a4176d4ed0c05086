import Novash.Foundations.Produce
import Novash.Parser.Commands
import Novash.Parser.Tokens

/-!
# The calls behind a tree

The parts of a tree with the places in the line they come from. Each loop of the parser is asked for
its turns, one after the other, and what a turn parses is kept as a `ParseCall`: the parser before
it, the node, and the parser after it. The elements of a line, the pipelines of an element and the
commands of a pipeline are lists of calls, and their nodes are those of the tree.

Between the commands of a line stand only operators and separators (`Covers`), so that whatever is
asked of the tokens of a line can be asked of one command and of one operator.
-/

namespace Novash

open Foundations TokenType ParserState

/-- A call of one of the functions of the parser that returned. -/
structure ParseCall (σ : Type) where
  before : ParserState σ
  node : Ast
  after : ParserState σ

section

variable {σ : Type} [TokenSource σ]

/-! ## Turns of the loops -/

/-- A turn of the loop of `parse_pipeline`, with the parser at the next one. -/
def pipelineTurn (p : ParserState σ) : Option (ParseCall σ × ParserState σ) := do
  guard (p.gTok.type = tokPipe)
  let p₁ ← (nextToken p).toOption
  let (node, p₂) ← (parseCommand p₁).toOption
  guard (node.isNull = false)
  return (⟨p₁, node, p₂⟩, p₂)

/-- A turn of the loop of `parse_conditional`. -/
def conditionalTurn (p : ParserState σ) : Option (ParseCall σ × ParserState σ) := do
  let _ ← condOpOf p.gTok.type
  let p₁ ← (nextToken p).toOption
  let (node, p₂) ← (parsePipeline p₁).toOption
  return (⟨p₁, node, p₂⟩, p₂.newNode.2)

/-- A turn of the loop of `parser_create_ast` that adds an element. -/
def sequenceTurn (p : ParserState σ) : Option (ParseCall σ × ParserState σ) := do
  let (node, p₁) ← (parseConditional p).toOption
  guard (node.isNull = false)
  let p₂ ← (skipSeparators p₁).toOption
  return (⟨p, node, p₁⟩, p₂)

variable {p p' : ParserState σ} {c : ParseCall σ} {node : Ast}

theorem pipelineTurn_eq_some : pipelineTurn p = some (c, p') ↔
    p.gTok.type = tokPipe ∧ nextToken p = .ok c.before ∧
      parseCommand c.before = .ok (c.node, c.after) ∧ c.node.isNull = false ∧ p' = c.after := by
  simp only [pipelineTurn, Option.bind_eq_bind, Option.bind_eq_some_iff, toOption_eq_some,
    Option.guard_eq_some', pure]
  constructor
  · rintro ⟨-, hpipe, p₁, hnext, ⟨node, p₂⟩, hcmd, -, hnull, h⟩
    cases h
    exact ⟨hpipe, hnext, hcmd, hnull, rfl⟩
  · rintro ⟨hpipe, hnext, hcmd, hnull, rfl⟩
    exact ⟨(), hpipe, _, hnext, _, hcmd, (), hnull, rfl⟩

theorem conditionalTurn_eq_some : conditionalTurn p = some (c, p') ↔
    (∃ op, condOpOf p.gTok.type = some op) ∧ nextToken p = .ok c.before ∧
      parsePipeline c.before = .ok (c.node, c.after) ∧ p' = c.after.newNode.2 := by
  simp only [conditionalTurn, Option.bind_eq_bind, Option.bind_eq_some_iff, toOption_eq_some, pure]
  constructor
  · rintro ⟨op, hop, p₁, hnext, ⟨node, p₂⟩, hcmd, h⟩
    cases h
    exact ⟨⟨op, hop⟩, hnext, hcmd, rfl⟩
  · rintro ⟨⟨op, hop⟩, hnext, hcmd, rfl⟩
    exact ⟨op, hop, _, hnext, _, hcmd, rfl⟩

theorem sequenceTurn_eq_some : sequenceTurn p = some (c, p') ↔
    c.before = p ∧ parseConditional p = .ok (c.node, c.after) ∧ c.node.isNull = false ∧
      skipSeparators c.after = .ok p' := by
  simp only [sequenceTurn, Option.bind_eq_bind, Option.bind_eq_some_iff, toOption_eq_some,
    Option.guard_eq_some', pure]
  constructor
  · rintro ⟨⟨node, p₁⟩, hcond, -, hnull, p₂, hskip, h⟩
    cases h
    exact ⟨rfl, hcond, hnull, hskip⟩
  · rintro ⟨rfl, hcond, hnull, hskip⟩
    exact ⟨_, hcond, (), hnull, _, hskip, rfl⟩

theorem left_pipelineTurn (h : pipelineTurn p = some (c, p')) : p'.left < p.left := by
  obtain ⟨hpipe, hnext, hcmd, -, rfl⟩ := pipelineTurn_eq_some.mp h
  exact (left_parseCommand hcmd).1.trans_lt (left_nextToken_lt hnext (by rw [hpipe]; decide))

theorem left_conditionalTurn (h : conditionalTurn p = some (c, p')) : p'.left < p.left := by
  obtain ⟨⟨op, hop⟩, hnext, hpipeline, rfl⟩ := conditionalTurn_eq_some.mp h
  exact (left_parsePipeline hpipeline).1.trans_lt
    (left_nextToken_lt hnext (ne_tokEof_of_condOpOf hop))

theorem left_sequenceTurn (h : sequenceTurn p = some (c, p')) : p'.left < p.left := by
  obtain ⟨-, hcond, hnull, hskip⟩ := sequenceTurn_eq_some.mp h
  exact (left_skipSeparators_le hskip).trans_lt ((left_parseConditional hcond).2 hnull)

/-! ## The calls of a line -/

/-- The calls of `parse_command` in the loop of `parse_pipeline`. -/
def pipelineLoopCalls (p : ParserState σ) : List (ParseCall σ) :=
  produce pipelineTurn left left_pipelineTurn p

/-- All calls of `parse_command` in `parse_pipeline`; the first may have returned `NULL`. -/
def pipelineCommands (p : ParserState σ) : List (ParseCall σ) :=
  match parseCommand p with
  | .error _ => []
  | .ok (node, p₁) => ⟨p, node, p₁⟩ :: pipelineLoopCalls p₁.newNode.2

def conditionalLoopCalls (p : ParserState σ) : List (ParseCall σ) :=
  produce conditionalTurn left left_conditionalTurn p

/-- The calls of `parse_pipeline` in `parse_conditional`. -/
def conditionalPipelines (p : ParserState σ) : List (ParseCall σ) :=
  match parsePipeline p with
  | .error _ => []
  | .ok (node, p₁) => ⟨p, node, p₁⟩ :: conditionalLoopCalls p₁

/-- The calls of `parse_conditional` in the loop of `parser_create_ast` that gave an element. -/
def sequenceElements (p : ParserState σ) : List (ParseCall σ) :=
  produce sequenceTurn left left_sequenceTurn p

def lineElements (p : ParserState σ) : List (ParseCall σ) :=
  match nextToken p with
  | .error _ => []
  | .ok p₁ => sequenceElements p₁.newNode.2

/-- The pipelines of some elements, a command being a pipeline of one. -/
def pipelinesOf (elements : List (ParseCall σ)) : List (ParseCall σ) :=
  elements.flatMap fun c ↦ conditionalPipelines c.before

/-- The commands of some pipelines. -/
def commandsOf (pipelines : List (ParseCall σ)) : List (ParseCall σ) :=
  pipelines.flatMap fun c ↦ pipelineCommands c.before

def linePipelines (p : ParserState σ) : List (ParseCall σ) := pipelinesOf (lineElements p)

def lineCommands (p : ParserState σ) : List (ParseCall σ) := commandsOf (linePipelines p)

/-! ## What stands between the commands -/

/-- `|`, `&&` or `||`. -/
def joinsCommands (type : TokenType) : Bool := type = tokPipe || type = tokAnd || type = tokOr

theorem opensCommand_of_joins {type : TokenType} (h : joinsCommands type = true) :
    opensCommand type = true := by
  cases type <;> first | rfl | exact absurd h (by decide)

theorem joinsCommands_of_condOpOf {type : TokenType} {op : CondOp} (h : condOpOf type = some op) :
    joinsCommands type = true := by
  cases type <;> first | rfl | cases h

/-- Commands with one operator between each and the next. A `NULL` is a command of no tokens. -/
inductive Joined : ParserState σ → List (ParseCall σ) → ParserState σ → Prop
  | one {p p' : ParserState σ} {c : ParseCall σ} (hbefore : Takes p [] c.before)
      (hcmd : parseCommand c.before = .ok (c.node, c.after)) (hafter : Takes c.after [] p') :
      Joined p [c] p'
  | cons {p p₁ p' : ParserState σ} {c : ParseCall σ} {calls : List (ParseCall σ)}
      (hbefore : Takes p [] c.before) (hcmd : parseCommand c.before = .ok (c.node, c.after))
      (hjoins : joinsCommands c.after.gTok.type = true) (hone : Takes c.after [c.after.gTok] p₁)
      (h : Joined p₁ calls p') : Joined p (c :: calls) p'

/-- Commands with any number of operators and separators before, between and after them. -/
inductive Covers : ParserState σ → List (ParseCall σ) → ParserState σ → Prop
  | nil {p p' : ParserState σ} (h : Takes p [] p') : Covers p [] p'
  | operator {p p₁ p' : ParserState σ} {calls : List (ParseCall σ)}
      (hopens : opensCommand p.gTok.type = true) (hone : Takes p [p.gTok] p₁)
      (h : Covers p₁ calls p') : Covers p calls p'
  | command {p p' : ParserState σ} {c : ParseCall σ} {calls : List (ParseCall σ)}
      (hbefore : Takes p [] c.before) (hcmd : parseCommand c.before = .ok (c.node, c.after))
      (h : Covers c.after calls p') : Covers p (c :: calls) p'

section

variable {p₁ p'' : ParserState σ} {calls calls' : List (ParseCall σ)}

namespace Joined

theorem congr_right {q : ParserState σ} (h : Joined p calls p') (hq : Takes p' [] q) :
    Joined p calls q := by
  induction h with
  | one hbefore hcmd hafter => exact .one hbefore hcmd (hafter.trans hq)
  | cons hbefore hcmd hjoins hone _ ih => exact .cons hbefore hcmd hjoins hone (ih hq)

theorem join (h : Joined p calls p') (hjoins : joinsCommands p'.gTok.type = true)
    (hone : Takes p' [p'.gTok] p₁) (h' : Joined p₁ calls' p'') :
    Joined p (calls ++ calls') p'' := by
  induction h with
  | one hbefore hcmd hafter =>
    rw [hafter.gTok_eq] at hjoins hone
    exact .cons hbefore hcmd hjoins (hafter.trans hone) h'
  | cons hbefore hcmd hjoins' hone' _ ih =>
    exact .cons hbefore hcmd hjoins' hone' (ih hjoins hone)

end Joined

namespace Covers

theorem refl (p : ParserState σ) : Covers p [] p := .nil (.refl rfl rfl)

theorem congr_left {q : ParserState σ} (h : Covers p calls p') (hq : Takes q [] p) :
    Covers q calls p' := by
  cases h with
  | nil h => exact .nil (hq.trans h)
  | operator hopens hone h =>
    rw [hq.gTok_eq] at hopens hone
    exact .operator hopens (hq.trans hone) h
  | command hbefore hcmd h => exact .command (hq.trans hbefore) hcmd h

theorem trans (h : Covers p calls p') (h' : Covers p' calls' p'') :
    Covers p (calls ++ calls') p'' := by
  induction h with
  | nil hnil => exact h'.congr_left hnil
  | operator hopens hone _ ih => exact .operator hopens hone (ih h')
  | command hbefore hcmd _ ih => exact .command hbefore hcmd (ih h')

theorem of_joined (h : Joined p calls p') : Covers p calls p' := by
  induction h with
  | one hbefore hcmd hafter => exact .command hbefore hcmd (.nil hafter)
  | cons hbefore hcmd hjoins hone _ ih =>
    exact .command hbefore hcmd (.operator (opensCommand_of_joins hjoins) hone ih)

end Covers

end

theorem takes_parseCommand (h : parseCommand p = .ok (node, p')) : ∃ toks, Takes p toks p' := by
  rcases readsCommand_parseCommand h with ⟨-, -, rfl⟩ | ⟨-, _, _, _, _, -, hreads⟩
  · exact ⟨[], .refl rfl rfl⟩
  · exact ⟨_, hreads.takes⟩

theorem takes_of_joined {calls : List (ParseCall σ)} (h : Joined p calls p') :
    ∃ toks, Takes p toks p' := by
  induction h with
  | one hbefore hcmd hafter =>
    obtain ⟨toks, htakes⟩ := takes_parseCommand hcmd
    exact ⟨_, hbefore.trans (htakes.trans hafter)⟩
  | cons hbefore hcmd _ hone _ ih =>
    obtain ⟨toks, htakes⟩ := takes_parseCommand hcmd
    obtain ⟨toks', hrest⟩ := ih
    exact ⟨_, hbefore.trans (htakes.trans (hone.trans hrest))⟩

/-! ## They make up the tree -/

theorem takes_of_nextToken_joins (hjoins : joinsCommands p.gTok.type = true)
    (hnext : nextToken p = .ok p') : Takes p [p.gTok] p' :=
  .of_nextToken (fun hc ↦ by rw [hc] at hjoins; exact absurd hjoins (by decide)) hnext

/-- `parse_command` gives a command or `NULL`. -/
theorem cmd_of_parseCommand (h : parseCommand p = .ok (node, p')) :
    node = .null ∨ ∃ cmd invalid, node = .cmd cmd invalid := by
  rcases readsCommand_parseCommand h with ⟨-, hnull, -⟩ | ⟨-, cmd, invalid, -, -, hnode, -⟩
  · exact Or.inl hnull
  · exact Or.inr ⟨cmd, invalid, hnode⟩

/-- The loop goes on with what is joined already. -/
theorem calls_pipelineLoop {nodes : List Ast} (h : pipelineLoop p = .ok (nodes, p')) :
    (pipelineLoopCalls p).map ParseCall.node = nodes ∧ p'.gTok.type ≠ tokPipe ∧
      ∀ {q calls}, Joined q calls p → Joined q (calls ++ pipelineLoopCalls p) p' := by
  replace h := pipelineLoop_run h
  induction h with
  | @done p hpipe =>
    have hturn : pipelineTurn p = none := by
      rw [pipelineTurn, guard, if_neg hpipe]
      rfl
    rw [pipelineLoopCalls, produce_of_none hturn]
    exact ⟨rfl, hpipe, fun {q calls} hq ↦ by rwa [List.append_nil]⟩
  | @command p p₁ nextCommand p₂ nodes p' hpipe hnext hcmd hnull _ ih =>
    have hturn : pipelineTurn p = some (⟨p₁, nextCommand, p₂⟩, p₂) :=
      pipelineTurn_eq_some.mpr ⟨hpipe, hnext, hcmd, hnull, rfl⟩
    have hjoins : joinsCommands p.gTok.type = true := by
      rw [hpipe]
      rfl
    obtain ⟨hnodes, hstop, hjoined⟩ := ih
    rw [pipelineLoopCalls, produce_of_some hturn]
    refine ⟨congrArg (nextCommand :: ·) hnodes, hstop, fun {q calls} hq ↦ ?_⟩
    have hone : Joined p₁ [⟨p₁, nextCommand, p₂⟩] p₂ := .one (.refl rfl rfl) hcmd (.refl rfl rfl)
    have hcall := hjoined (hq.join hjoins (takes_of_nextToken_joins hjoins hnext) hone)
    rwa [List.append_assoc] at hcall

/-- A pipeline, or its only command. -/
theorem calls_parsePipeline (h : parsePipeline p = .ok (node, p')) :
    ((∃ c, pipelineCommands p = [c] ∧ node = c.node) ∨
      2 ≤ (pipelineCommands p).length ∧
        ∃ invalid, node = .pipeline ((pipelineCommands p).map ParseCall.node) invalid) ∧
      Joined p (pipelineCommands p) p' ∧ p'.gTok.type ≠ tokPipe := by
  obtain ⟨⟨firstCommand, p₁⟩, hcmd, h⟩ := bind_ok.mp h
  obtain ⟨⟨nodes, p₂⟩, hloop, h⟩ := bind_ok.mp h
  obtain ⟨hnodes, hstop, hjoined⟩ := calls_pipelineLoop hloop
  have hcalls : pipelineCommands p = ⟨p, firstCommand, p₁⟩ :: pipelineLoopCalls p₁.newNode.2 := by
    rw [pipelineCommands, hcmd]
  have hall : Joined p (pipelineCommands p) p₂ := by
    have hone : Joined p [⟨p, firstCommand, p₁⟩] p₁.newNode.2 :=
      .one (.refl rfl rfl) hcmd (.refl rfl rfl)
    have hmore := hjoined hone
    rwa [hcalls]
  dsimp only at h
  split_ifs at h with hnil
  · cases h
    rw [hnil, List.map_eq_nil_iff] at hnodes
    rw [hnodes] at hcalls
    exact ⟨Or.inl ⟨_, hcalls, rfl⟩, hall, hstop⟩
  · cases h
    refine ⟨Or.inr ⟨?_, p₁.newNode.1, ?_⟩, hall, hstop⟩
    · cases hloopcalls : pipelineLoopCalls p₁.newNode.2 with
      | nil => rw [hloopcalls] at hnodes; exact absurd hnodes.symm hnil
      | cons c calls => rw [hcalls, hloopcalls]; simp
    · rw [hcalls, List.map_cons, hnodes]

theorem parseCommand_of_mem_pipelineCommands (hc : c ∈ pipelineCommands p) :
    parseCommand c.before = .ok (c.node, c.after) := by
  unfold pipelineCommands at hc
  split at hc
  · exact absurd hc List.not_mem_nil
  · next hcmd =>
    rcases List.mem_cons.mp hc with rfl | hc
    · exact hcmd
    · obtain ⟨_, _, hturn⟩ := exists_of_mem_produce hc
      exact (pipelineTurn_eq_some.mp hturn).2.2.1

theorem parsePipeline_of_mem_conditionalPipelines (hc : c ∈ conditionalPipelines p) :
    parsePipeline c.before = .ok (c.node, c.after) := by
  unfold conditionalPipelines at hc
  split at hc
  · exact absurd hc List.not_mem_nil
  · next hpipeline =>
    rcases List.mem_cons.mp hc with rfl | hc
    · exact hpipeline
    · obtain ⟨_, _, hturn⟩ := exists_of_mem_produce hc
      exact (conditionalTurn_eq_some.mp hturn).2.2.1

theorem pipelines_parsePipeline (h : parsePipeline p = .ok (node, p')) :
    node.pipelines = [node] := by
  obtain ⟨⟨c, hcalls, rfl⟩ | ⟨-, invalid, rfl⟩, -⟩ := calls_parsePipeline h
  · have hc : c ∈ pipelineCommands p := by rw [hcalls]; exact List.mem_singleton_self c
    rcases cmd_of_parseCommand (parseCommand_of_mem_pipelineCommands hc) with
      hnull | ⟨cmd, invalid, hcmd⟩
    · rw [hnull, Ast.pipelines]
    · rw [hcmd, Ast.pipelines]
  · rw [Ast.pipelines]

theorem calls_conditionalLoop {left : Ast} (h : conditionalLoop left p = .ok (node, p')) :
    node.pipelines = left.pipelines ++ (conditionalLoopCalls p).map ParseCall.node ∧
      condOpOf p'.gTok.type = none ∧ (p.gTok.type ≠ tokPipe → p'.gTok.type ≠ tokPipe) ∧
        ∀ {q calls}, Joined q calls p →
          Joined q (calls ++ commandsOf (conditionalLoopCalls p)) p' := by
  replace h := conditionalLoop_run h
  induction h with
  | @done left p hop =>
    have hturn : conditionalTurn p = none := by rw [conditionalTurn, hop]; rfl
    rw [conditionalLoopCalls, produce_of_none hturn]
    refine ⟨(List.append_nil _).symm, hop, id, fun {q calls} hq ↦ ?_⟩
    rwa [commandsOf, List.flatMap_nil, List.append_nil]
  | @operand left p op p₁ right p₂ node p' hop hnext hright _ ih =>
    have hturn : conditionalTurn p = some (⟨p₁, right, p₂⟩, p₂.newNode.2) :=
      conditionalTurn_eq_some.mpr ⟨⟨op, hop⟩, hnext, hright, rfl⟩
    have hjoins := joinsCommands_of_condOpOf hop
    obtain ⟨hnodes, hstop, hpipe, hjoined⟩ := ih
    obtain ⟨-, hpipeline, hnotpipe⟩ := calls_parsePipeline hright
    rw [conditionalLoopCalls, produce_of_some hturn]
    refine ⟨?_, hstop, fun _ ↦ hpipe hnotpipe, fun {q calls} hq ↦ ?_⟩
    · rw [hnodes, Ast.pipelines, pipelines_parsePipeline hright, List.append_assoc]
      rfl
    · have hmore := (hq.join hjoins (takes_of_nextToken_joins hjoins hnext) hpipeline).congr_right
        (q := p₂.newNode.2) (.refl rfl rfl)
      have hall := hjoined hmore
      rwa [List.append_assoc] at hall

theorem calls_parseConditional (h : parseConditional p = .ok (node, p')) :
    node.pipelines = (conditionalPipelines p).map ParseCall.node ∧
      Joined p (commandsOf (conditionalPipelines p)) p' ∧
        joinsCommands p'.gTok.type = false := by
  obtain ⟨⟨left, p₁⟩, hleft, h⟩ := bind_ok.mp h
  obtain ⟨-, hfirst, hnotpipe⟩ := calls_parsePipeline hleft
  obtain ⟨hnodes, hstop, hpipe, hjoined⟩ := calls_conditionalLoop h
  have hcalls : conditionalPipelines p = ⟨p, left, p₁⟩ :: conditionalLoopCalls p₁ := by
    rw [conditionalPipelines, hleft]
  rw [hcalls]
  refine ⟨?_, hjoined hfirst, ?_⟩
  · rw [hnodes, pipelines_parsePipeline hleft]
    rfl
  · have hpipe := hpipe hnotpipe
    cases ht : p'.gTok.type <;> rw [ht] at hstop hpipe <;>
      first | rfl | exact absurd rfl hpipe | cases hstop

theorem covers_skipSeparators (h : skipSeparators p = .ok p') : Covers p [] p' := by
  replace h := skipSeparators_run h
  induction h with
  | done => exact .refl _
  | separator hsep hnext _ ih =>
    have hone := Takes.of_nextToken (ne_tokEof_of_isSeparator hsep) hnext
    exact .operator (opensCommand_of_isSeparator hsep) hone ih

/-- An element that is read as `NULL` takes nothing. -/
theorem eq_of_parseConditional (h : parseConditional p = .ok (node, p'))
    (hnull : node.isNull = true) : p' = p.newNode.2 := by
  obtain ⟨-, hword, hpipe, hop⟩ := (parseConditional_reads h).2 hnull
  cases h.symm.trans (parseConditional_of_null hword hpipe hop)
  rfl

theorem sequenceTurn_of_isNull (h : parseConditional p = .ok (node, p'))
    (hnull : node.isNull = true) : sequenceTurn p = none := by
  rw [sequenceTurn, h]
  simp [Except.toOption, guard, hnull]

theorem sequenceTurn_of_eof (heof : p.gTok.type = tokEof) : sequenceTurn p = none := by
  have hnull : parseConditional p = .ok (.null, p.newNode.2) :=
    parseConditional_of_null (by rw [heof]; decide) (by rw [heof]; decide) (by rw [heof]; rfl)
  exact sequenceTurn_of_isNull hnull rfl

theorem calls_sequenceLoop {nodes : List Ast} (h : sequenceLoop p = .ok (nodes, p')) :
    nodes = (sequenceElements p).map ParseCall.node ∧
      Ast.pipelinesList nodes = (pipelinesOf (sequenceElements p)).map ParseCall.node ∧
        Covers p (commandsOf (pipelinesOf (sequenceElements p))) p' := by
  replace h := sequenceLoop_run h
  induction h with
  | null hcond hnull =>
    rw [eq_of_parseConditional hcond hnull, sequenceElements,
      produce_of_none (sequenceTurn_of_isNull hcond hnull)]
    exact ⟨rfl, rfl, .nil (.refl rfl rfl)⟩
  | @last p node p₁ p₂ hcond hnull hskip heof₂ =>
    have hturn : sequenceTurn p = some (⟨p, node, p₁⟩, p₂) :=
      sequenceTurn_eq_some.mpr ⟨rfl, hcond, hnull, hskip⟩
    have hnone : sequenceTurn p₂ = none := sequenceTurn_of_eof heof₂
    obtain ⟨hnodes, hjoined, -⟩ := calls_parseConditional hcond
    rw [sequenceElements, produce_of_some hturn, produce_of_none hnone]
    refine ⟨rfl, ?_, ?_⟩
    · simpa [pipelinesOf, Ast.pipelinesList] using hnodes
    · simpa [pipelinesOf] using (Covers.of_joined hjoined).trans (covers_skipSeparators hskip)
  | @element p node p₁ p₂ nodes p' hcond hnull hskip _ _ ih =>
    have hturn : sequenceTurn p = some (⟨p, node, p₁⟩, p₂) :=
      sequenceTurn_eq_some.mpr ⟨rfl, hcond, hnull, hskip⟩
    obtain ⟨hnodes, hjoined, -⟩ := calls_parseConditional hcond
    obtain ⟨hrestnodes, hpipelines, hcovers⟩ := ih
    have hall := (Covers.of_joined hjoined).trans ((covers_skipSeparators hskip).trans hcovers)
    rw [sequenceElements, produce_of_some hturn]
    refine ⟨congrArg (node :: ·) hrestnodes, ?_, ?_⟩
    · rw [Ast.pipelinesList, hnodes, hpipelines]
      exact List.map_append.symm
    · rw [pipelinesOf, List.flatMap_cons, commandsOf, List.flatMap_append]
      exact hall

/-- The elements, the pipelines and the commands of a line, from the calls that read them. -/
structure CallsOf (p p' : ParserState σ) (node : Ast) : Prop where
  elements : node.elements = (lineElements p).map ParseCall.node
  pipelines : Ast.pipelinesList node.elements = (linePipelines p).map ParseCall.node
  covers : ∃ p₁, nextToken p = .ok p₁ ∧ Covers p₁ (lineCommands p) p'

theorem callsOf_parserCreateAst (h : parserCreateAst p = .ok (node, p')) : CallsOf p p' node := by
  obtain ⟨p₁, hnext, h⟩ := bind_ok.mp h
  have helements : lineElements p = sequenceElements p₁.newNode.2 := by rw [lineElements, hnext]
  split_ifs at h with heof
  · cases h
    have hnone : lineElements p = [] := helements.trans (produce_of_none (sequenceTurn_of_eof heof))
    refine ⟨by rw [hnone]; rfl, by rw [linePipelines, hnone]; rfl, _, hnext, ?_⟩
    rw [lineCommands, linePipelines, hnone]
    exact .refl _
  obtain ⟨⟨nodes', p₂⟩, hloop, h⟩ := bind_ok.mp h
  cases h
  obtain ⟨hnodes, hpipelines, hcovers⟩ := calls_sequenceLoop hloop
  rw [← helements] at hnodes hpipelines hcovers
  exact ⟨hnodes, hpipelines, p₁, hnext, hcovers.congr_left (.refl rfl rfl)⟩

/-! ## The commands of the tree -/

theorem cmdsList_map_pipelineCommands (h : parsePipeline p = .ok (node, p')) :
    Ast.cmdsList ((pipelineCommands p).map ParseCall.node) = node.cmds := by
  obtain ⟨⟨c, hcalls, rfl⟩ | ⟨-, invalid, rfl⟩, -⟩ := calls_parsePipeline h
  · rw [hcalls]
    exact List.append_nil _
  · rfl

theorem parsePipeline_of_mem_linePipelines (hc : c ∈ linePipelines p) :
    parsePipeline c.before = .ok (c.node, c.after) := by
  obtain ⟨e, -, hc⟩ := List.mem_flatMap.mp hc
  exact parsePipeline_of_mem_conditionalPipelines hc

theorem parseCommand_of_mem_lineCommands (hc : c ∈ lineCommands p) :
    parseCommand c.before = .ok (c.node, c.after) := by
  obtain ⟨e, -, hc⟩ := List.mem_flatMap.mp hc
  exact parseCommand_of_mem_pipelineCommands hc

theorem cmdsList_commandsOf {calls : List (ParseCall σ)}
    (h : ∀ c ∈ calls, parsePipeline c.before = .ok (c.node, c.after)) :
    Ast.cmdsList ((commandsOf calls).map ParseCall.node) =
      Ast.cmdsList (calls.map ParseCall.node) := by
  induction calls with
  | nil => rfl
  | cons c calls ih =>
    obtain ⟨hc, hcalls⟩ := List.forall_mem_cons.mp h
    rw [commandsOf, List.flatMap_cons, List.map_append, Ast.cmdsList_append,
      cmdsList_map_pipelineCommands hc, List.map_cons, Ast.cmdsList]
    exact congrArg (c.node.cmds ++ ·) (ih hcalls)

/-- The tree of a line is a sequence, or `NULL` for a line without tokens. -/
theorem sequence_of_parserCreateAst (h : parserCreateAst p = .ok (node, p')) :
    node = .null ∨ ∃ invalid, node = .sequence node.elements invalid := by
  obtain ⟨p₁, -, h⟩ := bind_ok.mp h
  split_ifs at h
  · cases h
    exact Or.inl rfl
  · obtain ⟨⟨nodes, p₂⟩, -, h⟩ := bind_ok.mp h
    cases h
    exact Or.inr ⟨_, rfl⟩

/-- The commands of a tree are those that the calls of `parse_command` returned. -/
theorem cmds_parserCreateAst (h : parserCreateAst p = .ok (node, p')) :
    node.cmds = Ast.cmdsList ((lineCommands p).map ParseCall.node) := by
  have hroot : node.cmds = Ast.cmdsList node.elements := by
    rcases sequence_of_parserCreateAst h with rfl | ⟨invalid, hnode⟩
    · rfl
    · rw [hnode]
      rfl
  rw [hroot, ← Ast.cmdsList_pipelinesList, (callsOf_parserCreateAst h).pipelines, lineCommands,
    cmdsList_commandsOf fun c hc ↦ parsePipeline_of_mem_linePipelines hc]

end

end Novash
