import Novash.Executor.Chains

/-!
# The tree of a line, in two memories

The parser takes a block of memory for each node and never writes its `invalid` field. So the tree
of a line is the same in every memory but for its flags, and each flag is what one block held:
`relabelLine` puts the flags of another memory into a tree, and a second run of the parser, in that
memory, returns just that (`parserCreateAst_inMemory`).

The blocks are handed out in the order in which the nodes are allocated, and those of a line are
easy to count (`lineBlocks`). One of them is wasted for each command that stands alone: the node of
a pipeline is allocated before it is known whether there is one.
-/

namespace Novash

open Foundations TokenType

/-! ## Flags from a memory -/

namespace Ast

/-- The blocks that the parser takes while it reads a chain. -/
def taken : Ast → ℕ
  | conditional left right _ _ => left.taken + right.taken + 1
  | null => blocks null
  | cmd node invalid => blocks (cmd node invalid)
  | pipeline nodes invalid => blocks (pipeline nodes invalid)
  | sequence _ _ => 0

section

variable (heap : ℕ → Bool)

/-- Give a command its flag. -/
def setFlag (invalid : Bool) : Ast → Ast
  | cmd node _ => cmd node invalid
  | node => node

/-- The commands of a pipeline after the first, from block `n` on. -/
def relabelCommands : ℕ → List Ast → List Ast
  | _, [] => []
  | n, node :: nodes => node.setFlag (heap n) :: relabelCommands (n + 1) nodes

/-- A chain with the flags that it gets from this memory, from block `n` on. -/
def relabel : ℕ → Ast → Ast
  | _, null => null
  | n, cmd node _ => cmd node (heap n)
  | _, pipeline [] invalid => pipeline [] invalid
  | n, pipeline (first :: nodes) invalid =>
    let own := n + (pipeline (first :: nodes) invalid).ownBlock
    pipeline (first.setFlag (heap n) :: relabelCommands heap (own + 1) nodes) (heap own)
  | n, conditional left right op _ =>
    conditional (relabel n left) (relabel (n + left.taken) right) op
      (heap (n + left.taken + right.taken))
  | _, sequence nodes invalid => sequence nodes invalid

/-- The elements of a line, from block `n` on. -/
def relabelElements : ℕ → List Ast → List Ast
  | _, [] => []
  | n, node :: nodes => node.relabel heap n :: relabelElements (n + node.taken) nodes

/-- The tree of a line with the flags that it gets from this memory. -/
def relabelLine : Ast → Ast
  | sequence nodes _ => sequence (relabelElements heap 1 nodes) (heap 0)
  | node => node

end

theorem isNull_relabel (heap : ℕ → Bool) (node : Ast) (n : ℕ) :
    (node.relabel heap n).isNull = node.isNull := by
  cases node with
  | pipeline nodes invalid => cases nodes <;> rfl
  | _ => rfl

/-! ## The blocks of the nodes -/

/-- The blocks of those among the nodes that are commands, from block `n` on. -/
def commandBlocks : ℕ → List Ast → List ℕ
  | _, [] => []
  | n, cmd _ _ :: nodes => n :: commandBlocks (n + 1) nodes
  | n, _ :: nodes => commandBlocks (n + 1) nodes

/-- The blocks of the nodes of a chain, from block `n` on. -/
def nodeBlocks : ℕ → Ast → List ℕ
  | _, null => []
  | n, cmd _ _ => [n]
  | _, pipeline [] _ => []
  | n, pipeline (first :: nodes) invalid =>
    let own := n + (pipeline (first :: nodes) invalid).ownBlock
    own :: commandBlocks n [first] ++ commandBlocks (own + 1) nodes
  | n, conditional left right _ _ =>
    nodeBlocks n left ++ nodeBlocks (n + left.taken) right ++ [n + left.taken + right.taken]
  | _, sequence _ _ => []

def elementBlocks : ℕ → List Ast → List ℕ
  | _, [] => []
  | n, node :: nodes => node.nodeBlocks n ++ elementBlocks (n + node.taken) nodes

/-- The blocks of the nodes of a line. -/
def lineBlocks : Ast → List ℕ
  | sequence nodes _ => 0 :: elementBlocks 1 nodes
  | _ => []

section

variable {heap heap' : ℕ → Bool}

theorem relabelCommands_eq_iff (nodes : List Ast) : ∀ n,
    relabelCommands heap n nodes = relabelCommands heap' n nodes ↔
      ∀ m ∈ commandBlocks n nodes, heap m = heap' m := by
  induction nodes with
  | nil => simp [relabelCommands, commandBlocks]
  | cons node nodes ih =>
    intro n
    rw [relabelCommands, relabelCommands, List.cons_eq_cons, ih]
    cases node with
    | cmd node invalid => simp [setFlag, commandBlocks]
    | _ => simp [setFlag, commandBlocks]

/-- Two memories give a chain the same flags exactly when they agree on its blocks. -/
theorem relabel_eq_iff (node : Ast) (n : ℕ) :
    node.relabel heap n = node.relabel heap' n ↔ ∀ m ∈ node.nodeBlocks n, heap m = heap' m := by
  match node with
  | .null => simp [relabel, nodeBlocks]
  | .cmd node invalid => simp [relabel, nodeBlocks]
  | .pipeline [] invalid => simp [relabel, nodeBlocks]
  | .pipeline (first :: nodes) invalid =>
    have hfirst := @relabelCommands_eq_iff heap heap' [first] n
    simp only [relabelCommands, List.cons.injEq, and_true] at hfirst
    simp only [relabel, nodeBlocks, pipeline.injEq, List.cons.injEq, hfirst,
      relabelCommands_eq_iff, List.cons_append, List.forall_mem_cons, List.forall_mem_append]
    exact and_comm
  | .conditional left right op invalid =>
    have hleft := relabel_eq_iff left n
    have hright := relabel_eq_iff right (n + left.taken)
    simp only [relabel, nodeBlocks, conditional.injEq, hleft, hright, List.forall_mem_append,
      List.forall_mem_singleton, true_and, and_assoc]
  | .sequence nodes invalid => simp [relabel, nodeBlocks]

theorem relabelElements_eq_iff (nodes : List Ast) : ∀ n,
    relabelElements heap n nodes = relabelElements heap' n nodes ↔
      ∀ m ∈ elementBlocks n nodes, heap m = heap' m := by
  induction nodes with
  | nil => simp [relabelElements, elementBlocks]
  | cons node nodes ih =>
    intro n
    rw [relabelElements, relabelElements, List.cons_eq_cons, relabel_eq_iff, ih, elementBlocks,
      List.forall_mem_append]

theorem relabelLine_eq_iff (node : Ast) :
    node.relabelLine heap = node.relabelLine heap' ↔ ∀ m ∈ node.lineBlocks, heap m = heap' m := by
  cases node with
  | sequence nodes invalid =>
    rw [relabelLine, relabelLine, sequence.injEq, relabelElements_eq_iff, lineBlocks,
      List.forall_mem_cons]
    exact and_comm
  | _ => simp [relabelLine, lineBlocks]

end

end Ast

/-! ## The parser in another memory -/

/-- The parser, if it were in another memory and had taken `n` blocks of it. -/
def ParserState.inMemory {σ : Type} (p : ParserState σ) (heap : ℕ → Bool) (n : ℕ) :
    ParserState σ := { p with heap := fun m ↦ heap (m + n) }

section

variable {σ : Type} (heap : ℕ → Bool) (n : ℕ)

@[simp] theorem lex_inMemory (p : ParserState σ) : (p.inMemory heap n).lex = p.lex := rfl

@[simp] theorem gTok_inMemory (p : ParserState σ) : (p.inMemory heap n).gTok = p.gTok := rfl

theorem newNode_inMemory (p : ParserState σ) :
    (p.inMemory heap n).newNode = (heap n, p.inMemory heap (n + 1)) := by
  refine Prod.ext (congrArg heap (Nat.zero_add n)) ?_
  refine congrArg (ParserState.mk p.lex p.gTok) (funext fun m ↦ congrArg heap ?_)
  omega

end

section

variable {σ : Type} [TokenSource σ] {p p' : ParserState σ} {node : Ast} {heap : ℕ → Bool} {n : ℕ}

theorem nextToken_inMemory (h : nextToken p = .ok p') :
    nextToken (p.inMemory heap n) = .ok (p'.inMemory heap n) := by
  unfold nextToken at h ⊢
  rw [lex_inMemory]
  split at h
  · cases h
  · next tok lex hnext =>
    cases h
    rfl

theorem parseArguments_inMemory {ws : List Word} (h : parseArguments p = .ok (ws, p')) :
    parseArguments (p.inMemory heap n) = .ok (ws, p'.inMemory heap n) := by
  replace h := parseArguments_run h
  induction h with
  | done hword => rw [parseArguments, dif_neg (by exact hword)]
  | word hword hnext _ ih =>
    rw [parseArguments_of_word (by exact hword), nextToken_inMemory hnext]
    simp only [bind, Except.bind, ih]
    rfl

theorem parseFd_inMemory {fd : Int32} (h : parseFd p = .ok (fd, p')) :
    parseFd (p.inMemory heap n) = .ok (fd, p'.inMemory heap n) := by
  unfold parseFd at h ⊢
  rw [gTok_inMemory]
  split_ifs at h ⊢
  · obtain ⟨p₁, hnext, h⟩ := bind_ok.mp h
    cases h
    rw [nextToken_inMemory hnext]
    rfl
  · cases h
    rfl

theorem parseOneRedirection_inMemory {r : Redirection} (h : parseOneRedirection p = .ok (r, p')) :
    parseOneRedirection (p.inMemory heap n) = .ok (r, p'.inMemory heap n) := by
  obtain ⟨⟨fd, p₁⟩, hfd, h⟩ := bind_ok.mp h
  rw [parseOneRedirection, parseFd_inMemory hfd]
  simp only [bind, Except.bind, gTok_inMemory]
  dsimp only at h
  split at h
  · cases h
  obtain ⟨p₂, hnext, h⟩ := bind_ok.mp h
  simp only [nextToken_inMemory hnext, gTok_inMemory]
  split_ifs at h with hword
  obtain ⟨p₃, hnext', h⟩ := bind_ok.mp h
  cases h
  refine Eq.trans (if_neg hword) ?_
  rw [nextToken_inMemory hnext']
  rfl

theorem parseRedirection_inMemory {rs : List Redirection}
    (h : parseRedirection p = .ok (rs, p')) :
    parseRedirection (p.inMemory heap n) = .ok (rs, p'.inMemory heap n) := by
  replace h := parseRedirection_run h
  induction h with
  | done hstart => rw [parseRedirection, if_neg (by exact Bool.eq_false_iff.mp hstart)]
  | one hstart hone _ ih =>
    rw [parseRedirection_of_starts (by exact hstart), parseOneRedirection_inMemory hone]
    simp only [bind, Except.bind, ih]
    rfl

theorem parseCommand_inMemory (h : parseCommand p = .ok (node, p')) :
    parseCommand (p.inMemory heap n)
      = .ok (node.setFlag (heap n), p'.inMemory heap (n + node.commands)) := by
  unfold parseCommand at h ⊢
  rw [gTok_inMemory, lex_inMemory]
  split_ifs at h ⊢
  · cases h
    rfl
  · obtain ⟨⟨ws, p₁⟩, hargs, h⟩ := bind_ok.mp h
    obtain ⟨⟨rs, p₂⟩, hredir, h⟩ := bind_ok.mp h
    cases h
    rw [parseArguments_inMemory hargs]
    simp only [bind, Except.bind, parseRedirection_inMemory hredir, newNode_inMemory]
    rfl

theorem pipelineLoop_inMemory {nodes : List Ast} (h : pipelineLoop p = .ok (nodes, p'))
    (heap : ℕ → Bool) (n : ℕ) :
    pipelineLoop (p.inMemory heap n)
      = .ok (Ast.relabelCommands heap n nodes, p'.inMemory heap (n + nodes.length)) := by
  replace h := pipelineLoop_run h
  induction h generalizing n with
  | done hpipe =>
    rw [pipelineLoop, dif_neg (by exact hpipe)]
    rfl
  | @command p p₁ nextCommand p₂ nodes p' hpipe hnext hcmd hnull _ ih =>
    rw [pipelineLoop_of_pipe (by exact hpipe), nextToken_inMemory hnext]
    simp only [bind, Except.bind, parseCommand_inMemory hcmd]
    -- what follows a `|` is a command, so it takes one block
    rcases heap_parseCommand hcmd with ⟨rfl, -⟩ | ⟨cmd, rfl, -⟩
    · cases hnull
    rw [Ast.setFlag, if_neg (by rintro ⟨⟩), Ast.commands, ih, List.length_cons,
      Nat.add_comm nodes.length 1, ← Nat.add_assoc]
    rfl

theorem parsePipeline_inMemory (h : parsePipeline p = .ok (node, p')) :
    parsePipeline (p.inMemory heap n)
      = .ok (node.relabel heap n, p'.inMemory heap (n + node.taken)) := by
  obtain ⟨⟨firstCommand, p₁⟩, hcmd, h⟩ := bind_ok.mp h
  obtain ⟨⟨nodes, p₂⟩, hloop, h⟩ := bind_ok.mp h
  have hcount := (heap_pipelineLoop hloop).1
  have hloop' := pipelineLoop_inMemory hloop heap (n + firstCommand.commands + 1)
  rw [parsePipeline, parseCommand_inMemory hcmd]
  simp only [bind, Except.bind, newNode_inMemory]
  have hnew : p₁.newNode.2.inMemory heap (n + firstCommand.commands + 1)
      = p₁.inMemory heap (n + firstCommand.commands + 1) := rfl
  rw [← hnew, hloop']
  dsimp only at h ⊢
  split_ifs at h with hnodes
  · cases h
    subst hnodes
    rcases heap_parseCommand hcmd with ⟨rfl, -⟩ | ⟨cmd, rfl, -⟩ <;> rfl
  · cases h
    obtain ⟨second, rest, rfl⟩ := List.exists_cons_of_ne_nil hnodes
    rw [if_neg (by rintro ⟨⟩)]
    -- the commands after the first are all there, the first one may be missing
    have htaken : (Ast.pipeline (firstCommand :: second :: rest) p₁.newNode.1).taken
        = firstCommand.commands + 1 + (second :: rest).length := by
      rw [Ast.taken, Ast.blocks, Ast.commands, List.countP_cons, hcount]
      rcases heap_parseCommand hcmd with ⟨rfl, -⟩ | ⟨cmd, rfl, -⟩
      · exact Nat.add_comm (second :: rest).length 1
      · exact Nat.add_comm (second :: rest).length 2
    rw [htaken, ← Nat.add_assoc, ← Nat.add_assoc]
    rcases heap_parseCommand hcmd with ⟨rfl, -⟩ | ⟨cmd, rfl, -⟩
    all_goals rfl

theorem conditionalLoop_inMemory {left : Ast} (h : conditionalLoop left p = .ok (node, p'))
    (n : ℕ) :
    conditionalLoop (left.relabel heap n) (p.inMemory heap (n + left.taken))
      = .ok (node.relabel heap n, p'.inMemory heap (n + node.taken)) := by
  replace h := conditionalLoop_run h
  induction h with
  | done hop => exact conditionalLoop_of_none hop
  | operand hop hnext hright _ ih =>
    rw [conditionalLoop_of_op (by exact hop), nextToken_inMemory hnext]
    simp only [bind, Except.bind, parsePipeline_inMemory hright, newNode_inMemory]
    rw [Ast.relabel, Ast.taken, ← Nat.add_assoc, ← Nat.add_assoc] at ih
    exact ih

/-- A chain that is read in another memory is the same but for the flags. -/
theorem parseConditional_inMemory (h : parseConditional p = .ok (node, p')) :
    parseConditional (p.inMemory heap n)
      = .ok (node.relabel heap n, p'.inMemory heap (n + node.taken)) := by
  obtain ⟨⟨left, p₁⟩, hpipe, h⟩ := bind_ok.mp h
  rw [parseConditional, parsePipeline_inMemory hpipe]
  exact conditionalLoop_inMemory h n

theorem skipSeparators_inMemory (h : skipSeparators p = .ok p') :
    skipSeparators (p.inMemory heap n) = .ok (p'.inMemory heap n) := by
  replace h := skipSeparators_run h
  induction h with
  | done hsep => exact skipSeparators_of_not hsep
  | separator hsep hnext _ ih =>
    exact (skipSeparators_of_separator (by exact hsep) (nextToken_inMemory hnext)).trans ih

theorem sequenceLoop_inMemory {nodes : List Ast} (h : sequenceLoop p = .ok (nodes, p'))
    (heap : ℕ → Bool) (n : ℕ) :
    ∃ p'', sequenceLoop (p.inMemory heap n) = .ok (Ast.relabelElements heap n nodes, p'') := by
  replace h := sequenceLoop_run h
  induction h generalizing n with
  | null hcond hnull =>
    refine ⟨_, sequenceLoop_of_isNull (parseConditional_inMemory hcond) ?_⟩
    rw [Ast.isNull_relabel, hnull]
  | last hcond hnull hskip heof =>
    rw [sequenceLoop_element (parseConditional_inMemory hcond) (by rwa [Ast.isNull_relabel])
      (skipSeparators_inMemory hskip), if_pos (by exact heof)]
    exact ⟨_, rfl⟩
  | element hcond hnull hskip heof _ ih =>
    obtain ⟨q, hrest⟩ := ih _
    rw [sequenceLoop_element (parseConditional_inMemory hcond) (by rwa [Ast.isNull_relabel])
      (skipSeparators_inMemory hskip), if_neg (by exact heof), hrest]
    exact ⟨q, rfl⟩

/-- The tree of a line that is read in another memory is the same but for the flags. -/
theorem parserCreateAst_inMemory (heap : ℕ → Bool) (h : parserCreateAst p = .ok (node, p')) :
    ∃ p'', parserCreateAst { p with heap } = .ok (node.relabelLine heap, p'') := by
  obtain ⟨p₁, hnext, h⟩ := bind_ok.mp h
  have hnext' : nextToken { p with heap } = .ok (p₁.inMemory heap 0) :=
    nextToken_inMemory (n := 0) hnext
  rw [parserCreateAst, hnext']
  simp only [bind, Except.bind, gTok_inMemory, newNode_inMemory]
  split_ifs at h ⊢
  · cases h
    exact ⟨_, rfl⟩
  · obtain ⟨⟨nodes, p₂⟩, hloop, h⟩ := bind_ok.mp h
    cases h
    obtain ⟨q, hloop'⟩ := sequenceLoop_inMemory hloop heap 1
    have hnew : p₁.newNode.2.inMemory heap 1 = p₁.inMemory heap 1 := rfl
    rw [← hnew, hloop']
    exact ⟨q, rfl⟩

end

/-! ## Two memories -/

/-- The trees of a line in two memories are the same exactly when the memories agree on the flag of
each of its nodes. -/
theorem parserCreateAst_eq_iff {line : CStr} {gTok : Token} {heap heap' : ℕ → Bool} {node : Ast}
    {p : ParserState Lexer} (h : parserCreateAst ⟨Lexer.init line, gTok, heap⟩ = .ok (node, p)) :
    ∃ node' p', parserCreateAst ⟨Lexer.init line, gTok, heap'⟩ = .ok (node', p') ∧
      (node = node' ↔ ∀ n ∈ node.lineBlocks, heap n = heap' n) := by
  obtain ⟨q, hown⟩ := parserCreateAst_inMemory heap h
  obtain ⟨p', hother⟩ := parserCreateAst_inMemory heap' h
  -- the tree as it is has the flags of its own memory
  have hnode : node.relabelLine heap = node := congrArg Prod.fst (Except.ok.inj (hown.symm.trans h))
  refine ⟨_, p', hother, ?_⟩
  rw [← Ast.relabelLine_eq_iff, hnode]

/-- `a && b`, when the only byte that is set lies in the block that is wasted on `a`. -/
theorem parserCreateAst_eq_iff_and :
    ∃ node p, parserCreateAst (⟨Lexer.init "a && b".toList, .operator tokEof, fun _ ↦ false⟩ :
        ParserState Lexer) = .ok (node, p) ∧
      ∃ p', parserCreateAst (⟨Lexer.init "a && b".toList, .operator tokEof, fun n ↦ n = 2⟩ :
        ParserState Lexer) = .ok (node, p') := by
  have heval : (parserCreateAst (⟨Lexer.init "a && b".toList, .operator tokEof, fun _ ↦ false⟩ :
      ParserState Lexer)).toOption.map (fun r ↦ r.1.lineBlocks) = some [0, 1, 3, 5] := by
    decide +kernel
  obtain ⟨⟨node, p⟩, hparse, hblocks⟩ := exists_of_map_eq heval
  obtain ⟨node', p', hparse', hiff⟩ := @parserCreateAst_eq_iff _ _ _ (fun n ↦ n = 2) _ _ hparse
  obtain rfl : node = node' := by
    rw [hiff, hblocks]
    decide
  exact ⟨node, p, hparse, p', hparse'⟩

/-- The line `a`, in a memory that is clear and in one that has a byte set in its first block: only
one of the trees is executed. -/
theorem not_parserCreateAst_eq :
    ¬∀ (line : CStr) (gTok : Token) (heap heap' : ℕ → Bool) (node node' : Ast)
      (p p' : ParserState Lexer), parserCreateAst ⟨Lexer.init line, gTok, heap⟩ = .ok (node, p) →
      parserCreateAst ⟨Lexer.init line, gTok, heap'⟩ = .ok (node', p') → node = node' := by
  intro hall
  have heval : (parserCreateAst (⟨Lexer.init ['a'], .operator tokEof, fun _ ↦ false⟩ :
      ParserState Lexer)).toOption.map (fun r ↦ r.1.invalid) = some false := by
    decide +kernel
  have heval' : (parserCreateAst (⟨Lexer.init ['a'], .operator tokEof, fun n ↦ n = 0⟩ :
      ParserState Lexer)).toOption.map (fun r ↦ r.1.invalid) = some true := by
    decide +kernel
  obtain ⟨⟨node, p⟩, hparse, hflag⟩ := exists_of_map_eq heval
  obtain ⟨⟨node', p'⟩, hparse', hflag'⟩ := exists_of_map_eq heval'
  cases hall _ _ _ _ _ _ _ _ hparse hparse'
  cases hflag.symm.trans hflag'

end Novash
