import Novash.Executor.Calls
import Novash.Executor.Status
import Novash.Expander.Expander
import Novash.Parser.SourceText

/-!
# What a job says about its line

The job for a pipeline is compiled stage by stage, and each stage overwrites what the one before it
said about the command and about running in the background. What stays is what the last stage says.
For the background that is right: `parse_command` looks at the token behind the command, and behind
the last stage that is the token behind the pipeline. For the command it is not: the text is that
of one stage, and no stage has the right text to begin with.
-/

namespace Novash

open Foundations TokenType ParserState

/-! ## The last stage -/

theorem expanderExpandList_eq_map (env : ExpandEnv) (nodes : List Ast) :
    expanderExpandList env nodes = nodes.map (expanderExpandAst env) := by
  induction nodes with
  | nil => rw [expanderExpandList, List.map_nil]
  | cons node nodes ih => rw [expanderExpandList, ih, List.map_cons]

/-- The expander leaves alone what a job takes over from a command. -/
theorem expanderExpandAst_cmd (env : ExpandEnv) (cmd : CmdNode) (invalid : Bool) :
    ∃ cmd' invalid', expanderExpandAst env (.cmd cmd invalid) = .cmd cmd' invalid' ∧
      cmd'.isBg = cmd.isBg ∧ cmd'.rawStr = cmd.rawStr := by
  rw [expanderExpandAst, expanderExpandCmd]
  exact ⟨_, _, rfl, rfl, rfl⟩

/-- The job that is compiled from these stages has its text and its mark from the last of them. -/
theorem compilePipelineJob_last (job : Job) (nodes : List Ast) (cmd : CmdNode) (invalid : Bool) :
    (compilePipelineJob job (nodes ++ [.cmd cmd invalid])).isBackground = cmd.isBg ∧
      (compilePipelineJob job (nodes ++ [.cmd cmd invalid])).command = cmd.rawStr := by
  rw [compilePipelineJob, List.foldl_append]
  exact ⟨rfl, rfl⟩

section

variable {σ : Type} [TokenSource σ] {p p' : ParserState σ} {node : Ast}

theorem takes_nil_of_last {calls : List (ParseCall σ)} {c : ParseCall σ}
    (h : Joined p (calls ++ [c]) p') : Takes c.after [] p' := by
  induction calls generalizing p with
  | nil =>
    cases h with
    | one _ _ hafter => exact hafter
    | cons _ _ _ _ h => cases h
  | cons c' calls ih =>
    rw [List.cons_append] at h
    generalize hrest : calls ++ [c] = rest at h
    cases h with
    | one => exact absurd hrest (by simp)
    | cons _ _ _ _ h => exact ih (hrest ▸ h)

/-- A pipeline that is not `NULL` ends with a command, and the parser then stands where that command
left it. -/
theorem last_of_parsePipeline (h : parsePipeline p = .ok (node, p')) (hnull : node.isNull = false) :
    ∃ calls c cmd invalid, pipelineCommands p = calls ++ [c] ∧ c.node = .cmd cmd invalid ∧
      Takes c.after [] p' ∧
        ((calls = [] ∧ node = c.node) ∨
          ∃ invalid', node = .pipeline ((calls ++ [c]).map ParseCall.node) invalid') := by
  obtain ⟨hnode, hjoined, -⟩ := calls_parsePipeline h
  rcases hnode with ⟨c, hcalls, rfl⟩ | ⟨hlength, invalid', hnode⟩
  · rw [hcalls] at hjoined
    have hmem : c ∈ pipelineCommands p := by
      rw [hcalls]
      exact List.mem_singleton_self c
    rcases cmd_of_parseCommand (parseCommand_of_mem_pipelineCommands hmem) with
      hc | ⟨cmd, invalid, hc⟩
    · rw [hc] at hnull
      cases hnull
    · exact ⟨[], c, cmd, invalid, hcalls, hc, @takes_nil_of_last σ _ p p' [] c hjoined,
        Or.inl ⟨rfl, rfl⟩⟩
  · -- the calls behind the first one are those of the loop, and it takes no `NULL`
    obtain ⟨⟨firstCommand, p₁⟩, hcmd, -⟩ := bind_ok.mp h
    have hcalls : pipelineCommands p =
        ⟨p, firstCommand, p₁⟩ :: pipelineLoopCalls p₁.newNode.2 := by
      rw [pipelineCommands, hcmd]
    have hne : pipelineLoopCalls p₁.newNode.2 ≠ [] := by
      intro hnil
      rw [hcalls, hnil, List.length_singleton] at hlength
      omega
    obtain ⟨calls, c, hloop⟩ :=
      (List.eq_nil_or_concat (pipelineLoopCalls p₁.newNode.2)).resolve_left hne
    rw [List.concat_eq_append] at hloop
    have hmem : c ∈ pipelineLoopCalls p₁.newNode.2 := by
      rw [hloop]
      exact List.mem_append_right _ (List.mem_singleton_self c)
    obtain ⟨_, _, hturn⟩ := exists_of_mem_produce hmem
    obtain ⟨-, -, hparse, hnotnull, -⟩ := pipelineTurn_eq_some.mp hturn
    rw [hloop, ← List.cons_append] at hcalls
    rw [hcalls] at hjoined hnode
    rcases cmd_of_parseCommand hparse with hc | ⟨cmd, invalid, hc⟩
    · rw [hc] at hnotnull
      cases hnotnull
    · exact ⟨_, c, cmd, invalid, hcalls, hc, takes_nil_of_last hjoined, Or.inr ⟨invalid', hnode⟩⟩

/-- A job is compiled for a pipeline, unless it is `NULL` or its flag is set. -/
theorem exists_compile_of_parsePipeline {env : ExpandEnv} (h : parsePipeline p = .ok (node, p'))
    (hnull : node.isNull = false) (addr : ℕ)
    (hvalid : (expanderExpandAst env node).invalid = false) :
    ∃ job, (expanderExpandAst env node).compile addr = some job := by
  obtain ⟨calls, c, cmd, invalid, -, hc, -, ⟨-, rfl⟩ | ⟨flag, rfl⟩⟩ :=
    last_of_parsePipeline h hnull
  · obtain ⟨cmd', invalid', hexpand, -⟩ := expanderExpandAst_cmd env cmd invalid
    rw [hc, hexpand] at hvalid ⊢
    obtain rfl : invalid' = false := hvalid
    exact ⟨_, rfl⟩
  · rw [expanderExpandAst] at hvalid ⊢
    obtain rfl : flag = false := hvalid
    exact ⟨_, rfl⟩

/-- The job for a pipeline, in terms of the last command of it. -/
theorem compiled_of_parsePipeline {env : ExpandEnv} {addr : ℕ} {job : Job}
    (h : parsePipeline p = .ok (node, p'))
    (hjob : (expanderExpandAst env node).compile addr = some job) :
    ∃ c cmd invalid, c ∈ pipelineCommands p ∧ c.node = .cmd cmd invalid ∧ Takes c.after [] p' ∧
      job.isBackground = cmd.isBg ∧ job.command = cmd.rawStr := by
  have hnull : node.isNull = false := by
    cases node with
    | null =>
      rw [expanderExpandAst] at hjob
      cases hjob
    | _ => rfl
  obtain ⟨calls, c, cmd, invalid, hcalls, hc, htakes, hnode⟩ := last_of_parsePipeline h hnull
  obtain ⟨cmd', invalid', hexpand, hbg, hraw⟩ := expanderExpandAst_cmd env cmd invalid
  have hmem : c ∈ pipelineCommands p := by
    rw [hcalls]
    exact List.mem_append_right _ (List.mem_singleton_self c)
  refine ⟨c, cmd, invalid, hmem, hc, htakes, ?_⟩
  rcases hnode with ⟨-, hnode⟩ | ⟨flag, hnode⟩
  · rw [hnode, hc, hexpand] at hjob
    cases invalid' with
    | true => cases hjob
    | false =>
      cases hjob
      exact ⟨hbg, hraw⟩
  · rw [hnode, expanderExpandAst, expanderExpandList_eq_map, List.map_append, List.map_append,
      List.map_singleton, List.map_singleton, hc, hexpand] at hjob
    cases flag with
    | true => cases hjob
    | false =>
      have hlast := compilePipelineJob_last { addr }
        ((calls.map ParseCall.node).map (expanderExpandAst env)) cmd' invalid'
      cases hjob
      exact ⟨hlast.1.trans hbg, hlast.2.trans hraw⟩

end

/-! ## The jobs of a tree -/

/-- The job that is compiled is the one that `run_job` is handed. -/
theorem execCalls_of_compile {node : Ast} {sh : Shell} {job : Job}
    (h : node.compile sh.heap = some job) : execCalls node sh = [(job, (jobsNewJob sh).2)] := by
  unfold Ast.compile at h
  split at h
  · obtain rfl := Option.some.inj h
    rw [execCalls, callsWith]
    rfl
  · obtain rfl := Option.some.inj h
    rw [execCalls, callsWith]
    rfl
  · exact nomatch h

section

variable {run : Job → Shell → Except Halt (ℤ × Shell)} {c : Job × Shell}

mutual

/-- What a tree hands to `run` comes from one of its pipelines. -/
theorem exists_pipeline_of_mem_calls (node : Ast) {sh : Shell} (h : c ∈ callsWith run node sh) :
    ∃ pipeline ∈ node.pipelines, ∃ sh', c ∈ callsWith run pipeline sh' := by
  match node with
  | .null => exact ⟨_, List.mem_singleton_self _, sh, h⟩
  | .cmd cmd invalid => exact ⟨_, List.mem_singleton_self _, sh, h⟩
  | .pipeline nodes invalid => exact ⟨_, List.mem_singleton_self _, sh, h⟩
  | .conditional left right op invalid =>
    rw [callsWith] at h
    rw [Ast.pipelines]
    split at h
    · exact absurd h List.not_mem_nil
    rcases List.mem_append.mp h with h | h
    · obtain ⟨pipeline, hmem, hc⟩ := exists_pipeline_of_mem_calls left h
      exact ⟨pipeline, List.mem_append_left _ hmem, hc⟩
    · split at h
      · exact absurd h List.not_mem_nil
      split at h
      · obtain ⟨pipeline, hmem, hc⟩ := exists_pipeline_of_mem_calls right h
        exact ⟨pipeline, List.mem_append_right _ hmem, hc⟩
      · exact absurd h List.not_mem_nil
  | .sequence nodes invalid =>
    rw [callsWith] at h
    split at h
    · exact absurd h List.not_mem_nil
    · exact exists_pipeline_of_mem_callsSeq nodes h

theorem exists_pipeline_of_mem_callsSeq (nodes : List Ast) {sh : Shell}
    (h : c ∈ callsSeqWith run nodes sh) :
    ∃ pipeline ∈ Ast.pipelinesList nodes, ∃ sh', c ∈ callsWith run pipeline sh' := by
  match nodes with
  | [] => exact absurd h List.not_mem_nil
  | node :: nodes =>
    rw [callsSeqWith] at h
    rw [Ast.pipelinesList]
    rcases List.mem_append.mp h with h | h
    · obtain ⟨pipeline, hmem, hc⟩ := exists_pipeline_of_mem_calls node h
      exact ⟨pipeline, List.mem_append_left _ hmem, hc⟩
    · split at h
      · exact absurd h List.not_mem_nil
      · obtain ⟨pipeline, hmem, hc⟩ := exists_pipeline_of_mem_callsSeq nodes h
        exact ⟨pipeline, List.mem_append_right _ hmem, hc⟩

end

variable (env : ExpandEnv)

mutual

/-- The expander goes through a tree pipeline by pipeline. -/
theorem pipelines_expanderExpandAst (node : Ast) :
    (expanderExpandAst env node).pipelines = node.pipelines.map (expanderExpandAst env) := by
  match node with
  | .null => rw [expanderExpandAst, Ast.pipelines, List.map_singleton, expanderExpandAst]
  | .cmd cmd invalid =>
    rw [Ast.pipelines, List.map_singleton, expanderExpandAst, Ast.pipelines]
  | .pipeline nodes invalid =>
    rw [Ast.pipelines, List.map_singleton, expanderExpandAst, Ast.pipelines]
  | .conditional left right op invalid =>
    rw [expanderExpandAst, Ast.pipelines, Ast.pipelines, List.map_append,
      pipelines_expanderExpandAst left, pipelines_expanderExpandAst right]
  | .sequence nodes invalid =>
    rw [expanderExpandAst, Ast.pipelines, Ast.pipelines, pipelinesList_expanderExpandList nodes]

theorem pipelinesList_expanderExpandList (nodes : List Ast) :
    Ast.pipelinesList (expanderExpandList env nodes)
      = (Ast.pipelinesList nodes).map (expanderExpandAst env) := by
  match nodes with
  | [] => rw [expanderExpandList, Ast.pipelinesList, List.map_nil]
  | node :: nodes =>
    rw [expanderExpandList, Ast.pipelinesList, Ast.pipelinesList, List.map_append,
      pipelines_expanderExpandAst node, pipelinesList_expanderExpandList nodes]

end

end

/-! ## Running in the background -/

/-- The pipelines of a tree come from the calls of `parse_pipeline`, and the job that is compiled
for one runs in the background if and only if the token behind the pipeline is `&`. A job is
compiled for each pipeline that is not `NULL` and whose flag is clear when it has been expanded, and
`run_job` is handed that job; what the whole line hands to `run_job` are jobs of its pipelines. -/
structure BackgroundMarked (line : CStr) (g : Token) (heap : ℕ → Bool) (node : Ast) : Prop where
  pipelines : Ast.pipelinesList node.elements =
    (linePipelines (⟨Lexer.init line, g, heap⟩ : ParserState Lexer)).map ParseCall.node
  compiled : ∀ c ∈ linePipelines (⟨Lexer.init line, g, heap⟩ : ParserState Lexer),
    ∀ (env : ExpandEnv) (sh : Shell), c.node.isNull = false →
      (expanderExpandAst env c.node).invalid = false →
        ∃ job, (expanderExpandAst env c.node).compile sh.heap = some job ∧
          execCalls (expanderExpandAst env c.node) sh = [(job, (jobsNewJob sh).2)]
  handed : ∀ (env : ExpandEnv) (sh : Shell), ∀ call ∈ execCalls (expanderExpandAst env node) sh,
    ∃ c ∈ linePipelines (⟨Lexer.init line, g, heap⟩ : ParserState Lexer),
      ∃ sh', call ∈ execCalls (expanderExpandAst env c.node) sh'
  marked : ∀ c ∈ linePipelines (⟨Lexer.init line, g, heap⟩ : ParserState Lexer),
    ∀ {env : ExpandEnv} {addr : ℕ} {job : Job},
      (expanderExpandAst env c.node).compile addr = some job →
        (job.isBackground = true ↔ c.after.gTok.type = tokBg)

theorem backgroundMarked_of_parserCreateAst {line : CStr} {g : Token} {heap : ℕ → Bool}
    {node : Ast} {p' : ParserState Lexer}
    (h : parserCreateAst ⟨Lexer.init line, g, heap⟩ = .ok (node, p')) :
    BackgroundMarked line g heap node := by
  obtain ⟨p₁, hread⟩ := lineRead_parserCreateAst h
  refine ⟨hread.pipelines, fun c hc env sh hnull hvalid ↦ ?_, fun env sh call hcall ↦ ?_,
    fun c hc env addr job hjob ↦ ?_⟩
  · obtain ⟨job, hjob⟩ :=
      exists_compile_of_parsePipeline (parsePipeline_of_mem_linePipelines hc) hnull sh.heap hvalid
    exact ⟨job, hjob, execCalls_of_compile hjob⟩
  · rcases sequence_of_parserCreateAst h with rfl | ⟨invalid, hnode⟩
    · exact absurd hcall List.not_mem_nil
    have hpipelines : node.pipelines = Ast.pipelinesList node.elements := by
      rw [hnode]
      rfl
    obtain ⟨pipeline, hmem, hcall⟩ := exists_pipeline_of_mem_calls _ hcall
    rw [pipelines_expanderExpandAst, hpipelines, hread.pipelines, List.map_map] at hmem
    obtain ⟨c, hc, rfl⟩ := List.mem_map.mp hmem
    exact ⟨c, hc, hcall⟩
  obtain ⟨c', cmd, invalid, hc', hnode, htakes, hbg, -⟩ :=
    compiled_of_parsePipeline (parsePipeline_of_mem_linePipelines hc) hjob
  have hcmd := parseCommand_of_mem_pipelineCommands hc'
  rcases readsCommand_parseCommand hcmd with ⟨-, hnull, -⟩ | ⟨-, cmd', _, _, _, hnode', hreads⟩
  · rw [hnode] at hnull
    cases hnull
  · cases hnode.symm.trans hnode'
    rw [hbg, hreads.isBg, htakes.gTok_eq]

/-- The job of the first pipeline runs in the background, that of the second does not. -/
theorem backgroundMarked_pipeline :
    ∃ (node : Ast) (p' : ParserState Lexer),
      parserCreateAst ⟨Lexer.init "a | b > f & c".toList, .operator tokEof, fun _ ↦ false⟩
        = .ok (node, p') ∧
      ((execCalls (expanderExpandAst emptyDirectory node) (.onTerminal { pids := [10, 11] })).map
        fun call ↦ (call.1.processes.map Process.argv, call.1.isBackground))
          = [([[['a']], [['b']]], true), ([[['c']]], false)] ∧
      BackgroundMarked "a | b > f & c".toList (.operator tokEof) (fun _ ↦ false) node := by
  have heval : (parserCreateAst
      (⟨Lexer.init "a | b > f & c".toList, .operator tokEof, fun _ ↦ false⟩ :
        ParserState Lexer)).toOption.map (fun r ↦
          (execCalls (expanderExpandAst emptyDirectory r.1) (.onTerminal { pids := [10, 11] })).map
            fun call ↦ (call.1.processes.map Process.argv, call.1.isBackground))
      = some [([[['a']], [['b']]], true), ([[['c']]], false)] := by
    decide +kernel
  obtain ⟨⟨node, p'⟩, hparse, hcalls⟩ := exists_of_map_eq heval
  exact ⟨node, p', hparse, hcalls, backgroundMarked_of_parserCreateAst hparse⟩

/-! ## The text of a command -/

/-- The commands and pipelines of a tree come from the calls that read them. `raw_str` of a command
is its text in the line, and the command of the job that is compiled for a pipeline is the text of
the pipeline. -/
structure TextsKept (line : CStr) (g : Token) (heap : ℕ → Bool) (node : Ast) : Prop where
  cmds : node.cmds = Ast.cmdsList
    ((lineCommands (⟨Lexer.init line, g, heap⟩ : ParserState Lexer)).map ParseCall.node)
  pipelines : Ast.pipelinesList node.elements =
    (linePipelines (⟨Lexer.init line, g, heap⟩ : ParserState Lexer)).map ParseCall.node
  rawStr : ∀ c ∈ lineCommands (⟨Lexer.init line, g, heap⟩ : ParserState Lexer),
    ∀ {cmd : CmdNode} {invalid : Bool}, c.node = .cmd cmd invalid →
      cmd.rawStr = c.sourceText line
  command : ∀ c ∈ linePipelines (⟨Lexer.init line, g, heap⟩ : ParserState Lexer),
    ∀ {env : ExpandEnv} {addr : ℕ} {job : Job},
      (expanderExpandAst env c.node).compile addr = some job → job.command = c.sourceText line

section

variable {line : CStr} {p p' : ParserState Lexer} {calls : List (ParseCall Lexer)}

theorem onLine_of_covers (h : Covers p calls p') (hp : OnLine line p) :
    ∀ c ∈ calls, OnLine line c.before := by
  induction h with
  | nil => exact fun _ hc ↦ absurd hc List.not_mem_nil
  | operator _ hone _ ih => exact ih (hp.takes hone)
  | command hbefore hcmd _ ih =>
    obtain ⟨toks, htakes⟩ := takes_parseCommand hcmd
    have hbefore := hp.takes hbefore
    exact List.forall_mem_cons.mpr ⟨hbefore, ih (hbefore.takes htakes)⟩

/-- Every word that is looked at belongs to a command. -/
theorem no_word_iff_covers (h : Covers p calls p') :
    (∀ tok ∈ p.lookedAt, tok.type ≠ tokWord) ↔
      (∀ c ∈ calls, c.before.gTok.type ≠ tokWord) ∧ ∀ tok ∈ p'.lookedAt, tok.type ≠ tokWord := by
  induction h with
  | nil h =>
    rw [lookedAt_of_takes_nil h]
    simp
  | @operator p _ _ _ hopens hone _ ih =>
    have hword : p.gTok.type ≠ tokWord := fun hc ↦ by
      rw [hc] at hopens
      exact absurd hopens (by decide)
    rw [lookedAt_of_operator hopens hone, List.forall_mem_cons, ih, and_iff_right hword]
  | @command _ _ c _ hbefore hcmd _ ih =>
    rw [lookedAt_of_takes_nil hbefore, List.forall_mem_cons]
    rcases readsCommand_parseCommand hcmd with
      ⟨hne, -, hsame⟩ | ⟨hword, _, _, words, written, -, hreads⟩
    · rw [hsame] at ih
      rw [ih, and_iff_right hne]
    · have hmem : c.before.gTok ∈ c.before.lookedAt := by
        obtain ⟨toks, hcons⟩ := lookedAt_eq_cons c.before
        rw [hcons]
        exact List.mem_cons_self
      exact ⟨fun hall ↦ absurd hword (hall _ hmem), fun hall ↦ absurd hword hall.1.1⟩

variable {g : Token} {heap : ℕ → Bool} {node : Ast}

/-- No word is looked at exactly when no call of `parse_command` finds one. -/
theorem no_word_iff_lineCommands {p' : ParserState Lexer}
    (h : parserCreateAst ⟨Lexer.init line, g, heap⟩ = .ok (node, p')) :
    (∀ tok ∈ lookedAt (TokenSource.stream (Lexer.init line)), tok.type ≠ tokWord) ↔
      ∀ c ∈ lineCommands (⟨Lexer.init line, g, heap⟩ : ParserState Lexer),
        c.before.gTok.type ≠ tokWord := by
  obtain ⟨p₁, hread⟩ := lineRead_parserCreateAst h
  rcases hread.stops with ⟨hsep, hlooked, helements⟩ | ⟨-, hlooked, hstop⟩
  · rw [hlooked, lineCommands, linePipelines, helements]
    refine iff_of_true (fun tok htok hword ↦ ?_) fun c hc ↦ absurd hc List.not_mem_nil
    rw [List.mem_singleton.mp htok] at hword
    rw [hword] at hsep
    exact absurd hsep (by decide)
  · rw [hlooked, no_word_iff_covers hread.covers, lookedAt_of_stop hstop]
    refine and_iff_left fun tok htok hword ↦ ?_
    rw [List.mem_singleton.mp htok] at hword
    rw [hword] at hstop
    exact absurd hstop (by decide)

/-- The text of a command is never the right one, so there is no command. -/
theorem TextsKept.no_word {p' : ParserState Lexer}
    (h : parserCreateAst ⟨Lexer.init line, g, heap⟩ = .ok (node, p'))
    (hkept : TextsKept line g heap node) :
    ∀ c ∈ lineCommands (⟨Lexer.init line, g, heap⟩ : ParserState Lexer),
      c.before.gTok.type ≠ tokWord := by
  obtain ⟨p₁, hread⟩ := lineRead_parserCreateAst h
  intro c hc hword
  rcases readsCommand_parseCommand (parseCommand_of_mem_lineCommands hc) with
    ⟨hne, -⟩ | ⟨-, cmd, invalid, words, written, hnode, hreads⟩
  · exact hne hword
  · have honline := onLine_of_covers hread.covers (onLine_of_nextToken hread.next) c hc
    exact rawStr_ne_sourceText honline hreads (hkept.rawStr c hc hnode)

end

/-- The texts are right exactly when there are none: no word is looked at. -/
theorem textsKept_iff {line : CStr} {g : Token} {heap : ℕ → Bool} {node : Ast}
    {p' : ParserState Lexer} (h : parserCreateAst ⟨Lexer.init line, g, heap⟩ = .ok (node, p')) :
    TextsKept line g heap node ↔
      ∀ tok ∈ lookedAt (TokenSource.stream (Lexer.init line)), tok.type ≠ tokWord := by
  rw [no_word_iff_lineCommands h]
  refine ⟨TextsKept.no_word h, fun hall ↦ ?_⟩
  obtain ⟨p₁, hread⟩ := lineRead_parserCreateAst h
  have hnull : ∀ c ∈ lineCommands (⟨Lexer.init line, g, heap⟩ : ParserState Lexer),
      ∀ {cmd : CmdNode} {invalid : Bool}, c.node ≠ .cmd cmd invalid := by
    intro c hc cmd invalid hnode
    rcases readsCommand_parseCommand (parseCommand_of_mem_lineCommands hc) with
      ⟨-, hnull, -⟩ | ⟨hword, -⟩
    · rw [hnode] at hnull
      cases hnull
    · exact hall c hc hword
  refine ⟨cmds_parserCreateAst h, hread.pipelines,
    fun c hc cmd invalid hnode ↦ absurd hnode (hnull c hc), fun c hc env addr job hjob ↦ ?_⟩
  obtain ⟨c', cmd, invalid, hc', hnode, -⟩ :=
    compiled_of_parsePipeline (parsePipeline_of_mem_linePipelines hc) hjob
  exact absurd hnode (hnull c' (List.mem_flatMap.mpr ⟨c, hc, hc'⟩))

theorem textsKept_iff_redirection :
    ∃ (node : Ast) (p' : ParserState Lexer),
      parserCreateAst ⟨Lexer.init "> f".toList, .operator tokEof, fun _ ↦ false⟩
        = .ok (node, p') ∧
      TextsKept "> f".toList (.operator tokEof) (fun _ ↦ false) node := by
  have heval : (parserCreateAst
      (⟨Lexer.init "> f".toList, .operator tokEof, fun _ ↦ false⟩ :
        ParserState Lexer)).toOption.map (fun r ↦ r.2.gTok.type) = some tokRedirOut := by
    decide +kernel
  obtain ⟨⟨node, p'⟩, hparse, -⟩ := exists_of_map_eq heval
  exact ⟨node, p', hparse, (textsKept_iff hparse).mpr (by decide +kernel)⟩

/-- For the line `ls -l` the text that is kept is ` -l`. -/
theorem not_textsKept : ¬∀ (line : CStr) (g : Token) (heap : ℕ → Bool) (node : Ast)
    (p' : ParserState Lexer), parserCreateAst ⟨Lexer.init line, g, heap⟩ = .ok (node, p') →
      TextsKept line g heap node := by
  intro hall
  have heval : (parserCreateAst
      (⟨Lexer.init "ls -l".toList, .operator tokEof, fun _ ↦ false⟩ :
        ParserState Lexer)).toOption.map (fun r ↦ r.2.gTok.type) = some tokEof := by
    decide +kernel
  obtain ⟨⟨node, p'⟩, hparse, -⟩ := exists_of_map_eq heval
  have hnone := (no_word_iff_lineCommands hparse).mpr
    (TextsKept.no_word hparse (hall _ _ _ _ _ hparse))
  exact absurd hnone (by decide +kernel)

end Novash
