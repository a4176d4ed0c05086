import Novash.Executor.Chains
import Novash.Expander.Flags
import Novash.Shell.Lines

/-!
# Commands whose expansion failed

A word that cannot be expanded should keep its command, and the pipeline it is in, from being run.
The expander sets the flag of the command, and `exec_node` looks at the flag of the node it is
given: for a command that stands alone this is the same flag, for a stage of a pipeline it is not.
And a redirection whose target is the empty word `''` has no parts, so that it is taken for one
without a target: it is never expanded, and nothing is flagged.

So what `run_job` is handed is sound exactly when neither occurs among the nodes that `exec_node`
comes to (`soundRecords_iff`).
-/

namespace Novash

open Foundations CondOp

/-! ## What the expander does to the commands -/

/-- All words and all redirection targets of the command expand. -/
def CmdNode.Expands (env : ExpandEnv) (cmd : CmdNode) : Prop :=
  (∃ argv, expandArgvParts env cmd.argvParts = .ok argv) ∧
    ∀ r ∈ cmd.redir, ∃ target, expandRedirectionTarget env r.targetParts = .ok target

/-- A command, with its flag, as the expander leaves it. -/
structure ExpandedBy (env : ExpandEnv) (c : CmdNode × Bool) : Prop where
  argvParts : c.1.argvParts ≠ []
  argv : c.1.argv = (expandArgvParts env c.1.argvParts).toOption
  redir : ∀ r ∈ c.1.redir, r.target =
    if r.targetParts = [] then none else (expandRedirectionTarget env r.targetParts).toOption
  flag : c.2 = false → c.1.Expands env

section

variable {env : ExpandEnv}

theorem expands_iff_not_fails (cmd : CmdNode) : cmd.Expands env ↔ ¬cmd.Fails env := by
  rw [CmdNode.Fails, CmdNode.Expands, expandArgvParts_ok_iff]
  simp only [exists_error_iff]
  push Not
  rfl

theorem target_expandRedir (redir : List Redirection) (hnone : ∀ r ∈ redir, r.target = none) :
    ∀ invalid, ∀ r ∈ (expandRedir env invalid redir).1, r.target =
      if r.targetParts = [] then none
      else (expandRedirectionTarget env r.targetParts).toOption := by
  induction redir with
  | nil => exact fun invalid _ h ↦ absurd h List.not_mem_nil
  | cons r redir ih =>
    intro invalid
    obtain ⟨hone, hrest⟩ := List.forall_mem_cons.mp hnone
    rw [expandRedir]
    split
    · next hparts =>
      refine List.forall_mem_cons.mpr ⟨?_, ih hrest invalid⟩
      rw [if_pos hparts, hone]
    · next hparts =>
      refine List.forall_mem_cons.mpr ⟨?_, ih hrest _⟩
      rw [if_neg hparts]
      exact fst_expandInto invalid _

theorem expandedBy_expanderExpandCmd {cmd : CmdNode} (h : cmd.Unexpanded) (invalid : Bool) :
    ExpandedBy env (expanderExpandCmd env cmd invalid) := by
  let words := expandInto invalid (expandArgvParts env cmd.argvParts)
  have hcmd : expanderExpandCmd env cmd invalid =
      ({ cmd with argv := words.1, redir := (expandRedir env words.2 cmd.redir).1 },
        (expandRedir env words.2 cmd.redir).2) := by
    rw [expanderExpandCmd, if_neg h.argvParts]
  refine ⟨?_, ?_, ?_, fun hvalid ↦ ?_⟩
  · rw [hcmd]
    exact h.argvParts
  · rw [hcmd]
    exact fst_expandInto invalid _
  · rw [hcmd]
    exact target_expandRedir cmd.redir h.redir words.2
  · rw [expands_iff_not_fails, fails_expanderExpandCmd]
    intro hfails
    rw [(invalid_expanderExpandCmd cmd invalid).mpr (Or.inr hfails)] at hvalid
    cases hvalid

theorem expandedBy_of_expandLine {heap : ℕ → Bool} {line : CStr} {node : Ast}
    (h : expandLine env heap line = .ok node) : ∀ c ∈ node.cmds, ExpandedBy env c := by
  obtain ⟨⟨node₀, p⟩, hparse, h⟩ := bind_ok.mp h
  obtain rfl := Except.ok.inj h
  intro c hc
  rw [cmds_expanderExpandAst] at hc
  obtain ⟨c₀, hc₀, rfl⟩ := List.mem_map.mp hc
  exact expandedBy_expanderExpandCmd (unexpanded_parserCreateAst hparse c₀ hc₀) c₀.2

end

/-! ## The nodes that are run -/

section

variable (run : Job → Shell → Except Halt (ℤ × Shell))

mutual

/-- The commands and pipelines that `exec_node` comes to and does not pass over, each with the shell
then. -/
def visitsWith : Ast → Shell → List (Ast × Shell)
  | .null, _ => []
  | .cmd node invalid, sh => if invalid then [] else [(.cmd node invalid, sh)]
  | .pipeline nodes invalid, sh => if invalid then [] else [(.pipeline nodes invalid, sh)]
  | .conditional left right op invalid, sh =>
    if invalid then []
    else
      visitsWith left sh ++
        match execNodeWith run left sh with
        | .error _ => []
        | .ok (status, sh) =>
          if (op = condAnd ∧ status = 0) ∨ (op = condOr ∧ status ≠ 0) then visitsWith right sh
          else []
  | .sequence nodes invalid, sh => if invalid then [] else visitsSeqWith nodes sh

def visitsSeqWith : List Ast → Shell → List (Ast × Shell)
  | [], _ => []
  | node :: nodes, sh =>
    visitsWith node sh ++
      match execNodeWith run node sh with
      | .error _ => []
      | .ok (_, sh) => visitsSeqWith nodes sh

end

/-- The call of `run_job` for a node. -/
def callOf (v : Ast × Shell) : Job × Shell :=
  (v.1.compileInto (jobsNewJob v.2).1, (jobsNewJob v.2).2)

mutual

/-- These are the calls of `run_job`. -/
theorem callsWith_eq_map (node : Ast) (sh : Shell) :
    callsWith run node sh = (visitsWith run node sh).map callOf := by
  match node with
  | .null => rfl
  | .cmd node invalid =>
    rw [callsWith, visitsWith]
    cases invalid <;> rfl
  | .pipeline nodes invalid =>
    rw [callsWith, visitsWith]
    cases invalid <;> rfl
  | .conditional left right op invalid =>
    rw [callsWith, visitsWith]
    cases invalid with
    | true => rfl
    | false =>
      rw [if_neg Bool.false_ne_true, if_neg Bool.false_ne_true, List.map_append,
        callsWith_eq_map left]
      cases execNodeWith run left sh with
      | error e => rfl
      | ok x =>
        dsimp only
        split
        · rw [callsWith_eq_map right]
        · rfl
  | .sequence nodes invalid =>
    rw [callsWith, visitsWith]
    cases invalid with
    | true => rfl
    | false => exact callsSeqWith_eq_map nodes sh

theorem callsSeqWith_eq_map (nodes : List Ast) (sh : Shell) :
    callsSeqWith run nodes sh = (visitsSeqWith run nodes sh).map callOf := by
  match nodes with
  | [] => rfl
  | node :: nodes =>
    rw [callsSeqWith, visitsSeqWith, List.map_append, callsWith_eq_map node]
    cases execNodeWith run node sh with
    | error e => rfl
    | ok x => exact congrArg _ (callsSeqWith_eq_map nodes x.2)

end

/-- A command is visited if its flag is clear, and a pipeline if its own is. -/
def Visitable (cmds : List (CmdNode × Bool)) (node : Ast) : Prop :=
  (∃ cmd, node = .cmd cmd false ∧ (cmd, false) ∈ cmds) ∨
    ∃ nodes, node = .pipeline nodes false ∧ ∀ c ∈ node.stages, c ∈ cmds

theorem Visitable.mono {cmds cmds' : List (CmdNode × Bool)} {node : Ast}
    (h : Visitable cmds node) (hsub : cmds ⊆ cmds') : Visitable cmds' node := by
  rcases h with ⟨cmd, hnode, hcmd⟩ | ⟨nodes, hnode, hstages⟩
  · exact Or.inl ⟨cmd, hnode, hsub hcmd⟩
  · exact Or.inr ⟨nodes, hnode, fun c hc ↦ hsub (hstages c hc)⟩

theorem Visitable.isPipeline {cmds : List (CmdNode × Bool)} {node : Ast}
    (h : Visitable cmds node) : node.IsPipeline := by
  rcases h with ⟨cmd, rfl, -⟩ | ⟨nodes, rfl, -⟩
  · trivial
  · trivial

theorem Visitable.mem {cmds : List (CmdNode × Bool)} {node : Ast} (h : Visitable cmds node)
    {stage : CmdNode × Bool} (hstage : stage ∈ node.stages) : stage ∈ cmds := by
  rcases h with ⟨cmd, rfl, hcmd⟩ | ⟨nodes, -, hstages⟩
  · obtain rfl := List.mem_singleton.mp hstage
    exact hcmd
  · exact hstages stage hstage

mutual

theorem visitable_of_mem_visits (node : Ast) {sh : Shell} {v : Ast × Shell}
    (hv : v ∈ visitsWith run node sh) : Visitable node.cmds v.1 := by
  match node with
  | .null => exact absurd hv List.not_mem_nil
  | .cmd node invalid =>
    rw [visitsWith] at hv
    cases invalid with
    | true => exact absurd hv List.not_mem_nil
    | false =>
      obtain rfl := List.mem_singleton.mp hv
      exact Or.inl ⟨node, rfl, List.mem_cons_self⟩
  | .pipeline nodes invalid =>
    rw [visitsWith] at hv
    cases invalid with
    | true => exact absurd hv List.not_mem_nil
    | false =>
      obtain rfl := List.mem_singleton.mp hv
      refine Or.inr ⟨nodes, rfl, fun c hc ↦ ?_⟩
      -- the stages are the commands among the children
      obtain ⟨child, hchild, hsome⟩ := List.mem_filterMap.mp hc
      refine Ast.mem_cmdsList hchild ?_
      cases child with
      | cmd cmd invalid =>
        obtain rfl := Option.some.inj hsome
        exact List.mem_cons_self
      | _ => exact nomatch hsome
  | .conditional left right op invalid =>
    rw [visitsWith] at hv
    cases invalid with
    | true => exact absurd hv List.not_mem_nil
    | false =>
      rw [if_neg Bool.false_ne_true] at hv
      rcases List.mem_append.mp hv with hv | hv
      · exact (visitable_of_mem_visits left hv).mono (List.subset_append_left _ _)
      split at hv
      · exact absurd hv List.not_mem_nil
      split at hv
      · exact (visitable_of_mem_visits right hv).mono (List.subset_append_right _ _)
      · exact absurd hv List.not_mem_nil
  | .sequence nodes invalid =>
    rw [visitsWith] at hv
    cases invalid with
    | true => exact absurd hv List.not_mem_nil
    | false => exact visitable_of_mem_visitsSeq nodes hv

theorem visitable_of_mem_visitsSeq (nodes : List Ast) {sh : Shell} {v : Ast × Shell}
    (hv : v ∈ visitsSeqWith run nodes sh) : Visitable (Ast.cmdsList nodes) v.1 := by
  match nodes with
  | [] => exact absurd hv List.not_mem_nil
  | node :: nodes =>
    rw [visitsSeqWith] at hv
    rcases List.mem_append.mp hv with hv | hv
    · exact (visitable_of_mem_visits node hv).mono (List.subset_append_left _ _)
    split at hv
    · exact absurd hv List.not_mem_nil
    · exact (visitable_of_mem_visitsSeq nodes hv).mono (List.subset_append_right _ _)

end

end

/-! ## The records of the processes -/

theorem processes_compileInto {node : Ast} (h : node.IsPipeline) {job : Job}
    (hjob : job.processes = []) :
    (node.compileInto job).processes = node.stages.map fun stage ↦ jobsNewProcess stage.1 := by
  cases node with
  | cmd node invalid =>
    change job.processes ++ _ = _
    rw [hjob]
    rfl
  | pipeline nodes invalid =>
    refine (processes_compilePipelineJob job nodes invalid).trans ?_
    rw [hjob]
    rfl
  | _ => exact h.elim

/-- Each process record that `run_job` is handed is that of a command all of whose words and targets
expanded, with an argument vector that is not empty and no target that is `NULL`. -/
def SoundRecords (env : ExpandEnv) (node : Ast) (sh : Shell) : Prop :=
  ∀ c ∈ execCalls node sh, ∀ proc ∈ c.1.processes,
    (∃ stage ∈ node.cmds, proc = jobsNewProcess stage.1 ∧ stage.1.Expands env) ∧
      proc.argv ≠ [] ∧ ∀ r ∈ proc.redir, r.target ≠ none

section

variable {env : ExpandEnv} {c : CmdNode × Bool}

/-- The record of a command shows whether it expanded. -/
theorem ExpandedBy.expands_of_record (h : ExpandedBy env c) (hargv : (jobsNewProcess c.1).argv ≠ [])
    (htargets : ∀ r ∈ (jobsNewProcess c.1).redir, r.target ≠ none) :
    c.1.Expands env ∧ ∀ r ∈ c.1.redir, r.targetParts ≠ [] := by
  have htarget : ∀ r ∈ c.1.redir, r.target ≠ none := fun r hr ↦
    htargets { r with targetParts := [] } (List.mem_map.mpr ⟨r, hr, rfl⟩)
  have hparts : ∀ r ∈ c.1.redir, r.targetParts ≠ [] := by
    intro r hr hnil
    have hnone := h.redir r hr
    rw [if_pos hnil] at hnone
    exact htarget r hr hnone
  refine ⟨⟨?_, fun r hr ↦ ?_⟩, hparts⟩
  · have hsome : (expandArgvParts env c.1.argvParts).toOption ≠ none := by
      intro hnone
      rw [jobsNewProcess, h.argv, hnone] at hargv
      exact hargv rfl
    cases hresult : expandArgvParts env c.1.argvParts with
    | error e => rw [hresult] at hsome; exact absurd rfl hsome
    | ok argv => exact ⟨argv, rfl⟩
  · have hsome := htarget r hr
    rw [h.redir r hr, if_neg (hparts r hr)] at hsome
    cases hresult : expandRedirectionTarget env r.targetParts with
    | error e => rw [hresult] at hsome; exact absurd rfl hsome
    | ok target => exact ⟨target, rfl⟩

theorem ExpandedBy.record_of_expands (h : ExpandedBy env c) (hexpands : c.1.Expands env)
    (hparts : ∀ r ∈ c.1.redir, r.targetParts ≠ []) :
    (jobsNewProcess c.1).argv ≠ [] ∧ ∀ r ∈ (jobsNewProcess c.1).redir, r.target ≠ none := by
  obtain ⟨⟨argv, hargv⟩, htargets⟩ := hexpands
  refine ⟨?_, fun r hr ↦ ?_⟩
  · -- every word gives an argument, and there is a word
    have hle := length_le_of_expandArgvParts hargv
    have hpos := List.length_pos_iff.mpr h.argvParts
    rw [jobsNewProcess, h.argv, hargv]
    exact List.length_pos_iff.mp (Nat.lt_of_lt_of_le hpos hle)
  · obtain ⟨r₀, hr₀, rfl⟩ := List.mem_map.mp hr
    obtain ⟨target, htarget⟩ := htargets r₀ hr₀
    have hsome := h.redir r₀ hr₀
    rw [if_neg (hparts r₀ hr₀), htarget] at hsome
    exact hsome ▸ Option.some_ne_none target

end

/-- What `run_job` is handed is sound exactly when, among the nodes that `exec_node` comes to, each
stage of a pipeline has expanded, and no redirection is to an empty word. -/
theorem soundRecords_iff {env : ExpandEnv} {heap : ℕ → Bool} {line : CStr} {node : Ast}
    (hline : expandLine env heap line = .ok node) (sh : Shell) :
    SoundRecords env node sh ↔ ∀ v ∈ visitsWith runJob node sh,
      (∀ nodes, v.1 = .pipeline nodes false → ∀ stage ∈ v.1.stages, stage.1.Expands env) ∧
        ∀ stage ∈ v.1.stages, ∀ r ∈ stage.1.redir, r.targetParts ≠ [] := by
  have hexpanded := expandedBy_of_expandLine hline
  have hcalls : execCalls node sh = (visitsWith runJob node sh).map callOf :=
    callsWith_eq_map runJob node sh
  have hvisited : ∀ v ∈ visitsWith runJob node sh, Visitable node.cmds v.1 := fun v hv ↦
    visitable_of_mem_visits runJob node hv
  have hprocesses : ∀ v ∈ visitsWith runJob node sh,
      (callOf v).1.processes = v.1.stages.map fun stage ↦ jobsNewProcess stage.1 := fun v hv ↦
    processes_compileInto (hvisited v hv).isPipeline rfl
  constructor
  · intro hsound v hv
    have hstage : ∀ stage ∈ v.1.stages,
        stage.1.Expands env ∧ ∀ r ∈ stage.1.redir, r.targetParts ≠ [] := by
      intro stage hstage
      have hcall : callOf v ∈ execCalls node sh := hcalls ▸ List.mem_map_of_mem hv
      have hproc : jobsNewProcess stage.1 ∈ (callOf v).1.processes := by
        rw [hprocesses v hv]
        exact List.mem_map_of_mem hstage
      obtain ⟨-, hargv, htargets⟩ := hsound _ hcall _ hproc
      exact (hexpanded stage ((hvisited v hv).mem hstage)).expands_of_record hargv htargets
    exact ⟨fun _ _ stage hs ↦ (hstage stage hs).1, fun stage hs ↦ (hstage stage hs).2⟩
  · intro hcond c hc proc hproc
    rw [hcalls] at hc
    obtain ⟨v, hv, rfl⟩ := List.mem_map.mp hc
    rw [hprocesses v hv] at hproc
    obtain ⟨stage, hstage, rfl⟩ := List.mem_map.mp hproc
    obtain ⟨hpipeline, hparts⟩ := hcond v hv
    have hmem := (hvisited v hv).mem hstage
    have hby := hexpanded stage hmem
    -- a command that stands alone was looked at itself
    have hexpands : stage.1.Expands env := by
      rcases hvisited v hv with ⟨cmd, hnode, -⟩ | ⟨nodes, hnode, -⟩
      · rw [hnode] at hstage
        obtain rfl := List.mem_singleton.mp hstage
        exact hby.flag rfl
      · exact hpipeline nodes hnode stage hstage
    obtain ⟨hargv, htargets⟩ := hby.record_of_expands hexpands (hparts stage hstage)
    exact ⟨⟨stage, hmem, rfl, hexpands⟩, hargv, htargets⟩

/-- `ls ~ | wc > f` -/
theorem soundRecords_ls :
    ∃ node, expandLine emptyDirectory (fun _ ↦ false) "ls ~ | wc > f".toList = .ok node ∧
      SoundRecords emptyDirectory node (.onTerminal { pids := [10, 11] }) := by
  have heval : (expandLine emptyDirectory (fun _ ↦ false) "ls ~ | wc > f".toList).toOption.map
      (fun node ↦ (visitsWith runJob node (.onTerminal { pids := [10, 11] })).all fun v ↦
        v.1.stages.all fun stage ↦
          (expandArgvParts emptyDirectory stage.1.argvParts).toOption.isSome &&
            stage.1.redir.all fun r ↦ r.targetParts ≠ [] &&
              (expandRedirectionTarget emptyDirectory r.targetParts).toOption.isSome)
      = some true := by decide +kernel
  obtain ⟨node, hline, hall⟩ := exists_of_map_eq heval
  have hok {α : Type} {x : Except ExpandError α} (h : x.toOption.isSome = true) :
      ∃ a, x = .ok a := by
    cases x with
    | error e => exact nomatch h
    | ok a => exact ⟨a, rfl⟩
  simp only [List.all_eq_true, Bool.and_eq_true, decide_eq_true_eq] at hall
  refine ⟨node, hline, (soundRecords_iff hline _).mpr fun v hv ↦ ⟨fun _ _ stage hs ↦ ?_,
    fun stage hs r hr ↦ ((hall v hv stage hs).2 r hr).1⟩⟩
  exact ⟨hok (hall v hv stage hs).1, fun r hr ↦ hok ((hall v hv stage hs).2 r hr).2⟩

/-- `echo hi | cat ~v`, where there is no user `v`. -/
theorem not_soundRecords :
    ¬∀ (env : ExpandEnv) (heap : ℕ → Bool) (line : CStr) (node : Ast) (sh : Shell),
      expandLine env heap line = .ok node → SoundRecords env node sh := by
  intro hclaim
  have heval : (expandLine emptyDirectory (fun _ ↦ false) "echo hi | cat ~v".toList).toOption.map
      (fun node ↦ ((execCalls node (.onTerminal {})).map fun c ↦
        c.1.processes.map Process.argv)) = some [[["echo".toList, "hi".toList], []]] := by
    decide +kernel
  obtain ⟨node, hline, hcalls⟩ := exists_of_map_eq heval
  obtain ⟨c, cs, hcs, hc, -⟩ := List.map_eq_cons_iff.mp hcalls
  obtain ⟨p, ps, hps, -, hrest⟩ := List.map_eq_cons_iff.mp hc
  obtain ⟨q, qs, rfl, hq, -⟩ := List.map_eq_cons_iff.mp hrest
  refine (hclaim _ _ _ _ (.onTerminal {}) hline c ?_ q ?_).2.1 hq
  · rw [hcs]
    exact List.mem_cons_self
  · rw [hps]
    exact List.mem_cons_of_mem _ List.mem_cons_self

end Novash
