import Novash.Executor.Executor
import Novash.Parser.Print

/-!
# Chains of `&&` and `||`

A chain is written from left to right, parsed into a tree that leans to the left, and executed by
recursion on that tree. What it should mean is a loop along the chain: there is a current status,
each operator looks at it, and a pipeline that is run replaces it. `runChain` is that loop, over any
way of running a pipeline.

## The flag that nobody writes

The two agree on every tree in which no `invalid` flag is set. But the parser does not set or clear
that flag, so a new node is valid or not as the memory it was put into has it. Which blocks matter
is a matter of counting: `chainBlocks` lists those that hold the node of a pipeline or of an
operator, in the order in which the parser is handed them.
-/

namespace Novash

open Foundations CondOp

/-! ## What a chain means -/

/-- Whether the pipeline after the operator is run at this status. -/
def CondOp.runs : CondOp → ℤ → Bool
  | condAnd, status => status = 0
  | condOr, status => status ≠ 0

section

variable {α : Type} (run : α → Shell → Except Halt (ℤ × Shell))

/-- The rest of a chain, at the status of the last pipeline that was run. -/
def runRest : List (CondOp × α) → ℤ → Shell → Except Halt (ℤ × Shell)
  | [], status, sh => .ok (status, sh)
  | (op, pl) :: rest, status, sh =>
    if op.runs status then do
      let (status, sh) ← run pl sh
      runRest rest status sh
    else runRest rest status sh

/-- The first pipeline of a chain is run, and each of the others or not. -/
def runChain (first : α) (rest : List (CondOp × α)) (sh : Shell) : Except Halt (ℤ × Shell) := do
  let (status, sh) ← run first sh
  runRest run rest status sh

theorem runRest_append (rest rest' : List (CondOp × α)) (status : ℤ) (sh : Shell) :
    runRest run (rest ++ rest') status sh
      = runRest run rest status sh >>= fun (status, sh) ↦ runRest run rest' status sh := by
  induction rest generalizing status sh with
  | nil => rfl
  | cons opl rest ih =>
    obtain ⟨op, pl⟩ := opl
    simp only [List.cons_append, runRest]
    split
    · cases run pl sh with
      | error e => rfl
      | ok res => exact ih res.1 res.2
    · exact ih status sh

/-- One more pipeline at the end of a chain. -/
theorem runChain_concat (first : α) (rest : List (CondOp × α)) (op : CondOp) (pl : α)
    (sh : Shell) :
    runChain run first (rest ++ [(op, pl)]) sh
      = runChain run first rest sh >>= fun (status, sh) ↦
          if op.runs status then run pl sh else .ok (status, sh) := by
  rw [runChain, runChain]
  cases run first sh with
  | error e => rfl
  | ok res =>
    simp only [bind, Except.bind]
    rw [runRest_append]
    cases runRest run rest res.1 res.2 with
    | error e => rfl
    | ok res' =>
      simp only [bind, Except.bind, runRest]
      split
      · cases run pl res'.2 <;> rfl
      · rfl

end

/-! ## Running the node of a pipeline -/

/-- The job of a command or a pipeline. -/
def Ast.compileInto (job : Job) : Ast → Job
  | .cmd node invalid => compileCommandJob job (.cmd node invalid)
  | .pipeline nodes _ => compilePipelineJob job nodes
  | _ => job

/-- A pipeline is run as a new job, by whatever runs jobs. -/
def runPipeline (run : Job → Shell → Except Halt (ℤ × Shell)) (node : Ast) (sh : Shell) :
    Except Halt (ℤ × Shell) :=
  let (job, sh) := jobsNewJob sh
  run (node.compileInto job) sh

namespace Ast

/-- What `parse_pipeline` returns for a pipeline that is there. -/
def IsPipeline : Ast → Prop
  | cmd _ _ => True
  | pipeline _ _ => True
  | _ => False

/-- The tree of a chain, from its first pipeline and, for each further one, the operator before it
and the flag of the node that joins it on. -/
def chain (left : Ast) : List ((CondOp × Ast) × Bool) → Ast
  | [] => left
  | ((op, right), invalid) :: rest => chain (.conditional left right op invalid) rest

theorem chain_concat (left : Ast) (rest : List ((CondOp × Ast) × Bool)) (op : CondOp)
    (right : Ast) (invalid : Bool) :
    left.chain (rest ++ [((op, right), invalid)])
      = .conditional (left.chain rest) right op invalid := by
  induction rest generalizing left with
  | nil => rfl
  | cons x rest ih => exact ih _

end Ast

section

variable {run : Job → Shell → Except Halt (ℤ × Shell)} {node : Ast}

theorem execNodeWith_of_invalid (h : node.invalid = true) (sh : Shell) :
    execNodeWith run node sh = .ok (-1, sh) := by
  cases node <;> rw [execNodeWith] <;> exact if_pos h

theorem execNodeWith_pipeline (hnode : node.IsPipeline) (h : node.invalid = false) (sh : Shell) :
    execNodeWith run node sh = runPipeline run node sh := by
  cases node with
  | cmd node invalid =>
    obtain rfl : invalid = false := h
    rw [execNodeWith]
    rfl
  | pipeline nodes invalid =>
    obtain rfl : invalid = false := h
    rw [execNodeWith]
    rfl
  | _ => exact hnode.elim

theorem execNodeWith_conditional (left right : Ast) (op : CondOp) (sh : Shell) :
    execNodeWith run (.conditional left right op false) sh
      = execNodeWith run left sh >>= fun (status, sh) ↦
          if op.runs status then execNodeWith run right sh else .ok (status, sh) := by
  rw [execNodeWith, if_neg Bool.false_ne_true]
  cases execNodeWith run left sh with
  | error e => rfl
  | ok res => cases op <;> simp [bind, Except.bind, CondOp.runs, pure, Except.pure]

/-- With all flags clear the tree of a chain means what the chain means. -/
theorem execNodeWith_chain {first : Ast} {rest : List ((CondOp × Ast) × Bool)}
    (hfirst : first.IsPipeline ∧ first.invalid = false)
    (hrest : ∀ x ∈ rest, x.1.2.IsPipeline ∧ x.1.2.invalid = false ∧ x.2 = false) (sh : Shell) :
    execNodeWith run (first.chain rest) sh
      = runChain (runPipeline run) first (rest.map Prod.fst) sh := by
  induction rest using List.reverseRecOn with
  | nil =>
    rw [Ast.chain, execNodeWith_pipeline hfirst.1 hfirst.2, List.map_nil, runChain]
    cases runPipeline run first sh <;> rfl
  | append_singleton rest x ih =>
    obtain ⟨⟨op, right⟩, invalid⟩ := x
    obtain ⟨hright, hvalid, rfl⟩ := hrest _ List.mem_concat_self
    rw [Ast.chain_concat, execNodeWith_conditional, List.map_append, List.map_singleton,
      runChain_concat, ih fun x hx ↦ hrest x (List.mem_append_left _ hx)]
    simp only [execNodeWith_pipeline hright hvalid]

end

/-! ## What a flag that is set does

To tell a tree from its chain it is enough to count the pipelines that are run. Their jobs have
consecutive addresses, so a way of running jobs can know which pipeline it is given; the one below
ends every pipeline with the status that lets the next one run. -/

/-- The status at which the pipeline after the operator is run. -/
def CondOp.enabler : CondOp → ℤ
  | condAnd => 0
  | condOr => 1

theorem CondOp.runs_enabler (op : CondOp) : op.runs op.enabler = true := by
  cases op <;> rfl

/-- The status the `n`th pipeline should have, from the operators after each of them. -/
def wanted : List CondOp → ℕ → ℤ
  | [], _ => 0
  | op :: _, 0 => op.enabler
  | _ :: ops, n + 1 => wanted ops n

theorem runs_wanted {ops : List CondOp} {op : CondOp} (h : op ∈ ops.head?) :
    op.runs (wanted ops 0) = true := by
  cases ops with
  | nil => cases h
  | cons op' ops =>
    cases h
    exact op.runs_enabler

theorem wanted_succ (ops : List CondOp) (n : ℕ) : wanted ops (n + 1) = wanted ops.tail n := by
  cases ops <;> rfl

/-- Nothing happens in this run of a job but that its status is decided by its address. -/
def runByAddr (status : ℕ → ℤ) (job : Job) (sh : Shell) : Except Halt (ℤ × Shell) :=
  .ok (status job.addr, sh)

theorem addr_compileInto (job : Job) (node : Ast) : (node.compileInto job).addr = job.addr := by
  have hcmd : ∀ (job : Job) (node : Ast), (compileCommandJob job node).addr = job.addr := by
    intro job node
    cases node <;> rfl
  cases node with
  | cmd node invalid => rfl
  | pipeline nodes invalid =>
    rw [Ast.compileInto, compilePipelineJob]
    induction nodes generalizing job with
    | nil => rfl
    | cons node nodes ih => exact (ih _).trans (hcmd job node)
  | _ => rfl

theorem runPipeline_runByAddr (status : ℕ → ℤ) (node : Ast) (sh : Shell) :
    runPipeline (runByAddr status) node sh
      = .ok (status sh.heap, { sh with heap := sh.heap + 1 }) := by
  have haddr := addr_compileInto { addr := sh.heap } node
  simp only [runPipeline, jobsNewJob, runByAddr, haddr]

theorem runRest_runByAddr {status : ℕ → ℤ} (rest : List (CondOp × Ast)) :
    ∀ {st : ℤ} {sh : Shell}, (∀ op ∈ (rest.map Prod.fst).head?, op.runs st = true) →
      (∀ n, status (sh.heap + n) = wanted (rest.map Prod.fst).tail n) →
      ∃ st' sh', runRest (runPipeline (runByAddr status)) rest st sh = .ok (st', sh') ∧
        sh'.heap = sh.heap + rest.length := by
  induction rest with
  | nil => intro st sh _ _; exact ⟨st, sh, rfl, rfl⟩
  | cons opl rest ih =>
    intro st sh hhead hstatus
    obtain ⟨op, pl⟩ := opl
    rw [List.map_cons, List.tail_cons] at hstatus
    have hnext : ∀ op ∈ (rest.map Prod.fst).head?, op.runs (status sh.heap) = true := by
      intro op hop
      rw [← Nat.add_zero sh.heap, hstatus]
      exact runs_wanted hop
    have hlater : ∀ n, status (sh.heap + 1 + n) = wanted (rest.map Prod.fst).tail n := by
      intro n
      rw [Nat.add_assoc, Nat.add_comm 1 n, hstatus, wanted_succ]
    obtain ⟨st', sh', hrun, hheap⟩ := @ih _ { sh with heap := sh.heap + 1 } hnext hlater
    refine ⟨st', sh', ?_, by rw [hheap, List.length_cons, Nat.add_assoc, Nat.add_comm 1]⟩
    rw [runRest, if_pos (hhead op rfl), runPipeline_runByAddr]
    exact hrun

namespace Ast

/-- How many pipelines can be run at most. -/
def leaves : Ast → ℕ
  | cmd _ invalid => if invalid then 0 else 1
  | pipeline _ invalid => if invalid then 0 else 1
  | conditional left right _ invalid => if invalid then 0 else left.leaves + right.leaves
  | _ => 0

theorem leaves_le_one {node : Ast} (h : node.IsPipeline) : node.leaves ≤ 1 := by
  cases node with
  | cmd _ invalid => cases invalid <;> simp [leaves]
  | pipeline _ invalid => cases invalid <;> simp [leaves]
  | _ => exact h.elim

theorem leaves_of_invalid {node : Ast} (h : node.invalid = true) : node.leaves = 0 := by
  cases node <;> first | rfl | exact if_pos h

/-- All pipelines of a chain can be run only if all flags are clear. -/
theorem leaves_chain {first : Ast} (hfirst : first.IsPipeline)
    {rest : List ((CondOp × Ast) × Bool)} (hrest : ∀ x ∈ rest, x.1.2.IsPipeline) :
    (first.chain rest).leaves ≤ rest.length + 1 ∧
      ((first.chain rest).leaves = rest.length + 1 → first.invalid = false ∧
        ∀ x ∈ rest, x.1.2.invalid = false ∧ x.2 = false) := by
  induction rest using List.reverseRecOn with
  | nil =>
    refine ⟨leaves_le_one hfirst, fun h ↦ ⟨?_, by simp⟩⟩
    by_contra hinvalid
    rw [Ast.chain, leaves_of_invalid (by simpa using hinvalid)] at h
    exact absurd h (by decide)
  | append_singleton rest x ih =>
    obtain ⟨⟨op, right⟩, invalid⟩ := x
    obtain ⟨hle, hall⟩ := ih fun x hx ↦ hrest x (List.mem_append_left _ hx)
    have hright := leaves_le_one (hrest _ List.mem_concat_self)
    rw [chain_concat, leaves, List.length_append, List.length_singleton]
    -- an invalid node hides all the leaves below it
    cases invalid with
    | true => exact ⟨Nat.zero_le _, fun h ↦ absurd h (by simp)⟩
    | false =>
      rw [if_neg Bool.false_ne_true]
      dsimp only at hright
      refine ⟨by omega, fun h ↦ ?_⟩
      obtain ⟨hfirst', hrest'⟩ := hall (by omega)
      refine ⟨hfirst', fun x hx ↦ ?_⟩
      rcases List.mem_append.mp hx with hx | hx
      · exact hrest' x hx
      · obtain rfl := List.mem_singleton.mp hx
        refine ⟨?_, rfl⟩
        by_contra hinvalid
        have hflag : right.invalid = true := by simpa using hinvalid
        have hzero := leaves_of_invalid hflag
        omega

end Ast

theorem heap_pipeline_le {status : ℕ → ℤ} {node : Ast} (hnode : node.IsPipeline)
    {sh sh' : Shell} {st : ℤ} (h : execNodeWith (runByAddr status) node sh = .ok (st, sh')) :
    sh'.heap ≤ sh.heap + node.leaves := by
  cases hinvalid : node.invalid with
  | true =>
    rw [execNodeWith_of_invalid hinvalid] at h
    cases h
    exact Nat.le_add_right _ _
  | false =>
    rw [execNodeWith_pipeline hnode hinvalid, runPipeline_runByAddr] at h
    cases h
    have hone : node.leaves = 1 := by
      cases node with
      | cmd _ invalid =>
        obtain rfl : invalid = false := hinvalid
        rfl
      | pipeline _ invalid =>
        obtain rfl : invalid = false := hinvalid
        rfl
      | _ => exact hnode.elim
    rw [hone]

/-- No more pipelines are run than the flags allow. -/
theorem heap_chain_le {status : ℕ → ℤ} {first : Ast} (hfirst : first.IsPipeline)
    {rest : List ((CondOp × Ast) × Bool)} (hrest : ∀ x ∈ rest, x.1.2.IsPipeline) :
    ∀ {sh sh' : Shell} {st : ℤ},
      execNodeWith (runByAddr status) (first.chain rest) sh = .ok (st, sh') →
      sh'.heap ≤ sh.heap + (first.chain rest).leaves := by
  induction rest using List.reverseRecOn with
  | nil => exact heap_pipeline_le hfirst
  | append_singleton rest x ih =>
    intro sh sh' st h
    obtain ⟨⟨op, right⟩, invalid⟩ := x
    rw [Ast.chain_concat] at h ⊢
    cases invalid with
    | true =>
      rw [execNodeWith_of_invalid rfl] at h
      cases h
      exact Nat.le_add_right _ _
    | false =>
      rw [execNodeWith_conditional] at h
      obtain ⟨⟨st₁, sh₁⟩, hleft, h⟩ := bind_ok.mp h
      have hle := ih (fun x hx ↦ hrest x (List.mem_append_left _ hx)) hleft
      rw [Ast.leaves, if_neg Bool.false_ne_true]
      dsimp only at h
      split at h
      · have hright := heap_pipeline_le (hrest _ List.mem_concat_self) h
        dsimp only at hright
        omega
      · cases h
        omega

/-- The tree of a chain means what the chain means exactly when all of its flags are clear. -/
theorem execNodeWith_chain_iff {first : Ast} (hfirst : first.IsPipeline)
    {rest : List ((CondOp × Ast) × Bool)} (hrest : ∀ x ∈ rest, x.1.2.IsPipeline) :
    (∀ run sh, execNodeWith run (first.chain rest) sh
        = runChain (runPipeline run) first (rest.map Prod.fst) sh) ↔
      first.invalid = false ∧ ∀ x ∈ rest, x.1.2.invalid = false ∧ x.2 = false := by
  constructor
  · intro hall
    let sh : Shell := { fds := ⟨[]⟩ }
    let status : ℕ → ℤ := wanted ((rest.map Prod.fst).map Prod.fst)
    -- along the chain every pipeline is run
    have hhead : ∀ op ∈ ((rest.map Prod.fst).map Prod.fst).head?,
        op.runs (status sh.heap) = true := fun op hop ↦ runs_wanted hop
    have hlater : ∀ n, status (sh.heap + 1 + n)
        = wanted ((rest.map Prod.fst).map Prod.fst).tail n := by
      intro n
      rw [Nat.add_assoc, Nat.add_comm 1 n, Nat.zero_add]
      exact wanted_succ _ n
    obtain ⟨st, sh', hrun, hheap⟩ := @runRest_runByAddr status (rest.map Prod.fst) _
      { sh with heap := sh.heap + 1 } hhead hlater
    have hchain : execNodeWith (runByAddr status) (first.chain rest) sh = .ok (st, sh') := by
      rw [hall, runChain, runPipeline_runByAddr]
      exact hrun
    -- so the tree has room for all of them
    have hle := heap_chain_le hfirst hrest hchain
    have hleaves := Ast.leaves_chain hfirst hrest
    rw [hheap, List.length_map] at hle
    exact hleaves.2 (le_antisymm hleaves.1 (by dsimp only at hle; omega))
  · intro ⟨hvalid, hrestvalid⟩ run sh
    exact execNodeWith_chain ⟨hfirst, hvalid⟩ (fun x hx ↦ ⟨hrest x hx, hrestvalid x hx⟩) sh

/-! ## The blocks of a chain

What the parser takes from the heap while it reads a pipeline: a block for each command and, after
the first, one for the pipeline, which is given back if there is one command only. -/

namespace Ast

/-- The commands of a pipeline. -/
def commands : Ast → ℕ
  | cmd _ _ => 1
  | pipeline nodes _ => nodes.countP fun node ↦ !node.isNull
  | _ => 0

def blocks (node : Ast) : ℕ := node.commands + 1

/-- The block of the node itself, counted from the first one of the pipeline. -/
def ownBlock : Ast → ℕ
  | pipeline (first :: _) _ => if first.isNull then 0 else 1
  | _ => 0

end Ast

/-- The blocks of the pipelines' nodes, and of the nodes that join them on. The parser has been
handed `n` blocks before. -/
def restBlocks : ℕ → List (CondOp × Ast) → List ℕ
  | _, [] => []
  | n, (_, pl) :: rest =>
    (n + pl.ownBlock) :: (n + pl.blocks) :: restBlocks (n + pl.blocks + 1) rest

def chainBlocks (first : Ast) (rest : List (CondOp × Ast)) : List ℕ :=
  first.ownBlock :: restBlocks first.blocks rest

section

variable {σ : Type} [TokenSource σ] {p p₁ p' : ParserState σ} {node : Ast}

theorem heap_nextToken (h : nextToken p = .ok p') : p'.heap = p.heap := by
  unfold nextToken at h
  split at h
  · cases h
  · cases h
    rfl

theorem heap_parseArguments {ws : List Word} (h : parseArguments p = .ok (ws, p')) :
    p'.heap = p.heap := by
  replace h := parseArguments_run h
  induction h with
  | done => rfl
  | word _ hnext _ ih => exact ih.trans (heap_nextToken hnext)

theorem heap_parseOneRedirection {r : Redirection} (h : parseOneRedirection p = .ok (r, p')) :
    p'.heap = p.heap := by
  obtain ⟨⟨fd, p₁⟩, hfd, h⟩ := bind_ok.mp h
  dsimp only at h
  split at h
  · cases h
  obtain ⟨p₂, hnext, h⟩ := bind_ok.mp h
  split_ifs at h
  obtain ⟨p₃, hnext', h⟩ := bind_ok.mp h
  cases h
  rw [heap_nextToken hnext', heap_nextToken hnext]
  unfold parseFd at hfd
  split_ifs at hfd
  · obtain ⟨p₃, hnext, hres⟩ := bind_ok.mp hfd
    cases hres
    exact heap_nextToken hnext
  · cases hfd
    rfl

theorem heap_parseRedirection {rs : List Redirection} (h : parseRedirection p = .ok (rs, p')) :
    p'.heap = p.heap := by
  replace h := parseRedirection_run h
  induction h with
  | done => rfl
  | one _ hone _ ih => exact ih.trans (heap_parseOneRedirection hone)

/-- A command takes one block, and its flag is what the block held. -/
theorem heap_parseCommand (h : parseCommand p = .ok (node, p')) :
    node = .null ∧ p'.heap = p.heap ∨
      ∃ cmd, node = .cmd cmd (p.heap 0) ∧ p'.heap = fun n ↦ p.heap (n + 1) := by
  unfold parseCommand at h
  split_ifs at h
  · cases h
    exact Or.inl ⟨rfl, rfl⟩
  · obtain ⟨⟨ws, p₁⟩, hargs, h⟩ := bind_ok.mp h
    obtain ⟨⟨rs, p₂⟩, hredir, h⟩ := bind_ok.mp h
    cases h
    have hheap := (heap_parseRedirection hredir).trans (heap_parseArguments hargs)
    have hflag : p₂.newNode.1 = p.heap 0 := congrFun hheap 0
    have hrest : p₂.newNode.2.heap = fun n ↦ p.heap (n + 1) :=
      funext fun n ↦ congrFun hheap (n + 1)
    exact Or.inr ⟨_, congrArg (Ast.cmd _) hflag, hrest⟩

theorem heap_pipelineLoop {nodes : List Ast} (h : pipelineLoop p = .ok (nodes, p')) :
    nodes.countP (fun node ↦ !node.isNull) = nodes.length ∧
      p'.heap = fun n ↦ p.heap (n + nodes.length) := by
  replace h := pipelineLoop_run h
  induction h with
  | done => exact ⟨rfl, rfl⟩
  | @command p p₁ nextCommand p₂ nodes p' _ hnext hcmd hnull _ ih =>
    obtain ⟨hcount, hheap⟩ := ih
    rcases heap_parseCommand hcmd with ⟨rfl, -⟩ | ⟨cmd, rfl, hone⟩
    · cases hnull
    refine ⟨by rw [List.countP_cons, hcount]; rfl, ?_⟩
    rw [hheap, hone, heap_nextToken hnext]
    exact funext fun n ↦ congrArg p.heap (Nat.add_assoc n _ 1)

/-- A pipeline takes its blocks, and its flag is what its own block held. -/
theorem heap_parsePipeline (h : parsePipeline p = .ok (node, p')) :
    (node.isNull = false → node.IsPipeline ∧ node.invalid = p.heap node.ownBlock) ∧
      p'.heap = fun n ↦ p.heap (n + node.blocks) := by
  obtain ⟨⟨firstCommand, p₁⟩, hcmd, h⟩ := bind_ok.mp h
  obtain ⟨⟨nodes, p₂⟩, hloop, h⟩ := bind_ok.mp h
  obtain ⟨hcount, hheap⟩ := heap_pipelineLoop hloop
  have hnew : p₁.newNode.2.heap = fun n ↦ p₁.heap (n + 1) := rfl
  dsimp only at h
  split_ifs at h with hnodes
  · cases h
    subst hnodes
    rw [hheap, hnew]
    rcases heap_parseCommand hcmd with ⟨rfl, hsame⟩ | ⟨cmd, rfl, hone⟩
    · exact ⟨fun hn ↦ absurd hn (by decide), by rw [hsame]; rfl⟩
    · exact ⟨fun _ ↦ ⟨trivial, rfl⟩, by rw [hone]; rfl⟩
  · cases h
    rw [hheap, hnew]
    rcases heap_parseCommand hcmd with ⟨rfl, hsame⟩ | ⟨cmd, rfl, hone⟩
    · refine ⟨fun _ ↦ ⟨trivial, by rw [ParserState.newNode, hsame]; rfl⟩, ?_⟩
      rw [hsame, Ast.blocks, Ast.commands, List.countP_cons, hcount]
      rfl
    · refine ⟨fun _ ↦ ⟨trivial, by rw [ParserState.newNode, hone]; rfl⟩, ?_⟩
      rw [hone, Ast.blocks, Ast.commands, List.countP_cons, hcount]
      rfl

/-! ## Reading a chain -/

/-- The pipelines after the first one as they are read, each after its operator. The block of the
node that joins one on is taken when it has been read. -/
inductive RestReads : ParserState σ → List (CondOp × Ast) → ParserState σ → Prop
  | nil {p : ParserState σ} (hop : condOpOf p.gTok.type = none) : RestReads p [] p
  | cons {p p₁ p₂ p' : ParserState σ} {op : CondOp} {right : Ast} {rest : List (CondOp × Ast)}
    (hop : condOpOf p.gTok.type = some op) (hnext : nextToken p = .ok p₁)
    (hright : parsePipeline p₁ = .ok (right, p₂))
    (hrest : RestReads p₂.newNode.2 rest p') : RestReads p ((op, right) :: rest) p'

/-- The loop builds the tree of the chain, and the flags of it are what its blocks held. -/
theorem conditionalLoop_of_reads {rest : List (CondOp × Ast)} (hrest : RestReads p rest p') :
    ∀ (left : Ast), (∀ x ∈ rest, x.2.isNull = false) →
      ∃ nodes : List ((CondOp × Ast) × Bool),
        conditionalLoop left p = .ok (left.chain nodes, p') ∧ nodes.map Prod.fst = rest ∧
        (∀ x ∈ nodes, x.1.2.IsPipeline) ∧
        ∀ (n : ℕ) (heap : ℕ → Bool), (p.heap = fun m ↦ heap (m + n)) →
          ((∀ x ∈ nodes, x.1.2.invalid = false ∧ x.2 = false) ↔
            ∀ m ∈ restBlocks n rest, heap m = false) := by
  induction hrest with
  | @nil p hop =>
    intro left _
    refine ⟨[], ?_, rfl, by simp, fun n heap _ ↦ by simp [restBlocks]⟩
    exact conditionalLoop_of_none hop
  | @cons p p₁ p₂ p' op right rest hop hnext hright hrest ih =>
    intro left hnull
    obtain ⟨hpipe, hheap⟩ := heap_parsePipeline hright
    obtain ⟨hispipe, hinvalid⟩ := hpipe (hnull _ List.mem_cons_self)
    obtain ⟨nodes, hloop, hmap, hpipes, hflags⟩ :=
      ih (.conditional left right op p₂.newNode.1) fun x hx ↦ hnull x (List.mem_cons_of_mem _ hx)
    refine ⟨((op, right), p₂.newNode.1) :: nodes, ?_, by rw [List.map_cons, hmap], ?_, ?_⟩
    · rw [conditionalLoop_of_op hop, hnext]
      simp only [bind, Except.bind]
      rw [hright]
      exact hloop
    · intro x hx
      rcases List.mem_cons.mp hx with rfl | hx
      · exact hispipe
      · exact hpipes x hx
    · intro n heap hp
      -- the nodes are allocated in this order: the right side, then the node that joins
      have hp₁ : p₁.heap = fun m ↦ heap (m + n) := (heap_nextToken hnext).trans hp
      have hown : right.invalid = heap (n + right.ownBlock) := by
        rw [hinvalid, hp₁, Nat.add_comm n]
      have hjoin : p₂.newNode.1 = heap (n + right.blocks) := by
        change p₂.heap 0 = _
        rw [hheap, hp₁]
        exact congrArg heap (by omega)
      have hlater := hflags (n + right.blocks + 1) heap (by
        rw [ParserState.newNode, hheap, hp₁]
        exact funext fun m ↦ congrArg heap (by omega))
      rw [restBlocks, List.forall_mem_cons, List.forall_mem_cons, List.forall_mem_cons, hlater]
      simp only [hown, hjoin, and_assoc]

/-- The tree that `parse_conditional` builds from a chain, and what its flags are. -/
theorem parseConditional_of_reads {first : Ast} {rest : List (CondOp × Ast)}
    (hfirst : parsePipeline p = .ok (first, p₁)) (hrest : RestReads p₁ rest p')
    (hne : first.isNull = false ∧ ∀ x ∈ rest, x.2.isNull = false) :
    ∃ nodes : List ((CondOp × Ast) × Bool),
      parseConditional p = .ok (first.chain nodes, p') ∧ nodes.map Prod.fst = rest ∧
        first.IsPipeline ∧ (∀ x ∈ nodes, x.1.2.IsPipeline) ∧
        ((first.invalid = false ∧ ∀ x ∈ nodes, x.1.2.invalid = false ∧ x.2 = false) ↔
          ∀ n ∈ chainBlocks first rest, p.heap n = false) := by
  obtain ⟨hpipe, hheap⟩ := heap_parsePipeline hfirst
  obtain ⟨hispipe, hinvalid⟩ := hpipe hne.1
  obtain ⟨nodes, hloop, hmap, hpipes, hflags⟩ := conditionalLoop_of_reads hrest first hne.2
  refine ⟨nodes, ?_, hmap, hispipe, hpipes, ?_⟩
  · rw [parseConditional, hfirst]
    exact hloop
  · rw [chainBlocks, List.forall_mem_cons, hinvalid, hflags first.blocks p.heap hheap]

/-- A chain is executed from left to right, each pipeline on the status before it, exactly when the
memory of its nodes was clear. -/
theorem execNodeWith_parseConditional_iff {first : Ast} {rest : List (CondOp × Ast)}
    (hfirst : parsePipeline p = .ok (first, p₁)) (hrest : RestReads p₁ rest p')
    (hne : first.isNull = false ∧ ∀ x ∈ rest, x.2.isNull = false) :
    ∃ node, parseConditional p = .ok (node, p') ∧
      ((∀ run sh, execNodeWith run node sh = runChain (runPipeline run) first rest sh) ↔
        ∀ n ∈ chainBlocks first rest, p.heap n = false) := by
  obtain ⟨nodes, hparse, rfl, hfirstpipe, hpipes, hflags⟩ :=
    parseConditional_of_reads hfirst hrest hne
  exact ⟨first.chain nodes, hparse, (execNodeWith_chain_iff hfirstpipe hpipes).trans hflags⟩

end

/-! ## Two commands -/

/-- The parser at the first word of `a && b ;`. -/
def andLine (heap : ℕ → Bool) : ParserState (List Token) where
  lex := [.operator .tokAnd, ⟨.tokWord, ['b'], [⟨.wordLiteral, .quoteNone, ['b']⟩]⟩,
    .operator .tokSemi]
  gTok := ⟨.tokWord, ['a'], [⟨.wordLiteral, .quoteNone, ['a']⟩]⟩
  heap := heap

theorem commands_of_erase {node : Ast} {c : Grammar.Command} {isBg : Bool}
    (h : node.erase false = Grammar.Pipeline.toAst isBg ⟨c, []⟩) :
    node.isNull = false ∧ node.commands = 1 ∧ node.ownBlock = 0 := by
  rw [Grammar.Pipeline.toAst, if_pos rfl] at h
  cases node with
  | cmd node invalid => exact ⟨rfl, rfl, rfl⟩
  | _ => rw [Ast.erase] at h; cases h

theorem andLine_reads (heap : ℕ → Bool) :
    ∃ first right p₁ p', parsePipeline (andLine heap) = .ok (first, p₁) ∧
      RestReads p₁ [(condAnd, right)] p' ∧
      (first.isNull = false ∧ ∀ x ∈ [(condAnd, right)], x.2.isNull = false) ∧
      chainBlocks first [(condAnd, right)] = [0, 2, 4] := by
  let raw : Word → CStr := fun w ↦ w.flatMap WordPart.value
  let cmd (c : Char) : Grammar.Command := ⟨[⟨.wordLiteral, .quoteNone, [c]⟩], [], []⟩
  have hsees : (andLine heap).Sees (Grammar.Pipeline.tokens raw ⟨cmd 'a', []⟩
      ++ .operator .tokAnd :: (Grammar.Pipeline.tokens raw ⟨cmd 'b', []⟩
        ++ [.operator .tokSemi])) := ⟨rfl, delivers_list _⟩
  have hclear (p : ParserState (List Token)) : p.Clear false := by simp [ParserState.Clear]
  obtain ⟨first, p₁, hfirst, hsees₁, -, hfirsterase⟩ := Grammar.parsePipeline_tokens _
    ⟨⟨by decide, by decide⟩, by decide⟩ hsees (hclear _)
  obtain ⟨p₂, hnext, hsees₂, -⟩ := nextToken_of_sees hsees₁
  obtain ⟨right, p₃, hright, hsees₃, -, hrighterase⟩ := Grammar.parsePipeline_tokens
    ⟨cmd 'b', []⟩ ⟨⟨by decide, by decide⟩, by decide⟩ hsees₂ (hclear _)
  obtain ⟨hfirstnull, hfirstcmds, hfirstown⟩ := commands_of_erase hfirsterase
  obtain ⟨hrightnull, hrightcmds, hrightown⟩ := commands_of_erase hrighterase
  have hop : condOpOf p₁.gTok.type = some condAnd := by rw [hsees₁.1]; rfl
  have hstop : condOpOf p₃.newNode.2.gTok.type = none := by
    change condOpOf p₃.gTok.type = none
    rw [hsees₃.1]
    rfl
  refine ⟨first, right, p₁, p₃.newNode.2, hfirst, .cons hop hnext hright (.nil hstop),
    ⟨hfirstnull, by simpa using hrightnull⟩, ?_⟩
  simp [chainBlocks, restBlocks, Ast.blocks, hfirstcmds, hfirstown, hrightcmds, hrightown]

theorem execNodeWith_parseConditional_iff_and :
    ∃ first right p₁ p', parsePipeline (andLine fun _ ↦ false) = .ok (first, p₁) ∧
      RestReads p₁ [(condAnd, right)] p' ∧
      ∃ node, parseConditional (andLine fun _ ↦ false) = .ok (node, p') ∧
        ∀ run sh, execNodeWith run node sh
          = runChain (runPipeline run) first [(condAnd, right)] sh := by
  obtain ⟨first, right, p₁, p', hfirst, hrest, hne, hblocks⟩ := andLine_reads fun _ ↦ false
  obtain ⟨node, hparse, hiff⟩ := execNodeWith_parseConditional_iff hfirst hrest hne
  exact ⟨first, right, p₁, p', hfirst, hrest, node, hparse, hiff.mpr fun _ _ ↦ rfl⟩

/-- `a && b`, when the block for the node of `&&` is handed out with a byte set where the flag is:
neither command is run. -/
theorem not_execNodeWith_parseConditional :
    ¬∀ (p p₁ p' : ParserState (List Token)) (first : Ast) (rest : List (CondOp × Ast)),
      parsePipeline p = .ok (first, p₁) → RestReads p₁ rest p' →
      (first.isNull = false ∧ ∀ x ∈ rest, x.2.isNull = false) →
      ∃ node, parseConditional p = .ok (node, p') ∧
        ∀ run sh, execNodeWith run node sh = runChain (runPipeline run) first rest sh := by
  intro hall
  obtain ⟨first, right, p₁, p', hfirst, hrest, hne, hblocks⟩ := andLine_reads fun n ↦ n = 4
  obtain ⟨node, hparse, hruns⟩ := hall _ _ _ _ _ hfirst hrest hne
  obtain ⟨nodes, hparse', hmap, hpipe, hpipes, hflags⟩ := parseConditional_of_reads hfirst hrest hne
  cases hparse.symm.trans hparse'
  have hclear := hflags.mp ((execNodeWith_chain_iff hpipe hpipes).mp (hmap ▸ hruns))
  rw [hblocks] at hclear
  exact absurd (hclear 4 (by decide)) (by decide)

end Novash
