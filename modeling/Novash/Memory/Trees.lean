import Novash.Memory.Tokens

/-!
# Trees on the heap

The tree of a line with its blocks: the nodes, the arrays that hang on them, and the strings in
these. `parser_free_ast` takes a tree apart; it gives back what the tree owns, each block once
(`succeeds_parserFreeAst`).
-/

namespace Novash.Memory

open Foundations

/-! ## Data -/

/-- `redirection_t`. -/
structure HeapRedir where
  fd : Int32
  type : RedirectionType
  targetParts : HeapWord
  target : Option HeapStr := none

/-- `cmd_node_t`. -/
structure HeapCmd where
  argvParts : HeapArray HeapWord
  argv : HeapArray HeapStr := .empty
  redir : HeapArray HeapRedir
  rawStr : HeapStr
  isBg : Bool

/-- `ast_node_t *`. The nodes of a pipeline and of a sequence are in an array, with its block before
them. -/
inductive HeapAst
  | null
  | cmd (addr : ℕ) (node : HeapCmd) (invalid : Bool)
  | pipeline (addr : ℕ) (array : Option ℕ) (nodes : List HeapAst) (invalid : Bool)
  | conditional (addr : ℕ) (left right : HeapAst) (op : CondOp) (invalid : Bool)
  | sequence (addr : ℕ) (array : Option ℕ) (nodes : List HeapAst) (invalid : Bool)

/-! ### Without the addresses -/

def HeapRedir.erase (r : HeapRedir) : Redirection where
  fd := r.fd
  type := r.type
  targetParts := r.targetParts.erase
  target := r.target.map HeapStr.text

def HeapCmd.erase (node : HeapCmd) : CmdNode where
  argvParts := node.argvParts.elems.map HeapWord.erase
  argv := node.argv.addr.map fun _ ↦ node.argv.elems.map HeapStr.text
  redir := node.redir.elems.map HeapRedir.erase
  rawStr := node.rawStr.text
  isBg := node.isBg

mutual

def HeapAst.erase : HeapAst → Ast
  | .null => .null
  | .cmd _ node invalid => .cmd node.erase invalid
  | .pipeline _ _ nodes invalid => .pipeline (HeapAst.eraseList nodes) invalid
  | .conditional _ left right op invalid => .conditional left.erase right.erase op invalid
  | .sequence _ _ nodes invalid => .sequence (HeapAst.eraseList nodes) invalid

def HeapAst.eraseList : List HeapAst → List Ast
  | [] => []
  | node :: nodes => node.erase :: HeapAst.eraseList nodes

end

/-! ### The blocks -/

def HeapRedir.blocks (r : HeapRedir) : Multiset ℕ :=
  r.targetParts.blocks + pointee (r.target.map HeapStr.addr)

def HeapCmd.blocks (node : HeapCmd) : Multiset ℕ :=
  node.argvParts.blocks HeapWord.blocks + node.argv.blocks (fun s ↦ {s.addr})
    + node.redir.blocks HeapRedir.blocks + {node.rawStr.addr}

mutual

def HeapAst.blocks : HeapAst → Multiset ℕ
  | .null => 0
  | .cmd addr node _ => node.blocks + {addr}
  | .pipeline addr array nodes _ => HeapAst.blocksList nodes + pointee array + {addr}
  | .conditional addr left right _ _ => left.blocks + right.blocks + {addr}
  | .sequence addr array nodes _ => HeapAst.blocksList nodes + pointee array + {addr}

def HeapAst.blocksList : List HeapAst → Multiset ℕ
  | [] => 0
  | node :: nodes => node.blocks + HeapAst.blocksList nodes

end

theorem HeapAst.eraseList_eq_map (nodes : List HeapAst) :
    HeapAst.eraseList nodes = nodes.map HeapAst.erase := by
  induction nodes with
  | nil => rw [HeapAst.eraseList, List.map_nil]
  | cons node nodes ih => rw [HeapAst.eraseList, ih, List.map_cons]

theorem HeapAst.blocksList_eq_sum (nodes : List HeapAst) :
    HeapAst.blocksList nodes = (nodes.map HeapAst.blocks).sum := by
  induction nodes with
  | nil => rw [HeapAst.blocksList, List.map_nil, List.sum_nil]
  | cons node nodes ih => rw [HeapAst.blocksList, ih, List.map_cons, List.sum_cons]

theorem HeapAst.blocks_of_isNull {node : HeapAst} (h : node.erase.isNull = true) :
    node.blocks = 0 := by
  cases node with
  | null => rw [HeapAst.blocks]
  | cmd addr node invalid => simp [HeapAst.erase] at h
  | pipeline addr array nodes invalid => simp [HeapAst.erase] at h
  | conditional addr left right op invalid => simp [HeapAst.erase] at h
  | sequence addr array nodes invalid => simp [HeapAst.erase] at h

/-! ## Freeing -/

/-- One redirection of `parser_free_ast`. -/
def freeRedir (m : Heap) (r : HeapRedir) : Option Heap := do
  let m ← freeWord r.targetParts m
  freePtr (r.target.map HeapStr.addr) m

def freeCmd (node : HeapCmd) (m : Heap) : Option Heap := do
  let m ← node.argvParts.elems.foldlM (fun m word ↦ freeWord word m) m
  let m ← freePtr node.argvParts.addr m
  let m ← m.freeAll (node.argv.elems.map HeapStr.addr)
  let m ← freePtr node.argv.addr m
  let m ← node.redir.elems.foldlM freeRedir m
  let m ← freePtr node.redir.addr m
  m.free node.rawStr.addr

mutual

/-- The children first, then their array, and then the node. -/
def parserFreeAst : HeapAst → Heap → Option Heap
  | .null, m => some m
  | .cmd addr node _, m => do
    let m ← freeCmd node m
    m.free addr
  | .pipeline addr array nodes _, m => do
    let m ← parserFreeList nodes m
    let m ← freePtr array m
    m.free addr
  | .conditional addr left right _ _, m => do
    let m ← parserFreeAst left m
    let m ← parserFreeAst right m
    m.free addr
  | .sequence addr array nodes _, m => do
    let m ← parserFreeList nodes m
    let m ← freePtr array m
    m.free addr

def parserFreeList : List HeapAst → Heap → Option Heap
  | [], m => some m
  | node :: nodes, m => do
    let m ← parserFreeAst node m
    parserFreeList nodes m

end

section

variable {m : Heap} {frame : Multiset ℕ}

theorem succeeds_freeRedir {r : HeapRedir} (h : m.live = r.blocks + frame) :
    Succeeds (fun m' ↦ m'.live = frame) (freeRedir m r) := by
  rw [HeapRedir.blocks, add_assoc] at h
  exact (succeeds_freeWord h).bind fun m₁ hm₁ ↦ succeeds_freePtr hm₁

theorem succeeds_freeCmd {node : HeapCmd} (h : m.live = node.blocks + frame) :
    Succeeds (fun m' ↦ m'.live = frame) (freeCmd node m) := by
  have hwords : m.live = (node.argvParts.elems.map HeapWord.blocks).sum
      + (pointee node.argvParts.addr + (((node.argv.elems.map HeapStr.addr).map ({·})).sum
        + (pointee node.argv.addr + ((node.redir.elems.map HeapRedir.blocks).sum
          + (pointee node.redir.addr + ({node.rawStr.addr} + frame)))))) := by
    rw [h, HeapCmd.blocks, HeapArray.blocks, HeapArray.blocks, HeapArray.blocks, List.map_map]
    change _ = _ + (_ + ((node.argv.elems.map fun s ↦ ({s.addr} : Multiset ℕ)).sum + _))
    abel
  refine (succeeds_foldlM (fun (word : HeapWord) m frame (h : m.live = word.blocks + frame) ↦
    succeeds_freeWord h) _ hwords).bind fun m₁ hm₁ ↦ ?_
  refine (succeeds_freePtr hm₁).bind fun m₂ hm₂ ↦ ?_
  refine (succeeds_freeAll hm₂).bind fun m₃ hm₃ ↦ ?_
  refine (succeeds_freePtr hm₃).bind fun m₄ hm₄ ↦ ?_
  refine (succeeds_foldlM (fun (r : HeapRedir) m frame (h : m.live = r.blocks + frame) ↦
    succeeds_freeRedir h) _ hm₄).bind fun m₅ hm₅ ↦ ?_
  exact (succeeds_freePtr hm₅).bind fun m₆ hm₆ ↦ succeeds_free hm₆

/-- The nodes of an array, the array, and the node it belongs to. -/
private theorem succeeds_freeNodes {addr : ℕ} {array : Option ℕ} {nodes : List HeapAst}
    (hnodes : ∀ {m : Heap} {frame : Multiset ℕ}, m.live = HeapAst.blocksList nodes + frame →
      Succeeds (fun m' ↦ m'.live = frame) (parserFreeList nodes m))
    (h : m.live = HeapAst.blocksList nodes + pointee array + {addr} + frame) :
    Succeeds (fun m' ↦ m'.live = frame) (do
      let m ← parserFreeList nodes m
      let m ← freePtr array m
      m.free addr) := by
  rw [add_assoc, add_assoc] at h
  refine (hnodes h).bind fun m₁ hm₁ ↦ ?_
  exact (succeeds_freePtr hm₁).bind fun m₂ hm₂ ↦ succeeds_free hm₂

mutual

/-- A tree gives back what it owns, each block once. -/
theorem succeeds_parserFreeAst (node : HeapAst) {m : Heap} {frame : Multiset ℕ}
    (h : m.live = node.blocks + frame) :
    Succeeds (fun m' ↦ m'.live = frame) (parserFreeAst node m) := by
  match node with
  | .null => exact ⟨m, rfl, h.trans (zero_add _)⟩
  | .cmd addr node invalid =>
    rw [HeapAst.blocks, add_assoc] at h
    exact (succeeds_freeCmd h).bind fun m₁ hm₁ ↦ succeeds_free hm₁
  | .pipeline addr array nodes invalid =>
    exact succeeds_freeNodes (fun h ↦ succeeds_parserFreeList nodes h) h
  | .conditional addr left right op invalid =>
    rw [HeapAst.blocks, add_assoc, add_assoc] at h
    refine (succeeds_parserFreeAst left h).bind fun m₁ hm₁ ↦ ?_
    exact (succeeds_parserFreeAst right hm₁).bind fun m₂ hm₂ ↦ succeeds_free hm₂
  | .sequence addr array nodes invalid =>
    exact succeeds_freeNodes (fun h ↦ succeeds_parserFreeList nodes h) h

theorem succeeds_parserFreeList (nodes : List HeapAst) {m : Heap} {frame : Multiset ℕ}
    (h : m.live = HeapAst.blocksList nodes + frame) :
    Succeeds (fun m' ↦ m'.live = frame) (parserFreeList nodes m) := by
  match nodes with
  | [] => exact ⟨m, rfl, h.trans (zero_add _)⟩
  | node :: nodes =>
    rw [HeapAst.blocksList, add_assoc] at h
    exact (succeeds_parserFreeAst node h).bind fun m₁ hm₁ ↦ succeeds_parserFreeList nodes hm₁

end

end

end Novash.Memory
