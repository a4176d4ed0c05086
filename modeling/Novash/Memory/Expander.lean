import Novash.Expander.Expander
import Novash.Memory.Pipeline

/-!
# The memory of the expander

`expander.c` with the blocks that it allocates and frees. It leaves the tree that the expander
leaves, but for the parts of the words, which are written over; how many blocks are lost on the way
can be read off the tree that it is given (`succeeds_expanderExpandAst`).
-/

namespace Novash.Memory

open Foundations

section

variable (env : ExpandEnv)

/-! ## What is lost -/

def redirLosses (redir : List Redirection) : ℕ :=
  (redir.map fun r ↦ wordLosses env r.targetParts).sum

/-- An old `argv` would be lost as well; there is none when a tree is expanded for the first
time. -/
def cmdLosses (node : CmdNode) : ℕ :=
  (if node.argvParts = [] then 0
    else (node.argv.getD []).length + argvLosses env 0 node.argvParts)
  + redirLosses env node.redir

mutual

def astLosses : Ast → ℕ
  | .null => 0
  | .cmd node _ => cmdLosses env node
  | .pipeline nodes _ => listLosses nodes
  | .conditional left right _ _ => astLosses left + astLosses right
  | .sequence nodes _ => listLosses nodes

def listLosses : List Ast → ℕ
  | [] => 0
  | node :: nodes => astLosses node + listLosses nodes

end

/-! ## Commands -/

/-- A redirection of `expander_expand_cmd`, and whether its word could be expanded. An array that is
not `NULL` has elements. -/
def expandTarget (r : HeapRedir) (m : Heap) : Option (Bool × HeapRedir × Heap) :=
  if r.targetParts.elems = [] then some (true, r, m)
  else do
    let m ← freePtr (r.target.map HeapStr.addr) m
    let (expanded, targetParts, m) := expandWord env r.targetParts m
    if expanded then
      let (target, m) := newStr (buildStrFromParts targetParts.erase) m
      return (true, { r with targetParts, target := some target }, m)
    else return (false, { r with targetParts, target := none }, m)

def expandRedir (invalid : Bool) :
    List HeapRedir → Heap → Option (List HeapRedir × Bool × Heap)
  | [], m => some ([], invalid, m)
  | r :: redir, m => do
    let (expanded, r, m) ← expandTarget env r m
    let (redir, invalid, m) ← expandRedir (invalid || !expanded) redir m
    return (r :: redir, invalid, m)

def expandArgv (node : HeapCmd) (invalid : Bool) (m : Heap) : Option (HeapCmd × Bool × Heap) :=
  if node.argvParts.elems = [] then some (node, invalid, m)
  else do
    let m ← freePtr node.argv.addr m
    let (argv, argvParts, m) ← expandArgvParts env .empty node.argvParts.elems m
    return ({ node with argvParts := node.argvParts.overwrite argvParts, argv := argv.getD .empty },
      invalid || argv.isNone, m)

def expanderExpandCmd (node : HeapCmd) (invalid : Bool) (m : Heap) :
    Option (HeapCmd × Bool × Heap) := do
  let (node, invalid, m) ← expandArgv env node invalid m
  let (redir, invalid, m) ← expandRedir env invalid node.redir.elems m
  return ({ node with redir := node.redir.overwrite redir }, invalid, m)

mutual

def expanderExpandAst : HeapAst → Heap → Option (HeapAst × Heap)
  | .null, m => some (.null, m)
  | .cmd addr node invalid, m => do
    let (node, invalid, m) ← expanderExpandCmd env node invalid m
    return (.cmd addr node invalid, m)
  | .pipeline addr array nodes invalid, m => do
    let (nodes, m) ← expanderExpandList nodes m
    return (.pipeline addr array nodes invalid, m)
  | .conditional addr left right op invalid, m => do
    let (left, m) ← expanderExpandAst left m
    let (right, m) ← expanderExpandAst right m
    return (.conditional addr left right op invalid, m)
  | .sequence addr array nodes invalid, m => do
    let (nodes, m) ← expanderExpandList nodes m
    return (.sequence addr array nodes invalid, m)

def expanderExpandList : List HeapAst → Heap → Option (List HeapAst × Heap)
  | [], m => some ([], m)
  | node :: nodes, m => do
    let (node, m) ← expanderExpandAst node m
    let (nodes, m) ← expanderExpandList nodes m
    return (node :: nodes, m)

end

/-! ### What is left of a tree -/

/-- Without the parts of the target, which are written over. -/
def bareRedir (r : Redirection) : Redirection := { r with targetParts := [] }

def bareCmd (node : CmdNode) : CmdNode :=
  { node with argvParts := [], redir := node.redir.map bareRedir }

mutual

/-- The tree without the parts of its words. -/
def withoutParts : Ast → Ast
  | .null => .null
  | .cmd node invalid => .cmd (bareCmd node) invalid
  | .pipeline nodes invalid => .pipeline (withoutPartsList nodes) invalid
  | .conditional left right op invalid =>
    .conditional (withoutParts left) (withoutParts right) op invalid
  | .sequence nodes invalid => .sequence (withoutPartsList nodes) invalid

def withoutPartsList : List Ast → List Ast
  | [] => []
  | node :: nodes => withoutParts node :: withoutPartsList nodes

end

section

variable {m : Heap} {frame : Multiset ℕ}

def redirBlocks (redir : List HeapRedir) : Multiset ℕ := (redir.map HeapRedir.blocks).sum

theorem expandInto_eq {α : Type} (invalid : Bool) (x : Except ExpandError α) :
    expandInto invalid x = (x.toOption, invalid || x.toOption.isNone) := by
  cases x with
  | ok a => exact congrArg _ (Bool.or_false _).symm
  | error e => exact congrArg _ (Bool.or_true _).symm

/-- What `expandTarget` does. -/
def ExpandedTarget (env : ExpandEnv) (r : HeapRedir) (frame : Multiset ℕ)
    (x : Bool × HeapRedir × Heap) : Prop :=
  Leaves (wordLosses env r.targetParts.erase) x.2.1.blocks frame x.2.2 ∧
    if r.targetParts.erase = [] then x.1 = true ∧ x.2.1.erase = r.erase
    else
      let target := (expandRedirectionTarget env r.targetParts.erase).toOption
      x.1 = target.isSome ∧ bareRedir x.2.1.erase = bareRedir { r.erase with target }

theorem succeeds_expandTarget {r : HeapRedir} (h : m.live = r.blocks + frame) :
    Succeeds (ExpandedTarget env r frame) (expandTarget env r m) := by
  have hnil : r.targetParts.erase = [] ↔ r.targetParts.elems = [] := List.map_eq_nil_iff
  unfold expandTarget
  split
  · next hparts =>
    refine ⟨_, rfl, (Leaves.none h).congr ?_ rfl, ?_⟩
    · rw [hnil.mpr hparts]
      rfl
    · rw [if_pos (hnil.mpr hparts)]
      exact ⟨rfl, rfl⟩
  · next hparts =>
    rw [HeapRedir.blocks, add_comm r.targetParts.blocks, add_assoc] at h
    refine (succeeds_freePtr h).bind fun m₁ hm₁ ↦ ?_
    have hleaves := leaves_expandWord env hm₁
    have hcases := expandWord_cases env r.targetParts m₁
    generalize expandWord env r.targetParts m₁ = w at hleaves hcases ⊢
    obtain ⟨expanded, parts, m₂⟩ := w
    simp only at hleaves hcases ⊢
    rcases hcases with ⟨rfl, hpass⟩ | ⟨rfl, e, hpass⟩
    · have htarget : expandRedirectionTarget env r.targetParts.erase
          = .ok (buildStrFromParts parts.erase) := by
        rw [expandRedirectionTarget, hpass]
        rfl
      obtain ⟨lost, hcard, hlive⟩ := hleaves
      refine ⟨_, rfl, ⟨lost, hcard, ?_⟩, ?_⟩
      · change {m₂.malloc.1} + m₂.live = parts.blocks + {m₂.malloc.1} + (lost + frame)
        rw [hlive]
        abel
      · rw [if_neg (hnil.not.mpr hparts), htarget]
        exact ⟨rfl, rfl⟩
    · have htarget : expandRedirectionTarget env r.targetParts.erase = .error e := by
        rw [expandRedirectionTarget, hpass]
        rfl
      refine ⟨_, rfl, hleaves.congr rfl (add_zero _).symm, ?_⟩
      rw [if_neg (hnil.not.mpr hparts), htarget]
      exact ⟨rfl, rfl⟩

/-- What `expandRedir` does. -/
def ExpandedRedir (env : ExpandEnv) (redir : List HeapRedir) (invalid : Bool) (frame : Multiset ℕ)
    (x : List HeapRedir × Bool × Heap) : Prop :=
  let expanded := Novash.expandRedir env invalid (redir.map HeapRedir.erase)
  Leaves (redirLosses env (redir.map HeapRedir.erase)) (redirBlocks x.1) frame x.2.2 ∧
    x.1.map (fun r ↦ bareRedir r.erase) = expanded.1.map bareRedir ∧ x.2.1 = expanded.2

theorem succeeds_expandRedir (redir : List HeapRedir) : ∀ (invalid : Bool) {m : Heap}
    {frame : Multiset ℕ}, m.live = redirBlocks redir + frame →
      Succeeds (ExpandedRedir env redir invalid frame) (expandRedir env invalid redir m) := by
  induction redir with
  | nil => exact fun _ _ _ h ↦ ⟨_, rfl, .none h, rfl, rfl⟩
  | cons r redir ih =>
    intro invalid m frame h
    rw [redirBlocks, List.map_cons, List.sum_cons, ← redirBlocks, add_assoc] at h
    refine (succeeds_expandTarget env h).bind fun x hx ↦ ?_
    obtain ⟨expanded, r', m₁⟩ := x
    obtain ⟨⟨lost, hcard, hlive⟩, hr⟩ := hx
    have hrest : m₁.live = redirBlocks redir + (r'.blocks + (lost + frame)) := by
      rw [hlive]
      abel
    refine (ih (invalid || !expanded) hrest).bind fun y hy ↦ ⟨_, rfl, ?_, ?_⟩
    · obtain ⟨lost', hcard', hlive'⟩ := hy.1
      refine ⟨lost + lost', ?_, ?_⟩
      · rw [Multiset.card_add, hcard, hcard']
        rfl
      · rw [hlive', redirBlocks, redirBlocks, List.map_cons, List.sum_cons]
        abel
    · rw [List.map_cons]
      by_cases hparts : r.targetParts.erase = []
      · rw [if_pos hparts] at hr
        obtain ⟨rfl, herase⟩ : expanded = true ∧ r'.erase = r.erase := hr
        rw [Bool.not_true, Bool.or_false] at hy
        have hstep : Novash.expandRedir env invalid ((r :: redir).map HeapRedir.erase)
            = (r.erase :: (Novash.expandRedir env invalid (redir.map HeapRedir.erase)).1,
              (Novash.expandRedir env invalid (redir.map HeapRedir.erase)).2) := by
          rw [List.map_cons, Novash.expandRedir, if_pos (by exact hparts)]
        rw [hstep]
        exact ⟨List.cons_eq_cons.mpr ⟨congrArg _ herase, hy.2.1⟩, hy.2.2⟩
      · rw [if_neg hparts] at hr
        simp only at hr
        generalize htarget :
          (expandRedirectionTarget env r.targetParts.erase).toOption = target at hr
        obtain ⟨rfl, herase⟩ := hr
        rw [Option.not_isSome] at hy
        have hstep : Novash.expandRedir env invalid ((r :: redir).map HeapRedir.erase)
            = ({ r.erase with target } :: (Novash.expandRedir env (invalid || target.isNone)
                (redir.map HeapRedir.erase)).1,
              (Novash.expandRedir env (invalid || target.isNone)
                (redir.map HeapRedir.erase)).2) := by
          rw [List.map_cons, Novash.expandRedir, if_neg (by exact hparts), expandInto_eq,
            ← htarget]
          rfl
        rw [hstep]
        exact ⟨List.cons_eq_cons.mpr ⟨herase, hy.2.1⟩, hy.2.2⟩

/-- What `expanderExpandCmd` does. -/
def ExpandedCmd (env : ExpandEnv) (node : HeapCmd) (invalid : Bool) (frame : Multiset ℕ)
    (x : HeapCmd × Bool × Heap) : Prop :=
  let expanded := Novash.expanderExpandCmd env node.erase invalid
  Leaves (cmdLosses env node.erase) x.1.blocks frame x.2.2 ∧
    bareCmd x.1.erase = bareCmd expanded.1 ∧ x.2.1 = expanded.2

/-- The arguments of a command; nothing else of it changes. -/
def ExpandedArgs (env : ExpandEnv) (node : HeapCmd) (invalid : Bool) (frame : Multiset ℕ)
    (x : HeapCmd × Bool × Heap) : Prop :=
  let expanded := if node.erase.argvParts = [] then (node.erase.argv, invalid)
    else expandInto invalid (Novash.expandArgvParts env node.erase.argvParts)
  Leaves (if node.erase.argvParts = [] then 0
      else (node.erase.argv.getD []).length + argvLosses env 0 node.erase.argvParts)
      (x.1.argvParts.blocks HeapWord.blocks + strsBlocks x.1.argv) frame x.2.2 ∧
    x.1.redir = node.redir ∧ x.1.rawStr = node.rawStr ∧ x.1.isBg = node.isBg ∧
      x.1.erase.argv = expanded.1 ∧ x.2.1 = expanded.2

theorem succeeds_expandArgv {node : HeapCmd} (invalid : Bool)
    (h : m.live = node.argvParts.blocks HeapWord.blocks + strsBlocks node.argv + frame) :
    Succeeds (ExpandedArgs env node invalid frame) (expandArgv env node invalid m) := by
  have hnil : node.erase.argvParts = [] ↔ node.argvParts.elems = [] := List.map_eq_nil_iff
  unfold expandArgv
  split
  · next hparts =>
    refine ⟨_, rfl, (Leaves.none h).congr (if_pos (hnil.mpr hparts)).symm rfl, rfl, rfl, rfl, ?_⟩
    rw [if_pos (hnil.mpr hparts)]
    exact ⟨rfl, rfl⟩
  · next hparts =>
    have hfree : m.live = pointee node.argv.addr + (wordsBlocks node.argvParts.elems
        + ((node.argv.elems.map fun s ↦ ({s.addr} : Multiset ℕ)).sum
          + (pointee node.argvParts.addr + frame))) := by
      rw [h, HeapArray.blocks, strsBlocks, HeapArray.blocks, wordsBlocks]
      abel
    refine (succeeds_freePtr hfree).bind fun m₁ hm₁ ↦ ?_
    have hwords : m₁.live = strsBlocks .empty + (wordsBlocks node.argvParts.elems
        + ((node.argv.elems.map fun s ↦ ({s.addr} : Multiset ℕ)).sum
          + (pointee node.argvParts.addr + frame))) := by
      rw [hm₁]
      exact (zero_add _).symm
    refine (succeeds_expandArgvParts env _ hwords).bind fun r hr ↦ ?_
    obtain ⟨argv, words, m₂⟩ := r
    obtain ⟨⟨lost, hcard, hlive⟩, haddr, htexts⟩ := hr
    refine ⟨_, rfl, ?_, rfl, rfl, rfl, ?_⟩
    · rw [if_neg (hnil.not.mpr hparts)]
      refine ⟨(node.argv.elems.map fun s ↦ ({s.addr} : Multiset ℕ)).sum + lost, ?_, ?_⟩
      · rw [Multiset.card_add, hcard, card_strings]
        exact congrArg (· + _) (length_eraseArgv node.argv).symm
      · rw [hlive]
        change _ = HeapArray.blocks HeapWord.blocks (node.argvParts.overwrite words) + _ + _
        rw [HeapArray.blocks, HeapArray.addr_overwrite,
          HeapArray.elems_overwrite fun h ↦ absurd h hparts, ← wordsBlocks]
        abel
    · rw [if_neg (hnil.not.mpr hparts), expandInto_eq]
      have hvalue : argv.map texts
          = (Novash.expandArgvParts env node.erase.argvParts).toOption := by
        rw [htexts]
        exact Option.map_id'
      rw [← hvalue]
      cases argv with
      | none => exact ⟨rfl, rfl⟩
      | some out =>
        obtain ⟨addr, haddr⟩ := Option.ne_none_iff_exists'.mp (haddr out rfl)
        refine ⟨?_, rfl⟩
        change out.addr.map (fun _ ↦ texts out) = some (texts out)
        rw [haddr]
        rfl

theorem succeeds_expanderExpandCmd {node : HeapCmd} (invalid : Bool)
    (h : m.live = node.blocks + frame) :
    Succeeds (ExpandedCmd env node invalid frame) (expanderExpandCmd env node invalid m) := by
  have hargs : m.live = node.argvParts.blocks HeapWord.blocks + strsBlocks node.argv
      + (redirBlocks node.redir.elems
        + (pointee node.redir.addr + ({node.rawStr.addr} + frame))) := by
    rw [h, HeapCmd.blocks, show node.redir.blocks HeapRedir.blocks
      = pointee node.redir.addr + redirBlocks node.redir.elems from rfl, strsBlocks]
    abel
  refine (succeeds_expandArgv env invalid hargs).bind fun x hx ↦ ?_
  obtain ⟨node', invalid', m₁⟩ := x
  obtain ⟨⟨lost, hcard, hlive⟩, hredir, hrawStr, hisBg, hargv, hinvalid⟩ := hx
  simp only at hcard hlive hredir hrawStr hisBg hargv hinvalid
  have hrest : m₁.live = redirBlocks node'.redir.elems
      + (node'.argvParts.blocks HeapWord.blocks + strsBlocks node'.argv
        + (lost + (pointee node.redir.addr + ({node.rawStr.addr} + frame)))) := by
    rw [hlive, hredir]
    abel
  refine (succeeds_expandRedir env _ invalid' hrest).bind fun y hy ↦ ?_
  obtain ⟨⟨lost', hcard', hlive'⟩, hmap, hinvalid'⟩ := hy
  have hkeep : node'.redir.elems = [] → y.1 = [] := by
    intro hnil
    rw [hnil] at hmap
    exact List.map_eq_nil_iff.mp hmap
  refine ⟨_, rfl, ⟨lost + lost', ?_, ?_⟩, ?_⟩
  · rw [Multiset.card_add, hcard, hcard', hredir]
    rfl
  · have hblocks : (node'.redir.overwrite y.1).blocks HeapRedir.blocks
        = pointee node.redir.addr + redirBlocks y.1 := by
      rw [HeapArray.blocks, HeapArray.addr_overwrite, HeapArray.elems_overwrite hkeep, hredir]
      rfl
    rw [hlive', HeapCmd.blocks]
    simp only
    rw [hblocks, hrawStr, strsBlocks]
    abel
  · rw [hredir, hinvalid] at hmap hinvalid'
    rw [Novash.expanderExpandCmd]
    simp only [bareCmd, HeapCmd.erase]
    rw [HeapArray.elems_overwrite hkeep, List.map_map, hrawStr, hisBg]
    refine ⟨?_, hinvalid'⟩
    exact congrArg₂ (fun argv redir ↦ CmdNode.mk [] argv redir node.rawStr.text node.isBg)
      hargv hmap

/-- What `expanderExpandAst` does: what it loses, and the tree it leaves. -/
def ExpandedAst (env : ExpandEnv) (node : HeapAst) (frame : Multiset ℕ) (x : HeapAst × Heap) :
    Prop :=
  Leaves (astLosses env node.erase) x.1.blocks frame x.2 ∧
    withoutParts x.1.erase = withoutParts (Novash.expanderExpandAst env node.erase)

def ExpandedList (env : ExpandEnv) (nodes : List HeapAst) (frame : Multiset ℕ)
    (x : List HeapAst × Heap) : Prop :=
  Leaves (listLosses env (HeapAst.eraseList nodes)) (HeapAst.blocksList x.1) frame x.2 ∧
    withoutPartsList (HeapAst.eraseList x.1)
      = withoutPartsList (Novash.expanderExpandList env (HeapAst.eraseList nodes))

mutual

/-- Every tree can be expanded without freeing what is not allocated. -/
theorem succeeds_expanderExpandAst (node : HeapAst) {m : Heap} {frame : Multiset ℕ}
    (h : m.live = node.blocks + frame) :
    Succeeds (ExpandedAst env node frame) (expanderExpandAst env node m) := by
  match node with
  | .null => exact ⟨_, rfl, .none h, rfl⟩
  | .cmd addr node invalid =>
    rw [HeapAst.blocks, add_assoc] at h
    refine (succeeds_expanderExpandCmd env invalid h).bind fun x hx ↦ ?_
    obtain ⟨hleaves, hbare, hinvalid⟩ := hx
    refine ⟨_, rfl, hleaves.regroup (add_assoc _ _ _).symm, ?_⟩
    exact congrArg₂ Ast.cmd hbare hinvalid
  | .pipeline addr array nodes invalid =>
    rw [HeapAst.blocks, add_assoc, add_assoc] at h
    refine (succeeds_expanderExpandList nodes h).bind fun x hx ↦ ?_
    refine ⟨_, rfl, hx.1.regroup ?_, congrArg (Ast.pipeline · invalid) hx.2⟩
    rw [HeapAst.blocks, add_assoc, add_assoc]
  | .conditional addr left right op invalid =>
    rw [HeapAst.blocks, add_assoc, add_assoc] at h
    refine (succeeds_expanderExpandAst left h).bind fun x hx ↦ ?_
    obtain ⟨⟨lost, hcard, hlive⟩, hleft⟩ := hx
    have hrest : x.2.live = right.blocks + (x.1.blocks + ({addr} + (lost + frame))) := by
      rw [hlive]
      abel
    refine (succeeds_expanderExpandAst right hrest).bind fun y hy ↦ ?_
    obtain ⟨⟨lost', hcard', hlive'⟩, hright⟩ := hy
    refine ⟨_, rfl, ⟨lost + lost', ?_, ?_⟩, ?_⟩
    · rw [Multiset.card_add, hcard, hcard']
      rfl
    · rw [hlive', HeapAst.blocks]
      abel
    · exact congrArg₂ (Ast.conditional · · op invalid) hleft hright
  | .sequence addr array nodes invalid =>
    rw [HeapAst.blocks, add_assoc, add_assoc] at h
    refine (succeeds_expanderExpandList nodes h).bind fun x hx ↦ ?_
    refine ⟨_, rfl, hx.1.regroup ?_, congrArg (Ast.sequence · invalid) hx.2⟩
    rw [HeapAst.blocks, add_assoc, add_assoc]

theorem succeeds_expanderExpandList (nodes : List HeapAst) {m : Heap} {frame : Multiset ℕ}
    (h : m.live = HeapAst.blocksList nodes + frame) :
    Succeeds (ExpandedList env nodes frame) (expanderExpandList env nodes m) := by
  match nodes with
  | [] => exact ⟨_, rfl, .none h, rfl⟩
  | node :: nodes =>
    rw [HeapAst.blocksList, add_assoc] at h
    refine (succeeds_expanderExpandAst node h).bind fun x hx ↦ ?_
    obtain ⟨⟨lost, hcard, hlive⟩, hnode⟩ := hx
    have hrest : x.2.live = HeapAst.blocksList nodes + (x.1.blocks + (lost + frame)) := by
      rw [hlive]
      abel
    refine (succeeds_expanderExpandList nodes hrest).bind fun y hy ↦ ?_
    obtain ⟨⟨lost', hcard', hlive'⟩, hnodes⟩ := hy
    refine ⟨_, rfl, ⟨lost + lost', ?_, ?_⟩, ?_⟩
    · rw [Multiset.card_add, hcard, hcard']
      rfl
    · rw [hlive', HeapAst.blocksList]
      abel
    · exact List.cons_eq_cons.mpr ⟨hnode, hnodes⟩

end

end

end

end Novash.Memory
