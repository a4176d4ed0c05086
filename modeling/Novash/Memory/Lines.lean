import Novash.Memory.Expander
import Novash.Memory.Parser

/-!
# The memory of a session

`shell_loop` frees the tree of a line and the string that `readline` has returned, and the next
`lexer_init` frees the copy that the lexer reads from. So a session holds on to what a line has lost
and to nothing else, however many lines it reads, and it never frees anything twice
(`shellLoopLines_memory`). What executing a tree allocates is not part of this: the jobs copy what
they need of it.
-/

namespace Novash.Memory

open Foundations TokenType

/-! ## Reading one line after the other -/

/-- A line, what the memory for its tree contains, and what its expansion reads. -/
structure LineTurn where
  line : CStr
  heap : ℕ → Bool
  env : ExpandEnv

/-- What remains from one line to the next: `lex->input`, `g_tok`, and what is allocated. -/
structure Session where
  input : Option ℕ
  gTok : HeapToken
  mem : Heap

/-- `lexer_init`: the copy of the line before is freed, and a new one made. -/
def lexerInit (input : Option ℕ) (line : CStr) (m : Heap) : Option (HeapStr × Heap) := do
  let m ← freePtr input m
  return newStr line m

/-- A line of `shell_loop`. -/
def shellLoopLine (s : Session) (turn : LineTurn) : Managed Session := do
  let (input, mem) := newStr turn.line s.mem
  let (copy, mem) ← orFault (lexerInit s.input input.text mem)
  let (node, p) ← parserCreateAst ⟨Lexer.init copy.text, s.gTok, turn.heap, mem⟩
  let (node, mem) ← orFault (expanderExpandAst turn.env node p.mem)
  let mem ← orFault (parserFreeAst node mem)
  let mem ← orFault (mem.free input.addr)
  return ⟨some copy.addr, p.gTok, mem⟩

def shellLoopLines (s : Session) (turns : List LineTurn) : Managed Session :=
  turns.foldlM shellLoopLine s

/-! ## What a line loses -/

namespace LineTurn

variable (turn : LineTurn)

/-- The tree of the line, if the shell is not left before it is complete. -/
def tree : Except ParseStop (Ast × ParserState Lexer) :=
  Novash.parserCreateAst ⟨Lexer.init turn.line, .operator tokEof, turn.heap⟩

/-- The blocks that the expansion of the line loses. -/
def losses : ℕ :=
  match turn.tree with
  | .error _ => 0
  | .ok (node, _) => astLosses turn.env node

def EndsInBackslash : Prop := turn.line.getLast? = some '\\'

instance : Decidable turn.EndsInBackslash := inferInstanceAs (Decidable (_ = _))

end LineTurn

/-- Nothing is live but the copy of the line, the frame, and what was lost: as many blocks as the
expansions lose, and one more at most for a line that ends in a backslash. -/
def Session.Holds (frame : Multiset ℕ) (turns : List LineTurn) (s : Session) : Prop :=
  s.gTok.blocks = 0 ∧ ∃ lost, s.mem.live = pointee s.input + (lost + frame) ∧
    (turns.map LineTurn.losses).sum ≤ lost.card ∧
      lost.card ≤ (turns.map LineTurn.losses).sum + turns.countP LineTurn.EndsInBackslash

section

variable {frame : Multiset ℕ} {s : Session} {turn : LineTurn}

theorem Lost.card_le {lex : Lexer} {lost : Multiset ℕ} (h : Lost lex lost)
    (hline : lex.input = turn.line) :
    lost.card ≤ if turn.EndsInBackslash then 1 else 0 := by
  rcases h with rfl | ⟨hcard, -, hlast⟩
  · exact Nat.zero_le _
  · rw [hline] at hlast
    rw [hcard, if_pos (show turn.EndsInBackslash from hlast)]

theorem succeeds_lexerInit {input : Option ℕ} (line : CStr) {m : Heap}
    (h : m.live = pointee input + frame) :
    Succeeds (fun r ↦ r.1.text = line ∧ r.2.live = {r.1.addr} + frame) (lexerInit input line m) :=
  (succeeds_freePtr h).bind fun _ hm' ↦ ⟨_, rfl, rfl, hm' ▸ rfl⟩

/-- The tree does not depend on what the lookahead was. -/
theorem tree_eq {copy : HeapStr} {m : Heap} (htext : copy.text = turn.line) (gTok : HeapToken) :
    Novash.parserCreateAst (HeapParser.erase ⟨Lexer.init copy.text, gTok, turn.heap, m⟩)
      = turn.tree := by
  rw [htext]
  rfl

/-- One line: what it allocates is freed, but for what it loses. -/
theorem sound_shellLoopLine (hnul : NulFree turn.line) (hgTok : s.gTok.blocks = 0)
    (h : s.mem.live = pointee s.input + frame) :
    Sound (Session.Holds frame [turn]) (shellLoopLine s turn) := by
  have hinput : (newStr turn.line s.mem).2.live
      = pointee s.input + ({s.mem.malloc.1} + frame) := by
    change {s.mem.malloc.1} + s.mem.live = _
    rw [h]
    abel
  refine (Sound.orFault (succeeds_lexerInit turn.line hinput)).bind ?_
  rintro ⟨copy, m₁⟩ ⟨htext, hm₁⟩
  have howns : HeapParser.Owns turn.line ⟨Lexer.init copy.text, s.gTok, turn.heap, m₁⟩
      ({copy.addr} + ({s.mem.malloc.1} + frame)) := by
    refine ⟨⟨hnul, htext⟩, 0, .inl rfl, ?_⟩
    rw [hgTok, zero_add, zero_add]
    exact hm₁
  have hparse := sound_parserCreateAst howns
  have htracks := tracks_parserCreateAst ⟨Lexer.init copy.text, s.gTok, turn.heap, m₁⟩
  rw [tree_eq htext] at htracks
  dsimp only
  cases hres : parserCreateAst ⟨Lexer.init copy.text, s.gTok, turn.heap, m₁⟩ with
  | error e => exact hparse.of_error hres
  | ok r =>
    obtain ⟨a, htree, herase, -⟩ := htracks.exists_of_ok hres
    obtain ⟨⟨⟨-, hline⟩, lost, hlost, hlive⟩, hgTok'⟩ := hparse.of_ok hres
    have hlosses : turn.losses = astLosses turn.env r.1.erase := by
      rw [LineTurn.losses, htree, herase]
    have hexpand : r.2.mem.live
        = r.1.blocks + (lost + ({copy.addr} + ({s.mem.malloc.1} + frame))) := by
      rw [hlive, hgTok']
      abel
    refine (Sound.orFault (succeeds_expanderExpandAst turn.env r.1 hexpand)).bind ?_
    rintro ⟨node, m₂⟩ ⟨⟨lost', hcard, hlive'⟩, -⟩
    refine (Sound.orFault (succeeds_parserFreeAst node hlive')).bind fun m₃ hm₃ ↦ ?_
    have hlast : m₃.live = {s.mem.malloc.1} + ({copy.addr} + (lost + lost' + frame)) := by
      rw [hm₃]
      abel
    refine (Sound.orFault (succeeds_free hlast)).bind fun m₄ hm₄ ↦ Sound.ok ?_
    have hle := hlost.card_le hline
    refine ⟨hgTok', lost + lost', hm₄, ?_, ?_⟩
    · rw [List.map_singleton, List.sum_singleton, hlosses, Multiset.card_add, hcard]
      exact Nat.le_add_left _ _
    · rw [List.map_singleton, List.sum_singleton, hlosses, Multiset.card_add, hcard, Nat.add_comm,
        List.countP_singleton]
      exact Nat.add_le_add_left (by simpa using hle) _

theorem tracks_shellLoopLine (s : Session) (turn : LineTurn) :
    Tracks (fun _ _ ↦ True) turn.tree (shellLoopLine s turn) := by
  cases hinit : lexerInit s.input turn.line (newStr turn.line s.mem).2 with
  | none =>
    change Tracks _ _ (orFault (lexerInit s.input turn.line (newStr turn.line s.mem).2) >>= _)
    rw [hinit]
    exact .invalidFree _
  | some r =>
    have htext : r.1.text = turn.line := by
      obtain ⟨m', -, hr⟩ := Option.bind_eq_some_iff.mp hinit
      cases hr
      rfl
    have htracks := tracks_parserCreateAst ⟨Lexer.init r.1.text, s.gTok, turn.heap, r.2⟩
    rw [tree_eq htext] at htracks
    change Tracks _ _ (orFault (lexerInit s.input turn.line (newStr turn.line s.mem).2) >>= _)
    rw [hinit, ← bind_pure turn.tree]
    refine htracks.bind fun _ _ _ ↦ ?_
    exact .orFault_bind fun _ ↦ .orFault_bind fun _ ↦ .orFault_bind fun _ ↦ .ok trivial

/-- Line after line: what was lost before belongs to the frame. -/
theorem sound_shellLoopLines (turns : List LineTurn) : ∀ {s : Session} {frame : Multiset ℕ},
    (∀ turn ∈ turns, NulFree turn.line) → s.gTok.blocks = 0 →
      s.mem.live = pointee s.input + frame →
        Sound (Session.Holds frame turns) (shellLoopLines s turns) := by
  induction turns with
  | nil =>
    intro s frame _ hgTok h
    exact Sound.ok ⟨hgTok, 0, h.trans (by rw [zero_add]), Nat.zero_le _, Nat.zero_le _⟩
  | cons turn turns ih =>
    intro s frame hnul hgTok h
    obtain ⟨hturn, hturns⟩ := List.forall_mem_cons.mp hnul
    refine (sound_shellLoopLine hturn hgTok h).bind fun s' hs' ↦ ?_
    obtain ⟨hgTok', lost, hlive, hle, hge⟩ := hs'
    refine (ih hturns hgTok' hlive).mono fun s'' hs'' ↦ ?_
    obtain ⟨hgTok'', lost', hlive', hle', hge'⟩ := hs''
    rw [List.map_singleton, List.sum_singleton] at hle hge
    rw [List.countP_singleton] at hge
    refine ⟨hgTok'', lost' + lost, by rw [hlive', add_assoc], ?_, ?_⟩
    · rw [List.map_cons, List.sum_cons, Multiset.card_add]
      omega
    · rw [List.map_cons, List.sum_cons, Multiset.card_add, List.countP_cons]
      omega

/-- The loop goes on until the parser leaves the shell. -/
theorem exists_shellLoopLines_iff (turns : List LineTurn) : ∀ {s : Session} {frame : Multiset ℕ},
    (∀ turn ∈ turns, NulFree turn.line) → s.gTok.blocks = 0 →
      s.mem.live = pointee s.input + frame →
        ((∃ s', shellLoopLines s turns = .ok s') ↔ ∀ turn ∈ turns, ∃ a, turn.tree = .ok a) := by
  induction turns with
  | nil => exact fun _ _ _ ↦ iff_of_true ⟨_, rfl⟩ fun _ h ↦ absurd h List.not_mem_nil
  | cons turn turns ih =>
    intro s frame hnul hgTok h
    obtain ⟨hturn, hturns⟩ := List.forall_mem_cons.mp hnul
    have hsound := sound_shellLoopLine hturn hgTok h
    constructor
    · rintro ⟨s'', hrun⟩
      obtain ⟨s', hline, hrun⟩ := bind_ok.mp hrun
      obtain ⟨a, htree, -⟩ := (tracks_shellLoopLine s turn).exists_of_ok hline
      obtain ⟨hgTok', lost, hlive, -⟩ := hsound.of_ok hline
      exact List.forall_mem_cons.mpr ⟨⟨a, htree⟩, (ih hturns hgTok' hlive).mp ⟨s'', hrun⟩⟩
    · intro htrees
      obtain ⟨⟨a, htree⟩, htrees⟩ := List.forall_mem_cons.mp htrees
      obtain ⟨s', hline, -, hgTok', lost, hlive, -⟩ :=
        hsound.exists_ok (tracks_shellLoopLine s turn) htree
      obtain ⟨s'', hrun⟩ := (ih hturns hgTok' hlive).mpr htrees
      exact ⟨s'', bind_ok.mpr ⟨s', hline, hrun⟩⟩

/-- Nothing is freed that is not allocated, whatever the lines are. The session goes on as long as
the parser does not leave the shell, and then it holds on to nothing but what the lines have
lost. -/
theorem shellLoopLines_memory (turns : List LineTurn) (hnul : ∀ turn ∈ turns, NulFree turn.line)
    (hgTok : s.gTok.blocks = 0) (h : s.mem.live = pointee s.input + frame) :
    shellLoopLines s turns ≠ .error .invalidFree ∧
      ((∃ s', shellLoopLines s turns = .ok s') ↔ ∀ turn ∈ turns, ∃ a, turn.tree = .ok a) ∧
        ∀ s', shellLoopLines s turns = .ok s' → s'.Holds frame turns := by
  have hsound := sound_shellLoopLines turns hnul hgTok h
  refine ⟨?_, exists_shellLoopLines_iff turns hnul hgTok h, fun s' hs' ↦ hsound.of_ok hs'⟩
  intro hfault
  exact hsound.of_error (R := fun _ : Session ↦ False) hfault rfl

/-- The name of a parameter is lost each time the line is read. -/
theorem shellLoopLines_memory_parameter :
    let turn : LineTurn := ⟨"echo $x".toList, fun _ ↦ false, emptyDirectory⟩
    ∃ (s' : Session) (lost : Multiset ℕ),
      shellLoopLines ⟨none, { type := tokEof }, ⟨0, 0⟩⟩ [turn, turn] = .ok s' ∧
        s'.mem.live = pointee s'.input + lost ∧ lost.card = 2 := by
  intro turn
  have hnul : ∀ t ∈ [turn, turn], NulFree t.line := by
    simp only [List.forall_mem_cons]
    decide
  have hsome : turn.tree.toOption.isSome = true := by decide +kernel
  have hlosses : turn.losses = 1 := by decide +kernel
  have hends : ¬turn.EndsInBackslash := by decide
  have htree : ∃ a, turn.tree = .ok a := by
    cases htree : turn.tree with
    | error e =>
      rw [htree] at hsome
      cases hsome
    | ok a => exact ⟨a, rfl⟩
  have hstart : (⟨0, 0⟩ : Heap).live = pointee none + 0 := rfl
  obtain ⟨-, hruns, hholds⟩ := shellLoopLines_memory (s := ⟨none, { type := tokEof }, ⟨0, 0⟩⟩)
    [turn, turn] hnul rfl hstart
  obtain ⟨s', hs'⟩ := hruns.mpr (by simpa using htree)
  obtain ⟨-, lost, hlive, hle, hge⟩ := hholds s' hs'
  refine ⟨s', lost, hs', by rw [hlive, add_zero], ?_⟩
  simp [hlosses, hends] at hle hge
  omega

end

end Novash.Memory
