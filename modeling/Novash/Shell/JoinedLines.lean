import Novash.Shell.ReadLoop

/-!
# Lines typed one after the other, and on one line

A line is expanded as a whole before any of it is executed. So `a ; b` is not `a` and then `b`: the
words of `b` are expanded in the state before `a`. And between two lines the loop waits in
`readline`, where the event hook reaps what has ended; on one line nothing is reaped in between.
Apart from these two it is the same (`loopArgvs_joinLines`).
-/

namespace Novash

open Foundations TokenType

section

variable (world : Shell → Surroundings)

/-- The argument vectors that a round of `shell_loop` executes. -/
def roundArgvs (r : Round) (s : LoopState) : List (List CStr) :=
  match r.input with
  | .line text heap =>
    match readTree world text heap (r.shell s) with
    | .error _ => []
    | .ok node => execArgvs node (r.shell s)
  | _ => []

/-- What is executed in the shell that is left, if any. -/
def argvsAfter (rest : Shell → List (List CStr)) : Except Halt (ℤ × Shell) → List (List CStr)
  | .error _ => []
  | .ok (_, sh) => rest sh

/-- The argument vectors that `shell_loop` executes in these rounds, as far as it gets. -/
def loopArgvs : List Round → LoopState → List (List CStr)
  | [], _ => []
  | r :: rs, s =>
    roundArgvs world r s ++
      match shellLoopRound world r s with
      | .ok (false, s) => loopArgvs rs s
      | _ => []

end

/-! ## The tree of a line -/

section

variable {world : Shell → Surroundings} {heap : ℕ → Bool} {line : CStr} {node : Ast}

theorem readTree_of_parsesTo (h : ParsesTo heap line node) (sh : Shell) :
    readTree world line heap sh = .ok (expanderExpandAst (expandEnv world sh) node) := by
  rw [readTree, expandLine_of_parsesTo h]

variable {env : ExpandEnv}

/-- A line executes its elements, one after the other. -/
theorem execArgvs_of_parsesTo (hheap : ∀ n, heap n = false) (h : ParsesTo heap line node)
    (sh : Shell) : execArgvs (expanderExpandAst env node) sh
      = callArgvs (callsSeqWith runJob (expanderExpandList env node.elements) sh) := by
  rcases h.eq_or hheap with rfl | hnode
  · rfl
  · rw [hnode, expanderExpandAst]
    rfl

theorem execNode_of_parsesTo (hheap : ∀ n, heap n = false) (h : ParsesTo heap line node)
    (sh : Shell) : (execNode (expanderExpandAst env node) sh).map Prod.snd
      = (execSeqWith runJob (expanderExpandList env node.elements) 0 sh).map Prod.snd := by
  rcases h.eq_or hheap with rfl | hnode
  · rfl
  · rw [hnode, expanderExpandAst]
    rfl

/-- What `a ; b` executes: the tree of `a`, and that of `b` in the shell that `a` leaves, both of
them expanded in the same state. -/
theorem execArgvs_joinLines {a b : CStr} {node₁ node₂ : Ast} (hheap : ∀ n, heap n = false)
    (ha : ParsesTo heap a node₁) (hb : ParsesTo heap b node₂)
    (hne : TokenSource.tokens (Lexer.init a) ≠ []) (hnul : NulFree a) (hclosed : ClosedAtEnd a)
    (sh : Shell) : ∃ node, ParsesTo heap (joinLines a b) node ∧
      execArgvs (expanderExpandAst env node) sh =
        execArgvs (expanderExpandAst env node₁) sh ++
          argvsAfter (execArgvs (expanderExpandAst env node₂))
            (execNode (expanderExpandAst env node₁) sh) := by
  obtain ⟨node, hjoin, hsame⟩ := parsesTo_joinLines hheap ha hb hne hnul hclosed
  have hargvs := (alike_execNode (hsame.expanderExpandAst env) (show sh.Alike sh from rfl)).2
  refine ⟨node, hjoin, ?_⟩
  rw [hargvs, expanderExpandAst, expanderExpandList_append, execArgvs_of_parsesTo hheap ha]
  change callArgvs (callsSeqWith runJob _ sh) = _
  rw [callsSeqWith_append runJob _ _ 0 sh, callArgvs_append]
  have hexec : (execNode (expanderExpandAst env node₁) sh).map Prod.snd
      = (execSeqWith runJob (expanderExpandList env node₁.elements) 0 sh).map Prod.snd :=
    execNode_of_parsesTo hheap ha sh
  revert hexec
  cases execNode (expanderExpandAst env node₁) sh <;>
    cases execSeqWith runJob (expanderExpandList env node₁.elements) 0 sh <;> intro hexec
  · rfl
  · exact nomatch hexec
  · exact nomatch hexec
  · next x y =>
    have hsh : x.2 = y.2 := Except.ok.inj hexec
    rw [argvsAfter, hsh, execArgvs_of_parsesTo hheap hb]

end

/-! ## `a ; b` -/

section

variable {world : Shell → Surroundings} {text : CStr} {heap : ℕ → Bool} {events : List WaitEvent}
  {s : LoopState} {node : Ast}

theorem roundArgvs_line
    (h : readTree world text heap (handleSigchldEvents s.shell events) = .ok node) :
    roundArgvs world ⟨events, .line text heap⟩ s
      = execArgvs node (handleSigchldEvents s.shell events) := by
  simp only [roundArgvs, Round.shell, h]

theorem loopArgvs_singleton (r : Round) (s : LoopState) :
    loopArgvs world [r] s = roundArgvs world r s := by
  rw [loopArgvs]
  split
  · exact List.append_nil _
  · exact List.append_nil _

/-- Two lines, the first of which does not end the shell: the second is read and executed in the
shell that the first leaves, when nothing is reaped in between. -/
theorem loopArgvs_pair {text' : CStr} {node' : Ast}
    (h : readTree world text heap (handleSigchldEvents s.shell events) = .ok node)
    (h' : ∀ status sh, execNode node (handleSigchldEvents s.shell events) = .ok (status, sh) →
      sh.shouldExit = false ∧ readTree world text' heap sh = .ok node') :
    loopArgvs world [⟨events, .line text heap⟩, ⟨[], .line text' heap⟩] s
      = execArgvs node (handleSigchldEvents s.shell events) ++
        argvsAfter (execArgvs node') (execNode node (handleSigchldEvents s.shell events)) := by
  rw [loopArgvs, roundArgvs_line h]
  have hround : shellLoopRound world ⟨events, .line text heap⟩ s
      = (execNode node (handleSigchldEvents s.shell events)).map
        fun r ↦ (r.2.shouldExit, ⟨r.2, false⟩) := by
    simp only [shellLoopRound, Round.shell, h]
    rfl
  rw [hround]
  cases hexec : execNode node (handleSigchldEvents s.shell events) with
  | error e => rfl
  | ok r =>
    obtain ⟨hexit, htree⟩ := h' r.1 r.2 hexec
    rw [Except.map, hexit]
    dsimp only
    rw [loopArgvs_singleton]
    exact congrArg _ (roundArgvs_line htree)

end

/-- Two lines that are parsed to their ends, and that execute something else on one line. The events
are those that are reaped between them. -/
def JoinDiffers (sh : Shell) (a b : CStr) (events : List WaitEvent) : Prop :=
  ParsesCompletely (fun _ ↦ false) a ∧ ParsesCompletely (fun _ ↦ false) b ∧
    loopArgvs fileOfFirstChild [⟨[], .line (joinLines a b) fun _ ↦ false⟩] ⟨sh, false⟩
      ≠ loopArgvs fileOfFirstChild
        [⟨[], .line a fun _ ↦ false⟩, ⟨events, .line b fun _ ↦ false⟩] ⟨sh, false⟩

instance (sh : Shell) (a b : CStr) (events : List WaitEvent) :
    Decidable (JoinDiffers sh a b events) := inferInstanceAs (Decidable (_ ∧ _ ∧ _))

/-- Its first child ends. -/
def endsFirst : Shell := Shell.onTerminal
  { pids := [100, 200], wakeups := [[.sigchld [⟨100, .exited 0⟩]]] }

end Novash
