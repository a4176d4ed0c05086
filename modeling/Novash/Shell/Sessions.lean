import Novash.Parser.WellFormed
import Novash.Shell.Programs

/-!
# Sessions

A session is what is entered from the start of the shell on: lines, interruptions and ends of the
input, with the events that are reaped before each. Two things are said of whole sessions here. What
counts of a typed line is how its tokens look to the parser (`shellLoopRounds_views`); and typing
well-formed lines does what the lines mean (`shellLoopRounds_typed`), and so does every session of
lines that are accepted (`shellLoopRounds_accepted`).

Both go by one argument. `sessionRounds` is `shell_loop` over any way of executing what is entered,
and it cannot tell lines apart that do the same.

Shells are compared but for the texts of their commands, and what the expander reads from outside
the shell is taken not to depend on these texts.
-/

namespace Novash

open Foundations TokenType

/-! ## The loop over any kind of lines -/

/-- What is entered; a line is what executing it does. -/
inductive Entry
  | line (run : Shell → Except Halt (ℤ × Shell))
  | interrupted
  | eof

/-- One round of `shell_loop`. -/
def sessionRound (events : List WaitEvent) (entry : Entry) (s : LoopState) :
    Except Halt (Bool × LoopState) :=
  let sh := handleSigchldEvents s.shell events
  match entry with
  | .interrupted => .ok (sh.shouldExit, { s with shell := sh })
  | .eof =>
    if 0 < sh.table.runningJobsCount && !s.warningExit then
      .ok (sh.shouldExit, ⟨sh.print exitWarning, true⟩)
    else .ok (true, { s with shell := sh.print "exit".toList })
  | .line run => do
    let (_, sh) ← run sh
    return (sh.shouldExit, ⟨sh, false⟩)

def sessionRounds : List (List WaitEvent × Entry) → LoopState → Except Halt (Bool × LoopState)
  | [], s => .ok (false, s)
  | (events, entry) :: rounds, s => do
    let (left, s) ← sessionRound events entry s
    if left then return (true, s) else sessionRounds rounds s

/-- What `readline` returns, as what is executed. -/
def ReadlineResult.entry (world : Shell → Surroundings) : ReadlineResult → Entry
  | line text heap => .line fun sh ↦ do
    let node ← readTree world text heap sh
    execNode node sh
  | interrupted => .interrupted
  | eof => .eof

theorem shellLoopRounds_eq (world : Shell → Surroundings) (rs : List Round) :
    ∀ s, shellLoopRounds world rs s
      = sessionRounds (rs.map fun r ↦ (r.events, r.input.entry world)) s := by
  have hround : ∀ r s, shellLoopRound world r s
      = sessionRound r.events (r.input.entry world) s := by
    intro r s
    obtain ⟨events, input⟩ := r
    cases input with
    | line text heap =>
      simp only [shellLoopRound, sessionRound, ReadlineResult.entry, Round.shell]
      cases readTree world text heap (handleSigchldEvents s.shell events) <;> rfl
    | interrupted => rfl
    | eof => rfl
  induction rs with
  | nil => exact fun _ ↦ rfl
  | cons r rs ih =>
    intro s
    rw [List.map_cons, shellLoopRounds, sessionRounds, hround]
    simp only [ih]

/-! ## Sessions that do the same -/

def LoopState.Alike (s s' : LoopState) : Prop :=
  s.shell.Alike s'.shell ∧ s.warningExit = s'.warningExit

/-- Both loops are left or neither is, in states that are alike. -/
def AlikeLoop (x y : Bool × LoopState) : Prop := x.1 = y.1 ∧ x.2.Alike y.2

/-- The entries do the same in shells that are alike. -/
inductive Entry.Alike : Entry → Entry → Prop
  | line {run run' : Shell → Except Halt (ℤ × Shell)}
      (h : ∀ sh sh', sh.Alike sh' → Agree AlikeWith (run sh) (run' sh')) :
      Alike (.line run) (.line run')
  | interrupted : Alike .interrupted .interrupted
  | eof : Alike .eof .eof

theorem Shell.Alike.shouldExit {sh sh' : Shell} (h : sh.Alike sh') :
    sh.shouldExit = sh'.shouldExit := (congrArg Shell.shouldExit h.mute_eq :)

theorem Shell.Alike.runningJobsCount {sh sh' : Shell} (h : sh.Alike sh') :
    sh.table.runningJobsCount = sh'.table.runningJobsCount :=
  (congrArg (fun sh : Shell ↦ sh.table.runningJobsCount) h.mute_eq :)

section

variable {entry entry' : Entry} {s s' : LoopState}

theorem alike_sessionRound (events : List WaitEvent) (hentry : entry.Alike entry')
    (h : s.Alike s') :
    Agree AlikeLoop (sessionRound events entry s) (sessionRound events entry' s') := by
  obtain ⟨hshell, hwarning⟩ := h
  have hsh := alike_handleSigchldEvents events hshell
  unfold sessionRound
  cases hentry with
  | interrupted => exact .ok ⟨hsh.shouldExit, hsh, hwarning⟩
  | eof =>
    dsimp only
    rw [hsh.runningJobsCount, hwarning, hsh.shouldExit]
    split
    · exact .ok ⟨rfl, alike_print hsh _ _, rfl⟩
    · exact .ok ⟨rfl, alike_print hsh _ _, rfl⟩
  | line hrun =>
    refine (hrun _ _ hsh).bind ?_
    rintro ⟨status, sh⟩ ⟨status', sh'⟩ ⟨-, hsh⟩
    exact .ok ⟨hsh.shouldExit, hsh, rfl⟩

/-- The loop cannot tell entries apart that do the same. -/
theorem alike_sessionRounds {rounds rounds' : List (List WaitEvent × Entry)}
    (hrounds : List.Forall₂ (fun r r' ↦ r.1 = r'.1 ∧ r.2.Alike r'.2) rounds rounds') :
    ∀ {s s' : LoopState}, s.Alike s' →
      Agree AlikeLoop (sessionRounds rounds s) (sessionRounds rounds' s') := by
  induction hrounds with
  | nil => exact fun h ↦ .ok ⟨rfl, h⟩
  | @cons r r' rounds rounds' hr _ ih =>
    intro s s' h
    obtain ⟨events, entry⟩ := r
    obtain ⟨_, entry'⟩ := r'
    obtain ⟨rfl, hentry⟩ := hr
    refine (alike_sessionRound events hentry h).bind ?_
    rintro ⟨left, s⟩ ⟨_, s'⟩ ⟨rfl, h⟩
    cases left with
    | true => exact .ok ⟨rfl, h⟩
    | false => exact ih h

end

/-! ## Lines that look the same -/

/-- What the expander reads from outside does not depend on the texts of commands. -/
def IgnoresTexts (world : Shell → Surroundings) : Prop :=
  ∀ sh sh' : Shell, sh.Alike sh' → world sh = world sh'

theorem expandEnv_eq {world : Shell → Surroundings} (hworld : IgnoresTexts world) {sh sh' : Shell}
    (h : sh.Alike sh') : expandEnv world sh = expandEnv world sh' := by
  have hexit : sh.lastExec.exitStatus = sh'.lastExec.exitStatus :=
    (congrArg (fun sh : Shell ↦ sh.lastExec.exitStatus) h.mute_eq :)
  have hbg : sh.lastExec.bgPid = sh'.lastExec.bgPid :=
    (congrArg (fun sh : Shell ↦ sh.lastExec.bgPid) h.mute_eq :)
  have hpid : sh.pid = sh'.pid := (congrArg Shell.pid h.mute_eq :)
  rw [expandEnv, expandEnv, hworld sh sh' h, hexit, hbg, hpid, h.shellStateGetenv]

/-- The same is returned by `readline`, but for how the words of the lines are written. -/
inductive ReadlineResult.SameViews : ReadlineResult → ReadlineResult → Prop
  | line {text text' : CStr} {heap : ℕ → Bool}
      (h : (TokenSource.stream (Lexer.init text)).map Token.view
        = (TokenSource.stream (Lexer.init text')).map Token.view) :
      SameViews (.line text heap) (.line text' heap)
  | interrupted : SameViews .interrupted .interrupted
  | eof : SameViews .eof .eof

theorem agree_readTree {world : Shell → Surroundings} (hworld : IgnoresTexts world)
    {text text' : CStr} {heap : ℕ → Bool}
    (hviews : (TokenSource.stream (Lexer.init text)).map Token.view
      = (TokenSource.stream (Lexer.init text')).map Token.view) {sh sh' : Shell}
    (h : sh.Alike sh') :
    Agree SameNode (readTree world text heap sh) (readTree world text' heap sh') := by
  have hparse : Agree (ViewsWith SameNode)
      (parserCreateAst (⟨Lexer.init text, .operator tokEof, heap⟩ : ParserState Lexer))
      (parserCreateAst (⟨Lexer.init text', .operator tokEof, heap⟩ : ParserState Lexer)) :=
    parserCreateAst_views hviews
  rw [readTree, readTree, expandLine, expandLine, expandEnv_eq hworld h]
  revert hparse
  generalize parserCreateAst (⟨Lexer.init text, .operator tokEof, heap⟩ : ParserState Lexer) = x
  generalize parserCreateAst (⟨Lexer.init text', .operator tokEof, heap⟩ : ParserState Lexer) = y
  intro hparse
  cases hparse with
  | error e => cases e <;> exact .error _
  | ok hnode => exact .ok (hnode.1.expanderExpandAst _)

/-- **What counts of a line is how its tokens look.** Two sessions whose lines have the same tokens
to the parser's eye go the same way: every line is executed with the same results or refused in the
same way, and the loop is left in the same round. -/
theorem shellLoopRounds_views {world : Shell → Surroundings} (hworld : IgnoresTexts world)
    {rs rs' : List Round}
    (hrs : List.Forall₂ (fun r r' : Round ↦ r.events = r'.events ∧ r.input.SameViews r'.input)
      rs rs') {s s' : LoopState} (h : s.Alike s') :
    Agree AlikeLoop (shellLoopRounds world rs s) (shellLoopRounds world rs' s') := by
  rw [shellLoopRounds_eq, shellLoopRounds_eq]
  refine alike_sessionRounds ?_ h
  rw [List.forall₂_map_left_iff, List.forall₂_map_right_iff]
  refine hrs.imp fun r r' ⟨hevents, hinput⟩ ↦ ⟨hevents, ?_⟩
  obtain ⟨events, input⟩ := r
  obtain ⟨events', input'⟩ := r'
  dsimp only at hinput ⊢
  cases hinput with
  | line hviews =>
    refine .line fun sh sh' hsh ↦ (agree_readTree hworld hviews hsh).bind fun node node' hnode ↦ ?_
    exact (alike_execNode hnode hsh).1
  | interrupted => exact .interrupted
  | eof => exact .eof

theorem ignoresTexts_fileOfFirstChild : IgnoresTexts fileOfFirstChild := by
  intro sh sh' h
  have hspawned : sh.spawned = sh'.spawned := (congrArg Shell.spawned h.mute_eq :)
  rw [fileOfFirstChild, fileOfFirstChild, hspawned]

/-- Spaces do not count, and neither does a pair of quotes around nothing. -/
theorem shellLoopRounds_views_spaces :
    Agree AlikeLoop
      (shellLoopRounds fileOfFirstChild
        [⟨[], .line "f  a\"\"&&g\\?b".toList fun _ ↦ false⟩, ⟨[], .eof⟩] ⟨stoppedFirst, false⟩)
      (shellLoopRounds fileOfFirstChild
        [⟨[], .line "f a && g\\?b".toList fun _ ↦ false⟩, ⟨[], .eof⟩] ⟨stoppedFirst, false⟩) := by
  refine shellLoopRounds_views ignoresTexts_fileOfFirstChild ?_ ⟨rfl, rfl⟩
  exact .cons ⟨rfl, .line (by decide +kernel)⟩ (.cons ⟨rfl, .eof⟩ .nil)

/-! ## Lines that are typed -/

/-- What is entered, with lines as what they mean. -/
inductive Program
  | line (l : Grammar.Line)
  | interrupted
  | eof

namespace Program

/-- The words of the line have a text. -/
def Printable : Program → Prop
  | line l => l.Printable
  | interrupted => True
  | eof => True

/-- What `readline` returns when the program is typed. -/
def typed : Program → ReadlineResult
  | line l => .line l.text fun _ ↦ false
  | interrupted => .interrupted
  | eof => .eof

/-- What the program means. -/
def entry (world : Shell → Surroundings) : Program → Entry
  | line l => .line fun sh ↦ l.exec (expandEnv world sh) sh
  | interrupted => .interrupted
  | eof => .eof

end Program

/-- A line is executed as its tree, and so as what the line of the grammar means that has this
tree. -/
theorem agree_readTree_exec {world : Shell → Surroundings} (hworld : IgnoresTexts world)
    {text : CStr} {node : Ast} {p : ParserState Lexer} {l : Grammar.Line}
    (hparse : parserCreateAst ⟨Lexer.init text, .operator tokEof, fun _ ↦ false⟩ = .ok (node, p))
    (hnode : node.erase true = l.toAst) {sh sh' : Shell} (h : sh.Alike sh') :
    Agree AlikeWith (readTree world text (fun _ ↦ false) sh >>= fun node ↦ execNode node sh)
      (l.exec (expandEnv world sh') sh') := by
  have hsame : SameNode node l.toAst := by rw [SameNode, ← hnode, Ast.erase_erase]
  have htree : readTree world text (fun _ ↦ false) sh
      = .ok (expanderExpandAst (expandEnv world sh) node) := by
    rw [readTree, expandLine, hparse]
    rfl
  rw [htree, ← Grammar.execNode_toAst, ← expandEnv_eq hworld h]
  exact (alike_execNode (hsame.expanderExpandAst _) h).1

theorem agree_typed {world : Shell → Surroundings} (hworld : IgnoresTexts world) {l : Grammar.Line}
    (hl : l.Printable) {sh sh' : Shell} (h : sh.Alike sh') :
    Agree AlikeWith (readTree world l.text (fun _ ↦ false) sh >>= fun node ↦ execNode node sh)
      (l.exec (expandEnv world sh') sh') := by
  obtain ⟨node, p, hparse, -, hnode⟩ :=
    parserCreateAst_text true (.operator tokEof) hl fun _ _ ↦ rfl
  exact agree_readTree_exec hworld hparse hnode h

/-- **Typing a session does what the session means.** -/
theorem shellLoopRounds_typed {world : Shell → Surroundings} (hworld : IgnoresTexts world)
    (programs : List (List WaitEvent × Program)) (hprograms : ∀ x ∈ programs, x.2.Printable)
    {s s' : LoopState} (h : s.Alike s') :
    Agree AlikeLoop
      (shellLoopRounds world (programs.map fun x ↦ ⟨x.1, x.2.typed⟩) s)
      (sessionRounds (programs.map fun x ↦ (x.1, x.2.entry world)) s') := by
  rw [shellLoopRounds_eq, List.map_map]
  refine alike_sessionRounds ?_ h
  rw [List.forall₂_map_left_iff, List.forall₂_map_right_iff, List.forall₂_same]
  intro x hx
  refine ⟨rfl, ?_⟩
  have hprintable := hprograms x hx
  obtain ⟨events, program⟩ := x
  cases program with
  | line l => exact .line fun sh sh' hsh ↦ agree_typed hworld hprintable hsh
  | interrupted => exact .interrupted
  | eof => exact .eof

/-- The line `f 'a b' || g $?`, typed when an event is pending, and then the end of the input. -/
theorem shellLoopRounds_typed_status :
    let word (q : QuoteContext) (s : String) : Word := [⟨.wordLiteral, q, s.toList⟩]
    let line : Grammar.Line :=
      ⟨⟨⟨⟨⟨word .quoteNone "f", [word .quoteSingle "a b"], []⟩, []⟩,
          [(.condOr, ⟨⟨word .quoteNone "g", [[⟨.wordVariable, .quoteNone, ['?']⟩]], []⟩, []⟩)]⟩,
        false⟩, []⟩
    let programs : List (List WaitEvent × Program) :=
      [([⟨7, .continued⟩], .line line), ([], .eof)]
    Agree AlikeLoop
      (shellLoopRounds fileOfFirstChild (programs.map fun x ↦ ⟨x.1, x.2.typed⟩)
        ⟨stoppedFirst, false⟩)
      (sessionRounds (programs.map fun x ↦ (x.1, x.2.entry fileOfFirstChild))
        ⟨stoppedFirst, false⟩) := by
  intro word line programs
  refine shellLoopRounds_typed ignoresTexts_fileOfFirstChild programs ?_ ⟨rfl, rfl⟩
  have hline : line.Printable := by
    simp [line, word, Grammar.Line.Printable, Grammar.Chain.Printable, Grammar.Pipeline.Printable,
      Grammar.Command.Printable, Grammar.PrintableWord, WordPart.Printable, NulFree]
    decide
  simpa [programs, Program.Printable] using hline

/-! ## Every line that is accepted -/

/-- A line is parsed into a tree that has elements and no missing parts. -/
inductive ReadlineResult.Accepted : ReadlineResult → Prop
  | line {text : CStr} {node : Ast} {p : ParserState Lexer}
      (hparse : parserCreateAst ⟨Lexer.init text, .operator tokEof, fun _ ↦ false⟩ = .ok (node, p))
      (helements : node.elements ≠ []) (hcomplete : node.Complete) :
      Accepted (.line text fun _ ↦ false)
  | interrupted : Accepted .interrupted
  | eof : Accepted .eof

/-- A line has the tree of a line of the grammar. -/
inductive ReadlineResult.ReadsAs : ReadlineResult → Program → Prop
  | line {text : CStr} {node : Ast} {p : ParserState Lexer} {l : Grammar.Line}
      (hparse : parserCreateAst ⟨Lexer.init text, .operator tokEof, fun _ ↦ false⟩ = .ok (node, p))
      (hnode : node.erase true = l.toAst) : ReadsAs (.line text fun _ ↦ false) (.line l)
  | interrupted : ReadsAs .interrupted .interrupted
  | eof : ReadsAs .eof .eof

theorem ReadlineResult.Accepted.exists_readsAs {input : ReadlineResult} (h : input.Accepted) :
    ∃ program, input.ReadsAs program := by
  cases h with
  | line hparse helements hcomplete =>
    obtain ⟨l, hl⟩ := exists_line true hparse (fun _ _ ↦ rfl) helements hcomplete
    exact ⟨.line l, .line hparse hl⟩
  | interrupted => exact ⟨.interrupted, .interrupted⟩
  | eof => exact ⟨.eof, .eof⟩

theorem exists_programs {rs : List Round} (h : ∀ r ∈ rs, r.input.Accepted) :
    ∃ programs : List (List WaitEvent × Program),
      List.Forall₂ (fun r x ↦ r.events = x.1 ∧ r.input.ReadsAs x.2) rs programs := by
  induction rs with
  | nil => exact ⟨[], .nil⟩
  | cons r rs ih =>
    obtain ⟨hr, hrs⟩ := List.forall_mem_cons.mp h
    obtain ⟨program, hprogram⟩ := hr.exists_readsAs
    obtain ⟨programs, hprograms⟩ := ih hrs
    exact ⟨(r.events, program) :: programs, .cons ⟨rfl, hprogram⟩ hprograms⟩

/-- **Every session of accepted lines has a meaning.** Each line is one of the grammar, and the
session does what these lines mean, whatever state it starts in. -/
theorem shellLoopRounds_accepted {world : Shell → Surroundings} (hworld : IgnoresTexts world)
    {rs : List Round} (hrs : ∀ r ∈ rs, r.input.Accepted) :
    ∃ programs : List (List WaitEvent × Program),
      List.Forall₂ (fun r x ↦ r.events = x.1 ∧ r.input.ReadsAs x.2) rs programs ∧
        ∀ s s' : LoopState, s.Alike s' → Agree AlikeLoop (shellLoopRounds world rs s)
          (sessionRounds (programs.map fun x ↦ (x.1, x.2.entry world)) s') := by
  obtain ⟨programs, hprograms⟩ := exists_programs hrs
  refine ⟨programs, hprograms, fun s s' h ↦ ?_⟩
  rw [shellLoopRounds_eq]
  refine alike_sessionRounds ?_ h
  rw [List.forall₂_map_left_iff, List.forall₂_map_right_iff]
  refine hprograms.imp fun r x ⟨hevents, hreads⟩ ↦ ⟨hevents, ?_⟩
  obtain ⟨events, input⟩ := r
  obtain ⟨events', program⟩ := x
  dsimp only at hreads ⊢
  cases hreads with
  | line hparse hnode =>
    exact .line fun sh sh' hsh ↦ agree_readTree_exec hworld hparse hnode hsh
  | interrupted => exact .interrupted
  | eof => exact .eof

/-- The line `f  2>'e'|g&h`, and then the end of the input. -/
theorem shellLoopRounds_accepted_background :
    let rs : List Round :=
      [⟨[], .line "f  2>'e'|g&h".toList fun _ ↦ false⟩, ⟨[⟨7, .continued⟩], .eof⟩]
    ∃ programs : List (List WaitEvent × Program),
      List.Forall₂ (fun r x ↦ r.events = x.1 ∧ r.input.ReadsAs x.2) rs programs ∧
        ∀ s s' : LoopState, s.Alike s' → Agree AlikeLoop
          (shellLoopRounds fileOfFirstChild rs s)
          (sessionRounds (programs.map fun x ↦ (x.1, x.2.entry fileOfFirstChild)) s') := by
  intro rs
  have heval : (parserCreateAst (⟨Lexer.init "f  2>'e'|g&h".toList, .operator tokEof,
      fun _ ↦ false⟩ : ParserState Lexer)).toOption.map (fun r ↦ r.1.elements.length)
        = some 2 := by
    decide +kernel
  have hops : OperandsPresent (TokenSource.stream (Lexer.init "f  2>'e'|g&h".toList)) :=
    ⟨by decide +kernel, by decide +kernel⟩
  have hline : (ReadlineResult.line "f  2>'e'|g&h".toList fun _ ↦ false).Accepted := by
    cases hparse : parserCreateAst (⟨Lexer.init "f  2>'e'|g&h".toList, .operator tokEof,
        fun _ ↦ false⟩ : ParserState Lexer) with
    | error e =>
      rw [hparse] at heval
      cases heval
    | ok r =>
      rw [hparse] at heval
      have hlength : r.1.elements.length = 2 := Option.some_inj.mp heval
      have helements : r.1.elements ≠ [] := fun hnil ↦ by rw [hnil] at hlength; cases hlength
      have hnull : r.1.isNull = false := by
        cases hnode : r.1 with
        | null => exact absurd (by rw [hnode]; rfl) helements
        | _ => rfl
      exact .line hparse helements (complete_parserCreateAst hops hparse hnull)
  refine shellLoopRounds_accepted ignoresTexts_fileOfFirstChild fun r hr ↦ ?_
  rcases List.mem_pair.mp hr with rfl | rfl
  · exact hline
  · exact .eof

end Novash
