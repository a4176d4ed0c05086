import Novash.Memory.Lexer
import Novash.Memory.Trees

/-!
# The memory of the parser

The parser once more, with the blocks that it allocates and frees: the copies of the words, the
arrays and the nodes of the tree, and the tokens that it has read. It does the same as without them,
unless it frees what is not allocated (`tracks_parserCreateAst`); and that it never does: what is
live besides the tokens and the tree is what was live before (`sound_parserCreateAst`).
-/

namespace Novash.Memory

open Foundations TokenType

/-! ## State -/

/-- The lexer, the lookahead `g_tok`, what the memory handed out next contains, and which blocks are
allocated. -/
structure HeapParser where
  lex : Lexer
  gTok : HeapToken
  heap : ℕ → Bool
  mem : Heap

/-- Parsing ends the shell, or frees what is not allocated, if it fails. -/
abbrev Managed (α : Type) := Except (Fault ParseStop) α

namespace HeapParser

def erase (p : HeapParser) : ParserState Lexer := ⟨p.lex, p.gTok.erase, p.heap⟩

/-- What the loops still have to consume. -/
def left (p : HeapParser) : ℕ := p.erase.left

/-- `xmalloc(sizeof(ast_node_t))`: the block, what it holds in its `invalid` field, and the parser
after it. -/
def newNode (p : HeapParser) : ℕ × Bool × HeapParser :=
  (p.mem.malloc.1, p.heap 0, { p with heap := fun n ↦ p.heap (n + 1), mem := p.mem.malloc.2 })

/-- The blocks of the lookahead and these are live, and what was lost of the line. -/
structure Owns (line : CStr) (p : HeapParser) (owned : Multiset ℕ) : Prop where
  reads : NulFree line ∧ p.lex.input = line
  live : Memory.Owns p.lex p.mem (p.gTok.blocks + owned)

variable {line : CStr} {p : HeapParser} {owned owned' : Multiset ℕ}

theorem Owns.congr (h : p.Owns line owned) (heq : owned = owned') : p.Owns line owned' := heq ▸ h

/-- A change of what is allocated. -/
theorem Owns.update (h : p.Owns line owned) {m : Heap}
    (hlive : ∀ frame, p.mem.live = owned + frame → m.live = owned' + frame) :
    HeapParser.Owns line { p with mem := m } owned' := by
  obtain ⟨lost, hlost, hmem⟩ := h.live
  have hnew := hlive (lost + p.gTok.blocks) (hmem.trans (by abel))
  exact ⟨h.reads, lost, hlost, hnew.trans (by abel)⟩

theorem Owns.newNode (h : p.Owns line owned) : p.newNode.2.2.Owns line ({p.newNode.1} + owned) :=
  ⟨h.reads, (h.update (m := p.mem.malloc.2) fun frame hframe ↦ by
    rw [Heap.live_malloc, hframe, add_assoc]
    rfl).live⟩

end HeapParser

section

variable {line : CStr} {p p' : HeapParser} {frame : Multiset ℕ}

def nextToken (p : HeapParser) : Managed HeapParser := do
  let (_, mem) ← orFault (lexerFreeToken p.gTok p.mem)
  match lexerNextToken p.lex mem with
  | none => .error (.other .crash)
  | some (tok, lex, mem) => .ok { p with lex, gTok := tok, mem }

theorem tracks_nextToken (p : HeapParser) :
    Tracks (fun p₀ p' ↦ p'.erase = p₀) (Novash.nextToken p.erase) (nextToken p) := by
  refine Tracks.orFault_bind fun r ↦ ?_
  have hnext : TokenSource.next p.erase.lex
      = (lexerNextToken p.lex r.2).map fun r' ↦ (r'.1.erase, r'.2.1) :=
    (erase_lexerNextToken p.lex r.2).symm
  dsimp only
  rw [Novash.nextToken, hnext]
  cases lexerNextToken p.lex r.2 with
  | none => exact .other _
  | some r' => exact .ok rfl

theorem erase_nextToken (h : nextToken p = .ok p') :
    Novash.nextToken p.erase = .ok p'.erase := by
  obtain ⟨p₀, hp₀, rfl⟩ := (tracks_nextToken p).exists_of_ok h
  exact hp₀

theorem sound_nextToken (h : p.Owns line frame) :
    Sound (fun p' ↦ p'.Owns line frame) (nextToken p) := by
  obtain ⟨lost, hlost, hlive⟩ := h.live
  have hfree : p.mem.live = p.gTok.blocks + (lost + frame) := hlive.trans (by abel)
  refine (Sound.orFault (succeeds_lexerFreeToken hfree)).bind fun r hr ↦ ?_
  dsimp only
  split
  · exact Sound.other _
  · next tok lex mem htok =>
    have howns := owns_lexerNextToken (h.reads.2 ▸ h.reads.1) ⟨lost, hlost, hr.2⟩ htok
    have hmoves := moves_of_lexerNextToken ((erase_lexerNextToken p.lex r.2).symm.trans
      (congrArg (Option.map _) htok))
    exact Sound.ok ⟨⟨h.reads.1, by exact hmoves.1.trans h.reads.2⟩, howns⟩

/-! ## Arguments and redirections -/

/-- `arrpush(argv_parts, duplicate_word_parts(g_tok.parts));` -/
def pushArgument (argvParts : HeapArray HeapWord) (p : HeapParser) :
    HeapArray HeapWord × HeapParser :=
  let dup := duplicateWordParts p.gTok.parts p.mem
  let pushed := argvParts.arrpush dup.1 dup.2
  (pushed.1, { p with mem := pushed.2 })

def parseArguments (argvParts : HeapArray HeapWord) (p : HeapParser) :
    Managed (HeapArray HeapWord × HeapParser) :=
  if _hword : p.gTok.type = tokWord then
    match _hnext : nextToken (pushArgument argvParts p).2 with
    | .error e => .error e
    | .ok p' => parseArguments (pushArgument argvParts p).1 p'
  else .ok (argvParts, p)
termination_by p.left
decreasing_by
  have hword : (pushArgument argvParts p).2.erase.gTok.type ≠ tokEof := by
    change p.gTok.type ≠ tokEof
    rw [_hword]
    decide
  have hnext : Novash.nextToken (pushArgument argvParts p).2.erase = .ok p'.erase :=
    erase_nextToken _hnext
  exact left_nextToken_lt hnext hword

theorem tracks_parseArguments (argvParts : HeapArray HeapWord) (p : HeapParser) :
    Tracks (fun a b ↦ b.1.elems.map HeapWord.erase = argvParts.elems.map HeapWord.erase ++ a.1 ∧
      b.2.erase = a.2) (Novash.parseArguments p.erase)
      (parseArguments argvParts p) := by
  fun_induction parseArguments argvParts p with
  | case1 argvParts p hword e hnext =>
    rw [parseArguments_of_word (by exact hword)]
    exact (tracks_nextToken (pushArgument argvParts p).2).bind_error hnext
  | case2 argvParts p hword p' hnext ih =>
    have hnext₀ : Novash.nextToken (pushArgument argvParts p).2.erase = .ok p'.erase :=
      erase_nextToken hnext
    change Novash.nextToken p.erase = _ at hnext₀
    rw [parseArguments_of_word (by exact hword), hnext₀]
    refine ih.bind_left fun a b hab ↦ .ok ⟨hab.1.trans ?_, hab.2⟩
    rw [pushArgument, HeapArray.elems_arrpush, List.map_append, List.map_singleton,
      erase_duplicateWordParts, List.append_assoc]
    rfl
  | case3 argvParts p hword =>
    rw [Novash.parseArguments, dif_neg (by exact hword)]
    exact .ok ⟨(List.append_nil _).symm, rfl⟩

theorem owns_pushArgument {argvParts : HeapArray HeapWord}
    (h : p.Owns line (argvParts.blocks HeapWord.blocks + frame)) :
    (pushArgument argvParts p).2.Owns line
      ((pushArgument argvParts p).1.blocks HeapWord.blocks + frame) := by
  refine h.update (m := (pushArgument argvParts p).2.mem) fun rest hrest ↦ ?_
  rw [add_assoc]
  refine HeapArray.live_arrpush ((live_duplicateWordParts p.gTok.parts hrest).trans ?_)
  abel

theorem sound_parseArguments (argvParts : HeapArray HeapWord) (p : HeapParser)
    (h : p.Owns line (argvParts.blocks HeapWord.blocks + frame)) :
    Sound (fun b ↦ b.2.Owns line (b.1.blocks HeapWord.blocks + frame))
      (parseArguments argvParts p) := by
  fun_induction parseArguments argvParts p with
  | case1 argvParts p hword e hnext => exact (sound_nextToken (owns_pushArgument h)).of_error hnext
  | case2 argvParts p hword p' hnext ih =>
    exact ih ((sound_nextToken (owns_pushArgument h)).of_ok hnext)
  | case3 => exact Sound.ok h

/-- The optional descriptor number before a redirection operator. -/
def parseFd (p : HeapParser) : Managed (Int32 × HeapParser) :=
  if p.gTok.type = tokFd then do
    let p' ← nextToken p
    return (toInt (strtol p.gTok.erase.rawValue).1, p')
  else .ok (0, p)

/-- The target of a redirection is copied, and the redirection pushed. -/
def pushRedirection (redir : HeapArray HeapRedir) (fd : Int32) (type : RedirectionType)
    (p : HeapParser) : HeapArray HeapRedir × HeapParser :=
  let dup := duplicateWordParts p.gTok.parts p.mem
  let pushed := redir.arrpush { fd, type, targetParts := dup.1 } dup.2
  (pushed.1, { p with mem := pushed.2 })

/-- One round of the loop of `parse_redirection`: `[FD] REDIR_TYPE FILENAME`. -/
def parseOneRedirection (redir : HeapArray HeapRedir) (p : HeapParser) :
    Managed (HeapArray HeapRedir × HeapParser) := do
  let (fd, p) ← parseFd p
  match redirectionOf fd p.gTok.type with
  | none => .error (.other (.exit (.unexpectedToken p.gTok.type)))
  | some (type, fd) =>
    let p ← nextToken p
    if p.gTok.type ≠ tokWord then .error (.other (.exit .expectedFilename))
    else
      let p' ← nextToken (pushRedirection redir fd type p).2
      return ((pushRedirection redir fd type p).1, p')

theorem tracks_parseFd (p : HeapParser) :
    Tracks (fun a b ↦ b.1 = a.1 ∧ b.2.erase = a.2) (Novash.parseFd p.erase) (parseFd p) := by
  rw [Novash.parseFd, parseFd]
  change Tracks _ (if p.gTok.type = tokFd then _ else _) _
  split
  · exact (tracks_nextToken p).bind fun p₀ p' hp ↦ .ok ⟨rfl, hp⟩
  · exact .ok ⟨rfl, rfl⟩

theorem sound_parseFd (h : p.Owns line frame) :
    Sound (fun b ↦ b.2.Owns line frame) (parseFd p) := by
  rw [parseFd]
  split
  · exact (sound_nextToken h).bind fun p' hp' ↦ Sound.ok hp'
  · exact Sound.ok h

/-- The redirections, without the addresses. -/
def eraseRedirs (redir : HeapArray HeapRedir) : List Redirection :=
  redir.elems.map HeapRedir.erase

theorem eraseRedirs_pushRedirection (redir : HeapArray HeapRedir) (fd : Int32)
    (type : RedirectionType) (p : HeapParser) :
    eraseRedirs (pushRedirection redir fd type p).1
      = eraseRedirs redir ++ [{ fd, type, targetParts := p.gTok.erase.parts }] := by
  have hparts := erase_duplicateWordParts p.gTok.parts p.mem
  rw [eraseRedirs, pushRedirection, HeapArray.elems_arrpush, List.map_append, List.map_singleton,
    HeapRedir.erase, hparts]
  rfl

theorem tracks_parseOneRedirection (redir : HeapArray HeapRedir) (p : HeapParser) :
    Tracks (fun a b ↦ eraseRedirs b.1 = eraseRedirs redir ++ [a.1] ∧ b.2.erase = a.2)
      (Novash.parseOneRedirection p.erase) (parseOneRedirection redir p) := by
  refine (tracks_parseFd p).bind ?_
  rintro ⟨fd, _⟩ ⟨_, p₁⟩ ⟨rfl, rfl⟩
  dsimp only
  change Tracks _ (match redirectionOf _ p₁.gTok.type with | none => _ | some (type, fd) => _) _
  split
  · exact .other _
  · next type fd' hop =>
    refine (tracks_nextToken p₁).bind ?_
    rintro _ p₂ rfl
    change Tracks _ (if p₂.gTok.type ≠ tokWord then _ else _) _
    split
    · exact .other _
    · refine (tracks_nextToken (pushRedirection redir fd' type p₂).2).bind ?_
      rintro _ p₃ rfl
      exact .ok ⟨eraseRedirs_pushRedirection redir fd' type p₂, rfl⟩

theorem sound_parseOneRedirection {redir : HeapArray HeapRedir}
    (h : p.Owns line (redir.blocks HeapRedir.blocks + frame)) :
    Sound (fun b ↦ b.2.Owns line (b.1.blocks HeapRedir.blocks + frame))
      (parseOneRedirection redir p) := by
  refine (sound_parseFd h).bind fun r hr ↦ ?_
  dsimp only
  split
  · exact Sound.other _
  · next type fd hop =>
    refine (sound_nextToken hr).bind fun p₂ hp₂ ↦ ?_
    split
    · exact Sound.other _
    · have hpush : (pushRedirection redir fd type p₂).2.Owns line
          ((pushRedirection redir fd type p₂).1.blocks HeapRedir.blocks + frame) := by
        refine hp₂.update (m := (pushRedirection redir fd type p₂).2.mem) fun rest hrest ↦ ?_
        rw [add_assoc]
        refine HeapArray.live_arrpush ((live_duplicateWordParts p₂.gTok.parts hrest).trans ?_)
        rw [HeapRedir.blocks]
        change _ = _ + (_ + 0) + _
        abel
      exact (sound_nextToken hpush).bind fun p₃ hp₃ ↦ Sound.ok hp₃

def parseRedirection (redir : HeapArray HeapRedir) (p : HeapParser) :
    Managed (HeapArray HeapRedir × HeapParser) :=
  if startsRedirection p.gTok.type then
    match _hone : parseOneRedirection redir p with
    | .error e => .error e
    | .ok (redir', p') => parseRedirection redir' p'
  else .ok (redir, p)
termination_by p.left
decreasing_by
  obtain ⟨⟨r, p₀⟩, hone, -, hp₀⟩ := (tracks_parseOneRedirection redir p).exists_of_ok _hone
  have hlt := left_parseOneRedirection_lt hone
  dsimp only at hp₀
  rwa [← hp₀] at hlt

theorem tracks_parseRedirection (redir : HeapArray HeapRedir) (p : HeapParser) :
    Tracks (fun a b ↦ eraseRedirs b.1 = eraseRedirs redir ++ a.1 ∧ b.2.erase = a.2)
      (Novash.parseRedirection p.erase) (parseRedirection redir p) := by
  fun_induction parseRedirection redir p with
  | case1 redir p hstart e hone =>
    rw [parseRedirection_of_starts (by exact hstart)]
    exact (tracks_parseOneRedirection redir p).bind_error hone
  | case2 redir p hstart redir' p' hone ih =>
    obtain ⟨⟨r, _⟩, hone₀, herase, rfl⟩ := (tracks_parseOneRedirection redir p).exists_of_ok hone
    rw [parseRedirection_of_starts (by exact hstart), hone₀]
    refine ih.bind_left fun a b hab ↦ .ok ⟨hab.1.trans ?_, hab.2⟩
    rw [herase, List.append_assoc]
    rfl
  | case3 redir p hstart =>
    rw [Novash.parseRedirection, if_neg (by exact hstart)]
    exact .ok ⟨(List.append_nil _).symm, rfl⟩

theorem sound_parseRedirection (redir : HeapArray HeapRedir) (p : HeapParser)
    (h : p.Owns line (redir.blocks HeapRedir.blocks + frame)) :
    Sound (fun b ↦ b.2.Owns line (b.1.blocks HeapRedir.blocks + frame))
      (parseRedirection redir p) := by
  fun_induction parseRedirection redir p with
  | case1 redir p hstart e hone => exact (sound_parseOneRedirection h).of_error hone
  | case2 redir p hstart redir' p' hone ih =>
    exact ih ((sound_parseOneRedirection h).of_ok hone)
  | case3 => exact Sound.ok h

/-! ## Commands -/

/-- The end of `parse_command`: the text of the command, and its node. -/
def newCommand (start : ℕ) (argvParts : HeapArray HeapWord) (redir : HeapArray HeapRedir)
    (p : HeapParser) : HeapAst × HeapParser :=
  let (rawStr, mem) := newStr ((p.lex.input.drop start).take (p.lex.pos - start)) p.mem
  let (addr, invalid, p) := HeapParser.newNode { p with mem }
  (.cmd addr { argvParts, redir, rawStr, isBg := p.gTok.type = tokBg } invalid, p)

def parseCommand (p : HeapParser) : Managed (HeapAst × HeapParser) :=
  if p.gTok.type ≠ tokWord then .ok (.null, p)
  else do
    let start := p.lex.pos
    let (argvParts, p) ← parseArguments .empty p
    let (redir, p) ← parseRedirection .empty p
    return newCommand start argvParts redir p

theorem erase_newCommand (start : ℕ) (argvParts : HeapArray HeapWord)
    (redir : HeapArray HeapRedir) (p : HeapParser) :
    (newCommand start argvParts redir p).1.erase
      = .cmd { argvParts := argvParts.elems.map HeapWord.erase, redir := eraseRedirs redir
               rawStr := (p.lex.input.drop start).take (p.lex.pos - start)
               isBg := p.gTok.type = tokBg } (p.heap 0) := by
  rw [newCommand, HeapAst.erase]
  rfl

theorem tracks_parseCommand (p : HeapParser) :
    Tracks (fun a b ↦ b.1.erase = a.1 ∧ b.2.erase = a.2) (Novash.parseCommand p.erase)
      (parseCommand p) := by
  rw [Novash.parseCommand, parseCommand]
  change Tracks _ (if p.gTok.type ≠ tokWord then _ else _) _
  split
  · exact .ok ⟨by rw [HeapAst.erase], rfl⟩
  · refine (tracks_parseArguments .empty p).bind ?_
    rintro ⟨ws, _⟩ ⟨argvParts, p₁⟩ ⟨hargs, rfl⟩
    refine (tracks_parseRedirection .empty p₁).bind ?_
    rintro ⟨rs, _⟩ ⟨redir, p₂⟩ ⟨hredir, rfl⟩
    refine .ok ⟨?_, rfl⟩
    rw [erase_newCommand, hargs, hredir]
    rfl

theorem sound_parseCommand (h : p.Owns line frame) :
    Sound (fun b ↦ b.2.Owns line (b.1.blocks + frame)) (parseCommand p) := by
  rw [parseCommand]
  split
  · exact Sound.ok (h.congr (by rw [HeapAst.blocks, zero_add]))
  · have hargs : p.Owns line (HeapArray.blocks HeapWord.blocks .empty + frame) :=
      h.congr (zero_add _).symm
    refine (sound_parseArguments .empty p hargs).bind fun r hr ↦ ?_
    have hredir : r.2.Owns line (HeapArray.blocks HeapRedir.blocks .empty
        + (r.1.blocks HeapWord.blocks + frame)) := hr.congr (zero_add _).symm
    refine (sound_parseRedirection .empty r.2 hredir).bind fun r' hr' ↦ Sound.ok ?_
    have hraw : HeapParser.Owns line { r'.2 with mem := r'.2.mem.malloc.2 }
        ({r'.2.mem.malloc.1} + (r'.1.blocks HeapRedir.blocks
          + (r.1.blocks HeapWord.blocks + frame))) :=
      hr'.update fun rest hrest ↦ by
        rw [Heap.live_malloc, hrest]
        abel
    refine hraw.newNode.congr ?_
    rw [newCommand, HeapAst.blocks, HeapCmd.blocks]
    have hargv : HeapArray.blocks (fun s : HeapStr ↦ ({s.addr} : Multiset ℕ)) .empty = 0 := rfl
    dsimp only [newStr, HeapParser.newNode]
    rw [hargv]
    abel

/-! ## Pipelines -/

/-- `arrpush(nodes, node);` -/
def pushNode (nodes : HeapArray HeapAst) (node : HeapAst) (p : HeapParser) :
    HeapArray HeapAst × HeapParser :=
  let pushed := nodes.arrpush node p.mem
  (pushed.1, { p with mem := pushed.2 })

/-- The nodes, without the addresses. -/
def eraseNodes (nodes : HeapArray HeapAst) : List Ast := nodes.elems.map HeapAst.erase

theorem eraseNodes_pushNode (nodes : HeapArray HeapAst) (node : HeapAst) (p : HeapParser) :
    eraseNodes (pushNode nodes node p).1 = eraseNodes nodes ++ [node.erase] := by
  rw [eraseNodes, pushNode, HeapArray.elems_arrpush, List.map_append]
  rfl

theorem owns_pushNode {nodes : HeapArray HeapAst} {node : HeapAst}
    (h : p.Owns line (node.blocks + (nodes.blocks HeapAst.blocks + frame))) :
    (pushNode nodes node p).2.Owns line
      ((pushNode nodes node p).1.blocks HeapAst.blocks + frame) := by
  refine h.update (m := (pushNode nodes node p).2.mem) fun rest hrest ↦ ?_
  rw [add_assoc]
  refine HeapArray.live_arrpush (hrest.trans ?_)
  abel

/-- The loop of `parse_pipeline`. Without a command behind a `|` the tree is freed before the shell
exits. -/
def pipelineLoop (addr : ℕ) (invalid : Bool) (nodes : HeapArray HeapAst) (p : HeapParser) :
    Managed (HeapArray HeapAst × HeapParser) :=
  if _hpipe : p.gTok.type = tokPipe then
    match _hnext : nextToken p with
    | .error e => .error e
    | .ok p₁ =>
      match _hcmd : parseCommand p₁ with
      | .error e => .error e
      | .ok (nextCommand, p₂) =>
        if nextCommand.erase.isNull then do
          let _ ← orFault (parserFreeAst (.pipeline addr nodes.addr nodes.elems invalid) p₂.mem)
          .error (.other (.exit .expectedCommand))
        else
          pipelineLoop addr invalid (pushNode nodes nextCommand p₂).1
            (pushNode nodes nextCommand p₂).2
  else .ok (nodes, p)
termination_by p.left
decreasing_by
  obtain ⟨⟨cmd, p₀⟩, hcmd, -, hp₀⟩ := (tracks_parseCommand p₁).exists_of_ok _hcmd
  have hpipe : p.erase.gTok.type ≠ tokEof := by
    change p.gTok.type ≠ tokEof
    rw [_hpipe]
    decide
  have hlt := (left_parseCommand hcmd).1.trans_lt (left_nextToken_lt (erase_nextToken _hnext) hpipe)
  dsimp only at hp₀
  rwa [← hp₀] at hlt

theorem tracks_pipelineLoop (addr : ℕ) (invalid : Bool) (nodes : HeapArray HeapAst)
    (p : HeapParser) :
    Tracks (fun a b ↦ eraseNodes b.1 = eraseNodes nodes ++ a.1 ∧ b.2.erase = a.2)
      (Novash.pipelineLoop p.erase) (pipelineLoop addr invalid nodes p) := by
  fun_induction pipelineLoop addr invalid nodes p with
  | case1 nodes p hpipe e hnext =>
    rw [pipelineLoop_of_pipe (by exact hpipe)]
    exact (tracks_nextToken p).bind_error hnext
  | case2 nodes p hpipe p₁ hnext e hcmd =>
    rw [pipelineLoop_of_pipe (by exact hpipe), erase_nextToken hnext]
    exact (tracks_parseCommand p₁).bind_error hcmd
  | case3 nodes p hpipe p₁ hnext nextCommand p₂ hcmd hnull =>
    obtain ⟨⟨_, _⟩, hcmd₀, rfl, rfl⟩ := (tracks_parseCommand p₁).exists_of_ok hcmd
    rw [pipelineLoop_of_pipe (by exact hpipe), erase_nextToken hnext]
    refine Tracks.orFault_bind fun m ↦ ?_
    simp only [bind, Except.bind, hcmd₀, if_pos hnull]
    exact .other _
  | case4 nodes p hpipe p₁ hnext nextCommand p₂ hcmd hnull ih =>
    obtain ⟨⟨_, _⟩, hcmd₀, rfl, rfl⟩ := (tracks_parseCommand p₁).exists_of_ok hcmd
    rw [pipelineLoop_of_pipe (by exact hpipe), erase_nextToken hnext]
    simp only [bind, Except.bind, hcmd₀, if_neg hnull]
    refine Tracks.bind_left ih fun a b hab ↦ .ok ⟨hab.1.trans ?_, hab.2⟩
    rw [eraseNodes_pushNode, List.append_assoc]
    rfl
  | case5 nodes p hpipe =>
    rw [Novash.pipelineLoop, dif_neg (by exact hpipe)]
    exact .ok ⟨(List.append_nil _).symm, rfl⟩

/-- What the loop owns: the commands so far, and the node that they are for. -/
theorem sound_pipelineLoop (addr : ℕ) (invalid : Bool) (nodes : HeapArray HeapAst) (p : HeapParser)
    (h : p.Owns line (nodes.blocks HeapAst.blocks + ({addr} + frame))) :
    Sound (fun b ↦ b.2.Owns line (b.1.blocks HeapAst.blocks + ({addr} + frame)))
      (pipelineLoop addr invalid nodes p) := by
  fun_induction pipelineLoop addr invalid nodes p with
  | case1 nodes p hpipe e hnext => exact (sound_nextToken h).of_error hnext
  | case2 nodes p hpipe p₁ hnext e hcmd =>
    exact (sound_parseCommand ((sound_nextToken h).of_ok hnext)).of_error hcmd
  | case3 nodes p hpipe p₁ hnext nextCommand p₂ hcmd hnull =>
    obtain ⟨lost, -, hlive⟩ :=
      ((sound_parseCommand ((sound_nextToken h).of_ok hnext)).of_ok hcmd).live
    have htree : p₂.mem.live
        = (HeapAst.pipeline addr nodes.addr nodes.elems invalid).blocks
          + (lost + p₂.gTok.blocks + frame) := by
      rw [hlive, HeapAst.blocks_of_isNull hnull, HeapAst.blocks, HeapAst.blocksList_eq_sum,
        HeapArray.blocks]
      abel
    exact (Sound.orFault (succeeds_parserFreeAst _ htree)).bind fun m hm ↦ Sound.other _
  | case4 nodes p hpipe p₁ hnext nextCommand p₂ hcmd hnull ih =>
    exact ih (owns_pushNode ((sound_parseCommand ((sound_nextToken h).of_ok hnext)).of_ok hcmd))
  | case5 => exact Sound.ok h

/-- The node is allocated before it is known whether there is a pipeline, and freed if there is
none. -/
def parsePipeline (p : HeapParser) : Managed (HeapAst × HeapParser) := do
  let (firstCommand, p) ← parseCommand p
  let (addr, invalid, p) := p.newNode
  let first := pushNode .empty firstCommand p
  let (nodes, p) ← pipelineLoop addr invalid first.1 first.2
  match nodes.elems with
  | [singleCmd] =>
    let mem ← orFault (freePtr nodes.addr p.mem)
    let mem ← orFault (mem.free addr)
    return (singleCmd, { p with mem })
  | _ => return (.pipeline addr nodes.addr nodes.elems invalid, p)

theorem tracks_parsePipeline (p : HeapParser) :
    Tracks (fun a b ↦ b.1.erase = a.1 ∧ b.2.erase = a.2) (Novash.parsePipeline p.erase)
      (parsePipeline p) := by
  refine (tracks_parseCommand p).bind ?_
  rintro ⟨_, _⟩ ⟨firstCommand, p₁⟩ ⟨rfl, rfl⟩
  refine (tracks_pipelineLoop p₁.newNode.1 p₁.newNode.2.1
    (pushNode .empty firstCommand p₁.newNode.2.2).1
    (pushNode .empty firstCommand p₁.newNode.2.2).2).bind ?_
  rintro ⟨rest, _⟩ ⟨nodes, p₂⟩ ⟨hnodes, rfl⟩
  rw [eraseNodes_pushNode] at hnodes
  change nodes.elems.map HeapAst.erase = firstCommand.erase :: rest at hnodes
  dsimp only
  split
  · next hrest =>
    rw [hrest] at hnodes
    obtain ⟨singleCmd, helems, herase⟩ := List.map_eq_singleton_iff.mp hnodes
    rw [helems]
    exact Tracks.orFault_bind fun m ↦ Tracks.orFault_bind fun m' ↦ .ok ⟨herase, rfl⟩
  · next hrest =>
    split
    · next singleCmd hsingle =>
      rw [hsingle] at hnodes
      exact absurd (List.cons.inj hnodes).2.symm hrest
    · refine .ok ⟨?_, rfl⟩
      rw [HeapAst.erase, HeapAst.eraseList_eq_map, hnodes]
      rfl

theorem sound_parsePipeline (h : p.Owns line frame) :
    Sound (fun b ↦ b.2.Owns line (b.1.blocks + frame)) (parsePipeline p) := by
  refine (sound_parseCommand h).bind fun r hr ↦ ?_
  have hfirst : (pushNode .empty r.1 r.2.newNode.2.2).2.Owns line
      ((pushNode .empty r.1 r.2.newNode.2.2).1.blocks HeapAst.blocks
        + ({r.2.newNode.1} + frame)) := by
    refine owns_pushNode (hr.newNode.congr ?_)
    change _ = r.1.blocks + (0 + ({r.2.newNode.1} + frame))
    abel
  refine (sound_pipelineLoop _ _ _ _ hfirst).bind fun r' hr' ↦ ?_
  dsimp only
  split
  · next singleCmd hsingle =>
    obtain ⟨lost, hlost, hlive⟩ := hr'.live
    have harray : r'.2.mem.live = pointee r'.1.addr
        + ({r.2.newNode.1} + (lost + (r'.2.gTok.blocks + (singleCmd.blocks + frame)))) := by
      rw [hlive, HeapArray.blocks, hsingle, List.map_singleton, List.sum_singleton]
      abel
    refine (Sound.orFault (succeeds_freePtr harray)).bind fun m hm ↦ ?_
    refine (Sound.orFault (succeeds_free hm)).bind fun m' hm' ↦ ?_
    exact Sound.ok ⟨hr'.reads, lost, hlost, hm'⟩
  · refine Sound.ok (hr'.congr ?_)
    rw [HeapAst.blocks, HeapAst.blocksList_eq_sum, HeapArray.blocks]
    change _ = _ + _ + {r.2.newNode.1} + frame
    abel

/-! ## Conditionals and sequences -/

def conditionalLoop (left : HeapAst) (p : HeapParser) : Managed (HeapAst × HeapParser) :=
  match _hop : condOpOf p.gTok.type with
  | none => .ok (left, p)
  | some op =>
    match _hnext : nextToken p with
    | .error e => .error e
    | .ok p₁ =>
      match _hright : parsePipeline p₁ with
      | .error e => .error e
      | .ok (right, p₂) =>
        conditionalLoop (.conditional p₂.newNode.1 left right op p₂.newNode.2.1) p₂.newNode.2.2
termination_by p.left
decreasing_by
  obtain ⟨⟨node, p₀⟩, hright, -, hp₀⟩ := (tracks_parsePipeline p₁).exists_of_ok _hright
  have hlt := (left_parsePipeline hright).1.trans_lt
    (left_nextToken_lt (erase_nextToken _hnext) (ne_tokEof_of_condOpOf _hop))
  dsimp only at hp₀
  rwa [← hp₀] at hlt

theorem tracks_conditionalLoop (left : HeapAst) (p : HeapParser) :
    Tracks (fun a b ↦ b.1.erase = a.1 ∧ b.2.erase = a.2)
      (Novash.conditionalLoop left.erase p.erase) (conditionalLoop left p) := by
  fun_induction conditionalLoop left p with
  | case1 left p hop =>
    rw [conditionalLoop_of_none (by exact hop)]
    exact .ok ⟨rfl, rfl⟩
  | case2 left p op hop e hnext =>
    rw [conditionalLoop_of_op (by exact hop)]
    exact (tracks_nextToken p).bind_error hnext
  | case3 left p op hop p₁ hnext e hright =>
    rw [conditionalLoop_of_op (by exact hop), erase_nextToken hnext]
    exact (tracks_parsePipeline p₁).bind_error hright
  | case4 left p op hop p₁ hnext right p₂ hright ih =>
    obtain ⟨⟨_, _⟩, hright₀, rfl, rfl⟩ := (tracks_parsePipeline p₁).exists_of_ok hright
    rw [conditionalLoop_of_op (by exact hop), erase_nextToken hnext]
    simp only [bind, Except.bind, hright₀]
    rwa [HeapAst.erase] at ih

theorem sound_conditionalLoop (left : HeapAst) (p : HeapParser)
    (h : p.Owns line (left.blocks + frame)) :
    Sound (fun b ↦ b.2.Owns line (b.1.blocks + frame)) (conditionalLoop left p) := by
  fun_induction conditionalLoop left p with
  | case1 => exact Sound.ok h
  | case2 left p op hop e hnext => exact (sound_nextToken h).of_error hnext
  | case3 left p op hop p₁ hnext e hright =>
    exact (sound_parsePipeline ((sound_nextToken h).of_ok hnext)).of_error hright
  | case4 left p op hop p₁ hnext right p₂ hright ih =>
    have hp₂ := (sound_parsePipeline ((sound_nextToken h).of_ok hnext)).of_ok hright
    refine ih (hp₂.newNode.congr ?_)
    rw [HeapAst.blocks]
    abel

def parseConditional (p : HeapParser) : Managed (HeapAst × HeapParser) := do
  let (left, p) ← parsePipeline p
  conditionalLoop left p

theorem tracks_parseConditional (p : HeapParser) :
    Tracks (fun a b ↦ b.1.erase = a.1 ∧ b.2.erase = a.2) (Novash.parseConditional p.erase)
      (parseConditional p) := by
  refine (tracks_parsePipeline p).bind ?_
  rintro ⟨_, _⟩ ⟨left, p₁⟩ ⟨rfl, rfl⟩
  exact tracks_conditionalLoop left p₁

theorem sound_parseConditional (h : p.Owns line frame) :
    Sound (fun b ↦ b.2.Owns line (b.1.blocks + frame)) (parseConditional p) :=
  (sound_parsePipeline h).bind fun r hr ↦ sound_conditionalLoop r.1 r.2 hr

/-- Any number of `;` and `&` after an element. -/
def skipSeparators (p : HeapParser) : Managed HeapParser :=
  if _hsep : isSeparator p.gTok.type then
    match _hnext : nextToken p with
    | .error e => .error e
    | .ok p' => skipSeparators p'
  else .ok p
termination_by p.left
decreasing_by exact left_nextToken_lt (erase_nextToken _hnext) (ne_tokEof_of_isSeparator _hsep)

theorem tracks_skipSeparators (p : HeapParser) :
    Tracks (fun a b ↦ b.erase = a) (Novash.skipSeparators p.erase) (skipSeparators p) := by
  fun_induction skipSeparators p with
  | case1 p hsep e hnext =>
    have hfail := tracks_nextToken p
    rw [hnext] at hfail
    rw [Novash.skipSeparators, dif_pos (by exact hsep)]
    split
    · next herr =>
      rw [herr] at hfail
      cases hfail with
      | invalidFree => exact .invalidFree _
      | other => exact .other _
    · next hok =>
      rw [hok] at hfail
      cases hfail with
      | invalidFree => exact .invalidFree _
  | case2 p hsep p' hnext ih =>
    rwa [skipSeparators_of_separator (by exact hsep) (erase_nextToken hnext)]
  | case3 p hsep =>
    rw [skipSeparators_of_not (by exact Bool.eq_false_iff.mpr hsep)]
    exact .ok rfl

theorem sound_skipSeparators (p : HeapParser) (h : p.Owns line frame) :
    Sound (fun p' ↦ p'.Owns line frame) (skipSeparators p) := by
  fun_induction skipSeparators p with
  | case1 p hsep e hnext => exact (sound_nextToken h).of_error hnext
  | case2 p hsep p' hnext ih => exact ih ((sound_nextToken h).of_ok hnext)
  | case3 => exact Sound.ok h

/-- The `do … while (g_tok.type != TOK_EOF)` loop, left early when an element is `NULL`. -/
def sequenceLoop (nodes : HeapArray HeapAst) (p : HeapParser) :
    Managed (HeapArray HeapAst × HeapParser) :=
  match _hnext : parseConditional p with
  | .error e => .error e
  | .ok (nextCommand, p₁) =>
    if _hnull : nextCommand.erase.isNull then .ok (nodes, p₁)
    else
      match _hsep : skipSeparators (pushNode nodes nextCommand p₁).2 with
      | .error e => .error e
      | .ok p₂ =>
        if p₂.gTok.type = tokEof then .ok ((pushNode nodes nextCommand p₁).1, p₂)
        else sequenceLoop (pushNode nodes nextCommand p₁).1 p₂
termination_by p.left
decreasing_by
  obtain ⟨⟨node, p₀⟩, hnext, hnode, hp₀⟩ := (tracks_parseConditional p).exists_of_ok _hnext
  obtain ⟨_, hsep, rfl⟩ := (tracks_skipSeparators _).exists_of_ok _hsep
  dsimp only at hnode hp₀
  subst hnode hp₀
  exact (left_skipSeparators_le hsep).trans_lt
    ((left_parseConditional hnext).2 (by simpa using _hnull))

/-- One turn of the loop, and then the others. -/
theorem sequenceLoop_eq (p : ParserState Lexer) :
    Novash.sequenceLoop p = (do
      let (nextCommand, p₁) ← Novash.parseConditional p
      if nextCommand.isNull then .ok ([], p₁)
      else
        let p₂ ← Novash.skipSeparators p₁
        if p₂.gTok.type = tokEof then .ok ([nextCommand], p₂)
        else
          let (nodes, p₃) ← Novash.sequenceLoop p₂
          return (nextCommand :: nodes, p₃)) := by
  conv_lhs => rw [Novash.sequenceLoop]
  split
  · next hnext =>
    rw [hnext]
    rfl
  next nextCommand p₁ hnext =>
  rw [hnext]
  change _ = if nextCommand.isNull then _ else _
  by_cases hnull : nextCommand.isNull
  · rw [dif_pos hnull, if_pos hnull]
  rw [dif_neg hnull, if_neg hnull]
  split
  all_goals
    next hsep =>
    rw [hsep]
    rfl

theorem tracks_sequenceLoop (nodes : HeapArray HeapAst) (p : HeapParser) :
    Tracks (fun a b ↦ eraseNodes b.1 = eraseNodes nodes ++ a.1 ∧ b.2.erase = a.2)
      (Novash.sequenceLoop p.erase) (sequenceLoop nodes p) := by
  fun_induction sequenceLoop nodes p with
  | case1 nodes p e hnext =>
    rw [sequenceLoop_eq]
    exact (tracks_parseConditional p).bind_error hnext
  | case2 nodes p nextCommand p₁ hnext hnull =>
    obtain ⟨⟨_, _⟩, hnext₀, rfl, rfl⟩ := (tracks_parseConditional p).exists_of_ok hnext
    rw [sequenceLoop_of_isNull hnext₀ hnull]
    exact .ok ⟨(List.append_nil _).symm, rfl⟩
  | case3 nodes p nextCommand p₁ hnext hnull e hsep =>
    obtain ⟨⟨_, _⟩, hnext₀, rfl, rfl⟩ := (tracks_parseConditional p).exists_of_ok hnext
    rw [sequenceLoop_eq, hnext₀]
    change Tracks _ (if nextCommand.erase.isNull then _ else _) _
    rw [if_neg hnull]
    exact (tracks_skipSeparators (pushNode nodes nextCommand p₁).2).bind_error hsep
  | case4 nodes p nextCommand p₁ hnext hnull p₂ hsep heof =>
    obtain ⟨⟨_, _⟩, hnext₀, rfl, rfl⟩ := (tracks_parseConditional p).exists_of_ok hnext
    obtain ⟨_, hsep₀, rfl⟩ := (tracks_skipSeparators _).exists_of_ok hsep
    rw [sequenceLoop_element hnext₀ (Bool.eq_false_iff.mpr hnull) hsep₀, if_pos (by exact heof)]
    exact .ok ⟨eraseNodes_pushNode nodes nextCommand p₁, rfl⟩
  | case5 nodes p nextCommand p₁ hnext hnull p₂ hsep heof ih =>
    obtain ⟨⟨_, _⟩, hnext₀, rfl, rfl⟩ := (tracks_parseConditional p).exists_of_ok hnext
    obtain ⟨_, hsep₀, rfl⟩ := (tracks_skipSeparators _).exists_of_ok hsep
    change Novash.skipSeparators p₁.erase = _ at hsep₀
    rw [sequenceLoop_eq, hnext₀]
    change Tracks _ (if nextCommand.erase.isNull then _ else _) _
    rw [if_neg hnull, hsep₀]
    change Tracks _ (if p₂.gTok.type = tokEof then _ else _) _
    rw [if_neg heof]
    refine ih.bind_left fun a b hab ↦ .ok ⟨hab.1.trans ?_, hab.2⟩
    rw [eraseNodes_pushNode, List.append_assoc]
    rfl

theorem sound_sequenceLoop (nodes : HeapArray HeapAst) (p : HeapParser)
    (h : p.Owns line (nodes.blocks HeapAst.blocks + frame)) :
    Sound (fun b ↦ b.2.Owns line (b.1.blocks HeapAst.blocks + frame)) (sequenceLoop nodes p) := by
  fun_induction sequenceLoop nodes p with
  | case1 nodes p e hnext => exact (sound_parseConditional h).of_error hnext
  | case2 nodes p nextCommand p₁ hnext hnull =>
    have hp₁ := (sound_parseConditional h).of_ok hnext
    refine Sound.ok (hp₁.congr ?_)
    rw [HeapAst.blocks_of_isNull hnull, zero_add]
  | case3 nodes p nextCommand p₁ hnext hnull e hsep =>
    have hp₁ := owns_pushNode ((sound_parseConditional h).of_ok hnext)
    exact (sound_skipSeparators _ hp₁).of_error hsep
  | case4 nodes p nextCommand p₁ hnext hnull p₂ hsep heof =>
    have hp₁ := owns_pushNode ((sound_parseConditional h).of_ok hnext)
    exact Sound.ok ((sound_skipSeparators _ hp₁).of_ok hsep)
  | case5 nodes p nextCommand p₁ hnext hnull p₂ hsep heof ih =>
    have hp₁ := owns_pushNode ((sound_parseConditional h).of_ok hnext)
    exact ih ((sound_skipSeparators _ hp₁).of_ok hsep)

/-! ## Lines -/

/-- The last token is freed when the tree is complete, so that `g_tok` owns nothing then. -/
def parserCreateAst (p : HeapParser) : Managed (HeapAst × HeapParser) := do
  let p ← nextToken p
  if p.gTok.type = tokEof then return (.null, p)
  else
    let (addr, invalid, p) := p.newNode
    let (nodes, p) ← sequenceLoop .empty p
    let (gTok, mem) ← orFault (lexerFreeToken p.gTok p.mem)
    return (.sequence addr nodes.addr nodes.elems invalid, { p with gTok, mem })

theorem tracks_parserCreateAst (p : HeapParser) :
    Tracks (fun a b ↦ b.1.erase = a.1 ∧ b.2.lex = a.2.lex) (Novash.parserCreateAst p.erase)
      (parserCreateAst p) := by
  refine (tracks_nextToken p).bind ?_
  rintro _ p₁ rfl
  change Tracks _ (if p₁.gTok.type = tokEof then _ else _) _
  split
  · exact .ok ⟨by rw [HeapAst.erase], rfl⟩
  · refine (tracks_sequenceLoop .empty p₁.newNode.2.2).bind ?_
    rintro ⟨rest, _⟩ ⟨nodes, p₂⟩ ⟨hnodes, rfl⟩
    refine Tracks.orFault_bind fun r ↦ .ok ⟨?_, rfl⟩
    rw [HeapAst.erase, HeapAst.eraseList_eq_map]
    change Ast.sequence (eraseNodes nodes) _ = _
    rw [hnodes]
    rfl

theorem blocks_of_nextToken (h : nextToken p = .ok p') (heof : p'.gTok.type = tokEof) :
    p'.gTok.blocks = 0 := by
  obtain ⟨r, -, h⟩ := bind_ok.mp h
  dsimp only at h
  split at h
  · cases h
  · next tok lex mem htok =>
    cases h
    exact blocks_of_eof htok heof

/-- Besides the tree, what is live is what was live before, and what the lexer has lost. -/
theorem sound_parserCreateAst (h : p.Owns line frame) :
    Sound (fun b ↦ b.2.Owns line (b.1.blocks + frame) ∧ b.2.gTok.blocks = 0)
      (parserCreateAst p) := by
  cases hnext : nextToken p with
  | error e =>
    rw [parserCreateAst, hnext]
    exact (sound_nextToken h).of_error hnext
  | ok p₁ =>
    have hp₁ := (sound_nextToken h).of_ok hnext
    rw [parserCreateAst, hnext]
    change Sound _ (if p₁.gTok.type = tokEof then _ else _)
    split
    · next heof =>
      exact Sound.ok ⟨hp₁.congr (by rw [HeapAst.blocks, zero_add]), blocks_of_nextToken hnext heof⟩
    · have hroot : p₁.newNode.2.2.Owns line
          (HeapArray.blocks HeapAst.blocks .empty + ({p₁.newNode.1} + frame)) :=
        hp₁.newNode.congr (zero_add _).symm
      refine (sound_sequenceLoop .empty _ hroot).bind fun r hr ↦ ?_
      obtain ⟨lost, hlost, hlive⟩ := hr.live
      have hfree : r.2.mem.live = r.2.gTok.blocks
          + (lost + (r.1.blocks HeapAst.blocks + ({p₁.newNode.1} + frame))) := by
        rw [hlive]
        abel
      refine (Sound.orFault (succeeds_lexerFreeToken hfree)).bind fun r' hr' ↦ Sound.ok ?_
      refine ⟨⟨hr.reads, lost, hlost, ?_⟩, hr'.1⟩
      change r'.2.live = lost + (r'.1.blocks
        + ((HeapAst.sequence p₁.newNode.1 r.1.addr r.1.elems p₁.newNode.2.1).blocks + frame))
      rw [hr'.1, hr'.2, HeapAst.blocks, HeapAst.blocksList_eq_sum, HeapArray.blocks]
      abel

end

end Novash.Memory
