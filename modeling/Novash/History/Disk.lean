import Novash.History.Record

/-!
# The history and its file

A new session starts from what it finds in `HISTFILE`, and the history of a session and its file are
meant to agree: each command is appended to both, and the file is cut down to the ring only when the
ring is full, "otherwise it's already aligned". `Agrees` says what this means for the next session.

They agree as long as two things do not happen (`KeepsDisk`). `history -c` empties the history and
not the file, so that the commands are back in the next session. And a command that is appended to
an incomplete last line is not found there by `history_load`, unless that line had nothing in it
that could be taken for a command.
-/

namespace Novash

open Foundations

/-! ## Texts -/

/-- The commands in the history, oldest first. -/
def History.commands (hist : History) : Except HistoryFault (List CStr) :=
  (List.range hist.cmdCount).mapM fun i ↦ hist.command (hist.index i)

theorem History.commands_eq {hist : History} {l : List HistEntry}
    (h : hist.ring.Holds histSize l) : hist.commands = .ok (l.map Prod.fst) := by
  have hmap : (l.mapIdx fun _ e ↦ e.1) = l.map Prod.fst := List.ext_getElem (by simp) (by simp)
  rw [← hmap]
  exact mapM_entry h fun i e he ↦ command_of_entry he

/-- What is in the history is what a new session would load. -/
def Agrees (s : HistoryState) : Prop :=
  ∀ stale, ∃ s', runHistory [.init, .load stale] { file := s.file } = .ok s' ∧
    s'.hist.commands = s.hist.commands

/-- A command of a length that leaves room for its time on one line. -/
structure ShortCommand (cmd : CStr) : Prop extends OneLine cmd where
  short : cmd.length < 1000

theorem ShortCommand.length_encodeEntry {cmd : CStr} (h : ShortCommand cmd) (ts : Int64) :
    (encodeEntry ts cmd).length < lineSize := by
  have hts : (showInt ts.toInt).length ≤ 20 := length_showInt_le
  have hcmd := h.short
  simp only [encodeEntry, List.length_append, List.length_cons, List.length_nil, lineSize]
  omega

/-- The last line of the file is complete, or the new line can be read together with what there is
of it: no `;` comes before that of the new line, no NUL, and the buffer is large enough. -/
def TakesLine (file record : List Char) : Prop :=
  ∃ pre rest, file = pre ++ rest ∧ EndsLine pre ∧ '\n' ∉ rest ∧ ';' ∉ rest ∧ NulFree rest ∧
    (rest ++ record).length < lineSize

theorem TakesLine.of_endsLine {file record : List Char} (h : EndsLine file)
    (hlen : record.length < lineSize) : TakesLine file record :=
  ⟨file, [], (List.append_nil _).symm, h, by simp, by simp, by simp, hlen⟩

namespace HistLog

/-- The texts of the entries of a file. -/
def texts (file : List Char) : List CStr := (decodeFile [] file).map Prod.fst

theorem map_fst_decodeFile (stale file : List Char) :
    (decodeFile stale file).map Prod.fst = texts file := by
  rw [texts, decodeFile, decodeFile, List.map_filterMap, List.map_filterMap]
  exact congrArg (List.filterMap · _) (funext fun line ↦ decodeLine_map_fst stale [] line)

theorem texts_append {pre : List Char} (h : EndsLine pre) (post : List Char) :
    texts (pre ++ post) = texts pre ++ texts post := by
  rw [texts, decodeFile_append h, List.map_append]
  rfl

theorem texts_encodeEntry {cmd : CStr} (h : ShortCommand cmd) (ts : Int64) :
    texts (encodeEntry ts cmd) = [cmd] := by
  rw [texts, decodeFile_encodeEntry h.toOneLine (h.length_encodeEntry ts)]
  rfl

/-- An incomplete line without a `;` has no command. -/
theorem texts_rest {rest : List Char} (hnewline : '\n' ∉ rest) (hsemi : ';' ∉ rest)
    (hlen : rest.length + 1 < lineSize) : texts rest = [] := by
  -- a rest without a newline is one line, and `fgets` is not out of room in it
  have hlines : ∀ (s line : List Char), '\n' ∉ s → line.length + s.length + 1 < lineSize →
      fgetsLines line s = if line ++ s = [] then [] else [line ++ s] := by
    intro s
    induction s with
    | nil => intro line _ _; rw [fgetsLines, List.append_nil]
    | cons c s ih =>
      intro line hs hlen
      rw [List.length_cons] at hlen
      have hc : ¬(c = '\n' ∨ line.length + 2 = lineSize) := by
        rintro (rfl | hfull)
        · exact hs List.mem_cons_self
        · omega
      rw [fgetsLines, if_neg hc, ih (line ++ [c]) fun h ↦ hs (List.mem_cons_of_mem _ h)]
      · simp
      · rw [List.length_append, List.length_singleton]
        omega
  rw [texts, decodeFile, hlines rest [] hnewline (by simpa using hlen), List.nil_append]
  split
  · rfl
  · have hmem : ';' ∉ cstr rest := fun hmem ↦ hsemi ((List.takeWhile_sublist _).subset hmem)
    have hnone : decodeLine [] rest = none := by rw [decodeLine, if_neg hmem]
    rw [List.filterMap_cons, hnone]
    rfl

/-- A record that the file can take adds its command. -/
theorem texts_append_encodeEntry {file : List Char} {cmd : CStr} {ts : Int64} (h : OneLine cmd)
    (htakes : TakesLine file (encodeEntry ts cmd)) :
    texts (file ++ encodeEntry ts cmd) = texts file ++ [cmd] := by
  obtain ⟨pre, rest, rfl, hpre, hnewline, hsemi, hnul, hlen⟩ := htakes
  have hline : rest ++ encodeEntry ts cmd
      = (rest ++ showInt ts.toInt) ++ ';' :: (cmd ++ ['\n']) := by
    rw [encodeEntry, List.append_assoc]
  have hread : fgetsLines [] (rest ++ encodeEntry ts cmd) = [rest ++ encodeEntry ts cmd] := by
    have hnone : '\n' ∉ rest ++ showInt ts.toInt ++ ';' :: cmd := by
      simp [hnewline, h.noNewline, @notMem_showInt ts.toInt '\n' (by decide) (by decide)]
    have hsplit : rest ++ encodeEntry ts cmd
        = (rest ++ showInt ts.toInt ++ ';' :: cmd) ++ ['\n'] := by simp [encodeEntry]
    rw [hsplit] at hlen ⊢
    rw [List.length_append, List.length_singleton] at hlen
    rw [fgetsLines_line _ hnone [] (by rw [List.length_nil]; omega)]
    rfl
  -- what stands before the record has no `;`, so the record is read from its own one
  have hrecord : texts (rest ++ encodeEntry ts cmd) = [cmd] := by
    have hh : NulFree (rest ++ showInt ts.toInt) :=
      nulFree_append.mpr ⟨hnul, notMem_showInt (by decide) (by decide)⟩
    have hs : ';' ∉ rest ++ showInt ts.toInt := by
      simp [hsemi, @notMem_showInt ts.toInt ';' (by decide) (by decide)]
    rw [texts, decodeFile, hread, hline, List.filterMap_cons, decodeLine_append_semicolon hh hs h]
    rfl
  have hshort : rest.length + 1 < lineSize := by
    rw [hline] at hlen
    simp only [List.length_append, List.length_cons] at hlen
    omega
  rw [List.append_assoc, texts_append hpre, texts_append hpre, hrecord,
    texts_rest hnewline hsemi hshort, List.append_nil]

/-- A file that was written from entries is read record by record. -/
theorem texts_encodeFile_eq (l : List HistEntry) :
    texts (encodeFile l) = l.flatMap fun e ↦ texts (encodeEntry e.2 e.1) := by
  induction l with
  | nil => rfl
  | cons e l ih =>
    rw [encodeFile, List.flatMap_cons, texts_append (endsLine_encodeEntry _ _)]
    exact congrArg (texts (encodeEntry e.2 e.1) ++ ·) ih

theorem texts_encodeFile {l : List HistEntry} (h : ∀ e ∈ l, ShortCommand e.1) :
    texts (encodeFile l) = l.map Prod.fst := by
  rw [texts_encodeFile_eq, List.map_eq_flatMap]
  exact List.flatMap_congr fun e he ↦ texts_encodeEntry (h e he) e.2

/-! ## One operation -/

/-- All commands are short, and the last ones are the last ones in the file. -/
structure Aligned (log : HistLog) : Prop where
  short : ∀ e ∈ log.entries, ShortCommand e.1
  texts_eq : (texts log.file).rtake histSize = (log.entries.map Prod.fst).rtake histSize

/-- What is loaded when the shell starts. -/
theorem commands_of_load (stale : List Char) (s₀ : HistoryState) :
    ∃ s, runHistory [.init, .load stale] s₀ = .ok s ∧
      s.hist.commands = .ok ((texts s₀.file).rtake histSize) := by
  have hinit : HistLog.Refines { file := s₀.file } (historyInit s₀) :=
    ⟨History.holds_empty rfl rfl, rfl⟩
  obtain ⟨s, hrun, hs⟩ := Refines.run [.load stale] hinit (Or.inr rfl)
  refine ⟨s, hrun, ?_⟩
  rw [History.commands_eq hs.ring, map_rtake]
  exact congrArg (fun l ↦ Except.ok (List.rtake l histSize)) (map_fst_decodeFile stale s₀.file)

theorem Refines.agrees {log : HistLog} {s : HistoryState} (h : log.Refines s)
    (haligned : log.Aligned) : Agrees s := by
  intro stale
  obtain ⟨s', hrun, hcommands⟩ := commands_of_load stale { file := s.file }
  refine ⟨s', hrun, hcommands.trans ?_⟩
  rw [History.commands_eq h.ring, map_rtake, ← haligned.texts_eq, ← h.file]

end HistLog

/-- What a session does to its history: commands are entered, short ones and each on one line, the
builtin is run, and the file is trimmed. -/
def HistOp.InSession : HistOp → Prop
  | save _ cmd => ShortCommand cmd
  | history _ => True
  | trim => True
  | _ => False

/-- The operation does not make the history and the file differ: `history -c` finds the history
empty, and a command is appended to a file that can take its line. -/
def StepKeepsDisk (s : HistoryState) : HistOp → Prop
  | .save now cmd => cmd = [] ∨ TakesLine s.file (encodeEntry now cmd)
  | .history args => args.head? = some "-c".toList → s.hist.cmdCount = 0
  | _ => True

/-- No operation of the run makes them differ. -/
def KeepsDisk : List HistOp → HistoryState → Prop
  | [], _ => True
  | op :: ops, s => StepKeepsDisk s op ∧ ∀ s', op.run s = .ok s' → KeepsDisk ops s'

namespace HistLog

variable {log : HistLog} {s : HistoryState} {op : HistOp}

theorem Aligned.step (h : log.Refines s) (haligned : log.Aligned) (hop : op.InSession)
    (hkeeps : StepKeepsDisk s op) : (log.step op).Aligned := by
  cases op with
  | save now cmd =>
    rw [HistLog.step]
    split
    · exact haligned
    next hne =>
    refine ⟨fun e he ↦ ?_, ?_⟩
    · rcases List.mem_append.mp he with he | he
      · exact haligned.short e he
      · obtain rfl := List.mem_singleton.mp he
        exact hop
    · have htakes : TakesLine log.file (encodeEntry now cmd) := h.file ▸ hkeeps.resolve_left hne
      rw [texts_append_encodeEntry hop.toOneLine htakes, ← rtake_rtake_append, haligned.texts_eq,
        rtake_rtake_append, List.map_append]
      rfl
  | history args =>
    rw [HistLog.step]
    split
    · next hclear =>
      have hcount : s.hist.cmdCount = min histSize log.entries.length :=
        h.ring.count_eq.trans (length_rtake _ _)
      -- `history -c` forgets the commands but not the file, so there may be none
      have hnil : log.entries = [] := by
        have hzero : s.hist.cmdCount = 0 := hkeeps hclear
        have hpos : 0 < histSize := by decide
        rw [← List.length_eq_zero_iff]
        omega
      have htexts := haligned.texts_eq
      rw [hnil] at htexts
      exact ⟨by simp, htexts⟩
    · exact haligned
  | trim =>
    rw [HistLog.step]
    split
    · exact haligned
    · have hshort : ∀ e ∈ log.entries.rtake histSize, ShortCommand e.1 :=
        fun e he ↦ haligned.short e (List.mem_of_mem_drop he)
      refine ⟨haligned.short, ?_⟩
      rw [texts_encodeFile hshort, map_rtake]
      exact rtake_of_length_le (by rw [length_rtake]; exact min_le_left _ _)
  | init => exact hop.elim
  | load stale => exact hop.elim
  | overwrite file => exact hop.elim

theorem Refines.agrees_run (ops : List HistOp) :
    ∀ {log : HistLog} {s : HistoryState}, log.Refines s → log.Aligned → s.opened = true →
      (∀ op ∈ ops, op.InSession) → KeepsDisk ops s →
      ∀ pre, pre <+: ops → ∃ s', runHistory pre s = .ok s' ∧ Agrees s' := by
  induction ops with
  | nil =>
    intro log s h haligned _ _ _ pre hpre
    obtain rfl := List.prefix_nil.mp hpre
    exact ⟨s, rfl, h.agrees haligned⟩
  | cons op ops ih =>
    intro log s h haligned hopened hops hkeeps pre hpre
    rcases List.prefix_cons_iff.mp hpre with rfl | ⟨pre, rfl, hpre'⟩
    · exact ⟨s, rfl, h.agrees haligned⟩
    · have hop := hops op List.mem_cons_self
      obtain ⟨s₁, hrun, h₁, hopen⟩ := h.step op (Or.inl hopened)
      obtain ⟨s', hrest, hagrees⟩ := ih h₁ (haligned.step h hop hkeeps.1)
        (hopen.elim (·.trans hopened) id) (fun op hop ↦ hops op (List.mem_cons_of_mem _ hop))
        (hkeeps.2 s₁ hrun) pre hpre'
      refine ⟨s', ?_, hagrees⟩
      rw [runHistory, List.foldlM_cons, hrun]
      exact hrest

/-- A session starts in agreement with the file. -/
theorem exists_loaded (stale : List Char) {file : List Char}
    (hfile : ∀ cmd ∈ texts file, cmd.length < 1000) :
    ∃ s, runHistory [.init, .load stale] { file } = .ok s ∧ s.opened = true ∧
      ∃ log : HistLog, log.Refines s ∧ log.Aligned := by
  have hinit : HistLog.Refines { file } (historyInit { file }) :=
    ⟨History.holds_empty rfl rfl, rfl⟩
  obtain ⟨s, hload, hs, hopen⟩ := hinit.load stale
  refine ⟨s, ?_, hopen, _, hs, ?_, ?_⟩
  · change (historyLoad stale (historyInit { file }) >>= fun s ↦ pure s) = _
    rw [hload]
    rfl
  · intro e he
    obtain ⟨line, -, hline⟩ := List.mem_filterMap.mp he
    refine ⟨oneLine_of_decodeLine hline, hfile e.1 ?_⟩
    rw [← map_fst_decodeFile stale]
    exact List.mem_map_of_mem he
  · exact congrArg (List.rtake · histSize) (map_fst_decodeFile stale file).symm

end HistLog

/-- Memory and disk agree in every state of a session, as long as `history -c` is not run on a
history that has commands, and no command is appended to a file that cannot take its line. -/
theorem agrees_of_keepsDisk (stale : List Char) {file : List Char}
    (hfile : ∀ cmd ∈ HistLog.texts file, cmd.length < 1000) {ops : List HistOp}
    (hops : ∀ op ∈ ops, op.InSession) :
    ∃ s, runHistory [.init, .load stale] { file } = .ok s ∧
      (KeepsDisk ops s → ∀ pre, pre <+: ops → ∃ s', runHistory pre s = .ok s' ∧ Agrees s') := by
  obtain ⟨s, hrun, hopened, log, hs, haligned⟩ := HistLog.exists_loaded stale hfile
  exact ⟨s, hrun, fun hkeeps ↦ hs.agrees_run ops haligned hopened hops hkeeps⟩

theorem agrees_of_keepsDisk_save :
    ∃ s, runHistory [.init, .load []] { file := "5;pwd\n".toList } = .ok s ∧
      ∃ s', runHistory [.save 7 "ls".toList, .trim] s = .ok s' ∧ Agrees s' := by
  let file := "5;pwd\n".toList
  have htexts : ∀ cmd ∈ HistLog.texts file, cmd.length < 1000 := by decide +kernel
  have hops : ∀ op ∈ [HistOp.save 7 "ls".toList, .trim], op.InSession := by
    intro op hop
    rcases List.mem_cons.mp hop with rfl | hop
    · exact ⟨⟨by decide, by decide⟩, by decide⟩
    · obtain rfl := List.mem_singleton.mp hop
      trivial
  obtain ⟨s, hrun, hagrees⟩ := agrees_of_keepsDisk [] htexts hops
  have hfile : s.file = file := by
    have hinit : HistLog.Refines { file } (historyInit { file }) :=
      ⟨History.holds_empty rfl rfl, rfl⟩
    obtain ⟨s₁, hrun₁, h₁⟩ := HistLog.Refines.run [.load []] hinit (Or.inr rfl)
    cases hrun.symm.trans hrun₁
    exact h₁.file
  have htakes : TakesLine s.file (encodeEntry 7 "ls".toList) := by
    rw [hfile]
    exact .of_endsLine (Or.inr ⟨"5;pwd".toList, rfl⟩) (by decide)
  have hkeeps : KeepsDisk [.save 7 "ls".toList, .trim] s :=
    ⟨Or.inr htakes, fun _ _ ↦ ⟨trivial, fun _ _ ↦ trivial⟩⟩
  exact ⟨s, hrun, hagrees hkeeps _ List.prefix_rfl⟩

/-- `ls` is entered, and then `history -c`: the next session has it again. -/
theorem not_agrees :
    ¬∀ (stale file : List Char), (∀ cmd ∈ HistLog.texts file, cmd.length < 1000) →
      ∀ ops : List HistOp, (∀ op ∈ ops, op.InSession) → ∀ s s',
        runHistory [.init, .load stale] { file } = .ok s → runHistory ops s = .ok s' →
          Agrees s' := by
  intro hall
  let ops := [HistOp.save 5 "ls".toList, .history ["-c".toList]]
  have hops : ∀ op ∈ ops, op.InSession := by
    intro op hop
    rcases List.mem_cons.mp hop with rfl | hop
    · exact ⟨⟨by decide, by decide⟩, by decide⟩
    · obtain rfl := List.mem_singleton.mp hop
      trivial
  have hinit : HistLog.Refines {} (historyInit {}) := ⟨History.holds_empty rfl rfl, rfl⟩
  obtain ⟨s, hload, hs, hopen⟩ := hinit.load []
  obtain ⟨s', hrun, hs'⟩ := hs.run ops (Or.inl hopen)
  have hfirst : runHistory [.init, .load []] {} = .ok s := by
    change (historyLoad [] (historyInit {}) >>= fun s ↦ pure s) = _
    rw [hload]
    rfl
  obtain ⟨s₂, hrun₂, hsame⟩ := hall [] [] (by decide) ops hops s s' hfirst hrun []
  -- nothing is left in memory, and the file has one command
  have hfile : s'.file = "5;ls\n".toList := hs'.file
  have hnew : HistLog.Refines { file := s'.file } (historyInit { file := s'.file }) :=
    ⟨History.holds_empty rfl rfl, rfl⟩
  obtain ⟨s₃, hrun₃, hs₃⟩ := hnew.run [.load []] (Or.inr rfl)
  cases hrun₂.symm.trans hrun₃
  have hentries : (HistLog.run { file := s'.file } [.load []]).entries = [("ls".toList, 0)] := by
    rw [hfile]
    decide +kernel
  have hmemory : (HistLog.run (HistLog.step {} (.load [])) ops).entries = [] := rfl
  have hring' := hs'.ring
  have hring₃ := hs₃.ring
  rw [hmemory, List.rtake_nil] at hring'
  rw [hentries, rtake_of_length_le (by decide)] at hring₃
  rw [History.commands_eq hring', History.commands_eq hring₃] at hsame
  cases hsame

end Novash
