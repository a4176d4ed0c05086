import Novash.History.Disk
import Novash.Shell.ReadLoop

/-!
# From one session to the next

What is entered in one session is found by those after it (`runSessions_recalls`). `shell_loop`
saves a line when it has been parsed, and before it is executed; the line is appended to `HISTFILE`
at once; and when the loop has been left, `history_trim` may rewrite the file, but keeps what the
next session would load from it. So a session may be killed at any time, and `history -c`, which
empties the history of a running session, takes nothing from the file.

A session ends before the next one starts. Not here: two shells that use one file at the same time,
and a shell that is killed while `history_trim` writes.
-/

namespace Novash

open Foundations

/-! ## What a session does to its history -/

/-- What a job does to the history of the shell. A command that is forked has only a copy of it, and
`history` has not been called if `run_job` does not return: its redirection was refused. -/
def historyCall (c : Job × Shell) : Option HistOp :=
  match c.1.processes with
  | [proc] =>
    if proc.argv.headD [] = "history".toList ∧ (runJob c.1 c.2).toOption.isSome then
      some (.history proc.argv.tail)
    else none
  | _ => none

/-- The line that is saved by a call into the history, if one is. -/
def HistOp.saved : HistOp → Option CStr
  | save _ cmd => if cmd = [] then none else some cmd
  | _ => none

/-- The lines that are saved by these calls, in order. -/
def savedLines (ops : List HistOp) : List CStr := ops.filterMap HistOp.saved

/-- A session: what the buffer of `history_load` has held, the state in which the loop is entered,
and its rounds, each with the time. It may be killed, after so many calls into the history. -/
structure Session where
  stale : List Char
  start : LoopState
  rounds : List (Int64 × Round)
  killed : Option ℕ := none

section

variable (world : Shell → Surroundings)

/-- The calls into the history that a round makes. A line that the parser refuses is not saved. -/
def roundCalls (now : Int64) (r : Round) (s : LoopState) : List HistOp :=
  match r.input with
  | .line text heap =>
    match readTree world text heap (r.shell s) with
    | .ok node => .save now text :: (execCalls node (r.shell s)).filterMap historyCall
    | .error _ => []
  | _ => []

/-- The calls that the loop makes, as far as it gets. -/
def loopCalls : List (Int64 × Round) → LoopState → List HistOp
  | [], _ => []
  | (now, r) :: rs, s =>
    roundCalls world now r s ++
      match shellLoopRound world r s with
      | .ok (false, s) => loopCalls rs s
      | _ => []

/-- The line of a round, if it is executed and not empty. -/
def Round.entered (r : Round) (s : LoopState) : List CStr :=
  match r.input with
  | .line text heap =>
    match readTree world text heap (r.shell s) with
    | .ok _ => if text = [] then [] else [text]
    | .error _ => []
  | _ => []

/-- The lines that are executed in these rounds, but for empty ones. -/
def enteredLines : List Round → LoopState → List CStr
  | [], _ => []
  | r :: rs, s =>
    r.entered world s ++
      match shellLoopRound world r s with
      | .ok (false, s) => enteredLines rs s
      | _ => []

namespace Session

/-- The calls of `shell_loop` and, if the loop is left, of `shell_cleanup`. -/
def loopAndCleanup (x : Session) : List HistOp :=
  loopCalls world x.rounds x.start ++
    match shellLoopRounds world (x.rounds.map Prod.snd) x.start with
    | .ok (true, _) => [.trim]
    | _ => []

/-- All calls, with those of `shell_state_init`. -/
def calls (x : Session) : List HistOp :=
  let all := .init :: .load x.stale :: x.loopAndCleanup world
  match x.killed with
  | none => all
  | some n => all.take n

/-- The lines that were saved when the session ended. -/
def lines (x : Session) : List CStr := savedLines (x.calls world)

/-- What the session leaves in the file. Its process starts with nothing but the file. -/
def run (x : Session) (file : List Char) : Except HistoryFault (List Char) := do
  let s ← runHistory (x.calls world) { file }
  return s.file

end Session

/-- The file after these sessions, one after the other. -/
def runSessions (xs : List Session) (file : List Char) : Except HistoryFault (List Char) :=
  xs.foldlM (fun file x ↦ x.run world file) file

end

/-! ## What the file keeps -/

theorem EndsLine.append {pre post : List Char} (hpre : EndsLine pre) (hpost : EndsLine post) :
    EndsLine (pre ++ post) := by
  rcases hpost with rfl | ⟨s, rfl⟩
  · rwa [List.append_nil]
  · exact Or.inr ⟨pre ++ s, (List.append_assoc ..).symm⟩

theorem endsLine_encodeFile (l : List HistEntry) : EndsLine (HistLog.encodeFile l) := by
  induction l with
  | nil => exact Or.inl rfl
  | cons e l ih => exact (endsLine_encodeEntry e.2 e.1).append ih

namespace HistLog

/-- A new session finds in the file what it would find in a list of all lines. -/
structure Keeps (all : List CStr) (file : List Char) : Prop where
  ends : EndsLine file
  short : ∀ cmd ∈ texts file, ShortCommand cmd
  texts_eq : (texts file).rtake histSize = all.rtake histSize

/-- And what is in memory ends as the file does. -/
structure Backed (all : List CStr) (log : HistLog) : Prop extends Keeps all log.file where
  suffix : (log.entries.map Prod.fst).rtake histSize <:+ texts log.file

variable {all : List CStr} {log : HistLog} {op : HistOp}

theorem Keeps.load {file : List Char} (h : Keeps all file) (stale : List Char) :
    (HistLog.step { file } (.load stale)).Backed all where
  toKeeps := h
  suffix := by
    have hloaded : ([] ++ decodeFile stale file).map Prod.fst = texts file :=
      map_fst_decodeFile stale file
    exact hloaded ▸ List.drop_suffix _ _

theorem Backed.save (h : log.Backed all) {cmd : CStr} (hcmd : ShortCommand cmd) (now : Int64) :
    Backed (all ++ [cmd]) ⟨log.entries ++ [(cmd, now)], log.file ++ encodeEntry now cmd⟩ := by
  have htexts : texts (log.file ++ encodeEntry now cmd) = texts log.file ++ [cmd] :=
    texts_append_encodeEntry hcmd.toOneLine (.of_endsLine h.ends (hcmd.length_encodeEntry now))
  refine ⟨⟨h.ends.append (endsLine_encodeEntry now cmd), ?_, ?_⟩, ?_⟩
  · intro c hc
    rcases List.mem_append.mp (htexts ▸ hc) with hc | hc
    · exact h.short c hc
    · exact List.mem_singleton.mp hc ▸ hcmd
  · rw [htexts, ← rtake_rtake_append, h.texts_eq, rtake_rtake_append]
  · obtain ⟨older, hsuffix⟩ := h.suffix
    rw [htexts, List.map_append, ← rtake_rtake_append, ← hsuffix, List.append_assoc]
    exact (List.drop_suffix _ _).trans (List.suffix_append _ _)

/-- Any file with the lines of a full history will do. -/
theorem Backed.rewrite (h : log.Backed all) {file : List Char} (hends : EndsLine file)
    (htexts : texts file = (log.entries.map Prod.fst).rtake histSize)
    (hfull : histSize ≤ log.entries.length) : Backed all { log with file } := by
  -- both are as long as the ring, and one is the end of the other
  have hlast : (texts log.file).rtake histSize = texts file := by
    refine (rtake_eq_of_suffix h.suffix ?_).trans htexts.symm
    rw [length_rtake, List.length_map, min_eq_left hfull]
  refine ⟨⟨hends, fun c hc ↦ ?_, ?_⟩, htexts ▸ List.suffix_refl _⟩
  · exact h.short c (h.suffix.subset (htexts ▸ hc))
  · rw [← hlast, rtake_rtake, min_self, h.texts_eq]

/-- The file is rewritten if the history is full. -/
theorem Backed.trim (h : log.Backed all) : (log.step .trim).Backed all := by
  rw [HistLog.step]
  split
  · exact h
  next hfull =>
  have hshort : ∀ e ∈ log.entries.rtake histSize, ShortCommand e.1 := fun e he ↦
    h.short e.1 (h.suffix.subset (map_rtake Prod.fst _ _ ▸ List.mem_map_of_mem he))
  refine h.rewrite (endsLine_encodeFile _) ?_ (Nat.le_of_not_lt hfull)
  rw [texts_encodeFile hshort, map_rtake]

/-- `history -c` does not touch the file. -/
theorem Backed.history (h : log.Backed all) (args : List CStr) :
    (log.step (.history args)).Backed all := by
  rw [HistLog.step]
  split
  · exact ⟨h.toKeeps, List.rtake_nil (α := CStr) histSize ▸ List.nil_suffix⟩
  · exact h

theorem Backed.step (h : log.Backed all) (hop : op.InSession) :
    (log.step op).Backed (all ++ savedLines [op]) := by
  cases op with
  | save now cmd =>
    by_cases hcmd : cmd = []
    · subst hcmd
      exact (List.append_nil all).symm ▸ h
    · have hsaved : savedLines [.save now cmd] = [cmd] := by simp [savedLines, HistOp.saved, hcmd]
      rw [hsaved, HistLog.step, if_neg hcmd]
      exact h.save hop now
  | history args => exact (List.append_nil all).symm ▸ h.history args
  | trim => exact (List.append_nil all).symm ▸ h.trim
  | init => exact hop.elim
  | load stale => exact hop.elim
  | overwrite file => exact hop.elim

theorem Backed.run (ops : List HistOp) :
    ∀ {all : List CStr} {log : HistLog}, log.Backed all → (∀ op ∈ ops, op.InSession) →
      (log.run ops).Backed (all ++ savedLines ops) := by
  induction ops with
  | nil => exact fun h _ ↦ (List.append_nil _).symm ▸ h
  | cons op ops ih =>
    intro all log h hops
    have hrest := ih (h.step (hops op List.mem_cons_self)) fun op' hop' ↦
      hops op' (List.mem_cons_of_mem _ hop')
    rwa [List.append_assoc, savedLines, savedLines, ← List.filterMap_append] at hrest

/-- However far the process of a session gets, the file has what it had, and what was saved. -/
theorem Keeps.session {file : List Char} (h : Keeps all file) (stale : List Char)
    {ops pre : List HistOp} (hops : ∀ op ∈ ops, op.InSession)
    (hpre : pre <+: .init :: .load stale :: ops) :
    ∃ s, runHistory pre { file } = .ok s ∧ Keeps (all ++ savedLines pre) s.file := by
  have hempty : HistLog.Refines { file } { file } := ⟨History.holds_empty rfl rfl, rfl⟩
  have hstep : savesAfterLoad pre = true ∧
      Keeps (all ++ savedLines pre) (HistLog.run { file } pre).file := by
    rcases List.prefix_cons_iff.mp hpre with rfl | ⟨pre, rfl, hpre₁⟩
    · exact ⟨rfl, (List.append_nil all).symm ▸ h⟩
    rcases List.prefix_cons_iff.mp hpre₁ with rfl | ⟨pre, rfl, hpre₂⟩
    · exact ⟨rfl, (List.append_nil all).symm ▸ h⟩
    · exact ⟨rfl, ((h.load stale).run pre fun op hop ↦ hops op (hpre₂.subset hop)).toKeeps⟩
  obtain ⟨s, hrun, hs⟩ := hempty.run pre (Or.inr hstep.1)
  exact ⟨s, hrun, hs.file ▸ hstep.2⟩

end HistLog

/-! ## Whole sessions -/

/-- A line that is entered is short. -/
def ReadlineResult.ShortLine : ReadlineResult → Prop
  | line text _ => ShortCommand text
  | interrupted => True
  | eof => True

theorem eq_of_historyCall {c : Job × Shell} {op : HistOp} (h : historyCall c = some op) :
    ∃ args, op = .history args := by
  unfold historyCall at h
  split at h
  · split at h
    · exact ⟨_, (Option.some_inj.mp h).symm⟩
    · cases h
  · cases h

section

variable {world : Shell → Surroundings}

theorem inSession_roundCalls {now : Int64} {r : Round} (hr : r.input.ShortLine) (s : LoopState) :
    ∀ op ∈ roundCalls world now r s, op.InSession := by
  intro op hop
  unfold roundCalls at hop
  split at hop
  · next text heap hinput =>
    rw [hinput] at hr
    split at hop
    · rcases List.mem_cons.mp hop with rfl | hop
      · exact hr
      · obtain ⟨c, -, hc⟩ := List.mem_filterMap.mp hop
        obtain ⟨args, rfl⟩ := eq_of_historyCall hc
        trivial
    · cases hop
  · cases hop

theorem inSession_loopCalls (rs : List (Int64 × Round)) :
    ∀ s, (∀ t ∈ rs, t.2.input.ShortLine) → ∀ op ∈ loopCalls world rs s, op.InSession := by
  induction rs with
  | nil => exact fun _ _ _ hop ↦ nomatch hop
  | cons t rs ih =>
    intro s hrs op hop
    rcases List.mem_append.mp hop with hop | hop
    · exact inSession_roundCalls (hrs t List.mem_cons_self) s op hop
    · split at hop
      · next s' _ => exact ih s' (fun t' ht' ↦ hrs t' (List.mem_cons_of_mem _ ht')) op hop
      · cases hop

/-- A round saves the line that is executed in it. -/
theorem savedLines_roundCalls (now : Int64) (r : Round) (s : LoopState) :
    savedLines (roundCalls world now r s) = r.entered world s := by
  have hnone : ∀ cs : List (Job × Shell), savedLines (cs.filterMap historyCall) = [] := by
    intro cs
    rw [savedLines, List.filterMap_eq_nil_iff]
    intro op hop
    obtain ⟨c, -, hc⟩ := List.mem_filterMap.mp hop
    obtain ⟨args, rfl⟩ := eq_of_historyCall hc
    rfl
  unfold roundCalls Round.entered
  split
  · split
    · next text _ _ _ node _ =>
      rw [savedLines, List.filterMap_cons, ← savedLines, hnone, HistOp.saved]
      by_cases htext : text = [] <;> simp [htext]
    · rfl
  · rfl

theorem savedLines_loopCalls (rs : List (Int64 × Round)) :
    ∀ s, savedLines (loopCalls world rs s) = enteredLines world (rs.map Prod.snd) s := by
  induction rs with
  | nil => exact fun _ ↦ rfl
  | cons t rs ih =>
    intro s
    rw [loopCalls, savedLines, List.filterMap_append, ← savedLines, ← savedLines,
      savedLines_roundCalls, List.map_cons, enteredLines]
    split
    · rw [ih]
    · rfl

namespace Session

theorem inSession_loopAndCleanup {x : Session} (hx : ∀ t ∈ x.rounds, t.2.input.ShortLine) :
    ∀ op ∈ x.loopAndCleanup world, op.InSession := by
  intro op hop
  rcases List.mem_append.mp hop with hop | hop
  · exact inSession_loopCalls x.rounds x.start hx op hop
  · split at hop
    · obtain rfl := List.mem_singleton.mp hop
      trivial
    · cases hop

theorem prefix_calls (x : Session) :
    x.calls world <+: .init :: .load x.stale :: x.loopAndCleanup world := by
  unfold calls
  cases x.killed with
  | none => exact List.prefix_rfl
  | some n => exact List.take_prefix _ _

theorem savedLines_all (x : Session) :
    savedLines (.init :: .load x.stale :: x.loopAndCleanup world)
      = enteredLines world (x.rounds.map Prod.snd) x.start := by
  rw [← savedLines_loopCalls]
  change savedLines (x.loopAndCleanup world) = _
  rw [loopAndCleanup, savedLines, List.filterMap_append, ← savedLines]
  split <;> exact List.append_nil _

/-- A session saves the lines that are executed, as far as it gets. -/
theorem prefix_lines (x : Session) :
    x.lines world <+: enteredLines world (x.rounds.map Prod.snd) x.start := by
  rw [← savedLines_all]
  exact (prefix_calls x).filterMap _

theorem lines_eq_entered {x : Session} (h : x.killed = none) :
    x.lines world = enteredLines world (x.rounds.map Prod.snd) x.start := by
  rw [← savedLines_all, lines, calls, h]

theorem run_keeps {all : List CStr} {file : List Char} (h : HistLog.Keeps all file) {x : Session}
    (hx : ∀ t ∈ x.rounds, t.2.input.ShortLine) :
    ∃ file', x.run world file = .ok file' ∧ HistLog.Keeps (all ++ x.lines world) file' := by
  obtain ⟨s, hrun, hs⟩ := h.session x.stale (inSession_loopAndCleanup hx) x.prefix_calls
  refine ⟨s.file, ?_, hs⟩
  rw [run, hrun]
  rfl

end Session

theorem runSessions_keeps (xs : List Session) :
    ∀ {all : List CStr} {file : List Char}, HistLog.Keeps all file →
      (∀ x ∈ xs, ∀ t ∈ x.rounds, t.2.input.ShortLine) →
      ∃ file', runSessions world xs file = .ok file' ∧
        HistLog.Keeps (all ++ xs.flatMap (Session.lines world)) file' := by
  induction xs with
  | nil => exact fun {all file} h _ ↦ ⟨file, rfl, (List.append_nil all).symm ▸ h⟩
  | cons x xs ih =>
    intro all file h hxs
    obtain ⟨file₁, hrun, h₁⟩ := Session.run_keeps h (hxs x List.mem_cons_self)
    obtain ⟨file', hrest, h'⟩ := ih h₁ fun x' hx' ↦ hxs x' (List.mem_cons_of_mem _ hx')
    refine ⟨file', ?_, ?_⟩
    · rw [runSessions, List.foldlM_cons, hrun]
      exact hrest
    · rwa [List.append_assoc, ← List.flatMap_cons] at h'

end

/-- No line is lost between sessions. After any sessions, killed at any time or not, a new one loads
the last `HIST_SIZE` of the commands that were in the file and the lines that have been entered, and
a session that is not killed has saved all its lines. -/
theorem runSessions_recalls (world : Shell → Surroundings) (xs : List Session) {file : List Char}
    (hends : EndsLine file) (hfile : ∀ cmd ∈ HistLog.texts file, cmd.length < 1000)
    (hxs : ∀ x ∈ xs, ∀ t ∈ x.rounds, t.2.input.ShortLine) :
    (∃ file', runSessions world xs file = .ok file' ∧
      ∀ stale, ∃ s, runHistory [.init, .load stale] { file := file' } = .ok s ∧
        s.hist.commands = .ok
          ((HistLog.texts file ++ xs.flatMap (Session.lines world)).rtake histSize)) ∧
      ∀ x ∈ xs, x.lines world <+: enteredLines world (x.rounds.map Prod.snd) x.start ∧
        (x.killed = none →
          x.lines world = enteredLines world (x.rounds.map Prod.snd) x.start) := by
  have hshort : ∀ cmd ∈ HistLog.texts file, ShortCommand cmd := by
    intro cmd hcmd
    obtain ⟨e, he, rfl⟩ := List.mem_map.mp hcmd
    obtain ⟨line, -, hline⟩ := List.mem_filterMap.mp he
    exact ⟨oneLine_of_decodeLine hline, hfile e.1 hcmd⟩
  obtain ⟨file', hrun, hkeeps⟩ := runSessions_keeps xs ⟨hends, hshort, rfl⟩ hxs
  refine ⟨⟨file', hrun, fun stale ↦ ?_⟩, fun x _ ↦ ⟨x.prefix_lines, Session.lines_eq_entered⟩⟩
  obtain ⟨s, hload, hcommands⟩ := HistLog.commands_of_load stale { file := file' }
  exact ⟨s, hload, hcommands.trans (congrArg Except.ok hkeeps.texts_eq)⟩

/-- A session is killed while its first line is executed. In the next one the history is cleared. -/
theorem runSessions_recalls_clear :
    let typed (text : String) : Round := ⟨[], .line text.toList fun _ ↦ false⟩
    let xs : List Session :=
      [⟨[], ⟨stoppedFirst, false⟩, [(7, typed "f $$"), (8, typed "g")], some 3⟩,
        ⟨[], ⟨stoppedFirst, false⟩, [(9, typed "history -c"), (9, ⟨[], .eof⟩)], none⟩]
    ∃ file', runSessions fileOfFirstChild xs "5;pwd\n".toList = .ok file' ∧
      ∃ s, runHistory [.init, .load []] { file := file' } = .ok s ∧
        s.hist.commands = .ok ["pwd".toList, "f $$".toList, "history -c".toList] := by
  intro typed xs
  have hends : EndsLine "5;pwd\n".toList := Or.inr ⟨"5;pwd".toList, rfl⟩
  have hxs : ∀ x ∈ xs, ∀ t ∈ x.rounds, t.2.input.ShortLine := by
    have hline : ∀ text ∈ ["f $$", "g", "history -c"], ShortCommand text.toList := by
      intro text htext
      simp only [List.mem_cons, List.not_mem_nil, or_false] at htext
      rcases htext with rfl | rfl | rfl <;> exact ⟨⟨by decide, by decide⟩, by decide⟩
    intro x hx t ht
    rcases List.mem_pair.mp hx with rfl | rfl <;> rcases List.mem_pair.mp ht with rfl | rfl
    · exact hline "f $$" (by simp)
    · exact hline "g" (by simp)
    · exact hline "history -c" (by simp)
    · trivial
  obtain ⟨⟨file', hrun, hload⟩, -⟩ := runSessions_recalls fileOfFirstChild xs hends
    (by decide +kernel) hxs
  obtain ⟨s, hs, hcommands⟩ := hload []
  have hlines : HistLog.texts "5;pwd\n".toList ++ xs.flatMap (Session.lines fileOfFirstChild)
      = ["pwd".toList, "f $$".toList, "history -c".toList] := by
    decide +kernel
  refine ⟨file', hrun, s, hs, hcommands.trans ?_⟩
  rw [hlines, rtake_of_length_le (by decide)]

end Novash
