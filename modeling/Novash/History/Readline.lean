import Novash.History.Disk

/-!
# The list that readline keeps

The arrow keys go through a list of readline's own, which `history_load` and `history_save_command`
fill along with the ring. `history_save_command` adds each command to both. In `history_load` the
call of `add_history` is in one branch only: once the ring is full, a command replaces the oldest
one in the ring and does not go to readline. So after loading, readline has the first `HIST_SIZE`
commands of the file where the ring has the last ones (`showsSame_iff`).
-/

namespace Novash

open Foundations

/-- What the shell needs of readline: a list, to which `add_history` appends. -/
structure Readline where
  State : Type
  historyList : State → List CStr
  addHistory : CStr → State → State
  historyList_addHistory : ∀ cmd rl, historyList (addHistory cmd rl) = historyList rl ++ [cmd]

/-- Readline is its list. -/
def Readline.ofList : Readline where
  State := List CStr
  historyList rl := rl
  addHistory cmd rl := rl ++ [cmd]
  historyList_addHistory _ _ := rfl

/-- The history of a shell, its file, and readline. -/
structure ReadlineState (R : Readline) extends HistoryState where
  rl : R.State

namespace ReadlineState

variable {R : Readline}

/-! ## Loading and saving -/

/-- The circular buffer logic of `history_load`, on the ring and on readline. -/
def loadEntry (s : History × R.State) (e : HistEntry) :
    Except HistoryFault (History × R.State) :=
  if s.1.cmdCount < histSize then do
    let hist ← s.1.store s.1.cmdCount e.1 e.2
    return ({ hist with cmdCount := hist.cmdCount + 1 }, R.addHistory e.1 s.2)
  else do
    s.1.freeCommand s.1.start
    let hist ← s.1.store s.1.start e.1 e.2
    return ({ hist with start := (hist.start + 1) % histSize }, s.2)

def loadLine (stale : List Char) (s : History × R.State) (line : List Char) :
    Except HistoryFault (History × R.State) :=
  match decodeLine stale line with
  | none => .ok s
  | some e => loadEntry s e

def historyInit (s : ReadlineState R) : ReadlineState R := { s with hist := {} }

def historyLoad (stale : List Char) (s : ReadlineState R) :
    Except HistoryFault (ReadlineState R) := do
  let (hist, rl) ← (fgetsLines [] s.file).foldlM (loadLine stale) (s.hist, s.rl)
  return { s with hist, rl, opened := true }

def historySaveCommand (now : Int64) (cmd : CStr) (s : ReadlineState R) :
    Except HistoryFault (ReadlineState R) :=
  if cmd = [] then .ok s
  else do
    let hist ← s.hist.saveEntry cmd now
    let rl := R.addHistory cmd s.rl
    if s.opened then return { s with hist, rl, file := s.file ++ encodeEntry now cmd }
    else throw .unopened

/-! ### Without readline -/

/-- Readline is told about an entry as long as the ring is not full. -/
theorem loadEntry_eq (s : History × R.State) (e : HistEntry) :
    loadEntry s e = s.1.loadEntry e >>= fun hist ↦
      pure (hist, if s.1.cmdCount < histSize then R.addHistory e.1 s.2 else s.2) := by
  unfold loadEntry History.loadEntry
  by_cases hfull : s.1.cmdCount < histSize
  · simp only [if_pos hfull, bind_assoc, pure_bind]
  · simp only [if_neg hfull, bind_assoc, pure_bind]

theorem map_fst_loadLine (stale : List Char) (s : History × R.State) (line : List Char) :
    Prod.fst <$> loadLine stale s line = s.1.loadLine stale line := by
  unfold loadLine History.loadLine
  cases decodeLine stale line with
  | none => rfl
  | some e =>
    dsimp only
    rw [loadEntry_eq]
    cases s.1.loadEntry e <;> rfl

/-- What loading does to the history and the file does not depend on readline. -/
theorem toHistoryState_historyLoad (stale : List Char) (s : ReadlineState R) :
    toHistoryState <$> historyLoad stale s = Novash.historyLoad stale s.toHistoryState := by
  have hlines : ∀ (lines : List (List Char)) (s : History × R.State),
      Prod.fst <$> lines.foldlM (loadLine stale) s = lines.foldlM (History.loadLine stale) s.1 := by
    intro lines
    induction lines with
    | nil => exact fun _ ↦ rfl
    | cons line lines ih =>
      intro s
      rw [List.foldlM_cons, List.foldlM_cons, ← map_fst_loadLine stale s line]
      cases loadLine stale s line with
      | error e => rfl
      | ok s₁ => exact ih s₁
  have hload := hlines (fgetsLines [] s.file) (s.hist, s.rl)
  rw [historyLoad, Novash.historyLoad, ← hload]
  cases (fgetsLines [] s.file).foldlM (loadLine stale) (s.hist, s.rl) <;> rfl

theorem toHistoryState_historySaveCommand (now : Int64) (cmd : CStr) (s : ReadlineState R) :
    toHistoryState <$> historySaveCommand now cmd s
      = Novash.historySaveCommand now cmd s.toHistoryState := by
  unfold historySaveCommand Novash.historySaveCommand
  split
  · rfl
  · cases s.hist.saveEntry cmd now with
    | error e => rfl
    | ok hist =>
      dsimp only [bind, Except.bind]
      split <;> rfl

/-! ## What readline has -/

/-- `history` and the arrow keys show the same: the last commands of readline are those in the ring,
in the same order. -/
def ShowsSame (s : ReadlineState R) : Prop :=
  s.hist.commands = .ok ((R.historyList s.rl).rtake s.hist.cmdCount)

section

variable {hist : History} {l : List HistEntry} {rl : R.State} {before : List CStr}

theorem cmdCount_eq (h : hist.ring.Holds histSize (l.rtake histSize)) :
    hist.cmdCount = min histSize l.length := h.count_eq.trans (length_rtake _ _)

/-- The ring keeps the last entries, and readline the first ones. -/
theorem holds_loadEntry (h : hist.ring.Holds histSize (l.rtake histSize))
    (hrl : R.historyList rl = before ++ (l.map Prod.fst).take histSize) (e : HistEntry) :
    ∃ hist' rl', loadEntry (hist, rl) e = .ok (hist', rl') ∧
      hist'.ring.Holds histSize ((l ++ [e]).rtake histSize) ∧
      R.historyList rl' = before ++ ((l ++ [e]).map Prod.fst).take histSize := by
  obtain ⟨hist', hload, h'⟩ := History.holds_loadEntry h e
  have hcount := cmdCount_eq h
  refine ⟨hist', _, by rw [loadEntry_eq, hload]; rfl, h', ?_⟩
  rw [List.map_append, List.map_singleton]
  by_cases hfull : l.length < histSize
  · have hle : (l.map Prod.fst ++ [e.1]).length ≤ histSize := by simpa using hfull
    have hle' : (l.map Prod.fst).length ≤ histSize := by simpa using hfull.le
    rw [if_pos (show hist.cmdCount < histSize by omega), R.historyList_addHistory, hrl,
      List.take_of_length_le hle, List.take_of_length_le hle', List.append_assoc]
  · have hle : histSize ≤ (l.map Prod.fst).length := by simpa using hfull
    rw [if_neg (show ¬hist.cmdCount < histSize by omega), hrl, List.take_append_of_le_length hle]

theorem holds_loadLines (stale : List Char) (lines : List (List Char)) :
    ∀ {hist : History} {l : List HistEntry} {rl : R.State},
      hist.ring.Holds histSize (l.rtake histSize) →
      R.historyList rl = before ++ (l.map Prod.fst).take histSize →
      ∃ hist' rl', lines.foldlM (loadLine stale) (hist, rl) = .ok (hist', rl') ∧
        hist'.ring.Holds histSize ((l ++ lines.filterMap (decodeLine stale)).rtake histSize) ∧
        R.historyList rl'
          = before ++ ((l ++ lines.filterMap (decodeLine stale)).map Prod.fst).take histSize := by
  induction lines with
  | nil => exact fun {hist l rl} h hrl ↦ ⟨hist, rl, rfl, by simpa using h, by simpa using hrl⟩
  | cons line lines ih =>
    intro hist l rl h hrl
    rw [List.foldlM_cons, List.filterMap_cons, loadLine]
    cases decodeLine stale line with
    | none => exact ih h hrl
    | some e =>
      obtain ⟨hist₁, rl₁, hload, h₁, hrl₁⟩ := holds_loadEntry h hrl e
      obtain ⟨hist', rl', hrest, h', hrl'⟩ := ih h₁ hrl₁
      rw [List.append_assoc] at h' hrl'
      refine ⟨hist', rl', ?_, h', hrl'⟩
      dsimp only
      rw [hload]
      exact hrest

end

/-- What is loaded when the shell starts. -/
theorem exists_loaded (stale : List Char) (s₀ : ReadlineState R) :
    ∃ s, historyLoad stale (historyInit s₀) = .ok s ∧
      s.hist.commands = .ok ((HistLog.texts s₀.file).rtake histSize) ∧
      (R.historyList s.rl).rtake s.hist.cmdCount = (HistLog.texts s₀.file).take histSize := by
  have hempty : (historyInit s₀).hist.ring.Holds histSize (([] : List HistEntry).rtake histSize) :=
    History.holds_empty rfl rfl
  have hbefore : R.historyList s₀.rl
      = R.historyList s₀.rl ++ (([] : List HistEntry).map Prod.fst).take histSize := by simp
  obtain ⟨hist, rl, hlines, hring, hrl⟩ :=
    holds_loadLines stale (fgetsLines [] s₀.file) hempty hbefore
  rw [List.nil_append, ← HistLog.decodeFile] at hring hrl
  rw [HistLog.map_fst_decodeFile] at hrl
  have hcount : hist.cmdCount = ((HistLog.texts s₀.file).take histSize).length := by
    rw [cmdCount_eq hring, List.length_take, ← HistLog.map_fst_decodeFile stale, List.length_map]
  refine ⟨{ s₀ with hist, rl, opened := true }, bind_ok.mpr ⟨(hist, rl), hlines, rfl⟩, ?_, ?_⟩
  · exact (History.commands_eq hring).trans
      (by rw [map_rtake, HistLog.map_fst_decodeFile])
  · dsimp only
    rw [hrl, hcount, rtake_append_right]

/-- **Loading, and what the arrow keys show.** Readline has what the ring has exactly when the first
`HIST_SIZE` commands of the file are its last ones, as they are if there are no more. -/
theorem showsSame_iff (stale : List Char) (s₀ : ReadlineState R) :
    ∃ s, historyLoad stale (historyInit s₀) = .ok s ∧
      (s.ShowsSame ↔
        (HistLog.texts s₀.file).take histSize = (HistLog.texts s₀.file).rtake histSize) := by
  obtain ⟨s, hload, hcommands, hlast⟩ := exists_loaded stale s₀
  refine ⟨s, hload, ?_⟩
  rw [ShowsSame, hcommands, hlast, Except.ok.injEq]
  exact eq_comm

/-- The command `a`, and then `b` a thousand times: readline still has `a`, the ring does not. -/
theorem not_showsSame :
    ¬∀ (R : Readline) (stale : List Char) (s₀ s : ReadlineState R),
      historyLoad stale (historyInit s₀) = .ok s → s.ShowsSame := by
  intro hall
  let records : List HistEntry := ("a".toList, 0) :: List.replicate histSize ("b".toList, 0)
  have hshort : ∀ e ∈ records, ShortCommand e.1 := by
    intro e he
    rcases List.mem_cons.mp he with rfl | he
    · exact ⟨⟨by decide, by decide⟩, by decide⟩
    · rw [List.eq_of_mem_replicate he]
      exact ⟨⟨by decide, by decide⟩, by decide⟩
  have htexts : HistLog.texts (HistLog.encodeFile records)
      = ["a".toList] ++ List.replicate histSize "b".toList := by
    rw [HistLog.texts_encodeFile hshort, List.map_cons, List.map_replicate]
    rfl
  obtain ⟨s, hload, hcommands, hlast⟩ :=
    @exists_loaded .ofList [] ⟨{ file := HistLog.encodeFile records }, []⟩
  have hsame := hall _ _ _ s hload
  rw [ShowsSame, hcommands, hlast, htexts] at hsame
  have hring := rtake_append_right ["a".toList] (List.replicate histSize "b".toList)
  rw [List.length_replicate] at hring
  rw [hring] at hsame
  -- the first command that is shown
  have hhead := congrArg List.head? (Except.ok.inj hsame)
  exact absurd hhead (by decide)

/-! ## Saving -/

/-- A command that is entered goes to both. -/
theorem ShowsSame.save {s : ReadlineState R} (h : s.ShowsSame) {log : HistLog}
    (hlog : log.Refines s.toHistoryState) {now : Int64} {cmd : CStr} (hopened : s.opened = true) :
    ∃ s', historySaveCommand now cmd s = .ok s' ∧ s'.ShowsSame ∧ s'.opened = true ∧
      ∃ log' : HistLog, log'.Refines s'.toHistoryState := by
  by_cases hcmd : cmd = []
  · exact ⟨s, if_pos hcmd, h, hopened, log, hlog⟩
  obtain ⟨hist, hsave, hring⟩ := History.holds_loadEntry hlog.ring (cmd, now)
  rw [← History.saveEntry_eq] at hsave
  refine ⟨{ s with hist, rl := R.addHistory cmd s.rl, file := s.file ++ encodeEntry now cmd }, ?_,
    ?_, hopened, ⟨log.entries ++ [(cmd, now)], _⟩, hring, rfl⟩
  · rw [historySaveCommand, if_neg hcmd]
    exact bind_ok.mpr ⟨hist, hsave, if_pos hopened⟩
  · let cmds := log.entries.map Prod.fst
    obtain ⟨n, hn⟩ : ∃ n, histSize = n + 1 := ⟨999, rfl⟩
    have hcount : s.hist.cmdCount = min histSize cmds.length := by
      rw [cmdCount_eq hlog.ring, List.length_map]
    have hcount' : hist.cmdCount = min n cmds.length + 1 := by
      rw [cmdCount_eq hring, List.length_append, List.length_singleton, List.length_map]
      omega
    have hsame : cmds.rtake histSize = (R.historyList s.rl).rtake s.hist.cmdCount := by
      have hcommands := History.commands_eq hlog.ring
      rw [map_rtake] at hcommands
      exact Except.ok.inj (hcommands.symm.trans h)
    -- what is left of both when the new command has come
    have hkept : cmds.rtake n = (R.historyList s.rl).rtake (min n cmds.length) := by
      have hhist : min n cmds.length ≤ histSize := by omega
      have hring' : min n cmds.length ≤ s.hist.cmdCount := by omega
      have hboth := congrArg (List.rtake · (min n cmds.length)) hsame
      rw [rtake_rtake, rtake_rtake, min_eq_right hhist, min_eq_right hring'] at hboth
      have hdrop : cmds.length - n = cmds.length - min n cmds.length := by omega
      rw [← hboth, List.rtake, List.rtake, hdrop]
    change hist.commands = .ok ((R.historyList (R.addHistory cmd s.rl)).rtake hist.cmdCount)
    rw [History.commands_eq hring, map_rtake, List.map_append, List.map_singleton, hn,
      List.rtake_concat_succ, hkept, hcount', R.historyList_addHistory, List.rtake_concat_succ]

/-- So once both show the same, they do whatever is entered. -/
theorem ShowsSame.saves (entered : List (Int64 × CStr)) :
    ∀ {s : ReadlineState R} {log : HistLog}, s.ShowsSame → log.Refines s.toHistoryState →
      s.opened = true → ∃ s',
        entered.foldlM (fun s c ↦ historySaveCommand c.1 c.2 s) s = .ok s' ∧ s'.ShowsSame := by
  induction entered with
  | nil => exact fun {s log} h _ _ ↦ ⟨s, rfl, h⟩
  | cons c entered ih =>
    intro s log h hlog hopened
    obtain ⟨s₁, hsave, h₁, hopened₁, log₁, hlog₁⟩ := h.save hlog hopened
    obtain ⟨s', hrest, h'⟩ := ih h₁ hlog₁ hopened₁
    exact ⟨s', bind_ok.mpr ⟨s₁, hsave, hrest⟩, h'⟩

end ReadlineState

end Novash
