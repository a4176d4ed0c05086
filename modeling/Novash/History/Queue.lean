import Novash.Foundations.RingBuffer
import Novash.History.History

/-!
# The history is a bounded queue

The two arrays of the history are one ring of entries (`History.ring`), and both ways in which an
entry comes into it are the same `RingBuffer.push`. So the history stands for the last `HIST_SIZE`
of the entries that were added since it was last cleared, and the traversals of `history` and
`history_trim` go through exactly these. `HistLog` keeps all of them, and `HistLog.Refines` relates
the two.
-/

namespace Novash

open Foundations

/-! ## The two arrays as a ring -/

namespace History

/-- A slot is what both arrays have there, if there is a command. -/
def entryAt (hist : History) (idx : ℕ) : Option HistEntry :=
  match hist.cmdList[idx]?, hist.timestamps[idx]? with
  | some (some cmd), some ts => some (cmd, ts)
  | _, _ => none

def ring (hist : History) : RingBuffer HistEntry where
  slots := hist.entryAt
  count := hist.cmdCount
  start := hist.start

variable {hist : History} {idx : ℕ} {e : HistEntry} {l : List HistEntry}

theorem command_of_entry (h : hist.entryAt idx = some e) : hist.command idx = .ok e.1 := by
  unfold entryAt at h
  split at h
  · next hcmd _ => cases h; rw [command, hcmd]
  · cases h

theorem timestamp_of_entry (h : hist.entryAt idx = some e) : hist.timestamp idx = .ok e.2 := by
  unfold entryAt at h
  split at h
  · next hts => cases h; rw [timestamp, hts]
  · cases h

theorem freeCommand_of_entry (h : hist.entryAt idx = some e) : hist.freeCommand idx = .ok () := by
  rw [freeCommand, command_of_entry h]
  rfl

/-- What is stored under an index is what is read there, and nothing else changes. -/
theorem store_ring (hist : History) (hidx : idx < histSize) (e : HistEntry) :
    ∃ hist', hist.store idx e.1 e.2 = .ok hist' ∧
      hist'.ring = { hist.ring with slots := Function.update hist.ring.slots idx (some e) } := by
  refine ⟨_, dif_pos hidx, ?_⟩
  refine congrArg (fun slots ↦ RingBuffer.mk slots hist.cmdCount hist.start) (funext fun i ↦ ?_)
  by_cases hi : i = idx
  · subst hi
    simp [entryAt, hidx]
  · rw [Function.update_of_ne hi]
    simp [entryAt, ring, Ne.symm hi]

theorem loadEntry_ring (h : hist.ring.Holds histSize l) (e : HistEntry) :
    ∃ hist', hist.loadEntry e = .ok hist' ∧ hist'.ring = hist.ring.push histSize e := by
  rw [loadEntry, RingBuffer.push]
  by_cases hfull : hist.cmdCount < histSize
  · rw [if_pos hfull, if_pos (show hist.ring.count < histSize from hfull)]
    obtain ⟨hist', hstore, hring⟩ := store_ring hist hfull e
    refine ⟨{ hist' with cmdCount := hist'.cmdCount + 1 }, by rw [hstore]; rfl, ?_⟩
    exact congrArg (fun r : RingBuffer HistEntry ↦ { r with count := r.count + 1 }) hring
  · rw [if_neg hfull, if_neg (show ¬hist.ring.count < histSize from hfull)]
    have hlt : hist.start < hist.ring.count := h.start_lt.trans_le (Nat.le_of_not_lt hfull)
    obtain ⟨old, hold⟩ := h.slot_of_lt hlt
    obtain ⟨hist', hstore, hring⟩ := store_ring hist h.start_lt e
    refine ⟨{ hist' with start := (hist'.start + 1) % histSize }, ?_, ?_⟩
    · rw [freeCommand_of_entry hold]
      simp only [bind, Except.bind, show hist.ring.start = hist.start from rfl] at hstore ⊢
      rw [hstore]
      rfl
    · exact congrArg
        (fun r : RingBuffer HistEntry ↦ { r with start := (r.start + 1) % histSize }) hring

/-- `history_save_command` stores where `history_load` would. -/
theorem saveEntry_eq (cmd : CStr) (now : Int64) :
    hist.saveEntry cmd now = hist.loadEntry (cmd, now) := by
  unfold saveEntry loadEntry
  by_cases hfull : hist.cmdCount < histSize
  · rw [if_pos hfull, if_pos hfull]
    simp only [pure_bind]
    unfold store
    split <;> rfl
  · rw [if_neg hfull, if_neg hfull]
    simp only [pure_bind]
    refine congrArg _ (funext fun _ ↦ ?_)
    unfold store
    split <;> rfl

/-! ## The traversals -/

/-- A traversal reads what the ring stands for. -/
theorem mapM_entry {β : Type} {f : ℕ → Except HistoryFault β} {g : ℕ → HistEntry → β}
    (h : hist.ring.Holds histSize l)
    (hf : ∀ i e, hist.entryAt (hist.index i) = some e → f i = .ok (g i e)) :
    (List.range hist.cmdCount).mapM f = .ok (l.mapIdx g) := by
  have hcount : hist.cmdCount = l.length := h.count_eq
  rw [hcount]
  have hreads : ∀ n, n ≤ l.length → (List.range n).mapM f = .ok ((l.mapIdx g).take n) := by
    intro n
    induction n with
    | zero => intro _; rfl
    | succ n ih =>
      intro hn
      have hread := hf n l[n] (h.slot_eq n hn)
      rw [List.range_succ, List.mapM_append, ih (Nat.le_of_succ_le hn), List.mapM_cons, hread,
        List.take_add_one, List.getElem?_mapIdx, List.getElem?_eq_getElem hn]
      rfl
  rw [hreads l.length le_rfl, List.take_of_length_le (List.length_mapIdx).le]

/-- What `history` prints for these entries. -/
def numbered (l : List HistEntry) : List CStr :=
  l.mapIdx fun i e ↦ showInt (i + 1) ++ "  ".toList ++ e.1

theorem list_eq (h : hist.ring.Holds histSize l) : hist.list = .ok (numbered l) := by
  refine mapM_entry h fun i e he ↦ ?_
  rw [command_of_entry he]
  rfl

theorem trimLines_eq (h : hist.ring.Holds histSize l) (hfull : l.length = histSize) :
    hist.trimLines = .ok (l.map fun e ↦ encodeEntry e.2 e.1) := by
  have hcount : hist.cmdCount = histSize := h.count_eq.trans hfull
  have hrange : List.range' hist.start histSize
      = (List.range hist.cmdCount).map (hist.start + ·) := by
    rw [hcount, List.range'_eq_map_range]
  have hmap : (l.mapIdx fun _ e ↦ encodeEntry e.2 e.1) = l.map fun e ↦ encodeEntry e.2 e.1 :=
    List.ext_getElem (by simp) (by simp)
  rw [trimLines, hrange, List.mapM_map, ← hmap]
  refine mapM_entry h fun i e he ↦ ?_
  change (hist.timestamp (hist.index i) >>= fun ts ↦ hist.command (hist.index i) >>= fun cmd ↦
    pure (encodeEntry ts cmd)) = _
  rw [timestamp_of_entry he, command_of_entry he]
  rfl

/-! ## Clearing -/

theorem clearCommand_entry (hist : History) {idx : ℕ} (hidx : idx < histSize) :
    ∃ hist', hist.clearCommand idx = .ok hist' ∧
      ∀ i, i ≠ idx → hist'.entryAt i = hist.entryAt i := by
  refine ⟨_, dif_pos hidx, fun i hi ↦ ?_⟩
  simp [entryAt, Ne.symm hi]

/-- The loop of `history -c` finds a command in every slot that it frees. -/
theorem clearLoop_ok (h : hist.ring.Holds histSize l) : ∃ hist', hist.clearLoop = .ok hist' := by
  have hlive : ∀ i < hist.cmdCount, ∃ e, hist.entryAt i = some e := fun i hi ↦ h.slot_of_lt hi
  have hcount : hist.cmdCount ≤ histSize := (h.count_eq.trans_le h.length_le :)
  have hclears : ∀ n, n ≤ hist.cmdCount → ∃ hist',
      (List.range n).foldlM (fun hist i ↦ do hist.freeCommand i; hist.clearCommand i) hist
        = .ok hist' ∧ ∀ i, n ≤ i → hist'.entryAt i = hist.entryAt i := by
    intro n
    induction n with
    | zero => exact fun _ ↦ ⟨hist, rfl, fun _ _ ↦ rfl⟩
    | succ n ih =>
      intro hn
      obtain ⟨hist₁, hrun, hsame⟩ := ih (Nat.le_of_succ_le hn)
      obtain ⟨e, he⟩ := hlive n hn
      obtain ⟨hist₂, hclear, hsame₂⟩ := clearCommand_entry hist₁ (Nat.lt_of_lt_of_le hn hcount)
      have hfree := freeCommand_of_entry ((hsame n le_rfl).trans he)
      refine ⟨hist₂, ?_, fun i hi ↦ ?_⟩
      · rw [List.range_succ, List.foldlM_append, hrun]
        simp only [bind, Except.bind, List.foldlM_cons, hfree, hclear, List.foldlM_nil]
        rfl
      · exact (hsame₂ i (by omega)).trans (hsame i (by omega))
  obtain ⟨hist', hrun, -⟩ := hclears hist.cmdCount le_rfl
  exact ⟨hist', hrun⟩

/-- Whatever is left in the arrays, the counters say that nothing is there. -/
theorem holds_empty (hcount : hist.cmdCount = 0) (hstart : hist.start = 0) :
    hist.ring.Holds histSize (([] : List HistEntry).rtake histSize) := by
  rw [List.rtake_nil]
  exact RingBuffer.holds_nil (by decide) hcount hstart

/-! ## Loading -/

theorem holds_loadEntry (h : hist.ring.Holds histSize (l.rtake histSize)) (e : HistEntry) :
    ∃ hist', hist.loadEntry e = .ok hist' ∧
      hist'.ring.Holds histSize ((l ++ [e]).rtake histSize) := by
  obtain ⟨hist', hload, hring⟩ := loadEntry_ring h e
  exact ⟨hist', hload, hring ▸ h.push_rtake e⟩

theorem holds_loadLines (stale : List Char) (lines : List (List Char)) :
    ∀ {hist : History} {l : List HistEntry}, hist.ring.Holds histSize (l.rtake histSize) →
      ∃ hist', lines.foldlM (loadLine stale) hist = .ok hist' ∧
        hist'.ring.Holds histSize ((l ++ lines.filterMap (decodeLine stale)).rtake histSize) := by
  induction lines with
  | nil => exact fun {hist l} h ↦ ⟨hist, rfl, by simpa using h⟩
  | cons line lines ih =>
    intro hist l h
    rw [List.foldlM_cons, List.filterMap_cons, loadLine]
    cases hline : decodeLine stale line with
    | none => exact ih h
    | some e =>
      obtain ⟨hist₁, hload, h₁⟩ := holds_loadEntry h e
      obtain ⟨hist', hrest, h'⟩ := ih h₁
      refine ⟨hist', ?_, by rwa [List.append_assoc] at h'⟩
      dsimp only
      rw [hload]
      exact hrest

end History

/-! ## All entries -/

/-- The entries that were added since the history was last empty, and the file. -/
structure HistLog where
  entries : List HistEntry := []
  file : List Char := []

namespace HistLog

/-- The entries of a file. -/
def decodeFile (stale file : List Char) : List HistEntry :=
  (fgetsLines [] file).filterMap (decodeLine stale)

/-- The file with these entries and no others. -/
def encodeFile (l : List HistEntry) : List Char := l.flatMap fun e ↦ encodeEntry e.2 e.1

/-- What each operation is about: nothing of rings, slots or arrays. -/
def step (log : HistLog) : HistOp → HistLog
  | .init => { log with entries := [] }
  | .load stale => { log with entries := log.entries ++ decodeFile stale log.file }
  | .save now cmd =>
    if cmd = [] then log
    else ⟨log.entries ++ [(cmd, now)], log.file ++ encodeEntry now cmd⟩
  | .history args => if args.head? = some "-c".toList then { log with entries := [] } else log
  | .trim =>
    if log.entries.length < histSize then log
    else { log with file := encodeFile (log.entries.rtake histSize) }
  | .overwrite file => { log with file }

def run (log : HistLog) (ops : List HistOp) : HistLog := ops.foldl step log

/-- A state of the program and all that was added: it has kept the last ones. -/
structure Refines (log : HistLog) (s : HistoryState) : Prop where
  ring : s.hist.ring.Holds histSize (log.entries.rtake histSize)
  file : s.file = log.file

end HistLog

/-- `history_load` comes before the first command is saved, as in `shell_state_init`. -/
def savesAfterLoad : List HistOp → Bool
  | [] => true
  | .load _ :: _ => true
  | .save _ cmd :: ops => cmd = [] && savesAfterLoad ops
  | _ :: ops => savesAfterLoad ops

namespace HistLog.Refines

open History

variable {log : HistLog} {s : HistoryState}

theorem load (h : log.Refines s) (stale : List Char) :
    ∃ s', historyLoad stale s = .ok s' ∧ (log.step (.load stale)).Refines s' ∧
      s'.opened = true := by
  obtain ⟨hist', hrun, hholds⟩ := holds_loadLines stale (fgetsLines [] s.file) h.ring
  refine ⟨⟨hist', s.file, true⟩, by rw [historyLoad, hrun]; rfl, ⟨?_, h.file⟩, rfl⟩
  rw [h.file] at hholds
  exact hholds

theorem save (h : log.Refines s) {now : Int64} {cmd : CStr}
    (hopened : s.opened = true ∨ cmd = []) :
    ∃ s', historySaveCommand now cmd s = .ok s' ∧ (log.step (.save now cmd)).Refines s' ∧
      s'.opened = s.opened := by
  rw [historySaveCommand, HistLog.step]
  by_cases hcmd : cmd = []
  · rw [if_pos hcmd, if_pos hcmd]
    exact ⟨s, rfl, h, rfl⟩
  · have hopen : s.opened = true := hopened.resolve_right hcmd
    obtain ⟨hist', hload, hholds⟩ := holds_loadEntry h.ring (cmd, now)
    rw [if_neg hcmd, if_neg hcmd, saveEntry_eq, hload]
    refine ⟨{ s with hist := hist', file := s.file ++ encodeEntry now cmd }, ?_, ⟨hholds, ?_⟩, rfl⟩
    · simp only [bind, Except.bind, hopen, if_true]
      rfl
    · rw [h.file]

theorem list (h : log.Refines s) :
    builtinHistory ["history".toList] s = .ok (numbered (log.entries.rtake histSize), s) := by
  change (s.hist.list >>= fun lines ↦ pure (lines, s)) = _
  rw [list_eq h.ring]
  rfl

theorem history (h : log.Refines s) (args : List CStr) :
    ∃ s', (HistOp.history args).run s = .ok s' ∧ (log.step (.history args)).Refines s' ∧
      s'.opened = s.opened := by
  cases args with
  | nil =>
    refine ⟨s, ?_, h, rfl⟩
    rw [HistOp.run, h.list]
    rfl
  | cons arg args =>
    rw [HistOp.run, HistLog.step, builtinHistory, List.tail_cons, List.head?_cons]
    by_cases harg : arg = "-c".toList
    · obtain ⟨hist', hclear⟩ := clearLoop_ok h.ring
      dsimp only
      rw [if_pos harg, if_pos (congrArg some harg), hclear]
      exact ⟨{ s with hist := { hist' with cmdCount := 0, start := 0 } }, rfl,
        ⟨holds_empty rfl rfl, h.file⟩, rfl⟩
    · dsimp only
      rw [if_neg harg, if_neg fun h ↦ harg (Option.some.inj h)]
      exact ⟨s, rfl, h, rfl⟩

/-- The file is rewritten when the ring is full, with what the ring stands for. -/
theorem trim (h : log.Refines s) :
    historyTrim s = .ok { s with file := (log.step .trim).file } := by
  have hcount : s.hist.cmdCount = min histSize log.entries.length :=
    h.ring.count_eq.trans (length_rtake _ _)
  rw [historyTrim, HistLog.step]
  by_cases hfull : log.entries.length < histSize
  · rw [if_pos (by omega), if_pos hfull, ← h.file]
  · rw [if_neg (by omega), if_neg hfull,
      trimLines_eq h.ring (by rw [length_rtake]; omega), HistLog.encodeFile, List.flatMap_def]
    simp only [bind, Except.bind, pure, Except.pure]

theorem step (h : log.Refines s) (op : HistOp)
    (hopened : s.opened = true ∨ ∀ now cmd, op = .save now cmd → cmd = []) :
    ∃ s', op.run s = .ok s' ∧ (log.step op).Refines s' ∧
      (s'.opened = s.opened ∨ s'.opened = true) := by
  cases op with
  | init => exact ⟨historyInit s, rfl, ⟨holds_empty rfl rfl, h.file⟩, Or.inl rfl⟩
  | load stale =>
    obtain ⟨s', hrun, h', hopen⟩ := h.load stale
    exact ⟨s', hrun, h', Or.inr hopen⟩
  | save now cmd =>
    obtain ⟨s', hrun, h', hopen⟩ := h.save (hopened.imp_right fun hsave ↦ hsave now cmd rfl)
    exact ⟨s', hrun, h', Or.inl hopen⟩
  | history args =>
    obtain ⟨s', hrun, h', hopen⟩ := h.history args
    exact ⟨s', hrun, h', Or.inl hopen⟩
  | trim =>
    refine ⟨_, h.trim, ⟨?_, rfl⟩, Or.inl rfl⟩
    rw [HistLog.step]
    split <;> exact h.ring
  | overwrite file => exact ⟨{ s with file }, rfl, ⟨h.ring, rfl⟩, Or.inl rfl⟩

theorem run (ops : List HistOp) :
    ∀ {log : HistLog} {s : HistoryState}, log.Refines s →
      (s.opened = true ∨ savesAfterLoad ops = true) →
      ∃ s', runHistory ops s = .ok s' ∧ (log.run ops).Refines s' := by
  induction ops with
  | nil => exact fun {log s} h _ ↦ ⟨s, rfl, h⟩
  | cons op ops ih =>
    intro log s h hopened
    have hop : s.opened = true ∨ ∀ now cmd, op = .save now cmd → cmd = [] := by
      refine hopened.imp_right fun hsaves now cmd hsave ↦ ?_
      subst hsave
      exact of_decide_eq_true (Bool.and_eq_true_iff.mp hsaves).1
    obtain ⟨s₁, hrun, h₁, hopen⟩ := h.step op hop
    have hopened₁ : s₁.opened = true ∨ savesAfterLoad ops = true := by
      rcases hopened with hs | hsaves
      · exact Or.inl (hopen.elim (·.trans hs) id)
      · cases op with
        | load stale =>
          obtain ⟨s₂, hrun₂, -, hopen₂⟩ := h.load stale
          cases hrun.symm.trans hrun₂
          exact Or.inl hopen₂
        | save now cmd => exact Or.inr (Bool.and_eq_true_iff.mp hsaves).2
        | _ => exact Or.inr hsaves
    obtain ⟨s', hrest, h'⟩ := ih h₁ hopened₁
    refine ⟨s', ?_, h'⟩
    rw [runHistory, List.foldlM_cons, hrun]
    exact hrest

end HistLog.Refines

/-- In every run the history is a bounded queue. Nothing outside the arrays is touched and no empty
slot is read; `history` lists the last `HIST_SIZE` of the entries that were added since the history
was last empty, and `history_trim` writes them, with their times, if there are that many. -/
theorem runHistory_queue {ops : List HistOp} (hops : savesAfterLoad ops = true)
    (s₀ : HistoryState) :
    ∃ s, runHistory (.init :: ops) s₀ = .ok s ∧
      let log := HistLog.run { file := s₀.file } ops
      builtinHistory ["history".toList] s
          = .ok (History.numbered (log.entries.rtake histSize), s) ∧
        historyTrim s = .ok { s with
          file := if log.entries.length < histSize then s.file
            else HistLog.encodeFile (log.entries.rtake histSize) } := by
  have hinit : HistLog.Refines { file := s₀.file } (historyInit s₀) :=
    ⟨History.holds_empty rfl rfl, rfl⟩
  obtain ⟨s, hrun, h⟩ := HistLog.Refines.run ops hinit (Or.inr hops)
  refine ⟨s, hrun, h.list, h.trim.trans ?_⟩
  rw [HistLog.step]
  split
  · rw [h.file]
  · dsimp only

/-- A file with one entry is loaded, and a command is saved. -/
theorem runHistory_queue_save :
    ∃ s, runHistory [.init, .load [], .save 7 "ls".toList] { file := "0;pwd\n".toList } = .ok s ∧
      builtinHistory ["history".toList] s = .ok (["1  pwd".toList, "2  ls".toList], s) := by
  have hops : savesAfterLoad [.load [], .save 7 "ls".toList] = true := by decide
  obtain ⟨s, hrun, hlist, -⟩ := runHistory_queue hops { file := "0;pwd\n".toList }
  have hentries : (HistLog.run { file := "0;pwd\n".toList }
      [.load [], .save 7 "ls".toList]).entries = [("pwd".toList, 0), ("ls".toList, 7)] := by
    decide +kernel
  rw [hentries, rtake_of_length_le (by decide)] at hlist
  exact ⟨s, hrun, hlist⟩

end Novash
