import Novash.History.Disk

/-!
# Records that do not fit the buffer

The writers put no bound on the length of a record, and `history_load` reads with `fgets` into a
buffer of `lineSize` bytes, without looking whether a line was complete. What it makes of a record
is told by its length alone (`texts_record`): the command is cut off where the buffer ends, and what
is behind is read as lines of their own, each of which is an entry again if there is a `;` in it.

None of these entries has the text of the command. So a file comes back as it was written exactly
when every record that is kept fits the buffer.
-/

namespace Novash

open Foundations

namespace HistLog

variable {ts : Int64} {cmd : CStr}

/-! ## Reading in pieces -/

/-- A line is read up to the end of the buffer, and then what is left of it. -/
theorem fgetsLines_piece (s : List Char) : ∀ line, '\n' ∉ s → line.length + 2 ≤ lineSize →
    fgetsLines line (s ++ ['\n'])
      = (line ++ (s ++ ['\n']).take (lineSize - 1 - line.length)) ::
        fgetsLines [] ((s ++ ['\n']).drop (lineSize - 1 - line.length)) := by
  induction s with
  | nil =>
    intro line _ hlen
    obtain ⟨k, hk⟩ : ∃ k, lineSize - 1 - line.length = k + 1 :=
      ⟨lineSize - 2 - line.length, by omega⟩
    rw [hk]
    simp [fgetsLines]
  | cons c s ih =>
    intro line hs hlen
    rw [List.mem_cons, not_or] at hs
    rw [List.cons_append, fgetsLines]
    by_cases hfull : line.length + 2 = lineSize
    · have hroom : lineSize - 1 - line.length = 1 := by omega
      rw [if_pos (Or.inr hfull), hroom]
      rfl
    · have hroom : lineSize - 1 - line.length = lineSize - 1 - (line ++ [c]).length + 1 := by
        rw [List.length_append, List.length_singleton]
        omega
      have hlen' : (line ++ [c]).length + 2 ≤ lineSize := by
        rw [List.length_append, List.length_singleton]
        omega
      rw [if_neg (not_or.mpr ⟨fun hc ↦ hs.1 hc.symm, hfull⟩), ih _ hs.2 hlen', hroom,
        List.take_succ_cons, List.drop_succ_cons, List.append_assoc]
      rfl

theorem length_le_of_mem_fgetsLines (file : List Char) :
    ∀ line, ∀ l ∈ fgetsLines line file, l.length ≤ line.length + file.length := by
  induction file with
  | nil =>
    intro line l hl
    rw [fgetsLines] at hl
    split at hl
    · exact absurd hl List.not_mem_nil
    · rw [List.mem_singleton.mp hl]
      exact Nat.le_add_right _ _
  | cons c file ih =>
    intro line l hl
    rw [fgetsLines] at hl
    rw [List.length_cons]
    split at hl
    · rcases List.mem_cons.mp hl with rfl | hl
      · rw [List.length_append, List.length_singleton]
        omega
      · have hle := ih [] l hl
        rw [List.length_nil] at hle
        omega
    · have hle := ih (line ++ [c]) l hl
      rw [List.length_append, List.length_singleton] at hle
      omega

/-- A text has no room for the `;` before it. -/
theorem length_lt_of_mem_texts {file : List Char} {text : CStr} (h : text ∈ texts file) :
    text.length < file.length := by
  obtain ⟨e, he, rfl⟩ := List.mem_map.mp h
  obtain ⟨line, hline, hdecode⟩ := List.mem_filterMap.mp he
  have hmem : ';' ∈ cstr line := by
    by_contra hnone
    rw [decodeLine, if_neg hnone] at hdecode
    cases hdecode
  rw [decodeLine_of_mem hmem] at hdecode
  cases hdecode
  have hsep : line.idxOf ';' < line.length :=
    List.idxOf_lt_length_iff.mpr ((List.takeWhile_sublist _).subset hmem)
  have hle := length_le_of_mem_fgetsLines file [] line hline
  rw [List.length_nil, Nat.zero_add] at hle
  calc ((cstr (line.drop (line.idxOf ';' + 1))).takeWhile (· ≠ '\n')).length
      ≤ (line.drop (line.idxOf ';' + 1)).length :=
        ((List.takeWhile_sublist _).trans (List.takeWhile_sublist _)).length_le
    _ = line.length - (line.idxOf ';' + 1) := List.length_drop
    _ < file.length := by omega

/-! ## One record -/

/-- The text of a line whose first `;` is behind `h`, whether or not the line is complete. -/
theorem map_fst_decodeLine {h : List Char} (hnul : NulFree h) (hsemi : ';' ∉ h)
    (stale rest : List Char) : (decodeLine stale (h ++ ';' :: rest)).map Prod.fst
      = some (cstr (rest.takeWhile (· ≠ '\n'))) := by
  have hall : ∀ c ∈ h, decide (c ≠ '\x00') = true := by
    intro c hc
    simpa using fun heq : c = '\x00' ↦ hnul (heq ▸ hc)
  have hmem : ';' ∈ cstr (h ++ ';' :: rest) := by
    rw [cstr, List.takeWhile_append_of_pos hall, List.takeWhile_cons_of_pos (by decide)]
    exact List.mem_append_right _ List.mem_cons_self
  have hsep : (h ++ ';' :: rest).idxOf ';' = h.length := by
    rw [List.idxOf_append_of_notMem hsemi, List.idxOf_cons_self, Nat.add_zero]
  rw [decodeLine_of_mem hmem, hsep, List.drop_length_add_append, List.drop_one, List.tail_cons]
  simp only [Option.map_some, cstr, List.takeWhile_takeWhile, and_comm]

/-- How much of a command there is room for, behind its time and the `;`. -/
def room (ts : Int64) : ℕ := lineSize - 2 - (showInt ts.toInt).length

theorem length_add_room (ts : Int64) :
    (showInt ts.toInt).length + (room ts + 1) = lineSize - 1 := by
  have hlen : (showInt ts.toInt).length ≤ 20 := length_showInt_le
  rw [room, lineSize]
  omega

/-- A record is read as an entry with as much of the command as there is room for, and then as what
is behind it, from a new line on. -/
theorem texts_record (hcmd : '\n' ∉ cmd) :
    texts (encodeEntry ts cmd)
      = cstr (cmd.take (room ts)) :: texts ((cmd ++ ['\n']).drop (room ts)) := by
  have hnewline : '\n' ∉ showInt ts.toInt ++ ';' :: cmd := by
    simp [hcmd, @notMem_showInt ts.toInt '\n' (by decide) (by decide)]
  have hrecord : encodeEntry ts cmd = (showInt ts.toInt ++ ';' :: cmd) ++ ['\n'] := by
    simp [encodeEntry]
  have hread := fgetsLines_piece _ [] hnewline (by rw [List.length_nil, lineSize]; omega)
  rw [← hrecord, List.length_nil, Nat.sub_zero, ← length_add_room ts, encodeEntry,
    List.take_length_add_append, List.drop_length_add_append, List.take_succ_cons,
    List.drop_succ_cons, List.nil_append, ← encodeEntry] at hread
  -- the newline is not part of the text, if there was room for it
  have htext : ((cmd ++ ['\n']).take (room ts)).takeWhile (· ≠ '\n') = cmd.take (room ts) := by
    have hall : ∀ c ∈ cmd.take (room ts), decide (c ≠ '\n') = true := by
      intro c hc
      simpa using fun heq : c = '\n' ↦ hcmd (heq ▸ List.mem_of_mem_take hc)
    rw [List.take_append, List.takeWhile_append_of_pos hall]
    cases room ts - cmd.length <;> simp
  have hfirst := map_fst_decodeLine (notMem_showInt (by decide) (by decide) : NulFree _)
    (notMem_showInt (by decide) (by decide)) [] ((cmd ++ ['\n']).take (room ts))
      (h := showInt ts.toInt)
  obtain ⟨e, he, hfst⟩ := Option.map_eq_some_iff.mp hfirst
  rw [texts, decodeFile, hread, List.filterMap_cons, he, List.map_cons, hfst, htext]
  rfl

/-- The record can be read at once, but perhaps for its newline, and holds one string. -/
def FitsLine (e : HistEntry) : Prop :=
  NulFree e.1 ∧ (encodeEntry e.2 e.1).length ≤ lineSize

theorem length_encodeEntry (ts : Int64) (cmd : CStr) :
    (encodeEntry ts cmd).length = (showInt ts.toInt).length + cmd.length + 2 := by
  simp only [encodeEntry, List.length_append, List.length_cons, List.length_nil]
  omega

theorem texts_of_fitsLine (hcmd : '\n' ∉ cmd) (h : FitsLine (cmd, ts)) :
    texts (encodeEntry ts cmd) = [cmd] := by
  have hlen : (encodeEntry ts cmd).length ≤ lineSize := h.2
  have hroom := length_add_room ts
  rw [length_encodeEntry] at hlen
  have hle : cmd.length ≤ room ts := by
    rw [lineSize] at hlen hroom
    omega
  rw [texts_record hcmd, List.take_of_length_le hle, cstr_eq_self h.1, List.drop_append,
    List.drop_eq_nil_of_le hle]
  -- behind the command is the newline, if anything
  cases room ts - cmd.length with
  | zero => rfl
  | succ k => simp [texts, decodeFile, fgetsLines]

theorem notMem_texts_of_not_fitsLine (hcmd : '\n' ∉ cmd) (h : ¬FitsLine (cmd, ts)) :
    texts (encodeEntry ts cmd) ≠ [] ∧ cmd ∉ texts (encodeEntry ts cmd) := by
  have hshow : (showInt ts.toInt).length ≤ 20 := length_showInt_le
  have hroom := length_add_room ts
  rw [lineSize] at hroom
  rw [texts_record hcmd]
  refine ⟨List.cons_ne_nil _ _, List.not_mem_cons_of_ne_of_not_mem (fun heq ↦ ?_) fun hmem ↦ ?_⟩
  · -- the command would be a string, of which nothing was cut off
    refine h (show NulFree cmd ∧ (encodeEntry ts cmd).length ≤ lineSize from ⟨?_, ?_⟩)
    · rw [heq]
      exact fun hnul ↦ by simpa using List.mem_takeWhile_imp hnul
    · have hle := congrArg List.length heq
      have htake : (cstr (cmd.take (room ts))).length ≤ (cmd.take (room ts)).length :=
        (List.takeWhile_sublist _).length_le
      rw [List.length_take] at htake
      rw [length_encodeEntry, lineSize]
      omega
  · have hlt := length_lt_of_mem_texts hmem
    rw [List.length_drop, List.length_append, List.length_singleton] at hlt
    omega

end HistLog

/-! ## A file of records -/

/-- A shell that starts with these records in its file has an entry for each of the last ones, with
the command of the record. -/
def LoadsRecords (records : List HistEntry) : Prop :=
  ∀ (stale : List Char) (s₀ : HistoryState), s₀.file = HistLog.encodeFile records →
    ∃ s, runHistory [.init, .load stale] s₀ = .ok s ∧
      s.hist.commands = .ok ((records.map Prod.fst).rtake histSize)

theorem loadsRecords_iff_texts {records : List HistEntry} :
    LoadsRecords records ↔
      (HistLog.texts (HistLog.encodeFile records)).rtake histSize
        = (records.map Prod.fst).rtake histSize := by
  constructor
  · intro hloads
    obtain ⟨s, hrun, hcommands⟩ := hloads [] { file := HistLog.encodeFile records } rfl
    obtain ⟨s', hrun', hcommands'⟩ :=
      HistLog.commands_of_load [] { file := HistLog.encodeFile records }
    cases hrun.symm.trans hrun'
    exact Except.ok.inj (hcommands'.symm.trans hcommands)
  · intro htexts stale s₀ hfile
    obtain ⟨s, hrun, hcommands⟩ := HistLog.commands_of_load stale s₀
    rw [hfile, htexts] at hcommands
    exact ⟨s, hrun, hcommands⟩

/-- **Records of any length.** A file of records is loaded as it was written exactly when each
record that is kept is no longer than the buffer and has no NUL in it. -/
theorem loadsRecords_iff {records : List HistEntry} (hlines : ∀ e ∈ records, '\n' ∉ e.1) :
    LoadsRecords records ↔ ∀ e ∈ records.rtake histSize, HistLog.FitsLine e := by
  rw [loadsRecords_iff_texts, HistLog.texts_encodeFile_eq]
  exact rtake_flatMap_eq_iff records
    (fun e he hfits ↦ HistLog.texts_of_fitsLine (hlines e he) hfits)
    (fun e he hlong ↦ HistLog.notMem_texts_of_not_fitsLine (hlines e he) hlong) histSize

theorem notMem_replicate_a {c : Char} (hc : c ≠ 'a') (n : ℕ) : c ∉ List.replicate n 'a' :=
  fun h ↦ hc (List.eq_of_mem_replicate h)

/-- A record that fills the buffer, up to the newline. -/
theorem loadsRecords_iff_full : LoadsRecords [(List.replicate 1020 'a', 10)] := by
  have hmem : ∀ e ∈ [(List.replicate 1020 'a', (10 : Int64))], e = (List.replicate 1020 'a', 10) :=
    fun e he ↦ List.mem_singleton.mp he
  refine (loadsRecords_iff fun e he ↦ ?_).mpr fun e he ↦ ?_
  · rw [hmem e he]
    exact notMem_replicate_a (by decide) 1020
  · rw [hmem e (List.mem_of_mem_drop he)]
    refine ⟨notMem_replicate_a (by decide) 1020, ?_⟩
    rw [HistLog.length_encodeEntry, List.length_replicate]
    decide

/-- With one byte more in front of `;b`, the record is two entries. -/
theorem not_loadsRecords :
    ¬∀ records : List HistEntry, (∀ e ∈ records, '\n' ∉ e.1) → LoadsRecords records := by
  intro hall
  let cmd : CStr := List.replicate 1021 'a' ++ ";b".toList
  have hcmd : '\n' ∉ cmd := fun h ↦
    (List.mem_append.mp h).elim (notMem_replicate_a (by decide) 1021) (by decide)
  have htexts : HistLog.texts (encodeEntry 0 cmd) = [List.replicate 1021 'a', "b".toList] := by
    have hroom : HistLog.room 0 = (List.replicate 1021 'a').length := by
      rw [List.length_replicate]
      decide
    rw [HistLog.texts_record hcmd, hroom, List.take_left,
      cstr_eq_self (notMem_replicate_a (by decide) 1021), List.append_assoc, List.drop_left]
    rfl
  have hloads := loadsRecords_iff_texts.mp (hall [(cmd, 0)] fun e he ↦ ?_)
  · rw [HistLog.texts_encodeFile_eq, List.flatMap_singleton, htexts] at hloads
    have hlen := congrArg List.length hloads
    rw [length_rtake, length_rtake] at hlen
    exact absurd hlen (by decide)
  · rw [List.mem_singleton.mp he]
    exact hcmd

end Novash
