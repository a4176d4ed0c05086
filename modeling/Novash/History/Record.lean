import Novash.History.Queue

/-!
# One line of the history file

A command is written as `<time>;<command>`, by `history_save_command` and by `history_trim`, and
`history_load` splits a line at the first `;`. It takes the time from the third character of the
line on, as if the line began with a `#` and a blank or another character, and since the `;` has
been overwritten by then, it sees

* what is left of the time after its first two digits, or
* for a time of one digit, the beginning of the command.

So the command comes back as it was (`decodeLine_encodeEntry`), and the time only by chance
(`readsBack_iff`).
-/

namespace Novash

open Foundations

/-! ## Strings -/

/-- A string ends at the first terminator, whatever is behind it. -/
theorem cstr_append_nul (s t : List Char) : cstr (s ++ '\x00' :: t) = cstr s := by
  rw [cstr, cstr, List.takeWhile_append]
  split
  · next hall =>
    rw [List.takeWhile_cons_of_neg (by simp), List.append_nil]
    exact ((List.takeWhile_sublist _).eq_of_length hall).symm
  · rfl

theorem isdigit_or_minus_of_mem_showInt {v : ℤ} {c : Char} (h : c ∈ showInt v) :
    isdigit c = true ∨ c = '-' := by
  cases v with
  | ofNat n => exact Or.inl (Nat.isDigit_of_mem_toDigits (by decide) (by decide) h)
  | negSucc n =>
    rcases List.mem_cons.mp h with rfl | h
    · exact Or.inr rfl
    · exact Or.inl (Nat.isDigit_of_mem_toDigits (by decide) (by decide) h)

theorem notMem_showInt {v : ℤ} {c : Char} (hdigit : isdigit c = false) (hminus : c ≠ '-') :
    c ∉ showInt v := by
  intro h
  rcases isdigit_or_minus_of_mem_showInt h with h | h
  · rw [hdigit] at h
    cases h
  · exact hminus h

theorem length_showInt_le {ts : Int64} : (showInt ts.toInt).length ≤ 20 := by
  have hlo := ts.le_toInt
  have hhi := ts.toInt_lt
  have hdigits : ∀ n : ℕ, n ≤ 2 ^ 63 → (Nat.toDigits 10 n).length ≤ 19 := fun n hn ↦
    (Nat.length_toDigits_le_iff (by decide) (by decide)).mpr (hn.trans_lt (by decide))
  generalize ts.toInt = v at hlo hhi
  cases v with
  | ofNat n =>
    have := hdigits n (by rw [Int.ofNat_eq_natCast] at hhi; omega)
    rw [showInt]
    omega
  | negSucc n =>
    have := hdigits (n + 1) (by rw [Int.negSucc_eq] at hlo; omega)
    rw [showInt, List.length_cons]
    omega

/-! ## A line -/

/-- A command as it can stand in the file: on one line, and one string. -/
structure OneLine (cmd : CStr) : Prop where
  nulFree : NulFree cmd
  noNewline : '\n' ∉ cmd

/-- The time that is read back from the line of an entry. -/
def readTime (ts : Int64) (cmd : CStr) : Int64 :=
  if (showInt ts.toInt).length = 1 then atol (cmd ++ ['\n']) else atol ((showInt ts.toInt).drop 2)

variable {ts : Int64} {cmd : CStr}

/-- The fields of a line: the time is looked for in the line with its `;` overwritten, and the
command is what is behind the `;`, up to the newline. -/
theorem decodeLine_of_mem {line : List Char} (h : ';' ∈ cstr line) (stale : List Char) :
    decodeLine stale line
      = some ((cstr (line.drop (line.idxOf ';' + 1))).takeWhile (· ≠ '\n'),
          atol (cstr ((line.set (line.idxOf ';') '\x00' ++ '\x00' :: stale).drop 2))) := by
  have hsep : line.idxOf ';' < line.length :=
    List.idxOf_lt_length_iff.mpr ((List.takeWhile_sublist _).subset h)
  have hbuf : (line ++ '\x00' :: stale).set (line.idxOf ';') '\x00'
      = line.set (line.idxOf ';') '\x00' ++ '\x00' :: stale := List.set_append_left _ _ hsep
  have hcmd : cstr ((line.set (line.idxOf ';') '\x00' ++ '\x00' :: stale).drop
      (line.idxOf ';' + 1)) = cstr (line.drop (line.idxOf ';' + 1)) := by
    rw [List.drop_append_of_le_length (by rw [List.length_set]; exact hsep), cstr_append_nul,
      List.drop_set_of_lt (Nat.lt_succ_self _)]
  rw [decodeLine, if_pos h]
  dsimp only
  rw [hbuf, hcmd]

/-- The command of a line does not depend on what is behind it. -/
theorem decodeLine_map_fst (stale stale' line : List Char) :
    (decodeLine stale line).map Prod.fst = (decodeLine stale' line).map Prod.fst := by
  by_cases h : ';' ∈ cstr line
  · rw [decodeLine_of_mem h, decodeLine_of_mem h]
    rfl
  · rw [decodeLine, decodeLine, if_neg h, if_neg h]

/-- A command that was read is on one line. -/
theorem oneLine_of_decodeLine {stale line : List Char} {e : HistEntry}
    (h : decodeLine stale line = some e) : OneLine e.1 := by
  have hmem : ';' ∈ cstr line := by
    by_contra hnone
    rw [decodeLine, if_neg hnone] at h
    cases h
  rw [decodeLine_of_mem hmem] at h
  cases h
  constructor
  · intro hnul
    have hcstr := List.mem_takeWhile_imp ((List.takeWhile_sublist _).subset hnul)
    simp at hcstr
  · intro hnewline
    have hcmd := List.mem_takeWhile_imp hnewline
    simp at hcmd

/-- A line with one `;` before the command is read as this command. -/
theorem decodeLine_append_semicolon {h : List Char} (hnul : NulFree h) (hsemi : ';' ∉ h)
    (hcmd : OneLine cmd) (stale : List Char) :
    decodeLine stale (h ++ ';' :: (cmd ++ ['\n']))
      = some (cmd, atol (cstr ((h ++ '\x00' :: (cmd ++ '\n' :: '\x00' :: stale)).drop 2))) := by
  have hline : NulFree (h ++ ';' :: (cmd ++ ['\n'])) := by simp [hnul, hcmd.nulFree]
  have hsep : (h ++ ';' :: (cmd ++ ['\n'])).idxOf ';' = h.length := by
    rw [List.idxOf_append_of_notMem hsemi, List.idxOf_cons_self, Nat.add_zero]
  have htext : cstr (cmd ++ ['\n']) = cmd ++ ['\n'] := cstr_eq_self (by simp [hcmd.nulFree])
  have hnewline : ∀ c ∈ cmd, decide (c ≠ '\n') = true := by
    intro c hc
    simpa using fun heq : c = '\n' ↦ hcmd.noNewline (heq ▸ hc)
  rw [decodeLine_of_mem (by rw [cstr_eq_self hline]; simp), hsep, List.drop_length_add_append,
    List.drop_one, List.tail_cons, htext, List.takeWhile_append_of_pos hnewline,
    List.takeWhile_cons_of_neg (by simp), List.append_nil, List.set_append_right _ _ le_rfl,
    Nat.sub_self, List.set_cons_zero, List.append_assoc]
  simp

/-- A line that was written is read as the entry with the same command. -/
theorem decodeLine_encodeEntry (h : OneLine cmd) (stale : List Char) :
    decodeLine stale (encodeEntry ts cmd) = some (cmd, readTime ts cmd) := by
  have hnul : NulFree (showInt ts.toInt) := notMem_showInt (by decide) (by decide)
  have hsemi : ';' ∉ showInt ts.toInt := notMem_showInt (by decide) (by decide)
  rw [encodeEntry, decodeLine_append_semicolon hnul hsemi h, readTime]
  split
  · next hone =>
    -- past the only digit and the overwritten `;`
    rw [show 2 = (showInt ts.toInt).length + 1 by rw [hone], List.drop_length_add_append,
      List.drop_one, List.tail_cons, ← List.singleton_append, ← List.append_assoc, cstr_append_nul,
      cstr_eq_self (by simp [h.nulFree])]
  · next hone =>
    have hpos : (showInt ts.toInt).length ≠ 0 := by
      rw [Ne, List.length_eq_zero_iff]
      cases ts.toInt <;> simp [showInt]
    rw [List.drop_append_of_le_length (by omega), cstr_append_nul, cstr_eq_self]
    exact fun hmem ↦ hnul (List.mem_of_mem_drop hmem)

/-! ## Lines of a file -/

theorem fgetsLines_append (pre post : List Char) : ∀ line,
    fgetsLines line (pre ++ '\n' :: post)
      = fgetsLines line (pre ++ ['\n']) ++ fgetsLines [] post := by
  induction pre with
  | nil => intro line; simp [fgetsLines]
  | cons c pre ih =>
    intro line
    rw [List.cons_append, List.cons_append, fgetsLines, fgetsLines]
    split
    · rw [ih, List.cons_append]
    · rw [ih]

/-- A line that has room in the buffer is read at once. -/
theorem fgetsLines_line (s : List Char) (hs : '\n' ∉ s) : ∀ line,
    line.length + s.length + 2 ≤ lineSize →
      fgetsLines line (s ++ ['\n']) = [line ++ s ++ ['\n']] := by
  induction s with
  | nil => intro line _; simp [fgetsLines]
  | cons c s ih =>
    intro line hlen
    rw [List.length_cons] at hlen
    have hc : ¬(c = '\n' ∨ line.length + 2 = lineSize) := by
      rintro (rfl | hfull)
      · exact hs List.mem_cons_self
      · omega
    rw [List.cons_append, fgetsLines, if_neg hc, ih fun h ↦ hs (List.mem_cons_of_mem _ h)]
    · simp
    · rw [List.length_append, List.length_singleton]
      omega

/-- The file is empty, or its last line is complete. -/
def EndsLine (file : List Char) : Prop := file = [] ∨ ∃ s, file = s ++ ['\n']

theorem endsLine_encodeEntry (ts : Int64) (cmd : CStr) : EndsLine (encodeEntry ts cmd) :=
  Or.inr ⟨showInt ts.toInt ++ ';' :: cmd, by simp [encodeEntry]⟩

namespace HistLog

theorem decodeFile_append {pre : List Char} (h : EndsLine pre) (stale post : List Char) :
    decodeFile stale (pre ++ post) = decodeFile stale pre ++ decodeFile stale post := by
  rcases h with rfl | ⟨s, rfl⟩
  · rfl
  · rw [decodeFile, decodeFile, decodeFile, List.append_assoc, List.singleton_append,
      fgetsLines_append, List.filterMap_append]

/-- The line of an entry that has room in the buffer. -/
theorem decodeFile_encodeEntry (h : OneLine cmd) (hlen : (encodeEntry ts cmd).length < lineSize)
    (stale : List Char) : decodeFile stale (encodeEntry ts cmd) = [(cmd, readTime ts cmd)] := by
  have hnewline : '\n' ∉ showInt ts.toInt ++ ';' :: cmd := by
    simp [h.noNewline, @notMem_showInt ts.toInt '\n' (by decide) (by decide)]
  have hline : encodeEntry ts cmd = (showInt ts.toInt ++ ';' :: cmd) ++ ['\n'] := by
    simp [encodeEntry]
  have hread : fgetsLines [] (encodeEntry ts cmd) = [encodeEntry ts cmd] := by
    rw [hline] at hlen ⊢
    rw [List.length_append, List.length_singleton] at hlen
    rw [fgetsLines_line _ hnewline [] (by rw [List.length_nil]; omega)]
    rfl
  rw [decodeFile, hread, List.filterMap_cons, decodeLine_encodeEntry h]
  rfl

end HistLog

/-! ## The time -/

private theorem takeWhile_isdigit_newline (t : CStr) :
    (t ++ ['\n']).takeWhile isdigit = t.takeWhile isdigit := by
  induction t with
  | nil => rfl
  | cons c t ih =>
    rw [List.cons_append, List.takeWhile_cons, List.takeWhile_cons]
    split
    · rw [ih]
    · rfl

private theorem strtolSign_newline {u : CStr} (hu : u ≠ []) :
    strtolSign (u ++ ['\n']) = ((strtolSign u).1, (strtolSign u).2 ++ ['\n']) := by
  obtain ⟨c, u, rfl⟩ := List.exists_cons_of_ne_nil hu
  rw [List.cons_append]
  unfold strtolSign
  split <;> split <;> simp_all

/-- A number at the beginning of a line is read without the newline. -/
theorem atol_append_newline (s : CStr) : atol (s ++ ['\n']) = atol s := by
  have hvalue : (strtol (s ++ ['\n'])).1 = (strtol s).1 := by
    rw [strtol, strtol]
    by_cases hs : s.dropWhile isspace = []
    · rw [List.dropWhile_append, hs]
      rfl
    · rw [List.dropWhile_append, if_neg (by simpa using hs), strtolSign_newline hs]
      dsimp only
      rw [takeWhile_isdigit_newline]
      split <;> rfl
  rw [atol, atol, hvalue]

private theorem clampLong_natCast {n : ℕ} (h : n < 2 ^ 63) : clampLong n = n := by
  rw [clampLong]
  omega

/-- What `strtol` makes of nothing but digits. -/
theorem strtol_digits {d : CStr} (hd : ∀ c ∈ d, isdigit c = true) :
    (strtol d).1 = clampLong (Nat.ofDigitChars 10 d 0 : ℤ) := by
  cases d with
  | nil => rfl
  | cons c d =>
    have hc : isdigit c = true := hd c List.mem_cons_self
    have hspace : (c :: d).dropWhile isspace = c :: d :=
      List.dropWhile_cons_of_neg (by simp [isspace_eq_false_of_isdigit hc])
    have hsign : strtolSign (c :: d) = (1, c :: d) := by
      unfold strtolSign
      split <;> simp_all [isdigit]
    rw [strtol, hspace, hsign]
    dsimp only
    rw [List.takeWhile_eq_self_iff.mpr hd, if_neg (List.cons_ne_nil _ _), one_mul]

/-- Without its first two digits a number is smaller. -/
theorem ofDigitChars_drop_two_lt (n : ℕ) (hn : 10 ≤ n) :
    Nat.ofDigitChars 10 ((Nat.toDigits 10 n).drop 2) 0 < n := by
  induction n using Nat.strong_induction_on with
  | _ n ih =>
    by_cases hsmall : n < 100
    · have hlen : (Nat.toDigits 10 n).length ≤ 2 :=
        (Nat.length_toDigits_le_iff (by decide) (by decide)).mpr hsmall
      rw [List.drop_eq_nil_of_le hlen, Nat.ofDigitChars_nil]
      omega
    · have hlen : ¬(Nat.toDigits 10 (n / 10)).length ≤ 1 := by
        rw [Nat.length_toDigits_le_iff (by decide) (by decide)]
        omega
      have hlt := ih (n / 10) (by omega) (by omega)
      rw [Nat.toDigits_of_base_le (by decide) hn, List.drop_append_of_le_length (by omega),
        Nat.ofDigitChars_append, Nat.ofDigitChars_cons_digitChar_of_lt_ten (by omega),
        Nat.ofDigitChars_nil]
      omega

/-- The time of an entry is read back if it has one digit and the command begins with it. -/
theorem readTime_eq_iff (hts : 0 ≤ ts) : readTime ts cmd = ts ↔ ts ≤ 9 ∧ atol cmd = ts := by
  rw [Int64.le_iff_toInt_le] at hts ⊢
  obtain ⟨n, hn⟩ := Int.eq_ofNat_of_zero_le hts
  have hshow : showInt ts.toInt = Nat.toDigits 10 n := by rw [hn]; rfl
  have hnine : (9 : Int64).toInt = 9 := rfl
  have hlen : (Nat.toDigits 10 n).length ≤ 1 ↔ n < 10 :=
    Nat.length_toDigits_le_iff (by decide) (by decide)
  have hpos : 0 < (Nat.toDigits 10 n).length := Nat.length_toDigits_pos
  rw [readTime, hshow, hnine, hn]
  split
  · next hone =>
    rw [atol_append_newline]
    exact (and_iff_right (by have := hlen.mp hone.le; omega)).symm
  · next hone =>
    have hten : 10 ≤ n := by
      by_contra hlt
      have := hlen.mpr (by omega)
      omega
    refine iff_of_false (fun heq ↦ ?_) fun h ↦ absurd h.1 (by omega)
    -- the number read is smaller than the time
    have hlt := ofDigitChars_drop_two_lt n hten
    have hmax : n < 2 ^ 63 := by
      have := ts.toInt_lt
      omega
    have hdigits : ∀ c ∈ (Nat.toDigits 10 n).drop 2, isdigit c = true := fun c hc ↦
      Nat.isDigit_of_mem_toDigits (by decide) (by decide) (List.mem_of_mem_drop hc)
    rw [atol, strtol_digits hdigits, clampLong_natCast (hlt.trans hmax)] at heq
    have hread := congrArg Int64.toInt heq
    rw [Int64.toInt_ofInt_of_le (by omega) (by omega), hn] at hread
    omega

/-! ## Reading back -/

/-- Wherever the line of an entry stands in the file, `history_load` reads this entry there. -/
def ReadsBack (ts : Int64) (cmd : CStr) : Prop :=
  ∀ (stale pre post : List Char) (log : HistLog) (s : HistoryState), EndsLine pre →
    log.Refines s → s.file = pre ++ encodeEntry ts cmd ++ post →
    ∃ s', historyLoad stale s = .ok s' ∧ s'.hist.ring.Holds histSize
      ((log.entries ++ HistLog.decodeFile stale pre
        ++ (cmd, ts) :: HistLog.decodeFile stale post).rtake histSize)

section

variable (hcmd : OneLine cmd) (hlen : (encodeEntry ts cmd).length < lineSize)

include hcmd hlen

theorem historyLoad_encodeEntry (stale : List Char) {pre post : List Char} {log : HistLog}
    {s : HistoryState} (hpre : EndsLine pre) (hlog : log.Refines s)
    (hfile : s.file = pre ++ encodeEntry ts cmd ++ post) :
    ∃ s', historyLoad stale s = .ok s' ∧ s'.hist.ring.Holds histSize
      ((log.entries ++ HistLog.decodeFile stale pre
        ++ (cmd, readTime ts cmd) :: HistLog.decodeFile stale post).rtake histSize) := by
  obtain ⟨s', hload, hs', -⟩ := hlog.load stale
  refine ⟨s', hload, ?_⟩
  have hring := hs'.ring
  rw [HistLog.step, ← hlog.file, hfile, List.append_assoc, HistLog.decodeFile_append hpre,
    HistLog.decodeFile_append (endsLine_encodeEntry ts cmd),
    HistLog.decodeFile_encodeEntry hcmd hlen, ← List.append_assoc] at hring
  exact hring

theorem readsBack_iff_readTime : ReadsBack ts cmd ↔ readTime ts cmd = ts := by
  constructor
  · intro hback
    -- a file of this line only
    let s : HistoryState := { file := encodeEntry ts cmd }
    have hlog : HistLog.Refines { file := encodeEntry ts cmd } s :=
      ⟨History.holds_empty rfl rfl, rfl⟩
    have hfile : s.file = [] ++ encodeEntry ts cmd ++ [] := (List.append_nil _).symm
    obtain ⟨s₁, hload₁, h₁⟩ := hback [] [] [] _ s (Or.inl rfl) hlog hfile
    obtain ⟨s₂, hload₂, h₂⟩ := historyLoad_encodeEntry hcmd hlen [] (Or.inl rfl) hlog hfile
    cases hload₁.symm.trans hload₂
    have hone : ∀ t : Int64, ([] ++ HistLog.decodeFile [] [] ++ (cmd, t)
        :: HistLog.decodeFile [] []).rtake histSize = [(cmd, t)] :=
      fun t ↦ rtake_of_length_le (by change 1 ≤ 1000; decide)
    rw [hone] at h₁ h₂
    exact congrArg Prod.snd (List.cons.inj (h₂.unique h₁)).1
  · intro htime stale pre post log s hpre hlog hfile
    have hload := historyLoad_encodeEntry hcmd hlen stale hpre hlog hfile
    rwa [htime] at hload

end

/-- The line of an entry is read back as the entry if and only if the time has one digit and the
command begins with that number. -/
theorem readsBack_iff (hts : 0 ≤ ts) (hcmd : OneLine cmd)
    (hlen : (encodeEntry ts cmd).length < lineSize) :
    ReadsBack ts cmd ↔ ts ≤ 9 ∧ atol cmd = ts :=
  (readsBack_iff_readTime hcmd hlen).trans (readTime_eq_iff hts)

theorem readsBack_seven : ReadsBack 7 "7z x a.7z".toList :=
  (readsBack_iff (by decide) ⟨by decide, by decide⟩ (by decide)).mpr ⟨by decide, by decide⟩

/-- The line `1700000000;ls`. -/
theorem not_readsBack : ¬∀ (ts : Int64) (cmd : CStr), 0 ≤ ts → cmd ≠ [] → OneLine cmd →
    (encodeEntry ts cmd).length < lineSize → ReadsBack ts cmd := by
  intro hall
  have hcmd : OneLine "ls".toList := ⟨by decide, by decide⟩
  have hlen : (encodeEntry 1700000000 "ls".toList).length < lineSize := by decide
  have hback := hall 1700000000 "ls".toList (by decide) (by decide) hcmd hlen
  exact absurd ((readsBack_iff_readTime hcmd hlen).mp hback) (by decide)

end Novash
