import Novash.Basic.CString
import Novash.Foundations.Results

/-!
# The history of commands

`history.c` and the builtin `history`. The last `HIST_SIZE` commands are kept in two arrays that are
used as one ring, each with the time at which it was entered; `HISTFILE` has a line for every
command, which is appended at once and cut down to what the ring holds when the shell ends.

An access outside of the arrays ends the model's functions, and so does reading a slot with no
command in it, also where the program would go on (`free` takes a null pointer).

Not here: the list that readline keeps for itself (`add_history`, see `History/Readline.lean`), and
that `HISTFILE` cannot be opened, which ends the shell.
-/

namespace Novash

open Foundations

/-- `HIST_SIZE`. -/
def histSize : ℕ := 1000

/-- A command and its timestamp, a `time_t`. -/
abbrev HistEntry := CStr × Int64

/-! ## Lines of the file -/

/-- `fprintf(fp, "%ld;%s\n", ts, cmd)`. -/
def encodeEntry (ts : Int64) (cmd : CStr) : CStr := showInt ts.toInt ++ ';' :: (cmd ++ ['\n'])

/-- `atol`. -/
def atol (s : CStr) : Int64 := Int64.ofInt (strtol s).1

/-- `sizeof(line)` in `history_load`. -/
def lineSize : ℕ := 1024

/-- What the successive calls of `fgets(line, sizeof(line), fp)` read: each stops after a newline,
at the end of the file, or when only the place of the terminator is left. `line` has been read into
the buffer so far. -/
def fgetsLines : (line : List Char) → (file : List Char) → List (List Char)
  | line, [] => if line = [] then [] else [line]
  | line, c :: file =>
    if c = '\n' ∨ line.length + 2 = lineSize then (line ++ [c]) :: fgetsLines [] file
    else fgetsLines (line ++ [c]) file

/-- The body of the loop of `history_load`, up to the ring. `stale` is what the buffer holds behind
the terminator: `line + 2` points there when the line is a `;` and nothing else. -/
def decodeLine (stale : List Char) (line : List Char) : Option HistEntry :=
  -- `strchr` looks no further than the first NUL
  if ';' ∈ cstr line then
    let sep := line.idxOf ';'
    let buf := (line ++ '\x00' :: stale).set sep '\x00'
    let ts := atol (cstr (buf.drop 2))
    let cmd := cstr (buf.drop (sep + 1))
    some (cmd.takeWhile (· ≠ '\n'), ts)
  else none

/-! ## The ring -/

structure History where
  cmdList : Vector (Option CStr) histSize := Vector.replicate histSize none
  timestamps : Vector Int64 histSize := Vector.replicate histSize 0
  cmdCount : ℕ := 0
  start : ℕ := 0

/-- Why an operation does not end well. -/
inductive HistoryFault
  | outOfRange
  | null
  /-- `hist->fp` is used before `history_load` has set it. -/
  | unopened
  deriving DecidableEq, Repr

namespace History

def command (hist : History) (idx : ℕ) : Except HistoryFault CStr :=
  match hist.cmdList[idx]? with
  | none => .error .outOfRange
  | some none => .error .null
  | some (some cmd) => .ok cmd

def timestamp (hist : History) (idx : ℕ) : Except HistoryFault Int64 :=
  match hist.timestamps[idx]? with
  | none => .error .outOfRange
  | some ts => .ok ts

/-- `free(hist->cmd_list[idx])`. -/
def freeCommand (hist : History) (idx : ℕ) : Except HistoryFault Unit := do
  let _ ← hist.command idx
  return ()

/-- `hist->cmd_list[idx] = cmd; hist->timestamps[idx] = ts;`. -/
def store (hist : History) (idx : ℕ) (cmd : CStr) (ts : Int64) : Except HistoryFault History :=
  if h : idx < histSize then
    .ok { hist with
      cmdList := hist.cmdList.set idx (some cmd)
      timestamps := hist.timestamps.set idx ts }
  else .error .outOfRange

/-- `hist->cmd_list[idx] = NULL;`. -/
def clearCommand (hist : History) (idx : ℕ) : Except HistoryFault History :=
  if h : idx < histSize then .ok { hist with cmdList := hist.cmdList.set idx none }
  else .error .outOfRange

/-- The circular buffer logic of `history_load`. -/
def loadEntry (hist : History) (e : HistEntry) : Except HistoryFault History :=
  if hist.cmdCount < histSize then do
    let hist ← hist.store hist.cmdCount e.1 e.2
    return { hist with cmdCount := hist.cmdCount + 1 }
  else do
    hist.freeCommand hist.start
    let hist ← hist.store hist.start e.1 e.2
    return { hist with start := (hist.start + 1) % histSize }

def loadLine (stale : List Char) (hist : History) (line : List Char) :
    Except HistoryFault History :=
  match decodeLine stale line with
  | none => .ok hist
  | some e => hist.loadEntry e

/-- The storage of `history_save_command`: the index is chosen first. -/
def saveEntry (hist : History) (cmd : CStr) (now : Int64) : Except HistoryFault History := do
  let (idx, hist) ←
    if hist.cmdCount < histSize then
      pure (hist.cmdCount, { hist with cmdCount := hist.cmdCount + 1 })
    else do
      hist.freeCommand hist.start
      pure (hist.start, { hist with start := (hist.start + 1) % histSize })
  hist.store idx cmd now

/-- The slot that the traversals read when they are at the entry `i` steps from the oldest. -/
def index (hist : History) (i : ℕ) : ℕ := (hist.start + i) % histSize

/-- The lines that `history` prints. -/
def list (hist : History) : Except HistoryFault (List CStr) :=
  (List.range hist.cmdCount).mapM fun i ↦ do
    let cmd ← hist.command (hist.index i)
    return showInt (i + 1) ++ "  ".toList ++ cmd

/-- The lines that `history_trim` writes. -/
def trimLines (hist : History) : Except HistoryFault (List CStr) :=
  (List.range' hist.start histSize).mapM fun i ↦ do
    let ts ← hist.timestamp (i % histSize)
    let cmd ← hist.command (i % histSize)
    return encodeEntry ts cmd

/-- The loop of `history -c`. -/
def clearLoop (hist : History) : Except HistoryFault History :=
  (List.range hist.cmdCount).foldlM
    (fun hist i ↦ do
      hist.freeCommand i
      hist.clearCommand i)
    hist

end History

/-! ## With the file -/

/-- The history of a shell, with what is in `HISTFILE`. -/
structure HistoryState where
  hist : History := {}
  file : List Char := []
  /-- `hist->fp` has been opened. It is in append mode, so that it needs no position. -/
  opened : Bool := false

/-- `history_init`. -/
def historyInit (s : HistoryState) : HistoryState := { s with hist := {} }

/-- `history_load`. -/
def historyLoad (stale : List Char) (s : HistoryState) : Except HistoryFault HistoryState := do
  let hist ← (fgetsLines [] s.file).foldlM (History.loadLine stale) s.hist
  return { s with hist, opened := true }

/-- `history_save_command`, at the time `now`. -/
def historySaveCommand (now : Int64) (cmd : CStr) (s : HistoryState) :
    Except HistoryFault HistoryState :=
  if cmd = [] then .ok s
  else do
    let hist ← s.hist.saveEntry cmd now
    if s.opened then return { s with hist, file := s.file ++ encodeEntry now cmd }
    else throw .unopened

/-- `history_trim`. -/
def historyTrim (s : HistoryState) : Except HistoryFault HistoryState :=
  if s.hist.cmdCount < histSize then .ok s
  else do
    let lines ← s.hist.trimLines
    return { s with file := lines.flatten }

/-- The builtin `history`, with what it prints. -/
def builtinHistory (argv : List CStr) (s : HistoryState) :
    Except HistoryFault (List CStr × HistoryState) :=
  match argv.tail with
  | [] => do
    let lines ← s.hist.list
    return (lines, s)
  | arg :: _ =>
    if arg = "-c".toList then do
      let hist ← s.hist.clearLoop
      return ([], { s with hist := { hist with cmdCount := 0, start := 0 } })
    else .ok ([], s)

/-! ## Runs -/

/-- What can happen to the history. Between two sessions, and during one, anything can be written
into the file. -/
inductive HistOp
  | init
  | load (stale : List Char)
  | save (now : Int64) (cmd : CStr)
  | history (args : List CStr)
  | trim
  | overwrite (file : List Char)

def HistOp.run (s : HistoryState) : HistOp → Except HistoryFault HistoryState
  | init => .ok (historyInit s)
  | load stale => historyLoad stale s
  | save now cmd => historySaveCommand now cmd s
  | history args => do
    let (_, s) ← builtinHistory ("history".toList :: args) s
    return s
  | trim => historyTrim s
  | overwrite file => .ok { s with file }

def runHistory (ops : List HistOp) (s : HistoryState) : Except HistoryFault HistoryState :=
  ops.foldlM HistOp.run s

end Novash
