import Novash.Builtin.Builtin
import Novash.Foundations.Lists

/-!
# The search for a command

`is_in_path` over a file system: the loop that cuts the directories off `PATH` and asks `stat` about
each of them. Of what `stat` says it reads one bit, the permission of the owner to execute. Whether
the name is that of a directory, and whether it is the owner who asks, it does not read.
-/

namespace Novash

open Foundations

/-! ## Files -/

/-- The fields of `struct stat` that permissions are about. -/
structure FileStat where
  mode : ℕ
  uid : ℕ
  gid : ℕ

/-- `S_ISREG(st_mode)` -/
def FileStat.isReg (st : FileStat) : Bool := st.mode &&& 0o170000 == 0o100000

/-- `st_mode & S_IXUSR` -/
def FileStat.ownerMayExecute (st : FileStat) : Bool := st.mode &&& 0o100 != 0

/-- Who runs the shell. -/
structure Credentials where
  euid : ℕ
  groups : List ℕ

/-- The permission that is asked for when a file is executed: one class of bits counts, and for the
superuser all of them. -/
def Credentials.mayExecute (who : Credentials) (st : FileStat) : Bool :=
  if who.euid = 0 then st.mode &&& 0o111 != 0
  else if who.euid = st.uid then st.mode &&& 0o100 != 0
  else if st.gid ∈ who.groups then st.mode &&& 0o010 != 0
  else st.mode &&& 0o001 != 0

/-- What `stat` finds under a name. -/
abbrev FileSystem := CStr → Option FileStat

/-- The test of `is_in_path`: `stat(cmd_path, &buf) == 0 && (buf.st_mode & S_IXUSR)`. -/
def FileSystem.ownerExecutes (fs : FileSystem) (cmdPath : CStr) : Bool :=
  (fs cmdPath).any FileStat.ownerMayExecute

/-- An executable regular file. -/
def FileSystem.executes (fs : FileSystem) (who : Credentials) (cmdPath : CStr) : Bool :=
  (fs cmdPath).any fun st ↦ st.isReg && who.mayExecute st

/-! ## The loop -/

/-- `strsep(&p, ":")`: the text in front of the first delimiter, and the string behind it. -/
def strsep : Option CStr → Option (CStr × Option CStr)
  | none => none
  | some s =>
    some (s.takeWhile (· != ':'),
      match s.dropWhile (· != ':') with
      | [] => none
      | _ :: rest => some rest)

/-- How much of the copy of `PATH` is left. -/
def charsLeft (p : Option CStr) : ℕ := p.elim 0 fun s ↦ s.length + 1

theorem charsLeft_strsep_lt {p rest : Option CStr} {dir : CStr} (h : strsep p = some (dir, rest)) :
    charsLeft rest < charsLeft p := by
  cases p with
  | none => exact nomatch h
  | some s =>
    obtain ⟨-, hrest⟩ := Prod.mk.inj (Option.some.inj h)
    have hle := (List.dropWhile_suffix (l := s) (· != ':')).length_le
    split at hrest
    · rw [← hrest]
      exact Nat.succ_pos _
    · next hdrop =>
      rw [hdrop, List.length_cons] at hle
      rw [← hrest]
      exact Nat.succ_lt_succ hle

/-- `asprintf(&cmd_path, "%s/%s", dir, cmd)` fails when the length is not an `int`. -/
def asprintf (dir cmd : CStr) : Option CStr :=
  let cmdPath := dir ++ ['/'] ++ cmd
  if cmdPath.length < 2 ^ 31 then some cmdPath else none

/-- The loop over the directories that `p` still holds. -/
def searchLoop (fs : FileSystem) (cmd : CStr) (p : Option CStr) : Option CStr :=
  match _h : strsep p with
  | none => none
  | some (dir, p) =>
    match asprintf dir cmd with
    | none => none
    | some cmdPath => if fs.ownerExecutes cmdPath then some cmdPath else searchLoop fs cmd p
termination_by charsLeft p
decreasing_by exact charsLeft_strsep_lt _h

/-- `is_in_path`, where `path` is what `shell_state_getenv` returns for `PATH`. -/
def FileSystem.isInPath (fs : FileSystem) (path : Option CStr) (cmd : CStr) : Option CStr :=
  match path with
  | none => none
  | some path => searchLoop fs cmd (some path)

/-! ## The names that are looked up -/

/-- The directories of `PATH`. There are none when it is not set, and one, without a name, when it
is empty. -/
def searchDirs (path : Option CStr) : List CStr := path.elim [] pathDirs

/-- The name of the command in each of the directories. -/
def cmdPaths (path : Option CStr) (cmd : CStr) : List CStr :=
  (searchDirs path).map fun dir ↦ dir ++ ['/'] ++ cmd

theorem searchDirs_strsep {p rest : Option CStr} {dir : CStr} (h : strsep p = some (dir, rest)) :
    searchDirs p = dir :: searchDirs rest := by
  cases p with
  | none => exact nomatch h
  | some s =>
    obtain ⟨hdir, hrest⟩ := Prod.mk.inj (Option.some.inj h)
    have hs : s.takeWhile (· != ':') ++ s.dropWhile (· != ':') = s :=
      List.takeWhile_append_dropWhile
    have hplain : ∀ c ∈ dir, (c == ':') = false := by
      intro c hc
      rw [← hdir] at hc
      have hne := List.mem_takeWhile_imp hc
      simpa using hne
    change s.splitOn ':' = _
    rw [hdir] at hs
    split at hrest
    · next hdrop =>
      rw [hdrop, List.append_nil] at hs
      rw [← hrest, ← hs]
      exact List.splitOnP_eq_singleton hplain
    · next c t hdrop =>
      have hc : (c == ':') = true := by
        have hhead := List.head?_dropWhile_not (· != ':') s
        rw [hdrop] at hhead
        simpa using hhead
      rw [hdrop] at hs
      rw [← hrest, ← hs]
      exact List.splitOnP_append_cons_of_forall_mem hplain c hc t

theorem cmdPaths_strsep {p rest : Option CStr} {dir cmd : CStr} (h : strsep p = some (dir, rest)) :
    cmdPaths p cmd = (dir ++ ['/'] ++ cmd) :: cmdPaths rest cmd := by
  rw [cmdPaths, searchDirs_strsep h, List.map_cons]
  rfl

theorem asprintf_eq_some_iff {dir cmd cmdPath : CStr} : asprintf dir cmd = some cmdPath ↔
    (dir ++ ['/'] ++ cmd).length < 2 ^ 31 ∧ dir ++ ['/'] ++ cmd = cmdPath :=
  Option.ite_none_right_eq_some.trans (and_congr_right' Option.some_inj)

/-- The loop looks up one name after the other, until it finds a file that its owner may execute, or
a name is too long. -/
theorem searchLoop_eq (fs : FileSystem) (cmd : CStr) (p : Option CStr) :
    searchLoop fs cmd p
      = findUntil (fun cmdPath ↦ decide (2 ^ 31 ≤ cmdPath.length)) fs.ownerExecutes
        (cmdPaths p cmd) := by
  fun_induction searchLoop fs cmd p with
  | case1 p h =>
    cases p with
    | none => rfl
    | some s => exact nomatch h
  | case2 p dir rest h hlong =>
    have hlen : ¬(dir ++ ['/'] ++ cmd).length < 2 ^ 31 := fun hlt ↦ by
      rw [asprintf, if_pos hlt] at hlong
      cases hlong
    rw [cmdPaths_strsep h, findUntil, if_pos (decide_eq_true (not_lt.mp hlen))]
  | case3 p dir rest h cmdPath hshort hx =>
    obtain ⟨hlen, rfl⟩ := asprintf_eq_some_iff.mp hshort
    rw [cmdPaths_strsep h, findUntil, if_neg (by simpa using hlen), if_pos hx]
  | case4 p dir rest h cmdPath hshort hx ih =>
    obtain ⟨hlen, rfl⟩ := asprintf_eq_some_iff.mp hshort
    rw [cmdPaths_strsep h, findUntil, if_neg (by simpa using hlen), if_neg hx]
    exact ih

theorem FileSystem.isInPath_eq (fs : FileSystem) (path : Option CStr) (cmd : CStr) :
    fs.isInPath path cmd
      = findUntil (fun cmdPath ↦ decide (2 ^ 31 ≤ cmdPath.length)) fs.ownerExecutes
        (cmdPaths path cmd) := by
  cases path with
  | none => rfl
  | some path => exact searchLoop_eq fs cmd (some path)

/-- The search of the shell's builtins and children is this one, when its test asks the file system
and no name is too long. -/
theorem FileSystem.isInPath_eq_isInPath {fs : FileSystem} {sh : Shell} {cmd : CStr}
    (hsh : sh.executable = fs.ownerExecutes)
    (hshort : ∀ cmdPath ∈ cmdPaths (sh.shellStateGetenv "PATH".toList) cmd,
      cmdPath.length < 2 ^ 31) :
    fs.isInPath (sh.shellStateGetenv "PATH".toList) cmd = Novash.isInPath cmd sh := by
  have hgo : ∀ cmdPath ∈ cmdPaths (sh.shellStateGetenv "PATH".toList) cmd,
      decide (2 ^ 31 ≤ cmdPath.length) = false :=
    fun cmdPath h ↦ decide_eq_false (not_le.mpr (hshort cmdPath h))
  rw [isInPath_eq, findUntil_eq_find? hgo, Novash.isInPath, ← hsh]
  cases sh.shellStateGetenv "PATH".toList <;> rfl

/-! ## What is found -/

/-- The search returns the name of the command in the first of the directories in which it is an
executable regular file, and nothing exactly when there is no such directory. -/
structure FindsExecutable (fs : FileSystem) (who : Credentials) (dirs : List CStr) (cmd : CStr)
    (found : Option CStr) : Prop where
  first : ∀ cmdPath, found = some cmdPath ↔ ∃ before dir after, dirs = before ++ dir :: after ∧
    cmdPath = dir ++ ['/'] ++ cmd ∧ fs.executes who (dir ++ ['/'] ++ cmd) = true ∧
    ∀ dir ∈ before, fs.executes who (dir ++ ['/'] ++ cmd) = false
  missing : found = none ↔ ∀ dir ∈ dirs, fs.executes who (dir ++ ['/'] ++ cmd) = false

section

variable {fs : FileSystem} {who : Credentials} {path : Option CStr} {cmd : CStr}

theorem find?_cmdPaths_eq_none_iff : (cmdPaths path cmd).find? (fs.executes who) = none ↔
    ∀ dir ∈ searchDirs path, fs.executes who (dir ++ ['/'] ++ cmd) = false := by
  simp [cmdPaths]

theorem find?_cmdPaths_eq_some_iff {cmdPath : CStr} :
    (cmdPaths path cmd).find? (fs.executes who) = some cmdPath ↔
      ∃ before dir after, searchDirs path = before ++ dir :: after ∧
        cmdPath = dir ++ ['/'] ++ cmd ∧ fs.executes who (dir ++ ['/'] ++ cmd) = true ∧
        ∀ dir ∈ before, fs.executes who (dir ++ ['/'] ++ cmd) = false := by
  rw [cmdPaths, List.find?_map, Option.map_eq_some_iff]
  constructor
  · rintro ⟨dir, hdir, rfl⟩
    obtain ⟨hx, before, after, hsplit, hbefore⟩ := List.find?_eq_some_iff_append.mp hdir
    exact ⟨before, dir, after, hsplit, rfl, hx, fun dir hmem ↦ by simpa using hbefore dir hmem⟩
  · rintro ⟨before, dir, after, hsplit, rfl, hx, hbefore⟩
    refine ⟨dir, List.find?_eq_some_iff_append.mpr ⟨hx, before, after, hsplit, ?_⟩, rfl⟩
    exact fun dir hmem ↦ by simpa using hbefore dir hmem

theorem findsExecutable_iff {found : Option CStr} :
    FindsExecutable fs who (searchDirs path) cmd found ↔
      found = (cmdPaths path cmd).find? (fs.executes who) := by
  constructor
  · intro h
    cases found with
    | none => exact (find?_cmdPaths_eq_none_iff.mpr (h.missing.mp rfl)).symm
    | some cmdPath => exact (find?_cmdPaths_eq_some_iff.mpr ((h.first cmdPath).mp rfl)).symm
  · rintro rfl
    exact ⟨fun _ ↦ find?_cmdPaths_eq_some_iff, find?_cmdPaths_eq_none_iff⟩

end

/-- **The search.** Of the names at which the loop stops and those of executable regular files, take
the first. The search is right exactly when the loop returns it and it is such a file, or when the
loop gives up there because the name is too long, and there is no such file at all. -/
theorem findsExecutable_isInPath_iff (fs : FileSystem) (who : Credentials) (path : Option CStr)
    (cmd : CStr) :
    FindsExecutable fs who (searchDirs path) cmd (fs.isInPath path cmd) ↔
      ∀ cmdPath, (cmdPaths path cmd).find? (fun cmdPath ↦ decide (2 ^ 31 ≤ cmdPath.length) ||
          fs.ownerExecutes cmdPath || fs.executes who cmdPath) = some cmdPath →
        (cmdPath.length < 2 ^ 31 ∧ fs.ownerExecutes cmdPath = true ∧
          fs.executes who cmdPath = true) ∨
        (2 ^ 31 ≤ cmdPath.length ∧
          ∀ dir ∈ searchDirs path, fs.executes who (dir ++ ['/'] ++ cmd) = false) := by
  rw [findsExecutable_iff, FileSystem.isInPath_eq, findUntil_eq_find?_iff,
    find?_cmdPaths_eq_none_iff]
  simp only [decide_eq_true_iff, decide_eq_false_iff_not, not_le]

/-- A directory named like the command, in a directory of `PATH` in front of that of the command. -/
theorem not_findsExecutable_isInPath : ¬∀ (fs : FileSystem) (who : Credentials)
    (path : Option CStr) (cmd : CStr),
    FindsExecutable fs who (searchDirs path) cmd (fs.isInPath path cmd) := by
  intro h
  have hfound := findsExecutable_iff.mp (h
    (fun name ↦ [("/a".toList, ⟨0o040755, 0, 0⟩), ("/a/ls".toList, ⟨0o040755, 0, 0⟩),
      ("/b".toList, ⟨0o040755, 0, 0⟩), ("/b/ls".toList, ⟨0o100755, 0, 0⟩)].lookup name)
    ⟨1000, [1000]⟩ (some "/a:/b".toList) "ls".toList)
  rw [FileSystem.isInPath_eq] at hfound
  exact absurd hfound (by decide +kernel)

end Novash
