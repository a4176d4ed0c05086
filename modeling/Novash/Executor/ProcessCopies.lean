import Novash.Executor.Jobs
import Novash.Foundations.GrowArrays

/-!
# Copying and freeing a process

`jobs_new_process` copies the words of a command and the targets of its redirections into arrays of
its own, by their lengths. `jobs_free_process` frees what the arrays hold up to the first `NULL`.
Behind the words the copy writes a `NULL`, and behind the redirections it does not: so a process
with a redirection is freed by a loop that leaves what was written.

A string on the heap is its address and its text. Addresses are handed out in order, so that two
copies never share one.
-/

namespace Novash

open Foundations

/-! ## Copies -/

/-- A string on the heap. -/
structure HeapStr where
  addr : ℕ
  text : CStr
  deriving DecidableEq, Repr

/-- `redirection_t`, with its `target` on the heap. -/
structure HeapRedirection where
  fd : Int32
  type : RedirectionType
  target : Option HeapStr
  deriving DecidableEq, Repr

/-- The arrays of a `process_t`. A word is a `char *`. -/
structure ProcessArrays where
  argv : GrowArray (Option HeapStr)
  redir : GrowArray HeapRedirection

/-- `xstrdup`, with the address it returns. -/
def xstrdup (addr : ℕ) (s : Option CStr) : Option HeapStr := s.map fun text ↦ ⟨addr, text⟩

/-- The copies of the words. -/
def copyArgv (next : ℕ) (argv : List CStr) : List (Option HeapStr) :=
  (argv.zipIdx next).map fun (s, addr) ↦ xstrdup addr (some s)

/-- The copies of the redirections. -/
def copyRedir (next : ℕ) (redir : List Redirection) : List HeapRedirection :=
  (redir.zipIdx next).map fun (r, addr) ↦ ⟨r.fd, r.type, xstrdup addr r.target⟩

/-- `jobs_new_process` with `deep_copy`: every element is pushed, and then a `NULL` behind the words
only. Without a redirection `redir` stays `NULL`. -/
def jobsNewProcessArrays (cmd : CmdNode) (next : ℕ) : ProcessArrays where
  argv := ((copyArgv next (cmd.argv.getD [])).foldl GrowArray.arrput .null).arrpushnc none
  redir := (copyRedir (next + (cmd.argv.getD []).length) cmd.redir).foldl GrowArray.arrput .null

/-- `for (i = 0; a[i] != NULL; i++) free(a[i]);`, for what an element points to. A `NULL` array is
skipped. -/
def freeElements {α : Type} (pointer : α → Option HeapStr) (a : GrowArray α) : Option (List ℕ) :=
  if a.cells = [] then some []
  else (GrowArray.visitUntil (fun x ↦ (pointer x).isNone) a.cells).map fun xs ↦
    (xs.filterMap pointer).map HeapStr.addr

/-- `jobs_free_process` with `deep_free`: the addresses of the strings it frees, in order, or
nothing when it reads an element that was not written. -/
def jobsFreeProcess (p : ProcessArrays) : Option (List ℕ) := do
  let words ← freeElements id p.argv
  let targets ← freeElements HeapRedirection.target p.redir
  return words ++ targets

namespace ProcessArrays

/-- The strings that the elements of the arrays point to. -/
def strings (p : ProcessArrays) : List HeapStr :=
  p.argv.elements.filterMap id ++ p.redir.elements.filterMap HeapRedirection.target

/-- The process, without the addresses. -/
def toProcess (p : ProcessArrays) : Process where
  argv := (p.argv.elements.filterMap id).map HeapStr.text
  redir := p.redir.elements.map fun r ↦
    { fd := r.fd, type := r.type, target := r.target.map HeapStr.text }

/-- `jobs_free_process` reads written elements only, and frees each of these strings once. -/
def FreedOnce (p : ProcessArrays) : Prop :=
  ∃ freed, jobsFreeProcess p = some freed ∧ freed.Nodup ∧
    ∀ addr, addr ∈ freed ↔ ∃ s ∈ p.strings, s.addr = addr

end ProcessArrays

section

variable {cmd : CmdNode} {next : ℕ}

/-! ### The copies are those of the command -/

theorem elements_argv (cmd : CmdNode) (next : ℕ) :
    (jobsNewProcessArrays cmd next).argv.elements = copyArgv next (cmd.argv.getD []) :=
  (GrowArray.holds_null.foldl_arrput _).elements_arrpushnc none

theorem holds_redir (cmd : CmdNode) (next : ℕ) : (jobsNewProcessArrays cmd next).redir.Holds
    (copyRedir (next + (cmd.argv.getD []).length) cmd.redir) :=
  GrowArray.holds_null.foldl_arrput _

theorem map_text_copyArgv (next : ℕ) (argv : List CStr) :
    ((copyArgv next argv).filterMap id).map HeapStr.text = argv := by
  induction argv generalizing next with
  | nil => rfl
  | cons s argv ih =>
    change s :: ((copyArgv (next + 1) argv).filterMap id).map HeapStr.text = s :: argv
    rw [ih]

theorem map_addr_copyArgv (next : ℕ) (argv : List CStr) :
    ((copyArgv next argv).filterMap id).map HeapStr.addr = List.range' next argv.length := by
  induction argv generalizing next with
  | nil => rfl
  | cons s argv ih =>
    rw [List.length_cons, List.range'_succ, ← ih]
    rfl

theorem map_copyRedir (next : ℕ) (redir : List Redirection) :
    (copyRedir next redir).map (fun r ↦
        ({ fd := r.fd, type := r.type, target := r.target.map HeapStr.text } : Redirection))
      = redir.map fun r ↦ { r with targetParts := [] } := by
  induction redir generalizing next with
  | nil => rfl
  | cons r redir ih =>
    rw [List.map_cons, ← ih (next + 1)]
    change _ :: _ = _ :: _
    congr 1
    cases htarget : r.target <;> simp [xstrdup, htarget]

/-- Without the addresses it is the process of the job. -/
theorem toProcess_jobsNewProcessArrays (cmd : CmdNode) (next : ℕ) :
    (jobsNewProcessArrays cmd next).toProcess = jobsNewProcess cmd := by
  rw [ProcessArrays.toProcess, jobsNewProcess, elements_argv, (holds_redir cmd next).elements_eq,
    map_text_copyArgv, map_copyRedir]

/-! ## What is freed -/

theorem isNone_copyArgv (next : ℕ) (argv : List CStr) :
    ∀ p ∈ copyArgv next argv, p.isNone = false := by
  intro p hp
  obtain ⟨⟨s, addr⟩, -, rfl⟩ := List.mem_map.mp hp
  rfl

theorem isNone_copyRedir {redir : List Redirection} (next : ℕ)
    (htarget : ∀ r ∈ redir, r.target ≠ none) :
    ∀ r ∈ copyRedir next redir, r.target.isNone = false := by
  intro r hr
  obtain ⟨⟨r, addr⟩, hmem, rfl⟩ := List.mem_map.mp hr
  obtain ⟨text, htext⟩ :=
    Option.ne_none_iff_exists'.mp (htarget r (List.fst_mem_of_mem_zipIdx hmem))
  simp [xstrdup, htext]

/-- The words are freed, up to the `NULL` behind them. -/
theorem freeElements_argv (cmd : CmdNode) (next : ℕ) :
    freeElements id (jobsNewProcessArrays cmd next).argv
      = some (List.range' next (cmd.argv.getD []).length) := by
  have hvisits : GrowArray.visitUntil (fun p ↦ (id p).isNone)
      (jobsNewProcessArrays cmd next).argv.cells = some (copyArgv next (cmd.argv.getD [])) :=
    GrowArray.visitUntil_arrpushnc (GrowArray.holds_null.foldl_arrput _)
      (isNone_copyArgv next (cmd.argv.getD [])) rfl
  have hcells : (jobsNewProcessArrays cmd next).argv.cells ≠ [] :=
    GrowArray.cells_arrpushnc_ne_nil _ _
  rw [freeElements, if_neg hcells, hvisits, Option.map_some, map_addr_copyArgv]

/-- The loop over the redirections finds no `NULL` behind them. -/
theorem freeElements_redir (htarget : ∀ r ∈ cmd.redir, r.target ≠ none) :
    freeElements HeapRedirection.target (jobsNewProcessArrays cmd next).redir
      = if cmd.redir = [] then some [] else none := by
  split
  · next hnil =>
    rw [jobsNewProcessArrays, hnil]
    rfl
  · next hne =>
    have hholds := holds_redir cmd next
    have hcopies : copyRedir (next + (cmd.argv.getD []).length) cmd.redir ≠ [] := by
      simpa [copyRedir] using hne
    rw [freeElements, if_neg (GrowArray.cells_ne_nil_of_holds hholds hcopies),
      GrowArray.visitUntil_eq_none hholds (isNone_copyRedir _ htarget), Option.map_none]

/-- **Freeing.** The copy of a command is freed by reading written elements, each string once,
exactly when the command has no redirection. -/
theorem freedOnce_iff (cmd : CmdNode) (next : ℕ) (htarget : ∀ r ∈ cmd.redir, r.target ≠ none) :
    (jobsNewProcessArrays cmd next).FreedOnce ↔ cmd.redir = [] := by
  have hfree : jobsFreeProcess (jobsNewProcessArrays cmd next)
      = if cmd.redir = [] then some (List.range' next (cmd.argv.getD []).length) else none := by
    rw [jobsFreeProcess, freeElements_argv, freeElements_redir htarget]
    split
    · exact congrArg some (List.append_nil _)
    · rfl
  constructor
  · rintro ⟨freed, hfreed, -⟩
    by_contra hne
    rw [hfree, if_neg hne] at hfreed
    cases hfreed
  · intro hnil
    refine ⟨_, by rw [hfree, if_pos hnil], List.nodup_range', fun addr ↦ ?_⟩
    rw [ProcessArrays.strings, elements_argv, (holds_redir cmd next).elements_eq, hnil,
      ← map_addr_copyArgv, List.mem_map]
    simp [copyRedir]

theorem freedOnce_iff_echo :
    (jobsNewProcessArrays { argvParts := [], argv := some ["echo".toList, ['a']] } 1).FreedOnce :=
  (freedOnce_iff { argvParts := [], argv := some ["echo".toList, ['a']] } 1 (by simp)).mpr rfl

/-- In `echo a > f` the loop that frees `f` reads what was not written. -/
theorem not_freedOnce : ¬∀ (cmd : CmdNode) (next : ℕ), (∀ r ∈ cmd.redir, r.target ≠ none) →
    (jobsNewProcessArrays cmd next).FreedOnce := by
  intro h
  obtain ⟨freed, hfreed, -⟩ := h
    { argvParts := [], argv := some ["echo".toList, ['a']],
      redir := [{ fd := 1, type := .redirOut, target := some ['f'] }] } 1 (by simp)
  have hnone : jobsFreeProcess (jobsNewProcessArrays
      { argvParts := [], argv := some ["echo".toList, ['a']],
        redir := [{ fd := 1, type := .redirOut, target := some ['f'] }] } 1) = none := by
    decide +kernel
  cases hnone.symm.trans hfreed

end

end Novash
