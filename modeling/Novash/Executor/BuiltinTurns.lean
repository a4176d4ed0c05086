import Novash.Executor.Redirections
import Novash.Executor.Refinement

/-!
# A builtin while it runs

A builtin runs in the shell between the redirections made for it and their undoing. `fg` and `bg`
take one id after the other: they look for a job, and what they do with it leaves the shell in which
they look for the next one. `builtinShell` is the shell in which a builtin begins, and `fgTurns` and
`bgTurns` list the shells in which `fg` and `bg` look for their jobs.
-/

namespace Novash

open Foundations ProcessState JobState Relation

/-! ## Where a builtin begins -/

/-- The shell in which `handle_pure_builtin_execution` calls the builtin, unless a redirection ends
the shell. -/
def builtinShell (proc : Process) (sh : Shell) : Option Shell :=
  match handleRedirection (backedUp sh).nofile proc.redir (backedUp sh).script.opens
      (backedUp sh).fds with
  | (.error _, _) => none
  | (.ok (_, fds), opens) =>
    some { backedUp sh with fds, script := { (backedUp sh).script with opens } }

section

variable {proc : Process} {sh sh₁ sh' : Shell} {status : ℤ}

theorem eq_of_builtinShell (h : builtinShell proc sh = some sh₁) :
    ∃ fds opens, sh₁ = { sh with fds, script := { sh.script with opens } } := by
  obtain ⟨_, hin⟩ := eq_of_dupFd 0 sh
  obtain ⟨_, hout⟩ := eq_of_dupFd 1 (dupFd 0 sh).2
  unfold builtinShell at h
  rw [backedUp, hout, hin] at h
  split at h
  · cases h
  · cases h
    exact ⟨_, _, rfl⟩

/-- A builtin that returned was called there, and after it only descriptors were moved. -/
theorem callBuiltin_of_handlePureBuiltinExecution
    (h : handlePureBuiltinExecution proc sh = .ok (status, sh')) :
    ∃ sh₁ sh₂ fds, builtinShell proc sh = some sh₁ ∧
      callBuiltin proc.argv sh₁ = .ok (status, sh₂) ∧ sh' = { sh₂ with fds } := by
  rw [handlePureBuiltinExecution, handlePureBuiltinExecutionWith_eq] at h
  split at h
  · cases h
  next fds opens hredir =>
  have hbegins : builtinShell proc sh
      = some { backedUp sh with fds, script := { (backedUp sh).script with opens } } := by
    rw [builtinShell, hredir]
  obtain ⟨⟨status₂, sh₂⟩, hcall, h⟩ := bind_ok.mp h
  cases h
  obtain ⟨_, hin⟩ := eq_of_restoreFd (dupFd 0 sh).1 0 sh₂
  obtain ⟨fds', hout⟩ :=
    eq_of_restoreFd (dupFd 1 (dupFd 0 sh).2).1 1 (restoreFd (dupFd 0 sh).1 0 sh₂)
  refine ⟨_, sh₂, fds', hbegins, hcall, ?_⟩
  rw [restored, hout, hin]

end

/-- The call runs a builtin in the shell, which begins in this shell. -/
structure RunsBuiltin (c : Job × Shell) (proc : Process) (sh : Shell) : Prop where
  builtin : isPureBuiltin c.1.processes = .ok (some proc)
  shell : builtinShell proc (enlist c.1 c.2).2 = some sh

/-! ## The turns of the loops -/

section

variable (find : JobTable → ℕ → Option Job) (turn : Job → Shell → Except Halt Shell)

/-- The ids that are looked for, each with the shell then, as far as the loop over them gets. -/
def turnsWith : List ℕ → Shell → List (ℕ × Shell)
  | [], _ => []
  | jobId :: jobIds, sh =>
    (jobId, sh) ::
      match find sh.table jobId with
      | none => []
      | some job =>
        match turn job sh with
        | .error _ => []
        | .ok sh => turnsWith jobIds sh

end

def fgTurns : List ℕ → Shell → List (ℕ × Shell) :=
  turnsWith findTargetJobFg fun job sh ↦ (fgTurn job sh).map Prod.snd

def bgTurns : List ℕ → Shell → List (ℕ × Shell) := turnsWith findTargetJobBg bgTurn

section

variable {find : JobTable → ℕ → Option Job} {turn : Job → Shell → Except Halt Shell}

theorem turnsWith_cons_of_turn {jobId : ℕ} {job : Job} {sh sh' : Shell}
    (hfind : find sh.table jobId = some job) (h : turn job sh = .ok sh') (jobIds : List ℕ) :
    turnsWith find turn (jobId :: jobIds) sh = (jobId, sh) :: turnsWith find turn jobIds sh' := by
  rw [turnsWith, hfind]
  dsimp only
  rw [h]

/-- What a turn keeps holds in every turn. -/
theorem forall_turnsWith {I : Shell → Prop}
    (hturn : ∀ {jobId job sh sh'}, find sh.table jobId = some job → turn job sh = .ok sh' →
      I sh → I sh') (jobIds : List ℕ) :
    ∀ {sh : Shell}, I sh → ∀ t ∈ turnsWith find turn jobIds sh, I t.2 := by
  induction jobIds with
  | nil => exact fun _ t ht ↦ absurd ht List.not_mem_nil
  | cons jobId jobIds ih =>
    intro sh hsh
    refine List.forall_mem_cons.mpr ⟨hsh, fun t ht ↦ ?_⟩
    split at ht
    · exact absurd ht List.not_mem_nil
    next job hfind =>
    split at ht
    · exact absurd ht List.not_mem_nil
    next sh' hrun => exact ih (hturn hfind hrun hsh) t ht

end

/-- What the loops do before a turn is a run, in which no job is made. -/
def TurnReached (sh sh' : Shell) : Prop :=
  Control.Runs ⟨sh.toJobSystem, none⟩ ⟨sh'.toJobSystem, none⟩ ∧ sh'.heap = sh.heap

theorem turnReached_of_mem_fgTurns {jobIds : List ℕ} {sh : Shell} (hwf : sh.WellFormed) :
    ∀ t ∈ fgTurns jobIds sh, TurnReached sh t.2 := by
  refine forall_turnsWith (fun hfind hturn hreached ↦ ?_) jobIds ⟨.refl, rfl⟩
  cases hrun : fgTurn _ _ with
  | error e =>
    rw [hrun] at hturn
    cases hturn
  | ok r =>
    rw [hrun] at hturn
    cases hturn
    have hruns := steps_fgTurn (hwf.of_runs hreached.1) hfind hrun
    exact ⟨hreached.1.trans hruns, (onlyJobs_fgTurn hrun).heap.trans hreached.2⟩

theorem turnReached_of_mem_bgTurns {jobIds : List ℕ} {sh : Shell} (hwf : sh.WellFormed) :
    ∀ t ∈ bgTurns jobIds sh, TurnReached sh t.2 := by
  refine forall_turnsWith (fun hfind hturn hreached ↦ ?_) jobIds ⟨.refl, rfl⟩
  have hruns := steps_bgTurn (hwf.of_runs hreached.1) hfind hturn
  exact ⟨hreached.1.trans hruns, (onlyJobs_bgTurn hturn).heap.trans hreached.2⟩

end Novash
