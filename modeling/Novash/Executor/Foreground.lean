import Novash.Foundations.Results
import Novash.Shell.Signal

/-!
# Waiting for a foreground job

`handle_foreground_execution`. The loop goes on until no process of the job is counted as live, or
the job is found stopped after the pending signals have been handled. It holds a pointer to the job
all the while; nothing but the loop itself is supposed to free it.
-/

namespace Novash

open Foundations JobState

/-- `JOB_STOPPED_EXIT_CODE`. -/
def jobStoppedExitCode : ℤ := 146

/-- One signal read from `sfd`. An interrupt is passed on to the job's group, and what that does
comes back as events. -/
def handleSignal (sh : Shell) : SignalfdSiginfo → Shell
  | .sigchld events => handleSigchldEvents sh events
  | .sigint => sh
  | .sigtstp => sh

/-- The loop, over the times `poll` returns. The result says whether the job stopped. -/
def foregroundLoop (addr : ℕ) : List (List SignalfdSiginfo) → Shell → Except Halt (Bool × Shell)
  | wakeups, sh =>
    match sh.table.deref addr with
    | none => .error .fault
    | some job =>
      if job.liveProcesses = 0 then .ok (false, { sh with script := { sh.script with wakeups } })
      else
        match wakeups with
        | [] => .error .blocked
        | signals :: wakeups =>
          let sh := signals.foldl handleSignal sh
          match sh.table.deref addr with
          | none => .error .fault
          | some job =>
            if job.state = jobStopped then
              .ok (true, { sh with script := { sh.script with wakeups } })
            else foregroundLoop addr wakeups sh

def handleForegroundExecution (addr : ℕ) (sh : Shell) : Except Halt (ℤ × Shell) :=
  match sh.table.deref addr with
  | none => .error .fault
  | some job => do
    let sh ← xtcsetpgrp job.pgid sh
    let (stopped, sh) ← foregroundLoop addr sh.script.wakeups sh
    if stopped then
      let sh ← shellRegainControl sh
      return (jobStoppedExitCode, sh)
    else
      match sh.table.deref addr with
      | none => .error .fault
      | some job =>
        let sh ← shellRegainControl { sh with table := (jobsRemoveJob sh.table job.pgid).2 }
        return (0, sh)

/-! ### What waiting changes -/

section

variable {addr : ℕ} {sh sh' : Shell}

theorem onlyJobs_foldl_handleSignal (signals : List SignalfdSiginfo) (sh : Shell) :
    sh.OnlyJobs (signals.foldl handleSignal sh) := by
  induction signals generalizing sh with
  | nil => rfl
  | cons sig signals ih =>
    refine Shell.OnlyJobs.trans ?_ (ih _)
    cases sig with
    | sigchld events => exact onlyJobs_handleSigchldEvents sh events
    | _ => rfl

theorem onlyJobs_foregroundLoop (wakeups : List (List SignalfdSiginfo)) :
    ∀ {sh : Shell} {stopped : Bool}, foregroundLoop addr wakeups sh = .ok (stopped, sh') →
      sh.OnlyJobs sh' := by
  induction wakeups with
  | nil =>
    intro sh stopped h
    rw [foregroundLoop] at h
    split at h
    · cases h
    split at h <;> cases h
    exact ⟨_, _, _, _, _, _, rfl⟩
  | cons signals wakeups ih =>
    intro sh stopped h
    rw [foregroundLoop] at h
    split at h
    · cases h
    split at h
    · cases h
      exact ⟨_, _, _, _, _, _, rfl⟩
    refine (onlyJobs_foldl_handleSignal signals sh).trans ?_
    dsimp only at h
    split at h
    · cases h
    split at h
    · cases h
      exact ⟨_, _, _, _, _, _, rfl⟩
    · exact ih h

theorem onlyJobs_handleForegroundExecution {status : ℤ}
    (h : handleForegroundExecution addr sh = .ok (status, sh')) : sh.OnlyJobs sh' := by
  unfold handleForegroundExecution at h
  split at h
  · cases h
  obtain ⟨sh₁, hgrp, h⟩ := bind_ok.mp h
  obtain ⟨⟨stopped, sh₂⟩, hloop, h⟩ := bind_ok.mp h
  refine (onlyJobs_xtcsetpgrp hgrp).trans ((onlyJobs_foregroundLoop _ hloop).trans ?_)
  dsimp only at h
  split at h
  · obtain ⟨sh₃, hregain, h⟩ := bind_ok.mp h
    cases h
    rw [eq_of_shellRegainControl hregain]
  · split at h
    · cases h
    · obtain ⟨sh₃, hregain, h⟩ := bind_ok.mp h
      cases h
      exact ⟨_, _, _, _, _, _, eq_of_shellRegainControl hregain⟩

end

end Novash
