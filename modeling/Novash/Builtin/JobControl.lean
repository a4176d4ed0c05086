import Novash.Executor.Foreground
import Novash.Foundations.Results

/-!
# `jobs`, `fg` and `bg`

`job_control.c`. A job is named by `%n`; without an argument `fg` and `bg` take the newest job that
is fit for them, which their own entry in the list can be.
-/

namespace Novash

open Foundations JobState

/-! ## Naming a job -/

/-- `ULONG_MAX`. -/
def ulongMax : ℕ := 2 ^ 64 - 1

/-- `strtoul(s, &end, 10)`: the value, and the string that `end` is left pointing to. A value out of
range saturates, and a minus sign negates within the range. -/
def strtoul (s : CStr) : ℕ × CStr :=
  let (sign, t) := strtolSign (s.dropWhile isspace)
  let digits := t.takeWhile isdigit
  let value := Nat.ofDigitChars 10 digits 0
  if digits = [] then (0, s)
  else
    (if value > ulongMax then ulongMax else if sign = -1 then (2 ^ 64 - value) % 2 ^ 64 else value,
      t.dropWhile isdigit)

/-- Why an argument of `fg` or `bg` names no job. -/
inductive JobIdError
  | invalidSyntax
  | invalidJobId (arg : CStr)
  deriving DecidableEq, Repr

def JobIdError.message (cmdName : CStr) : JobIdError → CStr
  | invalidSyntax => cmdName ++ ": invalid syntax, expected '%<id>'".toList
  | invalidJobId arg => cmdName ++ ": invalid job id: ".toList ++ arg

def parseJobId (arg : CStr) : Except JobIdError ℕ :=
  if arg.headD '\x00' ≠ '%' then .error .invalidSyntax
  else
    let (val, rest) := strtoul (arg.drop 1)
    if rest ≠ [] || val = 0 then .error (.invalidJobId arg) else .ok val

/-- The ids of the arguments after the name of the command; 0 when there is none. -/
def retrieveArgJobIds (args : List CStr) : Except JobIdError (List ℕ) :=
  if args = [] then .ok [0] else args.mapM parseJobId

def findTargetJobFg (t : JobTable) (jobId : ℕ) : Option Job :=
  t.jobs.find? fun job ↦
    (jobId = 0 || job.id = jobId) &&
      (job.state = jobStopped || (job.isBackground && job.state = jobRunning))

def findTargetJobBg (t : JobTable) (jobId : ℕ) : Option Job :=
  t.jobs.find? fun job ↦ (jobId = 0 || job.id = jobId) && job.state = jobStopped

/-! ## The builtins -/

def builtinJobs (sh : Shell) : ℤ × Shell :=
  (0, { sh with out := sh.out ++ sh.table.jobs.reverse.map (jobsPrintJobStatus sh.table) })

namespace JobTable

/-- What `fg` and `bg` do to the list when they continue a stopped job, less what they print: the
job is continued, and counted as running again. -/
def resume (t : JobTable) (addr : ℕ) (isBackground : Bool) : JobTable :=
  let t := (jobsMarkJobContinued t addr).modify addr
    fun job ↦ { job with isBackground, state := jobRunning }
  { t with runningJobsCount := t.runningJobsCount + 1 }

theorem deref_resume_self {t : JobTable} {addr : ℕ} {job : Job} (isBackground : Bool)
    (h : t.deref addr = some job) :
    (t.resume addr isBackground).deref addr
      = some { job.markContinued with isBackground, state := jobRunning } :=
  deref_modify_self (fun job ↦ { job with isBackground, state := jobRunning })
    (deref_modify_self Job.markContinued h rfl) rfl

/-- What `fg` does to the list when the job is running in the background. -/
def bringForward (t : JobTable) (addr : ℕ) : JobTable :=
  t.modify addr fun job ↦ { job with isBackground := false }

end JobTable

/-- The status line of a job that has just been continued. -/
def continuedLine (t : JobTable) (job : Job) : CStr :=
  jobsPrintJobStatus t { job with state := jobContinued }

def bgLoop : List ℕ → Shell → Except Halt (ℤ × Shell)
  | [], sh => .ok (0, sh)
  | jobId :: jobIds, sh =>
    match findTargetJobBg sh.table jobId with
    | none => .ok (1, sh.print "bg: no stopped job".toList)
    | some job => do
      let sh ← xkill job.pgid sh
      let sh := { sh with table := sh.table.resume job.addr true }
      bgLoop jobIds (sh.print (continuedLine sh.table job))

/-- The branch of `fg` on `is_background`: a stopped job is continued, a running one only marked.
`kill` is what sends `SIGCONT` to a group. -/
def continueJobWith (kill : ℕ → Shell → Except Halt Shell) (job : Job) (sh : Shell) :
    Except Halt Shell :=
  if job.isBackground then
    let sh := { sh with table := sh.table.bringForward job.addr }
    .ok (sh.print (jobsPrintJobStatus sh.table { job with isBackground := false }))
  else do
    let sh ← kill job.pgid sh
    let sh := { sh with table := sh.table.resume job.addr false }
    return sh.print (continuedLine sh.table job)

def continueJob (job : Job) (sh : Shell) : Except Halt Shell := continueJobWith xkill job sh

def fgLoop : List ℕ → ℤ → Shell → Except Halt (ℤ × Shell)
  | [], status, sh => .ok (status, sh)
  | jobId :: jobIds, _, sh =>
    match findTargetJobFg sh.table jobId with
    | none => .ok (1, sh.print "fg: no stopped job".toList)
    | some job => do
      let sh ← xtcsetpgrp job.pgid sh
      let sh ← continueJob job sh
      let (status, sh) ←
        handleForegroundExecution job.addr (xsignalfd (blockSignals sh).2).2
      fgLoop jobIds status sh

def builtinBg (argv : List CStr) (sh : Shell) : Except Halt (ℤ × Shell) :=
  match retrieveArgJobIds argv.tail with
  | .error e => .ok (1, sh.print (e.message "bg".toList))
  | .ok jobIds => bgLoop jobIds sh

def builtinFg (argv : List CStr) (sh : Shell) : Except Halt (ℤ × Shell) :=
  match retrieveArgJobIds argv.tail with
  | .error e => .ok (1, sh.print (e.message "fg".toList))
  | .ok jobIds => fgLoop jobIds 0 sh

/-! ### One job -/

/-- What `fg` does with a job that it has found. -/
def fgTurn (job : Job) (sh : Shell) : Except Halt (ℤ × Shell) := do
  let sh ← xtcsetpgrp job.pgid sh
  let sh ← continueJob job sh
  handleForegroundExecution job.addr (xsignalfd (blockSignals sh).2).2

/-- What `bg` does with a job that it has found. -/
def bgTurn (job : Job) (sh : Shell) : Except Halt Shell := do
  let sh ← xkill job.pgid sh
  let sh := { sh with table := sh.table.resume job.addr true }
  return sh.print (continuedLine sh.table job)

theorem fgLoop_cons (jobId : ℕ) (jobIds : List ℕ) (status : ℤ) (sh : Shell) :
    fgLoop (jobId :: jobIds) status sh =
      match findTargetJobFg sh.table jobId with
      | none => .ok (1, sh.print "fg: no stopped job".toList)
      | some job => fgTurn job sh >>= fun r ↦ fgLoop jobIds r.1 r.2 := by
  cases hfind : findTargetJobFg sh.table jobId with
  | none => rw [fgLoop, hfind]
  | some job =>
    rw [fgLoop, hfind]
    simp only [fgTurn, bind_assoc]

theorem bgLoop_cons (jobId : ℕ) (jobIds : List ℕ) (sh : Shell) :
    bgLoop (jobId :: jobIds) sh =
      match findTargetJobBg sh.table jobId with
      | none => .ok (1, sh.print "bg: no stopped job".toList)
      | some job => bgTurn job sh >>= bgLoop jobIds := by
  cases hfind : findTargetJobBg sh.table jobId with
  | none => rw [bgLoop, hfind]
  | some job =>
    rw [bgLoop, hfind]
    simp only [bgTurn, bind_assoc, pure_bind]

/-- `fg` selects a job that is stopped, or that is running in the background. -/
theorem of_findTargetJobFg {t : JobTable} {jobId : ℕ} {job : Job}
    (h : findTargetJobFg t jobId = some job) :
    job ∈ t.jobs ∧ (job.state = jobStopped ∨ job.isBackground = true ∧ job.state = jobRunning) := by
  have hjob := List.find?_some h
  simp only [Bool.and_eq_true, Bool.or_eq_true, decide_eq_true_eq] at hjob
  exact ⟨List.mem_of_find?_eq_some h, hjob.2⟩

/-- `bg` selects a job that is stopped. -/
theorem of_findTargetJobBg {t : JobTable} {jobId : ℕ} {job : Job}
    (h : findTargetJobBg t jobId = some job) : job ∈ t.jobs ∧ job.state = jobStopped := by
  have hjob := List.find?_some h
  simp only [Bool.and_eq_true, decide_eq_true_eq] at hjob
  exact ⟨List.mem_of_find?_eq_some h, hjob.2⟩

/-! ### What they change -/

section

variable {sh sh' : Shell}

theorem onlyJobs_continueJob {job : Job} (h : continueJob job sh = .ok sh') : sh.OnlyJobs sh' := by
  unfold continueJob continueJobWith at h
  split at h
  · cases h
    exact ⟨_, _, _, _, _, _, rfl⟩
  · obtain ⟨sh₁, hkill, h⟩ := bind_ok.mp h
    cases h
    exact (onlyJobs_xkill hkill).trans ⟨_, _, _, _, _, _, rfl⟩

theorem onlyJobs_bgTurn {job : Job} (h : bgTurn job sh = .ok sh') : sh.OnlyJobs sh' := by
  obtain ⟨sh₁, hkill, h⟩ := bind_ok.mp h
  cases h
  exact (onlyJobs_xkill hkill).trans ⟨_, _, _, _, _, _, rfl⟩

theorem onlyJobs_bgLoop {status : ℤ} (jobIds : List ℕ) :
    ∀ {sh : Shell}, bgLoop jobIds sh = .ok (status, sh') → sh.OnlyJobs sh' := by
  induction jobIds with
  | nil => intro sh h; cases h; rfl
  | cons jobId jobIds ih =>
    intro sh h
    rw [bgLoop_cons] at h
    split at h
    · cases h
      exact ⟨_, _, _, _, _, _, rfl⟩
    · obtain ⟨sh₁, hturn, h⟩ := bind_ok.mp h
      exact (onlyJobs_bgTurn hturn).trans (ih h)

theorem onlyJobs_builtinBg {argv : List CStr} {status : ℤ}
    (h : builtinBg argv sh = .ok (status, sh')) : sh.OnlyJobs sh' := by
  unfold builtinBg at h
  split at h
  · cases h
    exact ⟨_, _, _, _, _, _, rfl⟩
  · exact onlyJobs_bgLoop _ h

/-- A job is brought to the foreground with the signals blocked, and one more descriptor open. -/
theorem onlyJobs_fgTurn {job : Job} {status : ℤ} (h : fgTurn job sh = .ok (status, sh')) :
    Shell.OnlyJobs
      { sh with sigmask := ⟨true, true, true⟩, fds := (sh.fds.alloc ⟨.signals, true⟩).2 } sh' := by
  obtain ⟨sh₁, hgrp, h⟩ := bind_ok.mp h
  obtain ⟨sh₂, hcont, hfg⟩ := bind_ok.mp h
  obtain ⟨_, _, _, _, _, _, rfl⟩ := (onlyJobs_xtcsetpgrp hgrp).trans (onlyJobs_continueJob hcont)
  exact Shell.OnlyJobs.trans ⟨_, _, _, _, _, _, rfl⟩ (onlyJobs_handleForegroundExecution hfg)

theorem onlyJobs_fgLoop (jobIds : List ℕ) :
    ∀ {sh : Shell} {status status' : ℤ}, fgLoop jobIds status sh = .ok (status', sh') →
      ∃ sigmask fds, Shell.OnlyJobs { sh with sigmask, fds } sh' := by
  induction jobIds with
  | nil => intro sh status status' h; cases h; exact ⟨_, _, .refl _⟩
  | cons jobId jobIds ih =>
    intro sh status status' h
    rw [fgLoop_cons] at h
    split at h
    · cases h
      exact ⟨sh.sigmask, sh.fds, _, _, _, _, _, _, rfl⟩
    · obtain ⟨⟨status₁, sh₁⟩, hturn, h⟩ := bind_ok.mp h
      obtain ⟨_, _, _, _, _, _, rfl⟩ := onlyJobs_fgTurn hturn
      obtain ⟨sigmask, fds, hrest⟩ := ih h
      exact ⟨sigmask, fds, Shell.OnlyJobs.trans ⟨_, _, _, _, _, _, rfl⟩ hrest⟩

theorem onlyJobs_builtinFg {argv : List CStr} {status : ℤ}
    (h : builtinFg argv sh = .ok (status, sh')) :
    ∃ sigmask fds, Shell.OnlyJobs { sh with sigmask, fds } sh' := by
  unfold builtinFg at h
  split at h
  · cases h
    exact ⟨sh.sigmask, sh.fds, _, _, _, _, _, _, rfl⟩
  · exact onlyJobs_fgLoop _ h

end

end Novash
