import Novash.Executor.BuiltinTurns
import Novash.Executor.Status

/-!
# The status that is kept

`last_exec` is reset when a job is run. A job that was forked leaves its status there, whether it
ran in the background, ended or stopped. A builtin in the shell does not: `run_job` returns before
it comes to that line, and the status that is kept stays 0. So `$?` is what `&&` and `||` go by
exactly if the builtin succeeded.

When a builtin succeeds is said in terms of what it is given. `fg` has the status of its last wait,
which is not 0 if the job stops; whether it does depends on the events that come while the shell
waits.
-/

namespace Novash

open Foundations ProcessState JobState

/-! ## Waits that end with a stop -/

/-- The jobs after the first `n` wakeups. -/
def JobSystem.afterWakeups (s : JobSystem) (wakeups : List (List SignalfdSiginfo)) (n : ℕ) :
    JobSystem :=
  (wakeupEvents (wakeups.take n)).foldl JobSystem.reap s

/-- The job is stopped after some wakeup, and until then it has live processes after each. -/
def StopsWhileAwaited (addr : ℕ) (wakeups : List (List SignalfdSiginfo)) (s : JobSystem) : Prop :=
  ∃ n < wakeups.length,
    (∀ i ≤ n, ∀ job, (s.afterWakeups wakeups i).table.deref addr = some job →
      job.liveProcesses ≠ 0) ∧
    ∃ job, (s.afterWakeups wakeups (n + 1)).table.deref addr = some job ∧ job.state = jobStopped

section

variable {addr : ℕ} {s : JobSystem} {signals : List SignalfdSiginfo}
  {wakeups : List (List SignalfdSiginfo)}

theorem afterWakeups_succ (s : JobSystem) (signals : List SignalfdSiginfo)
    (wakeups : List (List SignalfdSiginfo)) (n : ℕ) :
    s.afterWakeups (signals :: wakeups) (n + 1)
      = ((signals.flatMap SignalfdSiginfo.events).foldl JobSystem.reap s).afterWakeups
          wakeups n := by
  rw [JobSystem.afterWakeups, JobSystem.afterWakeups, List.take_succ_cons, wakeupEvents,
    List.flatMap_cons, List.foldl_append]
  rfl

theorem not_stopsWhileAwaited_of_live {job : Job} (hjob : s.table.deref addr = some job)
    (hlive : job.liveProcesses = 0) : ¬StopsWhileAwaited addr wakeups s := by
  rintro ⟨n, -, hbefore, -⟩
  exact hbefore 0 (Nat.zero_le n) job hjob hlive

/-- A wait that does not end at once ends with the first stop that is seen after a wakeup. -/
theorem stopsWhileAwaited_cons {job job' : Job} (hjob : s.table.deref addr = some job)
    (hlive : job.liveProcesses ≠ 0)
    (hjob' : ((signals.flatMap SignalfdSiginfo.events).foldl JobSystem.reap s).table.deref addr
      = some job') :
    StopsWhileAwaited addr (signals :: wakeups) s ↔ job'.state = jobStopped ∨
      StopsWhileAwaited addr wakeups
        ((signals.flatMap SignalfdSiginfo.events).foldl JobSystem.reap s) := by
  constructor
  · rintro ⟨n, hn, hbefore, j, hj, hstopped⟩
    rw [afterWakeups_succ] at hj
    cases n with
    | zero =>
      obtain rfl := Option.some.inj (hjob'.symm.trans hj)
      exact Or.inl hstopped
    | succ n =>
      refine Or.inr ⟨n, Nat.lt_of_succ_lt_succ hn, fun i hi k hk ↦ ?_, j, hj, hstopped⟩
      exact hbefore (i + 1) (Nat.succ_le_succ hi) k ((afterWakeups_succ s signals wakeups i) ▸ hk)
  · rintro (hstopped | ⟨n, hn, hbefore, j, hj, hstopped⟩)
    · refine ⟨0, Nat.succ_pos _, fun i hi k hk ↦ ?_, job', ?_, hstopped⟩
      · obtain rfl := Nat.le_zero.mp hi
        obtain rfl := Option.some.inj (hjob.symm.trans hk)
        exact hlive
      · rw [afterWakeups_succ]
        exact hjob'
    · refine ⟨n + 1, Nat.succ_lt_succ hn, fun i hi k hk ↦ ?_, j, ?_, hstopped⟩
      · cases i with
        | zero =>
          obtain rfl := Option.some.inj (hjob.symm.trans hk)
          exact hlive
        | succ i =>
          exact hbefore i (Nat.le_of_succ_le_succ hi) k (afterWakeups_succ s signals wakeups i ▸ hk)
      · rw [afterWakeups_succ]
        exact hj

end

section

variable {sh sh' : Shell} {addr : ℕ} {status : ℤ}

theorem stopped_iff_of_foregroundLoop (wakeups : List (List SignalfdSiginfo)) :
    ∀ {sh : Shell} {stopped : Bool}, foregroundLoop addr wakeups sh = .ok (stopped, sh') →
      (stopped = true ↔ StopsWhileAwaited addr wakeups sh.toJobSystem) := by
  induction wakeups with
  | nil =>
    intro sh stopped h
    rw [foregroundLoop] at h
    split at h
    · cases h
    next job hjob =>
    split at h
    · next hlive =>
      cases h
      exact iff_of_false Bool.false_ne_true (not_stopsWhileAwaited_of_live hjob hlive)
    · cases h
  | cons signals wakeups ih =>
    intro sh stopped h
    rw [foregroundLoop] at h
    split at h
    · cases h
    next job hjob =>
    split at h
    · next hlive =>
      cases h
      exact iff_of_false Bool.false_ne_true (not_stopsWhileAwaited_of_live hjob hlive)
    next hlive =>
    dsimp only at h
    split at h
    · cases h
    next job' hjob' =>
    have hsys := toJobSystem_foldl_handleSignal signals sh
    rw [stopsWhileAwaited_cons hjob hlive (hsys ▸ hjob')]
    split at h
    · next hstopped =>
      cases h
      exact iff_of_true rfl (Or.inl hstopped)
    · next hrunning =>
      rw [ih h, hsys, or_iff_right hrunning]

/-- The status of a wait is 0 unless the job stops. -/
theorem status_eq_zero_iff_of_wait (h : handleForegroundExecution addr sh = .ok (status, sh')) :
    status = 0 ↔ ¬StopsWhileAwaited addr sh.script.wakeups sh.toJobSystem := by
  unfold handleForegroundExecution at h
  split at h
  · cases h
  obtain ⟨sh₁, hgrp, h⟩ := bind_ok.mp h
  obtain ⟨groups, rfl⟩ := eq_of_xtcsetpgrp hgrp
  obtain ⟨⟨stopped, sh₂⟩, hloop, h⟩ := bind_ok.mp h
  have hstops := stopped_iff_of_foregroundLoop _ hloop
  change stopped = true ↔ StopsWhileAwaited addr sh.script.wakeups sh.toJobSystem at hstops
  rw [← hstops]
  cases stopped with
  | true =>
    obtain ⟨sh₃, -, h⟩ := bind_ok.mp h
    obtain ⟨rfl, -⟩ := Prod.mk.inj (Except.ok.inj h)
    decide
  | false =>
    simp only [Bool.false_eq_true, if_false] at h
    split at h
    · cases h
    obtain ⟨sh₃, -, h⟩ := bind_ok.mp h
    obtain ⟨rfl, -⟩ := Prod.mk.inj (Except.ok.inj h)
    decide

end

/-! ## When a builtin succeeds -/

/-- What `fg` does to a job that it has found before it waits for it. -/
def JobSystem.foregrounded (s : JobSystem) (job : Job) : JobSystem :=
  if job.isBackground then s.bringForward job.addr else s.resume job.addr false

/-- Each id names a job that `fg` takes, and the last of these jobs does not stop while the shell
waits for it. -/
@[mk_iff] structure FgSucceeds (jobIds : List ℕ) (sh : Shell) : Prop where
  found : ∀ t ∈ fgTurns jobIds sh, (findTargetJobFg t.2.table t.1).isSome = true
  ends : ∀ t ∈ (fgTurns jobIds sh).getLast?, ∀ job, findTargetJobFg t.2.table t.1 = some job →
    ¬StopsWhileAwaited job.addr t.2.script.wakeups (t.2.foregrounded job)

/-- Each id names a stopped job when its turn comes. -/
def BgSucceeds (jobIds : List ℕ) (sh : Shell) : Prop :=
  ∀ t ∈ bgTurns jobIds sh, (findTargetJobBg t.2.table t.1).isSome = true

/-- The directory that `cd` goes to. -/
def cdDirectory (argv : List CStr) (sh : Shell) : Option CStr :=
  match argv.tail with
  | [] => sh.shellStateGetenv "HOME".toList
  | path :: _ =>
    if path.headD '\x00' = '~' then sh.shellStateGetenv "HOME".toList else some path

/-- What each builtin needs to succeed; the others cannot fail. -/
@[mk_iff] structure BuiltinSucceeds (argv : List CStr) (sh : Shell) : Prop where
  cd : argv.headD [] = "cd".toList →
    (cdDirectory argv sh).isSome = true ∧ (sh.script.chdirs.headD (false, none)).1 = true
  fnType : argv.headD [] = "type".toList → argv.tail ≠ []
  fg : argv.headD [] = "fg".toList →
    ∃ jobIds, retrieveArgJobIds argv.tail = .ok jobIds ∧ FgSucceeds jobIds sh
  bg : argv.headD [] = "bg".toList →
    ∃ jobIds, retrieveArgJobIds argv.tail = .ok jobIds ∧ BgSucceeds jobIds sh

section

variable {sh sh' : Shell} {status : ℤ}

theorem of_continueJob {job : Job} (h : continueJob job sh = .ok sh') :
    sh'.toJobSystem = sh.foregrounded job ∧ sh'.script.wakeups = sh.script.wakeups := by
  unfold continueJob continueJobWith at h
  unfold JobSystem.foregrounded
  split at h
  · next hbg =>
    cases h
    rw [if_pos hbg]
    exact ⟨rfl, rfl⟩
  · next hbg =>
    obtain ⟨sh₁, hkill, h⟩ := bind_ok.mp h
    obtain ⟨groups, rfl⟩ := eq_of_xkill hkill
    cases h
    rw [if_neg hbg]
    exact ⟨rfl, rfl⟩

theorem status_eq_zero_iff_of_fgTurn {job : Job} (h : fgTurn job sh = .ok (status, sh')) :
    status = 0 ↔ ¬StopsWhileAwaited job.addr sh.script.wakeups (sh.foregrounded job) := by
  obtain ⟨sh₁, hgrp, h⟩ := bind_ok.mp h
  obtain ⟨sh₂, hcont, hwait⟩ := bind_ok.mp h
  obtain ⟨groups, rfl⟩ := eq_of_xtcsetpgrp hgrp
  obtain ⟨hsys, hwakeups⟩ := of_continueJob hcont
  have hstatus := status_eq_zero_iff_of_wait hwait
  change status = 0 ↔ ¬StopsWhileAwaited job.addr sh₂.script.wakeups sh₂.toJobSystem at hstatus
  rw [hsys, hwakeups] at hstatus
  exact hstatus

theorem fgTurns_cons_of_turn {jobId : ℕ} (jobIds : List ℕ) {job : Job}
    (hfind : findTargetJobFg sh.table jobId = some job) (h : fgTurn job sh = .ok (status, sh')) :
    fgTurns (jobId :: jobIds) sh = (jobId, sh) :: fgTurns jobIds sh' := by
  refine turnsWith_cons_of_turn hfind ?_ jobIds
  rw [h]
  rfl

theorem fgTurns_eq_nil_iff {jobIds : List ℕ} : fgTurns jobIds sh = [] ↔ jobIds = [] := by
  cases jobIds <;> simp [fgTurns, turnsWith]

/-- The first turn has found its job; if it was the last one it decides, and otherwise the others
do. -/
theorem fgSucceeds_cons {jobId : ℕ} {jobIds : List ℕ} {job : Job} {status₁ : ℤ}
    (hfind : findTargetJobFg sh.table jobId = some job)
    (h : fgTurn job sh = .ok (status₁, sh')) :
    FgSucceeds (jobId :: jobIds) sh ↔
      (jobIds = [] → status₁ = 0) ∧ FgSucceeds jobIds sh' := by
  have hturns := fgTurns_cons_of_turn jobIds hfind h
  have hfirst : (findTargetJobFg sh.table jobId).isSome = true := by rw [hfind]; rfl
  have hlast : (∀ j, findTargetJobFg sh.table jobId = some j →
      ¬StopsWhileAwaited j.addr sh.script.wakeups (sh.foregrounded j)) ↔ status₁ = 0 := by
    rw [status_eq_zero_iff_of_fgTurn h, hfind]
    exact ⟨fun hall ↦ hall job rfl, fun hstops j hj ↦ Option.some.inj hj ▸ hstops⟩
  rw [fgSucceeds_iff, fgSucceeds_iff, hturns, List.forall_mem_cons, ← hlast]
  by_cases hnil : jobIds = []
  · rw [fgTurns_eq_nil_iff.mpr hnil]
    simp [hnil, hfirst]
  · have hne : fgTurns jobIds sh' ≠ [] := fun heq ↦ hnil (fgTurns_eq_nil_iff.mp heq)
    simp [hnil, hfirst, List.getLast?_cons_of_ne_nil hne]

theorem status_eq_zero_iff_of_fgLoop (jobIds : List ℕ) :
    ∀ {sh : Shell} {status₀ : ℤ}, fgLoop jobIds status₀ sh = .ok (status, sh') →
      (status = 0 ↔ (jobIds = [] → status₀ = 0) ∧ FgSucceeds jobIds sh) := by
  induction jobIds with
  | nil =>
    intro sh status₀ h
    cases h
    have hnil : FgSucceeds [] sh' := ⟨fun t ht ↦ (nomatch ht), fun t ht ↦ (nomatch ht)⟩
    exact ⟨fun hzero ↦ ⟨fun _ ↦ hzero, hnil⟩, fun hzero ↦ hzero.1 rfl⟩
  | cons jobId jobIds ih =>
    intro sh status₀ h
    rw [fgLoop_cons] at h
    split at h
    · next hnone =>
      cases h
      refine iff_of_false one_ne_zero fun hsucceeds ↦ ?_
      have hfound := hsucceeds.2.found (jobId, sh) List.mem_cons_self
      rw [hnone] at hfound
      cases hfound
    · next job hfind =>
      obtain ⟨⟨status₁, sh₁⟩, hturn, hrest⟩ := bind_ok.mp h
      rw [ih hrest, fgSucceeds_cons hfind hturn]
      exact ⟨fun hrest ↦ ⟨fun hnil ↦ (nomatch hnil), hrest⟩, And.right⟩

theorem status_eq_zero_iff_of_bgLoop (jobIds : List ℕ) :
    ∀ {sh : Shell}, bgLoop jobIds sh = .ok (status, sh') →
      (status = 0 ↔ BgSucceeds jobIds sh) := by
  induction jobIds with
  | nil =>
    intro sh h
    cases h
    exact iff_of_true rfl fun _ ht ↦ nomatch ht
  | cons jobId jobIds ih =>
    intro sh h
    rw [bgLoop_cons] at h
    split at h
    · next hnone =>
      cases h
      refine iff_of_false one_ne_zero fun hsucceeds ↦ ?_
      have hfound := hsucceeds (jobId, sh) List.mem_cons_self
      rw [hnone] at hfound
      cases hfound
    · next job hfind =>
      obtain ⟨sh₁, hturn, hrest⟩ := bind_ok.mp h
      rw [ih hrest, BgSucceeds, BgSucceeds, bgTurns, turnsWith_cons_of_turn hfind hturn,
        List.forall_mem_cons, hfind]
      exact (and_iff_right rfl).symm

variable {argv : List CStr}

/-- A builtin that is none of these four. -/
theorem builtinSucceeds_of_other {name : CStr} (hname : argv.headD [] = name)
    (hother : name ∉ ["cd".toList, "type".toList, "fg".toList, "bg".toList]) (sh : Shell) :
    BuiltinSucceeds argv sh := by
  have hne : ∀ other ∈ ["cd".toList, "type".toList, "fg".toList, "bg".toList],
      argv.headD [] ≠ other := fun other hmem heq ↦ hother (hname ▸ heq ▸ hmem)
  exact ⟨fun h ↦ absurd h (hne _ (by simp)), fun h ↦ absurd h (hne _ (by simp)),
    fun h ↦ absurd h (hne _ (by simp)), fun h ↦ absurd h (hne _ (by simp))⟩

theorem status_eq_zero_iff_of_builtinFg (h : builtinFg argv sh = .ok (status, sh')) :
    status = 0 ↔ ∃ jobIds, retrieveArgJobIds argv.tail = .ok jobIds ∧ FgSucceeds jobIds sh := by
  unfold builtinFg at h
  split at h
  · next hargs =>
    cases h
    rw [hargs]
    exact iff_of_false one_ne_zero fun ⟨_, hids, _⟩ ↦ nomatch hids
  · next jobIds hargs =>
    rw [hargs, status_eq_zero_iff_of_fgLoop jobIds h]
    exact ⟨fun hsucceeds ↦ ⟨jobIds, rfl, hsucceeds.2⟩,
      fun ⟨_, hids, hsucceeds⟩ ↦ ⟨fun _ ↦ rfl, Except.ok.inj hids ▸ hsucceeds⟩⟩

theorem status_eq_zero_iff_of_builtinBg (h : builtinBg argv sh = .ok (status, sh')) :
    status = 0 ↔ ∃ jobIds, retrieveArgJobIds argv.tail = .ok jobIds ∧ BgSucceeds jobIds sh := by
  unfold builtinBg at h
  split at h
  · next hargs =>
    cases h
    rw [hargs]
    exact iff_of_false one_ne_zero fun ⟨_, hids, _⟩ ↦ nomatch hids
  · next jobIds hargs =>
    rw [hargs, status_eq_zero_iff_of_bgLoop jobIds h]
    exact ⟨fun hsucceeds ↦ ⟨jobIds, rfl, hsucceeds⟩,
      fun ⟨_, hids, hsucceeds⟩ ↦ Except.ok.inj hids ▸ hsucceeds⟩

theorem fst_builtinFnType (argv : List CStr) (sh : Shell) :
    (builtinFnType argv sh).1 = 0 ↔ argv.tail ≠ [] := by
  unfold builtinFnType
  split
  · next hnil => simp [hnil]
  · next cmd args hcons =>
    rw [hcons]
    refine iff_of_true ?_ (List.cons_ne_nil _ _)
    split
    · rfl
    · split <;> rfl

/-- The status of a builtin is 0 if and only if it had what it needs. -/
theorem status_eq_zero_iff_of_callBuiltin (h : callBuiltin argv sh = .ok (status, sh')) :
    status = 0 ↔ BuiltinSucceeds argv sh := by
  rw [callBuiltin] at h
  -- the table of builtins, in its order
  obtain ⟨hcd, h⟩ | ⟨-, h⟩ := ite_eq_iff.mp h
  · have hstatus : status = if (cdDirectory argv sh).isSome &&
        (sh.script.chdirs.headD (false, none)).1 then 0 else -1 :=
      (congrArg Prod.fst (Except.ok.inj h)).symm
    rw [hstatus, builtinSucceeds_iff, hcd]
    simp +decide only [true_implies, false_implies, and_true, ite_eq_left_iff, Bool.and_eq_true,
      imp_false, not_not]
  obtain ⟨hecho, h⟩ | ⟨-, h⟩ := ite_eq_iff.mp h
  · cases h
    exact iff_of_true rfl (builtinSucceeds_of_other hecho (by decide) sh)
  obtain ⟨hexit, h⟩ | ⟨-, h⟩ := ite_eq_iff.mp h
  · cases h
    exact iff_of_true rfl (builtinSucceeds_of_other hexit (by decide) sh)
  obtain ⟨hpwd, h⟩ | ⟨-, h⟩ := ite_eq_iff.mp h
  · cases h
    exact iff_of_true rfl (builtinSucceeds_of_other hpwd (by decide) sh)
  obtain ⟨hjobs, h⟩ | ⟨-, h⟩ := ite_eq_iff.mp h
  · cases h
    exact iff_of_true rfl (builtinSucceeds_of_other hjobs (by decide) sh)
  obtain ⟨hfg, h⟩ | ⟨-, h⟩ := ite_eq_iff.mp h
  · rw [status_eq_zero_iff_of_builtinFg h, builtinSucceeds_iff, hfg]
    simp +decide only [true_implies, false_implies, and_true, true_and]
  obtain ⟨hbg, h⟩ | ⟨-, h⟩ := ite_eq_iff.mp h
  · rw [status_eq_zero_iff_of_builtinBg h, builtinSucceeds_iff, hbg]
    simp +decide only [true_implies, false_implies, true_and]
  obtain ⟨hhistory, h⟩ | ⟨-, h⟩ := ite_eq_iff.mp h
  · cases h
    exact iff_of_true rfl (builtinSucceeds_of_other hhistory (by decide) sh)
  obtain ⟨htype, h⟩ | ⟨-, h⟩ := ite_eq_iff.mp h
  · have hstatus : status = (builtinFnType argv sh).1 :=
      (congrArg Prod.fst (Except.ok.inj h)).symm
    rw [hstatus, builtinSucceeds_iff, htype]
    simp +decide only [true_implies, false_implies, and_true, true_and]
    exact fst_builtinFnType argv sh
  · cases h

end

/-! ## The status of a job -/

/-- The builtin that the job is, if it is one that runs in the shell, succeeds there. -/
def Job.BuiltinSucceeds (job : Job) (sh : Shell) : Prop :=
  ∀ proc sh₁, isPureBuiltin job.processes = .ok (some proc) →
    builtinShell proc (enlist job sh).2 = some sh₁ → Novash.BuiltinSucceeds proc.argv sh₁

section

variable {node : Ast} {job : Job} {sh sh' : Shell} {status : ℤ}

/-- No builtin writes to the record of the last execution. -/
theorem lastExec_callBuiltin {argv : List CStr} (h : callBuiltin argv sh = .ok (status, sh')) :
    sh'.lastExec = sh.lastExec := by
  obtain ⟨-, hfg⟩ | ⟨-, hbg⟩ | ⟨-, cwd, out, chdirs, rfl⟩ := callBuiltin_cases h
  · obtain ⟨_, _, _, _, _, _, _, _, rfl⟩ := onlyJobs_builtinFg hfg
    rfl
  · obtain ⟨_, _, _, _, _, _, rfl⟩ := onlyJobs_builtinBg hbg
    rfl
  · rfl

theorem runPureBuiltin_cases {proc : Process} (h : runPureBuiltin proc sh = .ok (status, sh')) :
    ∃ sh₁ sh₂, builtinShell proc sh = some sh₁ ∧ callBuiltin proc.argv sh₁ = .ok (status, sh₂) ∧
      sh'.lastExec = sh.lastExec := by
  obtain ⟨⟨status₁, sh₁⟩, hbuiltin, h⟩ := bind_ok.mp h
  obtain ⟨sh₂, sh₃, fds, hshell, hcall, rfl⟩ :=
    callBuiltin_of_handlePureBuiltinExecution hbuiltin
  have hkept := lastExec_callBuiltin hcall
  obtain ⟨_, _, rfl⟩ := eq_of_builtinShell hshell
  cases h
  exact ⟨_, sh₃, hshell, hcall, hkept⟩

/-- A job that was forked leaves its status, whatever became of it. -/
theorem exitStatus_runForked (h : runForked job sh = .ok (status, sh')) :
    sh'.lastExec.exitStatus = status := by
  obtain ⟨⟨job₁, sh₁⟩, -, h⟩ := bind_ok.mp h
  obtain ⟨⟨status₂, sh₂⟩, -, h⟩ := bind_ok.mp h
  cases h
  rfl

theorem exitStatus_runJob_iff (hne : job.processes ≠ []) (h : runJob job sh = .ok (status, sh')) :
    sh'.lastExec.exitStatus = status ↔ job.BuiltinSucceeds sh := by
  rcases runJob_cases h with ⟨hnil, -⟩ | ⟨proc, hpure, h⟩ | ⟨-, hpure, h⟩
  · exact absurd hnil hne
  · obtain ⟨sh₁, sh₂, hshell, hcall, hkept⟩ := runPureBuiltin_cases h
    have hzero : sh'.lastExec.exitStatus = 0 := by
      rw [hkept]
      rfl
    rw [hzero, eq_comm, status_eq_zero_iff_of_callBuiltin hcall]
    refine ⟨fun hsucceeds proc' sh₁' hpure' hshell' ↦ ?_, fun hsucceeds ↦ ?_⟩
    · obtain rfl := Option.some.inj (Except.ok.inj (hpure.symm.trans hpure'))
      obtain rfl := Option.some.inj (hshell.symm.trans hshell')
      exact hsucceeds
    · exact hsucceeds proc sh₁ hpure hshell
  · refine iff_of_true (exitStatus_runForked h) fun proc sh₁ hpure' ↦ ?_
    exact nomatch hpure.symm.trans hpure'

/-- **The status that is kept.** Of a command or a pipeline that was executed, the status in
`last_exec` is the one that `exec_node` returns if and only if it is not a builtin in the shell that
fails. -/
theorem exitStatus_execNode_iff (hjob : node.compile sh.heap = some job) (hne : job.processes ≠ [])
    (h : execNode node sh = .ok (status, sh')) :
    sh'.lastExec.exitStatus = status ↔ job.BuiltinSucceeds (jobsNewJob sh).2 := by
  rw [execNode_of_compile hjob] at h
  exact exitStatus_runJob_iff hne h

end

/-- A background command leaves the status 0 that it has. -/
theorem exitStatus_execNode_iff_background :
    ∃ sh', execNode (.word ['a'] true) (.onTerminal { pids := [10] }) = .ok (0, sh') ∧
      sh'.lastExec.exitStatus = 0 := by
  have heval : (execNode (.word ['a'] true) (.onTerminal { pids := [10] })).toOption.map Prod.fst
      = some 0 := by decide +kernel
  obtain ⟨⟨status, sh'⟩, hrun, rfl⟩ := exists_of_map_eq heval
  refine ⟨sh', hrun, (exitStatus_execNode_iff rfl (by decide) hrun).mpr fun proc sh₁ hpure ↦ ?_⟩
  exact nomatch hpure

/-- `fg` without a job to bring to the foreground: `||` goes on, and `$?` is 0. -/
theorem not_exitStatus_execNode :
    ¬ ∀ (node : Ast) (job : Job) (sh sh' : Shell) (status : ℤ),
      node.compile sh.heap = some job → job.processes ≠ [] →
      execNode node sh = .ok (status, sh') → sh'.lastExec.exitStatus = status := by
  intro hclaim
  have heval : (execNode (.word ['f', 'g'] false) (.onTerminal {})).toOption.map
      (fun r ↦ (r.1, r.2.lastExec.exitStatus)) = some (1, 0) := by decide +kernel
  obtain ⟨⟨status, sh'⟩, hrun, heq⟩ := exists_of_map_eq heval
  obtain ⟨hone, hzero⟩ := Prod.mk.inj heq
  have hsame := hclaim _ _ _ sh' status rfl (by decide) hrun
  exact absurd (hzero.symm.trans (hsame.trans hone)) (by decide)

end Novash
