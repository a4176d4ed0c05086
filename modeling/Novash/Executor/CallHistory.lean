import Novash.Executor.AwaitedJob

/-!
# What holds along the calls of a run

A run hands jobs to `run_job`, one after the other, and between two lines the event hook reaps. So
what is kept by a call and by the hook holds whenever a call is made, and at the end. The property
may speak of the calls that were made before as well as of the shell.
-/

namespace Novash

open Foundations Relation

/-- A property of the calls so far and of the shell that a run keeps. A call is made on a job that
has just been made for it. -/
structure CallInvariant (I : List (Job × Shell) → Shell → Prop) : Prop where
  call : ∀ {hist sh job status sh'}, I hist sh → job.Fresh → job.addr = sh.heap →
    runJob job (jobsNewJob sh).2 = .ok (status, sh') → I (hist ++ [(job, (jobsNewJob sh).2)]) sh'
  hook : ∀ {hist sh} events, I hist sh → I hist (handleSigchldEvents sh events)

/-- The call is made where the property holds. -/
def CalledWhere (I : List (Job × Shell) → Shell → Prop) (c : Job × Shell) : Prop :=
  ∃ hist sh, I hist sh ∧ c.1.Fresh ∧ c.1.addr = sh.heap ∧ c.2 = (jobsNewJob sh).2

namespace CallInvariant

variable {I : List (Job × Shell) → Shell → Prop} {sh : Shell} {hist : List (Job × Shell)}

theorem of_calls (hI : CallInvariant I) {cs : List (Job × Shell)} {r : Except Halt (ℤ × Shell)}
    (h : Calls runJob sh cs r) : ∀ {hist},
      (∀ c ∈ cs, c.1.Fresh ∧ c.1.addr + 1 = c.2.heap) → I hist sh →
        (∀ c ∈ cs, CalledWhere I c) ∧
          ∀ {status sh'}, r = .ok (status, sh') → I (hist ++ cs) sh' := by
  induction h with
  | done status sh =>
    refine fun _ hsh ↦ ⟨fun c hc ↦ absurd hc List.not_mem_nil, fun hr ↦ ?_⟩
    cases hr
    exact (List.append_nil _).symm ▸ hsh
  | @call sh sh₁ status job cs r hrun _ ih =>
    intro hist hcs hsh
    obtain ⟨⟨hfresh, haddr⟩, hcs⟩ := List.forall_mem_cons.mp hcs
    have haddr' : job.addr = sh.heap := Nat.succ_injective haddr
    obtain ⟨hrest, hend⟩ := ih hcs (hI.call hsh hfresh haddr' hrun)
    refine ⟨List.forall_mem_cons.mpr ⟨⟨hist, sh, hsh, hfresh, haddr', rfl⟩, hrest⟩, fun hr ↦ ?_⟩
    rw [List.append_cons]
    exact hend hr
  | @stop sh e job hrun =>
    intro hist hcs hsh
    obtain ⟨hfresh, haddr⟩ := hcs _ List.mem_cons_self
    refine ⟨fun c hc ↦ ?_, fun hr ↦ nomatch hr⟩
    obtain rfl := List.mem_singleton.mp hc
    exact ⟨hist, sh, hsh, hfresh, Nat.succ_injective haddr, rfl⟩

theorem of_op (hI : CallInvariant I) (op : Op) (hsh : I hist sh) :
    (∀ c ∈ op.calls sh, CalledWhere I c) ∧
      ∀ {sh'}, op.run sh = .ok sh' → I (hist ++ op.calls sh) sh' := by
  cases op with
  | line node =>
    dsimp only [Op.calls, Op.run]
    split
    · refine ⟨fun c hc ↦ absurd hc List.not_mem_nil, fun h ↦ ?_⟩
      cases h
    obtain ⟨hcalls, hend⟩ := hI.of_calls (calls_execCalls node sh) fresh_of_mem_execCalls hsh
    refine ⟨hcalls, fun h ↦ ?_⟩
    obtain ⟨⟨status, sh₂⟩, hexec, h⟩ := bind_ok.mp h
    cases h
    exact hend hexec
  | hook events =>
    refine ⟨fun c hc ↦ absurd hc List.not_mem_nil, fun h ↦ ?_⟩
    dsimp only [Op.run] at h
    split at h
    · cases h
    cases h
    exact (List.append_nil _).symm ▸ hI.hook events hsh

theorem of_mem_runCalls (hI : CallInvariant I) (ops : List Op) :
    ∀ {sh : Shell} (hist), I hist sh → ∀ c ∈ runCalls ops sh, CalledWhere I c := by
  induction ops with
  | nil => exact fun _ _ c hc ↦ absurd hc List.not_mem_nil
  | cons op ops ih =>
    intro sh hist hsh c hc
    obtain ⟨hcalls, hend⟩ := hI.of_op op hsh
    rw [runCalls] at hc
    rcases List.mem_append.mp hc with hc | hc
    · exact hcalls c hc
    split at hc
    · exact absurd hc List.not_mem_nil
    · next sh₁ hop => exact ih _ (hend hop) c hc

theorem of_runOps (hI : CallInvariant I) (ops : List Op) :
    ∀ {sh sh' : Shell} (hist), I hist sh → runOps ops sh = .ok sh' →
      I (hist ++ runCalls ops sh) sh' := by
  induction ops with
  | nil =>
    intro sh sh' hist hsh h
    cases h
    exact (List.append_nil _).symm ▸ hsh
  | cons op ops ih =>
    intro sh sh' hist hsh h
    obtain ⟨sh₁, hop, h⟩ := bind_ok.mp h
    have hrest := ih _ ((hI.of_op op hsh).2 hop) h
    rw [runCalls, hop, ← List.append_assoc]
    exact hrest

end CallInvariant

/-! ## Runs of the machine -/

/-- The machine has come to the jobs of the shell, and every listed job has a group. -/
def JobsReached (sh : Shell) : Prop :=
  Control.Runs {} ⟨sh.toJobSystem, none⟩ ∧ sh.Settled

theorem jobsReached_of_initial {sh : Shell} (hinit : sh.Initial) : JobsReached sh := by
  rw [JobsReached, hinit]
  exact ⟨.refl, ⟨List.nodup_nil, fun _ h ↦ nomatch h⟩, List.not_mem_nil⟩

theorem JobsReached.runJob {sh sh' : Shell} {job : Job} {status : ℤ} (hsh : JobsReached sh)
    (hfresh : job.Fresh) (haddr : job.addr = sh.heap)
    (hrun : runJob job (jobsNewJob sh).2 = .ok (status, sh')) : JobsReached sh' := by
  have hcall : SettledCall sh.toJobSystem job (jobsNewJob sh).2 := ⟨hsh.2, rfl, haddr, hfresh⟩
  have hsteps := steps_runJob hrun hcall.sys haddr hfresh hsh.2.wellFormed
  exact ⟨hsh.1.trans hsteps, hcall.settled_runJob hrun⟩

theorem JobsReached.handleSigchldEvents {sh : Shell} (hsh : JobsReached sh)
    (events : List WaitEvent) : JobsReached (handleSigchldEvents sh events) := by
  have hsys := toJobSystem_handleSigchldEvents sh events
  have hsteps := steps_reap none events sh.toJobSystem
  rw [← hsys] at hsteps
  refine ⟨hsh.1.trans hsteps, hsh.2.wellFormed.of_runs hsteps, fun hzero ↦ hsh.2.grouped ?_⟩
  have hheap := (onlyJobs_handleSigchldEvents sh events).heap
  exact (Control.pgids_of_runs hsteps hheap).subset hzero

theorem callInvariant_jobsReached : CallInvariant fun _ ↦ JobsReached where
  call hsh hfresh haddr hrun := hsh.runJob hfresh haddr hrun
  hook events hsh := hsh.handleSigchldEvents events

/-- Each call of a run is made on the jobs that the machine has come to. -/
theorem exists_jobsReached_of_mem_runCalls {ops : List Op} {sh₀ : Shell} (hinit : sh₀.Initial)
    {c : Job × Shell} (hc : c ∈ runCalls ops sh₀) :
    ∃ sh, JobsReached sh ∧ SettledCall sh.toJobSystem c.1 c.2 := by
  obtain ⟨_, sh, hsh, hfresh, haddr, hc₂⟩ :=
    callInvariant_jobsReached.of_mem_runCalls ops [] (jobsReached_of_initial hinit) c hc
  exact ⟨sh, hsh, hsh.2, hc₂ ▸ rfl, haddr, hfresh⟩

end Novash
