import Novash.Executor.Executor

/-!
# The jobs that a tree runs

`exec_node` touches the shell in one way only: it hands jobs to `run_job`. `callsWith` lists them,
each with the shell in which it is run, for any function in the place of `run_job`.

The calls of a tree follow one another: each starts in the shell that the one before it left, and
the tree gets no further than its first call that does not return. `Calls` says this of a list of
calls, and what holds of the calls of a tree is proved by induction on it, with no trees in sight.
-/

namespace Novash

open Foundations CondOp

section

variable (run : Job → Shell → Except Halt (ℤ × Shell))

mutual

/-- The calls of `run_job` that the execution of a tree makes, as far as it gets. -/
def callsWith : Ast → Shell → List (Job × Shell)
  | .null, _ => []
  | .cmd node invalid, sh =>
    if invalid then []
    else
      let (job, sh) := jobsNewJob sh
      [(compileCommandJob job (.cmd node invalid), sh)]
  | .pipeline nodes invalid, sh =>
    if invalid then []
    else
      let (job, sh) := jobsNewJob sh
      [(compilePipelineJob job nodes, sh)]
  | .conditional left right op invalid, sh =>
    if invalid then []
    else
      callsWith left sh ++
        match execNodeWith run left sh with
        | .error _ => []
        | .ok (status, sh) =>
          if (op = condAnd ∧ status = 0) ∨ (op = condOr ∧ status ≠ 0) then callsWith right sh
          else []
  | .sequence nodes invalid, sh => if invalid then [] else callsSeqWith nodes sh

def callsSeqWith : List Ast → Shell → List (Job × Shell)
  | [], _ => []
  | node :: nodes, sh =>
    callsWith node sh ++
      match execNodeWith run node sh with
      | .error _ => []
      | .ok (_, sh) => callsSeqWith nodes sh

end

end

/-- The calls that `exec_node` makes. -/
def execCalls (node : Ast) (sh : Shell) : List (Job × Shell) := callsWith runJob node sh

/-- The argument vectors of the jobs of some calls, in order. -/
def callArgvs (cs : List (Job × Shell)) : List (List CStr) :=
  cs.flatMap fun c ↦ c.1.processes.map Process.argv

/-- The argument vectors that `exec_node` has executed. -/
def execArgvs (node : Ast) (sh : Shell) : List (List CStr) := callArgvs (execCalls node sh)

/-! ## One call after the other -/

section

variable (run : Job → Shell → Except Halt (ℤ × Shell))

/-- Calls of `run`, each on a newly allocated job, and what comes of them. -/
inductive Calls : Shell → List (Job × Shell) → Except Halt (ℤ × Shell) → Prop
  | done (status : ℤ) (sh : Shell) : Calls sh [] (.ok (status, sh))
  | call {sh sh' : Shell} {status : ℤ} {job : Job} {cs : List (Job × Shell)}
    {r : Except Halt (ℤ × Shell)} (hrun : run job (jobsNewJob sh).2 = .ok (status, sh'))
    (hrest : Calls sh' cs r) : Calls sh ((job, (jobsNewJob sh).2) :: cs) r
  | stop {sh : Shell} {e : Halt} {job : Job} (hrun : run job (jobsNewJob sh).2 = .error e) :
    Calls sh [(job, (jobsNewJob sh).2)] (.error e)

end

namespace Calls

variable {run : Job → Shell → Except Halt (ℤ × Shell)} {R : Shell → Shell → Prop}
  {sh sh' : Shell} {status : ℤ} {cs cs' : List (Job × Shell)} {r : Except Halt (ℤ × Shell)}

/-- One call, and nothing after it but the choice of a status. -/
theorem single (job : Job) (sh : Shell) :
    Calls run sh [(job, (jobsNewJob sh).2)] (run job (jobsNewJob sh).2) := by
  cases hrun : run job (jobsNewJob sh).2 with
  | error e => exact .stop hrun
  | ok x => exact .call hrun (.done _ _)

theorem append (h : Calls run sh cs r) : r = .ok (status, sh') →
    ∀ {r'}, Calls run sh' cs' r' → Calls run sh (cs ++ cs') r' := by
  intro hr r' h'
  induction h with
  | done => cases hr; exact h'
  | call hrun _ ih => exact .call hrun (ih hr)
  | stop => cases hr

/-- What every call does, and the allocation of a job, all of them do. -/
theorem rel (hrefl : ∀ sh, R sh sh) (htrans : ∀ {a b c}, R a b → R b c → R a c)
    (hnew : ∀ sh, R sh (jobsNewJob sh).2) (h : Calls run sh cs r) :
    r = .ok (status, sh') →
      (∀ c ∈ cs, ∀ {status sh'}, run c.1 c.2 = .ok (status, sh') → R c.2 sh') → R sh sh' := by
  intro hr hcs
  induction h with
  | done => cases hr; exact hrefl _
  | call hrun _ ih =>
    exact htrans (hnew _) (htrans (hcs _ List.mem_cons_self hrun)
      (ih hr fun c hc ↦ hcs c (List.mem_cons_of_mem _ hc)))
  | stop => cases hr

/-- What every call does holds up to the start of each. -/
theorem rel_of_mem (htrans : ∀ {a b c}, R a b → R b c → R a c)
    (hnew : ∀ sh, R sh (jobsNewJob sh).2) (h : Calls run sh cs r)
    (hcs : ∀ c ∈ cs, ∀ {status sh'}, run c.1 c.2 = .ok (status, sh') → R c.2 sh') :
    ∀ c ∈ cs, R sh c.2 := by
  induction h with
  | done => exact fun c hc ↦ absurd hc List.not_mem_nil
  | call hrun _ ih =>
    intro c hc
    rcases List.mem_cons.mp hc with rfl | hc
    · exact hnew _
    · exact htrans (hnew _) (htrans (hcs _ List.mem_cons_self hrun)
        (ih (fun c hc ↦ hcs c (List.mem_cons_of_mem _ hc)) c hc))
  | stop hrun =>
    intro c hc
    obtain rfl := List.mem_singleton.mp hc
    exact hnew _

/-- After a call that returns comes another one, or the end. -/
theorem after_mem (hrefl : ∀ sh, R sh sh) (hnew : ∀ sh, R sh (jobsNewJob sh).2)
    (h : Calls run sh cs r) {c : Job × Shell} (hc : c ∈ cs)
    (hrun : run c.1 c.2 = .ok (status, sh')) :
    (∃ c' ∈ cs, R sh' c'.2) ∨ ∃ st sh'', r = .ok (st, sh'') ∧ R sh' sh'' := by
  induction h with
  | done => exact absurd hc List.not_mem_nil
  | @call sh sh₁ status₁ job cs r hrun₁ hrest ih =>
    rcases List.mem_cons.mp hc with rfl | hc
    · cases hrun₁.symm.trans hrun
      cases hrest with
      | done st => exact Or.inr ⟨st, _, rfl, hrefl _⟩
      | call => exact Or.inl ⟨_, List.mem_cons_of_mem _ List.mem_cons_self, hnew _⟩
      | stop => exact Or.inl ⟨_, List.mem_cons_of_mem _ List.mem_cons_self, hnew _⟩
    · rcases ih hc with ⟨c', hc', hrel⟩ | hend
      · exact Or.inl ⟨c', List.mem_cons_of_mem _ hc', hrel⟩
      · exact Or.inr hend
  | stop hrun₁ =>
    obtain rfl := List.mem_singleton.mp hc
    cases hrun₁.symm.trans hrun

end Calls

/-! ## The calls of a tree -/

section

variable (run : Job → Shell → Except Halt (ℤ × Shell))

mutual

theorem calls_callsWith (node : Ast) (sh : Shell) :
    Calls run sh (callsWith run node sh) (execNodeWith run node sh) := by
  match node with
  | .null => exact .done _ _
  | .cmd node invalid =>
    rw [callsWith, execNodeWith]
    cases invalid with
    | true => exact .done _ _
    | false => exact .single _ _
  | .pipeline nodes invalid =>
    rw [callsWith, execNodeWith]
    cases invalid with
    | true => exact .done _ _
    | false => exact .single _ _
  | .conditional left right op invalid =>
    rw [callsWith, execNodeWith]
    cases invalid with
    | true => exact .done _ _
    | false =>
      rw [if_neg Bool.false_ne_true, if_neg Bool.false_ne_true]
      have hleft := calls_callsWith left sh
      cases hrun : execNodeWith run left sh with
      | error e =>
        rw [hrun] at hleft
        simpa only [List.append_nil, bind, Except.bind] using hleft
      | ok x =>
        simp only [bind, Except.bind]
        split
        · exact hleft.append hrun (calls_callsWith right _)
        · exact hleft.append hrun (.done _ _)
  | .sequence nodes invalid =>
    rw [callsWith, execNodeWith]
    cases invalid with
    | true => exact .done _ _
    | false => exact calls_callsSeqWith nodes 0 sh

theorem calls_callsSeqWith (nodes : List Ast) (status : ℤ) (sh : Shell) :
    Calls run sh (callsSeqWith run nodes sh) (execSeqWith run nodes status sh) := by
  match nodes with
  | [] => exact .done _ _
  | node :: nodes =>
    rw [callsSeqWith, execSeqWith]
    have hnode := calls_callsWith node sh
    cases hrun : execNodeWith run node sh with
    | error e =>
      rw [hrun] at hnode
      simpa only [List.append_nil, bind, Except.bind] using hnode
    | ok x => exact hnode.append hrun (calls_callsSeqWith nodes _ _)

end

end

theorem calls_execCalls (node : Ast) (sh : Shell) :
    Calls runJob sh (execCalls node sh) (execNode node sh) := calls_callsWith runJob node sh

end Novash
