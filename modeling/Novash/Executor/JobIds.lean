import Novash.Executor.Jobs

/-!
# The ids of jobs

`jobs_add_job` looks for the least free id with a single walk from the head of the list: the
candidate goes up by one at each job, and the walk stops at the first job whose id is beyond the
candidate. That finds a gap in a list sorted by id. The list is sorted by age.

Once job 1 of two jobs is gone, the next job takes id 1 *behind* job 2. From then on the walk stops
at its first step, at job 2, and hands out id 1 again. `ids_nodup_iff` says exactly which histories
of the list keep the ids distinct: those in which, at every `jobs_add_job`, the first job beyond the
candidate is not followed by a job that has the candidate's id.
-/

namespace Novash

namespace JobTable

/-- The ids from the head of the list to `jobs_tail`. -/
def ids (t : JobTable) : List ℕ := (t.jobs.map Job.id).reverse

end JobTable

/-! ## Histories of the list -/

/-- A call that changes which jobs are listed. -/
inductive ListOp
  | add (job : Job)
  | remove (pgid : ℕ)

def ListOp.apply (t : JobTable) : ListOp → JobTable
  | add job => jobsAddJob t job
  | remove pgid => (jobsRemoveJob t pgid).2

/-- The list after some calls, from the start of the shell. -/
def runListOps (ops : List ListOp) : JobTable := ops.foldl ListOp.apply {}

theorem runListOps_concat (ops : List ListOp) (op : ListOp) :
    runListOps (ops ++ [op]) = op.apply (runListOps ops) := by
  rw [runListOps, List.foldl_append]
  rfl

/-! ## When the id is new -/

/-- Where the candidate starts at `n`, the first id beyond it is not followed by the candidate. -/
def NoClash (n : ℕ) (ids : List ℕ) : Prop :=
  ∀ k x, ids[k]? = some x → n + k < x →
    (∀ i < k, ∀ y, ids[i]? = some y → y ≤ n + i) → n + k ∉ ids.drop (k + 1)

theorem noClash_nil (n : ℕ) : NoClash n [] := fun _ _ hk ↦ nomatch hk

theorem noClash_cons_of_lt {n x : ℕ} {ids : List ℕ} (hx : n < x) :
    NoClash n (x :: ids) ↔ n ∉ ids := by
  constructor
  · intro h
    exact h 0 x rfl hx fun i hi ↦ absurd hi (Nat.not_lt_zero i)
  · intro h k y hk hy hbefore
    cases k with
    | zero => exact h
    | succ k => exact absurd (hbefore 0 (Nat.succ_pos k) x rfl) (Nat.not_le.mpr hx)

theorem noClash_cons_of_le {n x : ℕ} {ids : List ℕ} (hx : x ≤ n) :
    NoClash n (x :: ids) ↔ NoClash (n + 1) ids := by
  constructor
  · intro h k y hk hy hbefore
    have hclash := h (k + 1) y hk (by omega) fun i hi z hz ↦ by
      cases i with
      | zero => cases hz; exact hx
      | succ i =>
        have hle := hbefore i (Nat.lt_of_succ_lt_succ hi) z hz
        omega
    rwa [Nat.add_right_comm, Nat.add_assoc]
  · intro h k y hk hy hbefore
    cases k with
    | zero => cases hk; omega
    | succ k =>
      have hclash := h k y hk (by omega) fun i hi z hz ↦ by
        have hle := hbefore (i + 1) (Nat.succ_lt_succ hi) z hz
        omega
      rwa [Nat.add_right_comm, Nat.add_assoc] at hclash

theorem le_newIdLoop (jobs : List Job) : ∀ n, n ≤ newIdLoop n jobs := by
  induction jobs with
  | nil => exact fun n ↦ le_refl n
  | cons j jobs ih =>
    intro n
    rw [newIdLoop]
    split
    · exact le_refl n
    · exact (Nat.le_succ n).trans (ih (n + 1))

/-- The id that is handed out is in use exactly when the candidate clashes. -/
theorem newIdLoop_notMem_iff (jobs : List Job) :
    ∀ n, newIdLoop n jobs ∉ jobs.map Job.id ↔ NoClash n (jobs.map Job.id) := by
  induction jobs with
  | nil => exact fun n ↦ iff_of_true List.not_mem_nil (noClash_nil n)
  | cons j jobs ih =>
    intro n
    rw [newIdLoop, List.map_cons, List.mem_cons, not_or]
    by_cases hj : j.id ≥ n + 1
    · rw [if_pos hj, noClash_cons_of_lt hj, and_iff_right (by omega)]
    · have hle := le_newIdLoop jobs (n + 1)
      rw [if_neg hj, noClash_cons_of_le (by omega), ← ih (n + 1), and_iff_right (by omega)]

/-! ## One call -/

theorem ids_addJob (t : JobTable) (job : Job) :
    (jobsAddJob t job).ids = t.ids ++ [jobsNewId t] := by
  rw [JobTable.ids, jobsAddJob, List.map_cons, List.reverse_cons]
  rfl

theorem nodup_ids_addJob_iff {t : JobTable} (job : Job) (ht : t.ids.Nodup) :
    (jobsAddJob t job).ids.Nodup ↔ NoClash 1 t.ids := by
  have hids : t.jobs.reverse.map Job.id = t.ids := List.map_reverse
  rw [ids_addJob, jobsNewId, ← hids, ← newIdLoop_notMem_iff]
  rw [← hids] at ht
  constructor
  · intro h hmem
    exact (List.nodup_append.mp h).2.2 _ hmem _ List.mem_cons_self rfl
  · intro hnew
    refine List.nodup_append.mpr ⟨ht, List.nodup_singleton _, fun x hx y hy hxy ↦ ?_⟩
    obtain rfl := List.mem_singleton.mp hy
    exact hnew (hxy ▸ hx)

theorem nodup_ids_removeJob {t : JobTable} (pgid : ℕ) (ht : t.ids.Nodup) :
    (jobsRemoveJob t pgid).2.ids.Nodup := by
  rw [JobTable.ids, List.nodup_reverse] at ht ⊢
  exact ht.sublist ((JobTable.jobs_removeJob_sublist t pgid).map _)

/-! ## Whole histories -/

/-- The ids are distinct at every moment of a history exactly when no `jobs_add_job` of it clashes:
`k` being the position of the first job whose id exceeds its position, no later job has id `k`. -/
theorem ids_nodup_iff (ops : List ListOp) :
    (∀ pre, pre <+: ops → (runListOps pre).ids.Nodup) ↔
      ∀ pre job, pre ++ [.add job] <+: ops → NoClash 1 (runListOps pre).ids := by
  constructor
  · intro h pre job hpre
    have hafter := h _ hpre
    rw [runListOps_concat] at hafter
    exact (nodup_ids_addJob_iff job (h pre ((List.prefix_append _ _).trans hpre))).mp hafter
  · intro h pre hpre
    induction pre using List.reverseRecOn with
    | nil => exact List.nodup_nil
    | append_singleton pre op ih =>
      have hbefore := ih ((List.prefix_append _ _).trans hpre)
      rw [runListOps_concat]
      cases op with
      | add job => exact (nodup_ids_addJob_iff job hbefore).mpr (h pre job hpre)
      | remove pgid => exact nodup_ids_removeJob pgid hbefore

/-- Two jobs, the first of them finished, and two more: the ids are 2, 1 and 1. -/
theorem not_ids_nodup : ¬ ∀ ops, (runListOps ops).ids.Nodup := by
  intro hclaim
  exact absurd (hclaim [.add { addr := 0, pgid := 10 }, .add { addr := 1, pgid := 11 },
    .remove 10, .add { addr := 2, pgid := 12 }, .add { addr := 3, pgid := 13 }]) (by decide)

end Novash
