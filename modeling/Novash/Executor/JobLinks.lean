import Novash.Executor.Jobs
import Novash.Foundations.LinkedLists

/-!
# The pointers of the job list

`jobs_add_job`, `jobs_remove_job` and the searches, as they work on the memory: the list of jobs is
the pointers `prev` and `next` of the records, and `jobs` and `jobs_tail` of the shell. `JobTable`
lists the jobs instead, and what it says about these functions is right because of
`JobList.Represents`.

A loop over the list has a bound on its steps, and a result only if it ends within it. An access
through a null pointer, or to a record that was freed, has no result either.
-/

namespace Novash

open Foundations JobState

/-! ## The memory -/

/-- What a pointer can hold other than null. -/
abbrev Addr := { p : UInt64 // p ≠ 0 }

/-- A `job_t`, with its pointers. -/
structure JobNode where
  job : Job
  prev : Option Addr := none
  next : Option Addr := none

/-- The `job_t` in memory, and `shell_jobs_t`. -/
structure JobList where
  mem : Addr → Option JobNode := fun _ ↦ none
  jobs : Option Addr := none
  jobsTail : Option Addr := none
  jobsCount : UInt64 := 0
  runningJobsCount : UInt64 := 0

namespace JobList

/-- A write through a pointer to a job. -/
def update (l : JobList) (job : Addr) (f : JobNode → JobNode) : Option JobList := do
  let node ← l.mem job
  return { l with mem := Function.update l.mem job (some (f node)) }

/-- The loop of `jobs_add_job`. -/
def newIdLoop (l : JobList) : ℕ → ℕ → Option Addr → Option ℕ
  | _, newId, none => some newId
  | 0, _, some _ => none
  | n + 1, newId, some j => do
    let node ← l.mem j
    if node.job.id ≥ newId + 1 then return newId else l.newIdLoop n (newId + 1) node.next

/-- `jobs_add_job`. -/
def addJob (n : ℕ) (job : Addr) (l : JobList) : Option JobList := do
  let l ← l.update job fun node ↦ { node with next := none, prev := l.jobsTail }
  let newId ← l.newIdLoop n 1 l.jobs
  let l ← l.update job fun node ↦ { node with job := { node.job with id := newId } }
  let l ← (
    if l.jobs = none then some { l with jobs := some job }
    else do
      let tail ← l.jobsTail
      l.update tail fun node ↦ { node with next := some job })
  return { l with
    jobsTail := some job
    jobsCount := l.jobsCount + 1
    runningJobsCount := l.runningJobsCount + 1 }

/-- The loops that search from the tail. -/
def findLoop (l : JobList) (p : Job → Bool) : ℕ → Option Addr → Option (Option Addr)
  | _, none => some none
  | 0, some _ => none
  | n + 1, some job => do
    let node ← l.mem job
    if p node.job then return some job else l.findLoop p n node.prev

/-- `jobs_find_job_by_pgid`. -/
def findJobByPgid (n pgid : ℕ) (l : JobList) : Option (Option Addr) :=
  l.findLoop (fun job ↦ job.pgid = pgid) n l.jobsTail

/-- `jobs_find_process_by_pid`: the job of the process. -/
def findProcessByPid (n pid : ℕ) (l : JobList) : Option (Option Addr) :=
  l.findLoop (Job.hasPid pid) n l.jobsTail

/-- `jobs_last_job`. -/
def lastJob (l : JobList) : Option Addr := l.jobsTail

/-- `jobs_second_last_job`. -/
def secondLastJob (l : JobList) : Option (Option Addr) :=
  match l.jobsTail with
  | none => some none
  | some tail => (l.mem tail).map JobNode.prev

/-- `jobs_remove_job`. The record is freed at the end. -/
def removeJob (n pgid : ℕ) (l : JobList) : Option (Bool × JobList) := do
  match ← l.findJobByPgid n pgid with
  | none => return (false, l)
  | some job =>
    let node ← l.mem job
    let l ← (
      match node.prev with
      | some prev => l.update prev fun p ↦ { p with next := node.next }
      | none => some { l with jobs := node.next })
    let node ← l.mem job
    let l ← (
      match node.next with
      | some next => l.update next fun p ↦ { p with prev := node.prev }
      | none => some { l with jobsTail := node.prev })
    let l := { l with jobsCount := l.jobsCount - 1 }
    let node ← l.mem job
    let l :=
      if node.job.state ≠ jobStopped then { l with runningJobsCount := l.runningJobsCount - 1 }
      else l
    return (true, { l with mem := Function.update l.mem job none })

/-! ## The memory as a list -/

/-- The pointers alone. -/
def links (l : JobList) : Links Addr where
  head := l.jobs
  tail := l.jobsTail
  next a := (l.mem a).bind JobNode.next
  prev a := (l.mem a).bind JobNode.prev

/-- The job at an address. -/
def job? (l : JobList) (a : Addr) : Option Job := (l.mem a).map JobNode.job

/-- The memory holds the jobs of the table, at the addresses `as`, the oldest first. -/
structure Represents (l : JobList) (as : List Addr) (t : JobTable) : Prop where
  links : l.links.Holds as
  jobs : as.reverse.map l.job? = t.jobs.map some
  jobsCount : l.jobsCount = t.jobsCount
  runningJobsCount : l.runningJobsCount = t.runningJobsCount
  length : l.jobsCount = UInt64.ofNat as.length

end JobList

/-! ### Two lists side by side -/

section

variable {α β : Type*} {f : α → Option β} {p : β → Bool}

private theorem find?_of_map_eq {as : List α} {bs : List β} (h : as.map f = bs.map some) :
    (as.find? fun a ↦ (f a).any p).bind f = bs.find? p := by
  induction as generalizing bs with
  | nil =>
    obtain rfl : bs = [] := List.map_eq_nil_iff.mp h.symm
    rfl
  | cons a as ih =>
    obtain ⟨b, bs, rfl, hb, hbs⟩ := List.map_eq_cons_iff.mp h.symm
    rw [List.find?_cons, List.find?_cons, ← hb, Option.any_some]
    cases p b with
    | true => exact hb.symm
    | false => exact ih hbs.symm

private theorem eraseP_of_map_eq {as : List α} {bs : List β} (h : as.map f = bs.map some) :
    (as.eraseP fun a ↦ (f a).any p).map f = (bs.eraseP p).map some := by
  induction as generalizing bs with
  | nil =>
    obtain rfl : bs = [] := List.map_eq_nil_iff.mp h.symm
    rfl
  | cons a as ih =>
    obtain ⟨b, bs, rfl, hb, hbs⟩ := List.map_eq_cons_iff.mp h.symm
    rw [List.eraseP_cons, List.eraseP_cons, ← hb, Option.any_some]
    cases p b with
    | true => exact hbs.symm
    | false =>
      rw [cond_false, cond_false, List.map_cons, List.map_cons, ih hbs.symm, hb]

private theorem filterMap_of_map_eq {as : List α} {bs : List β} (h : as.map f = bs.map some) :
    as.filterMap f = bs := by
  have hid : as.filterMap f = (as.map f).filterMap id := by rw [List.filterMap_map]; rfl
  rw [hid, h, List.filterMap_map]
  exact List.filterMap_some

end

namespace JobList

variable {l : JobList} {as : List Addr} {t : JobTable} {a : Addr} {n : ℕ}

theorem Represents.jobs_forward (h : l.Represents as t) :
    as.map l.job? = t.jobs.reverse.map some := by
  have hjobs := congrArg List.reverse h.jobs
  rwa [← List.map_reverse, List.reverse_reverse, ← List.map_reverse] at hjobs

/-- Every record of the list is in memory. -/
theorem Represents.exists_node (h : l.Represents as t) (ha : a ∈ as) :
    ∃ node, l.mem a = some node := by
  have hmem : l.job? a ∈ t.jobs.reverse.map some := h.jobs_forward ▸ List.mem_map_of_mem ha
  obtain ⟨job, -, hjob⟩ := List.mem_map.mp hmem
  obtain ⟨node, hnode, -⟩ := Option.map_eq_some_iff.mp hjob.symm
  exact ⟨node, hnode⟩

/-! ## The loops -/

theorem newIdLoop_eq (as : List Addr) : ∀ {p : Option Addr} {n newId : ℕ},
    Seg l.links.next p as none → (∀ a ∈ as, ∃ node, l.mem a = some node) → as.length ≤ n →
    l.newIdLoop n newId p = some (Novash.newIdLoop newId (as.filterMap l.job?)) := by
  induction as with
  | nil =>
    intro p n newId hseg _ _
    obtain rfl := hseg.head_eq
    cases n <;> rfl
  | cons a as ih =>
    intro p n newId hseg hmem hn
    obtain ⟨rfl, hrest⟩ := hseg
    obtain ⟨node, hnode⟩ := hmem a List.mem_cons_self
    have hnext : l.links.next a = node.next := by simp [links, hnode]
    have hjob : l.job? a = some node.job := by simp [job?, hnode]
    cases n with
    | zero => exact absurd hn (Nat.not_succ_le_zero _)
    | succ n =>
      rw [hnext] at hrest
      have hloop : l.newIdLoop n (newId + 1) node.next = _ :=
        ih hrest (fun b hb ↦ hmem b (List.mem_cons_of_mem a hb)) (Nat.le_of_succ_le_succ hn)
      rw [newIdLoop, hnode, List.filterMap_cons, hjob, Novash.newIdLoop]
      dsimp only [Option.bind_eq_bind, Option.bind_some]
      split
      · rfl
      · exact hloop

theorem findLoop_eq (p : Job → Bool) (as : List Addr) : ∀ {q : Option Addr} {n : ℕ},
    Seg l.links.prev q as none → (∀ a ∈ as, ∃ node, l.mem a = some node) → as.length ≤ n →
    l.findLoop p n q = some (as.find? fun a ↦ (l.job? a).any p) := by
  induction as with
  | nil =>
    intro q n hseg _ _
    obtain rfl := hseg.head_eq
    cases n <;> rfl
  | cons a as ih =>
    intro q n hseg hmem hn
    obtain ⟨rfl, hrest⟩ := hseg
    obtain ⟨node, hnode⟩ := hmem a List.mem_cons_self
    have hprev : l.links.prev a = node.prev := by simp [links, hnode]
    have hjob : l.job? a = some node.job := by simp [job?, hnode]
    cases n with
    | zero => exact absurd hn (Nat.not_succ_le_zero _)
    | succ n =>
      rw [hprev] at hrest
      have hloop := ih hrest (fun b hb ↦ hmem b (List.mem_cons_of_mem a hb))
        (Nat.le_of_succ_le_succ hn)
      rw [findLoop, hnode, List.find?_cons, hjob, Option.any_some]
      dsimp only [Option.bind_eq_bind, Option.bind_some]
      cases p node.job with
      | true => rfl
      | false => exact hloop

theorem Represents.findLoop_eq (h : l.Represents as t) (p : Job → Bool) (hn : as.length ≤ n) :
    l.findLoop p n l.jobsTail = some (as.reverse.find? fun a ↦ (l.job? a).any p) :=
  JobList.findLoop_eq p as.reverse h.links.backward
    (fun _ ha ↦ h.exists_node (List.mem_reverse.mp ha)) (by rwa [List.length_reverse])

/-- A search from the tail finds what the same search in the table finds. -/
theorem Represents.find_eq (h : l.Represents as t) (p : Job → Bool) :
    (as.reverse.find? fun a ↦ (l.job? a).any p).bind l.job? = t.jobs.find? p :=
  find?_of_map_eq h.jobs

/-! ## The searches -/

theorem Represents.lastJob_eq (h : l.Represents as t) : l.lastJob.bind l.job? = jobsLastJob t := by
  have htail : l.lastJob = as.reverse.head? := h.links.backward.head_eq
  rw [htail, jobsLastJob]
  have hjobs := h.jobs
  cases hrev : as.reverse with
  | nil =>
    rw [hrev] at hjobs
    rw [List.map_eq_nil_iff.mp hjobs.symm]
    rfl
  | cons a rest =>
    rw [hrev] at hjobs
    obtain ⟨job, jobs, hcons, hjob, -⟩ := List.map_eq_cons_iff.mp hjobs.symm
    rw [hcons]
    exact hjob.symm

theorem Represents.secondLastJob_eq (h : l.Represents as t) :
    l.secondLastJob.map (·.bind l.job?) = some (jobsSecondLastJob t) := by
  have htail : l.jobsTail = as.reverse.head? := h.links.backward.head_eq
  have hback := h.links.backward
  have hjobs := h.jobs
  have hnodes : ∀ a ∈ as.reverse, ∃ node, l.mem a = some node :=
    fun a ha ↦ h.exists_node (List.mem_reverse.mp ha)
  rw [secondLastJob, htail, jobsSecondLastJob]
  cases hrev : as.reverse with
  | nil =>
    rw [hrev] at hjobs
    rw [List.map_eq_nil_iff.mp hjobs.symm]
    rfl
  | cons a rest =>
    rw [hrev] at hjobs hback hnodes
    obtain ⟨node, hnode⟩ := hnodes a List.mem_cons_self
    have hprev : l.links.prev a = node.prev := by simp [JobList.links, hnode]
    have hrest : node.prev = rest.head? := hprev ▸ hback.2.head_eq
    obtain ⟨job, jobs, hcons, -, hjobs⟩ := List.map_eq_cons_iff.mp hjobs.symm
    rw [hcons, List.head?_cons]
    dsimp only
    rw [hnode, Option.map_some, Option.map_some, hrest, List.tail_cons]
    cases rest with
    | nil => rw [List.map_eq_nil_iff.mp hjobs]; rfl
    | cons b rest =>
      obtain ⟨job', jobs', rfl, hjob', -⟩ := List.map_eq_cons_iff.mp hjobs
      exact congrArg some hjob'.symm

theorem Represents.findJobByPgid_map (h : l.Represents as t) (hn : as.length ≤ n) (pgid : ℕ) :
    (l.findJobByPgid n pgid).map (·.bind l.job?) = some (jobsFindJobByPgid t pgid) := by
  rw [findJobByPgid, h.findLoop_eq _ hn]
  exact congrArg some (h.find_eq _)

theorem Represents.findProcessByPid_map (h : l.Represents as t) (hn : as.length ≤ n) (pid : ℕ) :
    (l.findProcessByPid n pid).map (·.bind l.job?) = some (jobsFindProcessByPid t pid) := by
  rw [findProcessByPid, h.findLoop_eq _ hn]
  exact congrArg some (h.find_eq _)

/-! ## Writing to a record -/

theorem update_eq {node : JobNode} (h : l.mem a = some node) (f : JobNode → JobNode) :
    l.update a f = some { l with mem := Function.update l.mem a (some (f node)) } := by
  rw [update, h]
  rfl

/-- The pointers after a record was written. -/
theorem links_update (l : JobList) (a : Addr) (node : JobNode) :
    ({ l with mem := Function.update l.mem a (some node) } : JobList).links
      = { l.links with
          next := Function.update l.links.next a node.next
          prev := Function.update l.links.prev a node.prev } := by
  refine congrArg₂ (Links.mk l.jobs l.jobsTail) (funext fun b ↦ ?_) (funext fun b ↦ ?_)
  · by_cases hb : b = a
    · subst hb; simp
    · simp [Function.update_of_ne hb, links]
  · by_cases hb : b = a
    · subst hb; simp
    · simp [Function.update_of_ne hb, links]

theorem job?_update (l : JobList) (a : Addr) (node : JobNode) :
    ({ l with mem := Function.update l.mem a (some node) } : JobList).job?
      = Function.update l.job? a (some node.job) := by
  funext b
  by_cases hb : b = a
  · subst hb; simp [job?]
  · simp [job?, Function.update_of_ne hb]

/-- Nothing but the pointers differs, and the record of `a` does not. -/
structure Rewired (l : JobList) (a : Addr) (l' : JobList) : Prop where
  node : l'.mem a = l.mem a
  job? : l'.job? = l.job?
  jobsCount : l'.jobsCount = l.jobsCount
  runningJobsCount : l'.runningJobsCount = l.runningJobsCount

theorem Rewired.trans {l' l'' : JobList} (h : l.Rewired a l') (h' : l'.Rewired a l'') :
    l.Rewired a l'' :=
  ⟨h'.node.trans h.node, h'.job?.trans h.job?, h'.jobsCount.trans h.jobsCount,
    h'.runningJobsCount.trans h.runningJobsCount⟩

/-- A write to the pointers of another record. -/
theorem rewired_update {b : Addr} {node node' : JobNode} (hb : b ≠ a) (h : l.mem b = some node)
    (hjob : node'.job = node.job) :
    l.Rewired a { l with mem := Function.update l.mem b (some node') } where
  node := Function.update_of_ne hb.symm ..
  job? := by
    have hself : l.job? b = some node'.job := by rw [JobList.job?, h, hjob]; rfl
    rw [job?_update, ← hself, Function.update_eq_self]
  jobsCount := rfl
  runningJobsCount := rfl

theorem update_next {b : Addr} {node : JobNode} (hb : b ≠ a) (h : l.mem b = some node)
    (q : Option Addr) :
    ∃ l', l.update b (fun node ↦ { node with next := q }) = some l' ∧ l.Rewired a l' ∧
      l'.links = { l.links with next := Function.update l.links.next b q } := by
  refine ⟨_, update_eq h _, rewired_update hb h rfl, ?_⟩
  have hself : l.links.prev b = node.prev := by simp [links, h]
  rw [links_update, ← hself, Function.update_eq_self]

theorem update_prev {b : Addr} {node : JobNode} (hb : b ≠ a) (h : l.mem b = some node)
    (q : Option Addr) :
    ∃ l', l.update b (fun node ↦ { node with prev := q }) = some l' ∧ l.Rewired a l' ∧
      l'.links = { l.links with prev := Function.update l.links.prev b q } := by
  refine ⟨_, update_eq h _, rewired_update hb h rfl, ?_⟩
  have hself : l.links.next b = node.next := by simp [links, h]
  rw [links_update, ← hself, Function.update_eq_self]

/-! ## Adding a job -/

/-- What `jobs_add_job` leaves at the job. -/
def addedNode (l : JobList) (t : JobTable) (node : JobNode) : JobNode where
  job := { node.job with id := jobsNewId t }
  prev := l.jobsTail
  next := none

/-- The id is computed in a memory in which the pointers of the new job are set already. -/
theorem Represents.newIdLoop_eq (h : l.Represents as t) (ha : a ∉ as) (hn : as.length ≤ n)
    (node : JobNode) :
    ({ l with mem := Function.update l.mem a (some node) } : JobList).newIdLoop n 1 l.jobs
      = some (jobsNewId t) := by
  have hseg : Seg ({ l with mem := Function.update l.mem a (some node) } : JobList).links.next
      l.jobs as none := by
    rw [links_update]
    exact h.links.forward.update ha
  have hmem : ∀ b ∈ as, ∃ node', Function.update l.mem a (some node) b = some node' := by
    intro b hb
    rw [Function.update_of_ne fun heq : b = a ↦ ha (heq ▸ hb)]
    exact h.exists_node hb
  have hjobs : as.filterMap (Function.update l.job? a (some node.job)) = t.jobs.reverse := by
    refine filterMap_of_map_eq ?_
    rw [← h.jobs_forward]
    exact List.map_congr_left fun b hb ↦ Function.update_of_ne (fun heq : b = a ↦ ha (heq ▸ hb)) _ _
  rw [JobList.newIdLoop_eq as hseg hmem hn, job?_update, hjobs]
  rfl

/-- The effect of `jobs_add_job` on the memory. -/
private theorem represents_pushBack (h : l.Represents as t) (ha : a ∉ as) {l' : JobList}
    {node : JobNode} (hlinks : l'.links = l.links.pushBack a)
    (hjobs : l'.job? = Function.update l.job? a (some (l.addedNode t node).job))
    (hcount : l'.jobsCount = l.jobsCount + 1)
    (hrunning : l'.runningJobsCount = l.runningJobsCount + 1) :
    l'.Represents (as ++ [a]) (jobsAddJob t node.job) where
  links := hlinks ▸ h.links.pushBack ha
  jobs := by
    have hold : as.reverse.map l'.job? = as.reverse.map l.job? := by
      rw [hjobs]
      refine List.map_congr_left fun b hb ↦ Function.update_of_ne (fun heq : b = a ↦ ?_) _ _
      exact ha (heq ▸ List.mem_reverse.mp hb)
    rw [List.reverse_append, List.reverse_singleton, List.singleton_append, List.map_cons, hold,
      h.jobs, hjobs, Function.update_self]
    rfl
  jobsCount := hcount.trans (congrArg (· + 1) h.jobsCount)
  runningJobsCount := hrunning.trans (congrArg (· + 1) h.runningJobsCount)
  length := by
    rw [hcount, h.length, List.length_append, List.length_singleton, UInt64.ofNat_add]
    rfl

theorem addJob_represents (h : l.Represents as t) (ha : a ∉ as) (hn : as.length ≤ n)
    {node : JobNode} (hnode : l.mem a = some node) :
    ∃ l', l.addJob n a = some l' ∧ l'.Represents (as ++ [a]) (jobsAddJob t node.job) := by
  have htail : l.jobsTail = as.getLast? := h.links.backward.head_eq.trans List.head?_reverse
  have hhead : l.jobs = as.head? := h.links.forward.head_eq
  -- the memory when the id is known
  let l₂ : JobList := { l with mem := Function.update l.mem a (some (l.addedNode t node)) }
  have hlinks₂ : l₂.links = { l.links with
      next := Function.update l.links.next a none
      prev := Function.update l.links.prev a l.jobsTail } := links_update l a _
  have hjobs₂ : l₂.job? = Function.update l.job? a (some (l.addedNode t node).job) :=
    job?_update l a _
  rw [addJob, update_eq hnode]
  simp only [Option.bind_eq_bind, Option.bind_some]
  rw [h.newIdLoop_eq ha hn]
  simp only [Option.bind_some]
  rw [update_eq (Function.update_self ..)]
  simp only [Option.bind_some, Function.update_idem]
  rcases List.eq_nil_or_concat as with rfl | ⟨init, b, rfl⟩
  · have hnone : l.jobs = none := hhead
    have htail' : l.jobsTail = none := htail
    rw [if_pos hnone]
    refine ⟨_, rfl, represents_pushBack h ha ?_ hjobs₂ rfl rfl⟩
    change Links.mk (some a) (some a) l₂.links.next l₂.links.prev = _
    rw [hlinks₂, Links.pushBack, if_pos (show l.links.head = none from hhead),
      show l.links.tail = none from htail, htail']
  · rw [List.concat_eq_append] at h ha hhead htail ⊢
    have htail' : l.jobsTail = some b := by rw [htail, List.getLast?_append]; rfl
    have hsome : l.jobs ≠ none := by rw [hhead]; simp
    have hne : b ≠ a := fun heq ↦ ha (heq ▸ List.mem_append_right _ (List.mem_singleton_self _))
    obtain ⟨nb, hnb⟩ := h.exists_node (List.mem_append_right init (List.mem_singleton_self b))
    have hnb₂ : l₂.mem b = some nb := (Function.update_of_ne hne ..).trans hnb
    obtain ⟨l₃, hl₃, hrewired, hlinks₃⟩ := update_next hne hnb₂ (some a)
    have hwrite : (l₂.jobsTail >>= fun tail ↦ l₂.update tail fun node ↦
        { node with next := some a }) = some l₃ := by
      rw [show l₂.jobsTail = some b from htail']
      exact hl₃
    rw [if_neg hsome]
    refine ⟨_, Option.bind_eq_some_iff.mpr ⟨l₃, hwrite, rfl⟩, represents_pushBack h ha ?_
      (hrewired.job?.trans hjobs₂) (congrArg (· + 1) hrewired.jobsCount)
      (congrArg (· + 1) hrewired.runningJobsCount)⟩
    change Links.mk l₃.links.head (some a) l₃.links.next l₃.links.prev = _
    rw [hlinks₃, hlinks₂, Links.pushBack, if_neg (show l.links.head ≠ none from hsome),
      show l.links.tail = some b from htail', htail']

/-! ## Removing a job -/

/-- The first two writes of `jobs_remove_job`. -/
private theorem unlink_next {node : JobNode} (hnode : l.mem a = some node)
    (hprev : ∀ b, node.prev = some b → b ≠ a ∧ ∃ nb, l.mem b = some nb) :
    ∃ l',
      (match node.prev with
        | some prev => l.update prev fun p ↦ { p with next := node.next }
        | none => some { l with jobs := node.next }) = some l' ∧
      l.Rewired a l' ∧
      l'.links = { l.links with
        head := (l.links.unlink a).head
        next := (l.links.unlink a).next } := by
  have hp : l.links.prev a = node.prev := by simp [links, hnode]
  have hn : l.links.next a = node.next := by simp [links, hnode]
  cases hcase : node.prev with
  | none =>
    refine ⟨_, rfl, ⟨rfl, rfl, rfl, rfl⟩, ?_⟩
    rw [Links.unlink, hp, hn, hcase, if_pos rfl]
    rfl
  | some b =>
    obtain ⟨hb, nb, hnb⟩ := hprev b hcase
    obtain ⟨l', hl', hrewired, hlinks⟩ := update_next hb hnb node.next
    refine ⟨l', hl', hrewired, ?_⟩
    rw [hlinks, Links.unlink, hp, hn, hcase, if_neg (Option.some_ne_none b)]

private theorem unlink_prev {node : JobNode} (hnode : l.mem a = some node)
    (hnext : ∀ b, node.next = some b → b ≠ a ∧ ∃ nb, l.mem b = some nb) :
    ∃ l',
      (match node.next with
        | some next => l.update next fun p ↦ { p with prev := node.prev }
        | none => some { l with jobsTail := node.prev }) = some l' ∧
      l.Rewired a l' ∧
      l'.links = { l.links with
        tail := (l.links.unlink a).tail
        prev := (l.links.unlink a).prev } := by
  have hp : l.links.prev a = node.prev := by simp [links, hnode]
  have hn : l.links.next a = node.next := by simp [links, hnode]
  cases hcase : node.next with
  | none =>
    refine ⟨_, rfl, ⟨rfl, rfl, rfl, rfl⟩, ?_⟩
    rw [Links.unlink, hp, hn, hcase, if_pos rfl]
    rfl
  | some b =>
    obtain ⟨hb, nb, hnb⟩ := hnext b hcase
    obtain ⟨l', hl', hrewired, hlinks⟩ := update_prev hb hnb node.prev
    refine ⟨l', hl', hrewired, ?_⟩
    rw [hlinks, Links.unlink, hp, hn, hcase, if_neg (Option.some_ne_none b)]

/-- The writes to the pointers together. -/
private theorem unlink_both {node : JobNode} (hnode : l.mem a = some node)
    (hprev : ∀ b, node.prev = some b → b ≠ a ∧ ∃ nb, l.mem b = some nb)
    (hnext : ∀ b, node.next = some b → b ≠ a ∧ ∃ nb, l.mem b = some nb) :
    ∃ l₁ l₂,
      (match node.prev with
        | some prev => l.update prev fun p ↦ { p with next := node.next }
        | none => some { l with jobs := node.next }) = some l₁ ∧
      l₁.mem a = some node ∧
      (match node.next with
        | some next => l₁.update next fun p ↦ { p with prev := node.prev }
        | none => some { l₁ with jobsTail := node.prev }) = some l₂ ∧
      l.Rewired a l₂ ∧ l₂.links = l.links.unlink a := by
  obtain ⟨l₁, hl₁, hrewired₁, hlinks₁⟩ := unlink_next hnode hprev
  have hnode₁ : l₁.mem a = some node := hrewired₁.node.trans hnode
  have hnext₁ : ∀ b, node.next = some b → b ≠ a ∧ ∃ nb, l₁.mem b = some nb := by
    intro b hb
    obtain ⟨hne, nb, hnb⟩ := hnext b hb
    have hjob : l₁.job? b = some nb.job := by rw [hrewired₁.job?, job?, hnb]; rfl
    obtain ⟨nb₁, hnb₁, -⟩ := Option.map_eq_some_iff.mp hjob
    exact ⟨hne, nb₁, hnb₁⟩
  obtain ⟨l₂, hl₂, hrewired₂, hlinks₂⟩ := unlink_prev hnode₁ hnext₁
  refine ⟨l₁, l₂, hl₁, hnode₁, hl₂, hrewired₁.trans hrewired₂, ?_⟩
  have hp : l₁.links.prev a = l.links.prev a := by simp [links, hnode, hnode₁]
  have hn : l₁.links.next a = l.links.next a := by simp [links, hnode, hnode₁]
  rw [hlinks₂, Links.unlink, hp, hn, hlinks₁]
  rfl

/-- The job at the address has the process group `pgid`. -/
def hasPgid (l : JobList) (pgid : ℕ) (a : Addr) : Bool := (l.job? a).any fun job ↦ job.pgid = pgid

theorem Represents.findJobByPgid_eq (h : l.Represents as t) (pgid : ℕ) (hn : as.length ≤ n) :
    l.findJobByPgid n pgid = some (as.reverse.find? (l.hasPgid pgid)) :=
  h.findLoop_eq _ hn

theorem removeJob_of_absent (h : l.Represents as t) (hn : as.length ≤ n) {pgid : ℕ}
    (hpgid : ∀ b ∈ as, ¬ l.hasPgid pgid b) : l.removeJob n pgid = some (false, l) := by
  have hnone : as.reverse.find? (l.hasPgid pgid) = none :=
    List.find?_eq_none.mpr fun b hb ↦ hpgid b (List.mem_reverse.mp hb)
  rw [removeJob, h.findJobByPgid_eq pgid hn, hnone]
  rfl

private theorem represents_unlink {pre post : List Addr} (h : l.Represents (pre ++ a :: post) t)
    {pgid : ℕ} (ha : l.hasPgid pgid a) (hpost : ∀ b ∈ post, ¬ l.hasPgid pgid b) {job : Job}
    (hfind : jobsFindJobByPgid t pgid = some job) {l' : JobList}
    (hhead : l'.jobs = (l.links.unlink a).head) (htail : l'.jobsTail = (l.links.unlink a).tail)
    (hnext : ∀ b ≠ a, l'.links.next b = (l.links.unlink a).next b)
    (hprev : ∀ b ≠ a, l'.links.prev b = (l.links.unlink a).prev b)
    (hjobs : l'.job? = Function.update l.job? a none) (hcount : l'.jobsCount = l.jobsCount - 1)
    (hrunning : l'.runningJobsCount = if job.state ≠ jobStopped then l.runningJobsCount - 1
      else l.runningJobsCount) :
    l'.Represents (pre ++ post) (jobsRemoveJob t pgid).2 := by
  have hothers : a ∉ pre ++ post := (List.nodup_middle.mp h.links.nodup).notMem
  have hne : ∀ b ∈ pre ++ post, b ≠ a := fun b hb heq ↦ hothers (heq ▸ hb)
  have htable : (jobsRemoveJob t pgid).2 = JobTable.mk (t.jobs.eraseP fun j ↦ j.pgid = pgid)
      (t.jobsCount - 1)
      (if job.state ≠ jobStopped then t.runningJobsCount - 1 else t.runningJobsCount) := by
    rw [jobsRemoveJob, hfind]
  rw [htable]
  refine ⟨?_, ?_, ?_, ?_, ?_⟩
  · exact h.links.unlink.congr hhead htail (fun b hb ↦ hnext b (hne b hb))
      fun b hb ↦ hprev b (hne b hb)
  · have herase : (pre ++ a :: post).reverse.eraseP (l.hasPgid pgid) = (pre ++ post).reverse := by
      have hreverse : (pre ++ a :: post).reverse = post.reverse ++ a :: pre.reverse := by simp
      have hnone : ∀ b ∈ post.reverse, ¬ l.hasPgid pgid b :=
        fun b hb ↦ hpost b (List.mem_reverse.mp hb)
      rw [hreverse, List.eraseP_append_right _ hnone, List.eraseP_cons_of_pos ha,
        List.reverse_append]
    have hsame : (pre ++ post).reverse.map l'.job? = (pre ++ post).reverse.map l.job? := by
      rw [hjobs]
      exact List.map_congr_left fun b hb ↦
        Function.update_of_ne (hne b (List.mem_reverse.mp hb)) _ _
    rw [hsame, ← herase]
    exact eraseP_of_map_eq h.jobs
  · rw [hcount, h.jobsCount]
  · rw [hrunning, h.runningJobsCount]
  · have hlength : (pre ++ a :: post).length = (pre ++ post).length + 1 := by simp; omega
    rw [hcount, h.length, hlength, UInt64.ofNat_add]
    exact UInt64.add_sub_cancel _ _

/-- The jobs before and after a job of the list are other jobs, and are in the memory. -/
private theorem Represents.neighbours {pre post : List Addr}
    (h : l.Represents (pre ++ a :: post) t) {node : JobNode} (hnode : l.mem a = some node) :
    (∀ b, node.prev = some b → b ≠ a ∧ ∃ nb, l.mem b = some nb) ∧
      ∀ b, node.next = some b → b ≠ a ∧ ∃ nb, l.mem b = some nb := by
  have hothers : a ∉ pre ++ post := (List.nodup_middle.mp h.links.nodup).notMem
  have hother : ∀ b, b ∈ pre ++ post → b ≠ a ∧ ∃ nb, l.mem b = some nb := fun b hb ↦
    ⟨fun heq ↦ hothers (heq ▸ hb), h.exists_node (List.mem_append.mpr
      ((List.mem_append.mp hb).imp_right (List.mem_cons_of_mem a)))⟩
  constructor
  · intro b hb
    have hlink : l.links.prev a = node.prev := by simp [JobList.links, hnode]
    rw [← hlink, h.links.prev_eq] at hb
    exact hother b (List.mem_append_left _ (List.mem_of_getLast? hb))
  · intro b hb
    have hlink : l.links.next a = node.next := by simp [JobList.links, hnode]
    rw [← hlink, h.links.forward.next_eq] at hb
    exact hother b (List.mem_append_right _ (List.mem_of_head? hb))

/-- What is left of the memory when a job that is no longer linked is freed. -/
def freeNode (l : JobList) (a : Addr) (node : JobNode) : JobList :=
  { l with
    mem := Function.update l.mem a none
    jobsCount := l.jobsCount - 1
    runningJobsCount :=
      if node.job.state ≠ jobStopped then l.runningJobsCount - 1 else l.runningJobsCount }

theorem job?_freeNode (l : JobList) (a : Addr) (node : JobNode) :
    (l.freeNode a node).job? = Function.update l.job? a none := by
  funext b
  by_cases hb : b = a
  · subst hb
    simp [job?, freeNode]
  · rw [Function.update_of_ne hb]
    simp [job?, freeNode, Function.update_of_ne hb]

theorem links_freeNode (l : JobList) (node : JobNode) {b : Addr} (hb : b ≠ a) :
    (l.freeNode a node).links.next b = l.links.next b ∧
      (l.freeNode a node).links.prev b = l.links.prev b := by
  simp [links, freeNode, Function.update_of_ne hb]

/-- `jobs_remove_job`, one write after the other. -/
private theorem removeJob_eq {l₁ l₂ : JobList} {node : JobNode} {pgid : ℕ}
    (hfind : l.findJobByPgid n pgid = some (some a)) (hnode : l.mem a = some node)
    (hl₁ : (match node.prev with
      | some prev => l.update prev fun p ↦ { p with next := node.next }
      | none => some { l with jobs := node.next }) = some l₁)
    (hnode₁ : l₁.mem a = some node)
    (hl₂ : (match node.next with
      | some next => l₁.update next fun p ↦ { p with prev := node.prev }
      | none => some { l₁ with jobsTail := node.prev }) = some l₂)
    (hnode₂ : l₂.mem a = some node) :
    l.removeJob n pgid = some (true, l₂.freeNode a node) := by
  rw [removeJob, hfind]
  simp only [Option.bind_eq_bind, Option.bind_some]
  rw [hnode]
  simp only [Option.bind_some]
  rw [hl₁]
  simp only [Option.bind_some]
  rw [hnode₁]
  simp only [Option.bind_some]
  rw [hl₂]
  simp only [Option.bind_some]
  rw [hnode₂]
  simp only [Option.bind_some]
  by_cases hstate : node.job.state = JobState.jobStopped <;> simp [freeNode, hstate]

/-- The effect of `jobs_remove_job` on the memory, when it finds a job. -/
theorem removeJob_of_found {pre post : List Addr} (h : l.Represents (pre ++ a :: post) t)
    (hn : (pre ++ a :: post).length ≤ n) {pgid : ℕ} (ha : l.hasPgid pgid a)
    (hpost : ∀ b ∈ post, ¬ l.hasPgid pgid b) :
    ∃ l', l.removeJob n pgid = some (true, l') ∧ (jobsRemoveJob t pgid).1 = true ∧
      l'.Represents (pre ++ post) (jobsRemoveJob t pgid).2 ∧
      l'.job? = Function.update l.job? a none := by
  have hreverse : (pre ++ a :: post).reverse = post.reverse ++ a :: pre.reverse := by simp
  have hfirst : (pre ++ a :: post).reverse.find? (l.hasPgid pgid) = some a :=
    List.find?_eq_some_iff_append.mpr ⟨ha, post.reverse, pre.reverse, hreverse, fun b hb ↦ by
      simpa using hpost b (List.mem_reverse.mp hb)⟩
  have hfind : l.findJobByPgid n pgid = some (some a) := by
    rw [h.findJobByPgid_eq pgid hn, hfirst]
  obtain ⟨node, hnode⟩ := h.exists_node (List.mem_append_right pre List.mem_cons_self)
  obtain ⟨hprev, hnext⟩ := h.neighbours hnode
  obtain ⟨l₁, l₂, hl₁, hnode₁, hl₂, hrewired, hlinks⟩ := unlink_both hnode hprev hnext
  have hnode₂ : l₂.mem a = some node := hrewired.node.trans hnode
  have hjob : jobsFindJobByPgid t pgid = some node.job := by
    have hfound : (some a).bind l.job? = _ :=
      hfirst ▸ h.find_eq fun job ↦ decide (job.pgid = pgid)
    refine hfound.symm.trans ?_
    rw [Option.bind_some, job?, hnode]
    rfl
  have hjobs : (l₂.freeNode a node).job? = Function.update l.job? a none := by
    rw [job?_freeNode, hrewired.job?]
  refine ⟨l₂.freeNode a node, removeJob_eq hfind hnode hl₁ hnode₁ hl₂ hnode₂,
    by rw [jobsRemoveJob, hjob], ?_, hjobs⟩
  refine represents_unlink h ha hpost hjob (congrArg Links.head hlinks) (congrArg Links.tail hlinks)
    (fun b hb ↦ ?_) (fun b hb ↦ ?_) hjobs (congrArg (· - 1) hrewired.jobsCount) ?_
  · rw [← hlinks]
    exact (links_freeNode l₂ node hb).1
  · rw [← hlinks]
    exact (links_freeNode l₂ node hb).2
  · rw [← hrewired.runningJobsCount]
    rfl

/-- The two cases of `jobs_remove_job`. -/
theorem absent_or_newest (l : JobList) (as : List Addr) (pgid : ℕ) :
    (∀ b ∈ as, ¬ l.hasPgid pgid b) ∨
      ∃ pre a post, as = pre ++ a :: post ∧ l.hasPgid pgid a ∧ ∀ b ∈ post, ¬ l.hasPgid pgid b := by
  cases hfind : as.reverse.find? (l.hasPgid pgid) with
  | none =>
    exact .inl fun b hb ↦ List.find?_eq_none.mp hfind b (List.mem_reverse.mpr hb)
  | some a =>
    obtain ⟨ha, newer, older, has, hnewer⟩ := List.find?_eq_some_iff_append.mp hfind
    refine .inr ⟨older.reverse, a, newer.reverse, ?_, ha, fun b hb ↦ ?_⟩
    · rw [← List.reverse_reverse as, has]
      simp
    · simpa using hnewer b (List.mem_reverse.mp hb)

theorem removeJob_represents (h : l.Represents as t) (hn : as.length ≤ n) (pgid : ℕ) :
    ∃ l' as', l.removeJob n pgid = some ((jobsRemoveJob t pgid).1, l') ∧
      l'.Represents as' (jobsRemoveJob t pgid).2 ∧ as'.length ≤ as.length := by
  rcases l.absent_or_newest as pgid with hpgid | ⟨pre, a, post, rfl, ha, hpost⟩
  · have hnone : jobsFindJobByPgid t pgid = none := by
      refine List.find?_eq_none.mpr fun job hjob ↦ ?_
      have hmem : some job ∈ as.reverse.map l.job? := h.jobs ▸ List.mem_map_of_mem hjob
      obtain ⟨b, hb, hsome⟩ := List.mem_map.mp hmem
      have hb' := hpgid b (List.mem_reverse.mp hb)
      rwa [hasPgid, hsome, Option.any_some] at hb'
    have htable : jobsRemoveJob t pgid = (false, t) := by rw [jobsRemoveJob, hnone]
    rw [htable]
    exact ⟨l, as, removeJob_of_absent h hn hpgid, h, le_rfl⟩
  · obtain ⟨l', hl', htable, hrep, -⟩ := removeJob_of_found h hn ha hpost
    refine ⟨l', pre ++ post, by rw [hl', htable], hrep, ?_⟩
    exact ((List.sublist_cons_self a post).append_left pre).length_le

/-! ## Allocating a record -/

/-- A record at an address that was free. -/
def alloc (l : JobList) (a : Addr) (node : JobNode) : JobList :=
  { l with mem := Function.update l.mem a (some node) }

theorem Represents.alloc (h : l.Represents as t) (ha : a ∉ as) (node : JobNode) :
    (l.alloc a node).Represents as t := by
  have hne : ∀ b ∈ as, b ≠ a := fun b hb heq ↦ ha (heq ▸ hb)
  have hlinks : (l.alloc a node).links = _ := links_update l a node
  have hjobs : (l.alloc a node).job? = _ := job?_update l a node
  refine ⟨?_, ?_, h.jobsCount, h.runningJobsCount, h.length⟩
  · rw [hlinks]
    exact h.links.congr rfl rfl (fun b hb ↦ Function.update_of_ne (hne b hb) ..)
      fun b hb ↦ Function.update_of_ne (hne b hb) ..
  · rw [hjobs, ← h.jobs]
    exact List.map_congr_left fun b hb ↦ Function.update_of_ne (hne b (List.mem_reverse.mp hb)) ..

end JobList

/-! ## Runs -/

/-- The calls that change the list. The caller of `jobs_add_job` has allocated the record and filled
it in, the pointers with whatever. -/
inductive JobOp
  | addJob (job : Addr) (node : JobNode)
  | removeJob (pgid : ℕ)

namespace JobOp

def run (n : ℕ) (l : JobList) : JobOp → Option JobList
  | addJob job node => (l.alloc job node).addJob n job
  | removeJob pgid => (l.removeJob n pgid).map Prod.snd

def table (t : JobTable) : JobOp → JobTable
  | addJob _ node => jobsAddJob t node.job
  | removeJob pgid => (jobsRemoveJob t pgid).2

end JobOp

def runJobOps (n : ℕ) (l : JobList) (ops : List JobOp) : Option JobList :=
  ops.foldlM (JobOp.run n) l

namespace JobList

variable {l : JobList} {as : List Addr} {t : JobTable} {a : Addr} {n : ℕ}

/-- A job is listed if following `next` from `jobs` gets to it. -/
def Listed (l : JobList) (a : Addr) : Prop := ∃ as, Seg l.links.next l.jobs as (some a)

/-- Each job that is added is not listed then. -/
def AddsUnlisted (n : ℕ) (l : JobList) : List JobOp → Prop
  | [] => True
  | op :: ops =>
    (∀ job node, op = .addJob job node → ¬ l.Listed job) ∧
    ∀ l', op.run n l = some l' → AddsUnlisted n l' ops

/-- Both ways through the list, each in at most `n` steps. -/
structure Lists (n : ℕ) (l : JobList) (as : List Addr) : Prop where
  nodup : as.Nodup
  forward : walk l.links.next n l.jobs = some as
  backward : walk l.links.prev n l.jobsTail = some as.reverse
  jobsCount : l.jobsCount.toNat = as.length

theorem Represents.listed_iff (h : l.Represents as t) : l.Listed a ↔ a ∈ as :=
  ⟨fun ⟨_, hreach⟩ ↦ h.links.forward.mem_of_reach hreach, h.links.forward.reach_of_mem⟩

/-- There are fewer than `2 ^ 64` addresses. -/
theorem length_lt_of_nodup (h : as.Nodup) : as.length < 2 ^ 64 := by
  have hnodup : ((0 : Fin (2 ^ 64)) :: as.map fun a ↦ a.1.toFin).Nodup := by
    refine List.nodup_cons.mpr ⟨?_, ?_⟩
    · rw [List.mem_map]
      rintro ⟨a, -, ha⟩
      exact a.2 (UInt64.toFin_inj.mp ha)
    · exact h.map fun a b hab ↦ Subtype.ext (UInt64.toFin_inj.mp hab)
  simpa using hnodup.length_le_card

theorem Represents.lists (h : l.Represents as t) (hn : as.length ≤ n) : l.Lists n as where
  nodup := h.links.nodup
  forward := h.links.forward.walk_eq hn
  backward := h.links.backward.walk_eq (by rwa [List.length_reverse])
  jobsCount := by
    rw [h.length]
    exact UInt64.toNat_ofNat_of_lt (length_lt_of_nodup h.links.nodup)

/-! ### Every run -/

theorem run_represents {op : JobOp} (h : l.Represents as t) (hn : as.length < n)
    (hop : ∀ job node, op = .addJob job node → ¬ l.Listed job) :
    ∃ l' as', op.run n l = some l' ∧ l'.Represents as' (op.table t) ∧
      as'.length ≤ as.length + 1 := by
  cases op with
  | addJob job node =>
    have hjob : job ∉ as := fun hmem ↦ hop job node rfl (h.listed_iff.mpr hmem)
    obtain ⟨l', hl', hrep⟩ := addJob_represents (h.alloc hjob node) hjob hn.le
      (Function.update_self ..)
    exact ⟨l', as ++ [job], hl', hrep, by rw [List.length_append, List.length_singleton]⟩
  | removeJob pgid =>
    obtain ⟨l', as', hl', hrep, hle⟩ := removeJob_represents h hn.le pgid
    exact ⟨l', as', congrArg (Option.map Prod.snd) hl', hrep, hle.trans (Nat.le_succ _)⟩

theorem runJobOps_represents {ops : List JobOp} (h : l.Represents as t)
    (hn : as.length + ops.length < n) (hops : AddsUnlisted n l ops) :
    ∃ l' as', runJobOps n l ops = some l' ∧ l'.Represents as' (ops.foldl JobOp.table t) ∧
      as'.length < n := by
  induction ops generalizing l as t with
  | nil => exact ⟨l, as, rfl, h, hn⟩
  | cons op ops ih =>
    rw [List.length_cons] at hn
    have hn₀ : as.length < n := by omega
    obtain ⟨l₁, as₁, hl₁, hrep₁, hle⟩ := run_represents h hn₀ hops.1
    have hn₁ : as₁.length + ops.length < n := by omega
    obtain ⟨l', as', hl', hrep, hlt⟩ := ih hrep₁ hn₁ (hops.2 l₁ hl₁)
    refine ⟨l', as', ?_, hrep, hlt⟩
    rw [runJobOps, List.foldlM_cons, hl₁]
    exact hl'

theorem represents_empty : ({} : JobList).Represents [] {} :=
  ⟨Links.holds_nil rfl rfl, rfl, rfl, rfl, rfl⟩

/-- A job that is added comes last. -/
def AddsLast (n : ℕ) (l : JobList) (as : List Addr) : Prop :=
  ∀ a node, ¬ l.Listed a → ∃ l', (l.alloc a node).addJob n a = some l' ∧ l'.Lists n (as ++ [a]) ∧
    (∀ b ∈ as, l'.job? b = l.job? b) ∧ (l'.job? a).map Job.pgid = some node.job.pgid

/-- With no job to remove, nothing changes. With one, the last in the list goes, and the others stay
in their order. -/
def RemovesNewest (n : ℕ) (l : JobList) (as : List Addr) : Prop :=
  (∀ pgid, (∀ b ∈ as, ¬ l.hasPgid pgid b) → l.removeJob n pgid = some (false, l)) ∧
  ∀ pgid pre a post, as = pre ++ a :: post → l.hasPgid pgid a →
    (∀ b ∈ post, ¬ l.hasPgid pgid b) →
    ∃ l', l.removeJob n pgid = some (true, l') ∧ l'.Lists n (pre ++ post) ∧
      ∀ b ∈ pre ++ post, l'.job? b = l.job? b

theorem Represents.addsLast (h : l.Represents as t) (hn : as.length < n) : l.AddsLast n as := by
  intro a node ha
  have hmem : a ∉ as := fun hmem ↦ ha (h.listed_iff.mpr hmem)
  obtain ⟨l', hl', hrep⟩ := addJob_represents (h.alloc hmem node) hmem hn.le
    (Function.update_self ..)
  have hjobs := hrep.jobs
  rw [List.reverse_append, List.reverse_singleton, List.singleton_append, List.map_cons,
    jobsAddJob, List.map_cons] at hjobs
  obtain ⟨hself, hothers⟩ := List.cons_eq_cons.mp hjobs
  refine ⟨l', hl', hrep.lists ?_, fun b hb ↦ ?_, ?_⟩
  · rwa [List.length_append, List.length_singleton]
  · exact List.map_inj_left.mp (hothers.trans h.jobs.symm) b (List.mem_reverse.mpr hb)
  · rw [hself]
    rfl

theorem Represents.removesNewest (h : l.Represents as t) (hn : as.length < n) :
    l.RemovesNewest n as := by
  refine ⟨fun pgid hpgid ↦ removeJob_of_absent h hn.le hpgid, ?_⟩
  rintro pgid pre a post rfl ha hpost
  obtain ⟨l', hl', -, hrep, hjobs⟩ := removeJob_of_found h hn.le ha hpost
  have hothers : a ∉ pre ++ post := (List.nodup_middle.mp h.links.nodup).notMem
  have hle : (pre ++ post).length ≤ (pre ++ a :: post).length :=
    ((List.sublist_cons_self a post).append_left pre).length_le
  refine ⟨l', hl', hrep.lists (hle.trans hn.le), fun b hb ↦ ?_⟩
  have hne : b ≠ a := fun heq ↦ hothers (heq ▸ hb)
  rw [hjobs, Function.update_of_ne hne]

end JobList

open JobList

/-- After every sequence of calls the list is well formed, and each call that may come next does
what it should. -/
theorem runJobOps_lists {ops : List JobOp} {n : ℕ} (hn : ops.length < n)
    (hops : AddsUnlisted n {} ops) :
    ∃ l as, runJobOps n {} ops = some l ∧ l.Lists n as ∧ (∀ a, l.Listed a ↔ a ∈ as) ∧
      l.AddsLast n as ∧ l.RemovesNewest n as := by
  obtain ⟨l, as, hl, hrep, hlt⟩ := runJobOps_represents represents_empty (by simpa using hn) hops
  exact ⟨l, as, hl, hrep.lists hlt.le, fun a ↦ hrep.listed_iff, hrep.addsLast hlt,
    hrep.removesNewest hlt⟩

private def twoJobs : List JobOp :=
  [.addJob ⟨16, by decide⟩ { job := { addr := 0, pgid := 7 } },
    .addJob ⟨32, by decide⟩ { job := { addr := 1, pgid := 8 } },
    .removeJob 7]

private theorem twoJobs_addsUnlisted : AddsUnlisted 4 {} twoJobs := by
  have hlisted : ∀ a, ¬ ({} : JobList).Listed a := fun a ha ↦
    List.not_mem_nil (represents_empty.listed_iff.mp ha)
  refine ⟨fun job _ _ ↦ hlisted job, fun l₁ hl₁ ↦ ⟨?_, fun l₂ _ ↦ ⟨?_, fun _ _ ↦ trivial⟩⟩⟩
  · intro job node hop
    obtain ⟨l', hl', hrep⟩ := addJob_represents
      (represents_empty.alloc (a := ⟨16, by decide⟩) List.not_mem_nil
        { job := { addr := 0, pgid := 7 } })
      List.not_mem_nil (Nat.zero_le 4) (Function.update_self ..)
    obtain rfl : l' = l₁ := Option.some.inj (hl'.symm.trans hl₁)
    obtain ⟨rfl, -⟩ := JobOp.addJob.inj hop
    rw [hrep.listed_iff]
    decide
  · intro job node hop
    cases hop

theorem runJobOps_lists_two :
    ∃ l as, runJobOps 4 {} twoJobs = some l ∧ l.Lists 4 as ∧ (∀ a, l.Listed a ↔ a ∈ as) ∧
      l.AddsLast 4 as ∧ l.RemovesNewest 4 as :=
  runJobOps_lists (by decide) twoJobs_addsUnlisted

end Novash
