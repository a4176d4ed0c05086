import Novash.Executor.Refinement

/-!
# The pipes of a pipeline in its processes

When a process of a pipeline starts its program it should hold two ends of pipes at most: as
descriptor 0 the read end of the pipe before it, and as descriptor 1 the write end of the pipe after
it. `fork_process` moves the ends it is given to these places and closes the originals. But the pipe
after a process is created before the process is forked, and the process is given its write end
only; of the read end it knows nothing. So every process but the last keeps the read end of the very
pipe it writes to.

## The loop

What the loop over the processes needs to know of the descriptors is that those in the context are
open, apart from each other, and above the standard ones, which nothing in the loop touches. The
number `m` of the standard descriptors is a parameter.
-/

namespace Novash

open Foundations

/-! ## The descriptors in the context -/

/-- The first `m` descriptors of a table are open, and the context refers to others. -/
structure ExecutorCtx.Apart (ctx : ExecutorCtx) (m : ℕ) (fds : FdTable OpenFile) : Prop where
  standard : ∀ fd < m, fds.get fd ≠ none
  sfd : fds.get ctx.sfd ≠ none ∧ m ≤ ctx.sfd ∧ ctx.sfd ∉ ctx.spent
  spent : ∀ fd ∈ ctx.spent, fds.get fd ≠ none ∧ m ≤ fd
  first : ctx.pgid = 0 → ctx.inFd = none

/-- What is open stays open while other descriptors are allocated. -/
theorem get_alloc_ne_none {fds : FdTable OpenFile} (d : Descriptor OpenFile) {fd : ℕ}
    (h : fds.get fd ≠ none) : (fds.alloc d).2.get fd ≠ none := by
  rwa [FdTable.get_alloc_of_open d h]

theorem get_alloc_self_ne_none (fds : FdTable OpenFile) (d : Descriptor OpenFile) :
    (fds.alloc d).2.get (fds.alloc d).1 ≠ none := by
  rw [FdTable.get_alloc_self]
  exact Option.some_ne_none d

/-- `executor_init_context` sets the loop up. -/
theorem apart_executorInitContext {m : ℕ} {sh : Shell} (hsh : ∀ fd < m, sh.fds.get fd ≠ none) :
    (executorInitContext sh).1.Apart m (executorInitContext sh).2.fds ∧
      ∀ fd < m, (executorInitContext sh).2.fds.get fd = sh.fds.get fd := by
  let r := sh.fds.alloc ⟨.pipeRead sh.pipes, false⟩
  let w := r.2.alloc ⟨.pipeWrite sh.pipes, false⟩
  let g := w.2.alloc ⟨.signals, true⟩
  have hr : ∀ fd < m, r.2.get fd = sh.fds.get fd := fun fd hfd ↦
    FdTable.get_alloc_of_open _ (hsh fd hfd)
  have hw : ∀ fd < m, w.2.get fd = sh.fds.get fd := fun fd hfd ↦
    (FdTable.get_alloc_of_open _ (hr fd hfd ▸ hsh fd hfd)).trans (hr fd hfd)
  have hg : ∀ fd < m, g.2.get fd = sh.fds.get fd := fun fd hfd ↦
    (FdTable.get_alloc_of_open _ (hw fd hfd ▸ hsh fd hfd)).trans (hw fd hfd)
  have hropen : w.2.get r.1 ≠ none := get_alloc_ne_none _ (get_alloc_self_ne_none _ _)
  have hwopen : w.2.get w.1 ≠ none := get_alloc_self_ne_none _ _
  have hle : ∀ {fds : FdTable OpenFile}, (∀ fd < m, fds.get fd = sh.fds.get fd) →
      m ≤ fds.lowestFree := fun h ↦ FdTable.le_lowestFree fun fd hfd ↦ h fd hfd ▸ hsh fd hfd
  refine ⟨⟨fun fd hfd ↦ hg fd hfd ▸ hsh fd hfd, ⟨get_alloc_self_ne_none _ _, hle hw, ?_⟩, ?_,
    fun _ ↦ rfl⟩, hg⟩
  · intro hmem
    have hmem : g.1 ∈ [w.1, r.1] := hmem
    rcases List.mem_pair.mp hmem with h | h
    · exact FdTable.ne_alloc _ hwopen h.symm
    · exact FdTable.ne_alloc _ hropen h.symm
  · intro fd hmem
    have hmem : fd ∈ [w.1, r.1] := hmem
    rcases List.mem_pair.mp hmem with rfl | rfl
    · exact ⟨get_alloc_ne_none _ hwopen, hle hr⟩
    · exact ⟨get_alloc_ne_none _ hropen, hle fun _ _ ↦ rfl⟩

/-! ## One turn of the loop -/

/-- The table of the shell when it forks a process that has a next one: the pipe to the next process
is open, at descriptors that nothing else uses. -/
structure NewPipe (sh : Shell) (r w : ℕ) (fds : FdTable OpenFile) : Prop where
  read : fds.get r = some ⟨.pipeRead sh.pipes, false⟩
  write : fds.get w = some ⟨.pipeWrite sh.pipes, false⟩
  ne : r ≠ w
  read_new : sh.fds.get r = none
  write_new : sh.fds.get w = none
  others : ∀ fd, fd ≠ r → fd ≠ w → fds.get fd = sh.fds.get fd

theorem exists_nextPipe {rest : List Process} (hrest : rest ≠ []) (sh : Shell) :
    ∃ r w, (nextPipe rest sh).1 = some (r, w) ∧ (nextPipe rest sh).2.pipes = sh.pipes + 1 ∧
      NewPipe sh r w (nextPipe rest sh).2.fds := by
  let a := sh.fds.alloc ⟨.pipeRead sh.pipes, false⟩
  let b := a.2.alloc ⟨.pipeWrite sh.pipes, false⟩
  have hopen : a.2.get a.1 ≠ none := get_alloc_self_ne_none _ _
  have hne : a.1 ≠ b.1 := FdTable.ne_alloc _ hopen
  have hnew : sh.fds.get b.1 = none := by
    rw [← FdTable.get_alloc_of_ne _ _ hne.symm]
    exact a.2.get_lowestFree
  unfold nextPipe
  rw [if_neg hrest]
  refine ⟨a.1, b.1, rfl, rfl, ?_, FdTable.get_alloc_self _ _, hne, sh.fds.get_lowestFree, hnew, ?_⟩
  · exact (FdTable.get_alloc_of_ne _ _ hne).trans (FdTable.get_alloc_self _ _)
  · exact fun fd ha hb ↦ (FdTable.get_alloc_of_ne _ _ hb).trans (FdTable.get_alloc_of_ne _ _ ha)

/-- The new descriptors are neither standard nor in the context. -/
theorem NewPipe.apart {sh : Shell} {r w m : ℕ} {fds : FdTable OpenFile} {ctx : ExecutorCtx}
    (h : NewPipe sh r w fds) (hctx : ctx.Apart m sh.fds) {fd : ℕ} (hfd : fd = r ∨ fd = w) :
    m ≤ fd ∧ fd ≠ ctx.sfd ∧ fd ∉ ctx.spent := by
  have hnew : sh.fds.get fd = none := hfd.elim (· ▸ h.read_new) (· ▸ h.write_new)
  refine ⟨?_, ?_, fun hmem ↦ (hctx.spent fd hmem).1 hnew⟩
  · by_contra hlt
    exact hctx.standard fd (Nat.lt_of_not_le hlt) hnew
  · rintro rfl
    exact hctx.sfd.1 hnew

theorem NewPipe.get_of_open {sh : Shell} {r w : ℕ} {fds : FdTable OpenFile} (h : NewPipe sh r w fds)
    {fd : ℕ} (hfd : sh.fds.get fd ≠ none) : fds.get fd = sh.fds.get fd :=
  h.others fd (fun hr ↦ hfd (hr ▸ h.read_new)) fun hw ↦ hfd (hw ▸ h.write_new)

theorem get_nextPipe_of_open {sh : Shell} {fd : ℕ} (rest : List Process)
    (h : sh.fds.get fd ≠ none) : (nextPipe rest sh).2.fds.get fd = sh.fds.get fd := by
  by_cases hrest : rest = []
  · rw [nextPipe, if_pos hrest]
  · obtain ⟨r, w, -, -, hnew⟩ := exists_nextPipe hrest sh
    exact hnew.get_of_open h

section

variable {proc : Process} {rest : List Process} {job : Job} {ctx : ExecutorCtx} {sh sh' : Shell}
  {pid m : ℕ}

/-- The standard descriptors of the shell are not touched. -/
theorem ForkTurn.standard (h : ForkTurn proc rest job ctx sh pid sh') (hctx : ctx.Apart m sh.fds) :
    ∀ fd < m, sh'.fds.get fd = sh.fds.get fd := by
  intro fd hfd
  have hspent : fd ∉ ctx.spent := fun hmem ↦ absurd (hctx.spent fd hmem).2 (Nat.not_le.mpr hfd)
  have hopen := hctx.standard fd hfd
  rw [h.fds]
  by_cases hrest : rest = []
  · rw [hrest, FdTable.get_closeAll]
    · rfl
    · exact fun hmem ↦ hspent (by simpa [nextPipe, ExecutorCtx.withOut] using hmem)
  · obtain ⟨r, w, hpipe, -, hnew⟩ := exists_nextPipe hrest sh
    rw [FdTable.get_closeAll, hnew.get_of_open hopen]
    rw [hpipe]
    intro hmem
    rcases List.mem_append.mp hmem with hmem | hmem
    · exact hspent hmem
    · obtain rfl : fd = w := List.mem_singleton.mp hmem
      exact hopen hnew.write_new

/-- Behind the first turn the context has a group. -/
theorem ForkTurn.group_ne_zero (h : ForkTurn proc rest job ctx sh pid sh') : ctx.group pid ≠ 0 := by
  rw [ExecutorCtx.group]
  split
  · exact h.pidFree.pos.ne'
  · assumption

/-- The next turn needs only the read end of the pipe to it. -/
theorem ForkTurn.spent_next (h : ForkTurn proc rest job ctx sh pid sh') :
    ((ctx.withOut (nextPipe rest sh).1).next pid (nextPipe rest sh).1).spent
      = ((nextPipe rest sh).1.map Prod.fst).toList := by
  have hpgid : ((ctx.withOut (nextPipe rest sh).1).next pid (nextPipe rest sh).1).pgid ≠ 0 :=
    h.group_ne_zero
  rw [ExecutorCtx.spent, if_neg hpgid]
  rfl

/-- The context of the next process holds the read end of the new pipe. -/
theorem ForkTurn.apart (h : ForkTurn proc rest job ctx sh pid sh') (hctx : ctx.Apart m sh.fds)
    (hrest : rest ≠ []) :
    ((ctx.withOut (nextPipe rest sh).1).next pid (nextPipe rest sh).1).Apart m sh'.fds := by
  have hstandard := h.standard hctx
  obtain ⟨r, w, hpipe, -, hnew⟩ := exists_nextPipe hrest sh
  have hfds := h.fds
  rw [hpipe] at hfds ⊢
  have hspent : ((ctx.withOut (some (r, w))).next pid (some (r, w))).spent = [r] := by
    have hnext := h.spent_next
    rw [hpipe] at hnext
    exact hnext
  have hget : ∀ fd, fd ∉ ctx.spent → fd ≠ w →
      sh'.fds.get fd = (nextPipe rest sh).2.fds.get fd := by
    intro fd hfd hw
    rw [hfds, FdTable.get_closeAll]
    exact fun hmem ↦ (List.mem_append.mp hmem).elim hfd fun h ↦ hw (List.mem_singleton.mp h)
  obtain ⟨hrm, hrsfd, hrspent⟩ := hnew.apart hctx (Or.inl rfl)
  obtain ⟨hsfd, hsfdm, hsfdspent⟩ := hctx.sfd
  refine ⟨fun fd hfd ↦ hstandard fd hfd ▸ hctx.standard fd hfd, ⟨?_, hsfdm, ?_⟩, ?_, ?_⟩
  · have hsame := (hget _ hsfdspent fun hw ↦ hsfd (hw ▸ hnew.write_new)).trans
      (hnew.get_of_open hsfd)
    exact fun hnone ↦ hsfd (hsame.symm.trans hnone)
  · rw [hspent]
    exact fun hmem ↦ hrsfd (List.mem_singleton.mp hmem).symm
  · rw [hspent]
    intro fd hmem
    obtain rfl := List.mem_singleton.mp hmem
    refine ⟨?_, hrm⟩
    rw [hget fd hrspent hnew.ne, hnew.read]
    exact Option.some_ne_none _
  · exact fun hpgid ↦ absurd hpgid h.group_ne_zero

end

/-! ## The child -/

theorem exists_moveFd (fd : Option ℕ) (target : ℕ) (fds : FdTable OpenFile)
    (h : ∀ x, fd = some x → fds.get x ≠ none) :
    ∃ fds', moveFd fd target fds = .ok fds' ∧
      ∀ x, fd ≠ some x → x ≠ target → fds'.get x = fds.get x := by
  cases fd with
  | none => exact ⟨fds, rfl, fun _ _ _ ↦ rfl⟩
  | some fd =>
    obtain ⟨fds', hdup⟩ := FdTable.exists_dup2 target (h fd rfl)
    refine ⟨fds'.close fd, ?_, fun x hx htarget ↦ ?_⟩
    · rw [moveFd, hdup]
    · have hne : x ≠ fd := fun hsame ↦ hx (hsame ▸ rfl)
      rw [FdTable.get_close_of_ne _ hne, FdTable.get_dup2_of_ne hdup htarget]

theorem get_closeInherited (ctx : ExecutorCtx) {fds : FdTable OpenFile} {fd : ℕ}
    (hsfd : fd ≠ ctx.sfd) (hsync : ctx.pgid = 0 → fd ∉ ctx.spent) :
    (closeInherited ctx fds).get fd = fds.get fd := by
  unfold closeInherited
  dsimp only
  split
  · next hpgid =>
    have hspent := hsync hpgid
    rw [ExecutorCtx.spent, if_pos hpgid] at hspent
    simp only [List.mem_append, List.mem_cons, not_or] at hspent
    rw [FdTable.get_close_of_ne _ hspent.1.1, FdTable.get_close_of_ne _ hspent.1.2.1,
      FdTable.get_close_of_ne _ hsfd]
  · exact FdTable.get_close_of_ne _ hsfd

theorem childSetup_withOut (nofile : ℕ) (ctx : ExecutorCtx) (pipe : Option (ℕ × ℕ))
    (opens : List (Option File)) (fds : FdTable OpenFile) :
    (childSetup nofile (ctx.withOut pipe) [] opens fds).1
      = (moveFd ctx.inFd 0 (closeInherited (ctx.withOut pipe) fds) >>=
        moveFd (pipe.map Prod.snd) 1) :=
  rfl

theorem ExecutorCtx.mem_spent_of_inFd {ctx : ExecutorCtx} {fd : ℕ} (h : ctx.inFd = some fd) :
    fd ∈ ctx.spent :=
  List.mem_append_right _ (Option.mem_toList.mpr h)

section

variable {ctx : ExecutorCtx} {sh : Shell} {r w m fd : ℕ} {fds : FdTable OpenFile}

namespace ExecutorCtx.Apart

theorem notMem_spent (h : ctx.Apart m sh.fds) (hfd : fd < m) : fd ∉ ctx.spent :=
  fun hmem ↦ absurd (h.spent fd hmem).2 (Nat.not_le.mpr hfd)

/-- The pipe of the handshake is closed in the first child only, which has no input. -/
theorem get_inherited_input (h : ctx.Apart m sh.fds) (hfd : ctx.inFd = some fd)
    (pipe : Option (ℕ × ℕ)) (fds : FdTable OpenFile) :
    (closeInherited (ctx.withOut pipe) fds).get fd = fds.get fd := by
  refine get_closeInherited (ctx.withOut pipe) ?_ ?_
  · rintro rfl
    exact h.sfd.2.2 (mem_spent_of_inFd hfd)
  · intro hpgid
    cases (h.first hpgid).symm.trans hfd

theorem get_inherited_standard (h : ctx.Apart m sh.fds) (hfd : fd < m) (pipe : Option (ℕ × ℕ))
    (fds : FdTable OpenFile) : (closeInherited (ctx.withOut pipe) fds).get fd = fds.get fd := by
  refine get_closeInherited (ctx.withOut pipe) ?_ fun _ ↦ h.notMem_spent hfd
  rintro rfl
  exact absurd h.sfd.2.1 (Nat.not_le.mpr hfd)

/-- The child moves its input to 0, if what was open in the shell is still open. -/
theorem exists_moveInput (h : ctx.Apart m sh.fds) (pipe : Option (ℕ × ℕ))
    (hopen : ∀ fd, sh.fds.get fd ≠ none → fds.get fd = sh.fds.get fd) :
    ∃ fds₁, moveFd ctx.inFd 0 (closeInherited (ctx.withOut pipe) fds) = .ok fds₁ ∧
      ∀ fd ∉ ctx.spent, fd ≠ 0 →
        fds₁.get fd = (closeInherited (ctx.withOut pipe) fds).get fd := by
  obtain ⟨fds₁, hmove, hget⟩ :=
    exists_moveFd ctx.inFd 0 (closeInherited (ctx.withOut pipe) fds) fun fd hfd ↦ by
      have hspent := (h.spent fd (mem_spent_of_inFd hfd)).1
      rw [h.get_inherited_input hfd, hopen fd hspent]
      exact hspent
  exact ⟨fds₁, hmove, fun fd hspent ↦ hget fd fun hin ↦ hspent (mem_spent_of_inFd hin)⟩

end ExecutorCtx.Apart

theorem NewPipe.get_inherited (h : NewPipe sh r w fds) (hctx : ctx.Apart m sh.fds)
    (hfd : fd = r ∨ fd = w) (pipe : Option (ℕ × ℕ)) :
    (closeInherited (ctx.withOut pipe) fds).get fd = fds.get fd := by
  obtain ⟨-, hsfd, hspent⟩ := h.apart hctx hfd
  exact get_closeInherited (ctx.withOut pipe) hsfd fun _ ↦ hspent

/-- A child that has a next one keeps the read end of the pipe to it. -/
theorem childSetup_keeps (hctx : ctx.Apart m sh.fds) (hm : 2 ≤ m) (hnew : NewPipe sh r w fds)
    (opens : List (Option File)) :
    ∃ fds', (childSetup sh.nofile (ctx.withOut (some (r, w))) [] opens fds).1 = .ok fds' ∧
      fds'.get r = some ⟨.pipeRead sh.pipes, false⟩ := by
  obtain ⟨fds₁, hmove₁, hget₁⟩ := hctx.exists_moveInput (some (r, w)) fun fd ↦ hnew.get_of_open
  -- moving the input to 0 leaves both ends of the new pipe where they are
  have hkept : ∀ fd, fd = r ∨ fd = w → fds₁.get fd = fds.get fd := by
    intro fd hfd
    obtain ⟨hfdm, -, hspent⟩ := hnew.apart hctx hfd
    rw [hget₁ fd hspent (by omega), hnew.get_inherited hctx hfd]
  obtain ⟨fds₂, hmove₂, hget₂⟩ := exists_moveFd (some w) 1 fds₁ fun fd hfd ↦ by
    obtain rfl := Option.some.inj hfd
    rw [hkept _ (Or.inr rfl), hnew.write]
    exact Option.some_ne_none _
  have hrm := (hnew.apart hctx (Or.inl rfl)).1
  refine ⟨fds₂, ?_, ?_⟩
  · rw [childSetup_withOut, hmove₁]
    exact hmove₂
  · rw [hget₂ r (fun h ↦ hnew.ne (Option.some.inj h).symm) (by omega), hkept r (Or.inl rfl),
      hnew.read]

end

/-! ## The loop -/

/-- The loop leaves the standard descriptors of the shell alone. -/
theorem standard_of_forkLoop {m : ℕ} (rest : List Process) :
    ∀ {job job' : Job} {ctx : ExecutorCtx} {sh sh' : Shell},
      (rest ≠ [] → ctx.Apart m sh.fds) → forkLoop rest job ctx sh = .ok (job', sh') →
      ∀ fd < m, sh'.fds.get fd = sh.fds.get fd := by
  induction rest with
  | nil =>
    intro job job' ctx sh sh' _ h
    cases h
    exact fun _ _ ↦ rfl
  | cons proc rest ih =>
    intro job job' ctx sh sh' hctx h fd hfd
    obtain ⟨pid, sh₁, hturn, hrest⟩ := forkLoop_cons h
    have hctx := hctx (List.cons_ne_nil _ _)
    exact (ih (hturn.apart hctx) hrest fd hfd).trans (hturn.standard hctx fd hfd)

/-- In the loop, every child but the last keeps a descriptor that it was not given. The pipe after
child `i` is the `i`-th that the loop makes. -/
theorem spawned_of_forkLoop {m : ℕ} (hm : 2 ≤ m) (rest : List Process) :
    ∀ {job job' : Job} {ctx : ExecutorCtx} {sh sh' : Shell},
      (rest ≠ [] → ctx.Apart m sh.fds) → (∀ proc ∈ rest, proc.redir = []) →
      forkLoop rest job ctx sh = .ok (job', sh') →
      ∃ kids, sh'.spawned = sh.spawned ++ kids ∧ kids.length = rest.length ∧
        ∀ i, i + 1 < rest.length → ∃ kid fds fd, kids[i]? = some kid ∧ kid.start = .ok fds ∧
          m ≤ fd ∧ fds.get fd = some ⟨.pipeRead (sh.pipes + i), false⟩ := by
  induction rest with
  | nil =>
    intro job job' ctx sh sh' _ _ h
    cases h
    exact ⟨[], (List.append_nil _).symm, rfl, fun _ h ↦ nomatch h⟩
  | cons proc rest ih =>
    intro job job' ctx sh sh' hctx hredir h
    obtain ⟨pid, sh₁, hturn, hrest⟩ := forkLoop_cons h
    have hctx := hctx (List.cons_ne_nil _ _)
    obtain ⟨kids, hspawned, hlen, hkids⟩ :=
      ih (hturn.apart hctx) (fun p hp ↦ hredir p (List.mem_cons_of_mem _ hp)) hrest
    obtain ⟨first, hfirst, hstart⟩ : ∃ kid, sh₁.spawned = sh.spawned ++ [kid] ∧
        kid.start = (childSetup sh.nofile (ctx.withOut (nextPipe rest sh).1) proc.redir
          sh.script.opens (nextPipe rest sh).2.fds).1 := ⟨_, hturn.spawned, rfl⟩
    refine ⟨first :: kids, ?_, congrArg Nat.succ hlen, fun i hi ↦ ?_⟩
    · rw [hspawned, hfirst, List.append_assoc, List.singleton_append]
    have hne : rest ≠ [] := by
      rintro rfl
      exact absurd hi (by simp)
    obtain ⟨r, w, hpipe, hpipes, hnew⟩ := exists_nextPipe hne sh
    -- the child of this turn has the read end of its own pipe, the later ones are by induction
    cases i with
    | zero =>
      obtain ⟨fds, hsetup, hread⟩ := childSetup_keeps hctx hm hnew sh.script.opens
      refine ⟨first, fds, r, rfl, ?_, (hnew.apart hctx (Or.inl rfl)).1, hread⟩
      rw [hstart, hpipe, hredir proc List.mem_cons_self]
      exact hsetup
    | succ i =>
      obtain ⟨kid, fds, fd, hkid, hstart, hfd, hread⟩ := hkids i (Nat.lt_of_succ_lt_succ hi)
      refine ⟨kid, fds, fd, hkid, hstart, hfd, hread.trans ?_⟩
      rw [hturn.pipes, hpipes, Nat.add_right_comm, Nat.add_assoc]

/-! ## The pipeline -/

/-- Whenever a child starts its program, a descriptor that refers to a pipe of the pipeline is its
standard input, for the pipe before it, or its standard output, for the pipe after it. The pipes are
numbered from `base`. -/
def OwnEndsOnly (base : ℕ) (kids : List Spawned) : Prop :=
  ∀ i kid fds, kids[i]? = some kid → kid.start = .ok fds → ∀ fd d, fds.exec.get fd = some d →
    ∀ k, k + 1 < kids.length →
      (d.file = .pipeRead (base + k) → fd = 0 ∧ i = k + 1) ∧
      (d.file = .pipeWrite (base + k) → fd = 1 ∧ i = k)

/-- In no pipeline is it so, however many processes it has and whatever else the shell has open. The
first pipe that the shell makes for a job is that of the handshake. -/
theorem not_ownEndsOnly {job job' : Job} {sh sh' : Shell} (hlen : 2 ≤ job.processes.length)
    (hredir : ∀ proc ∈ job.processes, proc.redir = []) (hopen : ∀ fd < 3, sh.fds.get fd ≠ none)
    (hfork : forkJob job (executorInitContext sh).1 (executorInitContext sh).2 = .ok (job', sh')) :
    ∃ kids, sh'.spawned = sh.spawned ++ kids ∧ kids.length = job.processes.length ∧
      ¬OwnEndsOnly (sh.pipes + 1) kids := by
  obtain ⟨⟨job₁, sh₁⟩, hloop, h⟩ := bind_ok.mp hfork
  obtain ⟨-, rfl⟩ := Prod.mk.inj (Except.ok.inj h)
  obtain ⟨kids, hspawned, hkids, hleak⟩ := spawned_of_forkLoop (by decide) job.processes
    (fun _ ↦ (apart_executorInitContext hopen).1) hredir hloop
  refine ⟨kids, hspawned, hkids, fun hown ↦ ?_⟩
  obtain ⟨kid, fds, fd, hkid, hstart, hfd, hread⟩ := hleak 0 hlen
  have hexec : fds.exec.get fd = some ⟨.pipeRead (sh.pipes + 1 + 0), false⟩ := by
    rw [FdTable.get_exec, hread]
    rfl
  have hzero := (hown 0 kid fds hkid hstart fd _ hexec 0 (hkids ▸ hlen)).1 rfl
  omega

/-- `a | b`, from a terminal. -/
theorem not_ownEndsOnly_two :
    ∃ job' sh', forkJob (compilePipelineJob { addr := 0 } [.word ['a'] false, .word ['b'] false])
        (executorInitContext (.onTerminal { pids := [10, 11] })).1
        (executorInitContext (.onTerminal { pids := [10, 11] })).2 = .ok (job', sh') ∧
      ∃ kids, sh'.spawned = kids ∧ kids.length = 2 ∧ ¬OwnEndsOnly 1 kids := by
  have heval : (forkJob (compilePipelineJob { addr := 0 } [.word ['a'] false, .word ['b'] false])
      (executorInitContext (.onTerminal { pids := [10, 11] })).1
      (executorInitContext (.onTerminal { pids := [10, 11] })).2).toOption.map
        (fun r ↦ r.1.pgid) = some 10 := by decide +kernel
  obtain ⟨⟨job', sh'⟩, hfork, -⟩ := exists_of_map_eq heval
  exact ⟨job', sh', hfork, not_ownEndsOnly (by decide) (by decide) (by decide) hfork⟩

/-- There the first process, which writes to the pipe, holds its read end as descriptor 6. -/
theorem not_forall_ownEndsOnly :
    ¬ ∀ (job job' : Job) (sh sh' : Shell), 2 ≤ job.processes.length →
      (∀ proc ∈ job.processes, proc.redir = []) → (∀ fd < 3, sh.fds.get fd ≠ none) →
      forkJob job (executorInitContext sh).1 (executorInitContext sh).2 = .ok (job', sh') →
      ∀ kids, sh'.spawned = sh.spawned ++ kids → OwnEndsOnly (sh.pipes + 1) kids := by
  intro hclaim
  have heval : (forkJob (compilePipelineJob { addr := 0 } [.word ['a'] false, .word ['b'] false])
      (executorInitContext (.onTerminal { pids := [10, 11] })).1
      (executorInitContext (.onTerminal { pids := [10, 11] })).2).toOption.map
        (fun r ↦ r.2.spawned.map fun kid ↦ kid.start.toOption.map fun fds ↦ fds.exec.get 6)
      = some [some (some ⟨.pipeRead 1, false⟩), some none] := by decide +kernel
  obtain ⟨⟨job', sh'⟩, hfork, hsh'⟩ := exists_of_map_eq heval
  have hown := hclaim _ job' _ sh' (by decide) (by decide) (by decide) hfork sh'.spawned rfl
  obtain ⟨kid, kids, hspawned, hkid, hkids⟩ := List.map_eq_cons_iff.mp hsh'
  obtain ⟨fds, hstart, hget⟩ := exists_of_map_eq hkid
  have hlen : 0 + 1 < sh'.spawned.length := by
    rw [hspawned, List.length_cons, ← List.length_map, hkids]
    decide
  have hfirst := (hown 0 kid fds (by rw [hspawned]; rfl) hstart 6 _ hget 0 hlen).1 rfl
  exact absurd hfirst.1 (by decide)

end Novash
