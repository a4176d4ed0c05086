import Novash.Executor.Refinement

/-!
# The handshake over the process group

`run_job` and the children that it forks, each at its own speed. `forkLoop` takes it for granted
that the first child leads a group of its own when the shell asks for it, and that the others are in
this group in the end. Here is why: the shell waits at `sync_pipe`, and a child that has not called
`setpgid` yet keeps the pipe open.

A child takes its steps where the source calls the system. What is left out is what has no say in
the groups: the other descriptors, the signal mask, and what the program does that the child
executes. `setpgid` of a child on itself succeeds, and `fork_process` has no exit before it
(`sigprocmask` does not fail with a mask that it returned itself). After it a child may end at every
point, and stays a zombie in its group, since the shell reaps nothing in its loop.
-/

namespace Novash.Handshake

open Foundations Relation

/-! ## The children -/

/-- The ends of `sync_pipe` that a process has open. -/
structure SyncEnds where
  read : Bool := true
  write : Bool := true

/-- How far a child is in `fork_process`. -/
inductive ChildPc
  | started
  /-- The first child, from here to its last `close`. -/
  | closedRead
  | grouped
  | written
  /-- After the branch on `ctx->pgid`. -/
  | ready
  | executing
  | exited (didExec : Bool)
  deriving DecidableEq

/-- The child has called `setpgid`. -/
def ChildPc.Grouped : ChildPc → Prop
  | started => False
  | closedRead => False
  | _ => True

def ChildPc.didExec : ChildPc → Bool
  | executing => true
  | exited didExec => didExec
  | _ => false

/-- A child, with the copy of `ctx->pgid` that it was forked with. -/
structure ForkedChild where
  pid : ℕ
  pgid : ℕ
  ctxPgid : ℕ
  ends : SyncEnds := {}
  pc : ChildPc := .started

/-- The group that the child moves to. -/
def ForkedChild.group (c : ForkedChild) : ℕ := if c.ctxPgid = 0 then c.pid else c.ctxPgid

/-- `fork_process` in the child, and the number of bytes that the step writes to `sync_pipe`. -/
inductive ChildStep (c : ForkedChild) : ForkedChild → ℕ → Prop
  | closeRead (hpc : c.pc = .started) (hfirst : c.ctxPgid = 0) :
      ChildStep c { c with ends := { c.ends with read := false }, pc := .closedRead } 0
  | setpgidOwn (hpc : c.pc = .closedRead) :
      ChildStep c { c with pgid := c.pid, pc := .grouped } 0
  | write (hpc : c.pc = .grouped) : ChildStep c { c with pc := .written } 1
  /-- The result of `write` is not looked at. -/
  | writeFails (hpc : c.pc = .grouped) : ChildStep c { c with pc := .written } 0
  | closeWrite (hpc : c.pc = .written) :
      ChildStep c { c with ends := { c.ends with write := false }, pc := .ready } 0
  | setpgidJob (hpc : c.pc = .started) (hother : c.ctxPgid ≠ 0) :
      ChildStep c { c with pgid := c.ctxPgid, pc := .ready } 0
  | exec (hpc : c.pc = .ready) : ChildStep c { c with pc := .executing } 0
  | exit (hpc : c.pc.Grouped) (hrunning : ∀ didExec, c.pc ≠ .exited didExec) :
      ChildStep c { c with ends := ⟨false, false⟩, pc := .exited c.pc.didExec } 0

/-! ## The shell -/

/-- How far the shell is in the loop of `run_job`: before the fork, or with the child just forked
up to the call that is named. -/
inductive ShellPc
  | loop
  | forked (pid : ℕ)
  | closedWrite (pid : ℕ)
  | read (pid : ℕ)
  | closedRead (pid : ℕ)
  | left
  deriving DecidableEq

structure ForkingShell where
  pid : ℕ
  /-- The group that the shell is in. -/
  pgid : ℕ
  /-- The number of processes of the job that are still to be forked. -/
  unforked : ℕ
  ctxPgid : ℕ := 0
  jobPgid : ℕ := 0
  ends : SyncEnds := {}
  pc : ShellPc := .loop

structure State where
  shell : ForkingShell
  /-- In the order in which they were forked. -/
  children : List ForkedChild := []
  /-- The bytes in `sync_pipe`. -/
  bytes : ℕ := 0

namespace State

/-- Neither a process nor a group has this number. -/
def PidFree (s : State) (pid : ℕ) : Prop :=
  0 < pid ∧ pid ≠ s.shell.pid ∧ pid ≠ s.shell.pgid ∧
    ∀ c ∈ s.children, pid ≠ c.pid ∧ pid ≠ c.pgid

/-- No process has the write end open. -/
def NoWriter (s : State) : Prop :=
  s.shell.ends.write = false ∧ ∀ c ∈ s.children, c.ends.write = false

/-- `getpgid` of a child, which the shell has not reaped. -/
def getpgid (s : State) (pid : ℕ) : Option ℕ :=
  (s.children.find? fun c ↦ c.pid = pid).map ForkedChild.pgid

def GroupExists (s : State) (pgid : ℕ) : Prop :=
  s.shell.pgid = pgid ∨ ∃ c ∈ s.children, c.pgid = pgid

/-- `setpgid` in the shell fails for a child that has called `exec`, and if there is no such
group. -/
inductive Setpgid (s : State) (pid pgid : ℕ) : List ForkedChild → Prop
  | moved (hgroup : s.GroupExists pgid) :
      Setpgid s pid pgid (s.children.map fun c ↦
        if c.pid = pid ∧ c.pc.didExec = false then { c with pgid } else c)
  | failed (hgroup : ¬ s.GroupExists pgid) : Setpgid s pid pgid s.children

end State

/-- A step of the shell or of a child. -/
inductive Step (s : State) : State → Prop
  | fork {pid unforked : ℕ} (hpc : s.shell.pc = .loop) (hleft : s.shell.unforked = unforked + 1)
      (hpid : s.PidFree pid) :
      Step s { s with
        shell := { s.shell with unforked, pc := .forked pid }
        children := s.children ++ [⟨pid, s.shell.pgid, s.shell.ctxPgid, s.shell.ends, .started⟩] }
  | leave (hpc : s.shell.pc = .loop) (hleft : s.shell.unforked = 0) :
      Step s { s with shell := { s.shell with pc := .left } }
  | closeWrite {pid : ℕ} (hpc : s.shell.pc = .forked pid) (hfirst : s.shell.ctxPgid = 0) :
      Step s { s with
        shell := { s.shell with
          ends := { s.shell.ends with write := false }
          pc := .closedWrite pid } }
  | readByte {pid bytes : ℕ} (hpc : s.shell.pc = .closedWrite pid) (hbytes : s.bytes = bytes + 1) :
      Step s { s with shell := { s.shell with pc := .read pid }, bytes }
  | readEof {pid : ℕ} (hpc : s.shell.pc = .closedWrite pid) (hbytes : s.bytes = 0)
      (heof : s.NoWriter) :
      Step s { s with shell := { s.shell with pc := .read pid } }
  | closeRead {pid : ℕ} (hpc : s.shell.pc = .read pid) :
      Step s { s with
        shell := { s.shell with
          ends := { s.shell.ends with read := false }
          pc := .closedRead pid } }
  | getpgid {pid pgid : ℕ} (hpc : s.shell.pc = .closedRead pid)
      (hpgid : s.getpgid pid = some pgid) :
      Step s { s with shell := { s.shell with ctxPgid := pgid, jobPgid := pgid, pc := .loop } }
  | setpgid {pid : ℕ} {children : List ForkedChild} (hpc : s.shell.pc = .forked pid)
      (hother : s.shell.ctxPgid ≠ 0) (hset : s.Setpgid pid s.shell.jobPgid children) :
      Step s { s with shell := { s.shell with pc := .loop }, children }
  | child {i : ℕ} {c c' : ForkedChild} {bytes : ℕ} (hi : s.children[i]? = some c)
      (hstep : ChildStep c c' bytes) :
      Step s { s with children := s.children.set i c', bytes := s.bytes + bytes }

/-- The shell when it gets to its loop, with `n` processes in the job. -/
def start (n pid pgid : ℕ) : State := { shell := { pid, pgid, unforked := n } }

/-! ## What a step of a child can change -/

/-- What holds of a child by itself. -/
structure ForkedChild.Ok (c : ForkedChild) : Prop where
  first : c.pc = .closedRead → c.ctxPgid = 0
  grouped : c.pc.Grouped → c.pgid = c.group
  exited : ∀ didExec, c.pc = .exited didExec → c.ends.write = false

namespace ChildStep

variable {c c' : ForkedChild} {bytes : ℕ}

theorem pid_eq (h : ChildStep c c' bytes) : c'.pid = c.pid := by cases h <;> rfl

theorem ctxPgid_eq (h : ChildStep c c' bytes) : c'.ctxPgid = c.ctxPgid := by cases h <;> rfl

theorem group_eq (h : ChildStep c c' bytes) : c'.group = c.group := by
  rw [ForkedChild.group, ForkedChild.group, h.pid_eq, h.ctxPgid_eq]

/-- A child moves to its group or not at all. -/
theorem pgid_eq (h : ChildStep c c' bytes) (hc : c.Ok) : c'.pgid = c.pgid ∨ c'.pgid = c.group := by
  cases h with
  | setpgidOwn hpc => exact .inr (if_pos (hc.first hpc)).symm
  | setpgidJob hpc hother => exact .inr (if_neg hother).symm
  | _ => exact .inl rfl

theorem grouped (h : ChildStep c c' bytes) (hc : c.pc.Grouped) : c'.pc.Grouped := by
  cases h with
  | closeRead hpc => exact (hpc ▸ hc : ChildPc.Grouped .started).elim
  | _ => trivial

/-- A step after `setpgid` leaves the group alone. -/
theorem pgid_of_grouped (h : ChildStep c c' bytes) (hc : c.pc.Grouped) : c'.pgid = c.pgid := by
  cases h with
  | setpgidOwn hpc => exact (hpc ▸ hc : ChildPc.Grouped .closedRead).elim
  | setpgidJob hpc => exact (hpc ▸ hc : ChildPc.Grouped .started).elim
  | _ => rfl

theorem ok (h : ChildStep c c' bytes) (hc : c.Ok) : c'.Ok where
  first := by
    rw [h.ctxPgid_eq]
    cases h with
    | closeRead hpc hfirst => exact fun _ ↦ hfirst
    | _ =>
      intro hpc
      cases hpc
  grouped hgrouped := by
    by_cases hbefore : c.pc.Grouped
    · rw [h.pgid_of_grouped hbefore, h.group_eq, hc.grouped hbefore]
    · rw [h.group_eq]
      cases h with
      | closeRead => exact absurd hgrouped id
      | setpgidOwn hpc => exact (if_pos (hc.first hpc)).symm
      | setpgidJob hpc hother => exact (if_neg hother).symm
      | write hpc => exact absurd (hpc ▸ trivial) hbefore
      | writeFails hpc => exact absurd (hpc ▸ trivial) hbefore
      | closeWrite hpc => exact absurd (hpc ▸ trivial) hbefore
      | exec hpc => exact absurd (hpc ▸ trivial) hbefore
      | exit hpc => exact absurd hpc hbefore
  exited didExec hpc := by
    cases h with
    | exit => rfl
    | _ => cases hpc

/-- Only a child that has called `setpgid` writes. -/
theorem grouped_of_bytes (h : ChildStep c c' bytes) (hbytes : 0 < bytes) : c'.pc.Grouped := by
  cases h with
  | write => trivial
  | _ => exact absurd hbytes (lt_irrefl 0)

/-- Up to `setpgid` the pipe stays open. -/
theorem holds (h : ChildStep c c' bytes) (hc : ¬ c.pc.Grouped → c.ends.write = true)
    (hgrouped : ¬ c'.pc.Grouped) : c'.ends.write = true := by
  have hbefore : ¬ c.pc.Grouped := fun hc ↦ hgrouped (h.grouped hc)
  cases h with
  | closeRead => exact hc hbefore
  | _ => exact absurd trivial hgrouped

end ChildStep

/-! ## The phases of a run -/

/-- The shell has not forked. -/
structure NotForked (s : State) : Prop where
  children : s.children = []
  ctxPgid : s.shell.ctxPgid = 0
  write : s.shell.ends.write = true
  bytes : s.bytes = 0
  pc : s.shell.pc = .loop ∨ s.shell.pc = .left

/-- The shell has forked `c` and does not know its group yet. -/
structure Waiting (s : State) (c : ForkedChild) : Prop where
  children : s.children = [c]
  ctxPgid : s.shell.ctxPgid = 0
  first : c.ctxPgid = 0
  own : 0 < c.pid ∧ c.pid ≠ s.shell.pgid
  ok : c.Ok
  holds : ¬ c.pc.Grouped → c.ends.write = true
  bytes : 0 < s.bytes → c.pc.Grouped
  pc : s.shell.pc = .forked c.pid ∨ s.shell.pc = .closedWrite c.pid ∨
    (s.shell.pc = .read c.pid ∨ s.shell.pc = .closedRead c.pid) ∧ c.pc.Grouped
  closed : s.shell.pc = .closedWrite c.pid → s.shell.ends.write = false

/-- The shell knows that `c` leads the group of the job, and `cs` are the other children. Whoever
is not in the group is the one just forked. -/
structure Joined (s : State) (c : ForkedChild) (cs : List ForkedChild) : Prop where
  children : s.children = c :: cs
  ctxPgid : s.shell.ctxPgid = c.pid
  jobPgid : s.shell.jobPgid = c.pid
  first : c.ctxPgid = 0
  own : 0 < c.pid ∧ c.pid ≠ s.shell.pgid
  ok : c.Ok
  pgid : c.pgid = c.pid
  others : ∀ d ∈ cs, d.Ok ∧ d.ctxPgid = c.pid ∧ (d.pgid = c.pid ∨ s.shell.pc = .forked d.pid)
  pc : s.shell.pc = .loop ∨ s.shell.pc = .left ∨ ∃ pid, s.shell.pc = .forked pid

inductive Phase (s : State) : Prop
  | notForked (h : NotForked s)
  | waiting {c : ForkedChild} (h : Waiting s c)
  | joined {c : ForkedChild} {cs : List ForkedChild} (h : Joined s c cs)

variable {s s' : State}

theorem ForkedChild.group_of_first {c : ForkedChild} (h : c.ctxPgid = 0) : c.group = c.pid :=
  if_pos h

/-! ### Steps of a child -/

theorem Waiting.child {c c' : ForkedChild} {bytes : ℕ} (h : Waiting s c)
    (hstep : ChildStep c c' bytes) :
    Waiting { s with children := [c'], bytes := s.bytes + bytes } c' where
  children := rfl
  ctxPgid := h.ctxPgid
  first := hstep.ctxPgid_eq.trans h.first
  own := hstep.pid_eq ▸ h.own
  ok := hstep.ok h.ok
  holds := hstep.holds h.holds
  bytes hbytes := by
    rcases Nat.eq_zero_or_pos bytes with rfl | hpos
    · exact hstep.grouped (h.bytes hbytes)
    · exact hstep.grouped_of_bytes hpos
  pc := by
    rw [hstep.pid_eq]
    exact h.pc.imp_right (Or.imp_right (And.imp_right hstep.grouped))
  closed := hstep.pid_eq ▸ h.closed

theorem Joined.firstChild {c c' : ForkedChild} {cs : List ForkedChild} {bytes : ℕ}
    (h : Joined s c cs) (hstep : ChildStep c c' bytes) :
    Joined { s with children := c' :: cs, bytes := s.bytes + bytes } c' cs where
  children := rfl
  ctxPgid := h.ctxPgid.trans hstep.pid_eq.symm
  jobPgid := h.jobPgid.trans hstep.pid_eq.symm
  first := hstep.ctxPgid_eq.trans h.first
  own := hstep.pid_eq ▸ h.own
  ok := hstep.ok h.ok
  pgid := by
    rw [hstep.pid_eq]
    rcases hstep.pgid_eq h.ok with hpgid | hpgid
    · rw [hpgid, h.pgid]
    · rw [hpgid, ForkedChild.group_of_first h.first]
  others := hstep.pid_eq ▸ h.others
  pc := h.pc

theorem Joined.otherChild {c d d' : ForkedChild} {cs : List ForkedChild} {i bytes : ℕ}
    (h : Joined s c cs) (hd : cs[i]? = some d) (hstep : ChildStep d d' bytes) :
    Joined { s with children := c :: cs.set i d', bytes := s.bytes + bytes } c (cs.set i d') where
  children := rfl
  ctxPgid := h.ctxPgid
  jobPgid := h.jobPgid
  first := h.first
  own := h.own
  ok := h.ok
  pgid := h.pgid
  others e he := by
    rcases List.mem_or_eq_of_mem_set he with hmem | rfl
    · exact h.others e hmem
    · obtain ⟨hok, hctx, hpgid⟩ := h.others d (List.mem_of_getElem? hd)
      have hgroup : d.group = c.pid := by
        rw [ForkedChild.group, if_neg (hctx ▸ h.own.1.ne'), hctx]
      refine ⟨hstep.ok hok, hstep.ctxPgid_eq.trans hctx, ?_⟩
      rcases hstep.pgid_eq hok with hsame | hmoved
      · rw [hsame, hstep.pid_eq]
        exact hpgid
      · exact .inl (hmoved.trans hgroup)
  pc := h.pc

theorem Phase.child {i : ℕ} {c c' : ForkedChild} {bytes : ℕ} (h : Phase s)
    (hi : s.children[i]? = some c) (hstep : ChildStep c c' bytes) :
    Phase { s with children := s.children.set i c', bytes := s.bytes + bytes } := by
  cases h with
  | notForked h =>
    rw [h.children] at hi
    cases hi
  | waiting h =>
    rw [h.children] at hi ⊢
    cases i with
    | zero =>
      obtain rfl := Option.some.inj hi
      exact .waiting (h.child hstep)
    | succ i => cases hi
  | joined h =>
    rw [h.children] at hi ⊢
    cases i with
    | zero =>
      obtain rfl := Option.some.inj hi
      exact .joined (h.firstChild hstep)
    | succ i => exact .joined (h.otherChild hi hstep)

/-! ### Steps of the shell -/

/-- A child that the shell has just forked. -/
theorem ok_started (pid pgid ctxPgid : ℕ) (ends : SyncEnds) :
    ForkedChild.Ok ⟨pid, pgid, ctxPgid, ends, .started⟩ where
  first h := by cases h
  grouped h := h.elim
  exited _ h := by cases h

theorem Phase.fork {pid unforked : ℕ} (h : Phase s) (hpc : s.shell.pc = .loop)
    (hpid : s.PidFree pid) :
    Phase { s with
      shell := { s.shell with unforked, pc := .forked pid }
      children :=
        s.children ++ [⟨pid, s.shell.pgid, s.shell.ctxPgid, s.shell.ends, .started⟩] } := by
  obtain ⟨hpos, -, hpgid, -⟩ := hpid
  cases h with
  -- the first child: from here on the shell waits for its byte
  | notForked h =>
    refine .waiting (c := ⟨pid, s.shell.pgid, s.shell.ctxPgid, s.shell.ends, .started⟩) ?_
    exact {
      children := by rw [h.children, List.nil_append]
      ctxPgid := h.ctxPgid
      first := h.ctxPgid
      own := ⟨hpos, hpgid⟩
      ok := ok_started ..
      holds := fun _ ↦ h.write
      bytes := fun hbytes ↦ absurd h.bytes hbytes.ne'
      pc := .inl rfl
      closed := by rintro ⟨⟩ }
  | waiting h => rcases h.pc with hpc' | hpc' | ⟨hpc' | hpc', -⟩ <;> rw [hpc] at hpc' <;> cases hpc'
  | joined h =>
    rename_i c cs
    -- a later child, born with the group of the shell and the context of the job
    let d : ForkedChild := ⟨pid, s.shell.pgid, s.shell.ctxPgid, s.shell.ends, .started⟩
    have hjoined : Joined { s with
        shell := { s.shell with unforked, pc := .forked pid }
        children := s.children ++ [d] } c (cs ++ [d]) := {
      children := by rw [h.children, List.cons_append]
      ctxPgid := h.ctxPgid
      jobPgid := h.jobPgid
      first := h.first
      own := h.own
      ok := h.ok
      pgid := h.pgid
      others := by
        intro d hd
        rcases List.mem_append.mp hd with hd | hd
        · obtain ⟨hok, hctx, hgroup⟩ := h.others d hd
          refine ⟨hok, hctx, .inl (hgroup.resolve_right fun hforked ↦ ?_)⟩
          rw [hpc] at hforked
          cases hforked
        · obtain rfl := List.mem_singleton.mp hd
          exact ⟨ok_started .., h.ctxPgid, .inr rfl⟩
      pc := .inr (.inr ⟨pid, rfl⟩) }
    exact .joined hjoined

/-- Between the first fork and `getpgid`. -/
theorem Phase.waiting_of_pc {pid : ℕ} (h : Phase s)
    (hpc : s.shell.pc = .closedWrite pid ∨ s.shell.pc = .read pid ∨ s.shell.pc = .closedRead pid) :
    ∃ c, Waiting s c ∧ c.pid = pid := by
  cases h with
  | notForked h =>
    rcases h.pc with hpc' | hpc' <;> rw [hpc'] at hpc <;>
      rcases hpc with hpc | hpc | hpc <;> cases hpc
  | joined h =>
    rcases h.pc with hpc' | hpc' | ⟨_, hpc'⟩ <;> rw [hpc'] at hpc <;>
      rcases hpc with hpc | hpc | hpc <;> cases hpc
  | waiting h =>
    rename_i c
    refine ⟨c, h, ?_⟩
    rcases h.pc with hpc' | hpc' | ⟨hpc' | hpc', -⟩ <;> rw [hpc'] at hpc <;>
      rcases hpc with hpc | hpc | hpc <;> cases hpc <;> rfl

/-- The shell goes on, without a byte that was not there. -/
theorem Waiting.goOn {c : ForkedChild} (h : Waiting s c) {ends : SyncEnds} {pc : ShellPc}
    {bytes : ℕ} (hbytes : bytes ≤ s.bytes)
    (hpc : pc = .forked c.pid ∨ pc = .closedWrite c.pid ∨
      (pc = .read c.pid ∨ pc = .closedRead c.pid) ∧ c.pc.Grouped)
    (hclosed : pc = .closedWrite c.pid → ends.write = false) :
    Waiting { s with shell := { s.shell with ends, pc }, bytes } c where
  children := h.children
  ctxPgid := h.ctxPgid
  first := h.first
  own := h.own
  ok := h.ok
  holds := h.holds
  bytes hpos := h.bytes (hpos.trans_le hbytes)
  pc := hpc
  closed := hclosed

theorem Phase.closeWrite {pid : ℕ} (h : Phase s) (hpc : s.shell.pc = .forked pid)
    (hfirst : s.shell.ctxPgid = 0) {ends : SyncEnds} (hends : ends.write = false) :
    Phase { s with shell := { s.shell with ends, pc := .closedWrite pid } } := by
  cases h with
  | notForked h => rcases h.pc with hpc' | hpc' <;> rw [hpc] at hpc' <;> cases hpc'
  | joined h => exact absurd (h.ctxPgid.symm.trans hfirst) h.own.1.ne'
  | waiting h =>
    rcases h.pc with hpc' | hpc' | ⟨hpc' | hpc', -⟩ <;> rw [hpc] at hpc' <;> cases hpc'
    exact .waiting (h.goOn le_rfl (.inr (.inl rfl)) fun _ ↦ hends)

/-- There is a byte in the pipe, so the child has called `setpgid`. -/
theorem Phase.readByte {pid bytes : ℕ} (h : Phase s) (hpc : s.shell.pc = .closedWrite pid)
    (hbytes : s.bytes = bytes + 1) :
    Phase { s with shell := { s.shell with pc := .read pid }, bytes } := by
  obtain ⟨c, hc, rfl⟩ := h.waiting_of_pc (.inl hpc)
  have hgrouped : c.pc.Grouped := hc.bytes (by omega)
  exact .waiting (hc.goOn (by omega) (.inr (.inr ⟨.inl rfl, hgrouped⟩)) (by rintro ⟨⟩))

/-- Nobody has the pipe open, so the child has called `setpgid`. -/
theorem Phase.readEof {pid : ℕ} (h : Phase s) (hpc : s.shell.pc = .closedWrite pid)
    (heof : s.NoWriter) : Phase { s with shell := { s.shell with pc := .read pid } } := by
  obtain ⟨c, hc, rfl⟩ := h.waiting_of_pc (.inl hpc)
  have hmem : c ∈ s.children := by rw [hc.children]; exact List.mem_singleton_self c
  have hclosed : c.ends.write = false := heof.2 c hmem
  have hgrouped : c.pc.Grouped := by
    by_contra hbefore
    rw [hc.holds hbefore] at hclosed
    cases hclosed
  exact .waiting (hc.goOn le_rfl (.inr (.inr ⟨.inl rfl, hgrouped⟩)) (by rintro ⟨⟩))

theorem Phase.closeRead {pid : ℕ} (h : Phase s) (hpc : s.shell.pc = .read pid) {ends : SyncEnds} :
    Phase { s with shell := { s.shell with ends, pc := .closedRead pid } } := by
  obtain ⟨c, hc, rfl⟩ := h.waiting_of_pc (.inr (.inl hpc))
  have hgrouped : c.pc.Grouped := by
    rcases hc.pc with hpc' | hpc' | ⟨-, hgrouped⟩
    · rw [hpc] at hpc'; cases hpc'
    · rw [hpc] at hpc'; cases hpc'
    · exact hgrouped
  exact .waiting (hc.goOn le_rfl (.inr (.inr ⟨.inr rfl, hgrouped⟩)) (by rintro ⟨⟩))

/-- What `getpgid` returns is the child itself. -/
theorem Phase.getpgid {pid pgid : ℕ} (h : Phase s) (hpc : s.shell.pc = .closedRead pid)
    (hpgid : s.getpgid pid = some pgid) :
    Phase { s with shell := { s.shell with ctxPgid := pgid, jobPgid := pgid, pc := .loop } } := by
  obtain ⟨c, hc, rfl⟩ := h.waiting_of_pc (.inr (.inr hpc))
  have hgrouped : c.pc.Grouped := by
    rcases hc.pc with hpc' | hpc' | ⟨-, hgrouped⟩
    · rw [hpc] at hpc'; cases hpc'
    · rw [hpc] at hpc'; cases hpc'
    · exact hgrouped
  have hown : c.pgid = c.pid :=
    (hc.ok.grouped hgrouped).trans (ForkedChild.group_of_first hc.first)
  have hget : s.getpgid c.pid = some c.pgid := by
    rw [State.getpgid, hc.children, List.find?_cons_of_pos (by simp)]
    rfl
  obtain rfl : c.pid = pgid := by rw [← hown]; exact Option.some.inj (hget.symm.trans hpgid)
  have hjoined : Joined { s with
      shell := { s.shell with ctxPgid := c.pid, jobPgid := c.pid, pc := .loop } } c [] := {
    children := hc.children
    ctxPgid := rfl
    jobPgid := rfl
    first := hc.first
    own := hc.own
    ok := hc.ok
    pgid := hown
    others := fun _ hd ↦ absurd hd List.not_mem_nil
    pc := .inl rfl }
  exact .joined hjoined

theorem ChildPc.grouped_of_didExec {pc : ChildPc} (h : pc.didExec = true) : pc.Grouped := by
  cases pc with
  | executing => trivial
  | exited => trivial
  | _ => cases h

theorem Joined.group_eq {c d : ForkedChild} {cs : List ForkedChild} (h : Joined s c cs)
    (hd : d ∈ cs) : d.group = c.pid := by
  obtain ⟨-, hctx, -⟩ := h.others d hd
  rw [ForkedChild.group, hctx, if_neg h.own.1.ne']

/-- The child that was just forked is moved, unless it has moved by itself and called `exec`. -/
theorem Joined.moved {c : ForkedChild} {cs : List ForkedChild} {pid : ℕ} (h : Joined s c cs)
    (hpc : s.shell.pc = .forked pid) {d : ForkedChild} (hd : d ∈ cs) (d' : ForkedChild)
    (hd' : d' = if d.pid = pid ∧ d.pc.didExec = false then { d with pgid := c.pid } else d) :
    d'.Ok ∧ d'.ctxPgid = c.pid ∧ d'.pgid = c.pid := by
  obtain ⟨hok, hctx, hpgid⟩ := h.others d hd
  have hgroup := h.group_eq hd
  by_cases hmove : d.pid = pid ∧ d.pc.didExec = false
  · rw [if_pos hmove] at hd'
    subst hd'
    exact ⟨⟨hok.first, fun _ ↦ hgroup.symm, hok.exited⟩, hctx, rfl⟩
  · rw [if_neg hmove] at hd'
    subst hd'
    refine ⟨hok, hctx, hpgid.elim id fun hforked ↦ ?_⟩
    rw [hpc] at hforked
    have hpid : d'.pid = pid := (ShellPc.forked.inj hforked).symm
    have hexec : d'.pc.didExec = true := by
      rw [not_and, Bool.not_eq_false] at hmove
      exact hmove hpid
    rw [hok.grouped (ChildPc.grouped_of_didExec hexec), hgroup]

/-- Whatever the result, the child is in the group of the job. -/
theorem Phase.setpgid {pid : ℕ} {children : List ForkedChild} (h : Phase s)
    (hpc : s.shell.pc = .forked pid) (hother : s.shell.ctxPgid ≠ 0)
    (hset : s.Setpgid pid s.shell.jobPgid children) :
    Phase { s with shell := { s.shell with pc := .loop }, children } := by
  cases h with
  | notForked h => exact absurd h.ctxPgid hother
  | waiting h => exact absurd h.ctxPgid hother
  | joined h =>
    rename_i c cs
    cases hset with
    -- the call fails without a group only, and the first child is in it
    | failed hgroup =>
      refine absurd (.inr ⟨c, ?_, h.pgid.trans h.jobPgid.symm⟩) hgroup
      rw [h.children]
      exact List.mem_cons_self
    | moved =>
      rw [h.children, h.jobPgid, List.map_cons]
      -- the first child is in its own group already, so moving it changes nothing
      have hself : (if c.pid = pid ∧ c.pc.didExec = false then { c with pgid := c.pid } else c)
          = c := by
        split
        · exact congrArg (fun pgid ↦ { c with pgid }) h.pgid.symm
        · rfl
      rw [hself]
      let move : ForkedChild → ForkedChild := fun d ↦
        if d.pid = pid ∧ d.pc.didExec = false then { d with pgid := c.pid } else d
      have hjoined : Joined { s with
          shell := { s.shell with pc := .loop }
          children := c :: cs.map move } c (cs.map move) := {
        children := rfl
        ctxPgid := h.ctxPgid
        jobPgid := h.jobPgid
        first := h.first
        own := h.own
        ok := h.ok
        pgid := h.pgid
        others := by
          intro d' hd'
          obtain ⟨d, hd, heq⟩ := List.mem_map.mp hd'
          obtain ⟨hok, hctx, hpgid⟩ := h.moved hpc hd d' heq.symm
          exact ⟨hok, hctx, .inl hpgid⟩
        pc := .inl rfl }
      exact .joined hjoined

theorem Phase.leave (h : Phase s) (hpc : s.shell.pc = .loop) :
    Phase { s with shell := { s.shell with pc := .left } } := by
  cases h with
  | notForked h => exact .notForked { h with pc := .inr rfl }
  | waiting h => rcases h.pc with hpc' | hpc' | ⟨hpc' | hpc', -⟩ <;> rw [hpc] at hpc' <;> cases hpc'
  | joined h =>
    refine .joined { h with others := fun d hd ↦ ?_, pc := .inr (.inl rfl) }
    obtain ⟨hok, hctx, hpgid⟩ := h.others d hd
    refine ⟨hok, hctx, .inl (hpgid.resolve_right fun hforked ↦ ?_)⟩
    rw [hpc] at hforked
    cases hforked

theorem Phase.step (h : Phase s) (hstep : Step s s') : Phase s' := by
  cases hstep with
  | fork hpc _ hpid => exact h.fork hpc hpid
  | leave hpc => exact h.leave hpc
  | closeWrite hpc hfirst => exact h.closeWrite hpc hfirst rfl
  | readByte hpc hbytes => exact h.readByte hpc hbytes
  | readEof hpc _ heof => exact h.readEof hpc heof
  | closeRead hpc => exact h.closeRead hpc
  | getpgid hpc hpgid => exact h.getpgid hpc hpgid
  | setpgid hpc hother hset => exact h.setpgid hpc hother hset
  | child hi hstep => exact h.child hi hstep

/-! ## Every run -/

/-- What the shell counts: each process of the job is forked or still to be forked. -/
structure Counted (n pgid : ℕ) (s : State) : Prop where
  forked : s.children.length + s.shell.unforked = n
  left : s.shell.pc = .left → s.shell.unforked = 0
  pgid : s.shell.pgid = pgid

theorem Counted.step {n pgid : ℕ} (h : Counted n pgid s) (hstep : Step s s') :
    Counted n pgid s' := by
  obtain ⟨hforked, hleft, hpgid⟩ := h
  cases hstep with
  | fork hpc hunforked =>
    refine ⟨?_, fun hpc' ↦ ?_, hpgid⟩
    · rw [List.length_append, List.length_singleton]
      dsimp only
      omega
    · cases hpc'
  | leave hpc hunforked => exact ⟨hforked, fun _ ↦ hunforked, hpgid⟩
  | setpgid hpc hother hset =>
    refine ⟨?_, fun hpc' ↦ ?_, hpgid⟩
    · cases hset with
      | moved => rw [List.length_map]; exact hforked
      | failed => exact hforked
    · cases hpc'
  | child hi => exact ⟨by rw [List.length_set]; exact hforked, hleft, hpgid⟩
  | _ => exact ⟨hforked, fun hpc' ↦ (by cases hpc'), hpgid⟩

theorem phase_start (n pid pgid : ℕ) : Phase (start n pid pgid) :=
  .notForked ⟨rfl, rfl, rfl, rfl, .inl rfl⟩

theorem counted_start (n pid pgid : ℕ) : Counted n pgid (start n pid pgid) :=
  ⟨Nat.zero_add n, fun hpc ↦ (by cases hpc), rfl⟩

/-! ### No deadlock -/

/-- A child that has the pipe open is not at its end. -/
theorem ForkedChild.Ok.exists_step {c : ForkedChild} (h : c.Ok) (hfirst : c.ctxPgid = 0)
    (hopen : c.ends.write = true) : ∃ c' bytes, ChildStep c c' bytes := by
  cases hpc : c.pc with
  | started => exact ⟨_, _, .closeRead hpc hfirst⟩
  | closedRead => exact ⟨_, _, .setpgidOwn hpc⟩
  | grouped => exact ⟨_, _, .write hpc⟩
  | written => exact ⟨_, _, .closeWrite hpc⟩
  | ready => exact ⟨_, _, .exec hpc⟩
  | executing =>
    refine ⟨_, _, .exit (by rw [hpc]; trivial) fun didExec hpc' ↦ ?_⟩
    rw [hpc] at hpc'
    cases hpc'
  | exited didExec =>
    rw [h.exited didExec hpc] at hopen
    cases hopen

theorem State.exists_pidFree (s : State) : ∃ pid, s.PidFree pid := by
  obtain ⟨pid, hpid⟩ := Infinite.exists_notMem_finset
    ({0, s.shell.pid, s.shell.pgid} ∪ (s.children.map ForkedChild.pid).toFinset ∪
      (s.children.map ForkedChild.pgid).toFinset)
  simp only [Finset.mem_union, Finset.mem_insert, Finset.mem_singleton, List.mem_toFinset,
    List.mem_map, not_or, not_exists, not_and] at hpid
  obtain ⟨⟨⟨hpos, hshell, hpgid⟩, hpids⟩, hpgids⟩ := hpid
  exact ⟨pid, Nat.pos_of_ne_zero hpos, hshell, hpgid, fun c hc ↦
    ⟨fun heq ↦ hpids c hc heq.symm, fun heq ↦ hpgids c hc heq.symm⟩⟩

/-- The shell never waits for something that cannot happen any more. -/
theorem Phase.exists_step (h : Phase s) (hleft : s.shell.pc ≠ .left) : ∃ s', Step s s' := by
  have hloop : s.shell.pc = .loop → ∃ s', Step s s' := by
    intro hpc
    cases hunforked : s.shell.unforked with
    | zero => exact ⟨_, .leave hpc hunforked⟩
    | succ unforked =>
      obtain ⟨pid, hpid⟩ := s.exists_pidFree
      exact ⟨_, .fork hpc hunforked hpid⟩
  cases h with
  | notForked h => exact hloop (h.pc.resolve_right hleft)
  | joined h =>
    rcases h.pc with hpc | hpc | ⟨pid, hpc⟩
    · exact hloop hpc
    · exact absurd hpc hleft
    · have hother : s.shell.ctxPgid ≠ 0 := h.ctxPgid ▸ h.own.1.ne'
      by_cases hgroup : s.GroupExists s.shell.jobPgid
      · exact ⟨_, .setpgid hpc hother (.moved hgroup)⟩
      · exact ⟨_, .setpgid hpc hother (.failed hgroup)⟩
  | waiting h =>
    rename_i c
    have hmem : s.children[0]? = some c := by rw [h.children]; rfl
    rcases h.pc with hpc | hpc | ⟨hpc | hpc, -⟩
    · exact ⟨_, .closeWrite hpc h.ctxPgid⟩
    · cases hbytes : s.bytes with
      | succ bytes => exact ⟨_, .readByte hpc hbytes⟩
      | zero =>
        cases hopen : c.ends.write with
        -- the write end is open in the child, which has not called `execve` then
        | true =>
          obtain ⟨c', bytes, hstep⟩ := h.ok.exists_step h.first hopen
          exact ⟨_, .child hmem hstep⟩
        -- nobody can write any more, and the read ends
        | false =>
          refine ⟨_, .readEof hpc hbytes ⟨h.closed hpc, fun d hd ↦ ?_⟩⟩
          rw [h.children] at hd
          rw [List.mem_singleton.mp hd, hopen]
    · exact ⟨_, .closeRead hpc⟩
    · have hget : s.getpgid c.pid = some c.pgid := by
        rw [State.getpgid, h.children, List.find?_cons_of_pos (by simp)]
        rfl
      exact ⟨_, .getpgid hpc hget⟩

theorem exists_step_of_run {n pid pgid : ℕ} (hrun : ReflTransGen Step (start n pid pgid) s)
    (hleft : s.shell.pc ≠ .left) : ∃ s', Step s s' :=
  (invariant_of_step hrun (fun _ _ hstep h ↦ Phase.step h hstep)
    (phase_start n pid pgid)).exists_step hleft

/-! ### The groups -/

/-- The shell has left its loop. -/
theorem joined_of_left {n pid pgid : ℕ} (hn : 1 ≤ n)
    (hrun : ReflTransGen Step (start n pid pgid) s) (hleft : s.shell.pc = .left) :
    ∃ c cs, Joined s c cs ∧ s.children.length = n ∧ s.shell.pgid = pgid ∧
      ∀ d ∈ s.children, d.pgid = c.pid := by
  have hphase : Phase s :=
    invariant_of_step hrun (fun _ _ hstep h ↦ h.step hstep) (phase_start n pid pgid)
  have hcounted : Counted n pgid s :=
    invariant_of_step hrun (fun _ _ hstep h ↦ h.step hstep) (counted_start n pid pgid)
  have hlength : s.children.length = n := by
    rw [← hcounted.forked, hcounted.left hleft, Nat.add_zero]
  cases hphase with
  | notForked h =>
    rw [h.children, List.length_nil] at hlength
    omega
  | waiting h =>
    rcases h.pc with hpc | hpc | ⟨hpc | hpc, -⟩ <;> rw [hleft] at hpc <;> cases hpc
  | joined h =>
    rename_i c cs
    refine ⟨c, cs, h, hlength, hcounted.pgid, fun d hd ↦ ?_⟩
    rw [h.children] at hd
    rcases List.mem_cons.mp hd with rfl | hd
    · exact h.pgid
    · refine (h.others d hd).2.2.resolve_right fun hforked ↦ ?_
      rw [hleft] at hforked
      cases hforked

/-- In whatever order the shell and the children take their steps: when the shell leaves its loop,
the job is the group of its first child, and all its children are in this group. -/
theorem groups_of_left {n pid pgid : ℕ} (hn : 1 ≤ n)
    (hrun : ReflTransGen Step (start n pid pgid) s) (hleft : s.shell.pc = .left) :
    s.children.length = n ∧ s.shell.jobPgid ≠ pgid ∧
      s.children.head?.map ForkedChild.pid = some s.shell.jobPgid ∧
      ∀ c ∈ s.children, c.pgid = s.shell.jobPgid := by
  obtain ⟨c, cs, h, hlength, hpgid, hgroups⟩ := joined_of_left hn hrun hleft
  refine ⟨hlength, ?_, ?_, ?_⟩
  · rw [h.jobPgid, ← hpgid]
    exact h.own.2
  · rw [h.children, h.jobPgid]
    rfl
  · rw [h.jobPgid]
    exact hgroups

/-- Two children. The second calls `exec` before the shell gets to its `setpgid`. -/
private def twoChildren : State where
  shell := ⟨100, 100, 0, 7, 7, ⟨false, false⟩, .left⟩
  children := [⟨7, 7, 0, ⟨false, false⟩, .exited false⟩, ⟨8, 7, 7, ⟨false, false⟩, .executing⟩]

private theorem twoChildren_run : ReflTransGen Step (start 2 100 100) twoChildren :=
  .head (@Step.fork _ 7 _ rfl rfl ⟨by decide, by decide, by decide, by decide⟩) <|
  .head (.child (i := 0) rfl (.closeRead rfl rfl)) <|
  .head (.closeWrite rfl rfl) <|
  .head (.child (i := 0) rfl (.setpgidOwn rfl)) <|
  .head (.child (i := 0) rfl (.write rfl)) <|
  .head (.readByte rfl rfl) <|
  .head (.closeRead rfl) <|
  .head (.child (i := 0) rfl (.exit trivial (by rintro _ ⟨⟩))) <|
  .head (.getpgid rfl rfl) <|
  .head (@Step.fork _ 8 _ rfl rfl ⟨by decide, by decide, by decide, by decide⟩) <|
  .head (.child (i := 1) rfl (.setpgidJob rfl (by decide))) <|
  .head (.child (i := 1) rfl (.exec rfl)) <|
  .head (.setpgid rfl (by decide) (.moved (.inr ⟨_, List.mem_cons_self, rfl⟩))) <|
  .head (.leave rfl rfl) .refl

theorem groups_of_left_two :
    twoChildren.children.length = 2 ∧ twoChildren.shell.jobPgid ≠ 100 ∧
      twoChildren.children.head?.map ForkedChild.pid = some twoChildren.shell.jobPgid ∧
      ∀ c ∈ twoChildren.children, c.pgid = twoChildren.shell.jobPgid :=
  groups_of_left (by decide) twoChildren_run rfl

/-- The children of a job are where `forkLoop` takes them to be. -/
theorem kids_of_left {n pid pgid : ℕ} (hn : 1 ≤ n)
    (hrun : ReflTransGen Step (start n pid pgid) s) (hleft : s.shell.pc = .left)
    {s₀ s₁ : JobSystem} {job : Job} {ctx : ExecutorCtx} (hjob : Launching s₀ job ctx s₁)
    (hpids : job.processes.map Process.pid = s.children.map ForkedChild.pid) :
    job.pgid = s.shell.jobPgid ∧
      job.kids.map (fun kid ↦ (kid.pid, kid.pgid)) = s.children.map fun c ↦ (c.pid, c.pgid) := by
  obtain ⟨c, cs, h, -, -, hgroups⟩ := joined_of_left hn hrun hleft
  have hpgid : job.pgid = c.pid := by
    rw [h.children] at hpids
    rcases hjob.group with ⟨-, hnil⟩ | ⟨-, -, hhead⟩
    · rw [hnil] at hpids
      cases hpids
    · rw [hpids] at hhead
      exact (Option.some.inj hhead).symm
  refine ⟨hpgid.trans h.jobPgid.symm, ?_⟩
  calc job.kids.map (fun kid ↦ (kid.pid, kid.pgid))
      = (job.processes.map Process.pid).map fun pid ↦ (pid, job.pgid) := by
        rw [Job.kids, List.map_map, List.map_map]
        rfl
    _ = s.children.map fun c ↦ (c.pid, c.pgid) := by
        rw [hpids, List.map_map]
        exact List.map_congr_left fun d hd ↦ congrArg (d.pid, ·) (hpgid.trans (hgroups d hd).symm)

end Novash.Handshake
