import Mathlib.Data.List.Nodup
import Ocpe.Sandbox.Monitor

/-!
# The parent and the family of its child

The parent of `Sandbox/Monitor.lean` together with the processes that descend from
the child it forks, and with the two pipes.  A process of the family forks, ends, moves to
another process group, closes its ends of the pipes, hands them on, writes, or does
nothing, in any order and for as long as it likes; before its `setpgid(0, 0)` the child
itself can only end.  What a call of the parent returns follows from the state.

* `step`: one step of the parent, of a process, or of the clock.
* `coherent_run`: the child is in the table of living processes exactly while it runs.
* `monitor_run`: what the parent goes through is a run of the parent alone.
-/

namespace Ocpe.Sandbox

open Lib

structure Proc where
  pid : Nat
  group : Nat
  /-- Whether it has a descriptor of the write end of the pipe for `stdout`, for `stderr`. -/
  out : Bool
  err : Bool
  /-- Whether it has still to call `setpgid(0, 0)`. -/
  starting : Bool := false
  deriving DecidableEq, Repr

structure Family where
  monitor : Monitor := {}
  now : Int := 0
  procs : List Proc := []
  outBuf : Bytes := []
  errBuf : Bytes := []

inductive Act
  | ends (e : Ended)
  | setpgid (group : Nat)
  | forks (child : Nat)
  | closesOut
  | closesErr
  /-- It hands its write ends to another process. -/
  | hands (receiver : Nat)
  | writesOut (d : Bytes)
  | writesErr (d : Bytes)

inductive Event
  /-- The call the parent stands at returns. -/
  | parent (a : Answer)
  /-- `kill(-pid, SIGKILL)` returns, with what the child has used when it dies of it. -/
  | kills (usage : Rusage)
  | act (p : Nat) (a : Act)
  | tick (d : Nat)

/-- The bytes that a pipe holds. -/
def pipeCapacity : Nat := 65536

namespace Family

def proc? (s : Family) (p : Nat) : Option Proc := s.procs.find? fun x => x.pid = p

/-- The table after one process has changed, but not its pid. -/
def update (s : Family) (p : Nat) (f : Proc → Proc) : Family :=
  { s with procs := s.procs.map fun x => if x.pid = p then f x else x }

/-- A `read` returns: there are bytes, or nobody is left who could write some.  The parent
itself has closed its write ends by then. -/
def outReadable (s : Family) : Bool := s.outBuf ≠ [] || !s.procs.any Proc.out

def errReadable (s : Family) : Bool := s.errBuf ≠ [] || !s.procs.any Proc.err

/-- What the call of the parent may return. -/
def answers (s : Family) (a : Answer) : Bool :=
  match s.monitor.pc, a with
  | .startClock, .time now => now = s.now
  | .checkClock, .time now => now = s.now
  | .select, .ready out err =>
    (out = false ∧ err = false) ∨ (out = s.outReadable ∧ err = s.errReadable)
  | .readOut _, .data d => s.outReadable ∧ d = s.outBuf.take bufSize
  | .drainOut, .data d => s.outReadable ∧ d = s.outBuf.take bufSize
  | .readErr, .data d => s.errReadable ∧ d = s.errBuf.take bufSize
  | .drainErr, .data d => s.errReadable ∧ d = s.errBuf.take bufSize
  | .killGroup, _ => false
  | _, _ => true

end Family

section Step

variable (limits : SandboxLimits) (pid workerGroup : Nat)

def forked : Proc where
  pid := pid
  group := workerGroup
  out := true
  err := true
  starting := true

/-- What the call does to the processes and the pipes. -/
def Family.after (s : Family) (a : Answer) : Family :=
  match s.monitor.pc, a with
  | .fork, .ok true => { s with procs := [forked pid workerGroup] }
  | .readOut _, _ => { s with outBuf := s.outBuf.drop bufSize }
  | .drainOut, _ => { s with outBuf := s.outBuf.drop bufSize }
  | .readErr, _ => { s with errBuf := s.errBuf.drop bufSize }
  | .drainErr, _ => { s with errBuf := s.errBuf.drop bufSize }
  | _, _ => s

def Family.parent (s : Family) (a : Answer) : Option Family :=
  if s.answers a then
    (returns limits s.monitor a).map fun m => { s.after pid workerGroup a with monitor := m }
  else none

/-- The child is in the group that the parent kills. -/
def Family.inGroup (s : Family) : Bool := s.procs.any fun x => x.pid = pid ∧ x.group = pid

/-- Every process of the group dies, the child with them if it is in it. -/
def Family.kills (s : Family) (usage : Rusage) : Option Family :=
  match s.monitor.pc with
  | .killGroup =>
    (returns limits s.monitor .done).map fun m =>
      { s with
        monitor := if s.inGroup pid then { m with child := .zombie (.signaled 9 (by decide) usage) } else m
        procs := s.procs.filter fun x => x.group ≠ pid }
  | _ => none

/-- A process that has left the first lines of the child behind does something. -/
def Family.acts (s : Family) (x : Proc) : Act → Option Family
  | .ends _ => none
  | .setpgid group => some (s.update x.pid fun y => { y with group := group })
  | .forks child =>
    if child = pid ∨ (s.proc? child).isSome then none
    else some { s with procs := { x with pid := child } :: s.procs }
  | .closesOut => some (s.update x.pid fun y => { y with out := false })
  | .closesErr => some (s.update x.pid fun y => { y with err := false })
  | .hands receiver => some (s.update receiver fun y => { y with out := y.out || x.out, err := y.err || x.err })
  | .writesOut d =>
    if x.out ∧ s.outBuf.length + d.length ≤ pipeCapacity then some { s with outBuf := s.outBuf ++ d }
    else none
  | .writesErr d =>
    if x.err ∧ s.errBuf.length + d.length ≤ pipeCapacity then some { s with errBuf := s.errBuf ++ d }
    else none

def Family.ends (s : Family) (p : Nat) (e : Ended) : Family :=
  { s with
    monitor := if p = pid then { s.monitor with child := .zombie e } else s.monitor
    procs := s.procs.filter fun x => x.pid ≠ p }

def Family.act (s : Family) (p : Nat) (a : Act) : Option Family :=
  match s.proc? p with
  | none => none
  | some x =>
    match a with
    | .ends e => some (s.ends pid p e)
    | a =>
      if x.starting then
        match a with
        | .setpgid group =>
          if group = p then some (s.update p fun y => { y with group := p, starting := false })
          else none
        | _ => none
      else s.acts pid x a

/-- One step of the parent, of a process, or of the clock. -/
def Family.step (s : Family) : Event → Option Family
  | .parent a => s.parent limits pid workerGroup a
  | .kills usage => s.kills limits pid usage
  | .act p a => s.act pid p a
  | .tick d => some { s with now := s.now + d }

end Step

variable {limits : SandboxLimits} {pid workerGroup : Nat} {s t : Family}

/-! ### What a process can do -/

/-- The change of a process that `x` has brought about: it keeps its pid, and it has got
no write end that neither of them had. -/
structure ChangedBy (x : Proc) (f : Proc → Proc) : Prop where
  pid : ∀ y, (f y).pid = y.pid
  out : ∀ y, (f y).out = true → y.out = true ∨ x.out = true
  err : ∀ y, (f y).err = true → y.err = true ∨ x.err = true

/-- What a step of a process is: it ends, changes a process, forks, or writes. -/
inductive ActsAs (pid : Nat) (s : Family) (x : Proc) : Family → Prop
  | ends (e : Ended) : ActsAs pid s x (s.ends pid x.pid e)
  | update (q : Nat) (f : Proc → Proc) (hf : ChangedBy x f) : ActsAs pid s x (s.update q f)
  | forks (q : Nat) (hpid : q ≠ pid) (hfresh : ∀ y ∈ s.procs, y.pid ≠ q) :
    ActsAs pid s x { s with procs := { x with pid := q } :: s.procs }
  | writesOut (d : Bytes) (hout : x.out = true) (hd : s.outBuf.length + d.length ≤ pipeCapacity) :
    ActsAs pid s x { s with outBuf := s.outBuf ++ d }
  | writesErr (d : Bytes) (herr : x.err = true) (hd : s.errBuf.length + d.length ≤ pipeCapacity) :
    ActsAs pid s x { s with errBuf := s.errBuf ++ d }

theorem mem_of_proc? {p : Nat} {x : Proc} (h : s.proc? p = some x) : x ∈ s.procs ∧ x.pid = p :=
  ⟨List.mem_of_find?_eq_some h, by simpa using List.find?_some h⟩

theorem actsAs_of_acts {x : Proc} {a : Act} (h : s.acts pid x a = some t) : ActsAs pid s x t := by
  cases a with
  | ends e => cases h
  | setpgid group =>
    cases h
    exact .update _ _ ⟨fun _ => rfl, fun _ => .inl, fun _ => .inl⟩
  | forks child =>
    rw [Family.acts] at h
    split at h
    · cases h
    next hfresh =>
    cases h
    rw [not_or, Option.not_isSome_iff_eq_none] at hfresh
    refine .forks child hfresh.1 fun y hy heq => ?_
    exact absurd (List.find?_eq_none.mp hfresh.2 y hy) (by simpa using heq)
  | closesOut =>
    cases h
    exact .update _ _ ⟨fun _ => rfl, fun _ h => (nomatch h), fun _ => .inl⟩
  | closesErr =>
    cases h
    exact .update _ _ ⟨fun _ => rfl, fun _ => .inl, fun _ h => (nomatch h)⟩
  | hands receiver =>
    cases h
    exact .update _ _ ⟨fun _ => rfl, fun y => by simp, fun y => by simp⟩
  | writesOut d =>
    rw [Family.acts] at h
    split at h
    · next hd =>
      cases h
      exact .writesOut d hd.1 hd.2
    · cases h
  | writesErr d =>
    rw [Family.acts] at h
    split at h
    · next hd =>
      cases h
      exact .writesErr d hd.1 hd.2
    · cases h

theorem actsAs_of_act {p : Nat} {a : Act} (h : s.act pid p a = some t) :
    ∃ x ∈ s.procs, x.pid = p ∧ ActsAs pid s x t := by
  unfold Family.act at h
  split at h
  · cases h
  next x hx =>
  obtain ⟨hmem, rfl⟩ := mem_of_proc? hx
  refine ⟨x, hmem, rfl, ?_⟩
  split at h
  · cases h
    exact .ends _
  split at h
  · split at h
    · split at h
      · cases h
        exact .update _ _ ⟨fun _ => rfl, fun _ => .inl, fun _ => .inl⟩
      · cases h
    · cases h
  · exact actsAs_of_acts h

/-! ### The child in the table -/

/-- The pids are different, and the child is in the table exactly while it runs. -/
structure Coherent (pid : Nat) (s : Family) : Prop where
  nodup : (s.procs.map Proc.pid).Nodup
  running : (∃ x ∈ s.procs, x.pid = pid) ↔ s.monitor.child = .running

@[simp] theorem map_pid_update {q : Nat} {f : Proc → Proc} (hf : ∀ y, (f y).pid = y.pid) :
    (s.update q f).procs.map Proc.pid = s.procs.map Proc.pid := by
  rw [Family.update, List.map_map]
  refine List.map_congr_left fun y _ => ?_
  show (if y.pid = q then f y else y).pid = y.pid
  split
  · exact hf y
  · rfl

theorem exists_pid_iff {procs : List Proc} :
    (∃ x ∈ procs, x.pid = pid) ↔ pid ∈ procs.map Proc.pid := List.mem_map.symm

theorem coherent_acts {x : Proc} (h : ActsAs pid s x t) (hs : Coherent pid s) :
    Coherent pid t := by
  obtain ⟨hnodup, hrunning⟩ := hs
  cases h with
  | ends e =>
    refine ⟨hnodup.sublist (List.filter_sublist.map _), ?_⟩
    simp only [Family.ends, List.mem_filter]
    by_cases hp : x.pid = pid
    · rw [if_pos hp]
      refine iff_of_false ?_ (fun h => nomatch h)
      rintro ⟨y, ⟨-, hy⟩, rfl⟩
      exact absurd hp.symm (by simpa using hy)
    · rw [if_neg hp, ← hrunning]
      constructor
      · rintro ⟨y, ⟨hy, -⟩, hpid⟩
        exact ⟨y, hy, hpid⟩
      · rintro ⟨y, hy, hpid⟩
        refine ⟨y, ⟨hy, ?_⟩, hpid⟩
        simpa [hpid] using Ne.symm hp
  | update q f hf =>
    refine ⟨by rwa [map_pid_update hf.pid], ?_⟩
    rw [exists_pid_iff, map_pid_update hf.pid, ← exists_pid_iff]
    exact hrunning
  | forks q hpid hfresh =>
    refine ⟨?_, ?_⟩
    · rw [List.map_cons, List.nodup_cons]
      refine ⟨fun h => ?_, hnodup⟩
      obtain ⟨y, hy, heq⟩ := List.mem_map.mp h
      exact hfresh y hy heq
    · rw [← hrunning]
      show (∃ y ∈ { x with pid := q } :: s.procs, y.pid = pid) ↔ _
      rw [List.exists_mem_cons_iff]
      exact or_iff_right hpid
  | writesOut d => exact ⟨hnodup, hrunning⟩
  | writesErr d => exact ⟨hnodup, hrunning⟩

/-- Only `fork` makes the child run, and nothing that the parent calls ends it. -/
theorem running_returns {m n : Monitor} {a : Answer} (h : returns limits m a = some n)
    (hfork : ¬ (m.pc = .fork ∧ a = .ok true)) : n.child = .running ↔ m.child = .running := by
  unfold returns at h
  split at h
  · cases h; rfl
  · cases h; rfl
  · next hpc =>
    split at h
    · next hok => exact absurd ⟨hpc, by rw [hok]⟩ hfork
    · cases h; rfl
  · cases h; rfl
  · cases h; rfl
  · split at h <;> cases h <;> rfl
  · cases h; rfl
  · cases h; rfl
  · split at h <;> cases h; rfl
  · split at h <;> cases h; rfl
  · cases h
    show m.child.poll.1 = .running ↔ _
    cases m.child <;> simp [Child.poll]
  · split at h
    · cases h; rfl
    · split at h <;> cases h; rfl
  · split at h
    · cases h; rfl
    · split at h <;> cases h; rfl
  · obtain ⟨⟨child, status, usage⟩, hwait, rfl⟩ := Option.map_eq_some_iff.mp h
    cases hchild : m.child <;> rw [hchild] at hwait <;> cases hwait <;> simp
  · cases h

theorem running_fork {m n : Monitor} (h : returns limits m (.ok true) = some n)
    (hpc : m.pc = .fork) : n.child = .running := by
  simp only [returns, hpc] at h
  cases h
  rfl

theorem after_out (a : Answer) (hpc : s.monitor.pc = .drainOut ∨ ∃ b, s.monitor.pc = .readOut b) :
    s.after pid workerGroup a = { s with outBuf := s.outBuf.drop bufSize } := by
  rcases hpc with hpc | ⟨b, hpc⟩ <;> simp only [Family.after, hpc]

theorem after_err (a : Answer) (hpc : s.monitor.pc = .drainErr ∨ s.monitor.pc = .readErr) :
    s.after pid workerGroup a = { s with errBuf := s.errBuf.drop bufSize } := by
  rcases hpc with hpc | hpc <;> simp only [Family.after, hpc]

/-- Neither `fork` nor a `read`. -/
def Pc.Quiet : Pc → Prop
  | .fork | .readOut _ | .readErr | .drainOut | .drainErr => False
  | _ => True

/-- **Any other call** leaves the processes and the pipes alone. -/
theorem after_quiet (hpc : s.monitor.pc.Quiet) (a : Answer) : s.after pid workerGroup a = s := by
  unfold Family.after
  cases h : s.monitor.pc with
  | fork | readOut | readErr | drainOut | drainErr => rw [h] at hpc; exact hpc.elim
  | _ => rfl

theorem parent_eq_some {a : Answer} (h : s.parent limits pid workerGroup a = some t) :
    s.answers a = true ∧ ∃ m, returns limits s.monitor a = some m ∧
      t = { s.after pid workerGroup a with monitor := m } := by
  unfold Family.parent at h
  split at h
  · next hanswers =>
    obtain ⟨m, hm, rfl⟩ := Option.map_eq_some_iff.mp h
    exact ⟨hanswers, m, hm, rfl⟩
  · cases h

/-- **The loop ends** when the child is reaped. -/
theorem parent_reaps {a : Answer} (h : s.parent limits pid workerGroup a = some t)
    (hpc : s.monitor.pc = .poll) (hw : s.monitor.child.poll.2 = true) :
    t = { s with
      monitor := { s.monitor with pc := .drainOut, child := s.monitor.child.poll.1 } } := by
  obtain ⟨-, m, hm, rfl⟩ := parent_eq_some h
  rw [after_quiet (by rw [hpc]; trivial)]
  cases a with
  | done =>
    simp only [returns, hpc, hw, if_true] at hm
    cases hm
    rfl
  | _ => simp [returns, hpc] at hm

theorem kills_eq_some {usage : Rusage} (h : s.kills limits pid usage = some t) :
    s.monitor.pc = .killGroup ∧
      t = { s with
        monitor := { s.monitor with
          pc := .closing [.outRead, .errRead] .collect
          child := if s.inGroup pid then .zombie (.signaled 9 (by decide) usage)
            else s.monitor.child }
        procs := s.procs.filter fun x => x.group ≠ pid } := by
  unfold Family.kills at h
  split at h
  · next hpc =>
    obtain ⟨m, hm, rfl⟩ := Option.map_eq_some_iff.mp h
    simp only [returns, hpc] at hm
    cases hm
    refine ⟨hpc, ?_⟩
    split <;> rfl
  · cases h

theorem inGroup_iff : s.inGroup pid = true ↔ ∃ x ∈ s.procs, x.pid = pid ∧ x.group = pid := by
  simp [Family.inGroup]

theorem procs_after {a : Answer} (h : ¬ (s.monitor.pc = .fork ∧ a = .ok true)) :
    (s.after pid workerGroup a).procs = s.procs := by
  unfold Family.after
  split
  · next hpc => exact absurd ⟨hpc, rfl⟩ h
  all_goals rfl

theorem coherent_step {e : Event} (h : s.step limits pid workerGroup e = some t)
    (hs : Coherent pid s) : Coherent pid t := by
  cases e with
  | tick d =>
    cases h
    exact ⟨hs.nodup, hs.running⟩
  | act p a =>
    obtain ⟨x, -, -, hacts⟩ := actsAs_of_act h
    exact coherent_acts hacts hs
  | parent a =>
    obtain ⟨-, m, hm, rfl⟩ := parent_eq_some h
    by_cases hfork : s.monitor.pc = .fork ∧ a = .ok true
    · obtain ⟨hpc, rfl⟩ := hfork
      have hafter : s.after pid workerGroup (.ok true) =
          { s with procs := [forked pid workerGroup] } := by
        simp only [Family.after, hpc]
      rw [hafter]
      exact ⟨List.nodup_singleton _,
        iff_of_true ⟨_, List.mem_singleton_self _, rfl⟩ (running_fork hm hpc)⟩
    · refine ⟨?_, ?_⟩
      · show ((s.after pid workerGroup a).procs.map Proc.pid).Nodup
        rw [procs_after hfork]
        exact hs.nodup
      · show (∃ x ∈ (s.after pid workerGroup a).procs, x.pid = pid) ↔ m.child = .running
        rw [procs_after hfork, running_returns hm hfork]
        exact hs.running
  | kills usage =>
    obtain ⟨-, rfl⟩ := kills_eq_some h
    refine ⟨hs.nodup.sublist (List.filter_sublist.map _), ?_⟩
    show (∃ x ∈ s.procs.filter fun x => x.group ≠ pid, x.pid = pid) ↔
      (if s.inGroup pid then Child.zombie _ else s.monitor.child) = .running
    by_cases hin : s.inGroup pid = true
    · rw [if_pos hin]
      refine iff_of_false ?_ (fun h => nomatch h)
      -- there is one process with the pid of the child, and it was in the group
      rintro ⟨y, hy, hpid⟩
      obtain ⟨hy, hgroup⟩ := List.mem_filter.mp hy
      obtain ⟨x, hx, hxpid, hxgroup⟩ := inGroup_iff.mp hin
      have hxy : x = y := List.inj_on_of_nodup_map hs.nodup hx hy (hxpid.trans hpid.symm)
      subst hxy
      exact absurd hxgroup (by simpa using hgroup)
    · rw [if_neg hin, ← hs.running]
      constructor
      · rintro ⟨y, hy, hpid⟩
        exact ⟨y, (List.mem_filter.mp hy).1, hpid⟩
      · rintro ⟨y, hy, hpid⟩
        refine ⟨y, List.mem_filter.mpr ⟨hy, ?_⟩, hpid⟩
        have hgroup : y.group ≠ pid := fun hgroup => hin (inGroup_iff.mpr ⟨y, hy, hpid, hgroup⟩)
        simpa using hgroup

theorem coherent_start : Coherent pid {} where
  nodup := List.nodup_nil
  running := iff_of_false (fun ⟨_, hx, _⟩ => nomatch hx) (fun h => nomatch h)

/-- **The child is in the table exactly while it runs**, in every run. -/
theorem coherent_run {es : List Event}
    (h : Lib.run (Family.step limits pid workerGroup) {} es = some s) : Coherent pid s :=
  run_invariant (Coherent pid) h coherent_start fun _ _ _ hm he => coherent_step he hm

/-! ### The parent alone -/

theorem monitor_step {e : Event} (h : s.step limits pid workerGroup e = some t)
    (hs : Coherent pid s) : ∃ as, Lib.run (Sandbox.step limits) s.monitor as = some t.monitor := by
  cases e with
  | tick d =>
    cases h
    exact ⟨[], rfl⟩
  | parent a =>
    obtain ⟨-, m, hm, rfl⟩ := parent_eq_some h
    exact ⟨[.returns a], run_cons_iff.mpr ⟨m, hm, rfl⟩⟩
  | act p a =>
    obtain ⟨x, hx, -, hacts⟩ := actsAs_of_act h
    cases hacts with
    | ends e =>
      by_cases hp : x.pid = pid
      · have hrun : s.monitor.child = .running := hs.running.mp ⟨x, hx, hp⟩
        refine ⟨[.ends e], ?_⟩
        simp only [Lib.run, Sandbox.step, hrun, Family.ends, if_pos hp, Option.bind_some]
      · exact ⟨[], by simp only [Lib.run, Family.ends, if_neg hp]⟩
    | update q f => exact ⟨[], rfl⟩
    | forks q => exact ⟨[], rfl⟩
    | writesOut d => exact ⟨[], rfl⟩
    | writesErr d => exact ⟨[], rfl⟩
  | kills usage =>
    obtain ⟨hpc, rfl⟩ := kills_eq_some h
    by_cases hin : s.inGroup pid = true
    · obtain ⟨x, hx, hpid, -⟩ := inGroup_iff.mp hin
      have hrun : s.monitor.child = .running := hs.running.mp ⟨x, hx, hpid⟩
      refine ⟨[.ends (.signaled 9 (by decide) usage), .returns .done], ?_⟩
      simp only [Lib.run, Sandbox.step, hrun, returns, hpc, hin, if_true, Option.bind_some]
    · refine ⟨[.returns .done], ?_⟩
      simp only [Lib.run, Sandbox.step, returns, hpc, if_neg hin, Option.bind_some]

/-- **What the parent goes through is a run of the parent alone**, so that everything said
of those holds here. -/
theorem monitor_run {es : List Event}
    (h : Lib.run (Family.step limits pid workerGroup) {} es = some s) :
    ∃ as, Lib.run (Sandbox.step limits) {} as = some s.monitor := by
  refine (run_invariant (fun s => Coherent pid s ∧
    ∃ as, Lib.run (Sandbox.step limits) {} as = some s.monitor) h ⟨coherent_start, [], rfl⟩ ?_).2
  rintro m e n ⟨hcoherent, as, has⟩ he
  obtain ⟨bs, hbs⟩ := monitor_step he hcoherent
  exact ⟨coherent_step he hcoherent, as ++ bs, run_append_iff.mpr ⟨_, has, hbs⟩⟩

end Ocpe.Sandbox
