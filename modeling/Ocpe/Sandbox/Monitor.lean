import Ocpe.Lib.Run
import Ocpe.Sandbox.Sandbox

/-!
# The parent side of a run

`Sandbox::run` up to `wait4` (`sandbox/src/sandbox.cpp`), one system call a step,
next to the child it forks.  A step is either `ends e`, by which the child ends in
its own time, or `returns a`, by which the call the parent stands at returns `a`.
What `waitpid` and `wait4` return is not the environment's choice: it follows from
the entry of the child in the kernel's process table, where a wait that finds an
ended child removes it.

The loop notices the end of the child by a `waitpid` of its own, and the `wait4`
that is to fetch the status comes after it.  `reaped_of_returned` is the
consequence: a run that does not time out returns with status 0 and no usage,
whatever the child did.  `reportsOwnEnding_iff` says for which children the result
is the right one all the same, and `exitOne_accepted` is a run for which it is not.
-/

namespace Ocpe.Sandbox

open Lib

inductive PipeEnd
  | outRead | outWrite | errRead | errWrite
  deriving DecidableEq, Repr

/-- What follows a row of `close` calls. -/
inductive Afterwards
  | giveUp | startClock | collect
  deriving DecidableEq, Repr

/-- The call the parent stands at. -/
inductive Pc
  | pipeOut | pipeErr | fork
  | closing (ends : List PipeEnd) (next : Afterwards)
  | startClock
  | checkClock | killGroup | select | readOut (errReady : Bool) | readErr | poll
  | drainOut | drainErr
  | wait4
  | returned (outcome : RunOutcome)
  deriving DecidableEq, Repr

/-- The entry of the child in the process table. -/
inductive Child
  | absent | running | zombie (e : Ended) | reaped (e : Ended)

/-- What a call returns, as far as the environment decides it. -/
inductive Answer
  /-- `pipe`, `fork`: whether it succeeded -/
  | ok (success : Bool)
  /-- `steady_clock::now`, in nanoseconds -/
  | time (now : Int)
  /-- `select`: the descriptors it leaves in the set, none when it returns 0 or less -/
  | ready (out err : Bool)
  /-- `read`: the bytes, none when it returns 0 or less -/
  | data (d : Bytes)
  /-- `close`, `kill`, `waitpid`, `wait4` -/
  | done
  deriving DecidableEq, Repr

inductive Action
  | ends (e : Ended)
  | returns (a : Answer)

/-- The parent's variables and the child. -/
structure Monitor where
  pc : Pc := .pipeOut
  child : Child := .absent
  deadline : Int := 0
  timedOut : Bool := false
  stdoutData : Bytes := []
  stderrData : Bytes := []

/-- `sizeof(buf)` -/
def bufSize : Nat := 4096

def Afterwards.pc : Afterwards → Pc
  | .giveUp => .returned .forkFailed
  | .startClock => .startClock
  | .collect => .wait4

/-- `waitpid(pid, .., WNOHANG)`, which reaps an ended child. -/
def Child.poll : Child → Child × Bool
  | .zombie e => (.reaped e, true)
  | c => (c, false)

/-- `wait4(pid, ..)` on variables that are zero: it blocks on a running child and
leaves them alone when there is no child to wait for. -/
def Child.wait : Child → Option (Child × Nat × Rusage)
  | .running => none
  | .zombie e => some (.reaped e, e.status, e.usage)
  | c => some (c, 0, {})

def returns (limits : SandboxLimits) (s : Monitor) (a : Answer) : Option Monitor :=
  match s.pc, a with
  | .pipeOut, .ok success =>
    some { s with pc := if success then .pipeErr else .returned .pipeFailed }
  | .pipeErr, .ok success =>
    some { s with pc := if success then .fork else .returned .pipeFailed }
  | .fork, .ok success =>
    if success then
      some { s with pc := .closing [.outWrite, .errWrite] .startClock, child := .running }
    else some { s with pc := .closing [.outRead, .outWrite, .errRead, .errWrite] .giveUp }
  | .closing (_ :: ends) next, .done =>
    some { s with pc := if ends = [] then next.pc else .closing ends next }
  | .startClock, .time now =>
    some { s with
      pc := .checkClock
      deadline := now + (limits.timeLimitMs.toInt + 500) * 1000000 }
  | .checkClock, .time now =>
    if s.deadline < now then some { s with pc := .killGroup, timedOut := true }
    else some { s with pc := .select }
  | .killGroup, .done => some { s with pc := .closing [.outRead, .errRead] .collect }
  | .select, .ready out err =>
    some { s with pc := if out then .readOut err else if err then .readErr else .poll }
  | .readOut errReady, .data d =>
    if d.length ≤ bufSize then
      some { s with
        pc := if errReady then .readErr else .poll
        stdoutData := s.stdoutData ++ d }
    else none
  | .readErr, .data d =>
    if d.length ≤ bufSize then some { s with pc := .poll, stderrData := s.stderrData ++ d } else none
  | .poll, .done =>
    some { s with
      pc := if s.child.poll.2 then .drainOut else .checkClock
      child := s.child.poll.1 }
  | .drainOut, .data d =>
    if d = [] then some { s with pc := .drainErr }
    else if d.length ≤ bufSize then some { s with stdoutData := s.stdoutData ++ d }
    else none
  | .drainErr, .data d =>
    if d = [] then some { s with pc := .closing [.outRead, .errRead] .collect }
    else if d.length ≤ bufSize then some { s with stderrData := s.stderrData ++ d }
    else none
  | .wait4, .done =>
    s.child.wait.map fun (child, status, usage) =>
      { s with
        pc := .returned (.ended ⟨s.timedOut, s.stdoutData, s.stderrData, status, usage⟩)
        child := child }
  | _, _ => none

def step (limits : SandboxLimits) (s : Monitor) : Action → Option Monitor
  | .ends e =>
    match s.child with
    | .running => some { s with child := .zombie e }
    | _ => none
  | .returns a => returns limits s a

variable {limits : SandboxLimits} {s t : Monitor}

/-! ### What the parent has noticed -/

def Monitor.Reaped (s : Monitor) : Prop := ∃ e, s.child = .reaped e

/-- Where the parent stands tells whether the child has been reaped already.  At
`wait4` it has, unless the time is over. -/
def Noticed (s : Monitor) : Prop :=
  match s.pc with
  | .killGroup => s.timedOut = true
  | .drainOut | .drainErr => s.Reaped
  | .closing _ .collect | .wait4 => s.timedOut = false → s.Reaped
  | .returned (.ended o) => o.timedOut = false → s.Reaped ∧ o.status = 0 ∧ o.usage = {}
  | _ => True

theorem reaped_of_poll {c : Child} (h : c.poll.2 = true) : ∃ e, c.poll.1 = .reaped e := by
  cases c with
  | zombie e => exact ⟨e, rfl⟩
  | absent => cases h
  | running => cases h
  | reaped => cases h

theorem noticed_returns {a : Answer} (h : returns limits s a = some t) (hs : Noticed s) :
    Noticed t := by
  unfold returns at h
  split at h
  · cases h; split <;> trivial
  · cases h; split <;> trivial
  · split at h <;> cases h <;> trivial
  · next ends next hpc =>
    cases h
    rw [Noticed, hpc] at hs
    cases next <;> split <;> trivial
  · cases h; trivial
  · split at h <;> cases h <;> trivial
  · next hpc =>
    cases h
    rw [Noticed, hpc] at hs
    exact fun hf => absurd (hs.symm.trans hf) (by decide)
  · cases h
    split
    · trivial
    · split <;> trivial
  · split at h <;> cases h
    split <;> trivial
  · split at h <;> cases h
    trivial
  · cases h
    split
    · next hw => exact reaped_of_poll hw
    · trivial
  · next hpc =>
    rw [Noticed, hpc] at hs
    split at h
    · cases h; exact hs
    · split at h <;> cases h
      rw [Noticed, hpc]
      exact hs
  · next hpc =>
    rw [Noticed, hpc] at hs
    split at h
    · cases h; exact fun _ => hs
    · split at h <;> cases h
      rw [Noticed, hpc]
      exact hs
  · next hpc =>
    rw [Noticed, hpc] at hs
    obtain ⟨⟨child, status, usage⟩, hwait, rfl⟩ := Option.map_eq_some_iff.mp h
    intro hf
    obtain ⟨e, he⟩ := hs hf
    rw [he] at hwait
    cases hwait
    exact ⟨⟨e, rfl⟩, rfl, rfl⟩
  · cases h

theorem noticed_step {a : Action} (h : step limits s a = some t) (hs : Noticed s) : Noticed t := by
  cases a with
  | returns a => exact noticed_returns h hs
  | ends e =>
    simp only [step] at h
    split at h
    · next hrun =>
      cases h
      -- a running child has not been reaped, so nothing is claimed about it
      have hnot : ¬ s.Reaped := fun ⟨e', he'⟩ => by rw [hrun] at he'; cases he'
      unfold Noticed at hs ⊢
      split at hs <;> simp_all
    · cases h

/-- **A run that does not time out has reaped the child before `wait4`**, which
then reports nothing. -/
theorem reaped_of_returned {as : List Action} {o : Observed}
    (hrun : Lib.run (step limits) {} as = some s) (hpc : s.pc = .returned (.ended o))
    (hintime : o.timedOut = false) : s.Reaped ∧ o.status = 0 ∧ o.usage = {} := by
  have hnoticed : Noticed s := run_invariant Noticed hrun trivial fun _ _ _ hm h =>
    noticed_step h hm
  rw [Noticed, hpc] at hnoticed
  exact hnoticed hintime

/-! ### Whose ending the result reports -/

/-- The result speaks of the ending `e`: its three numbers are computed from it, and
it accepts only a child that exited with code 0, within both limits and with the
expected output. -/
structure ReportsOwnEnding (limits : SandboxLimits) (expected : Bytes) (e : Ended)
    (r : SandboxResult) : Prop where
  exitCode : r.exitCode = exitCode e.status
  timeMs : r.timeMs = timeMs e.usage
  memoryKb : r.memoryKb = memoryKb e.usage
  accepted : r.verdict = .accepted →
    wifexited e.status = true ∧ wexitstatus e.status = 0 ∧
      (cpuMs e.usage : Int) ≤ limits.timeLimitMs.toInt ∧
      (e.usage.maxrss : Int) ≤ memoryLimitKb limits ∧
      trimOutput r.stdoutOutput = trimOutput expected

/-- The child left nothing to report: it exited with code 0, and its CPU time in
milliseconds and its peak memory are 0 as `int`s. -/
structure NothingToReport (e : Ended) : Prop where
  exitCode : exitCode e.status = 0
  timeMs : timeMs e.usage = 0
  memoryKb : memoryKb e.usage = 0

/-- The two measures of the child are within the limits before they become `int`s. -/
def WithinLimits (limits : SandboxLimits) (e : Ended) : Prop :=
  (cpuMs e.usage : Int) ≤ limits.timeLimitMs.toInt ∧
    (e.usage.maxrss : Int) ≤ memoryLimitKb limits

/-- The decision on nothing: both limits are not negative and the outputs match. -/
theorem judge_nothing_accepted_iff {o : Observed} {expected : Bytes} (hintime : o.timedOut = false)
    (hstatus : o.status = 0) (husage : o.usage = {}) :
    (judge limits o expected).verdict = .accepted ↔
      0 ≤ limits.timeLimitMs ∧ 0 ≤ memoryLimitKb limits ∧
        outputsMatch o.stdoutData expected = true := by
  rw [judge_accepted_iff, Clean, hintime, hstatus, husage]
  have hexit : exitCode 0 = 0 := rfl
  have hmem : (memoryKb {}).toInt = 0 := rfl
  have htime : timeMs {} = 0 := rfl
  rw [hexit, hmem, htime]
  constructor
  · rintro ⟨⟨-, -, -, hm, ht⟩, hout⟩
    exact ⟨ht, hm, hout⟩
  · rintro ⟨ht, hm, hout⟩
    exact ⟨⟨rfl, rfl, rfl, hm, ht⟩, hout⟩

/-- **Whose ending a run in time reports.**  It is the child's own exactly when the
child left nothing to report, and did so within the limits if its output is
accepted. -/
theorem reportsOwnEnding_iff {as : List Action} {o : Observed} {expected : Bytes}
    (hrun : Lib.run (step limits) {} as = some s) (hpc : s.pc = .returned (.ended o))
    (hintime : o.timedOut = false) :
    ∃ e, s.child = .reaped e ∧
      (ReportsOwnEnding limits expected e (run limits (.ended o) expected) ↔
        NothingToReport e ∧
          (0 ≤ limits.timeLimitMs ∧ 0 ≤ memoryLimitKb limits ∧
              outputsMatch o.stdoutData expected = true →
            WithinLimits limits e)) := by
  obtain ⟨⟨e, he⟩, hstatus, husage⟩ := reaped_of_returned hrun hpc hintime
  refine ⟨e, he, ?_⟩
  have haccepted := @judge_nothing_accepted_iff limits o expected hintime hstatus husage
  rw [← haccepted]
  have hexit : (judge limits o expected).exitCode = 0 := congrArg exitCode hstatus
  have htime : (judge limits o expected).timeMs = 0 := congrArg timeMs husage
  have hmem : (judge limits o expected).memoryKb = 0 := congrArg memoryKb husage
  constructor
  · intro h
    refine ⟨⟨?_, ?_, ?_⟩, fun hv => ?_⟩
    · rw [← h.exitCode]; exact hexit
    · rw [← h.timeMs]; exact htime
    · rw [← h.memoryKb]; exact hmem
    · obtain ⟨-, -, ht, hm, -⟩ := h.accepted hv
      exact ⟨ht, hm⟩
  · rintro ⟨⟨h1, h2, h3⟩, hlimits⟩
    refine ⟨hexit.trans h1.symm, htime.trans h2.symm, hmem.trans h3.symm, fun hv => ?_⟩
    obtain ⟨hexited, hzero⟩ := exitCode_eq_zero_iff.mp h1
    exact ⟨hexited, hzero, (hlimits hv).1, (hlimits hv).2,
      of_decide_eq_true (haccepted.mp hv).2.2⟩

/-! ### A child that is noticed in time -/

/-- The child prints `2` and a newline, ends as `e`, and the first round of the loop
notices it. -/
def printsTwo (e : Ended) : List Action :=
  [.returns (.ok true), .returns (.ok true), .returns (.ok true), .returns .done, .returns .done,
    .returns (.time 0), .returns (.time 0), .returns (.ready true false),
    .returns (.data "2\n"), .ends e, .returns .done, .returns (.data []), .returns (.data []),
    .returns .done, .returns .done, .returns .done]

def observedTwo : Observed := ⟨false, "2\n", [], 0, {}⟩

def afterTwo (e : Ended) : Monitor where
  pc := .returned (.ended observedTwo)
  child := .reaped e
  deadline := 2500000000
  stdoutData := "2\n"

theorem run_printsTwo (e : Ended) :
    Lib.run (step {}) {} (printsTwo e) = some (afterTwo e) := by
  rfl

theorem reportsOwnEnding_iff_exited :
    ∃ e, (afterTwo (.exited 0 {})).child = .reaped e ∧
      (ReportsOwnEnding {} "2" e (run {} (.ended observedTwo) "2") ↔
        NothingToReport e ∧
          ((0 : Int32) ≤ 2000 ∧ 0 ≤ memoryLimitKb {} ∧
              outputsMatch observedTwo.stdoutData "2" = true →
            WithinLimits {} e)) :=
  reportsOwnEnding_iff (run_printsTwo (.exited 0 {})) rfl rfl

/-- **A child that exits with code 1 is accepted**, with exit code 0. -/
theorem exitOne_accepted :
    ∃ as s e, Lib.run (step {}) {} as = some s ∧ s.pc = .returned (.ended observedTwo) ∧
      observedTwo.timedOut = false ∧ s.child = .reaped e ∧ exitCode e.status = 1 ∧
      (run {} (.ended observedTwo) "2").verdict = .accepted ∧
      (run {} (.ended observedTwo) "2").exitCode = 0 ∧
      ¬ ReportsOwnEnding {} "2" e (run {} (.ended observedTwo) "2") := by
  refine ⟨_, _, .exited 1 {}, run_printsTwo _, rfl, rfl, rfl, by decide, by decide, by decide,
    fun h => ?_⟩
  have hexit := h.exitCode
  revert hexit
  decide

end Ocpe.Sandbox
