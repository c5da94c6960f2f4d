import Ocpe.Lib.WaitStatus
import Ocpe.Shared.Submission

/-!
# The verdict of one run

The last part of `Sandbox::run` (`sandbox/src/sandbox.cpp`): from what the
monitoring loop observed of the child to a `SandboxResult`.  How the observation
comes about is `Sandbox/Monitor.lean`.

`decision` is a ladder of early returns.  Its rungs are summed up by `Clean`: the
run did not time out, ended by `exit(0)` and is within both limits.
`decision_of_clean` and `decision_of_not_clean` say what happens on either side,
and `judge_accepted_iff` and `terminal_run` follow.

`int` values are `Int32`.  A conversion `static_cast<int>` reduces modulo
`2 ^ 32`; a product of two limits is taken in `Int`, since overflow there is
undefined in the source.
-/

namespace Ocpe

open Lib

structure SandboxLimits where
  timeLimitMs : Int32 := 2000
  memoryLimitMb : Int32 := 256
  outputLimitKb : Int32 := 1024
  deriving DecidableEq, Repr

structure SandboxResult where
  verdict : Verdict := .pending
  exitCode : Int32 := 0
  timeMs : Int32 := 0
  memoryKb : Int32 := 0
  stdoutOutput : Bytes := []
  stderrOutput : Bytes := []
  errorMessage : Bytes := []
  deriving DecidableEq, Repr

namespace Sandbox

/-! ### Comparing outputs -/

def isBlank (c : UInt8) : Bool := c = 32 || c = 9 || c = 13 || c = 10

/-- The first loop of `trim_output`: `n` more rounds from `start` on. -/
def trimStart (s : Bytes) : Nat → Nat → Nat
  | 0, start => start
  | n + 1, start => if s[start]?.any isBlank then trimStart s n (start + 1) else start

/-- The second loop of `trim_output`. -/
def trimEnd (s : Bytes) (start : Nat) : Nat → Nat
  | 0 => 0
  | stop + 1 => if start < stop + 1 ∧ s[stop]?.any isBlank then trimEnd s start stop else stop + 1

def trimOutput (s : Bytes) : Bytes :=
  let start := trimStart s s.length 0
  let stop := trimEnd s start s.length
  (s.drop start).take (stop - start)

def outputsMatch (actual expected : Bytes) : Bool := trimOutput actual = trimOutput expected

/-! ### The decision -/

/-- What the monitoring loop leaves behind for the decision: its own variables and
what `wait4` wrote into `status` and `usage`. -/
structure Observed where
  timedOut : Bool
  stdoutData : Bytes
  stderrData : Bytes
  status : Nat
  usage : Rusage
  deriving DecidableEq, Repr

def sigKill : Nat := 9
def sigAbrt : Nat := 6
def sigSegv : Nat := 11
def sigXcpu : Nat := 24

def exitCode (status : Nat) : Int32 :=
  if wifexited status then Int32.ofNat (wexitstatus status) else -1

def cpuMs (usage : Rusage) : Nat :=
  (usage.utimeSec * 1000000 + usage.utimeUsec + usage.stimeSec * 1000000 + usage.stimeUsec) / 1000

def timeMs (usage : Rusage) : Int32 := Int32.ofNat (cpuMs usage)

def memoryKb (usage : Rusage) : Int32 := Int32.ofNat usage.maxrss

variable (limits : SandboxLimits)

/-- `limits_.memory_limit_mb * 1024` -/
def memoryLimitKb : Int := limits.memoryLimitMb.toInt * 1024

/-- The result as far as it is filled in before the verdict. -/
def measured (o : Observed) : SandboxResult where
  stdoutOutput := o.stdoutData
  stderrOutput := o.stderrData
  exitCode := exitCode o.status
  timeMs := timeMs o.usage
  memoryKb := memoryKb o.usage

/-- The early returns: the verdict and the error message each of them sets. -/
def decision (o : Observed) (expectedOutput : Bytes) : Verdict × Bytes :=
  let result := measured o
  if o.timedOut then (.timeLimitExceeded, "Time limit exceeded")
  else if wifsignaled o.status then
    let sig := wtermsig o.status
    if sig = sigXcpu ∨ sig = sigKill then (.timeLimitExceeded, "Time limit exceeded (signal)")
    else if sig = sigSegv ∨ sig = sigAbrt then
      -- `memory_kb >= memory_limit_mb * 1024 * 0.9`, which is exact at these magnitudes
      if memoryLimitKb limits * 9 ≤ result.memoryKb.toInt * 10 then
        (.memoryLimitExceeded, "Memory limit exceeded")
      else (.runtimeError, bytes "Runtime error (signal " ++ decimal sig ++ bytes ")")
    else (.runtimeError, bytes "Killed by signal " ++ decimal sig)
  else if result.exitCode ≠ 0 then
    (.runtimeError, bytes "Non-zero exit code: " ++ decimal result.exitCode.toInt)
  else if memoryLimitKb limits < result.memoryKb.toInt then
    (.memoryLimitExceeded, "Memory limit exceeded")
  else if limits.timeLimitMs < result.timeMs then (.timeLimitExceeded, "Time limit exceeded")
  else if outputsMatch result.stdoutOutput expectedOutput then (.accepted, [])
  else (.wrongAnswer, [])

/-- `Sandbox::run` from `wait4` on. -/
def judge (o : Observed) (expectedOutput : Bytes) : SandboxResult :=
  { measured o with
    verdict := (decision limits o expectedOutput).1
    errorMessage := (decision limits o expectedOutput).2 }

/-- How a call of `Sandbox::run` that returns can go. -/
inductive RunOutcome where
  | pipeFailed
  | forkFailed
  | ended (o : Observed)
  deriving DecidableEq, Repr

def run (outcome : RunOutcome) (expectedOutput : Bytes) : SandboxResult :=
  match outcome with
  | .pipeFailed => { verdict := .internalError, errorMessage := "Failed to create pipes" }
  | .forkFailed => { verdict := .internalError, errorMessage := "fork() failed" }
  | .ended o => judge limits o expectedOutput

/-- The run did not time out, ended by `exit(0)` and is within both limits. -/
def Clean (o : Observed) : Prop :=
  o.timedOut = false ∧ wifsignaled o.status = false ∧ exitCode o.status = 0 ∧
    (memoryKb o.usage).toInt ≤ memoryLimitKb limits ∧ timeMs o.usage ≤ limits.timeLimitMs

instance (o : Observed) : Decidable (Clean limits o) := inferInstanceAs (Decidable (_ ∧ _))

variable {limits}

theorem exitCode_eq_zero_iff {status : Nat} :
    exitCode status = 0 ↔ wifexited status = true ∧ wexitstatus status = 0 := by
  unfold exitCode
  split
  · next h =>
    have hlt : wexitstatus status < 256 := Nat.mod_lt _ (by decide)
    rw [← Int32.toInt_inj, Int32.toInt_ofNat_of_lt (by omega)]
    simp [h]
  · next h => simp [h]

/-- **On a clean run the outputs decide**, and there is no error message. -/
theorem decision_of_clean {o : Observed} (h : Clean limits o) (expected : Bytes) :
    decision limits o expected =
      (if outputsMatch o.stdoutData expected then .accepted else .wrongAnswer, []) := by
  obtain ⟨h1, h2, h3, h4, h5⟩ := h
  simp only [decision, measured, h1, h2, h3, Int.not_lt.mpr h4, Int32.not_lt.mpr h5, ne_eq,
    not_true_eq_false, if_false, Bool.false_eq_true]
  split <;> rfl

/-- The three verdicts of a run that broke off, each with a message in plain ASCII. -/
def BrokeOff (d : Verdict × Bytes) : Prop :=
  (d.1 = .timeLimitExceeded ∨ d.1 = .memoryLimitExceeded ∨ d.1 = .runtimeError) ∧
    d.2 ≠ [] ∧ ValidUtf8 d.2

theorem brokeOff_of_text {v : Verdict} {s : String} {t : Bytes}
    (hv : v = .timeLimitExceeded ∨ v = .memoryLimitExceeded ∨ v = .runtimeError)
    (hs : bytes s ≠ [] ∧ ValidUtf8 (bytes s)) (ht : ValidUtf8 t) : BrokeOff (v, bytes s ++ t) :=
  ⟨hv, fun h => hs.1 (List.append_eq_nil_iff.mp h).1, (validUtf8_append hs.2 t).mpr ht⟩

/-- **Any other run breaks off with a message.** -/
theorem decision_of_not_clean {o : Observed} (h : ¬ Clean limits o) (expected : Bytes) :
    BrokeOff (decision limits o expected) := by
  simp only [decision]
  split
  · exact ⟨.inl rfl, by decide, by decide⟩
  next h1 =>
  split
  · split
    · exact ⟨.inl rfl, by decide, by decide⟩
    · split
      · split
        · exact ⟨.inr (.inl rfl), by decide, by decide⟩
        · rw [List.append_assoc]
          exact brokeOff_of_text (.inr (.inr rfl)) (by decide)
            ((validUtf8_append (validUtf8_decimal _) _).mpr (by decide))
      · exact brokeOff_of_text (.inr (.inr rfl)) (by decide) (validUtf8_decimal _)
  next h2 =>
  split
  · exact brokeOff_of_text (.inr (.inr rfl)) (by decide) (validUtf8_decimal _)
  next h3 =>
  split
  · exact ⟨.inr (.inl rfl), by decide, by decide⟩
  next h4 =>
  split
  · exact ⟨.inl rfl, by decide, by decide⟩
  next h5 =>
  exact absurd ⟨by simpa using h1, by simpa using h2, by simpa [measured] using h3, Int.not_lt.mp h4,
    Int32.not_lt.mp h5⟩ h

/-- **A run is accepted exactly when it is clean and its output matches.** -/
theorem judge_accepted_iff {o : Observed} {expected : Bytes} :
    (judge limits o expected).verdict = .accepted ↔
      Clean limits o ∧ outputsMatch o.stdoutData expected = true := by
  by_cases h : Clean limits o
  · simp [judge, decision_of_clean h expected, h]
  · have hb := (decision_of_not_clean h expected).1
    constructor
    · intro ha
      rw [show (decision limits o expected).1 = .accepted from ha] at hb
      simp at hb
    · exact fun hc => absurd hc.1 h

/-- **Every run ends with a terminal verdict**, whatever happened to the child. -/
theorem terminal_run (outcome : RunOutcome) (expected : Bytes) :
    (run limits outcome expected).verdict.Terminal := by
  cases outcome with
  | pipeFailed => rfl
  | forkFailed => rfl
  | ended o =>
    show (decision limits o expected).1.Terminal
    by_cases h : Clean limits o
    · rw [decision_of_clean h expected]
      split <;> rfl
    · rcases (decision_of_not_clean h expected).1 with hv | hv | hv <;> rw [hv] <;> rfl

/-! ### What decides -/

/-- The run did not time out and `exit(0)` ended it, with memory and CPU time within the
limits.  This is `Clean` in the words of the wait status. -/
def Within (limits : SandboxLimits) (o : Observed) : Prop :=
  o.timedOut = false ∧ (wifexited o.status = true ∧ wexitstatus o.status = 0) ∧
    (memoryKb o.usage).toInt ≤ memoryLimitKb limits ∧
    (timeMs o.usage).toInt ≤ limits.timeLimitMs.toInt

/-- An exited child was not killed, so `Clean` asks for no more. -/
theorem clean_iff {o : Observed} : Clean limits o ↔ Within limits o := by
  unfold Clean Within
  rw [exitCode_eq_zero_iff, Int32.le_iff_toInt_le]
  constructor
  · intro ⟨hintime, _, hexit, hmem, htime⟩
    exact ⟨hintime, hexit, hmem, htime⟩
  · intro ⟨hintime, hexit, hmem, htime⟩
    exact ⟨hintime, wifsignaled_eq_false hexit.1, hexit, hmem, htime⟩

theorem Within.mono {limits' : SandboxLimits} {o : Observed} (h : Within limits o)
    (htime : limits.timeLimitMs.toInt ≤ limits'.timeLimitMs.toInt)
    (hmem : limits.memoryLimitMb.toInt ≤ limits'.memoryLimitMb.toInt) : Within limits' o := by
  obtain ⟨hintime, hexit, hm, ht⟩ := h
  refine ⟨hintime, hexit, ?_, Int.le_trans ht htime⟩
  unfold memoryLimitKb at hm ⊢
  omega

theorem verdict_of_within {o : Observed} (h : Within limits o) (expected : Bytes) :
    (run limits (.ended o) expected).verdict =
      if outputsMatch o.stdoutData expected then .accepted else .wrongAnswer := by
  show (decision limits o expected).1 = _
  rw [decision_of_clean (clean_iff.mpr h) expected]

theorem brokeOff_of_not_within {o : Observed} (h : ¬ Within limits o) (expected : Bytes) :
    BrokeOff (decision limits o expected) :=
  decision_of_not_clean (fun hc => h (clean_iff.mp hc)) expected

/-- **What decides the verdict of a run.**  Within the limits it is the comparison of the
outputs, otherwise the run broke off and says so; and wider limits keep an accepted run
accepted. -/
theorem decided (limits : SandboxLimits) (o : Observed) (expected : Bytes) :
    ((run limits (.ended o) expected).verdict = .accepted ↔
      Within limits o ∧ outputsMatch o.stdoutData expected = true) ∧
    ((run limits (.ended o) expected).verdict = .wrongAnswer ↔
      Within limits o ∧ outputsMatch o.stdoutData expected = false) ∧
    (¬ Within limits o →
      ((run limits (.ended o) expected).verdict = .timeLimitExceeded ∨
        (run limits (.ended o) expected).verdict = .memoryLimitExceeded ∨
        (run limits (.ended o) expected).verdict = .runtimeError) ∧
      (run limits (.ended o) expected).errorMessage ≠ []) ∧
    ∀ limits' : SandboxLimits, limits.timeLimitMs.toInt ≤ limits'.timeLimitMs.toInt →
      limits.memoryLimitMb.toInt ≤ limits'.memoryLimitMb.toInt →
      (run limits (.ended o) expected).verdict = .accepted →
      (run limits' (.ended o) expected).verdict = .accepted := by
  have haccepted : ∀ l : SandboxLimits, (run l (.ended o) expected).verdict = .accepted ↔
      Within l o ∧ outputsMatch o.stdoutData expected = true := by
    intro l
    rw [← clean_iff]
    exact judge_accepted_iff
  refine ⟨haccepted limits, ?_, ?_, ?_⟩
  · constructor
    · intro hv
      by_cases h : Within limits o
      · rw [verdict_of_within h] at hv
        refine ⟨h, ?_⟩
        by_contra hout
        rw [if_pos (by simpa using hout)] at hv
        exact absurd hv (by decide)
      · have hb := (brokeOff_of_not_within h expected).1
        rw [show (decision limits o expected).1 = .wrongAnswer from hv] at hb
        simp at hb
    · intro ⟨h, hout⟩
      rw [verdict_of_within h, hout]
      rfl
  · intro h
    have hb := brokeOff_of_not_within h expected
    exact ⟨hb.1, hb.2.1⟩
  · intro limits' htime hmem hv
    obtain ⟨h, hout⟩ := (haccepted limits).mp hv
    exact (haccepted limits').mpr ⟨h.mono htime hmem, hout⟩

end Sandbox

end Ocpe
