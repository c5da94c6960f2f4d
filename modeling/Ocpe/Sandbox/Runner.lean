import Ocpe.Sandbox.Sandbox

/-!
# Running every test case

`sandbox/src/runner.cpp`.  The loop does not stop at a failed test, so there is one
result for each test case and the `i`-th one carries index `i`.  How the `i`-th
call of `Sandbox::run` goes is given by `outcomes i`.
-/

namespace Ocpe

open Lib

section

variable (limits : SandboxLimits) (outcomes : Nat → Sandbox.RunOutcome)

/-- The body of the loop. -/
def testCaseResult (i : Nat) (test : Bytes × Bytes) : TestCaseResult :=
  let sr := Sandbox.run limits (outcomes i) test.2
  { index := Int32.ofNat i
    verdict := sr.verdict
    timeMs := sr.timeMs
    memoryKb := sr.memoryKb
    expectedOutput := test.2
    actualOutput := sr.stdoutOutput
    errorMessage :=
      if sr.stderrOutput ≠ [] ∧ sr.errorMessage = [] then sr.stderrOutput else sr.errorMessage }

end

def runAllTestCases (outcomes : Nat → Sandbox.RunOutcome) (testCases : List (Bytes × Bytes))
    (timeLimitMs memoryLimitMb : Int32) : List TestCaseResult :=
  let limits : SandboxLimits := { timeLimitMs, memoryLimitMb }
  testCases.mapIdx (testCaseResult limits outcomes)

variable {outcomes : Nat → Sandbox.RunOutcome} {testCases : List (Bytes × Bytes)}
  {timeLimitMs memoryLimitMb : Int32}

@[simp] theorem length_runAllTestCases :
    (runAllTestCases outcomes testCases timeLimitMs memoryLimitMb).length = testCases.length := by
  simp [runAllTestCases]

theorem mem_runAllTestCases {tc : TestCaseResult}
    (h : tc ∈ runAllTestCases outcomes testCases timeLimitMs memoryLimitMb) :
    ∃ (i : Nat) (hi : i < testCases.length),
      tc = testCaseResult { timeLimitMs, memoryLimitMb } outcomes i testCases[i] := by
  obtain ⟨i, hi, rfl⟩ := List.mem_mapIdx.mp h
  exact ⟨i, hi, rfl⟩

/-- **Every test case ends with a terminal verdict.** -/
theorem terminal_of_mem_runAllTestCases {tc : TestCaseResult}
    (h : tc ∈ runAllTestCases outcomes testCases timeLimitMs memoryLimitMb) :
    tc.verdict.Terminal := by
  obtain ⟨i, hi, rfl⟩ := mem_runAllTestCases h
  exact Sandbox.terminal_run _ _

end Ocpe
