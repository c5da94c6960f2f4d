import Ocpe.Lib.JsonText
import Ocpe.Worker.Evaluator

/-!
# The overall verdict

`evaluate_submission` takes `ACCEPTED` when the count of accepted tests is the
number of tests, and otherwise the verdict of the last test
(`test_results.back()`).  Since the tests go on after a failure, the last one may
well be accepted.  `verdictFits_iff` says that this is the only thing that goes
wrong: the overall verdict fits the tests unless the last test is accepted and an
earlier one is not, and `rejected_then_accepted` is such a run.
-/

namespace Ocpe

open Lib

variable {F : JsonFormat} {problemsDir submissionsDir : Bytes} {m : Machine} {job : SubmissionJob}
  {problem : ProblemInfo} {result : SubmissionResult}

/-- The verdicts of the sandbox on the problem's test cases, in order. -/
def sandboxVerdicts (problemsDir : Bytes) (m : Machine) (job : SubmissionJob)
    (problem : ProblemInfo) : List Verdict :=
  (testsOf m.outcomes problem (loadTestCases m.files problemsDir job.problemId)).map (·.verdict)

/-- The overall verdict says what the test results say: `ACCEPTED` exactly when there
is a test and all are accepted, and with a failure the verdict of a failed test. -/
def VerdictFits (testCases : List (Bytes × Bytes)) (result : SubmissionResult) : Prop :=
  (result.verdict = .accepted ↔
    testCases ≠ [] ∧ ∀ tc ∈ result.testResults, tc.verdict = .accepted) ∧
  (result.passed < result.total →
    result.verdict ≠ .accepted ∧ ∃ tc ∈ result.testResults, tc.verdict = result.verdict)

/-- No test fails before an accepted last one. -/
def LastAcceptedIsAll (verdicts : List Verdict) : Prop :=
  verdicts.getLast? = some .accepted → ∀ v ∈ verdicts, v = .accepted

theorem verdictFits_judgeTests_iff {outcomes : Nat → Sandbox.RunOutcome}
    {testCases : List (Bytes × Bytes)} (hlen : testCases.length ≤ 10000) :
    VerdictFits testCases (judgeTests outcomes problem testCases result) ↔
      LastAcceptedIsAll ((testsOf outcomes problem testCases).map (·.verdict)) := by
  have hv := @judgeTests_verdict outcomes problem testCases result hlen
  have hlt := @passed_lt_total_iff outcomes problem testCases result hlen
  rw [VerdictFits, hlt, judgeTests_testResults, hv, LastAcceptedIsAll, List.getLast?_map,
    List.forall_mem_map]
  have hnil : testCases ≠ [] ↔ testsOf outcomes problem testCases ≠ [] := by
    rw [not_iff_not, ← List.length_eq_zero_iff, ← List.length_eq_zero_iff, length_runAllTestCases]
  rw [hnil]
  cases hlast : (testsOf outcomes problem testCases).getLast? with
  | none =>
    rw [List.getLast?_eq_none_iff] at hlast
    simp [hlast]
  | some back =>
    have hmem := List.mem_of_getLast? hlast
    have hne : testsOf outcomes problem testCases ≠ [] := List.ne_nil_of_mem hmem
    dsimp only [Option.map_some]
    by_cases hall : ∀ tc ∈ testsOf outcomes problem testCases, tc.verdict = .accepted
    · rw [if_pos hall]
      exact ⟨fun _ _ => hall, fun _ => ⟨iff_of_true rfl ⟨hne, hall⟩, fun hfail => absurd hall hfail⟩⟩
    · rw [if_neg hall]
      constructor
      · intro hfits hback
        exact absurd (Option.some.inj hback) (hfits.2 hall).1
      · intro hback
        have hrej : back.verdict ≠ .accepted := fun h => hall (hback (congrArg some h))
        exact ⟨iff_of_false hrej fun h => hall h.2, fun _ => ⟨hrej, back, hmem, rfl⟩⟩

/-- **When the overall verdict fits.**  For a job whose source compiles the verdict
says what the tests say exactly when the sandbox does not accept the last test
after rejecting an earlier one. -/
theorem verdictFits_iff (hc : Compiles F problemsDir submissionsDir m job problem)
    (h : evaluateSubmission F problemsDir submissionsDir m job = .ok result) :
    VerdictFits (loadTestCases m.files problemsDir job.problemId) result ↔
      LastAcceptedIsAll (sandboxVerdicts problemsDir m job problem) := by
  rw [evaluateSubmission_of_compiles hc] at h
  split at h
  · cases h
  · cases h
    exact verdictFits_judgeTests_iff (length_loadTestCases ..)

/-! ### A rejected test before an accepted one -/

def twoTests : FileSys := .ofFiles
  [("p/a/meta.json", bytes "\x7b\x7d"), ("p/a/tests/0.in", []), ("p/a/tests/0.out", "1"),
    ("p/a/tests/1.in", []), ("p/a/tests/1.out", "2")]

/-- A program that compiles, exits at once with code 0 and prints `2` every time. -/
def alwaysTwo : Machine where
  files := twoTests
  createDirectories := true
  exec _ := .exited 0 []
  outcomes _ := .ended ⟨false, "2", [], 0, {}⟩
  removeBinary := true

def jobOfA : SubmissionJob := { submissionId := "1f", problemId := "a", sourceCode := "x" }

def problemA : ProblemInfo := { id := "a", testCaseCount := 2 }

theorem compiles_alwaysTwo : Compiles jsonText "p" "s" alwaysTwo jobOfA problemA where
  found := rfl
  supported := rfl
  createDirectories := rfl
  success := rfl

theorem verdictFits_iff_alwaysTwo :
    VerdictFits (loadTestCases twoTests "p" "a")
        (judgeTests alwaysTwo.outcomes problemA (loadTestCases twoTests "p" "a")
          (enteringTests "s" alwaysTwo jobOfA)) ↔
      LastAcceptedIsAll (sandboxVerdicts "p" alwaysTwo jobOfA problemA) :=
  verdictFits_iff compiles_alwaysTwo (evaluateSubmission_of_compiles compiles_alwaysTwo)

/-- **The first test fails, the second is accepted, and so is the submission.** -/
theorem rejected_then_accepted :
    ∃ result, Compiles jsonText "p" "s" alwaysTwo jobOfA problemA ∧
      evaluateSubmission jsonText "p" "s" alwaysTwo jobOfA = .ok result ∧
      sandboxVerdicts "p" alwaysTwo jobOfA problemA = [.wrongAnswer, .accepted] ∧
      result.verdict = .accepted ∧ result.passed = 1 ∧ result.total = 2 ∧
      ¬ VerdictFits (loadTestCases twoTests "p" "a") result := by
  refine ⟨_, compiles_alwaysTwo, evaluateSubmission_of_compiles compiles_alwaysTwo, rfl, rfl, rfl,
    rfl, fun h => ?_⟩
  have hall := (h.1.mp rfl).2
  revert hall
  decide

end Ocpe
