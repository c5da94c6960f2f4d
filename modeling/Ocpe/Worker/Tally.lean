import Ocpe.Worker.OverallVerdict

/-!
# The accounts of a result

What `evaluate_submission` reports beside the verdict: one entry for each test case, in
order, the counts and the two maxima.  `tallied` says that they agree with each other
whenever it returns, and that every early return leaves them empty.

The two maxima start at 0 (`max_time_ms = 0`), and a measure is a `static_cast<int>` of a
`long`.  So what is reported is the greatest of 0 and the entries, not of the entries
alone: `wrapped_below_zero` is a run in which every entry is negative.
-/

namespace Ocpe

open Lib

/-- A result and its entries agree.  The maxima are taken over `start` and the entries. -/
structure Tallied (start : List Int32) (testCases : List (Bytes × Bytes))
    (result : SubmissionResult) : Prop where
  length : result.testResults.length = testCases.length
  entry : ∀ (i : Nat) (tc : TestCaseResult), result.testResults[i]? = some tc →
    tc.index.toInt = i ∧ testCases[i]?.map (·.2) = some tc.expectedOutput
  total : result.total.toInt = testCases.length
  passed : result.passed.toInt = acceptedCount result.testResults
  passed_le : result.passed ≤ result.total
  maxTimeMs : ∀ most ∈ (start ++ result.testResults.map (·.timeMs)).max?, result.maxTimeMs = most
  maxMemoryKb : ∀ most ∈ (start ++ result.testResults.map (·.memoryKb)).max?,
    result.maxMemoryKb = most

/-- There are no entries and the four counts are 0. -/
structure Untallied (result : SubmissionResult) : Prop where
  testResults : result.testResults = []
  total : result.total = 0
  passed : result.passed = 0
  maxTimeMs : result.maxTimeMs = 0
  maxMemoryKb : result.maxMemoryKb = 0

/-! ### The loop -/

section Loop

variable (l : List TestCaseResult) (result : SubmissionResult)

theorem foldl_tallyOne_maxTimeMs :
    (l.foldl tallyOne result).maxTimeMs = (l.map (·.timeMs)).foldl max result.maxTimeMs := by
  induction l generalizing result with
  | nil => rfl
  | cons tc l ih => rw [List.foldl_cons, ih]; rfl

theorem foldl_tallyOne_maxMemoryKb :
    (l.foldl tallyOne result).maxMemoryKb = (l.map (·.memoryKb)).foldl max result.maxMemoryKb := by
  induction l generalizing result with
  | nil => rfl
  | cons tc l ih => rw [List.foldl_cons, ih]; rfl

end Loop

section JudgeTests

variable {outcomes : Nat → Sandbox.RunOutcome} {problem : ProblemInfo}
  {testCases : List (Bytes × Bytes)} {result : SubmissionResult}

theorem judgeTests_maxTimeMs :
    (0 :: (testsOf outcomes problem testCases).map (·.timeMs)).max? =
      some (judgeTests outcomes problem testCases result).maxTimeMs := by
  show _ = some (List.foldl tallyOne _ _).maxTimeMs
  rw [List.max?_cons', foldl_tallyOne_maxTimeMs]

theorem judgeTests_maxMemoryKb :
    (0 :: (testsOf outcomes problem testCases).map (·.memoryKb)).max? =
      some (judgeTests outcomes problem testCases result).maxMemoryKb := by
  show _ = some (List.foldl tallyOne _ _).maxMemoryKb
  rw [List.max?_cons', foldl_tallyOne_maxMemoryKb]

theorem testsOf_getElem? {i : Nat} {tc : TestCaseResult}
    (h : (testsOf outcomes problem testCases)[i]? = some tc) :
    i < testCases.length ∧ tc.index = Int32.ofNat i ∧
      testCases[i]?.map (·.2) = some tc.expectedOutput := by
  rw [testsOf, runAllTestCases, List.getElem?_mapIdx, Option.map_eq_some_iff] at h
  obtain ⟨test, htest, htc⟩ := h
  refine ⟨(List.getElem?_eq_some_iff.mp htest).1, ?_, ?_⟩
  · rw [← htc]; rfl
  · rw [htest, ← htc]; rfl

/-- **The accounts of the tests**, below the number of tests a problem can have. -/
theorem tallied_judgeTests (hlen : testCases.length ≤ 10000) :
    Tallied [0] testCases (judgeTests outcomes problem testCases result) := by
  have hcount := acceptedCount_le (testsOf outcomes problem testCases)
  rw [length_runAllTestCases] at hcount
  have hpassed : (judgeTests outcomes problem testCases result).passed.toInt =
      acceptedCount (testsOf outcomes problem testCases) := by
    rw [judgeTests_passed, Int32.toInt_ofNat_of_lt (by omega)]
  have htotal : (judgeTests outcomes problem testCases result).total.toInt =
      testCases.length := by
    rw [judgeTests_total, Int32.toInt_ofNat_of_lt (by omega)]
  refine ⟨?_, ?_, htotal, ?_, ?_, ?_, ?_⟩
  · rw [judgeTests_testResults, length_runAllTestCases]
  · intro i tc h
    rw [judgeTests_testResults] at h
    obtain ⟨hi, hindex, hexpected⟩ := testsOf_getElem? h
    rw [hindex, Int32.toInt_ofNat_of_lt (by omega)]
    exact ⟨rfl, hexpected⟩
  · rw [judgeTests_testResults, hpassed]
  · rw [Int32.le_iff_toInt_le, hpassed, htotal]
    omega
  · intro most hmost
    rw [judgeTests_testResults, List.singleton_append, judgeTests_maxTimeMs] at hmost
    exact Option.some.inj hmost
  · intro most hmost
    rw [judgeTests_testResults, List.singleton_append, judgeTests_maxMemoryKb] at hmost
    exact Option.some.inj hmost

end JudgeTests

/-! ### Every return -/

variable {F : JsonFormat} {problemsDir submissionsDir : Bytes} {m : Machine} {job : SubmissionJob}
  {result : SubmissionResult}

theorem untallied_of_not_compiles
    (hnot : ¬ ∃ problem, Compiles F problemsDir submissionsDir m job problem)
    (h : evaluateSubmission F problemsDir submissionsDir m job = .ok result) :
    Untallied result := by
  obtain ⟨verdict, compileOutput, rfl, -⟩ := evaluateSubmission_early hnot h
  exact ⟨rfl, rfl, rfl, rfl, rfl⟩

/-- **Whatever `evaluate_submission` returns is terminal and its accounts are
consistent.** -/
theorem tallied (h : evaluateSubmission F problemsDir submissionsDir m job = .ok result) :
    result.verdict.Terminal ∧
    ((∃ problem, Compiles F problemsDir submissionsDir m job problem) →
      Tallied [0] (loadTestCases m.files problemsDir job.problemId) result) ∧
    ((¬ ∃ problem, Compiles F problemsDir submissionsDir m job problem) → Untallied result) := by
  refine ⟨(evaluateSubmission_ok h).2, ?_, fun hnot => untallied_of_not_compiles hnot h⟩
  intro ⟨problem, hc⟩
  rw [evaluateSubmission_of_compiles hc] at h
  split at h
  · cases h
  · cases h
    exact tallied_judgeTests (length_loadTestCases ..)

theorem tallied_alwaysTwo :
    ∃ result, evaluateSubmission jsonText "p" "s" alwaysTwo jobOfA = .ok result ∧
      result.verdict.Terminal ∧ Tallied [0] (loadTestCases twoTests "p" "a") result := by
  have h := evaluateSubmission_of_compiles compiles_alwaysTwo
  exact ⟨_, h, (tallied h).1, (tallied h).2.1 ⟨_, compiles_alwaysTwo⟩⟩

/-- A program whose processes use 2147484 seconds of CPU time between them before each
run is killed at its deadline. -/
def burnsAll : Machine :=
  { alwaysTwo with outcomes := fun _ => .ended ⟨true, [], [], 9, { utimeSec := 2147484 }⟩ }

theorem compiles_burnsAll : Compiles jsonText "p" "s" burnsAll jobOfA problemA :=
  ⟨rfl, rfl, rfl, rfl⟩

/-- **Every entry is below zero, and the reported maximum is not among them.** -/
theorem wrapped_below_zero :
    ∃ result, Compiles jsonText "p" "s" burnsAll jobOfA problemA ∧
      evaluateSubmission jsonText "p" "s" burnsAll jobOfA = .ok result ∧
      result.testResults.map (·.timeMs) = [-2147483296, -2147483296] ∧ result.maxTimeMs = 0 ∧
      ¬ Tallied [] (loadTestCases twoTests "p" "a") result := by
  refine ⟨_, compiles_burnsAll, evaluateSubmission_of_compiles compiles_burnsAll, rfl, rfl, ?_⟩
  intro h
  exact absurd (h.maxTimeMs (-2147483296) rfl) (by decide)

end Ocpe
