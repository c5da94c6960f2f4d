import Ocpe.Sandbox.Compiler
import Ocpe.Sandbox.Runner
import Ocpe.Shared.ProblemLoader

/-!
# Evaluating a submission

`worker/src/evaluator.cpp`.  Everything outside the program that one evaluation
meets is a `Machine`: the files, whether the directory can be made and the
binary removed, how the compile command goes and how each run of the sandbox
goes.  The three calls that can throw are `getProblem`, `create_directories` and
`remove`.
-/

namespace Ocpe

open Lib

/-- `std::filesystem::path::operator/` -/
def pathAppend (p q : Bytes) : Bytes :=
  if q.head? = some 47 then q
  else if p = [] ∨ p.getLast? = some 47 then p ++ q
  else p ++ "/" ++ q

/-- The outside of one evaluation. -/
structure Machine where
  files : FileSys
  createDirectories : Bool
  exec : List Bytes → CompileRun
  outcomes : Nat → Sandbox.RunOutcome
  removeBinary : Bool

/-- One round of the loop over the test results. -/
def tallyOne (result : SubmissionResult) (tc : TestCaseResult) : SubmissionResult :=
  { result with
    passed := if tc.verdict = .accepted then result.passed + 1 else result.passed
    maxTimeMs := max result.maxTimeMs tc.timeMs
    maxMemoryKb := max result.maxMemoryKb tc.memoryKb }

def overallVerdict (result : SubmissionResult) (testResults : List TestCaseResult) : Verdict :=
  match testResults.getLast? with
  | none => .internalError
  | some back =>
    if result.passed = result.total then .accepted
    else if back.verdict = .pending then .wrongAnswer
    else back.verdict

/-- The part of `evaluate_submission` after a successful compile, but for the
removal of the binary. -/
def judgeTests (outcomes : Nat → Sandbox.RunOutcome) (problem : ProblemInfo)
    (testCases : List (Bytes × Bytes)) (result : SubmissionResult) : SubmissionResult :=
  let testResults := runAllTestCases outcomes testCases problem.timeLimitMs problem.memoryLimitMb
  let result := { result with
    total := Int32.ofNat testCases.length
    testResults
    passed := 0
    maxTimeMs := 0
    maxMemoryKb := 0 }
  let result := testResults.foldl tallyOne result
  { result with verdict := overallVerdict result testResults }

section

variable (F : JsonFormat) (problemsDir submissionsDir : Bytes) (m : Machine)

/-- What `compile_source` gives for the job's source in its work directory. -/
def compileJob (job : SubmissionJob) : CompileResult :=
  let language := normalizeLanguage job.language
  let workDir := pathAppend submissionsDir job.submissionId
  let sourcePath := pathAppend workDir ("main" ++ sourceExtension language)
  let binaryPath := pathAppend workDir "main"
  compileSource m.exec language sourcePath binaryPath

def evaluateSubmission (job : SubmissionJob) : Except Exn SubmissionResult := do
  let result : SubmissionResult :=
    { submissionId := job.submissionId
      problemId := job.problemId
      username := job.username
      language := normalizeLanguage job.language }
  match ← (getProblem m.files problemsDir F job.problemId).mapError Exn.json with
  | none => return { result with verdict := .internalError, compileOutput := "Problem not found" }
  | some problem =>
    if isSupportedLanguage result.language = false then
      return { result with
        verdict := .compilationError
        compileOutput := bytes "Unsupported language: " ++ job.language }
    else if m.createDirectories = false then throw .filesystemError
    else
      let compile := compileJob submissionsDir m job
      let result := { result with compileOutput := compile.output }
      if compile.success = false then
        return { result with verdict := .compilationError }
      else
        let testCases := loadTestCases m.files problemsDir job.problemId
        let result := judgeTests m.outcomes problem testCases result
        if result.language ≠ "python" ∧ m.removeBinary = false then throw .filesystemError
        else return result

end

/-! ### The tally -/

section Tally

variable (l : List TestCaseResult) (result : SubmissionResult)

def acceptedCount (l : List TestCaseResult) : Nat := l.countP fun tc => tc.verdict = .accepted

theorem foldl_tallyOne_passed :
    (l.foldl tallyOne result).passed = result.passed + Int32.ofNat (acceptedCount l) := by
  induction l generalizing result with
  | nil => simp [acceptedCount]
  | cons tc l ih =>
    rw [List.foldl_cons, ih]
    by_cases h : tc.verdict = .accepted
    · simp only [tallyOne, acceptedCount, h, if_true, List.countP_cons_of_pos, decide_true,
        Int32.ofNat_add]
      rw [Int32.add_assoc, Int32.add_comm (Int32.ofNat _) (Int32.ofNat 1)]
      rfl
    · simp [tallyOne, acceptedCount, h]

theorem foldl_tallyOne_frame :
    l.foldl tallyOne result =
      { result with
        passed := (l.foldl tallyOne result).passed
        maxTimeMs := (l.foldl tallyOne result).maxTimeMs
        maxMemoryKb := (l.foldl tallyOne result).maxMemoryKb } := by
  induction l generalizing result with
  | nil => rfl
  | cons tc l ih => rw [List.foldl_cons, ih]; rfl

end Tally

theorem acceptedCount_le (l : List TestCaseResult) : acceptedCount l ≤ l.length :=
  List.countP_le_length

theorem acceptedCount_eq_length {l : List TestCaseResult} :
    acceptedCount l = l.length ↔ ∀ tc ∈ l, tc.verdict = .accepted := by
  simp [acceptedCount, List.countP_eq_length]

section JudgeTests

variable {outcomes : Nat → Sandbox.RunOutcome} {problem : ProblemInfo}
  {testCases : List (Bytes × Bytes)} {result : SubmissionResult}

/-- The test results `judgeTests` works on. -/
abbrev testsOf (outcomes : Nat → Sandbox.RunOutcome) (problem : ProblemInfo)
    (testCases : List (Bytes × Bytes)) : List TestCaseResult :=
  runAllTestCases outcomes testCases problem.timeLimitMs problem.memoryLimitMb

theorem judgeTests_testResults :
    (judgeTests outcomes problem testCases result).testResults =
      testsOf outcomes problem testCases := by
  rw [judgeTests, foldl_tallyOne_frame]

theorem judgeTests_total :
    (judgeTests outcomes problem testCases result).total = Int32.ofNat testCases.length := by
  rw [judgeTests, foldl_tallyOne_frame]

theorem judgeTests_passed :
    (judgeTests outcomes problem testCases result).passed =
      Int32.ofNat (acceptedCount (testsOf outcomes problem testCases)) := by
  simp [judgeTests, foldl_tallyOne_passed]

variable (outcomes problem testCases result) in
theorem judgeTests_frame :
    (judgeTests outcomes problem testCases result).submissionId = result.submissionId ∧
      (judgeTests outcomes problem testCases result).problemId = result.problemId ∧
      (judgeTests outcomes problem testCases result).username = result.username ∧
      (judgeTests outcomes problem testCases result).language = result.language ∧
      (judgeTests outcomes problem testCases result).compileOutput = result.compileOutput := by
  rw [judgeTests, foldl_tallyOne_frame]
  exact ⟨rfl, rfl, rfl, rfl, rfl⟩

/-- Below `2 ^ 31` the counters compare as the numbers they count. -/
theorem passed_eq_total_iff (hlen : testCases.length ≤ 10000) :
    (judgeTests outcomes problem testCases result).passed =
        (judgeTests outcomes problem testCases result).total ↔
      ∀ tc ∈ testsOf outcomes problem testCases, tc.verdict = .accepted := by
  have hle := acceptedCount_le (testsOf outcomes problem testCases)
  rw [length_runAllTestCases] at hle
  rw [judgeTests_passed, judgeTests_total, ← acceptedCount_eq_length, length_runAllTestCases,
    ← Int32.toInt_inj, Int32.toInt_ofNat_of_lt (by omega), Int32.toInt_ofNat_of_lt (by omega),
    Int.ofNat_inj]

theorem passed_lt_total_iff (hlen : testCases.length ≤ 10000) :
    (judgeTests outcomes problem testCases result).passed <
        (judgeTests outcomes problem testCases result).total ↔
      ¬ ∀ tc ∈ testsOf outcomes problem testCases, tc.verdict = .accepted := by
  have hle := acceptedCount_le (testsOf outcomes problem testCases)
  rw [length_runAllTestCases] at hle
  rw [judgeTests_passed, judgeTests_total, ← acceptedCount_eq_length, length_runAllTestCases,
    Int32.lt_iff_toInt_lt, Int32.toInt_ofNat_of_lt (by omega), Int32.toInt_ofNat_of_lt (by omega)]
  omega

/-- **The overall verdict**: `INTERNAL_ERROR` without tests, `ACCEPTED` when all
are accepted, and otherwise the verdict of the *last* test. -/
theorem judgeTests_verdict (hlen : testCases.length ≤ 10000) :
    (judgeTests outcomes problem testCases result).verdict =
      match (testsOf outcomes problem testCases).getLast? with
      | none => .internalError
      | some back =>
        if ∀ tc ∈ testsOf outcomes problem testCases, tc.verdict = .accepted then .accepted
        else back.verdict := by
  have hv : (judgeTests outcomes problem testCases result).verdict =
      overallVerdict (judgeTests outcomes problem testCases result)
        (testsOf outcomes problem testCases) := rfl
  rw [hv, overallVerdict]
  cases hlast : (testsOf outcomes problem testCases).getLast? with
  | none => rfl
  | some back =>
    have hback : back.verdict ≠ .pending := fun h => by
      have ht := terminal_of_mem_runAllTestCases (List.mem_of_getLast? hlast)
      rw [h] at ht
      exact absurd ht (by decide)
    simp only [passed_eq_total_iff hlen, hback, if_false]

end JudgeTests

section Evaluate

variable {F : JsonFormat} {problemsDir submissionsDir : Bytes} {m : Machine} {job : SubmissionJob}

/-- The job's source compiles: the problem exists, the language is supported, the
work directory can be made and the compile command succeeds. -/
structure Compiles (F : JsonFormat) (problemsDir submissionsDir : Bytes) (m : Machine)
    (job : SubmissionJob) (problem : ProblemInfo) : Prop where
  found : getProblem m.files problemsDir F job.problemId = .ok (some problem)
  supported : isSupportedLanguage (normalizeLanguage job.language) = true
  createDirectories : m.createDirectories = true
  success : (compileJob submissionsDir m job).success = true

/-- The result with which a compiled job enters the tests. -/
def enteringTests (submissionsDir : Bytes) (m : Machine) (job : SubmissionJob) : SubmissionResult :=
  { submissionId := job.submissionId
    problemId := job.problemId
    username := job.username
    language := normalizeLanguage job.language
    compileOutput := (compileJob submissionsDir m job).output }

/-- **A compiled job is judged on its tests**, unless the binary cannot be removed. -/
theorem evaluateSubmission_of_compiles {problem : ProblemInfo}
    (h : Compiles F problemsDir submissionsDir m job problem) :
    evaluateSubmission F problemsDir submissionsDir m job =
      if normalizeLanguage job.language ≠ "python" ∧ m.removeBinary = false then
        .error .filesystemError
      else
        .ok (judgeTests m.outcomes problem (loadTestCases m.files problemsDir job.problemId)
          (enteringTests submissionsDir m job)) := by
  have hl := (judgeTests_frame m.outcomes problem
    (loadTestCases m.files problemsDir job.problemId) (enteringTests submissionsDir m job)).2.2.2.1
  simp only [enteringTests] at hl
  simp only [evaluateSubmission, h.found, Except.mapError, ok_bind, h.supported,
    h.createDirectories, h.success, Bool.true_eq_false, if_false, hl]
  rfl

theorem evaluateSubmission_not_found
    (h : getProblem m.files problemsDir F job.problemId = .ok none) :
    evaluateSubmission F problemsDir submissionsDir m job =
      .ok { submissionId := job.submissionId
            problemId := job.problemId
            username := job.username
            language := normalizeLanguage job.language
            verdict := .internalError
            compileOutput := "Problem not found" } := by
  rw [evaluateSubmission, h]
  rfl

theorem evaluateSubmission_not_compiled {problem : ProblemInfo}
    (hfound : getProblem m.files problemsDir F job.problemId = .ok (some problem))
    (hsupported : isSupportedLanguage (normalizeLanguage job.language) = true)
    (hdirs : m.createDirectories = true)
    (hsuccess : (compileJob submissionsDir m job).success = false) :
    evaluateSubmission F problemsDir submissionsDir m job =
      .ok { enteringTests submissionsDir m job with verdict := .compilationError } := by
  simp only [evaluateSubmission, hfound, Except.mapError, ok_bind, hsupported, hdirs, hsuccess,
    Bool.true_eq_false, if_false, if_true]
  rfl

/-- The result speaks of the job: it has its id, problem, user and language. -/
structure ResultOf (job : SubmissionJob) (result : SubmissionResult) : Prop where
  submissionId : result.submissionId = job.submissionId
  problemId : result.problemId = job.problemId
  username : result.username = job.username
  language : result.language = normalizeLanguage job.language

theorem judgeTests_terminal {outcomes : Nat → Sandbox.RunOutcome} {problem : ProblemInfo}
    {testCases : List (Bytes × Bytes)} {result : SubmissionResult}
    (hlen : testCases.length ≤ 10000) :
    (judgeTests outcomes problem testCases result).verdict.Terminal := by
  rw [judgeTests_verdict hlen]
  split
  · rfl
  · next back hlast =>
    split
    · rfl
    · exact terminal_of_mem_runAllTestCases (List.mem_of_getLast? hlast)

/-- **An early return**: what is returned of a job that does not compile has a verdict and an
output, and nothing of a test. -/
theorem evaluateSubmission_early {result : SubmissionResult}
    (hnot : ¬ ∃ problem, Compiles F problemsDir submissionsDir m job problem)
    (h : evaluateSubmission F problemsDir submissionsDir m job = .ok result) :
    ∃ verdict compileOutput, result =
      { submissionId := job.submissionId
        problemId := job.problemId
        username := job.username
        language := normalizeLanguage job.language
        verdict := verdict
        compileOutput := compileOutput } ∧ verdict.Terminal := by
  obtain ⟨found, hfound, h⟩ := bind_eq_ok.mp h
  cases found with
  | none =>
    cases h
    exact ⟨_, _, rfl, rfl⟩
  | some problem =>
    simp only at h
    split at h
    · cases h
      exact ⟨_, _, rfl, rfl⟩
    next hsupported =>
    split at h
    · cases h
    next hdirs =>
    split at h
    · cases h
      exact ⟨_, _, rfl, rfl⟩
    next hsuccess =>
    exact absurd ⟨problem, mapError_eq_ok.mp hfound, by simpa using hsupported,
      by simpa using hdirs, by simpa using hsuccess⟩ hnot

/-- **Whatever `evaluate_submission` returns speaks of its job and is terminal.** -/
theorem evaluateSubmission_ok {result : SubmissionResult}
    (h : evaluateSubmission F problemsDir submissionsDir m job = .ok result) :
    ResultOf job result ∧ result.verdict.Terminal := by
  by_cases hcompiles : ∃ problem, Compiles F problemsDir submissionsDir m job problem
  · obtain ⟨problem, hc⟩ := hcompiles
    rw [evaluateSubmission_of_compiles hc] at h
    split at h
    · cases h
    · cases h
      obtain ⟨h1, h2, h3, h4, -⟩ := judgeTests_frame m.outcomes problem
        (loadTestCases m.files problemsDir job.problemId) (enteringTests submissionsDir m job)
      exact ⟨⟨h1, h2, h3, h4⟩, judgeTests_terminal (length_loadTestCases ..)⟩
  · obtain ⟨verdict, compileOutput, rfl, hterminal⟩ := evaluateSubmission_early hcompiles h
    exact ⟨⟨rfl, rfl, rfl, rfl⟩, hterminal⟩

end Evaluate

end Ocpe
