import Ocpe.Lib.JsonText
import Ocpe.Shared.Submission

/-!
# The JSON encodings

`shared/src/json_utils.cpp`: each record is written field by field and read back
field by field, with a default for every key that is missing.

The encoders come in two steps, the value and its text; only the second can
throw, on a string that is not UTF-8.  For each record three facts are proved
about the value: it is `Plain`, it is UTF-8 exactly when the record's strings
are, and the reader undoes the writer.  `jobFromJson_toJson` and
`resultFromJson_toJson` carry the last one over to the text, and
`decode_encode` says it of all three records.
-/

namespace Ocpe

open Lib

/-- What the C++ code throws. -/
inductive Exn where
  | json (e : JsonError)
  | filesystemError
  deriving DecidableEq, Repr

def submissionJobJson (job : SubmissionJob) : Json :=
  Json.null
    |>.set "submission_id" (.str job.submissionId)
    |>.set "problem_id" (.str job.problemId)
    |>.set "source_code" (.str job.sourceCode)
    |>.set "language" (.str job.language)
    |>.set "username" (.str job.username)

def submissionJobOfJson (j : Json) : Except JsonError SubmissionJob := do
  let submissionId ← j.valueStr "submission_id" ""
  let problemId ← j.valueStr "problem_id" ""
  let sourceCode ← j.valueStr "source_code" ""
  let language ← j.valueStr "language" "c"
  let username ← j.valueStr "username" ""
  return { submissionId, problemId, sourceCode, language, username }

def testCaseResultToJson (tc : TestCaseResult) : Json :=
  Json.null
    |>.set "index" (.int tc.index.toInt)
    |>.set "verdict" (.str (verdictToString tc.verdict))
    |>.set "time_ms" (.int tc.timeMs.toInt)
    |>.set "memory_kb" (.int tc.memoryKb.toInt)
    |>.set "expected_output" (.str tc.expectedOutput)
    |>.set "actual_output" (.str tc.actualOutput)
    |>.set "error_message" (.str tc.errorMessage)

def testCaseResultFromJson (j : Json) : Except JsonError TestCaseResult := do
  let index ← j.valueInt "index" 0
  let verdict := verdictFromString (← j.valueStr "verdict" "PENDING")
  let timeMs ← j.valueInt "time_ms" 0
  let memoryKb ← j.valueInt "memory_kb" 0
  let expectedOutput ← j.valueStr "expected_output" ""
  let actualOutput ← j.valueStr "actual_output" ""
  let errorMessage ← j.valueStr "error_message" ""
  return { index, verdict, timeMs, memoryKb, expectedOutput, actualOutput, errorMessage }

def submissionResultJson (result : SubmissionResult) : Json :=
  Json.null
    |>.set "submission_id" (.str result.submissionId)
    |>.set "problem_id" (.str result.problemId)
    |>.set "username" (.str result.username)
    |>.set "language" (.str result.language)
    |>.set "verdict" (.str (verdictToString result.verdict))
    |>.set "passed" (.int result.passed.toInt)
    |>.set "total" (.int result.total.toInt)
    |>.set "max_time_ms" (.int result.maxTimeMs.toInt)
    |>.set "max_memory_kb" (.int result.maxMemoryKb.toInt)
    |>.set "compile_output" (.str result.compileOutput)
    |>.set "test_results" (.arr (result.testResults.map testCaseResultToJson))

def submissionResultOfJson (j : Json) : Except JsonError SubmissionResult := do
  let submissionId ← j.valueStr "submission_id" ""
  let problemId ← j.valueStr "problem_id" ""
  let username ← j.valueStr "username" ""
  let language ← j.valueStr "language" "c"
  let verdict := verdictFromString (← j.valueStr "verdict" "PENDING")
  let passed ← j.valueInt "passed" 0
  let total ← j.valueInt "total" 0
  let maxTimeMs ← j.valueInt "max_time_ms" 0
  let maxMemoryKb ← j.valueInt "max_memory_kb" 0
  let compileOutput ← j.valueStr "compile_output" ""
  let testResults ← match j.find? "test_results" with
    | some (.arr l) => l.mapM testCaseResultFromJson
    | _ => pure []
  return { submissionId, problemId, username, language, verdict, passed, total, maxTimeMs,
           maxMemoryKb, compileOutput, testResults }

def problemInfoJson (problem : ProblemInfo) : Json :=
  Json.null
    |>.set "id" (.str problem.id)
    |>.set "title" (.str problem.title)
    |>.set "description" (.str problem.description)
    |>.set "time_limit_ms" (.int problem.timeLimitMs.toInt)
    |>.set "memory_limit_mb" (.int problem.memoryLimitMb.toInt)
    |>.set "test_case_count" (.int problem.testCaseCount.toInt)

def problemInfoOfJson (j : Json) : Except JsonError ProblemInfo := do
  let id ← j.valueStr "id" ""
  let title ← j.valueStr "title" ""
  let description ← j.valueStr "description" ""
  let timeLimitMs ← j.valueInt "time_limit_ms" 2000
  let memoryLimitMb ← j.valueInt "memory_limit_mb" 256
  let testCaseCount ← j.valueInt "test_case_count" 0
  return { id, title, description, timeLimitMs, memoryLimitMb, testCaseCount }

section Text

variable (F : JsonFormat)

def submissionJobToJson (job : SubmissionJob) : Except JsonError Bytes :=
  F.dumpText (submissionJobJson job)

def submissionJobFromJson (json : Bytes) : Except JsonError SubmissionJob := do
  submissionJobOfJson (← F.parseText json)

def submissionResultToJson (result : SubmissionResult) : Except JsonError Bytes :=
  F.dumpText (submissionResultJson result)

def submissionResultFromJson (json : Bytes) : Except JsonError SubmissionResult := do
  submissionResultOfJson (← F.parseText json)

def problemInfoToJson (problem : ProblemInfo) : Except JsonError Bytes :=
  F.dumpText (problemInfoJson problem)

def problemInfoFromJson (json : Bytes) : Except JsonError ProblemInfo := do
  problemInfoOfJson (← F.parseText json)

end Text

/-! ### Reading what was written -/

theorem submissionJobOfJson_json (job : SubmissionJob) :
    submissionJobOfJson (submissionJobJson job) = .ok job := by
  simp +decide [submissionJobOfJson, submissionJobJson, Json.value, Json.asString]

theorem testCaseResultFromJson_toJson (tc : TestCaseResult) :
    testCaseResultFromJson (testCaseResultToJson tc) = .ok tc := by
  simp +decide [testCaseResultFromJson, testCaseResultToJson, Json.value, Json.asString,
    Json.asInt]

theorem mapM_testCaseResultFromJson (l : List TestCaseResult) :
    l.mapM (testCaseResultFromJson ∘ testCaseResultToJson) = .ok l := by
  induction l with
  | nil => rfl
  | cons tc l ih =>
    rw [List.mapM_cons, Function.comp_apply, testCaseResultFromJson_toJson, ih]
    rfl

theorem submissionResultOfJson_json (result : SubmissionResult) :
    submissionResultOfJson (submissionResultJson result) = .ok result := by
  simp +decide [submissionResultOfJson, submissionResultJson, Json.value, Json.asString,
    Json.asInt, mapM_testCaseResultFromJson]

theorem problemInfoOfJson_json (problem : ProblemInfo) :
    problemInfoOfJson (problemInfoJson problem) = .ok problem := by
  simp +decide [problemInfoOfJson, problemInfoJson, Json.value, Json.asString, Json.asInt]

/-! ### What can be written -/

theorem plain_submissionJobJson (job : SubmissionJob) : (submissionJobJson job).Plain := by
  unfold submissionJobJson
  repeat' apply plain_set
  all_goals simp

theorem plain_testCaseResultToJson (tc : TestCaseResult) : (testCaseResultToJson tc).Plain := by
  unfold testCaseResultToJson
  repeat' apply plain_set
  all_goals simp

theorem plain_submissionResultJson (result : SubmissionResult) :
    (submissionResultJson result).Plain := by
  unfold submissionResultJson
  repeat' apply plain_set
  all_goals simp [plain_testCaseResultToJson]

theorem plain_problemInfoJson (problem : ProblemInfo) : (problemInfoJson problem).Plain := by
  unfold problemInfoJson
  repeat' apply plain_set
  all_goals simp

def SubmissionJob.Utf8 (job : SubmissionJob) : Prop :=
  ValidUtf8 job.submissionId ∧ ValidUtf8 job.problemId ∧ ValidUtf8 job.sourceCode ∧
    ValidUtf8 job.language ∧ ValidUtf8 job.username

def TestCaseResult.Utf8 (tc : TestCaseResult) : Prop :=
  ValidUtf8 tc.expectedOutput ∧ ValidUtf8 tc.actualOutput ∧ ValidUtf8 tc.errorMessage

def SubmissionResult.Utf8 (result : SubmissionResult) : Prop :=
  ValidUtf8 result.submissionId ∧ ValidUtf8 result.problemId ∧ ValidUtf8 result.username ∧
    ValidUtf8 result.language ∧ ValidUtf8 result.compileOutput ∧
    ∀ tc ∈ result.testResults, tc.Utf8

def ProblemInfo.Utf8 (problem : ProblemInfo) : Prop :=
  ValidUtf8 problem.id ∧ ValidUtf8 problem.title ∧ ValidUtf8 problem.description

theorem utf8_submissionJobJson (job : SubmissionJob) : (submissionJobJson job).Utf8 ↔ job.Utf8 := by
  simp +decide [submissionJobJson, utf8_objSet_iff, SubmissionJob.Utf8]
  tauto

theorem utf8_testCaseResultToJson (tc : TestCaseResult) :
    (testCaseResultToJson tc).Utf8 ↔ tc.Utf8 := by
  simp +decide [testCaseResultToJson, utf8_objSet_iff, TestCaseResult.Utf8,
    validUtf8_verdictToString]
  tauto

/-- **A result can be written exactly when all its strings are UTF-8.** -/
theorem utf8_submissionResultJson (result : SubmissionResult) :
    (submissionResultJson result).Utf8 ↔ result.Utf8 := by
  simp +decide [submissionResultJson, utf8_objSet_iff, SubmissionResult.Utf8,
    validUtf8_verdictToString, utf8_testCaseResultToJson]
  tauto

theorem utf8_problemInfoJson (problem : ProblemInfo) :
    (problemInfoJson problem).Utf8 ↔ problem.Utf8 := by
  simp +decide [problemInfoJson, utf8_objSet_iff, ProblemInfo.Utf8]
  tauto

/-! ### The text -/

/-- **Decoding undoes encoding**, on every record whose strings are UTF-8. -/
theorem decode_encode (F : JsonFormat) :
    (∀ job : SubmissionJob, job.Utf8 →
      (submissionJobToJson F job >>= submissionJobFromJson F) = .ok job) ∧
    (∀ result : SubmissionResult, result.Utf8 →
      (submissionResultToJson F result >>= submissionResultFromJson F) = .ok result) ∧
    ∀ problem : ProblemInfo, problem.Utf8 →
      (problemInfoToJson F problem >>= problemInfoFromJson F) = .ok problem := by
  refine ⟨?_, ?_, ?_⟩
  · intro job hjob
    exact F.read_text (plain_submissionJobJson job) ((utf8_submissionJobJson job).mpr hjob)
      (submissionJobOfJson_json job)
  · intro result hresult
    exact F.read_text (plain_submissionResultJson result)
      ((utf8_submissionResultJson result).mpr hresult) (submissionResultOfJson_json result)
  · intro problem hproblem
    exact F.read_text (plain_problemInfoJson problem) ((utf8_problemInfoJson problem).mpr hproblem)
      (problemInfoOfJson_json problem)

/-- A rejected test whose output has a NUL, a quote, a newline and a backslash in it. -/
def hostileTest : TestCaseResult where
  index := 1
  verdict := .wrongAnswer
  timeMs := -2147483648
  expectedOutput := [195, 169]
  actualOutput := [0, 34, 10, 92, 195, 169]

def hostileResult : SubmissionResult where
  submissionId := [34, 0]
  verdict := .wrongAnswer
  total := 2
  testResults := [{ verdict := .accepted }, hostileTest]

theorem hostileResult_utf8 : hostileResult.Utf8 := by
  refine ⟨by decide, by decide, by decide, by decide, by decide, ?_⟩
  intro tc htc
  rcases List.mem_cons.mp htc with h | h
  · rw [h]
    exact ⟨by decide, by decide, by decide⟩
  · rw [List.mem_singleton.mp h]
    exact ⟨by decide, by decide, by decide⟩

theorem decode_encode_hostile :
    (submissionResultToJson jsonText hostileResult >>= submissionResultFromJson jsonText) =
      .ok hostileResult :=
  (decode_encode jsonText).2.1 hostileResult hostileResult_utf8

variable {F : JsonFormat}

/-- **What the queue holds for a job reads back as that job.** -/
theorem jobFromJson_toJson {job : SubmissionJob} {b : Bytes}
    (h : submissionJobToJson F job = .ok b) : submissionJobFromJson F b = .ok job := by
  rw [submissionJobFromJson, F.parseText_dumpText (plain_submissionJobJson job) h, ok_bind,
    submissionJobOfJson_json]

/-- **What is stored for a result reads back as that result.** -/
theorem resultFromJson_toJson {result : SubmissionResult} {b : Bytes}
    (h : submissionResultToJson F result = .ok b) : submissionResultFromJson F b = .ok result := by
  rw [submissionResultFromJson, F.parseText_dumpText (plain_submissionResultJson result) h,
    ok_bind, submissionResultOfJson_json]

theorem jobToJson_isOk {job : SubmissionJob} : (submissionJobToJson F job).isOk = true ↔ job.Utf8 := by
  rw [submissionJobToJson, F.dumpText_isOk, utf8_submissionJobJson]

theorem resultToJson_isOk {result : SubmissionResult} :
    (submissionResultToJson F result).isOk = true ↔ result.Utf8 := by
  rw [submissionResultToJson, F.dumpText_isOk, utf8_submissionResultJson]

/-! ### What was read can be written -/

theorem utf8_testCaseResultFromJson {j : Json} {tc : TestCaseResult} (hj : j.Utf8)
    (h : testCaseResultFromJson j = .ok tc) : tc.Utf8 := by
  unfold testCaseResultFromJson at h
  obtain ⟨index, -, h⟩ := bind_eq_ok.mp h
  obtain ⟨verdict, -, h⟩ := bind_eq_ok.mp h
  obtain ⟨timeMs, -, h⟩ := bind_eq_ok.mp h
  obtain ⟨memoryKb, -, h⟩ := bind_eq_ok.mp h
  obtain ⟨expected, hexpected, h⟩ := bind_eq_ok.mp h
  obtain ⟨actual, hactual, h⟩ := bind_eq_ok.mp h
  obtain ⟨message, hmessage, h⟩ := bind_eq_ok.mp h
  cases h
  exact ⟨utf8_valueStr hj (by decide) hexpected, utf8_valueStr hj (by decide) hactual,
    utf8_valueStr hj (by decide) hmessage⟩

theorem utf8_testCaseResults {l : List Json} {tcs : List TestCaseResult} (hl : ∀ j ∈ l, j.Utf8)
    (h : l.mapM testCaseResultFromJson = .ok tcs) : ∀ tc ∈ tcs, tc.Utf8 := by
  induction l generalizing tcs with
  | nil =>
    cases h
    exact fun tc htc => nomatch htc
  | cons j l ih =>
    rw [List.mapM_cons] at h
    obtain ⟨tc, htc, h⟩ := bind_eq_ok.mp h
    obtain ⟨rest, hrest, h⟩ := bind_eq_ok.mp h
    cases h
    refine List.forall_mem_cons.mpr ⟨utf8_testCaseResultFromJson (hl j List.mem_cons_self) htc, ?_⟩
    exact ih (fun j hj => hl j (List.mem_cons_of_mem _ hj)) hrest

/-- **A result that was read from text can be written.** -/
theorem utf8_resultFromJson {text : Bytes} {result : SubmissionResult}
    (h : submissionResultFromJson F text = .ok result) : result.Utf8 := by
  unfold submissionResultFromJson at h
  obtain ⟨j, hparse, h⟩ := bind_eq_ok.mp h
  have hj : j.Utf8 := by
    unfold JsonFormat.parseText at hparse
    split at hparse
    · next j' hj' => cases hparse; exact F.parse_utf8 _ _ hj'
    · cases hparse
  unfold submissionResultOfJson at h
  obtain ⟨submissionId, hid, h⟩ := bind_eq_ok.mp h
  obtain ⟨problemId, hproblem, h⟩ := bind_eq_ok.mp h
  obtain ⟨username, husername, h⟩ := bind_eq_ok.mp h
  obtain ⟨language, hlanguage, h⟩ := bind_eq_ok.mp h
  obtain ⟨verdict, -, h⟩ := bind_eq_ok.mp h
  obtain ⟨passed, -, h⟩ := bind_eq_ok.mp h
  obtain ⟨total, -, h⟩ := bind_eq_ok.mp h
  obtain ⟨maxTimeMs, -, h⟩ := bind_eq_ok.mp h
  obtain ⟨maxMemoryKb, -, h⟩ := bind_eq_ok.mp h
  obtain ⟨output, houtput, h⟩ := bind_eq_ok.mp h
  have strings : ∀ {tests : List TestCaseResult}, (∀ tc ∈ tests, tc.Utf8) →
      SubmissionResult.Utf8 ⟨submissionId, problemId, username, language, verdictFromString verdict,
        passed, total, maxTimeMs, maxMemoryKb, output, tests⟩ := fun htests =>
    ⟨utf8_valueStr hj (by decide) hid, utf8_valueStr hj (by decide) hproblem,
      utf8_valueStr hj (by decide) husername, utf8_valueStr hj (by decide) hlanguage,
      utf8_valueStr hj (by decide) houtput, htests⟩
  dsimp only at h
  split at h
  · next l hl =>
    obtain ⟨tests, htests, h⟩ := bind_eq_ok.mp h
    cases h
    exact strings (utf8_testCaseResults (utf8_arr.mp (utf8_find? hj hl)) htests)
  · cases h
    exact strings fun tc htc => nomatch htc

end Ocpe
