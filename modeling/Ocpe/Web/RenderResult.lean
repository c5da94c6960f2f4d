import Ocpe.Shared.JsonUtils

/-!
# What the page shows of a result

`renderResult` of `web/app.js`, on the JSON that `GET /submissions/:id` answers: a result, a
status, or an error, which has no verdict.  What is shown are the holes of the HTML
templates; a property that an object does not have is `none`.

* `ofJson_result`, `ofJson_status`, `ofJson_error`: what the page reads in the JSON of the API.
* `terminal_iff`: the page stops polling at the verdicts at which a submission stops.
* `renderDetails_lines`: of many tests the first ten and the last five are shown.
-/

namespace Ocpe.Web

open Lib

structure TestCase where
  index : Int
  verdict : Bytes
  timeMs : Int
  memoryKb : Int
  errorMessage : Option Bytes
  deriving DecidableEq, Repr

/-- The properties of `data` that `renderResult` reads. -/
structure Data where
  verdict : Option Bytes := none
  language : Option Bytes := none
  passed : Option Int := none
  total : Option Int := none
  maxTimeMs : Option Int := none
  maxMemoryKb : Option Int := none
  compileOutput : Option Bytes := none
  testResults : Option (List TestCase) := none
  deriving DecidableEq, Repr

def text? : Json → Option Bytes
  | .str s => some s
  | _ => none

def number? : Json → Option Int
  | .int n => some n
  | _ => none

/-- A test case, if it has the properties of one. -/
def TestCase.ofJson (tc : Json) : Option TestCase := do
  let index ← (tc.find? "index").bind number?
  let verdict ← (tc.find? "verdict").bind text?
  let timeMs ← (tc.find? "time_ms").bind number?
  let memoryKb ← (tc.find? "memory_kb").bind number?
  return { index, verdict, timeMs, memoryKb, errorMessage := (tc.find? "error_message").bind text? }

/-- What the page reads in the JSON, if the tests are a list of test cases. -/
def Data.ofJson (data : Json) : Option Data := do
  let testResults ← match data.find? "test_results" with
    | none => some none
    | some (.arr l) => (l.mapM TestCase.ofJson).map some
    | some _ => none
  return {
    verdict := (data.find? "verdict").bind text?
    language := (data.find? "language").bind text?
    passed := (data.find? "passed").bind number?
    total := (data.find? "total").bind number?
    maxTimeMs := (data.find? "max_time_ms").bind number?
    maxMemoryKb := (data.find? "max_memory_kb").bind number?
    compileOutput := (data.find? "compile_output").bind text?
    testResults }

/-- A text that is neither missing nor empty. -/
def truthy : Option Bytes → Option Bytes
  | some (b :: s) => some (b :: s)
  | _ => none

/-- The three boxes. -/
structure Stats where
  passed : Int
  total : Option Int
  maxTimeMs : Int
  maxMemoryKb : Int
  deriving DecidableEq, Repr

/-- `result-summary` -/
structure Summary where
  verdict : Bytes
  language : Option Bytes
  stats : Option Stats
  compileOutput : Option Bytes
  deriving DecidableEq, Repr

/-- A test case of `result-details`; a test that was passed has no message. -/
structure Line where
  number : Int
  verdict : Bytes
  timeMs : Int
  memoryKb : Int
  message : Option Bytes
  deriving DecidableEq, Repr

/-- `result-details`, with the number of all tests where not all are shown. -/
structure Details where
  showing15Of : Option Nat
  lines : List Line
  deriving DecidableEq, Repr

def renderSummary (data : Data) : Summary where
  verdict := (truthy data.verdict).getD "PENDING"
  language := truthy data.language
  stats := data.passed.map fun passed =>
    ⟨passed, data.total, data.maxTimeMs.getD 0, data.maxMemoryKb.getD 0⟩
  compileOutput := truthy data.compileOutput

def renderTestCase (tc : TestCase) : Line where
  number := tc.index + 1
  verdict := tc.verdict
  timeMs := tc.timeMs
  memoryKb := tc.memoryKb
  message := if tc.verdict = "ACCEPTED" then none else some (tc.errorMessage.getD "")

def shownTests (tests : List TestCase) : List TestCase :=
  if 20 < tests.length then tests.take 10 ++ tests.drop (tests.length - 5) else tests

def renderDetails (data : Data) : Option Details :=
  match data.testResults with
  | none | some [] => none
  | some tests =>
    some ⟨if 20 < tests.length then some tests.length else none, (shownTests tests).map renderTestCase⟩

def terminalVerdicts : List Bytes :=
  ["ACCEPTED", "WRONG_ANSWER", "TIME_LIMIT_EXCEEDED", "MEMORY_LIMIT_EXCEEDED", "RUNTIME_ERROR",
    "COMPILATION_ERROR", "INTERNAL_ERROR"]

/-- `terminal.includes(data.verdict)` -/
def Data.terminal (data : Data) : Bool := data.verdict.any fun v => terminalVerdicts.contains v

/-! ### The JSON of the API -/

def TestCase.ofResult (tc : TestCaseResult) : TestCase where
  index := tc.index.toInt
  verdict := verdictToString tc.verdict
  timeMs := tc.timeMs.toInt
  memoryKb := tc.memoryKb.toInt
  errorMessage := some tc.errorMessage

theorem testCase_ofJson (tc : TestCaseResult) :
    TestCase.ofJson (testCaseResultToJson tc) = some (.ofResult tc) := by
  simp +decide [TestCase.ofJson, testCaseResultToJson, TestCase.ofResult, text?, number?]

theorem mapM_testCase (tests : List TestCaseResult) :
    tests.mapM (TestCase.ofJson ∘ testCaseResultToJson) = some (tests.map .ofResult) := by
  induction tests with
  | nil => rfl
  | cons tc tests ih =>
    rw [List.mapM_cons, Function.comp_apply, testCase_ofJson, ih]
    rfl

/-- **What the page reads of a result.** -/
theorem ofJson_result (result : SubmissionResult) :
    Data.ofJson (submissionResultJson result) = some {
      verdict := some (verdictToString result.verdict)
      language := some result.language
      passed := some result.passed.toInt
      total := some result.total.toInt
      maxTimeMs := some result.maxTimeMs.toInt
      maxMemoryKb := some result.maxMemoryKb.toInt
      compileOutput := some result.compileOutput
      testResults := some (result.testResults.map .ofResult) } := by
  simp +decide [Data.ofJson, submissionResultJson, text?, number?, mapM_testCase]

/-- **What the page reads of a status.** -/
theorem ofJson_status (id : Bytes) (v : Verdict) :
    Data.ofJson (Json.null |>.set "submission_id" (.str id)
      |>.set "verdict" (.str (verdictToString v))) =
        some { verdict := some (verdictToString v) } := by
  simp +decide [Data.ofJson, text?]

/-- **The page stops** at the verdicts that a submission stops at. -/
theorem contains_terminalVerdicts (v : Verdict) :
    terminalVerdicts.contains (verdictToString v) = decide v.Terminal := by
  cases v <;> decide

theorem terminal_iff {data : Data} {v : Verdict} (h : data.verdict = some (verdictToString v)) :
    data.terminal = true ↔ v.Terminal := by
  rw [Data.terminal, h, Option.any_some, contains_terminalVerdicts, decide_eq_true_iff]

/-- **A verdict of the API is shown as it is.** -/
theorem renderSummary_verdict {data : Data} {v : Verdict}
    (h : data.verdict = some (verdictToString v)) :
    (renderSummary data).verdict = verdictToString v := by
  show (truthy data.verdict).getD "PENDING" = _
  rw [h]
  cases v <;> rfl

/-! ### The tests that are shown -/

theorem shownTests_sublist (tests : List TestCase) : (shownTests tests).Sublist tests := by
  unfold shownTests
  split
  · next hmany =>
    have hcut : tests.take 10 ++ tests.drop 10 = tests := List.take_append_drop 10 tests
    have hlast : (tests.drop (tests.length - 5)).Sublist (tests.drop 10) :=
      List.drop_sublist_drop_left tests (by omega)
    have hboth := hlast.append_left (tests.take 10)
    rwa [hcut] at hboth
  · exact List.Sublist.refl tests

theorem length_shownTests (tests : List TestCase) :
    (shownTests tests).length = if 20 < tests.length then 15 else tests.length := by
  unfold shownTests
  split
  · rw [List.length_append, List.length_take, List.length_drop]
    omega
  · rfl

/-- **The tests that are shown** are tests of the result in their order, all of them up to
twenty and 15 of more. -/
theorem renderDetails_lines {data : Data} {details : Details}
    (h : renderDetails data = some details) :
    ∃ tests shown : List TestCase, data.testResults = some tests ∧ shown.Sublist tests ∧
      details.lines = shown.map renderTestCase ∧
      shown.length = if 20 < tests.length then 15 else tests.length := by
  unfold renderDetails at h
  split at h
  · cases h
  · cases h
  · next tests hne htests =>
    cases h
    exact ⟨tests, _, htests, shownTests_sublist tests, rfl, length_shownTests tests⟩

end Ocpe.Web
