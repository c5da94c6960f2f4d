import Ocpe.Lib.Bytes

/-!
# Submissions

The records that travel between the API, the queue and the workers
(`shared/include/ocpe/submission.hpp`), and the spelling of a verdict
(`shared/src/submission.cpp`).

`verdict_from_string` gives `INTERNAL_ERROR` for every text it does not know, so
it is total; `verdictFromString_toString` says it undoes `verdict_to_string`.
`rank` is the order in which a submission passes through its stages; it has no
counterpart in the source.
-/

namespace Ocpe

open Lib

inductive Verdict where
  | pending
  | compiling
  | running
  | accepted
  | wrongAnswer
  | timeLimitExceeded
  | memoryLimitExceeded
  | runtimeError
  | compilationError
  | internalError
  deriving DecidableEq, Repr

def verdictToString : Verdict → Bytes
  | .pending => "PENDING"
  | .compiling => "COMPILING"
  | .running => "RUNNING"
  | .accepted => "ACCEPTED"
  | .wrongAnswer => "WRONG_ANSWER"
  | .timeLimitExceeded => "TIME_LIMIT_EXCEEDED"
  | .memoryLimitExceeded => "MEMORY_LIMIT_EXCEEDED"
  | .runtimeError => "RUNTIME_ERROR"
  | .compilationError => "COMPILATION_ERROR"
  | .internalError => "INTERNAL_ERROR"

def verdictFromString (s : Bytes) : Verdict :=
  if s = "PENDING" then .pending
  else if s = "COMPILING" then .compiling
  else if s = "RUNNING" then .running
  else if s = "ACCEPTED" then .accepted
  else if s = "WRONG_ANSWER" then .wrongAnswer
  else if s = "TIME_LIMIT_EXCEEDED" then .timeLimitExceeded
  else if s = "MEMORY_LIMIT_EXCEEDED" then .memoryLimitExceeded
  else if s = "RUNTIME_ERROR" then .runtimeError
  else if s = "COMPILATION_ERROR" then .compilationError
  else .internalError

structure TestCaseResult where
  index : Int32 := 0
  verdict : Verdict := .pending
  timeMs : Int32 := 0
  memoryKb : Int32 := 0
  expectedOutput : Bytes := []
  actualOutput : Bytes := []
  errorMessage : Bytes := []
  deriving DecidableEq, Repr

structure SubmissionResult where
  submissionId : Bytes := []
  problemId : Bytes := []
  username : Bytes := []
  language : Bytes := "c"
  verdict : Verdict := .pending
  passed : Int32 := 0
  total : Int32 := 0
  maxTimeMs : Int32 := 0
  maxMemoryKb : Int32 := 0
  compileOutput : Bytes := []
  testResults : List TestCaseResult := []
  deriving DecidableEq, Repr

structure SubmissionJob where
  submissionId : Bytes := []
  problemId : Bytes := []
  sourceCode : Bytes := []
  language : Bytes := "c"
  username : Bytes := []
  deriving DecidableEq, Repr

structure ProblemInfo where
  id : Bytes := []
  title : Bytes := []
  description : Bytes := []
  timeLimitMs : Int32 := 2000
  memoryLimitMb : Int32 := 256
  testCaseCount : Int32 := 0
  deriving DecidableEq, Repr

/-! ### Verdicts -/

/-- **The spelling of a verdict is undone by reading it.** -/
@[simp] theorem verdictFromString_toString (v : Verdict) :
    verdictFromString (verdictToString v) = v := by
  cases v <;> decide

theorem verdictToString_injective : Function.Injective verdictToString := fun v w h => by
  rw [← verdictFromString_toString v, h, verdictFromString_toString]

@[simp] theorem cstr_verdictToString (v : Verdict) :
    cstr (verdictToString v) = verdictToString v := by
  cases v <;> decide

theorem validUtf8_verdictToString (v : Verdict) : ValidUtf8 (verdictToString v) := by
  cases v <;> decide

/-- The stage a verdict stands for. -/
def Verdict.rank : Verdict → Nat
  | .pending => 0
  | .compiling => 1
  | .running => 2
  | _ => 3

/-- The verdict is one a client may stop polling at. -/
def Verdict.Terminal (v : Verdict) : Prop := v.rank = 3

instance (v : Verdict) : Decidable v.Terminal := inferInstanceAs (Decidable (_ = _))

theorem Verdict.rank_le (v : Verdict) : v.rank ≤ 3 := by cases v <;> decide

end Ocpe
