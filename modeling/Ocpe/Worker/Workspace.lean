import Ocpe.Lib.Footprint
import Ocpe.Sandbox.Input
import Ocpe.Sandbox.Interpreter
import Ocpe.Worker.Evaluator

/-!
# An evaluation and the disk

`evaluate_submission` makes a directory for the submission, writes the source there, has it
compiled and run, and removes the binary.  Here these are operations on a disk that all workers
share.  The compiler and the judged program are `Tools` from outside: programs of such operations
too.  Paths are names: links and the names `.` and `..` are not looked into.

* `evaluateOnDisk`: `evaluate_submission` as a program of such operations.
* `machineOf`: the surroundings that a disk and tools make for an evaluation.
* `evaluateOnDisk_alone`: alone on the disk, it is `evaluateSubmission` in these surroundings.

The child of `Sandbox::run` places the test input in a temporary file, as one operation here;
`Worker/SideBySide.lean` has its steps.
-/

namespace Ocpe

open Lib

/-! ### The disk -/

inductive Node
  | dir
  | file (contents : Bytes)
  deriving DecidableEq, Repr

def Node.contents? : Node → Option Bytes
  | .dir => none
  | .file contents => some contents

/-- What has been made, the latest first. -/
abbrev WorkDisk := List (Bytes × Node)

namespace WorkDisk

def look (d : WorkDisk) (path : Bytes) : Option Node := (d.find? fun e => e.1 = path).map (·.2)

def put (d : WorkDisk) (path : Bytes) (node : Node) : WorkDisk := (path, node) :: d

def erase (d : WorkDisk) (path : Bytes) : WorkDisk := d.filter fun e => e.1 ≠ path

section Look

variable (d : WorkDisk) (path : Bytes) (node : Node)

@[simp] theorem look_put_self : (d.put path node).look path = some node := by
  simp [look, put]

theorem look_put_of_ne {k : Bytes} (h : k ≠ path) : (d.put path node).look k = d.look k := by
  simp [look, put, h.symm]

@[simp] theorem look_erase_self : (d.erase path).look path = none := by
  simp [look, erase, List.find?_eq_none]

theorem look_erase_of_ne {k : Bytes} (h : k ≠ path) : (d.erase path).look k = d.look k := by
  induction d with
  | nil => rfl
  | cons e d ih =>
    unfold look erase at ih ⊢
    by_cases he : e.1 = path
    · rw [List.filter_cons_of_neg (by simpa using he), ih, List.find?_cons_of_neg]
      simpa [he] using h.symm
    · rw [List.filter_cons_of_pos (by simpa using he)]
      by_cases hk : e.1 = k
      · rw [List.find?_cons_of_pos (by simpa using hk), List.find?_cons_of_pos (by simpa using hk)]
      · rw [List.find?_cons_of_neg (by simpa using hk), List.find?_cons_of_neg (by simpa using hk),
          ih]

end Look

/-- The directories on the way to a path, and the path, unless it ends with a slash. -/
def onTheWay (path : Bytes) : List Bytes :=
  path.inits.filter fun q =>
    q ≠ [] ∧ q.getLast? ≠ some 47 ∧ (q = path ∨ (path.drop q.length).head? = some 47)

/-- Makes each of the directories that is not there yet; stops at a file. -/
def makeDirectories (d : WorkDisk) : List Bytes → WorkDisk × Bool
  | [] => (d, true)
  | path :: paths =>
    match d.look path with
    | none => makeDirectories (d.put path .dir) paths
    | some .dir => makeDirectories d paths
    | some (.file _) => (d, false)

/-- `std::filesystem::create_directories`, `false` where it throws. -/
def createDirectories (d : WorkDisk) (path : Bytes) : WorkDisk × Bool :=
  makeDirectories d (onTheWay path)

/-- `std::filesystem::path::parent_path` -/
def parentPath (path : Bytes) : Bytes :=
  ((path.reverse.dropWhile (· ≠ 47)).dropWhile (· = 47)).reverse

/-- A `std::ofstream` that is opened, written to and closed.  Nothing is written when it cannot be
opened, and nobody asks. -/
def write (d : WorkDisk) (path contents : Bytes) : WorkDisk :=
  if d.look path = some .dir then d
  else if parentPath path = [] ∨ d.look (parentPath path) = some .dir then
    d.put path (.file contents)
  else d

def remove (d : WorkDisk) (path : Bytes) : WorkDisk × Bool :=
  if d.look path = some .dir ∧ d.any (fun e => (path ++ [47]).isPrefixOf e.1) = true then (d, false)
  else (d.erase path, true)

end WorkDisk

/-! ### Operations -/

inductive FileOp
  | createDirectories (path : Bytes)
  | write (path contents : Bytes)
  | read (path : Bytes)
  | remove (path : Bytes)

inductive FileReply
  | done (ok : Bool)
  | found (node : Option Node)

def FileReply.ok : FileReply → Bool
  | .done ok => ok
  | .found _ => false

def FileReply.node? : FileReply → Option Node
  | .done _ => none
  | .found node => node

def WorkDisk.serve (d : WorkDisk) : FileOp → WorkDisk × FileReply
  | .createDirectories path => ((d.createDirectories path).1, .done (d.createDirectories path).2)
  | .write path contents => (d.write path contents, .done true)
  | .read path => (d, .found (d.look path))
  | .remove path => ((d.remove path).1, .done (d.remove path).2)

/-- An operation of an evaluation. -/
inductive EvalOp
  | file (op : FileOp)
  /-- the child of `Sandbox::run`, from `mkstemp` to `unlink` -/
  | placeInput (limits : SandboxLimits) (calls : Sandbox.InputCalls) (input : Bytes)

inductive EvalReply
  | file (reply : FileReply)
  | fed (stdin : Option Sandbox.Source)

namespace EvalReply

def reply : EvalReply → FileReply
  | .file reply => reply
  | .fed _ => .done false

def stdin : EvalReply → Option Sandbox.Source
  | .file _ => none
  | .fed stdin => stdin

end EvalReply

/-- The disk as an evaluation finds it; of the input nothing is left. -/
def serve (d : WorkDisk) : EvalOp → WorkDisk × EvalReply
  | .file op => ((d.serve op).1, .file (d.serve op).2)
  | .placeInput limits calls input => (d, .fed (Sandbox.fed limits calls input))

/-- A program from outside. -/
abbrev Outside (α : Type) := Prog FileOp FileReply Empty α

namespace Outside

variable {α : Type}

/-- It runs in an evaluation. -/
def embed : Outside α → Prog EvalOp EvalReply Exn α
  | .pure a => .pure a
  | .throw e => nomatch e
  | .op i next => .op (.file i) fun r => embed (next r.reply)

/-- What it leaves and what it returns, when it is alone. -/
def alone (d : WorkDisk) : Outside α → WorkDisk × α
  | .pure a => (d, a)
  | .throw e => nomatch e
  | .op i next => alone (d.serve i).1 (next (d.serve i).2)

theorem interp_embed (p : Outside α) (d : WorkDisk) :
    Prog.interp serve d (embed p) = ((alone d p).1, .ok (alone d p).2) := by
  induction p generalizing d with
  | pure a => rfl
  | throw e => exact nomatch e
  | op i next ih => exact ih _ _

end Outside

/-- How the system calls of a `Sandbox::run` go. -/
structure SandboxCalls where
  piped : Bool
  forked : Bool
  input : Sandbox.InputCalls
  /-- what the parent sees of a child that does not come to execute the program -/
  unstarted : Sandbox.Observed

/-- What the programs outside do: the compiler with its arguments, and the judged program in the
`i`-th test. -/
structure Tools where
  compiler : List Bytes → Outside CompileRun
  program (i : Nat) (runnablePath interpreter : Bytes) (stdin : Sandbox.Source)
    (limits : SandboxLimits) : Outside Sandbox.Observed
  calls : Nat → SandboxCalls

/-! ### The evaluation -/

section Evaluate

variable (F : JsonFormat) (problemsDir submissionsDir : Bytes) (files : FileSys) (tools : Tools)

def workDir (job : SubmissionJob) : Bytes := pathAppend submissionsDir job.submissionId

def sourcePath (job : SubmissionJob) : Bytes :=
  pathAppend (workDir submissionsDir job)
    ("main" ++ sourceExtension (normalizeLanguage job.language))

def binaryPath (job : SubmissionJob) : Bytes := pathAppend (workDir submissionsDir job) "main"

def prepare (job : SubmissionJob) : Prog EvalOp EvalReply Exn Unit := do
  let made ← Prog.perform (.file (.createDirectories (workDir submissionsDir job)))
  if made.reply.ok = false then Prog.throw .filesystemError
  else
    let _ ← Prog.perform (.file (.write (sourcePath submissionsDir job) job.sourceCode))
    return ()

def compileOnDisk (job : SubmissionJob) : Prog EvalOp EvalReply Exn CompileResult := do
  let language := normalizeLanguage job.language
  let run ← (tools.compiler (compileArgv language (sourcePath submissionsDir job)
    (binaryPath submissionsDir job))).embed
  return compileSource (fun _ => run) language (sourcePath submissionsDir job)
    (binaryPath submissionsDir job)

/-- `Sandbox::run` in the `i`-th test. -/
def runSandbox (compile : CompileResult) (limits : SandboxLimits) (i : Nat) (input : Bytes) :
    Prog EvalOp EvalReply Exn Sandbox.RunOutcome := do
  let calls := tools.calls i
  if calls.piped = false then return .pipeFailed
  else if calls.forked = false then return .forkFailed
  else
    let placed ← Prog.perform (.placeInput limits calls.input input)
    match placed.stdin with
    | none => return .ended calls.unstarted
    | some stdin =>
      if calls.input.started = false then return .ended calls.unstarted
      else
        let observed ← (tools.program i compile.runnablePath compile.interpreter stdin limits).embed
        return .ended observed

/-- The calls of `Sandbox::run` in `run_all_test_cases`, from the `i`-th on. -/
def runTests (compile : CompileResult) (limits : SandboxLimits) :
    Nat → List (Bytes × Bytes) → Prog EvalOp EvalReply Exn (List Sandbox.RunOutcome)
  | _, [] => return []
  | i, test :: rest => do
    let outcome ← runSandbox tools compile limits i test.1
    let outcomes ← runTests compile limits (i + 1) rest
    return outcome :: outcomes

def limitsOf (problem : ProblemInfo) : SandboxLimits :=
  { timeLimitMs := problem.timeLimitMs, memoryLimitMb := problem.memoryLimitMb }

/-- The compiler and, on what compiles, the tests. -/
def useTools (job : SubmissionJob) (problem : ProblemInfo) :
    Prog EvalOp EvalReply Exn (CompileResult × List Sandbox.RunOutcome) := do
  let compile ← compileOnDisk submissionsDir tools job
  if compile.success = false then return (compile, [])
  else
    let outcomes ← runTests tools compile (limitsOf problem) 0
      (loadTestCases files problemsDir job.problemId)
    return (compile, outcomes)

/-- How the `i`-th call went. -/
def outcomeAt (outcomes : List Sandbox.RunOutcome) (i : Nat) : Sandbox.RunOutcome :=
  outcomes[i]?.getD .pipeFailed

/-- The verdict, and the removal of the binary. -/
def finish (job : SubmissionJob) (problem : ProblemInfo) (compile : CompileResult)
    (outcomes : List Sandbox.RunOutcome) : Prog EvalOp EvalReply Exn SubmissionResult := do
  let result : SubmissionResult :=
    { submissionId := job.submissionId
      problemId := job.problemId
      username := job.username
      language := normalizeLanguage job.language
      compileOutput := compile.output }
  if compile.success = false then return { result with verdict := .compilationError }
  else
    let result := judgeTests (outcomeAt outcomes) problem
      (loadTestCases files problemsDir job.problemId) result
    if result.language ≠ "python" then
      let removed ← Prog.perform (.file (.remove (binaryPath submissionsDir job)))
      if removed.reply.ok = false then Prog.throw .filesystemError else return result
    else return result

/-- `evaluate_submission` -/
def evaluateOnDisk (job : SubmissionJob) : Prog EvalOp EvalReply Exn SubmissionResult := do
  let result : SubmissionResult :=
    { submissionId := job.submissionId
      problemId := job.problemId
      username := job.username
      language := normalizeLanguage job.language }
  let found ← Prog.ofExcept ((getProblem files problemsDir F job.problemId).mapError Exn.json)
  match found with
  | none => return { result with verdict := .internalError, compileOutput := "Problem not found" }
  | some problem =>
    if isSupportedLanguage result.language = false then
      return { result with
        verdict := .compilationError
        compileOutput := bytes "Unsupported language: " ++ job.language }
    else
      prepare submissionsDir job
      let used ← useTools problemsDir submissionsDir files tools job problem
      finish problemsDir submissionsDir files job problem used.1 used.2

end Evaluate

/-! ### Alone -/

section Alone

variable (F : JsonFormat) (problemsDir submissionsDir : Bytes) (files : FileSys) (tools : Tools)
  (d : WorkDisk) (job : SubmissionJob) (problem : ProblemInfo)

/-- The disk that the compiler meets. -/
def prepared : WorkDisk := (Prog.interp serve d (prepare submissionsDir job)).1

/-- How the programs from outside end. -/
def usedTools : WorkDisk × Except Exn (CompileResult × List Sandbox.RunOutcome) :=
  Prog.interp serve (prepared submissionsDir d job)
    (useTools problemsDir submissionsDir files tools job problem)

/-- The surroundings of an evaluation that has the disk for itself. -/
def machineOf : Machine where
  files := files
  createDirectories := (d.createDirectories (workDir submissionsDir job)).2
  exec argv := ((tools.compiler argv).alone (prepared submissionsDir d job)).2
  outcomes :=
    match (usedTools problemsDir submissionsDir files tools d job problem).2 with
    | .ok used => outcomeAt used.2
    | .error _ => outcomeAt []
  removeBinary :=
    ((usedTools problemsDir submissionsDir files tools d job problem).1.remove
      (binaryPath submissionsDir job)).2

variable {problemsDir submissionsDir files tools d job problem}

theorem runSandbox_ok (compile : CompileResult) (limits : SandboxLimits) (i : Nat) (input : Bytes)
    (d : WorkDisk) : ∃ outcome,
      (Prog.interp serve d (runSandbox tools compile limits i input)).2 = .ok outcome := by
  unfold runSandbox
  dsimp only
  split
  · exact ⟨_, rfl⟩
  split
  · exact ⟨_, rfl⟩
  rw [Prog.perform_bind, Prog.interp_op]
  split
  · exact ⟨_, rfl⟩
  split
  · exact ⟨_, rfl⟩
  · rw [Prog.interp_bind_ok (congrArg Prod.snd (Outside.interp_embed _ _))]
    exact ⟨_, rfl⟩

theorem runTests_ok (compile : CompileResult) (limits : SandboxLimits)
    (tests : List (Bytes × Bytes)) (i : Nat) (d : WorkDisk) : ∃ outcomes,
      (Prog.interp serve d (runTests tools compile limits i tests)).2 = .ok outcomes := by
  induction tests generalizing i d with
  | nil => exact ⟨[], rfl⟩
  | cons test rest ih =>
    obtain ⟨outcome, hone⟩ := @runSandbox_ok tools compile limits i test.1 d
    obtain ⟨outcomes, hrest⟩ :=
      ih (i + 1) (Prog.interp serve d (runSandbox tools compile limits i test.1)).1
    refine ⟨outcome :: outcomes, ?_⟩
    rw [runTests, Prog.interp_bind_ok hone, Prog.interp_bind_ok hrest]
    rfl

theorem compileOnDisk_ok (d : WorkDisk) :
    (Prog.interp serve d (compileOnDisk submissionsDir tools job)).2 =
      .ok (compileSource (fun _ => ((tools.compiler
        (compileArgv (normalizeLanguage job.language) (sourcePath submissionsDir job)
          (binaryPath submissionsDir job))).alone d).2)
        (normalizeLanguage job.language) (sourcePath submissionsDir job)
        (binaryPath submissionsDir job)) := by
  unfold compileOnDisk
  dsimp only
  rw [Prog.interp_bind_ok (congrArg Prod.snd (Outside.interp_embed _ _))]
  rfl

theorem usedTools_ok :
    ∃ outcomes, (usedTools problemsDir submissionsDir files tools d job problem).2 =
      .ok (compileJob submissionsDir
        (machineOf problemsDir submissionsDir files tools d job problem) job, outcomes) := by
  have hcompile : compileJob submissionsDir
      (machineOf problemsDir submissionsDir files tools d job problem) job =
      compileSource (fun _ => ((tools.compiler
        (compileArgv (normalizeLanguage job.language) (sourcePath submissionsDir job)
          (binaryPath submissionsDir job))).alone (prepared submissionsDir d job)).2)
        (normalizeLanguage job.language) (sourcePath submissionsDir job)
        (binaryPath submissionsDir job) := by
    rw [compileJob, Host.compileSource_eq, Host.compileSource_eq (fun _ => _)]
    rfl
  rw [hcompile, usedTools, useTools, Prog.interp_bind_ok (compileOnDisk_ok _)]
  split
  · exact ⟨[], rfl⟩
  · obtain ⟨outcomes, h⟩ := @runTests_ok tools _ (limitsOf problem)
      (loadTestCases files problemsDir job.problemId) 0 _
    refine ⟨outcomes, ?_⟩
    rw [Prog.interp_bind_ok h]
    rfl

theorem prepare_made (hmade : (d.createDirectories (workDir submissionsDir job)).2 = true) :
    (Prog.interp serve d (prepare submissionsDir job)).2 = .ok () := by
  simp only [prepare, Prog.perform_bind, Prog.interp_op, serve, WorkDisk.serve, EvalReply.reply,
    FileReply.ok, hmade, Bool.true_eq_false, if_false]
  rfl

theorem prepare_not_made (hmade : (d.createDirectories (workDir submissionsDir job)).2 = false) :
    (Prog.interp serve d (prepare submissionsDir job)).2 = .error .filesystemError := by
  simp only [prepare, Prog.perform_bind, Prog.interp_op, serve, WorkDisk.serve, EvalReply.reply,
    FileReply.ok, hmade, if_true]
  rfl

theorem finish_alone (compile : CompileResult) (outcomes : List Sandbox.RunOutcome) (d : WorkDisk) :
    (Prog.interp serve d
      (finish problemsDir submissionsDir files job problem compile outcomes)).2 =
      let entering : SubmissionResult :=
        { submissionId := job.submissionId
          problemId := job.problemId
          username := job.username
          language := normalizeLanguage job.language
          compileOutput := compile.output }
      let result := judgeTests (outcomeAt outcomes) problem
        (loadTestCases files problemsDir job.problemId) entering
      if compile.success = false then .ok { entering with verdict := .compilationError }
      else if result.language ≠ "python" ∧
          (d.remove (binaryPath submissionsDir job)).2 = false then .error .filesystemError
      else .ok result := by
  unfold finish
  dsimp only
  by_cases hsuccess : compile.success = false
  · rw [if_pos hsuccess, if_pos hsuccess]
    rfl
  rw [if_neg hsuccess, if_neg hsuccess]
  generalize judgeTests _ _ _ _ = result
  by_cases hpython : result.language ≠ "python"
  · rw [if_pos hpython]
    cases hremoved : (d.remove (binaryPath submissionsDir job)).2 with
    | false =>
      rw [if_pos ⟨hpython, rfl⟩]
      simp only [Prog.perform_bind, Prog.interp_op, serve, WorkDisk.serve, EvalReply.reply,
        FileReply.ok, hremoved, if_true]
      rfl
    | true =>
      rw [if_neg (by simp)]
      simp only [Prog.perform_bind, Prog.interp_op, serve, WorkDisk.serve, EvalReply.reply,
        FileReply.ok, hremoved, Bool.true_eq_false, if_false]
      rfl
  · rw [if_neg hpython, if_neg fun h => hpython h.1]
    rfl

/-- **An evaluation alone on the disk** is `evaluateSubmission`. -/
theorem evaluateOnDisk_alone
    (hproblem : ∀ problem', getProblem files problemsDir F job.problemId = .ok (some problem') →
      problem' = problem) :
    (Prog.interp serve d (evaluateOnDisk F problemsDir submissionsDir files tools job)).2 =
      evaluateSubmission F problemsDir submissionsDir
        (machineOf problemsDir submissionsDir files tools d job problem) job := by
  rw [evaluateOnDisk, evaluateSubmission]
  show (Prog.interp serve d (Prog.ofExcept _ >>= _)).2 =
    ((getProblem files problemsDir F job.problemId).mapError Exn.json >>= _)
  cases hfound : getProblem files problemsDir F job.problemId with
  | error e => rfl
  | ok found =>
    cases found with
    | none => rfl
    | some problem' =>
      obtain rfl := hproblem problem' hfound
      simp only [Except.mapError, Prog.ofExcept_ok_bind, ok_bind]
      by_cases hsupported : isSupportedLanguage (normalizeLanguage job.language) = false
      · rw [if_pos hsupported, if_pos hsupported]
        rfl
      rw [if_neg hsupported, if_neg hsupported]
      cases hmade : (d.createDirectories (workDir submissionsDir job)).2 with
      | false =>
        rw [Prog.interp_bind_error (prepare_not_made hmade)]
        exact (if_pos hmade).symm
      | true =>
        obtain ⟨outcomes, hused⟩ :=
          @usedTools_ok problemsDir submissionsDir files tools d job problem'
        rw [Prog.interp_bind_ok (prepare_made hmade)]
        have hfinish := Prog.interp_bind_ok (f := fun used =>
          finish problemsDir submissionsDir files job problem' used.1 used.2) hused
        refine (congrArg Prod.snd hfinish).trans ?_
        rw [finish_alone]
        have hdirs : ¬ (machineOf problemsDir submissionsDir files tools d job
            problem').createDirectories = false := by
          show ¬ (d.createDirectories (workDir submissionsDir job)).2 = false
          rw [hmade]
          decide
        have houtcomes :
            (machineOf problemsDir submissionsDir files tools d job problem').outcomes =
            outcomeAt outcomes := by
          show (match (usedTools problemsDir submissionsDir files tools d job problem').2 with
            | .ok used => outcomeAt used.2
            | .error _ => outcomeAt []) = _
          rw [hused]
        rw [if_neg hdirs, houtcomes]
        rfl

end Alone

end Ocpe
