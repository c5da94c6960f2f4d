import Ocpe.Lib.JsonText
import Ocpe.Shared.Keys
import Ocpe.Worker.WorkerPool

/-!
# What one iteration leaves in Redis

One iteration of `worker_loop`, alone with a Redis that serves every command, on a
queue whose next job is one that `/submit` enqueued.

The encoder throws on a string that is not UTF-8, and the outputs of the judged
program, the compiler output and the expected outputs all go into the result
unchecked.  `stored_iff` says exactly when the iteration ends with a stored result
and a terminal status: when the evaluation does not throw and all that text is
UTF-8.  `byteFF_escapes` is an iteration that a single byte brings down.
-/

namespace Ocpe

open Lib Redis Prog RedisClient WorkerPool

/-! ### Text in a result -/

/-- A test leaves only text in its result: the expected output, the captured output,
and the captured standard error of a run that has no message of its own. -/
def LeavesText (limits : SandboxLimits) (outcome : Sandbox.RunOutcome) (expected : Bytes) : Prop :=
  ValidUtf8 expected ∧
    ∀ o, outcome = .ended o →
      ValidUtf8 o.stdoutData ∧ (Sandbox.Clean limits o → ValidUtf8 o.stderrData)

theorem utf8_testCaseResult {limits : SandboxLimits} {outcomes : Nat → Sandbox.RunOutcome} {i : Nat}
    {test : Bytes × Bytes} :
    (testCaseResult limits outcomes i test).Utf8 ↔ LeavesText limits (outcomes i) test.2 := by
  unfold LeavesText
  refine and_congr Iff.rfl ?_
  cases h : outcomes i with
  | pipeFailed =>
    simp only [testCaseResult, h, Sandbox.run, reduceCtorEq, false_implies, implies_true, iff_true]
    exact ⟨by decide, by decide⟩
  | forkFailed =>
    simp only [testCaseResult, h, Sandbox.run, reduceCtorEq, false_implies, implies_true, iff_true]
    exact ⟨by decide, by decide⟩
  | ended o =>
    simp only [Sandbox.RunOutcome.ended.injEq, forall_eq']
    have hrun : Sandbox.run limits (.ended o) test.2 = Sandbox.judge limits o test.2 := rfl
    refine and_congr (by simp only [testCaseResult, h]; rfl) ?_
    simp only [testCaseResult, h, hrun, Sandbox.judge, Sandbox.measured]
    by_cases hclean : Sandbox.Clean limits o
    · rw [Sandbox.decision_of_clean hclean]
      by_cases herr : o.stderrData = []
      · simp [herr, hclean]
      · simp [herr, hclean]
    · obtain ⟨-, hmessage, htext⟩ := Sandbox.decision_of_not_clean hclean test.2
      simp [hmessage, htext, hclean]

theorem utf8_testsOf {outcomes : Nat → Sandbox.RunOutcome} {problem : ProblemInfo}
    {testCases : List (Bytes × Bytes)} :
    (∀ tc ∈ testsOf outcomes problem testCases, tc.Utf8) ↔
      ∀ (i : Nat) (hi : i < testCases.length),
        LeavesText
          { timeLimitMs := problem.timeLimitMs, memoryLimitMb := problem.memoryLimitMb }
          (outcomes i) testCases[i].2 := by
  constructor
  · intro h i hi
    exact utf8_testCaseResult.mp (h _ (List.mem_mapIdx.mpr ⟨i, hi, rfl⟩))
  · intro h tc htc
    obtain ⟨i, hi, rfl⟩ := mem_runAllTestCases htc
    exact utf8_testCaseResult.mpr (h i hi)

/-! ### When the evaluation gives a result that can be written -/

variable {cfg : Config} {m : Machine} {job : SubmissionJob}

/-- The problem still reads, and if it is found the directory can be made, the
compiler's output is text, and after a successful compile the tests leave only text
and the binary can be removed. -/
def Storable (cfg : Config) (m : Machine) (job : SubmissionJob) : Prop :=
  ∃ found, getProblem m.files cfg.problemsDir cfg.format job.problemId = .ok found ∧
    ∀ problem ∈ found,
      m.createDirectories = true ∧
      ValidUtf8 (compileJob cfg.submissionsDir m job).output ∧
      ((compileJob cfg.submissionsDir m job).success = true →
        (normalizeLanguage job.language = "python" ∨ m.removeBinary = true) ∧
        ∀ (i : Nat) (hi : i < (loadTestCases m.files cfg.problemsDir job.problemId).length),
          LeavesText
            { timeLimitMs := problem.timeLimitMs, memoryLimitMb := problem.memoryLimitMb }
            (m.outcomes i) (loadTestCases m.files cfg.problemsDir job.problemId)[i].2)

/-- The evaluation of a job that is text itself gives a result that can be written
exactly when the job is storable. -/
theorem evaluation_storable_iff (hutf8 : job.Utf8)
    (hsupported : isSupportedLanguage job.language = true)
    (hnormal : normalizeLanguage job.language = job.language) :
    (∃ result, evaluation cfg m job = .ok result ∧ result.Utf8) ↔ Storable cfg m job := by
  obtain ⟨hid, hproblem, -, hlang, hname⟩ := hutf8
  cases hfound : getProblem m.files cfg.problemsDir cfg.format job.problemId with
  | error e => simp [evaluateSubmission, Storable, hfound, Except.mapError]
  | ok found =>
    cases found with
    | none =>
      have hmessage : ValidUtf8 (bytes "Problem not found") := by decide
      simp [evaluateSubmission_not_found hfound, Storable, hfound, SubmissionResult.Utf8, hid,
        hproblem, hname, hnormal, hlang, hmessage]
    | some problem =>
      have hsupported' : isSupportedLanguage (normalizeLanguage job.language) = true :=
        hnormal.symm ▸ hsupported
      by_cases hdirs : m.createDirectories = true
      · by_cases hsuccess : (compileJob cfg.submissionsDir m job).success = true
        · have hc : Compiles cfg.format cfg.problemsDir cfg.submissionsDir m job problem :=
            ⟨hfound, hsupported', hdirs, hsuccess⟩
          obtain ⟨h1, h2, h3, h4, h5⟩ := judgeTests_frame m.outcomes problem
            (loadTestCases m.files cfg.problemsDir job.problemId)
            (enteringTests cfg.submissionsDir m job)
          rw [evaluation, evaluateSubmission_of_compiles hc]
          by_cases hremove : normalizeLanguage job.language = "python" ∨ m.removeBinary = true
          · have hnot : ¬ (normalizeLanguage job.language ≠ "python" ∧ m.removeBinary = false) := by
              rintro ⟨hl, hr⟩
              rcases hremove with h | h
              · exact hl h
              · rw [hr] at h; cases h
            simp only [hnot, if_false, Except.ok.injEq, exists_eq_left', SubmissionResult.Utf8, h1,
              h2, h3, h4, h5, judgeTests_testResults, utf8_testsOf]
            rw [hnormal] at hremove
            simp [Storable, hfound, hdirs, hsuccess, hremove, enteringTests, hid, hproblem, hname,
              hnormal, hlang]
          · have hyes : normalizeLanguage job.language ≠ "python" ∧ m.removeBinary = false := by
              simpa using hremove
            simp [hyes, Storable, hfound, hsuccess]
        · rw [evaluation, evaluateSubmission_not_compiled hfound hsupported' hdirs
            (by simpa using hsuccess)]
          simp [Storable, hfound, SubmissionResult.Utf8, hid, hproblem, hname, hnormal, hlang,
            hdirs, hsuccess, enteringTests]
      · simp [evaluateSubmission, Storable, hfound, Except.mapError, hsupported', hdirs]

/-! ### One iteration with Redis -/

/-- Redis at a fixed time, serving one client. -/
def serveAlone (now : Nat) (store : Store) (op : Wire) : Store × Answer :=
  let r := exchange now store .good op .served
  (r.1, r.2.2)

variable {now : Nat} {store : Store}

theorem interp_execCommand {β : Type} (c : Cmd) (f : Option Reply → Talk β) :
    interp (serveAlone now) store (execCommand c >>= f) =
      interp (serveAlone now) (exec now store c).1 (f (some (exec now store c).2)) := rfl

theorem interp_set {β : Type} (key value : Bytes) (exSec : Option Nat) (f : Bool → Talk β) :
    interp (serveAlone now) store (succeeds (.set key value exSec) >>= f) =
      interp (serveAlone now)
        (store.put key (some ⟨.str value, exSec.map fun sec => now + sec * 1000⟩)) (f true) := rfl

/-- The entry of a key written with `EX 86400`. -/
def dayEntry (now : Nat) (value : Bytes) : Option Entry :=
  some ⟨.str value, some (now + 86400 * 1000)⟩

def whileRunning (now : Nat) (store : Store) (jobs : List Bytes) (job : SubmissionJob) : Store :=
  store.put queueKey (listEntry jobs)
    |>.put (statusKey job.submissionId) (dayEntry now (cstr (verdictToString .compiling)))
    |>.put (statusKey job.submissionId) (dayEntry now (cstr (verdictToString .running)))

/-- **What the iteration comes to**: after the two statuses, the evaluation and the
encoder may throw, and otherwise the result and its verdict are stored. -/
theorem interp_iteration {jobs : List Bytes} {payload : Bytes}
    (hpayload : submissionJobToJson cfg.format job = .ok payload)
    (hqueue : store.live now queueKey = some (.list (jobs ++ [payload]))) :
    interp (serveAlone now) store (iteration cfg m) =
      match evaluation cfg m job with
      | .error e => (whileRunning now store jobs job, .error e)
      | .ok result =>
        match submissionResultToJson cfg.format result with
        | .error e => (whileRunning now store jobs job, .error (.json e))
        | .ok b =>
          (whileRunning now store jobs job
              |>.put (resultKey result.submissionId) (dayEntry now b)
              |>.put (statusKey job.submissionId)
                (dayEntry now (cstr (verdictToString result.verdict))),
            .ok ()) := by
  have hpop : exec now store (.brpop queueKey 5) =
      (store.put queueKey (listEntry jobs), .arr [queueKey, payload]) := by
    simp [exec, hqueue]
  rw [iteration, dequeueJob, bind_assoc, interp_execCommand, hpop]
  simp only [jobFromJson_toJson hpayload, Talk.json, Except.mapError, ofExcept_ok_bind, pure_eq,
    Prog.pure_bind]
  rw [processJob, setStatus, interp_set, runJob, setStatus, interp_set, evaluateJob]
  show interp _ (whileRunning now store jobs job) (Prog.ofExcept (evaluation cfg m job) >>= _) = _
  cases evaluation cfg m job with
  | error e => rfl
  | ok result =>
    simp only [ofExcept_ok_bind, storeJob, setResult, Talk.json, bind_assoc]
    cases submissionResultToJson cfg.format result with
    | error e => rfl
    | ok b => rfl

/-! ### When the result is stored -/

/-- The iteration ended without an exception, with a result of the job under its
result key and a terminal verdict under its status key. -/
structure Stored (cfg : Config) (now : Nat) (job : SubmissionJob)
    (out : Store × Except Exn Unit) : Prop where
  returns : out.2 = .ok ()
  result : ∃ b result, out.1.live now (resultKey job.submissionId) = some (.str b) ∧
    submissionResultFromJson cfg.format b = .ok result ∧ ResultOf job result
  status : ∃ v : Verdict, v.Terminal ∧
    out.1.live now (statusKey job.submissionId) = some (.str (verdictToString v))

theorem live_dayEntry {s : Store} {k b : Bytes} (h : s k = dayEntry now b) :
    s.live now k = some (.str b) := by
  have hlive : Entry.Live now ⟨.str b, some (now + 86400 * 1000)⟩ := by simp [Entry.Live]
  simp [Store.live, h, dayEntry, hlive]

/-- **When the iteration for an enqueued job stores its result**: exactly when the
evaluation does not throw and leaves only text. -/
theorem stored_iff {env : Surroundings} {username body payload : Bytes} {jobs : List Bytes}
    (haccept : ApiServer.acceptSubmission cfg env username body = .ok (.ok job))
    (hpayload : submissionJobToJson cfg.format job = .ok payload)
    (hqueue : store.live now queueKey = some (.list (jobs ++ [payload]))) :
    Stored cfg now job (interp (serveAlone now) store (iteration cfg m)) ↔ Storable cfg m job := by
  obtain ⟨-, -, hsupported, hnormal⟩ := ApiServer.acceptSubmission_ok haccept
  have hutf8 : job.Utf8 := jobToJson_isOk.mp (by rw [hpayload]; rfl)
  rw [interp_iteration hpayload hqueue, ← evaluation_storable_iff hutf8 hsupported hnormal]
  constructor
  · intro h
    have hreturns := h.returns
    cases heval : evaluation cfg m job with
    | error e => simp [heval] at hreturns
    | ok result =>
      refine ⟨result, rfl, resultToJson_isOk (F := cfg.format).mp ?_⟩
      cases hjson : submissionResultToJson cfg.format result with
      | error e => simp [heval, hjson] at hreturns
      | ok b => rfl
  · rintro ⟨result, heval, hresult⟩
    obtain ⟨b, hb⟩ : ∃ b, submissionResultToJson cfg.format result = .ok b :=
      cfg.format.exists_dumpText ((utf8_submissionResultJson result).mpr hresult)
    obtain ⟨hof, hterminal⟩ := evaluateSubmission_ok heval
    have hne : resultKey job.submissionId ≠ statusKey job.submissionId :=
      ne_of_take (take_resultKey _) (take_statusKey _) (by decide)
    simp only [heval, hb]
    refine ⟨rfl, ⟨b, result, live_dayEntry ?_, resultFromJson_toJson hb, hof⟩,
      ⟨result.verdict, hterminal, ?_⟩⟩
    · dsimp only
      rw [Store.put_of_ne _ _ hne, hof.submissionId, Store.put_self]
    · rw [cstr_verdictToString]
      exact live_dayEntry (Store.put_self ..)

/-! ### A byte that is not text -/

def oneTest : FileSys := .ofFiles
  [("p/a/meta.json", bytes "\x7b\x7d"), ("p/a/tests/0.in", []), ("p/a/tests/0.out", "1")]

def printing (out : Bytes) : Machine where
  files := oneTest
  createDirectories := true
  exec _ := .exited 0 []
  outcomes _ := .ended ⟨false, out, [], 0, {}⟩
  removeBinary := true

def textConfig : Config where
  format := jsonText
  sha256 b := b
  problemsDir := "p"
  submissionsDir := "s"

def zeros (n : Nat) : HexString n := .replicate n 48 (by decide)

def zeroSurroundings : Surroundings where
  files := oneTest
  createDirectories := true
  salt := zeros 32
  token := zeros 64
  submissionId := zeros 32

def submitJson : Json :=
  Json.null |>.set "problem_id" (.str "a") |>.set "source_code" (.str "x")

def zeroJob : SubmissionJob :=
  { submissionId := (zeros 32).text, problemId := "a", sourceCode := "x", username := "ann" }

theorem parseBody_submitJson :
    ApiServer.parseBody textConfig (JsonText.print submitJson) = some submitJson := by
  have hplain : submitJson.Plain := plain_set (plain_set plain_null plain_str) plain_str
  have hutf8 : submitJson.Utf8 := by
    simp +decide [submitJson, utf8_objSet_iff]
  rw [ApiServer.parseBody, textConfig, parseText_print hplain hutf8]
  rfl

theorem acceptSubmission_zeroJob :
    ApiServer.acceptSubmission textConfig zeroSurroundings "ann" (JsonText.print submitJson) =
      .ok (.ok zeroJob) := by
  rw [ApiServer.acceptSubmission, parseBody_submitJson]
  rfl

/-- The payload of the job, and the queue with nothing else in it. -/
def zeroPayload : Bytes := JsonText.print (submissionJobJson zeroJob)

def zeroQueue : Store := Store.put (fun _ => none) queueKey (listEntry ([] ++ [zeroPayload]))

theorem zeroJob_payload : submissionJobToJson textConfig.format zeroJob = .ok zeroPayload :=
  dumpText_jsonText ((utf8_submissionJobJson zeroJob).mpr (by unfold SubmissionJob.Utf8; decide))

theorem zeroQueue_live : zeroQueue.live 0 queueKey = some (.list ([] ++ [zeroPayload])) := by
  rw [Store.live, zeroQueue, Store.put_self]
  rfl

theorem stored_iff_one :
    Stored textConfig 0 zeroJob
        (interp (serveAlone 0) zeroQueue (iteration textConfig (printing "1"))) ↔
      Storable textConfig (printing "1") zeroJob :=
  stored_iff acceptSubmission_zeroJob zeroJob_payload zeroQueue_live

def problemOne : ProblemInfo := { id := "a", testCaseCount := 1 }

theorem compiles_printing (out : Bytes) :
    Compiles jsonText "p" "s" (printing out) zeroJob problemOne where
  found := rfl
  supported := rfl
  createDirectories := rfl
  success := by
    show (compileSource (fun _ => .exited 0 []) _ _ _).success = true
    rfl

theorem evaluation_byteFF : ∃ result, evaluation textConfig (printing [0xFF]) zeroJob = .ok result ∧
    submissionResultToJson jsonText result = .error (.typeError 316) := by
  refine ⟨_, (evaluateSubmission_of_compiles (compiles_printing _)).trans (if_neg ?_), ?_⟩
  · simp [printing]
  · have hnot : ¬ ValidUtf8 [0xFF] := by decide
    rw [submissionResultToJson, JsonFormat.dumpText, jsonText.dump_eq_none_iff.mpr]
    rw [utf8_submissionResultJson]
    rintro ⟨-, -, -, -, -, h⟩
    rw [judgeTests_testResults] at h
    exact hnot (h _ List.mem_cons_self).2.1

/-- **A program that prints the byte `0xFF` brings the iteration down**: `dump()`
throws, the exception leaves `worker_loop`, and the job is no longer in the queue. -/
theorem byteFF_escapes :
    ApiServer.acceptSubmission textConfig zeroSurroundings "ann" (JsonText.print submitJson) =
        .ok (.ok zeroJob) ∧
      submissionJobToJson textConfig.format zeroJob = .ok zeroPayload ∧
      zeroQueue.live 0 queueKey = some (.list ([] ++ [zeroPayload])) ∧
      (interp (serveAlone 0) zeroQueue (iteration textConfig (printing [0xFF]))).2 =
        .error (.json (.typeError 316)) ∧
      (interp (serveAlone 0) zeroQueue (iteration textConfig (printing [0xFF]))).1 queueKey =
        none ∧
      ¬ Stored textConfig 0 zeroJob
        (interp (serveAlone 0) zeroQueue (iteration textConfig (printing [0xFF]))) := by
  obtain ⟨result, heval, hjson⟩ := evaluation_byteFF
  have hout : interp (serveAlone 0) zeroQueue (iteration textConfig (printing [0xFF])) =
      (whileRunning 0 zeroQueue [] zeroJob, .error (.json (.typeError 316))) := by
    rw [interp_iteration zeroJob_payload zeroQueue_live, heval]
    simp only [show textConfig.format = jsonText from rfl, hjson]
  rw [hout]
  refine ⟨acceptSubmission_zeroJob, zeroJob_payload, zeroQueue_live, rfl, ?_, fun h => ?_⟩
  · have hne : queueKey ≠ statusKey zeroJob.submissionId :=
      ne_of_take take_queueKey (take_statusKey _) (by decide)
    dsimp only
    rw [whileRunning, Store.put_of_ne _ _ hne, Store.put_of_ne _ _ hne, Store.put_self]
    rfl
  · cases h.returns

end Ocpe
