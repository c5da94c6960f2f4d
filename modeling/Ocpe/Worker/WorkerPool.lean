import Ocpe.Api.Server
import Ocpe.Shared.Keys
import Ocpe.Worker.Evaluator

/-!
# The worker loop

`worker/src/worker.cpp`: the body of the loop of `WorkerPool::worker_loop`, as one
program.  The `Machine` is what the evaluation of the job meets.
-/

namespace Ocpe

open Lib Redis Prog RedisClient

namespace WorkerPool

variable (cfg : Config) (m : Machine)

/-- The evaluation of the job in `m`. -/
abbrev evaluation (job : SubmissionJob) : Except Exn SubmissionResult :=
  evaluateSubmission cfg.format cfg.problemsDir cfg.submissionsDir m job

/-- The loop body from the final status on. -/
def closeJob (job : SubmissionJob) (result : SubmissionResult) : Talk Unit := do
  let _ ← setStatus job.submissionId result.verdict

/-- The loop body from `set_result` on. -/
def storeJob (job : SubmissionJob) (result : SubmissionResult) : Talk Unit := do
  let _ ← setResult cfg.format result
  closeJob job result

/-- The loop body from `evaluate_submission` on. -/
def evaluateJob (job : SubmissionJob) : Talk Unit := do
  storeJob cfg job (← Prog.ofExcept (evaluation cfg m job))

/-- The loop body from the status `RUNNING` on. -/
def runJob (job : SubmissionJob) : Talk Unit := do
  let _ ← setStatus job.submissionId .running
  evaluateJob cfg m job

/-- The loop body for a job. -/
def processJob (job : SubmissionJob) : Talk Unit := do
  let _ ← setStatus job.submissionId .compiling
  runJob cfg m job

/-- The loop body. -/
def iteration : Talk Unit := do
  match ← dequeueJob cfg.format 5 with
  | none => return ()
  | some job => processJob cfg m job

variable {cfg m}

/-- **A job that the loop body is through with** was evaluated, and its result was sent
to Redis. -/
theorem processJob_path_pure {job : SubmissionJob} {t : List (Wire × Answer)}
    (h : (processJob cfg m job).Path t (.pure ())) :
    ∃ result payload a, evaluation cfg m job = .ok result ∧
      submissionResultToJson cfg.format result = .ok payload ∧
      (.command (.set (resultKey job.submissionId) payload (some 86400)), a) ∈ t := by
  obtain ⟨t₁, u, -, rfl, -, h⟩ := path_bind_pure_iff.mp h
  obtain ⟨t₂, u, -, rfl, -, h⟩ := path_bind_pure_iff.mp h
  obtain ⟨t₃, u, result, rfl, hresult, h⟩ := path_bind_pure_iff.mp h
  obtain ⟨t₄, u, ok, rfl, hset, -⟩ := path_bind_pure_iff.mp h
  cases heval : evaluation cfg m job with
  | error e => rw [heval] at hresult; cases (path_throw.mp hresult).2
  | ok result' =>
    rw [heval] at hresult
    obtain ⟨rfl, heq⟩ := path_pure.mp hresult
    cases heq
    cases hpayload : submissionResultToJson cfg.format result with
    | error e => rw [setResult, hpayload] at hset; cases (path_throw.mp hset).2
    | ok payload =>
      rw [setResult, hpayload] at hset
      obtain ⟨a, t', rfl⟩ := succeeds_path_pure hset
      rw [(evaluateSubmission_ok heval).1.submissionId]
      exact ⟨result, payload, a, rfl, hpayload, by simp⟩

/-! ### The stages of the loop body -/

abbrev statusWrite (submissionId : Bytes) (status : Verdict) : Wire :=
  .command (.set (statusKey submissionId) (cstr (verdictToString status)) (some 86400))

abbrev resultWrite (submissionId payload : Bytes) : Wire :=
  .command (.set (resultKey submissionId) payload (some 86400))

variable (cfg m) in
/-- Where the loop body stands with a job: what it has sent, and how it goes on. -/
inductive Stage (job : SubmissionJob) : List Wire → Talk Unit → Prop
  | start : Stage job [] (processJob cfg m job)
  | compiling : Stage job [statusWrite job.submissionId .compiling] (runJob cfg m job)
  | running :
      Stage job [statusWrite job.submissionId .compiling, statusWrite job.submissionId .running]
        (evaluateJob cfg m job)
  | stored (result : SubmissionResult) (payload : Bytes)
      (heval : evaluation cfg m job = .ok result)
      (hpayload : submissionResultToJson cfg.format result = .ok payload) :
      Stage job [statusWrite job.submissionId .compiling, statusWrite job.submissionId .running,
        resultWrite job.submissionId payload] (closeJob job result)
  | closed (result : SubmissionResult) (payload : Bytes)
      (heval : evaluation cfg m job = .ok result)
      (hpayload : submissionResultToJson cfg.format result = .ok payload) :
      Stage job [statusWrite job.submissionId .compiling, statusWrite job.submissionId .running,
        resultWrite job.submissionId payload, statusWrite job.submissionId result.verdict] (.pure ())

/-- The operation sets the status or the result of the submission. -/
def SetsOf (submissionId : Bytes) (op : Wire) : Prop :=
  (∃ v, op = statusWrite submissionId v) ∨ ∃ payload, op = resultWrite submissionId payload

/-- **One operation that is replied to leads to the next stage.** -/
theorem Stage.next {job : SubmissionJob} {ops : List Wire} {op : Wire} {go : Answer → Talk Unit}
    (h : Stage cfg m job ops (.op op go)) (r : Reply) :
    SetsOf job.submissionId op ∧ Stage cfg m job (ops ++ [op]) (go (.reply r)) := by
  generalize hq : Prog.op op go = q at h
  cases h with
  | start => cases hq; exact ⟨.inl ⟨_, rfl⟩, .compiling⟩
  | compiling => cases hq; exact ⟨.inl ⟨_, rfl⟩, .running⟩
  | running =>
    rw [evaluateJob] at hq
    cases heval : evaluation cfg m job with
    | error e => rw [heval] at hq; cases hq
    | ok result =>
      rw [heval, ofExcept_ok_bind, storeJob, setResult] at hq
      cases hpayload : submissionResultToJson cfg.format result with
      | error e => rw [hpayload] at hq; cases hq
      | ok payload =>
        rw [hpayload, (evaluateSubmission_ok heval).1.submissionId] at hq
        cases hq
        exact ⟨.inr ⟨_, rfl⟩, .stored result payload heval hpayload⟩
  | stored result payload heval hpayload =>
    cases hq
    exact ⟨.inl ⟨_, rfl⟩, .closed result payload heval hpayload⟩
  | closed result payload heval hpayload => cases hq

theorem Stage.of_pure {job : SubmissionJob} {ops : List Wire}
    (h : Stage cfg m job ops (.pure ())) :
    ∃ result payload, evaluation cfg m job = .ok result ∧
      submissionResultToJson cfg.format result = .ok payload ∧
      ops = [statusWrite job.submissionId .compiling, statusWrite job.submissionId .running,
        resultWrite job.submissionId payload, statusWrite job.submissionId result.verdict] := by
  generalize hq : Prog.pure () = q at h
  cases h with
  | start => cases hq
  | compiling => cases hq
  | running =>
    rw [evaluateJob] at hq
    cases heval : evaluation cfg m job with
    | error e => rw [heval] at hq; cases hq
    | ok result =>
      rw [heval, ofExcept_ok_bind, storeJob, setResult] at hq
      cases hpayload : submissionResultToJson cfg.format result with
      | error e => rw [hpayload] at hq; cases hq
      | ok payload => rw [hpayload] at hq; cases hq
  | stored result payload heval hpayload => cases hq
  | closed result payload heval hpayload => exact ⟨result, payload, heval, hpayload, rfl⟩

/-! ### What has been sent at a stage -/

def statusOf? (submissionId : Bytes) : Wire → Option Verdict
  | .command (.set key value _) =>
    if key = statusKey submissionId then some (verdictFromString value) else none
  | _ => none

def resultOf? (submissionId : Bytes) : Wire → Option Bytes
  | .command (.set key value _) => if key = resultKey submissionId then some value else none
  | _ => none

theorem statusOf?_eq_some {id : Bytes} {op : Wire} {v : Verdict} :
    statusOf? id op = some v ↔ ∃ value exSec,
      op = .command (.set (statusKey id) value exSec) ∧ verdictFromString value = v := by
  constructor
  · intro h
    unfold statusOf? at h
    split at h
    · split at h
      · next hkey => cases h; exact ⟨_, _, by rw [hkey], rfl⟩
      · cases h
    · cases h
  · rintro ⟨value, exSec, rfl, rfl⟩
    simp [statusOf?]

theorem resultOf?_eq_some {id : Bytes} {op : Wire} {payload : Bytes} :
    resultOf? id op = some payload ↔ ∃ exSec,
      op = .command (.set (resultKey id) payload exSec) := by
  constructor
  · intro h
    unfold resultOf? at h
    split at h
    · split at h
      · next hkey => cases h; exact ⟨_, by rw [hkey]⟩
      · cases h
    · cases h
  · rintro ⟨exSec, rfl⟩
    simp [resultOf?]

section Sent

variable (id payload : Bytes) (v : Verdict)

theorem statusKey_ne_resultKey (id' : Bytes) : statusKey id ≠ resultKey id' :=
  ne_of_take (take_statusKey _) (take_resultKey _) (by decide)

@[simp] theorem statusOf?_statusWrite : statusOf? id (statusWrite id v) = some v := by
  simp [statusOf?]

@[simp] theorem statusOf?_resultWrite : statusOf? id (resultWrite id payload) = none := by
  simp [statusOf?, (statusKey_ne_resultKey id id).symm]

@[simp] theorem resultOf?_statusWrite : resultOf? id (statusWrite id v) = none := by
  simp [resultOf?, statusKey_ne_resultKey]

@[simp] theorem resultOf?_resultWrite : resultOf? id (resultWrite id payload) = some payload := by
  simp [resultOf?]

variable {id payload v} {job : SubmissionJob} {ops : List Wire} {q : Talk Unit}
  (h : Stage cfg m job ops q)

include h

/-- **The statuses of a job go forward**, from `COMPILING` on. -/
theorem Stage.statuses :
    (ops.filterMap (statusOf? job.submissionId)).Pairwise (fun v v' => v.rank ≤ v'.rank) ∧
      ∀ v ∈ ops.filterMap (statusOf? job.submissionId), 0 < v.rank := by
  cases h with
  | start => simp
  | compiling => simp [Verdict.rank]
  | running => simp [Verdict.rank]
  | stored result payload heval => simp [Verdict.rank]
  | closed result payload heval =>
    have hterminal : result.verdict.rank = 3 := (evaluateSubmission_ok heval).2
    have hcompiling : Verdict.compiling.rank = 1 := rfl
    have hrunning : Verdict.running.rank = 2 := rfl
    simp [hterminal, hcompiling, hrunning]

/-- **What has been sent once the result has**: it is the result of the evaluation, and
only behind it comes a verdict, the one of the result. -/
theorem Stage.of_result (hop : payload ∈ ops.filterMap (resultOf? job.submissionId)) :
    ∃ result, evaluation cfg m job = .ok result ∧
      submissionResultToJson cfg.format result = .ok payload ∧
      (ops = [statusWrite job.submissionId .compiling, statusWrite job.submissionId .running,
          resultWrite job.submissionId payload] ∨
        ops = [statusWrite job.submissionId .compiling, statusWrite job.submissionId .running,
          resultWrite job.submissionId payload, statusWrite job.submissionId result.verdict]) := by
  cases h with
  | start => simp at hop
  | compiling => simp at hop
  | running => simp at hop
  | stored result payload' heval hpayload =>
    obtain rfl : payload = payload' := by simpa using hop
    exact ⟨result, heval, hpayload, .inl rfl⟩
  | closed result payload' heval hpayload =>
    obtain rfl : payload = payload' := by simpa using hop
    exact ⟨result, heval, hpayload, .inr rfl⟩

/-- **Without a result there is no verdict.** -/
theorem Stage.result_of_terminal (hop : v ∈ ops.filterMap (statusOf? job.submissionId))
    (hv : v.Terminal) : ∃ payload, payload ∈ ops.filterMap (resultOf? job.submissionId) := by
  have hcompiling : ¬ Verdict.compiling.Terminal := by decide
  have hrunning : ¬ Verdict.running.Terminal := by decide
  cases h with
  | start => simp at hop
  | compiling =>
    obtain rfl : v = .compiling := by simpa using hop
    exact absurd hv hcompiling
  | running =>
    rcases (by simpa using hop : v = .compiling ∨ v = .running) with rfl | rfl
    · exact absurd hv hcompiling
    · exact absurd hv hrunning
  | stored result payload => exact ⟨payload, by simp⟩
  | closed result payload => exact ⟨payload, by simp⟩

end Sent

/-! ### An undisturbed iteration -/

theorem iteration_path {job : SubmissionJob} {payload : Bytes}
    (hpayload : submissionJobToJson cfg.format job = .ok payload) :
    (iteration cfg m).Path
      [(.command (.brpop queueKey 5), .reply (.arr [queueKey, payload]))]
      (processJob cfg m job) := by
  refine ⟨rfl, path_nil.mpr ?_⟩
  show (Talk.json (submissionJobFromJson cfg.format payload) >>= fun job => _) >>= _ = _
  rw [jobFromJson_toJson hpayload]
  rfl

theorem processJob_path {job : SubmissionJob} {result : SubmissionResult} {payload : Bytes}
    (heval : evaluation cfg m job = .ok result)
    (hpayload : submissionResultToJson cfg.format result = .ok payload) :
    (processJob cfg m job).Path
      [(.command (.set (statusKey job.submissionId) (cstr (verdictToString .compiling))
          (some 86400)), .reply (.status "OK")),
        (.command (.set (statusKey job.submissionId) (cstr (verdictToString .running))
          (some 86400)), .reply (.status "OK")),
        (.command (.set (resultKey job.submissionId) payload (some 86400)), .reply (.status "OK")),
        (.command (.set (statusKey job.submissionId) (cstr (verdictToString result.verdict))
          (some 86400)), .reply (.status "OK"))]
      (.pure ()) := by
  have hid := (evaluateSubmission_ok heval).1.submissionId
  refine ⟨rfl, rfl, ?_⟩
  show (evaluateJob cfg m job).Path _ _
  rw [evaluateJob, heval]
  show (storeJob cfg job result).Path _ _
  rw [storeJob, setResult, hpayload, hid]
  exact ⟨rfl, rfl, path_nil.mpr rfl⟩

end WorkerPool

end Ocpe
