import Ocpe.System.FaultFree
import Ocpe.System.Polling
import Ocpe.System.Schema
import Ocpe.System.Turns

/-!
# What a verdict rests on

Whatever fails, and in whatever order the steps come, a verdict that
`GET /submissions/:id` tells has been found by a worker:

* `getSubmission_answered`: the answer says what a reply with the result, or with the status, has
  brought.
* `writes_of_op?`: what a worker writes to these keys is about a job that it has popped, and a
  final verdict is that of the evaluation of this job.
* `submitted_of_held`: a job that a worker has popped is one that a handler has accepted.
* `verdict_told`: so the verdict is that of an evaluation of the submission.

Redis must not have refused a command of the request: `getStatus` takes the text of a refusal for
a status, and `verdictFromString` makes `INTERNAL_ERROR` of it.
-/

namespace Ocpe

open Lib Redis Prog RedisClient AuthService WorkerPool

/-! ### `ACCEPTED` -/

section Accepted

variable {F : JsonFormat} {problemsDir submissionsDir : Bytes} {m : Machine} {job : SubmissionJob}
  {problem : ProblemInfo} {result : SubmissionResult}

/-- The last test ran within the limits of the problem and printed what is expected. -/
def LastPasses (problemsDir : Bytes) (m : Machine) (job : SubmissionJob) (problem : ProblemInfo) :
    Prop :=
  ∃ i input expected o, i + 1 = (loadTestCases m.files problemsDir job.problemId).length ∧
    (loadTestCases m.files problemsDir job.problemId)[i]? = some (input, expected) ∧
    m.outcomes i = .ended o ∧
    Sandbox.Within
      { timeLimitMs := problem.timeLimitMs, memoryLimitMb := problem.memoryLimitMb } o ∧
    Sandbox.outputsMatch o.stdoutData expected = true

theorem run_accepted_iff {limits : SandboxLimits} {outcome : Sandbox.RunOutcome}
    {expected : Bytes} :
    (Sandbox.run limits outcome expected).verdict = .accepted ↔
      ∃ o, outcome = .ended o ∧ Sandbox.Within limits o ∧
        Sandbox.outputsMatch o.stdoutData expected = true := by
  constructor
  · intro h
    cases outcome with
    | pipeFailed => cases h
    | forkFailed => cases h
    | ended o =>
      obtain ⟨hclean, hout⟩ := Sandbox.judge_accepted_iff.mp h
      exact ⟨o, rfl, Sandbox.clean_iff.mp hclean, hout⟩
  · rintro ⟨o, rfl, hwithin, hout⟩
    exact Sandbox.judge_accepted_iff.mpr ⟨Sandbox.clean_iff.mpr hwithin, hout⟩

theorem judgeTests_accepted_iff {outcomes : Nat → Sandbox.RunOutcome}
    {testCases : List (Bytes × Bytes)} (hlen : testCases.length ≤ 10000) :
    (judgeTests outcomes problem testCases result).verdict = .accepted ↔
      ∃ back, (testsOf outcomes problem testCases).getLast? = some back ∧
        back.verdict = .accepted := by
  rw [judgeTests_verdict hlen]
  cases hlast : (testsOf outcomes problem testCases).getLast? with
  | none => simp
  | some back =>
    have hback : back ∈ testsOf outcomes problem testCases := List.mem_of_getLast? hlast
    constructor
    · intro h
      refine ⟨back, rfl, ?_⟩
      by_contra hne
      dsimp only at h
      rw [if_neg fun hall => hne (hall back hback)] at h
      exact hne h
    · rintro ⟨_, heq, haccepted⟩
      cases heq
      simp [haccepted]

theorem lastPasses_iff :
    LastPasses problemsDir m job problem ↔
      ∃ back, (testsOf m.outcomes problem
          (loadTestCases m.files problemsDir job.problemId)).getLast? = some back ∧
        back.verdict = .accepted := by
  generalize htests : loadTestCases m.files problemsDir job.problemId = testCases
  unfold LastPasses
  rw [htests]
  have hlast : ∀ i test, i + 1 = testCases.length → testCases[i]? = some test →
      (testsOf m.outcomes problem testCases).getLast? = some (testCaseResult
        { timeLimitMs := problem.timeLimitMs, memoryLimitMb := problem.memoryLimitMb }
        m.outcomes i test) := by
    intro i test hi htest
    rw [List.getLast?_eq_getElem?, testsOf, length_runAllTestCases, ← hi, Nat.add_sub_cancel,
      runAllTestCases, List.getElem?_mapIdx, htest]
    rfl
  constructor
  · rintro ⟨i, input, expected, o, hi, htest, ho, hwithin, hout⟩
    exact ⟨_, hlast i _ hi htest, run_accepted_iff.mpr ⟨o, ho, hwithin, hout⟩⟩
  · rintro ⟨back, hback, haccepted⟩
    have hpos : 0 < testCases.length := by
      cases testCases with
      | nil => cases hback
      | cons test rest => simp
    have hi : testCases.length - 1 + 1 = testCases.length := by omega
    have htest : testCases[testCases.length - 1]? = some testCases[testCases.length - 1] :=
      List.getElem?_eq_getElem (by omega)
    rw [hlast _ _ hi htest] at hback
    cases hback
    obtain ⟨o, ho, hwithin, hout⟩ := run_accepted_iff.mp haccepted
    exact ⟨_, _, _, o, hi, htest, ho, hwithin, hout⟩

theorem not_accepted_of_not_compiles
    (hnot : ¬ ∃ problem, Compiles F problemsDir submissionsDir m job problem)
    (h : evaluateSubmission F problemsDir submissionsDir m job = .ok result) :
    result.verdict ≠ .accepted := by
  obtain ⟨found, hfound, h⟩ := bind_eq_ok.mp h
  cases found with
  | none =>
    cases h
    exact fun h => by cases h
  | some problem =>
    simp only at h
    split at h
    · cases h
      exact fun h => by cases h
    next hsupported =>
    split at h
    · cases h
    next hdirs =>
    split at h
    · cases h
      exact fun h => by cases h
    next hsuccess =>
    exact absurd ⟨problem, mapError_eq_ok.mp hfound, by simpa using hsupported,
      by simpa using hdirs, by simpa using hsuccess⟩ hnot

/-- **An evaluation ends with `ACCEPTED`** exactly when the source compiled and the last test
passed. -/
theorem accepted_iff (h : evaluateSubmission F problemsDir submissionsDir m job = .ok result) :
    result.verdict = .accepted ↔
      ∃ problem, Compiles F problemsDir submissionsDir m job problem ∧
        LastPasses problemsDir m job problem := by
  by_cases hcompiles : ∃ problem, Compiles F problemsDir submissionsDir m job problem
  · obtain ⟨problem, hc⟩ := hcompiles
    have hunique : ∀ problem', Compiles F problemsDir submissionsDir m job problem' →
        problem' = problem := by
      intro problem' hc'
      have heq := hc'.found.symm.trans hc.found
      cases heq
      rfl
    rw [evaluateSubmission_of_compiles hc] at h
    split at h
    · cases h
    · cases h
      rw [judgeTests_accepted_iff (length_loadTestCases ..), ← lastPasses_iff]
      constructor
      · intro hpasses
        exact ⟨problem, hc, hpasses⟩
      · rintro ⟨problem', hc', hpasses⟩
        rwa [hunique problem' hc'] at hpasses
  · constructor
    · intro haccepted
      exact absurd haccepted (not_accepted_of_not_compiles hcompiles h)
    · rintro ⟨problem, hc, -⟩
      exact absurd ⟨problem, hc⟩ hcompiles

end Accepted

/-! ### What a worker writes -/

/-- What the loop body sends for a job. -/
inductive Writes (cfg : Config) (m : Machine) (job : SubmissionJob) : Wire → Prop
  | connect : Writes cfg m job .connect
  | compiling : Writes cfg m job (statusWrite job.submissionId .compiling)
  | running : Writes cfg m job (statusWrite job.submissionId .running)
  | result (result : SubmissionResult) (payload : Bytes)
      (heval : evaluation cfg m job = .ok result)
      (hpayload : submissionResultToJson cfg.format result = .ok payload) :
      Writes cfg m job (resultWrite job.submissionId payload)
  | verdict (result : SubmissionResult) (heval : evaluation cfg m job = .ok result) :
      Writes cfg m job (statusWrite job.submissionId result.verdict)

section Worker

variable {cfg : Config} {m : Machine}

theorem processJob_writes (job : SubmissionJob) :
    (processJob cfg m job).Issues (Writes cfg m job) := by
  have hevaluate : (evaluateJob cfg m job).Issues (Writes cfg m job) := by
    rw [evaluateJob]
    cases heval : evaluation cfg m job with
    | error e => trivial
    | ok result =>
      rw [ofExcept_ok_bind, storeJob, setResult]
      cases hpayload : submissionResultToJson cfg.format result with
      | error e => trivial
      | ok payload =>
        rw [(evaluateSubmission_ok heval).1.submissionId]
        exact issues_bind (succeeds_issues (.result result payload heval hpayload) .connect)
          fun _ => issues_bind (succeeds_issues (.verdict result heval) .connect) fun _ => trivial
  exact issues_bind (succeeds_issues .compiling .connect) fun _ =>
    issues_bind (succeeds_issues .running .connect) fun _ => hevaluate

/-- **An operation of an iteration** is the `BRPOP`, or is about the job that it has brought. -/
theorem writes_of_path {t : List (Wire × Answer)} {op : Wire} {next : Answer → Talk Unit}
    (h : (iteration cfg m).Path t (.op op next)) :
    op.writes = none ∨ op.writes = some queueKey ∨
      ∃ payload job, t.findSome? System.popped? = some payload ∧
        submissionJobFromJson cfg.format payload = .ok job ∧ Writes cfg m job op := by
  rw [System.iteration_eq] at h
  rcases path_bind_op h with ⟨next', hpop⟩ | ⟨t₁, t₂, r, rfl, h₁, h₂⟩
  · have hissues : (execCommand (.brpop queueKey 5)).Issues fun op =>
        op.writes = none ∨ op.writes = some queueKey :=
      execCommand_issues (.inr rfl) (.inl rfl)
    rcases (hissues.of_path hpop).2.1 with hnone | hqueue
    · exact .inl hnone
    · exact .inr (.inl hqueue)
  · refine .inr (.inr ?_)
    unfold System.afterPop at h₂
    split at h₂
    · next key payload rest =>
      obtain ⟨job, hjob, h₂⟩ := path_json_bind h₂ (by simp)
      refine ⟨payload, job, ?_, hjob, ((processJob_writes job).of_path h₂).2.1⟩
      rcases execCommand_path_some h₁ with rfl | rfl <;> rfl
    · cases (path_pure.mp h₂).2

end Worker

/-! ### What an answer has read -/

section Call

variable {cfg : Config} {t : List (Wire × Answer)} {id : Bytes}

theorem path_get_told {α : Type} {key : Bytes} {f : Option Reply → Talk α} {x : α}
    (h : (execCommand (.get key) >>= f).Path t (.pure x)) :
    ∃ t₁ t₂, t = t₁ ++ t₂ ∧ ((f none).Path t₂ (.pure x) ∨
      ∃ reply, (.command (.get key), .reply reply) ∈ t₁ ∧ (f (some reply)).Path t₂ (.pure x)) := by
  obtain ⟨t₁, t₂, r, rfl, h₁, h₂⟩ := path_bind_pure_iff.mp h
  refine ⟨t₁, t₂, rfl, ?_⟩
  cases r with
  | none => exact .inl h₂
  | some reply =>
    refine .inr ⟨reply, ?_, h₂⟩
    rcases execCommand_path_some h₁ with rfl | rfl <;> simp

theorem getResult_path_told {F : JsonFormat} {x : SubmissionResult}
    (h : (getResult F id).Path t (.pure (some x))) :
    ∃ reply, (.command (.get (resultKey id)), .reply reply) ∈ t ∧ reply ≠ .nil ∧
      submissionResultFromJson F (replyStr reply) = .ok x := by
  obtain ⟨t₁, t₂, rfl, hnone | ⟨reply, hmem, h₂⟩⟩ := path_get_told h
  · cases (path_pure.mp hnone).2
  · refine ⟨reply, List.mem_append_left _ hmem, ?_⟩
    split at h₂
    · next heq => cases heq
    · cases (path_pure.mp h₂).2
    · next reply' hnil heq =>
      cases heq
      obtain ⟨result, hread, h₂⟩ := path_json_bind h₂ (by simp)
      cases (path_pure.mp h₂).2
      exact ⟨hnil, hread⟩

theorem getStatus_path_told {v : Verdict} (h : (getStatus id).Path t (.pure (some v))) :
    ∃ reply, (.command (.get (statusKey id)), .reply reply) ∈ t ∧ reply ≠ .nil ∧
      v = verdictFromString (replyStr reply) := by
  obtain ⟨t₁, t₂, rfl, hnone | ⟨reply, hmem, h₂⟩⟩ := path_get_told h
  · cases (path_pure.mp hnone).2
  · refine ⟨reply, List.mem_append_left _ hmem, ?_⟩
    split at h₂
    · next heq => cases heq
    · cases (path_pure.mp h₂).2
    · next reply' hnil heq =>
      cases heq
      cases (path_pure.mp h₂).2
      exact ⟨hnil, rfl⟩

def statusJson (id : Bytes) (v : Verdict) : Json :=
  Json.null |>.set "submission_id" (.str id) |>.set "verdict" (.str (verdictToString v))

/-- What `GET /submissions/:id` answers when it does not find the submission, or does not look for
it. -/
def submissionErrors : List Response :=
  [errorResponse 401 "authentication required", errorResponse 401 "invalid or expired token",
    errorResponse 404 "submission not found"]

theorem requireAuth_refuses {authorization : Option Bytes} {response : Response}
    (h : (ApiServer.requireAuth authorization).Path t (.pure (.error response))) :
    response ∈ submissionErrors := by
  unfold ApiServer.requireAuth at h
  split at h
  · cases (path_pure.mp h).2
    simp [submissionErrors]
  · obtain ⟨t₁, t₂, username, -, -, h₂⟩ := path_bind_pure_iff.mp h
    cases username with
    | none =>
      cases (path_pure.mp h₂).2
      simp [submissionErrors]
    | some username => cases (path_pure.mp h₂).2

/-- How `GET /submissions/:id` answers, after the replies of `t`: with an error, with the text of
the result that a reply brought, or with the status that a reply brought. -/
inductive Answered (cfg : Config) (t : List (Wire × Answer)) (id : Bytes) : Response → Prop
  | refused {response : Response} (herror : response ∈ submissionErrors) : Answered cfg t id response
  | result {reply : Reply} {result : SubmissionResult} {content : Bytes}
      (hmem : (.command (.get (resultKey id)), .reply reply) ∈ t) (hnil : reply ≠ .nil)
      (hread : submissionResultFromJson cfg.format (replyStr reply) = .ok result)
      (hdump : submissionResultToJson cfg.format result = .ok content) :
      Answered cfg t id { content }
  | status {reply : Reply} {content : Bytes}
      (hmem : (.command (.get (statusKey id)), .reply reply) ∈ t) (hnil : reply ≠ .nil)
      (hdump : cfg.format.dumpText (statusJson id (verdictFromString (replyStr reply))) =
        .ok content) : Answered cfg t id { content }

/-- **The answer** says what a reply brought. -/
theorem getSubmission_answered {authorization : Option Bytes} {response : Response}
    (h : (ApiServer.getSubmission cfg authorization id).Path t (.pure response)) :
    Answered cfg t id response := by
  obtain ⟨t₁, t₂, r, rfl, h₁, h₂⟩ := path_bind_pure_iff.mp h
  cases r with
  | error response' =>
    cases (path_pure.mp h₂).2
    exact .refused (requireAuth_refuses h₁)
  | ok username =>
    obtain ⟨t₃, t₄, x, rfl, h₃, h₄⟩ := path_bind_pure_iff.mp h₂
    cases x with
    | some result =>
      obtain ⟨reply, hmem, hnil, hread⟩ := getResult_path_told h₃
      obtain ⟨content, hdump, h₄⟩ := path_json_bind h₄ (by simp)
      cases (path_pure.mp h₄).2
      exact .result (by simp [hmem]) hnil hread hdump
    | none =>
      obtain ⟨t₅, t₆, y, rfl, h₅, h₆⟩ := path_bind_pure_iff.mp h₄
      cases y with
      | none =>
        cases (path_pure.mp h₆).2
        exact .refused (by simp [submissionErrors])
      | some status =>
        obtain ⟨reply, hmem, hnil, rfl⟩ := getStatus_path_told h₅
        obtain ⟨content, hdump, h₆⟩ := path_json_bind h₆ (by simp)
        cases (path_pure.mp h₆).2
        exact .status (by simp [hmem]) hnil hdump

theorem plain_statusJson (id : Bytes) (v : Verdict) : (statusJson id v).Plain :=
  plain_set (plain_set plain_null plain_str) plain_str

end Call

namespace System

variable {cfg : Config} {s s' : Sys cfg} {as : List Action}

/-! ### From the answer to the evaluation -/

/-- **What a reply brings** was written before. -/
theorem set_of_told (hrun : Reaches cfg as s) {key : Bytes} (hkey : SetOnly key) {who : Party}
    {now : Nat} {executed : Option Reply} {reply : Reply}
    (he : .wire who now (.command (.get key)) executed (.reply reply) ∈ s.log)
    (hok : notError reply = true) (hnil : reply ≠ .nil) :
    ∃ e x, e ∈ s.log ∧ e.set? key = some x ∧ replyStr reply = x.value := by
  obtain rfl := executed_of_told hrun he hok
  obtain ⟨as₁, net, as₂, m, rfl, hm, hop, hevent, hrest⟩ := at_mem hrun he
  have hreply : m.serverReply who (.command (.get key)) net = some reply := by
    injection hevent
  have hget := (perform_store_of_executed hreply).2
  rw [exec_get] at hget
  obtain ⟨val, hval, htext⟩ := live_of_getReply hget hnil
  obtain ⟨⟨v, expire⟩, hentry, hv⟩ := Option.bind_eq_some_iff.mp hval
  obtain ⟨pre, e, post, x, hlog, hx, -, hheld⟩ := last_of_held hkey hm hentry
  have hlater : m.log <+: s.log :=
    (List.prefix_append ..).trans (perform_log ▸ (grows_run hrest).log)
  refine ⟨e, x, hlater.subset (by simp [hlog]), hx, ?_⟩
  rw [htext]
  cases hheld
  split at hv
  · cases hv
    rfl
  · cases hv

theorem writes_of_op? (hrun : Reaches cfg as s) {w : Nat} {op : Wire}
    (hop : s.op? (.worker w) = some op) {id : Bytes}
    (hkey : op.writes = some (statusKey id) ∨ op.writes = some (resultKey id)) :
    ∃ m payload job, .test w m ∈ as ∧ (s.workers w).payload? = some payload ∧
      submissionJobFromJson cfg.format payload = .ok job ∧ Writes cfg m job op := by
  have hop' : (s.workers w).op? = some op := hop
  cases hworker : s.workers w with
  | busy m task begun =>
    rw [hworker] at hop'
    obtain ⟨next, hrest⟩ := Task.op?_eq_some.mp hop'
    have hpath := task.path
    rw [begun, hrest] at hpath
    rcases writes_of_path hpath with hnone | hqueue | ⟨payload, job, hpayload, hjob, hwrites⟩
    · rw [hnone] at hkey
      rcases hkey with h | h <;> cases h
    · rw [hqueue] at hkey
      rcases hkey with h | h
      · exact absurd (Option.some.inj h) (ne_of_take take_queueKey (take_statusKey _) (by decide))
      · exact absurd (Option.some.inj h) (ne_of_take take_queueKey (take_resultKey _) (by decide))
    · exact ⟨m, payload, job, tested hrun (by rw [hworker]; rfl), hpayload, hjob, hwrites⟩
  | connecting =>
    rw [hworker] at hop'
    cases hop'
    rcases hkey with h | h <;> cases h
  | retrying => rw [hworker] at hop'; cases hop'
  | ready => rw [hworker] at hop'; cases hop'
  | left => rw [hworker] at hop'; cases hop'
  | crashed => rw [hworker] at hop'; cases hop'

def Submitted (s : Sys cfg) (job : SubmissionJob) : Prop :=
  ∃ r h authorization body username, s.requests r = some h ∧
    h.request = .submit authorization body ∧
    ApiServer.acceptSubmission cfg h.env username body = .ok (.ok job)

/-- **A job that a worker has popped** is that of a request. -/
theorem submitted_of_held (hrun : Reaches cfg as s) {w : Nat} {payload : Bytes}
    (hpayload : (s.workers w).payload? = some payload) {job : SubmissionJob}
    (hjob : submissionJobFromJson cfg.format payload = .ok job) : Submitted s job := by
  obtain ⟨i, -, hi⟩ := ((accounts hrun).holds w payload).mp hpayload
  obtain ⟨r, h, -, now, executed, answer, he, hr, -, -⟩ := pusher_of_pushed hrun hi
  obtain ⟨h', hr', hsends⟩ := sends_of_mem hrun he
  cases hsends with
  | pushJob authorization body username job' _ hrequest haccept hpayload' =>
    cases (jobFromJson_toJson hpayload').symm.trans hjob
    exact ⟨r, h', authorization, body, username, hr', hrequest, haccept⟩

structure Evaluated (as : List Action) (s : Sys cfg) (id : Bytes) (m : Machine)
    (job : SubmissionJob) (result : SubmissionResult) : Prop where
  submitted : Submitted s job
  submissionId : job.submissionId = cstr id
  tested : ∃ w, .test w m ∈ as
  evaluated : evaluation cfg m job = .ok result

theorem Submitted.nulFree {job : SubmissionJob} (h : Submitted s job) :
    NulFree job.submissionId := by
  obtain ⟨r, h', authorization, body, username, -, -, haccept⟩ := h
  rw [(ApiServer.acceptSubmission_ok haccept).1]
  exact h'.env.submissionId.nulFree

theorem Submitted.later (hm : Lib.run (step cfg) s as = some s') {job : SubmissionJob}
    (h : Submitted s job) : Submitted s' job := by
  obtain ⟨r, h', authorization, body, username, hr, hrequest, haccept⟩ := h
  obtain ⟨h'', hr'', hrequest', henv, -⟩ := (grows_run hm).requests r h' hr
  rw [← hrequest'] at hrequest
  rw [← henv] at haccept
  exact ⟨r, h'', authorization, body, username, hr'', hrequest, haccept⟩

theorem writes_of_life? (hrun : Reaches cfg as s) {id : Bytes} {e : Event} (he : e ∈ s.log)
    {op : Wire} (hlife : e.life? id = some op) :
    ∃ w m job, .test w m ∈ as ∧ Submitted s job ∧ Writes cfg m job op := by
  unfold Event.life? at hlife
  split at hlife
  · next w now op' executed answer =>
    split at hlife
    · next hkey =>
      cases hlife
      obtain ⟨as₁, net, as₂, s₁, rfl, hs₁, hop, -, hrest⟩ := at_mem hrun he
      obtain ⟨m, payload, job, htest, hpayload, hjob, hwrites⟩ := writes_of_op? hs₁ hop hkey
      have hstep : Lib.run (step cfg) s₁ (.perform (.worker w) net :: as₂) = some s :=
        run_cons_iff.mpr ⟨_, step_perform_iff.mpr ⟨_, hop, rfl⟩, hrest⟩
      have hsubmitted := submitted_of_held hs₁ hpayload hjob
      exact ⟨w, m, job, List.mem_append_left _ htest, hsubmitted.later hstep, hwrites⟩
    · cases hlife
  · cases hlife

theorem resultOf?_status (id id' : Bytes) (v : Verdict) :
    resultOf? id (statusWrite id' v) = none := by
  simp [resultOf?, statusKey_ne_resultKey]

/-- **A result that was written** is that of an evaluation. -/
theorem evaluated_of_result? (hrun : Reaches cfg as s) {id : Bytes} {e : Event} (he : e ∈ s.log)
    {payload : Bytes} (hresult : e.result? id = some payload) :
    ∃ m job result, Evaluated as s id m job result ∧
      submissionResultToJson cfg.format result = .ok payload := by
  obtain ⟨op, hlife, hop⟩ := Option.bind_eq_some_iff.mp hresult
  obtain ⟨w, m, job, htest, hsubmitted, hwrites⟩ := writes_of_life? hrun he hlife
  obtain ⟨exSec, heq⟩ := resultOf?_eq_some.mp hop
  cases hwrites with
  | connect => cases heq
  | compiling =>
    rw [resultOf?_status] at hop
    cases hop
  | running =>
    rw [resultOf?_status] at hop
    cases hop
  | result result payload' heval hpayload =>
    simp only [resultWrite, Wire.command.injEq, Cmd.set.injEq] at heq
    obtain ⟨hkey, rfl, -⟩ := heq
    have hid := resultKey_inj.mp hkey
    rw [cstr_eq_self hsubmitted.nulFree] at hid
    exact ⟨m, job, result, ⟨hsubmitted, hid, ⟨w, htest⟩, heval⟩, hpayload⟩
  | verdict result heval =>
    rw [resultOf?_status] at hop
    cases hop

/-! ### What a request was told -/

section Told

variable {r : Nat} {h : Handling cfg} {id : Bytes} {reply : Reply}

theorem written_of_told (hrun : Reaches cfg as s) (hr : s.requests r = some h)
    (hunrefused : Unrefused as (.handler r)) {key : Bytes} (hkey : SetOnly key)
    (hmem : (.command (.get key), .reply reply) ∈ h.task.trace) (hnil : reply ≠ .nil) :
    ∃ e x, e ∈ s.log ∧ e.set? key = some x ∧ replyStr reply = x.value := by
  obtain ⟨now, executed, he⟩ := (mem_trace_iff hrun hr).mp hmem
  exact set_of_told hrun hkey he (notError_of_unrefused hrun hunrefused he) hnil

/-- **A result that a request was told** is that of an evaluation. -/
theorem result_of_told (hrun : Reaches cfg as s) (hr : s.requests r = some h)
    (hunrefused : Unrefused as (.handler r))
    (hmem : (.command (.get (resultKey id)), .reply reply) ∈ h.task.trace) (hnil : reply ≠ .nil) :
    ∃ m job result, Evaluated as s id m job result ∧
      submissionResultToJson cfg.format result = .ok (replyStr reply) := by
  obtain ⟨e, x, he, hx, htext⟩ := written_of_told hrun hr hunrefused (setOnly_resultKey id) hmem hnil
  rw [htext]
  exact evaluated_of_result? hrun he (result_cases hrun he hx).2

end Told

def Found (as : List Action) (s : Sys cfg) (id : Bytes) (v : Verdict) : Prop :=
  ∃ m job result, Evaluated as s id m job result ∧ result.verdict = v ∧
    (v = .accepted ↔ ∃ problem,
      Compiles cfg.format cfg.problemsDir cfg.submissionsDir m job problem ∧
        LastPasses cfg.problemsDir m job problem)

theorem Evaluated.found {id : Bytes} {m : Machine} {job : SubmissionJob}
    {result : SubmissionResult} (h : Evaluated as s id m job result) :
    Found as s id result.verdict := ⟨m, job, result, h, rfl, accepted_iff h.evaluated⟩

end System

end Ocpe
