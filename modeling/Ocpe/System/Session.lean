import Ocpe.System.Alone
import Ocpe.Worker.Stored

/-!
# Sessions

Runs that are put together from parties that move alone.

* `signUp`: the first request of every story, a registration of a free name, served by
  a Redis with nothing in it, for every name and password that the service takes.
* `worker_serves`: a worker connects and serves the next job of the queue, whatever job
  it is.
* Ann signs up and submits a solution.  Her handler and the worker share the writes of
  the status: `ann_overtaken` is the run in which the worker is through before the
  handler has written `PENDING`, and `ann_in_order` the one in which it comes after.
-/

namespace Ocpe.System

open Lib Redis RedisClient AuthService

section SignUp

variable (cfg : Config) (env : Surroundings) (username password : Bytes)

def signUpScript : Script :=
  .served
    [.get (userKey username),
      .set (userKey username) (credential cfg.sha256 env.salt password) none,
      .get (userKey username), .set (tokenKey env.token.text) username (some tokenTtlSec)]

def signedUpStore : Store :=
  Store.put (fun _ => none) (userKey username)
      (some ⟨.str (credential cfg.sha256 env.salt password), none⟩)
    |>.put (tokenKey env.token.text) (some ⟨.str username, some (tokenTtlSec * 1000)⟩)

/-- The state after the registration by request 0. -/
def signedUp (h : Handling cfg) : Sys cfg where
  store := signedUpStore cfg env username password
  requests := Function.update (fun _ => none) 0 (some h)
  log := (signUpScript cfg env username password).log (.handler 0) 0 (fun _ => none) .good

variable {cfg env username password}

theorem signUp_ending :
    (signUpScript cfg env username password).ending 0 (fun _ => none) .good =
      (signedUpStore cfg env username password, .good) := by
  simp [signUpScript, Script.served, Script.ending, exchange, signedUpStore]

theorem signUp_trace :
    (signUpScript cfg env username password).trace 0 (fun _ => none) .good =
      [(.command (.get (userKey username)), .reply .nil),
        (.command (.set (userKey username) (credential cfg.sha256 env.salt password) none),
          .reply (.status "OK")),
        (.command (.get (userKey username)),
          .reply (.str (credential cfg.sha256 env.salt password))),
        (.command (.set (tokenKey env.token.text) username (some tokenTtlSec)),
          .reply (.status "OK"))] := by
  have hfree : Store.live (fun _ => none) 0 (userKey username) = none := rfl
  have hstored : Store.live (Store.put (fun _ => none) (userKey username)
      (some ⟨.str (credential cfg.sha256 env.salt password), none⟩)) 0 (userKey username) =
      some (.str (credential cfg.sha256 env.salt password)) :=
    Store.live_put_self _ _ _ _ (by simp [Entry.Live])
  simp [signUpScript, Script.served, Script.trace, exchange, exec_get_of_none hfree,
    exec_get_of_str hstored]

/-- **A user signs up.** -/
theorem signUp {body : Bytes} {json : Json} (hbody : ApiServer.parseBody cfg body = some json)
    (husername : json.valueStr "username" "" = .ok username)
    (hpassword : json.valueStr "password" "" = .ok password)
    (hcheck : checkRegistration username password = none) :
    ∃ h, h.request = .register body ∧ h.env = env ∧
      Reaches cfg
        (.request 0 0 (.register body) env ::
          (signUpScript cfg env username password).map fun x => .perform (.handler 0) x.2)
        (signedUp cfg env username password h) := by
  obtain ⟨response, -, hpath⟩ :=
    @ApiServer.postRegister_path cfg env _ _ _ _ hbody husername hpassword hcheck
  let begun : Handling cfg := .begin cfg 0 (.register body) env
  let s₁ : Sys cfg := { requests := Function.update (fun _ => none) 0 (some begun) }
  have hr : s₁.requests 0 = some begun := by simp [s₁]
  rw [← signUp_trace] at hpath
  obtain ⟨h, -, hrequest, henv, -, hrun⟩ := handler_alone hr hpath
  refine ⟨h, hrequest, henv, run_cons_iff.mpr ⟨s₁, rfl, hrun.trans ?_⟩⟩
  show some { s₁ with
    store := ((signUpScript cfg env username password).ending 0 (fun _ => none) .good).1
    ctx := Function.update s₁.ctx (.api 0)
      ((signUpScript cfg env username password).ending 0 (fun _ => none) .good).2
    requests := Function.update s₁.requests 0 (some h)
    log := [] ++ (signUpScript cfg env username password).log (.handler 0) 0 (fun _ => none)
      .good } = _
  have hctx : Function.update s₁.ctx (.api 0) .good = s₁.ctx := Function.update_eq_self ..
  rw [signUp_ending, hctx]
  simp [s₁, signedUp]

end SignUp

/-! ### A worker serves a job -/

section WorkerServes

variable (cfg : Config) (s : Sys cfg) (w : Nat) (m : Machine) (job : SubmissionJob)
  (result : SubmissionResult) (stored : Bytes)

def iterationScript : Script :=
  .served
    [.brpop queueKey 5,
      .set (statusKey job.submissionId) (cstr (verdictToString .compiling)) (some 86400),
      .set (statusKey job.submissionId) (cstr (verdictToString .running)) (some 86400),
      .set (resultKey job.submissionId) stored (some 86400),
      .set (statusKey job.submissionId) (cstr (verdictToString result.verdict)) (some 86400)]

/-- The worker connects, and one iteration. -/
def workerActions : List Action :=
  [.perform (.worker w) .served, .test w m] ++
    (iterationScript job result stored).map (fun x => .perform (.worker w) x.2) ++ [.next w]

/-- What they lead to. -/
def workerServed : Sys cfg :=
  { s with
    store := ((iterationScript job result stored).ending s.now s.store .good).1
    ctx := Function.update s.ctx (.worker w) .good
    workers := Function.update s.workers w .ready
    log := s.log ++ [.wire (.worker w) s.now .connect none (.connected true)] ++
      (iterationScript job result stored).log (.worker w) s.now s.store .good ++ [.finished w] }

variable {cfg s w m job result stored}

theorem iteration_ending (now : Nat) (store : Store) :
    ((iterationScript job result stored).ending now store .good).2 = .good := rfl

theorem iteration_trace {now : Nat} {store : Store} {jobs : List Bytes} {payload : Bytes}
    (hqueue : store.live now queueKey = some (.list (jobs ++ [payload]))) :
    (iterationScript job result stored).trace now store .good =
      [(.command (.brpop queueKey 5), .reply (.arr [queueKey, payload]))] ++
      [(.command (.set (statusKey job.submissionId) (cstr (verdictToString .compiling))
          (some 86400)), .reply (.status "OK")),
        (.command (.set (statusKey job.submissionId) (cstr (verdictToString .running))
          (some 86400)), .reply (.status "OK")),
        (.command (.set (resultKey job.submissionId) stored (some 86400)), .reply (.status "OK")),
        (.command (.set (statusKey job.submissionId) (cstr (verdictToString result.verdict))
          (some 86400)), .reply (.status "OK"))] := by
  have hpop : exec now store (.brpop queueKey 5) =
      (store.put queueKey (listEntry jobs), .arr [queueKey, payload]) := by
    simp [exec, hqueue]
  simp [iterationScript, Script.served, Script.trace, exchange, hpop]

/-- **A worker serves a job.** -/
theorem worker_serves (hw : s.workers w = .connecting) (hrunning : s.running = true)
    {jobs : List Bytes} {payload : Bytes}
    (hqueue : s.store.live s.now queueKey = some (.list (jobs ++ [payload])))
    (hpayload : submissionJobToJson cfg.format job = .ok payload)
    (heval : WorkerPool.evaluation cfg m job = .ok result)
    (hstored : submissionResultToJson cfg.format result = .ok stored) :
    Lib.run (step cfg) s (workerActions w m job result stored) =
      some (workerServed cfg s w job result stored) := by
  have hstart := worker_starts m hw hrunning
  have hpath := Prog.path_append_iff.mpr ⟨_, WorkerPool.iteration_path (m := m) hpayload,
    WorkerPool.processJob_path heval hstored⟩
  have hw₁ : (workerStarted s w m).workers w =
      .busy m (.begin (WorkerPool.iteration cfg m)) rfl := by simp [workerStarted]
  have hctx : (workerStarted s w m).ctx (.worker w) = .good := by simp [workerStarted]
  obtain ⟨task, begun, hrest, hrun⟩ :=
    @worker_alone _ _ _ _ _ _ (iterationScript job result stored) (.pure ()) hw₁ (by
      rw [hctx]
      exact (iteration_trace hqueue).symm ▸ hpath)
  refine run_append_iff.mpr ⟨_, run_append_iff.mpr ⟨_, hstart, hrun⟩, ?_⟩
  refine run_cons_iff.mpr ⟨_, @worker_next _ _ w _ task begun (by simp) hrest, ?_⟩
  rw [run_nil, hctx, iteration_ending]
  have hctxs : Function.update (workerStarted s w m).ctx (.worker w) .good =
      (workerServed cfg s w job result stored).ctx := by simp [workerStarted, workerServed]
  have hworkers : ∀ worker : Worker cfg, Function.update
      (Function.update (workerStarted s w m).workers w worker) w .ready =
        (workerServed cfg s w job result stored).workers := by
    intro worker
    simp [workerStarted, workerServed]
  simp only [hctxs, hworkers]
  rfl

end WorkerServes

/-! ### Ann -/

def registerJson : Json := Json.null |>.set "username" (.str "ann") |>.set "password" (.str "secret")

/-- What the registration of Ann meets; its token is the one of `zeroSurroundings`. -/
def annSurroundings : Surroundings :=
  { zeroSurroundings with submissionId := .replicate 32 49 one_isHex }

def signUpActions : List Action :=
  .request 0 0 (.register (JsonText.print registerJson)) annSurroundings ::
    (signUpScript textConfig annSurroundings "ann" "secret").map fun x => .perform (.handler 0) x.2

theorem ann_signsUp :
    ∃ h, h.request = .register (JsonText.print registerJson) ∧ h.env = annSurroundings ∧
      Reaches textConfig signUpActions (signedUp textConfig annSurroundings "ann" "secret" h) := by
  have hplain : registerJson.Plain := plain_set (plain_set plain_null plain_str) plain_str
  have hutf8 : registerJson.Utf8 := by
    simp +decide [registerJson, utf8_objSet_iff]
  have hbody : ApiServer.parseBody textConfig (JsonText.print registerJson) = some registerJson := by
    rw [ApiServer.parseBody, textConfig, parseText_print hplain hutf8]
    rfl
  exact signUp hbody rfl rfl (by decide)

def annSubmits : Request :=
  .submit (some (bytes "Bearer " ++ (zeros 64).text)) (JsonText.print submitJson)

theorem annSubmits_path :
    (ApiServer.handle textConfig zeroSurroundings annSubmits).Path
      [(.command (.get (tokenKey (zeros 64).text)), .reply (.str "ann"))]
      (ApiServer.enqueueSubmission textConfig zeroJob) :=
  ApiServer.postSubmit_path (by decide) acceptSubmission_zeroJob

def submitting (h₀ : Handling textConfig) : Sys textConfig :=
  { signedUp textConfig annSurroundings "ann" "secret" h₀ with
    requests := Function.update (Function.update (fun _ => none) 0 (some h₀)) 1
      (some (.begin textConfig 0 annSubmits zeroSurroundings)) }

theorem ann_submits : ∃ h₀, h₀.env = annSurroundings ∧
    Reaches textConfig (signUpActions ++ [.request 1 0 annSubmits zeroSurroundings])
      (submitting h₀) := by
  obtain ⟨h₀, -, henv, hrun⟩ := ann_signsUp
  exact ⟨h₀, henv, run_concat_iff.mpr ⟨_, hrun, rfl⟩⟩

theorem distinctIds_ann {s : Sys textConfig} {h₀ h₁ : Handling textConfig}
    (h₀env : h₀.env = annSurroundings) (h₁env : h₁.env = zeroSurroundings)
    (hrequests : s.requests =
      Function.update (Function.update (fun _ => none) 0 (some h₀)) 1 (some h₁)) :
    DistinctIds s := by
  have hne : (HexString.replicate 32 49 one_isHex).text ≠ (zeros 32).text := by decide
  have henv : ∀ r h, s.requests r = some h → (r = 0 ∧ h = h₀) ∨ (r = 1 ∧ h = h₁) := by
    intro r h hr
    rw [hrequests] at hr
    by_cases h1 : r = 1
    · subst h1
      simp only [Function.update_self, Option.some.injEq] at hr
      exact .inr ⟨rfl, hr.symm⟩
    · rw [Function.update_of_ne h1] at hr
      by_cases h0 : r = 0
      · subst h0
        simp only [Function.update_self, Option.some.injEq] at hr
        exact .inl ⟨rfl, hr.symm⟩
      · rw [Function.update_of_ne h0] at hr
        cases hr
  intro r r' h h' hr hr' heq
  rcases henv r h hr with ⟨rfl, rfl⟩ | ⟨rfl, rfl⟩ <;>
    rcases henv r' h' hr' with ⟨rfl, rfl⟩ | ⟨rfl, rfl⟩
  · rfl
  · rw [h₀env, h₁env] at heq
    exact absurd heq hne
  · rw [h₀env, h₁env] at heq
    exact absurd heq.symm hne
  · rfl

/-! ### The handler and the worker -/

/-- The result of a program that prints what is expected. -/
def oneResult : SubmissionResult :=
  { submissionId := (zeros 32).text
    problemId := "a"
    username := "ann"
    verdict := .accepted
    passed := 1
    total := 1
    testResults := [{ verdict := .accepted, expectedOutput := "1", actualOutput := "1" }] }

def oneStored : Bytes := JsonText.print (submissionResultJson oneResult)

theorem evaluation_one :
    WorkerPool.evaluation textConfig (printing "1") zeroJob = .ok oneResult := by
  refine (evaluateSubmission_of_compiles (compiles_printing _)).trans ((if_neg ?_).trans ?_)
  · simp [printing]
  · exact congrArg Except.ok (by decide)

theorem oneResult_stored : submissionResultToJson textConfig.format oneResult = .ok oneStored :=
  dumpText_jsonText ((utf8_submissionResultJson oneResult).mpr
    (by unfold SubmissionResult.Utf8 TestCaseResult.Utf8; decide))

/-- The handler up to `enqueue_job`, and its rest. -/
def enqueueScript : Script :=
  .served [.get (tokenKey (zeros 64).text), .lpush queueKey zeroPayload]

def announceScript : Script :=
  .served
    [.set (statusKey (zeros 32).text) (cstr (verdictToString .pending)) (some 86400),
      .lpush (userSubsKey "ann") (zeros 32).text, .ltrim (userSubsKey "ann") 0 99, .llen queueKey]

def announceActions : List Action := announceScript.map fun x => .perform (.handler 1) x.2

def enqueuedStore : Store :=
  (enqueueScript.ending 0 (signedUpStore textConfig annSurroundings "ann" "secret") .good).1

theorem enqueue_trace :
    enqueueScript.trace 0 (signedUpStore textConfig annSurroundings "ann" "secret") .good =
      [(.command (.get (tokenKey (zeros 64).text)), .reply (.str "ann"))] ++
        [(.command (.lpush queueKey zeroPayload), .reply (.int 1))] := by
  rfl

def enqueued (h₀ h₁ : Handling textConfig) : Sys textConfig where
  store := enqueuedStore
  requests := Function.update (Function.update (fun _ => none) 0 (some h₀)) 1 (some h₁)
  log := (signUpScript textConfig annSurroundings "ann" "secret").log (.handler 0) 0 (fun _ => none)
      .good ++
    enqueueScript.log (.handler 1) 0 (signedUpStore textConfig annSurroundings "ann" "secret") .good

theorem ann_enqueues : ∃ h₀ h₁, h₀.env = annSurroundings ∧ h₁.env = zeroSurroundings ∧
    h₁.request = annSubmits ∧ h₁.api = 0 ∧
    h₁.task.rest = ApiServer.announceSubmission textConfig zeroJob ∧
    Reaches textConfig
      (signUpActions ++ [.request 1 0 annSubmits zeroSurroundings] ++
        enqueueScript.map fun x => .perform (.handler 1) x.2)
      (enqueued h₀ h₁) := by
  obtain ⟨h₀, henv₀, hsubmitting⟩ := ann_submits
  have hr : (submitting h₀).requests 1 =
      some (.begin textConfig 0 annSubmits zeroSurroundings) := by simp [submitting]
  have hpath := Prog.path_append_iff.mpr
    ⟨_, annSubmits_path, ApiServer.enqueueSubmission_path zeroJob_payload (n := 1)⟩
  obtain ⟨h₁, happi, hrequest, henv, hrest, hrun⟩ := handler_alone hr (enqueue_trace ▸ hpath)
  refine ⟨h₀, h₁, henv₀, henv, hrequest, happi, hrest,
    run_append_iff.mpr ⟨_, hsubmitting, hrun.trans ?_⟩⟩
  have hctx : Function.update (submitting h₀).ctx (.api 0) .good = (submitting h₀).ctx :=
    Function.update_eq_self ..
  have hrequests : Function.update (submitting h₀).requests 1 (some h₁) =
      (enqueued h₀ h₁).requests := Function.update_idem ..
  rw [hrequests]
  show some { submitting h₀ with
    store := enqueuedStore
    ctx := Function.update (submitting h₀).ctx (.api 0) .good
    requests := (enqueued h₀ h₁).requests
    log := (enqueued h₀ h₁).log } = _
  rw [hctx]
  rfl

/-- The handler announces the submission, wherever that falls. -/
theorem announces {s : Sys textConfig} {h : Handling textConfig} (hr : s.requests 1 = some h)
    (happi : h.api = 0) (hrest : h.task.rest = ApiServer.announceSubmission textConfig zeroJob)
    (hctx : s.ctx (.api 0) = .good) {k : Int}
    (htrace : announceScript.trace s.now s.store .good =
      [(.command (.set (statusKey (zeros 32).text) (cstr (verdictToString .pending))
          (some 86400)), .reply (.status "OK")),
        (.command (.lpush (userSubsKey "ann") (zeros 32).text), .reply (.int 1)),
        (.command (.ltrim (userSubsKey "ann") 0 99), .reply (.status "OK")),
        (.command (.llen queueKey), .reply (.int k))]) :
    ∃ h' response, h'.request = h.request ∧ h'.env = h.env ∧ h'.task.rest = .pure response ∧
      response.status = 202 ∧
      Lib.run (step textConfig) s announceActions =
        some { s with
          store := (announceScript.ending s.now s.store .good).1
          requests := Function.update s.requests 1 (some h')
          log := s.log ++ announceScript.log (.handler 1) s.now s.store .good } := by
  obtain ⟨response, h202, hpath⟩ := ApiServer.announceSubmission_path zeroJob_payload (n := 1) (k := k)
  obtain ⟨h', -, hrequest, henv, hrest', hrun⟩ :=
    @handler_alone _ _ _ _ announceScript (.pure response) hr (by
      rw [happi, hctx, htrace, hrest]
      exact hpath)
  refine ⟨h', response, hrequest, henv, hrest', h202, hrun.trans ?_⟩
  have hending : (announceScript.ending s.now s.store .good).2 = .good := rfl
  have hctxs : Function.update s.ctx (.api 0) .good = s.ctx := by
    rw [← hctx, Function.update_eq_self]
  rw [happi, hctx, hending, hctxs]

/-- The worker is through with Ann's job before her handler has written the status. -/
def overtaking (ms : Nat) : List Action :=
  signUpActions ++ [.request 1 0 annSubmits zeroSurroundings] ++
    enqueueScript.map (fun x => .perform (.handler 1) x.2) ++
    workerActions 0 (printing "1") zeroJob oneResult oneStored ++ .tick ms :: announceActions

/-- Her handler is through, `ms` milliseconds later. -/
def overtaken (h₀ h₁ : Handling textConfig) (ms : Nat) : Sys textConfig :=
  let s := workerServed textConfig (enqueued h₀ h₁) 0 zeroJob oneResult oneStored
  { s with
    now := ms
    store := (announceScript.ending ms s.store .good).1
    log := s.log ++ announceScript.log (.handler 1) ms s.store .good }

theorem enqueued_queue (h₀ h₁ : Handling textConfig) :
    (enqueued h₀ h₁).store.live 0 queueKey = some (.list ([] ++ [zeroPayload])) := rfl

/-- **A worker overtakes a handler.** -/
theorem ann_overtaken (ms : Nat) : ∃ h₀ h₁ response, h₀.env = annSurroundings ∧
    h₁.env = zeroSurroundings ∧ h₁.request = annSubmits ∧ h₁.task.rest = .pure response ∧
    response.status = 202 ∧ Reaches textConfig (overtaking ms) (overtaken h₀ h₁ ms) := by
  obtain ⟨h₀, h₁, henv₀, henv₁, hrequest₁, happi, hrest, henqueued⟩ := ann_enqueues
  have hserved := worker_serves (s := enqueued h₀ h₁) (w := 0) (m := printing "1") rfl rfl
    (enqueued_queue h₀ h₁) zeroJob_payload evaluation_one oneResult_stored
  let s₁ : Sys textConfig :=
    { workerServed textConfig (enqueued h₀ h₁) 0 zeroJob oneResult oneStored with now := ms }
  have htick : step textConfig (workerServed textConfig (enqueued h₀ h₁) 0 zeroJob oneResult
      oneStored) (.tick ms) = some s₁ := by
    simp [step, s₁, workerServed, enqueued]
  have hr : s₁.requests 1 = some h₁ := by simp [s₁, workerServed, enqueued]
  have hctx : s₁.ctx (.api 0) = .good := by simp [s₁, workerServed, enqueued]
  obtain ⟨h₂, response, hrequest₂, henv₂, hrest₂, h202, hrun⟩ :=
    announces hr happi hrest hctx (k := 0) rfl
  refine ⟨h₀, h₂, response, henv₀, henv₂.trans henv₁, hrequest₂.trans hrequest₁, hrest₂, h202, ?_⟩
  refine run_append_iff.mpr ⟨_, run_append_iff.mpr ⟨_, henqueued, hserved⟩, ?_⟩
  refine run_cons_iff.mpr ⟨s₁, htick, hrun.trans ?_⟩
  have hrequests : Function.update s₁.requests 1 (some h₂) = (overtaken h₀ h₂ ms).requests :=
    Function.update_idem ..
  rw [hrequests]
  rfl

/-- The worker begins when the handler has answered. -/
def inOrder : List Action :=
  signUpActions ++ [.request 1 0 annSubmits zeroSurroundings] ++
    enqueueScript.map (fun x => .perform (.handler 1) x.2) ++ announceActions ++
    workerActions 0 (printing "1") zeroJob oneResult oneStored

def announced (h₀ h₁ : Handling textConfig) : Sys textConfig :=
  { enqueued h₀ h₁ with
    store := (announceScript.ending 0 enqueuedStore .good).1
    log := (enqueued h₀ h₁).log ++ announceScript.log (.handler 1) 0 enqueuedStore .good }

theorem announced_queue (h₀ h₁ : Handling textConfig) :
    (announced h₀ h₁).store.live 0 queueKey = some (.list ([] ++ [zeroPayload])) := rfl

theorem ann_in_order : ∃ h₀ h₁ response, h₀.env = annSurroundings ∧
    h₁.env = zeroSurroundings ∧ h₁.request = annSubmits ∧ h₁.task.rest = .pure response ∧
    response.status = 202 ∧
    Reaches textConfig inOrder
      (workerServed textConfig (announced h₀ h₁) 0 zeroJob oneResult oneStored) := by
  obtain ⟨h₀, h₁, henv₀, henv₁, hrequest₁, happi, hrest, henqueued⟩ := ann_enqueues
  have hr : (enqueued h₀ h₁).requests 1 = some h₁ := by simp [enqueued]
  obtain ⟨h₂, response, hrequest₂, henv₂, hrest₂, h202, hrun⟩ :=
    announces hr happi hrest rfl (k := 1) rfl
  have hrequests : Function.update (enqueued h₀ h₁).requests 1 (some h₂) =
      (announced h₀ h₂).requests := Function.update_idem ..
  rw [hrequests] at hrun
  have hserved := worker_serves (s := announced h₀ h₂) (w := 0) (m := printing "1") rfl rfl
    (announced_queue h₀ h₂) zeroJob_payload evaluation_one oneResult_stored
  refine ⟨h₀, h₂, response, henv₀, henv₂.trans henv₁, hrequest₂.trans hrequest₁, hrest₂, h202, ?_⟩
  exact run_append_iff.mpr ⟨_, run_append_iff.mpr ⟨_, henqueued, hrun⟩, hserved⟩

end Ocpe.System
