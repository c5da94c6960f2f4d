import Ocpe.Sandbox.Language
import Ocpe.Shared.Auth

/-!
# The API server

The routes of `api/src/server.cpp` that talk to Redis, each as one program from the
request to the response.  An exception that leaves a handler is the program's
exception; the HTTP library answers it with 500.

`POST /submit` is in two parts: `acceptSubmission` is everything up to the job, and
`enqueueSubmission` everything from `enqueue_job` on.
-/

namespace Ocpe

open Lib Redis Prog RedisClient AuthService

/-- The libraries and the fields of `Config` that the services use. -/
structure Config where
  format : JsonFormat
  sha256 : Bytes → Bytes
  problemsDir : Bytes
  submissionsDir : Bytes
  workerCount : Int32 := 8

/-- What one request meets outside Redis: the file system and the random draws. -/
structure Surroundings where
  files : FileSys
  createDirectories : Bool
  salt : HexString 32
  token : HexString 64
  submissionId : HexString 32

structure Response where
  status : Nat := 200
  content : Bytes
  deriving DecidableEq, Repr

/-- The `Authorization` header where a route looks at it, and the body or the path
parameter. -/
inductive Request
  | register (body : Bytes)
  | login (body : Bytes)
  | me (authorization : Option Bytes)
  | submissions (authorization : Option Bytes)
  | submit (authorization : Option Bytes) (body : Bytes)
  | submission (authorization : Option Bytes) (id : Bytes)
  | stats
  deriving DecidableEq, Repr

/-- `{"error":"..."}` -/
def errorResponse (status : Nat) (text : String) : Response where
  status := status
  content := bytes "\x7b\"error\":\"" ++ bytes text ++ bytes "\"\x7d"

namespace ApiServer

def requireAuth (authorization : Option Bytes) : Talk (Except Response Bytes) := do
  match authorization with
  | none => return .error (errorResponse 401 "authentication required")
  | some header =>
    match ← validateToken (extractBearerToken header) with
    | none => return .error (errorResponse 401 "invalid or expired token")
    | some username => return .ok username

variable (cfg : Config) (env : Surroundings)

/-- `nlohmann::json::parse(req.body)` in the handlers' `try` -/
def parseBody (body : Bytes) : Option Json := (cfg.format.parseText body).toOption

def respond (status : Nat) (j : Json) : Talk Response := do
  return { status, content := ← Talk.json (cfg.format.dumpText j) }

def postRegister (body : Bytes) : Talk Response := do
  match parseBody cfg body with
  | none => return errorResponse 400 "invalid JSON"
  | some body =>
    let username ← Talk.json (body.valueStr "username" "")
    let password ← Talk.json (body.valueStr "password" "")
    match ← registerUser cfg.sha256 env.salt username password with
    | .error error => respond cfg 400 (Json.null.set "error" (.str error))
    | .ok () =>
      match ← login cfg.sha256 env.token username password with
      | none => return errorResponse 500 "registration succeeded but login failed"
      | some session =>
        respond cfg 201
          (Json.null |>.set "token" (.str session.token) |>.set "username" (.str session.username))

def postLogin (body : Bytes) : Talk Response := do
  match parseBody cfg body with
  | none => return errorResponse 400 "invalid JSON"
  | some body =>
    let username ← Talk.json (body.valueStr "username" "")
    let password ← Talk.json (body.valueStr "password" "")
    match ← login cfg.sha256 env.token username password with
    | none => return errorResponse 401 "invalid credentials"
    | some session =>
      respond cfg 200
        (Json.null |>.set "token" (.str session.token) |>.set "username" (.str session.username))

def getMe (authorization : Option Bytes) : Talk Response := do
  match ← requireAuth authorization with
  | .error response => return response
  | .ok username => respond cfg 200 (Json.null.set "username" (.str username))

/-- One round of the loop of `GET /auth/submissions`. -/
def submissionEntry (id : Bytes) : Talk Json := do
  let entry := Json.null.set "submission_id" (.str id)
  match ← getResult cfg.format id with
  | some result =>
    return entry
      |>.set "problem_id" (.str result.problemId)
      |>.set "verdict" (.str (verdictToString result.verdict))
      |>.set "language" (.str result.language)
      |>.set "passed" (.int result.passed.toInt)
      |>.set "total" (.int result.total.toInt)
  | none =>
    match ← getStatus id with
    | some status => return entry.set "verdict" (.str (verdictToString status))
    | none => return entry.set "verdict" (.str "PENDING")

def submissionEntries : List Bytes → Talk (List Json)
  | [] => return []
  | id :: ids => do return (← submissionEntry cfg id) :: (← submissionEntries ids)

def getSubmissions (authorization : Option Bytes) : Talk Response := do
  match ← requireAuth authorization with
  | .error response => return response
  | .ok username =>
    let ids ← getUserSubmissions username 50
    respond cfg 200 (.arr (← submissionEntries cfg ids))

/-- `POST /submit` between the authentication and `enqueue_job`. -/
def acceptSubmission (username body : Bytes) : Except Exn (Except Response SubmissionJob) := do
  match parseBody cfg body with
  | none => return .error (errorResponse 400 "invalid JSON")
  | some body =>
    let problemId ← (body.valueStr "problem_id" "").mapError Exn.json
    let sourceCode ← (body.valueStr "source_code" "").mapError Exn.json
    let language ← (body.valueStr "language" "c").mapError Exn.json
    if problemId = [] ∨ sourceCode = [] then
      return .error (errorResponse 400 "problem_id and source_code required")
    else if isSupportedLanguage language = false then
      return .error (errorResponse 400 "unsupported language")
    else
      match ← (getProblem env.files cfg.problemsDir cfg.format problemId).mapError Exn.json with
      | none => return .error (errorResponse 404 "problem not found")
      | some _ =>
        if env.createDirectories = false then throw .filesystemError
        else
          let job : SubmissionJob :=
            { submissionId := env.submissionId.text
              problemId
              sourceCode
              language := normalizeLanguage language
              username }
          return .ok job

/-- `POST /submit` from `record_submission` on. -/
def recordAndRespond (job : SubmissionJob) : Talk Response := do
  let _ ← recordSubmission job.username job.submissionId
  let queuePosition ← queueLength
  respond cfg 202
    (Json.null
      |>.set "submission_id" (.str job.submissionId)
      |>.set "status" (.str "PENDING")
      |>.set "language" (.str job.language)
      |>.set "queue_position" (.int queuePosition))

/-- `POST /submit` after a successful `enqueue_job`. -/
def announceSubmission (job : SubmissionJob) : Talk Response := do
  let _ ← setStatus job.submissionId .pending
  recordAndRespond cfg job

/-- `POST /submit` from `enqueue_job` on. -/
def enqueueSubmission (job : SubmissionJob) : Talk Response := do
  if ← enqueueJob cfg.format job then announceSubmission cfg job
  else return errorResponse 503 "queue unavailable"

def postSubmit (authorization : Option Bytes) (body : Bytes) : Talk Response := do
  match ← requireAuth authorization with
  | .error response => return response
  | .ok username =>
    match ← Prog.ofExcept (acceptSubmission cfg env username body) with
    | .error response => return response
    | .ok job => enqueueSubmission cfg job

def getSubmission (authorization : Option Bytes) (id : Bytes) : Talk Response := do
  match ← requireAuth authorization with
  | .error response => return response
  | .ok _ =>
    match ← getResult cfg.format id with
    | some result => return { content := ← Talk.json (submissionResultToJson cfg.format result) }
    | none =>
      match ← getStatus id with
      | some status =>
        respond cfg 200
          (Json.null
            |>.set "submission_id" (.str id)
            |>.set "verdict" (.str (verdictToString status)))
      | none => return errorResponse 404 "submission not found"

def getStats : Talk Response := do
  let queueLength ← queueLength
  respond cfg 200
    (Json.null
      |>.set "queue_length" (.int queueLength)
      |>.set "worker_count" (.int cfg.workerCount.toInt)
      |>.set "languages" (.arr (supportedLanguages.map fun lang => .str lang.id)))

def handle : Request → Talk Response
  | .register body => postRegister cfg env body
  | .login body => postLogin cfg env body
  | .me authorization => getMe cfg authorization
  | .submissions authorization => getSubmissions cfg authorization
  | .submit authorization body => postSubmit cfg env authorization body
  | .submission authorization id => getSubmission cfg authorization id
  | .stats => getStats cfg

/-! ### The jobs that are accepted -/

variable {cfg env}

def Submits (cfg : Config) (body problemId sourceCode language : Bytes) : Prop :=
  ∃ json, parseBody cfg body = some json ∧ json.valueStr "problem_id" "" = .ok problemId ∧
    json.valueStr "source_code" "" = .ok sourceCode ∧ json.valueStr "language" "c" = .ok language

theorem acceptSubmission_of_submits {username body problemId sourceCode language : Bytes}
    (h : Submits cfg body problemId sourceCode language) :
    acceptSubmission cfg env username body =
      if problemId = [] ∨ sourceCode = [] then
        .ok (.error (errorResponse 400 "problem_id and source_code required"))
      else if isSupportedLanguage language = false then
        .ok (.error (errorResponse 400 "unsupported language"))
      else
        (getProblem env.files cfg.problemsDir cfg.format problemId).mapError Exn.json >>=
          fun found =>
            match found with
            | none => .ok (.error (errorResponse 404 "problem not found"))
            | some _ =>
              if env.createDirectories = false then .error .filesystemError
              else
                .ok (.ok
                  { submissionId := env.submissionId.text
                    problemId
                    sourceCode
                    language := normalizeLanguage language
                    username }) := by
  obtain ⟨json, hbody, hproblem, hsource, hlanguage⟩ := h
  unfold acceptSubmission
  rw [hbody]
  simp only [hproblem, hsource, hlanguage, Except.mapError, ok_bind]
  rfl

/-- **A job that `/submit` accepts** carries the drawn id, the user's name and a
supported language in its normal form. -/
theorem acceptSubmission_ok {username body : Bytes} {job : SubmissionJob}
    (h : acceptSubmission cfg env username body = .ok (.ok job)) :
    job.submissionId = env.submissionId.text ∧ job.username = username ∧
      isSupportedLanguage job.language = true ∧ normalizeLanguage job.language = job.language := by
  unfold acceptSubmission at h
  split at h
  · cases h
  next body _ =>
  obtain ⟨problemId, -, h⟩ := bind_eq_ok.mp h
  obtain ⟨sourceCode, -, h⟩ := bind_eq_ok.mp h
  obtain ⟨language, -, h⟩ := bind_eq_ok.mp h
  split at h
  · cases h
  split at h
  · cases h
  next hlang =>
  obtain ⟨problem, -, h⟩ := bind_eq_ok.mp h
  split at h
  · cases h
  split at h
  · cases h
  · have hsupported : isSupportedLanguage language = true := by simpa using hlang
    cases h
    exact ⟨rfl, rfl, (isSupportedLanguage_normalizeLanguage language).trans hsupported,
      normalizeLanguage_normalizeLanguage language⟩

/-- A refusal of `/submit` is 400 or 404. -/
theorem acceptSubmission_error {username body : Bytes} {response : Response}
    (h : acceptSubmission cfg env username body = .ok (.error response)) :
    response.status = 400 ∨ response.status = 404 := by
  unfold acceptSubmission at h
  split at h
  · cases h; exact .inl rfl
  next body _ =>
  obtain ⟨problemId, -, h⟩ := bind_eq_ok.mp h
  obtain ⟨sourceCode, -, h⟩ := bind_eq_ok.mp h
  obtain ⟨language, -, h⟩ := bind_eq_ok.mp h
  split at h
  · cases h; exact .inl rfl
  split at h
  · cases h; exact .inl rfl
  obtain ⟨problem, -, h⟩ := bind_eq_ok.mp h
  split at h
  · cases h; exact .inr rfl
  split at h <;> cases h

theorem requireAuth_error {authorization : Option Bytes} {t : List (Wire × Answer)}
    {response : Response} (h : (requireAuth authorization).Path t (.pure (.error response))) :
    response.status = 401 := by
  unfold requireAuth at h
  split at h
  · cases (path_pure.mp h).2; rfl
  · obtain ⟨t₁, t₂, username, -, -, h₂⟩ := path_bind_pure_iff.mp h
    cases username with
    | none => cases (path_pure.mp h₂).2; rfl
    | some username => cases (path_pure.mp h₂).2

/-- **How a submission comes to be answered 202**: the user is authenticated, the job
accepted, `enqueue_job` returns true, and then the job is announced. -/
theorem postSubmit_path_202 {authorization : Option Bytes} {body : Bytes}
    {t : List (Wire × Answer)} {response : Response}
    (h : (postSubmit cfg env authorization body).Path t (.pure response))
    (h202 : response.status = 202) :
    ∃ t₁ t₂ t₃ username job payload,
      t = t₁ ++ t₂ ++ t₃ ∧
      (requireAuth authorization).Path t₁ (.pure (.ok username)) ∧
      acceptSubmission cfg env username body = .ok (.ok job) ∧
      submissionJobToJson cfg.format job = .ok payload ∧
      (enqueueJob cfg.format job).Path t₂ (.pure true) ∧
      (announceSubmission cfg job).Path t₃ (.pure response) := by
  obtain ⟨t₁, u, r, rfl, h₁, hu⟩ := path_bind_pure_iff.mp h
  cases r with
  | error response' =>
    obtain ⟨-, h'⟩ := path_pure.mp hu
    cases h'
    rw [requireAuth_error h₁] at h202
    cases h202
  | ok username =>
    obtain ⟨u₁, u₂, accepted, rfl, hu₁, hu₂⟩ := path_bind_pure_iff.mp hu
    cases haccept : acceptSubmission cfg env username body with
    | error e => rw [haccept] at hu₁; cases (path_throw.mp hu₁).2
    | ok accepted' =>
      rw [haccept] at hu₁
      obtain ⟨rfl, ha⟩ := path_pure.mp hu₁
      cases ha
      cases accepted with
      | error response' =>
        obtain ⟨-, h'⟩ := path_pure.mp hu₂
        cases h'
        rcases acceptSubmission_error haccept with hs | hs <;> rw [hs] at h202 <;> cases h202
      | ok job =>
        obtain ⟨t₂, t₃, ok, rfl, h₂, h₃⟩ := path_bind_pure_iff.mp hu₂
        cases ok with
        | false =>
          obtain ⟨-, h'⟩ := path_pure.mp h₃
          cases h'
          cases h202
        | true =>
          cases hpayload : submissionJobToJson cfg.format job with
          | error e =>
            rw [enqueueJob, hpayload] at h₂
            cases (path_throw.mp h₂).2
          | ok payload =>
            exact ⟨t₁, t₂, t₃, username, job, payload, by simp, h₁, haccept, hpayload, h₂, h₃⟩

/-! ### Undisturbed requests -/

theorem utf8_sessionJson (env : Surroundings) {username : Bytes} (h : ValidUtf8 username) :
    (Json.null |>.set "token" (.str env.token.text) |>.set "username" (.str username)).Utf8 := by
  have htoken := env.token.validUtf8
  simp +decide [utf8_objSet_iff, h, htoken]

theorem utf8_acceptedJson {job : SubmissionJob} {payload : Bytes}
    (hpayload : submissionJobToJson cfg.format job = .ok payload) (k : Int) :
    (Json.null |>.set "submission_id" (.str job.submissionId) |>.set "status" (.str "PENDING")
      |>.set "language" (.str job.language) |>.set "queue_position" (.int k)).Utf8 := by
  obtain ⟨hid, -, -, hlang, -⟩ := jobToJson_isOk.mp (by rw [hpayload]; rfl : _ = true)
  simp +decide [utf8_objSet_iff, hid, hlang]

/-- **A registration of a free name** creates the user and a token for it. -/
theorem postRegister_path {body username password : Bytes} {json : Json}
    (hbody : parseBody cfg body = some json)
    (husername : json.valueStr "username" "" = .ok username)
    (hpassword : json.valueStr "password" "" = .ok password)
    (hcheck : checkRegistration username password = none) :
    ∃ response, response.status = 201 ∧
      (postRegister cfg env body).Path
        [(.command (.get (userKey username)), .reply .nil),
          (.command (.set (userKey username) (credential cfg.sha256 env.salt password) none),
            .reply (.status "OK")),
          (.command (.get (userKey username)),
            .reply (.str (credential cfg.sha256 env.salt password))),
          (.command (.set (tokenKey env.token.text) username (some tokenTtlSec)),
            .reply (.status "OK"))]
        (.pure response) := by
  have hutf8 : ValidUtf8 username := validUtf8_of_ascii fun b hb =>
    (ascii_of_checkRegistration hcheck b hb).2
  obtain ⟨b, hb⟩ := cfg.format.exists_dumpText (utf8_sessionJson env hutf8)
  refine ⟨⟨201, b⟩, rfl, ?_⟩
  simp only [postRegister, hbody, husername, hpassword, Talk.json, Except.mapError,
    ofExcept_ok_bind]
  refine (registerUser_path hcheck).bind
    ((login_path (passwordFits_credential ..)).bind (u := []) (path_nil.mpr ?_))
  simp only [respond, Talk.json, hb]
  rfl

theorem requireAuth_path {token username : Bytes} (htoken : token ≠ []) :
    (requireAuth (some (bytes "Bearer " ++ token))).Path
      [(.command (.get (tokenKey token)), .reply (.str username))] (.pure (.ok username)) := by
  have hvalidate : (validateToken (extractBearerToken (bytes "Bearer " ++ token))).Path
      [(.command (.get (tokenKey token)), .reply (.str username))] (.pure (some username)) := by
    rw [extractBearerToken_bearer htoken]
    exact validateToken_path htoken
  exact hvalidate.bind (u := []) (path_nil.mpr rfl)

theorem postSubmit_path {token username body : Bytes} {job : SubmissionJob} (htoken : token ≠ [])
    (haccept : acceptSubmission cfg env username body = .ok (.ok job)) :
    (postSubmit cfg env (some (bytes "Bearer " ++ token)) body).Path
      [(.command (.get (tokenKey token)), .reply (.str username))] (enqueueSubmission cfg job) := by
  refine (requireAuth_path htoken).bind (u := []) (path_nil.mpr ?_)
  dsimp only
  rw [haccept]
  rfl

section Enqueue

variable {job : SubmissionJob} {payload : Bytes}
  (hpayload : submissionJobToJson cfg.format job = .ok payload)

include hpayload

theorem enqueueSubmission_path {n : Int} :
    (enqueueSubmission cfg job).Path [(.command (.lpush queueKey payload), .reply (.int n))]
      (announceSubmission cfg job) := by
  rw [enqueueSubmission, enqueueJob, hpayload]
  exact ⟨rfl, rfl⟩

/-- The reply to `LPUSH` is lost, and the command is sent again. -/
theorem enqueueSubmission_path_again {n : Int} :
    (enqueueSubmission cfg job).Path
      [(.command (.lpush queueKey payload), .failed .io), (.connect, .connected true),
        (.command (.lpush queueKey payload), .reply (.int n))]
      (announceSubmission cfg job) := by
  rw [enqueueSubmission, enqueueJob, hpayload]
  exact ⟨rfl, rfl, rfl, rfl⟩

/-- **The replies to the status and the list are not looked at.** -/
theorem announceSubmission_replied {r₁ r₂ r₃ : Reply} {k : Int} :
    ∃ response, response.status = 202 ∧
      (announceSubmission cfg job).Path
        [(.command (.set (statusKey job.submissionId) (cstr (verdictToString .pending))
            (some 86400)), .reply r₁),
          (.command (.lpush (userSubsKey job.username) job.submissionId), .reply r₂),
          (.command (.ltrim (userSubsKey job.username) 0 99), .reply r₃),
          (.command (.llen queueKey), .reply (.int k))]
        (.pure response) := by
  obtain ⟨b, hb⟩ := cfg.format.exists_dumpText (utf8_acceptedJson hpayload k)
  refine ⟨⟨202, b⟩, rfl, rfl, rfl, rfl, rfl, path_nil.mpr ?_⟩
  show respond cfg 202 _ = _
  rw [respond, hb]
  rfl

theorem announceSubmission_path {n k : Int} :
    ∃ response, response.status = 202 ∧
      (announceSubmission cfg job).Path
        [(.command (.set (statusKey job.submissionId) (cstr (verdictToString .pending))
            (some 86400)), .reply (.status "OK")),
          (.command (.lpush (userSubsKey job.username) job.submissionId), .reply (.int n)),
          (.command (.ltrim (userSubsKey job.username) 0 99), .reply (.status "OK")),
          (.command (.llen queueKey), .reply (.int k))]
        (.pure response) :=
  announceSubmission_replied hpayload

end Enqueue

end ApiServer

end Ocpe
