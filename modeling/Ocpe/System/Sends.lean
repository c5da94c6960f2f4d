import Ocpe.Shared.Keys
import Ocpe.Worker.WorkerPool

/-!
# What the handlers and the workers can send

Every operation a handler can ever perform, whatever it is answered
(`handle_sends`), and every operation of an iteration of a worker
(`iteration_sends`).  Everything a proof needs to know about who may write which
key is read off these two lists.
-/

namespace Ocpe

open Lib Redis Prog RedisClient AuthService

/-- The operations of the handler of one request. -/
inductive HandlerSends (cfg : Config) (env : Surroundings) (request : Request) : Wire → Prop
  | connect : HandlerSends cfg env request .connect
  | get (key : Bytes) : HandlerSends cfg env request (.command (.get key))
  | llen : HandlerSends cfg env request (.command (.llen queueKey))
  | lrange (username : Bytes) (start stop : Int) :
      HandlerSends cfg env request (.command (.lrange (userSubsKey username) start stop))
  | setUser (body username password : Bytes) (hrequest : request = .register body)
      (hcheck : checkRegistration username password = none) :
      HandlerSends cfg env request
        (.command (.set (userKey username) (credential cfg.sha256 env.salt password) none))
  | setToken (username : Bytes) :
      HandlerSends cfg env request
        (.command (.set (tokenKey env.token.text) username (some tokenTtlSec)))
  | pushJob (authorization : Option Bytes) (body username : Bytes) (job : SubmissionJob)
      (payload : Bytes) (hrequest : request = .submit authorization body)
      (haccept : ApiServer.acceptSubmission cfg env username body = .ok (.ok job))
      (hpayload : submissionJobToJson cfg.format job = .ok payload) :
      HandlerSends cfg env request (.command (.lpush queueKey payload))
  | setPending (authorization : Option Bytes) (body : Bytes)
      (hrequest : request = .submit authorization body) :
      HandlerSends cfg env request
        (.command (.set (statusKey env.submissionId.text) (cstr (verdictToString .pending))
          (some 86400)))
  | pushHistory (username : Bytes) :
      HandlerSends cfg env request
        (.command (.lpush (userSubsKey username) env.submissionId.text))
  | trimHistory (username : Bytes) :
      HandlerSends cfg env request (.command (.ltrim (userSubsKey username) 0 99))

/-- The operations of an iteration of a worker. -/
inductive WorkerSends : Wire → Prop
  | connect : WorkerSends .connect
  | popJob : WorkerSends (.command (.brpop queueKey 5))
  | setStatus (id : Bytes) (v : Verdict) :
      WorkerSends (.command (.set (statusKey id) (cstr (verdictToString v)) (some 86400)))
  | setResult (id payload : Bytes) :
      WorkerSends (.command (.set (resultKey id) payload (some 86400)))

section Handlers

variable {cfg : Config} {env : Surroundings} {request : Request}

theorem get_sends (key : Bytes) : (execCommand (.get key)).Issues (HandlerSends cfg env request) :=
  execCommand_issues (.get key) .connect

theorem respond_sends (status : Nat) (j : Json) :
    (ApiServer.respond cfg status j).Issues (HandlerSends cfg env request) :=
  issues_bind (json_issues _) fun _ => trivial

theorem registerUser_sends {body : Bytes} (hrequest : request = .register body)
    (username password : Bytes) :
    (registerUser cfg.sha256 env.salt username password).Issues
      (HandlerSends cfg env request) := by
  unfold registerUser
  split
  · trivial
  next hcheck =>
  have hcreate := succeeds_issues (G := HandlerSends cfg env request)
    (.setUser body username password hrequest hcheck) .connect
  refine issues_bind (get_sends _) fun r => ?_
  split
  · refine issues_bind hcreate fun ok => ?_
    split <;> trivial
  · refine issues_bind hcreate fun ok => ?_
    split <;> trivial
  · trivial

theorem login_sends (username password : Bytes) :
    (login cfg.sha256 env.token username password).Issues (HandlerSends cfg env request) := by
  refine issues_bind (get_sends _) fun r => ?_
  split
  · trivial
  · trivial
  · split
    · refine issues_bind (succeeds_issues (.setToken username) .connect) fun ok => ?_
      split <;> trivial
    · trivial

theorem requireAuth_sends (authorization : Option Bytes) :
    (ApiServer.requireAuth authorization).Issues (HandlerSends cfg env request) := by
  unfold ApiServer.requireAuth validateToken
  split
  · trivial
  · refine issues_bind ?_ fun username => by split <;> trivial
    split
    · trivial
    · refine issues_bind (get_sends _) fun r => ?_
      split <;> trivial

theorem getResult_sends (id : Bytes) :
    (getResult cfg.format id).Issues (HandlerSends cfg env request) := by
  refine issues_bind (get_sends _) fun r => ?_
  split
  · trivial
  · trivial
  · exact issues_bind (json_issues _) fun _ => trivial

theorem getStatus_sends (id : Bytes) : (getStatus id).Issues (HandlerSends cfg env request) := by
  refine issues_bind (get_sends _) fun r => ?_
  split <;> trivial

theorem submissionEntries_sends (ids : List Bytes) :
    (ApiServer.submissionEntries cfg ids).Issues (HandlerSends cfg env request) := by
  induction ids with
  | nil => trivial
  | cons id ids ih =>
    refine issues_bind (issues_bind (getResult_sends id) fun r => ?_) fun _ =>
      issues_bind ih fun _ => trivial
    split
    · trivial
    · refine issues_bind (getStatus_sends id) fun r => ?_
      split <;> trivial

theorem queueLength_sends : queueLength.Issues (HandlerSends cfg env request) :=
  issues_bind (execCommand_issues .llen .connect) fun r => by split <;> trivial

section Submit

variable {authorization : Option Bytes} {body username : Bytes} {job : SubmissionJob}
  (hrequest : request = .submit authorization body)
  (haccept : ApiServer.acceptSubmission cfg env username body = .ok (.ok job))

include haccept

theorem recordAndRespond_sends :
    (ApiServer.recordAndRespond cfg job).Issues (HandlerSends cfg env request) := by
  have hpush : HandlerSends cfg env request
      (.command (.lpush (userSubsKey job.username) job.submissionId)) :=
    (ApiServer.acceptSubmission_ok haccept).1 ▸ .pushHistory _
  refine issues_bind (issues_bind (execCommand_issues hpush .connect) fun r => ?_) fun _ =>
    issues_bind queueLength_sends fun _ => respond_sends _ _
  split
  · trivial
  · exact issues_bind (succeeds_issues (.trimHistory _) .connect) fun _ => trivial

include hrequest

theorem announceSubmission_sends :
    (ApiServer.announceSubmission cfg job).Issues (HandlerSends cfg env request) := by
  have hset : HandlerSends cfg env request
      (.command (.set (statusKey job.submissionId) (cstr (verdictToString .pending))
        (some 86400))) :=
    (ApiServer.acceptSubmission_ok haccept).1 ▸ .setPending _ _ hrequest
  exact issues_bind (succeeds_issues hset .connect) fun _ => recordAndRespond_sends haccept

theorem enqueueSubmission_sends :
    (ApiServer.enqueueSubmission cfg job).Issues (HandlerSends cfg env request) := by
  refine issues_bind ?_ fun ok => ?_
  · unfold enqueueJob Talk.json
    cases hpayload : submissionJobToJson cfg.format job with
    | error e => trivial
    | ok payload =>
      exact succeeds_issues (.pushJob _ _ _ job payload hrequest haccept hpayload) .connect
  · split
    · exact announceSubmission_sends hrequest haccept
    · trivial

end Submit

theorem postSubmit_sends {authorization : Option Bytes} {body : Bytes}
    (hrequest : request = .submit authorization body) :
    (ApiServer.postSubmit cfg env authorization body).Issues (HandlerSends cfg env request) := by
  refine issues_bind (requireAuth_sends authorization) fun r => ?_
  cases r with
  | error response => trivial
  | ok username =>
    cases haccept : ApiServer.acceptSubmission cfg env username body with
    | error e => simp only [haccept]; trivial
    | ok accepted =>
      cases accepted with
      | error response => simp only [haccept]; trivial
      | ok job =>
        simp only [haccept]
        exact enqueueSubmission_sends hrequest haccept

theorem respondSession_sends (status : Nat) (failure : Response) (session : Option AuthSession) :
    (match session with
      | none => Pure.pure failure
      | some session =>
        ApiServer.respond cfg status
          (Json.null |>.set "token" (.str session.token)
            |>.set "username" (.str session.username)) : Talk Response).Issues
      (HandlerSends cfg env request) := by
  cases session with
  | none => trivial
  | some session => exact respond_sends _ _

theorem postRegister_sends {body : Bytes} (hrequest : request = .register body) :
    (ApiServer.postRegister cfg env body).Issues (HandlerSends cfg env request) := by
  unfold ApiServer.postRegister
  split
  · trivial
  · refine issues_bind (json_issues _) fun username => issues_bind (json_issues _) fun password =>
      issues_bind (registerUser_sends hrequest username password) fun r => ?_
    split
    · exact respond_sends _ _
    · exact issues_bind (login_sends username password) fun r => respondSession_sends _ _ r

theorem postLogin_sends (body : Bytes) :
    (ApiServer.postLogin cfg env body).Issues (HandlerSends cfg env request) := by
  unfold ApiServer.postLogin
  split
  · trivial
  · exact issues_bind (json_issues _) fun username => issues_bind (json_issues _) fun password =>
      issues_bind (login_sends username password) fun r => respondSession_sends _ _ r

/-- **What a handler can send.** -/
theorem handle_sends (request : Request) :
    (ApiServer.handle cfg env request).Issues (HandlerSends cfg env request) := by
  cases request with
  | register body => exact postRegister_sends rfl
  | login body => exact postLogin_sends body
  | me authorization =>
    refine issues_bind (requireAuth_sends authorization) fun r => ?_
    cases r with
    | error response => trivial
    | ok username => exact respond_sends _ _
  | submissions authorization =>
    refine issues_bind (requireAuth_sends authorization) fun r => ?_
    cases r with
    | error response => trivial
    | ok username =>
      refine issues_bind (issues_bind (execCommand_issues (.lrange _ _ _) .connect) fun r => ?_)
        fun ids => issues_bind (submissionEntries_sends ids) fun _ => respond_sends _ _
      split <;> trivial
  | submit authorization body => exact postSubmit_sends rfl
  | submission authorization id =>
    refine issues_bind (requireAuth_sends authorization) fun r => ?_
    cases r with
    | error response => trivial
    | ok username =>
      refine issues_bind (getResult_sends id) fun result => ?_
      cases result with
      | some result => exact issues_bind (json_issues _) fun _ => trivial
      | none =>
        refine issues_bind (getStatus_sends id) fun status => ?_
        cases status with
        | some status => exact respond_sends _ _
        | none => trivial
  | stats => exact issues_bind queueLength_sends fun _ => respond_sends _ _

end Handlers

/-! ### Where a submission is when it writes -/

theorem requireAuth_reads (authorization : Option Bytes) :
    (ApiServer.requireAuth authorization).Issues fun op => op.writes = none := by
  unfold ApiServer.requireAuth validateToken
  split
  · trivial
  · refine issues_bind ?_ fun username => by split <;> trivial
    split
    · trivial
    · exact issues_bind (execCommand_issues rfl rfl) fun r => by split <;> trivial

theorem recordAndRespond_writes (cfg : Config) (job : SubmissionJob) :
    (ApiServer.recordAndRespond cfg job).Issues fun op =>
      op.writes = none ∨ op.writes = some (userSubsKey job.username) := by
  refine issues_bind (issues_bind (execCommand_issues (.inr rfl) (.inl rfl)) fun r => ?_) fun _ =>
    issues_bind (issues_bind (execCommand_issues (.inl rfl) (.inl rfl)) fun r => ?_) fun _ =>
      issues_bind (json_issues _) fun _ => trivial
  · split
    · trivial
    · exact issues_bind (succeeds_issues (.inr rfl) (.inl rfl)) fun _ => trivial
  · split <;> trivial

theorem announceSubmission_writes (cfg : Config) (job : SubmissionJob) :
    (ApiServer.announceSubmission cfg job).Issues fun op =>
      op.writes = some (statusKey job.submissionId) ∨ op.writes = none ∨
        op.writes = some (userSubsKey job.username) :=
  issues_bind (succeeds_issues (.inl rfl) (.inr (.inl rfl))) fun _ =>
    (recordAndRespond_writes cfg job).mono fun _ hop => .inr hop

/-- **A submission that is at a write** has been authenticated and accepted. -/
theorem postSubmit_path_write {cfg : Config} {env : Surroundings} {authorization : Option Bytes}
    {body : Bytes} {t : List (Wire × Answer)} {op : Wire} {next : Answer → Talk Response}
    (h : (ApiServer.postSubmit cfg env authorization body).Path t (.op op next))
    (hop : op.writes ≠ none) :
    ∃ t₁ t₂ username job, t = t₁ ++ t₂ ∧
      (ApiServer.requireAuth authorization).Path t₁ (.pure (.ok username)) ∧
      ApiServer.acceptSubmission cfg env username body = .ok (.ok job) ∧
      (ApiServer.enqueueSubmission cfg job).Path t₂ (.op op next) := by
  rcases path_bind_op h with ⟨next', h₁⟩ | ⟨t₁, t₂, r, rfl, h₁, h₂⟩
  · exact absurd ((requireAuth_reads authorization).of_path h₁).2.1 hop
  · cases r with
    | error response => cases (path_pure.mp h₂).2
    | ok username =>
      cases haccept : ApiServer.acceptSubmission cfg env username body with
      | error e =>
        simp only [haccept] at h₂
        cases (path_throw.mp h₂).2
      | ok accepted =>
        cases accepted with
        | error response =>
          simp only [haccept] at h₂
          cases (path_pure.mp h₂).2
        | ok job =>
          simp only [haccept] at h₂
          exact ⟨t₁, t₂, username, job, rfl, h₁, haccept, h₂⟩

/-! ### The routes that only read -/

section Reads

variable {cfg : Config}

theorem get_reads (key : Bytes) : (execCommand (.get key)).Issues fun op => op.writes = none :=
  execCommand_issues rfl rfl

theorem getResult_reads (id : Bytes) :
    (getResult cfg.format id).Issues fun op => op.writes = none := by
  refine issues_bind (get_reads _) fun r => ?_
  split
  · trivial
  · trivial
  · exact issues_bind (json_issues _) fun _ => trivial

theorem getStatus_reads (id : Bytes) : (getStatus id).Issues fun op => op.writes = none := by
  refine issues_bind (get_reads _) fun r => ?_
  split <;> trivial

theorem queueLength_reads : queueLength.Issues fun op => op.writes = none :=
  issues_bind (execCommand_issues rfl rfl) fun r => by split <;> trivial

theorem submissionEntries_reads (ids : List Bytes) :
    (ApiServer.submissionEntries cfg ids).Issues fun op => op.writes = none := by
  induction ids with
  | nil => trivial
  | cons id ids ih =>
    refine issues_bind (issues_bind (getResult_reads id) fun r => ?_) fun _ =>
      issues_bind ih fun _ => trivial
    split
    · trivial
    · refine issues_bind (getStatus_reads id) fun r => ?_
      split <;> trivial

theorem respond_reads (status : Nat) (j : Json) :
    (ApiServer.respond cfg status j).Issues fun op => op.writes = none :=
  issues_bind (json_issues _) fun _ => trivial

theorem getMe_reads (authorization : Option Bytes) :
    (ApiServer.getMe cfg authorization).Issues fun op => op.writes = none := by
  refine issues_bind (requireAuth_reads authorization) fun r => ?_
  cases r with
  | error response => trivial
  | ok username => exact respond_reads _ _

theorem getSubmissions_reads (authorization : Option Bytes) :
    (ApiServer.getSubmissions cfg authorization).Issues fun op => op.writes = none := by
  refine issues_bind (requireAuth_reads authorization) fun r => ?_
  cases r with
  | error response => trivial
  | ok username =>
    refine issues_bind (issues_bind (execCommand_issues rfl rfl) fun r => ?_) fun ids =>
      issues_bind (submissionEntries_reads ids) fun _ => respond_reads _ _
    split <;> trivial

theorem getSubmission_reads (authorization : Option Bytes) (id : Bytes) :
    (ApiServer.getSubmission cfg authorization id).Issues fun op => op.writes = none := by
  refine issues_bind (requireAuth_reads authorization) fun r => ?_
  cases r with
  | error response => trivial
  | ok username =>
    refine issues_bind (getResult_reads id) fun result => ?_
    cases result with
    | some result => exact issues_bind (json_issues _) fun _ => trivial
    | none =>
      refine issues_bind (getStatus_reads id) fun status => ?_
      cases status with
      | some status => exact respond_reads _ _
      | none => trivial

theorem getStats_reads : (ApiServer.getStats cfg).Issues fun op => op.writes = none :=
  issues_bind queueLength_reads fun _ => respond_reads _ _

end Reads

def Request.OfAccounts : Request → Prop
  | .register _ => True
  | .login _ => True
  | _ => False

instance : DecidablePred Request.OfAccounts
  | .register _ => .isTrue trivial
  | .login _ => .isTrue trivial
  | .me _ => .isFalse id
  | .submissions _ => .isFalse id
  | .submit .. => .isFalse id
  | .submission .. => .isFalse id
  | .stats => .isFalse id

/-- **What the other routes write**: the queue, and the status and the list of a
submission. -/
theorem handle_writes {cfg : Config} {env : Surroundings} {request : Request}
    (h : ¬ request.OfAccounts) :
    (ApiServer.handle cfg env request).Issues fun op =>
      op.writes = none ∨ op.writes = some queueKey ∨
        (∃ id, op.writes = some (statusKey id)) ∨ ∃ username, op.writes = some (userSubsKey username) := by
  cases request with
  | register body => exact absurd trivial h
  | login body => exact absurd trivial h
  | me authorization => exact (getMe_reads authorization).mono fun _ hop => .inl hop
  | submissions authorization => exact (getSubmissions_reads authorization).mono fun _ hop => .inl hop
  | submission authorization id =>
    exact (getSubmission_reads authorization id).mono fun _ hop => .inl hop
  | stats => exact getStats_reads.mono fun _ hop => .inl hop
  | submit authorization body =>
    refine issues_bind ((requireAuth_reads authorization).mono fun _ hop => .inl hop) fun r => ?_
    cases r with
    | error response => trivial
    | ok username =>
      refine issues_bind (issues_ofExcept _) fun accepted => ?_
      cases accepted with
      | error response => trivial
      | ok job =>
        refine issues_bind (issues_bind (json_issues _) fun payload =>
          succeeds_issues (.inr (.inl rfl)) (.inl rfl)) fun ok => ?_
        cases ok with
        | false => trivial
        | true =>
          refine (announceSubmission_writes cfg job).mono fun op hop => ?_
          rcases hop with hop | hop | hop
          · exact .inr (.inr (.inl ⟨_, hop⟩))
          · exact .inl hop
          · exact .inr (.inr (.inr ⟨_, hop⟩))

/-- **What an iteration can send.** -/
theorem iteration_sends (cfg : Config) (m : Machine) :
    (WorkerPool.iteration cfg m).Issues WorkerSends := by
  refine issues_bind (issues_bind (execCommand_issues .popJob .connect) fun r => ?_) fun job => ?_
  · split
    · exact issues_bind (json_issues _) fun _ => trivial
    · trivial
  · cases job with
    | none => trivial
    | some job =>
      refine issues_bind (succeeds_issues (.setStatus _ _) .connect) fun _ =>
        issues_bind (succeeds_issues (.setStatus _ _) .connect) fun _ =>
          issues_bind (issues_ofExcept _) fun result => issues_bind ?_ fun _ =>
            issues_bind (succeeds_issues (.setStatus _ _) .connect) fun _ => trivial
      exact issues_bind (json_issues _) fun _ => succeeds_issues (.setResult _ _) .connect

end Ocpe
