import Ocpe.System.Session
import Ocpe.System.Written

/-!
# Who passes `require_auth`

In every run, whatever Redis answers.

* `login_at_write`: a login that is at its write has found the password right, against
  what the look-up of the user was replied.
* `tokens_issued`: what a token key holds was written by such a login.
* `require_auth_sound`: a request that passes as `u` was looked up in a state whose
  store maps its token to `u`, which a login of `u` has put there; one that does not
  pass writes nothing and is answered 401.

The look-up does not tell an error reply from a string: `loading_passes`.
-/

namespace Ocpe

open Lib Redis Prog RedisClient AuthService

/-! ### Where a login is when it writes -/

section Login

variable {sha256 : Bytes → Bytes} {username password : Bytes} {t : List (Wire × Answer)} {op : Wire}

theorem succeeds_at {c : Cmd} {next : Answer → Talk Bool} (h : (succeeds c).Path t (.op op next))
    (hop : op.writes ≠ none) : op = .command c := by
  have hissues := (succeeds_issues (G := fun op => op = .command c ∨ op = .connect)
    (.inl rfl) (.inr rfl)).of_path h
  rcases hissues.2.1 with rfl | rfl
  · rfl
  · exact absurd rfl hop

theorem reply_mem {c : Cmd} {r : Reply} (h : (execCommand c).Path t (.pure (some r))) :
    (.command c, .reply r) ∈ t := by
  rcases execCommand_path_some h with rfl | rfl <;> simp

theorem login_at_write {token : HexString 64} {next : Answer → Talk (Option AuthSession)}
    (h : (login sha256 token username password).Path t (.op op next)) (hop : op.writes ≠ none) :
    op = .command (.set (tokenKey token.text) username (some tokenTtlSec)) ∧
      ∃ reply, (.command (.get (userKey username)), .reply reply) ∈ t ∧
        passwordFits sha256 (replyStr reply) password = true := by
  rcases path_bind_op h with ⟨next', h₁⟩ | ⟨t₁, t₂, r, rfl, h₁, h₂⟩
  · exact absurd ((get_reads _).of_path h₁).2.1 hop
  · split at h₂
    · cases (path_pure.mp h₂).2
    · cases (path_pure.mp h₂).2
    next reply hnil =>
    split at h₂
    · next hfits =>
      refine ⟨?_, reply, List.mem_append_left _ (reply_mem h₁), hfits⟩
      rcases path_bind_op h₂ with ⟨next', h₃⟩ | ⟨t₃, t₄, ok, rfl, h₃, h₄⟩
      · exact succeeds_at h₃ hop
      · split at h₄ <;> cases (path_pure.mp h₄).2
    · cases (path_pure.mp h₂).2

theorem registerUser_writes (salt : HexString 32) :
    (registerUser sha256 salt username password).Issues fun op =>
      op.writes = none ∨ op.writes = some (userKey username) := by
  have hcreate : ∀ payload, (rawSet (userPrefix ++ username) payload).Issues fun op =>
      op.writes = none ∨ op.writes = some (userKey username) := fun payload =>
    succeeds_issues (.inr rfl) (.inl rfl)
  unfold registerUser
  split
  · trivial
  · refine issues_bind (execCommand_issues (.inl rfl) (.inl rfl)) fun r => ?_
    split
    · refine issues_bind (hcreate _) fun ok => ?_
      split <;> trivial
    · refine issues_bind (hcreate _) fun ok => ?_
      split <;> trivial
    · trivial

theorem createUser_at_write {salt : HexString 32} {next : Answer → Talk (Except Bytes Unit)}
    (h : (createUser sha256 salt username password).Path t (.op op next)) (hop : op.writes ≠ none) :
    op = .command (.set (userKey username) (credential sha256 salt password) none) := by
  rcases path_bind_op h with ⟨next', h₁⟩ | ⟨t₁, t₂, ok, rfl, h₁, h₂⟩
  · exact succeeds_at h₁ hop
  · split at h₂ <;> cases (path_pure.mp h₂).2

theorem registerUser_at_write {salt : HexString 32} {next : Answer → Talk (Except Bytes Unit)}
    (h : (registerUser sha256 salt username password).Path t (.op op next))
    (hop : op.writes ≠ none) :
    checkRegistration username password = none ∧
      op = .command (.set (userKey username) (credential sha256 salt password) none) := by
  unfold registerUser at h
  split at h
  · cases (path_pure.mp h).2
  next hcheck =>
  refine ⟨hcheck, ?_⟩
  rcases path_bind_op h with ⟨next', h₁⟩ | ⟨t₁, t₂, r, rfl, h₁, h₂⟩
  · exact absurd ((get_reads _).of_path h₁).2.1 hop
  · split at h₂
    · exact createUser_at_write h₂ hop
    · exact createUser_at_write h₂ hop
    · cases (path_pure.mp h₂).2

theorem checkRegistration_of_path {salt : HexString 32}
    (h : (registerUser sha256 salt username password).Path t (.pure (.ok ()))) :
    checkRegistration username password = none := by
  cases hcheck : checkRegistration username password with
  | none => rfl
  | some error =>
    rw [registerUser, hcheck] at h
    cases (path_pure.mp h).2

end Login

variable {cfg : Config}

theorem respond_path {status : Nat} {j : Json} {t : List (Wire × Answer)} {op : Wire}
    {next : Answer → Talk Response} (h : (ApiServer.respond cfg status j).Path t (.op op next)) :
    False := by
  have hnothing : (ApiServer.respond cfg status j).Issues fun _ => False :=
    issues_bind (json_issues _) fun _ => trivial
  exact (hnothing.of_path h).2.1

theorem respondSession_path {status : Nat} {failure : Response} {session : Option AuthSession}
    {t : List (Wire × Answer)} {op : Wire} {next : Answer → Talk Response}
    (h : (match session with
      | none => Pure.pure failure
      | some session =>
        ApiServer.respond cfg status
          (Json.null |>.set "token" (.str session.token)
            |>.set "username" (.str session.username)) : Talk Response).Path t (.op op next)) :
    False := by
  cases session with
  | none => cases (path_pure.mp h).2
  | some session => exact respond_path h

/-- What `POST /auth/register` and `POST /auth/login` read from their body. -/
structure Credentials (cfg : Config) (body username password : Bytes) : Prop where
  parsed : ∃ json, ApiServer.parseBody cfg body = some json ∧
    json.valueStr "username" "" = .ok username ∧ json.valueStr "password" "" = .ok password

/-- **Where a route of the accounts is**: in `register_user`, or in `login`. -/
theorem account_path {env : Surroundings} {request : Request} (haccounts : request.OfAccounts)
    {t : List (Wire × Answer)} {op : Wire} {next : Answer → Talk Response}
    (h : (ApiServer.handle cfg env request).Path t (.op op next)) :
    ∃ body username password, Credentials cfg body username password ∧
      ((request = .register body ∧ ∃ next',
          (registerUser cfg.sha256 env.salt username password).Path t (.op op next')) ∨
        ((request = .login body ∨
            request = .register body ∧ checkRegistration username password = none) ∧
          ∃ t₁ t₂ next', t = t₁ ++ t₂ ∧
            (login cfg.sha256 env.token username password).Path t₂ (.op op next'))) := by
  cases request with
  | register body =>
    change (ApiServer.postRegister cfg env body).Path t _ at h
    unfold ApiServer.postRegister at h
    split at h
    · cases (path_pure.mp h).2
    next json hbody =>
    obtain ⟨username, hname, h⟩ := path_json_bind h (by simp)
    obtain ⟨password, hpassword, h⟩ := path_json_bind h (by simp)
    refine ⟨body, username, password, ⟨json, hbody, hname, hpassword⟩, ?_⟩
    rcases path_bind_op h with ⟨next', h₁⟩ | ⟨t₁, t₂, r, rfl, h₁, h₂⟩
    · exact .inl ⟨rfl, next', h₁⟩
    · cases r with
      | error error => exact (respond_path h₂).elim
      | ok _ =>
        rcases path_bind_op h₂ with ⟨next', h₃⟩ | ⟨t₃, t₄, session, rfl, h₃, h₄⟩
        · exact .inr ⟨.inr ⟨rfl, checkRegistration_of_path h₁⟩, t₁, t₂, next', rfl, h₃⟩
        · exact (respondSession_path h₄).elim
  | login body =>
    change (ApiServer.postLogin cfg env body).Path t _ at h
    unfold ApiServer.postLogin at h
    split at h
    · cases (path_pure.mp h).2
    next json hbody =>
    obtain ⟨username, hname, h⟩ := path_json_bind h (by simp)
    obtain ⟨password, hpassword, h⟩ := path_json_bind h (by simp)
    refine ⟨body, username, password, ⟨json, hbody, hname, hpassword⟩, ?_⟩
    rcases path_bind_op h with ⟨next', h₁⟩ | ⟨t₁, t₂, session, rfl, h₁, h₂⟩
    · exact .inr ⟨.inl rfl, [], t, next', rfl, h₁⟩
    · exact (respondSession_path h₂).elim
  | _ => exact haccounts.elim

theorem ofAccounts_of_writes {env : Surroundings} {request : Request} {t : List (Wire × Answer)}
    {op : Wire} {next : Answer → Talk Response} {key : Bytes}
    (h : (ApiServer.handle cfg env request).Path t (.op op next)) (hop : op.writes = some key)
    (hkey : key.take 10 = bytes "ocpe:user:" ∨ key.take 10 = bytes "ocpe:token") :
    request.OfAccounts := by
  by_contra haccounts
  have hne : ∀ {k a}, k.take 10 = a → bytes "ocpe:user:" ≠ a → bytes "ocpe:token" ≠ a →
      key ≠ k := by
    intro k a ha huser htoken
    rcases hkey with hkey | hkey
    · exact ne_of_take hkey ha huser
    · exact ne_of_take hkey ha htoken
  have hissues := ((handle_writes haccounts).of_path h).2.1
  simp only [hop] at hissues
  rcases hissues with h | h | ⟨id, h⟩ | ⟨name, h⟩
  · cases h
  · exact hne take_queueKey (by decide) (by decide) (Option.some.inj h)
  · exact hne (take_statusKey _) (by decide) (by decide) (Option.some.inj h)
  · exact hne (take_userSubsKey _) (by decide) (by decide) (Option.some.inj h)

/-- The handler has found the password of `username` right, against what its look-up of
the user was replied; a registration has passed its checks before. -/
def LoggedIn (cfg : Config) (request : Request) (t : List (Wire × Answer)) (username : Bytes) :
    Prop :=
  ∃ body password reply, Credentials cfg body username password ∧
    (request = .login body ∨
      request = .register body ∧ checkRegistration username password = none) ∧
    (.command (.get (userKey username)), .reply reply) ∈ t ∧
    passwordFits cfg.sha256 (replyStr reply) password = true

theorem LoggedIn.mono {request : Request} {t t' : List (Wire × Answer)} {username : Bytes}
    (h : LoggedIn cfg request t username) (ht : t <+: t') : LoggedIn cfg request t' username := by
  obtain ⟨body, password, reply, hbody, hrequest, hmem, hfits⟩ := h
  exact ⟨body, password, reply, hbody, hrequest, ht.subset hmem, hfits⟩

theorem at_setToken {env : Surroundings} {request : Request} {t : List (Wire × Answer)}
    {op : Wire} {next : Answer → Talk Response} {token : Bytes}
    (h : (ApiServer.handle cfg env request).Path t (.op op next))
    (hop : op.writes = some (tokenKey token)) :
    ∃ username, LoggedIn cfg request t username ∧
      op = .command (.set (tokenKey env.token.text) username (some tokenTtlSec)) := by
  have haccounts := ofAccounts_of_writes h hop (.inr (take_tokenKey _))
  have hwrites : op.writes ≠ none := by
    rw [hop]
    exact fun he => nomatch he
  obtain ⟨body, username, password, hbody, ⟨-, next', h₁⟩ | ⟨hrequest, t₁, t₂, next', rfl, h₁⟩⟩ :=
    account_path haccounts h
  · exfalso
    rcases ((registerUser_writes _).of_path h₁).2.1 with hnone | huser
    · exact hwrites hnone
    · rw [hop, Option.some.injEq] at huser
      exact ne_of_take (take_tokenKey _) (take_userKey _) (by decide) huser
  · obtain ⟨rfl, reply, hmem, hfits⟩ := login_at_write h₁ hwrites
    exact ⟨username, ⟨body, password, reply, hbody, hrequest, List.mem_append_right _ hmem, hfits⟩,
      rfl⟩

theorem at_setUser {env : Surroundings} {request : Request} {t : List (Wire × Answer)}
    {op : Wire} {next : Answer → Talk Response} {name : Bytes}
    (h : (ApiServer.handle cfg env request).Path t (.op op next))
    (hop : op.writes = some (userKey name)) :
    ∃ body username password, Credentials cfg body username password ∧
      request = .register body ∧ checkRegistration username password = none ∧
      op = .command (.set (userKey username) (credential cfg.sha256 env.salt password) none) ∧
      ∃ next', (registerUser cfg.sha256 env.salt username password).Path t (.op op next') := by
  have haccounts := ofAccounts_of_writes h hop (.inl (take_userKey _))
  have hwrites : op.writes ≠ none := by
    rw [hop]
    exact fun he => nomatch he
  obtain ⟨body, username, password, hbody, ⟨hrequest, next', h₁⟩ | ⟨-, t₁, t₂, next', rfl, h₁⟩⟩ :=
    account_path haccounts h
  · obtain ⟨hcheck, rfl⟩ := registerUser_at_write h₁ hwrites
    exact ⟨body, username, password, hbody, hrequest, hcheck, rfl, next', h₁⟩
  · obtain ⟨rfl, -⟩ := login_at_write h₁ hwrites
    exact absurd (Option.some.inj hop) (ne_of_take (take_tokenKey _) (take_userKey _) (by decide))

/-! ### `require_auth` -/

theorem requireAuth_returns (authorization : Option Bytes) :
    (ApiServer.requireAuth authorization).Returns fun r =>
      ∀ response, r = .error response → response.status = 401 := by
  unfold ApiServer.requireAuth
  split
  · intro response h
    cases h
    rfl
  · refine @returns_bind _ _ _ _ _ (fun _ => True) _ _ _ ?_ fun username _ => ?_
    · unfold validateToken
      split
      · trivial
      · refine returns_bind (execCommand_returns _) fun r _ => ?_
        split <;> trivial
    · split
      · intro response h
        cases h
        rfl
      · intro response h
        cases h

/-- **Who passes** was looked up, and is whom the reply names. -/
theorem requireAuth_path_ok {authorization : Option Bytes} {t : List (Wire × Answer)} {u : Bytes}
    (h : (ApiServer.requireAuth authorization).Path t (.pure (.ok u))) :
    ∃ header reply, authorization = some header ∧
      (.command (.get (tokenKey (extractBearerToken header))), .reply reply) ∈ t ∧
      reply ≠ .nil ∧ u = replyStr reply := by
  unfold ApiServer.requireAuth at h
  split at h
  · cases (path_pure.mp h).2
  next header =>
  obtain ⟨t₁, t₂, username, rfl, h₁, h₂⟩ := path_bind_pure_iff.mp h
  split at h₂
  · cases (path_pure.mp h₂).2
  next username =>
  cases (path_pure.mp h₂).2
  unfold validateToken at h₁
  split at h₁
  · cases (path_pure.mp h₁).2
  obtain ⟨t₃, t₄, r, rfl, h₃, h₄⟩ := path_bind_pure_iff.mp h₁
  split at h₄
  · cases (path_pure.mp h₄).2
  · cases (path_pure.mp h₄).2
  next reply hnil =>
  cases (path_pure.mp h₄).2
  refine ⟨header, reply, rfl, ?_, hnil, rfl⟩
  exact List.mem_append_left _ (List.mem_append_left _ (reply_mem h₃))

def Request.authorization? : Request → Option (Option Bytes)
  | .me authorization => some authorization
  | .submissions authorization => some authorization
  | .submit authorization _ => some authorization
  | .submission authorization _ => some authorization
  | _ => none

theorem handle_protected {env : Surroundings} {request : Request} {authorization : Option Bytes}
    (h : request.authorization? = some authorization) :
    ∃ f : Except Response Bytes → Talk Response,
      ApiServer.handle cfg env request = ApiServer.requireAuth authorization >>= f ∧
        ∀ response, f (.error response) = .pure response := by
  cases request <;> cases h <;> exact ⟨_, rfl, fun _ => rfl⟩

end Ocpe

namespace Ocpe.System

open Lib Redis Prog RedisClient AuthService

variable {cfg : Config} {s s' : Sys cfg}

def AccountKey (key : Bytes) : Prop :=
  key.take 10 = bytes "ocpe:user:" ∨ key.take 10 = bytes "ocpe:token"

theorem AccountKey.setOnly {key : Bytes} (hkey : AccountKey key) : SetOnly key := by
  rcases hkey with hkey | hkey <;> apply setOnly_of_take <;> rw [hkey] <;> decide

theorem writer_is_handler {key : Bytes} (hkey : AccountKey key) {who : Party} {op : Wire}
    (hop : s.op? who = some op) (hwrites : op.writes = some key) : ∃ r, who = .handler r := by
  cases who with
  | handler r => exact ⟨r, rfl⟩
  | worker w =>
    exfalso
    have hsends : WorkerSends op := sends_of_op? hop
    cases hsends with
    | connect => cases hwrites
    | popJob =>
      cases hwrites
      rcases hkey with hkey | hkey <;> rw [take_queueKey] at hkey <;> revert hkey <;> decide
    | setStatus id v =>
      cases hwrites
      rcases hkey with hkey | hkey <;> rw [take_statusKey] at hkey <;> revert hkey <;> decide
    | setResult id payload =>
      cases hwrites
      rcases hkey with hkey | hkey <;> rw [take_resultKey] at hkey <;> revert hkey <;> decide

/-- **What an account key holds was written by a handler**, which was at that write. -/
theorem account_writer {as : List Action} (hrun : Reaches cfg as s) {key : Bytes}
    (hkey : AccountKey key) {entry : Entry} (hstore : s.store key = some entry) :
    ∃ r, ∃ h h' : Handling cfg, ∃ x : SetEvent, ∃ reply answer next, entry = x.entry ∧ s.requests r = some h' ∧
      h.Continues h' ∧ (ApiServer.handle cfg h.env h.request).Path h.task.trace
        (.op (.command (.set key x.value x.exSec)) next) ∧
      .wire (.handler r) x.now (.command (.set key x.value x.exSec)) (some reply) answer ∈ s.log := by
  obtain ⟨pre, e, post, x, hlog, hset, -, rfl⟩ := last_of_held hkey.setOnly hrun hstore
  obtain ⟨who, reply, answer, rfl⟩ := Event.set?_eq_some.mp hset
  obtain ⟨as₁, net, as₂, m, -, -, -, hop, -, hrest⟩ := at_event hrun hlog
  obtain ⟨r, rfl⟩ := writer_is_handler hkey hop rfl
  obtain ⟨h, next, hr, hpath⟩ := handler_at hop
  have hmstep : step cfg m (.perform (.handler r) net) = some _ :=
    step_perform_iff.mpr ⟨_, hop, rfl⟩
  obtain ⟨h', hr', hcont⟩ := ((grows_step hmstep).trans (grows_run hrest)).requests r h hr
  refine ⟨r, h, h', x, reply, answer, next, rfl, hr', hcont, hpath, ?_⟩
  rw [hlog]
  simp

def Issued (s : Sys cfg) (token username : Bytes) : Prop :=
  ∃ r h now reply answer, s.requests r = some h ∧ h.env.token.text = token ∧
    LoggedIn cfg h.request h.task.trace username ∧
    .wire (.handler r) now (.command (.set (tokenKey token) username (some tokenTtlSec)))
      (some reply) answer ∈ s.log

theorem Issued.mono {token username : Bytes} (h : Issued s token username) (hgrows : Grows s s') :
    Issued s' token username := by
  obtain ⟨r, k, now, reply, answer, hr, htoken, hlogged, hmem⟩ := h
  obtain ⟨k', hr', hcont⟩ := hgrows.requests r k hr
  refine ⟨r, k', now, reply, answer, hr', ?_, ?_, hgrows.log.subset hmem⟩
  · rw [hcont.env]
    exact htoken
  · rw [hcont.request]
    exact hlogged.mono hcont.trace

/-- **What a token key holds was written by a login.** -/
theorem tokens_issued {as : List Action} (hrun : Reaches cfg as s) {token : Bytes}
    {entry : Entry} (hstore : s.store (tokenKey token) = some entry) :
    ∃ username, entry.value = .str username ∧ Issued s (cstr token) username := by
  obtain ⟨r, h, h', x, reply, answer, next, rfl, hr', hcont, hpath, hmem⟩ :=
    account_writer hrun (.inr (take_tokenKey token)) hstore
  obtain ⟨username, hlogged, heq⟩ := at_setToken hpath rfl
  injection heq with heq
  obtain ⟨hkey, hvalue, hex⟩ := Cmd.set.inj heq
  have htoken : h.env.token.text = cstr token := by
    have hcstr := tokenKey_inj.mp hkey
    rw [cstr_eq_self h.env.token.nulFree] at hcstr
    exact hcstr.symm
  have hsame : tokenKey token = tokenKey (cstr token) := by
    rw [tokenKey_inj, cstr_eq_self (nulFree_cstr token)]
  refine ⟨username, congrArg Value.str hvalue, r, h', x.now, reply, answer, hr', ?_, ?_, ?_⟩
  · rw [hcont.env]
    exact htoken
  · rw [hcont.request]
    exact hlogged.mono hcont.trace
  · rw [← hsame, ← hvalue, ← hex]
    exact hmem

/-- `require_auth` lets the request through as `username`. -/
def Passes (h : Handling cfg) (authorization : Option Bytes) (username : Bytes) : Prop :=
  ∃ t₁ t₂, h.task.trace = t₁ ++ t₂ ∧
    (ApiServer.requireAuth authorization).Path t₁ (.pure (.ok username))

theorem Passes.later {h h' : Handling cfg} {authorization : Option Bytes} {username : Bytes}
    (hpasses : Passes h authorization username) (hcontinues : h.Continues h') :
    Passes h' authorization username := by
  obtain ⟨t₁, t₂, htrace, hpath⟩ := hpasses
  obtain ⟨rest, hrest⟩ := hcontinues.trace
  exact ⟨t₁, t₂ ++ rest, by rw [← hrest, htrace, List.append_assoc], hpath⟩

/-- **A look-up that is replied to with anything but an error** is replied to with what
the store holds at that moment. -/
theorem looked_up {as : List Action} (hrun : Reaches cfg as s) {r : Nat} {h : Handling cfg}
    (hr : s.requests r = some h) {key : Bytes} {reply : Reply}
    (hmem : (.command (.get key), .reply reply) ∈ h.task.trace) (hnil : reply ≠ .nil)
    (herror : ∀ msg, reply ≠ .error msg) :
    ∃ as₁ as₂ m text, as = as₁ ++ as₂ ∧ Reaches cfg as₁ m ∧ Lib.run (step cfg) m as₂ = some s ∧
      m.op? (.handler r) = some (.command (.get key)) ∧ reply = .str text ∧
      m.store.live m.now key = some (.str text) := by
  obtain ⟨now, executed, he⟩ := (mem_trace_iff hrun hr).mp hmem
  obtain ⟨as₁, net, as₂, m, has, hm, hop, hevent, hrest⟩ := at_mem hrun he
  have hanswer : m.answer (.handler r) (.command (.get key)) net = .reply reply := by
    injection hevent
  have hok : notError reply = true := by
    cases reply with
    | error msg => exact absurd rfl (herror msg)
    | _ => rfl
  have hexec := (perform_store_of_executed (executed_of_reply hanswer hok)).2
  rw [exec_get] at hexec
  refine ⟨as₁, .perform (.handler r) net :: as₂, m, ?_⟩
  cases hlive : m.store.live m.now key with
  | none =>
    rw [hlive] at hexec
    exact absurd hexec hnil
  | some v =>
    rw [hlive] at hexec
    cases v with
    | list l => exact absurd hexec (herror _)
    | str text =>
      exact ⟨text, has, hm, run_cons_iff.mpr ⟨_, step_perform_iff.mpr ⟨_, hop, rfl⟩, hrest⟩, hop,
        hexec, rfl⟩

/-- The look-up of the token is not answered with an error reply, and the token has no
NUL. -/
def PlainLookup (h : Handling cfg) (authorization : Option Bytes) : Prop :=
  ∀ header, authorization = some header → NulFree (extractBearerToken header) ∧
    ∀ msg, (.command (.get (tokenKey (extractBearerToken header))), .reply (.error msg)) ∉
      h.task.trace

/-- When the handler was at the look-up of the token, the store had `u` under it, and a
login of `u` had put it there. -/
def Authentic (cfg : Config) (as : List Action) (r : Nat) (token u : Bytes) : Prop :=
  ∃ as₁ as₂, ∃ m : Sys cfg, as = as₁ ++ as₂ ∧ Reaches cfg as₁ m ∧
    m.op? (.handler r) = some (.command (.get (tokenKey token))) ∧
    m.store.live m.now (tokenPrefix ++ token) = some (.str u) ∧ Issued m token u

/-- **Who passes was issued a token**, when the look-up is not answered with an error
reply; the token is known up to its first NUL. -/
theorem issued_of_passes {as : List Action} (hrun : Reaches cfg as s) {r : Nat}
    {h : Handling cfg} (hr : s.requests r = some h) {authorization : Option Bytes}
    (hreply : ∀ key msg, (.command (.get key), .reply (.error msg)) ∈ h.task.trace →
      ∀ header, authorization = some header → key ≠ tokenKey (extractBearerToken header))
    {u : Bytes} (hpasses : Passes h authorization u) :
    ∃ header as₁ as₂, ∃ m : Sys cfg, authorization = some header ∧ as = as₁ ++ as₂ ∧
      Reaches cfg as₁ m ∧ Lib.run (step cfg) m as₂ = some s ∧
      m.op? (.handler r) = some (.command (.get (tokenKey (extractBearerToken header)))) ∧
      m.store.live m.now (tokenKey (extractBearerToken header)) = some (.str u) ∧
      Issued m (cstr (extractBearerToken header)) u := by
  obtain ⟨t₁, t₂, htrace, hpath⟩ := hpasses
  obtain ⟨header, reply, rfl, hmem, hnil, rfl⟩ := requireAuth_path_ok hpath
  have hmem' : (Wire.command (.get (tokenKey (extractBearerToken header))), Answer.reply reply) ∈
      h.task.trace := by
    rw [htrace]
    exact List.mem_append_left _ hmem
  obtain ⟨as₁, as₂, m, text, has, hm, hrest, hop, rfl, hlive⟩ :=
    looked_up hrun hr hmem' hnil fun msg he => hreply _ msg (he ▸ hmem') header rfl rfl
  refine ⟨header, as₁, as₂, m, rfl, has, hm, hrest, hop, hlive, ?_⟩
  obtain ⟨entry, hentry, hv⟩ := Option.bind_eq_some_iff.mp hlive
  obtain ⟨username, hvalue, hissued⟩ := tokens_issued hm hentry
  split at hv
  · rw [hvalue] at hv
    cases hv
    exact hissued
  · cases hv

theorem authentic_of_passes {as : List Action} (hrun : Reaches cfg as s) {r : Nat}
    {h : Handling cfg} (hr : s.requests r = some h) {authorization : Option Bytes}
    (hplain : PlainLookup h authorization) {u : Bytes} (hpasses : Passes h authorization u) :
    ∃ header, authorization = some header ∧
      Authentic cfg as r (extractBearerToken header) u := by
  obtain ⟨header, as₁, as₂, m, rfl, has, hm, -, hop, hlive, hissued⟩ :=
    issued_of_passes hrun hr (fun key msg hmem header hheader hkey =>
      (hplain header hheader).2 msg (hkey ▸ hmem)) hpasses
  obtain ⟨hnul, -⟩ := hplain header rfl
  have hkey : tokenKey (extractBearerToken header) =
      tokenPrefix ++ extractBearerToken header := by
    apply cstr_eq_self
    rw [nulFree_append]
    exact ⟨by decide, hnul⟩
  rw [cstr_eq_self hnul] at hissued
  exact ⟨header, rfl, as₁, as₂, m, has, hm, hop, hkey ▸ hlive, hissued⟩

/-- **Who does not pass** is answered 401, and his request has written nothing. -/
theorem refused_of_not_passes {as : List Action} (hrun : Reaches cfg as s) {r : Nat}
    {h : Handling cfg} (hr : s.requests r = some h) {authorization : Option Bytes}
    (hprotected : h.request.authorization? = some authorization)
    (hnot : ∀ u, ¬ Passes h authorization u) :
    (∀ now op executed answer, .wire (.handler r) now op executed answer ∈ s.log →
      op.writes = none) ∧
    (h.task.op? = none → ∃ response, h.task.rest = .pure response ∧ response.status = 401) := by
  obtain ⟨f, hhandle, hf⟩ := @handle_protected cfg h.env _ _ hprotected
  have hpath := h.path
  rw [hhandle] at hpath
  have hreads : ∀ {t q}, (ApiServer.requireAuth authorization).Path t q →
      ∀ x ∈ t, x.1.writes = none := fun hp => ((requireAuth_reads authorization).of_path hp).1
  -- the handler is in `require_auth`, or has been refused by it
  obtain ⟨m, t, htrace, hm, hrest⟩ : ∃ m t, h.task.trace = t ∧
      (ApiServer.requireAuth authorization).Path t m ∧ h.task.rest = m >>= f := by
    rcases path_bind_iff.mp hpath with ⟨m, hm, hrest⟩ | ⟨t₁, t₂, r, htrace, h₁, h₂⟩
    · exact ⟨m, _, rfl, hm, hrest⟩
    · cases r with
      | ok u => exact absurd ⟨t₁, t₂, htrace, h₁⟩ (hnot u)
      | error response =>
        rw [hf] at h₂
        obtain ⟨rfl, hrest⟩ := path_pure.mp h₂
        refine ⟨_, t₁, by simpa using htrace, h₁, ?_⟩
        rw [hrest, pure_bind, hf]
  refine ⟨fun now op executed answer he => ?_, fun hended => ?_⟩
  · have hown : (op, answer) ∈ h.task.trace := (mem_trace_iff hrun hr).mpr ⟨now, executed, he⟩
    exact hreads hm _ (htrace ▸ hown)
  · have hreturns := (requireAuth_returns authorization).of_path hm
    cases m with
    | throw e => exact hreturns.elim
    | op i next =>
      rw [Task.op?, hrest] at hended
      cases hended
    | pure r =>
      cases r with
      | ok u => exact absurd ⟨t, [], by simpa using htrace, hm⟩ (hnot u)
      | error response => exact ⟨response, by rw [hrest, pure_bind, hf], hreturns response rfl⟩

/-- **Authentication is sound**, in every run in which the look-up of the token is not
answered with an error reply, for a token without NUL: a request that passes as `u` was
looked up when the store had `u` under its token, where a login of `u` had put it.  A
request that does not pass writes nothing, and is answered 401. -/
theorem require_auth_sound {as : List Action} (hrun : Reaches cfg as s) {r : Nat}
    {h : Handling cfg} (hr : s.requests r = some h) {authorization : Option Bytes}
    (hprotected : h.request.authorization? = some authorization)
    (hplain : PlainLookup h authorization) :
    (∀ u, Passes h authorization u → ∃ header, authorization = some header ∧
      Authentic cfg as r (extractBearerToken header) u) ∧
    ((∀ u, ¬ Passes h authorization u) →
      (∀ now op executed answer, .wire (.handler r) now op executed answer ∈ s.log →
        op.writes = none) ∧
      (h.task.op? = none → ∃ response, h.task.rest = .pure response ∧ response.status = 401)) :=
  ⟨fun _ hpasses => authentic_of_passes hrun hr hplain hpasses,
    refused_of_not_passes hrun hr hprotected⟩

/-! ### Two look-ups -/

theorem me_path {env : Surroundings} {token reply : Bytes} (htoken : token ≠ [])
    {r : Reply} (hr : r = .str reply ∨ r = .error reply) (hreply : ValidUtf8 reply) :
    ∃ response, response.status = 200 ∧
      (ApiServer.requireAuth (some (bytes "Bearer " ++ token))).Path
        [(.command (.get (tokenKey token)), .reply r)] (.pure (.ok reply)) ∧
      (ApiServer.handle cfg env (.me (some (bytes "Bearer " ++ token)))).Path
        [(.command (.get (tokenKey token)), .reply r)] (.pure response) := by
  have hjson : (Json.null.set "username" (.str reply)).Utf8 := by
    simp +decide [hreply]
  obtain ⟨content, hcontent⟩ := cfg.format.exists_dumpText hjson
  have hauth : (ApiServer.requireAuth (some (bytes "Bearer " ++ token))).Path
      [(.command (.get (tokenKey token)), .reply r)] (.pure (.ok reply)) := by
    show (validateToken (extractBearerToken _) >>= _ : Talk (Except Response Bytes)).Path _ _
    rw [extractBearerToken_bearer htoken, validateToken, if_neg htoken]
    rcases hr with rfl | rfl <;> exact ⟨rfl, rfl⟩
  have hrespond : (ApiServer.respond cfg 200 (Json.null.set "username" (.str reply))).Path []
      (.pure ⟨200, content⟩) := by
    rw [path_nil, ApiServer.respond, hcontent]
    rfl
  exact ⟨⟨200, content⟩, rfl, hauth, Path.bind hauth hrespond⟩

/-- A request for `/auth/me` meets a Redis that is still loading. -/
def loadingActions : List Action :=
  [.request 0 0 (.me (some (bytes "Bearer " ++ (zeros 64).text))) zeroSurroundings,
    .perform (.handler 0) (.refused "LOADING Redis is loading the dataset in memory")]

/-- **An error reply passes**: as the user whose name is its text.  No login has ever
issued anything. -/
theorem loading_passes :
    ∃ (s : Sys textConfig) (h : Handling textConfig) (response : Response),
      Reaches textConfig loadingActions s ∧ s.requests 0 = some h ∧
      h.request = .me (some (bytes "Bearer " ++ (zeros 64).text)) ∧
      Passes h (some (bytes "Bearer " ++ (zeros 64).text))
        "LOADING Redis is loading the dataset in memory" ∧
      h.task.rest = .pure response ∧ response.status = 200 ∧
      ∀ token u, ¬ Authentic textConfig loadingActions 0 token u := by
  let begun : Handling textConfig :=
    .begin textConfig 0 (.me (some (bytes "Bearer " ++ (zeros 64).text))) zeroSurroundings
  let s₁ : Sys textConfig := { requests := Function.update (fun _ => none) 0 (some begun) }
  obtain ⟨response, h200, hauth, hpath⟩ :=
    @me_path textConfig zeroSurroundings (zeros 64).text
      "LOADING Redis is loading the dataset in memory" (by decide) _ (.inr rfl) (by decide)
  have hr : s₁.requests 0 = some begun := by simp [s₁]
  obtain ⟨h, -, hrequest, -, hrest, hrun⟩ :=
    @handler_alone _ s₁ 0 begun
      [(.command (.get (tokenKey (zeros 64).text)),
        .refused "LOADING Redis is loading the dataset in memory")] _ hr hpath
  have hreaches : Reaches textConfig loadingActions _ := run_cons_iff.mpr ⟨s₁, rfl, hrun⟩
  refine ⟨_, h, response, hreaches, by simp, hrequest, ⟨_, [], ?_, hauth⟩, hrest, h200, ?_⟩
  · have htrace := handler_trace hreaches 0
    simp only [Sys.trace, Function.update_self] at htrace
    exact htrace
  · rintro token u ⟨as₁, as₂, m, has, hm, -, -, r, k, now, reply, answer, -, -, -, hmem⟩
    -- nothing but the look-up is ever in the log
    have hwhole := hreaches
    rw [has] at hwhole
    obtain ⟨m', hm', hrest'⟩ := run_append_iff.mp hwhole
    obtain rfl : m' = m := Option.some.inj (hm'.symm.trans hm)
    have hlog := (grows_run hrest').log.subset hmem
    simp [Script.log, s₁, exchange] at hlog

def Event.plain : Event → Bool
  | .wire _ _ _ _ (.reply (.error _)) => false
  | _ => true

def whoAmI : List Action :=
  signUpActions ++
    [.request 1 0 (.me (some (bytes "Bearer " ++ (zeros 64).text))) zeroSurroundings,
      .perform (.handler 1) .served]

theorem whoAmI_run :
    ∃ (s : Sys textConfig) (h₀ h : Handling textConfig), Reaches textConfig whoAmI s ∧
      s.requests = Function.update (Function.update (fun _ => none) 0 (some h₀)) 1 (some h) ∧
      h₀.request = .register (JsonText.print registerJson) ∧
      h.request = .me (some (bytes "Bearer " ++ (zeros 64).text)) ∧
      h.task.trace = [(.command (.get (tokenKey (zeros 64).text)), .reply (.str "ann"))] ∧
      Passes h (some (bytes "Bearer " ++ (zeros 64).text)) "ann" ∧
      s.log.all Event.plain = true := by
  obtain ⟨h₀, hrequest₀, -, hsigned⟩ := ann_signsUp
  let begun : Handling textConfig :=
    .begin textConfig 0 (.me (some (bytes "Bearer " ++ (zeros 64).text))) zeroSurroundings
  let s₁ : Sys textConfig :=
    { signedUp textConfig annSurroundings "ann" "secret" h₀ with
      requests := Function.update (Function.update (fun _ => none) 0 (some h₀)) 1 (some begun) }
  obtain ⟨response, -, hauth, hpath⟩ :=
    @me_path textConfig zeroSurroundings (zeros 64).text "ann" (by decide) _ (.inl rfl) (by decide)
  have hr : s₁.requests 1 = some begun := by simp [s₁]
  obtain ⟨h, -, hrequest, -, -, hrun⟩ :=
    @handler_alone _ s₁ 1 begun [(.command (.get (tokenKey (zeros 64).text)), .served)] _ hr hpath
  obtain ⟨s₂, hreaches, hrequests, hlog, hplain⟩ : ∃ s₂ : Sys textConfig,
      Reaches textConfig whoAmI s₂ ∧
      s₂.requests = Function.update (Function.update (fun _ => none) 0 (some h₀)) 1 (some h) ∧
      ownTrace (.handler 1) s₂.log =
        [(.command (.get (tokenKey (zeros 64).text)), .reply (.str "ann"))] ∧
      s₂.log.all Event.plain = true :=
    ⟨_, run_append_iff.mpr ⟨_, hsigned, run_cons_iff.mpr ⟨s₁, rfl, hrun⟩⟩,
      Function.update_idem .., rfl, rfl⟩
  have htrace : h.task.trace =
      [(.command (.get (tokenKey (zeros 64).text)), .reply (.str "ann"))] := by
    have hown := handler_trace hreaches 1
    rw [Sys.trace, hrequests, Function.update_self, hlog] at hown
    exact hown
  exact ⟨s₂, h₀, h, hreaches, hrequests, hrequest₀, hrequest, htrace,
    ⟨_, [], htrace, hauth⟩, hplain⟩

theorem require_auth_sound_ann :
    ∃ (s : Sys textConfig) (h : Handling textConfig), Reaches textConfig whoAmI s ∧
      s.requests 1 = some h ∧
      Passes h (some (bytes "Bearer " ++ (zeros 64).text)) "ann" ∧
      Authentic textConfig whoAmI 1 (zeros 64).text "ann" := by
  obtain ⟨s, h₀, h, hrun, hrequests, -, hrequest, htrace, hpasses, -⟩ := whoAmI_run
  have htoken : (zeros 64).text ≠ [] := by decide
  have hr : s.requests 1 = some h := by rw [hrequests, Function.update_self]
  have hplain : PlainLookup h (some (bytes "Bearer " ++ (zeros 64).text)) := by
    intro header hheader
    cases hheader
    rw [extractBearerToken_bearer htoken, htrace]
    refine ⟨by decide, fun msg hmem => ?_⟩
    simp at hmem
  have hprotected : h.request.authorization? =
      some (some (bytes "Bearer " ++ (zeros 64).text)) := by rw [hrequest]; rfl
  obtain ⟨header, hheader, hauthentic⟩ :=
    (require_auth_sound hrun hr hprotected hplain).1 "ann" hpasses
  cases hheader
  rw [extractBearerToken_bearer htoken] at hauthentic
  exact ⟨s, h, hrun, hr, hpasses, hauthentic⟩

end Ocpe.System
