import Ocpe.System.Submitting

/-!
# Requests with any body

Three routes of the API read a JSON body (`api/src/server.cpp`), and their `try` is around the
parser alone.  What the parser accepts may be of any shape, and `value` throws where it is not
an object or a member is no string.

* `stringFields_iff`: the shapes on which `value` does not throw.
* `account_ended`, `accept_ended`: how a handler comes to its end, past `value`, and which can
  throw.
* `answers_iff`: which requests are answered by their own handler.

A body `[]` is accepted by the parser and by no handler: `array_escapes`.
-/

namespace Ocpe

open Lib Redis Prog RedisClient AuthService

/-! ### The shapes of a body -/

def Request.body? : Request → Option Bytes
  | .register body => some body
  | .login body => some body
  | .submit _ body => some body
  | _ => none

def Request.fields : Request → List Bytes
  | .register _ => ["username", "password"]
  | .login _ => ["username", "password"]
  | .submit _ _ => ["problem_id", "source_code", "language"]
  | _ => []

/-- An object that has strings in these fields, as far as it has the fields. -/
def StringFields (fields : List Bytes) (j : Json) : Prop :=
  ∃ l, j = .obj l ∧ ∀ k ∈ fields, ∀ v, objFind k l = some v → ∃ s, v = .str s

theorem valueStr_ok_iff {j : Json} {k dflt : Bytes} :
    (∃ s, j.valueStr k dflt = .ok s) ↔ StringFields [k] j := by
  cases j with
  | obj l =>
    simp only [Json.value]
    constructor
    · intro h
      refine ⟨l, rfl, fun k' hk' v hv => ?_⟩
      rw [List.mem_singleton.mp hk'] at hv
      rw [hv] at h
      cases v with
      | str s => exact ⟨s, rfl⟩
      | _ =>
        obtain ⟨s, hs⟩ := h
        cases hs
    · rintro ⟨l', heq, hall⟩
      cases heq
      cases hfind : objFind k l with
      | none => exact ⟨dflt, rfl⟩
      | some v =>
        obtain ⟨s, rfl⟩ := hall k (List.mem_singleton.mpr rfl) v hfind
        exact ⟨s, rfl⟩
  | _ =>
    refine iff_of_false ?_ ?_
    · rintro ⟨s, hs⟩
      cases hs
    · rintro ⟨l, heq, -⟩
      cases heq

/-- **The shapes on which `value` does not throw.** -/
theorem stringFields_iff {fields : List Bytes} (hne : fields ≠ []) {j : Json} :
    StringFields fields j ↔ ∀ k ∈ fields, ∀ dflt, ∃ s, j.valueStr k dflt = .ok s := by
  constructor
  · rintro ⟨l, rfl, hall⟩ k hk dflt
    refine valueStr_ok_iff.mpr ⟨l, rfl, fun k' hk' => ?_⟩
    rw [List.mem_singleton.mp hk']
    exact hall k hk
  · intro hall
    obtain ⟨k₀, hk₀⟩ := List.exists_mem_of_ne_nil fields hne
    obtain ⟨l, rfl, -⟩ := valueStr_ok_iff.mp (hall k₀ hk₀ [])
    refine ⟨l, rfl, fun k hk v hv => ?_⟩
    obtain ⟨l', heq, hall'⟩ := valueStr_ok_iff.mp (hall k hk [])
    cases heq
    exact hall' k (List.mem_singleton.mpr rfl) v hv

namespace ApiServer

variable {cfg : Config} {env : Surroundings}

/-! ### Past the fields of an account -/

theorem registerUser_returns (salt : HexString 32) (username password : Bytes) :
    (registerUser cfg.sha256 salt username password).Returns fun r =>
      match r with
      | .ok _ => checkRegistration username password = none
      | .error error => ValidUtf8 error := by
  unfold registerUser
  cases hcheck : checkRegistration username password with
  | some error =>
    unfold checkRegistration at hcheck
    show ValidUtf8 error
    split at hcheck
    · cases hcheck
      decide
    split at hcheck
    · cases hcheck
      decide
    split at hcheck
    · cases hcheck
      decide
    · cases hcheck
  | none =>
    have htaken : ValidUtf8 "Username already exists" := by decide
    have hfailed : ValidUtf8 "Failed to create user" := by decide
    refine returns_bind (execCommand_returns _) fun r _ => ?_
    split
    · refine returns_bind (succeeds_returns _) fun ok _ => ?_
      split
      · trivial
      · exact hfailed
    · refine returns_bind (succeeds_returns _) fun ok _ => ?_
      split
      · trivial
      · exact hfailed
    · exact htaken

theorem login_returns (token : HexString 64) (username password : Bytes) :
    (login cfg.sha256 token username password).Returns fun r =>
      ∀ session, r = some session → session = ⟨token.text, username⟩ := by
  refine returns_bind (execCommand_returns _) fun r _ => ?_
  split
  · exact fun _ h => nomatch h
  · exact fun _ h => nomatch h
  · split
    · refine returns_bind (succeeds_returns _) fun ok _ => ?_
      split
      · exact fun _ h => (Option.some.inj h).symm
      · exact fun _ h => nomatch h
    · exact fun _ h => nomatch h

theorem utf8_of_parseBody {body : Bytes} {json : Json} (h : parseBody cfg body = some json) :
    json.Utf8 := by
  unfold parseBody JsonFormat.parseText at h
  split at h
  · next j hj =>
    cases h
    exact cfg.format.parse_utf8 _ _ hj
  · cases h

theorem respond_returns {status : Nat} {j : Json} (hj : j.Utf8) :
    (respond cfg status j).Returns fun _ => True := by
  obtain ⟨b, hb⟩ := cfg.format.exists_dumpText hj
  rw [respond, hb]
  trivial

section Account

variable {body username password : Bytes} {json : Json}
  (hbody : parseBody cfg body = some json) (husername : json.valueStr "username" "" = .ok username)
  (hpassword : json.valueStr "password" "" = .ok password)

include hbody husername hpassword

theorem postRegister_returns : (postRegister cfg env body).Returns fun _ => True := by
  simp only [postRegister, hbody, husername, hpassword, Talk.json, Except.mapError,
    ofExcept_ok_bind]
  refine returns_bind (@registerUser_returns cfg env.salt username password) fun r hr => ?_
  cases r with
  | error error =>
    refine respond_returns ?_
    simp +decide [hr]
  | ok _ =>
    refine returns_bind (@login_returns cfg env.token username password) fun session hsession => ?_
    cases session with
    | none => trivial
    | some session =>
      obtain rfl := hsession session rfl
      refine respond_returns (utf8_sessionJson env (validUtf8_of_ascii fun b hb => ?_))
      exact (ascii_of_checkRegistration hr b hb).2

theorem postLogin_returns : (postLogin cfg env body).Returns fun _ => True := by
  have hutf8 : ValidUtf8 username :=
    utf8_valueStr (utf8_of_parseBody hbody) (by decide) husername
  simp only [postLogin, hbody, husername, hpassword, Talk.json, Except.mapError,
    ofExcept_ok_bind]
  refine returns_bind (@login_returns cfg env.token username password) fun session hsession => ?_
  cases session with
  | none => trivial
  | some session =>
    obtain rfl := hsession session rfl
    exact respond_returns (utf8_sessionJson env hutf8)

end Account

/-! ### What a handler makes of the body -/

/-- Not an object with strings in the fields that the handler reads. -/
def Malformed (cfg : Config) (request : Request) (body : Bytes) : Prop :=
  ∀ json, parseBody cfg body = some json → ¬ StringFields request.fields json

theorem fields_throw {α : Type} {json : Json} {k k' dflt dflt' : Bytes}
    (h : ¬ StringFields [k, k'] json) (f : Bytes → Bytes → Talk α) :
    ∃ e, (do
      let a ← Talk.json (json.valueStr k dflt)
      let b ← Talk.json (json.valueStr k' dflt')
      f a b) = .throw e := by
  cases ha : json.valueStr k dflt with
  | error e => exact ⟨_, rfl⟩
  | ok a =>
    cases hb : json.valueStr k' dflt' with
    | error e => exact ⟨_, rfl⟩
    | ok b =>
      refine absurd ((stringFields_iff (by simp)).mpr ?_) h
      intro k₁ hk₁ dflt₁
      rw [List.mem_cons, List.mem_singleton] at hk₁
      rcases hk₁ with rfl | rfl
      · exact valueStr_ok_iff.mpr (valueStr_ok_iff.mp ⟨a, ha⟩)
      · exact valueStr_ok_iff.mpr (valueStr_ok_iff.mp ⟨b, hb⟩)

theorem not_responded {q : Talk Response} {e : Exn} (hq : q = .throw e) :
    ¬ ∃ response, q = .pure response := by
  rintro ⟨response, heq⟩
  cases hq.symm.trans heq

/-- The two routes of the accounts, as far as they are alike: who ends with a response, and
that a malformed body is answered at once. -/
theorem account_ended {request : Request} {body : Bytes} {p q : Talk Response}
    {t : List (Wire × Answer)}
    (hnone : parseBody cfg body = none → p = .pure (errorResponse 400 "invalid JSON"))
    (hthrow : ∀ json, parseBody cfg body = some json → ¬ StringFields request.fields json →
      ∃ e, p = .throw e)
    (hreturns : ∀ json, parseBody cfg body = some json → StringFields request.fields json →
      p.Returns fun _ => True)
    (h : p.Path t q) (hq : ∀ i next, q ≠ .op i next) :
    ((∃ response, q = .pure response) ↔ (parseBody cfg body = none ∨
        ∃ json, parseBody cfg body = some json ∧ StringFields request.fields json)) ∧
      (Malformed cfg request body → ∀ response, q = .pure response →
        response.status = 400 ∧ t = []) := by
  cases hbody : parseBody cfg body with
  | none =>
    rw [hnone hbody] at h
    obtain ⟨rfl, rfl⟩ := path_pure.mp h
    refine ⟨iff_of_true ⟨_, rfl⟩ (.inl rfl), fun _ response heq => ?_⟩
    cases heq
    exact ⟨rfl, rfl⟩
  | some json =>
    by_cases hfields : StringFields request.fields json
    · refine ⟨iff_of_true ?_ (.inr ⟨json, rfl, hfields⟩), fun hbad => absurd hfields (hbad json hbody)⟩
      have hrest := (hreturns json hbody hfields).of_path h
      cases q with
      | pure response => exact ⟨response, rfl⟩
      | throw e => exact hrest.elim
      | op i next => exact absurd rfl (hq i next)
    · obtain ⟨e, he⟩ := hthrow json hbody hfields
      rw [he] at h
      obtain ⟨-, rfl⟩ := path_throw.mp h
      refine ⟨iff_of_false (not_responded rfl) ?_, fun _ response heq => nomatch heq⟩
      rintro (hnot | ⟨json', heq, hfields'⟩)
      · cases hnot
      · obtain rfl := Option.some.inj heq
        exact hfields hfields'

theorem postRegister_ended {body : Bytes} {q : Talk Response} {t : List (Wire × Answer)}
    (h : (postRegister cfg env body).Path t q) (hq : ∀ i next, q ≠ .op i next) :
    ((∃ response, q = .pure response) ↔ (parseBody cfg body = none ∨
        ∃ json, parseBody cfg body = some json ∧
          StringFields (Request.register body).fields json)) ∧
      (Malformed cfg (.register body) body → ∀ response, q = .pure response →
        response.status = 400 ∧ t = []) := by
  refine account_ended (fun hbody => ?_) (fun json hbody hfields => ?_)
    (fun json hbody hfields => ?_) h hq
  · rw [postRegister, hbody]
    rfl
  · rw [postRegister, hbody]
    exact fields_throw hfields _
  · have hok := (stringFields_iff (by simp [Request.fields])).mp hfields
    obtain ⟨username, husername⟩ := hok "username" (by simp [Request.fields]) ""
    obtain ⟨password, hpassword⟩ := hok "password" (by simp [Request.fields]) ""
    exact postRegister_returns hbody husername hpassword

theorem postLogin_ended {body : Bytes} {q : Talk Response} {t : List (Wire × Answer)}
    (h : (postLogin cfg env body).Path t q) (hq : ∀ i next, q ≠ .op i next) :
    ((∃ response, q = .pure response) ↔ (parseBody cfg body = none ∨
        ∃ json, parseBody cfg body = some json ∧
          StringFields (Request.login body).fields json)) ∧
      (Malformed cfg (.login body) body → ∀ response, q = .pure response →
        response.status = 400 ∧ t = []) := by
  refine account_ended (fun hbody => ?_) (fun json hbody hfields => ?_)
    (fun json hbody hfields => ?_) h hq
  · rw [postLogin, hbody]
    rfl
  · rw [postLogin, hbody]
    exact fields_throw hfields _
  · have hok := (stringFields_iff (by simp [Request.fields])).mp hfields
    obtain ⟨username, husername⟩ := hok "username" (by simp [Request.fields]) ""
    obtain ⟨password, hpassword⟩ := hok "password" (by simp [Request.fields]) ""
    exact postLogin_returns hbody husername hpassword

/-! ### What a submission needs besides -/

/-- The fields are strings, and the handler refuses them, or finds no such problem, or has the
problem, a directory for the source, and a user name that can be written into the job. -/
def GoesOn (cfg : Config) (env : Surroundings) (username body : Bytes) : Prop :=
  ∃ problemId sourceCode language, Submits cfg body problemId sourceCode language ∧
    (problemId = [] ∨ sourceCode = [] ∨ isSupportedLanguage language = false ∨
      ∃ found, getProblem env.files cfg.problemsDir cfg.format problemId = .ok found ∧
        (found ≠ none → env.createDirectories = true ∧ ValidUtf8 username))

theorem goesOn_iff {username body problemId sourceCode language : Bytes}
    (h : Submits cfg body problemId sourceCode language) :
    GoesOn cfg env username body ↔
      (problemId = [] ∨ sourceCode = [] ∨ isSupportedLanguage language = false ∨
        ∃ found, getProblem env.files cfg.problemsDir cfg.format problemId = .ok found ∧
          (found ≠ none → env.createDirectories = true ∧ ValidUtf8 username)) := by
  constructor
  · rintro ⟨problemId', sourceCode', language', ⟨json', hbody', hp', hs', hl'⟩, hgoes⟩
    obtain ⟨json, hbody, hp, hs, hl⟩ := h
    obtain rfl := Option.some.inj (hbody.symm.trans hbody')
    obtain rfl := Except.ok.inj (hp.symm.trans hp')
    obtain rfl := Except.ok.inj (hs.symm.trans hs')
    obtain rfl := Except.ok.inj (hl.symm.trans hl')
    exact hgoes
  · intro hgoes
    exact ⟨problemId, sourceCode, language, h, hgoes⟩

theorem stringFields_of_submits {authorization : Option Bytes}
    {body problemId sourceCode language : Bytes}
    (h : Submits cfg body problemId sourceCode language) :
    ∃ json, parseBody cfg body = some json ∧
      StringFields (Request.submit authorization body).fields json := by
  obtain ⟨json, hbody, hproblem, hsource, hlanguage⟩ := h
  refine ⟨json, hbody, (stringFields_iff (by simp [Request.fields])).mpr fun k hk dflt => ?_⟩
  simp only [Request.fields, List.mem_cons, List.not_mem_nil, or_false] at hk
  rcases hk with rfl | rfl | rfl
  · exact valueStr_ok_iff.mpr (valueStr_ok_iff.mp ⟨_, hproblem⟩)
  · exact valueStr_ok_iff.mpr (valueStr_ok_iff.mp ⟨_, hsource⟩)
  · exact valueStr_ok_iff.mpr (valueStr_ok_iff.mp ⟨_, hlanguage⟩)

theorem acceptSubmission_throws {username body : Bytes} {json : Json}
    (hbody : parseBody cfg body = some json)
    (hno : ∀ problemId sourceCode language, ¬ Submits cfg body problemId sourceCode language) :
    ∃ e, acceptSubmission cfg env username body = .error e := by
  cases haccept : acceptSubmission cfg env username body with
  | error e => exact ⟨e, rfl⟩
  | ok r =>
    rw [acceptSubmission, hbody] at haccept
    obtain ⟨problemId, hproblem, haccept⟩ := bind_eq_ok.mp haccept
    obtain ⟨sourceCode, hsource, haccept⟩ := bind_eq_ok.mp haccept
    obtain ⟨language, hlanguage, -⟩ := bind_eq_ok.mp haccept
    exact absurd ⟨json, hbody, mapError_eq_ok.mp hproblem, mapError_eq_ok.mp hsource,
      mapError_eq_ok.mp hlanguage⟩ (hno problemId sourceCode language)

theorem utf8_job_iff {username body problemId sourceCode language : Bytes}
    (h : Submits cfg body problemId sourceCode language)
    (hlanguage : isSupportedLanguage language = true) :
    SubmissionJob.Utf8
      { submissionId := env.submissionId.text
        problemId
        sourceCode
        language := normalizeLanguage language
        username } ↔ ValidUtf8 username := by
  obtain ⟨json, hbody, hproblem, hsource, -⟩ := h
  have hjson := utf8_of_parseBody hbody
  have hnormal : ValidUtf8 (normalizeLanguage language) := by
    rcases isSupportedLanguage_iff.mp hlanguage with heq | heq | heq
    · rw [heq]; decide
    · rw [heq]; decide
    · rw [heq]; decide
  have hproblem' : ValidUtf8 problemId := utf8_valueStr hjson (by decide) hproblem
  have hsource' : ValidUtf8 sourceCode := utf8_valueStr hjson (by decide) hsource
  exact ⟨fun hall => hall.2.2.2.2,
    fun hname => ⟨env.submissionId.validUtf8, hproblem', hsource', hnormal, hname⟩⟩

theorem enqueue_ended {job : SubmissionJob} {q : Talk Response} {t : List (Wire × Answer)}
    (h : (enqueueSubmission cfg job).Path t q) (hq : ∀ i next, q ≠ .op i next) :
    (∃ response, q = .pure response) ↔ job.Utf8 := by
  rw [← @jobToJson_isOk cfg.format]
  cases hpayload : submissionJobToJson cfg.format job with
  | error e =>
    rw [enqueueSubmission, enqueueJob, hpayload] at h
    obtain ⟨-, rfl⟩ := path_throw.mp h
    exact iff_of_false (by rintro ⟨response, heq⟩; cases heq) (by simp [Except.isOk, Except.toBool])
  | ok payload =>
    obtain ⟨-, -, -, response, -, rfl, -⟩ := System.enqueueSubmission_ended hpayload h hq
    exact iff_of_true ⟨response, rfl⟩ rfl

section Accept

variable {username body : Bytes} {q : Talk Response} {t : List (Wire × Answer)}

/-- `POST /submit` past the authentication. -/
def acceptAndEnqueue (cfg : Config) (env : Surroundings) (username body : Bytes) : Talk Response :=
  Prog.ofExcept (acceptSubmission cfg env username body) >>= fun accepted =>
    match accepted with
    | .error response => Pure.pure response
    | .ok job => enqueueSubmission cfg job

theorem refused_ended {response : Response}
    (haccept : acceptSubmission cfg env username body = .ok (.error response))
    (h : (acceptAndEnqueue cfg env username body).Path t q) : t = [] ∧ q = .pure response := by
  rw [acceptAndEnqueue, haccept] at h
  exact path_pure.mp h

theorem thrown_ended {e : Exn} (haccept : acceptSubmission cfg env username body = .error e)
    (h : (acceptAndEnqueue cfg env username body).Path t q) : q = .throw e := by
  rw [acceptAndEnqueue, haccept] at h
  exact (path_throw.mp h).2

theorem acceptSubmission_none (hbody : parseBody cfg body = none) :
    acceptSubmission cfg env username body = .ok (.error (errorResponse 400 "invalid JSON")) := by
  rw [acceptSubmission, hbody]
  rfl

section Submits

variable {problemId sourceCode language : Bytes}
  (hs : Submits cfg body problemId sourceCode language)
  (h : (acceptAndEnqueue cfg env username body).Path t q) (hq : ∀ i next, q ≠ .op i next)

include hs h hq

theorem found_ended (hsupported : isSupportedLanguage language = true)
    (haccept : acceptSubmission cfg env username body =
      if env.createDirectories = false then .error .filesystemError
      else
        .ok (.ok
          { submissionId := env.submissionId.text
            problemId
            sourceCode
            language := normalizeLanguage language
            username })) :
    (∃ response, q = .pure response) ↔ env.createDirectories = true ∧ ValidUtf8 username := by
  cases hdir : env.createDirectories with
  | false =>
    rw [if_pos hdir] at haccept
    refine iff_of_false (not_responded (thrown_ended haccept h)) ?_
    rintro ⟨hmade, -⟩
    cases hmade
  | true =>
    rw [if_neg (by simp [hdir])] at haccept
    rw [acceptAndEnqueue, haccept] at h
    rw [(enqueue_ended h hq).trans (utf8_job_iff hs hsupported)]
    exact (and_iff_right rfl).symm

/-- The fields are strings; the refusals stand in the order in which the handler makes them. -/
theorem submits_ended : (∃ response, q = .pure response) ↔ GoesOn cfg env username body := by
  rw [goesOn_iff hs]
  have haccept := @acceptSubmission_of_submits cfg env username _ _ _ _ hs
  by_cases hempty : problemId = [] ∨ sourceCode = []
  · rw [if_pos hempty] at haccept
    exact iff_of_true ⟨_, (refused_ended haccept h).2⟩ (or_assoc.mp (.inl hempty))
  rw [if_neg hempty] at haccept
  by_cases hunsupported : isSupportedLanguage language = false
  · rw [if_pos hunsupported] at haccept
    exact iff_of_true ⟨_, (refused_ended haccept h).2⟩ (.inr (.inr (.inl hunsupported)))
  rw [if_neg hunsupported] at haccept
  rw [← or_assoc, or_iff_right hempty, or_iff_right hunsupported]
  cases hproblem : getProblem env.files cfg.problemsDir cfg.format problemId with
  | error e =>
    rw [hproblem] at haccept
    refine iff_of_false (not_responded (thrown_ended haccept h)) ?_
    rintro ⟨found, heq, -⟩
    cases heq
  | ok found =>
    rw [hproblem] at haccept
    cases found with
    | none =>
      exact iff_of_true ⟨_, (refused_ended haccept h).2⟩ ⟨none, rfl, fun hne => absurd rfl hne⟩
    | some problem =>
      have hsupported : isSupportedLanguage language = true := by simpa using hunsupported
      rw [found_ended hs h hq hsupported haccept]
      constructor
      · intro hgoes
        exact ⟨some problem, rfl, fun _ => hgoes⟩
      · rintro ⟨found, heq, hall⟩
        cases heq
        exact hall (by simp)

end Submits

/-- **The handler past the authentication**, when it has come to its end. -/
theorem accept_ended (h : (acceptAndEnqueue cfg env username body).Path t q)
    (hq : ∀ i next, q ≠ .op i next) :
    (∃ response, q = .pure response) ↔
      (parseBody cfg body = none ∨ GoesOn cfg env username body) := by
  cases hbody : parseBody cfg body with
  | none => exact iff_of_true ⟨_, (refused_ended (acceptSubmission_none hbody) h).2⟩ (.inl rfl)
  | some json =>
    rw [or_iff_right (by simp)]
    by_cases hsub : ∃ problemId sourceCode language, Submits cfg body problemId sourceCode language
    · obtain ⟨problemId, sourceCode, language, hs⟩ := hsub
      exact submits_ended hs h hq
    · have hno : ∀ problemId sourceCode language,
          ¬ Submits cfg body problemId sourceCode language :=
        fun problemId sourceCode language hs => hsub ⟨problemId, sourceCode, language, hs⟩
      obtain ⟨e, he⟩ := acceptSubmission_throws hbody hno
      refine iff_of_false (not_responded (thrown_ended he h)) ?_
      rintro ⟨problemId, sourceCode, language, hs, -⟩
      exact hno problemId sourceCode language hs

theorem accept_malformed {authorization : Option Bytes}
    (h : (acceptAndEnqueue cfg env username body).Path t q)
    (hbad : Malformed cfg (.submit authorization body) body) {response : Response}
    (hq : q = .pure response) : response.status = 400 ∧ t = [] := by
  cases hbody : parseBody cfg body with
  | none =>
    obtain ⟨rfl, heq⟩ := refused_ended (acceptSubmission_none hbody) h
    cases hq.symm.trans heq
    exact ⟨rfl, rfl⟩
  | some json =>
    obtain ⟨e, he⟩ := @acceptSubmission_throws cfg env username body json hbody
      fun problemId sourceCode language hs => by
        obtain ⟨json', hjson', hfields⟩ := @stringFields_of_submits cfg authorization _ _ _ _ hs
        exact hbad json' hjson' hfields
    cases hq.symm.trans (thrown_ended he h)

end Accept

/-! ### Answers -/

/-- `require_auth` has refused the request, which it does before the body is looked at. -/
def Unauthorized (request : Request) (t : List (Wire × Answer)) (response : Response) : Prop :=
  ∃ authorization, request.authorization? = some authorization ∧
    (requireAuth authorization).Path t (.pure (.error response))

/-- **The handler answers the request itself**: it ends with a response, which for a malformed
body is 400, and nothing that it has performed changes the store, whatever the network does. -/
def AnswersItself (cfg : Config) (request : Request) (body : Bytes) (t : List (Wire × Answer))
    (q : Talk Response) : Prop :=
  ∃ response, q = .pure response ∧
    (Malformed cfg request body →
      (response.status = 400 ∨ Unauthorized request t response) ∧
        ∀ x ∈ t, ∀ now store ctx net, (exchange now store ctx x.1 net).1 = store)

/-- The body is no JSON at all, or its fields are strings and, in a submission, the handler
can go on with them. -/
def Answerable (cfg : Config) (env : Surroundings) (request : Request) (body : Bytes)
    (t : List (Wire × Answer)) : Prop :=
  match request with
  | .submit authorization _ => ∀ t₁ t₂ username, t = t₁ ++ t₂ →
      (requireAuth authorization).Path t₁ (.pure (.ok username)) →
      parseBody cfg body = none ∨ GoesOn cfg env username body
  | _ => parseBody cfg body = none ∨
      ∃ json, parseBody cfg body = some json ∧ StringFields request.fields json

theorem exchange_of_reads {op : Wire} (h : op.writes = none) (now : Nat) (store : Store) (ctx : Ctx)
    (net : Net) : (exchange now store ctx op net).1 = store := by
  funext k
  refine exchange_frame ?_
  rw [h]
  exact fun hk => nomatch hk

theorem value_unique {α : Type} {p : Talk α} {t₁ t₂ u₁ u₂ : List (Wire × Answer)} {a b : α}
    (h : t₁ ++ t₂ = u₁ ++ u₂) (ha : p.Path t₁ (.pure a)) (hb : p.Path u₁ (.pure b)) :
    a = b ∧ t₂ = u₂ := by
  rcases List.append_eq_append_iff.mp h with ⟨c, rfl, rfl⟩ | ⟨c, rfl, rfl⟩
  · obtain ⟨m, hm, hrest⟩ := path_append_iff.mp hb
    rw [← path_unique ha hm] at hrest
    obtain ⟨rfl, heq⟩ := path_pure.mp hrest
    cases heq
    exact ⟨rfl, rfl⟩
  · obtain ⟨m, hm, hrest⟩ := path_append_iff.mp ha
    rw [← path_unique hb hm] at hrest
    obtain ⟨rfl, heq⟩ := path_pure.mp hrest
    cases heq
    exact ⟨rfl, rfl⟩

theorem postSubmit_answers {authorization : Option Bytes} {body : Bytes} {t : List (Wire × Answer)}
    {q : Talk Response} (h : (postSubmit cfg env authorization body).Path t q)
    (hq : ∀ i next, q ≠ .op i next) :
    AnswersItself cfg (.submit authorization body) body t q ↔
      Answerable cfg env (.submit authorization body) body t := by
  obtain ⟨t₁, t₂, r, rfl, -, h₁, h₂⟩ := (requireAuth_returns authorization).path_bind h hq
  have hreads : ∀ x ∈ t₁, ∀ now store ctx net, (exchange now store ctx x.1 net).1 = store :=
    fun x hx => exchange_of_reads (((requireAuth_reads authorization).of_path h₁).1 x hx)
  cases r with
  | error response =>
    obtain ⟨rfl, rfl⟩ := path_pure.mp h₂
    refine iff_of_true ⟨response, rfl, fun _ => ?_⟩ fun u₁ u₂ username hsplit hok => ?_
    · rw [List.append_nil]
      exact ⟨.inr ⟨authorization, rfl, h₁⟩, hreads⟩
    · exact nomatch (value_unique hsplit h₁ hok).1
  | ok username =>
    have hcondition : Answerable cfg env (.submit authorization body) body (t₁ ++ t₂) ↔
        (parseBody cfg body = none ∨ GoesOn cfg env username body) := by
      constructor
      · intro hall
        exact hall t₁ t₂ username rfl h₁
      · intro hgoes u₁ u₂ username' hsplit hok
        cases (value_unique hsplit h₁ hok).1
        exact hgoes
    rw [hcondition, ← accept_ended h₂ hq]
    constructor
    · rintro ⟨response, heq, -⟩
      exact ⟨response, heq⟩
    · rintro ⟨response, heq⟩
      refine ⟨response, heq, fun hbad => ?_⟩
      obtain ⟨hstatus, rfl⟩ := accept_malformed h₂ hbad heq
      rw [List.append_nil]
      exact ⟨.inl hstatus, hreads⟩

theorem answersItself_of_ended {request : Request} {body : Bytes} {t : List (Wire × Answer)}
    {q : Talk Response} {c : Prop} (h : ((∃ response, q = .pure response) ↔ c) ∧
      (Malformed cfg request body → ∀ response, q = .pure response →
        response.status = 400 ∧ t = [])) :
    AnswersItself cfg request body t q ↔ c := by
  rw [← h.1]
  constructor
  · rintro ⟨response, heq, -⟩
    exact ⟨response, heq⟩
  · rintro ⟨response, heq⟩
    refine ⟨response, heq, fun hbad => ?_⟩
    obtain ⟨hstatus, rfl⟩ := h.2 hbad response heq
    exact ⟨.inl hstatus, fun x hx => nomatch hx⟩

/-- **When a handler answers its request itself.**  For each of the three routes, every body and
everything that Redis may answer: exactly when the body is no JSON, or the fields that the handler
reads are strings as far as they are there and a submission can go on with them. -/
theorem answers_iff {request : Request} {body : Bytes} (hbody : request.body? = some body)
    {t : List (Wire × Answer)} {q : Talk Response} (h : (handle cfg env request).Path t q)
    (hq : ∀ i next, q ≠ .op i next) :
    AnswersItself cfg request body t q ↔ Answerable cfg env request body t := by
  cases request with
  | register b =>
    cases hbody
    exact answersItself_of_ended (postRegister_ended h hq)
  | login b =>
    cases hbody
    exact answersItself_of_ended (postLogin_ended h hq)
  | submit authorization b =>
    cases hbody
    exact postSubmit_answers h hq
  | _ => cases hbody

/-! ### Three bodies -/

theorem parseBody_print {j : Json} (hp : j.Plain) (hu : j.Utf8) :
    parseBody textConfig (JsonText.print j) = some j := by
  rw [parseBody, textConfig, parseText_print hp hu]
  rfl

/-- A body that is no JSON is refused. -/
theorem answers_iff_noJson :
    ∃ q, (handle textConfig zeroSurroundings (.login [])).Path [] q ∧
      AnswersItself textConfig (.login []) [] [] q := by
  have hbody : parseBody textConfig [] = none := rfl
  have hpath : (handle textConfig zeroSurroundings (.login [])).Path []
      (.pure (errorResponse 400 "invalid JSON")) := path_nil.mpr rfl
  exact ⟨_, hpath, (answers_iff rfl hpath fun i next heq => nomatch heq).mpr (.inl hbody)⟩

def numberBody : Bytes := JsonText.print (Json.null.set "username" (.int 1))

/-- **An array, and a number in a field**: the exception of `value` leaves the handler. -/
theorem array_escapes :
    (handle textConfig zeroSurroundings (.login "[]")).Path [] (.throw (.json (.typeError 306))) ∧
      Malformed textConfig (.login "[]") "[]" ∧
      ¬ AnswersItself textConfig (.login "[]") "[]" [] (.throw (.json (.typeError 306))) ∧
      (handle textConfig zeroSurroundings (.register numberBody)).Path []
        (.throw (.json (.typeError 302))) := by
  have harray : parseBody textConfig "[]" = some (.arr []) :=
    @parseBody_print (.arr []) (plain_arr.mpr (by simp)) (utf8_arr.mpr (by simp))
  have hnumber : parseBody textConfig numberBody = some (Json.null.set "username" (.int 1)) :=
    parseBody_print (plain_set plain_null (plain_int32 1)) (by simp +decide)
  refine ⟨path_nil.mpr ?_, fun json hjson => ?_, fun ⟨response, heq, _⟩ => ?_,
    path_nil.mpr ?_⟩
  · show postLogin textConfig zeroSurroundings "[]" = _
    rw [postLogin, harray]
    rfl
  · cases harray.symm.trans hjson
    rintro ⟨l, heq, -⟩
    cases heq
  · cases heq
  · show postRegister textConfig zeroSurroundings numberBody = _
    rw [postRegister, hnumber]
    rfl

end ApiServer

end Ocpe
