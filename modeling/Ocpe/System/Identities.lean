import Ocpe.System.Tokens

/-!
# Names and keys

A string that a client supplies becomes part of a key, and the key is cut at its first
NUL on the way to Redis.

* `addresses_iff`: the keys that the calls address.
* `addresses_disjoint_iff`: two strings are told apart when they differ before their
  first NUL, and only then.
* `identities`: in every run in which no look-up is answered with an error reply and
  the names of the logins have no NUL, whoever passes `require_auth` was registered
  under his name.

`login` does not check the name: `passes_unregistered`.
-/

namespace Ocpe

open Lib Redis Prog RedisClient AuthService

/-! ### The keys that a call addresses -/

/-- The calls that take a username, a token or a submission id. -/
inductive Lookup
  | login
  | validateToken
  | getResult
  | getStatus
  | recordSubmission
  deriving DecidableEq, Repr

/-- The program can come to send the command. -/
def Sent {α : Type} (p : Talk α) (c : Cmd) : Prop := ∃ t next, p.Path t (.op (.command c) next)

theorem Sent.issues {α : Type} {p : Talk α} {c : Cmd} {G : Wire → Prop} (h : Sent p c)
    (hp : p.Issues G) : G (.command c) := by
  obtain ⟨t, next, hpath⟩ := h
  exact (hp.of_path hpath).2.1

/-- The call addresses the key for the string.  The session that `login` writes is under
the token it has drawn. -/
def Addresses (cfg : Config) (l : Lookup) (s key : Bytes) : Prop :=
  ∃ c : Cmd, c.key = key ∧
    match l with
    | .login => c.writes = none ∧ ∃ token password, Sent (login cfg.sha256 token s password) c
    | .validateToken => Sent (validateToken s) c
    | .getResult => Sent (getResult cfg.format s) c
    | .getStatus => Sent (getStatus s) c
    | .recordSubmission => ∃ id, Sent (recordSubmission s id) c

/-- The key that the call is about. -/
def Lookup.key : Lookup → Bytes → Bytes
  | .login => userKey
  | .validateToken => tokenKey
  | .getResult => resultKey
  | .getStatus => statusKey
  | .recordSubmission => userSubsKey

def AboutKey (key : Bytes) (op : Wire) : Prop := ∀ c, op = .command c → c.key = key

theorem aboutKey_command {c : Cmd} : AboutKey c.key (.command c) := by
  intro c' h
  cases h
  rfl

theorem aboutKey_connect {key : Bytes} : AboutKey key .connect := fun _ h => nomatch h

variable {cfg : Config}

theorem login_about {sha256 : Bytes → Bytes} (token : HexString 64) (username password : Bytes) :
    (login sha256 token username password).Issues fun op =>
      op.writes = none → AboutKey (userKey username) op := by
  refine issues_bind (execCommand_issues (fun _ => aboutKey_command) fun _ => aboutKey_connect)
    fun r => ?_
  split
  · trivial
  · trivial
  · split
    · refine issues_bind (succeeds_issues (fun h => nomatch h) fun _ => aboutKey_connect)
        fun ok => ?_
      split <;> trivial
    · trivial

theorem validateToken_about (token : Bytes) :
    (validateToken token).Issues (AboutKey (tokenKey token)) := by
  unfold validateToken
  split
  · trivial
  · refine issues_bind (execCommand_issues aboutKey_command aboutKey_connect) fun r => ?_
    split <;> trivial

theorem getResult_about (id : Bytes) :
    (getResult cfg.format id).Issues (AboutKey (resultKey id)) := by
  refine issues_bind (execCommand_issues aboutKey_command aboutKey_connect) fun r => ?_
  split
  · trivial
  · trivial
  · exact issues_bind (json_issues _) fun _ => trivial

theorem getStatus_about (id : Bytes) : (getStatus id).Issues (AboutKey (statusKey id)) := by
  refine issues_bind (execCommand_issues aboutKey_command aboutKey_connect) fun r => ?_
  split <;> trivial

theorem recordSubmission_about (username id : Bytes) :
    (recordSubmission username id).Issues (AboutKey (userSubsKey username)) := by
  refine issues_bind (execCommand_issues aboutKey_command aboutKey_connect) fun r => ?_
  split
  · trivial
  · exact issues_bind (succeeds_issues aboutKey_command aboutKey_connect) fun _ => trivial

/-- **What a call addresses** is the key of its string; `validate_token` asks for
nothing when there is no token. -/
theorem addresses_iff {l : Lookup} {s key : Bytes} :
    Addresses cfg l s key ↔ key = l.key s ∧ (l = .validateToken → s ≠ []) := by
  constructor
  · rintro ⟨c, rfl, h⟩
    cases l with
    | login =>
      obtain ⟨hreads, token, password, hsent⟩ := h
      refine ⟨hsent.issues (login_about token s password) hreads c rfl, ?_⟩
      intro h
      cases h
    | validateToken =>
      refine ⟨Sent.issues h (validateToken_about s) c rfl, fun _ hs => ?_⟩
      obtain ⟨t, next, hpath⟩ := h
      rw [validateToken, if_pos hs] at hpath
      cases (path_pure.mp hpath).2
    | getResult =>
      refine ⟨Sent.issues h (getResult_about s) c rfl, ?_⟩
      intro h
      cases h
    | getStatus =>
      refine ⟨Sent.issues h (getStatus_about s) c rfl, ?_⟩
      intro h
      cases h
    | recordSubmission =>
      obtain ⟨id, hsent⟩ := h
      refine ⟨hsent.issues (recordSubmission_about s id) c rfl, ?_⟩
      intro h
      cases h
  · rintro ⟨rfl, hs⟩
    cases l with
    | login =>
      exact ⟨.get (userKey s), rfl, rfl, zeros 64, [], [], _, path_nil.mpr rfl⟩
    | validateToken =>
      refine ⟨.get (tokenKey s), rfl, [], ?_⟩
      rw [validateToken, if_neg (hs rfl)]
      exact ⟨_, path_nil.mpr rfl⟩
    | getResult => exact ⟨.get (resultKey s), rfl, [], _, path_nil.mpr rfl⟩
    | getStatus => exact ⟨.get (statusKey s), rfl, [], _, path_nil.mpr rfl⟩
    | recordSubmission => exact ⟨.lpush (userSubsKey s) [], rfl, [], [], _, path_nil.mpr rfl⟩

theorem Lookup.key_inj {l : Lookup} {s t : Bytes} : l.key s = l.key t ↔ cstr s = cstr t := by
  cases l with
  | login => exact userKey_inj
  | validateToken => exact tokenKey_inj
  | getResult => exact resultKey_inj
  | getStatus => exact statusKey_inj
  | recordSubmission => exact userSubsKey_inj

theorem addresses_disjoint_iff {l : Lookup} {s t : Bytes}
    (hs : l = .validateToken → s ≠ [] ∧ t ≠ []) :
    (∀ key key', Addresses cfg l s key → Addresses cfg l t key' → key ≠ key') ↔
      cstr s ≠ cstr t := by
  simp only [addresses_iff]
  constructor
  · intro h heq
    apply h (l.key s) (l.key t) ⟨rfl, fun hl => (hs hl).1⟩ ⟨rfl, fun hl => (hs hl).2⟩
    exact Lookup.key_inj.mpr heq
  · rintro hne key key' ⟨rfl, -⟩ ⟨rfl, -⟩ heq
    exact hne (Lookup.key_inj.mp heq)

end Ocpe

namespace Ocpe.System

open Lib Redis Prog RedisClient AuthService

variable {cfg : Config} {s s' : Sys cfg}

/-! ### Who is registered -/

/-- `register_user` has accepted the name: it has passed the checks, and Redis has
executed the write of the user. -/
def Accepted (s : Sys cfg) (username : Bytes) : Prop :=
  ∃ r h body password now reply answer, s.requests r = some h ∧ h.request = .register body ∧
    Credentials cfg body username password ∧ checkRegistration username password = none ∧
    .wire (.handler r) now
      (.command (.set (userKey username) (credential cfg.sha256 h.env.salt password) none))
      (some reply) answer ∈ s.log

theorem Accepted.nulFree {username : Bytes} (h : Accepted s username) : NulFree username := by
  obtain ⟨r, h, body, password, now, reply, answer, -, -, -, hcheck, -⟩ := h
  exact (checkRegistration_eq_none.mp hcheck).1.nulFree

/-- **What the key of a user holds was written by a registration.** -/
theorem users_accepted {as : List Action} (hrun : Reaches cfg as s) {username : Bytes}
    {entry : Entry} (hstore : s.store (userKey username) = some entry) :
    Accepted s (cstr username) := by
  obtain ⟨r, h, h', x, reply, answer, next, rfl, hr', hcont, hpath, hmem⟩ :=
    account_writer hrun (.inl (take_userKey username)) hstore
  obtain ⟨body, name, password, hbody, hrequest, hcheck, heq, -⟩ := at_setUser hpath rfl
  have hnul : NulFree name := (checkRegistration_eq_none.mp hcheck).1.nulFree
  injection heq with heq
  obtain ⟨hkey, hvalue, hex⟩ := Cmd.set.inj heq
  have hname : name = cstr username := by
    have hcstr := userKey_inj.mp hkey
    rw [cstr_eq_self hnul] at hcstr
    exact hcstr.symm
  subst hname
  refine ⟨r, h', body, password, x.now, reply, answer, hr', hcont.request.trans hrequest, hbody,
    hcheck, ?_⟩
  rw [← hkey, hcont.env, ← hvalue, ← hex]
  exact hmem

theorem Accepted.mono {username : Bytes} (h : Accepted s username) (hgrows : Grows s s') :
    Accepted s' username := by
  obtain ⟨r, k, body, password, now, reply, answer, hr, hrequest, hbody, hcheck, hmem⟩ := h
  obtain ⟨k', hr', hcont⟩ := hgrows.requests r k hr
  refine ⟨r, k', body, password, now, reply, answer, hr', hcont.request.trans hrequest, hbody,
    hcheck, ?_⟩
  rw [hcont.env]
  exact hgrows.log.subset hmem

def LookupsPlain (s : Sys cfg) : Prop :=
  ∀ r h key msg, s.requests r = some h →
    (.command (.get key), .reply (.error msg)) ∉ h.task.trace

/-- **Whoever was issued a token** is registered, under his name up to its first NUL. -/
theorem accepted_of_issued {as : List Action} (hrun : Reaches cfg as s) (hplain : LookupsPlain s)
    {token username : Bytes} (h : Issued s token username) : Accepted s (cstr username) := by
  obtain ⟨r, k, now, reply, answer, hr, -, ⟨body, password, reply', -, -, hmem, hfits⟩, -⟩ := h
  have hnil : reply' ≠ .nil := by
    rintro rfl
    revert hfits
    simp [replyStr, passwordFits]
  obtain ⟨as₁, as₂, m, text, -, hm, hrest, -, -, hlive⟩ :=
    looked_up hrun hr hmem hnil fun msg he => hplain r k _ msg hr (he ▸ hmem)
  obtain ⟨entry, hentry, -⟩ := Option.bind_eq_some_iff.mp hlive
  exact (users_accepted hm hentry).mono (grows_run hrest)

def NamesNulFree (s : Sys cfg) : Prop :=
  ∀ r h body username password, s.requests r = some h → h.request = .login body →
    Credentials cfg body username password → NulFree username

theorem nulFree_of_issued (hnames : NamesNulFree s) {token username : Bytes}
    (h : Issued s token username) : NulFree username := by
  obtain ⟨r, k, now, reply, answer, hr, -, ⟨body, password, reply', hbody, hrequest, -, -⟩, -⟩ := h
  rcases hrequest with hlogin | ⟨-, hcheck⟩
  · exact hnames r k body username password hr hlogin hbody
  · exact (checkRegistration_eq_none.mp hcheck).1.nulFree

/-- **Names and keys.**  A call tells two strings apart exactly when they differ before
their first NUL; and in every run in which no look-up is answered with an error reply
and the logins are of names without NUL, `register_user` has accepted the name of
whoever passes `require_auth`. -/
theorem identities {as : List Action} (hrun : Reaches cfg as s) :
    (∀ l s t, (l = .validateToken → s ≠ [] ∧ t ≠ []) →
      ((∀ key key', Addresses cfg l s key → Addresses cfg l t key' → key ≠ key') ↔
        cstr s ≠ cstr t)) ∧
    (LookupsPlain s → NamesNulFree s → ∀ r h authorization u, s.requests r = some h →
      Passes h authorization u → Accepted s u) := by
  refine ⟨fun l s t hs => addresses_disjoint_iff hs, ?_⟩
  intro hplain hnames r h authorization u hr hpasses
  obtain ⟨header, as₁, as₂, m, -, -, hm, hrest, -, -, hissued⟩ :=
    issued_of_passes hrun hr (fun key msg hmem => absurd hmem (hplain r h key msg hr)) hpasses
  have hgrows := grows_run hrest
  have hissued' : Issued s (cstr (extractBearerToken header)) u := hissued.mono hgrows
  have haccepted := accepted_of_issued hrun hplain hissued'
  rw [cstr_eq_self (nulFree_of_issued hnames hissued')] at haccepted
  exact haccepted

/-! ### Ann, and a name that begins like hers -/

theorem lookupsPlain_of_log {as : List Action} (hrun : Reaches cfg as s)
    (h : s.log.all Event.plain = true) : LookupsPlain s := by
  intro r k key msg hr hmem
  obtain ⟨now, executed, he⟩ := (mem_trace_iff hrun hr).mp hmem
  exact absurd (List.all_eq_true.mp h _ he) (by simp [Event.plain])

theorem identities_ann :
    ∃ s : Sys textConfig, Reaches textConfig whoAmI s ∧ Accepted s "ann" := by
  obtain ⟨s, h₀, h, hrun, hrequests, hrequest₀, hrequest, -, hpasses, hlog⟩ := whoAmI_run
  refine ⟨s, hrun, (identities hrun).2 (lookupsPlain_of_log hrun hlog) ?_ 1 h _ "ann" ?_ hpasses⟩
  · -- nobody logs in
    intro r k body username password hr hlogin
    rw [hrequests] at hr
    by_cases h1 : r = 1
    · subst h1
      rw [Function.update_self, Option.some.injEq] at hr
      subst hr
      rw [hrequest] at hlogin
      cases hlogin
    · rw [Function.update_of_ne h1] at hr
      by_cases h0 : r = 0
      · subst h0
        rw [Function.update_self, Option.some.injEq] at hr
        subst hr
        rw [hrequest₀] at hlogin
        cases hlogin
      · rw [Function.update_of_ne h0] at hr
        cases hr
  · rw [hrequests, Function.update_self]

/-- The name `ann`, a NUL, and more. -/
def nulName : Bytes := bytes "ann" ++ [0] ++ bytes "x"

def nulJson : Json :=
  Json.null |>.set "username" (.str nulName) |>.set "password" (.str "secret")

def nulSurroundings : Surroundings :=
  { zeroSurroundings with token := .replicate 64 49 one_isHex }

def nulHeader : Bytes := bytes "Bearer " ++ nulSurroundings.token.text

def loginScript (env : Surroundings) (username : Bytes) : Script :=
  .served [.get (userKey username), .set (tokenKey env.token.text) username (some tokenTtlSec)]

/-- Ann signs up; someone logs in with her password under the longer name, and asks who
he is. -/
def nulActions : List Action :=
  signUpActions ++
    (.request 1 0 (.login (JsonText.print nulJson)) nulSurroundings ::
      (loginScript nulSurroundings nulName).map fun x => .perform (.handler 1) x.2) ++
    [.request 2 0 (.me (some nulHeader)) zeroSurroundings, .perform (.handler 2) .served]

theorem postLogin_path {env : Surroundings} {body username password stored : Bytes}
    (hbody : Credentials cfg body username password)
    (hfits : passwordFits cfg.sha256 stored password = true) (hutf8 : ValidUtf8 username) :
    ∃ response, response.status = 200 ∧
      (ApiServer.handle cfg env (.login body)).Path
        [(.command (.get (userKey username)), .reply (.str stored)),
          (.command (.set (tokenKey env.token.text) username (some tokenTtlSec)),
            .reply (.status "OK"))]
        (.pure response) := by
  obtain ⟨json, hparsed, hname, hpassword⟩ := hbody
  obtain ⟨b, hb⟩ := cfg.format.exists_dumpText (ApiServer.utf8_sessionJson env hutf8)
  refine ⟨⟨200, b⟩, rfl, ?_⟩
  show (ApiServer.postLogin cfg env body).Path _ _
  simp only [ApiServer.postLogin, hparsed, hname, hpassword, Talk.json, Except.mapError,
    ofExcept_ok_bind]
  refine Path.bind (u := []) (login_path hfits) (path_nil.mpr ?_)
  simp only [ApiServer.respond, Talk.json, hb]
  rfl

theorem nulName_credentials :
    Credentials textConfig (JsonText.print nulJson) nulName "secret" := by
  have hplain : nulJson.Plain := plain_set (plain_set plain_null plain_str) plain_str
  have hutf8 : nulJson.Utf8 := by
    simp +decide [nulJson, utf8_objSet_iff]
  refine ⟨nulJson, ?_, rfl, rfl⟩
  rw [ApiServer.parseBody, textConfig, parseText_print hplain hutf8]
  rfl

/-- **A name that nobody has registered passes**: `ann` and the name that goes on after
a NUL are under one key, and the session of the login carries the longer name. -/
theorem passes_unregistered :
    (∃ key, Addresses textConfig .login "ann" key ∧ Addresses textConfig .login nulName key) ∧
    ∃ (s : Sys textConfig) (h : Handling textConfig), Reaches textConfig nulActions s ∧
      LookupsPlain s ∧ s.requests 2 = some h ∧ h.request = .me (some nulHeader) ∧
      Passes h (some nulHeader) nulName ∧ Accepted s "ann" ∧ ¬ Accepted s nulName := by
  refine ⟨⟨userKey "ann", addresses_iff.mpr ⟨rfl, fun h => nomatch h⟩,
    addresses_iff.mpr ⟨rfl, fun h => nomatch h⟩⟩, ?_⟩
  obtain ⟨h₀, -, -, hsigned⟩ := ann_signsUp
  -- the login
  let begun₁ : Handling textConfig :=
    .begin textConfig 0 (.login (JsonText.print nulJson)) nulSurroundings
  let s₁ : Sys textConfig :=
    { signedUp textConfig annSurroundings "ann" "secret" h₀ with
      requests := Function.update (Function.update (fun _ => none) 0 (some h₀)) 1 (some begun₁) }
  have hr₁ : s₁.requests 1 = some begun₁ := by simp [s₁]
  obtain ⟨response₁, -, hpath₁⟩ := @postLogin_path textConfig nulSurroundings _ _ _
    (credential textConfig.sha256 annSurroundings.salt "secret") nulName_credentials
    (passwordFits_credential ..) (by decide)
  obtain ⟨h₁, -, -, -, -, hrun₁⟩ :=
    @handler_alone _ s₁ 1 begun₁ (loginScript nulSurroundings nulName) _ hr₁ hpath₁
  -- and the question, with the token of that session
  let begun₂ : Handling textConfig := .begin textConfig 0 (.me (some nulHeader)) zeroSurroundings
  let s₂ : Sys textConfig :=
    { s₁ with
      store := ((loginScript nulSurroundings nulName).ending 0 s₁.store .good).1
      ctx := Function.update s₁.ctx (.api 0) .good
      requests := Function.update (Function.update s₁.requests 1 (some h₁)) 2 (some begun₂)
      log := s₁.log ++ (loginScript nulSurroundings nulName).log (.handler 1) 0 s₁.store .good }
  have hr₂ : s₂.requests 2 = some begun₂ := by simp [s₂]
  obtain ⟨response₂, -, hauth, hpath₂⟩ :=
    @me_path textConfig zeroSurroundings nulSurroundings.token.text nulName (by decide) _
      (.inl rfl) (by decide)
  obtain ⟨h, -, hrequest, -, -, hrun₂⟩ :=
    @handler_alone _ s₂ 2 begun₂
      [(.command (.get (tokenKey nulSurroundings.token.text)), .served)] _ hr₂ hpath₂
  obtain ⟨s, hrun, hr, htrace, hplain⟩ : ∃ s : Sys textConfig, Reaches textConfig nulActions s ∧
      s.requests 2 = some h ∧ ownTrace (.handler 2) s.log =
        [(.command (.get (tokenKey nulSurroundings.token.text)), .reply (.str nulName))] ∧
      s.log.all Event.plain = true :=
    ⟨_, run_append_iff.mpr ⟨_, run_append_iff.mpr ⟨_, hsigned,
      run_cons_iff.mpr ⟨s₁, rfl, hrun₁⟩⟩, run_cons_iff.mpr ⟨s₂, rfl, hrun₂⟩⟩, by simp, rfl, rfl⟩
  have hown : h.task.trace =
      [(.command (.get (tokenKey nulSurroundings.token.text)), .reply (.str nulName))] := by
    have hown := handler_trace hrun 2
    rw [Sys.trace, hr, htrace] at hown
    exact hown
  have hpasses : Passes h (some nulHeader) nulName := ⟨_, [], hown, hauth⟩
  have hlookups := lookupsPlain_of_log hrun hplain
  refine ⟨s, h, hrun, hlookups, hr, hrequest, hpasses, ?_, fun haccepted => ?_⟩
  · obtain ⟨header, as₁, as₂, m, -, -, -, hrest, -, -, hissued⟩ :=
      issued_of_passes hrun hr (fun key msg hmem => absurd hmem (hlookups 2 h key msg hr)) hpasses
    exact accepted_of_issued hrun hlookups (hissued.mono (grows_run hrest))
  · exact absurd haccepted.nulFree (by decide)

end Ocpe.System
