import Ocpe.System.Tokens

/-!
# Registrations of one name

`register_user` looks a name up and then writes it, in two commands.  In every run of the
system, with any number of registrations and whatever becomes of their commands:

* `LookedUp`: a registration that is about to write has not been overtaken.  Since its
  look-up, or ever if that was not answered, no other one has written the name.
* `only_own`: then nobody else has written the name at all.
* `registered_once`: in a run in which no registration is overtaken at its write, at most
  one returns true for a name, and what is stored for a name stays.

Two registrations that both look up first both return true: `registered_twice`.
-/

namespace Ocpe

open Lib Redis Prog RedisClient AuthService

section Call

variable {sha256 : Bytes → Bytes} {username password : Bytes} {t : List (Wire × Answer)}

theorem createUser_path_ok {salt : HexString 32}
    (h : (createUser sha256 salt username password).Path t (.pure (.ok ()))) :
    ∃ r, notError r = true ∧
      (.command (.set (userKey username) (credential sha256 salt password) none), .reply r) ∈ t := by
  obtain ⟨t₁, t₂, ok, rfl, h₁, h₂⟩ := path_bind_pure_iff.mp h
  split at h₂
  · next hok =>
    obtain ⟨r, hr, hmem⟩ := (succeeds_path_iff h₁).mp hok
    exact ⟨r, hr, List.mem_append_left _ hmem⟩
  · cases (path_pure.mp h₂).2

/-- **A registration that returns true** has passed the checks, and its `SET` was replied
to. -/
theorem registerUser_path_ok {salt : HexString 32}
    (h : (registerUser sha256 salt username password).Path t (.pure (.ok ()))) :
    checkRegistration username password = none ∧ ∃ r, notError r = true ∧
      (.command (.set (userKey username) (credential sha256 salt password) none), .reply r) ∈ t := by
  refine ⟨checkRegistration_of_path h, ?_⟩
  unfold registerUser at h
  split at h
  · cases (path_pure.mp h).2
  · obtain ⟨t₁, t₂, r, rfl, h₁, h₂⟩ := path_bind_pure_iff.mp h
    split at h₂
    · obtain ⟨r, hr, hmem⟩ := createUser_path_ok h₂
      exact ⟨r, hr, List.mem_append_right _ hmem⟩
    · obtain ⟨r, hr, hmem⟩ := createUser_path_ok h₂
      exact ⟨r, hr, List.mem_append_right _ hmem⟩
    · cases (path_pure.mp h₂).2

end Call

variable {cfg : Config}

theorem Credentials.unique {body username password username' password' : Bytes}
    (h : Credentials cfg body username password) (h' : Credentials cfg body username' password') :
    username = username' ∧ password = password' := by
  obtain ⟨json, hjson, hname, hpassword⟩ := h.parsed
  obtain ⟨json', hjson', hname', hpassword'⟩ := h'.parsed
  cases hjson.symm.trans hjson'
  exact ⟨Except.ok.inj (hname.symm.trans hname'), Except.ok.inj (hpassword.symm.trans hpassword')⟩

end Ocpe

namespace Ocpe.System

open Lib Redis Prog RedisClient AuthService

variable {cfg : Config} {s s' : Sys cfg}

/-! ### Not overtaken -/

/-- Nobody but the handler `r` has written the key in this part of the log. -/
def OnlyOwn (r : Nat) (key : Bytes) (log : List Event) : Prop :=
  ∀ who now value exSec reply answer,
    .wire who now (.command (.set key value exSec)) (some reply) answer ∈ log → who = .handler r

/-- The look-up of the key by the handler `r`, which finds nothing. -/
def Event.FindsNothing (r : Nat) (key : Bytes) : Event → Prop
  | .wire who _ sent _ answer =>
    who = .handler r ∧ sent = .command (.get key) ∧ answer = .reply .nil
  | _ => False

/-- **The handler has not been overtaken**: since its look-up of the key, or ever if that
was not answered, nobody else has written it. -/
def LookedUp (s : Sys cfg) (r : Nat) (key : Bytes) : Prop :=
  OnlyOwn r key s.log ∨
    ∃ seen e since, s.log = seen ++ e :: since ∧ e.FindsNothing r key ∧ OnlyOwn r key since

/-- A condition on the steps: a registration that is about to write a name has not been
overtaken. -/
def NotOvertaken (s : Sys cfg) : Action → Prop
  | .perform (.handler r) _ => ∀ op username, s.op? (.handler r) = some op →
      op.writes = some (userKey username) → LookedUp s r (userKey username)
  | _ => True

theorem accountKey_userKey (username : Bytes) : AccountKey (userKey username) :=
  .inl (take_userKey username)

theorem registration_at {r : Nat} {op : Wire} {username : Bytes}
    (hop : s.op? (.handler r) = some op) (hwrites : op.writes = some (userKey username)) :
    ∃ h body username' password, s.requests r = some h ∧ h.request = .register body ∧
      Credentials cfg body username' password ∧ userKey username' = userKey username ∧
      op = .command (.set (userKey username) (credential cfg.sha256 h.env.salt password) none) := by
  obtain ⟨h, next, hr, hpath⟩ := handler_at hop
  obtain ⟨body, username', password, hbody, hrequest, -, rfl, -⟩ := at_setUser hpath hwrites
  have hkey : userKey username' = userKey username := Option.some.inj hwrites
  exact ⟨h, body, username', password, hr, hrequest, hbody, hkey, by rw [hkey]⟩

/-- **What is stored for a user has no expiry**, and a handler has written it. -/
theorem user_entry {as : List Action} (hrun : Reaches cfg as s) {username : Bytes} {entry : Entry}
    (hstore : s.store (userKey username) = some entry) :
    ∃ r h body username' password now reply answer, s.requests r = some h ∧
      h.request = .register body ∧ Credentials cfg body username' password ∧
      entry = ⟨.str (credential cfg.sha256 h.env.salt password), none⟩ ∧
      .wire (.handler r) now (.command (.set (userKey username)
        (credential cfg.sha256 h.env.salt password) none)) (some reply) answer ∈ s.log := by
  obtain ⟨r, h, h', x, reply, answer, next, rfl, hr', hcont, hpath, hmem⟩ :=
    account_writer hrun (accountKey_userKey username) hstore
  obtain ⟨body, username', password, hbody, hrequest, -, heq, -⟩ := at_setUser hpath rfl
  injection heq with heq
  obtain ⟨hkey, hvalue, hex⟩ := Cmd.set.inj heq
  refine ⟨r, h', body, username', password, x.now, reply, answer, hr', ?_, hbody, ?_, ?_⟩
  · rw [hcont.request]
    exact hrequest
  · rw [SetEvent.entry, hvalue, hex, hcont.env]
    rfl
  · rw [hcont.env, ← hvalue, ← hex]
    exact hmem

/-- **A name that a registration finds free** has not been written. -/
theorem free_of_findsNothing {as : List Action} (hrun : Reaches cfg as s) {r : Nat}
    {username : Bytes} {seen since : List Event} {e : Event} (hlog : s.log = seen ++ e :: since)
    (he : e.FindsNothing r (userKey username)) : OnlyOwn r (userKey username) seen := by
  cases e with
  | wire who now op executed answer =>
    obtain ⟨rfl, rfl, rfl⟩ := he
    obtain ⟨as₁, net, as₂, m, -, hm, hpre, -, hevent, -⟩ := at_event hrun hlog
    have hanswer : m.answer (.handler r) (.command (.get (userKey username))) net = .reply .nil := by
      injection hevent
    have hnil := (perform_store_of_executed (executed_of_reply hanswer rfl)).2
    intro who now' value exSec reply answer hmem
    exfalso
    rw [← hpre] at hmem
    obtain ⟨-, -, -, x, -, -, -, hheld⟩ := held_of_mem (accountKey_userKey username).setOnly hm hmem
      (Event.set?_eq_some.mpr ⟨who, reply, answer, rfl⟩ :
        Event.set? _ _ = some (⟨now', value, exSec⟩ : SetEvent))
    obtain ⟨_, _, _, _, _, _, _, _, -, -, -, hentry, -⟩ := user_entry hm hheld
    rw [hentry] at hheld
    rw [exec_get, Store.live_forever hheld] at hnil
    cases hnil
  | _ => exact he.elim

/-- **Not overtaken, nobody else has written the name.** -/
theorem only_own {as : List Action} (hrun : Reaches cfg as s) {r : Nat} {username : Bytes}
    (h : LookedUp s r (userKey username)) : OnlyOwn r (userKey username) s.log := by
  rcases h with h | ⟨seen, e, since, hlog, he, hsince⟩
  · exact h
  · have hseen := free_of_findsNothing hrun hlog he
    intro who now value exSec reply answer hmem
    rw [hlog, List.mem_append, List.mem_cons] at hmem
    rcases hmem with hmem | rfl | hmem
    · exact hseen who now value exSec reply answer hmem
    · -- the look-up is no write
      obtain ⟨-, hop, -⟩ := he
      cases hop
    · exact hsince who now value exSec reply answer hmem

/-! ### One registration of a name -/

def Registered (h : Handling cfg) (username : Bytes) : Prop :=
  ∃ body password t₁ t₂, h.request = .register body ∧ Credentials cfg body username password ∧
    h.task.trace = t₁ ++ t₂ ∧
    (registerUser cfg.sha256 h.env.salt username password).Path t₁ (.pure (.ok ()))

theorem written_of_registered {as : List Action} (hrun : Reaches cfg as s) {r : Nat}
    {h : Handling cfg} (hr : s.requests r = some h) {username : Bytes}
    (hregistered : Registered h username) :
    ∃ now value reply answer, .wire (.handler r) now (.command (.set (userKey username) value none))
      (some reply) answer ∈ s.log := by
  obtain ⟨body, password, t₁, t₂, -, -, htrace, hpath⟩ := hregistered
  obtain ⟨-, reply, hok, hmem⟩ := registerUser_path_ok hpath
  obtain ⟨now, executed, he⟩ := (mem_trace_iff hrun hr).mp (by
    rw [htrace]
    exact List.mem_append_left _ hmem)
  obtain rfl := executed_of_told hrun he hok
  exact ⟨now, _, reply, _, he⟩

/-- **A step of a registration that has not been overtaken** leaves what is stored for a
name as it is. -/
theorem user_stays {as : List Action} (hrun : Reaches cfg as s) {a : Action}
    (hstep : step cfg s a = some s') (hmeets : NotOvertaken s a) {username : Bytes} {entry : Entry}
    (hstore : s.store (userKey username) = some entry) :
    s'.store (userKey username) = some entry := by
  rcases step_cases hstep with ⟨who, net, op, rfl, hop, rfl⟩ | hquiet
  · by_cases hwrites : op.writes = some (userKey username)
    · obtain ⟨r, rfl⟩ := writer_is_handler (accountKey_userKey username) hop hwrites
      obtain ⟨h, body, username', password, hr, hrequest, hbody, hkey, rfl⟩ :=
        registration_at hop hwrites
      -- what is stored was written by this same registration
      have hown := only_own hrun (hmeets _ username hop hwrites)
      obtain ⟨r₀, h₀, body₀, username₀, password₀, now, reply, answer, hr₀, hrequest₀, hbody₀,
        rfl, hmem⟩ := user_entry hrun hstore
      have hsame := hown _ _ _ _ _ _ hmem
      cases hsame
      obtain rfl : h₀ = h := Option.some.inj (hr₀.symm.trans hr)
      rw [hrequest₀] at hrequest
      cases hrequest
      obtain ⟨-, rfl⟩ := hbody₀.unique hbody
      cases hreply : s.serverReply (.handler r) (.command (.set (userKey username)
          (credential cfg.sha256 h₀.env.salt password₀) none)) net with
      | none => rw [perform_store_of_not_executed hreply, hstore]
      | some reply =>
        rw [(perform_store_of_executed hreply).1, exec_set]
        exact Store.put_self _ _ _
    · rw [← hstore]
      exact exchange_frame hwrites
  · rw [hquiet.store, hstore]

theorem user_stays_run {as as' : List Action} (hrun : Reaches cfg as s)
    (h : Lib.run (step cfg) s as' = some s') (hmeets : AllSteps (step cfg) NotOvertaken s as')
    {username : Bytes} {entry : Entry} (hstore : s.store (userKey username) = some entry) :
    s'.store (userKey username) = some entry := by
  refine (run_invariant_steps (fun m : Sys cfg => (∃ as, Reaches cfg as m) ∧
    m.store (userKey username) = some entry) h hmeets ⟨⟨as, hrun⟩, hstore⟩ ?_).2
  rintro m a m' ⟨⟨bs, hm⟩, hstore⟩ ha hstep
  exact ⟨⟨bs ++ [a], run_concat_iff.mpr ⟨m, hm, hstep⟩⟩, user_stays hm hstep ha hstore⟩

/-- **Of two registrations that have written a name** the later one was overtaken. -/
theorem same_writer {as : List Action} (hrun : Reaches cfg as s)
    (hmeets : AllSteps (step cfg) NotOvertaken {} as) {username : Bytes} {pre post : List Event}
    {r : Nat} {now : Nat} {value : Bytes} {reply : Reply} {answer : Answer}
    (hlog : s.log = pre ++ .wire (.handler r) now (.command (.set (userKey username) value none))
      (some reply) answer :: post) : OnlyOwn r (userKey username) pre := by
  obtain ⟨as₁, net, as₂, m, rfl, hm, rfl, hop, -, -⟩ := at_event hrun hlog
  have hat := (hmeets.of_append hm).1
  exact only_own hm (hat _ username hop rfl)

/-- **One registration of a name**, in every run in which no registration is overtaken at
its write: at most one returns true, and what is stored for a name stays. -/
theorem registered_once {as : List Action} (hrun : Reaches cfg as s)
    (hmeets : AllSteps (step cfg) NotOvertaken {} as) (username : Bytes) :
    (∀ r r' h h', s.requests r = some h → s.requests r' = some h' → Registered h username →
      Registered h' username → r = r') ∧
    ∀ as₁ as₂ m entry, as = as₁ ++ as₂ → Reaches cfg as₁ m →
      m.store (userKey username) = some entry → s.store (userKey username) = some entry := by
  constructor
  · intro r r' h h' hr hr' hregistered hregistered'
    obtain ⟨now, value, reply, answer, hmem⟩ := written_of_registered hrun hr hregistered
    obtain ⟨now', value', reply', answer', hmem'⟩ := written_of_registered hrun hr' hregistered'
    obtain ⟨pre, post, hlog⟩ := List.append_of_mem hmem
    rw [hlog, List.mem_append, List.mem_cons] at hmem'
    rcases hmem' with hmem' | heq | hmem'
    · have hown := same_writer hrun hmeets hlog _ _ _ _ _ _ hmem'
      cases hown
      rfl
    · cases heq
      rfl
    · -- the other way round
      obtain ⟨mid, post', rfl⟩ := List.append_of_mem hmem'
      have hlog' : s.log = (pre ++ .wire (.handler r) now (.command (.set (userKey username) value
          none)) (some reply) answer :: mid) ++ .wire (.handler r') now' (.command (.set
          (userKey username) value' none)) (some reply') answer' :: post' := by
        rw [hlog, List.append_assoc, List.cons_append]
      have hown := same_writer hrun hmeets hlog' (.handler r) now value none reply answer (by simp)
      cases hown
      rfl
  · rintro as₁ as₂ m entry rfl hm hstore
    obtain ⟨m', hm', hrest⟩ := run_append_iff.mp hrun
    obtain rfl : m' = m := Option.some.inj (hm'.symm.trans hm)
    exact user_stays_run hm hrest (hmeets.of_append hm) hstore

/-! ### Two registrations at once -/

def otherSurroundings : Surroundings :=
  { zeroSurroundings with salt := .replicate 32 49 one_isHex }

def registerAnn : Request := .register (JsonText.print registerJson)

/-- Two registrations of Ann both look her up before either writes her. -/
def bothRegister : List Action :=
  [.request 0 0 registerAnn annSurroundings, .request 1 0 registerAnn otherSurroundings,
    .perform (.handler 0) .served, .perform (.handler 1) .served, .perform (.handler 0) .served]

theorem credentials_ann : Credentials textConfig (JsonText.print registerJson) "ann" "secret" :=
  ⟨registerJson, rfl, rfl, rfl⟩

theorem registered_ann {h : Handling textConfig} {rest : List (Wire × Answer)}
    (hrequest : h.request = registerAnn)
    (htrace : h.task.trace = (.command (.get (userKey "ann")), .reply .nil) ::
      (.command (.set (userKey "ann") (credential textConfig.sha256 h.env.salt "secret") none),
        .reply (.status "OK")) :: rest) : Registered h "ann" :=
  ⟨_, _, [_, _], rest, hrequest, credentials_ann, htrace, registerUser_path (by decide)⟩

/-- **Two registrations of one name both return true**, and the second changes the
password that the first has stored. -/
theorem registered_twice :
    ∃ (s s' : Sys textConfig) (h h' : Handling textConfig) (entry : Entry),
      Reaches textConfig bothRegister s ∧
      step textConfig s (.perform (.handler 1) .served) = some s' ∧
      s'.requests 0 = some h ∧ s'.requests 1 = some h' ∧ Registered h "ann" ∧ Registered h' "ann" ∧
      s.store (userKey "ann") = some entry ∧ s'.store (userKey "ann") ≠ some entry := by
  refine ⟨_, _, _, _, _, rfl, rfl, rfl, rfl, registered_ann rfl rfl, registered_ann rfl rfl, rfl, ?_⟩
  intro h
  injection h with h
  injection h with h
  injection h with h
  revert h
  decide

def Event.ofZero : Event → Bool
  | .wire who _ _ _ _ => who = .handler 0
  | _ => true

theorem notOvertaken_ofZero {s : Sys cfg} {net : Net} (h : s.log.all Event.ofZero = true) :
    NotOvertaken s (.perform (.handler 0) net) := by
  intro op username _ _
  refine .inl fun who now value exSec reply answer hmem => ?_
  have hzero := List.all_eq_true.mp h _ hmem
  simpa [Event.ofZero] using hzero

theorem registered_once_ann :
    ∃ (s : Sys textConfig) (h : Handling textConfig), Reaches textConfig signUpActions s ∧
      s.requests 0 = some h ∧ Registered h "ann" ∧
      ∀ r h', s.requests r = some h' → Registered h' "ann" → 0 = r := by
  obtain ⟨s, h, hrun, hr, hregistered⟩ : ∃ (s : Sys textConfig) (h : Handling textConfig),
      Reaches textConfig signUpActions s ∧ s.requests 0 = some h ∧ Registered h "ann" :=
    ⟨_, _, rfl, rfl, registered_ann rfl rfl⟩
  refine ⟨s, h, hrun, hr, hregistered, fun r h' hr' hregistered' => ?_⟩
  refine (registered_once hrun ?_ "ann").1 0 r h h' hr hr' hregistered hregistered'
  refine allSteps_cons rfl trivial ?_
  iterate 4 refine allSteps_cons rfl (notOvertaken_ofZero rfl) ?_
  trivial

end Ocpe.System
