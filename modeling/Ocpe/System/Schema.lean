import Ocpe.Shared.TypedStore
import Ocpe.System.Session

/-!
# The schema of the store

The keys that the services share and what is kept under them.  Every command that a
handler or a worker can ever send fits the schema (`fits_of_op?`), so the store conforms
to it in every state, and every reply that the server has given is of the type that its
reader expects: there is no `WRONGTYPE`, every element that is popped is the payload of
an accepted submission, and every result that is read is one that was evaluated.

* `handle_gets`: what is read with `GET` is the key of a string.
* `schema_sound`: the store conforms, and what is popped and read decodes.
-/

namespace Ocpe

open Lib Redis Prog RedisClient AuthService WorkerPool

inductive Family
  | queue | result | status | user | token | history
  deriving DecidableEq, Repr

/-- The kind of a key, by its first ten bytes. -/
def family? (key : Bytes) : Option Family :=
  let prefix10 := key.take 10
  if prefix10 = bytes "ocpe:submi" then some .queue
  else if prefix10 = bytes "ocpe:resul" then some .result
  else if prefix10 = bytes "ocpe:statu" then some .status
  else if prefix10 = bytes "ocpe:user:" then some .user
  else if prefix10 = bytes "ocpe:token" then some .token
  else if prefix10 = bytes "ocpe:user_" then some .history
  else none

def Family.shape : Family → Shape
  | .queue => .list
  | .result => .str (some 86400)
  | .status => .str (some 86400)
  | .user => .str none
  | .token => .str (some tokenTtlSec)
  | .history => .list

/-- What is good under a key of the kind. -/
def Family.Good (cfg : Config) (key value : Bytes) : Family → Prop
  | .queue => ∃ env username body job,
      ApiServer.acceptSubmission cfg env username body = .ok (.ok job) ∧
        submissionJobToJson cfg.format job = .ok value
  | .result => ∃ m job result, evaluation cfg m job = .ok result ∧
      submissionResultToJson cfg.format result = .ok value ∧ key = resultKey result.submissionId
  | .status => ∃ v, value = verdictToString v
  | .user => ∃ salt password, value = credential cfg.sha256 salt password
  | .token => True
  | .history => ∃ id : HexString 32, value = id.text

def schema (cfg : Config) : Schema where
  shape key := (family? key).map Family.shape
  Good key value := ∃ f, family? key = some f ∧ f.Good cfg key value

section Families

variable (x : Bytes)

@[simp] theorem family?_queueKey : family? queueKey = some .queue := by
  simp [family?, take_queueKey]

@[simp] theorem family?_resultKey : family? (resultKey x) = some .result := by
  simp only [family?, take_resultKey]
  decide

@[simp] theorem family?_statusKey : family? (statusKey x) = some .status := by
  simp only [family?, take_statusKey]
  decide

@[simp] theorem family?_userKey : family? (userKey x) = some .user := by
  simp only [family?, take_userKey]
  decide

@[simp] theorem family?_tokenKey : family? (tokenKey x) = some .token := by
  simp only [family?, take_tokenKey]
  decide

@[simp] theorem family?_userSubsKey : family? (userSubsKey x) = some .history := by
  simp only [family?, take_userSubsKey]
  decide

end Families

variable {cfg : Config}

theorem shape_of_family? {key : Bytes} {f : Family} (h : family? key = some f) :
    (schema cfg).shape key = some f.shape := congrArg (Option.map Family.shape) h

theorem good_iff {key value : Bytes} {f : Family} (h : family? key = some f) :
    (schema cfg).Good key value ↔ f.Good cfg key value := by
  constructor
  · rintro ⟨g, hg, hgood⟩
    cases h.symm.trans hg
    exact hgood
  · intro hgood
    exact ⟨f, h, hgood⟩

def FitsSchema (cfg : Config) : Wire → Prop
  | .connect => True
  | .command c => (schema cfg).Fits c

theorem fits_set {key value : Bytes} {f : Family} {ttlSec : Option Nat} (h : family? key = some f)
    (hshape : f.shape = .str ttlSec) (hgood : f.Good cfg key value) :
    FitsSchema cfg (.command (.set key value ttlSec)) :=
  ⟨(shape_of_family? h).trans (congrArg some hshape), (good_iff h).mpr hgood⟩

theorem fits_list {key : Bytes} {f : Family} (h : family? key = some f) (hshape : f.shape = .list) :
    (schema cfg).shape key = some .list := (shape_of_family? h).trans (congrArg some hshape)

/-! ### What the handlers read with `GET` -/

def GetsString : Wire → Prop
  | .command (.get key) => ∃ f ttlSec, family? key = some f ∧ f.shape = .str ttlSec
  | _ => True

theorem get_gets {key : Bytes} {f : Family} {ttlSec : Option Nat} (h : family? key = some f)
    (hshape : f.shape = .str ttlSec) : (execCommand (.get key)).Issues GetsString :=
  execCommand_issues ⟨f, ttlSec, h, hshape⟩ trivial

theorem login_gets (token : HexString 64) (username password : Bytes) :
    (login cfg.sha256 token username password).Issues GetsString := by
  refine issues_bind (get_gets (family?_userKey username) rfl) fun r => ?_
  split
  · trivial
  · trivial
  · split
    · exact issues_bind (succeeds_issues trivial trivial) fun ok => by split <;> trivial
    · trivial

theorem registerUser_gets (salt : HexString 32) (username password : Bytes) :
    (registerUser cfg.sha256 salt username password).Issues GetsString := by
  unfold registerUser
  split
  · trivial
  · refine issues_bind (get_gets (family?_userKey username) rfl) fun r => ?_
    split
    · exact issues_bind (succeeds_issues trivial trivial) fun ok => by split <;> trivial
    · exact issues_bind (succeeds_issues trivial trivial) fun ok => by split <;> trivial
    · trivial

theorem requireAuth_gets (authorization : Option Bytes) :
    (ApiServer.requireAuth authorization).Issues GetsString := by
  unfold ApiServer.requireAuth validateToken
  split
  · trivial
  · refine issues_bind ?_ fun username => by split <;> trivial
    split
    · trivial
    · refine issues_bind (get_gets (family?_tokenKey _) rfl) fun r => ?_
      split <;> trivial

theorem getResult_gets (id : Bytes) : (getResult cfg.format id).Issues GetsString := by
  refine issues_bind (get_gets (family?_resultKey id) rfl) fun r => ?_
  split
  · trivial
  · trivial
  · exact issues_bind (json_issues _) fun _ => trivial

theorem getStatus_gets (id : Bytes) : (getStatus id).Issues GetsString := by
  refine issues_bind (get_gets (family?_statusKey id) rfl) fun r => ?_
  split <;> trivial

theorem submissionEntries_gets (ids : List Bytes) :
    (ApiServer.submissionEntries cfg ids).Issues GetsString := by
  induction ids with
  | nil => trivial
  | cons id ids ih =>
    refine issues_bind (issues_bind (getResult_gets id) fun r => ?_) fun _ =>
      issues_bind ih fun _ => trivial
    split
    · trivial
    · refine issues_bind (getStatus_gets id) fun r => ?_
      split <;> trivial

theorem respond_gets (status : Nat) (j : Json) :
    (ApiServer.respond cfg status j).Issues GetsString := issues_bind (json_issues _) fun _ => trivial

theorem queueLength_gets : queueLength.Issues GetsString :=
  issues_bind (execCommand_issues trivial trivial) fun r => by split <;> trivial

theorem enqueueSubmission_gets (job : SubmissionJob) :
    (ApiServer.enqueueSubmission cfg job).Issues GetsString := by
  have hset : ∀ c, GetsString (.command c) → (succeeds c).Issues GetsString :=
    fun c hc => succeeds_issues hc trivial
  refine issues_bind (issues_bind (json_issues _) fun payload => hset _ trivial) fun ok => ?_
  split
  · refine issues_bind (hset _ trivial) fun _ => issues_bind ?_ fun _ =>
      issues_bind queueLength_gets fun _ => respond_gets _ _
    refine issues_bind (execCommand_issues trivial trivial) fun r => ?_
    split
    · trivial
    · exact issues_bind (hset _ trivial) fun _ => trivial
  · trivial

theorem postRegister_gets (env : Surroundings) (body : Bytes) :
    (ApiServer.postRegister cfg env body).Issues GetsString := by
  unfold ApiServer.postRegister
  split
  · trivial
  · refine issues_bind (json_issues _) fun username => issues_bind (json_issues _) fun password =>
      issues_bind (registerUser_gets _ _ _) fun r => ?_
    split
    · exact respond_gets _ _
    · refine issues_bind (login_gets _ _ _) fun session => ?_
      cases session with
      | none => trivial
      | some session => exact respond_gets _ _

theorem postLogin_gets (env : Surroundings) (body : Bytes) :
    (ApiServer.postLogin cfg env body).Issues GetsString := by
  unfold ApiServer.postLogin
  split
  · trivial
  · refine issues_bind (json_issues _) fun username => issues_bind (json_issues _) fun password =>
      issues_bind (login_gets _ _ _) fun session => ?_
    cases session with
    | none => trivial
    | some session => exact respond_gets _ _

/-- **What is read with `GET`** is the key of a string. -/
theorem handle_gets (env : Surroundings) (request : Request) :
    (ApiServer.handle cfg env request).Issues GetsString := by
  cases request with
  | register body => exact postRegister_gets env body
  | login body => exact postLogin_gets env body
  | stats => exact issues_bind queueLength_gets fun _ => respond_gets _ _
  | me authorization =>
    refine issues_bind (requireAuth_gets authorization) fun r => ?_
    cases r with
    | error response => trivial
    | ok username => exact respond_gets _ _
  | submissions authorization =>
    refine issues_bind (requireAuth_gets authorization) fun r => ?_
    cases r with
    | error response => trivial
    | ok username =>
      refine issues_bind (issues_bind (execCommand_issues trivial trivial) fun r => ?_)
        fun ids => issues_bind (submissionEntries_gets ids) fun _ => respond_gets _ _
      split <;> trivial
  | submit authorization body =>
    refine issues_bind (requireAuth_gets authorization) fun r => ?_
    cases r with
    | error response => trivial
    | ok username =>
      refine issues_bind (issues_ofExcept _) fun accepted => ?_
      cases accepted with
      | error response => trivial
      | ok job => exact enqueueSubmission_gets job
  | submission authorization id =>
    refine issues_bind (requireAuth_gets authorization) fun r => ?_
    cases r with
    | error response => trivial
    | ok username =>
      refine issues_bind (getResult_gets id) fun result => ?_
      cases result with
      | some result => exact issues_bind (json_issues _) fun _ => trivial
      | none =>
        refine issues_bind (getStatus_gets id) fun status => ?_
        cases status with
        | some status => exact respond_gets _ _
        | none => trivial

/-! ### What is sent fits -/

theorem fits_of_handlerSends {env : Surroundings} {request : Request} {op : Wire}
    (h : HandlerSends cfg env request op) (hgets : GetsString op) : FitsSchema cfg op := by
  cases h with
  | connect => trivial
  | get key =>
    obtain ⟨f, ttlSec, hf, hshape⟩ := hgets
    exact ⟨ttlSec, (shape_of_family? hf).trans (congrArg some hshape)⟩
  | llen => exact fits_list family?_queueKey rfl
  | lrange username start stop => exact fits_list (family?_userSubsKey username) rfl
  | setUser body username password hrequest hcheck =>
    exact fits_set (family?_userKey username) rfl ⟨env.salt, password, rfl⟩
  | setToken username => exact fits_set (family?_tokenKey _) rfl trivial
  | pushJob authorization body username job payload hrequest haccept hpayload =>
    exact ⟨fits_list family?_queueKey rfl,
      (good_iff family?_queueKey).mpr ⟨env, username, body, job, haccept, hpayload⟩⟩
  | setPending authorization body hrequest =>
    exact fits_set (family?_statusKey _) rfl ⟨.pending, cstr_verdictToString .pending⟩
  | pushHistory username =>
    exact ⟨fits_list (family?_userSubsKey username) rfl,
      (good_iff (family?_userSubsKey username)).mpr ⟨env.submissionId, rfl⟩⟩
  | trimHistory username => exact fits_list (family?_userSubsKey username) rfl

theorem setStatus_fits (id : Bytes) (v : Verdict) : (setStatus id v).Issues (FitsSchema cfg) :=
  succeeds_issues (fits_set (family?_statusKey id) rfl ⟨v, cstr_verdictToString v⟩) trivial

theorem evaluateJob_fits (m : Machine) (job : SubmissionJob) :
    (evaluateJob cfg m job).Issues (FitsSchema cfg) := by
  unfold evaluateJob
  cases heval : evaluation cfg m job with
  | error e => trivial
  | ok result =>
    show (storeJob cfg job result).Issues (FitsSchema cfg)
    refine issues_bind ?_ fun _ => issues_bind (setStatus_fits _ _) fun _ => trivial
    unfold setResult Talk.json
    cases hpayload : submissionResultToJson cfg.format result with
    | error e => trivial
    | ok payload =>
      have hgood : Family.Good cfg (resultKey result.submissionId) payload .result :=
        ⟨m, job, result, heval, hpayload, rfl⟩
      exact succeeds_issues (fits_set (family?_resultKey _) rfl hgood) trivial

theorem iteration_fits (cfg : Config) (m : Machine) :
    (iteration cfg m).Issues (FitsSchema cfg) := by
  have hpop : FitsSchema cfg (.command (.brpop queueKey 5)) := fits_list family?_queueKey rfl
  refine issues_bind (issues_bind (execCommand_issues hpop trivial) fun r => ?_) fun job => ?_
  · split
    · exact issues_bind (json_issues _) fun _ => trivial
    · trivial
  · cases job with
    | none => trivial
    | some job =>
      exact issues_bind (setStatus_fits _ _) fun _ => issues_bind (setStatus_fits _ _) fun _ =>
        evaluateJob_fits m job

namespace System

variable {s s' : Sys cfg}

/-- **Every operation that a party is at fits the schema.** -/
theorem fits_of_op? {who : Party} {op : Wire} (h : s.op? who = some op) : FitsSchema cfg op := by
  cases who with
  | handler r =>
    obtain ⟨h', hr, hop⟩ := Option.bind_eq_some_iff.mp h
    exact fits_of_handlerSends (Task.issues_op? (h'.begun ▸ handle_sends h'.request) hop)
      (Task.issues_op? (h'.begun ▸ handle_gets h'.env h'.request) hop)
  | worker w =>
    change (s.workers w).op? = some op at h
    unfold Worker.op? at h
    split at h
    · cases h
      trivial
    · next m task begun _ =>
      exact Task.issues_op? (G := FitsSchema cfg) (begun ▸ iteration_fits cfg m) h
    · cases h

/-- The server has replied as the command's type says. -/
def Event.Typed (cfg : Config) : Event → Prop
  | .wire _ _ (.command c) (some reply) _ => (schema cfg).Fits c ∧ (schema cfg).Delivers c reply
  | _ => True

/-- The store conforms to the schema, and so do all replies so far. -/
structure WellTyped (s : Sys cfg) : Prop where
  store : (schema cfg).Conforms s.now s.store
  log : ∀ e ∈ s.log, e.Typed cfg

theorem wellTyped_perform (hs : WellTyped s) {who : Party} {net : Net} {op : Wire}
    (hop : s.op? who = some op) : WellTyped (s.perform who op net) := by
  have hfits : FitsSchema cfg op := fits_of_op? hop
  have hold : ∀ {e : Event}, e.Typed cfg → ∀ e' ∈ s.log ++ [e], e'.Typed cfg := by
    intro e he e' he'
    rcases List.mem_append.mp he' with hmem | hmem
    · exact hs.log e' hmem
    · rw [List.mem_singleton.mp hmem]
      exact he
  cases hreply : s.serverReply who op net with
  | none =>
    refine ⟨?_, hold ?_⟩
    · rw [perform_now, perform_store_of_not_executed hreply]
      exact hs.store
    · show Event.Typed cfg (.wire who s.now op (s.serverReply who op net) _)
      rw [hreply]
      cases op <;> trivial
  | some reply =>
    cases op with
    | connect => simp [Sys.serverReply, Sys.executed] at hreply
    | command c =>
      obtain ⟨hstore, rfl⟩ := perform_store_of_executed hreply
      obtain ⟨hconforms, hdelivers⟩ := Schema.exec_sound hs.store hfits
      refine ⟨?_, hold ?_⟩
      · rw [perform_now, hstore]
        exact hconforms
      · show Event.Typed cfg (.wire who s.now (.command c) (s.serverReply who (.command c) net) _)
        rw [hreply]
        exact ⟨hfits, hdelivers⟩

theorem Event.typed_of_closes {e : Event} (h : e.Closes s) : e.Typed cfg := by
  cases e with
  | wire => exact h.elim
  | _ => trivial

theorem wellTyped_step {a : Action} (hs : WellTyped s) (h : step cfg s a = some s') :
    WellTyped s' := by
  rcases step_cases h with ⟨who, net, op, rfl, hop, rfl⟩ | hquiet
  · exact wellTyped_perform hs hop
  · refine ⟨?_, fun e he => ?_⟩
    · rw [hquiet.store]
      exact Schema.conforms_later hquiet.now hs.store
    · rcases hquiet.log with heq | ⟨e', heq, hcloses⟩
      · exact hs.log e (heq ▸ he)
      · rw [heq] at he
        rcases List.mem_append.mp he with hmem | hmem
        · exact hs.log e hmem
        · rw [List.mem_singleton.mp hmem]
          exact Event.typed_of_closes hcloses

theorem wellTyped {as : List Action} (hrun : Reaches cfg as s) : WellTyped s :=
  run_invariant WellTyped hrun ⟨Schema.conforms_empty, fun _ h => absurd h List.not_mem_nil⟩
    fun _ _ _ hm h => wellTyped_step hm h

/-! ### What the readers get -/

/-- Redis refuses no command of the party. -/
def Unrefused (as : List Action) (who : Party) : Prop :=
  ∀ msg, Action.perform who (.refused msg) ∉ as

/-- A party that is refused nothing gets no error: the store is well typed. -/
theorem notError_of_unrefused {as : List Action} (hrun : Reaches cfg as s) {who : Party} (hall : Unrefused as who)
    {now : Nat} {c : Cmd} {executed : Option Reply} {reply : Reply}
    (he : .wire who now (.command c) executed (.reply reply) ∈ s.log) : notError reply = true := by
  obtain ⟨as₁, net, as₂, m, rfl, hm, hop, hevent, -⟩ := at_mem hrun he
  have hanswer : m.answer who (.command c) net = .reply reply := by
    injection hevent
  have hexecuted : reply = (exec m.now m.store c).2 := by
    unfold Sys.answer at hanswer
    cases hctx : m.ctx (m.client who) with
    | null => rw [hctx] at hanswer; cases hanswer
    | broken e => rw [hctx] at hanswer; cases hanswer
    | good =>
      rw [hctx] at hanswer
      cases net with
      | served => exact (Answer.reply.inj hanswer).symm
      | refused msg => exact absurd (by simp) (hall msg)
      | unsent e => cases hanswer
      | unanswered e => cases hanswer
  have hfits : (schema cfg).Fits c := fits_of_op? hop
  have hdelivers := (Schema.exec_sound (wellTyped hm).store hfits).2
  cases reply with
  | error msg => exact absurd hexecuted.symm (hdelivers.ne_error msg)
  | _ => rfl

theorem Event.Typed.popped {who : Party} {now n : Nat} {answer : Answer} {k payload : Bytes}
    (h : Event.Typed cfg
      (.wire who now (.command (.brpop queueKey n)) (some (.arr [k, payload])) answer)) :
    ∃ env username body job, ApiServer.acceptSubmission cfg env username body = .ok (.ok job) ∧
      submissionJobFromJson cfg.format payload = .ok job := by
  rcases h.2 with hnil | ⟨v, heq, hgood⟩
  · cases hnil
  · cases heq
    obtain ⟨env, username, body, job, haccept, hpayload⟩ := (good_iff family?_queueKey).mp hgood
    exact ⟨env, username, body, job, haccept, jobFromJson_toJson hpayload⟩

theorem Event.Typed.read {who : Party} {now : Nat} {answer : Answer} {id b : Bytes}
    (h : Event.Typed cfg (.wire who now (.command (.get (resultKey id))) (some (.str b)) answer)) :
    ∃ m job result, evaluation cfg m job = .ok result ∧
      submissionResultFromJson cfg.format b = .ok result ∧
      resultKey result.submissionId = resultKey id := by
  rcases h.2 with hnil | ⟨v, heq, hgood⟩
  · cases hnil
  · cases heq
    obtain ⟨m, job, result, heval, hpayload, hkey⟩ := (good_iff (family?_resultKey id)).mp hgood
    exact ⟨m, job, result, heval, resultFromJson_toJson hpayload, hkey.symm⟩

/-- **The store is typed**, in every run and under all faults: it conforms to the schema, the
server has replied to every command as its type says, and the two readers of JSON have been
given texts that they can read. -/
theorem schema_sound {as : List Action} (hrun : Reaches cfg as s) :
    (schema cfg).Conforms s.now s.store ∧
    (∀ who now c reply answer, .wire who now (.command c) (some reply) answer ∈ s.log →
      (schema cfg).Fits c ∧ (schema cfg).Delivers c reply ∧ reply ≠ wrongType) ∧
    (∀ who now n k payload answer,
      .wire who now (.command (.brpop queueKey n)) (some (.arr [k, payload])) answer ∈ s.log →
        ∃ env username body job,
          ApiServer.acceptSubmission cfg env username body = .ok (.ok job) ∧
          submissionJobFromJson cfg.format payload = .ok job) ∧
    ∀ who now id b answer,
      .wire who now (.command (.get (resultKey id))) (some (.str b)) answer ∈ s.log →
        ∃ m job result, evaluation cfg m job = .ok result ∧
          submissionResultFromJson cfg.format b = .ok result ∧
          resultKey result.submissionId = resultKey id := by
  have htyped := wellTyped hrun
  refine ⟨htyped.store, ?_, ?_, ?_⟩
  · intro who now c reply answer he
    obtain ⟨hfits, hdelivers⟩ := htyped.log _ he
    exact ⟨hfits, hdelivers, hdelivers.ne_wrongType⟩
  · intro who now n k payload answer he
    exact Event.Typed.popped (htyped.log _ he)
  · intro who now id b answer he
    exact Event.Typed.read (htyped.log _ he)

/-- Ann's submission, up to its stored result. -/
theorem schema_sound_ann : ∃ s, Reaches textConfig inOrder s ∧
    (schema textConfig).Conforms s.now s.store ∧
    (s.store (resultKey (zeros 32).text)).map (·.value) = some (.str oneStored) := by
  obtain ⟨h₀, h₁, response, -, -, -, -, -, hrun⟩ := ann_in_order
  exact ⟨_, hrun, (schema_sound hrun).1, rfl⟩

end System

end Ocpe
