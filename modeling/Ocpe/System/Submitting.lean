import Ocpe.System.Tokens

/-!
# A submission under faults

`POST /submit` performs three writes: the job, its status, and its id in the user's
list.  The answer 202 follows the reply to the first alone.

* `submission_ended`: the handler answers 202 exactly when it is told of the push.
* `submit_all_or_nothing_iff`: a submission is all or nothing exactly when Redis
  executes the push only if the handler is told so, and the other two writes as well.

A push whose reply is lost is answered 503, and a submission whose other writes are
refused is answered 202: `submit_not_all_or_nothing`.
-/

namespace Ocpe.System

open Lib Redis Prog RedisClient AuthService

variable {cfg : Config} {s s' : Sys cfg}

/-- Redis has executed the command of the handler, with success. -/
def Executed (s : Sys cfg) (r : Nat) (c : Cmd) : Prop :=
  ∃ now reply answer, notError reply = true ∧
    .wire (.handler r) now (.command c) (some reply) answer ∈ s.log

/-- The event is the execution of the command of the handler. -/
def Event.executes (r : Nat) (c : Cmd) : Event → Bool
  | .wire (.handler r') _ (.command c') (some reply) _ => r' = r && c' = c && notError reply
  | _ => false

theorem executed_iff {r : Nat} {c : Cmd} :
    Executed s r c ↔ s.log.any (Event.executes r c) = true := by
  rw [List.any_eq_true]
  constructor
  · rintro ⟨now, reply, answer, hok, hmem⟩
    exact ⟨_, hmem, by simp [Event.executes, hok]⟩
  · rintro ⟨e, hmem, he⟩
    unfold Event.executes at he
    split at he
    · simp only [Bool.and_eq_true, decide_eq_true_eq] at he
      obtain ⟨⟨rfl, rfl⟩, hok⟩ := he
      exact ⟨_, _, _, hok, hmem⟩
    · cases he

/-- A reply to the command that is no error has come back to the handler. -/
def Told (s : Sys cfg) (r : Nat) (c : Cmd) : Prop :=
  ∃ now executed reply, notError reply = true ∧
    .wire (.handler r) now (.command c) executed (.reply reply) ∈ s.log

/-- **What the handler is told has happened.** -/
theorem Told.executed {as : List Action} (hrun : Reaches cfg as s) {r : Nat} {c : Cmd}
    (h : Told s r c) : Executed s r c := by
  obtain ⟨now, executed, reply, hok, hmem⟩ := h
  obtain rfl := executed_of_told hrun hmem hok
  exact ⟨now, reply, .reply reply, hok, hmem⟩

section Trace

variable {as : List Action} (hrun : Reaches cfg as s) {r : Nat} {h : Handling cfg}
  (hr : s.requests r = some h) {c : Cmd}

include hrun hr

theorem told_iff : Told s r c ↔
    ∃ reply, notError reply = true ∧ (.command c, .reply reply) ∈ h.task.trace := by
  constructor
  · rintro ⟨now, executed, reply, hok, he⟩
    exact ⟨reply, hok, (mem_trace_iff hrun hr).mpr ⟨now, executed, he⟩⟩
  · rintro ⟨reply, hok, hmem⟩
    obtain ⟨now, executed, he⟩ := (mem_trace_iff hrun hr).mp hmem
    exact ⟨now, executed, reply, hok, he⟩

theorem Executed.sent (hex : Executed s r c) : ∃ a, (.command c, a) ∈ h.task.trace := by
  obtain ⟨now, reply, answer, -, he⟩ := hex
  exact ⟨answer, (mem_trace_iff hrun hr).mpr ⟨now, _, he⟩⟩

end Trace

/-! ### The program of a submission -/

/-- The three writes. -/
def pushJob (payload : Bytes) : Cmd := .lpush queueKey payload

def setPending (job : SubmissionJob) : Cmd :=
  .set (statusKey job.submissionId) (cstr (verdictToString .pending)) (some 86400)

def pushHistory (job : SubmissionJob) : Cmd := .lpush (userSubsKey job.username) job.submissionId

theorem announceSubmission_returns {job : SubmissionJob} {payload : Bytes}
    (hpayload : submissionJobToJson cfg.format job = .ok payload) :
    (ApiServer.announceSubmission cfg job).Returns fun response => response.status = 202 := by
  refine returns_bind (succeeds_returns _) fun _ _ => ?_
  have hrecord : (recordSubmission job.username job.submissionId).Returns fun _ => True := by
    refine returns_bind (execCommand_returns _) fun r _ => ?_
    cases r with
    | none => trivial
    | some reply => exact returns_bind (succeeds_returns _) fun _ _ => trivial
  have hlength : queueLength.Returns fun _ => True := by
    refine returns_bind (execCommand_returns _) fun r _ => ?_
    split <;> trivial
  refine returns_bind hrecord fun _ _ => returns_bind hlength fun k _ => ?_
  obtain ⟨b, hb⟩ := cfg.format.exists_dumpText (ApiServer.utf8_acceptedJson hpayload k)
  rw [ApiServer.respond, hb]
  rfl

theorem enqueueSubmission_ended {job : SubmissionJob} {payload : Bytes}
    (hpayload : submissionJobToJson cfg.format job = .ok payload) {t : List (Wire × Answer)}
    {q : Talk Response} (h : (ApiServer.enqueueSubmission cfg job).Path t q)
    (hq : ∀ i next, q ≠ .op i next) :
    ∃ t₁ t₂ ok response, t = t₁ ++ t₂ ∧ q = .pure response ∧
      (succeeds (pushJob payload)).Path t₁ (.pure ok) ∧
      ((ok = true ∧ response.status = 202 ∧
          (ApiServer.announceSubmission cfg job).Path t₂ q) ∨
        (ok = false ∧ response.status = 503 ∧ t₂ = [])) := by
  rw [ApiServer.enqueueSubmission, enqueueJob, hpayload] at h
  obtain ⟨t₁, t₂, ok, rfl, -, h₁, h₂⟩ := (succeeds_returns (pushJob payload)).path_bind h hq
  cases ok with
  | false =>
    obtain ⟨rfl, rfl⟩ := path_pure.mp h₂
    exact ⟨t₁, [], false, _, rfl, rfl, h₁, .inr ⟨rfl, rfl, rfl⟩⟩
  | true =>
    have hreturns := (announceSubmission_returns hpayload).of_path h₂
    cases q with
    | pure response => exact ⟨t₁, t₂, true, response, rfl, rfl, h₁, .inl ⟨rfl, hreturns, h₂⟩⟩
    | throw e => exact hreturns.elim
    | op i next => exact absurd rfl (hq i next)

/-- What the handler sends after the push is no push of a job. -/
theorem announceSubmission_no_push (job : SubmissionJob) (payload : Bytes) :
    (ApiServer.announceSubmission cfg job).Issues fun op => op ≠ .command (pushJob payload) := by
  refine (announceSubmission_writes cfg job).mono fun op hop => ?_
  rintro rfl
  have hqueue : ∀ {key : Bytes} {a : Bytes}, key.take 10 = a → bytes "ocpe:submi" ≠ a →
      Wire.writes (.command (pushJob payload)) ≠ some key := fun htake ha he =>
    ne_of_take take_queueKey htake ha (Option.some.inj he)
  rcases hop with hop | hop | hop
  · exact hqueue (take_statusKey _) (by decide) hop
  · cases hop
  · exact hqueue (take_userSubsKey _) (by decide) hop

/-! ### All or nothing -/

/-- A submission answered 202 has all three writes, and one answered otherwise none. -/
def AllOrNothing (s : Sys cfg) (r : Nat) (response : Response) (job : SubmissionJob)
    (payload : Bytes) : Prop :=
  (response.status = 202 → Executed s r (pushJob payload) ∧ Executed s r (setPending job) ∧
      Executed s r (pushHistory job)) ∧
    (response.status ≠ 202 → ¬ Executed s r (pushJob payload) ∧ ¬ Executed s r (setPending job) ∧
      ¬ Executed s r (pushHistory job))

/-- **How an accepted submission ends**: with 202, when the handler has been told of the push,
and otherwise with another status, when it has not and has sent nothing else. -/
theorem submission_ended {as : List Action} (hrun : Reaches cfg as s) {r : Nat}
    {h : Handling cfg} (hr : s.requests r = some h) {authorization : Option Bytes}
    {body username : Bytes} (hrequest : h.request = .submit authorization body)
    (hpasses : Passes h authorization username) {job : SubmissionJob} {payload : Bytes}
    (haccept : ApiServer.acceptSubmission cfg h.env username body = .ok (.ok job))
    (hpayload : submissionJobToJson cfg.format job = .ok payload)
    (hended : h.task.op? = none) :
    ∃ response, h.task.rest = .pure response ∧
      ((response.status = 202 ∧ Told s r (pushJob payload)) ∨
        (response.status ≠ 202 ∧ ¬ Told s r (pushJob payload) ∧
          ¬ Executed s r (setPending job) ∧ ¬ Executed s r (pushHistory job))) := by
  obtain ⟨t₁, t, htrace, hauth⟩ := hpasses
  have hq : ∀ i next, h.task.rest ≠ .op i next := by
    intro i next hrest
    rw [Task.op?, hrest] at hended
    cases hended
  -- the handler from `enqueue_job` on
  have hpath := h.path
  rw [hrequest, htrace] at hpath
  change (ApiServer.postSubmit cfg h.env authorization body).Path _ _ at hpath
  rw [ApiServer.postSubmit] at hpath
  have henqueue : (ApiServer.enqueueSubmission cfg job).Path t h.task.rest := by
    have hrest := hpath.of_bind hauth
    simp only [haccept] at hrest
    exact hrest
  obtain ⟨t₂, t₃, ok, response, rfl, hrest, hpush, hend⟩ :=
    enqueueSubmission_ended hpayload henqueue hq
  refine ⟨response, hrest, ?_⟩
  have hbefore : ∀ x ∈ t₁, x.1.writes = none := ((requireAuth_reads _).of_path hauth).1
  have hduring : ∀ x ∈ t₂, x.1 = .command (pushJob payload) ∨ x.1 = .connect :=
    ((succeeds_issues (G := fun op => op = .command (pushJob payload) ∨ op = .connect)
      (.inl rfl) (.inr rfl)).of_path hpush).1
  -- the handler has been told of the push exactly when `enqueue_job` returned true
  have htold : Told s r (pushJob payload) ↔ ok = true := by
    rw [told_iff hrun hr, succeeds_path_iff hpush]
    refine exists_congr fun reply => and_congr_right fun _ => ?_
    rw [htrace, List.mem_append, List.mem_append]
    constructor
    · rintro (hmem | hmem | hmem)
      · have hnone := hbefore _ hmem
        cases hnone
      · exact hmem
      · rcases hend with ⟨-, -, hannounce⟩ | ⟨-, -, rfl⟩
        · exact absurd rfl
            (((announceSubmission_no_push job payload).of_path hannounce).1 _ hmem)
        · cases hmem
    · exact fun hmem => .inr (.inl hmem)
  rcases hend with ⟨rfl, h202, -⟩ | ⟨rfl, h503, rfl⟩
  · exact .inl ⟨h202, htold.mpr rfl⟩
  · have hno : ¬ Told s r (pushJob payload) := by
      intro h
      have htrue := htold.mp h
      cases htrue
    have hne : response.status ≠ 202 := by
      rw [h503]
      decide
    -- nothing but the push was ever sent
    have hsent : ∀ c : Cmd, c.writes ≠ none → c ≠ pushJob payload → ¬ Executed s r c := by
      intro c hwrites hne hex
      obtain ⟨a, hmem⟩ := hex.sent hrun hr
      rw [htrace, List.append_nil, List.mem_append] at hmem
      rcases hmem with hmem | hmem
      · exact hwrites (hbefore _ hmem)
      · rcases hduring _ hmem with heq | heq
        · exact hne (Wire.command.inj heq)
        · cases heq
    refine .inr ⟨hne, hno, ?_, ?_⟩
    · apply hsent
      · intro h
        cases h
      · intro h
        cases h
    · apply hsent
      · intro h
        cases h
      · intro h
        exact ne_of_take (take_userSubsKey _) take_queueKey (by decide) (Cmd.lpush.inj h).1

/-- **When a submission is all or nothing**: exactly when the handler is told of the
push if Redis has executed it, and Redis then executes the other two writes as well. -/
theorem submit_all_or_nothing_iff {as : List Action} (hrun : Reaches cfg as s) {r : Nat}
    {h : Handling cfg} (hr : s.requests r = some h) {authorization : Option Bytes}
    {body username : Bytes} (hrequest : h.request = .submit authorization body)
    (hpasses : Passes h authorization username) {job : SubmissionJob} {payload : Bytes}
    (haccept : ApiServer.acceptSubmission cfg h.env username body = .ok (.ok job))
    (hpayload : submissionJobToJson cfg.format job = .ok payload)
    (hended : h.task.op? = none) :
    ∃ response, h.task.rest = .pure response ∧
      (AllOrNothing s r response job payload ↔
        (Executed s r (pushJob payload) → Told s r (pushJob payload)) ∧
        (Told s r (pushJob payload) → Executed s r (setPending job) ∧
          Executed s r (pushHistory job))) := by
  obtain ⟨response, hrest, ⟨h202, hyes⟩ | ⟨hne, hno, hstatus, hhistory⟩⟩ :=
    submission_ended hrun hr hrequest hpasses haccept hpayload hended
  · have hexecuted := hyes.executed hrun
    refine ⟨response, hrest, ?_⟩
    constructor
    · intro hall
      exact ⟨fun _ => hyes, fun _ => (hall.1 h202).2⟩
    · intro hcond
      exact ⟨fun _ => ⟨hexecuted, hcond.2 hyes⟩, fun hne => absurd h202 hne⟩
  · refine ⟨response, hrest, ?_⟩
    constructor
    · intro hall
      exact ⟨fun h => absurd h (hall.2 hne).1, fun h => absurd h hno⟩
    · intro hcond
      exact ⟨fun h => absurd h hne, fun _ => ⟨fun h => hno (hcond.1 h), hstatus, hhistory⟩⟩

/-! ### Ann submits -/

/-- Ann signs up and submits, and this becomes of the commands. -/
def annSubmitting (script : Script) : List Action :=
  signUpActions ++ [.request 1 0 annSubmits zeroSurroundings] ++
    script.map fun x => .perform (.handler 1) x.2

theorem annSubmitting_run {script : Script} {response : Response} {t : List (Wire × Answer)}
    (htrace : script.trace 0 (signedUpStore textConfig annSurroundings "ann" "secret") .good =
      (.command (.get (tokenKey (zeros 64).text)), .reply (.str "ann")) :: t)
    (hpath : (ApiServer.enqueueSubmission textConfig zeroJob).Path t (.pure response)) :
    ∃ (s : Sys textConfig) (h : Handling textConfig),
      Reaches textConfig (annSubmitting script) s ∧ s.requests 1 = some h ∧
      h.request = annSubmits ∧ h.env = zeroSurroundings ∧
      Passes h (some (bytes "Bearer " ++ (zeros 64).text)) "ann" ∧
      h.task.rest = .pure response ∧
      s.log = (signUpScript textConfig annSurroundings "ann" "secret").log (.handler 0) 0
          (fun _ => none) .good ++
        script.log (.handler 1) 0 (signedUpStore textConfig annSurroundings "ann" "secret")
          .good := by
  obtain ⟨h₀, -, hsubmitting⟩ := ann_submits
  have hr : (submitting h₀).requests 1 =
      some (.begin textConfig 0 annSubmits zeroSurroundings) := by simp [submitting]
  have hwhole := Prog.path_append_iff.mpr ⟨_, annSubmits_path, hpath⟩
  rw [List.singleton_append, ← htrace] at hwhole
  obtain ⟨h, -, hrequest, henv, hrest, hrun⟩ := handler_alone hr hwhole
  obtain ⟨s, hreaches, hr', hlog⟩ : ∃ s : Sys textConfig,
      Reaches textConfig (annSubmitting script) s ∧ s.requests 1 = some h ∧ s.log =
        (signUpScript textConfig annSurroundings "ann" "secret").log (.handler 0) 0
            (fun _ => none) .good ++
          script.log (.handler 1) 0 (signedUpStore textConfig annSurroundings "ann" "secret")
            .good :=
    ⟨_, run_append_iff.mpr ⟨_, hsubmitting, hrun⟩, by simp, rfl⟩
  refine ⟨s, h, hreaches, hr', hrequest, henv, ?_, hrest, hlog⟩
  obtain ⟨-, -, hauth, -⟩ :=
    @me_path textConfig zeroSurroundings (zeros 64).text "ann" (by decide) _ (.inl rfl) (by decide)
  refine ⟨_, t, ?_, hauth⟩
  have hown := handler_trace hreaches 1
  rw [Sys.trace, hr', hlog, ownTrace_append, ownTrace_scriptLog, htrace] at hown
  exact hown

def pushUnanswered : Script :=
  [(.command (.get (tokenKey (zeros 64).text)), .served),
    (.command (.lpush queueKey zeroPayload), .unanswered .eof)]

/-- Redis runs out of memory after the push. -/
def statusRefused : Script :=
  [(.command (.get (tokenKey (zeros 64).text)), .served),
    (.command (.lpush queueKey zeroPayload), .served),
    (.command (setPending zeroJob), .refused "OOM"),
    (.command (pushHistory zeroJob), .refused "OOM"),
    (.command (.ltrim (userSubsKey "ann") 0 99), .served),
    (.command (.llen queueKey), .served)]

/-- **Queued and answered 503**: Redis has executed the push, and its reply is lost.
**Answered 202 and not listed**: Redis refuses the other two writes. -/
theorem submit_not_all_or_nothing :
    (∃ (s : Sys textConfig) (h : Handling textConfig) (response : Response),
      Reaches textConfig (annSubmitting pushUnanswered) s ∧ s.requests 1 = some h ∧
      h.request = annSubmits ∧ Passes h (some (bytes "Bearer " ++ (zeros 64).text)) "ann" ∧
      h.task.rest = .pure response ∧ response.status = 503 ∧
      Executed s 1 (pushJob zeroPayload) ∧ ¬ AllOrNothing s 1 response zeroJob zeroPayload) ∧
    ∃ (s : Sys textConfig) (h : Handling textConfig) (response : Response),
      Reaches textConfig (annSubmitting statusRefused) s ∧ s.requests 1 = some h ∧
      h.request = annSubmits ∧ Passes h (some (bytes "Bearer " ++ (zeros 64).text)) "ann" ∧
      h.task.rest = .pure response ∧ response.status = 202 ∧
      ¬ Executed s 1 (setPending zeroJob) ∧ ¬ Executed s 1 (pushHistory zeroJob) ∧
      ¬ AllOrNothing s 1 response zeroJob zeroPayload := by
  constructor
  · have hpath : (ApiServer.enqueueSubmission textConfig zeroJob).Path
        [(.command (.lpush queueKey zeroPayload), .failed .eof)]
        (.pure (errorResponse 503 "queue unavailable")) := by
      rw [ApiServer.enqueueSubmission, enqueueJob, zeroJob_payload]
      exact ⟨rfl, rfl⟩
    obtain ⟨s, h, hrun, hr, hrequest, -, hpasses, hrest, hlog⟩ :=
      @annSubmitting_run pushUnanswered _ _ rfl hpath
    have hexecuted : Executed s 1 (pushJob zeroPayload) := by
      refine ⟨0, .int 1, .failed .eof, rfl, ?_⟩
      rw [hlog]
      exact List.mem_append_right _ (List.mem_cons_of_mem _ List.mem_cons_self)
    exact ⟨s, h, _, hrun, hr, hrequest, hpasses, hrest, rfl, hexecuted,
      fun hall => (hall.2 (by decide)).1 hexecuted⟩
  · obtain ⟨response, h202, hannounce⟩ :=
      @ApiServer.announceSubmission_replied textConfig zeroJob _ zeroJob_payload
        (.error "OOM") (.error "OOM") (.status "OK") 1
    obtain ⟨s, h, hrun, hr, hrequest, -, hpasses, hrest, hlog⟩ :=
      @annSubmitting_run statusRefused response _ rfl
        (Prog.path_append_iff.mpr ⟨_, ApiServer.enqueueSubmission_path zeroJob_payload (n := 1),
          hannounce⟩)
    have hstatus : ¬ Executed s 1 (setPending zeroJob) := by
      rw [executed_iff, hlog]
      intro h
      cases h
    have hhistory : ¬ Executed s 1 (pushHistory zeroJob) := by
      rw [executed_iff, hlog]
      intro h
      cases h
    exact ⟨s, h, response, hrun, hr, hrequest, hpasses, hrest, h202, hstatus, hhistory,
      fun hall => hstatus (hall.1 h202).2.1⟩

def allServed : Script :=
  .served [.get (tokenKey (zeros 64).text), .lpush queueKey zeroPayload, setPending zeroJob,
    pushHistory zeroJob, .ltrim (userSubsKey "ann") 0 99, .llen queueKey]

theorem submit_all_or_nothing_served :
    ∃ (s : Sys textConfig) (h : Handling textConfig) (response : Response),
      Reaches textConfig (annSubmitting allServed) s ∧ s.requests 1 = some h ∧
      h.task.rest = .pure response ∧ AllOrNothing s 1 response zeroJob zeroPayload := by
  obtain ⟨response, h202, hannounce⟩ :=
    @ApiServer.announceSubmission_path textConfig zeroJob _ zeroJob_payload 1 1
  obtain ⟨s, h, hrun, hr, hrequest, henv, hpasses, hrest, hlog⟩ :=
    @annSubmitting_run allServed response _ rfl
      (Prog.path_append_iff.mpr ⟨_, ApiServer.enqueueSubmission_path zeroJob_payload (n := 1),
        hannounce⟩)
  have haccept : ApiServer.acceptSubmission textConfig h.env "ann" (JsonText.print submitJson) =
      .ok (.ok zeroJob) := by
    rw [henv]
    exact acceptSubmission_zeroJob
  have hended : h.task.op? = none := by rw [Task.op?, hrest]
  obtain ⟨response', hrest', hiff⟩ :=
    submit_all_or_nothing_iff hrun hr hrequest hpasses haccept zeroJob_payload hended
  have hsame : response' = response := Prog.pure.inj (hrest'.symm.trans hrest)
  subst hsame
  have htold : Told s 1 (pushJob zeroPayload) := by
    refine ⟨0, some (.int 1), .int 1, rfl, ?_⟩
    rw [hlog]
    exact List.mem_append_right _ (List.mem_cons_of_mem _ List.mem_cons_self)
  have hexecuted : ∀ c ∈ [setPending zeroJob, pushHistory zeroJob], Executed s 1 c := by
    intro c hc
    rw [executed_iff, hlog]
    simp only [List.mem_cons, List.not_mem_nil, or_false] at hc
    rcases hc with rfl | rfl <;> decide
  refine ⟨s, h, response', hrun, hr, hrest, hiff.mpr ⟨fun _ => htold, fun _ => ⟨?_, ?_⟩⟩⟩
  · exact hexecuted _ (by simp)
  · exact hexecuted _ (by simp)

end Ocpe.System
