import Ocpe.System.Queue
import Ocpe.System.Session

/-!
# What becomes of an accepted job

For a job that `/submit` answered with 202, in every run with any connection
failures and any crashes of workers.  `exec_command` sends a command again after
`REDIS_ERR_IO`, `LPUSH` included, and nothing acknowledges a job, so the design
allows both a duplicate and a loss; `delivery` says exactly when each of them
happens and where every copy is.
-/

namespace Ocpe.System

open Lib Redis RedisClient AuthService

variable {cfg : Config} {s s' : Sys cfg}

/-! ### What one event does to the ledger -/

def Event.pushes? : Event → Option Bytes
  | .wire _ _ (.command (.lpush key payload)) (some (.int _)) _ =>
    if key = queueKey then some payload else none
  | _ => none

/-- A `BRPOP` took an item and its reply was lost. -/
def Event.LosesPop : Event → Prop
  | .wire (.worker _) _ (.command (.brpop _ _)) (some (.arr _)) (.reply _) => False
  | .wire (.worker _) _ (.command (.brpop _ _)) (some (.arr _)) _ => True
  | _ => False

theorem account_cases (L : Ledger Bytes Nat) (e : Event) :
    (∃ payload, e.pushes? = some payload ∧ account L e = L.push payload) ∨
    (e.pushes? = none ∧ ∃ f, account L e = L.take f ∧ (∀ w, f ≠ .done w) ∧
      (f = .lost → e.LosesPop)) ∨
    (e.pushes? = none ∧ ∃ become, account L e = L.settle become ∧
      ∀ w, become w = .held w ∨ (become w = .done w ∧ e = .finished w) ∨
        (become w = .lost ∧ (e = .crashed w ∨ e = .terminated))) ∨
    (e.pushes? = none ∧ account L e = L) := by
  unfold account
  split
  · next key payload _ _ =>
    by_cases hkey : key = queueKey
    · exact .inl ⟨payload, by simp [Event.pushes?, hkey], by simp [hkey]⟩
    · exact .inr (.inr (.inr ⟨by simp [Event.pushes?, hkey], by simp [hkey]⟩))
  · next w _ _ _ _ answer =>
    refine .inr (.inl ⟨rfl, _, rfl, ?_, ?_⟩)
    · cases answer <;> simp
    · cases answer <;> simp [Event.LosesPop]
  · next w =>
    refine .inr (.inr (.inl ⟨rfl, _, rfl, fun w' => ?_⟩))
    by_cases hw : w' = w
    · subst hw; exact .inr (.inl ⟨if_pos rfl, rfl⟩)
    · exact .inl (if_neg hw)
  · next w =>
    refine .inr (.inr (.inl ⟨rfl, _, rfl, fun w' => ?_⟩))
    by_cases hw : w' = w
    · subst hw; exact .inr (.inr ⟨if_pos rfl, .inl rfl⟩)
    · exact .inl (if_neg hw)
  · exact .inr (.inr (.inl ⟨rfl, _, rfl, fun w' => .inr (.inr ⟨rfl, .inr rfl⟩)⟩))
  · next h₁ h₂ h₃ h₄ h₅ =>
    refine .inr (.inr (.inr ⟨?_, rfl⟩))
    unfold Event.pushes?
    split
    · exact absurd rfl (h₁ _ _ _ _ _ _)
    · rfl

theorem ledger_pushed (log : List Event) :
    (ledger log).pushed = log.filterMap Event.pushes? := by
  induction log using List.reverseRecOn with
  | nil => rfl
  | append_singleton log e ih =>
    rw [ledger_concat, List.filterMap_append, ← ih]
    rcases account_cases (ledger log) e with ⟨payload, he, h⟩ | ⟨he, f, h, -⟩ | ⟨he, b, h, -⟩ |
      ⟨he, h⟩ <;> rw [h] <;> simp [he]

/-- **What an event can do to a line**: nothing, or take the item, or end the work of
the worker that holds it. -/
theorem fate_cases {L : Ledger Bytes Nat} {e : Event} {i : Nat} {f : Fate Nat} {payload : Bytes}
    (hf : (account L e).fates[i]? = some f) (hp : (account L e).pushed[i]? = some payload) :
    (L.fates[i]? = some f ∧ L.pushed[i]? = some payload) ∨
    (i = L.fates.length ∧ L.waiting.head? = some payload ∧ (∀ w, f ≠ .done w) ∧
      (f = .lost → e.LosesPop)) ∨
    ∃ w, L.HoldsAt i w payload ∧
      ((f = .done w ∧ e = .finished w) ∨ (f = .lost ∧ (e = .crashed w ∨ e = .terminated))) := by
  rcases account_cases L e with ⟨p, -, h⟩ | ⟨-, g, h, hdone, hlost⟩ | ⟨-, become, h, hb⟩ | ⟨-, h⟩ <;>
    rw [h] at hf hp
  · have hlt := (List.getElem?_eq_some_iff.mp hf).1
    rw [Ledger.push_pushed, List.getElem?_append_left (hlt.trans_le L.le)] at hp
    exact .inl ⟨hf, hp⟩
  · cases hw : L.waiting with
    | nil =>
      rw [Ledger.take_of_waiting_nil hw] at hf hp
      exact .inl ⟨hf, hp⟩
    | cons j js =>
      rw [Ledger.take_pushed] at hp
      rcases (Ledger.take_fates_iff hw).mp hf with hf | ⟨rfl, rfl⟩
      · exact .inl ⟨hf, hp⟩
      · rw [Ledger.pushed_of_waiting hw] at hp
        exact .inr (.inl ⟨rfl, by rw [← hp]; rfl, hdone, hlost⟩)
  · rw [Ledger.settle_fates, List.getElem?_map, Option.map_eq_some_iff] at hf
    obtain ⟨g, hg, hsettle⟩ := hf
    cases g with
    | lost => exact .inl ⟨by rw [hg, ← hsettle]; rfl, hp⟩
    | done w => exact .inl ⟨by rw [hg, ← hsettle]; rfl, hp⟩
    | held w =>
      change become w = f at hsettle
      rcases hb w with hw | ⟨hw, he⟩ | ⟨hw, he⟩
      · exact .inl ⟨by rw [hg, ← hsettle, hw], hp⟩
      · exact .inr (.inr ⟨w, ⟨hg, hp⟩, .inl ⟨by rw [← hsettle, hw], he⟩⟩)
      · exact .inr (.inr ⟨w, ⟨hg, hp⟩, .inr ⟨by rw [← hsettle, hw], he⟩⟩)
  · exact .inl ⟨hf, hp⟩

/-! ### Losses -/

/-- The event loses a copy of the payload: the reply to the `BRPOP` that takes it is
lost, or the worker that has it in hands crashes, alone or with its process. -/
def LosesAt (payload : Bytes) (before : List Event) (e : Event) : Prop :=
  (e.LosesPop ∧ (ledger before).waiting.head? = some payload) ∨
    ∃ w, (e = .crashed w ∨ e = .terminated) ∧ (ledger before).Holds w payload

def Loss (payload : Bytes) (log : List Event) : Prop :=
  ∃ before e after, log = before ++ e :: after ∧ LosesAt payload before e

theorem Loss.append {payload : Bytes} {log : List Event} (h : Loss payload log)
    (es : List Event) : Loss payload (log ++ es) := by
  obtain ⟨before, e, after, rfl, h⟩ := h
  exact ⟨before, e, after ++ es, by simp, h⟩

/-- **A copy is lost only by a loss.** -/
theorem loss_of_lost {log : List Event} {i : Nat} {payload : Bytes}
    (hf : (ledger log).fates[i]? = some .lost) (hp : (ledger log).pushed[i]? = some payload) :
    Loss payload log := by
  induction log using List.reverseRecOn with
  | nil => simp [ledger, Ledger.empty] at hf
  | append_singleton log e ih =>
    rw [ledger_concat] at hf hp
    rcases fate_cases hf hp with ⟨hf, hp⟩ | ⟨-, hhead, -, hlost⟩ | ⟨w, hat, hend⟩
    · exact (ih hf hp).append _
    · exact ⟨log, e, [], rfl, .inl ⟨hlost rfl, hhead⟩⟩
    · rcases hend with ⟨h, -⟩ | ⟨-, he⟩
      · cases h
      · exact ⟨log, e, [], rfl, .inr ⟨w, he, i, hat⟩⟩

/-! ### Completed copies -/

/-- A worker has evaluated the job and called `set_result`; this is a `SET` of the result, which
Redis has executed if there is a reply. -/
def ResultSet (cfg : Config) (job : SubmissionJob) (w : Nat) (executed : Option Reply)
    (log : List Event) : Prop :=
  ∃ m result payload now answer,
    WorkerPool.evaluation cfg m job = .ok result ∧
    submissionResultToJson cfg.format result = .ok payload ∧
    .wire (.worker w) now (.command (.set (resultKey job.submissionId) payload (some 86400)))
      executed answer ∈ log

/-- Redis has executed the `SET` of a result of the job. -/
def ResultStored (cfg : Config) (job : SubmissionJob) (log : List Event) : Prop :=
  ∃ w reply, ResultSet cfg job w (some reply) log

/-- The worker that had the job in hands has ended its work on it, and Redis has not executed
the `SET` of the result. -/
def ResultUnset (cfg : Config) (job : SubmissionJob) (payload : Bytes) (log : List Event) : Prop :=
  ∃ before w after, log = before ++ .finished w :: after ∧ (ledger before).Holds w payload ∧
    ResultSet cfg job w none before

theorem ResultSet.append {job : SubmissionJob} {w : Nat} {executed : Option Reply}
    {log : List Event} (h : ResultSet cfg job w executed log) (es : List Event) :
    ResultSet cfg job w executed (log ++ es) := by
  obtain ⟨m, result, payload, now, answer, heval, hpayload, hmem⟩ := h
  exact ⟨m, result, payload, now, answer, heval, hpayload, List.mem_append_left _ hmem⟩

/-- A worker whose iteration is over has called `set_result` for its job. -/
theorem resultSet_of_ended {as : List Action} (hrun : Reaches cfg as s) {w : Nat}
    (hended : (s.workers w).ended = some (.ok ())) {payload : Bytes}
    (hpayload : (s.workers w).payload? = some payload) :
    ∃ job executed, submissionJobFromJson cfg.format payload = .ok job ∧
      ResultSet cfg job w executed s.log := by
  have htrace := worker_trace hrun w
  cases hw : s.workers w with
  | busy m task begun =>
    rw [hw] at hended hpayload htrace
    have hrest : task.rest = .pure () := rest_of_ended hended
    have hpath := task.path
    rw [begun, hrest] at hpath
    obtain ⟨job, t₁, t₂, ht, hjob, hprocess⟩ := iteration_path_pure hpath hpayload
    obtain ⟨result, encoded, a, heval, hencoded, hmem⟩ := WorkerPool.processJob_path_pure hprocess
    have hmem : _ ∈ (Worker.busy m task begun).trace :=
      (ht ▸ List.mem_append_right t₁ hmem : _ ∈ task.trace)
    obtain ⟨now, executed, hlog⟩ := mem_ownTrace_iff.mp (htrace.mem hmem)
    exact ⟨job, executed, hjob, m, result, encoded, now, a, heval, hencoded, hlog⟩
  | _ => rw [hw] at hended; cases hended

/-- **A copy is done in the end of an iteration** of the worker that has it in hands. -/
theorem at_finished {as : List Action} (hrun : Reaches cfg as s) {i w : Nat} {payload : Bytes}
    (hf : (ledger s.log).fates[i]? = some (.done w))
    (hp : (ledger s.log).pushed[i]? = some payload) :
    ∃ as₁ as₂ m after, as = as₁ ++ as₂ ∧ Reaches cfg as₁ m ∧ Lib.run (step cfg) m as₂ = some s ∧
      s.log = m.log ++ .finished w :: after ∧
      (m.workers w).ended = some (.ok ()) ∧ (ledger m.log).HoldsAt i w payload := by
  induction as using List.reverseRecOn generalizing s with
  | nil =>
    obtain rfl : ({} : Sys cfg) = s := Option.some.inj hrun
    simp [ledger, Ledger.empty] at hf
  | append_singleton as a ih =>
    obtain ⟨m, hm, ha⟩ := run_concat_iff.mp hrun
    have later : (ledger m.log).fates[i]? = some (.done w) →
        (ledger m.log).pushed[i]? = some payload →
        ∃ as₁ as₂ m' after, as ++ [a] = as₁ ++ as₂ ∧ Reaches cfg as₁ m' ∧
          Lib.run (step cfg) m' as₂ = some s ∧ s.log = m'.log ++ .finished w :: after ∧
          (m'.workers w).ended = some (.ok ()) ∧ (ledger m'.log).HoldsAt i w payload := by
      intro hf hp
      obtain ⟨as₁, as₂, m', after, rfl, h₁, h₂, hlog, h₃⟩ := ih hm hf hp
      obtain ⟨es, hes⟩ := (grows_run (run_single ha)).log
      exact ⟨as₁, as₂ ++ [a], m', after ++ es, by simp, h₁, run_concat_iff.mpr ⟨m, h₂, ha⟩,
        by rw [← hes, hlog]; simp, h₃⟩
    have appended : ∀ {e}, s.log = m.log ++ [e] → (e = .finished w → e.Closes m) →
        ∃ as₁ as₂ m' after, as ++ [a] = as₁ ++ as₂ ∧ Reaches cfg as₁ m' ∧
          Lib.run (step cfg) m' as₂ = some s ∧ s.log = m'.log ++ .finished w :: after ∧
          (m'.workers w).ended = some (.ok ()) ∧ (ledger m'.log).HoldsAt i w payload := by
      intro e heq hcloses
      rw [heq, ledger_concat] at hf hp
      rcases fate_cases hf hp with ⟨hf, hp⟩ | ⟨-, -, hdone, -⟩ | ⟨w', hat, hend⟩
      · exact later hf hp
      · exact absurd rfl (hdone w)
      · rcases hend with ⟨h, rfl⟩ | ⟨h, -⟩
        · cases h
          exact ⟨as, [a], m, [], rfl, hm, run_cons_iff.mpr ⟨s, ha, rfl⟩, heq, hcloses rfl, hat⟩
        · cases h
    rcases step_cases ha with ⟨who, net, op, rfl, -, rfl⟩ | hquiet
    · exact appended perform_log (by simp [Sys.event])
    · rcases hquiet.log with heq | ⟨e, heq, hcloses⟩
      · rw [heq] at hf hp
        exact later hf hp
      · exact appended heq fun _ => hcloses

/-- **A copy is done only with its result**, which Redis has stored, or has not got. -/
theorem stored_or_unset {as : List Action} (hrun : Reaches cfg as s) {i w : Nat}
    {payload : Bytes} (hf : (ledger s.log).fates[i]? = some (.done w))
    (hp : (ledger s.log).pushed[i]? = some payload) :
    ∃ job, submissionJobFromJson cfg.format payload = .ok job ∧
      (ResultStored cfg job s.log ∨ ResultUnset cfg job payload s.log) := by
  obtain ⟨as₁, as₂, m, after, -, hm, -, hlog, hended, hat⟩ := at_finished hrun hf hp
  obtain ⟨job, executed, hjob, hset⟩ :=
    resultSet_of_ended hm hended (((accounts hm).holds w payload).mpr ⟨i, hat⟩)
  refine ⟨job, hjob, ?_⟩
  cases executed with
  | none => exact .inr ⟨m.log, w, after, hlog, ⟨i, hat⟩, hset⟩
  | some reply => exact .inl ⟨w, reply, hlog ▸ hset.append _⟩

/-! ### Who pushes a payload -/

theorem pusher {as : List Action} (hrun : Reaches cfg as s) {e : Event} (he : e ∈ s.log)
    {payload : Bytes} (hpush : e.pushes? = some payload) :
    ∃ r h job now executed answer,
      e = .wire (.handler r) now (.command (.lpush queueKey payload)) executed answer ∧
      s.requests r = some h ∧ job.submissionId = h.env.submissionId.text ∧
      submissionJobToJson cfg.format job = .ok payload := by
  unfold Event.pushes? at hpush
  split at hpush
  · next who now key payload' n answer =>
    split at hpush
    · next hkey =>
      cases hpush
      subst hkey
      have hsends := sends_of_mem hrun he
      cases who with
      | worker w => cases hsends
      | handler r =>
        obtain ⟨h, hr, hsends⟩ := hsends
        cases hsends with
        | pushJob _ _ _ job _ _ haccept hpayload =>
          exact ⟨r, h, job, _, _, _, rfl, hr, (ApiServer.acceptSubmission_ok haccept).1, hpayload⟩
    · cases hpush
  · cases hpush

theorem pusher_of_pushed {as : List Action} (hrun : Reaches cfg as s) {i : Nat} {payload : Bytes}
    (hi : (ledger s.log).pushed[i]? = some payload) :
    ∃ r h job now executed answer,
      .wire (.handler r) now (.command (.lpush queueKey payload)) executed answer ∈ s.log ∧
      s.requests r = some h ∧ job.submissionId = h.env.submissionId.text ∧
      submissionJobToJson cfg.format job = .ok payload := by
  have hmem := List.mem_of_getElem? hi
  rw [ledger_pushed, List.mem_filterMap] at hmem
  obtain ⟨e, he, hpush⟩ := hmem
  obtain ⟨r, h, job, now, executed, answer, rfl, hr, hid, hpayload⟩ := pusher hrun he hpush
  exact ⟨r, h, job, now, executed, answer, he, hr, hid, hpayload⟩

/-- An operation of the party, with what the server replied and what arrived. -/
def Event.own? (who : Party) : Event → Option (Wire × Option Reply × Answer)
  | .wire who' _ op executed answer => if who' = who then some (op, executed, answer) else none
  | _ => none

def ownEvents (who : Party) (log : List Event) : List (Wire × Option Reply × Answer) :=
  log.filterMap (Event.own? who)

theorem ownEvents_trace (who : Party) (log : List Event) :
    (ownEvents who log).map (fun x => (x.1, x.2.2)) = ownTrace who log := by
  rw [ownEvents, ownTrace, List.map_filterMap]
  congr 1
  funext e
  cases e with
  | wire who' now op executed answer => by_cases h : who' = who <;> simp [Event.own?, h]
  | _ => rfl

def Pushed (payload : Bytes) : Wire × Option Reply × Answer → Bool
  | (.command (.lpush key p), some (.int _), _) => key = queueKey && p = payload
  | _ => false

theorem pushed_iff {payload : Bytes} {who : Party} {now : Nat} {op : Wire}
    {executed : Option Reply} {answer : Answer} :
    (Event.wire who now op executed answer).pushes? = some payload ↔
      Pushed payload (op, executed, answer) = true := by
  unfold Event.pushes? Pushed
  split
  · next heq => cases heq; simp
  · next hnot =>
    split
    · next heq => cases heq; exact absurd rfl (hnot _ _ _ _ _ _)
    · simp

/-- When one handler does all the pushing, its operations count the copies. -/
theorem count_pushed {payload : Bytes} {r : Nat} {log : List Event}
    (hown : ∀ e ∈ log, e.pushes? = some payload →
      ∃ now op executed answer, e = .wire (.handler r) now op executed answer) :
    (ledger log).pushed.count payload = (ownEvents (.handler r) log).countP (Pushed payload) := by
  rw [ledger_pushed, List.count, List.countP_filterMap, ownEvents, List.countP_filterMap]
  refine List.countP_congr fun e he => ?_
  constructor
  · intro hpush
    have hpush : e.pushes? = some payload := by
      cases h : e.pushes? <;> simp_all
    obtain ⟨now, op, executed, answer, rfl⟩ := hown e he hpush
    simpa [Event.own?] using pushed_iff.mp hpush
  · intro hpushed
    cases e with
    | wire who now op executed answer =>
      by_cases hwho : who = .handler r
      · simp only [Event.own?, hwho, if_true] at hpushed
        simp [pushed_iff.mpr hpushed]
      · simp [Event.own?, hwho] at hpushed
    | _ => simp [Event.own?] at hpushed

/-! ### How often an accepted job is pushed -/

/-- The reply to an executed `LPUSH` of the payload was lost with `REDIS_ERR_IO`. -/
def ReplyLost (r : Nat) (payload : Bytes) (log : List Event) : Prop :=
  ∃ now n, Event.wire (.handler r) now (.command (.lpush queueKey payload)) (some (.int n))
    (.failed .io) ∈ log

theorem int_of_push {as : List Action} (hrun : Reaches cfg as s) {who : Party} {net : Net}
    {payload : Bytes} {reply : Reply}
    (h : s.serverReply who (.command (.lpush queueKey payload)) net = some reply) :
    ∃ n, reply = .int n := by
  rw [(perform_store_of_executed h).2]
  simp only [exec, (accounts hrun).live]
  split
  · exact ⟨_, rfl⟩
  · next heq => split at heq <;> cases heq; exact ⟨_, rfl⟩
  · next heq => split at heq <;> cases heq

theorem pushed_of_reply {as : List Action} (hrun : Reaches cfg as s) {r : Nat} {payload : Bytes}
    {executed : Option Reply} {reply : Reply}
    (h : (.command (.lpush queueKey payload), executed, .reply reply) ∈
      ownEvents (.handler r) s.log) (hok : notError reply = true) :
    Pushed payload (.command (.lpush queueKey payload), executed, .reply reply) = true := by
  obtain ⟨e, he, hown⟩ := List.mem_filterMap.mp h
  cases e with
  | wire who now op executed' answer =>
    simp only [Event.own?] at hown
    split at hown
    · cases hown
      obtain ⟨as₁, net, as₂, m, -, hm, hop, hevent, -⟩ := at_mem hrun he
      obtain ⟨-, -, -, hexecuted, hanswer⟩ := Event.wire.inj hevent
      have hexec := executed_of_reply hanswer hok
      obtain ⟨n, rfl⟩ := int_of_push hm hexec
      rw [← hexecuted, hexec]
      simp [Pushed]
    · cases hown
  | _ => cases hown

theorem announce_notOn (job : SubmissionJob) :
    (ApiServer.announceSubmission cfg job).Issues fun op => op.writes ≠ some queueKey := by
  refine (announceSubmission_writes cfg job).mono fun op hop heq => ?_
  rw [heq] at hop
  rcases hop with hop | hop | hop
  · exact ne_of_take take_queueKey (take_statusKey _) (by decide) (Option.some.inj hop)
  · cases hop
  · exact ne_of_take take_queueKey (take_userSubsKey _) (by decide) (Option.some.inj hop)

theorem requireAuth_notOn (authorization : Option Bytes) :
    (ApiServer.requireAuth authorization).Issues fun op => op.writes ≠ some queueKey :=
  (requireAuth_reads authorization).mono fun op hop => by rw [hop]; simp

theorem countP_pushed_eq_zero {payload : Bytes} {l : List (Wire × Option Reply × Answer)}
    (h : ∀ x ∈ l, x.1.writes ≠ some queueKey) : l.countP (Pushed payload) = 0 := by
  rw [List.countP_eq_zero]
  rintro ⟨op, executed, answer⟩ hx hpushed
  unfold Pushed at hpushed
  split at hpushed
  · next key p n answer heq =>
    cases heq
    simp only [Bool.and_eq_true, decide_eq_true_eq] at hpushed
    exact h _ hx (congrArg some hpushed.1)
  · cases hpushed

/-- `enqueue_job` has returned true to the handler for the job. -/
def Enqueued (h : Handling cfg) (job : SubmissionJob) (payload : Bytes) : Prop :=
  ∃ authorization body username t₁ t₂ t₃,
    h.request = .submit authorization body ∧ h.task.trace = t₁ ++ t₂ ++ t₃ ∧
    (ApiServer.requireAuth authorization).Path t₁ (.pure (.ok username)) ∧
    ApiServer.acceptSubmission cfg h.env username body = .ok (.ok job) ∧
    submissionJobToJson cfg.format job = .ok payload ∧
    (enqueueJob cfg.format job).Path t₂ (.pure true)

theorem announce_of_enqueued {env : Surroundings} {authorization : Option Bytes} {body username : Bytes}
    {job : SubmissionJob} {t₁ t₂ t₃ : List (Wire × Answer)} {q : Talk Response}
    (h₁ : (ApiServer.requireAuth authorization).Path t₁ (.pure (.ok username)))
    (haccept : ApiServer.acceptSubmission cfg env username body = .ok (.ok job))
    (h₂ : (enqueueJob cfg.format job).Path t₂ (.pure true))
    (hpath : (ApiServer.postSubmit cfg env authorization body).Path (t₁ ++ t₂ ++ t₃) q) :
    (ApiServer.announceSubmission cfg job).Path t₃ q := by
  obtain ⟨m, hm, h₃⟩ := Prog.path_append_iff.mp hpath
  have hbegun : (ApiServer.postSubmit cfg env authorization body).Path (t₁ ++ t₂)
      (ApiServer.announceSubmission cfg job) := by
    refine h₁.bind ?_
    dsimp only
    rw [haccept]
    have := h₂.bind (f := fun ok => if ok = true then ApiServer.announceSubmission cfg job
      else Pure.pure (errorResponse 503 "queue unavailable")) (u := []) (Prog.path_nil.mpr rfl)
    rwa [List.append_nil] at this
  rwa [Prog.path_unique hm hbegun] at h₃

/-- **A job was pushed once, or twice after a lost reply.** -/
theorem copies_of_enqueued {as : List Action} (hrun : Reaches cfg as s) (hids : DistinctIds s)
    {r : Nat} {h : Handling cfg} (hr : s.requests r = some h) {job : SubmissionJob}
    {payload : Bytes} (henqueued : Enqueued h job payload) :
    (ledger s.log).pushed.count payload = 1 ∨
      ((ledger s.log).pushed.count payload = 2 ∧ ReplyLost r payload s.log) := by
  obtain ⟨authorization, body, username, t₁, t₂, t₃, hsubmit, ht, h₁, haccept, hpayload, h₂⟩ :=
    henqueued
  have hid := (ApiServer.acceptSubmission_ok haccept).1
  have hpath := h.path
  rw [hsubmit, ht] at hpath
  have h₃ := announce_of_enqueued h₁ haccept h₂ hpath
  rw [enqueueJob, hpayload] at h₂
  obtain ⟨reply, hok, h₂⟩ := succeeds_path_true h₂
  -- whoever pushes this payload has this id, so it is this handler
  have hown : ∀ e ∈ s.log, e.pushes? = some payload →
      ∃ now op executed answer, e = .wire (.handler r) now op executed answer := by
    intro e he hpush
    obtain ⟨r', h', job', now, executed, answer, rfl, hr', hid', hpayload'⟩ := pusher hrun he hpush
    obtain rfl : job' = job := Except.ok.inj
      ((jobFromJson_toJson hpayload').symm.trans (jobFromJson_toJson hpayload))
    obtain rfl := hids r' r h' h hr' hr (hid'.symm.trans hid)
    exact ⟨_, _, _, _, rfl⟩
  have htrace : (ownEvents (.handler r) s.log).map (fun x => (x.1, x.2.2)) = t₁ ++ t₂ ++ t₃ := by
    rw [ownEvents_trace, ← handler_trace hrun, ← ht]
    simp [Sys.trace, hr]
  obtain ⟨l, l₃, hl, hl₁₂, hl₃⟩ := List.map_eq_append_iff.mp htrace
  obtain ⟨l₁, l₂, rfl, hl₁, hl₂⟩ := List.map_eq_append_iff.mp hl₁₂
  rw [count_pushed hown, hl, List.countP_append, List.countP_append]
  have hzero₁ : l₁.countP (Pushed payload) = 0 := countP_pushed_eq_zero fun x hx =>
    ((requireAuth_notOn authorization).of_path h₁).1 _ (hl₁ ▸ List.mem_map_of_mem hx)
  have hzero₃ : l₃.countP (Pushed payload) = 0 := countP_pushed_eq_zero fun x hx =>
    ((announce_notOn job).of_path h₃).1 _ (hl₃ ▸ List.mem_map_of_mem hx)
  rw [hzero₁, hzero₃, Nat.zero_add, Nat.add_zero]
  have hmem : ∀ x ∈ l₂, x ∈ ownEvents (.handler r) s.log := fun x hx => by rw [hl]; simp [hx]
  rcases execCommand_path_some h₂ with rfl | rfl
  · obtain ⟨⟨op, executed, answer⟩, l', rfl, hx, hl'⟩ := List.map_eq_cons_iff.mp hl₂
    obtain rfl := List.map_eq_nil_iff.mp hl'
    cases hx
    have := pushed_of_reply hrun (hmem _ List.mem_cons_self) hok
    exact .inl (by simp [this])
  · obtain ⟨⟨op, executed, answer⟩, l', rfl, hx, hl'⟩ := List.map_eq_cons_iff.mp hl₂
    obtain ⟨⟨op', executed', answer'⟩, l'', rfl, hx', hl''⟩ := List.map_eq_cons_iff.mp hl'
    obtain ⟨⟨op'', executed'', answer''⟩, l''', rfl, hx'', hl'''⟩ := List.map_eq_cons_iff.mp hl''
    obtain rfl := List.map_eq_nil_iff.mp hl'''
    cases hx
    cases hx'
    cases hx''
    have hlast : Pushed payload (.command (.lpush queueKey payload), executed'', .reply reply) =
        true := pushed_of_reply hrun (hmem _ (by simp)) hok
    have hconnect : Pushed payload (.connect, executed', .connected true) = false := rfl
    by_cases hfirst :
        Pushed payload (.command (.lpush queueKey payload), executed, .failed .io) = true
    · refine .inr ⟨by simp only [List.countP_cons, hfirst, hconnect, hlast]; rfl, ?_⟩
      -- the first attempt was executed, and its reply lost
      obtain ⟨e, he, hown'⟩ := List.mem_filterMap.mp (hmem _ List.mem_cons_self)
      cases e with
      | wire who now op executed answer =>
        simp only [Event.own?] at hown'
        split at hown'
        · next hwho =>
          cases hown'
          subst hwho
          unfold Pushed at hfirst
          split at hfirst
          · next heq => cases heq; exact ⟨_, _, he⟩
          · cases hfirst
        · cases hown'
      | _ => cases hown'
    · rw [Bool.not_eq_true] at hfirst
      exact .inl (by simp only [List.countP_cons, hfirst, hconnect, hlast]; rfl)

theorem enqueued_of_202 {h : Handling cfg} {authorization : Option Bytes} {body : Bytes}
    (hsubmit : h.request = .submit authorization body) {response : Response}
    (hrest : h.task.rest = .pure response) (h202 : response.status = 202) :
    ∃ job payload, Enqueued h job payload := by
  have hpath := h.path
  rw [hsubmit, hrest] at hpath
  obtain ⟨t₁, t₂, t₃, username, job, payload, ht, h₁, haccept, hpayload, h₂, -⟩ :=
    ApiServer.postSubmit_path_202 hpath h202
  exact ⟨job, payload, authorization, body, username, t₁, t₂, t₃, hsubmit, ht, h₁, haccept,
    hpayload, h₂⟩

theorem Enqueued.job {h : Handling cfg} {job : SubmissionJob} {payload : Bytes}
    (henqueued : Enqueued h job payload) : job.submissionId = h.env.submissionId.text ∧
      submissionJobToJson cfg.format job = .ok payload := by
  obtain ⟨authorization, body, username, t₁, t₂, t₃, -, -, -, haccept, hpayload, -⟩ := henqueued
  exact ⟨(ApiServer.acceptSubmission_ok haccept).1, hpayload⟩

/-! ### Where the copies are -/

def Sys.queued (s : Sys cfg) : List Bytes :=
  match s.store.live s.now queueKey with
  | some (.list l) => l
  | _ => []

theorem queued_eq {as : List Action} (hrun : Reaches cfg as s) :
    s.queued = (ledger s.log).waiting.reverse := by
  rw [Sys.queued, (accounts hrun).live]
  by_cases hw : (ledger s.log).waiting = [] <;> simp [hw]

/-- At most one copy of the payload is in the queue or in workers' hands. -/
structure NeverTwice (s : Sys cfg) (payload : Bytes) : Prop where
  queued : s.queued.count payload ≤ 1
  hands : ∀ w w', (s.workers w).payload? = some payload →
    (s.workers w').payload? = some payload → w = w'
  apart : payload ∈ s.queued → ∀ w, (s.workers w).payload? ≠ some payload

theorem neverTwice_of_count {as : List Action} (hrun : Reaches cfg as s) {payload : Bytes}
    (hone : (ledger s.log).pushed.count payload ≤ 1) : NeverTwice s payload := by
  have haccounts := accounts hrun
  refine ⟨?_, fun w w' h h' => ?_, fun hmem w h => ?_⟩
  · rw [queued_eq hrun, List.count_reverse]
    exact Ledger.count_waiting_le hone
  · exact Ledger.holder_unique hone ((haccounts.holds w payload).mp h)
      ((haccounts.holds w' payload).mp h')
  · rw [queued_eq hrun, List.mem_reverse] at hmem
    exact Ledger.not_holds_of_waiting hone hmem ((haccounts.holds w payload).mp h)

/-- **What becomes of a job that was answered with 202**, whatever connections fail
and whichever workers crash.  It was pushed once and is never there twice, or it was
pushed twice, after the reply to the first `LPUSH` was lost and the command was sent
again.  And it waits in the queue, or a live worker holds it, or its result was sent,
or a copy of it was lost. -/
theorem delivery {as : List Action} (hrun : Reaches cfg as s) (hids : DistinctIds s) {r : Nat}
    {h : Handling cfg} (hr : s.requests r = some h) {authorization : Option Bytes} {body : Bytes}
    (hsubmit : h.request = .submit authorization body) {response : Response}
    (hrest : h.task.rest = .pure response) (h202 : response.status = 202) :
    ∃ job payload, job.submissionId = h.env.submissionId.text ∧
      submissionJobToJson cfg.format job = .ok payload ∧
      (((ledger s.log).pushed.count payload = 1 ∧ NeverTwice s payload) ∨
        ((ledger s.log).pushed.count payload = 2 ∧ ReplyLost r payload s.log)) ∧
      (payload ∈ s.queued ∨ (∃ w, (s.workers w).payload? = some payload) ∨
        ResultStored cfg job s.log ∨ ResultUnset cfg job payload s.log ∨ Loss payload s.log) := by
  obtain ⟨job, payload, henqueued⟩ := enqueued_of_202 hsubmit hrest h202
  obtain ⟨hid, hpayload⟩ := henqueued.job
  have hcount := copies_of_enqueued hrun hids hr henqueued
  refine ⟨job, payload, hid, hpayload, ?_, ?_⟩
  · exact hcount.imp_left fun hone => ⟨hone, neverTwice_of_count hrun hone.le⟩
  · have hmem : payload ∈ (ledger s.log).pushed := by
      rw [← List.count_pos_iff]
      omega
    obtain ⟨i, hi⟩ := List.getElem?_of_mem hmem
    cases hf : (ledger s.log).fates[i]? with
    | none =>
      -- not taken yet
      left
      rw [queued_eq hrun, List.mem_reverse]
      exact Ledger.mem_waiting hi hf
    | some f =>
      right
      cases f with
      | held w => exact .inl ⟨w, ((accounts hrun).holds w payload).mpr ⟨i, hf, hi⟩⟩
      | done w =>
        obtain ⟨job', hjob', hset⟩ := stored_or_unset hrun hf hi
        rw [jobFromJson_toJson hpayload] at hjob'
        cases hjob'
        rcases hset with hstored | hunset
        · exact .inr (.inl hstored)
        · exact .inr (.inr (.inl hunset))
      | lost => exact .inr (.inr (.inr (loss_of_lost hf hi)))

/-! ### A lost reply -/

/-- The reply to the `LPUSH` of a submission is lost, and it is sent again. -/
def pushedAgain : Script :=
  [(.command (.get (tokenKey (zeros 64).text)), .served),
    (.command (.lpush queueKey zeroPayload), .unanswered .io), (.connect, .served)] ++
  Script.served
    [.lpush queueKey zeroPayload,
      .set (statusKey (zeros 32).text) (cstr (verdictToString .pending)) (some 86400),
      .lpush (userSubsKey "ann") (zeros 32).text, .ltrim (userSubsKey "ann") 0 99, .llen queueKey]

theorem pushedAgain_trace :
    pushedAgain.trace 0 (signedUpStore textConfig annSurroundings "ann" "secret") .good =
      [(.command (.get (tokenKey (zeros 64).text)), .reply (.str "ann"))] ++
      [(.command (.lpush queueKey zeroPayload), .failed .io), (.connect, .connected true),
        (.command (.lpush queueKey zeroPayload), .reply (.int 2))] ++
      [(.command (.set (statusKey (zeros 32).text) (cstr (verdictToString .pending))
          (some 86400)), .reply (.status "OK")),
        (.command (.lpush (userSubsKey "ann") (zeros 32).text), .reply (.int 1)),
        (.command (.ltrim (userSubsKey "ann") 0 99), .reply (.status "OK")),
        (.command (.llen queueKey), .reply (.int 2))] := by
  rfl

theorem pushedAgain_run :
    ∃ as s h response, Reaches textConfig as s ∧ DistinctIds s ∧ s.requests 1 = some h ∧
      h.request = annSubmits ∧ h.task.rest = .pure response ∧ response.status = 202 ∧
      s.queued = [zeroPayload, zeroPayload] := by
  obtain ⟨h₀, henv₀, hsubmitting⟩ := ann_submits
  obtain ⟨response, h202, hannounce⟩ :=
    ApiServer.announceSubmission_path zeroJob_payload (n := 1) (k := 2)
  have hpath := Prog.path_append_iff.mpr ⟨_, Prog.path_append_iff.mpr
    ⟨_, annSubmits_path, ApiServer.enqueueSubmission_path_again zeroJob_payload (n := 2)⟩,
    hannounce⟩
  have hr : (submitting h₀).requests 1 =
      some (.begin textConfig 0 annSubmits zeroSurroundings) := by simp [submitting]
  obtain ⟨h₁, -, hrequest, henv₁, hrest, hrun⟩ :=
    handler_alone hr (q := .pure response) (pushedAgain_trace ▸ hpath)
  refine ⟨_, _, h₁, response, run_append_iff.mpr ⟨_, hsubmitting, hrun⟩, ?_, by simp,
    hrequest, hrest, h202, rfl⟩
  exact distinctIds_ann henv₀ henv₁ (Function.update_idem ..)

theorem delivery_pushedAgain :
    ∃ (s : Sys textConfig) (h : Handling textConfig) (job : SubmissionJob) (payload : Bytes),
      job.submissionId = h.env.submissionId.text ∧
      submissionJobToJson jsonText job = .ok payload ∧
      (((ledger s.log).pushed.count payload = 1 ∧ NeverTwice s payload) ∨
        ((ledger s.log).pushed.count payload = 2 ∧ ReplyLost 1 payload s.log)) ∧
      (payload ∈ s.queued ∨ (∃ w, (s.workers w).payload? = some payload) ∨
        ResultStored textConfig job s.log ∨ ResultUnset textConfig job payload s.log ∨
        Loss payload s.log) := by
  obtain ⟨as, s, h, response, hrun, hids, hr, hrequest, hrest, h202, -⟩ := pushedAgain_run
  exact ⟨s, h, delivery hrun hids hr hrequest hrest h202⟩

/-- **A job that was answered with 202 waits in the queue twice.** -/
theorem queued_twice :
    ∃ as s h response, Reaches textConfig as s ∧ DistinctIds s ∧ s.requests 1 = some h ∧
      h.request = annSubmits ∧ h.task.rest = .pure response ∧ response.status = 202 ∧
      submissionJobToJson jsonText zeroJob = .ok zeroPayload ∧
      s.queued = [zeroPayload, zeroPayload] ∧ ¬ NeverTwice s zeroPayload := by
  obtain ⟨as, s, h, response, hrun, hids, hr, hrequest, hrest, h202, hqueued⟩ := pushedAgain_run
  refine ⟨as, s, h, response, hrun, hids, hr, hrequest, hrest, h202, zeroJob_payload, hqueued,
    fun hnever => ?_⟩
  have hcount := hnever.queued
  rw [hqueued, List.count_cons_self, List.count_cons_self] at hcount
  omega

end Ocpe.System
