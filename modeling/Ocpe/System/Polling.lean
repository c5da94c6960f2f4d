import Ocpe.Api.Isolation
import Ocpe.System.Status
import Ocpe.System.Tokens

/-!
# A submitter that polls

`GET /submissions/:id` reads the result key and, where that holds nothing, the status key
in a second command, and the worker's writes can fall between the two.  In runs in which
Redis answers:

* `reads_of_answers`: what an answer says was read on the way, in one state or in two.
* `sorted_of_pends`: from the handler's `PENDING` on the status goes forward, and by the
  time of the 202 it has been written.
* `judged_of_reads`: a terminal verdict is that of the one result of the submission.
* `answers_stable`: of two answers, the later one says no earlier stage, and the same
  verdict if the first was terminal, until 24 hours after the result was stored; and later
  as well, unless `PENDING` was written after the result.

A status key that `PENDING` was written to last outlives the result: `answered_backwards`.
-/

namespace Ocpe

open Lib Redis Prog RedisClient AuthService

def Response.Says (cfg : Config) (response : Response) (v : Verdict) : Prop :=
  response.status = 200 ∧ ∃ j, cfg.format.parseText response.content = .ok j ∧
    j.find? "verdict" = some (.str (verdictToString v))

section Call

variable {cfg : Config} {t : List (Wire × Answer)} {id : Bytes}

theorem execCommand_path_replied {c : Cmd} {x : Option Reply}
    (h : (execCommand c).Path t (.pure x)) (ht : Replied t) :
    ∃ reply, t = [(.command c, .reply reply)] ∧ x = some reply := by
  rcases execCommand_path_pure h with ⟨a, -, rfl, hx⟩ | ⟨b, -, rfl, -⟩ | ⟨a, rfl, -⟩
  · obtain ⟨reply, hreply⟩ := ht _ List.mem_cons_self c rfl
    obtain rfl : a = .reply reply := hreply
    exact ⟨reply, rfl, hx⟩
  · obtain ⟨reply, hreply⟩ := ht _ List.mem_cons_self c rfl
    cases hreply
  · obtain ⟨reply, hreply⟩ := ht _ List.mem_cons_self c rfl
    cases hreply

theorem path_get_replied {α : Type} {key : Bytes} {f : Option Reply → Talk α} {x : α}
    (h : (execCommand (.get key) >>= f).Path t (.pure x)) (ht : Replied t) :
    ∃ reply rest, t = (.command (.get key), .reply reply) :: rest ∧
      (f (some reply)).Path rest (.pure x) := by
  obtain ⟨t₁, t₂, y, rfl, h₁, h₂⟩ := path_bind_pure_iff.mp h
  obtain ⟨reply, rfl, rfl⟩ := execCommand_path_replied h₁ fun z hz =>
    ht z (List.mem_append_left _ hz)
  exact ⟨reply, t₂, rfl, h₂⟩

theorem getResult_path_replied {F : JsonFormat} {x : Option SubmissionResult}
    (h : (getResult F id).Path t (.pure x)) (ht : Replied t) :
    ∃ reply, t = [(.command (.get (resultKey id)), .reply reply)] ∧
      (reply = .nil ∧ x = none ∨ reply ≠ .nil ∧ ∃ result,
        submissionResultFromJson F (replyStr reply) = .ok result ∧ x = some result) := by
  obtain ⟨reply, rest, rfl, h₂⟩ := path_get_replied h ht
  refine ⟨reply, ?_⟩
  split at h₂
  · next heq => cases heq
  · next heq =>
    cases heq
    obtain ⟨rfl, hx⟩ := path_pure.mp h₂
    cases hx
    exact ⟨rfl, .inl ⟨rfl, rfl⟩⟩
  · next reply' hnil heq =>
    cases heq
    obtain ⟨result, hread, h₂⟩ := path_json_bind h₂ (by simp)
    obtain ⟨rfl, hx⟩ := path_pure.mp h₂
    cases hx
    exact ⟨rfl, .inr ⟨hnil, result, hread, rfl⟩⟩

theorem getStatus_path_replied {x : Option Verdict}
    (h : (getStatus id).Path t (.pure x)) (ht : Replied t) :
    ∃ reply, t = [(.command (.get (statusKey id)), .reply reply)] ∧
      (reply = .nil ∧ x = none ∨ reply ≠ .nil ∧ x = some (verdictFromString (replyStr reply))) := by
  obtain ⟨reply, rest, rfl, h₂⟩ := path_get_replied h ht
  refine ⟨reply, ?_⟩
  split at h₂
  · next heq => cases heq
  · next heq =>
    cases heq
    obtain ⟨rfl, hx⟩ := path_pure.mp h₂
    cases hx
    exact ⟨rfl, .inl ⟨rfl, rfl⟩⟩
  · next reply' hnil heq =>
    cases heq
    obtain ⟨rfl, hx⟩ := path_pure.mp h₂
    cases hx
    exact ⟨rfl, .inr ⟨hnil, rfl⟩⟩

theorem says_of_dump {j : Json} {content : Bytes} {v w : Verdict} (hj : j.Plain)
    (hdump : cfg.format.dumpText j = .ok content)
    (hverdict : j.find? "verdict" = some (.str (verdictToString w)))
    (hsaid : Response.Says cfg ⟨200, content⟩ v) : v = w := by
  obtain ⟨-, j', hparse, hv⟩ := hsaid
  cases (cfg.format.parseText_dumpText hj hdump).symm.trans hparse
  rw [hverdict, Option.some.injEq, Json.str.injEq] at hv
  exact (verdictToString_injective hv).symm

theorem respond_verdict {status v : Verdict} {response : Response}
    (h : (ApiServer.respond cfg 200 (Json.null |>.set "submission_id" (.str id)
      |>.set "verdict" (.str (verdictToString status)))).Path t (.pure response))
    (hsaid : response.Says cfg v) : t = [] ∧ v = status := by
  obtain ⟨content, hdump, h⟩ := path_json_bind h (by simp)
  obtain ⟨rfl, hresponse⟩ := path_pure.mp h
  cases hresponse
  refine ⟨rfl, says_of_dump ?_ hdump (by simp +decide) hsaid⟩
  exact plain_set (plain_set plain_null plain_str) plain_str

theorem content_verdict {result : SubmissionResult} {v : Verdict} {response : Response}
    (h : (Talk.json (submissionResultToJson cfg.format result) >>= fun content =>
      Prog.pure { content } : Talk Response).Path t (.pure response))
    (hsaid : response.Says cfg v) : t = [] ∧ v = result.verdict := by
  obtain ⟨content, hdump, h⟩ := path_json_bind h (by simp)
  obtain ⟨rfl, hresponse⟩ := path_pure.mp h
  cases hresponse
  refine ⟨rfl, says_of_dump (plain_submissionResultJson result) hdump ?_ hsaid⟩
  simp +decide [submissionResultJson]

/-- **What an answer with a verdict has read**: a result, or no result and then a status. -/
theorem getSubmission_path_says {authorization : Option Bytes} {response : Response} {v : Verdict}
    (h : (ApiServer.getSubmission cfg authorization id).Path t (.pure response)) (ht : Replied t)
    (hsaid : response.Says cfg v) :
    ∃ t₁ reply rest, t = t₁ ++ (.command (.get (resultKey id)), .reply reply) :: rest ∧
      ((reply ≠ .nil ∧ ∃ result, submissionResultFromJson cfg.format (replyStr reply) = .ok result ∧
          v = result.verdict) ∨
        (reply = .nil ∧ ∃ reply', rest = [(.command (.get (statusKey id)), .reply reply')] ∧
          reply' ≠ .nil ∧ v = verdictFromString (replyStr reply'))) := by
  obtain ⟨t₁, t₂, r, rfl, h₁, h₂⟩ := path_bind_pure_iff.mp h
  refine ⟨t₁, ?_⟩
  cases r with
  | error response' =>
    cases (path_pure.mp h₂).2
    obtain ⟨h200, -⟩ := hsaid
    rw [ApiServer.requireAuth_error h₁] at h200
    cases h200
  | ok username =>
    obtain ⟨t₃, t₄, x, rfl, h₃, h₄⟩ := path_bind_pure_iff.mp h₂
    obtain ⟨reply, rfl, ⟨rfl, rfl⟩ | ⟨hreply, result, hresult, rfl⟩⟩ :=
      getResult_path_replied h₃ fun z hz => ht.right z (List.mem_append_left _ hz)
    · refine ⟨.nil, t₄, rfl, .inr ⟨rfl, ?_⟩⟩
      obtain ⟨t₅, t₆, y, rfl, h₅, h₆⟩ := path_bind_pure_iff.mp h₄
      obtain ⟨reply', rfl, ⟨rfl, rfl⟩ | ⟨hreply', rfl⟩⟩ :=
        getStatus_path_replied h₅ fun z hz => ht.right.right z (List.mem_append_left _ hz)
      · cases (path_pure.mp h₆).2
        cases hsaid.1
      · obtain ⟨rfl, hv⟩ := respond_verdict h₆ hsaid
        exact ⟨reply', rfl, hreply', hv⟩
    · exact ⟨reply, t₄, rfl, .inl ⟨hreply, result, hresult, (content_verdict h₄ hsaid).2⟩⟩

end Call

end Ocpe

namespace Ocpe.System

open Lib Redis Prog RedisClient AuthService WorkerPool

variable {cfg : Config} {s s' : Sys cfg}

/-! ### What a request reads on its way -/

def ServedRun (s s' : Sys cfg) : Prop :=
  ∃ as, (∀ a ∈ as, a.Served) ∧ Lib.run (step cfg) s as = some s'

theorem ServedRun.trans {s₁ s₂ s₃ : Sys cfg} (h : ServedRun s₁ s₂) (h' : ServedRun s₂ s₃) :
    ServedRun s₁ s₃ := by
  obtain ⟨as, has, hrun⟩ := h
  obtain ⟨bs, hbs, hrun'⟩ := h'
  refine ⟨as ++ bs, fun a ha => ?_, run_append_iff.mpr ⟨s₂, hrun, hrun'⟩⟩
  rcases List.mem_append.mp ha with ha | ha
  · exact has a ha
  · exact hbs a ha

theorem ServedRun.grows (h : ServedRun s s') : Grows s s' := by
  obtain ⟨as, -, hrun⟩ := h
  exact grows_run hrun

theorem ServedRun.distinctIds (h : ServedRun s s') (hids : DistinctIds s') : DistinctIds s := by
  obtain ⟨as, -, hrun⟩ := h
  exact hids.of_run hrun

theorem ServedRun.life (h : ServedRun {} s) (hids : DistinctIds s) : Life s := by
  obtain ⟨as, hserved, hrun⟩ := h
  exact life_of_run hrun hserved hids

theorem reply_of_served {who : Party} {c : Cmd} {reply : Reply}
    (h : s.answer who (.command c) .served = .reply reply) :
    reply = (exec s.now s.store c).2 := by
  unfold Sys.answer at h
  cases hctx : s.ctx (s.client who) with
  | null => rw [hctx] at h; cases h
  | broken e => rw [hctx] at h; cases h
  | good =>
    rw [hctx] at h
    exact (Answer.reply.inj h).symm

/-- **A look-up of a handler** was answered from the store of a state on the way. -/
theorem looked_up_between (hrun : ServedRun s s') {r : Nat} {u w : List (Wire × Answer)}
    {key : Bytes} {reply : Reply} (hstart : s.trace r <+: u)
    (htrace : s'.trace r = u ++ (.command (.get key), .reply reply) :: w) :
    ∃ m m', ServedRun s m ∧ ServedRun m m' ∧ ServedRun m' s' ∧
      m'.trace r = u ++ [(.command (.get key), .reply reply)] ∧ m'.now = m.now ∧
      reply = getReply (m.store.live m.now key) := by
  obtain ⟨as, hserved, hrun⟩ := hrun
  obtain ⟨as₁, net, as₂, m, rfl, hm, hanswer, hmtrace, hstep, hrest⟩ :=
    at_trace hrun hstart htrace
  obtain rfl : net = .served := hserved (.perform (.handler r) net) (by simp)
  refine ⟨m, _, ⟨as₁, fun a ha => hserved a (by simp [ha]), hm⟩,
    ⟨[.perform (.handler r) .served], fun a ha => ?_, run_cons_iff.mpr ⟨_, hstep, rfl⟩⟩,
    ⟨as₂, fun a ha => hserved a (by simp [ha]), hrest⟩, hmtrace, perform_now, ?_⟩
  · obtain rfl := List.mem_singleton.mp ha
    exact rfl
  · rw [reply_of_served hanswer, exec_get]

/-- A verdict that the keys of the submission give between `s` and `s'`: that of a result,
or, after there was no result, a status. -/
inductive Reads (s s' : Sys cfg) (id : Bytes) : Verdict → Prop
  | result {m : Sys cfg} {val : Value} {result : SubmissionResult} (hm : ServedRun s m)
      (hm' : ServedRun m s') (hval : m.store.live m.now (resultKey id) = some val)
      (hresult : submissionResultFromJson cfg.format val.text = .ok result) :
      Reads s s' id result.verdict
  | status {m m' : Sys cfg} {val : Value} (hm : ServedRun s m) (hmm' : ServedRun m m')
      (hm' : ServedRun m' s') (hnone : m.store.live m.now (resultKey id) = none)
      (hval : m'.store.live m'.now (statusKey id) = some val) :
      Reads s s' id (verdictFromString val.text)

def Answers (s : Sys cfg) (r : Nat) (id : Bytes) (v : Verdict) : Prop :=
  ∃ h authorization response, s.requests r = some h ∧ h.request = .submission authorization id ∧
    h.task.rest = .pure response ∧ response.Says cfg v

theorem live_of_getReply {v : Option Value} {reply : Reply} (h : reply = getReply v)
    (hnil : reply ≠ .nil) : ∃ val, v = some val ∧ replyStr reply = val.text := by
  cases v with
  | none => exact absurd h hnil
  | some val => exact ⟨val, rfl, by rw [h]; rfl⟩

theorem none_of_getReply {v : Option Value} (h : Reply.nil = getReply v) : v = none := by
  cases v with
  | none => rfl
  | some val => cases val <;> cases h

/-- **What an answer says was read on the way.** -/
theorem reads_of_answers {r : Nat} {id : Bytes} {v : Verdict} (hs : ServedRun {} s)
    (hnew : s.requests r = none) (hrun : ServedRun s s') (h : Answers s' r id v) :
    Reads s s' id v := by
  obtain ⟨h, authorization, response, hr, hrequest, hrest, hsaid⟩ := h
  have hpath := h.path
  rw [hrequest, hrest] at hpath
  have hreplied : Replied h.task.trace := by
    obtain ⟨as, hserved, hall⟩ := hs.trans hrun
    exact handler_replied hall hserved hr
  obtain ⟨t, reply, rest, htrace, hread⟩ := getSubmission_path_says hpath hreplied hsaid
  have hstart : s.trace r <+: t := by
    rw [Sys.trace, hnew]
    exact List.nil_prefix
  have hend : s'.trace r = t ++ (.command (.get (resultKey id)), .reply reply) :: rest := by
    rw [← htrace, Sys.trace, hr]
    rfl
  obtain ⟨m, m₁, hm, hmm₁, hm₁, htrace₁, -, hreply⟩ := looked_up_between hrun hstart hend
  rcases hread with ⟨hnil, result, hresult, rfl⟩ | ⟨rfl, reply', rfl, hnil', rfl⟩
  · obtain ⟨val, hval, htext⟩ := live_of_getReply hreply hnil
    exact .result hm (hmm₁.trans hm₁) hval (htext ▸ hresult)
  · have hstart' : m₁.trace r <+: t ++ [(.command (.get (resultKey id)), .reply .nil)] :=
      htrace₁ ▸ List.prefix_rfl
    have hend' : s'.trace r = (t ++ [(.command (.get (resultKey id)), .reply .nil)]) ++
        (.command (.get (statusKey id)), .reply reply') :: [] := by
      rw [hend, List.append_assoc]
      rfl
    obtain ⟨m', m₂, hm', hm'm₂, hm₂, -, -, hreply'⟩ :=
      looked_up_between hm₁ hstart' hend'
    obtain ⟨val, hval, htext⟩ := live_of_getReply hreply' hnil'
    rw [htext]
    exact .status hm (hmm₁.trans hm') (hm'm₂.trans hm₂) (none_of_getReply hreply) hval

/-! ### From `PENDING` on -/

section Pending

variable {id : Bytes} {pre post : List Event} {e₀ : Event} (hlog : s.log = pre ++ e₀ :: post)
  (he₀ : e₀.Pends id) (hrun : ServedRun {} s)

include hlog he₀ hrun

theorem sorted_of_pends (hids : DistinctIds s) (hid : NulFree id) : Forward id (e₀ :: post) := by
  obtain ⟨as, hserved, hreaches⟩ := hrun
  have hstatuses := ((life_of_run hreaches hserved hids).statuses hid).1
  rw [List.pairwise_filterMap, hlog, List.pairwise_append] at hstatuses
  rw [Forward, sets, List.pairwise_filterMap]
  apply pairwise_of_before
  intro before e' after hsplit e he x hx y hy
  have hmem : e ∈ s.log := by
    rw [hlog, hsplit]
    simp [he]
  have hmem' : e' ∈ s.log := by
    rw [hlog, hsplit]
    simp
  obtain ⟨-, -, ⟨-, hpending⟩ | hstatus⟩ := status_cases hreaches hmem hx
  · rw [hpending]
    exact Nat.zero_le _
  · obtain ⟨-, -, ⟨hpends, -⟩ | hstatus'⟩ := status_cases hreaches hmem' hy
    · -- the handler would write a second time
      exfalso
      cases before with
      | nil => cases he
      | cons a before =>
        obtain ⟨rfl, rfl⟩ := List.cons.inj hsplit
        have hlog' : s.log = (pre ++ e₀ :: before) ++ e' :: after := by
          rw [hlog, List.append_assoc]
          rfl
        exact pends_once hreaches hserved hids hlog' hpends (by simp) he₀
    · have hpair := hstatuses.2.1
      rw [hsplit, List.pairwise_append] at hpair
      exact hpair.2.2 e he e' List.mem_cons_self _ hstatus _ hstatus'

theorem last_status {val : Value} (hval : s.store.live s.now (statusKey id) = some val) :
    ∃ e x, e ∈ e₀ :: post ∧ e.set? (statusKey id) = some x ∧
      (sets (statusKey id) (e₀ :: post)).getLast? = some x ∧
      verdictFromString val.text = x.verdict ∧ s.now ≤ x.now + 86400 * 1000 := by
  obtain ⟨as, -, hreaches⟩ := hrun
  obtain ⟨y, hy, -⟩ := set_of_pends he₀
  obtain ⟨x, hlast⟩ : ∃ x, (sets (statusKey id) (e₀ :: post)).getLast? = some x := by
    have hcons : sets (statusKey id) (e₀ :: post) = y :: sets (statusKey id) post :=
      List.filterMap_cons_some hy
    rw [hcons]
    exact ⟨_, List.getLast?_eq_some_getLast (List.cons_ne_nil _ _)⟩
  obtain ⟨e, he, hx⟩ := List.mem_filterMap.mp (List.mem_of_getLast? hlast)
  refine ⟨e, x, he, hx, hlast, ?_⟩
  have hstore : s.store (statusKey id) = some x.entry := by
    rw [store_eq_lastSet (setOnly_statusKey id) hreaches, hlog, sets_append,
      List.getLast?_append, hlast]
    rfl
  have hmem : e ∈ s.log := by
    rw [hlog]
    exact List.mem_append_right _ he
  obtain ⟨hex, -⟩ := status_cases hreaches hmem hx
  rw [SetEvent.entry, hex] at hstore
  rw [Store.live_until hstore] at hval
  split at hval
  · next hnow =>
    cases hval
    exact ⟨rfl, hnow⟩
  · cases hval

end Pending

theorem rank_le_of_last {id : Bytes} {log l : List Event} {x y : SetEvent}
    (hforward : Forward id (log ++ l)) (hx : (sets (statusKey id) log).getLast? = some x)
    (hy : (sets (statusKey id) (log ++ l)).getLast? = some y) : x.verdict.rank ≤ y.verdict.rank := by
  rw [Forward, sets_append, List.pairwise_append] at hforward
  rw [sets_append, List.getLast?_append] at hy
  cases hl : (sets (statusKey id) l).getLast? with
  | none =>
    rw [hl, hx] at hy
    cases hy
    exact Nat.le_refl _
  | some z =>
    rw [hl] at hy
    cases hy
    exact hforward.2.2 x (List.mem_of_getLast? hx) y (List.mem_of_getLast? hl)

/-! ### The result -/

/-- A result of the submission was stored, and this is its verdict. -/
def Judged (s : Sys cfg) (id : Bytes) (v : Verdict) : Prop :=
  ∃ payload result, payload ∈ s.log.filterMap (Event.result? id) ∧
    submissionResultToJson cfg.format result = .ok payload ∧ result.verdict = v

theorem Judged.mono {id : Bytes} {v : Verdict} (h : Judged s id v) (hlog : s.log <+: s'.log) :
    Judged s' id v := by
  obtain ⟨payload, result, hmem, hjson, hv⟩ := h
  obtain ⟨l, hl⟩ := hlog
  refine ⟨payload, result, ?_, hjson, hv⟩
  rw [← hl, List.filterMap_append]
  exact List.mem_append_left _ hmem

theorem Judged.unique (hs : Life s) {id : Bytes} (hid : NulFree id) {v w : Verdict}
    (h : Judged s id v) (h' : Judged s id w) : v = w := by
  obtain ⟨payload, result, hmem, hjson, rfl⟩ := h
  obtain ⟨payload', result', hmem', hjson', rfl⟩ := h'
  obtain rfl := hs.result_unique hid hmem hmem'
  rw [Except.ok.inj ((resultFromJson_toJson hjson).symm.trans (resultFromJson_toJson hjson'))]

theorem Judged.terminal (hs : Life s) {id : Bytes} (hid : NulFree id) {v : Verdict}
    (h : Judged s id v) : v.Terminal := by
  obtain ⟨payload, result, hmem, hjson, rfl⟩ := h
  obtain ⟨job, m, result', -, heval, hjson', -⟩ := hs.of_result hid hmem
  have heq : result = result' :=
    Except.ok.inj ((resultFromJson_toJson hjson).symm.trans (resultFromJson_toJson hjson'))
  rw [heq]
  exact (evaluateSubmission_ok heval).2

section Run

variable (hrun : ServedRun {} s) (hids : DistinctIds s) {id : Bytes} (hid : NulFree id)

include hrun hids hid

theorem judged_of_live {val : Value} {result : SubmissionResult}
    (hval : s.store.live s.now (resultKey id) = some val)
    (hresult : submissionResultFromJson cfg.format val.text = .ok result) :
    Judged s id result.verdict := by
  have hlife := hrun.life hids
  obtain ⟨as, -, hreaches⟩ := hrun
  obtain ⟨⟨v, expire⟩, hentry, hv⟩ := Option.bind_eq_some_iff.mp hval
  obtain ⟨pre, e, post, x, hlog, hx, -, hheld⟩ :=
    last_of_held (setOnly_resultKey id) hreaches hentry
  have hmem : e ∈ s.log := by rw [hlog]; simp
  obtain ⟨-, hwritten⟩ := result_cases hreaches hmem hx
  have hmem' : x.value ∈ s.log.filterMap (Event.result? id) :=
    List.mem_filterMap.mpr ⟨e, hmem, hwritten⟩
  obtain ⟨job, m, result', -, -, hjson, -⟩ := hlife.of_result hid hmem'
  have htext : val.text = x.value := by
    cases hheld
    split at hv
    · cases hv
      rfl
    · cases hv
  rw [htext, resultFromJson_toJson hjson] at hresult
  cases hresult
  exact ⟨x.value, result, hmem', hjson, rfl⟩

theorem judged_of_status {e : Event} (he : e ∈ s.log) {v : Verdict}
    (hstatus : e.status? id = some v) (hv : v.Terminal) : Judged s id v := by
  have hlife := hrun.life hids
  have hmem : v ∈ s.log.filterMap (Event.status? id) := List.mem_filterMap.mpr ⟨e, he, hstatus⟩
  rw [filterMap_status?] at hmem
  obtain ⟨payload, hpayload⟩ : ∃ payload, payload ∈ s.log.filterMap (Event.result? id) := by
    rcases hlife.cases_of_id hid with hnil | ⟨i, job, f, m, q, -, rfl, -, hstage, -⟩
    · rw [hnil] at hmem
      cases hmem
    · rw [filterMap_result?]
      exact hstage.result_of_terminal hmem hv
  obtain ⟨job, m, result, -, -, hjson, hwrites⟩ := hlife.of_result hid hpayload
  refine ⟨payload, result, hpayload, hjson, ?_⟩
  have hcompiling : ¬ Verdict.compiling.Terminal := by decide
  have hrunning : ¬ Verdict.running.Terminal := by decide
  rcases hwrites with hwrites | hwrites <;> rw [hwrites] at hmem <;>
    simp only [List.filterMap_cons, statusOf?_statusWrite, statusOf?_resultWrite,
      List.filterMap_nil, List.mem_cons, List.not_mem_nil, or_false] at hmem
  · rcases hmem with rfl | rfl
    · exact absurd hv hcompiling
    · exact absurd hv hrunning
  · rcases hmem with rfl | rfl | rfl
    · exact absurd hv hcompiling
    · exact absurd hv hrunning
    · rfl

/-- **Behind the result comes only its verdict.** -/
theorem status_after_result {e f : Event} {payload : Bytes} {v : Verdict} {t t' : Nat}
    (he : e ∈ s.log) (hresult : e.result? id = some payload) (ht : e.time? = some t)
    (hf : f ∈ s.log) (hstatus : f.status? id = some v) (ht' : f.time? = some t') (hlt : t < t') :
    v.Terminal := by
  have hlife := hrun.life hids
  obtain ⟨as, -, hreaches⟩ := hrun
  obtain ⟨job, m, result, -, heval, -, hwrites⟩ :=
    hlife.of_result hid (List.mem_filterMap.mpr ⟨e, he, hresult⟩)
  obtain ⟨pre, post, hlog⟩ := List.append_of_mem he
  obtain ⟨op, hop, hpayload⟩ := Option.bind_eq_some_iff.mp hresult
  have hsplit : life id s.log = life id pre ++ op :: life id post := by
    have hcons : life id (e :: post) = op :: life id post := List.filterMap_cons_some hop
    rw [hlog, life_append, hcons]
  have hnot : ∀ w, op ≠ statusWrite id w := by
    rintro w rfl
    rw [resultOf?_statusWrite] at hpayload
    cases hpayload
  have hpost : ∀ op' ∈ life id post, op' = statusWrite id result.verdict := by
    rw [hsplit] at hwrites
    generalize life id pre = before at hwrites
    rcases hwrites with h | h
    · rcases before with - | ⟨a, - | ⟨b, - | ⟨c, before⟩⟩⟩
      · exact absurd (List.cons.inj h).1 (hnot _)
      · exact absurd (List.cons.inj (List.cons.inj h).2).1 (hnot _)
      · obtain ⟨-, hnil⟩ := List.cons.inj (List.cons.inj (List.cons.inj h).2).2
        simp [hnil]
      · simp at h
    · rcases before with - | ⟨a, - | ⟨b, - | ⟨c, - | ⟨d, before⟩⟩⟩⟩
      · exact absurd (List.cons.inj h).1 (hnot _)
      · exact absurd (List.cons.inj (List.cons.inj h).2).1 (hnot _)
      · obtain ⟨-, hone⟩ := List.cons.inj (List.cons.inj (List.cons.inj h).2).2
        simp [hone]
      · exact absurd (List.cons.inj (List.cons.inj (List.cons.inj (List.cons.inj h).2).2).2).1
          (hnot _)
      · simp at h
  rw [hlog, List.mem_append, List.mem_cons] at hf
  rcases hf with hf | rfl | hf
  · -- what is in front of the result is not later
    have := time_le hreaches hlog hf ht ht'
    omega
  · rw [ht] at ht'
    cases ht'
    omega
  · obtain ⟨op', hop', hv⟩ := Option.bind_eq_some_iff.mp hstatus
    rw [hpost op' (List.mem_filterMap.mpr ⟨f, hf, hop'⟩), statusOf?_statusWrite] at hv
    cases hv
    exact (evaluateSubmission_ok heval).2

end Run

/-- **A status that outlives the result** is its verdict, or a `PENDING` that was written
after it. -/
theorem status_of_expired (hrun : ServedRun {} s) (hafter : ServedRun s s')
    (hids : DistinctIds s') {id : Bytes} (hid : NulFree id) {payload : Bytes}
    (hpayload : payload ∈ s.log.filterMap (Event.result? id))
    (hnone : s.store.live s.now (resultKey id) = none) {e : Event} {x : SetEvent}
    (he : e ∈ s'.log) (hx : e.set? (statusKey id) = some x) (hlive : s'.now ≤ x.now + 86400 * 1000) :
    x.verdict.Terminal ∨ e.Pends id ∧ ∃ f ∈ s.log, ∃ t, f.result? id = some payload ∧
      f.time? = some t ∧ t + 86400 * 1000 < s.now ∧ t < x.now := by
  have hlife := hrun.life (hafter.distinctIds hids)
  have hend := hrun.trans hafter
  obtain ⟨as, hserved, hreaches⟩ := hrun
  obtain ⟨pre, f, post, t, hlog, ht, hf, hstore⟩ :=
    result_held hreaches hserved hlife hid hpayload
  have hmem : f ∈ s.log := by rw [hlog]; simp
  have hexpired : t + 86400 * 1000 < s.now := by
    rw [Store.live_until hstore] at hnone
    split at hnone
    · cases hnone
    · omega
  have hlate : t < x.now := by
    have := hafter.grows.now
    omega
  have hcases : e.Pends id ∨ e.status? id = some x.verdict := by
    obtain ⟨as', -, hreaches'⟩ := hend
    obtain ⟨-, -, ⟨hpends, -⟩ | hstatus⟩ := status_cases hreaches' he hx
    · exact .inl hpends
    · exact .inr hstatus
  rcases hcases with hpends | hstatus
  · exact .inr ⟨hpends, f, hmem, t, hf, ht, hexpired, hlate⟩
  · exact .inl (status_after_result hend hids hid (hafter.grows.log.subset hmem) hf ht he hstatus
      (Event.time?_of_set? hx) hlate)

/-! ### Two answers -/

def WithinDay (s : Sys cfg) (id : Bytes) : Prop :=
  ∀ e ∈ s.log, ∀ payload t, e.result? id = some payload → e.time? = some t →
    s.now ≤ t + 86400 * 1000

/-- The handler has not written `PENDING` later than the worker the result. -/
def PendingNotLate (s : Sys cfg) (id : Bytes) : Prop :=
  ∀ e ∈ s.log, ∀ e' ∈ s.log, ∀ payload t t', e.result? id = some payload → e.time? = some t →
    e'.Pends id → e'.time? = some t' → t' ≤ t

theorem status_read {s₁ s₂ : Sys cfg} {id : Bytes} (h₁ : ServedRun {} s₁) (h₂ : ServedRun s₁ s₂)
    (hpending : ∃ e ∈ s₁.log, e.Pends id) {val : Value}
    (hval : s₂.store.live s₂.now (statusKey id) = some val) :
    ∃ e x, e ∈ s₂.log ∧ e.set? (statusKey id) = some x ∧
      verdictFromString val.text = x.verdict ∧ s₂.now ≤ x.now + 86400 * 1000 := by
  obtain ⟨e₀, he₀, hpends⟩ := hpending
  obtain ⟨pre, post, hlog⟩ := List.append_of_mem (h₂.grows.log.subset he₀)
  obtain ⟨e, x, he, hx, -, hverdict, hlive⟩ := last_status hlog hpends (h₁.trans h₂) hval
  refine ⟨e, x, ?_, hx, hverdict, hlive⟩
  rw [hlog]
  exact List.mem_append_right _ he

section Reads

variable {s₁ s₂ s₃ : Sys cfg} (h₁ : ServedRun {} s₁) {id : Bytes}
  (hid : NulFree id) (hpending : ∃ e ∈ s₁.log, e.Pends id)

include h₁ hid hpending

/-- **Of two readings of the status** the later one is no earlier stage. -/
theorem rank_le_of_statuses (h₂ : ServedRun s₁ s₂) (h₃ : ServedRun s₂ s₃) (hids : DistinctIds s₃)
    {val val' : Value} (hval : s₂.store.live s₂.now (statusKey id) = some val)
    (hval' : s₃.store.live s₃.now (statusKey id) = some val') :
    (verdictFromString val.text).rank ≤ (verdictFromString val'.text).rank := by
  obtain ⟨e₀, he₀, hpends⟩ := hpending
  obtain ⟨pre, post, hlog⟩ := List.append_of_mem (h₂.grows.log.subset he₀)
  obtain ⟨l, hl⟩ := h₃.grows.log
  have hlog' : s₃.log = pre ++ e₀ :: (post ++ l) := by
    rw [← hl, hlog, List.append_assoc]
    rfl
  have hend := (h₁.trans h₂).trans h₃
  obtain ⟨-, x, -, -, hlast, hverdict, -⟩ := last_status hlog hpends (h₁.trans h₂) hval
  obtain ⟨-, y, -, -, hlast', hverdict', -⟩ := last_status hlog' hpends hend hval'
  have hsorted := sorted_of_pends hlog' hpends hend hids hid
  rw [hverdict, hverdict']
  rw [← List.cons_append] at hsorted hlast'
  exact rank_le_of_last hsorted hlast hlast'

theorem judged_of_reads (hids : DistinctIds s₂) {v : Verdict} (hread : Reads s₁ s₂ id v)
    (hv : v.Terminal) : Judged s₂ id v := by
  cases hread with
  | result hm hm' hval hresult =>
    have hjudged := judged_of_live (h₁.trans hm) (hm'.distinctIds hids) hid hval hresult
    exact hjudged.mono hm'.grows.log
  | status hm hmm' hm' hnone hval =>
    have hids' := hm'.distinctIds hids
    obtain ⟨e, x, he, hx, hverdict, -⟩ := status_read h₁ (hm.trans hmm') hpending hval
    have hend := (h₁.trans hm).trans hmm'
    rw [hverdict] at hv ⊢
    have hstatus : e.status? id = some x.verdict := by
      obtain ⟨as, -, hreaches⟩ := hend
      obtain ⟨-, -, ⟨-, hpend⟩ | hstatus⟩ := status_cases hreaches he hx
      · rw [hpend] at hv
        cases hv
      · exact hstatus
    exact (judged_of_status hend hids' hid he hstatus hv).mono hm'.grows.log

/-- **What is read later is no earlier stage**, as long as the result is there, or where
`PENDING` has not outlived it. -/
theorem rank_le_of_reads (h₂ : ServedRun s₁ s₂) (h₃ : ServedRun s₂ s₃) (hids : DistinctIds s₃)
    (htimely : WithinDay s₃ id ∨ PendingNotLate s₃ id) {v₁ v₂ : Verdict}
    (hread₁ : Reads s₁ s₂ id v₁) (hread₂ : Reads s₂ s₃ id v₂) : v₁.rank ≤ v₂.rank := by
  cases hread₂ with
  | result hm hm' hval hresult =>
    have hstart := (h₁.trans h₂).trans hm
    have hids' := hm'.distinctIds hids
    have hrank := (judged_of_live hstart hids' hid hval hresult).terminal (hstart.life hids') hid
    rw [hrank]
    exact v₁.rank_le
  | status hm hmm' hm' hnone hval =>
    have hids' := hm'.distinctIds hids
    cases hread₁ with
    | status hn hnn' hn' hnone' hval' =>
      exact rank_le_of_statuses h₁ hid hpending (hn.trans hnn') ((hn'.trans hm).trans hmm') hids'
        hval' hval
    | result hn hn' hval' hresult =>
      -- the result was there, and has expired at the second look
      have hjudged := judged_of_live (h₁.trans hn) ((hn'.trans h₃).distinctIds hids) hid hval'
        hresult
      obtain ⟨payload, -, hpayload, -⟩ := hjudged.mono (hn'.trans hm).grows.log
      obtain ⟨e, x, he, hx, hverdict, hlive⟩ :=
        status_read h₁ ((h₂.trans hm).trans hmm') hpending hval
      rw [hverdict]
      rcases status_of_expired ((h₁.trans h₂).trans hm) hmm' hids' hid hpayload hnone he hx hlive
        with hterminal | ⟨hpends, f, hf, t, hresult', ht, hexpired, hlate⟩
      · rw [hterminal]
        exact Verdict.rank_le _
      · exfalso
        have hf₃ := (hmm'.trans hm').grows.log.subset hf
        rcases htimely with hday | hnotlate
        · have hnow := (hmm'.trans hm').grows.now
          have := hday f hf₃ payload t hresult' ht
          omega
        · have := hnotlate f hf₃ e (hm'.grows.log.subset he) payload t x.now hresult' ht hpends
            (Event.time?_of_set? hx)
          omega

end Reads

/-! ### After the 202 -/

/-- **By the time of the 202 `PENDING` has been written.** -/
theorem pends_of_202 (hrun : ServedRun {} s) {r : Nat} {h : Handling cfg}
    (hr : s.requests r = some h) {authorization : Option Bytes} {body : Bytes}
    (hsubmit : h.request = .submit authorization body) {response : Response}
    (hrest : h.task.rest = .pure response) (h202 : response.status = 202) :
    ∃ e ∈ s.log, e.Pends h.env.submissionId.text := by
  obtain ⟨as, hserved, hreaches⟩ := hrun
  have hpath := h.path
  rw [hsubmit, hrest] at hpath
  obtain ⟨t₁, t₂, t₃, username, job, payload, htrace, -, haccept, -, -, hannounce⟩ :=
    ApiServer.postSubmit_path_202 hpath h202
  have hreplied := handler_replied hreaches hserved hr
  rw [htrace] at hreplied
  have hjob : job.submissionId = h.env.submissionId.text :=
    (ApiServer.acceptSubmission_ok haccept).1
  unfold ApiServer.announceSubmission setStatus at hannounce
  rcases path_succeeds_replied hannounce hreplied.right with ⟨-, hq⟩ | ⟨reply, t, rfl, -, -⟩
  · cases hq
  · have hmem : (statusWrite h.env.submissionId.text .pending, Answer.reply reply) ∈
        h.task.trace := by
      rw [htrace, ← hjob]
      simp
    obtain ⟨now, executed, he⟩ := (mem_trace_iff hreaches hr).mp hmem
    refine ⟨_, he, ?_⟩
    obtain ⟨reply', rfl, -⟩ := answered hreaches hserved _ he
    exact rfl

/-- **The verdicts that a submitter is answered** after the 202, in every run in which
Redis answers: until 24 hours after the result was stored, and later where `PENDING` was
not written after it, a later answer is no earlier stage, and what follows a terminal
verdict is that verdict. -/
theorem answers_stable {s₁ s₂ s₃ : Sys cfg} (h₁ : ServedRun {} s₁) (h₂ : ServedRun s₁ s₂)
    (h₃ : ServedRun s₂ s₃) (hids : DistinctIds s₃) {r₀ : Nat} {h : Handling cfg}
    (hr : s₁.requests r₀ = some h) {authorization : Option Bytes} {body : Bytes}
    (hsubmit : h.request = .submit authorization body) {response : Response}
    (hrest : h.task.rest = .pure response) (h202 : response.status = 202) {r₁ r₂ : Nat}
    {v₁ v₂ : Verdict} (hnew₁ : s₁.requests r₁ = none)
    (hanswer₁ : Answers s₂ r₁ h.env.submissionId.text v₁) (hnew₂ : s₂.requests r₂ = none)
    (hanswer₂ : Answers s₃ r₂ h.env.submissionId.text v₂)
    (htimely : WithinDay s₃ h.env.submissionId.text ∨ PendingNotLate s₃ h.env.submissionId.text) :
    v₁.rank ≤ v₂.rank ∧ (v₁.Terminal → v₂ = v₁) := by
  have hid := h.env.submissionId.nulFree
  have hpending := pends_of_202 h₁ hr hsubmit hrest h202
  have hpending₂ : ∃ e ∈ s₂.log, e.Pends h.env.submissionId.text := by
    obtain ⟨e, he, hpends⟩ := hpending
    exact ⟨e, h₂.grows.log.subset he, hpends⟩
  have hread₁ := reads_of_answers h₁ hnew₁ h₂ hanswer₁
  have hread₂ := reads_of_answers (h₁.trans h₂) hnew₂ h₃ hanswer₂
  have hrank := rank_le_of_reads h₁ hid hpending h₂ h₃ hids htimely hread₁ hread₂
  refine ⟨hrank, fun hterminal => ?_⟩
  have hterminal₂ : v₂.Terminal := by
    have hle := v₂.rank_le
    rw [hterminal] at hrank
    exact Nat.le_antisymm hle hrank
  have hjudged₁ := judged_of_reads h₁ hid hpending (h₃.distinctIds hids) hread₁ hterminal
  have hjudged₂ := judged_of_reads (h₁.trans h₂) hid hpending₂ hids hread₂ hterminal₂
  exact hjudged₂.unique (((h₁.trans h₂).trans h₃).life hids) hid (hjudged₁.mono h₃.grows.log)

/-! ### Ann asks -/

theorem answered_alone {r : Nat} {env : Surroundings} {header : Option Bytes} {u id : Bytes}
    {v : Verdict} (hnew : s.requests r = none) (hctx : s.ctx (.api 0) = .good)
    (hauth : AuthenticatedAs s.now s.store header u) (hid : ValidUtf8 id)
    (hknown : known cfg.format s.now s.store id = .ok (some v)) :
    ∃ s' h, ServedRun s s' ∧ s'.now = s.now ∧ s'.store = s.store ∧ s'.ctx = s.ctx ∧
      (∀ r', r' ≠ r → s'.requests r' = s.requests r') ∧ s'.requests r = some h ∧ h.env = env ∧
      Answers s' r id v := by
  let begun : Sys cfg :=
    { s with
      requests := Function.update s.requests r
        (some (.begin cfg 0 (.submission header id) env)) }
  have hstep : step cfg s (.request r 0 (.submission header id) env) = some begun :=
    if_pos (by rw [hnew]; rfl)
  have hr : begun.requests r = some (.begin cfg 0 (.submission header id) env) :=
    Function.update_self ..
  obtain ⟨n, s', h, hrun, hstore, hnow, hctx', hothers, hr', hrequest, henv, hend⟩ :=
    handler_direct hr hctx
  have hdirect := @getSubmission_direct cfg s.now s.store header u id hauth
  rw [hknown] at hdirect
  obtain ⟨j, hplain, hutf8, hverdict, hdirect⟩ := hdirect
  obtain ⟨content, hdump⟩ := cfg.format.exists_dumpText (hutf8 hid)
  rw [hdump] at hdirect
  change s'.store = (Talk.direct s.now s.store (ApiServer.getSubmission cfg header id)).1 at hstore
  change (∃ response, (Talk.direct s.now s.store (ApiServer.getSubmission cfg header id)).2 =
    .ok response ∧ _) ∨ ∃ e, (Talk.direct s.now s.store (ApiServer.getSubmission cfg header id)).2 =
    .error e ∧ _ at hend
  rw [hdirect] at hstore hend
  refine ⟨s', h, ?_, hnow, hstore, hctx', fun r' hne => ?_, hr', henv, ?_⟩
  · refine ⟨_ :: List.replicate n (.perform (.handler r) .served), fun a ha => ?_,
      run_cons_iff.mpr ⟨begun, hstep, hrun⟩⟩
    rcases List.mem_cons.mp ha with rfl | ha
    · trivial
    · rw [List.eq_of_mem_replicate ha]
      exact rfl
  · exact (hothers r' hne).trans (Function.update_of_ne hne ..)
  · rcases hend with ⟨response, hresponse, hrest⟩ | ⟨e, he, -⟩
    · cases hresponse
      refine ⟨h, header, _, hr', hrequest, hrest, rfl, j, ?_, hverdict⟩
      exact cfg.format.parseText_dumpText hplain hdump
    · cases he

theorem DistinctIds.of_new {r : Nat} {k : Handling cfg} (hids : DistinctIds s)
    (hothers : ∀ r', r' ≠ r → s'.requests r' = s.requests r') (hr : s'.requests r = some k)
    (hfresh : ∀ r' h, s.requests r' = some h →
      h.env.submissionId.text ≠ k.env.submissionId.text) : DistinctIds s' := by
  intro r₁ r₂ k₁ k₂ hr₁ hr₂ heq
  by_cases h₁ : r₁ = r <;> by_cases h₂ : r₂ = r
  · rw [h₁, h₂]
  · subst h₁
    rw [hothers r₂ h₂] at hr₂
    cases hr.symm.trans hr₁
    exact absurd heq.symm (hfresh r₂ k₂ hr₂)
  · subst h₂
    rw [hothers r₁ h₁] at hr₁
    cases hr.symm.trans hr₂
    exact absurd heq (hfresh r₁ k₁ hr₁)
  · rw [hothers r₁ h₁] at hr₁
    rw [hothers r₂ h₂] at hr₂
    exact hids r₁ r₂ k₁ k₂ hr₁ hr₂ heq

def askSurroundings (c : UInt8) (hc : c ∈ bytes "0123456789abcdef") : Surroundings :=
  { zeroSurroundings with submissionId := .replicate 32 c hc }

theorem ann_asks_twice {s : Sys textConfig} {h₀ h₁ : Handling textConfig}
    (henv₀ : h₀.env = annSurroundings) (henv₁ : h₁.env = zeroSurroundings)
    (hrequests : s.requests =
      Function.update (Function.update (fun _ => none) 0 (some h₀)) 1 (some h₁))
    (hctx : s.ctx (.api 0) = .good)
    (htoken : s.store (tokenKey (zeros 64).text) = some ⟨.str "ann", some (tokenTtlSec * 1000)⟩)
    {ms : Nat} (hnow : s.now + ms ≤ tokenTtlSec * 1000) {v₁ v₂ : Verdict}
    (hknown₁ : known textConfig.format s.now s.store (zeros 32).text = .ok (some v₁))
    (hknown₂ : known textConfig.format (s.now + ms) s.store (zeros 32).text = .ok (some v₂)) :
    ∃ s₂ s₃, ServedRun s s₂ ∧ ServedRun s₂ s₃ ∧ DistinctIds s₃ ∧ s.requests 2 = none ∧
      Answers s₂ 2 (zeros 32).text v₁ ∧ s₂.requests 3 = none ∧ Answers s₃ 3 (zeros 32).text v₂ ∧
      s₃.now = s.now + ms := by
  have henv : ∀ r h, s.requests r = some h →
      h.env.submissionId.text = (zeros 32).text ∨
        h.env.submissionId.text = annSurroundings.submissionId.text := by
    intro r h hr
    rw [hrequests] at hr
    by_cases h1 : r = 1
    · subst h1
      rw [Function.update_self] at hr
      cases hr
      exact .inl (by rw [henv₁]; rfl)
    · rw [Function.update_of_ne h1] at hr
      by_cases h0 : r = 0
      · subst h0
        rw [Function.update_self] at hr
        cases hr
        exact .inr (by rw [henv₀])
      · rw [Function.update_of_ne h0] at hr
        cases hr
  have hnew : s.requests 2 = none := by rw [hrequests]; rfl
  have hnew' : s.requests 3 = none := by rw [hrequests]; rfl
  obtain ⟨m, k, hrun, hmnow, hmstore, hmctx, hothers, hk, hkenv, hanswers⟩ :=
    @answered_alone _ s 2 (askSurroundings 50 (by decide)) _ _ _ _ hnew hctx
      (annHeader_auth htoken (by omega)) (zeros 32).validUtf8 hknown₁
  have hids : DistinctIds m := by
    refine (distinctIds_ann henv₀ henv₁ hrequests).of_new hothers hk fun r h hr => ?_
    rw [hkenv]
    rcases henv r h hr with hid | hid <;> rw [hid] <;> decide
  let later : Sys textConfig := { m with now := m.now + ms }
  have htick : ServedRun m later := by
    refine ⟨[.tick ms], fun a ha => ?_, rfl⟩
    obtain rfl := List.mem_singleton.mp ha
    trivial
  have hlater : later.now = s.now + ms := by
    show m.now + ms = s.now + ms
    rw [hmnow]
  have hlaterStore : later.store = s.store := hmstore
  obtain ⟨s₃, k', hrun', hnow₃, -, -, hothers', hk', hkenv', hanswers'⟩ :=
    @answered_alone _ later 3 (askSurroundings 51 (by decide)) annHeader "ann" (zeros 32).text v₂
      ((hothers 3 (by decide)).trans hnew') ((congrFun hmctx _).trans hctx)
      (by rw [hlater, hlaterStore]; exact annHeader_auth htoken hnow) (zeros 32).validUtf8
      (by rw [hlater, hlaterStore]; exact hknown₂)
  refine ⟨later, s₃, hrun.trans htick, hrun', ?_, hnew, hanswers, (hothers 3 (by decide)).trans hnew',
    hanswers', hnow₃.trans hlater⟩
  have hids' : DistinctIds later := hids
  refine hids'.of_new hothers' hk' fun r h hr => ?_
  rw [hkenv']
  by_cases h2 : r = 2
  · subst h2
    cases hk.symm.trans hr
    rw [hkenv]
    decide
  · rcases henv r h ((hothers r h2).symm.trans hr) with hid | hid <;> rw [hid] <;> decide

theorem known_oneResult {store : Store} {now t : Nat}
    (hstore : store (resultKey (zeros 32).text) = some ⟨.str oneStored, some t⟩) (hnow : now ≤ t) :
    known textConfig.format now store (zeros 32).text = .ok (some .accepted) := by
  have hread : submissionResultFromJson textConfig.format oneStored = .ok oneResult :=
    resultFromJson_toJson oneResult_stored
  have hlive : store.live now (resultKey (zeros 32).text) = some (.str oneStored) := by
    rw [Store.live_until hstore, if_pos hnow]
  rw [known, hlive]
  show ((submissionResultFromJson textConfig.format oneStored).map fun result =>
    some result.verdict).mapError Exn.json = _
  rw [hread]
  rfl

/-- **Ann's submission is judged, and a millisecond later `PENDING` written.**  She is
answered `ACCEPTED`, and a day later `PENDING`. -/
theorem answered_backwards :
    ∃ (s₁ s₂ s₃ : Sys textConfig) (h : Handling textConfig) (response : Response),
      ServedRun {} s₁ ∧ ServedRun s₁ s₂ ∧ ServedRun s₂ s₃ ∧ DistinctIds s₃ ∧
      s₁.requests 1 = some h ∧ h.request = annSubmits ∧ h.env.submissionId = zeros 32 ∧
      h.task.rest = .pure response ∧ response.status = 202 ∧ s₁.requests 2 = none ∧
      Answers s₂ 2 (zeros 32).text .accepted ∧ s₂.requests 3 = none ∧
      Answers s₃ 3 (zeros 32).text .pending := by
  obtain ⟨h₀, h₁, response, henv₀, henv₁, hrequest, hrest, h202, hrun⟩ := ann_overtaken 1
  have hresult : (overtaken h₀ h₁ 1).store (resultKey (zeros 32).text) =
      some ⟨.str oneStored, some (0 + 86400 * 1000)⟩ := rfl
  have hstatus : (overtaken h₀ h₁ 1).store (statusKey (zeros 32).text) =
      some ⟨.str "PENDING", some (1 + 86400 * 1000)⟩ := rfl
  have hday : (overtaken h₀ h₁ 1).now ≤ 0 + 86400 * 1000 := by
    show 1 ≤ 0 + 86400 * 1000
    omega
  have hweek : (overtaken h₀ h₁ 1).now + 86400 * 1000 ≤ tokenTtlSec * 1000 := by
    show 1 + 86400 * 1000 ≤ tokenTtlSec * 1000
    decide
  have hpending : known textConfig.format (1 + 86400 * 1000) (overtaken h₀ h₁ 1).store
      (zeros 32).text = .ok (some .pending) := by
    have hgone : (overtaken h₀ h₁ 1).store.live (1 + 86400 * 1000) (resultKey (zeros 32).text) =
        none := by
      rw [Store.live_until hresult, if_neg (by omega)]
    have hlive : (overtaken h₀ h₁ 1).store.live (1 + 86400 * 1000) (statusKey (zeros 32).text) =
        some (.str "PENDING") := by
      rw [Store.live_until hstatus, if_pos (Nat.le_refl _)]
    rw [known, hgone, hlive]
    rfl
  obtain ⟨s₂, s₃, h₂, h₃, hids, hnew₁, hanswer₁, hnew₂, hanswer₂, -⟩ :=
    ann_asks_twice henv₀ henv₁ rfl rfl rfl hweek (known_oneResult hresult hday) hpending
  refine ⟨_, s₂, s₃, h₁, response, ⟨_, fun a ha => ?_, hrun⟩, h₂, h₃, hids, rfl, hrequest,
    by rw [henv₁]; rfl, hrest, h202, hnew₁, hanswer₁, hnew₂, hanswer₂⟩
  exact (faultFree_overtaking 1 a ha).served

/-- Her submission is judged after the 202. -/
theorem answers_stable_inOrder :
    ∃ s₂ s₃ : Sys textConfig, Answers s₂ 2 (zeros 32).text .accepted ∧ ServedRun s₂ s₃ ∧
      ∃ v, Answers s₃ 3 (zeros 32).text v ∧ Verdict.rank .accepted ≤ v.rank ∧ v = .accepted := by
  obtain ⟨h₀, h₁, response, henv₀, henv₁, hrequest, hrest, h202, hrun⟩ := ann_in_order
  have hresult : (workerServed textConfig (announced h₀ h₁) 0 zeroJob oneResult oneStored).store
      (resultKey (zeros 32).text) = some ⟨.str oneStored, some (0 + 86400 * 1000)⟩ := rfl
  have hknown := known_oneResult hresult (Nat.zero_le _)
  have hzero : (workerServed textConfig (announced h₀ h₁) 0 zeroJob oneResult oneStored).now + 0 ≤
      tokenTtlSec * 1000 := Nat.zero_le _
  obtain ⟨s₂, s₃, h₂, h₃, hids, hnew₁, hanswer₁, hnew₂, hanswer₂, hnow⟩ :=
    ann_asks_twice henv₀ henv₁ rfl rfl rfl hzero hknown hknown
  have hid : h₁.env.submissionId.text = (zeros 32).text := by rw [henv₁]; rfl
  have hstart : ServedRun {} (workerServed textConfig (announced h₀ h₁) 0 zeroJob oneResult
      oneStored) := ⟨_, fun a ha => (faultFree_inOrder a ha).served, hrun⟩
  have hr : (workerServed textConfig (announced h₀ h₁) 0 zeroJob oneResult oneStored).requests 1 =
      some h₁ := rfl
  refine ⟨s₂, s₃, hanswer₁, h₃, .accepted, hanswer₂, ?_⟩
  have hstable := answers_stable hstart h₂ h₃ hids hr hrequest hrest h202 hnew₁
    (hid ▸ hanswer₁) hnew₂ (hid ▸ hanswer₂) (.inl fun e _ payload t _ _ => ?_)
  · exact ⟨hstable.1, hstable.2 rfl⟩
  · rw [show s₃.now = 0 from hnow]
    exact Nat.zero_le _

end Ocpe.System
