import Ocpe.System.Polling
import Ocpe.System.Progress
import Ocpe.System.Turns

/-!
# The queue position

What `POST /submit` answers as `queue_position` is the length of the list some time after
the job was pushed.  Other handlers push and workers pop in between, and afterwards.

* `answer_position`: where the number comes from.
* `line_le`: when it was read, the job's line in the ledger was within it.
* `queue_position`: so fewer jobs than the number are ever ahead of it again, and the job
  is out of the queue when any one worker has made seven steps for each.
-/

namespace Ocpe

open Lib Redis RedisClient ApiServer

/-- What an accepted submission is answered with. -/
def acceptedJson (job : SubmissionJob) (queuePosition : Int) : Json :=
  Json.null
    |>.set "submission_id" (.str job.submissionId)
    |>.set "status" (.str "PENDING")
    |>.set "language" (.str job.language)
    |>.set "queue_position" (.int queuePosition)

/-- What `queue_length` makes of the reply to `LLEN`. -/
def positionOf : Reply → Int
  | .int n => n
  | _ => -1

namespace System

variable {cfg : Config} {s s' : Sys cfg} {as : List Action}

theorem queueLength_replied {t : List (Wire × Answer)} {k : Int}
    (h : queueLength.Path t (.pure k)) (ht : Replied t) :
    ∃ reply, t = [(.command (.llen queueKey), .reply reply)] ∧ k = positionOf reply := by
  rcases path_execCommand_replied h ht with ⟨-, heq⟩ | ⟨reply, t', rfl, h, -⟩
  · cases heq
  · refine ⟨reply, ?_⟩
    cases reply with
    | int n => obtain ⟨rfl, heq⟩ := Prog.path_pure.mp h; cases heq; exact ⟨rfl, rfl⟩
    | _ => obtain ⟨rfl, heq⟩ := Prog.path_pure.mp h; cases heq; exact ⟨rfl, rfl⟩

/-- **The position that is answered** is the reply to an `LLEN`, the last command of the
handler. -/
theorem answer_position {job : SubmissionJob} {t : List (Wire × Answer)} {response : Response}
    (h : (announceSubmission cfg job).Path t (.pure response)) (ht : Replied t) :
    ∃ t' reply, t = t' ++ [(.command (.llen queueKey), .reply reply)] ∧
      cfg.format.dumpText (acceptedJson job (positionOf reply)) = .ok response.content := by
  obtain ⟨t₁, u₁, ok, rfl, -, h⟩ := Prog.path_bind_pure_iff.mp h
  obtain ⟨t₂, u₂, recorded, rfl, -, h⟩ := Prog.path_bind_pure_iff.mp h
  obtain ⟨t₃, u₃, k, rfl, hlength, h⟩ := Prog.path_bind_pure_iff.mp h
  have ht₃ : Replied t₃ := fun x hx => ht x (by simp [hx])
  obtain ⟨reply, rfl, rfl⟩ := queueLength_replied hlength ht₃
  obtain ⟨content, hcontent, h⟩ := path_json_bind h (fun e heq => by cases heq)
  obtain ⟨rfl, heq⟩ := Prog.path_pure.mp h
  cases heq
  exact ⟨t₁ ++ t₂, reply, by simp, hcontent⟩

theorem account_llen (L : Ledger Bytes Nat) {who : Party} {now : Nat} {key : Bytes}
    {executed : Option Reply} {answer : Answer} :
    account L (.wire who now (.command (.llen key)) executed answer) = L := by
  cases who <;> rfl

theorem llen_queue (hrun : Reaches cfg as s) (now : Nat) :
    (exec now s.store (.llen queueKey)).2 = .int (ledger s.log).waiting.length := by
  simp only [exec, (accounts hrun).live]
  by_cases hw : (ledger s.log).waiting = []
  · simp [hw]
  · simp [hw]

/-- **The line of the job is within the position**: there was a state in which the position was
the number of jobs in the queue, and the job had been pushed. -/
theorem line_le (hrun : Reaches cfg as s) (hserved : ∀ a ∈ as, a.Served) (hids : DistinctIds s)
    {r : Nat} {h : Handling cfg} (hr : s.requests r = some h) {authorization : Option Bytes}
    {body : Bytes} (hsubmit : h.request = .submit authorization body) {response : Response}
    (hrest : h.task.rest = .pure response) (h202 : response.status = 202) :
    ∃ job payload k i, Enqueued h job payload ∧
      cfg.format.dumpText (acceptedJson job (k : Nat)) = .ok response.content ∧
      (ledger s.log).pushed[i]? = some payload ∧ i < (ledger s.log).fates.length + k := by
  have hpath := h.path
  rw [hsubmit, hrest] at hpath
  obtain ⟨t₁, t₂, t₃, username, job, payload, ht, h₁, haccept, hpayload, h₂, h₃⟩ :=
    postSubmit_path_202 hpath h202
  have hreplied := handler_replied hrun hserved hr
  obtain ⟨t', reply, rfl, hcontent⟩ := answer_position h₃ fun x hx => hreplied x (by simp [ht, hx])
  have htrace : s.trace r = (t₁ ++ t₂ ++ t') ++ [(.command (.llen queueKey), .reply reply)] := by
    simp [Sys.trace, hr, ht]
  obtain ⟨as₁, net, as₂, m, rfl, hm, hanswer, htrace', hstep, hrest'⟩ :=
    at_trace hrun (u := t₁ ++ t₂ ++ t') (w := []) List.nil_prefix htrace
  have hserved' : ∀ a ∈ as₁, a.Served := fun a ha => hserved a (List.mem_append_left _ ha)
  obtain rfl : net = .served := hserved (.perform (.handler r) net) (by simp)
  obtain rfl : reply = .int (ledger m.log).waiting.length := by
    rw [reply_of_served hanswer, llen_queue hm]
  have hreaches : Reaches cfg (as₁ ++ [.perform (.handler r) .served])
      (m.perform (.handler r) (.command (.llen queueKey)) .served) :=
    run_concat_iff.mpr ⟨m, hm, hstep⟩
  have hledger : ledger (m.perform (.handler r) (.command (.llen queueKey)) .served).log =
      ledger m.log := by
    rw [perform_log, ledger_concat, Sys.event, account_llen]
  generalize m.perform (.handler r) (.command (.llen queueKey)) .served = m' at *
  -- the handler had enqueued the job by then
  obtain ⟨h', hr'⟩ : ∃ h', m'.requests r = some h' := by
    cases hnone : m'.requests r with
    | some h' => exact ⟨h', rfl⟩
    | none => simp [Sys.trace, hnone] at htrace'
  obtain ⟨h'', hr'', hcontinues⟩ := (grows_run hrest').requests r h' hr'
  obtain rfl : h = h'' := Option.some.inj (hr.symm.trans hr'')
  have henqueued' : Enqueued h' job payload := by
    refine ⟨authorization, body, username, t₁, t₂,
      t' ++ [(.command (.llen queueKey), .reply (.int (ledger m.log).waiting.length))],
      hcontinues.request ▸ hsubmit, ?_, h₁, hcontinues.env ▸ haccept, hpayload, h₂⟩
    rw [Sys.trace, hr'] at htrace'
    rw [← List.append_assoc, ← htrace']
    rfl
  have hserved₁ : ∀ a ∈ as₁ ++ [.perform (.handler r) .served], a.Served := by
    intro a ha
    rcases List.mem_append.mp ha with ha | ha
    · exact hserved' a ha
    · rw [List.mem_singleton.mp ha]
      rfl
  have hcount := pushed_once hreaches hserved₁ (hids.of_run hrest') hr' henqueued'
  obtain ⟨i, hi⟩ := List.getElem?_of_mem (List.count_pos_iff.mp (by rw [hcount]; exact Nat.one_pos))
  have hlt := (List.getElem?_eq_some_iff.mp hi).1
  have hmono := length_fates_mono hreaches hrest'
  rw [hledger] at hlt hmono
  refine ⟨job, payload, _, i, ⟨authorization, body, username, t₁, t₂, _, hsubmit, ht, h₁, haccept,
    hpayload, h₂⟩, hcontent, pushed_later hrest' hi, ?_⟩
  rw [Ledger.waiting, List.length_drop]
  omega

theorem Enqueued.later {h h' : Handling cfg} {job : SubmissionJob} {payload : Bytes}
    (henqueued : Enqueued h job payload) (hcontinues : h.Continues h') : Enqueued h' job payload := by
  obtain ⟨authorization, body, username, t₁, t₂, t₃, hsubmit, ht, h₁, haccept, hpayload, h₂⟩ :=
    henqueued
  obtain ⟨rest, hrest⟩ := hcontinues.trace
  refine ⟨authorization, body, username, t₁, t₂, t₃ ++ rest, hcontinues.request.trans hsubmit, ?_,
    h₁, hcontinues.env ▸ haccept, hpayload, h₂⟩
  rw [← hrest, ht, List.append_assoc]

/-- **The queue position is never too low.**  In a run without faults, a submission is answered
with a number `k`; whenever its job still waits, fewer than `k` jobs are ahead of it; and when
any one worker has made `7 * k` steps more, it does not wait. -/
theorem queue_position (hrun : Reaches cfg as s) (hfree : ∀ a ∈ as, a.FaultFree)
    (hids : DistinctIds s) {r : Nat} {h : Handling cfg} (hr : s.requests r = some h)
    {authorization : Option Bytes} {body : Bytes} (hsubmit : h.request = .submit authorization body)
    {response : Response} (hrest : h.task.rest = .pure response) (h202 : response.status = 202) :
    ∃ job payload k, Enqueued h job payload ∧
      cfg.format.dumpText (acceptedJson job (k : Nat)) = .ok response.content ∧
      (∀ behind ahead, s.queued = behind ++ payload :: ahead → ahead.length < k) ∧
      ∀ bs s' w, Lib.run (step cfg) s bs = some s' → (∀ a ∈ bs, a.FaultFree) → DistinctIds s' →
        7 * k ≤ stepsOf w bs → payload ∉ s'.queued := by
  have hserved : ∀ a ∈ as, a.Served := fun a ha => (hfree a ha).served
  obtain ⟨job, payload, k, i, henqueued, hcontent, hi, hlt⟩ :=
    line_le hrun hserved hids hr hsubmit hrest h202
  refine ⟨job, payload, k, henqueued, hcontent, ?_, ?_⟩
  · intro behind ahead hqueue
    have hcount := pushed_once hrun hserved hids hr henqueued
    have hline := Ledger.index_unique hcount.le hi (line_of_queued hrun hqueue)
    omega
  · intro bs s' w hbs hfree' hids' hsteps hmem
    have hrun' : Reaches cfg (as ++ bs) s' := run_append_iff.mpr ⟨s, hrun, hbs⟩
    have hall : ∀ a ∈ as ++ bs, a.FaultFree := by
      intro a ha
      rcases List.mem_append.mp ha with ha | ha
      · exact hfree a ha
      · exact hfree' a ha
    obtain ⟨h', hr', hcontinues⟩ := (grows_run hbs).requests r h hr
    have hcount := pushed_once hrun' (fun a ha => (hall a ha).served) hids' hr'
      (henqueued.later hcontinues)
    obtain ⟨behind, ahead, hqueue⟩ := List.append_of_mem hmem
    have hline := Ledger.index_unique hcount.le (pushed_later hbs hi) (line_of_queued hrun' hqueue)
    have htaken := taken_of_steps hrun hbs hall (List.getElem?_eq_some_iff.mp hi).1 hlt hsteps
    omega

/-- **The queue position is never too low**, in every run in which the handlers of an `ApiServer`
take turns on its connection. -/
theorem queue_position_in_turn {as : List Turns.Action} {s : Turns.Wired cfg}
    (hrun : Turns.Reaches cfg as s) (hturns : AllSteps (Turns.step cfg) Turns.Turn {} as)
    (hfree : ∀ a ∈ Turns.atomic as, a.FaultFree) (hids : DistinctIds s.sys) {r : Nat}
    {h : Handling cfg} (hr : s.sys.requests r = some h) {authorization : Option Bytes}
    {body : Bytes} (hsubmit : h.request = .submit authorization body) {response : Response}
    (hrest : h.task.rest = .pure response) (h202 : response.status = 202) :
    ∃ job payload k, Enqueued h job payload ∧
      cfg.format.dumpText (acceptedJson job (k : Nat)) = .ok response.content ∧
      (∀ behind ahead, s.sys.queued = behind ++ payload :: ahead → ahead.length < k) ∧
      ∀ bs s' w, Lib.run (Turns.step cfg) s bs = some s' →
        AllSteps (Turns.step cfg) Turns.Turn s bs → (∀ a ∈ Turns.atomic bs, a.FaultFree) →
        DistinctIds s'.sys → 7 * k ≤ stepsOf w (Turns.atomic bs) → payload ∉ s'.sys.queued := by
  obtain ⟨hs, hreaches⟩ := Turns.view_reaches hrun hturns
  obtain ⟨job, payload, k, henqueued, hcontent, hahead, hlater⟩ :=
    queue_position hreaches hfree (Turns.distinctIds_view hids)
      (Turns.view_of_ended hr (Task.op?_of_pure hrest)) hsubmit hrest h202
  refine ⟨job, payload, k, henqueued, hcontent, hahead, ?_⟩
  intro bs s' w hbs hturns' hfree' hids' hsteps
  exact hlater _ s'.view w (Turns.view_run hs hbs hturns').2 hfree' (Turns.distinctIds_view hids')
    hsteps

theorem queue_position_in_turn_ann :
    ∃ (response : Response) (job : SubmissionJob) (k : Nat), response.status = 202 ∧
      textConfig.format.dumpText (acceptedJson job k) = .ok response.content := by
  obtain ⟨h₀, h₁, response, henv₀, henv₁, hrequest, hrest, h202, hrun⟩ := ann_in_order
  obtain ⟨bs, x, hreaches, hturns, hatomic, hsys, -⟩ := Turns.reaches_of_system hrun
  obtain ⟨job, payload, k, -, hcontent, -⟩ :=
    queue_position_in_turn (r := 1) hreaches hturns (hatomic ▸ faultFree_inOrder)
      (hsys ▸ distinctIds_ann henv₀ henv₁ rfl)
      (by simp [hsys, workerServed, announced, enqueued]) hrequest hrest h202
  exact ⟨response, job, k, h202, hcontent⟩

end System

end Ocpe
