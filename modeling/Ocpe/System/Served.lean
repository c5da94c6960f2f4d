import Ocpe.System.Delivery

/-!
# Runs in which Redis answers

`Action.Served` is an action that is no Redis fault, and `Action.FaultFree` is in
addition no crash and no exception that leaves a worker.  In runs of such actions every
connection that is used is good (`Links`), every command in the log was executed and
its reply has arrived (`Event.Answered`), and so a party's trace has one operation for
each command.
-/

namespace Ocpe.System

open Lib Redis RedisClient

variable {cfg : Config} {s s' : Sys cfg}

def Action.Served : Action → Prop
  | .perform _ net => net = .served
  | _ => True

def Action.FaultFree : Action → Prop
  | .perform _ net => net = .served
  | .crash _ => False
  | .terminate _ => False
  | _ => True

theorem Action.FaultFree.served {a : Action} (h : a.FaultFree) : a.Served := by
  cases a with
  | perform who net => exact h
  | _ => trivial

theorem Script.faultFree (who : Party) (cmds : List Cmd) :
    ∀ a ∈ (Script.served cmds).map fun x => Action.perform who x.2, a.FaultFree := by
  intro a ha
  obtain ⟨x, hx, rfl⟩ := List.mem_map.mp ha
  obtain ⟨c, -, rfl⟩ := List.mem_map.mp hx
  exact rfl

theorem workerActions_faultFree (w : Nat) (m : Machine) (job : SubmissionJob)
    (result : SubmissionResult) (stored : Bytes) :
    ∀ a ∈ workerActions w m job result stored, a.FaultFree := by
  intro a ha
  simp only [workerActions, List.mem_append, List.mem_cons, List.not_mem_nil, or_false] at ha
  rcases ha with ((rfl | rfl) | ha) | rfl
  · exact rfl
  · trivial
  · exact Script.faultFree _ _ a ha
  · trivial

theorem faultFree_enqueueing :
    ∀ a ∈ signUpActions ++ [.request 1 0 annSubmits zeroSurroundings] ++
      enqueueScript.map (fun x => .perform (.handler 1) x.2), a.FaultFree := by
  intro a ha
  simp only [signUpActions, List.mem_append, List.mem_cons, List.not_mem_nil, or_false] at ha
  rcases ha with ((rfl | ha) | rfl) | ha
  · trivial
  · exact Script.faultFree _ _ a ha
  · trivial
  · exact Script.faultFree _ _ a ha

theorem faultFree_overtaking (ms : Nat) : ∀ a ∈ overtaking ms, a.FaultFree := by
  intro a ha
  rw [overtaking, List.mem_append, List.mem_append, List.mem_cons] at ha
  rcases ha with (ha | ha) | rfl | ha
  · exact faultFree_enqueueing a ha
  · exact workerActions_faultFree _ _ _ _ _ a ha
  · trivial
  · exact Script.faultFree _ _ a ha

theorem faultFree_inOrder : ∀ a ∈ inOrder, a.FaultFree := by
  intro a ha
  rw [inOrder, List.mem_append, List.mem_append] at ha
  rcases ha with (ha | ha) | ha
  · exact faultFree_enqueueing a ha
  · exact Script.faultFree _ _ a ha
  · exact workerActions_faultFree _ _ _ _ _ a ha

/-! ### The connections -/

def Worker.Connected : Worker cfg → Prop
  | .ready => True
  | .busy .. => True
  | _ => False

/-- The connections in use are good. -/
structure Links (s : Sys cfg) : Prop where
  api : ∀ n, s.ctx (.api n) = .good
  worker : ∀ w, (s.workers w).Connected → s.ctx (.worker w) = .good

def Event.Answered : Event → Prop
  | .wire _ _ (.command _) executed answer => ∃ r, executed = some r ∧ answer = .reply r
  | _ => True

section Perform

variable {who : Party} {op : Wire} {c : Cmd}

/-- Only a worker that is not connected yet has another connection than a good one, and
it connects. -/
theorem Links.ctx (hs : Links s) (hop : s.op? who = some op) :
    op = .connect ∨ s.ctx (s.client who) = .good := by
  cases who with
  | handler r => exact .inr (hs.api _)
  | worker w =>
    change (s.workers w).op? = some op at hop
    cases hw : s.workers w with
    | connecting => rw [hw] at hop; cases hop; exact .inl rfl
    | busy m task begun => exact .inr (hs.worker w (by rw [hw]; trivial))
    | _ => rw [hw] at hop; cases hop

theorem Links.serverReply (hs : Links s) (hop : s.op? who = some (.command c)) :
    s.serverReply who (.command c) .served = some (exec s.now s.store c).2 := by
  rcases hs.ctx hop with h | h
  · cases h
  · rw [Sys.serverReply, h]
    rfl

theorem Links.answer (hs : Links s) (hop : s.op? who = some (.command c)) :
    s.answer who (.command c) .served = .reply (exec s.now s.store c).2 := by
  rcases hs.ctx hop with h | h
  · cases h
  · rw [Sys.answer, h]
    rfl

theorem Links.event (hs : Links s) (hop : s.op? who = some (.command c)) :
    s.event who (.command c) .served =
      .wire who s.now (.command c) (some (exec s.now s.store c).2)
        (.reply (exec s.now s.store c).2) := by
  rw [Sys.event, hs.serverReply hop, hs.answer hop]

theorem Links.store (hs : Links s) (hop : s.op? who = some (.command c)) :
    (s.perform who (.command c) .served).store = (exec s.now s.store c).1 :=
  (perform_store_of_executed (hs.serverReply hop)).1

theorem Links.perform (hs : Links s) (hop : s.op? who = some op) :
    Links (s.perform who op .served) := by
  have hgood : (exchange s.now s.store (s.ctx (s.client who)) op .served).2.1 = .good := by
    rcases hs.ctx hop with rfl | h
    · cases s.ctx (s.client who) <;> rfl
    · rw [h]
      cases op <;> rfl
  have hctx : (s.perform who op .served).ctx =
      Function.update s.ctx (s.client who) .good := by
    rw [← hgood]
    rfl
  refine ⟨fun n => ?_, fun w hw => ?_⟩
  · rw [hctx]
    by_cases h : .api n = s.client who
    · rw [h, Function.update_self]
    · rw [Function.update_of_ne h]
      exact hs.api n
  · rw [hctx]
    by_cases h : .worker w = s.client who
    · rw [h, Function.update_self]
    · rw [Function.update_of_ne h]
      refine hs.worker w ?_
      have hne : who ≠ .worker w := by
        rintro rfl
        exact h rfl
      rwa [perform_workers_of_ne hne] at hw

end Perform

theorem Links.update_worker (hs : Links s) {w : Nat} {worker : Worker cfg} {log : List Event}
    (h : worker.Connected → (s.workers w).Connected) :
    Links { s with workers := Function.update s.workers w worker, log := log } := by
  refine ⟨hs.api, fun w' hw' => ?_⟩
  by_cases hw : w' = w
  · subst hw
    simp only [Function.update_self] at hw'
    exact hs.worker w' (h hw')
  · simp only [Function.update_of_ne hw] at hw'
    exact hs.worker w' hw'

theorem links_step {a : Action} (h : step cfg s a = some s') (ha : a.Served) (hs : Links s) :
    Links s' := by
  cases a with
  | tick ms => cases h; exact ⟨hs.api, hs.worker⟩
  | stop => cases h; exact ⟨hs.api, hs.worker⟩
  | request r api request env =>
    simp only [step] at h
    split at h
    · cases h; exact ⟨hs.api, hs.worker⟩
    · cases h
  | perform who net =>
    obtain rfl : net = .served := ha
    obtain ⟨op, hop, rfl⟩ := step_perform_iff.mp h
    exact hs.perform hop
  | test w m =>
    obtain ⟨worker, htest, rfl⟩ := Option.map_eq_some_iff.mp h
    refine hs.update_worker fun hconnected => ?_
    cases hw : s.workers w with
    | retrying =>
      rw [hw] at htest
      cases htest
      split at hconnected <;> cases hconnected
    | ready => trivial
    | _ => rw [hw] at htest; cases htest
  | next w =>
    simp only [step] at h
    split at h
    · next hended =>
      cases h
      refine hs.update_worker fun _ => ?_
      cases hw : s.workers w with
      | busy => trivial
      | _ => rw [hw] at hended; cases hended
    · cases h
  | terminate w =>
    simp only [step] at h
    split at h
    · cases h; exact ⟨hs.api, fun _ hw => hw.elim⟩
    · cases h
  | crash w => cases h; exact hs.update_worker fun hconnected => hconnected.elim

theorem answered_step {a : Action} (h : step cfg s a = some s') (ha : a.Served) (hs : Links s)
    (hlog : ∀ e ∈ s.log, e.Answered) : ∀ e ∈ s'.log, e.Answered := by
  rcases step_cases h with ⟨who, net, op, rfl, hop, rfl⟩ | hquiet
  · obtain rfl : net = .served := ha
    refine forall_log_concat hlog perform_log ?_
    cases op with
    | connect => trivial
    | command c => rw [hs.event hop]; exact ⟨_, rfl, rfl⟩
  · rcases hquiet.log with heq | ⟨e, heq, hcloses⟩
    · rw [heq]; exact hlog
    · refine forall_log_concat hlog heq ?_
      cases e with
      | wire => exact hcloses.elim
      | _ => trivial

section Run

variable {as : List Action} (hrun : Reaches cfg as s) (hserved : ∀ a ∈ as, a.Served)

include hrun hserved

theorem links_answered : Links s ∧ ∀ e ∈ s.log, e.Answered := by
  refine run_invariant_of (fun s : Sys cfg => Links s ∧ ∀ e ∈ s.log, e.Answered) hrun hserved
    ⟨⟨fun _ => rfl, fun _ h => h.elim⟩, by simp⟩ ?_
  rintro m a m' ⟨hm, hlog⟩ ha h
  exact ⟨links_step h ha hm, answered_step h ha hm hlog⟩

/-- **Every connection in use is good.** -/
theorem links : Links s := (links_answered hrun hserved).1

/-- **Every command in the log was executed and answered.** -/
theorem answered : ∀ e ∈ s.log, e.Answered := (links_answered hrun hserved).2

theorem replied_ownTrace (who : Party) : Replied (ownTrace who s.log) := by
  rintro ⟨op, answer⟩ hx c rfl
  obtain ⟨now, executed, he⟩ := mem_ownTrace_iff.mp hx
  obtain ⟨r, -, hanswer⟩ := answered hrun hserved _ he
  exact ⟨r, hanswer⟩

theorem handler_replied {r : Nat} {h : Handling cfg} (hr : s.requests r = some h) :
    Replied h.task.trace := by
  rw [task_trace hrun hr]
  exact replied_ownTrace hrun hserved _

theorem worker_replied (w : Nat) : Replied (s.workers w).trace := fun x hx =>
  replied_ownTrace hrun hserved (.worker w) x ((worker_trace hrun w).mem hx)

theorem not_replyLost {r : Nat} {payload : Bytes} : ¬ ReplyLost r payload s.log := by
  rintro ⟨now, n, he⟩
  obtain ⟨reply, -, h⟩ := answered hrun hserved _ he
  cases h

/-- **A job is pushed once.** -/
theorem pushed_once (hids : DistinctIds s) {r : Nat} {h : Handling cfg}
    (hr : s.requests r = some h) {job : SubmissionJob} {payload : Bytes}
    (henqueued : Enqueued h job payload) : (ledger s.log).pushed.count payload = 1 := by
  rcases copies_of_enqueued hrun hids hr henqueued with hone | ⟨-, hlost⟩
  · exact hone
  · exact absurd hlost (not_replyLost hrun hserved)

end Run

end Ocpe.System
