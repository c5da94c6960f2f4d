import Ocpe.System.Served

/-!
# The life of a submission

What is written about a submission, in runs in which Redis answers.

* `lines_unique`: with distinct ids every submission has at most one line in the
  ledger.
* `Stands`: where the worker stands that took the line of a submission.
* `life_of_run`: what the workers have written about a submission is what the one worker
  that took its line has written, up to where this worker stands.
-/

namespace Ocpe.System

open Lib Redis RedisClient

variable {cfg : Config} {s s' : Sys cfg}

/-! ### One line for each submission -/

def Line (cfg : Config) (log : List Event) (i : Nat) (job : SubmissionJob) : Prop :=
  ∃ payload, (ledger log).pushed[i]? = some payload ∧
    submissionJobToJson cfg.format job = .ok payload

theorem Line.lt {log : List Event} {i : Nat} {job : SubmissionJob} (h : Line cfg log i job) :
    i < (ledger log).pushed.length := by
  obtain ⟨payload, hi, -⟩ := h
  exact (List.getElem?_eq_some_iff.mp hi).1

theorem at_push_enqueue {job : SubmissionJob} {t : List (Wire × Answer)} {payload : Bytes}
    {next : Answer → Talk Response}
    (h : (ApiServer.enqueueSubmission cfg job).Path t
      (.op (.command (.lpush queueKey payload)) next))
    (ht : Replied t) : t = [] ∧ submissionJobToJson cfg.format job = .ok payload := by
  rw [ApiServer.enqueueSubmission, enqueueJob, Prog.bind_assoc] at h
  obtain ⟨payload', hpayload, h⟩ := path_json_bind h (by simp)
  rcases path_succeeds_replied h ht with ⟨rfl, heq⟩ | ⟨r, t', rfl, h', -⟩
  · cases heq
    exact ⟨rfl, hpayload⟩
  · split at h'
    · exact absurd rfl ((announce_notOn job).of_path h').2.1
    · cases (Prog.path_pure.mp h').2

/-- A handler that is at the `LPUSH` of a job has not pushed before. -/
theorem at_push {env : Surroundings} {request : Request} {t : List (Wire × Answer)}
    {payload : Bytes} {next : Answer → Talk Response}
    (h : (ApiServer.handle cfg env request).Path t (.op (.command (.lpush queueKey payload)) next))
    (ht : Replied t) :
    (∀ x ∈ t, x.1.writes ≠ some queueKey) ∧
      ∃ job, job.submissionId = env.submissionId.text ∧
        submissionJobToJson cfg.format job = .ok payload := by
  have hsends := ((handle_sends request).of_path h).2.1
  generalize hop : Wire.command (.lpush queueKey payload) = op at hsends
  cases hsends with
  | pushHistory username => cases hop
  | pushJob authorization body username job payload' hrequest haccept hpayload =>
    cases hop
    subst hrequest
    obtain ⟨t₁, t₂, username', job', rfl, h₁, haccept', h₂⟩ :=
      postSubmit_path_write h (by simp [Wire.writes, Cmd.writes])
    obtain ⟨rfl, hpayload'⟩ := at_push_enqueue h₂ ht.right
    rw [List.append_nil]
    exact ⟨((requireAuth_notOn authorization).of_path h₁).1, job',
      (ApiServer.acceptSubmission_ok haccept').1, hpayload'⟩
  | _ => cases hop

theorem payload_job {payload : Bytes} {job job' : SubmissionJob}
    (h : submissionJobToJson cfg.format job = .ok payload)
    (h' : submissionJobToJson cfg.format job' = .ok payload) : job = job' :=
  Except.ok.inj ((jobFromJson_toJson h).symm.trans (jobFromJson_toJson h'))

theorem line_pusher {as : List Action} (hrun : Reaches cfg as s) {i : Nat} {job : SubmissionJob}
    (h : Line cfg s.log i job) :
    ∃ r k now payload executed answer,
      .wire (.handler r) now (.command (.lpush queueKey payload)) executed answer ∈ s.log ∧
      s.requests r = some k ∧ job.submissionId = k.env.submissionId.text := by
  obtain ⟨payload, hi, hpayload⟩ := h
  obtain ⟨r, k, job', now, executed, answer, he, hr, hid, hpayload'⟩ := pusher_of_pushed hrun hi
  rw [payload_job hpayload hpayload']
  exact ⟨r, k, now, payload, executed, answer, he, hr, hid⟩

theorem nulFree_of_line {as : List Action} (hrun : Reaches cfg as s) {i : Nat}
    {job : SubmissionJob} (h : Line cfg s.log i job) : NulFree job.submissionId := by
  obtain ⟨r, k, -, -, -, -, -, -, hid⟩ := line_pusher hrun h
  rw [hid]
  exact k.env.submissionId.nulFree

/-- The line that a push adds is the first of its submission. -/
theorem no_line_at_push {as : List Action} (hrun : Reaches cfg as s)
    (hserved : ∀ a ∈ as, a.Served) (hids : DistinctIds s) {r : Nat} {payload : Bytes}
    (hop : s.op? (.handler r) = some (.command (.lpush queueKey payload))) {job : SubmissionJob}
    (hpayload : submissionJobToJson cfg.format job = .ok payload) {i : Nat} {job' : SubmissionJob}
    (hline : Line cfg s.log i job') : job'.submissionId ≠ job.submissionId := by
  intro heq
  obtain ⟨k, next, hr, hpath⟩ := handler_at hop
  obtain ⟨hbefore, job₀, hid₀, hpayload₀⟩ := at_push hpath (handler_replied hrun hserved hr)
  obtain ⟨r', k', now, payload', executed, answer, he, hr', hid'⟩ := line_pusher hrun hline
  obtain rfl := payload_job hpayload hpayload₀
  obtain rfl := hids r' r k' k hr' hr (by rw [← hid', heq, hid₀])
  -- the earlier push is in the trace of this handler
  have hmem : ((.command (.lpush queueKey payload') : Wire), answer) ∈ k.task.trace :=
    (mem_trace_iff hrun hr).mpr ⟨now, executed, he⟩
  exact hbefore _ hmem rfl

theorem op_of_pushes {who : Party} {op : Wire} {net : Net} {payload : Bytes}
    (hop : s.op? who = some op) (h : (s.event who op net).pushes? = some payload) :
    op = .command (.lpush queueKey payload) ∧ ∃ r, who = .handler r := by
  have hsends := sends_of_op? hop
  generalize heq : s.event who op net = e at h
  unfold Event.pushes? at h
  split at h
  · obtain ⟨rfl, -, rfl, -, -⟩ := Event.wire.inj heq
    split at h
    · next hkey =>
      cases h
      subst hkey
      refine ⟨rfl, ?_⟩
      cases who with
      | handler r => exact ⟨r, rfl⟩
      | worker w => cases hsends
    · cases h
  · cases h

theorem line_step {a : Action} (h : step cfg s a = some s') {i : Nat} {job : SubmissionJob}
    (hline : Line cfg s'.log i job) :
    Line cfg s.log i job ∨ (i = (ledger s.log).pushed.length ∧ ∃ r payload,
      s.op? (.handler r) = some (.command (.lpush queueKey payload)) ∧
      submissionJobToJson cfg.format job = .ok payload) := by
  have appended : ∀ {e}, s'.log = s.log ++ [e] → Line cfg s.log i job ∨
      (i = (ledger s.log).pushed.length ∧ ∃ payload, e.pushes? = some payload ∧
        submissionJobToJson cfg.format job = .ok payload) := by
    intro e heq
    obtain ⟨payload, hi, hpayload⟩ := hline
    rw [heq, ledger_pushed, List.filterMap_append, ← ledger_pushed] at hi
    by_cases hlt : i < (ledger s.log).pushed.length
    · rw [List.getElem?_append_left hlt] at hi
      exact .inl ⟨payload, hi, hpayload⟩
    · rw [List.getElem?_append_right (Nat.le_of_not_lt hlt)] at hi
      cases hpush : e.pushes? with
      | none => simp [hpush] at hi
      | some payload' =>
        have hzero : i - (ledger s.log).pushed.length = 0 := by
          have := (List.getElem?_eq_some_iff.mp hi).1
          simp only [List.filterMap_cons, hpush, List.filterMap_nil, List.length_cons,
            List.length_nil] at this
          omega
        simp only [List.filterMap_cons, hpush, List.filterMap_nil, hzero,
          List.getElem?_cons_zero, Option.some.injEq] at hi
        subst hi
        exact .inr ⟨by omega, payload', rfl, hpayload⟩
  rcases step_cases h with ⟨who, net, op, rfl, hop, rfl⟩ | hquiet
  · rcases appended perform_log with hold | ⟨hi, payload, hpush, hpayload⟩
    · exact .inl hold
    · obtain ⟨rfl, r, rfl⟩ := op_of_pushes hop hpush
      exact .inr ⟨hi, r, payload, hop, hpayload⟩
  · rcases hquiet.log with heq | ⟨e, heq, hcloses⟩
    · rw [heq] at hline
      exact .inl hline
    · rcases appended heq with hold | ⟨-, payload, hpush, -⟩
      · exact .inl hold
      · cases e with
        | wire => exact hcloses.elim
        | _ => cases hpush

theorem lines_unique {as : List Action} (hrun : Reaches cfg as s)
    (hserved : ∀ a ∈ as, a.Served) (hids : DistinctIds s) {i i' : Nat} {job job' : SubmissionJob}
    (h : Line cfg s.log i job) (h' : Line cfg s.log i' job')
    (hid : job.submissionId = job'.submissionId) : i = i' := by
  induction as using List.reverseRecOn generalizing s with
  | nil =>
    obtain rfl : ({} : Sys cfg) = s := Option.some.inj hrun
    exact absurd h.lt (Nat.not_lt_zero _)
  | append_singleton as a ih =>
    obtain ⟨m, hm, ha⟩ := run_concat_iff.mp hrun
    have hserved' : ∀ a ∈ as, a.Served := fun b hb => hserved b (List.mem_append_left _ hb)
    have hstep : Lib.run (step cfg) m [a] = some s := run_cons_iff.mpr ⟨s, ha, rfl⟩
    have hids' : DistinctIds m := hids.of_run hstep
    rcases line_step ha h with hold | ⟨hi, r, payload, hop, hpayload⟩ <;>
      rcases line_step ha h' with hold' | ⟨hi', r', payload', hop', hpayload'⟩
    · exact ih hm hserved' hids' hold hold'
    · exact absurd hid (no_line_at_push hm hserved' hids' hop' hpayload' hold)
    · exact absurd hid.symm (no_line_at_push hm hserved' hids' hop hpayload hold')
    · exact hi.trans hi'.symm

/-! ### What the workers write -/

/-- The operation of an event by which a worker writes the status or the result of the
submission. -/
def Event.life? (id : Bytes) : Event → Option Wire
  | .wire (.worker _) _ op _ _ =>
    if op.writes = some (statusKey id) ∨ op.writes = some (resultKey id) then some op else none
  | _ => none

/-- What the workers have written about the submission. -/
def life (id : Bytes) (log : List Event) : List Wire := log.filterMap (Event.life? id)

@[simp] theorem life_append (id : Bytes) (l₁ l₂ : List Event) :
    life id (l₁ ++ l₂) = life id l₁ ++ life id l₂ := List.filterMap_append

/-- Where the worker that took the line stands: still in its iteration, or through. -/
def Stands (s : Sys cfg) (m : Machine) (q : Talk Unit) : Fate Nat → Prop
  | .held w => ∃ task begun, s.workers w = .busy m task begun ∧ task.rest = q
  | .done _ => q = .pure ()
  | .lost => True

theorem Stands.perform {m : Machine} {q : Talk Unit} {f : Fate Nat} (h : Stands s m q f) {w : Nat}
    {op : Wire} {net : Net} (hne : f ≠ .held w) : Stands (s.perform (.worker w) op net) m q f := by
  cases f with
  | held w' =>
    have hw : Party.worker w ≠ .worker w' := by
      rintro heq
      cases heq
      exact hne rfl
    obtain ⟨task, begun, hw', hq⟩ := h
    exact ⟨task, begun, by rw [perform_workers_of_ne hw, hw'], hq⟩
  | done w' => exact h
  | lost => trivial

/-- What is written about a submission is what its worker has sent so far. -/
structure Life (s : Sys cfg) : Prop where
  idle : ∀ id, NulFree id →
    (∀ i job, Line cfg s.log i job → job.submissionId = id → (ledger s.log).fates[i]? = none) →
    life id s.log = []
  taken : ∀ i job f, Line cfg s.log i job → (ledger s.log).fates[i]? = some f →
    ∃ m q, WorkerPool.Stage cfg m job (life job.submissionId s.log) q ∧ Stands s m q f

theorem life_of_ne {id id' : Bytes} (hid : NulFree id) (hid' : NulFree id') (hne : id ≠ id')
    {op : Wire} (hop : WorkerPool.SetsOf id op) {w now : Nat} {executed : Option Reply}
    {answer : Answer} : life id' [.wire (.worker w) now op executed answer] = [] := by
  have hstatus : statusKey id ≠ statusKey id' := by
    rw [Ne, statusKey_inj, cstr_eq_self hid, cstr_eq_self hid']
    exact hne
  have hresult : resultKey id ≠ resultKey id' := by
    rw [Ne, resultKey_inj, cstr_eq_self hid, cstr_eq_self hid']
    exact hne
  have hmixed : ∀ a b, statusKey a ≠ resultKey b := fun a b =>
    ne_of_take (take_statusKey a) (take_resultKey b) (by decide)
  rcases hop with ⟨v, rfl⟩ | ⟨payload, rfl⟩
  · simp [life, Event.life?, Wire.writes, Cmd.writes, hstatus, hmixed]
  · simp [life, Event.life?, Wire.writes, Cmd.writes, hresult, (hmixed _ _).symm]

theorem life_of_setsOf {id : Bytes} {op : Wire} (hop : WorkerPool.SetsOf id op) {w now : Nat}
    {executed : Option Reply} {answer : Answer} :
    life id [.wire (.worker w) now op executed answer] = [op] := by
  rcases hop with ⟨v, rfl⟩ | ⟨payload, rfl⟩ <;>
    simp [life, Event.life?, Wire.writes, Cmd.writes]

theorem at_pop {m : Machine} {task : Task Wire Answer Exn Unit}
    (begun : task.start = WorkerPool.iteration cfg m) (ht : Replied task.trace)
    (hnone : task.trace.findSome? popped? = none) {op : Wire} {next : Answer → Talk Unit}
    (hrest : task.rest = .op op next) :
    task.rest = WorkerPool.iteration cfg m := by
  have hpath := task.path
  rw [begun, iteration_eq] at hpath
  rcases path_execCommand_replied hpath ht with ⟨-, heq⟩ | ⟨r, t, htrace, hafter, -⟩
  · rw [heq, iteration_eq]
  · rw [htrace] at hnone
    have hend : afterPop cfg m (some r) = .pure () := by
      unfold afterPop
      split
      · next heq => cases heq; cases hnone
      · rfl
    rw [hend, hrest] at hafter
    cases (Prog.path_pure.mp hafter).2

section Step

variable {as : List Action} (hrun : Reaches cfg as s) (hserved : ∀ a ∈ as, a.Served)
  (hids : DistinctIds s) (hs : Life s)

theorem line_old {a : Action} (h : step cfg s a = some s') {i : Nat} {job : SubmissionJob}
    (hline : Line cfg s'.log i job) (hlt : i < (ledger s.log).fates.length) :
    Line cfg s.log i job := by
  rcases line_step h hline with hold | ⟨hi, -⟩
  · exact hold
  · have hle := (ledger s.log).le
    omega

theorem line_mono {a : Action} (h : step cfg s a = some s') {i : Nat} {job : SubmissionJob}
    (hline : Line cfg s.log i job) : Line cfg s'.log i job := by
  obtain ⟨payload, hi, hpayload⟩ := hline
  obtain ⟨es, hes⟩ := (grows_step h).log
  refine ⟨payload, ?_, hpayload⟩
  rw [← hes, ledger_pushed, List.filterMap_append, ← ledger_pushed,
    List.getElem?_append_left (List.getElem?_eq_some_iff.mp hi).1]
  exact hi

include hs in
theorem Life.of_quiet {a : Action} (h : step cfg s a = some s')
    (hlife : ∀ id, life id s'.log = life id s.log)
    (hnone : ∀ i : Nat, (ledger s'.log).fates[i]? = none ↔ (ledger s.log).fates[i]? = none)
    (hfate : ∀ i job f, Line cfg s.log i job → (ledger s'.log).fates[i]? = some f →
      ∀ g m q, (ledger s.log).fates[i]? = some g → Stands s m q g → Stands s' m q f) :
    Life s' := by
  constructor
  · intro id hid hall
    rw [hlife]
    exact hs.idle id hid fun i job hline hjob =>
      (hnone i).mp (hall i job (line_mono h hline) hjob)
  · intro i job f hline hf
    have hsome : (ledger s.log).fates[i]? ≠ none := by
      rw [Ne, ← hnone, hf]
      simp
    obtain ⟨g, hg⟩ := Option.ne_none_iff_exists'.mp hsome
    have hold := line_old h hline (List.getElem?_eq_some_iff.mp hg).1
    obtain ⟨m, q, hstage, hstands⟩ := hs.taken i job g hold hg
    exact ⟨m, q, (hlife _).symm ▸ hstage, hfate i job f hold hf g m q hg hstands⟩

theorem line_of_pushed (hrun : Reaches cfg as s) {i : Nat} {payload : Bytes}
    (hi : (ledger s.log).pushed[i]? = some payload) :
    ∃ job, Line cfg s.log i job ∧ submissionJobToJson cfg.format job = .ok payload := by
  obtain ⟨-, -, job, -, -, -, -, -, -, hpayload⟩ := pusher_of_pushed hrun hi
  exact ⟨job, ⟨payload, hi, hpayload⟩, hpayload⟩

include hrun hserved hs in
/-- **What a worker can be about to do**: connect, take a job, or write about the
submission it has. -/
theorem worker_op {w : Nat} {op : Wire} (hop : s.op? (.worker w) = some op) :
    (s.workers w = .connecting ∧ op = .connect) ∨
    (∃ m task begun, s.workers w = .busy m task begun ∧
      task.rest = WorkerPool.iteration cfg m ∧ op = .command (.brpop queueKey 5) ∧
      (s.workers w).payload? = none) ∨
    ∃ m task begun next i job, s.workers w = .busy m task begun ∧ task.rest = .op op next ∧
      Line cfg s.log i job ∧ (ledger s.log).fates[i]? = some (.held w) ∧
      WorkerPool.Stage cfg m job (life job.submissionId s.log) (.op op next) := by
  change (s.workers w).op? = some op at hop
  have hreplied := worker_replied hrun hserved w
  cases hw : s.workers w with
  | connecting => rw [hw] at hop; cases hop; exact .inl ⟨rfl, rfl⟩
  | busy m task begun =>
    rw [hw] at hop hreplied
    obtain ⟨next, hrest⟩ := Task.op?_eq_some.mp hop
    right
    cases hpayload : (s.workers w).payload? with
    | none =>
      left
      rw [hw] at hpayload
      have hpop := at_pop begun hreplied hpayload hrest
      refine ⟨m, task, begun, rfl, hpop, ?_, hpayload⟩
      rw [hpop, iteration_eq, execCommand_bind] at hrest
      cases hrest
      rfl
    | some payload =>
      right
      obtain ⟨i, hf, hi⟩ := ((accounts hrun).holds w payload).mp hpayload
      obtain ⟨job, hline, -⟩ := line_of_pushed hrun hi
      obtain ⟨m', q, hstage, task', begun', hw', rfl⟩ := hs.taken i job _ hline hf
      rw [hw] at hw'
      cases hw'
      rw [hrest] at hstage
      exact ⟨m, task, begun, next, i, job, rfl, hrest, hline, hf, hstage⟩
  | _ => rw [hw] at hop; cases hop

theorem account_handler_fates (L : Ledger Bytes Nat) {r now : Nat} {op : Wire}
    {executed : Option Reply} {answer : Answer} :
    (account L (.wire (.handler r) now op executed answer)).fates = L.fates := by
  unfold account
  split
  · split <;> rfl
  · next heq => cases heq
  · next heq => cases heq
  · next heq => cases heq
  · next heq => cases heq
  · rfl

include hs in
theorem Life.perform_handler {r : Nat} {net : Net} {op : Wire}
    (hop : s.op? (.handler r) = some op) : Life (s.perform (.handler r) op net) := by
  have hstep : step cfg s (.perform (.handler r) net) = some (s.perform (.handler r) op net) :=
    step_perform_iff.mpr ⟨op, hop, rfl⟩
  have hfates : (ledger (s.perform (.handler r) op net).log).fates = (ledger s.log).fates := by
    rw [perform_log, ledger_concat]
    exact account_handler_fates _
  refine hs.of_quiet hstep (fun id => ?_) (fun i => by rw [hfates]) ?_
  · rw [perform_log, life_append]
    simp [life, Event.life?, Sys.event]
  · intro i job f _ hf g m q hg hstands
    rw [hfates, hg] at hf
    cases hf
    exact hstands

include hrun in
theorem not_held_of_free {w : Nat} (hfree : (s.workers w).payload? = none) {i : Nat}
    (hf : (ledger s.log).fates[i]? = some (.held w)) : False := by
  obtain ⟨payload, hi⟩ := Ledger.exists_pushed hf
  rw [((accounts hrun).holds w payload).mpr ⟨i, hf, hi⟩] at hfree
  cases hfree

include hrun hs in
theorem Life.perform_free {w : Nat} {net : Net} {op : Wire} (hop : s.op? (.worker w) = some op)
    (hfree : (s.workers w).payload? = none)
    (hlife : ∀ id, life id [s.event (.worker w) op net] = [])
    (haccount : account (ledger s.log) (s.event (.worker w) op net) = ledger s.log) :
    Life (s.perform (.worker w) op net) := by
  have hledger : ledger (s.perform (.worker w) op net).log = ledger s.log := by
    rw [perform_log, ledger_concat, haccount]
  refine hs.of_quiet (step_perform_iff.mpr ⟨op, hop, rfl⟩)
    (fun id => by rw [perform_log, life_append, hlife, List.append_nil])
    (fun i => by rw [hledger]) ?_
  intro i job f _ hf g m q hg hstands
  rw [hledger, hg] at hf
  cases hf
  refine hstands.perform ?_
  rintro rfl
  exact not_held_of_free hrun hfree hg

include hrun hserved hids hs in
theorem Life.perform_take {w : Nat} {m : Machine} {task : Task Wire Answer Exn Unit}
    {begun : task.start = WorkerPool.iteration cfg m} (hw : s.workers w = .busy m task begun)
    (hrest : task.rest = WorkerPool.iteration cfg m) (hfree : (s.workers w).payload? = none)
    {j : Bytes} {js : List Bytes} (hwaiting : (ledger s.log).waiting = j :: js) :
    Life (s.perform (.worker w) (.command (.brpop queueKey 5)) .served) := by
  rw [iteration_eq, execCommand_bind] at hrest
  have hop : s.op? (.worker w) = some (.command (.brpop queueKey 5)) := by
    rw [Sys.op?, hw]
    exact Task.op?_eq_some.mpr ⟨_, hrest⟩
  have hlinks := links hrun hserved
  have hstep : step cfg s (.perform (.worker w) .served) =
      some (s.perform (.worker w) (.command (.brpop queueKey 5)) .served) :=
    step_perform_iff.mpr ⟨_, hop, rfl⟩
  have hreply : (exec s.now s.store (.brpop queueKey 5)).2 = .arr [queueKey, j] := by
    have hlast : (j :: js).reverse.getLast? = some j := by simp
    simp only [exec, (accounts hrun).live, hwaiting, if_neg (List.cons_ne_nil j js), hlast]
  have hevent := hlinks.event hop
  have hanswer := hlinks.answer hop
  rw [hreply] at hevent hanswer
  have hledger : ledger (s.perform (.worker w) (.command (.brpop queueKey 5)) .served).log =
      (ledger s.log).take (.held w) := by
    rw [perform_log, ledger_concat, hevent]
    rfl
  have hlife : ∀ id, life id (s.perform (.worker w) (.command (.brpop queueKey 5)) .served).log =
      life id s.log := by
    intro id
    have hstatus : queueKey ≠ statusKey id :=
      ne_of_take take_queueKey (take_statusKey _) (by decide)
    have hresult : queueKey ≠ resultKey id :=
      ne_of_take take_queueKey (take_resultKey _) (by decide)
    rw [perform_log, life_append]
    simp [life, Event.life?, Sys.event, Wire.writes, Cmd.writes, hstatus, hresult]
  have hold : ∀ {i : Nat} {job : SubmissionJob},
      Line cfg (s.perform (.worker w) (.command (.brpop queueKey 5)) .served).log i job →
      Line cfg s.log i job := by
    rintro i job ⟨payload, hi, hpayload⟩
    rw [hledger, Ledger.take_pushed] at hi
    exact ⟨payload, hi, hpayload⟩
  constructor
  · intro id hid hall
    rw [hlife]
    refine hs.idle id hid fun i job hline hjob => ?_
    have hnone := hall i job (line_mono hstep hline) hjob
    rw [hledger, Ledger.take_fates hwaiting, List.getElem?_eq_none_iff, List.length_append] at hnone
    exact List.getElem?_eq_none_iff.mpr (Nat.le_of_add_right_le hnone)
  · intro i job f hline hf
    rw [hlife]
    rw [hledger] at hf
    rcases (Ledger.take_fates_iff hwaiting).mp hf with hearlier | ⟨rfl, rfl⟩
    · obtain ⟨m', q, hstage, hstands⟩ := hs.taken i job f (hold hline) hearlier
      refine ⟨m', q, hstage, hstands.perform ?_⟩
      rintro rfl
      exact not_held_of_free hrun hfree hearlier
    · -- the line it takes: nothing has been written about it
      obtain ⟨payload, hi, hpayload⟩ := hold hline
      rw [Ledger.pushed_of_waiting hwaiting] at hi
      cases hi
      have hidle : life job.submissionId s.log = [] := by
        refine hs.idle _ (nulFree_of_line hrun (hold hline)) fun i' job' hline' hjob => ?_
        rw [lines_unique hrun hserved hids hline' (hold hline) hjob]
        exact List.getElem?_eq_none_iff.mpr (Nat.le_refl _)
      refine ⟨m, WorkerPool.processJob cfg m job, hidle ▸ .start,
        task.feed (.reply (.arr [queueKey, j])), (Task.feed_start _).trans begun, ?_, ?_⟩
      · rw [perform_worker, hw, hanswer]
        rfl
      · rw [(Task.feed_of_rest hrest _).2, afterCommand_reply, Prog.pure_bind]
        show Talk.json (submissionJobFromJson cfg.format j) >>= _ = _
        rw [jobFromJson_toJson hpayload]
        rfl

include hrun hserved hids hs in
theorem Life.perform_write {w : Nat} {m : Machine} {task : Task Wire Answer Exn Unit}
    {begun : task.start = WorkerPool.iteration cfg m} (hw : s.workers w = .busy m task begun)
    {op : Wire} {next : Answer → Talk Unit} (hrest : task.rest = .op op next) {i : Nat}
    {job : SubmissionJob} (hline : Line cfg s.log i job)
    (hf : (ledger s.log).fates[i]? = some (.held w))
    (hstage : WorkerPool.Stage cfg m job (life job.submissionId s.log) (.op op next)) :
    Life (s.perform (.worker w) op .served) := by
  have hop : s.op? (.worker w) = some op := by
    rw [Sys.op?, hw]
    exact Task.op?_eq_some.mpr ⟨_, hrest⟩
  have hlinks := links hrun hserved
  have hsets : WorkerPool.SetsOf job.submissionId op := (hstage.next .nil).1
  obtain ⟨key, value, rfl⟩ : ∃ key value, op = .command (.set key value (some 86400)) := by
    rcases hsets with ⟨v, rfl⟩ | ⟨payload, rfl⟩ <;> exact ⟨_, _, rfl⟩
  have hstep : step cfg s (.perform (.worker w) .served) =
      some (s.perform (.worker w) (.command (.set key value (some 86400))) .served) :=
    step_perform_iff.mpr ⟨_, hop, rfl⟩
  have hledger : ledger (s.perform (.worker w) (.command (.set key value (some 86400)))
      .served).log = ledger s.log := by
    rw [perform_log, ledger_concat, hlinks.event hop]
    rfl
  have hid := nulFree_of_line hrun hline
  have hother : ∀ id, NulFree id → job.submissionId ≠ id →
      life id (s.perform (.worker w) (.command (.set key value (some 86400))) .served).log =
        life id s.log := by
    intro id hid' hne
    rw [perform_log, life_append, Sys.event, life_of_ne hid hid' hne hsets, List.append_nil]
  have hold : ∀ {i : Nat} {job : SubmissionJob},
      Line cfg (s.perform (.worker w) (.command (.set key value (some 86400))) .served).log i job →
      Line cfg s.log i job := by
    rintro i job ⟨payload, hi, hpayload⟩
    rw [hledger] at hi
    exact ⟨payload, hi, hpayload⟩
  constructor
  · intro id hid' hall
    have hne : job.submissionId ≠ id := by
      intro heq
      have hnone := hall i job (line_mono hstep hline) heq
      rw [hledger, hf] at hnone
      cases hnone
    rw [hother id hid' hne]
    refine hs.idle id hid' fun i' job' hline' hjob => ?_
    have hnone := hall i' job' (line_mono hstep hline') hjob
    rwa [hledger] at hnone
  · intro i' job' f hline' hf'
    rw [hledger] at hf'
    by_cases heq : i' = i
    · subst heq
      obtain rfl : job' = job := by
        obtain ⟨payload, hi, hpayload⟩ := hline
        obtain ⟨payload', hi', hpayload'⟩ := hold hline'
        rw [hi] at hi'
        cases hi'
        exact payload_job hpayload' hpayload
      rw [hf] at hf'
      cases hf'
      refine ⟨m, _, ?_, task.feed (.reply (exec s.now s.store (.set key value (some 86400))).2),
        (Task.feed_start _).trans begun, ?_, (Task.feed_of_rest hrest _).2⟩
      · rw [perform_log, life_append, Sys.event, life_of_setsOf hsets]
        exact (hstage.next _).2
      · rw [perform_worker, hw, hlinks.answer hop]
        rfl
    · have hne : job.submissionId ≠ job'.submissionId := fun h =>
        heq (lines_unique hrun hserved hids hline (hold hline') h).symm
      obtain ⟨m', q, hstage', hstands⟩ := hs.taken i' job' f (hold hline') hf'
      refine ⟨m', q, ?_, hstands.perform ?_⟩
      · rw [hother _ (nulFree_of_line hrun (hold hline')) hne]
        exact hstage'
      · rintro rfl
        exact heq ((accounts hrun).oneEach i' i w hf' hf)

include hrun hserved hids hs in
theorem Life.perform_worker {w : Nat} {op : Wire} (hop : s.op? (.worker w) = some op) :
    Life (s.perform (.worker w) op .served) := by
  have hlinks := links hrun hserved
  rcases worker_op hrun hserved hs hop with ⟨hw, rfl⟩ | ⟨m, task, begun, hw, hrest, rfl, hfree⟩ |
    ⟨m, task, begun, next, i, job, hw, hrest, hline, hf, hstage⟩
  · refine hs.perform_free hrun hop (by rw [hw]; rfl) (fun id => ?_) rfl
    simp [life, Event.life?, Sys.event, Wire.writes]
  · cases hwaiting : (ledger s.log).waiting with
    | nil =>
      have hreply : (exec s.now s.store (.brpop queueKey 5)).2 = .nil := by
        simp only [exec, (accounts hrun).live, hwaiting, if_true]
      refine hs.perform_free hrun hop hfree (fun id => ?_) ?_
      · have hstatus : queueKey ≠ statusKey id :=
          ne_of_take take_queueKey (take_statusKey _) (by decide)
        have hresult : queueKey ≠ resultKey id :=
          ne_of_take take_queueKey (take_resultKey _) (by decide)
        simp [life, Event.life?, Sys.event, Wire.writes, Cmd.writes, hstatus, hresult]
      · rw [hlinks.event hop, hreply]
        rfl
    | cons j js => exact hs.perform_take hrun hserved hids hw hrest hfree hwaiting
  · exact hs.perform_write hrun hserved hids hw hrest hline hf hstage

theorem account_closes {e : Event} (h : e.Closes s) (L : Ledger Bytes Nat) :
    ∃ become, account L e = L.settle become ∧ ∀ w, become w = .held w ∨
      (become w = .done w ∧ (s.workers w).ended = some (.ok ())) ∨ become w = .lost := by
  cases e with
  | wire => exact h.elim
  | finished w =>
    refine ⟨_, rfl, fun w' => ?_⟩
    by_cases hw : w' = w
    · subst hw; exact .inr (.inl ⟨if_pos rfl, h⟩)
    · exact .inl (if_neg hw)
  | crashed w =>
    refine ⟨_, rfl, fun w' => ?_⟩
    by_cases hw : w' = w
    · exact .inr (.inr (if_pos hw))
    · exact .inl (if_neg hw)
  | terminated => exact ⟨_, rfl, fun _ => .inr (.inr rfl)⟩

include hs in
theorem Life.quiet {a : Action} (h : step cfg s a = some s') (hquiet : Quiet s s')
    (haccounts : Accounts s') : Life s' := by
  -- a worker that holds a line after the step has not moved
  have hsame : ∀ {i w : Nat}, (ledger s'.log).fates[i]? = some (.held w) →
      s'.workers w = s.workers w := by
    intro i w hf
    obtain ⟨payload, hi⟩ := Ledger.exists_pushed hf
    have hpayload := (haccounts.holds w payload).mpr ⟨i, hf, hi⟩
    rcases hquiet.workers w with heq | hnil
    · exact heq
    · rw [Worker.payload?, hnil] at hpayload
      cases hpayload
  have hkeep : ∀ {m : Machine} {q : Talk Unit} {i w : Nat},
      (ledger s'.log).fates[i]? = some (.held w) → Stands s m q (.held w) →
      Stands s' m q (.held w) := by
    rintro m q i w hf ⟨task, begun, hw, hq⟩
    exact ⟨task, begun, (hsame hf).trans hw, hq⟩
  rcases hquiet.log with heq | ⟨e, heq, hcloses⟩
  · refine hs.of_quiet h (fun id => by rw [heq]) (fun i => by rw [heq]) ?_
    intro i job f _ hf g m q hg hstands
    have hgf : g = f := by
      rw [heq, hg] at hf
      exact Option.some.inj hf
    subst hgf
    cases g with
    | held w => exact hkeep hf hstands
    | done w => exact hstands
    | lost => trivial
  · obtain ⟨become, haccount, hbecome⟩ := account_closes hcloses (ledger s.log)
    have hledger : ledger s'.log = (ledger s.log).settle become := by
      rw [heq, ledger_concat, haccount]
    refine hs.of_quiet h (fun id => ?_) (fun i => ?_) ?_
    · rw [heq, life_append]
      cases e with
      | wire => exact hcloses.elim
      | _ => simp [life, Event.life?]
    · simp [hledger]
    · intro i job f _ hf g m q hg hstands
      have hsettle : Fate.settle become g = f := by
        rw [hledger, Ledger.settle_fates, List.getElem?_map, hg] at hf
        exact Option.some.inj hf
      subst hsettle
      cases g with
      | done w => exact hstands
      | lost => trivial
      | held w =>
        change (ledger s'.log).fates[i]? = some (become w) at hf
        show Stands s' m q (become w)
        rcases hbecome w with hw | ⟨hw, hended⟩ | hw <;> rw [hw] at hf ⊢
        · exact hkeep hf hstands
        · obtain ⟨task, begun, hworker, rfl⟩ := hstands
          rw [hworker] at hended
          exact rest_of_ended hended
        · trivial

end Step

/-- **The life of every submission**, in every run in which Redis answers. -/
theorem life_of_run {as : List Action} (hrun : Reaches cfg as s)
    (hserved : ∀ a ∈ as, a.Served) (hids : DistinctIds s) : Life s := by
  induction as using List.reverseRecOn generalizing s with
  | nil =>
    obtain rfl : ({} : Sys cfg) = s := Option.some.inj hrun
    exact ⟨fun _ _ _ => rfl, fun i job f hline => absurd hline.lt (Nat.not_lt_zero _)⟩
  | append_singleton as a ih =>
    obtain ⟨m, hm, ha⟩ := run_concat_iff.mp hrun
    have hserved' : ∀ a ∈ as, a.Served := fun b hb => hserved b (List.mem_append_left _ hb)
    have hstep : Lib.run (step cfg) m [a] = some s := run_cons_iff.mpr ⟨s, ha, rfl⟩
    have hids' : DistinctIds m := hids.of_run hstep
    have hlife := ih hm hserved' hids'
    rcases step_cases ha with ⟨who, net, op, rfl, hop, rfl⟩ | hquiet
    · obtain rfl : net = .served := hserved (.perform who net) (by simp)
      cases who with
      | handler r => exact hlife.perform_handler hop
      | worker w => exact hlife.perform_worker hm hserved' hids' hop
    · exact hlife.quiet ha hquiet (accounts hrun)

end Ocpe.System
