import Ocpe.System.System

/-!
# The history of a run

What the log says about a state, in every run and under all faults.

* `step_cases`: a step is an operation of a party, or it is quiet.
* `handler_trace`: what a handler has performed and been answered is its part of the
  log.
* `worker_trace`: what a worker has performed and been answered in its iteration is
  the last of its part of the log.
* `grows_run`: a run adds to the log and to the requests, and takes nothing back.
* `store_eq_lastSet`: a key that is only ever written by `SET` holds what the last
  `SET` in the log put there.
* `at_event`: for every event of the log there is the state it happened in, further
  up in the same run.
-/

namespace Ocpe.System

open Lib Redis

variable {cfg : Config} {s s' : Sys cfg}

/-- The states of the runs from the empty one. -/
def Reaches (cfg : Config) (as : List Action) (s : Sys cfg) : Prop :=
  Lib.run (step cfg) {} as = some s

def DistinctIds (s : Sys cfg) : Prop :=
  ∀ r r' h h', s.requests r = some h → s.requests r' = some h' →
    h.env.submissionId.text = h'.env.submissionId.text → r = r'

/-! ### One operation -/

/-- What arrives when `who` performs `op`. -/
def Sys.answer (s : Sys cfg) (who : Party) (op : Wire) (net : Net) : Answer :=
  (exchange s.now s.store (s.ctx (s.client who)) op net).2.2

/-- The reply of the server when `who` performs `op`, if it executes a command. -/
def Sys.serverReply (s : Sys cfg) (who : Party) (op : Wire) (net : Net) : Option Reply :=
  Sys.executed s.now s.store (s.ctx (s.client who)) op net

def Sys.event (s : Sys cfg) (who : Party) (op : Wire) (net : Net) : Event :=
  .wire who s.now op (s.serverReply who op net) (s.answer who op net)

section Perform

variable {who : Party} {op : Wire} {net : Net}

theorem step_perform_iff :
    step cfg s (.perform who net) = some s' ↔
      ∃ op, s.op? who = some op ∧ s' = s.perform who op net := by
  simp only [step, Option.map_eq_some_iff]
  exact ⟨fun ⟨op, h, he⟩ => ⟨op, h, he.symm⟩, fun ⟨op, h, he⟩ => ⟨op, h, he.symm⟩⟩

@[simp] theorem perform_log : (s.perform who op net).log = s.log ++ [s.event who op net] := rfl

@[simp] theorem perform_now : (s.perform who op net).now = s.now := by
  cases who <;> rfl

theorem perform_requests :
    (s.perform who op net).requests = (s.feed who (s.answer who op net)).requests := rfl

theorem perform_workers :
    (s.perform who op net).workers = (s.feed who (s.answer who op net)).workers := rfl

/-- **What the server executes**: a command on a good connection, whether or not the reply
arrives. -/
theorem serverReply_eq_some {c : Cmd} {reply : Reply} :
    s.serverReply who (.command c) net = some reply ↔
      s.ctx (s.client who) = .good ∧ (net = .served ∨ ∃ e, net = .unanswered e) ∧
        reply = (exec s.now s.store c).2 := by
  unfold Sys.serverReply
  cases s.ctx (s.client who) with
  | null => simp [Sys.executed]
  | broken e => simp [Sys.executed]
  | good => cases net <;> simp [Sys.executed, eq_comm]

theorem perform_store_of_executed {c : Cmd} {reply : Reply}
    (h : s.serverReply who (.command c) net = some reply) :
    (s.perform who (.command c) net).store = (exec s.now s.store c).1 ∧
      reply = (exec s.now s.store c).2 := by
  obtain ⟨hctx, hnet, hreply⟩ := serverReply_eq_some.mp h
  refine ⟨?_, hreply⟩
  show (exchange s.now s.store (s.ctx (s.client who)) (.command c) net).1 = _
  rw [hctx]
  rcases hnet with rfl | ⟨e, rfl⟩ <;> rfl

/-- A reply that is no error comes from a server that executed the command. -/
theorem executed_of_reply {who : Party} {c : Cmd} {net : Net} {reply : Reply}
    (h : s.answer who (.command c) net = .reply reply) (hok : RedisClient.notError reply = true) :
    s.serverReply who (.command c) net = some reply := by
  unfold Sys.answer at h
  unfold Sys.serverReply
  cases hctx : s.ctx (s.client who) with
  | null => rw [hctx] at h; cases h
  | broken e => rw [hctx] at h; cases h
  | good =>
    rw [hctx] at h
    cases net with
    | served => cases h; rfl
    | refused msg => cases h; cases hok
    | unsent e => cases h
    | unanswered e => cases h

theorem perform_store_of_not_executed (h : s.serverReply who op net = none) :
    (s.perform who op net).store = s.store := by
  show (exchange s.now s.store (s.ctx (s.client who)) op net).1 = _
  unfold Sys.serverReply at h
  cases op with
  | connect => cases net <;> cases s.ctx (s.client who) <;> rfl
  | command c =>
    cases hctx : s.ctx (s.client who) with
    | null => rfl
    | broken e => rfl
    | good =>
      rw [hctx] at h
      cases net with
      | served => cases h
      | unanswered e => cases h
      | refused msg => rfl
      | unsent e => rfl

end Perform

/-! ### Who can send what -/

def Sends (s : Sys cfg) : Party → Wire → Prop
  | .handler r, op => ∃ h, s.requests r = some h ∧ HandlerSends cfg h.env h.request op
  | .worker _, op => WorkerSends op

theorem sends_of_op? {who : Party} {op : Wire} (h : s.op? who = some op) : Sends s who op := by
  cases who with
  | handler r =>
    obtain ⟨h', hr, hop⟩ := Option.bind_eq_some_iff.mp h
    exact ⟨h', hr, Task.issues_op? (h'.begun ▸ handle_sends h'.request) hop⟩
  | worker w =>
    change (s.workers w).op? = some op at h
    unfold Worker.op? at h
    split at h
    · cases h; exact WorkerSends.connect
    · next m task begun _ =>
      exact Task.issues_op? (G := WorkerSends) (begun ▸ iteration_sends cfg m) h
    · cases h

/-! ### What a step can do -/

/-- The event ends an iteration or a process, and the state lets it. -/
def Event.Closes (s : Sys cfg) : Event → Prop
  | .wire .. => False
  | .finished w => (s.workers w).ended = some (.ok ())
  | .crashed _ => True
  | .terminated => ∃ w e, (s.workers w).ended = some (.error e)

/-- A step that is no operation leaves the store alone, appends no operation to the
log, may begin one request, and may put a worker at the start or the end of an
iteration. -/
structure Quiet (s s' : Sys cfg) : Prop where
  now : s.now ≤ s'.now
  store : s'.store = s.store
  log : s'.log = s.log ∨ ∃ e, s'.log = s.log ++ [e] ∧ e.Closes s
  requests : s'.requests = s.requests ∨
    ∃ r api request env, s.requests r = none ∧
      s'.requests = Function.update s.requests r (some (.begin cfg api request env))
  workers : ∀ w, s'.workers w = s.workers w ∨ (s'.workers w).trace = []

/-- **A step is an operation of a party, or it is quiet.** -/
theorem step_cases {a : Action} (h : step cfg s a = some s') :
    (∃ who net op, a = .perform who net ∧ s.op? who = some op ∧ s' = s.perform who op net) ∨
      Quiet s s' := by
  have same : ∀ {workers : Nat → Worker cfg} (w : Nat), workers w = workers w ∨ (workers w).trace = [] :=
    fun _ => .inl rfl
  have moved : ∀ {w : Nat} {worker : Worker cfg}, worker.trace = [] → ∀ w',
      Function.update s.workers w worker w' = s.workers w' ∨
        (Function.update s.workers w worker w').trace = [] := by
    intro w worker hnew w'
    by_cases hw : w' = w
    · subst hw; rw [Function.update_self]; exact .inr hnew
    · exact .inl (Function.update_of_ne hw ..)
  cases a with
  | tick ms => cases h; exact .inr ⟨Nat.le_add_right .., rfl, .inl rfl, .inl rfl, same⟩
  | stop => cases h; exact .inr ⟨Nat.le_refl _, rfl, .inl rfl, .inl rfl, same⟩
  | request r api request env =>
    simp only [step] at h
    split at h
    · next hnone =>
      cases h
      exact .inr ⟨Nat.le_refl _, rfl, .inl rfl,
        .inr ⟨r, api, request, env, Option.isNone_iff_eq_none.mp hnone, rfl⟩, same⟩
    · cases h
  | perform who net =>
    obtain ⟨op, hop, rfl⟩ := step_perform_iff.mp h
    exact .inl ⟨who, net, op, rfl, hop, rfl⟩
  | test w m =>
    obtain ⟨worker, htest, rfl⟩ := Option.map_eq_some_iff.mp h
    refine .inr ⟨Nat.le_refl _, rfl, .inl rfl, .inl rfl, moved ?_⟩
    cases hworker : s.workers w <;> rw [hworker] at htest <;> cases htest <;> split <;> rfl
  | next w =>
    simp only [step] at h
    split at h
    · next hended =>
      cases h
      exact .inr ⟨Nat.le_refl _, rfl, .inr ⟨_, rfl, hended⟩, .inl rfl, moved rfl⟩
    · cases h
  | terminate w =>
    simp only [step] at h
    split at h
    · next e hended =>
      cases h
      exact .inr ⟨Nat.le_refl _, rfl, .inr ⟨_, rfl, w, e, hended⟩, .inl rfl, fun _ => .inr rfl⟩
    · cases h
  | crash w =>
    cases h
    exact .inr ⟨Nat.le_refl _, rfl, .inr ⟨_, rfl, trivial⟩, .inl rfl, moved rfl⟩

theorem forall_log_concat {P : Event → Prop} (hs : ∀ e ∈ s.log, P e) {e : Event}
    (hlog : s'.log = s.log ++ [e]) (he : P e) : ∀ e ∈ s'.log, P e := by
  intro e' he'
  rw [hlog, List.mem_append, List.mem_singleton] at he'
  rcases he' with he' | rfl
  · exact hs e' he'
  · exact he

/-! ### The log grows -/

/-- **Every operation in the log was performed in a state further up in the run.** -/
theorem at_event {as : List Action} (hrun : Reaches cfg as s) {pre post : List Event} {who : Party}
    {now : Nat} {op : Wire} {executed : Option Reply} {answer : Answer}
    (hlog : s.log = pre ++ .wire who now op executed answer :: post) :
    ∃ as₁ net as₂ m, as = as₁ ++ .perform who net :: as₂ ∧ Reaches cfg as₁ m ∧ m.log = pre ∧
      m.op? who = some op ∧ m.event who op net = .wire who now op executed answer ∧
      Lib.run (step cfg) (m.perform who op net) as₂ = some s := by
  induction as using List.reverseRecOn generalizing s post with
  | nil =>
    obtain rfl : ({} : Sys cfg) = s := Option.some.inj hrun
    simp at hlog
  | append_singleton as a ih =>
    obtain ⟨m, hm, ha⟩ := run_concat_iff.mp hrun
    have later : ∀ {post}, m.log = pre ++ .wire who now op executed answer :: post →
        ∃ as₁ net as₂ m', as ++ [a] = as₁ ++ .perform who net :: as₂ ∧ Reaches cfg as₁ m' ∧
          m'.log = pre ∧ m'.op? who = some op ∧
          m'.event who op net = .wire who now op executed answer ∧
          Lib.run (step cfg) (m'.perform who op net) as₂ = some s := by
      intro post hmlog
      obtain ⟨as₁, net, as₂, m', rfl, h₁, h₂, h₃, h₄, h₅⟩ := ih hm hmlog
      exact ⟨as₁, net, as₂ ++ [a], m', by simp, h₁, h₂, h₃, h₄,
        run_concat_iff.mpr ⟨m, h₅, ha⟩⟩
    have split : ∀ {e}, m.log ++ [e] = pre ++ .wire who now op executed answer :: post →
        (m.log = pre ∧ e = .wire who now op executed answer ∧ post = []) ∨
          ∃ post', m.log = pre ++ .wire who now op executed answer :: post' := by
      intro e he
      rcases List.eq_nil_or_concat post with rfl | ⟨post, last, rfl⟩
      · obtain ⟨hmlog, he⟩ := List.append_inj' he rfl
        exact .inl ⟨hmlog, List.singleton_inj.mp he, rfl⟩
      · rw [List.concat_eq_append, ← List.cons_append, ← List.append_assoc] at he
        exact .inr ⟨post, (List.append_inj' he rfl).1⟩
    rcases step_cases ha with ⟨who', net, op', rfl, hop, rfl⟩ | hquiet
    · rcases split (perform_log.symm.trans hlog) with ⟨hmlog, he, rfl⟩ | ⟨post', hpost⟩
      · obtain ⟨rfl, rfl, rfl⟩ : who' = who ∧ m.now = now ∧ op' = op := by
          cases he; exact ⟨rfl, rfl, rfl⟩
        exact ⟨as, net, [], m, rfl, hm, hmlog, hop, he, rfl⟩
      · exact later hpost
    · rcases hquiet.log with heq | ⟨e, heq, hcloses⟩
      · exact later (heq ▸ hlog)
      · rcases split (heq.symm.trans hlog) with ⟨-, rfl, -⟩ | ⟨post', hpost⟩
        · exact hcloses.elim
        · exact later hpost

theorem at_mem {as : List Action} (hrun : Reaches cfg as s) {who : Party} {now : Nat} {op : Wire}
    {executed : Option Reply} {answer : Answer}
    (he : .wire who now op executed answer ∈ s.log) :
    ∃ as₁ net as₂ m, as = as₁ ++ .perform who net :: as₂ ∧ Reaches cfg as₁ m ∧
      m.op? who = some op ∧ m.event who op net = .wire who now op executed answer ∧
      Lib.run (step cfg) (m.perform who op net) as₂ = some s := by
  obtain ⟨pre, post, hlog⟩ := List.append_of_mem he
  obtain ⟨as₁, net, as₂, m, has, hm, -, hop, hevent, hrest⟩ := at_event hrun hlog
  exact ⟨as₁, net, as₂, m, has, hm, hop, hevent, hrest⟩

/-- **What a party is told has happened.** -/
theorem executed_of_told {as : List Action} (hrun : Reaches cfg as s) {who : Party} {now : Nat}
    {c : Cmd} {executed : Option Reply} {reply : Reply}
    (he : .wire who now (.command c) executed (.reply reply) ∈ s.log)
    (hok : RedisClient.notError reply = true) : executed = some reply := by
  obtain ⟨as₁, net, as₂, m, -, -, -, hevent, -⟩ := at_mem hrun he
  obtain ⟨-, -, -, hexecuted, hanswer⟩ := Event.wire.inj hevent
  rw [← hexecuted]
  exact executed_of_reply hanswer hok

/-! ### The trace of a handler -/

/-- What the party has performed and been answered. -/
def ownTrace (who : Party) (log : List Event) : List (Wire × Answer) :=
  log.filterMap fun e =>
    match e with
    | .wire who' _ op _ answer => if who' = who then some (op, answer) else none
    | _ => none

@[simp] theorem ownTrace_append (who : Party) (l₁ l₂ : List Event) :
    ownTrace who (l₁ ++ l₂) = ownTrace who l₁ ++ ownTrace who l₂ := List.filterMap_append

theorem mem_ownTrace_iff {who : Party} {op : Wire} {answer : Answer} {log : List Event} :
    (op, answer) ∈ ownTrace who log ↔
      ∃ now executed, Event.wire who now op executed answer ∈ log := by
  constructor
  · intro h
    obtain ⟨e, he, heq⟩ := List.mem_filterMap.mp h
    split at heq
    · split at heq
      · next hwho => cases heq; subst hwho; exact ⟨_, _, he⟩
      · cases heq
    · cases heq
  · rintro ⟨now, executed, he⟩
    exact List.mem_filterMap.mpr ⟨_, he, if_pos rfl⟩

/-- The trace of the handler, if the request is there. -/
def Sys.trace (s : Sys cfg) (r : Nat) : List (Wire × Answer) :=
  ((s.requests r).map fun h => h.task.trace).getD []

theorem op?_handler_iff {r : Nat} {op : Wire} :
    s.op? (.handler r) = some op ↔ ∃ h, s.requests r = some h ∧ h.task.op? = some op :=
  Option.bind_eq_some_iff

theorem handler_at {r : Nat} {op : Wire} (hop : s.op? (.handler r) = some op) :
    ∃ h next, s.requests r = some h ∧
      (ApiServer.handle cfg h.env h.request).Path h.task.trace (.op op next) := by
  obtain ⟨h, hr, htask⟩ := op?_handler_iff.mp hop
  obtain ⟨next, hrest⟩ := Task.op?_eq_some.mp htask
  exact ⟨h, next, hr, hrest ▸ h.path⟩

theorem ownTrace_of_closes (who : Party) {e : Event} (h : e.Closes s) : ownTrace who [e] = [] := by
  cases e with
  | wire => exact h.elim
  | _ => rfl

theorem Quiet.trace (h : Quiet s s') (r : Nat) : s'.trace r = s.trace r := by
  rcases h.requests with heq | ⟨r', api, request, env, hnone, heq⟩
  · rw [Sys.trace, heq, Sys.trace]
  · rw [Sys.trace, heq, Sys.trace]
    by_cases hr : r = r'
    · subst hr
      simp [hnone, Handling.begin, Task.begin]
    · rw [Function.update_of_ne hr]

theorem handler_trace_step {a : Action} (h : step cfg s a = some s')
    (hs : ∀ r, s.trace r = ownTrace (.handler r) s.log) (r : Nat) :
    s'.trace r = ownTrace (.handler r) s'.log := by
  rcases step_cases h with ⟨who, net, op, rfl, hop, rfl⟩ | hquiet
  · rw [perform_log, ownTrace_append, ← hs r]
    cases who with
    | handler r' =>
      by_cases hr : r = r'
      · subst hr
        obtain ⟨h', hh, htask⟩ := op?_handler_iff.mp hop
        simp [Sys.trace, perform_requests, Sys.feed, hh, ownTrace, Sys.event, Handling.feed,
          Task.feed_trace htask]
      · simp [Sys.trace, perform_requests, Sys.feed, Function.update_of_ne hr, ownTrace,
          Sys.event, Ne.symm hr]
    | worker w => simp [Sys.trace, perform_requests, Sys.feed, ownTrace, Sys.event]
  · rw [hquiet.trace, hs r]
    rcases hquiet.log with heq | ⟨e, heq, hcloses⟩
    · rw [heq]
    · rw [heq, ownTrace_append, ownTrace_of_closes _ hcloses, List.append_nil]

/-- **The trace of a handler is its part of the log.** -/
theorem handler_trace {as : List Action} (hrun : Reaches cfg as s) (r : Nat) :
    s.trace r = ownTrace (.handler r) s.log :=
  run_invariant (fun s => ∀ r, s.trace r = ownTrace (.handler r) s.log) hrun (fun _ => rfl)
    (fun _ _ _ hm h => handler_trace_step h hm) r

theorem task_trace {as : List Action} (hrun : Reaches cfg as s) {r : Nat} {h : Handling cfg}
    (hr : s.requests r = some h) : h.task.trace = ownTrace (.handler r) s.log := by
  have htrace := handler_trace hrun r
  rw [Sys.trace, hr] at htrace
  exact htrace

theorem mem_trace_iff {as : List Action} (hrun : Reaches cfg as s) {r : Nat} {h : Handling cfg}
    (hr : s.requests r = some h) {op : Wire} {answer : Answer} :
    (op, answer) ∈ h.task.trace ↔
      ∃ now executed, .wire (.handler r) now op executed answer ∈ s.log := by
  rw [task_trace hrun hr]
  exact mem_ownTrace_iff

theorem trace_step {a : Action} (h : step cfg s a = some s') (r : Nat) :
    s'.trace r = s.trace r ∨ ∃ net op, a = .perform (.handler r) net ∧
      s.op? (.handler r) = some op ∧ s' = s.perform (.handler r) op net ∧
      s'.trace r = s.trace r ++ [(op, s.answer (.handler r) op net)] := by
  rcases step_cases h with ⟨who, net, op, rfl, hop, rfl⟩ | hquiet
  · cases who with
    | handler r' =>
      by_cases hr : r = r'
      · subst hr
        obtain ⟨h', hh, htask⟩ := op?_handler_iff.mp hop
        refine .inr ⟨net, op, rfl, hop, rfl, ?_⟩
        simp [Sys.trace, perform_requests, Sys.feed, hh, Handling.feed, Task.feed_trace htask]
      · left
        simp [Sys.trace, perform_requests, Sys.feed, Function.update_of_ne hr]
    | worker w => exact .inl rfl
  · exact .inl (hquiet.trace r)

/-- **Every operation of a handler was performed in a state on the way**, with just the
operations before it behind it. -/
theorem at_trace {as : List Action} (hrun : Lib.run (step cfg) s as = some s') {r : Nat}
    {u w : List (Wire × Answer)} {op : Wire} {answer : Answer} (hstart : s.trace r <+: u)
    (htrace : s'.trace r = u ++ (op, answer) :: w) :
    ∃ as₁ net as₂ m, as = as₁ ++ .perform (.handler r) net :: as₂ ∧
      Lib.run (step cfg) s as₁ = some m ∧ m.answer (.handler r) op net = answer ∧
      (m.perform (.handler r) op net).trace r = u ++ [(op, answer)] ∧
      step cfg m (.perform (.handler r) net) = some (m.perform (.handler r) op net) ∧
      Lib.run (step cfg) (m.perform (.handler r) op net) as₂ = some s' := by
  induction as using List.reverseRecOn generalizing s' w with
  | nil =>
    obtain rfl : s = s' := Option.some.inj hrun
    have hle := hstart.length_le
    rw [htrace, List.length_append, List.length_cons] at hle
    omega
  | append_singleton as a ih =>
    obtain ⟨m, hm, ha⟩ := run_concat_iff.mp hrun
    have extend : (∃ w, m.trace r = u ++ (op, answer) :: w) →
        ∃ as₁ net as₂ m', as ++ [a] = as₁ ++ .perform (.handler r) net :: as₂ ∧
          Lib.run (step cfg) s as₁ = some m' ∧ m'.answer (.handler r) op net = answer ∧
          (m'.perform (.handler r) op net).trace r = u ++ [(op, answer)] ∧
          step cfg m' (.perform (.handler r) net) = some (m'.perform (.handler r) op net) ∧
          Lib.run (step cfg) (m'.perform (.handler r) op net) as₂ = some s' := by
      rintro ⟨w, hw⟩
      obtain ⟨as₁, net, as₂, m', rfl, h₁, h₂, h₃, h₄, h₅⟩ := ih hm hw
      exact ⟨as₁, net, as₂ ++ [a], m', by simp, h₁, h₂, h₃, h₄, run_concat_iff.mpr ⟨m, h₅, ha⟩⟩
    rcases trace_step ha r with heq | ⟨net, op', rfl, hop, rfl, heq⟩
    · exact extend ⟨w, heq ▸ htrace⟩
    · rcases List.eq_nil_or_concat w with rfl | ⟨w', last, rfl⟩
      · have hsplit := heq.symm.trans htrace
        obtain ⟨-, hlast⟩ := List.append_inj' hsplit rfl
        cases hlast
        exact ⟨as, net, [], m, rfl, hm, rfl, htrace, ha, rfl⟩
      · rw [List.concat_eq_append, ← List.cons_append, ← List.append_assoc] at htrace
        exact extend ⟨w', (List.append_inj' (heq.symm.trans htrace) rfl).1⟩

/-! ### The trace of a worker -/

theorem Worker.feed_trace {worker : Worker cfg} {op : Wire} (hop : worker.op? = some op)
    (a : Answer) : (worker.feed a).trace = [] ∨ (worker.feed a).trace = worker.trace ++ [(op, a)] := by
  cases worker with
  | connecting =>
    left
    unfold Worker.feed
    split <;> simp_all [Worker.trace]
  | busy m task begun => exact .inr (Task.feed_trace hop a)
  | _ => cases hop

theorem worker_trace_step {a : Action} (h : step cfg s a = some s')
    (hs : ∀ w, (s.workers w).trace <:+ ownTrace (.worker w) s.log) (w : Nat) :
    (s'.workers w).trace <:+ ownTrace (.worker w) s'.log := by
  rcases step_cases h with ⟨who, net, op, rfl, hop, rfl⟩ | hquiet
  · rw [perform_log, ownTrace_append]
    by_cases hw : who = .worker w
    · subst hw
      have hworkers : (s.perform (.worker w) op net).workers w =
          (s.workers w).feed (s.answer (.worker w) op net) := Function.update_self ..
      rw [hworkers]
      rcases Worker.feed_trace hop (s.answer (.worker w) op net) with
        htrace | htrace
      · rw [htrace]; exact List.nil_suffix
      · obtain ⟨earlier, hearlier⟩ := hs w
        rw [htrace, ← hearlier]
        exact ⟨earlier, by simp [ownTrace, Sys.event]⟩
    · have hworkers : (s.perform who op net).workers w = s.workers w := by
        cases who with
        | handler r => rfl
        | worker w' =>
          have hne : w ≠ w' := fun h => hw (congrArg Party.worker h.symm)
          exact Function.update_of_ne hne ..
      have hown : ownTrace (.worker w) [s.event who op net] = [] := by
        simp [ownTrace, Sys.event, hw]
      rw [hworkers, hown, List.append_nil]
      exact hs w
  · have hlog : ownTrace (.worker w) s'.log = ownTrace (.worker w) s.log := by
      rcases hquiet.log with heq | ⟨e, heq, hcloses⟩
      · rw [heq]
      · rw [heq, ownTrace_append, ownTrace_of_closes _ hcloses, List.append_nil]
    rw [hlog]
    rcases hquiet.workers w with heq | hnil
    · rw [heq]; exact hs w
    · rw [hnil]; exact List.nil_suffix

/-- **The trace of a worker's iteration is the last of its part of the log.** -/
theorem worker_trace {as : List Action} (hrun : Reaches cfg as s) (w : Nat) :
    (s.workers w).trace <:+ ownTrace (.worker w) s.log :=
  run_invariant (fun s : Sys cfg => ∀ w, (s.workers w).trace <:+ ownTrace (.worker w) s.log) hrun
    (fun _ => List.nil_suffix) (fun _ _ _ hm h => worker_trace_step h hm) w

theorem rest_of_ended {m : Machine} {task : Task Wire Answer Exn Unit}
    {begun : task.start = WorkerPool.iteration cfg m}
    (h : (Worker.busy m task begun).ended = some (.ok ())) : task.rest = .pure () := by
  cases hrest : task.rest with
  | pure u => rfl
  | throw e => simp [Worker.ended, hrest] at h
  | op i next => simp [Worker.ended, hrest] at h

/-! ### What never changes back -/

/-- The request is the same, and its task has only gone further. -/
structure Handling.Continues (h h' : Handling cfg) : Prop where
  request : h'.request = h.request
  env : h'.env = h.env
  trace : h.task.trace <+: h'.task.trace

/-- What a run can only add to. -/
structure Grows (s s' : Sys cfg) : Prop where
  now : s.now ≤ s'.now
  log : s.log <+: s'.log
  requests : ∀ r h, s.requests r = some h → ∃ h', s'.requests r = some h' ∧ h.Continues h'

theorem Handling.Continues.refl (h : Handling cfg) : h.Continues h :=
  ⟨rfl, rfl, List.prefix_rfl⟩

theorem Grows.refl (s : Sys cfg) : Grows s s :=
  ⟨Nat.le_refl _, List.prefix_rfl, fun _ h hr => ⟨h, hr, .refl h⟩⟩

theorem Grows.trans {s₁ s₂ s₃ : Sys cfg} (h : Grows s₁ s₂) (h' : Grows s₂ s₃) : Grows s₁ s₃ := by
  refine ⟨h.now.trans h'.now, h.log.trans h'.log, fun r h₁ hr => ?_⟩
  obtain ⟨h₂, hr₂, c⟩ := h.requests r h₁ hr
  obtain ⟨h₃, hr₃, c'⟩ := h'.requests r h₂ hr₂
  exact ⟨h₃, hr₃, c'.request.trans c.request, c'.env.trans c.env, c.trace.trans c'.trace⟩

theorem Handling.continues_feed (h : Handling cfg) (a : Answer) : h.Continues (h.feed a) := by
  refine ⟨rfl, rfl, ?_⟩
  show h.task.trace <+: (h.task.feed a).trace
  cases hop : h.task.op? with
  | some op => rw [Task.feed_trace hop]; exact List.prefix_append ..
  | none =>
    have heq := Task.feed_of_op?_none hop a
    exact ⟨[], by rw [List.append_nil, heq]⟩

theorem grows_step {a : Action} (h : step cfg s a = some s') : Grows s s' := by
  rcases step_cases h with ⟨who, net, op, rfl, hop, rfl⟩ | hquiet
  · refine ⟨(perform_now).ge, List.prefix_append .., fun r' h' hr' => ?_⟩
    cases who with
    | handler r =>
      by_cases hr : r' = r
      · subst hr
        exact ⟨h'.feed (s.answer (.handler r') op net),
          by simp [perform_requests, Sys.feed, hr'], h'.continues_feed _⟩
      · exact ⟨h', by simp [perform_requests, Sys.feed, Function.update_of_ne hr, hr'], .refl h'⟩
    | worker w => exact ⟨h', hr', .refl h'⟩
  · refine ⟨hquiet.now, ?_, fun r' h' hr' => ⟨h', ?_, .refl h'⟩⟩
    · rcases hquiet.log with heq | ⟨e, heq, -⟩
      · exact heq ▸ List.prefix_rfl
      · exact heq ▸ List.prefix_append ..
    · rcases hquiet.requests with heq | ⟨r, api, request, env, hnone, heq⟩
      · rw [heq, hr']
      · have hne : r' ≠ r := by
          rintro rfl
          rw [hr'] at hnone
          cases hnone
        rw [heq, Function.update_of_ne hne, hr']

/-- **A run only adds.** -/
theorem grows_run {as : List Action} (h : Lib.run (step cfg) s as = some s') : Grows s s' :=
  run_mono Grows Grows.refl Grows.trans h fun _ _ _ => grows_step

theorem DistinctIds.of_run {as : List Action} (hids : DistinctIds s')
    (h : Lib.run (step cfg) s as = some s') : DistinctIds s := by
  intro r r' k k' hk hk' heq
  obtain ⟨l, hl, hcont⟩ := (grows_run h).requests r k hk
  obtain ⟨l', hl', hcont'⟩ := (grows_run h).requests r' k' hk'
  exact hids r r' l l' hl hl' (by rw [hcont.env, hcont'.env, heq])

/-- **What is in the log was sent by a party that may send it.** -/
theorem sends_of_mem {as : List Action} (hrun : Reaches cfg as s) {who : Party} {now : Nat}
    {op : Wire} {executed : Option Reply} {answer : Answer}
    (he : .wire who now op executed answer ∈ s.log) : Sends s who op := by
  obtain ⟨as₁, net, as₂, m, -, -, hop, -, hrest⟩ := at_mem hrun he
  have hsends := sends_of_op? hop
  cases who with
  | handler r =>
    obtain ⟨h, hr, hsends⟩ := hsends
    have hstep : step cfg m (.perform (.handler r) net) = some _ :=
      step_perform_iff.mpr ⟨_, hop, rfl⟩
    obtain ⟨h', hr', hcont⟩ := ((grows_step hstep).trans (grows_run hrest)).requests r h hr
    exact ⟨h', hr', by rw [hcont.env, hcont.request]; exact hsends⟩
  | worker w => exact hsends

/-! ### Keys that only `SET` writes -/

/-- A `SET` of the key that the server executed: the time, the value and its expiry. -/
structure SetEvent where
  now : Nat
  value : Bytes
  exSec : Option Nat
  deriving DecidableEq, Repr

def SetEvent.entry (e : SetEvent) : Entry :=
  ⟨.str e.value, e.exSec.map fun sec => e.now + sec * 1000⟩

def Event.set? (key : Bytes) : Event → Option SetEvent
  | .wire _ now (.command (.set k value exSec)) (some _) _ =>
    if k = key then some ⟨now, value, exSec⟩ else none
  | _ => none

theorem Event.set?_eq_some {key : Bytes} {e : Event} {x : SetEvent} :
    e.set? key = some x ↔ ∃ who reply answer,
      e = .wire who x.now (.command (.set key x.value x.exSec)) (some reply) answer := by
  constructor
  · intro h
    unfold Event.set? at h
    split at h
    · split at h
      · next hkey =>
        cases h
        subst hkey
        exact ⟨_, _, _, rfl⟩
      · cases h
    · cases h
  · rintro ⟨who, reply, answer, rfl⟩
    simp [Event.set?]

def sets (key : Bytes) (log : List Event) : List SetEvent := log.filterMap (Event.set? key)

@[simp] theorem sets_append (key : Bytes) (l₁ l₂ : List Event) :
    sets key (l₁ ++ l₂) = sets key l₁ ++ sets key l₂ := List.filterMap_append

/-- No party writes the key by anything but `SET`. -/
def SetOnly (key : Bytes) : Prop :=
  ∀ op : Wire, op.writes = some key →
    (∀ (cfg : Config) (env : Surroundings) (request : Request), HandlerSends cfg env request op →
      ∃ value exSec, op = .command (.set key value exSec)) ∧
    (WorkerSends op → ∃ value exSec, op = .command (.set key value exSec))

theorem setOnly_of_take {key : Bytes} (hqueue : key.take 10 ≠ bytes "ocpe:submi")
    (hsubs : key.take 10 ≠ bytes "ocpe:user_") : SetOnly key := by
  intro op hwrites
  constructor
  · intro cfg env request hsends
    cases hsends with
    | connect => cases hwrites
    | get => cases hwrites
    | llen => cases hwrites
    | lrange => cases hwrites
    | setUser => cases hwrites; exact ⟨_, _, rfl⟩
    | setToken => cases hwrites; exact ⟨_, _, rfl⟩
    | pushJob => cases hwrites; exact absurd take_queueKey hqueue
    | setPending => cases hwrites; exact ⟨_, _, rfl⟩
    | pushHistory username => cases hwrites; exact absurd (take_userSubsKey _) hsubs
    | trimHistory username => cases hwrites; exact absurd (take_userSubsKey _) hsubs
  · intro hsends
    cases hsends with
    | connect => cases hwrites
    | popJob => cases hwrites; exact absurd take_queueKey hqueue
    | setStatus id v => cases hwrites; exact ⟨_, _, rfl⟩
    | setResult id payload => cases hwrites; exact ⟨_, _, rfl⟩

theorem SetOnly.of_sends {key : Bytes} (hkey : SetOnly key) {who : Party} {op : Wire}
    (hop : s.op? who = some op) (hwrites : op.writes = some key) :
    ∃ value exSec, op = .command (.set key value exSec) := by
  have hsends := sends_of_op? hop
  cases who with
  | handler r =>
    obtain ⟨h, -, hsends⟩ := hsends
    exact (hkey op hwrites).1 cfg h.env h.request hsends
  | worker w => exact (hkey op hwrites).2 hsends

theorem sets_of_closes (key : Bytes) {e : Event} (h : e.Closes s) : sets key [e] = [] := by
  cases e with
  | wire => exact h.elim
  | _ => rfl

theorem sets_of_not_executed (key : Bytes) {who : Party} {now : Nat} {op : Wire} {answer : Answer} :
    sets key [.wire who now op none answer] = [] := by
  cases op with
  | connect => rfl
  | command c => cases c <;> rfl

theorem sets_of_not_writes {key : Bytes} {who : Party} {now : Nat} {op : Wire}
    {executed : Option Reply} {answer : Answer} (h : op.writes ≠ some key) :
    sets key [.wire who now op executed answer] = [] := by
  cases op with
  | connect => rfl
  | command c =>
    cases executed with
    | none => exact sets_of_not_executed key
    | some reply =>
      cases c with
      | set k value exSec =>
        have hne : k ≠ key := fun hk => h (congrArg some hk)
        simp [sets, Event.set?, hne]
      | _ => rfl

theorem store_step_lastSet {key : Bytes} (hkey : SetOnly key) {a : Action}
    (h : step cfg s a = some s') (hs : s.store key = (sets key s.log).getLast?.map (·.entry)) :
    s'.store key = (sets key s'.log).getLast?.map (·.entry) := by
  rcases step_cases h with ⟨who, net, op, rfl, hop, rfl⟩ | hquiet
  · rw [perform_log, sets_append, Sys.event]
    cases hreply : s.serverReply who op net with
    | none =>
      rw [perform_store_of_not_executed hreply, sets_of_not_executed, List.append_nil, hs]
    | some reply =>
      by_cases hwrites : op.writes = some key
      · obtain ⟨value, exSec, rfl⟩ := hkey.of_sends hop hwrites
        rw [(perform_store_of_executed hreply).1]
        simp [exec, sets, Event.set?, SetEvent.entry]
      · rw [sets_of_not_writes hwrites, List.append_nil, ← hs]
        exact exchange_frame hwrites
  · rw [hquiet.store, hs]
    rcases hquiet.log with heq | ⟨e, heq, hcloses⟩
    · rw [heq]
    · rw [heq, sets_append, sets_of_closes _ hcloses, List.append_nil]

/-- **The store holds what the last `SET` put there.** -/
theorem store_eq_lastSet {key : Bytes} (hkey : SetOnly key) {as : List Action}
    (hrun : Reaches cfg as s) : s.store key = (sets key s.log).getLast?.map (·.entry) :=
  run_invariant (fun s : Sys cfg => s.store key = (sets key s.log).getLast?.map (·.entry)) hrun
    rfl fun _ _ _ hm h => store_step_lastSet hkey h hm

end Ocpe.System
