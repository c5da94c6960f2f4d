import Ocpe.Lib.Ledger
import Ocpe.System.History

/-!
# The queue and its ledger

Every job that goes through the list `ocpe:submission_queue` gets a line in a
ledger, computed from the log: `account` enters an executed `LPUSH`, an executed
`BRPOP` (into the worker's hands, or lost when the reply is), and the end of an
iteration.

`accounts` is the refinement, under all faults and crashes: in every reachable
state the list in Redis is what the ledger has waiting, and a worker holds a payload
exactly when the ledger says so.  A payload that is pushed twice has two lines.
-/

namespace Ocpe.System

open Lib Redis RedisClient

variable {cfg : Config} {s s' : Sys cfg}

/-! ### The ledger of a log -/

def account (L : Ledger Bytes Nat) : Event → Ledger Bytes Nat
  | .wire _ _ (.command (.lpush key payload)) (some (.int _)) _ =>
    if key = queueKey then L.push payload else L
  | .wire (.worker w) _ (.command (.brpop _ _)) (some (.arr _)) answer =>
    L.take (match answer with
      | .reply _ => .held w
      | _ => .lost)
  | .finished w => L.settle fun w' => if w' = w then .done w else .held w'
  | .crashed w => L.settle fun w' => if w' = w then .lost else .held w'
  | .terminated => L.settle fun _ => .lost
  | _ => L

def ledger (log : List Event) : Ledger Bytes Nat := log.foldl account .empty

theorem ledger_concat (log : List Event) (e : Event) :
    ledger (log ++ [e]) = account (ledger log) e := by
  simp [ledger]

def popped? : Wire × Answer → Option Bytes
  | (.command (.brpop _ _), .reply (.arr (_ :: payload :: _))) => some payload
  | _ => none

/-- The payload of the job that the worker is at. -/
def Worker.payload? (worker : Worker cfg) : Option Bytes := worker.trace.findSome? popped?

/-- The list in Redis and the workers' hands are as the ledger says. -/
structure Accounts (s : Sys cfg) : Prop where
  queue : s.store queueKey = listEntry (ledger s.log).waiting.reverse
  holds : ∀ w p, (s.workers w).payload? = some p ↔ (ledger s.log).Holds w p
  oneEach : (ledger s.log).OneEach

/-! ### A worker pops once -/

theorem no_reply_of_path {c : Cmd} {t : List (Wire × Answer)} {p : Talk (Option Reply)}
    (h : (execCommand c).Path t p) (hp : ∀ r, p ≠ .pure (some r)) :
    ∀ x ∈ t, ∀ r, x ≠ (.command c, .reply r) := by
  have ends : ∀ {t : List (Wire × Answer)} {r : Option Reply}, Prog.Path (.pure r) t p →
      t = [] ∧ r = none := by
    intro t r h
    obtain ⟨ht, rfl⟩ := Prog.path_pure.mp h
    cases r with
    | none => exact ⟨ht, rfl⟩
    | some r => exact absurd rfl (hp r)
  cases t with
  | nil => simp
  | cons x t =>
    obtain ⟨op, a⟩ := x
    obtain ⟨rfl, h⟩ := h
    change (afterCommand c a).Path t p at h
    cases a with
    | noContext => obtain ⟨rfl, -⟩ := ends h; simp
    | reply r => cases (ends h).2
    | connected b => obtain ⟨rfl, -⟩ := ends h; simp
    | failed e =>
      cases e with
      | eof => obtain ⟨rfl, -⟩ := ends h; simp
      | io =>
        -- the connection is made again, and the command is sent once more
        cases t with
        | nil => simp
        | cons x t =>
          obtain ⟨op, a⟩ := x
          obtain ⟨rfl, h⟩ := h
          cases a with
          | noContext => obtain ⟨rfl, -⟩ := ends h; simp
          | reply r => obtain ⟨rfl, -⟩ := ends h; simp
          | failed e => obtain ⟨rfl, -⟩ := ends h; simp
          | connected up =>
            cases up with
            | false => obtain ⟨rfl, -⟩ := ends h; simp
            | true =>
              cases t with
              | nil => simp
              | cons x t =>
                obtain ⟨op, a⟩ := x
                obtain ⟨rfl, h⟩ := h
                cases a with
                | reply r => cases (ends h).2
                | _ => obtain ⟨rfl, -⟩ := ends h; simp

theorem popped?_of_path {key : Bytes} {timeoutSec : Nat} {t : List (Wire × Answer)}
    {p : Talk (Option Reply)} (h : (execCommand (.brpop key timeoutSec)).Path t p)
    (hp : ∀ r, p ≠ .pure (some r)) : t.findSome? popped? = none := by
  rw [List.findSome?_eq_none_iff]
  intro x hx
  have hissues : (execCommand (.brpop key timeoutSec)).Issues fun op =>
      op = .connect ∨ op = .command (.brpop key timeoutSec) :=
    execCommand_issues (.inr rfl) (.inl rfl)
  have hop := (hissues.of_path h).1 x hx
  have hno := no_reply_of_path h hp x hx
  obtain ⟨op, a⟩ := x
  rcases hop with rfl | rfl
  · rfl
  · cases a with
    | reply r => exact absurd rfl (hno r)
    | _ => rfl

/-- Whatever follows the `BRPOP` in the loop body. -/
def afterPop (cfg : Config) (m : Machine) : Option Reply → Talk Unit
  | some (.arr (_ :: payload :: _)) => do
    WorkerPool.processJob cfg m (← Talk.json (submissionJobFromJson cfg.format payload))
  | _ => return ()

theorem iteration_eq (cfg : Config) (m : Machine) :
    WorkerPool.iteration cfg m = execCommand (.brpop queueKey 5) >>= afterPop cfg m := by
  rw [WorkerPool.iteration, dequeueJob, Prog.bind_assoc]
  congr 1
  funext r
  unfold afterPop
  split <;> simp only [Prog.bind_assoc, Prog.pure_eq, Prog.pure_bind]

/-- The operations of an iteration behind its `BRPOP`. -/
def NotPop (op : Wire) : Prop := ∀ key timeoutSec, op ≠ .command (.brpop key timeoutSec)

theorem afterPop_notPop (m : Machine) (r : Option Reply) :
    (afterPop cfg m r).Issues NotPop := by
  have hset : ∀ key value exSec, (succeeds (.set key value exSec)).Issues NotPop := fun _ _ _ =>
    succeeds_issues (fun _ _ => by simp) (fun _ _ => by simp)
  unfold afterPop
  split
  · refine Prog.issues_bind (json_issues _) fun job =>
      Prog.issues_bind (hset ..) fun _ => Prog.issues_bind (hset ..) fun _ =>
        Prog.issues_bind (Prog.issues_ofExcept _) fun result => Prog.issues_bind ?_ fun _ =>
          Prog.issues_bind (hset ..) fun _ => trivial
    exact Prog.issues_bind (json_issues _) fun _ => hset ..
  · trivial

/-- **A worker at its `BRPOP` has no job yet.** -/
theorem no_payload_at_pop {m : Machine} {task : Task Wire Answer Exn Unit}
    (begun : task.start = WorkerPool.iteration cfg m) {key : Bytes} {timeoutSec : Nat}
    (hop : task.op? = some (.command (.brpop key timeoutSec))) :
    task.trace.findSome? popped? = none := by
  obtain ⟨next, hrest⟩ := Task.op?_eq_some.mp hop
  have hpath := task.path
  rw [begun, iteration_eq, hrest] at hpath
  rcases Prog.path_bind_iff.mp hpath with ⟨p, hp, heq⟩ | ⟨t₁, t₂, r, -, -, hp⟩
  · cases p with
    | pure r =>
      have := @afterPop_notPop cfg m r
      rw [← show Prog.op _ next = afterPop cfg m r from heq] at this
      exact absurd rfl (this.1 key timeoutSec)
    | throw e => cases heq
    | op i next' =>
      exact popped?_of_path hp (by simp)
  · have := ((@afterPop_notPop cfg m r).of_path hp).2
    exact absurd rfl (this.1 key timeoutSec)

/-- **An iteration that ends with a job has been through it.** -/
theorem iteration_path_pure {m : Machine} {t : List (Wire × Answer)}
    (h : (WorkerPool.iteration cfg m).Path t (.pure ())) {payload : Bytes}
    (hpayload : t.findSome? popped? = some payload) :
    ∃ job t₁ t₂, t = t₁ ++ t₂ ∧ submissionJobFromJson cfg.format payload = .ok job ∧
      (WorkerPool.processJob cfg m job).Path t₂ (.pure ()) := by
  rw [iteration_eq] at h
  obtain ⟨t₁, t₂, r, rfl, h₁, h₂⟩ := Prog.path_bind_pure_iff.mp h
  have hnone : t₂.findSome? popped? = none := by
    rw [List.findSome?_eq_none_iff]
    rintro ⟨op, a⟩ hx
    have hnot := ((@afterPop_notPop cfg m r).of_path h₂).1 _ hx
    unfold popped?
    split
    · next heq => cases heq; exact absurd rfl (hnot _ _)
    · rfl
  rw [List.findSome?_append, hnone, Option.or_none] at hpayload
  cases r with
  | none =>
    rw [popped?_of_path h₁ (by simp)] at hpayload
    cases hpayload
  | some reply =>
    have hreply : popped? (.command (.brpop queueKey 5), .reply reply) = some payload := by
      rcases execCommand_path_some h₁ with rfl | rfl
      · rwa [List.findSome?_singleton] at hpayload
      · rwa [List.findSome?_cons_of_isNone rfl, List.findSome?_cons_of_isNone rfl,
          List.findSome?_singleton] at hpayload
    unfold popped? at hreply
    split at hreply
    · next heq =>
      cases heq
      cases hreply
      change (Talk.json (submissionJobFromJson cfg.format payload) >>=
        WorkerPool.processJob cfg m).Path t₂ (.pure ()) at h₂
      obtain ⟨job, hjob, h₂⟩ := path_json_bind h₂ (by simp)
      exact ⟨job, t₁, t₂, rfl, hjob, h₂⟩
    · cases hreply

theorem Worker.feed_payload? {worker : Worker cfg} {op : Wire} (hop : worker.op? = some op)
    (a : Answer) : (worker.feed a).payload? = worker.payload?.or (popped? (op, a)) := by
  cases worker with
  | connecting =>
    cases hop
    unfold Worker.feed
    split <;> simp_all [Worker.payload?, Worker.trace, popped?]
  | busy m task begun =>
    have htrace : (task.feed a).trace = task.trace ++ [(op, a)] := Task.feed_trace hop a
    rw [Worker.payload?, Worker.feed, Worker.trace, htrace, List.findSome?_append,
      List.findSome?_singleton]
    rfl
  | retrying => cases hop
  | ready => cases hop
  | left => cases hop
  | crashed => cases hop

/-! ### One operation -/

section Perform

variable {who : Party} {op : Wire} {net : Net}

theorem perform_workers_of_ne {w : Nat} (hw : who ≠ .worker w) :
    (s.perform who op net).workers w = s.workers w := by
  cases who with
  | handler r => rfl
  | worker w' =>
    have hne : w ≠ w' := fun h => hw (h ▸ rfl)
    exact Function.update_of_ne hne ..

theorem perform_worker {w : Nat} :
    (s.perform (.worker w) op net).workers w =
      (s.workers w).feed (s.answer (.worker w) op net) :=
  Function.update_self ..

theorem perform_payload? (hop : s.op? who = some op)
    (hnone : popped? (op, s.answer who op net) = none) (w : Nat) :
    ((s.perform who op net).workers w).payload? = (s.workers w).payload? := by
  by_cases hw : who = .worker w
  · subst hw
    rw [perform_worker, Worker.feed_payload? hop, hnone, Option.or_none]
  · rw [perform_workers_of_ne hw]

theorem Accounts.perform_of_frame (hs : Accounts s) (hop : s.op? who = some op)
    (hstore : (s.perform who op net).store queueKey = s.store queueKey)
    (haccount : account (ledger s.log) (s.event who op net) = ledger s.log)
    (hnone : popped? (op, s.answer who op net) = none) : Accounts (s.perform who op net) := by
  have hledger : ledger (s.perform who op net).log = ledger s.log := by
    rw [perform_log, ledger_concat, haccount]
  exact ⟨by rw [hledger, hstore]; exact hs.queue,
    fun w p => by rw [hledger, perform_payload? hop hnone]; exact hs.holds w p,
    by rw [hledger]; exact hs.oneEach⟩

theorem Accounts.live (hs : Accounts s) (now : Nat) :
    s.store.live now queueKey =
      if (ledger s.log).waiting = [] then none
      else some (.list (ledger s.log).waiting.reverse) := by
  rw [Store.live, hs.queue, listEntry]
  by_cases hw : (ledger s.log).waiting = []
  · simp [hw]
  · simp [hw, Entry.Live]

theorem popped?_of_not_executed (h : s.serverReply who op net = none) :
    popped? (op, s.answer who op net) = none := by
  unfold Sys.serverReply at h
  unfold Sys.answer
  cases op with
  | connect => cases net <;> cases s.ctx (s.client who) <;> rfl
  | command c =>
    cases hctx : s.ctx (s.client who) with
    | null => cases c <;> rfl
    | broken e => cases c <;> rfl
    | good =>
      rw [hctx] at h
      cases net with
      | served => cases h
      | unanswered e => cases h
      | refused msg => cases c <;> rfl
      | unsent e => cases c <;> rfl

theorem account_of_not_executed {L : Ledger Bytes Nat} {now : Nat} {answer : Answer} :
    account L (.wire who now op none answer) = L := by
  cases op with
  | connect => rfl
  | command c => cases c <;> cases who <;> rfl

theorem answer_of_executed {c : Cmd} {reply : Reply}
    (h : s.serverReply who (.command c) net = some reply) :
    s.answer who (.command c) net = .reply reply ∨
      ∃ e, s.answer who (.command c) net = .failed e := by
  obtain ⟨hctx, hnet, rfl⟩ := serverReply_eq_some.mp h
  rw [Sys.answer, hctx]
  rcases hnet with rfl | ⟨e, rfl⟩
  · exact .inl rfl
  · exact .inr ⟨e, rfl⟩

theorem Accounts.perform_push (hs : Accounts s) {payload : Bytes} {reply : Reply}
    (hop : s.op? who = some (.command (.lpush queueKey payload)))
    (hreply : s.serverReply who (.command (.lpush queueKey payload)) net = some reply) :
    Accounts (s.perform who (.command (.lpush queueKey payload)) net) := by
  obtain ⟨hstore, hexec⟩ := perform_store_of_executed hreply
  have hpush : (∃ n, reply = .int n) ∧ (s.perform who (.command (.lpush queueKey payload)) net).store
      queueKey = some ⟨.list (payload :: (ledger s.log).waiting.reverse), none⟩ := by
    rw [hexec, hstore]
    simp only [exec, hs.live]
    by_cases hw : (ledger s.log).waiting = [] <;> simp [hw, listEntry]
  obtain ⟨⟨n, rfl⟩, hqueue⟩ := hpush
  have hledger : ledger (s.perform who (.command (.lpush queueKey payload)) net).log =
      (ledger s.log).push payload := by
    rw [perform_log, ledger_concat, Sys.event, hreply]
    simp [account]
  have hnone : popped? (.command (.lpush queueKey payload),
      s.answer who (.command (.lpush queueKey payload)) net) = none := rfl
  refine ⟨?_, fun w p => ?_, ?_⟩
  · rw [hledger, hqueue, Ledger.waiting_push]
    simp [listEntry]
  · rw [hledger, perform_payload? hop hnone, Ledger.holds_push_iff]
    exact hs.holds w p
  · rw [hledger]
    exact hs.oneEach.push payload

theorem Accounts.perform_pop (hs : Accounts s) {w : Nat} {timeoutSec : Nat} {reply : Reply}
    (hop : s.op? (.worker w) = some (.command (.brpop queueKey timeoutSec)))
    (hreply : s.serverReply (.worker w) (.command (.brpop queueKey timeoutSec)) net = some reply) :
    Accounts (s.perform (.worker w) (.command (.brpop queueKey timeoutSec)) net) := by
  obtain ⟨hstore, hexec⟩ := perform_store_of_executed hreply
  cases hw : (ledger s.log).waiting with
  | nil =>
    have hlive : s.store.live s.now queueKey = none := by rw [hs.live, if_pos hw]
    rw [exec, hlive] at hexec hstore
    refine hs.perform_of_frame hop (by rw [hstore]) ?_ ?_
    · rw [Sys.event, hreply, hexec]
      rfl
    · rcases answer_of_executed hreply with h | ⟨e, h⟩ <;> rw [h]
      · rw [hexec]; rfl
      · rfl
  | cons j js =>
    have hlive : s.store.live s.now queueKey = some (.list (j :: js).reverse) := by
      rw [hs.live, hw, if_neg (by simp)]
    have hlast : (j :: js).reverse.getLast? = some j := by simp
    simp only [exec, hlive, hlast] at hexec hstore
    -- the worker at its `BRPOP` has no job yet
    have hfree : (s.workers w).payload? = none := by
      have hop' : (s.workers w).op? = some (.command (.brpop queueKey timeoutSec)) := hop
      cases hworker : s.workers w with
      | busy m task begun =>
        rw [hworker] at hop'
        exact no_payload_at_pop begun hop'
      | _ => rfl
    have hfree' : ∀ p, ¬ (ledger s.log).Holds w p := fun p hp => by
      rw [(hs.holds w p).mpr hp] at hfree
      cases hfree
    have hqueue : (s.perform (.worker w) (.command (.brpop queueKey timeoutSec)) net).store
        queueKey = listEntry js.reverse := by
      rw [hstore, Store.put_self]
      simp
    subst hexec
    rcases answer_of_executed hreply with hanswer | ⟨e, hanswer⟩
    · -- the reply arrives: the job is in the worker's hands
      have hledger :
          ledger (s.perform (.worker w) (.command (.brpop queueKey timeoutSec)) net).log =
            (ledger s.log).take (.held w) := by
        rw [perform_log, ledger_concat, Sys.event, hreply, hanswer]
        rfl
      refine ⟨?_, fun w' p => ?_, ?_⟩
      · rw [hledger, hqueue, Ledger.waiting_take hw]
      · rw [hledger, Ledger.holds_take_iff hw]
        by_cases hne : w' = w
        · subst hne
          rw [perform_worker, Worker.feed_payload? hop, hfree, hanswer]
          simp [popped?, hfree' p, eq_comm]
        · rw [perform_workers_of_ne (by simpa using Ne.symm hne), hs.holds]
          simp [Ne.symm hne]
      · rw [hledger]
        refine hs.oneEach.take hw fun w' hw' p => ?_
        cases hw'
        exact hfree' p
    · -- the reply is lost, and the job with it
      have hledger :
          ledger (s.perform (.worker w) (.command (.brpop queueKey timeoutSec)) net).log =
            (ledger s.log).take .lost := by
        rw [perform_log, ledger_concat, Sys.event, hreply, hanswer]
        rfl
      refine ⟨?_, fun w' p => ?_, ?_⟩
      · rw [hledger, hqueue, Ledger.waiting_take hw]
      · rw [hledger, Ledger.holds_take_iff hw, perform_payload? hop (by rw [hanswer]; rfl),
          hs.holds]
        simp
      · rw [hledger]
        exact hs.oneEach.take hw fun w' hw' => by cases hw'

theorem Accounts.perform_other (hs : Accounts s) (hop : s.op? who = some op)
    (hwrites : op.writes ≠ some queueKey) : Accounts (s.perform who op net) := by
  refine hs.perform_of_frame hop (exchange_frame hwrites) ?_ ?_
  · have hsends := sends_of_op? hop
    unfold Sys.event
    generalize s.serverReply who op net = reply
    generalize s.answer who op net = answer
    cases op with
    | connect => rfl
    | command c =>
      cases c with
      | lpush key payload =>
        have hkey : key ≠ queueKey := fun h => hwrites (congrArg some h)
        cases reply with
        | none => rfl
        | some reply => cases reply <;> simp [account, hkey]
      | brpop key timeoutSec =>
        cases who with
        | handler r => obtain ⟨h, -, hsends⟩ := hsends; cases hsends
        | worker w => cases hsends; exact absurd rfl hwrites
      | _ => rfl
  · have hsends := sends_of_op? hop
    cases op with
    | connect => rfl
    | command c =>
      cases c with
      | brpop key timeoutSec =>
        cases who with
        | handler r => obtain ⟨h, -, hsends⟩ := hsends; cases hsends
        | worker w => cases hsends; exact absurd rfl hwrites
      | _ => rfl

theorem Accounts.perform (hs : Accounts s) (hop : s.op? who = some op) :
    Accounts (s.perform who op net) := by
  cases hreply : s.serverReply who op net with
  | none =>
    refine hs.perform_of_frame hop (by rw [perform_store_of_not_executed hreply]) ?_
      (popped?_of_not_executed hreply)
    rw [Sys.event, hreply]
    exact account_of_not_executed
  | some reply =>
    by_cases hwrites : op.writes = some queueKey
    · have hsends := sends_of_op? hop
      cases who with
      | handler r =>
        obtain ⟨h, -, hsends⟩ := hsends
        cases hsends with
        | connect => cases hwrites
        | get => cases hwrites
        | llen => cases hwrites
        | lrange => cases hwrites
        | setUser =>
          exact absurd (Option.some.inj hwrites)
            (ne_of_take (take_userKey _) take_queueKey (by decide))
        | setToken =>
          exact absurd (Option.some.inj hwrites)
            (ne_of_take (take_tokenKey _) take_queueKey (by decide))
        | pushJob => exact hs.perform_push hop hreply
        | setPending =>
          exact absurd (Option.some.inj hwrites)
            (ne_of_take (take_statusKey _) take_queueKey (by decide))
        | pushHistory username =>
          exact absurd (Option.some.inj hwrites)
            (ne_of_take (take_userSubsKey _) take_queueKey (by decide))
        | trimHistory username =>
          exact absurd (Option.some.inj hwrites)
            (ne_of_take (take_userSubsKey _) take_queueKey (by decide))
      | worker w =>
        cases hsends with
        | connect => cases hwrites
        | popJob => exact hs.perform_pop hop hreply
        | setStatus id v =>
          exact absurd (Option.some.inj hwrites)
            (ne_of_take (take_statusKey _) take_queueKey (by decide))
        | setResult id payload =>
          exact absurd (Option.some.inj hwrites)
            (ne_of_take (take_resultKey _) take_queueKey (by decide))
    · exact hs.perform_other hop hwrites

end Perform

/-! ### The accounts are kept -/

theorem Accounts.update_worker (hs : Accounts s) {w : Nat} {worker : Worker cfg}
    (hbefore : (s.workers w).payload? = none) (hafter : worker.payload? = none) :
    Accounts { s with workers := Function.update s.workers w worker } := by
  refine ⟨hs.queue, fun w' p => ?_, hs.oneEach⟩
  rw [← hs.holds w' p]
  by_cases hw : w' = w
  · subst hw
    simp [hbefore, hafter]
  · simp [Function.update_of_ne hw]

theorem Accounts.settle (hs : Accounts s) {workers : Nat → Worker cfg} {e : Event}
    {become : Nat → Fate Nat}
    (haccount : ∀ L, account L e = L.settle become)
    (hbecome : ∀ w w', become w' = .held w → w' = w)
    (hkeeps : ∀ w, become w = .held w → workers w = s.workers w)
    (hfrees : ∀ w, become w ≠ .held w → (workers w).payload? = none) :
    Accounts { s with workers := workers, log := s.log ++ [e] } := by
  have hledger : ledger (s.log ++ [e]) = (ledger s.log).settle become := by
    rw [ledger_concat, haccount]
  refine ⟨?_, fun w p => ?_, ?_⟩
  · simp only [hledger, Ledger.waiting_settle]
    exact hs.queue
  · simp only [hledger, Ledger.holds_settle_iff (hbecome w)]
    by_cases hw : become w = .held w
    · simp [hw, hkeeps w hw, hs.holds]
    · simp [hw, hfrees w hw]
  · simp only [hledger]
    exact hs.oneEach.settle hbecome

theorem accounts_step {a : Action} (h : step cfg s a = some s') (hs : Accounts s) :
    Accounts s' := by
  cases a with
  | tick ms => cases h; exact ⟨hs.queue, hs.holds, hs.oneEach⟩
  | stop => cases h; exact ⟨hs.queue, hs.holds, hs.oneEach⟩
  | request r api request env =>
    simp only [step] at h
    split at h
    · cases h; exact ⟨hs.queue, hs.holds, hs.oneEach⟩
    · cases h
  | perform who net =>
    obtain ⟨op, hop, rfl⟩ := step_perform_iff.mp h
    exact hs.perform hop
  | test w m =>
    obtain ⟨worker, htest, rfl⟩ := Option.map_eq_some_iff.mp h
    refine hs.update_worker ?_ ?_
    · cases hworker : s.workers w <;> rw [hworker] at htest <;> cases htest <;> rfl
    · cases hworker : s.workers w <;> rw [hworker] at htest <;> cases htest <;> split <;> rfl
  | next w =>
    simp only [step] at h
    split at h
    · cases h
      refine hs.settle (fun _ => rfl) (fun w₁ w₂ => ?_) (fun w' => ?_) fun w' => ?_
      · split <;> simp
      · by_cases hw : w' = w <;> simp [hw]
      · by_cases hw : w' = w <;> simp [hw, Worker.payload?, Worker.trace]
    · cases h
  | terminate w =>
    simp only [step] at h
    split at h
    · cases h
      exact hs.settle (fun _ => rfl) (by simp) (by simp) fun _ _ => rfl
    · cases h
  | crash w =>
    cases h
    refine hs.settle (fun _ => rfl) (fun w₁ w₂ => ?_) (fun w' => ?_) fun w' => ?_
    · split <;> simp
    · by_cases hw : w' = w <;> simp [hw]
    · by_cases hw : w' = w <;> simp [hw, Worker.payload?, Worker.trace]

/-- **The ledger is kept in every run**, whatever fails. -/
theorem accounts {as : List Action} (hrun : Reaches cfg as s) : Accounts s := by
  refine run_invariant Accounts hrun ?_ fun _ _ _ hm h => accounts_step h hm
  refine ⟨rfl, fun w p => ?_, Ledger.oneEach_empty⟩
  simp [Worker.payload?, Worker.trace, ledger, Ledger.Holds, Ledger.HoldsAt, Ledger.empty]

/-! ### First in, first out -/

/-- The payload that an event takes from the queue. -/
def Event.pops? : Event → Option Bytes
  | .wire _ _ (.command (.brpop _ _)) (some (.arr (_ :: payload :: _))) _ => some payload
  | _ => none

theorem taken_perform {who : Party} {op : Wire} {net : Net} (hs : Accounts s)
    (hop : s.op? who = some op) :
    (account (ledger s.log) (s.event who op net)).taken =
      (ledger s.log).taken ++ (s.event who op net).pops?.toList := by
  have hsends := sends_of_op? hop
  cases hreply : s.serverReply who op net with
  | none =>
    rw [Sys.event, hreply, account_of_not_executed]
    cases op with
    | connect => simp [Event.pops?]
    | command c => cases c <;> simp [Event.pops?]
  | some reply =>
    cases op with
    | connect => simp [Sys.event, account, Event.pops?]
    | command c =>
      cases c with
      | brpop key timeoutSec =>
        cases who with
        | handler r => obtain ⟨h, -, hsends⟩ := hsends; cases hsends
        | worker w =>
          cases hsends
          have hexec := (perform_store_of_executed hreply).2
          simp only [exec, hs.live] at hexec
          rw [Sys.event, hreply]
          cases hw : (ledger s.log).waiting with
          | nil =>
            rw [hw] at hexec
            subst hexec
            simp [account, Event.pops?]
          | cons j js =>
            rw [hw] at hexec
            simp at hexec
            subst hexec
            exact Ledger.taken_take hw
      | lpush key payload =>
        rw [Sys.event, hreply]
        cases reply with
        | int n => by_cases hkey : key = queueKey <;> simp [account, Event.pops?, hkey]
        | _ => simp [account, Event.pops?]
      | _ => cases who <;> simp [Sys.event, account, Event.pops?]

theorem taken_closes {e : Event} (h : e.Closes s) (L : Ledger Bytes Nat) :
    (account L e).taken = L.taken ++ e.pops?.toList := by
  cases e with
  | wire => exact h.elim
  | _ => simp [account, Event.pops?]

/-- **What the workers took from the queue, in order, is what the ledger has taken.** -/
theorem popped_eq_taken {as : List Action} (hrun : Reaches cfg as s) :
    s.log.filterMap Event.pops? = (ledger s.log).taken := by
  induction as using List.reverseRecOn generalizing s with
  | nil =>
    obtain rfl : ({} : Sys cfg) = s := Option.some.inj hrun
    rfl
  | append_singleton as a ih =>
    obtain ⟨m, hm, ha⟩ := run_concat_iff.mp hrun
    have appended : ∀ {e}, s.log = m.log ++ [e] →
        (account (ledger m.log) e).taken = (ledger m.log).taken ++ e.pops?.toList →
        s.log.filterMap Event.pops? = (ledger s.log).taken := by
      intro e heq htaken
      rw [heq, ledger_concat, htaken, List.filterMap_append, ih hm]
      cases he : e.pops? <;> simp [he]
    rcases step_cases ha with ⟨who, net, op, rfl, hop, rfl⟩ | hquiet
    · exact appended perform_log (taken_perform (accounts hm) hop)
    · rcases hquiet.log with heq | ⟨e, heq, hcloses⟩
      · rw [heq]; exact ih hm
      · exact appended heq (taken_closes hcloses _)

end Ocpe.System
